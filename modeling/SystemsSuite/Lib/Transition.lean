import Mathlib

set_option autoImplicit false

namespace SystemsSuite.Lib

universe u v w

-- Labelled transition systems; a label carries every choice the environment makes in a step.
structure System (State : Type u) (Label : Type v) where
  initial : State → Prop
  step : State → Label → State → Prop

section Paths

variable {State : Type u} {Label : Type v} {step : State → Label → State → Prop}

inductive Path (step : State → Label → State → Prop) : State → List Label → State → Prop
  | nil (s : State) : Path step s [] s
  | cons (s mid t : State) (l : Label) (rest : List Label) :
      step s l mid → Path step mid rest t → Path step s (l :: rest) t

namespace Path

theorem append {s mid t : State} {labels more : List Label} (first : Path step s labels mid)
    (rest : Path step mid more t) : Path step s (labels ++ more) t := by
  induction first with
  | nil => exact rest
  | cons s next _ l labels taken _ ih => exact .cons s next t l (labels ++ more) taken (ih rest)

theorem single {s t : State} {l : Label} (taken : step s l t) : Path step s [l] t :=
  .cons s t t l [] taken (.nil t)

theorem mono {step' : State → Label → State → Prop} {s t : State} {labels : List Label}
    (weaker : ∀ s l t, step s l t → step' s l t) (path : Path step s labels t) :
    Path step' s labels t := by
  induction path with
  | nil s => exact .nil s
  | cons s mid t l rest taken _ ih => exact .cons s mid t l rest (weaker s l mid taken) ih

theorem invariant {I : State → Prop} {s t : State} {labels : List Label} (path : Path step s labels t)
    (preserved : ∀ s, ∀ l ∈ labels, ∀ t, I s → step s l t → I t) (holds : I s) : I t := by
  induction path with
  | nil => exact holds
  | cons s mid t l rest taken _ ih =>
    apply ih
    · exact fun s l member t => preserved s l (List.mem_cons_of_mem _ member) t
    · exact preserved s l List.mem_cons_self mid holds taken

end Path

end Paths

namespace System

variable {State : Type u} {Label : Type v} {Ghost : Type w}

-- States reached by runs whose every step meets `guard` in the state it starts from.
inductive ReachableVia (sys : System State Label) (guard : State → Label → Prop) : State → Prop
  | initial {s : State} : sys.initial s → ReachableVia sys guard s
  | step {s t : State} {l : Label} :
      ReachableVia sys guard s → guard s l → sys.step s l t → ReachableVia sys guard t

def Reachable (sys : System State Label) : State → Prop :=
  sys.ReachableVia fun _ _ => True

variable {sys : System State Label} {guard : State → Label → Prop}

theorem ReachableVia.invariant {I : State → Prop}
    (base : ∀ s, sys.initial s → I s)
    (preserved : ∀ s l t, I s → guard s l → sys.step s l t → I t)
    {s : State} (reached : sys.ReachableVia guard s) : I s := by
  induction reached with
  | initial start => exact base _ start
  | step _ meets taken ih => exact preserved _ _ _ ih meets taken

theorem ReachableVia.weaken {weaker : State → Label → Prop}
    (implied : ∀ s l, guard s l → weaker s l)
    {s : State} (reached : sys.ReachableVia guard s) : sys.ReachableVia weaker s := by
  induction reached with
  | initial start => exact .initial start
  | step _ meets taken ih => exact .step ih (implied _ _ meets) taken

theorem Reachable.invariant {I : State → Prop}
    (base : ∀ s, sys.initial s → I s)
    (preserved : ∀ s l t, I s → sys.step s l t → I t)
    {s : State} (reached : sys.Reachable s) : I s :=
  ReachableVia.invariant base (fun s l t holds _ => preserved s l t holds) reached

def ofNext (initial : State → Prop) (next : State → Label → Option State) : System State Label where
  initial := initial
  step s l t := next s l = some t

-- Runs a list of labels, stopping at a label that `check` refuses or that is not enabled.
def execute (next : State → Label → Option State) (check : State → Label → Bool) :
    State → List Label → Option State
  | s, [] => some s
  | s, l :: rest => if check s l then (next s l).bind (execute next check · rest) else none

theorem execute_reachableVia {initial : State → Prop} {next : State → Label → Option State}
    {check : State → Label → Bool} {guard : State → Label → Prop}
    (sound : ∀ s l, check s l = true → guard s l) {s t : State} {labels : List Label}
    (reached : (ofNext initial next).ReachableVia guard s)
    (ran : execute next check s labels = some t) : (ofNext initial next).ReachableVia guard t := by
  induction labels generalizing s with
  | nil =>
    obtain rfl := Option.some.inj ran
    exact reached
  | cons l rest ih =>
    simp only [execute] at ran
    split at ran
    next allowed =>
      obtain ⟨mid, taken, remaining⟩ := Option.bind_eq_some_iff.mp ran
      exact ih (.step reached (sound s l allowed) taken) remaining
    next => contradiction

theorem execute_reachable {initial : State → Prop} {next : State → Label → Option State} {s t : State}
    (start : initial s) (labels : List Label)
    (ran : execute next (fun _ _ => true) s labels = some t) : (ofNext initial next).Reachable t :=
  execute_reachableVia (fun _ _ _ => trivial) (.initial start) ran

theorem execute_path {next : State → Label → Option State} {check : State → Label → Bool}
    {guard : State → Label → Prop} (sound : ∀ s l, check s l = true → guard s l) {s t : State}
    {labels : List Label} (ran : execute next check s labels = some t) :
    Path (fun s l t => guard s l ∧ next s l = some t) s labels t := by
  induction labels generalizing s with
  | nil =>
    obtain rfl := Option.some.inj ran
    exact .nil s
  | cons l rest ih =>
    simp only [execute] at ran
    split at ran
    next allowed =>
      obtain ⟨mid, taken, remaining⟩ := Option.bind_eq_some_iff.mp ran
      exact .cons s mid t l rest ⟨sound s l allowed, taken⟩ (ih remaining)
    next => contradiction

-- The system with what `note` keeps of the steps of a run.
def recorded (sys : System State Label) (start : State → Ghost)
    (note : Ghost → State → Label → State → Ghost) : System (State × Ghost) Label where
  initial s := sys.initial s.1 ∧ s.2 = start s.1
  step s l t := sys.step s.1 l t.1 ∧ t.2 = note s.2 s.1 l t.1

theorem ReachableVia.recorded {s : State} (reached : sys.ReachableVia guard s) (start : State → Ghost)
    (note : Ghost → State → Label → State → Ghost) :
    ∃ kept, (sys.recorded start note).ReachableVia (fun s => guard s.1) (s, kept) := by
  induction reached with
  | @initial s first => exact ⟨start s, .initial ⟨first, rfl⟩⟩
  | @step s t l _ meets taken ih =>
    obtain ⟨kept, before⟩ := ih
    exact ⟨note kept s l t, .step before meets ⟨taken, rfl⟩⟩

theorem execute_recorded {initial : State → Prop} {next : State → Label → Option State}
    {start : State → Ghost} {note : Ghost → State → Label → State → Ghost} {check : State × Ghost → Label → Bool}
    {guard : State × Ghost → Label → Prop} (sound : ∀ s l, check s l = true → guard s l) {s : State}
    {t : State × Ghost} {labels : List Label} (first : initial s)
    (ran : execute (fun s l => (next s.1 l).map fun t => (t, note s.2 s.1 l t)) check (s, start s) labels = some t) :
    ((ofNext initial next).recorded start note).ReachableVia guard t := by
  have reached : ((ofNext initial next).recorded start note).ReachableVia guard (s, start s) := .initial ⟨first, rfl⟩
  generalize (s, start s) = u at reached ran
  induction labels generalizing u with
  | nil =>
    obtain rfl := Option.some.inj ran
    exact reached
  | cons l rest ih =>
    simp only [execute] at ran
    split at ran
    next allowed =>
      obtain ⟨mid, taken, remaining⟩ := Option.bind_eq_some_iff.mp ran
      obtain ⟨after, step, rfl⟩ := Option.map_eq_some_iff.mp taken
      have whole : ((ofNext initial next).recorded start note).step u l (after, note u.2 u.1 l after) := ⟨step, rfl⟩
      exact ih _ (.step reached (sound u l allowed) whole) remaining
    next => contradiction

end System

section Endless

variable {State : Type u} {step step' : State → State → Prop} {s : State}

def Endless (step : State → State → Prop) (s : State) : Prop :=
  ∃ run : ℕ → State, run 0 = s ∧ ∀ n, step (run n) (run (n + 1))

-- A run of steps that keep `I` is one of the steps that may be taken where `I` holds.
theorem Endless.within {I : State → Prop} (keeps : ∀ s t, I s → step s t → step' s t ∧ I t) (holds : I s)
    (endless : Endless step s) : Endless step' s := by
  obtain ⟨run, first, steps⟩ := endless
  have always (n : ℕ) : I (run n) := by
    induction n with
    | zero => exact first ▸ holds
    | succ n ih => exact (keeps _ _ ih (steps n)).2
  exact ⟨run, first, fun n => (keeps _ _ (always n) (steps n)).1⟩

end Endless

end SystemsSuite.Lib
