import SystemsSuite.Lib.Program
import SystemsSuite.Procs.ProcTable

set_option autoImplicit false

namespace SystemsSuite.Procs

open Lib Prog

inductive LockPanic
  | acquire
  | release
  | popOff
  deriving DecidableEq, Repr

-- A CPU on its own: `held` are the slots whose lock it holds, `noff` is how deep its `push_off` calls nest, and
-- `proc` is `c->proc`.
structure Cpu (n : Nat) where
  table : Table n
  held : List (Fin n)
  noff : Nat
  proc : Option (Fin n)

abbrev Sched (n : Nat) := Prog LockPanic (Cpu n)

variable {n : Nat}

def holding (p : Fin n) : Sched n Bool := do pure ((← read).held.contains p)

def acquire (p : Fin n) : Sched n Unit := do
  if ← holding p then panic .acquire
  else update fun c => { c with held := p :: c.held, noff := c.noff + 1 }

def release (p : Fin n) : Sched n Unit := do
  if ← holding p then
    if (← read).noff < 1 then panic .popOff
    else update fun c => { c with held := c.held.erase p, noff := c.noff - 1 }
  else panic .release

def slot (p : Fin n) : Sched n (Proc n) := do pure ((← read).table.procs p)

def countRunnable : List (Fin n) → Nat → Sched n Nat
  | [], numRunnable => pure numRunnable
  | p :: rest, numRunnable => do
    acquire p
    let runnable := (← slot p).isUser
    release p
    countRunnable rest (if runnable then numRunnable + 1 else numRunnable)

def cfsScan : List (Fin n) → Option (Fin n) → Nat → Sched n (Option (Fin n))
  | [], bestProc, _ => pure bestProc
  | p :: rest, bestProc, minVruntime => do
    acquire p
    let proc ← slot p
    if proc.isUser then
      match bestProc with
      | none => cfsScan rest (some p) proc.vruntime
      | some best =>
        if proc.vruntime < minVruntime then
          release best
          cfsScan rest (some p) proc.vruntime
        else
          release p
          cfsScan rest bestProc minVruntime
    else
      release p
      cfsScan rest bestProc minVruntime

def fcfsScan : List (Fin n) → Option (Fin n) → Nat → Sched n (Option (Fin n))
  | [], earliestProc, _ => pure earliestProc
  | p :: rest, earliestProc, earliestTime => do
    acquire p
    let proc ← slot p
    release p
    if proc.isUser ∧ (earliestProc = none ∨ proc.creationTime < earliestTime) then
      fcfsScan rest (some p) proc.creationTime
    else fcfsScan rest earliestProc earliestTime

def fallback : List (Fin n) → Sched n (Option (Fin n))
  | [] => pure none
  | p :: rest => do
    acquire p
    if (← slot p).state = .runnable then pure (some p)
    else
      release p
      fallback rest

def orFallback (chosen : Option (Fin n)) : Sched n (Option (Fin n)) :=
  match chosen with
  | some p => pure (some p)
  | none => fallback (List.finRange n)

-- Up to `swtch`, with the process that it switches to.
def switchTo (p : Fin n) (prepare : Proc n → Proc n) : Sched n (Option (Fin n)) := do
  if (← slot p).state = .runnable then
    update fun c => { c with
      table := c.table.update p fun proc => { prepare proc with state := .running }
      proc := some p }
    pure (some p)
  else
    release p
    pure none

def cfsPass : Sched n (Option (Fin n)) := do
  let numRunnable ← countRunnable (List.finRange n) 0
  let slice := max (if 0 < numRunnable then targetLatency / numRunnable else targetLatency) minTimeSlice
  match ← orFallback (← cfsScan (List.finRange n) none maxUint64) with
  | some bestProc => switchTo bestProc fun p => { p with timeSlice := slice }
  | none => pure none

def fcfsPass : Sched n (Option (Fin n)) := do
  match ← orFallback (← fcfsScan (List.finRange n) none 0) with
  | some earliestProc =>
    if ← holding earliestProc then pure ()
    else acquire earliestProc
    switchTo earliestProc id
  | none => pure none

def Cpu.idle (t : Table n) : Cpu n := ⟨t, [], 0, none⟩

def Cpu.locked (c : Cpu n) (held : List (Fin n)) : Cpu n := { c with held := held, noff := held.length }

variable {c : Cpu n} {E : LockPanic → Prop}

@[simp] theorem Cpu.locked_table (c : Cpu n) (held : List (Fin n)) : (c.locked held).table = c.table := rfl

@[simp] theorem wp_slot {Q : Proc n → Cpu n → Prop} (p : Fin n) :
    wp (slot p) Q E c ↔ Q (c.table.procs p) c := Iff.rfl

@[simp] theorem wp_holding {Q : Bool → Cpu n → Prop} (p : Fin n) :
    wp (holding p) Q E c ↔ Q (decide (p ∈ c.held)) c := by
  rw [← List.contains_eq_mem]
  exact Iff.rfl

theorem wp_acquire {Q : Unit → Cpu n → Prop} {p : Fin n} {held : List (Fin n)} (free : p ∉ held)
    (holds : Q () (c.locked (p :: held))) : wp (acquire p) Q E (c.locked held) := by
  simpa [acquire, holding, wp_ite, Cpu.locked, free] using holds

theorem wp_release {Q : Unit → Cpu n → Prop} {p : Fin n} {held : List (Fin n)} (mine : p ∈ held)
    (holds : Q () (c.locked (held.erase p))) : wp (release p) Q E (c.locked held) := by
  have some : held.length ≠ 0 := List.length_pos_iff.mpr (List.ne_nil_of_mem mine) |>.ne'
  simpa [release, holding, wp_ite, Cpu.locked, mine, List.length_erase_of_mem mine, some] using holds

theorem countRunnable_locks (ps : List (Fin n)) (count : Nat) :
    wp (countRunnable ps count) (fun numRunnable c' =>
        numRunnable = count + (ps.filter fun i => (c.table.procs i).isUser).length ∧ c' = c.locked [])
      (fun _ => False) (c.locked []) := by
  induction ps generalizing count with
  | nil => exact ⟨rfl, rfl⟩
  | cons p rest ih =>
    rw [countRunnable, wp_bind]
    apply wp_acquire List.not_mem_nil
    rw [wp_bind, wp_slot, Cpu.locked_table, wp_bind]
    apply wp_release List.mem_cons_self
    rw [List.erase_cons_head, List.filter_cons]
    simp only [decide_eq_true_eq]
    split_ifs
    · rw [List.length_cons, ← Nat.add_assoc, Nat.add_right_comm]
      exact ih _
    · exact ih _

namespace Table

variable {t : Table n} {key : Proc n → Nat}

def pick (t : Table n) (key : Proc n → Nat) (best : Option (Fin n)) (p : Fin n) : Option (Fin n) :=
  if (t.procs p).isUser ∧ ∀ b ∈ best, key (t.procs p) < key (t.procs b) then some p else best

theorem best_eq_foldl (t : Table n) (key : Proc n → Nat) :
    t.best key = (List.finRange n).foldl (t.pick key) none := by
  have round (best : Option (Fin n)) (p : Fin n) : t.pick key best p =
      if decide (t.procs p).isUser = true then
        List.argAux (fun b c => key (t.procs b) < key (t.procs c)) best p
      else best := by
    unfold pick List.argAux
    cases best <;> simp [ite_and]
  unfold best userSlots List.argmin
  rw [List.foldl_filter]
  congr 1
  funext best p
  exact (round best p).symm

theorem best_first {i j : Fin n} (chosen : t.best key = some i) (eligible : (t.procs j).isUser)
    (earlier : j < i) : key (t.procs i) < key (t.procs j) := by
  have member := mem_userSlots.mpr eligible
  by_contra least
  have index := List.index_of_argmin chosen member (Nat.le_of_not_lt least)
  have sorted : t.userSlots.Pairwise (· < ·) := (List.pairwise_lt_finRange n).filter _
  have inside := List.idxOf_lt_length_iff.mpr member
  have placed := List.idxOf_lt_length_iff.mpr (List.argmin_mem chosen)
  rcases index.lt_or_eq with before | same
  · have ordered := List.pairwise_iff_getElem.mp sorted _ _ placed inside before
    simp only [List.getElem_idxOf] at ordered
    omega
  · have equal : i = j := List.idxOf_inj (List.argmin_mem chosen) |>.mp same
    omega

theorem systemProcess_first {i j : Fin n} (chosen : t.systemProcess = some i) (earlier : j < i) :
    (t.procs j).state ≠ .runnable := by
  obtain ⟨_, before, after, split, passed⟩ := List.find?_eq_some_iff_append.mp chosen
  have sorted : (before ++ i :: after).Pairwise (· < ·) := split ▸ List.pairwise_lt_finRange n
  have member : j ∈ before ++ i :: after := split ▸ List.mem_finRange j
  rcases List.mem_append.mp member with left | right
  · simpa using passed j left
  · rcases List.mem_cons.mp right with rfl | later
    · exact absurd earlier (lt_irrefl _)
    · have ordered := (List.pairwise_cons.mp (List.pairwise_append.mp sorted).2.1).1 j later
      exact absurd (earlier.trans ordered) (lt_irrefl _)

end Table

theorem cfsScan_locks (ps : List (Fin n)) (bestProc : Option (Fin n)) (minVruntime : Nat)
    (distinct : ps.Nodup) (apart : ∀ b ∈ bestProc, b ∉ ps)
    (least : ∀ b ∈ bestProc, minVruntime = (c.table.procs b).vruntime) :
    wp (cfsScan ps bestProc minVruntime) (fun r c' =>
        r = ps.foldl (c.table.pick Proc.vruntime) bestProc ∧ c' = c.locked r.toList)
      (fun _ => False) (c.locked bestProc.toList) := by
  induction ps generalizing bestProc minVruntime with
  | nil => exact ⟨rfl, rfl⟩
  | cons p rest ih =>
    obtain ⟨fresh, distinct⟩ := List.nodup_cons.mp distinct
    have free : p ∉ bestProc.toList := by
      intro held
      exact apart p (Option.mem_toList.mp held) List.mem_cons_self
    have kept (unpicked : c.table.pick Proc.vruntime bestProc p = bestProc) :
        wp (do release p; cfsScan rest bestProc minVruntime) (fun r c' =>
            r = (p :: rest).foldl (c.table.pick Proc.vruntime) bestProc ∧ c' = c.locked r.toList)
          (fun _ => False) (c.locked (p :: bestProc.toList)) := by
      rw [wp_bind]
      apply wp_release List.mem_cons_self
      rw [List.erase_cons_head, List.foldl_cons, unpicked]
      exact ih bestProc minVruntime distinct (fun b here later => apart b here (List.mem_cons_of_mem _ later))
        least
    have taken (picked : c.table.pick Proc.vruntime bestProc p = some p) :
        wp (cfsScan rest (some p) (c.table.procs p).vruntime) (fun r c' =>
            r = (p :: rest).foldl (c.table.pick Proc.vruntime) bestProc ∧ c' = c.locked r.toList)
          (fun _ => False) (c.locked [p]) := by
      rw [List.foldl_cons, picked]
      exact ih (some p) _ distinct (by simpa using fresh) (by simp)
    rw [cfsScan, wp_bind]
    apply wp_acquire free
    rw [wp_bind, wp_slot, Cpu.locked_table]
    by_cases user : (c.table.procs p).isUser
    · rw [if_pos user]
      cases bestProc with
      | none => exact taken (if_pos ⟨user, by simp⟩)
      | some best =>
        obtain rfl := least best rfl
        by_cases smaller : (c.table.procs p).vruntime < (c.table.procs best).vruntime
        · have handedOver : (p :: (some best).toList).erase best = [p] := by
            have other : p ≠ best := fun same => free (by simp [same])
            simp [other]
          simp only [if_pos smaller, wp_bind]
          apply wp_release (by simp)
          rw [handedOver]
          exact taken (if_pos ⟨user, by simpa using smaller⟩)
        · simp only [if_neg smaller]
          exact kept (if_neg (by simpa [user] using smaller))
    · rw [if_neg user]
      exact kept (if_neg fun both => user both.1)

theorem fcfsScan_locks (ps : List (Fin n)) (earliestProc : Option (Fin n)) (earliestTime : Nat)
    (earliest : ∀ b ∈ earliestProc, earliestTime = (c.table.procs b).creationTime) :
    wp (fcfsScan ps earliestProc earliestTime) (fun r c' =>
        r = ps.foldl (c.table.pick Proc.creationTime) earliestProc ∧ c' = c.locked [])
      (fun _ => False) (c.locked []) := by
  induction ps generalizing earliestProc earliestTime with
  | nil => exact ⟨rfl, rfl⟩
  | cons p rest ih =>
    rw [fcfsScan, wp_bind]
    apply wp_acquire List.not_mem_nil
    rw [wp_bind, wp_slot, Cpu.locked_table, wp_bind]
    apply wp_release List.mem_cons_self
    rw [List.erase_cons_head, List.foldl_cons]
    have same : (c.table.procs p).isUser ∧ (earliestProc = none ∨
        (c.table.procs p).creationTime < earliestTime) ↔
        (c.table.procs p).isUser ∧ ∀ b ∈ earliestProc,
          (c.table.procs p).creationTime < (c.table.procs b).creationTime := by
      cases earliestProc with
      | none => simp
      | some b => simp [earliest b rfl]
    by_cases sooner : (c.table.procs p).isUser ∧ (earliestProc = none ∨
        (c.table.procs p).creationTime < earliestTime)
    · have picked : c.table.pick Proc.creationTime earliestProc p = some p := if_pos (same.mp sooner)
      rw [picked, if_pos sooner]
      exact ih (some p) _ (by simp)
    · have passed : c.table.pick Proc.creationTime earliestProc p = earliestProc :=
        if_neg fun both => sooner (same.mpr both)
      rw [passed, if_neg sooner]
      exact ih earliestProc earliestTime earliest

theorem fallback_locks (ps : List (Fin n)) :
    wp (fallback ps) (fun r c' =>
        r = ps.find? (fun i => decide ((c.table.procs i).state = .runnable)) ∧ c' = c.locked r.toList)
      (fun _ => False) (c.locked []) := by
  induction ps with
  | nil => exact ⟨rfl, rfl⟩
  | cons p rest ih =>
    rw [fallback, wp_bind]
    apply wp_acquire List.not_mem_nil
    rw [wp_bind, wp_slot, Cpu.locked_table]
    split_ifs with runnable
    · rw [List.find?_cons_of_pos (by simpa using runnable)]
      exact ⟨rfl, rfl⟩
    · rw [List.find?_cons_of_neg (by simpa using runnable), wp_bind]
      apply wp_release List.mem_cons_self
      rw [List.erase_cons_head]
      exact ih

theorem wp_switchTo {Q : Option (Fin n) → Cpu n → Prop} {p : Fin n} {prepare : Proc n → Proc n}
    (runnable : (c.table.procs p).state = .runnable)
    (holds : Q (some p) { c with
      table := c.table.update p fun proc => { prepare proc with state := .running }
      proc := some p }) : wp (switchTo p prepare) Q E c := by
  unfold switchTo
  rw [wp_bind, wp_slot, if_pos runnable]
  exact holds

-- The process that a pass of the scheduler has to switch to: the user process with the least key, or the first
-- runnable process if there is no user process.
def Table.Selected (t : Table n) (key : Proc n → Nat) (i : Fin n) : Prop :=
  (t.procs i).state = .runnable ∧
  (((t.procs i).isUser ∧ ∀ j, (t.procs j).isUser →
      key (t.procs i) ≤ key (t.procs j) ∧ (j < i → key (t.procs i) < key (t.procs j))) ∨
    ((∀ j, ¬ (t.procs j).isUser) ∧ ∀ j < i, (t.procs j).state ≠ .runnable))

-- The pass has come to `swtch` with the lock of the chosen process, or found nothing to run.
structure Switched (t : Table n) (key : Proc n → Nat) (r : Option (Fin n)) (c : Cpu n) : Prop where
  some_runnable : r.isSome ↔ ∃ i, (t.procs i).state = .runnable
  selected : ∀ i ∈ r, t.Selected key i ∧ (c.table.procs i).state = .running
  chosen : c.proc = r
  locks : c.held = r.toList
  nesting : c.noff = r.toList.length
  others : ∀ j, j ∉ r → c.table.procs j = t.procs j

theorem Table.selected {t : Table n} {key : Proc n → Nat} {i : Fin n}
    (chosen : (t.best key).or t.systemProcess = some i) : t.Selected key i := by
  rcases Option.or_eq_some_iff.mp chosen with best | ⟨missing, first⟩
  · refine ⟨(best_user best).1, .inl ⟨best_user best, fun j user => ?_⟩⟩
    exact ⟨best_least best user, fun earlier => best_first best user earlier⟩
  · have runnable : (t.procs i).state = .runnable := by simpa using first_some first
    exact ⟨runnable, .inr ⟨best_none missing, fun j earlier => systemProcess_first first earlier⟩⟩

theorem Table.nothing_runnable {t : Table n} {key : Proc n → Nat}
    (missing : (t.best key).or t.systemProcess = none) (i : Fin n) : (t.procs i).state ≠ .runnable := by
  rw [Option.or_eq_none_iff] at missing
  simpa using first_none missing.2 i

-- Where a pass comes to `swtch` with a process, and where there is none.
def Cpu.after (t : Table n) (prepare : Proc n → Proc n) : Option (Fin n) → Cpu n
  | none => Cpu.idle t
  | some i => { (Cpu.idle t).locked [i] with
      table := t.update i fun proc => { prepare proc with state := .running }
      proc := some i }

theorem switched_after {t : Table n} {key : Proc n → Nat} {r : Option (Fin n)}
    (found : r = (t.best key).or t.systemProcess) (prepare : Proc n → Proc n) :
    Switched t key r (Cpu.after t prepare r) := by
  cases r with
  | none =>
    refine ⟨?_, fun _ none_ => absurd none_ (Option.not_mem_none _), rfl, rfl, rfl, fun _ _ => rfl⟩
    simp [Table.nothing_runnable found.symm]
  | some i =>
    refine ⟨?_, fun j same => ?_, rfl, rfl, rfl, fun j other => ?_⟩
    · have runnable := (Table.selected found.symm).1
      simpa using ⟨i, runnable⟩
    · obtain rfl := Option.some.inj same
      exact ⟨Table.selected found.symm, by simp [Cpu.after]⟩
    · have apart : j ≠ i := fun same => other (by simp [same])
      simp [Cpu.after, apart]

theorem wp_after {t : Table n} {key : Proc n → Nat} {r : Option (Fin n)}
    (found : r = (t.best key).or t.systemProcess) (prepare : Proc n → Proc n) :
    wp (match r with
      | some p => switchTo p prepare
      | none => pure none) (fun r' c => r' = (t.best key).or t.systemProcess ∧ c = Cpu.after t prepare r')
      (fun _ => False) ((Cpu.idle t).locked r.toList) := by
  cases r with
  | none => exact ⟨found, rfl⟩
  | some i => exact wp_switchTo (Table.selected found.symm).1 ⟨found, rfl⟩

theorem orFallback_locks (chosen : Option (Fin n)) (held : List (Fin n)) (none_held : chosen = none → held = []) :
    wp (orFallback chosen) (fun r c' => r = chosen.or c.table.systemProcess ∧
        (c' = c.locked r.toList ∨ r = chosen ∧ c' = c.locked held)) (fun _ => False) (c.locked held) := by
  cases chosen with
  | some i => exact ⟨rfl, .inr ⟨rfl, rfl⟩⟩
  | none =>
    rw [none_held rfl]
    apply wp_mono (fallback_locks _) _ fun _ panics => panics
    rintro r c' ⟨rfl, rfl⟩
    exact ⟨rfl, .inl rfl⟩

theorem cfsPass_after (t : Table n) :
    wp cfsPass (fun r c => r = (t.best Proc.vruntime).or t.systemProcess ∧
        c = Cpu.after t (fun p => { p with timeSlice := t.slice }) r) (fun _ => False) (Cpu.idle t) := by
  unfold cfsPass
  apply wp_seq (countRunnable_locks (c := Cpu.idle t) _ _)
  rintro numRunnable _ ⟨counted, rfl⟩
  have slice : max (if 0 < numRunnable then targetLatency / numRunnable else targetLatency) minTimeSlice = t.slice := by
    rw [counted, Nat.zero_add]
    rfl
  simp only [slice]
  apply wp_seq (cfsScan_locks (c := Cpu.idle t) _ none _ (List.nodup_finRange n) (by simp) (by simp))
  rintro best _ ⟨rfl, rfl⟩
  rw [← Table.best_eq_foldl]
  apply wp_seq (orFallback_locks (c := Cpu.idle t) _ _ (by simp +contextual))
  rintro r _ ⟨found, rfl | ⟨rfl, rfl⟩⟩
  · exact wp_after found _
  · exact wp_after found _

theorem fcfsPass_after (t : Table n) :
    wp fcfsPass (fun r c => r = (t.best Proc.creationTime).or t.systemProcess ∧ c = Cpu.after t id r)
      (fun _ => False) (Cpu.idle t) := by
  have locked {r : Option (Fin n)} (found : r = (t.best Proc.creationTime).or t.systemProcess)
      {held : List (Fin n)} (either : held = r.toList ∨ held = []) :
      wp (match r with
        | some earliestProc => do
          if ← holding earliestProc then pure ()
          else acquire earliestProc
          switchTo earliestProc id
        | none => pure none)
        (fun r' c => r' = (t.best Proc.creationTime).or t.systemProcess ∧ c = Cpu.after t id r') (fun _ => False)
        ((Cpu.idle t).locked held) := by
    have after := wp_after found id
    cases r with
    | none =>
      obtain rfl : held = [] := by simpa using either
      exact after
    | some i =>
      simp only [wp_bind, wp_holding]
      rcases either with rfl | rfl
      · rw [if_pos (by simp [Cpu.locked])]
        exact after
      · rw [if_neg (by simp [Cpu.locked]), wp_bind]
        exact wp_acquire List.not_mem_nil after
  unfold fcfsPass
  apply wp_seq (fcfsScan_locks (c := Cpu.idle t) _ none _ (by simp))
  rintro earliest _ ⟨rfl, rfl⟩
  rw [← Table.best_eq_foldl]
  apply wp_seq (orFallback_locks (c := Cpu.idle t) _ _ fun _ => rfl)
  rintro r _ ⟨found, rfl | ⟨_, rfl⟩⟩
  · exact locked found (.inl rfl)
  · exact locked found (.inr rfl)

-- A process that was asleep clears its channel once it runs.
def Table.awake (t : Table n) : Option (Fin n) → Table n
  | none => t
  | some i => t.update i fun p => { p with chan := none }

theorem after_awake {t : Table n} {build : Build} {prepare : Proc n → Proc n} (i : Fin n)
    (same : ∀ p : Proc n, prepare p = { p with timeSlice := if build = .cfs then t.slice else p.timeSlice }) :
    (Cpu.after t prepare (some i)).table.awake (some i) = t.dispatch build i := by
  unfold Cpu.after Table.awake Table.dispatch Table.update
  simp only [same, Function.update_self, Function.update_idem]

-- The passes that take and release the locks choose and set what `Table.pass` does in one step.
theorem passes_refine (t : Table n) (start : Nat) (found : Bool) :
    (∃ r c, cfsPass (Cpu.idle t) = .ok (r, c) ∧ ∀ kernel, t.choose kernel .cfs start found = Table.orWfi r ∧
      t.pass kernel .cfs start found = c.table.awake r) ∧
    ∃ r c, fcfsPass (Cpu.idle t) = .ok (r, c) ∧ t.choose .memory .fcfs start found = Table.orWfi r ∧
      t.pass .memory .fcfs start found = c.table.awake r := by
  constructor
  · obtain ⟨r, c, ran, chosen, rfl⟩ := wp_total (cfsPass_after t)
    refine ⟨r, _, ran, fun kernel => ?_⟩
    have choose : t.choose kernel .cfs start found = Table.orWfi r := by rw [chosen, Table.choose]
    refine ⟨choose, ?_⟩
    unfold Table.pass
    rw [choose]
    cases r with
    | none => rfl
    | some i => exact (after_awake i fun p => by rw [if_pos rfl]).symm
  · obtain ⟨r, c, ran, chosen, rfl⟩ := wp_total (fcfsPass_after t)
    refine ⟨r, _, ran, ?_⟩
    have choose : t.choose .memory .fcfs start found = Table.orWfi r := by rw [chosen, Table.choose]
    refine ⟨choose, ?_⟩
    unfold Table.pass
    rw [choose]
    cases r with
    | none => rfl
    | some i => exact (after_awake i fun p => rfl).symm

theorem dispatch_selection (t : Table n) :
    (∃ r c, cfsPass (Cpu.idle t) = .ok (r, c) ∧ Switched t Proc.vruntime r c) ∧
      ∃ r c, fcfsPass (Cpu.idle t) = .ok (r, c) ∧ Switched t Proc.creationTime r c :=
  ⟨wp_total (wp_mono (cfsPass_after t) (fun _ _ ended => ended.2 ▸ switched_after ended.1 _) fun _ panics => panics),
    wp_total (wp_mono (fcfsPass_after t) (fun _ _ ended => ended.2 ▸ switched_after ended.1 _) fun _ panics => panics)⟩

end SystemsSuite.Procs
