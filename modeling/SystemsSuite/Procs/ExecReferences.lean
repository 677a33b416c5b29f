import SystemsSuite.Lib.Transition

set_option autoImplicit false

namespace SystemsSuite.Procs

open Lib

-- References to the inodes of executables. `execips` has the `p->execip` of every process that has not exited,
-- `ref` the part of each `ip->ref` that `kexec`, `kfork` and `kexit` add and take.
structure Executables where
  execips : List (Option Nat)
  ref : Nat → Int

-- How far `kexec` gets: `namei` finds nothing; the ELF header is bad or there is no page table;
-- a program header is bad; there is no room for the stack or the arguments; it succeeds.
inductive ExecEnd
  | notFound
  | badHeader
  | badProgram
  | badStack
  | done
  deriving DecidableEq, Repr

inductive RefStep
  | userinit
  | kexec (i ip : Nat) (how : ExecEnd)
  | kfork (i : Nat) (ok : Bool)
  | kexit (i : Nat)

namespace Executables

def execip (s : Executables) (i : Nat) : Option Nat := s.execips.getD i none

-- `namei` (through `iget`) and `idup` add a reference.
def idup (s : Executables) (ip : Nat) : Executables :=
  { s with ref := Function.update s.ref ip (s.ref ip + 1) }

def iput (s : Executables) (ip : Nat) : Executables :=
  { s with ref := Function.update s.ref ip (s.ref ip - 1) }

def setExecip (s : Executables) (i : Nat) (execip : Option Nat) : Executables :=
  { s with execips := s.execips.set i execip }

-- At `bad` both branches drop the reference if `ip` is still set.
def kexec (s : Executables) (i ip : Nat) : ExecEnd → Executables
  | .notFound => s
  | .badHeader => (s.idup ip).iput ip
  | .badProgram => ((s.idup ip).setExecip i (some ip)).iput ip
  | .badStack | .done => (s.idup ip).setExecip i (some ip)

-- A failed `kfork` gives up before it copies `execip`.
def kfork (s : Executables) (i : Nat) (ok : Bool) : Executables :=
  if ok then
    match s.execip i with
    | some ip => { s.idup ip with execips := s.execips ++ [some ip] }
    | none => { s with execips := s.execips ++ [none] }
  else s

def kexit (s : Executables) (i : Nat) : Executables :=
  match s.execip i with
  | some ip => { s.iput ip with execips := s.execips.eraseIdx i }
  | none => { s with execips := s.execips.eraseIdx i }

def next (s : Executables) : RefStep → Option Executables
  | .userinit => some { s with execips := s.execips ++ [none] }
  | .kexec i ip how => if i < s.execips.length then some (s.kexec i ip how) else none
  | .kfork i ok => if i < s.execips.length then some (s.kfork i ok) else none
  | .kexit i => if i < s.execips.length then some (s.kexit i) else none

def AtBoot (s : Executables) : Prop := s.execips = [] ∧ s.ref = fun _ => 0

def system : System Executables RefStep := System.ofNext AtBoot next

-- How many processes execute `ip`.
def holders (s : Executables) (ip : Nat) : Nat := s.execips.count (some ip)

end Executables

-- What a `kexec` leaves behind: the reference to the old executable that `p->execip` no longer
-- keeps, and the reference to the new one that was dropped though `p->execip` is left set.
structure Strays where
  overwritten : Nat → Nat
  dropped : Nat → Nat

namespace Strays

def none : Strays := ⟨fun _ => 0, fun _ => 0⟩

def overwrite (strays : Strays) (old : Option Nat) : Strays :=
  { strays with overwritten := fun ip => strays.overwritten ip + if old = some ip then 1 else 0 }

def drop (strays : Strays) (ip : Nat) : Strays :=
  { strays with dropped := fun jp => strays.dropped jp + if ip = jp then 1 else 0 }

def note (strays : Strays) (s : Executables) : RefStep → Executables → Strays
  | .kexec i ip how, _ => match how with
    | .notFound | .badHeader => strays
    | .badProgram => (strays.overwrite (s.execip i)).drop ip
    | .badStack | .done => strays.overwrite (s.execip i)
  | _, _ => strays

end Strays

namespace Executables

variable {s s' : Executables} {strays : Strays}

-- Every reference is held by a process, or is a stray one.
def Accounted (s : Executables) (strays : Strays) : Prop :=
  ∀ ip, s.ref ip + strays.dropped ip = s.holders ip + strays.overwritten ip

theorem count_set {l : List (Option Nat)} {i : Nat} (inside : i < l.length) (new a : Option Nat) :
    (l.set i new).count a + (if l.getD i none = a then 1 else 0) = l.count a + if new = a then 1 else 0 := by
  induction l generalizing i with
  | nil => simp at inside
  | cons head rest ih =>
    cases i with
    | zero => simp [List.count_cons]; omega
    | succ i =>
      have later := ih (i := i) (by simpa using inside)
      simp only [List.set_cons_succ, List.count_cons, List.getD_cons_succ]
      omega

theorem count_eraseIdx {l : List (Option Nat)} {i : Nat} (inside : i < l.length) (a : Option Nat) :
    (l.eraseIdx i).count a + (if l.getD i none = a then 1 else 0) = l.count a := by
  induction l generalizing i with
  | nil => simp at inside
  | cons head rest ih =>
    cases i with
    | zero => simp [List.count_cons]
    | succ i =>
      have later := ih (i := i) (by simpa using inside)
      simp only [List.eraseIdx_cons_succ, List.count_cons, List.getD_cons_succ]
      omega

theorem userinit_accounted (balanced : s.Accounted strays) :
    Accounted { s with execips := s.execips ++ [none] } strays := by
  intro ip
  simpa [holders] using balanced ip

theorem idup_ref (s : Executables) (ip jp : Nat) :
    (s.idup ip).ref jp = s.ref jp + (if ip = jp then 1 else 0 : Nat) := by
  by_cases same : jp = ip
  · simp [idup, same]
  · simp [idup, same, Ne.symm same]

theorem iput_ref (s : Executables) (ip jp : Nat) :
    (s.iput ip).ref jp = s.ref jp - (if ip = jp then 1 else 0 : Nat) := by
  by_cases same : jp = ip
  · simp [iput, same]
  · simp [iput, same, Ne.symm same]

theorem setExecip_holders {i : Nat} (inside : i < s.execips.length) (ip jp : Nat) :
    (s.setExecip i (some ip)).holders jp + (if s.execip i = some jp then 1 else 0)
      = s.holders jp + if ip = jp then 1 else 0 := by
  have counted := count_set inside (some ip) (some jp)
  simp only [Option.some.injEq] at counted
  exact counted

theorem kexec_accounted (balanced : s.Accounted strays) {i : Nat} (inside : i < s.execips.length)
    (ip : Nat) (how : ExecEnd) : (s.kexec i ip how).Accounted (strays.note s (.kexec i ip how) s') := by
  intro jp
  have before := balanced jp
  have opened := idup_ref s ip jp
  have moved := setExecip_holders inside ip jp
  have overwritten : (strays.overwrite (s.execip i)).overwritten jp
      = strays.overwritten jp + if s.execip i = some jp then 1 else 0 := rfl
  cases how with
  | notFound => exact before
  | badHeader =>
    have closed := iput_ref (s.idup ip) ip jp
    calc ((s.idup ip).iput ip).ref jp + strays.dropped jp
        = s.ref jp + strays.dropped jp := by omega
      _ = s.holders jp + strays.overwritten jp := before
  | badProgram =>
    have closed := iput_ref ((s.idup ip).setExecip i (some ip)) ip jp
    have kept : ((s.idup ip).setExecip i (some ip)).ref jp = (s.idup ip).ref jp := rfl
    have dropped : (strays.drop ip).dropped jp = strays.dropped jp + if ip = jp then 1 else 0 := rfl
    show (((s.idup ip).setExecip i (some ip)).iput ip).ref jp + (strays.drop ip).dropped jp
      = (s.setExecip i (some ip)).holders jp + (strays.overwrite (s.execip i)).overwritten jp
    omega
  | badStack | done =>
    show (s.idup ip).ref jp + strays.dropped jp
      = (s.setExecip i (some ip)).holders jp + (strays.overwrite (s.execip i)).overwritten jp
    omega

theorem kfork_accounted (balanced : s.Accounted strays) (i : Nat) (ok : Bool) :
    (s.kfork i ok).Accounted strays := by
  intro jp
  have before := balanced jp
  cases ok with
  | false => exact before
  | true =>
    cases holds : s.execip i with
    | none =>
      have same : (s.kfork i true).holders jp = s.holders jp := by
        simp only [kfork, holds, if_true, holders, List.count_append]
        simp
      have kept : (s.kfork i true).ref jp = s.ref jp := by simp only [kfork, holds, if_true]
      omega
    | some ip =>
      have shared := idup_ref s ip jp
      have joined : (s.kfork i true).holders jp = s.holders jp + if ip = jp then 1 else 0 := by
        simp only [kfork, holds, if_true, holders, List.count_append, List.count_singleton]
        simp
      have referenced : (s.kfork i true).ref jp = (s.idup ip).ref jp := by
        simp only [kfork, holds, if_true]
      omega

theorem kexit_accounted (balanced : s.Accounted strays) {i : Nat} (inside : i < s.execips.length) :
    (s.kexit i).Accounted strays := by
  intro jp
  have before := balanced jp
  have left : (s.execips.eraseIdx i).count (some jp) + (if s.execip i = some jp then 1 else 0)
      = s.holders jp := count_eraseIdx inside (some jp)
  cases holds : s.execip i with
  | none =>
    have same : (s.kexit i).holders jp = s.holders jp := by
      simpa only [kexit, holders, holds, reduceCtorEq, if_false, Nat.add_zero] using left
    have kept : (s.kexit i).ref jp = s.ref jp := by simp only [kexit, holds]
    omega
  | some ip =>
    have released := iput_ref s ip jp
    have fewer : (s.kexit i).holders jp + (if ip = jp then 1 else 0) = s.holders jp := by
      simpa only [kexit, holders, holds, Option.some.injEq] using left
    have kept : (s.kexit i).ref jp = (s.iput ip).ref jp := by simp only [kexit, holds]
    omega

theorem next_accounted {l : RefStep} (balanced : s.Accounted strays) (taken : s.next l = some s') :
    s'.Accounted (strays.note s l s') := by
  cases l with
  | userinit =>
    cases taken
    exact userinit_accounted balanced
  | kexec i ip how =>
    obtain ⟨inside, happens⟩ := Option.ite_none_right_eq_some.mp taken
    cases happens
    exact kexec_accounted balanced inside ip how
  | kfork i ok =>
    obtain ⟨_, happens⟩ := Option.ite_none_right_eq_some.mp taken
    cases happens
    exact kfork_accounted balanced i ok
  | kexit i =>
    obtain ⟨inside, happens⟩ := Option.ite_none_right_eq_some.mp taken
    cases happens
    exact kexit_accounted balanced inside

def Balanced (s : Executables) : Prop := ∀ ip, s.ref ip = s.holders ip

-- `kexec` leaves no reference behind.
def Clean (s : Executables) : RefStep → Prop
  | .kexec i ip how => match how with
    | .notFound | .badHeader => True
    | .badProgram => s.execip i = some ip
    | .badStack | .done => s.execip i = none
  | _ => True

theorem balanced_iff (accounted : s.Accounted strays) :
    s.Balanced ↔ strays.dropped = strays.overwritten := by
  constructor
  · intro balanced
    funext ip
    have whole := accounted ip
    have even := balanced ip
    omega
  · intro even ip
    have whole := accounted ip
    rw [even] at whole
    omega

theorem clean_iff (l : RefStep) :
    Clean s l ↔ (Strays.none.note s l s').dropped = (Strays.none.note s l s').overwritten := by
  cases l with
  | userinit | kfork | kexit => simp [Clean, Strays.note, Strays.none]
  | kexec i ip how =>
    cases how with
    | notFound | badHeader => simp [Clean, Strays.note, Strays.none]
    | badProgram =>
      simp only [Clean, Strays.note, Strays.none, Strays.overwrite, Strays.drop, Nat.zero_add]
      constructor
      · intro same
        funext jp
        simp [same]
      · intro even
        by_contra other
        have here := congrFun even ip
        simp [other] at here
    | badStack | done =>
      simp only [Clean, Strays.note, Strays.none, Strays.overwrite, Nat.zero_add]
      constructor
      · intro same
        funext jp
        simp [same]
      · intro even
        cases holds : s.execip i with
        | none => rfl
        | some jp =>
          have here := congrFun even jp
          simp [holds] at here

theorem next_balanced {l : RefStep} (balanced : s.Balanced) (taken : s.next l = some s') :
    s'.Balanced ↔ Clean s l := by
  have accounted : s.Accounted Strays.none := fun ip => by simpa [Strays.none] using balanced ip
  rw [balanced_iff (next_accounted accounted taken), ← clean_iff]

theorem atBoot_balanced (boot : s.AtBoot) : s.Balanced := by
  intro ip
  simp [holders, boot.1, boot.2]

theorem exec_references_conserved (reached : system.ReachableVia Clean s) :
    s.Balanced ∧ ∀ l s', s.next l = some s' → (s'.Balanced ↔ Clean s l) := by
  have balanced : s.Balanced :=
    reached.invariant (fun _ => atBoot_balanced)
      fun _ _ _ balanced clean taken => (next_balanced balanced taken).mpr clean
  exact ⟨balanced, fun _ _ => next_balanced balanced⟩

def clean (s : Executables) : RefStep → Bool
  | .kexec i ip .badProgram => s.execip i == some ip
  | .kexec i _ .badStack | .kexec i _ .done => s.execip i == none
  | _ => true

theorem clean_sound (s : Executables) (l : RefStep) (passed : s.clean l = true) : s.Clean l := by
  cases l with
  | userinit | kfork | kexit => exact trivial
  | kexec i ip how =>
    cases how with
    | notFound | badHeader => exact trivial
    | badProgram | badStack | done => exact eq_of_beq passed

def booted : Executables := ⟨[], fun _ => 0⟩

theorem run_clean (labels : List RefStep)
    (ran : System.execute next clean booted labels = some s) : system.ReachableVia Clean s :=
  System.execute_reachableVia clean_sound (.initial ⟨rfl, rfl⟩) ran

theorem exec_references_conserved_forked :
    ∃ s : Executables, s.execips = [some 5] ∧ s.ref 5 = 1 ∧ s.Balanced := by
  refine ⟨_, ?_, ?_, (exec_references_conserved
    (run_clean [.userinit, .kexec 0 5 .done, .kfork 0 true, .kexit 0] rfl)).1⟩
  · rfl
  · decide

-- The second `kexec` loses the reference to the first executable.
theorem execed_twice_pins :
    ∃ s : Executables, system.Reachable s ∧ s.execips = [some 7] ∧ s.ref 5 = 1 ∧ s.holders 5 = 0 := by
  refine ⟨_, System.execute_reachable (s := booted) ⟨rfl, rfl⟩ [.userinit, .kexec 0 5 .done, .kexec 0 7 .done] rfl, ?_, ?_, ?_⟩
  · rfl
  · decide
  · decide

end Executables

end SystemsSuite.Procs
