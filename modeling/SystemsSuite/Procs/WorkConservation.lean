import SystemsSuite.Procs.ProcTable

set_option autoImplicit false

namespace SystemsSuite.Procs.Table

open Lib

variable {n : Nat} {t t' : Table n} {kernel : Kernel} {build : Build} {cpus : Nat}

-- A full pass of the scheduler dispatches a runnable process.
def Dispatches (kernel : Kernel) (build : Build) (t : Table n) : Prop :=
  ∃ i, (t.procs i).state = .runnable ∧ t.choose kernel build 0 false = .dispatch i

theorem dispatches_of_choose {i : Fin n} (chosen : t.choose kernel build 0 false = .dispatch i) :
    t.Dispatches kernel build :=
  ⟨i, choose_runnable chosen, chosen⟩

theorem systemProcess_some {i : Fin n} (waiting : (t.procs i).state = .runnable) :
    ∃ j, t.systemProcess = some j := by
  cases found : t.systemProcess with
  | some j => exact ⟨j, rfl⟩
  | none => simpa [waiting] using first_none found i

theorem best_some {i : Fin n} (key : Proc n → Nat) (user : (t.procs i).isUser) :
    ∃ j, t.best key = some j := by
  cases chosen : t.best key with
  | some j => exact ⟨j, rfl⟩
  | none => exact absurd user (best_none chosen i)

theorem orWfi_fallback {o : Option (Fin n)} {i : Fin n} (waiting : (t.procs i).state = .runnable) :
    ∃ j, orWfi (o.or t.systemProcess) = .dispatch j := by
  obtain ⟨j, found⟩ := systemProcess_some waiting
  cases o with
  | none => exact ⟨j, by simp [orWfi, found]⟩
  | some k => exact ⟨k, by simp [orWfi]⟩

theorem cfs_dispatches {i : Fin n} (waiting : (t.procs i).state = .runnable) :
    t.Dispatches kernel .cfs := by
  obtain ⟨j, chosen⟩ := orWfi_fallback (o := t.best Proc.vruntime) waiting
  exact dispatches_of_choose chosen

-- The scheduling kernel's other builds only look at user processes.
theorem scheduling_dispatches (other : build ≠ .cfs) :
    t.Dispatches .scheduling build ↔ ∃ i, (t.procs i).isUser := by
  constructor
  · rintro ⟨i, _, chosen⟩
    cases build with
    | cfs => exact absurd rfl other
    | fcfs =>
      cases best : t.best Proc.creationTime with
      | some j => exact ⟨j, best_user best⟩
      | none => simp [choose, best, orWfi] at chosen
    | roundRobin =>
      cases found : t.userSlots.find? fun i => 0 ≤ i.val with
      | some j => exact ⟨j, mem_userSlots.mp (List.mem_of_find?_eq_some found)⟩
      | none => simp only [choose, found] at chosen; contradiction
  · rintro ⟨i, user⟩
    cases build with
    | cfs => exact absurd rfl other
    | fcfs =>
      obtain ⟨j, best⟩ := best_some Proc.creationTime user
      exact dispatches_of_choose (i := j) (by simp [choose, best, orWfi])
    | roundRobin =>
      cases found : t.userSlots.find? fun i => 0 ≤ i.val with
      | some j => exact dispatches_of_choose (i := j) (by simp only [choose, found])
      | none => simpa using List.find?_eq_none.mp found i (mem_userSlots.mpr user)

-- Nothing has run yet, and what waits is a system process.
def Asleep (t : Table n) : Prop :=
  ∀ i, (t.procs i).state = .unused ∨ (t.procs i).state = .runnable ∧ (t.procs i).pid ≤ 2

theorem Asleep.notRunning (asleep : Asleep t) (i : Fin n) : ¬ t.isRunning i := by
  intro now
  simp only [isRunning] at now
  rcases asleep i with state | ⟨state, _⟩ <;> simp [state] at now

theorem Asleep.noUser (asleep : Asleep t) (i : Fin n) : ¬ (t.procs i).isUser := by
  rintro ⟨runnable, user⟩
  rcases asleep i with state | ⟨_, pid⟩
  · simp [state] at runnable
  · omega

theorem Asleep.idles (asleep : Asleep t) (other : build ≠ .cfs) : ¬ t.Dispatches .scheduling build := by
  rw [scheduling_dispatches other]
  rintro ⟨i, user⟩
  exact asleep.noUser i user

theorem Asleep.wakeup (asleep : Asleep t) (me : Option (Fin n)) (chan : Chan n) :
    Asleep (t.wakeup me chan) := by
  intro i
  have awake : (t.procs i).state ≠ .sleeping := by
    rcases asleep i with state | ⟨state, _⟩ <;> simp [state]
  simpa [Table.wakeup, awake] using asleep i

theorem Asleep.pass (asleep : Asleep t) (other : build ≠ .cfs) (start : Nat) (found : Bool) :
    t.pass .scheduling build start found = t := by
  have empty : t.userSlots = [] := by
    apply List.eq_nil_iff_forall_not_mem.mpr
    exact fun i member => asleep.noUser i (mem_userSlots.mp member)
  cases build with
  | cfs => exact absurd rfl other
  | fcfs => simp [Table.pass, choose, best, empty, orWfi]
  | roundRobin => cases found <;> simp [Table.pass, choose, empty]

theorem Asleep.next {l : TableStep n} (asleep : Asleep t) (other : build ≠ .cfs)
    (taken : t.next .scheduling build cpus l = some t') : Asleep t' := by
  have free (i : Fin n) : ¬ t.isFree i := fun free => asleep.notRunning i free.1
  cases l with
  | pass start found =>
    obtain ⟨_, happens⟩ := Option.ite_none_right_eq_some.mp taken
    rw [asleep.pass other] at happens
    cases happens
    exact asleep
  | interrupt addr =>
    cases taken
    exact asleep.wakeup none _
  | yield i | sleep i | wakeup i | setkilled i | kkill i =>
    simp [Table.next, asleep.notRunning i] at taken
  | kforkAlloc i | kwait i => simp [Table.next, free i] at taken
  | kforkParent i | kforkReady i =>
    cases forking : (t.procs i).fork <;> simp [Table.next, forking, asleep.notRunning i] at taken
  | kexit i =>
    cases is : t.initproc <;> simp [Table.next, is, free i] at taken

theorem userinit_asleep (start : t.AfterUserinit) : Asleep t := by
  simp only [AfterUserinit, userinit, Option.map_eq_some_iff, Prod.exists] at start
  obtain ⟨r, mid, found, rfl⟩ := start
  have others := (allocproc_some found).2.2.2.2.2.2.1
  have first : (mid.procs r).pid = 1 := by
    simp only [allocproc, Option.map_eq_some_iff, Prod.mk.injEq] at found
    obtain ⟨i, _, rfl, rfl⟩ := found
    simp [update, boot]
  intro i
  by_cases same : i = r
  · simp [same, first]
  · have unused : (mid.procs i).state = .unused := by rw [others i same]; rfl
    simp [same, unused]

theorem work_conserved (reached : (system n .scheduling build cpus).Reachable t)
    (waiting : ∃ i, (t.procs i).state = .runnable) :
    t.Dispatches .scheduling build ↔ build = .cfs := by
  constructor
  · intro dispatches
    by_contra other
    have asleep : Asleep t :=
      reached.invariant (fun _ => userinit_asleep)
        fun s _ _ asleep taken => asleep.next (l := _) other taken
    exact asleep.idles other dispatches
  · rintro rfl
    obtain ⟨i, runnable⟩ := waiting
    exact cfs_dispatches runnable

theorem work_conserved_userinit : ∃ t : Table nproc,
    t.Dispatches .scheduling .cfs ∧ ¬ t.Dispatches .scheduling .roundRobin := by
  have waiting : ∃ t : Table nproc, t.AfterUserinit ∧ ∃ i, (t.procs i).state = .runnable :=
    ⟨(boot.userinit (n := nproc)).get rfl, rfl, ⟨0, by decide⟩, rfl⟩
  obtain ⟨t, start, runnable⟩ := waiting
  have fair : (system nproc .scheduling .cfs 1).Reachable t := .initial start
  have turns : (system nproc .scheduling .roundRobin 1).Reachable t := .initial start
  refine ⟨t, ?_, ?_⟩
  · exact (work_conserved fair runnable).mpr rfl
  · intro dispatches
    exact nomatch (work_conserved turns runnable).mp dispatches

-- Neither the round robin nor the FCFS build ever runs the first process.
theorem first_process_waits : ∃ t : Table nproc, t.AfterUserinit ∧
    (t.procs ⟨0, by decide⟩).state = .runnable ∧
    t.choose .scheduling .roundRobin 0 false = .wfi ∧ t.choose .scheduling .fcfs 0 false = .wfi := by
  refine ⟨(boot.userinit (n := nproc)).get rfl, rfl, rfl, ?_, ?_⟩
  · decide
  · decide

end SystemsSuite.Procs.Table
