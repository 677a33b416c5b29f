import SystemsSuite.Procs.ProcTable

set_option autoImplicit false

namespace SystemsSuite.Procs

open Lib

variable {n : Nat}

def Proc.isAlive (p : Proc n) : Prop :=
  p.state = .runnable ∨ p.state = .running ∨ p.state = .sleeping

namespace Table

variable {t t₁ t' : Table n} {kernel : Kernel} {build : Build} {cpus : Nat} {i : Fin n}

-- Asleep in `kwait`, on its own channel.
def Waits (t : Table n) (i : Fin n) : Prop :=
  (t.procs i).state = .sleeping ∧ (t.procs i).chan = some (.proc i)

def NoZombieChild (t : Table n) (i : Fin n) : Prop :=
  ∀ j, (t.procs j).parent = some i → (t.procs j).state ≠ .zombie

-- Parents and children: an unfinished `kfork` owns its child, every other process has a live parent, and nobody
-- waits beside a child that has exited.
structure Family (t : Table n) : Prop where
  initproc : ∃ r, t.initproc = some r ∧ (t.procs r).isAlive
  allocated : ∀ i np, (t.procs i).fork = .allocated np →
    (t.procs i).isAlive ∧ (t.procs np).state = .used ∧ (t.procs np).parent = none
  adopted : ∀ i np, (t.procs i).fork = .adopted np →
    (t.procs i).isAlive ∧ (t.procs np).state = .used ∧ (t.procs np).parent = some i
  apart : ∀ i j np, (t.procs i).fork = .allocated np → (t.procs j).fork = .allocated np → i = j
  unused : ∀ i, (t.procs i).state = .unused → (t.procs i).parent = none
  parent : ∀ i, (t.procs i).isAlive ∨ (t.procs i).state = .zombie → t.initproc ≠ some i →
    ∃ q, (t.procs i).parent = some q ∧ (t.procs q).isAlive
  waits : ∀ i, t.Waits i → t.NoZombieChild i

-- A step that leaves the families as they are: live processes stay alive, and who falls asleep in
-- `kwait` has no child that has exited.
structure Gentle (t t' : Table n) : Prop where
  initproc : t'.initproc = t.initproc
  parent : ∀ i, (t'.procs i).parent = (t.procs i).parent
  fork : ∀ i, (t'.procs i).fork = (t.procs i).fork
  state : ∀ i, (t'.procs i).state = (t.procs i).state ∨ (t.procs i).isAlive ∧ (t'.procs i).isAlive
  waits : ∀ i, t'.Waits i → t.Waits i ∨ t.NoZombieChild i

theorem isAlive_of_state {p q : Proc n} (same : q.state = p.state) : q.isAlive ↔ p.isAlive := by
  simp only [Proc.isAlive, same]

theorem isAlive_present {p : Proc n} (live : p.isAlive) : p.state ≠ .unused ∧ p.state ≠ .zombie := by
  rcases live with state | state | state <;> simp [state]

theorem isAlive_of_change {p q : Proc n} (change : q.state = p.state ∨ p.isAlive ∧ q.isAlive) :
    q.isAlive ↔ p.isAlive := by
  rcases change with same | ⟨before, after⟩
  · exact isAlive_of_state same
  · simp only [before, after]

theorem dead_of_change {p q : Proc n} {state : ProcState}
    (change : q.state = p.state ∨ p.isAlive ∧ q.isAlive)
    (dead : state = .unused ∨ state = .used ∨ state = .zombie) : q.state = state ↔ p.state = state := by
  rcases change with same | ⟨before, after⟩
  · rw [same]
  · rcases dead with rfl | rfl | rfl <;> simp only [Proc.isAlive] at before after <;>
      constructor <;> intro now <;> simp_all

theorem Gentle.isAlive (gentle : Gentle t t') (i : Fin n) :
    (t'.procs i).isAlive ↔ (t.procs i).isAlive :=
  isAlive_of_change (gentle.state i)

theorem Gentle.dead (gentle : Gentle t t') {i : Fin n} {state : ProcState}
    (dead : state = .unused ∨ state = .used ∨ state = .zombie) :
    (t'.procs i).state = state ↔ (t.procs i).state = state :=
  dead_of_change (gentle.state i) dead

theorem Gentle.noZombieChild (gentle : Gentle t t') {i : Fin n} (none : t.NoZombieChild i) :
    t'.NoZombieChild i := by
  intro j child zombie
  exact none j ((gentle.parent j).symm.trans child) ((gentle.dead (.inr (.inr rfl))).mp zombie)

theorem Gentle.family (gentle : Gentle t t') (family : Family t) : Family t' where
  initproc := by
    obtain ⟨r, is, alive⟩ := family.initproc
    exact ⟨r, gentle.initproc.trans is, (gentle.isAlive r).mpr alive⟩
  allocated i np forking := by
    obtain ⟨alive, used, orphan⟩ := family.allocated i np ((gentle.fork i).symm.trans forking)
    exact ⟨(gentle.isAlive i).mpr alive, (gentle.dead (.inr (.inl rfl))).mpr used,
      (gentle.parent np).trans orphan⟩
  adopted i np forking := by
    obtain ⟨alive, used, child⟩ := family.adopted i np ((gentle.fork i).symm.trans forking)
    exact ⟨(gentle.isAlive i).mpr alive, (gentle.dead (.inr (.inl rfl))).mpr used,
      (gentle.parent np).trans child⟩
  apart i j np first second :=
    family.apart i j np ((gentle.fork i).symm.trans first) ((gentle.fork j).symm.trans second)
  unused i vacant :=
    (gentle.parent i).trans (family.unused i ((gentle.dead (.inl rfl)).mp vacant))
  parent i present other := by
    have before : (t.procs i).isAlive ∨ (t.procs i).state = .zombie :=
      present.imp (gentle.isAlive i).mp (gentle.dead (.inr (.inr rfl))).mp
    obtain ⟨q, child, alive⟩ := family.parent i before (gentle.initproc ▸ other)
    exact ⟨q, (gentle.parent i).trans child, (gentle.isAlive q).mpr alive⟩
  waits i waiting :=
    gentle.noZombieChild ((gentle.waits i waiting).elim (family.waits i) id)

theorem Gentle.refl (t : Table n) : Gentle t t where
  initproc := rfl
  parent := fun _ => rfl
  fork := fun _ => rfl
  state := fun _ => .inl rfl
  waits := fun _ => .inl

theorem Gentle.trans (first : Gentle t t₁) (second : Gentle t₁ t') : Gentle t t' where
  initproc := second.initproc.trans first.initproc
  parent i := (second.parent i).trans (first.parent i)
  fork i := (second.fork i).trans (first.fork i)
  state i := by
    rcases second.state i with same | ⟨before, after⟩
    · rw [same, isAlive_of_state same]
      exact first.state i
    · exact .inr ⟨(first.isAlive i).mp before, after⟩
  waits i waiting := by
    rcases second.waits i waiting with between | childless
    · exact first.waits i between
    · refine .inr fun j child zombie => ?_
      exact childless j ((first.parent j).trans child) ((first.dead (.inr (.inr rfl))).mpr zombie)

theorem wakeup_gentle (t : Table n) (me : Option (Fin n)) (chan : Chan n) :
    Gentle t (t.wakeup me chan) where
  initproc := rfl
  parent i := by simp only [wakeup]; split <;> rfl
  fork i := by simp only [wakeup]; split <;> rfl
  state i := by
    simp only [wakeup]
    split
    next asleep => exact .inr ⟨.inr (.inr asleep.2.1), .inl rfl⟩
    next => exact .inl rfl
  waits i := by
    simp only [Waits, wakeup]
    split
    next => simp
    next => exact .inl

-- An update of one process that keeps its parent and its `kfork`.
theorem update_gentle {f : Proc n → Proc n}
    (parent : (f (t.procs i)).parent = (t.procs i).parent)
    (fork : (f (t.procs i)).fork = (t.procs i).fork)
    (state : (f (t.procs i)).state = (t.procs i).state ∨ (t.procs i).isAlive ∧ (f (t.procs i)).isAlive)
    (waits : (f (t.procs i)).state = .sleeping → (f (t.procs i)).chan = some (.proc i) →
      t.Waits i ∨ t.NoZombieChild i) :
    Gentle t (t.update i f) where
  initproc := rfl
  parent j := by
    by_cases same : j = i
    · simp [same, parent]
    · simp [same]
  fork j := by
    by_cases same : j = i
    · simp [same, fork]
    · simp [same]
  state j := by
    by_cases same : j = i
    · simpa [same] using state
    · simp [same]
  waits j := by
    by_cases same : j = i
    · subst same
      simpa [Waits] using waits
    · simp only [Waits, update_procs, if_neg same]
      exact .inl

theorem sched_gentle (build : Build) (t : Table n) (i : Fin n) : Gentle t (t.sched build i) := by
  cases build with
  | roundRobin | fcfs => exact .refl t
  | cfs =>
    simp only [sched]
    apply update_gentle
    · rfl
    · rfl
    · exact .inl rfl
    · exact fun asleep chan => .inl ⟨asleep, chan⟩

theorem yield_gentle (running : t.isRunning i) : Gentle t (t.yield build i) := by
  apply Gentle.trans _ (sched_gentle build _ i)
  apply update_gentle
  · rfl
  · rfl
  · exact .inr ⟨.inr (.inl running), .inl rfl⟩
  · exact nofun

theorem sleep_gentle {chan : Chan n} (running : t.isRunning i)
    (childless : chan = .proc i → t.NoZombieChild i) : Gentle t (t.sleep build i chan) := by
  apply Gentle.trans _ (sched_gentle build _ i)
  apply update_gentle
  · rfl
  · rfl
  · exact .inr ⟨.inr (.inl running), .inr (.inr rfl)⟩
  · intro _ own
    exact .inr (childless (Option.some.inj own))

theorem setkilled_gentle (t : Table n) (i : Fin n) : Gentle t (t.setkilled i) := by
  apply update_gentle
  · rfl
  · rfl
  · exact .inl rfl
  · exact fun asleep chan => .inl ⟨asleep, chan⟩

theorem kkill_gentle (t : Table n) (pid : Nat) : Gentle t (t.kkill pid) := by
  simp only [kkill]
  split
  next i _ =>
    by_cases asleep : (t.procs i).state = .sleeping
    · apply update_gentle
      · rfl
      · rfl
      · exact .inr ⟨.inr (.inr asleep), .inl (if_pos asleep)⟩
      · simp [asleep]
    · apply update_gentle
      · rfl
      · rfl
      · exact .inl (if_neg asleep)
      · simp [asleep]
  next => exact .refl t

theorem pass_gentle (start : Nat) (found : Bool) : Gentle t (t.pass kernel build start found) := by
  simp only [pass]
  split
  next i chosen =>
    apply update_gentle
    · rfl
    · rfl
    · exact .inr ⟨.inl (choose_runnable chosen), .inr (.inl rfl)⟩
    · exact nofun
  next => exact .refl t
  next => exact .refl t

theorem Family.idle (family : Family t) (dead : ¬ (t.procs i).isAlive) : (t.procs i).fork = .idle := by
  cases forking : (t.procs i).fork with
  | idle => rfl
  | allocated np => exact absurd (family.allocated i np forking).1 dead
  | adopted np => exact absurd (family.adopted i np forking).1 dead

theorem vacant_family {np : Fin n} (vacant : (t.procs np).state = .unused)
    (state : (t'.procs np).state = .unused) (parent : (t'.procs np).parent = none)
    (fork : (t'.procs np).fork = (t.procs np).fork)
    (others : ∀ j, j ≠ np → t'.procs j = t.procs j) (initproc : t'.initproc = t.initproc)
    (family : Family t) : Family t' := by
  apply Gentle.family _ family
  constructor
  · exact initproc
  · intro j
    by_cases same : j = np
    · rw [same, parent, family.unused np vacant]
    · rw [others j same]
  · intro j
    by_cases same : j = np
    · rw [same, fork]
    · rw [others j same]
  · intro j
    by_cases same : j = np
    · exact .inl (by rw [same, state, vacant])
    · exact .inl (by rw [others j same])
  · intro j waiting
    by_cases same : j = np
    · subst same
      simp [Waits, state] at waiting
    · exact .inl (by simpa only [Waits, others j same] using waiting)

-- What `kfork` does to the fields that the families are about.
theorem allocated_family {np : Fin n} (free : t.isFree i) (vacant : (t.procs np).state = .unused)
    (state : ∀ j, (t'.procs j).state = if j = np then .used else (t.procs j).state)
    (parent : ∀ j, (t'.procs j).parent = (t.procs j).parent)
    (chan : ∀ j, (t'.procs j).chan = (t.procs j).chan)
    (fork : ∀ j, (t'.procs j).fork = if j = i then .allocated np else (t.procs j).fork)
    (initproc : t'.initproc = t.initproc) (family : Family t) : Family t' := by
  obtain ⟨running, idle⟩ := free
  have alive (j : Fin n) : (t'.procs j).isAlive ↔ (t.procs j).isAlive := by
    by_cases same : j = np
    · simp [Proc.isAlive, state, same, vacant]
    · simp [Proc.isAlive, state, same]
  have unforked (j m : Fin n) (forking : (t.procs j).fork = .allocated m ∨ (t.procs j).fork = .adopted m) :
      m ≠ np := by
    rintro rfl
    have used : (t.procs m).state = .used :=
      forking.elim (fun f => (family.allocated j m f).2.1) fun f => (family.adopted j m f).2.1
    simp [vacant] at used
  constructor
  · obtain ⟨r, is, live⟩ := family.initproc
    exact ⟨r, initproc.trans is, (alive r).mpr live⟩
  · intro j m forking
    by_cases same : j = i
    · subst same
      have is : np = m := by simpa [fork] using forking
      subst is
      exact ⟨(alive j).mpr (.inr (.inl running)), by simp [state], (parent np).trans (family.unused np vacant)⟩
    · rw [fork, if_neg same] at forking
      obtain ⟨live, used, orphan⟩ := family.allocated j m forking
      exact ⟨(alive j).mpr live, by simp [state, used], (parent m).trans orphan⟩
  · intro j m forking
    by_cases same : j = i
    · simp [fork, same] at forking
    · rw [fork, if_neg same] at forking
      obtain ⟨live, used, child⟩ := family.adopted j m forking
      exact ⟨(alive j).mpr live, by simp [state, used], (parent m).trans child⟩
  · intro j k m first second
    rw [fork] at first second
    by_cases sameJ : j = i <;> by_cases sameK : k = i
    · exact sameJ.trans sameK.symm
    · simp only [sameJ, sameK, if_true, if_false, Fork.allocated.injEq] at first second
      exact absurd first.symm (unforked k m (.inl second))
    · simp only [sameJ, sameK, if_true, if_false, Fork.allocated.injEq] at first second
      exact absurd second.symm (unforked j m (.inl first))
    · rw [if_neg sameJ] at first
      rw [if_neg sameK] at second
      exact family.apart j k m first second
  · intro j empty
    rw [state] at empty
    split at empty
    next => contradiction
    next => exact (parent j).trans (family.unused j empty)
  · intro j present other
    have before : (t.procs j).isAlive ∨ (t.procs j).state = .zombie := by
      refine present.imp (alive j).mp fun zombie => ?_
      rw [state] at zombie
      split at zombie
      next => contradiction
      next => exact zombie
    obtain ⟨q, child, live⟩ := family.parent j before (initproc ▸ other)
    exact ⟨q, (parent j).trans child, (alive q).mpr live⟩
  · intro j ⟨asleep, own⟩ k child zombie
    rw [state] at asleep zombie
    split at asleep
    next => contradiction
    next =>
      split at zombie
      next => contradiction
      next => exact family.waits j ⟨asleep, (chan j).symm.trans own⟩ k ((parent k).symm.trans child) zombie

theorem kforkAlloc_family (memory : Bool) (free : t.isFree i) (family : Family t) :
    Family (t.kforkAlloc i memory) := by
  simp only [kforkAlloc]
  split
  next => exact family
  next np mid found =>
    obtain ⟨vacant, used, weight, parent, chan, fork, others, initproc⟩ := allocproc_some found
    have apart : i ≠ np := by
      intro same
      have running : (t.procs i).state = .running := free.1
      simp [← same, running] at vacant
    cases memory with
    | false =>
      refine vacant_family vacant ?_ ?_ ?_ ?_ ?_ family
      · simp [freeproc]
      · simp [freeproc]
      · simp [freeproc, fork]
      · intro j other
        simp [freeproc, other, others j other]
      · simpa [freeproc] using initproc
    | true =>
      refine allocated_family free vacant ?_ ?_ ?_ ?_ ?_ family
      · intro j
        by_cases same : j = np
        · simp [same, apart.symm, used]
        · by_cases self : j = i <;> simp [same, self, apart, others j same, others i apart]
      · intro j
        by_cases same : j = np
        · simp [same, apart.symm, parent]
        · by_cases self : j = i <;> simp [same, self, apart, others j same, others i apart]
      · intro j
        by_cases same : j = np
        · simp [same, apart.symm, chan]
        · by_cases self : j = i <;> simp [same, self, apart, others j same, others i apart]
      · intro j
        by_cases same : j = np
        · simp [same, apart.symm, fork]
        · by_cases self : j = i <;> simp [same, self, apart, others j same, others i apart]
      · simpa using initproc

theorem Family.apart_child {np : Fin n} (family : Family t)
    (forking : (t.procs i).fork = .allocated np ∨ (t.procs i).fork = .adopted np) : i ≠ np := by
  rintro rfl
  have live : (t.procs i).isAlive ∧ (t.procs i).state = .used :=
    forking.elim (fun f => ⟨(family.allocated i i f).1, (family.allocated i i f).2.1⟩)
      fun f => ⟨(family.adopted i i f).1, (family.adopted i i f).2.1⟩
  simp [Proc.isAlive, live.2] at live

theorem kforkParent_family {np : Fin n} (forking : (t.procs i).fork = .allocated np)
    (family : Family t) : Family (t.kforkParent i np) := by
  obtain ⟨parentLive, used, orphan⟩ := family.allocated i np forking
  have apart : i ≠ np := family.apart_child (.inl forking)
  have procs (j : Fin n) := update_update_procs (t := t) apart
    (fun p => { p with parent := some i }) (fun p => { p with fork := .adopted np }) j
  have state (j : Fin n) : ((t.kforkParent i np).procs j).state = (t.procs j).state := by
    grind [kforkParent]
  have parent (j : Fin n) : ((t.kforkParent i np).procs j).parent
      = if j = np then some i else (t.procs j).parent := by
    grind [kforkParent]
  have chan (j : Fin n) : ((t.kforkParent i np).procs j).chan = (t.procs j).chan := by
    grind [kforkParent]
  have fork (j : Fin n) : ((t.kforkParent i np).procs j).fork
      = if j = i then .adopted np else (t.procs j).fork := by
    grind [kforkParent]
  have alive (j : Fin n) : ((t.kforkParent i np).procs j).isAlive ↔ (t.procs j).isAlive :=
    isAlive_of_state (state j)
  constructor
  · obtain ⟨r, is, live⟩ := family.initproc
    exact ⟨r, is, (alive r).mpr live⟩
  · intro j m allocated
    rw [fork] at allocated
    split at allocated
    next => contradiction
    next other =>
      obtain ⟨live, usedM, orphanM⟩ := family.allocated j m allocated
      have different : m ≠ np := by
        rintro rfl
        exact other (family.apart j i m allocated forking)
      exact ⟨(alive j).mpr live, (state m).trans usedM, by rw [parent, if_neg different, orphanM]⟩
  · intro j m adopted
    rw [fork] at adopted
    split at adopted
    next same =>
      obtain rfl := Fork.adopted.inj adopted
      exact ⟨same ▸ (alive i).mpr parentLive, (state np).trans used, by simp [parent, same]⟩
    next other =>
      obtain ⟨live, usedM, child⟩ := family.adopted j m adopted
      have different : m ≠ np := by
        rintro rfl
        simp [orphan] at child
      exact ⟨(alive j).mpr live, (state m).trans usedM, by rw [parent, if_neg different, child]⟩
  · intro j k m first second
    rw [fork] at first second
    split at first
    next => contradiction
    next =>
      split at second
      next => contradiction
      next => exact family.apart j k m first second
  · intro j empty
    rw [state] at empty
    have different : j ≠ np := by
      rintro rfl
      simp [used] at empty
    rw [parent, if_neg different]
    exact family.unused j empty
  · intro j present other
    rw [alive, state] at present
    obtain ⟨q, child, live⟩ := family.parent j present other
    have different : j ≠ np := by
      rintro rfl
      simp [orphan] at child
    exact ⟨q, by rw [parent, if_neg different, child], (alive q).mpr live⟩
  · intro j ⟨asleep, own⟩ k child zombie
    rw [state] at asleep zombie
    rw [chan] at own
    have different : k ≠ np := by
      rintro rfl
      simp [used] at zombie
    rw [parent, if_neg different] at child
    exact family.waits j ⟨asleep, own⟩ k child zombie

theorem kforkReady_family {np : Fin n} (forking : (t.procs i).fork = .adopted np)
    (family : Family t) : Family (t.kforkReady i np) := by
  obtain ⟨parentLive, used, childOf⟩ := family.adopted i np forking
  have apart : i ≠ np := family.apart_child (.inr forking)
  have procs (j : Fin n) := update_update_procs (t := t) apart
    (fun p => { p with state := .runnable }) (fun p => { p with fork := .idle }) j
  have state (j : Fin n) : ((t.kforkReady i np).procs j).state
      = if j = np then .runnable else (t.procs j).state := by
    grind [kforkReady]
  have parent (j : Fin n) : ((t.kforkReady i np).procs j).parent = (t.procs j).parent := by
    grind [kforkReady]
  have chan (j : Fin n) : ((t.kforkReady i np).procs j).chan = (t.procs j).chan := by
    grind [kforkReady]
  have fork (j : Fin n) : ((t.kforkReady i np).procs j).fork
      = if j = i then .idle else (t.procs j).fork := by
    grind [kforkReady]
  have alive (j : Fin n) (live : (t.procs j).isAlive) : ((t.kforkReady i np).procs j).isAlive := by
    by_cases same : j = np
    · exact .inl (by simp [state, same])
    · exact (isAlive_of_state (by rw [state, if_neg same])).mpr live
  constructor
  · obtain ⟨r, is, live⟩ := family.initproc
    exact ⟨r, is, alive r live⟩
  · intro j m allocated
    rw [fork] at allocated
    split at allocated
    next => contradiction
    next other =>
      obtain ⟨live, usedM, orphanM⟩ := family.allocated j m allocated
      have different : m ≠ np := by
        rintro rfl
        simp [orphanM] at childOf
      exact ⟨alive j live, by rw [state, if_neg different, usedM], (parent m).trans orphanM⟩
  · intro j m adopted
    rw [fork] at adopted
    split at adopted
    next => contradiction
    next other =>
      obtain ⟨live, usedM, child⟩ := family.adopted j m adopted
      have different : m ≠ np := by
        rintro rfl
        exact other (Option.some.inj (child.symm.trans childOf))
      exact ⟨alive j live, by rw [state, if_neg different, usedM], (parent m).trans child⟩
  · intro j k m first second
    rw [fork] at first second
    split at first
    next => contradiction
    next =>
      split at second
      next => contradiction
      next => exact family.apart j k m first second
  · intro j empty
    rw [state] at empty
    split at empty
    next => contradiction
    next => exact (parent j).trans (family.unused j empty)
  · intro j present other
    by_cases same : j = np
    · exact ⟨i, (parent j).trans (same ▸ childOf), alive i parentLive⟩
    · rw [isAlive_of_state (p := t.procs j) (by rw [state, if_neg same]), state, if_neg same] at present
      obtain ⟨q, child, live⟩ := family.parent j present other
      exact ⟨q, (parent j).trans child, alive q live⟩
  · intro j ⟨asleep, own⟩ k child zombie
    rw [state] at asleep zombie
    rw [chan] at own
    rw [parent] at child
    split at asleep
    next => contradiction
    next =>
      split at zombie
      next => contradiction
      next => exact family.waits j ⟨asleep, own⟩ k child zombie

-- The loop of `reparent` over `slots`: who is still asleep in `kwait` has not been given a child
-- that has exited.
structure Reparented (t t' : Table n) (i r : Fin n) (slots : List (Fin n)) : Prop where
  initproc : t'.initproc = t.initproc
  fork : ∀ j, (t'.procs j).fork = (t.procs j).fork
  parent : ∀ j, (t'.procs j).parent
    = if j ∈ slots ∧ (t.procs j).parent = some i then some r else (t.procs j).parent
  state : ∀ j, (t'.procs j).state = (t.procs j).state ∨ (t.procs j).isAlive ∧ (t'.procs j).isAlive
  waits : ∀ k, t'.Waits k → t.Waits k ∧
    (k = r → ∀ j ∈ slots, (t.procs j).parent = some i → (t.procs j).state ≠ .zombie)

theorem wakeup_waits {me : Option (Fin n)} {k : Fin n} (waiting : (t.wakeup me (.proc i)).Waits k) :
    t.Waits k ∧ (k = i → some i = me) := by
  simp only [Waits, wakeup] at waiting
  split at waiting
  next => simp at waiting
  next awake =>
    refine ⟨waiting, ?_⟩
    rintro rfl
    by_contra other
    exact awake ⟨other, waiting⟩

theorem Reparented.append {r : Fin n} {first rest : List (Fin n)} (other : i ≠ r)
    (earlier : Reparented t t₁ i r first) (later : Reparented t₁ t' i r rest) :
    Reparented t t' i r (first ++ rest) where
  initproc := later.initproc.trans earlier.initproc
  fork j := (later.fork j).trans (earlier.fork j)
  parent j := by
    by_cases child : (t.procs j).parent = some i <;> by_cases taken : j ∈ first <;>
      simp [later.parent, earlier.parent, child, taken, other.symm]
  state j := by
    rcases earlier.state j with same | ⟨before, between⟩
    · rcases later.state j with same₂ | ⟨between, after⟩
      · exact .inl (same₂.trans same)
      · exact .inr ⟨(isAlive_of_state same).mp between, after⟩
    · rcases later.state j with same₂ | ⟨_, after⟩
      · exact .inr ⟨before, (isAlive_of_state same₂).mpr between⟩
      · exact .inr ⟨before, after⟩
  waits k waiting := by
    obtain ⟨waiting₁, spared₂⟩ := later.waits k waiting
    obtain ⟨before, spared₁⟩ := earlier.waits k waiting₁
    refine ⟨before, fun same j member child zombie => ?_⟩
    by_cases taken : j ∈ first
    · exact spared₁ same j taken child zombie
    · have child₁ : (t₁.procs j).parent = some i := by rw [earlier.parent, if_neg (by simp [taken]), child]
      have zombie₁ : (t₁.procs j).state = .zombie := by
        rcases earlier.state j with same | ⟨alive, _⟩
        · exact same.trans zombie
        · simp [Proc.isAlive, zombie] at alive
      exact spared₂ same j ((List.mem_append.mp member).resolve_left taken) child₁ zombie₁

theorem stranger_reparented {r pp : Fin n} (stranger : (t.procs pp).parent ≠ some i) :
    Reparented t t i r [pp] where
  initproc := rfl
  fork := fun _ => rfl
  parent j := by
    by_cases same : j = pp
    · simp [same, stranger]
    · simp [same]
  state := fun _ => .inl rfl
  waits k waiting := by
    refine ⟨waiting, fun _ j member child => ?_⟩
    obtain rfl := List.mem_singleton.mp member
    exact absurd child stranger

-- The child moves to `initproc`, which is woken if the child has exited.
theorem child_reparented {r pp : Fin n} (child : (t.procs pp).parent = some i)
    (gentle : Gentle (t.update pp fun p => { p with parent := some r }) t')
    (woken : t'.Waits r → (t.procs pp).state ≠ .zombie)
    (waits : ∀ k, t'.Waits k → (t.update pp fun p => { p with parent := some r }).Waits k) :
    Reparented t t' i r [pp] where
  initproc := gentle.initproc
  fork j := by
    rw [gentle.fork]
    by_cases same : j = pp <;> simp [same]
  parent j := by
    rw [gentle.parent]
    by_cases same : j = pp
    · simp [same, child]
    · simp [same]
  state j := by
    have kept : ((t.update pp fun p => { p with parent := some r }).procs j).state = (t.procs j).state := by
      by_cases same : j = pp <;> simp [same]
    simpa only [kept, isAlive_of_state kept] using gentle.state j
  waits k waiting := by
    have before : t.Waits k := by
      have between := waits k waiting
      by_cases same : k = pp
      · simpa [Waits, same] using between
      · simpa [Waits, same] using between
    refine ⟨before, fun same j member _ => ?_⟩
    obtain rfl := List.mem_singleton.mp member
    exact woken (same ▸ waiting)

theorem reparentFrom_reparented {r : Fin n} (other : i ≠ r) (slots : List (Fin n)) (t : Table n) :
    Reparented t (t.reparentFrom kernel i r slots) i r slots := by
  induction slots generalizing t with
  | nil => exact ⟨rfl, fun _ => rfl, fun _ => by simp [reparentFrom], fun _ => .inl rfl,
      fun _ waiting => ⟨waiting, by simp⟩⟩
  | cons pp rest ih =>
    simp only [reparentFrom]
    split
    next child =>
      split
      next =>
        refine (child_reparented child (wakeup_gentle _ _ _) ?_ ?_).append other (ih _)
        · intro waiting
          exact absurd (Option.some.inj ((wakeup_waits waiting).2 rfl)) other.symm
        · exact fun k waiting => (wakeup_waits waiting).1
      next quiet =>
        refine (child_reparented child (.refl _) ?_ ?_).append other (ih _)
        · intro _ zombie
          simp [zombie] at quiet
        · exact fun k waiting => waiting
    next stranger => exact (stranger_reparented stranger).append other (ih t)

theorem wakeupParent_reparented {r : Fin n} {slots : List (Fin n)}
    (loop : Reparented t t₁ i r slots) (other : i ≠ r) :
    Reparented t (t₁.wakeupParent i) i r slots := by
  simp only [wakeupParent]
  split
  next q _ =>
    have gentle := wakeup_gentle t₁ (some i) (.proc q)
    have woken : Reparented t₁ (t₁.wakeup (some i) (.proc q)) i r [] :=
      ⟨rfl, gentle.fork, by simpa using gentle.parent, gentle.state,
        fun k waiting => ⟨(wakeup_waits waiting).1, by simp⟩⟩
    simpa using loop.append other woken
  next => exact loop

theorem wakeupParent_waits {k : Fin n} (waiting : (t.wakeupParent i).Waits k)
    (parent : (t.procs i).parent = some k) (awake : ¬ t.Waits i) : False := by
  simp only [wakeupParent, parent] at waiting
  obtain rfl := Option.some.inj ((wakeup_waits waiting).2 rfl)
  exact awake (wakeup_waits waiting).1

theorem zombie_family {r : Fin n} (loop : Reparented t t' i r (List.finRange n))
    (unwaited : ∀ k, t'.Waits k → (t'.procs i).parent ≠ some k) (free : t.isFree i)
    (is : t.initproc = some r) (other : i ≠ r) (family : Family t) (status : Int) :
    Family (t'.update i fun p => { p with xstate := status, state := .zombie }) := by
  obtain ⟨running, idle⟩ := free
  have parent (j : Fin n) : (t'.procs j).parent
      = if (t.procs j).parent = some i then some r else (t.procs j).parent := by
    simpa using loop.parent j
  have survivor (j : Fin n) (live : (t.procs j).isAlive) (stays : j ≠ i) :
      ((t'.update i fun p => { p with xstate := status, state := .zombie }).procs j).isAlive := by
    simpa [stays, isAlive_of_change (loop.state j)] using live
  have stays (j : Fin n) (forking : (t.procs j).fork ≠ .idle) : j ≠ i := by
    rintro rfl
    exact forking idle
  have notUsed (m : Fin n) (used : (t.procs m).state = .used) : m ≠ i := by
    rintro rfl
    simp [isRunning, used] at running
  constructor
  · obtain ⟨q, isQ, live⟩ := family.initproc
    obtain rfl := Option.some.inj (is.symm.trans isQ)
    exact ⟨r, loop.initproc.trans is, survivor r live other.symm⟩
  · intro j m forking
    have before : (t.procs j).fork = .allocated m := by
      rw [← loop.fork]
      by_cases same : j = i <;> simpa [same] using forking
    obtain ⟨live, used, orphan⟩ := family.allocated j m before
    refine ⟨survivor j live (stays j (by simp [before])), ?_, ?_⟩
    · simpa [notUsed m used] using (dead_of_change (loop.state m) (.inr (.inl rfl))).mpr used
    · simp [notUsed m used, parent, orphan]
  · intro j m forking
    have before : (t.procs j).fork = .adopted m := by
      rw [← loop.fork]
      by_cases same : j = i <;> simpa [same] using forking
    obtain ⟨live, used, child⟩ := family.adopted j m before
    have other : j ≠ i := stays j (by simp [before])
    refine ⟨survivor j live other, ?_, ?_⟩
    · simpa [notUsed m used] using (dead_of_change (loop.state m) (.inr (.inl rfl))).mpr used
    · simp [notUsed m used, parent, child, other]
  · intro j k m first second
    apply family.apart j k m
    · rw [← loop.fork]
      by_cases same : j = i <;> simpa [same] using first
    · rw [← loop.fork]
      by_cases same : k = i <;> simpa [same] using second
  · intro j empty
    have other : j ≠ i := by
      rintro rfl
      simp at empty
    have before : (t.procs j).state = .unused :=
      (dead_of_change (loop.state j) (.inl rfl)).mp (by simpa [other] using empty)
    simp [other, parent, family.unused j before]
  · intro j present notInit
    have before : (t.procs j).isAlive ∨ (t.procs j).state = .zombie := by
      by_cases same : j = i
      · exact .inl (.inr (.inl (same ▸ running)))
      · simpa [same, isAlive_of_change (loop.state j),
          dead_of_change (loop.state j) (.inr (.inr rfl))] using present
    obtain ⟨q, child, live⟩ := family.parent j before (by simpa [loop.initproc] using notInit)
    have parent₃ : ((t'.update i fun p => { p with xstate := status, state := .zombie }).procs j).parent
        = if q = i then some r else some q := by
      have moved := parent j
      simp only [child, Option.some.injEq] at moved
      by_cases same : j = i
      · simpa [same] using same ▸ moved
      · simpa [same] using moved
    by_cases orphaned : q = i
    · obtain ⟨r', isR, liveR⟩ := family.initproc
      obtain rfl := Option.some.inj (is.symm.trans isR)
      exact ⟨r, by rw [parent₃, if_pos orphaned], survivor r liveR other.symm⟩
    · exact ⟨q, by rw [parent₃, if_neg orphaned], survivor q live orphaned⟩
  · intro k waiting j child zombie
    have notSelf : k ≠ i := by
      rintro rfl
      simp [Waits] at waiting
    have waiting' : t'.Waits k := by simpa [Waits, notSelf] using waiting
    obtain ⟨before, spared⟩ := loop.waits k waiting'
    have child' : (t'.procs j).parent = some k := by
      by_cases same : j = i <;> simpa [same] using child
    by_cases same : j = i
    · exact unwaited k waiting' (same ▸ child')
    · have zombie' : (t.procs j).state = .zombie :=
        (dead_of_change (loop.state j) (.inr (.inr rfl))).mp (by simpa [same] using zombie)
      rw [parent] at child'
      split at child'
      next orphaned => exact spared (Option.some.inj child').symm j (List.mem_finRange j) orphaned zombie'
      next => exact family.waits k before j child' zombie'

theorem kexit_family {r : Fin n} (status : Int) (free : t.isFree i) (is : t.initproc = some r)
    (other : i ≠ r) (family : Family t) : Family (t.kexit kernel build i r status) := by
  apply (sched_gentle build _ i).family
  have before : Reparented t (t.reparent kernel i r) i r (List.finRange n) :=
    reparentFrom_reparented other _ t
  have loop := wakeupParent_reparented before other
  apply zombie_family loop _ free is other family status
  intro k waiting child
  apply wakeupParent_waits waiting
  · rw [← child, loop.parent, before.parent]
  · intro waits
    have asleep := (before.waits i waits).1.1
    have running : (t.procs i).state = .running := free.1
    simp [running] at asleep

theorem reap_family {pp : Fin n} (zombie : (t.procs pp).state = .zombie) (family : Family t) :
    Family (t.freeproc pp) := by
  have notLive (j : Fin n) (live : (t.procs j).isAlive) : j ≠ pp := by
    rintro rfl
    simp [Proc.isAlive, zombie] at live
  have survivor (j : Fin n) (live : (t.procs j).isAlive) : ((t.freeproc pp).procs j).isAlive := by
    simpa [freeproc, notLive j live] using live
  have notUsed (m : Fin n) (used : (t.procs m).state = .used) : m ≠ pp := by
    rintro rfl
    simp [zombie] at used
  have fork (j : Fin n) : ((t.freeproc pp).procs j).fork = (t.procs j).fork := by
    by_cases same : j = pp <;> simp [freeproc, same]
  constructor
  · obtain ⟨r, is, live⟩ := family.initproc
    exact ⟨r, is, survivor r live⟩
  · intro j m forking
    obtain ⟨live, used, orphan⟩ := family.allocated j m ((fork j).symm.trans forking)
    refine ⟨survivor j live, ?_, ?_⟩
    · simpa [freeproc, notUsed m used] using used
    · simpa [freeproc, notUsed m used] using orphan
  · intro j m forking
    obtain ⟨live, used, child⟩ := family.adopted j m ((fork j).symm.trans forking)
    refine ⟨survivor j live, ?_, ?_⟩
    · simpa [freeproc, notUsed m used] using used
    · simpa [freeproc, notUsed m used] using child
  · intro j k m first second
    exact family.apart j k m ((fork j).symm.trans first) ((fork k).symm.trans second)
  · intro j empty
    by_cases same : j = pp
    · simp [freeproc, same]
    · simp only [freeproc, update_procs, if_neg same] at empty ⊢
      exact family.unused j empty
  · intro j present notInit
    have other : j ≠ pp := by
      rintro rfl
      simp [freeproc, Proc.isAlive] at present
    simp only [freeproc, update_procs, if_neg other] at present
    obtain ⟨q, child, live⟩ := family.parent j present notInit
    exact ⟨q, by simpa [freeproc, other] using child, survivor q live⟩
  · intro k waiting j child exited
    have otherK : k ≠ pp := by
      rintro rfl
      simp [Waits, freeproc] at waiting
    have otherJ : j ≠ pp := by
      rintro rfl
      simp [freeproc] at exited
    simp only [Waits, freeproc, update_procs, if_neg otherK] at waiting
    simp only [freeproc, update_procs, if_neg otherJ] at child exited
    exact family.waits k waiting j child exited

theorem kwait_family (copied : Bool) (free : t.isFree i) (family : Family t) :
    Family (t.kwait build i copied) := by
  simp only [kwait]
  split
  next pp found =>
    split
    next => exact reap_family (exitedChild_some found).2 family
    next => exact family
  next missing =>
    split
    next => exact family
    next =>
      exact (sleep_gentle free.1 fun _ => exitedChild_none missing).family family

theorem userinit_family (start : t.AfterUserinit) : Family t := by
  simp only [AfterUserinit, userinit, Option.map_eq_some_iff, Prod.exists] at start
  obtain ⟨r, mid, found, rfl⟩ := start
  obtain ⟨vacant, used, weight, parent, chan, fork, others, initproc⟩ := allocproc_some found
  have state (j : Fin n) (other : j ≠ r) : (mid.procs j).state = .unused := by rw [others j other]; rfl
  have idle (j : Fin n) : ((mid.update r fun p => { p with state := .runnable }).procs j).fork = .idle := by
    by_cases same : j = r
    · simp only [update_procs, if_pos same, fork]
      rfl
    · simp only [update_procs, if_neg same, others j same]
      rfl
  constructor
  · exact ⟨r, rfl, by simp [Proc.isAlive]⟩
  · exact fun j m forking => nomatch (idle j).symm.trans forking
  · exact fun j m forking => nomatch (idle j).symm.trans forking
  · exact fun j k m forking => nomatch (idle j).symm.trans forking
  · intro j empty
    by_cases same : j = r
    · simp [same] at empty
    · have none : (mid.procs j).parent = none := by rw [others j same]; rfl
      simpa [same] using none
  · intro j present notInit
    have other : j ≠ r := by
      rintro rfl
      exact notInit rfl
    simp [other, Proc.isAlive, state j other] at present
  · intro k waiting
    by_cases same : k = r
    · simp [Waits, same] at waiting
    · simp [Waits, same, state k same] at waiting

theorem next_family {l : TableStep n} (taken : t.next kernel build cpus l = some t')
    (family : Family t) : Family t' := by
  cases l with
  | pass start found =>
    obtain ⟨_, happens⟩ := Option.ite_none_right_eq_some.mp taken
    cases happens
    exact (pass_gentle start found).family family
  | interrupt addr =>
    cases taken
    exact (wakeup_gentle t none (.other addr)).family family
  | yield i =>
    obtain ⟨running, happens⟩ := Option.ite_none_right_eq_some.mp taken
    cases happens
    exact (yield_gentle running).family family
  | sleep i addr =>
    obtain ⟨running, happens⟩ := Option.ite_none_right_eq_some.mp taken
    cases happens
    have childless : (Chan.other addr : Chan n) = .proc i → t.NoZombieChild i := nofun
    exact (sleep_gentle running childless).family family
  | wakeup i addr =>
    obtain ⟨_, happens⟩ := Option.ite_none_right_eq_some.mp taken
    cases happens
    exact (wakeup_gentle t (some i) (.other addr)).family family
  | setkilled i =>
    obtain ⟨_, happens⟩ := Option.ite_none_right_eq_some.mp taken
    cases happens
    exact (setkilled_gentle t i).family family
  | kkill i pid =>
    obtain ⟨_, happens⟩ := Option.ite_none_right_eq_some.mp taken
    cases happens
    exact (kkill_gentle t pid).family family
  | kforkAlloc i memory =>
    obtain ⟨free, happens⟩ := Option.ite_none_right_eq_some.mp taken
    cases happens
    exact kforkAlloc_family memory free family
  | kforkParent i =>
    cases forking : (t.procs i).fork with
    | allocated np =>
      simp only [next, forking] at taken
      obtain ⟨_, happens⟩ := Option.ite_none_right_eq_some.mp taken
      cases happens
      exact kforkParent_family forking family
    | idle | adopted => simp [next, forking] at taken
  | kforkReady i =>
    cases forking : (t.procs i).fork with
    | adopted np =>
      simp only [next, forking] at taken
      obtain ⟨_, happens⟩ := Option.ite_none_right_eq_some.mp taken
      cases happens
      exact kforkReady_family forking family
    | idle | allocated => simp [next, forking] at taken
  | kexit i status =>
    cases is : t.initproc with
    | none => simp [next, is] at taken
    | some r =>
      simp only [next, is] at taken
      obtain ⟨⟨free, other⟩, happens⟩ := Option.ite_none_right_eq_some.mp taken
      cases happens
      exact kexit_family status free is other family
  | kwait i copied =>
    obtain ⟨free, happens⟩ := Option.ite_none_right_eq_some.mp taken
    cases happens
    exact kwait_family copied free family

-- The child that a round of `kwait` reaps.
def reaped (t : Table n) (i : Fin n) (copied : Bool) : Option (Fin n) :=
  if copied then t.exitedChild i else none

-- How often a process of each slot has exited and has been reaped.
structure Ends (n : Nat) where
  exits : Fin n → Nat
  reaps : Fin n → Nat

def Ends.none : Ends n := ⟨fun _ => 0, fun _ => 0⟩

def Ends.note (ends : Ends n) (t : Table n) : TableStep n → Table n → Ends n
  | .kexit i _, _ => { ends with exits := fun j => ends.exits j + if j = i then 1 else 0 }
  | .kwait i copied, _ =>
    { ends with reaps := fun j => ends.reaps j + if t.reaped i copied = some j then 1 else 0 }
  | _, _ => ends

def Zombie (t : Table n) (i : Fin n) : Nat := if (t.procs i).state = .zombie then 1 else 0

def Ends.Settled (ends : Ends n) (t : Table n) : Prop :=
  ∀ i, ends.exits i = ends.reaps i + t.Zombie i

theorem zombie_of_iff {j : Fin n} (same : (t'.procs j).state = .zombie ↔ (t.procs j).state = .zombie) :
    t'.Zombie j = t.Zombie j := by
  simp only [Zombie, same]

theorem Gentle.zombie (gentle : Gentle t t') (j : Fin n) : t'.Zombie j = t.Zombie j :=
  zombie_of_iff (gentle.dead (.inr (.inr rfl)))

theorem kforkAlloc_zombie (memory : Bool) (free : t.isFree i) (j : Fin n) :
    (t.kforkAlloc i memory).Zombie j = t.Zombie j := by
  apply zombie_of_iff
  simp only [kforkAlloc]
  split
  next => exact Iff.rfl
  next np mid found =>
    obtain ⟨vacant, used, weight, parent, chan, fork, others, initproc⟩ := allocproc_some found
    have running : (t.procs i).state = .running := free.1
    have apart : i ≠ np := by
      intro same
      simp [← same, running] at vacant
    cases memory with
    | false => by_cases same : j = np <;> simp [freeproc, same, vacant, others]
    | true =>
      simp only [if_true, update_update_procs apart]
      by_cases same : j = np
      · simp [same, vacant, used]
      · by_cases self : j = i <;> simp [same, self, apart, others]

theorem kforkParent_zombie {np : Fin n} (apart : i ≠ np) (j : Fin n) :
    (t.kforkParent i np).Zombie j = t.Zombie j := by
  apply zombie_of_iff
  simp only [kforkParent, update_update_procs apart]
  by_cases same : j = np
  · simp [same]
  · by_cases self : j = i <;> simp [same, self, apart]

theorem kforkReady_zombie {np : Fin n} (apart : i ≠ np) (used : (t.procs np).state = .used) (j : Fin n) :
    (t.kforkReady i np).Zombie j = t.Zombie j := by
  apply zombie_of_iff
  simp only [kforkReady, update_update_procs apart]
  by_cases same : j = np
  · simp [same, used]
  · by_cases self : j = i <;> simp [same, self, apart]

theorem kexit_zombie {r : Fin n} (status : Int) (free : t.isFree i) (other : i ≠ r) (j : Fin n) :
    (t.kexit kernel build i r status).Zombie j = t.Zombie j + if j = i then 1 else 0 := by
  have loop : Reparented t ((t.reparent kernel i r).wakeupParent i) i r (List.finRange n) :=
    wakeupParent_reparented (reparentFrom_reparented other _ t) other
  have running : (t.procs i).state = .running := free.1
  calc (t.kexit kernel build i r status).Zombie j
      = (((t.reparent kernel i r).wakeupParent i).update i fun p =>
          { p with xstate := status, state := .zombie }).Zombie j := (sched_gentle build _ i).zombie j
    _ = t.Zombie j + if j = i then 1 else 0 := by
        by_cases same : j = i
        · simp [Zombie, same, running]
        · simp [Zombie, same, dead_of_change (loop.state j) (.inr (.inr rfl))]

theorem kwait_zombie (copied : Bool) (free : t.isFree i) (j : Fin n) :
    (t.kwait build i copied).Zombie j + (if t.reaped i copied = some j then 1 else 0) = t.Zombie j := by
  simp only [kwait, reaped]
  split
  next pp found =>
    have zombie := (exitedChild_some found).2
    cases copied with
    | false => simp
    | true =>
      by_cases same : j = pp
      · simp [found, same, Zombie, freeproc, zombie]
      · simp [found, same, Zombie, freeproc, Ne.symm same]
  next missing =>
    have asleep : Gentle t (t.sleep build i (.proc i)) :=
      sleep_gentle free.1 fun _ => exitedChild_none missing
    split
    next => cases copied <;> simp [missing]
    next => cases copied <;> simp [missing, asleep.zombie]

theorem next_settled {l : TableStep n} {ends : Ends n} (family : Family t)
    (taken : t.next kernel build cpus l = some t') (settled : ends.Settled t) :
    (ends.note t l t').Settled t' := by
  intro j
  have before := settled j
  cases l with
  | pass start found =>
    obtain ⟨_, happens⟩ := Option.ite_none_right_eq_some.mp taken
    cases happens
    exact before.trans (by rw [(pass_gentle start found).zombie]; rfl)
  | interrupt addr =>
    cases taken
    exact before.trans (by rw [(wakeup_gentle t none _).zombie]; rfl)
  | yield i =>
    obtain ⟨running, happens⟩ := Option.ite_none_right_eq_some.mp taken
    cases happens
    exact before.trans (by rw [(yield_gentle running).zombie]; rfl)
  | sleep i addr =>
    obtain ⟨running, happens⟩ := Option.ite_none_right_eq_some.mp taken
    cases happens
    have childless : (Chan.other addr : Chan n) = .proc i → t.NoZombieChild i := nofun
    exact before.trans (by rw [(sleep_gentle running childless).zombie]; rfl)
  | wakeup i addr =>
    obtain ⟨_, happens⟩ := Option.ite_none_right_eq_some.mp taken
    cases happens
    exact before.trans (by rw [(wakeup_gentle t (some i) _).zombie]; rfl)
  | setkilled i =>
    obtain ⟨_, happens⟩ := Option.ite_none_right_eq_some.mp taken
    cases happens
    exact before.trans (by rw [(setkilled_gentle t i).zombie]; rfl)
  | kkill i pid =>
    obtain ⟨_, happens⟩ := Option.ite_none_right_eq_some.mp taken
    cases happens
    exact before.trans (by rw [(kkill_gentle t pid).zombie]; rfl)
  | kforkAlloc i memory =>
    obtain ⟨free, happens⟩ := Option.ite_none_right_eq_some.mp taken
    cases happens
    exact before.trans (by rw [kforkAlloc_zombie memory free]; rfl)
  | kforkParent i =>
    cases forking : (t.procs i).fork with
    | allocated np =>
      simp only [next, forking] at taken
      obtain ⟨_, happens⟩ := Option.ite_none_right_eq_some.mp taken
      cases happens
      exact before.trans (by rw [kforkParent_zombie (family.apart_child (.inl forking))]; rfl)
    | idle | adopted => simp [next, forking] at taken
  | kforkReady i =>
    cases forking : (t.procs i).fork with
    | adopted np =>
      simp only [next, forking] at taken
      obtain ⟨_, happens⟩ := Option.ite_none_right_eq_some.mp taken
      cases happens
      have used := (family.adopted i np forking).2.1
      exact before.trans (by rw [kforkReady_zombie (family.apart_child (.inr forking)) used]; rfl)
    | idle | allocated => simp [next, forking] at taken
  | kexit i status =>
    cases is : t.initproc with
    | none => simp [next, is] at taken
    | some r =>
      simp only [next, is] at taken
      obtain ⟨⟨free, other⟩, happens⟩ := Option.ite_none_right_eq_some.mp taken
      cases happens
      rw [kexit_zombie status free other]
      simp only [Ends.note]
      omega
  | kwait i copied =>
    obtain ⟨free, happens⟩ := Option.ite_none_right_eq_some.mp taken
    cases happens
    have reaping : (t.kwait build i copied).Zombie j + (if t.reaped i copied = some j then 1 else 0)
        = t.Zombie j := kwait_zombie copied free j
    simp only [Ends.note]
    omega

theorem userinit_settled (start : t.AfterUserinit) : Ends.none.Settled t := by
  simp only [AfterUserinit, userinit, Option.map_eq_some_iff, Prod.exists] at start
  obtain ⟨r, mid, found, rfl⟩ := start
  have others := (allocproc_some found).2.2.2.2.2.2.1
  intro j
  by_cases same : j = r
  · simp [Zombie, Ends.none, same]
  · have unused : (mid.procs j).state = .unused := by rw [others j same]; rfl
    simp [Zombie, Ends.none, same, unused]

def counted (n : Nat) (kernel : Kernel) (build : Build) (cpus : Nat) :
    System (Table n × Ends n) (TableStep n) :=
  (system n kernel build cpus).recorded (fun _ => Ends.none) Ends.note

theorem counted_settled {s : Table n × Ends n} (reached : (counted n kernel build cpus).Reachable s) :
    Family s.1 ∧ s.2.Settled s.1 := by
  refine reached.invariant (I := fun s => Family s.1 ∧ s.2.Settled s.1) ?_ ?_
  · intro s ⟨start, fresh⟩
    exact ⟨userinit_family start, fresh ▸ userinit_settled start⟩
  · intro s l s' ⟨family, settled⟩ ⟨taken, noted⟩
    exact ⟨next_family (t := s.1) (l := l) taken family,
      noted ▸ next_settled (t := s.1) (l := l) family taken settled⟩

theorem no_lost_exit {ends : Ends n} (reached : (counted n .memory build cpus).Reachable (t, ends)) :
    (∀ i, (t.procs i).state ∈ [ProcState.runnable, .running, .sleeping, .zombie] →
      t.initproc ≠ some i → ∃ q, (t.procs i).parent = some q ∧
        (t.procs q).state ≠ .unused ∧ (t.procs q).state ≠ .zombie) ∧
    (∀ i, (t.procs i).state = .sleeping → (t.procs i).chan = some (.proc i) →
      ∀ j, (t.procs j).parent = some i → (t.procs j).state ≠ .zombie) ∧
    ∀ i, ends.exits i = ends.reaps i + if (t.procs i).state = .zombie then 1 else 0 := by
  obtain ⟨(family : Family t), (settled : ends.Settled t)⟩ := counted_settled reached
  refine ⟨?_, fun i asleep own => family.waits i ⟨asleep, own⟩, settled⟩
  intro i present notInit
  have before : (t.procs i).isAlive ∨ (t.procs i).state = .zombie := by
    simpa [Proc.isAlive, or_assoc] using present
  obtain ⟨q, child, live⟩ := family.parent i before notInit
  exact ⟨q, child, isAlive_present live⟩

-- `init` waits while its child exits.
theorem no_lost_exit_child : ∃ (t : Table 2) (ends : Ends 2), (t.procs 0).state = .runnable ∧
    (t.procs 1).state = .zombie ∧ ends.exits 1 = ends.reaps 1 + 1 := by
  have run : ∃ t, (system 2 .memory .cfs 1).Reachable t ∧ (t.procs 0).state = .runnable ∧
      (t.procs 1).state = .zombie := by
    refine ⟨_, System.execute_reachable (s := (boot.userinit (n := 2)).get rfl) rfl
      [.pass 0 false, .kforkAlloc 0 true, .kforkParent 0, .kforkReady 0, .kwait 0 true,
        .pass 0 false, .kexit 1 0] rfl, ?_, ?_⟩
    · decide
    · decide
  obtain ⟨t, reached, woken, zombie⟩ := run
  obtain ⟨ends, counts⟩ := reached.recorded (fun _ => Ends.none) Ends.note
  have settled := (no_lost_exit counts).2.2 1
  exact ⟨t, ends, woken, zombie, by simpa [zombie] using settled⟩

end Table

end SystemsSuite.Procs
