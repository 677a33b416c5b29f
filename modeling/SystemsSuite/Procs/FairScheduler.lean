import SystemsSuite.Procs.ExitWait

set_option autoImplicit false

namespace SystemsSuite.Procs

open Lib

variable {n : Nat}

def Proc.isLive (p : Proc n) : Prop := p.state = .runnable ∨ p.state = .running

namespace Table

variable {t t₁ t' : Table n} {kernel : Kernel} {build : Build} {cpus : Nat} {i : Fin n}

def Weighted (t : Table n) : Prop := ∀ i, (t.procs i).state ≠ .unused → (t.procs i).weight = defaultWeight

-- What a step leaves alone while it starts no process: `out` is the process that leaves the CPU.
structure Undisturbed (t t' : Table n) (out : Option (Fin n)) : Prop where
  runs : ∀ i, (t'.procs i).state = .running → (t.procs i).state = .running ∧ some i ≠ out
  live : ∀ i, (t.procs i).isLive → some i ≠ out → (t'.procs i).state = (t.procs i).state ∧
    (t'.procs i).vruntime = (t.procs i).vruntime ∧ (t'.procs i).timeSlice = (t.procs i).timeSlice
  weighted : t.Weighted → t'.Weighted

theorem Undisturbed.refl (t : Table n) : Undisturbed t t none where
  runs := fun _ running => ⟨running, nofun⟩
  live := fun _ _ _ => ⟨rfl, rfl, rfl⟩
  weighted := id

theorem Undisturbed.trans {out : Option (Fin n)} (first : Undisturbed t t₁ none)
    (second : Undisturbed t₁ t' out) : Undisturbed t t' out where
  runs i running := by
    obtain ⟨earlier, inside⟩ := second.runs i running
    exact ⟨(first.runs i earlier).1, inside⟩
  live i live inside := by
    obtain ⟨state₁, vruntime₁, slice₁⟩ := first.live i live nofun
    have live₁ : (t₁.procs i).isLive := by rw [Proc.isLive, state₁]; exact live
    obtain ⟨state₂, vruntime₂, slice₂⟩ := second.live i live₁ inside
    exact ⟨state₂.trans state₁, vruntime₂.trans vruntime₁, slice₂.trans slice₁⟩
  weighted := fun weighted => second.weighted (first.weighted weighted)

theorem update_undisturbed {i : Fin n} {f : Proc n → Proc n}
    (state : (f (t.procs i)).state = (t.procs i).state)
    (weight : (f (t.procs i)).weight = (t.procs i).weight)
    (vruntime : (f (t.procs i)).vruntime = (t.procs i).vruntime)
    (slice : (f (t.procs i)).timeSlice = (t.procs i).timeSlice) : Undisturbed t (t.update i f) none where
  runs j running := by
    by_cases same : j = i
    · simp_all
    · simp_all
  live j _ _ := by
    by_cases same : j = i
    · simp_all
    · simp_all
  weighted weighted j inUse := by
    by_cases same : j = i
    · subst same
      simp only [update_procs, if_true, state, weight] at inUse ⊢
      exact weighted j inUse
    · simp only [update_procs, if_neg same] at inUse ⊢
      exact weighted j inUse

theorem update_dormant {i : Fin n} {f : Proc n → Proc n} (dormant : ¬ (t.procs i).isLive)
    (state : (f (t.procs i)).state ≠ .running)
    (weight : t.Weighted → (f (t.procs i)).state ≠ .unused → (f (t.procs i)).weight = defaultWeight) :
    Undisturbed t (t.update i f) none where
  runs j running := by
    by_cases same : j = i
    · simp_all
    · simp_all
  live j live _ := by
    by_cases same : j = i
    · subst same
      exact absurd live dormant
    · simp_all
  weighted weighted j inUse := by
    by_cases same : j = i
    · subst same
      simp only [update_procs, if_true] at inUse ⊢
      exact weight weighted inUse
    · simp only [update_procs, if_neg same] at inUse ⊢
      exact weighted j inUse

theorem wakeup_undisturbed (t : Table n) (me : Option (Fin n)) (chan : Chan n) :
    Undisturbed t (t.wakeup me chan) none where
  runs j running := by
    simp only [wakeup] at running
    split at running
    next => simp at running
    next => exact ⟨running, by simp⟩
  live j live _ := by
    have awake : (t.procs j).state ≠ .sleeping := by
      rcases live with runnable | running <;> simp_all
    simp [wakeup, awake]
  weighted weighted j inUse := by
    simp only [wakeup] at inUse ⊢
    split
    next asleep => exact weighted j (by simp [asleep.2.1])
    next awake =>
      simp only [if_neg awake] at inUse
      exact weighted j inUse

theorem setkilled_undisturbed (t : Table n) (i : Fin n) : Undisturbed t (t.setkilled i) none :=
  update_undisturbed rfl rfl rfl rfl

theorem kkill_undisturbed (t : Table n) (pid : Nat) : Undisturbed t (t.kkill pid) none := by
  simp only [kkill]
  split
  next i _ =>
    by_cases asleep : (t.procs i).state = .sleeping
    · apply update_dormant
      · simp [Proc.isLive, asleep]
      · simp [asleep]
      · intro weighted _
        exact weighted i (by simp [asleep])
    · exact update_undisturbed (if_neg asleep) rfl rfl rfl
  next => exact .refl t

theorem kforkAlloc_undisturbed (memory : Bool) (free : t.isFree i) :
    Undisturbed t (t.kforkAlloc i memory) none := by
  simp only [kforkAlloc]
  split
  next => exact .refl t
  next np mid found =>
    obtain ⟨vacant, used, weight, _, _, _, others, _⟩ := allocproc_some found
    have running : (t.procs i).state = .running := free.1
    have apart : i ≠ np := by
      intro same
      simp [← same, running] at vacant
    have allocated : Undisturbed t mid none := by
      constructor
      · intro j now
        by_cases same : j = np
        · simp [same, used] at now
        · exact ⟨others j same ▸ now, by simp⟩
      · intro j live _
        have same : j ≠ np := by
          rintro rfl
          simp [Proc.isLive, vacant] at live
        rw [others j same]
        exact ⟨rfl, rfl, rfl⟩
      · intro weighted j inUse
        by_cases same : j = np
        · rw [same, weight]
        · rw [others j same] at inUse ⊢
          exact weighted j inUse
    have fresh : ¬ (mid.procs np).isLive := by simp [Proc.isLive, used]
    split
    next =>
      apply (allocated.trans (update_dormant fresh _ _)).trans (update_undisturbed rfl rfl rfl rfl)
      · simp [used]
      · intro weighted _
        exact weighted i (by rw [others i apart, running]; simp)
    next =>
      apply allocated.trans (update_dormant fresh _ _)
      · simp
      · intro _ inUse
        exact absurd rfl inUse

theorem kforkParent_undisturbed {np : Fin n} : Undisturbed t (t.kforkParent i np) none :=
  (update_undisturbed rfl rfl rfl rfl).trans (update_undisturbed rfl rfl rfl rfl)

theorem kforkReady_undisturbed {np : Fin n} (used : (t.procs np).state = .used) :
    Undisturbed t (t.kforkReady i np) none := by
  apply Undisturbed.trans (update_dormant _ _ _) (update_undisturbed rfl rfl rfl rfl)
  · simp [Proc.isLive, used]
  · simp
  · intro weighted _
    exact weighted np (by simp [used])

theorem reparentFrom_undisturbed (i r : Fin n) (slots : List (Fin n)) (t : Table n) :
    Undisturbed t (t.reparentFrom kernel i r slots) none := by
  induction slots generalizing t with
  | nil => exact .refl t
  | cons pp rest ih =>
    have adopted : Undisturbed t (t.update pp fun p => { p with parent := some r }) none :=
      update_undisturbed rfl rfl rfl rfl
    simp only [reparentFrom]
    split
    next =>
      split
      next => exact (adopted.trans (wakeup_undisturbed _ _ _)).trans (ih _)
      next => exact adopted.trans (ih _)
    next => exact ih t

theorem wakeupParent_undisturbed (t : Table n) (i : Fin n) : Undisturbed t (t.wakeupParent i) none := by
  simp only [wakeupParent]
  split
  next => exact wakeup_undisturbed _ _ _
  next => exact .refl t

theorem reap_undisturbed {pp : Fin n} (zombie : (t.procs pp).state = .zombie) :
    Undisturbed t (t.freeproc pp) none := by
  apply update_dormant
  · simp [Proc.isLive, zombie]
  · simp
  · intro _ inUse
    exact absurd rfl inUse

-- The running process leaves the CPU and is charged for its slice.
structure Released (t t' : Table n) (i : Fin n) : Prop where
  running : t.isRunning i
  undisturbed : Undisturbed t t' (some i)
  charged : t.Weighted →
    (t'.procs i).vruntime = ((t.procs i).vruntime + (t.procs i).timeSlice) % 2 ^ 64

theorem sched_released {f : Proc n → Proc n} (running : t.isRunning i)
    (state : (f (t.procs i)).state ≠ .running)
    (weight : (f (t.procs i)).weight = (t.procs i).weight)
    (vruntime : (f (t.procs i)).vruntime = (t.procs i).vruntime)
    (slice : (f (t.procs i)).timeSlice = (t.procs i).timeSlice) :
    Released t ((t.update i f).sched .cfs i) i where
  running := running
  undisturbed := by
    constructor
    · intro j now
      by_cases same : j = i
      · simp [sched, same] at now
        exact absurd now state
      · simp [sched, same] at now
        exact ⟨now, by simpa using same⟩
    · intro j _ other
      have same : j ≠ i := by simpa using other
      simp [sched, same]
    · intro weighted j inUse
      by_cases same : j = i
      · have inUse' : (t.procs i).state ≠ .unused := by
          simp only [isRunning] at running
          simp [running]
        simpa [sched, same, weight] using weighted i inUse'
      · simp only [sched, update_procs, if_neg same] at inUse ⊢
        exact weighted j inUse
  charged weighted := by
    have inUse : (t.procs i).state ≠ .unused := by
      simp only [isRunning] at running
      simp [running]
    have standard : (f (t.procs i)).weight = 1024 := weight.trans (weighted i inUse)
    simp [sched, standard, vruntime, slice]

theorem Released.after {t₁ : Table n} (quiet : Undisturbed t t₁ none) (running : t.isRunning i)
    (released : Released t₁ t' i) : Released t t' i where
  running := running
  undisturbed := quiet.trans released.undisturbed
  charged weighted := by
    obtain ⟨_, vruntime, slice⟩ := quiet.live i (.inr running) nofun
    rw [released.charged (quiet.weighted weighted), vruntime, slice]

theorem kexit_released {r : Fin n} (status : Int) (free : t.isFree i) :
    Released t (t.kexit kernel .cfs i r status) i := by
  have quiet : Undisturbed t ((t.reparent kernel i r).wakeupParent i) none :=
    (reparentFrom_undisturbed i r _ t).trans (wakeupParent_undisturbed _ i)
  have running : (((t.reparent kernel i r).wakeupParent i).procs i).state = .running :=
    (quiet.live i (.inr free.1) nofun).1.trans free.1
  apply Released.after quiet free.1
  apply sched_released running
  · simp
  · rfl
  · rfl
  · rfl

theorem yield_released (running : t.isRunning i) : Released t (t.yield .cfs i) i := by
  apply sched_released running
  · simp
  · rfl
  · rfl
  · rfl

theorem sleep_released (running : t.isRunning i) (chan : Chan n) :
    Released t (t.sleep .cfs i chan) i := by
  apply sched_released running
  · simp
  · rfl
  · rfl
  · rfl

theorem next_quiet {l : TableStep n} (family : Family t)
    (taken : t.next kernel .cfs cpus l = some t') :
    (∃ start found, l = .pass start found) ∨ Undisturbed t t' none ∨ ∃ i, Released t t' i := by
  cases l with
  | pass start found => exact .inl ⟨start, found, rfl⟩
  | interrupt addr =>
    cases taken
    exact .inr (.inl (wakeup_undisturbed t none _))
  | yield i =>
    obtain ⟨running, happens⟩ := Option.ite_none_right_eq_some.mp taken
    cases happens
    exact .inr (.inr ⟨i, yield_released running⟩)
  | sleep i addr =>
    obtain ⟨running, happens⟩ := Option.ite_none_right_eq_some.mp taken
    cases happens
    exact .inr (.inr ⟨i, sleep_released running _⟩)
  | wakeup i addr =>
    obtain ⟨_, happens⟩ := Option.ite_none_right_eq_some.mp taken
    cases happens
    exact .inr (.inl (wakeup_undisturbed t (some i) _))
  | setkilled i =>
    obtain ⟨_, happens⟩ := Option.ite_none_right_eq_some.mp taken
    cases happens
    exact .inr (.inl (setkilled_undisturbed t i))
  | kkill i pid =>
    obtain ⟨_, happens⟩ := Option.ite_none_right_eq_some.mp taken
    cases happens
    exact .inr (.inl (kkill_undisturbed t pid))
  | kforkAlloc i memory =>
    obtain ⟨free, happens⟩ := Option.ite_none_right_eq_some.mp taken
    cases happens
    exact .inr (.inl (kforkAlloc_undisturbed memory free))
  | kforkParent i =>
    cases forking : (t.procs i).fork with
    | allocated np =>
      simp only [next, forking] at taken
      obtain ⟨_, happens⟩ := Option.ite_none_right_eq_some.mp taken
      cases happens
      exact .inr (.inl kforkParent_undisturbed)
    | idle | adopted => simp [next, forking] at taken
  | kforkReady i =>
    cases forking : (t.procs i).fork with
    | adopted np =>
      simp only [next, forking] at taken
      obtain ⟨_, happens⟩ := Option.ite_none_right_eq_some.mp taken
      cases happens
      exact .inr (.inl (kforkReady_undisturbed (family.adopted i np forking).2.1))
    | idle | allocated => simp [next, forking] at taken
  | kexit i status =>
    cases is : t.initproc with
    | none => simp [next, is] at taken
    | some r =>
      simp only [next, is] at taken
      obtain ⟨⟨free, _⟩, happens⟩ := Option.ite_none_right_eq_some.mp taken
      cases happens
      exact .inr (.inr ⟨i, kexit_released status free⟩)
  | kwait i copied =>
    obtain ⟨free, happens⟩ := Option.ite_none_right_eq_some.mp taken
    cases happens
    simp only [kwait]
    split
    next pp found =>
      split
      next => exact .inr (.inl (reap_undisturbed (exitedChild_some found).2))
      next => exact .inr (.inl (.refl t))
    next =>
      split
      next => exact .inr (.inl (.refl t))
      next => exact .inr (.inr ⟨i, sleep_released free.1 _⟩)

def vruntimeGap (t : Table n) (a b : Fin n) : Nat :=
  ((t.procs a).vruntime - (t.procs b).vruntime : Int).natAbs

-- The process that runs, alone, was not ahead of the other one when it was chosen.
structure Fair (d : Nat) (a b : Fin n) (t : Table n) : Prop where
  family : Family t
  weighted : Weighted t
  alone : ∀ i j, t.isRunning i → t.isRunning j → i = j
  sliced : ∀ i, t.isRunning i → (t.procs i).timeSlice ≤ targetLatency
  behind : t.isRunning a → (t.procs a).vruntime ≤ (t.procs b).vruntime
  behind' : t.isRunning b → (t.procs b).vruntime ≤ (t.procs a).vruntime
  lag : t.vruntimeGap a b ≤ max d targetLatency

-- `l` takes process `i` off the CPU.
def Leaves (t : Table n) (l : TableStep n) (i : Fin n) : Prop :=
  ∃ t', t.next .memory .cfs 1 l = some t' ∧ t.isRunning i ∧ ¬ t'.isRunning i

-- The charge takes the `uint64` past its greatest value.
def Wraps (t : Table n) (i : Fin n) : Prop := 2 ^ 64 ≤ (t.procs i).vruntime + (t.procs i).timeSlice

variable {a b : Fin n} {d : Nat}

theorem Fair.undisturbed (fair : Fair d a b t) (liveA : (t.procs a).isLive) (liveB : (t.procs b).isLive)
    (family : Family t') (quiet : Undisturbed t t' none) : Fair d a b t' := by
  obtain ⟨stateA, vruntimeA, sliceA⟩ := quiet.live a liveA nofun
  obtain ⟨stateB, vruntimeB, sliceB⟩ := quiet.live b liveB nofun
  constructor
  · exact family
  · exact quiet.weighted fair.weighted
  · exact fun i j first second => fair.alone i j (quiet.runs i first).1 (quiet.runs j second).1
  · intro i now
    have before := (quiet.runs i now).1
    rw [(quiet.live i (.inr before) nofun).2.2]
    exact fair.sliced i before
  · intro now
    rw [vruntimeA, vruntimeB]
    exact fair.behind (quiet.runs a now).1
  · intro now
    rw [vruntimeA, vruntimeB]
    exact fair.behind' (quiet.runs b now).1
  · rw [vruntimeGap, vruntimeA, vruntimeB]
    exact fair.lag

theorem gap_charged {v w s d : Nat} (behind : v ≤ w) (slice : s ≤ targetLatency)
    (lag : (v - w : Int).natAbs ≤ max d targetLatency) :
    ((v + s : Nat) - w : Int).natAbs ≤ max d targetLatency := by
  omega

theorem gap_comm (t : Table n) (a b : Fin n) : t.vruntimeGap a b = t.vruntimeGap b a := by
  simp only [vruntimeGap]
  omega

theorem Fair.comm (fair : Fair d a b t) : Fair d b a t :=
  ⟨fair.family, fair.weighted, fair.alone, fair.sliced, fair.behind', fair.behind,
    gap_comm t a b ▸ fair.lag⟩

-- The lag when `a` is charged, or a third process.
theorem Fair.charged (fair : Fair d a b t) (liveA : (t.procs a).isLive) (liveB : (t.procs b).isLive)
    (apart : a ≠ b) (released : Released t t' i) (other : i ≠ b)
    (fits : t.isRunning a → ¬ t'.isRunning a → ¬ t.Wraps a) :
    t'.vruntimeGap a b ≤ max d targetLatency := by
  obtain ⟨_, vruntimeB, _⟩ := released.undisturbed.live b liveB (by simpa using other.symm)
  by_cases same : i = a
  · subst same
    have stopped : ¬ t'.isRunning i := fun now => absurd rfl (released.undisturbed.runs i now).2
    have small := fits released.running stopped
    have charge := released.charged fair.weighted
    rw [Nat.mod_eq_of_lt (by simpa [Wraps] using small)] at charge
    rw [vruntimeGap, charge, vruntimeB]
    exact gap_charged (fair.behind released.running) (fair.sliced i released.running) fair.lag
  · obtain ⟨_, vruntimeA, _⟩ := released.undisturbed.live a liveA (by simpa using Ne.symm same)
    rw [vruntimeGap, vruntimeA, vruntimeB]
    exact fair.lag

theorem Fair.released (fair : Fair d a b t) (liveA : (t.procs a).isLive) (liveB : (t.procs b).isLive)
    (apart : a ≠ b) (family : Family t') (released : Released t t' i)
    (fits : ∀ j, j = a ∨ j = b → t.isRunning j → ¬ t'.isRunning j → ¬ t.Wraps j) :
    Fair d a b t' := by
  have stopped (j : Fin n) : ¬ t'.isRunning j := by
    intro now
    obtain ⟨before, other⟩ := released.undisturbed.runs j now
    exact other (congrArg some (fair.alone j i before released.running))
  constructor
  · exact family
  · exact released.undisturbed.weighted fair.weighted
  · exact fun j _ now => absurd now (stopped j)
  · exact fun j now => absurd now (stopped j)
  · exact fun now => absurd now (stopped a)
  · exact fun now => absurd now (stopped b)
  · by_cases same : i = b
    · rw [gap_comm]
      exact fair.comm.charged liveB liveA apart.symm released (same ▸ apart.symm) (fits b (.inr rfl))
    · exact fair.charged liveA liveB apart released same (fits a (.inl rfl))

theorem not_running (idle : t.running.length < 1) (i : Fin n) : ¬ t.isRunning i := by
  intro now
  have member : i ∈ t.running := by simpa [running, isRunning] using now
  have present := List.length_pos_of_mem member
  omega

theorem pass_least (kernel : Kernel) (start : Nat) (found : Bool) (user : (t.procs a).isUser) :
    ∃ i, (t.procs i).isUser ∧ (∀ j, (t.procs j).isUser → (t.procs i).vruntime ≤ (t.procs j).vruntime) ∧
      t.pass kernel .cfs start found = t.dispatch .cfs i := by
  cases chosen : t.best Proc.vruntime with
  | none => exact absurd user (best_none chosen a)
  | some i =>
    refine ⟨i, best_user chosen, fun j eligible => best_least chosen eligible, ?_⟩
    simp [pass, choose, chosen, orWfi]

theorem dispatch_fair (fair : Fair d a b t) (idle : ∀ j, ¬ t.isRunning j)
    (userA : (t.procs a).isUser) (userB : (t.procs b).isUser) (user : (t.procs i).isUser)
    (least : ∀ j, (t.procs j).isUser → (t.procs i).vruntime ≤ (t.procs j).vruntime)
    (family : Family (t.dispatch .cfs i)) : Fair d a b (t.dispatch .cfs i) := by
  have vruntime (j : Fin n) : ((t.dispatch .cfs i).procs j).vruntime = (t.procs j).vruntime := by
    by_cases same : j = i <;> simp [dispatch, same]
  have only (j : Fin n) (now : (t.dispatch .cfs i).isRunning j) : j = i := by
    by_contra other
    simp only [isRunning, dispatch, update_procs, if_neg other] at now
    exact idle j now
  constructor
  · exact family
  · intro j inUse
    by_cases same : j = i
    · have standard := fair.weighted i (by rw [user.1]; simp)
      simpa [dispatch, same] using standard
    · simp only [dispatch, update_procs, if_neg same] at inUse ⊢
      exact fair.weighted j inUse
  · intro j k first second
    rw [only j first, only k second]
  · intro j now
    simpa [only j now, dispatch] using slice_le
  · intro now
    rw [vruntime, vruntime, only a now]
    exact least b userB
  · intro now
    rw [vruntime, vruntime, only b now]
    exact least a userA
  · rw [vruntimeGap, vruntime, vruntime]
    exact fair.lag

def Together (a b : Fin n) (t : Table n) : Prop :=
  ((t.procs a).isLive ∧ 2 < (t.procs a).pid) ∧ (t.procs b).isLive ∧ 2 < (t.procs b).pid

theorem Fair.next {l : TableStep n} (fair : Fair d a b t) (apart : a ≠ b) (together : Together a b t)
    (fits : ∀ i, i = a ∨ i = b → t.Leaves l i → ¬ t.Wraps i)
    (taken : t.next .memory .cfs 1 l = some t') : Fair d a b t' := by
  obtain ⟨⟨liveA, pidA⟩, liveB, pidB⟩ := together
  have family : Family t' := next_family taken fair.family
  rcases next_quiet fair.family taken with ⟨start, found, rfl⟩ | quiet | ⟨i, released⟩
  · obtain ⟨idle, happens⟩ := Option.ite_none_right_eq_some.mp taken
    cases happens
    have still := not_running idle
    have userA : (t.procs a).isUser := ⟨liveA.resolve_right (still a), pidA⟩
    have userB : (t.procs b).isUser := ⟨liveB.resolve_right (still b), pidB⟩
    obtain ⟨i, user, least, chosen⟩ := pass_least .memory start found userA
    rw [chosen] at family ⊢
    exact dispatch_fair fair still userA userB user least family
  · exact fair.undisturbed liveA liveB family quiet
  · apply fair.released liveA liveB apart family released
    exact fun j one now stopped => fits j one ⟨t', taken, now, stopped⟩

theorem dispatch_weighted (running : (t.procs i).state = .runnable) (weighted : t.Weighted) :
    (t.dispatch build i).Weighted := by
  intro j inUse
  by_cases same : j = i
  · have standard := weighted i (by rw [running]; exact nofun)
    simpa [dispatch, same] using standard
  · simp only [dispatch, update_procs, if_neg same] at inUse ⊢
    exact weighted j inUse

theorem pass_weighted (start : Nat) (found : Bool) (weighted : t.Weighted) :
    (t.pass kernel build start found).Weighted := by
  simp only [pass]
  split
  next i chosen => exact dispatch_weighted (choose_runnable chosen) weighted
  next => exact weighted
  next => exact weighted

theorem userinit_weighted (start : t.AfterUserinit) : t.Weighted := by
  simp only [AfterUserinit, userinit, Option.map_eq_some_iff, Prod.exists] at start
  obtain ⟨r, mid, found, rfl⟩ := start
  obtain ⟨_, _, weight, _, _, _, others, _⟩ := allocproc_some found
  intro j inUse
  by_cases same : j = r
  · simpa [same] using weight
  · simp only [update_procs, if_neg same] at inUse
    rw [others j same] at inUse
    exact absurd rfl inUse

theorem next_weighted {l : TableStep n} (family : Family t)
    (taken : t.next kernel .cfs cpus l = some t') (weighted : t.Weighted) : t'.Weighted := by
  rcases next_quiet family taken with ⟨start, found, rfl⟩ | quiet | ⟨i, released⟩
  · obtain ⟨_, happens⟩ := Option.ite_none_right_eq_some.mp taken
    cases happens
    exact pass_weighted start found weighted
  · exact quiet.weighted weighted
  · exact released.undisturbed.weighted weighted

theorem system_weighted (reached : (system n kernel .cfs cpus).Reachable t) :
    Family t ∧ t.Weighted := by
  refine reached.invariant (I := fun t => Family t ∧ t.Weighted) ?_ ?_
  · exact fun t start => ⟨userinit_family start, userinit_weighted start⟩
  · intro s l t ⟨family, weighted⟩ taken
    exact ⟨next_family taken family, next_weighted family taken weighted⟩

-- A part of a run, from `s` on.
def onward (s : Table n) : System (Table n) (TableStep n) :=
  System.ofNext (· = s) (next .memory .cfs 1)

-- Both processes stay runnable or running, and no charge to either of them wraps around.
def Stretch (a b : Fin n) (t : Table n) (l : TableStep n) : Prop :=
  Together a b t ∧ ∀ i, i = a ∨ i = b → t.Leaves l i → ¬ t.Wraps i

theorem lag_bounded {s : Table n} (reached : (system n .memory .cfs 1).Reachable s)
    (idle : ∀ i, (s.procs i).state ≠ .running) (stretch : (onward s).ReachableVia (Stretch a b) t) :
    t.vruntimeGap a b ≤ max (s.vruntimeGap a b) targetLatency := by
  obtain ⟨family, weighted⟩ := system_weighted reached
  by_cases same : a = b
  · simp [vruntimeGap, same]
  · have start : Fair (s.vruntimeGap a b) a b s :=
      ⟨family, weighted, fun i _ now => absurd now (idle i), fun i now => absurd now (idle i),
        fun now => absurd now (idle a), fun now => absurd now (idle b), Nat.le_max_left _ _⟩
    have fair : Fair (s.vruntimeGap a b) a b t :=
      stretch.invariant (fun _ is => is ▸ start)
        fun _ _ _ fair ⟨together, fits⟩ taken => fair.next same together fits taken
    exact fair.lag

-- Only `a` and `b` are runnable user processes, and nothing runs.
structure Duel (a b : Fin n) (t : Table n) : Prop where
  users : ∀ i, (t.procs i).isUser ↔ i = a ∨ i = b
  idle : ∀ i, ¬ t.isRunning i
  weighted : t.Weighted

theorem Duel.comm (duel : Duel a b t) : Duel b a t :=
  ⟨fun i => (duel.users i).trans or_comm, duel.idle, duel.weighted⟩

theorem Duel.slice (duel : Duel a b t) (apart : a ≠ b) : t.slice = 24 := by
  have both : t.userSlots.Perm [a, b] := by
    apply (List.perm_ext_iff_of_nodup ((List.nodup_finRange n).filter _) (by simp [apart])).mpr
    intro i
    simpa using duel.users i
  have two : t.userSlots.length = 2 := both.length_eq
  simp [Table.slice, two, targetLatency, minTimeSlice]

def turn (t : Table n) (i : Fin n) : Table n := (t.dispatch .cfs i).yield .cfs i

theorem turn_procs (t : Table n) (i j : Fin n) (other : j ≠ i) :
    (t.turn i).procs j = t.procs j := by
  simp [turn, dispatch, yield, sched, other]

theorem Duel.turn (duel : Duel a b t) (apart : a ≠ b) :
    Duel a b (t.turn a) ∧ ((t.turn a).procs a).vruntime = ((t.procs a).vruntime + 24) % 2 ^ 64 := by
  have user : (t.procs a).isUser := (duel.users a).mpr (.inl rfl)
  have standard : (t.procs a).weight = 1024 := duel.weighted a (by rw [user.1]; exact nofun)
  have slice : t.slice = 24 := duel.slice apart
  have self : (t.turn a).procs a = { t.procs a with
      state := .runnable
      chan := none
      timeSlice := 24
      vruntime := ((t.procs a).vruntime + 24) % 2 ^ 64 } := by
    simp [Table.turn, dispatch, yield, sched, slice, standard]
  refine ⟨⟨?_, ?_, ?_⟩, by rw [self]⟩
  · intro i
    by_cases same : i = a
    · simp [same, self, Proc.isUser, user.2]
    · rw [turn_procs t a i same]
      exact duel.users i
  · intro i
    by_cases same : i = a
    · simp [same, isRunning, self]
    · rw [isRunning, turn_procs t a i same]
      exact duel.idle i
  · intro i inUse
    by_cases same : i = a
    · rw [same, self]
      exact standard
    · rw [turn_procs t a i same] at inUse ⊢
      exact duel.weighted i inUse

theorem Duel.chosen (duel : Duel a b t) :
    ∃ i, t.best Proc.vruntime = some i ∧ (i = a ∨ i = b) ∧
      (t.procs i).vruntime ≤ (t.procs a).vruntime ∧ (t.procs i).vruntime ≤ (t.procs b).vruntime := by
  have userA : (t.procs a).isUser := (duel.users a).mpr (.inl rfl)
  have userB : (t.procs b).isUser := (duel.users b).mpr (.inr rfl)
  cases chosen : t.best Proc.vruntime with
  | none => exact absurd userA (best_none chosen a)
  | some i =>
    exact ⟨i, rfl, (duel.users i).mp (best_user chosen), best_least chosen userA, best_least chosen userB⟩

theorem Duel.together (duel : Duel a b t) : Together a b t :=
  have userA : (t.procs a).isUser := (duel.users a).mpr (.inl rfl)
  have userB : (t.procs b).isUser := (duel.users b).mpr (.inr rfl)
  ⟨⟨.inl userA.1, userA.2⟩, .inl userB.1, userB.2⟩

theorem Duel.dispatched (duel : Duel a b t) : Together a b (t.dispatch .cfs i) := by
  obtain ⟨⟨liveA, pidA⟩, liveB, pidB⟩ := duel.together
  constructor
  · by_cases same : a = i
    · exact ⟨.inr (by simp [dispatch, same]), by simpa [dispatch, same] using same ▸ pidA⟩
    · simpa [dispatch, same] using ⟨liveA, pidA⟩
  · by_cases same : b = i
    · exact ⟨.inr (by simp [dispatch, same]), by simpa [dispatch, same] using same ▸ pidB⟩
    · simpa [dispatch, same] using ⟨liveB, pidB⟩

theorem Duel.steps (duel : Duel a b t) (chosen : t.best Proc.vruntime = some i) :
    t.next .memory .cfs 1 (.pass 0 false) = some (t.dispatch .cfs i) ∧
      (t.dispatch .cfs i).next .memory .cfs 1 (.yield i) = some (t.turn i) := by
  constructor
  · have none : t.running = [] := by
      simpa [running, List.filter_eq_nil_iff, isRunning] using duel.idle
    simp [Table.next, none, pass, choose, chosen, orWfi]
  · have running : (t.dispatch .cfs i).isRunning i := by simp [isRunning, dispatch]
    simp [Table.next, running, Table.turn]

theorem Duel.reached (duel : Duel a b t) (chosen : t.best Proc.vruntime = some i)
    (reached : (system n .memory .cfs 1).Reachable t) :
    (system n .memory .cfs 1).Reachable (t.turn i) := by
  obtain ⟨dispatched, yielded⟩ := duel.steps chosen
  exact .step (.step reached trivial dispatched) trivial yielded

theorem Duel.both {v : Nat} (duel : Duel a b t) (apart : a ≠ b)
    (reached : (system n .memory .cfs 1).Reachable t) (chosen : t.best Proc.vruntime = some a)
    (first : (t.procs a).vruntime = v) (second : (t.procs b).vruntime = v) (fits : v + 24 < 2 ^ 64) :
    ∃ t', (system n .memory .cfs 1).Reachable t' ∧ Duel a b t' ∧
      (t'.procs a).vruntime = v + 24 ∧ (t'.procs b).vruntime = v + 24 := by
  obtain ⟨duel₁, charged⟩ := duel.turn apart
  have reached₁ := duel.reached chosen reached
  have kept : ((t.turn a).procs b).vruntime = v := by rw [turn_procs t a b apart.symm, second]
  rw [first, Nat.mod_eq_of_lt fits] at charged
  obtain ⟨i, chosen₁, which, leastA, leastB⟩ := duel₁.chosen
  have isB : i = b := by
    rcases which with rfl | rfl
    · omega
    · rfl
  subst isB
  obtain ⟨duel₂, charged₂⟩ := duel₁.comm.turn apart.symm
  rw [kept, Nat.mod_eq_of_lt fits] at charged₂
  refine ⟨_, duel₁.reached chosen₁ reached₁, duel₂.comm, ?_, charged₂⟩
  rw [turn_procs _ _ a apart, charged]

-- One of two even processes is chosen.
theorem Duel.leader {v : Nat} (duel : Duel a b t) (apart : a ≠ b)
    (first : (t.procs a).vruntime = v) (second : (t.procs b).vruntime = v) :
    ∃ i j, i ≠ j ∧ (i = a ∧ j = b ∨ i = b ∧ j = a) ∧ Duel i j t ∧ t.best Proc.vruntime = some i ∧
      (t.procs i).vruntime = v ∧ (t.procs j).vruntime = v := by
  obtain ⟨i, chosen, rfl | rfl, _⟩ := duel.chosen
  · exact ⟨i, b, apart, .inl ⟨rfl, rfl⟩, duel, chosen, first, second⟩
  · exact ⟨i, a, apart.symm, .inr ⟨rfl, rfl⟩, duel.comm, chosen, second, first⟩

-- After a turn each, the two are even again.
theorem Duel.round {v : Nat} (duel : Duel a b t) (apart : a ≠ b)
    (reached : (system n .memory .cfs 1).Reachable t)
    (first : (t.procs a).vruntime = v) (second : (t.procs b).vruntime = v) (fits : v + 24 < 2 ^ 64) :
    ∃ t', (system n .memory .cfs 1).Reachable t' ∧ Duel a b t' ∧
      (t'.procs a).vruntime = v + 24 ∧ (t'.procs b).vruntime = v + 24 := by
  obtain ⟨i, j, apart', which, duel', chosen, firstI, secondJ⟩ := duel.leader apart first second
  obtain ⟨t', reached', duel'', first', second'⟩ :=
    duel'.both apart' reached chosen firstI secondJ fits
  rcases which with ⟨rfl, rfl⟩ | ⟨rfl, rfl⟩
  · exact ⟨t', reached', duel'', first', second'⟩
  · exact ⟨t', reached', duel''.comm, second', first'⟩

theorem Duel.rounds (duel : Duel a b t) (apart : a ≠ b)
    (reached : (system n .memory .cfs 1).Reachable t)
    (first : (t.procs a).vruntime = 0) (second : (t.procs b).vruntime = 0) (k : Nat)
    (fits : 24 * k < 2 ^ 64) :
    ∃ t', (system n .memory .cfs 1).Reachable t' ∧ Duel a b t' ∧
      (t'.procs a).vruntime = 24 * k ∧ (t'.procs b).vruntime = 24 * k := by
  induction k with
  | zero => exact ⟨t, reached, duel, first, second⟩
  | succ k ih =>
    obtain ⟨mid, reached₁, duel₁, first₁, second₁⟩ := ih (by omega)
    exact duel₁.round apart reached₁ first₁ second₁ (by omega)

-- `init` forks three children: the two of them that are user processes are even.
theorem duel_starts : ∃ (t : Table nproc) (a b : Fin nproc), a ≠ b ∧
    (system nproc .memory .cfs 1).Reachable t ∧ Duel a b t ∧
    (t.procs a).vruntime = 0 ∧ (t.procs b).vruntime = 0 := by
  have run : ∃ t : Table nproc, (system nproc .memory .cfs 1).Reachable t ∧
      (∀ i, (t.procs i).isUser ↔ i = ⟨2, by decide⟩ ∨ i = ⟨3, by decide⟩) ∧
      (∀ i, ¬ t.isRunning i) ∧
      (t.procs ⟨2, by decide⟩).vruntime = 0 ∧ (t.procs ⟨3, by decide⟩).vruntime = 0 := by
    refine ⟨_, System.execute_reachable (s := (boot.userinit (n := nproc)).get rfl) rfl
      [.pass 0 false,
        .kforkAlloc ⟨0, by decide⟩ true, .kforkParent ⟨0, by decide⟩, .kforkReady ⟨0, by decide⟩,
        .kforkAlloc ⟨0, by decide⟩ true, .kforkParent ⟨0, by decide⟩, .kforkReady ⟨0, by decide⟩,
        .kforkAlloc ⟨0, by decide⟩ true, .kforkParent ⟨0, by decide⟩, .kforkReady ⟨0, by decide⟩,
        .yield ⟨0, by decide⟩] rfl, ?_, ?_, ?_, ?_⟩
    · decide
    · decide
    · decide
    · decide
  obtain ⟨t, reached, users, idle, first, second⟩ := run
  exact ⟨t, _, _, by decide, reached, ⟨users, idle, (system_weighted reached).2⟩, first, second⟩

theorem dispatched_running (duel : Duel a b t) {j : Fin n} (now : (t.dispatch .cfs a).isRunning j) :
    j = a := by
  by_contra other
  simp only [isRunning, dispatch, update_procs, if_neg other] at now
  exact duel.idle j now

-- A turn of one of the two, from the point where they are even.
theorem lag_bounded_turn : ∃ (s t : Table nproc) (a b : Fin nproc),
    s.vruntimeGap a b = 0 ∧ t.vruntimeGap a b = 24 ∧
      t.vruntimeGap a b ≤ max (s.vruntimeGap a b) targetLatency := by
  obtain ⟨s, _, _, different, reached, even, zero, zero'⟩ := duel_starts
  obtain ⟨a, b, apart, _, duel, chosen, first, second⟩ := even.leader different zero zero'
  obtain ⟨dispatched, yielded⟩ := duel.steps chosen
  obtain ⟨_, charged⟩ := duel.turn apart
  have small : ¬ (s.dispatch .cfs a).Wraps a := by
    simp [Wraps, dispatch, first, duel.slice apart]
  have waiting : Stretch a b s (.pass 0 false) :=
    ⟨duel.together, fun j _ ⟨_, _, running, _⟩ => absurd running (duel.idle j)⟩
  have charging : Stretch a b (s.dispatch .cfs a) (.yield a) :=
    ⟨duel.dispatched, fun j _ ⟨_, _, running, _⟩ => dispatched_running duel running ▸ small⟩
  refine ⟨s, s.turn a, a, b, ?_, ?_, lag_bounded reached duel.idle
    (.step (.step (.initial rfl) waiting dispatched) charging yielded)⟩
  · simp [vruntimeGap, first, second]
  · rw [vruntimeGap, charged, turn_procs s a b apart.symm, first, second]
    rfl

-- Even at the last multiple of 24 below `2 ^ 64`, the next one to run starts again from 8.
theorem lag_wraps : ∃ (s t : Table nproc) (a b : Fin nproc),
    (system nproc .memory .cfs 1).Reachable s ∧ (∀ i, (s.procs i).state ≠ .running) ∧
      (onward s).ReachableVia (fun t _ => Together a b t) t ∧ Together a b t ∧
      max (s.vruntimeGap a b) targetLatency < t.vruntimeGap a b := by
  obtain ⟨_, _, _, different, booted, start, zero, zero'⟩ := duel_starts
  obtain ⟨s, reached, even, first, second⟩ :=
    start.rounds different booted zero zero' 768614336404564650 (by decide)
  obtain ⟨a, b, apart, _, duel, chosen, first, second⟩ := even.leader different first second
  obtain ⟨dispatched, yielded⟩ := duel.steps chosen
  obtain ⟨duel', charged⟩ := duel.turn apart
  refine ⟨s, s.turn a, a, b, reached, duel.idle,
    .step (.step (.initial rfl) duel.together dispatched) duel.dispatched yielded,
    duel'.together, ?_⟩
  rw [vruntimeGap, vruntimeGap, charged, turn_procs s a b apart.symm, first, second]
  decide

end Table

end SystemsSuite.Procs
