import SystemsSuite.Bakery.Seating
import SystemsSuite.Bakery.Service

set_option autoImplicit false

namespace SystemsSuite.Bakery.Shop

open Lib

variable {n : Nat} {s s' : Shop n} {i : Fin n}

def Returned (s : Shop n) : Prop := ∀ i, s.phases i = .left ∨ s.phases i = .turnedAway

def ExitTest (s : Shop n) : Prop := s.AllDone ∧ s.customersInShop = 0

instance (s : Shop n) : Decidable s.Returned := inferInstanceAs (Decidable (∀ _, _))

instance (s : Shop n) : Decidable s.ExitTest := inferInstanceAs (Decidable (_ ∧ _))

def Admits (s : Shop n) : Turn n → Prop
  | .customer i => s.phases i = .arriving → s.customersInShop < maxCapacity
  | .timer | .chef _ => True

instance (s : Shop n) (l : Turn n) : Decidable (s.Admits l) :=
  match l with
  | .customer _ => inferInstanceAs (Decidable (_ → _))
  | .timer | .chef _ => inferInstanceAs (Decidable True)

theorem returned_empty (reached : (system n).Reachable s) (returned : s.Returned) :
    s.customersInShop = 0 := by
  obtain ⟨seats, noted⟩ := reached.recorded (fun _ => Seats.none) Seats.note
  have seating : Seating s seats := system_seating noted
  have outside (i : Fin n) : ¬ s.IsInside i := by
    rcases returned i with phase | phase <;> simp [IsInside, phase, Phase.isInside]
  have count := seating.inside
  simp only [outside, Finset.filter_false, Finset.card_empty] at count
  exact count

theorem Service.allDone_iff (service : Service s) (early : s.Early) :
    s.AllDone ↔ ∀ i, (s.customers i).paymentAcceptedTime ≠ 0 ∧ (s.customers i).paymentAcceptedTime + 2 ≤ s.currentTime := by
  refine forall_congr' fun i => ?_
  obtain ⟨_, _, _, _, _, accepted⟩ := (service.punctual i).range
  rw [early.sum accepted (by omega) (by omega)]
  omega

theorem returned_allDone (service : Service s) (early : s.Early) (returned : s.Returned) :
    s.AllDone ↔ ∀ i, s.phases i ≠ .turnedAway := by
  rw [service.allDone_iff early]
  constructor
  · intro done i away
    have times := service.punctual i
    have paid := times.paid
    have accept := times.accept
    simp only [away, reduceCtorEq, or_false, iff_false, not_not] at paid
    exact (done i).1 (accept.resolve_right fun accepted => accepted.1 paid)
  · intro served i
    exact (service.punctual i).left ((returned i).resolve_right (served i))

theorem customerNext_admitted (taken : s.customerNext i = some s')
    (room : s.phases i = .arriving → s.customersInShop < maxCapacity)
    (served : ∀ j, s.phases j ≠ .turnedAway) (j : Fin n) : s'.phases j ≠ .turnedAway := by
  have kept (phase : Phase) (other : phase ≠ .turnedAway)
      (is : s'.phases = Function.update s.phases i phase) : s'.phases j ≠ .turnedAway := by
    rw [is]
    by_cases same : j = i
    · simpa [same] using other
    · simpa [same] using served j
  cases customerNext_turn taken with
  | enter phase =>
    have open_ : ¬ s.customersInShop ≥ maxCapacity := by
      have few := room phase
      omega
    exact kept .entered (by simp) (by simp [enter, open_, setPhase, printEvent, setCustomer])
  | sit =>
    by_cases seat : s.customersOnSofa < sofaCapacity
    · exact kept .seated (by simp) (by simp [sit, seat, takeSeat, setPhase, printEvent, setCustomer])
    · exact kept .standing (by simp) (by simp [sit, seat, setPhase])
  | poll =>
    by_cases waits : i ∈ s.standingCustomers
    · simpa [poll, waits] using served j
    · exact kept .seated (by simp) (by simp [poll, waits, takeSeat, setPhase, printEvent, setCustomer])
  | request => exact kept .requested (by simp) rfl
  | pay => exact kept .paid (by simp) rfl
  | leave =>
    refine kept .left (by simp) ?_
    simp only [leave, letSit, setPhase, printEvent]
    split <;> rfl

theorem chefNext_phases {k : Chef} (taken : s.chefNext k = some s') : s'.phases = s.phases := by
  cases chefNext_turn taken <;> rfl

theorem admitted_served (reached : (system n).ReachableVia Admits s) (i : Fin n) :
    s.phases i ≠ .turnedAway := by
  refine reached.invariant (I := fun s => ∀ i, s.phases i ≠ .turnedAway) ?_ ?_ i
  · rintro s ⟨arrivals, rfl⟩ i
    exact nofun
  · intro s l t served admits taken
    cases l with
    | timer =>
      cases taken
      exact served
    | customer i => exact customerNext_admitted taken admits served
    | chef k =>
      rw [chefNext_phases taken]
      exact served

def Booked (s : Shop n) : Prop :=
  ∀ k, s.chefBusyUntil k ≤ 0 ∨ ∃ e ∈ s.output, e.chef = some k ∧ s.chefBusyUntil k = e.time + 2

theorem Booked.of_same (booked : Booked s) (busy : s'.chefBusyUntil = s.chefBusyUntil) (output : s.output ⊆ s'.output) :
    Booked s' := by
  intro k
  rw [busy]
  exact (booked k).imp_right fun ⟨e, printed, same⟩ => ⟨e, output printed, same⟩

theorem customerNext_booked (taken : s.customerNext i = some s') (booked : Booked s) : Booked s' := by
  cases customerNext_turn taken with
  | enter =>
    unfold enter
    split
    · exact booked
    · exact booked.of_same rfl (List.subset_append_left _ _)
  | sit =>
    unfold sit
    split
    · exact booked.of_same rfl (List.subset_append_left _ _)
    · exact booked
  | poll =>
    unfold poll
    split
    · exact booked
    · exact booked.of_same rfl (List.subset_append_left _ _)
  | request | pay => exact booked.of_same rfl (List.subset_append_left _ _)
  | leave =>
    unfold leave letSit
    split
    · exact booked.of_same rfl (List.subset_append_left _ _)
    · exact booked.of_same rfl (List.subset_append_left _ _)

theorem booked_now {k : Chef} {e : Event n} (clock : int (s.currentTime + 2) = s.currentTime + 2) (chef : e.chef = some k)
    (time : e.time = s.currentTime) (printed : s'.output = s.output ++ [e])
    (busy : s'.chefBusyUntil = Function.update s.chefBusyUntil k (int (s.currentTime + 2))) (booked : Booked s) :
    Booked s' := by
  intro j
  rw [printed, busy]
  by_cases same : j = k
  · subst same
    exact .inr ⟨e, List.mem_append_right _ (List.mem_singleton_self e), chef, by rw [Function.update_self, clock, time]⟩
  · rw [Function.update_of_ne same]
    exact (booked j).imp_right fun ⟨e, before, until_⟩ => ⟨e, List.mem_append_left _ before, until_⟩

theorem chefNext_booked {k : Chef} (clock : int (s.currentTime + 2) = s.currentTime + 2) (taken : s.chefNext k = some s')
    (booked : Booked s) : Booked s' := by
  cases chefNext_turn taken with
  | accept i => exact booked_now (e := .accepts s.currentTime k i) clock rfl rfl rfl rfl booked
  | bake i => exact booked_now (e := .bakes s.currentTime k i) clock rfl rfl rfl rfl booked
  | idle | finish | test | decide => exact booked

theorem system_booked (reached : (system n).ReachableVia (fun s _ => s.Early) s) : Booked s := by
  refine (reached.invariant (I := fun s => Service s ∧ Booked s) ?_ ?_).2
  · rintro s ⟨arrivals, rfl⟩
    exact ⟨opening_service arrivals, fun k => .inl (Int.le_refl 0)⟩
  · rintro s l t ⟨service, booked⟩ early taken
    refine ⟨next_service early taken service, ?_⟩
    cases l with
    | timer =>
      cases taken
      exact booked
    | customer i => exact customerNext_booked taken booked
    | chef k => exact chefNext_booked (early.sum ⟨service.clock, Int.le_refl _⟩ (by omega) (by omega)) taken booked

-- Everybody is served and gone, and no chef has work left.
structure Closed (s : Shop n) : Prop where
  clock : 0 ≤ s.currentTime
  returned : s.Returned
  empty : s.customersInShop = 0
  baked : ∀ i, (s.customers i).bakingStartTime ≠ 0
  accepted : ∀ i, (s.customers i).paymentAcceptedTime ≠ 0 ∧ 0 ≤ (s.customers i).paymentAcceptedTime ∧
    (s.customers i).paymentAcceptedTime + 2 ≤ s.currentTime
  rested : ∀ k, s.chefBusyUntil k ≤ s.currentTime

theorem exit_closed (service : Service s) (booked : Booked s) (early : s.Early) (returned : s.Returned)
    (exit : s.ExitTest) : Closed s := by
  have done := (service.allDone_iff early).mp exit.1
  have baked (i : Fin n) : (s.customers i).bakingStartTime ≠ 0 ∧
      (s.customers i).bakingStartTime + 2 ≤ (s.customers i).paymentAcceptedTime := by
    have times := service.punctual i
    have pay := times.pay
    have accept := times.accept
    have this_ := done i
    omega
  refine ⟨service.clock, returned, exit.2, fun i => (baked i).1, fun i => ?_, fun k => ?_⟩
  · obtain ⟨_, _, _, _, _, accepted⟩ := (service.punctual i).range
    exact ⟨(done i).1, accepted.1, (done i).2⟩
  · have clock := service.clock
    obtain before | ⟨e, printed, chef, until_⟩ := booked k
    · omega
    · cases e with
      | customer => contradiction
      | bakes time j i =>
        have at_ := (service.printed.bakes i time).mp ⟨j, printed⟩
        have first := baked i
        have last := done i
        simp only [Event.time] at until_
        omega
      | accepts time j i =>
        have at_ := (service.printed.accepts i time).mp ⟨j, printed⟩
        have last := done i
        simp only [Event.time] at until_
        omega

-- Where a chef without work goes, and how many turns it takes to leave.
def onward : ChefPhase → ChefPhase
  | .ready => .idle
  | .working => .ready
  | .idle => .testing true
  | .testing allDone => if allDone then .gone else .ready
  | .gone => .gone

def turnsLeft : ChefPhase → Nat
  | .gone => 0
  | .testing true => 1
  | .idle => 2
  | .ready => 3
  | .working | .testing false => 4

def attempt (s : Shop n) (l : Turn n) : Shop n := (s.next l).getD s

def attempts (s : Shop n) (schedule : List (Turn n)) : Shop n := schedule.foldl attempt s

theorem Closed.chef (closed : Closed s) (early : s.Early) (k : Chef) : s.attempt (.chef k) = s.setChef k (onward (s.chefs k)) := by
  have done : s.AllDone := by
    intro i
    obtain ⟨set, low, high⟩ := closed.accepted i
    rw [early.sum ⟨low, by omega⟩ (by omega) (by omega)]
    omega
  have nobody : s.work k = s.setChef k .idle := by
    have payment : s.paymentCustomer = none := by
      refine List.argmin_eq_none.mpr (List.filter_eq_nil_iff.mpr fun i _ can => ?_)
      exact (closed.accepted i).1 (of_decide_eq_true can).1.2
    have cake : s.bakeCustomer k = none := by
      refine List.argmin_eq_none.mpr (List.filter_eq_nil_iff.mpr fun i _ can => ?_)
      exact closed.baked i (of_decide_eq_true can).1.2
    simp only [work, payment, cake]
  have stays : s.setChef k (s.chefs k) = s := by rw [setChef, Function.update_eq_self]
  unfold attempt next chefNext
  cases phase : s.chefs k with
  | ready => simp only [phase, nobody, Option.getD_some, onward]
  | working => simp only [phase, closed.rested k, if_true, Option.getD_some, onward]
  | idle => simp only [phase, done, decide_true, Option.getD_some, onward]
  | testing allDone =>
    simp only [phase, closed.empty, and_true, Option.getD_some, onward]
  | gone =>
    rw [phase] at stays
    simp only [phase, Option.getD_none, onward, stays]

theorem Closed.timer (closed : Closed s) (early : s.Early) :
    s.attempt .timer = { s with currentTime := s.currentTime + 1 } := by
  simp only [attempt, next, Option.getD_some, early.sum ⟨closed.clock, Int.le_refl _⟩ (k := 1) (by omega) (by omega)]

theorem Closed.customer (closed : Closed s) (i : Fin n) : s.attempt (.customer i) = s := by
  rcases closed.returned i with phase | phase <;> simp only [attempt, next, customerNext, phase, Option.getD_none]

theorem Closed.attempt (closed : Closed s) (early : s.Early) (l : Turn n) : Closed (s.attempt l) := by
  cases l with
  | timer =>
    rw [closed.timer early]
    exact
      { clock := Int.le_trans closed.clock (Int.le_of_lt (Int.lt_succ _))
        returned := closed.returned
        empty := closed.empty
        baked := closed.baked
        accepted := fun i => ⟨(closed.accepted i).1, (closed.accepted i).2.1,
          Int.le_trans (closed.accepted i).2.2 (Int.le_of_lt (Int.lt_succ _))⟩
        rested := fun k => Int.le_trans (closed.rested k) (Int.le_of_lt (Int.lt_succ _)) }
  | customer i => rwa [closed.customer i]
  | chef k =>
    rw [closed.chef early k]
    exact ⟨closed.clock, closed.returned, closed.empty, closed.baked, closed.accepted, closed.rested⟩

theorem turnsLeft_onward (phase : ChefPhase) : turnsLeft (onward phase) = turnsLeft phase - 1 := by
  cases phase with
  | testing allDone => cases allDone <;> rfl
  | _ => rfl

-- A chef that gets its turns leaves, whatever the others do in between.
theorem Closed.leaves (closed : Closed s) (k : Chef) {schedule : List (Turn n)}
    (early : s.currentTime + schedule.count .timer + 2 < 2 ^ 31)
    (turns : turnsLeft (s.chefs k) ≤ schedule.count (.chef k)) : (s.attempts schedule).chefs k = .gone := by
  induction schedule generalizing s with
  | nil =>
    have none_ : turnsLeft (s.chefs k) = 0 := Nat.le_zero.mp turns
    show s.chefs k = .gone
    cases phase : s.chefs k with
    | testing allDone => cases allDone <;> simp [phase, turnsLeft] at none_
    | gone => rfl
    | _ => simp [phase, turnsLeft] at none_
  | cons l rest ih =>
    have now : s.Early := by
      unfold Early
      omega
    have later := closed.attempt now l
    refine ih later ?_ ?_
    · cases l with
      | timer =>
        rw [closed.timer now]
        rw [List.count_cons_self] at early
        push_cast at early ⊢
        omega
      | customer i =>
        rwa [closed.customer i, ← List.count_cons_of_ne (a := Turn.timer) (b := .customer i) nofun]
      | chef j =>
        rw [closed.chef now j]
        rwa [List.count_cons_of_ne (a := Turn.timer) (b := .chef j) nofun] at early
    · cases l with
      | timer =>
        rw [closed.timer now]
        rwa [List.count_cons_of_ne (a := Turn.chef k) (b := .timer) nofun] at turns
      | customer i =>
        rw [closed.customer i]
        rwa [List.count_cons_of_ne (a := Turn.chef k) (b := .customer i) nofun] at turns
      | chef j =>
        rw [closed.chef now j]
        by_cases same : j = k
        · subst same
          rw [List.count_cons_self] at turns
          have rank := turnsLeft_onward (s.chefs j)
          show turnsLeft (Function.update s.chefs j _ j) ≤ _
          rw [Function.update_self]
          omega
        · rw [List.count_cons_of_ne (fun eq => same (Turn.chef.inj eq))] at turns
          show turnsLeft (Function.update s.chefs j _ k) ≤ _
          rwa [Function.update_of_ne (Ne.symm same)]

theorem turnsLeft_le (phase : ChefPhase) : turnsLeft phase ≤ 4 := by
  cases phase with
  | testing allDone => cases allDone <;> decide
  | _ => decide

-- Every chef leaves its loop once it has had four turns more.
def ChefsLeave (s : Shop n) : Prop :=
  ∀ schedule : List (Turn n), s.currentTime + schedule.count .timer + 2 < 2 ^ 31 →
    ∀ k, 4 ≤ schedule.count (.chef k) → (s.attempts schedule).chefs k = .gone

theorem exit_iff (reached : (system n).ReachableVia (fun s _ => s.Early) s) (early : s.Early) (returned : s.Returned) :
    s.ExitTest ↔ ∀ i, s.phases i ≠ .turnedAway := by
  rw [← returned_allDone (system_service reached) early returned]
  exact and_iff_left (returned_empty (reached.weaken fun _ _ _ => trivial) returned)

theorem bakery_closes {r : Option (Shop n)} (few : n ≤ maxCustomers) :
    ((program n).ReachableVia (fun r l => ∀ s ∈ r, s.Early ∧ s.Admits l) r →
      ∃ s, r = some s ∧ (s.Early → s.Returned → s.ExitTest ∧ s.ChefsLeave)) ∧
    ((program n).ReachableVia (fun r _ => ∀ s ∈ r, s.Early) r →
      ∃ s, r = some s ∧ (s.Early → s.Returned → (s.ExitTest ↔ ∀ i, s.phases i ≠ .turnedAway))) := by
  constructor
  · intro reached
    obtain ⟨s, running, threads⟩ := program_runs few reached
    have timely : (system n).ReachableVia (fun s _ => s.Early) s := threads.weaken fun s _ meets => (meets s rfl).1
    refine ⟨s, running, fun early returned => ?_⟩
    have exit : s.ExitTest := (exit_iff timely early returned).mpr
      (admitted_served (threads.weaken fun s _ meets => (meets s rfl).2))
    have closed := exit_closed (system_service timely) (system_booked timely) early returned exit
    exact ⟨exit, fun schedule clock k turns => closed.leaves k clock ((turnsLeft_le _).trans turns)⟩
  · intro reached
    obtain ⟨s, running, threads⟩ := program_runs few reached
    have timely : (system n).ReachableVia (fun s _ => s.Early) s := threads.weaken fun s _ early => early s rfl
    exact ⟨s, running, exit_iff timely⟩

-- One customer is served, and then every chef takes four turns.
theorem bakery_closes_one : ∃ s : Shop 1, s.phases 0 = .left ∧ s.ExitTest ∧
    ∀ k, (s.attempts ((List.finRange numChefs).flatMap fun k => List.replicate 4 (.chef k))).chefs k = .gone := by
  have runs : (System.execute advance (fun r l => decide (∀ s ∈ r, s.Early ∧ s.Admits l)) (start fun _ => 0) visit).any
      (fun r => decide (∃ s ∈ r, s.phases 0 = .left ∧ s.currentTime = 8)) = true := by decide +kernel
  obtain ⟨r, ran, facts⟩ := (Option.any_eq_true _ _).mp runs
  obtain ⟨s, here, left, clock⟩ := of_decide_eq_true facts
  have reached : (program 1).ReachableVia (fun r l => ∀ s ∈ r, s.Early ∧ s.Admits l) r :=
    System.execute_reachableVia (fun _ _ => of_decide_eq_true) (.initial ⟨_, rfl⟩) ran
  obtain ⟨s', running, closes⟩ := (bakery_closes (by decide)).1 reached
  obtain rfl : s = s' := Option.some.inj ((Option.mem_def.mp here).symm.trans running)
  have early : s.Early := by
    unfold Early
    omega
  obtain ⟨exit, leave⟩ := closes early fun i => .inl (Subsingleton.elim i 0 ▸ left)
  have clockless : ((List.finRange numChefs).flatMap fun k => List.replicate 4 (Turn.chef (n := 1) k)).count .timer = 0 := by
    decide
  refine ⟨s, left, exit, fun k => leave _ (by omega) k ?_⟩
  revert k
  decide

-- One chef serves a customer; the first four customers have a seat from the start.
def served (j : Fin 26) : List (Turn 26) :=
  let chef : Turn 26 := .chef firstChef
  (if 4 ≤ j.val then [.customer j] else []) ++ [.timer, .customer j, .timer] ++
    (if 0 < j.val then [chef] else []) ++ [chef, .timer, .timer, .customer j, .timer, chef, chef,
      .timer, .timer, .customer j]

-- Twenty-six customers come at once: one is turned away, and then the others are served.
def crowd : List (Turn 26) :=
  (List.finRange 26).map .customer ++ [.timer] ++ ((List.finRange 26).take 25).map .customer ++
    ((List.finRange 26).take 25).flatMap served

theorem crowd_returns : (System.execute advance (fun _ _ => true) (start fun _ => 0) crowd).any
    (fun r => decide (∃ s ∈ r, s.Returned ∧ ¬ s.ExitTest)) = true := by
  decide +kernel

theorem crowd_never_closes :
    ∃ s : Shop 26, (program 26).Reachable (some s) ∧ s.Returned ∧ ¬ s.ExitTest := by
  obtain ⟨r, ran, facts⟩ := (Option.any_eq_true _ _).mp crowd_returns
  obtain ⟨s, here, returned, stuck⟩ := of_decide_eq_true facts
  have reached : (program 26).Reachable r := System.execute_reachable ⟨_, rfl⟩ crowd ran
  exact ⟨s, Option.mem_def.mp here ▸ reached, returned, stuck⟩

end SystemsSuite.Bakery.Shop
