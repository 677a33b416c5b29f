import SystemsSuite.Bakery.Shop

set_option autoImplicit false

namespace SystemsSuite.Bakery

open Lib

variable {n : Nat}

def numOvens : Nat := 4

def Customer.timeOf (c : Customer) : Action → Int
  | .enters => c.enterTime
  | .sits => c.sitTime
  | .requestsCake => c.requestTime
  | .pays => c.payTime
  | .leaves => 0

def Event.time : Event n → Int
  | .customer time _ _ | .bakes time _ _ | .accepts time _ _ => time

def Event.chef : Event n → Option Chef
  | .customer _ _ _ => none
  | .bakes _ k _ | .accepts _ k _ => some k

def Event.bakesFor (i : Fin n) : Event n → Bool
  | .bakes _ _ j => i = j
  | _ => false

def Event.acceptsFrom (i : Fin n) : Event n → Bool
  | .accepts _ _ j => i = j
  | _ => false

def Event.isAccept : Event n → Bool
  | .accepts _ _ _ => true
  | _ => false

def Event.bakesAt (time : Int) : Event n → Bool
  | .bakes start _ _ => start ≤ time ∧ time < start + 2
  | _ => false

-- The times of a customer, each in its order after the one before.
structure Punctual (c : Customer) (phase : Phase) (now : Int) : Prop where
  enter : 0 ≤ c.enterTime ∧ c.enterTime ≤ now
  sit : c.sitTime = 0 ∨ c.enterTime + 1 ≤ c.sitTime ∧ c.sitTime ≤ now
  request : c.requestTime = 0 ∨ c.sitTime ≠ 0 ∧ c.sitTime + 1 ≤ c.requestTime ∧ c.requestTime ≤ now
  bake : c.bakingStartTime = 0 ∨
    c.requestTime ≠ 0 ∧ c.requestTime + 1 ≤ c.bakingStartTime ∧ c.bakingStartTime ≤ now
  pay : c.payTime = 0 ∨ c.bakingStartTime ≠ 0 ∧ c.bakingStartTime + 2 ≤ c.payTime ∧ c.payTime ≤ now
  accept : c.paymentAcceptedTime = 0 ∨
    c.payTime ≠ 0 ∧ c.payTime + 1 ≤ c.paymentAcceptedTime ∧ c.paymentAcceptedTime ≤ now
  standing : phase = .standing → c.enterTime + 1 ≤ now
  seated : c.sitTime ≠ 0 ↔ phase = .seated ∨ phase = .requested ∨ phase = .paid ∨ phase = .left
  requested : c.requestTime ≠ 0 ↔ phase = .requested ∨ phase = .paid ∨ phase = .left
  paid : c.payTime ≠ 0 ↔ phase = .paid ∨ phase = .left
  left : phase = .left → c.paymentAcceptedTime ≠ 0 ∧ c.paymentAcceptedTime + 2 ≤ now

theorem Punctual.later {c : Customer} {phase : Phase} {now later : Int} (before : now ≤ later)
    (punctual : Punctual c phase now) : Punctual c phase later :=
  { punctual with
    enter := ⟨punctual.enter.1, Int.le_trans punctual.enter.2 before⟩
    sit := punctual.sit.imp_right fun sat => ⟨sat.1, Int.le_trans sat.2 before⟩
    request := punctual.request.imp_right fun asked =>
      ⟨asked.1, asked.2.1, Int.le_trans asked.2.2 before⟩
    bake := punctual.bake.imp_right fun baked => ⟨baked.1, baked.2.1, Int.le_trans baked.2.2 before⟩
    pay := punctual.pay.imp_right fun paid => ⟨paid.1, paid.2.1, Int.le_trans paid.2.2 before⟩
    accept := punctual.accept.imp_right fun accepted =>
      ⟨accepted.1, accepted.2.1, Int.le_trans accepted.2.2 before⟩
    standing := fun stands => Int.le_trans (punctual.standing stands) before
    left := fun gone => ⟨(punctual.left gone).1, Int.le_trans (punctual.left gone).2 before⟩ }

theorem Punctual.range {c : Customer} {phase : Phase} {now : Int} (punctual : Punctual c phase now) :
    (0 ≤ c.enterTime ∧ c.enterTime ≤ now) ∧ (0 ≤ c.sitTime ∧ c.sitTime ≤ now) ∧
      (0 ≤ c.requestTime ∧ c.requestTime ≤ now) ∧ (0 ≤ c.bakingStartTime ∧ c.bakingStartTime ≤ now) ∧
      (0 ≤ c.payTime ∧ c.payTime ≤ now) ∧ 0 ≤ c.paymentAcceptedTime ∧ c.paymentAcceptedTime ≤ now := by
  obtain ⟨enter, sit, request, bake, pay, accept, _, _, _, _, _⟩ := punctual
  omega

-- Two actions of one chef, or two payments at the register.
def Event.Apart (e f : Event n) : Prop :=
  (e.chef ≠ none → f.chef = e.chef → e.time + 2 ≤ f.time) ∧
    (e.isAccept = true → f.isAccept = true → e.time + 2 ≤ f.time)

namespace Shop

structure Printed (s : Shop n) : Prop where
  actions : ∀ i t a, a ≠ .enters → a ≠ .leaves →
    (.customer t i a ∈ s.output ↔ (s.customers i).timeOf a = t ∧ t ≠ 0)
  leaves : ∀ i t, .customer t i .leaves ∈ s.output →
    (s.customers i).paymentAcceptedTime ≠ 0 ∧ (s.customers i).paymentAcceptedTime + 2 ≤ t
  bakes : ∀ i t, (∃ k, .bakes t k i ∈ s.output) ↔ (s.customers i).bakingStartTime = t ∧ t ≠ 0
  accepts : ∀ i t,
    (∃ k, .accepts t k i ∈ s.output) ↔ (s.customers i).paymentAcceptedTime = t ∧ t ≠ 0
  bakedOnce : ∀ i, s.output.countP (Event.bakesFor i)
    = if (s.customers i).bakingStartTime = 0 then 0 else 1
  acceptedOnce : ∀ i, s.output.countP (Event.acceptsFrom i)
    = if (s.customers i).paymentAcceptedTime = 0 then 0 else 1

structure Service (s : Shop n) : Prop where
  clock : 0 ≤ s.currentTime
  punctual : ∀ i, Punctual (s.customers i) (s.phases i) s.currentTime
  printed : Printed s
  rested : ∀ k, s.chefs k ≠ .working → s.chefBusyUntil k ≤ s.currentTime
  busy : ∀ k, ∀ e ∈ s.output, e.chef = some k → e.time + 2 ≤ s.chefBusyUntil k
  register : ∀ e ∈ s.output, e.isAccept = true → e.time + 2 ≤ s.cashRegisterBusyUntil
  apart : s.output.Pairwise Event.Apart

variable {s s' : Shop n} {i : Fin n} {k : Chef}

-- No sum of a time and one or two leaves an `int`.
def Early (s : Shop n) : Prop := s.currentTime + 2 < 2 ^ 31

instance (s : Shop n) : Decidable s.Early := inferInstanceAs (Decidable (_ < _))

theorem Early.sum (early : s.Early) {t k : Int} (range : 0 ≤ t ∧ t ≤ s.currentTime) (low : 0 ≤ k) (high : k ≤ 2) :
    int (t + k) = t + k := by
  unfold Early at early
  exact int_of_range (by omega) (by omega)

theorem opening_service (arrivals : Fin n → Int) : Service (opening arrivals) := by
  have printed : Printed (opening arrivals) := by
    constructor
    · intro i t a notEnters notLeaves
      cases a <;> simp [opening, Customer.timeOf] <;> omega
    · simp [opening]
    · simp [opening, eq_comm]
    · simp [opening, eq_comm]
    · simp [opening]
    · simp [opening]
  constructor
  · simp [opening]
  · intro i
    constructor <;> simp [opening]
  · exact printed
  · simp [opening]
  · simp [opening]
  · simp [opening]
  · simp [opening]

structure Acts (s s' : Shop n) (i : Fin n) (action : Action) : Prop where
  output : s'.output = s.output ++ [.customer s.currentTime i action]
  others : ∀ j, j ≠ i → s'.customers j = s.customers j
  times : ∀ a, (s'.customers i).timeOf a
    = if a = action ∧ action ≠ .leaves then s.currentTime else (s.customers i).timeOf a
  bake : (s'.customers i).bakingStartTime = (s.customers i).bakingStartTime
  accept : (s'.customers i).paymentAcceptedTime = (s.customers i).paymentAcceptedTime

theorem Acts.bake' {action : Action} (acts : Acts s s' i action) (j : Fin n) :
    (s'.customers j).bakingStartTime = (s.customers j).bakingStartTime := by
  by_cases same : j = i
  · rw [same, acts.bake]
  · rw [acts.others j same]

theorem Acts.accept' {action : Action} (acts : Acts s s' i action) (j : Fin n) :
    (s'.customers j).paymentAcceptedTime = (s.customers j).paymentAcceptedTime := by
  by_cases same : j = i
  · rw [same, acts.accept]
  · rw [acts.others j same]

theorem Acts.printed {action : Action} (acts : Acts s s' i action)
    (fresh : action ≠ .enters → action ≠ .leaves →
      (s.customers i).timeOf action = 0 ∧ s.currentTime ≠ 0)
    (leaves : action = .leaves → (s.customers i).paymentAcceptedTime ≠ 0 ∧
      (s.customers i).paymentAcceptedTime + 2 ≤ s.currentTime)
    (printed : Printed s) : Printed s' := by
  constructor
  · intro j t a notEnters notLeaves
    rw [acts.output, List.mem_append, printed.actions j t a notEnters notLeaves]
    by_cases same : j = i
    · subst same
      rw [acts.times]
      by_cases this : a = action
      · subst this
        obtain ⟨unset, later⟩ := fresh notEnters notLeaves
        simp [unset, notLeaves]
        omega
      · simp [this]
    · rw [acts.others j same]
      simp [same]
  · intro j t left
    rw [acts.output, List.mem_append] at left
    rw [acts.accept']
    rcases left with before | now
    · exact printed.leaves j t before
    · simp only [List.mem_singleton, Event.customer.injEq] at now
      obtain ⟨rfl, rfl, is⟩ := now
      exact leaves is.symm
  · intro j t
    rw [acts.bake', ← printed.bakes j t, acts.output]
    simp
  · intro j t
    rw [acts.accept', ← printed.accepts j t, acts.output]
    simp
  · intro j
    rw [acts.bake', ← printed.bakedOnce j, acts.output]
    simp [Event.bakesFor]
  · intro j
    rw [acts.accept', ← printed.acceptedOnce j, acts.output]
    simp [Event.acceptsFrom]

structure Aside (s s' : Shop n) : Prop where
  clock : s'.currentTime = s.currentTime
  chefs : s'.chefs = s.chefs
  busy : s'.chefBusyUntil = s.chefBusyUntil
  register : s'.cashRegisterBusyUntil = s.cashRegisterBusyUntil

theorem Acts.service {action : Action} (acts : Acts s s' i action) (aside : Aside s s')
    (phases : ∀ j, j ≠ i → s'.phases j = s.phases j)
    (mine : Punctual (s'.customers i) (s'.phases i) s.currentTime) (printed : Printed s')
    (service : Service s) : Service s' := by
  constructor
  · rw [aside.clock]
    exact service.clock
  · intro j
    rw [aside.clock]
    by_cases same : j = i
    · rw [same]
      exact mine
    · rw [acts.others j same, phases j same]
      exact service.punctual j
  · exact printed
  · rw [aside.chefs, aside.busy, aside.clock]
    exact service.rested
  · intro k e member cooks
    rw [acts.output, List.mem_append] at member
    rcases member with before | now
    · rw [aside.busy]
      exact service.busy k e before cooks
    · rw [List.mem_singleton.mp now] at cooks
      contradiction
  · intro e member accepts
    rw [acts.output, List.mem_append] at member
    rcases member with before | now
    · rw [aside.register]
      exact service.register e before accepts
    · rw [List.mem_singleton.mp now] at accepts
      contradiction
  · rw [acts.output, List.pairwise_append]
    refine ⟨service.apart, List.pairwise_singleton _ _, ?_⟩
    intro e _ f now
    rw [List.mem_singleton.mp now]
    exact ⟨fun cooks same => absurd same.symm cooks, nofun⟩

theorem Printed.of_same (printed : Printed s) (output : s'.output = s.output)
    (customers : s'.customers = s.customers) : Printed s' := by
  constructor
  · rw [output, customers]
    exact printed.actions
  · rw [output, customers]
    exact printed.leaves
  · rw [output, customers]
    exact printed.bakes
  · rw [output, customers]
    exact printed.accepts
  · rw [output, customers]
    exact printed.bakedOnce
  · rw [output, customers]
    exact printed.acceptedOnce

theorem setPhase_service {phase : Phase}
    (mine : Punctual (s.customers i) phase s.currentTime) (service : Service s) :
    Service (s.setPhase i phase) := by
  constructor
  · exact service.clock
  · intro j
    by_cases same : j = i
    · simpa [setPhase, same] using mine
    · simpa [setPhase, same] using service.punctual j
  · exact service.printed.of_same rfl rfl
  · exact service.rested
  · exact service.busy
  · exact service.register
  · exact service.apart

theorem Service.of_counters (service : Service s) (inShop onSofa : Int) (standing : List (Fin n)) :
    Service { s with
      customersInShop := inShop, customersOnSofa := onSofa, standingCustomers := standing } :=
  ⟨service.clock, service.punctual, service.printed.of_same rfl rfl, service.rested, service.busy,
    service.register, service.apart⟩

theorem act_service {action : Action} {phase : Phase} {f : Customer → Customer} (service : Service s)
    (times : ∀ a, (f (s.customers i)).timeOf a
      = if a = action ∧ action ≠ .leaves then s.currentTime else (s.customers i).timeOf a)
    (bake : (f (s.customers i)).bakingStartTime = (s.customers i).bakingStartTime)
    (accept : (f (s.customers i)).paymentAcceptedTime = (s.customers i).paymentAcceptedTime)
    (mine : Punctual (f (s.customers i)) phase s.currentTime)
    (fresh : action ≠ .enters → action ≠ .leaves →
      (s.customers i).timeOf action = 0 ∧ s.currentTime ≠ 0)
    (leaves : action = .leaves → (s.customers i).paymentAcceptedTime ≠ 0 ∧
      (s.customers i).paymentAcceptedTime + 2 ≤ s.currentTime) :
    Service (((s.setCustomer i f).printEvent (.customer s.currentTime i action)).setPhase i phase) := by
  have acts : Acts s (((s.setCustomer i f).printEvent (.customer s.currentTime i action)).setPhase
      i phase) i action := by
    constructor
    · rfl
    · intro j other
      simp [setPhase, setCustomer, printEvent, other]
    · simpa [setPhase, setCustomer, printEvent] using times
    · simpa [setPhase, setCustomer, printEvent] using bake
    · simpa [setPhase, setCustomer, printEvent] using accept
  apply acts.service ⟨rfl, rfl, rfl, rfl⟩ _ _ (acts.printed fresh leaves service.printed) service
  · intro j other
    simp [setPhase, setCustomer, printEvent, other]
  · simpa [setPhase, setCustomer, printEvent] using mine

theorem enter_service (arriving : s.phases i = .arriving) (service : Service s) :
    Service (s.enter i) := by
  have before := service.punctual i
  have clock := service.clock
  have sit := before.seated
  have request := before.requested
  have paid := before.paid
  simp only [arriving, reduceCtorEq, or_false, iff_false, not_not] at sit request paid
  by_cases crowded : s.customersInShop ≥ maxCapacity
  · simp only [enter, crowded, if_true]
    apply setPhase_service _ service
    exact { before with
      standing := nofun
      left := nofun
      seated := by simp [sit]
      requested := by simp [request]
      paid := by simp [paid] }
  · simp only [enter, crowded, if_false]
    apply act_service (service.of_counters (s.customersInShop + 1) s.customersOnSofa s.standingCustomers)
    · intro a
      cases a <;> simp [Customer.timeOf]
    · rfl
    · rfl
    · exact { before with
        enter := ⟨clock, Int.le_refl _⟩
        sit := .inl sit
        standing := nofun
        left := nofun
        seated := by simp [sit]
        requested := by simp [request]
        paid := by simp [paid] }
    · exact fun other => absurd rfl other
    · exact nofun

theorem takeSeat_service (waiting : s.phases i = .entered ∨ s.phases i = .standing)
    (later : (s.customers i).enterTime + 1 ≤ s.currentTime) (service : Service s) :
    Service (s.takeSeat i) := by
  have before := service.punctual i
  have sit := before.seated
  have request := before.requested
  have paid := before.paid
  have enter := before.enter
  have unset : (s.customers i).sitTime = 0 ∧ (s.customers i).requestTime = 0 ∧
      (s.customers i).payTime = 0 := by
    rcases waiting with phase | phase <;> simp_all
  apply act_service service
  · intro a
    cases a <;> simp [Customer.timeOf]
  · rfl
  · rfl
  · exact { before with
      sit := .inr ⟨later, Int.le_refl _⟩
      request := .inl unset.2.1
      standing := nofun
      left := nofun
      seated := by simp; omega
      requested := by simp [unset]
      paid := by simp [unset] }
  · exact fun _ _ => ⟨unset.1, by omega⟩
  · exact nofun

theorem sit_service (entered : s.phases i = .entered)
    (later : (s.customers i).enterTime + 1 ≤ s.currentTime) (service : Service s) :
    Service (s.sit i) := by
  simp only [sit]
  split
  next =>
    exact takeSeat_service (.inl entered) later
      (service.of_counters s.customersInShop (s.customersOnSofa + 1) s.standingCustomers)
  next =>
    apply setPhase_service _
      (service.of_counters s.customersInShop s.customersOnSofa (s.standingCustomers ++ [i]))
    have before := service.punctual i
    have sit := before.seated
    have request := before.requested
    have paid := before.paid
    simp only [entered, reduceCtorEq, or_false, iff_false, not_not] at sit request paid
    exact { before with
      standing := fun _ => later
      left := nofun
      seated := by simp [sit]
      requested := by simp [request]
      paid := by simp [paid] }

theorem poll_service (standing : s.phases i = .standing) (service : Service s) :
    Service (s.poll i) := by
  simp only [poll]
  split
  next => exact service
  next => exact takeSeat_service (.inr standing) ((service.punctual i).standing standing) service

theorem request_service (seated : s.phases i = .seated)
    (later : (s.customers i).sitTime + 1 ≤ s.currentTime) (service : Service s) :
    Service (s.request i) := by
  have before := service.punctual i
  have sit := before.seated
  have request := before.requested
  have paid := before.paid
  have order := before.sit
  have enter := before.enter
  simp only [seated, reduceCtorEq, or_false, iff_false, not_not, iff_true] at sit request paid
  apply act_service service
  · intro a
    cases a <;> simp [Customer.timeOf]
  · rfl
  · rfl
  · exact { before with
      request := .inr ⟨sit, later, Int.le_refl _⟩
      bake := .inl (before.bake.resolve_right fun baked => baked.1 request)
      standing := nofun
      left := nofun
      seated := by simp [sit]
      requested := by simp; omega
      paid := by simp [paid] }
  · exact fun _ _ => ⟨request, by omega⟩
  · exact nofun

theorem pay_service (requested : s.phases i = .requested)
    (baked : (s.customers i).bakingStartTime ≠ 0 ∧ (s.customers i).bakingStartTime + 2 ≤ s.currentTime)
    (service : Service s) : Service (s.pay i) := by
  have before := service.punctual i
  have sit := before.seated
  have request := before.requested
  have paid := before.paid
  have bake := before.bake
  have order := before.request
  have enter := before.enter
  have sat := before.sit
  simp only [requested, reduceCtorEq, or_false, iff_false, not_not, or_true, iff_true]
    at sit request paid
  apply act_service service
  · intro a
    cases a <;> simp [Customer.timeOf]
  · rfl
  · rfl
  · exact { before with
      pay := .inr ⟨baked.1, baked.2, Int.le_refl _⟩
      accept := .inl (before.accept.resolve_right fun accepted => accepted.1 paid)
      standing := nofun
      left := nofun
      seated := by simp [sit]
      requested := by simp [request]
      paid := by simp; omega }
  · exact fun _ _ => ⟨paid, by omega⟩
  · exact nofun

theorem leave_service (paid : s.phases i = .paid)
    (accepted : (s.customers i).paymentAcceptedTime ≠ 0 ∧
      (s.customers i).paymentAcceptedTime + 2 ≤ s.currentTime) (service : Service s) :
    Service (s.leave i) := by
  have before := service.punctual i
  have sit := before.seated
  have request := before.requested
  have pay := before.paid
  simp only [paid, reduceCtorEq, or_false, or_true, iff_true] at sit request pay
  have left : Service (((s.setCustomer i id).printEvent (.customer s.currentTime i .leaves)).setPhase
      i .left) := by
    apply act_service service
    · simp
    · rfl
    · rfl
    · exact { before with
        standing := nofun
        left := fun _ => accepted
        seated := by simpa using sit
        requested := by simpa using request
        paid := by simpa using pay }
    · exact fun _ other => absurd rfl other
    · exact fun _ => accepted
  have same : s.setCustomer i id = s := by simp [setCustomer]
  rw [same] at left
  simp only [leave, letSit]
  split
  next => exact left.of_counters (s.customersInShop - 1) (s.customersOnSofa - 1) s.standingCustomers
  next rest _ => exact left.of_counters (s.customersInShop - 1) (s.customersOnSofa - 1 + 1) rest

theorem customerNext_service (early : s.Early) (taken : s.customerNext i = some s') (service : Service s) :
    Service s' := by
  obtain ⟨entered, sat, _, baked, _, accepted⟩ := (service.punctual i).range
  cases customerNext_turn taken with
  | enter phase => exact enter_service phase service
  | sit phase later =>
    rw [early.sum entered (by omega) (by omega)] at later
    exact sit_service phase later service
  | poll phase => exact poll_service phase service
  | request phase later =>
    rw [early.sum sat (by omega) (by omega)] at later
    exact request_service phase later service
  | pay phase done =>
    rw [early.sum baked (by omega) (by omega)] at done
    exact pay_service phase done service
  | leave phase done =>
    rw [early.sum accepted (by omega) (by omega)] at done
    exact leave_service phase done service

theorem timer_service (service : Service s) :
    Service { s with currentTime := s.currentTime + 1 } where
  clock := by
    have clock := service.clock
    show 0 ≤ s.currentTime + 1
    omega
  punctual i := (service.punctual i).later (by show s.currentTime ≤ s.currentTime + 1; omega)
  printed := service.printed.of_same rfl rfl
  rested k idle := by
    have rested := service.rested k idle
    show s.chefBusyUntil k ≤ s.currentTime + 1
    omega
  busy := service.busy
  register := service.register
  apart := service.apart

theorem setChef_service {phase : ChefPhase} (rested : phase ≠ .working → s.chefBusyUntil k ≤ s.currentTime)
    (service : Service s) : Service (s.setChef k phase) := by
  constructor
  · exact service.clock
  · exact service.punctual
  · exact service.printed.of_same rfl rfl
  · intro j idle
    by_cases same : j = k
    · rw [same] at idle ⊢
      exact rested (by simpa [setChef] using idle)
    · exact service.rested j (by simpa [setChef, same] using idle)
  · exact service.busy
  · exact service.register
  · exact service.apart

-- What a chef prints when it accepts a payment or bakes.
def cooked (s : Shop n) (k : Chef) (i : Fin n) (accepting : Bool) : Event n :=
  if accepting then .accepts s.currentTime k i else .bakes s.currentTime k i

-- A chef that was free acts for a customer, and stays busy for two units of time.
structure Cooks (s s' : Shop n) (k : Chef) (i : Fin n) (accepting : Bool) : Prop where
  output : s'.output = s.output ++ [s.cooked k i accepting]
  clock : s'.currentTime = s.currentTime
  phases : s'.phases = s.phases
  others : ∀ j, j ≠ i → s'.customers j = s.customers j
  times : ∀ a, (s'.customers i).timeOf a = (s.customers i).timeOf a
  bake : (s'.customers i).bakingStartTime
    = if accepting then (s.customers i).bakingStartTime else s.currentTime
  accept : (s'.customers i).paymentAcceptedTime
    = if accepting then s.currentTime else (s.customers i).paymentAcceptedTime
  working : s'.chefs k = .working
  chefs : ∀ j, j ≠ k → s'.chefs j = s.chefs j
  until_ : s'.chefBusyUntil k = s.currentTime + 2
  busy : ∀ j, j ≠ k → s'.chefBusyUntil j = s.chefBusyUntil j
  register : if accepting then s.cashRegisterBusyUntil ≤ s.currentTime ∧
    s'.cashRegisterBusyUntil = s.currentTime + 2 else s'.cashRegisterBusyUntil = s.cashRegisterBusyUntil

variable {accepting : Bool}

theorem cooked_facts : (s.cooked k i accepting).chef = some k ∧
    (s.cooked k i accepting).time = s.currentTime ∧ (s.cooked k i accepting).isAccept = accepting := by
  cases accepting <;> exact ⟨rfl, rfl, rfl⟩

theorem Cooks.printed (cooks : Cooks s s' k i accepting) (clock : s.currentTime ≠ 0)
    (unset : (if accepting then (s.customers i).paymentAcceptedTime
      else (s.customers i).bakingStartTime) = 0)
    (printed : Printed s) : Printed s' := by
  have times (j : Fin n) (a : Action) : (s'.customers j).timeOf a = (s.customers j).timeOf a := by
    by_cases same : j = i
    · rw [same, cooks.times]
    · rw [cooks.others j same]
  constructor
  · intro j t a notEnters notLeaves
    rw [times, ← printed.actions j t a notEnters notLeaves, cooks.output]
    cases accepting <;> simp [cooked]
  · intro j t left
    have leftBefore : .customer t j .leaves ∈ s.output := by
      rw [cooks.output] at left
      cases accepting <;> simpa [cooked] using left
    have done := printed.leaves j t leftBefore
    by_cases same : j = i
    · rw [same] at done ⊢
      cases accepting with
      | true => exact absurd unset done.1
      | false => simpa [cooks.accept] using done
    · rw [cooks.others j same]
      exact done
  · intro j t
    rw [cooks.output]
    simp only [List.mem_append, List.mem_singleton, exists_or, printed.bakes j t]
    by_cases same : j = i
    · cases accepting with
      | true => simp [cooked, same, cooks.bake]
      | false =>
        simp only [Bool.false_eq_true, if_false] at unset
        simp [cooked, same, cooks.bake, unset]
        omega
    · cases accepting <;> simp [cooked, same, cooks.others]
  · intro j t
    rw [cooks.output]
    simp only [List.mem_append, List.mem_singleton, exists_or, printed.accepts j t]
    by_cases same : j = i
    · cases accepting with
      | false => simp [cooked, same, cooks.accept]
      | true =>
        simp only [if_true] at unset
        simp [cooked, same, cooks.accept, unset]
        omega
    · cases accepting <;> simp [cooked, same, cooks.others]
  · intro j
    rw [cooks.output, List.countP_append, printed.bakedOnce j]
    by_cases same : j = i
    · cases accepting with
      | true => simp [cooked, same, cooks.bake, Event.bakesFor]
      | false =>
        simp only [Bool.false_eq_true, if_false] at unset
        simp [cooked, same, cooks.bake, unset, clock, Event.bakesFor]
    · cases accepting <;> simp [cooked, same, cooks.others, Event.bakesFor]
  · intro j
    rw [cooks.output, List.countP_append, printed.acceptedOnce j]
    by_cases same : j = i
    · cases accepting with
      | false => simp [cooked, same, cooks.accept, Event.acceptsFrom]
      | true =>
        simp only [if_true] at unset
        simp [cooked, same, cooks.accept, unset, clock, Event.acceptsFrom]
    · cases accepting <;> simp [cooked, same, cooks.others, Event.acceptsFrom]

theorem Cooks.service (cooks : Cooks s s' k i accepting) (free : s.chefBusyUntil k ≤ s.currentTime)
    (mine : Punctual (s'.customers i) (s.phases i) s.currentTime) (printed : Printed s')
    (service : Service s) : Service s' := by
  obtain ⟨chef, time, isAccept⟩ := @cooked_facts n s i k accepting
  have register := cooks.register
  constructor
  · rw [cooks.clock]
    exact service.clock
  · intro j
    rw [cooks.clock, cooks.phases]
    by_cases same : j = i
    · rw [same]
      exact mine
    · rw [cooks.others j same]
      exact service.punctual j
  · exact printed
  · intro j idle
    rw [cooks.clock]
    by_cases same : j = k
    · rw [same] at idle
      exact absurd cooks.working idle
    · rw [cooks.chefs j same] at idle
      rw [cooks.busy j same]
      exact service.rested j idle
  · intro j e member own
    rw [cooks.output, List.mem_append] at member
    rcases member with before | now
    · have earlier := service.busy j e before own
      by_cases same : j = k
      · subst same
        rw [cooks.until_]
        omega
      · rw [cooks.busy j same]
        exact earlier
    · rw [List.mem_singleton.mp now] at own ⊢
      obtain rfl := Option.some.inj (chef.symm.trans own)
      rw [cooks.until_, time]
  · intro e member accepts
    rw [cooks.output, List.mem_append] at member
    rcases member with before | now
    · have earlier := service.register e before accepts
      split at register
      next => omega
      next => omega
    · rw [List.mem_singleton.mp now] at accepts ⊢
      rw [if_pos (isAccept.symm.trans accepts)] at register
      rw [register.2, time]
  · rw [cooks.output, List.pairwise_append]
    refine ⟨service.apart, List.pairwise_singleton _ _, ?_⟩
    intro e before f now
    rw [List.mem_singleton.mp now, Event.Apart, time, chef, isAccept]
    constructor
    · intro _ same
      have earlier := service.busy k e before same.symm
      omega
    · intro accepts isAccepting
      have earlier := service.register e before accepts
      rw [if_pos isAccepting] at register
      omega

theorem paymentCustomer_some (chosen : s.paymentCustomer = some i) :
    s.CanAccept i ∧ ∀ j, s.CanAccept j → (s.customers i).payTime ≤ (s.customers j).payTime := by
  have eligible (j : Fin n) :
      j ∈ (List.finRange n).filter (fun j => s.CanAccept j) ↔ s.CanAccept j := by simp
  exact ⟨(eligible i).mp (List.argmin_mem chosen), fun j can =>
    List.le_of_mem_argmin (f := fun j => (s.customers j).payTime) ((eligible j).mpr can) chosen⟩

theorem paymentCustomer_none (missing : s.paymentCustomer = none) (j : Fin n) : ¬ s.CanAccept j := by
  have empty := List.argmin_eq_none.mp missing
  intro can
  have member : j ∈ (List.finRange n).filter fun j => s.CanAccept j := by simpa using can
  simp [empty] at member

theorem bakeCustomer_some (chosen : s.bakeCustomer k = some i) :
    s.CanBake k i ∧ ∀ j, s.CanBake k j → (s.customers i).requestTime ≤ (s.customers j).requestTime := by
  have eligible (j : Fin n) :
      j ∈ (List.finRange n).filter (fun j => s.CanBake k j) ↔ s.CanBake k j := by simp
  exact ⟨(eligible i).mp (List.argmin_mem chosen), fun j can =>
    List.le_of_mem_argmin (f := fun j => (s.customers j).requestTime) ((eligible j).mpr can) chosen⟩

theorem acceptPayment_service (early : s.Early) (can : s.CanAccept i) (free : s.chefBusyUntil k ≤ s.currentTime)
    (service : Service s) : Service (s.acceptPayment k i) := by
  obtain ⟨⟨paid, unset⟩, later, register⟩ := can
  obtain ⟨_, _, _, _, pays, _⟩ := (service.punctual i).range
  rw [early.sum pays (by omega) (by omega)] at later
  have until_ := early.sum ⟨service.clock, Int.le_refl _⟩ (k := 2) (by omega) (by omega)
  have customers (j : Fin n) : (s.acceptPayment k i).customers j
      = if j = i then { s.customers i with paymentAcceptedTime := s.currentTime } else s.customers j := by
    simp [acceptPayment, keepBusy, setChef, printEvent, setCustomer, Function.update_apply]
  have cooks : Cooks s (s.acceptPayment k i) k i true := by
    constructor
    · rfl
    · rfl
    · rfl
    · intro j other
      rw [customers, if_neg other]
    · intro a
      rw [customers, if_pos rfl]
      cases a <;> rfl
    · rw [customers, if_pos rfl]
      rfl
    · rw [customers, if_pos rfl]
      rfl
    · simp [acceptPayment, keepBusy, setChef]
    · intro j other
      simp [acceptPayment, keepBusy, setChef, printEvent, setCustomer, other]
    · simp [acceptPayment, keepBusy, setChef, printEvent, setCustomer, until_]
    · intro j other
      simp [acceptPayment, keepBusy, setChef, printEvent, setCustomer, other]
    · exact ⟨register, until_⟩
  apply cooks.service free _ (cooks.printed (by omega) unset service.printed) service
  rw [customers, if_pos rfl]
  exact { service.punctual i with
    accept := .inr ⟨by show (s.customers i).payTime ≠ 0; omega, later, Int.le_refl _⟩
    left := fun gone => absurd unset ((service.punctual i).left gone).1 }

theorem bake_service (early : s.Early) (can : s.CanBake k i) (service : Service s) : Service (s.bake k i) := by
  obtain ⟨⟨requested, unset⟩, later, free⟩ := can
  obtain ⟨_, _, requests, _, _, _⟩ := (service.punctual i).range
  rw [early.sum requests (by omega) (by omega)] at later
  have until_ := early.sum ⟨service.clock, Int.le_refl _⟩ (k := 2) (by omega) (by omega)
  have customers (j : Fin n) : (s.bake k i).customers j = if j = i then
      { s.customers i with bakingStartTime := s.currentTime, chefId := k + 1 } else s.customers j := by
    simp [bake, keepBusy, setChef, printEvent, setCustomer, Function.update_apply]
  have cooks : Cooks s (s.bake k i) k i false := by
    constructor
    · rfl
    · rfl
    · rfl
    · intro j other
      rw [customers, if_neg other]
    · intro a
      rw [customers, if_pos rfl]
      cases a <;> rfl
    · rw [customers, if_pos rfl]
      rfl
    · rw [customers, if_pos rfl]
      rfl
    · simp [bake, keepBusy, setChef]
    · intro j other
      simp [bake, keepBusy, setChef, printEvent, setCustomer, other]
    · simp [bake, keepBusy, setChef, printEvent, setCustomer, until_]
    · intro j other
      simp [bake, keepBusy, setChef, printEvent, setCustomer, other]
    · rfl
  apply cooks.service free _ (cooks.printed (by omega) unset service.printed) service
  rw [customers, if_pos rfl]
  have before := service.punctual i
  exact { before with
    bake := .inr ⟨by show (s.customers i).requestTime ≠ 0; omega, later, Int.le_refl _⟩
    pay := .inl (before.pay.resolve_right fun paid => paid.1 unset) }

theorem chefNext_service (early : s.Early) (taken : s.chefNext k = some s') (service : Service s) : Service s' := by
  have rested := service.rested k
  cases chefNext_turn taken with
  | accept i ready payment =>
    exact acceptPayment_service early (paymentCustomer_some payment).1 (rested (by simp [ready])) service
  | bake i ready payment cake => exact bake_service early (bakeCustomer_some cake).1 service
  | idle ready => exact setChef_service (fun _ => rested (by simp [ready])) service
  | finish working free => exact setChef_service (fun _ => free) service
  | test idle => exact setChef_service (fun _ => rested (by simp [idle])) service
  | decide allDone testing => exact setChef_service (fun _ => rested (by simp [testing])) service

theorem next_service {l : Turn n} (early : s.Early) (taken : s.next l = some s') (service : Service s) :
    Service s' := by
  cases l with
  | timer =>
    cases taken
    rw [early.sum ⟨service.clock, Int.le_refl _⟩ (by omega) (by omega)]
    exact timer_service service
  | customer i => exact customerNext_service early taken service
  | chef k => exact chefNext_service early taken service

theorem system_service (reached : (system n).ReachableVia (fun s _ => s.Early) s) : Service s := by
  refine reached.invariant ?_ fun s l t service early taken => next_service (s := s) (l := l) early taken service
  rintro s ⟨arrivals, rfl⟩
  exact opening_service arrivals

theorem ovens (service : Service s) (time : Int) : s.output.countP (Event.bakesAt time) ≤ numOvens := by
  have apart : (s.output.filter (Event.bakesAt time)).Pairwise fun e f => e.chef ≠ f.chef := by
    apply (List.Pairwise.filter _ service.apart).imp_of_mem
    intro e f inE inF apart same
    have bakesE := (List.mem_filter.mp inE).2
    have bakesF := (List.mem_filter.mp inF).2
    cases e <;> cases f <;> simp [Event.bakesAt] at bakesE bakesF
    next start k i start' k' i' =>
      have later := apart.1 (by simp [Event.chef]) same.symm
      simp only [Event.time] at later
      omega
  have chefs : ((s.output.filter (Event.bakesAt time)).map Event.chef).Nodup :=
    List.pairwise_map.mpr apart
  have some_ : ∀ c ∈ (s.output.filter (Event.bakesAt time)).map Event.chef,
      c ∈ (List.finRange numChefs).map some := by
    intro c member
    obtain ⟨e, inside, rfl⟩ := List.mem_map.mp member
    have bakes := (List.mem_filter.mp inside).2
    cases e <;> simp [Event.bakesAt, Event.chef] at bakes ⊢
  have bounded := (List.subperm_of_subset chefs some_).length_le
  rw [List.length_map, List.length_map, List.length_finRange] at bounded
  rw [List.countP_eq_length_filter]
  exact bounded

theorem work_priority (taken : s.next (.chef k) = some s') :
    (∀ i, s'.output = s.output ++ [.bakes s.currentTime k i] → (∀ j, ¬ s.CanAccept j) ∧
      ∀ j, s.CanBake k j → (s.customers i).requestTime ≤ (s.customers j).requestTime) ∧
    ∀ i, s'.output = s.output ++ [.accepts s.currentTime k i] →
      ∀ j, s.CanAccept j → (s.customers i).payTime ≤ (s.customers j).payTime := by
  have silent {e : Event n} (same : s'.output = s.output) : s'.output ≠ s.output ++ [e] := by
    simp [same]
  have prints {e f : Event n} (first : s'.output = s.output ++ [e])
      (second : s'.output = s.output ++ [f]) : e = f := by
    simpa using first.symm.trans second
  have quiet (same : s'.output = s.output) : (∀ i, s'.output = s.output ++ [.bakes s.currentTime k i] → (∀ j, ¬ s.CanAccept j) ∧
      ∀ j, s.CanBake k j → (s.customers i).requestTime ≤ (s.customers j).requestTime) ∧
      ∀ i, s'.output = s.output ++ [.accepts s.currentTime k i] →
        ∀ j, s.CanAccept j → (s.customers i).payTime ≤ (s.customers j).payTime :=
    ⟨fun i bakes => absurd bakes (silent same), fun i accepts => absurd accepts (silent same)⟩
  cases chefNext_turn taken with
  | accept p _ payment =>
    have printed : (s.acceptPayment k p).output = s.output ++ [.accepts s.currentTime k p] := rfl
    refine ⟨fun i bakes => absurd (prints printed bakes) nofun, fun i accepts => ?_⟩
    have same := prints printed accepts
    simp only [Event.accepts.injEq, true_and] at same
    exact same ▸ (paymentCustomer_some payment).2
  | bake b _ payment cake =>
    have printed : (s.bake k b).output = s.output ++ [.bakes s.currentTime k b] := rfl
    refine ⟨fun i bakes => ?_, fun i accepts => absurd (prints printed accepts) nofun⟩
    have same := prints printed bakes
    simp only [Event.bakes.injEq, true_and] at same
    exact ⟨paymentCustomer_none payment, same ▸ (bakeCustomer_some cake).2⟩
  | idle | finish | test | decide => exact quiet rfl

-- In runs whose every step is taken before a sum can overflow.
theorem service_protocol {r : Option (Shop n)} (few : n ≤ maxCustomers)
    (reached : (program n).ReachableVia (fun r _ => ∀ s ∈ r, s.Early) r) :
    ∃ s, r = some s ∧
    (∀ i, s.output.countP (Event.bakesFor i) ≤ 1 ∧ s.output.countP (Event.acceptsFrom i) ≤ 1) ∧
    (∀ i, ((s.customers i).sitTime ≠ 0 → (s.customers i).enterTime + 1 ≤ (s.customers i).sitTime) ∧
      ((s.customers i).requestTime ≠ 0 → (s.customers i).sitTime ≠ 0 ∧
        (s.customers i).sitTime + 1 ≤ (s.customers i).requestTime) ∧
      ((s.customers i).bakingStartTime ≠ 0 → (s.customers i).requestTime ≠ 0 ∧
        (s.customers i).requestTime + 1 ≤ (s.customers i).bakingStartTime) ∧
      ((s.customers i).payTime ≠ 0 → (s.customers i).bakingStartTime ≠ 0 ∧
        (s.customers i).bakingStartTime + 2 ≤ (s.customers i).payTime) ∧
      ((s.customers i).paymentAcceptedTime ≠ 0 → (s.customers i).payTime ≠ 0 ∧
        (s.customers i).payTime + 1 ≤ (s.customers i).paymentAcceptedTime) ∧
      ∀ t, .customer t i .leaves ∈ s.output → (s.customers i).paymentAcceptedTime ≠ 0 ∧
        (s.customers i).paymentAcceptedTime + 2 ≤ t) ∧
    (∀ i t, (.customer t i .sits ∈ s.output ↔ (s.customers i).sitTime = t ∧ t ≠ 0) ∧
      (.customer t i .requestsCake ∈ s.output ↔ (s.customers i).requestTime = t ∧ t ≠ 0) ∧
      ((∃ k, .bakes t k i ∈ s.output) ↔ (s.customers i).bakingStartTime = t ∧ t ≠ 0) ∧
      (.customer t i .pays ∈ s.output ↔ (s.customers i).payTime = t ∧ t ≠ 0) ∧
      ((∃ k, .accepts t k i ∈ s.output) ↔ (s.customers i).paymentAcceptedTime = t ∧ t ≠ 0)) ∧
    s.output.Pairwise Event.Apart ∧
    (∀ time, s.output.countP (Event.bakesAt time) ≤ numOvens) ∧
    ∀ k s', s.next (.chef k) = some s' →
      (∀ i, s'.output = s.output ++ [.bakes s.currentTime k i] → (∀ j, ¬ s.CanAccept j) ∧
        ∀ j, s.CanBake k j → (s.customers i).requestTime ≤ (s.customers j).requestTime) ∧
      ∀ i, s'.output = s.output ++ [.accepts s.currentTime k i] →
        ∀ j, s.CanAccept j → (s.customers i).payTime ≤ (s.customers j).payTime := by
  obtain ⟨s, running, reached⟩ := program_runs few reached
  have service := system_service (reached.weaken fun s _ early => early s rfl)
  have printed := service.printed
  refine ⟨s, running, fun i => ⟨?_, ?_⟩, fun i => ?_, fun i t => ?_, service.apart, ovens service,
    fun k s' taken => work_priority taken⟩
  · rw [printed.bakedOnce]
    split <;> omega
  · rw [printed.acceptedOnce]
    split <;> omega
  · have times := service.punctual i
    have sit := times.sit
    have request := times.request
    have bake := times.bake
    have pay := times.pay
    have accept := times.accept
    exact ⟨by omega, by omega, by omega, by omega, by omega, printed.leaves i⟩
  · exact ⟨printed.actions i t .sits nofun nofun, printed.actions i t .requestsCake nofun nofun,
      printed.bakes i t, printed.actions i t .pays nofun nofun, printed.accepts i t⟩

def firstChef : Chef := ⟨0, by decide⟩

def secondChef : Chef := ⟨1, by decide⟩

def visit : List (Turn 1) :=
  [.customer 0, .timer, .customer 0, .timer, .customer 0, .timer, .chef firstChef, .timer, .timer,
    .customer 0, .timer, .chef secondChef, .timer, .timer, .customer 0]

-- One customer, from the door to the door.
theorem service_protocol_one : ∃ s : Shop 1, (s.customers 0).payTime = 5 ∧
    (s.customers 0).paymentAcceptedTime = 6 ∧ .customer 8 0 .leaves ∈ s.output ∧
    s.output.countP (Event.bakesFor 0) ≤ 1 := by
  have runs : (System.execute advance (fun r _ => decide (∀ s ∈ r, s.Early)) (start fun _ => 0) visit).any
      (fun r => decide (∃ s ∈ r, (s.customers 0).payTime = 5 ∧ (s.customers 0).paymentAcceptedTime = 6 ∧
        .customer 8 0 .leaves ∈ s.output)) = true := by decide +kernel
  obtain ⟨r, ran, facts⟩ := (Option.any_eq_true _ _).mp runs
  obtain ⟨s, here, paid, accepted, left⟩ := of_decide_eq_true facts
  have reached : (program 1).ReachableVia (fun r _ => ∀ s ∈ r, s.Early) r :=
    System.execute_reachableVia (fun _ _ => of_decide_eq_true) (.initial ⟨_, rfl⟩) ran
  obtain ⟨s', running, once, _⟩ := service_protocol (by decide) reached
  obtain rfl : s = s' := Option.some.inj ((Option.mem_def.mp here).symm.trans running)
  exact ⟨s, paid, accepted, left, (once 0).1⟩

-- A customer that arrives at time 0 enters at time 0.
theorem enters_at_zero : ∃ s : Shop 1, (program 1).Reachable (some s) ∧
    .customer 0 0 .enters ∈ s.output ∧ s.phases 0 = .entered ∧ (s.customers 0).enterTime = 0 := by
  refine ⟨_, System.execute_reachable (s := start fun _ => 0) ⟨_, rfl⟩ [.customer 0] rfl, ?_, ?_, ?_⟩
  · decide
  · decide
  · decide

end Shop

end SystemsSuite.Bakery
