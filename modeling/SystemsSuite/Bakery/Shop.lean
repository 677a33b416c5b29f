import SystemsSuite.Lib.Transition
import SystemsSuite.Lib.Words

set_option autoImplicit false

namespace SystemsSuite.Bakery

open Lib

def maxCapacity : Nat := 25

def sofaCapacity : Nat := 4

def numChefs : Nat := 4

def standingCapacity : Nat := maxCapacity - sofaCapacity

-- The pointers that `all_customers` has room for.
def maxCustomers : Nat := 1000

-- The times are `int`s: what a sum is, is what is kept of it in 32 bits.
structure Customer where
  arrivalTime : Int
  enterTime : Int
  sitTime : Int
  requestTime : Int
  bakingStartTime : Int
  payTime : Int
  paymentAcceptedTime : Int
  chefId : Nat
  deriving Repr

-- Where a customer's thread is: each phase waits to run its next region under `shop_mutex`.
inductive Phase
  | arriving
  | turnedAway
  | entered
  | standing
  | seated
  | requested
  | paid
  | left
  deriving DecidableEq, Repr

-- Where a chef's thread is. `testing` has computed `all_done` and has yet to read
-- `customers_in_shop`, without the lock.
inductive ChefPhase
  | ready
  | working
  | idle
  | testing (allDone : Bool)
  | gone
  deriving DecidableEq, Repr

abbrev Chef : Type := Fin numChefs

inductive Action
  | enters
  | sits
  | requestsCake
  | pays
  | leaves
  deriving DecidableEq, Repr

-- The lines that are printed. They show the `id` of the customer.
inductive Event (n : Nat)
  | customer (time : Int) (i : Fin n) (action : Action)
  | bakes (time : Int) (chef : Chef) (i : Fin n)
  | accepts (time : Int) (chef : Chef) (i : Fin n)
  deriving DecidableEq, Repr

structure Shop (n : Nat) where
  currentTime : Int
  customersInShop : Int
  customersOnSofa : Int
  standingCustomers : List (Fin n)
  customers : Fin n → Customer
  phases : Fin n → Phase
  chefs : Chef → ChefPhase
  chefBusyUntil : Chef → Int
  cashRegisterBusyUntil : Int
  output : List (Event n)

variable {n : Nat}

namespace Shop

def opening (arrivals : Fin n → Int) : Shop n where
  currentTime := 0
  customersInShop := 0
  customersOnSofa := 0
  standingCustomers := []
  customers := fun i => ⟨arrivals i, 0, 0, 0, 0, 0, 0, 0⟩
  phases := fun _ => .arriving
  chefs := fun _ => .ready
  chefBusyUntil := fun _ => 0
  cashRegisterBusyUntil := 0
  output := []

def setCustomer (s : Shop n) (i : Fin n) (f : Customer → Customer) : Shop n :=
  { s with customers := Function.update s.customers i (f (s.customers i)) }

def setPhase (s : Shop n) (i : Fin n) (phase : Phase) : Shop n :=
  { s with phases := Function.update s.phases i phase }

def setChef (s : Shop n) (k : Chef) (phase : ChefPhase) : Shop n :=
  { s with chefs := Function.update s.chefs k phase }

def printEvent (s : Shop n) (event : Event n) : Shop n :=
  { s with output := s.output ++ [event] }

def enter (s : Shop n) (i : Fin n) : Shop n :=
  if s.customersInShop ≥ maxCapacity then s.setPhase i .turnedAway
  else
    (({ s with customersInShop := s.customersInShop + 1 }.setCustomer i fun c =>
      { c with enterTime := s.currentTime }).printEvent (.customer s.currentTime i .enters)).setPhase
        i .entered

-- `sit_time` is set, by the customer that finds a seat or that finds itself out of the queue.
def takeSeat (s : Shop n) (i : Fin n) : Shop n :=
  ((s.setCustomer i fun c => { c with sitTime := s.currentTime }).printEvent
    (.customer s.currentTime i .sits)).setPhase i .seated

def sit (s : Shop n) (i : Fin n) : Shop n :=
  if s.customersOnSofa < sofaCapacity then
    { s with customersOnSofa := s.customersOnSofa + 1 }.takeSeat i
  else { s with standingCustomers := s.standingCustomers ++ [i] }.setPhase i .standing

def poll (s : Shop n) (i : Fin n) : Shop n :=
  if i ∈ s.standingCustomers then s else s.takeSeat i

def request (s : Shop n) (i : Fin n) : Shop n :=
  ((s.setCustomer i fun c => { c with requestTime := s.currentTime }).printEvent
    (.customer s.currentTime i .requestsCake)).setPhase i .requested

def pay (s : Shop n) (i : Fin n) : Shop n :=
  ((s.setCustomer i fun c => { c with payTime := s.currentTime }).printEvent
    (.customer s.currentTime i .pays)).setPhase i .paid

-- The seat goes to the first customer in the standing queue.
def letSit (s : Shop n) : Shop n :=
  match s.standingCustomers with
  | [] => s
  | _ :: rest => { s with standingCustomers := rest, customersOnSofa := s.customersOnSofa + 1 }

def leave (s : Shop n) (i : Fin n) : Shop n :=
  ({ s.printEvent (.customer s.currentTime i .leaves) with
      customersInShop := s.customersInShop - 1
      customersOnSofa := s.customersOnSofa - 1 }.letSit).setPhase i .left

-- What a customer waits for outside the lock stays true once it is true.
def customerNext (s : Shop n) (i : Fin n) : Option (Shop n) :=
  let c := s.customers i
  match s.phases i with
  | .arriving => if c.arrivalTime ≤ s.currentTime then some (s.enter i) else none
  | .entered => if int (c.enterTime + 1) ≤ s.currentTime then some (s.sit i) else none
  | .standing => some (s.poll i)
  | .seated => if int (c.sitTime + 1) ≤ s.currentTime then some (s.request i) else none
  | .requested =>
    if c.bakingStartTime ≠ 0 ∧ int (c.bakingStartTime + 2) ≤ s.currentTime then some (s.pay i)
    else none
  | .paid =>
    if c.paymentAcceptedTime ≠ 0 ∧ int (c.paymentAcceptedTime + 2) ≤ s.currentTime then
      some (s.leave i)
    else none
  | .turnedAway | .left => none

def CanAccept (s : Shop n) (i : Fin n) : Prop :=
  let c := s.customers i
  (0 < c.payTime ∧ c.paymentAcceptedTime = 0) ∧
    int (c.payTime + 1) ≤ s.currentTime ∧ s.cashRegisterBusyUntil ≤ s.currentTime

instance (s : Shop n) (i : Fin n) : Decidable (s.CanAccept i) := inferInstanceAs (Decidable (_ ∧ _))

def CanBake (s : Shop n) (k : Chef) (i : Fin n) : Prop :=
  let c := s.customers i
  (0 < c.requestTime ∧ c.bakingStartTime = 0) ∧
    int (c.requestTime + 1) ≤ s.currentTime ∧ s.chefBusyUntil k ≤ s.currentTime

instance (s : Shop n) (k : Chef) (i : Fin n) : Decidable (s.CanBake k i) :=
  inferInstanceAs (Decidable (_ ∧ _))

-- The order of the clock, whichever other orders of the integers are in scope.
local instance (priority := high) clockOrder : Preorder Int := Int.instLinearOrder.toPreorder

-- The scans keep the first customer with the earliest time.
def paymentCustomer (s : Shop n) : Option (Fin n) :=
  ((List.finRange n).filter fun i => s.CanAccept i).argmin fun i => (s.customers i).payTime

def bakeCustomer (s : Shop n) (k : Chef) : Option (Fin n) :=
  ((List.finRange n).filter fun i => s.CanBake k i).argmin fun i => (s.customers i).requestTime

def keepBusy (s : Shop n) (k : Chef) : Shop n :=
  { s with chefBusyUntil := Function.update s.chefBusyUntil k (int (s.currentTime + 2)) }.setChef k .working

def acceptPayment (s : Shop n) (k : Chef) (i : Fin n) : Shop n :=
  ({ (s.setCustomer i fun c => { c with paymentAcceptedTime := s.currentTime }) with
      cashRegisterBusyUntil := int (s.currentTime + 2) }.printEvent (.accepts s.currentTime k i)).keepBusy k

def bake (s : Shop n) (k : Chef) (i : Fin n) : Shop n :=
  ((s.setCustomer i fun c => { c with bakingStartTime := s.currentTime, chefId := k + 1 }).printEvent
    (.bakes s.currentTime k i)).keepBusy k

def work (s : Shop n) (k : Chef) : Shop n :=
  match s.paymentCustomer with
  | some i => s.acceptPayment k i
  | none =>
    match s.bakeCustomer k with
    | some i => s.bake k i
    | none => s.setChef k .idle

def AllDone (s : Shop n) : Prop :=
  ∀ i, ¬ ((s.customers i).paymentAcceptedTime = 0 ∨
    s.currentTime < int ((s.customers i).paymentAcceptedTime + 2))

instance (s : Shop n) : Decidable s.AllDone := inferInstanceAs (Decidable (∀ _, _))

def chefNext (s : Shop n) (k : Chef) : Option (Shop n) :=
  match s.chefs k with
  | .ready => some (s.work k)
  | .working => if s.chefBusyUntil k ≤ s.currentTime then some (s.setChef k .ready) else none
  | .idle => some (s.setChef k (.testing (decide s.AllDone)))
  | .testing allDone =>
    some (s.setChef k (if allDone = true ∧ s.customersInShop = 0 then .gone else .ready))
  | .gone => none

-- All that a turn of a customer can be.
inductive CustomerTurn (s : Shop n) (i : Fin n) : Shop n → Prop
  | enter (phase : s.phases i = .arriving) (arrived : (s.customers i).arrivalTime ≤ s.currentTime) :
    CustomerTurn s i (s.enter i)
  | sit (phase : s.phases i = .entered) (later : int ((s.customers i).enterTime + 1) ≤ s.currentTime) :
    CustomerTurn s i (s.sit i)
  | poll (phase : s.phases i = .standing) : CustomerTurn s i (s.poll i)
  | request (phase : s.phases i = .seated) (later : int ((s.customers i).sitTime + 1) ≤ s.currentTime) :
    CustomerTurn s i (s.request i)
  | pay (phase : s.phases i = .requested) (baked : (s.customers i).bakingStartTime ≠ 0 ∧
      int ((s.customers i).bakingStartTime + 2) ≤ s.currentTime) : CustomerTurn s i (s.pay i)
  | leave (phase : s.phases i = .paid) (accepted : (s.customers i).paymentAcceptedTime ≠ 0 ∧
      int ((s.customers i).paymentAcceptedTime + 2) ≤ s.currentTime) : CustomerTurn s i (s.leave i)

theorem customerNext_turn {s s' : Shop n} {i : Fin n} (taken : s.customerNext i = some s') : s.CustomerTurn i s' := by
  simp only [customerNext] at taken
  cases phase : s.phases i with
  | arriving =>
    simp only [phase] at taken
    obtain ⟨arrived, happens⟩ := Option.ite_none_right_eq_some.mp taken
    cases happens
    exact .enter phase arrived
  | entered =>
    simp only [phase] at taken
    obtain ⟨later, happens⟩ := Option.ite_none_right_eq_some.mp taken
    cases happens
    exact .sit phase later
  | standing =>
    simp only [phase] at taken
    cases taken
    exact .poll phase
  | seated =>
    simp only [phase] at taken
    obtain ⟨later, happens⟩ := Option.ite_none_right_eq_some.mp taken
    cases happens
    exact .request phase later
  | requested =>
    simp only [phase] at taken
    obtain ⟨baked, happens⟩ := Option.ite_none_right_eq_some.mp taken
    cases happens
    exact .pay phase baked
  | paid =>
    simp only [phase] at taken
    obtain ⟨accepted, happens⟩ := Option.ite_none_right_eq_some.mp taken
    cases happens
    exact .leave phase accepted
  | turnedAway | left => simp [phase] at taken

-- All that a turn of a chef can be.
inductive ChefTurn (s : Shop n) (k : Chef) : Shop n → Prop
  | accept (i : Fin n) (ready : s.chefs k = .ready) (payment : s.paymentCustomer = some i) :
    ChefTurn s k (s.acceptPayment k i)
  | bake (i : Fin n) (ready : s.chefs k = .ready) (payment : s.paymentCustomer = none)
    (cake : s.bakeCustomer k = some i) : ChefTurn s k (s.bake k i)
  | idle (ready : s.chefs k = .ready) (payment : s.paymentCustomer = none) (cake : s.bakeCustomer k = none) :
    ChefTurn s k (s.setChef k .idle)
  | finish (working : s.chefs k = .working) (free : s.chefBusyUntil k ≤ s.currentTime) :
    ChefTurn s k (s.setChef k .ready)
  | test (idle : s.chefs k = .idle) : ChefTurn s k (s.setChef k (.testing (decide s.AllDone)))
  | decide (allDone : Bool) (testing : s.chefs k = .testing allDone) :
    ChefTurn s k (s.setChef k (if allDone = true ∧ s.customersInShop = 0 then .gone else .ready))

theorem chefNext_turn {s s' : Shop n} {k : Chef} (taken : s.chefNext k = some s') : s.ChefTurn k s' := by
  simp only [chefNext] at taken
  cases phase : s.chefs k with
  | ready =>
    simp only [phase] at taken
    cases taken
    unfold work
    split
    next i payment => exact .accept i phase payment
    next payment =>
      split
      next i cake => exact .bake i phase payment cake
      next cake => exact .idle phase payment cake
  | working =>
    simp only [phase] at taken
    obtain ⟨free, happens⟩ := Option.ite_none_right_eq_some.mp taken
    cases happens
    exact .finish phase free
  | idle =>
    simp only [phase] at taken
    cases taken
    exact .test phase
  | testing allDone =>
    simp only [phase] at taken
    cases taken
    exact .decide allDone phase
  | gone => simp [phase] at taken

end Shop

inductive Turn (n : Nat)
  | timer
  | customer (i : Fin n)
  | chef (k : Chef)
  deriving DecidableEq

namespace Shop

def next (s : Shop n) : Turn n → Option (Shop n)
  | .timer => some { s with currentTime := int (s.currentTime + 1) }
  | .customer i => s.customerNext i
  | .chef k => s.chefNext k

def Opens (s : Shop n) : Prop := ∃ arrivals, s = opening arrivals

-- The threads, once `main` has read its input.
def system (n : Nat) : System (Shop n) (Turn n) := System.ofNext Opens next

end Shop

-- `all_customers[customer_count++] = c`; `none` is a store behind the array.
def storeCustomer (customers : List Int) (arrival : Int) : Option (List Int) :=
  if customers.length < maxCustomers then some (customers ++ [arrival]) else none

-- The loop of `main` over the lines of its input, of which it stores the customers.
def readCustomers (lines : List Int) : Option (List Int) := lines.foldlM storeCustomer []

-- What `main` starts the threads on. After a store behind the array C does not say what the program does.
def start (arrivals : Fin n → Int) : Option (Shop n) :=
  (readCustomers (List.ofFn arrivals)).map fun _ => .opening arrivals

def advance (s : Option (Shop n)) (turn : Turn n) : Option (Option (Shop n)) :=
  s.bind fun shop => (shop.next turn).map some

def program (n : Nat) : System (Option (Shop n)) (Turn n) :=
  System.ofNext (fun s => ∃ arrivals, s = start arrivals) advance

variable {s : Option (Shop n)} {arrivals : Fin n → Int}

theorem storeCustomers (customers lines : List Int) (room : customers.length ≤ maxCustomers) :
    lines.foldlM storeCustomer customers =
      if customers.length + lines.length ≤ maxCustomers then some (customers ++ lines) else none := by
  induction lines generalizing customers with
  | nil =>
    rw [List.length_nil, Nat.add_zero, if_pos room, List.append_nil]
    rfl
  | cons arrival lines ih =>
    rw [List.foldlM_cons, storeCustomer, List.length_cons]
    by_cases space : customers.length < maxCustomers
    · have longer : (customers ++ [arrival]).length = customers.length + 1 := List.length_append
      rw [if_pos space]
      show lines.foldlM storeCustomer (customers ++ [arrival]) = _
      rw [ih _ (longer ▸ space), longer, List.append_assoc, List.singleton_append]
      simp only [Nat.add_assoc, Nat.add_comm 1]
    · rw [if_neg space, if_neg (by omega)]
      rfl

theorem start_eq (arrivals : Fin n → Int) :
    start arrivals = if n ≤ maxCustomers then some (.opening arrivals) else none := by
  rw [start, readCustomers, storeCustomers [] _ (Nat.zero_le _), List.length_nil, Nat.zero_add, List.length_ofFn]
  by_cases few : n ≤ maxCustomers
  · rw [if_pos few, if_pos few]
    rfl
  · rw [if_neg few, if_neg few]
    rfl

theorem program_runs {guard : Option (Shop n) → Turn n → Prop} (few : n ≤ maxCustomers)
    (reached : (program n).ReachableVia guard s) :
    ∃ shop, s = some shop ∧ (Shop.system n).ReachableVia (fun shop => guard (some shop)) shop := by
  induction reached with
  | initial start =>
    obtain ⟨arrivals, rfl⟩ := start
    rw [start_eq, if_pos few]
    exact ⟨_, rfl, .initial ⟨arrivals, rfl⟩⟩
  | step _ meets taken ih =>
    obtain ⟨shop, rfl, before⟩ := ih
    obtain ⟨shop', happens, rfl⟩ := Option.map_eq_some_iff.mp taken
    exact ⟨shop', rfl, before.step meets happens⟩

end SystemsSuite.Bakery
