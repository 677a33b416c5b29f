import SystemsSuite.Bakery.Shop

set_option autoImplicit false

namespace SystemsSuite.Bakery

open Lib

variable {n : Nat}

theorem card_change {P Q : Fin n → Prop} [DecidablePred P] [DecidablePred Q] (i : Fin n)
    (same : ∀ j, j ≠ i → (Q j ↔ P j)) :
    (Finset.univ.filter Q).card + (if P i then 1 else 0)
      = (Finset.univ.filter P).card + if Q i then 1 else 0 := by
  have others : (∑ j ∈ Finset.univ.erase i, if Q j then 1 else 0)
      = ∑ j ∈ Finset.univ.erase i, if P j then 1 else 0 := by
    apply Finset.sum_congr rfl
    intro j member
    simp only [same j (Finset.ne_of_mem_erase member)]
  have splitQ := Finset.add_sum_erase Finset.univ (fun j => if Q j then 1 else 0) (Finset.mem_univ i)
  have splitP := Finset.add_sum_erase Finset.univ (fun j => if P j then 1 else 0) (Finset.mem_univ i)
  rw [Finset.card_filter, Finset.card_filter, ← splitQ, ← splitP, others]
  omega

def Phase.isInside : Phase → Bool
  | .entered | .standing | .seated | .requested | .paid => true
  | .arriving | .turnedAway | .left => false

def Phase.isSeated : Phase → Bool
  | .seated | .requested | .paid => true
  | .arriving | .turnedAway | .entered | .standing | .left => false

namespace Shop

variable {s s' : Shop n}

def IsInside (s : Shop n) (i : Fin n) : Prop := (s.phases i).isInside = true

-- A seat is held from the moment it is given, before the customer knows.
def HoldsSeat (s : Shop n) (i : Fin n) : Prop :=
  (s.phases i).isSeated = true ∨ s.phases i = .standing ∧ i ∉ s.standingCustomers

instance : DecidablePred s.IsInside := fun _ => inferInstanceAs (Decidable (_ = _))

instance : DecidablePred s.HoldsSeat := fun _ => inferInstanceAs (Decidable (_ ∨ _))

-- Who has come to the sofa and who has been given a seat, in order.
structure Seats (n : Nat) where
  asked : List (Fin n)
  given : List (Fin n)

def Seats.none : Seats n := ⟨[], []⟩

def Seats.note (seats : Seats n) (s : Shop n) : Turn n → Shop n → Seats n
  | .customer i, _ =>
    match s.phases i with
    | .entered =>
      { asked := seats.asked ++ [i]
        given := if s.customersOnSofa < sofaCapacity then seats.given ++ [i] else seats.given }
    | .paid => { seats with given := seats.given ++ s.standingCustomers.take 1 }
    | _ => seats
  | _, _ => seats

structure Seating (s : Shop n) (seats : Seats n) : Prop where
  inside : s.customersInShop = (Finset.univ.filter s.IsInside).card
  onSofa : s.customersOnSofa = (Finset.univ.filter s.HoldsSeat).card
  capacity : s.customersInShop ≤ maxCapacity
  sofa : s.customersOnSofa ≤ sofaCapacity
  full : s.standingCustomers ≠ [] → s.customersOnSofa = sofaCapacity
  queue : seats.asked = seats.given ++ s.standingCustomers
  asked : ∀ i, i ∈ seats.asked ↔
    (s.phases i).isSeated = true ∨ s.phases i = .standing ∨ s.phases i = .left
  standing : ∀ i ∈ s.standingCustomers, s.phases i = .standing
  once : seats.asked.Nodup

theorem opening_seating (arrivals : Fin n → Int) : Seating (opening arrivals) Seats.none := by
  have outside (i : Fin n) : ¬ (opening arrivals).IsInside i := by
    simp [IsInside, opening, Phase.isInside]
  have seatless (i : Fin n) : ¬ (opening arrivals).HoldsSeat i := by
    simp [HoldsSeat, opening, Phase.isSeated]
  constructor
  · simp only [outside, Finset.filter_false, Finset.card_empty]
    rfl
  · simp only [seatless, Finset.filter_false, Finset.card_empty]
    rfl
  · simp [opening]
  · simp [opening]
  · exact absurd rfl
  · rfl
  · intro i
    simp [opening, Seats.none, Phase.isSeated]
  · exact nofun
  · exact List.nodup_nil

variable {seats : Seats n} {i : Fin n}

-- One customer goes from phase to phase and the queue stays.
structure Moves (s s' : Shop n) (i : Fin n) (phase : Phase) : Prop where
  phases : s'.phases = Function.update s.phases i phase
  queue : s'.standingCustomers = s.standingCustomers

theorem Moves.others {phase : Phase} (moves : Moves s s' i phase) {j : Fin n} (other : j ≠ i) :
    s'.phases j = s.phases j := by
  rw [moves.phases, Function.update_of_ne other]

theorem Moves.self {phase : Phase} (moves : Moves s s' i phase) : s'.phases i = phase := by
  rw [moves.phases, Function.update_self]

theorem Moves.inside {phase : Phase} (moves : Moves s s' i phase) :
    (Finset.univ.filter s'.IsInside).card + (if s.IsInside i then 1 else 0)
      = (Finset.univ.filter s.IsInside).card + if s'.IsInside i then 1 else 0 :=
  card_change i fun j other => by simp only [IsInside, moves.others other]

theorem Moves.holds {phase : Phase} (moves : Moves s s' i phase) :
    (Finset.univ.filter s'.HoldsSeat).card + (if s.HoldsSeat i then 1 else 0)
      = (Finset.univ.filter s.HoldsSeat).card + if s'.HoldsSeat i then 1 else 0 :=
  card_change i fun j other => by simp only [HoldsSeat, moves.others other, moves.queue]

theorem Moves.seating {phase : Phase} (moves : Moves s s' i phase)
    (shop : s'.customersInShop = s.customersInShop) (sofa : s'.customersOnSofa = s.customersOnSofa)
    (inside : phase.isInside = (s.phases i).isInside)
    (holds : phase.isSeated = true ↔ s.HoldsSeat i)
    (stays : phase ≠ .standing ∧ phase ≠ .left ∧ s.phases i ≠ .left)
    (notQueued : i ∉ s.standingCustomers) (seating : Seating s seats) : Seating s' seats := by
  have insideNow : s'.IsInside i ↔ s.IsInside i := by simp only [IsInside, moves.self, inside]
  have holdsNow : s'.HoldsSeat i ↔ s.HoldsSeat i := by
    rw [← holds]
    simp [HoldsSeat, moves.self, stays.1]
  constructor
  · have count := moves.inside
    simp only [insideNow] at count
    rw [shop, seating.inside]
    omega
  · have count := moves.holds
    simp only [holdsNow] at count
    rw [sofa, seating.onSofa]
    omega
  · rw [shop]
    exact seating.capacity
  · rw [sofa]
    exact seating.sofa
  · rw [moves.queue, sofa]
    exact seating.full
  · rw [moves.queue]
    exact seating.queue
  · intro j
    rw [seating.asked]
    by_cases same : j = i
    · subst same
      rw [moves.self, holds]
      simp [HoldsSeat, stays, notQueued]
    · rw [moves.others same]
  · intro j waiting
    rw [moves.queue] at waiting
    have other : j ≠ i := by
      rintro rfl
      exact notQueued waiting
    rw [moves.others other]
    exact seating.standing j waiting
  · exact seating.once

theorem Seating.notQueued (seating : Seating s seats) (elsewhere : s.phases i ≠ .standing) :
    i ∉ s.standingCustomers :=
  fun waiting => elsewhere (seating.standing i waiting)

theorem Seating.notAsked (seating : Seating s seats)
    (before : s.phases i = .arriving ∨ s.phases i = .entered) : i ∉ seats.asked := by
  rw [seating.asked]
  rcases before with phase | phase <;> simp [phase, Phase.isSeated]

theorem enter_seating (arriving : s.phases i = .arriving) (seating : Seating s seats) :
    Seating (s.enter i) seats := by
  have notQueued := seating.notQueued (i := i) (by simp [arriving])
  have seatless : ¬ s.HoldsSeat i := by simp [HoldsSeat, arriving, Phase.isSeated]
  by_cases crowded : s.customersInShop ≥ maxCapacity
  · have moves : Moves s (s.enter i) i .turnedAway := by
      constructor <;> simp [enter, crowded, setPhase]
    apply moves.seating _ _ _ _ _ notQueued seating
    · simp [enter, crowded, setPhase]
    · simp [enter, crowded, setPhase]
    · simp [arriving, Phase.isInside]
    · simp [seatless, Phase.isSeated]
    · simp [arriving]
  · have moves : Moves s (s.enter i) i .entered := by
      constructor <;> simp [enter, crowded, setPhase, setCustomer, printEvent]
    have shop : (s.enter i).customersInShop = s.customersInShop + 1 := by
      simp [enter, crowded, setPhase, setCustomer, printEvent]
    have sofa : (s.enter i).customersOnSofa = s.customersOnSofa := by
      simp [enter, crowded, setPhase, setCustomer, printEvent]
    have outside : ¬ s.IsInside i := by simp [IsInside, arriving, Phase.isInside]
    have insideNow : (s.enter i).IsInside i := by simp [IsInside, moves.self, Phase.isInside]
    have seatlessNow : ¬ (s.enter i).HoldsSeat i := by simp [HoldsSeat, moves.self, Phase.isSeated]
    constructor
    · have count := moves.inside
      simp only [outside, insideNow, if_true, if_false] at count
      rw [shop, seating.inside]
      omega
    · have count := moves.holds
      simp only [seatless, seatlessNow, if_false] at count
      rw [sofa, seating.onSofa]
      omega
    · rw [shop]
      omega
    · rw [sofa]
      exact seating.sofa
    · rw [moves.queue, sofa]
      exact seating.full
    · rw [moves.queue]
      exact seating.queue
    · intro j
      rw [seating.asked]
      by_cases same : j = i
      · simp [same, moves.self, arriving, Phase.isSeated]
      · rw [moves.others same]
    · intro j waiting
      rw [moves.queue] at waiting
      have other : j ≠ i := by
        rintro rfl
        exact notQueued waiting
      rw [moves.others other]
      exact seating.standing j waiting
    · exact seating.once

theorem sit_seating (entered : s.phases i = .entered) (seating : Seating s seats) :
    Seating (s.sit i) (seats.note s (.customer i) s') := by
  have notQueued := seating.notQueued (i := i) (by simp [entered])
  have notAsked := seating.notAsked (i := i) (.inr entered)
  have seatless : ¬ s.HoldsSeat i := by simp [HoldsSeat, entered, Phase.isSeated]
  have inside : s.IsInside i := by simp [IsInside, entered, Phase.isInside]
  have asked : (seats.note s (.customer i) s').asked = seats.asked ++ [i] := by
    simp [Seats.note, entered]
  have once : (seats.note s (.customer i) s').asked.Nodup := by
    rw [asked]
    exact seating.once.append (List.nodup_singleton i) (by simpa using notAsked)
  by_cases room : s.customersOnSofa < sofaCapacity
  · have moves : Moves s (s.sit i) i .seated := by
      constructor <;> simp [sit, room, takeSeat, setPhase, setCustomer, printEvent]
    have shop : (s.sit i).customersInShop = s.customersInShop := by
      simp [sit, room, takeSeat, setPhase, setCustomer, printEvent]
    have sofa : (s.sit i).customersOnSofa = s.customersOnSofa + 1 := by
      simp [sit, room, takeSeat, setPhase, setCustomer, printEvent]
    have given : (seats.note s (.customer i) s').given = seats.given ++ [i] := by
      simp [Seats.note, entered, room]
    have empty : s.standingCustomers = [] := by
      by_contra waiting
      have full := seating.full waiting
      omega
    have insideNow : (s.sit i).IsInside i := by simp [IsInside, moves.self, Phase.isInside]
    have seatedNow : (s.sit i).HoldsSeat i := by simp [HoldsSeat, moves.self, Phase.isSeated]
    constructor
    · have count := moves.inside
      simp only [inside, insideNow] at count
      rw [shop, seating.inside]
      omega
    · have count := moves.holds
      simp only [seatless, seatedNow, if_true, if_false] at count
      rw [sofa, seating.onSofa]
      omega
    · rw [shop]
      exact seating.capacity
    · rw [sofa]
      omega
    · simp [moves.queue, empty]
    · rw [asked, given, seating.queue, moves.queue, empty]
      simp
    · intro j
      rw [asked, List.mem_append, seating.asked]
      by_cases same : j = i
      · simp [same, moves.self, Phase.isSeated]
      · simp [moves.others same, same]
    · rw [moves.queue, empty]
      exact nofun
    · exact once
  · have phases : (s.sit i).phases = Function.update s.phases i .standing := by
      simp [sit, room, setPhase]
    have queue : (s.sit i).standingCustomers = s.standingCustomers ++ [i] := by
      simp [sit, room, setPhase]
    have shop : (s.sit i).customersInShop = s.customersInShop := by simp [sit, room, setPhase]
    have sofa : (s.sit i).customersOnSofa = s.customersOnSofa := by simp [sit, room, setPhase]
    have given : (seats.note s (.customer i) s').given = seats.given := by
      simp [Seats.note, entered, room]
    have self : (s.sit i).phases i = .standing := by rw [phases, Function.update_self]
    have others (j : Fin n) (other : j ≠ i) : (s.sit i).phases j = s.phases j := by
      rw [phases, Function.update_of_ne other]
    constructor
    · have insideNow (j : Fin n) : (s.sit i).IsInside j ↔ s.IsInside j := by
        by_cases same : j = i
        · simp only [same, inside, iff_true]
          simp [IsInside, self, Phase.isInside]
        · simp only [IsInside, others j same]
      simp only [insideNow]
      rw [shop, seating.inside]
    · have holdsNow (j : Fin n) : (s.sit i).HoldsSeat j ↔ s.HoldsSeat j := by
        by_cases same : j = i
        · simp only [same, seatless, iff_false]
          simp [HoldsSeat, self, queue, Phase.isSeated]
        · simp [HoldsSeat, others j same, queue, same]
      simp only [holdsNow]
      rw [sofa, seating.onSofa]
    · rw [shop]
      exact seating.capacity
    · rw [sofa]
      exact seating.sofa
    · intro _
      have most := seating.sofa
      omega
    · rw [asked, given, seating.queue, queue, List.append_assoc]
    · intro j
      rw [asked, List.mem_append, seating.asked]
      by_cases same : j = i
      · simp [same, self]
      · simp [others j same, same]
    · intro j waiting
      rw [queue] at waiting
      by_cases same : j = i
      · rw [same, self]
      · rw [others j same]
        exact seating.standing j (by simpa [same] using waiting)
    · exact once

theorem poll_seating (standing : s.phases i = .standing) (seating : Seating s seats) :
    Seating (s.poll i) seats := by
  by_cases waiting : i ∈ s.standingCustomers
  · simpa [poll, waiting] using seating
  · have moves : Moves s (s.poll i) i .seated := by
      constructor <;> simp [poll, waiting, takeSeat, setPhase, setCustomer, printEvent]
    apply moves.seating _ _ _ _ _ waiting seating
    · simp [poll, waiting, takeSeat, setPhase, setCustomer, printEvent]
    · simp [poll, waiting, takeSeat, setPhase, setCustomer, printEvent]
    · simp [standing, Phase.isInside]
    · simp [HoldsSeat, standing, waiting, Phase.isSeated]
    · simp [standing]

theorem request_seating (seated : s.phases i = .seated) (seating : Seating s seats) :
    Seating (s.request i) seats := by
  have moves : Moves s (s.request i) i .requested := by
    constructor <;> simp [request, setPhase, setCustomer, printEvent]
  apply moves.seating _ _ _ _ _ (seating.notQueued (by simp [seated])) seating
  · simp [request, setPhase, setCustomer, printEvent]
  · simp [request, setPhase, setCustomer, printEvent]
  · simp [seated, Phase.isInside]
  · simp [HoldsSeat, seated, Phase.isSeated]
  · simp [seated]

theorem pay_seating (requested : s.phases i = .requested) (seating : Seating s seats) :
    Seating (s.pay i) seats := by
  have moves : Moves s (s.pay i) i .paid := by
    constructor <;> simp [pay, setPhase, setCustomer, printEvent]
  apply moves.seating _ _ _ _ _ (seating.notQueued (by simp [requested])) seating
  · simp [pay, setPhase, setCustomer, printEvent]
  · simp [pay, setPhase, setCustomer, printEvent]
  · simp [requested, Phase.isInside]
  · simp [HoldsSeat, requested, Phase.isSeated]
  · simp [requested]

-- The leaver's seat goes to the head of the queue, or stays free if nobody waits.
theorem leave_seating (paid : s.phases i = .paid) (seating : Seating s seats) :
    Seating (s.leave i) (seats.note s (.customer i) s') := by
  have notQueued := seating.notQueued (i := i) (by simp [paid])
  have inside : s.IsInside i := by simp [IsInside, paid, Phase.isInside]
  have seated : s.HoldsSeat i := by simp [HoldsSeat, paid, Phase.isSeated]
  have asked : (seats.note s (.customer i) s').asked = seats.asked := by simp [Seats.note, paid]
  have given : (seats.note s (.customer i) s').given = seats.given ++ s.standingCustomers.take 1 := by
    simp [Seats.note, paid]
  have phases : (s.leave i).phases = Function.update s.phases i .left := by
    simp only [leave, setPhase, letSit, printEvent]
    split <;> rfl
  have queue : (s.leave i).standingCustomers = s.standingCustomers.drop 1 := by
    simp only [leave, setPhase, letSit, printEvent]
    split <;> simp_all
  have shop : (s.leave i).customersInShop = s.customersInShop - 1 := by
    simp only [leave, setPhase, letSit, printEvent]
    split <;> rfl
  have self : (s.leave i).phases i = .left := by rw [phases, Function.update_self]
  have others (j : Fin n) (other : j ≠ i) : (s.leave i).phases j = s.phases j := by
    rw [phases, Function.update_of_ne other]
  have insideCount : (Finset.univ.filter (s.leave i).IsInside).card + (if s.IsInside i then 1 else 0)
      = (Finset.univ.filter s.IsInside).card + if (s.leave i).IsInside i then 1 else 0 :=
    card_change i fun j other => by simp only [IsInside, others j other]
  have gone : ¬ (s.leave i).IsInside i := by simp [IsInside, self, Phase.isInside]
  have seatless : ¬ (s.leave i).HoldsSeat i := by simp [HoldsSeat, self, Phase.isSeated]
  have emptied : (Finset.univ.filter fun k => k ≠ i ∧ s.HoldsSeat k).card + 1
      = (Finset.univ.filter s.HoldsSeat).card := by
    have change := card_change (P := s.HoldsSeat) (Q := fun k => k ≠ i ∧ s.HoldsSeat k) i
      fun k other => by simp [other]
    rwa [if_pos seated, if_neg (by simp)] at change
  have holders : (s.leave i).customersOnSofa = (Finset.univ.filter (s.leave i).HoldsSeat).card ∧
      (s.leave i).customersOnSofa ≤ sofaCapacity ∧
      ((s.leave i).standingCustomers ≠ [] → (s.leave i).customersOnSofa = sofaCapacity) := by
    have most := seating.sofa
    have count := seating.onSofa
    cases waiting : s.standingCustomers with
    | nil =>
      have sofa : (s.leave i).customersOnSofa = s.customersOnSofa - 1 := by
        simp [leave, setPhase, letSit, printEvent, waiting]
      have holdsNow (k : Fin n) : (s.leave i).HoldsSeat k ↔ k ≠ i ∧ s.HoldsSeat k := by
        by_cases same : k = i
        · simp only [same, seatless, ne_eq, not_true, false_and]
        · simp [HoldsSeat, others k same, queue, waiting, same]
      refine ⟨?_, by omega, by simp [queue, waiting]⟩
      simp only [holdsNow]
      omega
    | cons next rest =>
      have sofa : (s.leave i).customersOnSofa = s.customersOnSofa := by
        simp [leave, setPhase, letSit, printEvent, waiting]
      have distinct : (next :: rest).Nodup := by
        have once := seating.once
        rw [seating.queue, waiting] at once
        exact once.of_append_right
      have first : next ∈ s.standingCustomers := by simp [waiting]
      have stands := seating.standing next first
      have other : next ≠ i := by
        rintro rfl
        exact notQueued first
      have seatedNow : (s.leave i).HoldsSeat next := by
        simpa [HoldsSeat, others next other, stands, queue, waiting] using
          Or.inr (List.nodup_cons.mp distinct).1
      have stood : ¬ (next ≠ i ∧ s.HoldsSeat next) := by
        simp [HoldsSeat, stands, first, Phase.isSeated]
      have filled : (Finset.univ.filter (s.leave i).HoldsSeat).card
          = (Finset.univ.filter fun k => k ≠ i ∧ s.HoldsSeat k).card + 1 := by
        have change := card_change (P := fun k => k ≠ i ∧ s.HoldsSeat k)
          (Q := (s.leave i).HoldsSeat) next fun k different => by
            by_cases same : k = i
            · simp only [same, seatless, ne_eq, not_true, false_and]
            · simp [HoldsSeat, others k same, queue, waiting, same, different]
        rwa [if_neg stood, if_pos seatedNow] at change
      refine ⟨by omega, by omega, fun _ => ?_⟩
      rw [sofa]
      exact seating.full (by simp [waiting])
  constructor
  · simp only [inside, gone, if_true, if_false] at insideCount
    rw [shop, seating.inside]
    omega
  · exact holders.1
  · have most := seating.capacity
    omega
  · exact holders.2.1
  · exact holders.2.2
  · rw [asked, given, seating.queue, queue, List.append_assoc, List.take_append_drop]
  · intro j
    rw [asked, seating.asked]
    by_cases same : j = i
    · simp [same, self, paid, Phase.isSeated]
    · rw [others j same]
  · intro j waiting
    rw [queue] at waiting
    have queued := List.mem_of_mem_drop waiting
    have other : j ≠ i := by
      rintro rfl
      exact notQueued queued
    rw [others j other]
    exact seating.standing j queued
  · rw [asked]
    exact seating.once

theorem Seating.of_same (seating : Seating s seats) (shop : s'.customersInShop = s.customersInShop)
    (sofa : s'.customersOnSofa = s.customersOnSofa) (queue : s'.standingCustomers = s.standingCustomers)
    (phases : s'.phases = s.phases) : Seating s' seats := by
  have inside : s'.IsInside = s.IsInside := by
    funext j
    simp only [IsInside, phases]
  have holds : s'.HoldsSeat = s.HoldsSeat := by
    funext j
    simp only [HoldsSeat, phases, queue]
  constructor
  · simp only [shop, inside]
    exact seating.inside
  · simp only [sofa, holds]
    exact seating.onSofa
  · rw [shop]
    exact seating.capacity
  · rw [sofa]
    exact seating.sofa
  · rw [queue, sofa]
    exact seating.full
  · rw [queue]
    exact seating.queue
  · rw [phases]
    exact seating.asked
  · rw [queue, phases]
    exact seating.standing
  · exact seating.once

theorem chefNext_seating {k : Chef} (taken : s.chefNext k = some s') (seating : Seating s seats) :
    Seating s' seats := by
  cases chefNext_turn taken <;> exact seating.of_same rfl rfl rfl rfl

theorem customerNext_seating (taken : s.customerNext i = some s') (seating : Seating s seats) :
    Seating s' (seats.note s (.customer i) s') := by
  cases customerNext_turn taken with
  | enter phase => simpa [Seats.note, phase] using enter_seating phase seating
  | sit phase => exact sit_seating phase seating
  | poll phase => simpa [Seats.note, phase] using poll_seating phase seating
  | request phase => simpa [Seats.note, phase] using request_seating phase seating
  | pay phase => simpa [Seats.note, phase] using pay_seating phase seating
  | leave phase => exact leave_seating phase seating

theorem next_seating {l : Turn n} (taken : s.next l = some s') (seating : Seating s seats) :
    Seating s' (seats.note s l s') := by
  cases l with
  | timer =>
    cases taken
    exact seating.of_same rfl rfl rfl rfl
  | customer i => exact customerNext_seating taken seating
  | chef k => exact chefNext_seating taken seating

def seatedSystem (n : Nat) : System (Shop n × Seats n) (Turn n) :=
  (system n).recorded (fun _ => Seats.none) Seats.note

theorem system_seating {r : Shop n × Seats n} (reached : (seatedSystem n).Reachable r) :
    Seating r.1 r.2 := by
  refine reached.invariant (I := fun r => Seating r.1 r.2) ?_ ?_
  · intro r ⟨⟨arrivals, opens⟩, fresh⟩
    rw [opens, fresh]
    exact opening_seating arrivals
  · intro r l r' seating ⟨taken, noted⟩
    rw [noted]
    exact next_seating taken seating

theorem Seating.standingRoom (seating : Seating s seats) :
    s.standingCustomers.length ≤ standingCapacity := by
  by_cases empty : s.standingCustomers = []
  · simp [empty]
  · have distinct : s.standingCustomers.Nodup := by
      have once := seating.once
      rw [seating.queue] at once
      exact once.of_append_right
    have apart : Disjoint (Finset.univ.filter s.HoldsSeat) s.standingCustomers.toFinset := by
      rw [Finset.disjoint_left]
      intro i holds waiting
      have queued := List.mem_toFinset.mp waiting
      rcases (Finset.mem_filter.mp holds).2 with seated | ⟨_, away⟩
      · simp [seating.standing i queued, Phase.isSeated] at seated
      · exact away queued
    have within : Finset.univ.filter s.HoldsSeat ∪ s.standingCustomers.toFinset
        ⊆ Finset.univ.filter s.IsInside := by
      intro i member
      rw [Finset.mem_filter]
      refine ⟨Finset.mem_univ i, ?_⟩
      rcases Finset.mem_union.mp member with holds | waiting
      · rcases (Finset.mem_filter.mp holds).2 with seated | ⟨standing, _⟩
        · cases phase : s.phases i <;> simp_all [IsInside, Phase.isInside, Phase.isSeated]
        · simp [IsInside, standing, Phase.isInside]
      · simp [IsInside, seating.standing i (List.mem_toFinset.mp waiting), Phase.isInside]
    have counted := Finset.card_le_card within
    rw [Finset.card_union_of_disjoint apart, List.toFinset_card_of_nodup distinct] at counted
    have inside := seating.inside
    have onSofa := seating.onSofa
    have capacity := seating.capacity
    have full := seating.full empty
    simp only [standingCapacity]
    omega

theorem Seating.given (seating : Seating s seats) (i : Fin n) :
    i ∈ seats.given ↔ s.HoldsSeat i ∨ s.phases i = .left := by
  have once := seating.once
  have asked := seating.asked i
  rw [seating.queue] at once asked
  have apart : i ∈ seats.given → i ∉ s.standingCustomers :=
    fun seat waiting => List.disjoint_of_nodup_append once seat waiting
  have standing := seating.standing i
  rw [List.mem_append] at asked
  cases phase : s.phases i <;> simp_all [HoldsSeat, Phase.isSeated]
  tauto

-- The counts, the sofa, the standing queue and the order in which the seats are given.
def Occupied (s : Shop n) (seats : Seats n) : Prop :=
  (0 ≤ s.customersInShop ∧ s.customersInShop ≤ maxCapacity ∧
    s.customersInShop = (Finset.univ.filter s.IsInside).card) ∧
  (s.customersOnSofa = (Finset.univ.filter s.HoldsSeat).card ∧ s.customersOnSofa ≤ sofaCapacity) ∧
  (s.standingCustomers.length ≤ standingCapacity ∧
    (0 < s.standingCustomers.length → s.customersOnSofa = sofaCapacity)) ∧
  seats.asked = seats.given ++ s.standingCustomers ∧
  ∀ i, i ∈ seats.given ↔ s.HoldsSeat i ∨ s.phases i = .left

theorem Seating.occupied (seating : Seating s seats) : Occupied s seats := by
  refine ⟨⟨?_, seating.capacity, seating.inside⟩, ⟨seating.onSofa, seating.sofa⟩,
    ⟨seating.standingRoom, ?_⟩, seating.queue, seating.given⟩
  · have inside := seating.inside
    omega
  · intro waiting
    exact seating.full (List.ne_nil_of_length_pos waiting)

def Seats.noteProgram (seats : Seats n) : Option (Shop n) → Turn n → Option (Shop n) → Seats n
  | some s, l, some s' => seats.note s l s'
  | _, _, _ => seats

def seatedProgram (n : Nat) : System (Option (Shop n) × Seats n) (Turn n) :=
  (program n).recorded (fun _ => Seats.none) Seats.noteProgram

theorem seatedProgram_runs {r : Option (Shop n) × Seats n} (few : n ≤ maxCustomers)
    (reached : (seatedProgram n).Reachable r) :
    ∃ s, r.1 = some s ∧ (seatedSystem n).Reachable (s, r.2) := by
  induction reached with
  | initial start =>
    obtain ⟨⟨arrivals, opens⟩, fresh⟩ := start
    rw [start_eq, if_pos few] at opens
    exact ⟨_, opens, .initial ⟨⟨arrivals, rfl⟩, fresh⟩⟩
  | @step r r' l _ _ taken ih =>
    obtain ⟨s, at_, before⟩ := ih
    obtain ⟨moved, noted⟩ := taken
    replace moved : (r.1.bind fun shop => (shop.next l).map some) = some r'.1 := moved
    rw [at_] at moved
    obtain ⟨s', happens, at_'⟩ := Option.map_eq_some_iff.mp moved
    refine ⟨s', at_'.symm, before.step trivial ⟨happens, ?_⟩⟩
    rw [noted, at_, ← at_']
    rfl

theorem overrun_reached (many : maxCustomers < n) : (seatedProgram n).Reachable (none, Seats.none) := by
  have overrun : start (fun _ : Fin n => 0) = none := by rw [start_eq, if_neg (by omega)]
  exact .initial ⟨⟨_, overrun.symm⟩, rfl⟩

theorem occupancy_and_seating :
    (∀ s seats, (seatedProgram n).Reachable (s, seats) → ∃ shop, s = some shop ∧ Occupied shop seats) ↔
      n ≤ maxCustomers := by
  constructor
  · intro occupied
    by_contra many
    obtain ⟨_, absent, _⟩ := occupied _ _ (overrun_reached (Nat.lt_of_not_le many))
    contradiction
  · intro few s seats reached
    obtain ⟨shop, running, seated⟩ := seatedProgram_runs few reached
    exact ⟨shop, running, (system_seating seated).occupied⟩

-- The pointer of the customer after the thousandth is stored behind the array.
theorem customer_too_many : ¬ ∀ s seats, (seatedProgram 1001).Reachable (s, seats) →
    ∃ shop, s = some shop ∧ Occupied shop seats := by
  intro occupied
  obtain ⟨_, absent, _⟩ := occupied _ _ (overrun_reached (by decide))
  contradiction

end Shop

end SystemsSuite.Bakery
