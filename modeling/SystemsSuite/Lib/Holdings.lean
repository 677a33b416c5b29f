import Mathlib

set_option autoImplicit false

namespace SystemsSuite.Lib

universe u v

section Holdings

variable {Place : Type u} {Item : Type v}

-- The items that are taken are those that some place holds, and no item is in two places.
structure Exact (holds : Place → Option Item) (taken : Item → Prop) : Prop where
  apart : ∀ p q x, holds p = some x → holds q = some x → p = q
  taken_iff : ∀ x, taken x ↔ ∃ p, holds p = some x

namespace Exact

variable {holds holds' : Place → Option Item} {taken taken' : Item → Prop} {p : Place} {x : Item}

theorem taken_of (exact : Exact holds taken) (here : holds p = some x) : taken x := (exact.taken_iff x).mpr ⟨p, here⟩

theorem congr (exact : Exact holds taken) (places : ∀ p, holds' p = holds p) (items : ∀ x, taken' x ↔ taken x) :
    Exact holds' taken' := by
  refine ⟨fun p q x here there => ?_, fun x => ?_⟩
  · rw [places] at here there
    exact exact.apart p q x here there
  · rw [items, exact.taken_iff]
    exact exists_congr fun p => by rw [places]

theorem take [DecidableEq Place] (exact : Exact holds taken) (empty : holds p = none) (free : ¬taken x)
    (places : ∀ q, holds' q = if q = p then some x else holds q) (items : ∀ y, taken' y ↔ y = x ∨ taken y) :
    Exact holds' taken' := by
  have nobody (q : Place) : holds q ≠ some x := fun here => free (exact.taken_of here)
  refine ⟨fun q r y here there => ?_, fun y => ?_⟩
  · rw [places] at here there
    split_ifs at here there with first second
    · exact first.trans second.symm
    · obtain rfl := Option.some.inj here
      exact absurd there (nobody r)
    · obtain rfl := Option.some.inj there
      exact absurd here (nobody q)
    · exact exact.apart q r y here there
  · rw [items]
    constructor
    · rintro (rfl | before)
      · exact ⟨p, by rw [places, if_pos rfl]⟩
      · obtain ⟨q, here⟩ := (exact.taken_iff y).mp before
        have other : q ≠ p := by
          rintro rfl
          rw [empty] at here
          contradiction
        exact ⟨q, by rw [places, if_neg other, here]⟩
    · rintro ⟨q, here⟩
      rw [places] at here
      split_ifs at here
      · exact .inl (Option.some.inj here).symm
      · exact .inr (exact.taken_of here)

theorem drop [DecidableEq Place] (exact : Exact holds taken) (here : holds p = some x)
    (places : ∀ q, holds' q = if q = p then none else holds q) (items : ∀ y, taken' y ↔ y ≠ x ∧ taken y) :
    Exact holds' taken' := by
  refine ⟨fun q r y there there' => ?_, fun y => ?_⟩
  · rw [places] at there there'
    split_ifs at there there'
    exact exact.apart q r y there there'
  · rw [items]
    constructor
    · rintro ⟨other, before⟩
      obtain ⟨q, there⟩ := (exact.taken_iff y).mp before
      have apart : q ≠ p := by
        rintro rfl
        exact other (Option.some.inj (there.symm.trans here))
      exact ⟨q, by rw [places, if_neg apart, there]⟩
    · rintro ⟨q, there⟩
      rw [places] at there
      split_ifs at there with same
      refine ⟨?_, exact.taken_of there⟩
      rintro rfl
      exact same (exact.apart q p y there here)

end Exact

end Holdings

end SystemsSuite.Lib
