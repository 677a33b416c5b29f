import Mathlib

set_option autoImplicit false

namespace SystemsSuite.Lib

universe u

-- Records in the order in which they were made, each with a number that `next` has passed.
structure Numbered {α : Type u} (number : α → Nat) (records : List α) (next : Nat) : Prop where
  ascending : records.Pairwise fun x y => number x < number y
  below : ∀ x ∈ records, number x < next

namespace Numbered

variable {α : Type u} {number : α → Nat} {records : List α} {next : Nat}

theorem nil (number : α → Nat) (next : Nat) : Numbered number [] next :=
  ⟨.nil, by simp⟩

theorem add (numbered : Numbered number records next) {x : α} (given : number x = next) :
    Numbered number (records ++ [x]) (next + 1) := by
  constructor
  next =>
    apply List.pairwise_append.mpr
    refine ⟨numbered.ascending, List.pairwise_singleton _ _, ?_⟩
    intro y earlier z last
    rw [List.mem_singleton.mp last, given]
    exact numbered.below y earlier
  next =>
    intro y member
    rcases List.mem_append.mp member with earlier | last
    · exact Nat.lt_succ_of_lt (numbered.below y earlier)
    · rw [List.mem_singleton.mp last, given]
      exact Nat.lt_succ_self next

theorem map (numbered : Numbered number records next) {f : α → α} (same : ∀ x, number (f x) = number x) :
    Numbered number (records.map f) next := by
  constructor
  next =>
    rw [List.pairwise_map]
    simp only [same]
    exact numbered.ascending
  next =>
    intro y member
    obtain ⟨x, earlier, rfl⟩ := List.mem_map.mp member
    rw [same]
    exact numbered.below x earlier

theorem filter (numbered : Numbered number records next) (kept : α → Bool) :
    Numbered number (records.filter kept) next where
  ascending := numbered.ascending.filter kept
  below x member := numbered.below x (List.mem_of_mem_filter member)

theorem unique (numbered : Numbered number records next) {x y : α} (here : x ∈ records)
    (there : y ∈ records) (same : number x = number y) : x = y := by
  have apart : (records.map number).Nodup :=
    List.pairwise_map.mpr (numbered.ascending.imp fun smaller => Nat.ne_of_lt smaller)
  exact List.inj_on_of_nodup_map apart here there same

theorem last_greatest (numbered : Numbered number records next) {x y : α}
    (last : records.getLast? = some x) (member : y ∈ records) : number y ≤ number x := by
  obtain ⟨earlier, rfl⟩ := List.getLast?_eq_some_iff.mp last
  rcases List.mem_append.mp member with before | same
  · have smaller := (List.pairwise_append.mp numbered.ascending).2.2 y before x (List.mem_singleton_self x)
    exact Nat.le_of_lt smaller
  · rw [List.mem_singleton.mp same]

end Numbered

end SystemsSuite.Lib
