import Mathlib

set_option autoImplicit false

namespace SystemsSuite.Lib

section Redo

variable {α β : Type} [DecidableEq α] {log : List (α × β)} {store store' : α → β} {a : α} {v : β}

-- What a store holds after the entries of a log, the first one first.
def redo (log : List (α × β)) (store : α → β) : α → β :=
  log.foldl (fun store entry => Function.update store entry.1 entry.2) store

theorem redo_cons (entry : α × β) (log : List (α × β)) (store : α → β) :
    redo (entry :: log) store = redo log (Function.update store entry.1 entry.2) := rfl

-- An address keeps its value if the log is not about it, and the log alone decides it otherwise.
theorem redo_congr (same : a ∈ log.map Prod.fst ∨ store' a = store a) : redo log store' a = redo log store a := by
  induction log generalizing store store' with
  | nil => exact same.resolve_left List.not_mem_nil
  | cons entry log ih =>
    rw [redo_cons, redo_cons]
    apply ih
    by_cases here : a = entry.1
    · right
      rw [here, Function.update_self, Function.update_self]
    · rw [Function.update_of_ne here, Function.update_of_ne here]
      rcases same with member | same
      · rw [List.map_cons, List.mem_cons] at member
        exact .inl (member.resolve_left here)
      · exact .inr same

theorem redo_other (absent : a ∉ log.map Prod.fst) : redo log store a = store a := by
  induction log generalizing store with
  | nil => rfl
  | cons entry log ih =>
    rw [List.map_cons, List.mem_cons, not_or] at absent
    rw [redo_cons, ih absent.2, Function.update_of_ne absent.1]

theorem redo_entry (distinct : (log.map Prod.fst).Nodup) (member : (a, v) ∈ log) : redo log store a = v := by
  induction log generalizing store with
  | nil => simp at member
  | cons entry log ih =>
    rw [List.map_cons, List.nodup_cons] at distinct
    rw [redo_cons]
    rcases List.mem_cons.mp member with rfl | later
    · rw [redo_other distinct.1, Function.update_self]
    · exact ih distinct.2 later

theorem redo_update (member : (a, v) ∈ log) :
    redo log (Function.update store a v) = redo log store := by
  funext a'
  apply redo_congr
  by_cases same : a' = a
  · left
    rw [same]
    exact List.mem_map_of_mem member
  · exact .inr (Function.update_of_ne same ..)

theorem redo_done (distinct : (log.map Prod.fst).Nodup) (done : ∀ entry ∈ log, store entry.1 = entry.2) :
    redo log store = store := by
  funext a
  by_cases member : a ∈ log.map Prod.fst
  · obtain ⟨entry, here, rfl⟩ := List.mem_map.mp member
    rw [done entry here]
    exact redo_entry distinct here
  · exact redo_other member

end Redo

end SystemsSuite.Lib
