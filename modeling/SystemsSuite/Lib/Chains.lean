import Mathlib

set_option autoImplicit false

namespace SystemsSuite.Lib

universe u v

section Chains

variable {Addr : Type u} {Value : Type v} {next next' : Addr → Addr} {value value' : Addr → Value}

-- Following `next` from `x` leads through the nodes of the list, with their values, to `y`.
def Chain (next : Addr → Addr) (value : Addr → Value) : Addr → List (Addr × Value) → Addr → Prop
  | x, [], y => x = y
  | x, node :: rest, y => x = node.1 ∧ value x = node.2 ∧ Chain next value (next x) rest y

theorem chain_append {x y : Addr} {front back : List (Addr × Value)} :
    Chain next value x (front ++ back) y ↔ ∃ mid, Chain next value x front mid ∧ Chain next value mid back y := by
  induction front generalizing x with
  | nil => simp [Chain]
  | cons node rest ih =>
    simp only [List.cons_append, Chain, ih]
    constructor
    · rintro ⟨here, holds, mid, first, second⟩
      exact ⟨mid, ⟨here, holds, first⟩, second⟩
    · rintro ⟨mid, ⟨here, holds, first⟩, second⟩
      exact ⟨here, holds, mid, first, second⟩

theorem chain_frame {x y : Addr} {nodes : List (Addr × Value)} (chain : Chain next value x nodes y)
    (same : ∀ node ∈ nodes, next' node.1 = next node.1 ∧ value' node.1 = value node.1) :
    Chain next' value' x nodes y := by
  induction nodes generalizing x with
  | nil => exact chain
  | cons node rest ih =>
    obtain ⟨rfl, holds, onward⟩ := chain
    obtain ⟨follows, keeps⟩ := same node List.mem_cons_self
    refine ⟨rfl, keeps.trans holds, ?_⟩
    rw [follows]
    exact ih onward fun other member => same other (List.mem_cons_of_mem node member)

theorem chain_value {x y : Addr} {nodes : List (Addr × Value)} (chain : Chain next value x nodes y) :
    ∀ node ∈ nodes, value node.1 = node.2 := by
  induction nodes generalizing x with
  | nil => exact fun node member => absurd member List.not_mem_nil
  | cons node rest ih =>
    obtain ⟨rfl, holds, onward⟩ := chain
    intro other member
    obtain rfl | later := List.mem_cons.mp member
    · exact holds
    · exact ih onward other later

theorem chain_next {x y : Addr} {nodes : List (Addr × Value)} (chain : Chain next value x nodes y) (i : Nat)
    {node : Addr × Value} (here : nodes[i]? = some node) :
    next node.1 = ((nodes[i + 1]?).map Prod.fst).getD y := by
  induction nodes generalizing x i with
  | nil => simp at here
  | cons first rest ih =>
    obtain ⟨rfl, -, onward⟩ := chain
    cases i with
    | zero =>
      obtain rfl : first = node := by simpa using here
      cases rest with
      | nil => simpa [Chain] using onward
      | cons second more => simpa using onward.1
    | succ i => simpa using ih onward i (by simpa using here)

end Chains

-- The place after `i` among `k` places in a ring, and how many turns it is from `i` to `t`.
def turn (k i : Nat) : Nat := if i + 1 = k then 0 else i + 1

def turnsTo (k t i : Nat) : Nat := if i ≤ t then t - i else t + k - i

section Turns

variable {k t i : Nat}

theorem turn_lt (inside : i < k) : turn k i < k := by
  unfold turn
  split <;> omega

theorem turn_onto (inside : i < k) : ∃ t < k, turn k t = i := by
  cases i with
  | zero =>
    refine ⟨k - 1, by omega, ?_⟩
    unfold turn
    rw [if_pos (by omega)]
  | succ i =>
    refine ⟨i, by omega, ?_⟩
    unfold turn
    rw [if_neg (by omega)]

theorem turnsTo_lt (inside : i < k) (target : t < k) : turnsTo k t i < k := by
  unfold turnsTo
  split <;> omega

theorem turnsTo_eq_zero (inside : i < k) : turnsTo k t i = 0 ↔ i = t := by
  unfold turnsTo
  split <;> omega

theorem turnsTo_turn (inside : i < k) (target : t < k) (other : i ≠ t) :
    turnsTo k t (turn k i) + 1 = turnsTo k t i := by
  unfold turnsTo turn
  split <;> split <;> split <;> omega

end Turns

theorem chain_turn {Addr : Type u} {Value : Type v} {next : Addr → Addr} {value : Addr → Value} {x : Addr}
    {nodes : List (Addr × Value)} (chain : Chain next value x nodes x) (i : Nat) {node node' : Addr × Value}
    (here : nodes[i]? = some node) (there : nodes[turn nodes.length i]? = some node') : next node.1 = node'.1 := by
  rw [chain_next chain i here]
  obtain ⟨inside, -⟩ := List.getElem?_eq_some_iff.mp here
  unfold turn at there
  split at there
  next last =>
    have beyond : nodes[i + 1]? = none := List.getElem?_eq_none (by omega)
    rw [beyond, Option.map_none, Option.getD_none]
    cases nodes with
    | nil => simp at there
    | cons first rest =>
      obtain rfl : first = node' := by simpa using there
      exact chain.1
  next =>
    rw [there]
    rfl

end SystemsSuite.Lib
