import Mathlib

set_option autoImplicit false

namespace SystemsSuite.Lib.Radix

open Finset

-- A slot of a radix tree of fan-out `r`: empty, a value at the lowest level, or a child table
-- that lives in the cell `id`.
inductive Node (r : Nat) (ν β : Type) : Nat → Type
  | empty {l : Nat} : Node r ν β l
  | leaf (value : β) : Node r ν β 0
  | table {l : Nat} (id : ν) (children : Fin r → Node r ν β l) : Node r ν β (l + 1)

abbrev Slots (r : Nat) (ν β : Type) (l : Nat) : Type := Fin r → Node r ν β l

variable {r : Nat} [NeZero r] {ν β : Type}

def digit (r : Nat) [NeZero r] (l key : Nat) : Fin r :=
  ⟨key / r ^ l % r, Nat.mod_lt _ (Nat.pos_of_ne_zero (NeZero.ne r))⟩

def set {α : Type} (f : Fin r → α) (i : Fin r) (a : α) : Fin r → α :=
  fun j => if j = i then a else f j

omit [NeZero r] in
@[simp] theorem set_self {α : Type} (f : Fin r → α) (i : Fin r) (a : α) : set f i a i = a := by
  simp [set]

omit [NeZero r] in
theorem set_other {α : Type} (f : Fin r → α) {i j : Fin r} (a : α) (other : j ≠ i) :
    set f i a j = f j := by
  simp [set, other]

def find : (l : Nat) → Slots r ν β l → Nat → Option (Node r ν β 0)
  | 0, slots, key => some (slots (digit r 0 key))
  | l + 1, slots, key =>
    match slots (digit r (l + 1) key) with
    | .table _ children => find l children key
    | .empty => none

def put : (l : Nat) → Slots r ν β l → Nat → Node r ν β 0 → Slots r ν β l
  | 0, slots, key, node => set slots (digit r 0 key) node
  | l + 1, slots, key, node =>
    match slots (digit r (l + 1) key) with
    | .table id children => set slots (digit r (l + 1) key) (.table id (put l children key node))
    | .empty => slots

-- Adds the missing tables on the way to `key`, taking their cells from `supply`.
def grow : (l : Nat) → Slots r ν β l → Nat → List ν → Slots r ν β l × List ν × Bool
  | 0, slots, _, supply => (slots, supply, true)
  | l + 1, slots, key, supply =>
    match slots (digit r (l + 1) key) with
    | .table id children =>
      let below := grow l children key supply
      (set slots (digit r (l + 1) key) (.table id below.1), below.2.1, below.2.2)
    | .empty =>
      match supply with
      | [] => (slots, [], false)
      | id :: supply' =>
        let below := grow l (fun _ => .empty) key supply'
        (set slots (digit r (l + 1) key) (.table id below.1), below.2.1, below.2.2)

def value? : Option (Node r ν β 0) → Option β
  | some (.leaf value) => some value
  | _ => none

def value (l : Nat) (slots : Slots r ν β l) (key : Nat) : Option β := value? (find l slots key)

theorem value_empty (l key : Nat) : value l (fun _ => .empty : Slots r ν β l) key = none := by
  cases l <;> rfl

theorem find_of_value {l : Nat} {slots : Slots r ν β l} {key : Nat} {v : β}
    (here : value l slots key = some v) : find l slots key = some (.leaf v) := by
  unfold value at here
  cases found : find l slots key with
  | none => simp [found, value?] at here
  | some node =>
    cases node with
    | empty => simp [found, value?] at here
    | leaf w => simpa [found, value?] using here

theorem low_digits (l key key' : Nat) (same : digit r l key = digit r l key')
    (lower : key % r ^ l = key' % r ^ l) : key % r ^ (l + 1) = key' % r ^ (l + 1) := by
  have digits : key / r ^ l % r = key' / r ^ l % r := congrArg Fin.val same
  rw [pow_succ, Nat.mod_mul, Nat.mod_mul, digits, lower]

theorem find_put_self (l : Nat) (slots : Slots r ν β l) (key : Nat) (node : Node r ν β 0)
    (reached : (find l slots key).isSome = true) : find l (put l slots key node) key = some node := by
  induction l with
  | zero => simp [find, put]
  | succ l ih =>
    cases child : slots (digit r (l + 1) key) with
    | empty => simp [find, child] at reached
    | table id children =>
      simp only [find, child] at reached
      simp only [find, put, child, set_self]
      exact ih children reached

theorem find_put_other (l : Nat) (slots : Slots r ν β l) (key key' : Nat) (node : Node r ν β 0)
    (other : key' % r ^ (l + 1) ≠ key % r ^ (l + 1)) :
    find l (put l slots key node) key' = find l slots key' := by
  induction l with
  | zero =>
    have apart : digit r 0 key' ≠ digit r 0 key := fun same =>
      other (low_digits 0 key' key same (by simp [Nat.mod_one]))
    simp [find, put, set_other _ _ apart]
  | succ l ih =>
    cases child : slots (digit r (l + 1) key) with
    | empty => simp [put, child]
    | table id children =>
      simp only [put, child, find]
      by_cases same : digit r (l + 1) key' = digit r (l + 1) key
      · rw [same, set_self, child]
        exact ih children fun lower => other (low_digits (l + 1) key' key same lower)
      · rw [set_other _ _ same]

theorem value_put_self (l : Nat) (slots : Slots r ν β l) (key : Nat) (node : Node r ν β 0)
    (reached : (find l slots key).isSome = true) :
    value l (put l slots key node) key = value? (some node) := by
  rw [value, find_put_self l slots key node reached]

theorem value_put_other (l : Nat) (slots : Slots r ν β l) (key key' : Nat) (node : Node r ν β 0)
    (other : key' % r ^ (l + 1) ≠ key % r ^ (l + 1)) :
    value l (put l slots key node) key' = value l slots key' := by
  rw [value, find_put_other l slots key key' node other, value]

theorem find_grow_isSome (l : Nat) (slots : Slots r ν β l) (key : Nat) (supply : List ν)
    (ok : (grow l slots key supply).2.2 = true) :
    (find l (grow l slots key supply).1 key).isSome = true := by
  induction l generalizing supply with
  | zero => rfl
  | succ l ih =>
    cases child : slots (digit r (l + 1) key) with
    | table id children =>
      simp only [grow, child] at ok ⊢
      simpa [find] using ih children supply ok
    | empty =>
      cases supply with
      | nil => simp [grow, child] at ok
      | cons id rest =>
        simp only [grow, child] at ok ⊢
        simpa [find] using ih (fun _ => .empty) rest ok

-- Growing adds only empty tables, so no value appears, moves or disappears.
theorem value_grow (l : Nat) (slots : Slots r ν β l) (key key' : Nat) (supply : List ν) :
    value l (grow l slots key supply).1 key' = value l slots key' := by
  induction l generalizing supply with
  | zero => rfl
  | succ l ih =>
    cases child : slots (digit r (l + 1) key) with
    | table id children =>
      simp only [grow, child, value, find]
      by_cases same : digit r (l + 1) key' = digit r (l + 1) key
      · rw [same, set_self, child]
        exact ih children supply
      · rw [set_other _ _ same]
    | empty =>
      cases supply with
      | nil => simp [grow, child]
      | cons id rest =>
        simp only [grow, child, value, find]
        by_cases same : digit r (l + 1) key' = digit r (l + 1) key
        · rw [same, set_self, child]
          exact (ih (fun _ => .empty) rest).trans (value_empty l key')
        · rw [set_other _ _ same]

theorem suffix_grow (l : Nat) (slots : Slots r ν β l) (key : Nat) (supply : List ν) :
    (grow l slots key supply).2.1 <:+ supply := by
  induction l generalizing supply with
  | zero => exact List.suffix_refl supply
  | succ l ih =>
    cases child : slots (digit r (l + 1) key) with
    | table id children =>
      simp only [grow, child]
      exact ih children supply
    | empty =>
      cases supply with
      | nil => simp [grow, child]
      | cons id rest =>
        simp only [grow, child]
        exact (ih (fun _ => .empty) rest).trans (List.suffix_cons id rest)

theorem mem_grow (l : Nat) (slots : Slots r ν β l) (key : Nat) (supply : List ν) {c : ν}
    (left : c ∈ (grow l slots key supply).2.1) : c ∈ supply :=
  (suffix_grow l slots key supply).subset left

theorem grow_supplied (l : Nat) (slots : Slots r ν β l) (key : Nat) {supply : List ν}
    (enough : l ≤ supply.length) : (grow l slots key supply).2.2 = true := by
  induction l generalizing supply with
  | zero => rfl
  | succ l ih =>
    cases child : slots (digit r (l + 1) key) with
    | table id children =>
      simp only [grow, child]
      exact ih children (by omega)
    | empty =>
      cases supply with
      | nil => simp at enough
      | cons id rest =>
        simp only [grow, child]
        exact ih (fun _ => .empty) (by simpa using enough)

theorem grow_reached (l : Nat) (slots : Slots r ν β l) (key : Nat) (supply : List ν)
    (reached : (find l slots key).isSome = true) : (grow l slots key supply).2.2 = true := by
  induction l generalizing supply with
  | zero => rfl
  | succ l ih =>
    cases child : slots (digit r (l + 1) key) with
    | table id children =>
      simp only [find, child] at reached
      simp only [grow, child]
      exact ih children supply reached
    | empty =>
      simp only [find, child] at reached
      contradiction

section Counting

omit [NeZero r] in
theorem sum_set {α : Type} (f : Fin r → α) (i : Fin r) (a : α) (weight : Fin r → α → Nat) :
    ∑ j, weight j (set f i a j) + weight i (f i) = ∑ j, weight j (f j) + weight i a := by
  have split (g : Fin r → Nat) : ∑ j, g j = g i + ∑ j ∈ univ.erase i, g j :=
    (Finset.add_sum_erase univ g (mem_univ i)).symm
  have rest : ∑ j ∈ univ.erase i, weight j (set f i a j) = ∑ j ∈ univ.erase i, weight j (f j) :=
    Finset.sum_congr rfl fun j member => by rw [set_other f a (Finset.ne_of_mem_erase member)]
  rw [split, split fun j => weight j (f j), rest, set_self]
  omega

variable [DecidableEq ν]

-- How often the cell `c` holds one of the tables below `slots`.
def cells : (l : Nat) → Slots r ν β l → ν → Nat
  | 0, _, _ => 0
  | l + 1, slots, c => ∑ i, match slots i with
    | .table id children => (if id = c then 1 else 0) + cells l children c
    | .empty => 0

omit [NeZero r] in
theorem cells_empty (l : Nat) (c : ν) : cells l (fun _ => .empty : Slots r ν β l) c = 0 := by
  cases l <;> simp [cells]

-- The weight of one slot in the sum that `cells` takes.
def slotCells {l : Nat} (c : ν) : Node r ν β (l + 1) → Nat
  | .table id children => (if id = c then 1 else 0) + cells l children c
  | .empty => 0

omit [NeZero r] in
theorem cells_succ (l : Nat) (slots : Slots r ν β (l + 1)) (c : ν) :
    cells (l + 1) slots c = ∑ i, slotCells c (slots i) := by
  simp only [cells]
  refine Finset.sum_congr rfl fun i _ => ?_
  cases slots i <;> rfl

omit [NeZero r] in
theorem cells_set (l : Nat) (slots : Slots r ν β (l + 1)) (i : Fin r) (node : Node r ν β (l + 1))
    (c : ν) : cells (l + 1) (set slots i node) c + slotCells c (slots i) =
      cells (l + 1) slots c + slotCells c node := by
  rw [cells_succ, cells_succ]
  exact sum_set slots i node fun _ => slotCells c

theorem cells_put (l : Nat) (slots : Slots r ν β l) (key : Nat) (node : Node r ν β 0) (c : ν) :
    cells l (put l slots key node) c = cells l slots c := by
  induction l with
  | zero => rfl
  | succ l ih =>
    cases child : slots (digit r (l + 1) key) with
    | empty => simp [put, child]
    | table id children =>
      have change := cells_set l slots (digit r (l + 1) key) (.table id (put l children key node)) c
      simp only [slotCells, child, ih] at change
      simp only [put, child]
      omega

theorem cells_grow (l : Nat) (slots : Slots r ν β l) (key : Nat) (supply : List ν) (c : ν) :
    cells l (grow l slots key supply).1 c + (grow l slots key supply).2.1.count c =
      cells l slots c + supply.count c := by
  induction l generalizing supply with
  | zero => rfl
  | succ l ih =>
    cases child : slots (digit r (l + 1) key) with
    | table id children =>
      have below := ih children supply
      have change := cells_set l slots (digit r (l + 1) key)
        (.table id (grow l children key supply).1) c
      simp only [slotCells, child] at change
      simp only [grow, child]

      omega
    | empty =>
      cases supply with
      | nil => simp [grow, child]
      | cons id rest =>
        have below := ih (fun _ => .empty) rest
        have change := cells_set l slots (digit r (l + 1) key)
          (.table id (grow l (fun _ => .empty) key rest).1) c
        simp only [slotCells, child] at change
        rw [cells_empty] at below
        simp only [grow, child, List.count_cons, beq_iff_eq]
        omega

-- Post-order walk: what a leaf releases, then each table after everything below it.
def release (emit : β → List ν) : (l : Nat) → Slots r ν β l → List ν
  | 0, slots => (List.finRange r).flatMap fun i =>
    match slots i with
    | .leaf value => emit value
    | .empty => []
  | l + 1, slots => (List.finRange r).flatMap fun i =>
    match slots i with
    | .table id children => release emit l children ++ [id]
    | .empty => []

omit [NeZero r] in
theorem count_flatMap_finRange (f : Fin r → List ν) (c : ν) :
    ((List.finRange r).flatMap f).count c = ∑ i, (f i).count c := by
  rw [List.count_flatMap, ← List.ofFn_eq_map, List.sum_ofFn]
  rfl

theorem sum_range_mul (m n : Nat) (f : Nat → Nat) :
    ∑ k ∈ range (m * n), f k = ∑ i ∈ range m, ∑ j ∈ range n, f (i * n + j) := by
  induction m with
  | zero => simp
  | succ m ih => rw [Nat.succ_mul, Finset.sum_range_add, ih, Finset.sum_range_succ]

theorem digit_add (l low : Nat) (i : Fin r) (small : low < r ^ l) :
    digit r l (i * r ^ l + low) = i := by
  apply Fin.ext
  have positive : 0 < r ^ l := by omega
  simp only [digit]
  rw [Nat.mul_comm, Nat.mul_add_div positive, Nat.div_eq_of_lt small, Nat.add_zero,
    Nat.mod_eq_of_lt i.isLt]

omit [DecidableEq ν] in
theorem find_congr (l : Nat) (slots : Slots r ν β l) {key key' : Nat}
    (same : key % r ^ (l + 1) = key' % r ^ (l + 1)) : find l slots key = find l slots key' := by
  have top (l : Nat) (same : key % r ^ (l + 1) = key' % r ^ (l + 1)) :
      digit r l key = digit r l key' := by
    apply Fin.ext
    simp only [digit]
    rw [← Nat.mod_mul_right_div_self, ← Nat.mod_mul_right_div_self, ← pow_succ, same]
  induction l with
  | zero => simp only [find, top 0 same]
  | succ l ih =>
    have lower : key % r ^ (l + 1) = key' % r ^ (l + 1) := by
      have divides : r ^ (l + 1) ∣ r ^ (l + 1 + 1) := pow_dvd_pow r (by omega)
      rw [← Nat.mod_mod_of_dvd key divides, same, Nat.mod_mod_of_dvd key' divides]
    simp only [find, top (l + 1) same]
    cases slots (digit r (l + 1) key') with
    | empty => rfl
    | table id children => exact ih children lower

omit [DecidableEq ν] in
theorem value_succ (l : Nat) (slots : Slots r ν β (l + 1)) (i : Fin r) (low : Nat)
    (small : low < r ^ (l + 1)) :
    value (l + 1) slots (i * r ^ (l + 1) + low) =
      match slots i with
      | .table _ children => value l children low
      | .empty => none := by
  simp only [value, find, digit_add (l + 1) low i small]
  cases slots i with
  | empty => rfl
  | table id children =>
    have same : (i * r ^ (l + 1) + low) % r ^ (l + 1) = low % r ^ (l + 1) := by
      rw [Nat.add_comm, Nat.add_mul_mod_self_right]
    exact congrArg value? (find_congr l children same)

theorem count_release (emit : β → List ν) (l : Nat) (slots : Slots r ν β l) (c : ν) :
    (release emit l slots).count c =
      cells l slots c + ∑ key ∈ range (r ^ (l + 1)),
        ((value l slots key).map fun v => (emit v).count c).getD 0 := by
  induction l with
  | zero =>
    rw [release, count_flatMap_finRange, cells, Nat.zero_add, Nat.zero_add, pow_one, Finset.sum_range]
    refine Finset.sum_congr rfl fun i _ => ?_
    have here : digit r 0 i = i := Fin.ext (by simp [digit, Nat.mod_eq_of_lt i.isLt])
    simp only [value, find, here]
    cases slots i <;> simp [value?]
  | succ l ih =>
    rw [release, count_flatMap_finRange, cells_succ, pow_succ', sum_range_mul, Finset.sum_range,
      ← Finset.sum_add_distrib]
    refine Finset.sum_congr rfl fun i _ => ?_
    have below : ∑ low ∈ range (r ^ (l + 1)),
        ((value (l + 1) slots (i * r ^ (l + 1) + low)).map fun v => (emit v).count c).getD 0 =
        ∑ low ∈ range (r ^ (l + 1)), ((match slots i with
          | .table _ children => value l children low
          | .empty => none).map fun v => (emit v).count c).getD 0 :=
      Finset.sum_congr rfl fun low member => by
        rw [value_succ l slots i low (Finset.mem_range.mp member)]
    rw [below]
    cases slots i with
    | empty => simp [slotCells]
    | table id children =>
      simp only [slotCells, List.count_append, ih children, List.count_singleton, beq_iff_eq]
      omega

end Counting

end SystemsSuite.Lib.Radix
