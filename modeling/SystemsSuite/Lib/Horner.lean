import Mathlib

set_option autoImplicit false

namespace SystemsSuite.Lib

-- What the digits write in base `b`, the first one first. A digit may be `b` or more.
def horner (b : Nat) (digits : List Nat) : Nat := Nat.ofDigits b digits.reverse

section Horner

variable {b : Nat}

theorem horner_cons (d : Nat) (rest : List Nat) :
    horner b (d :: rest) = d * b ^ rest.length + horner b rest := by
  unfold horner
  rw [Nat.ofDigits_reverse_cons]
  ring

theorem foldl_horner (digits : List Nat) (start : Nat) :
    digits.foldl (fun value d => b * value + d) start = start * b ^ digits.length + horner b digits := by
  induction digits generalizing start with
  | nil => simp [horner]
  | cons d rest ih =>
    rw [List.foldl_cons, ih, horner_cons, List.length_cons, pow_succ]
    ring

-- Taking remainders on the way changes nothing modulo `n`.
theorem foldl_horner_mod (n : Nat) (digits : List Nat) (start : Nat) :
    digits.foldl (fun value d => (b * value + d) % n) (start % n) =
      digits.foldl (fun value d => b * value + d) start % n := by
  induction digits generalizing start with
  | nil => rfl
  | cons d rest ih =>
    have step : (b * (start % n) + d) % n = (b * start + d) % n :=
      ((Nat.mod_modEq start n).mul_left b).add_right d
    rw [List.foldl_cons, List.foldl_cons, step, ih]

theorem horner_le {top : Nat} {digits : List Nat} (positive : 0 < b) (bounded : ∀ d ∈ digits, d ≤ top) :
    horner b digits * (b - 1) + top ≤ top * b ^ digits.length := by
  induction digits with
  | nil => simp [horner]
  | cons d rest ih =>
    obtain ⟨base, rfl⟩ : ∃ base, b = base + 1 := ⟨b - 1, by omega⟩
    have earlier := ih fun x member => bounded x (List.mem_cons_of_mem d member)
    have first : d * (base + 1) ^ rest.length * base ≤ top * (base + 1) ^ rest.length * base :=
      Nat.mul_le_mul_right _ (Nat.mul_le_mul_right _ (bounded d List.mem_cons_self))
    rw [Nat.add_sub_cancel] at earlier ⊢
    rw [horner_cons, List.length_cons, pow_succ]
    calc (d * (base + 1) ^ rest.length + horner (base + 1) rest) * base + top
        = d * (base + 1) ^ rest.length * base + (horner (base + 1) rest * base + top) := by ring
      _ ≤ top * (base + 1) ^ rest.length * base + top * (base + 1) ^ rest.length :=
        Nat.add_le_add first earlier
      _ = top * ((base + 1) ^ rest.length * (base + 1)) := by ring

theorem le_horner_cons {d : Nat} (rest : List Nat) (positive : 0 < d) :
    b ^ rest.length ≤ horner b (d :: rest) := by
  rw [horner_cons]
  exact Nat.le_add_right_of_le (Nat.le_mul_of_pos_left _ positive)

end Horner

end SystemsSuite.Lib
