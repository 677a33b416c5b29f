import Mathlib

set_option autoImplicit false

namespace SystemsSuite.Lib

section Fields

def field (bytes : Nat → UInt8) (start : Nat) : Nat → Nat
  | 0 => 0
  | width + 1 => (bytes start).toNat + 256 * field bytes (start + 1) width

def setField (bytes : Nat → UInt8) (start width value : Nat) : Nat → UInt8 := fun k =>
  if start ≤ k ∧ k < start + width then UInt8.ofNat (value / 256 ^ (k - start)) else bytes k

variable {bytes bytes' : Nat → UInt8} {start width value : Nat}

theorem field_congr (same : ∀ k, start ≤ k → k < start + width → bytes' k = bytes k) :
    field bytes' start width = field bytes start width := by
  induction width generalizing start with
  | zero => rfl
  | succ width ih =>
    rw [field, field, same start le_rfl (by omega), ih fun k low high => same k (by omega) (by omega)]

theorem field_digits (width value : Nat) {start : Nat}
    (digits : ∀ k < width, (bytes (start + k)).toNat = value / 256 ^ k % 256) :
    field bytes start width = value % 256 ^ width := by
  induction width generalizing start value with
  | zero => rw [field, pow_zero, Nat.mod_one]
  | succ width ih =>
    have first := digits 0 (by omega)
    rw [Nat.add_zero, pow_zero, Nat.div_one] at first
    have rest : field bytes (start + 1) width = value / 256 % 256 ^ width := ih (value / 256) fun k inside => by
      have digit := digits (k + 1) (by omega)
      rw [show start + 1 + k = start + (k + 1) by omega, digit, Nat.div_div_eq_div_mul, pow_succ,
        Nat.mul_comm (256 ^ k)]
    rw [field, first, rest, pow_succ, Nat.mul_comm (256 ^ width), Nat.mod_mul]

theorem field_setField (small : value < 256 ^ width) :
    field (setField bytes start width value) start width = value := by
  rw [field_digits width value fun k inside => ?_, Nat.mod_eq_of_lt small]
  unfold setField
  rw [if_pos (by omega), Nat.add_sub_cancel_left, UInt8.toNat_ofNat']

theorem field_setField_of_apart {start' width' : Nat} (apart : start + width ≤ start' ∨ start' + width' ≤ start) :
    field (setField bytes start' width' value) start width = field bytes start width := by
  apply field_congr
  intro k low high
  unfold setField
  rw [if_neg (by omega)]

-- `count` values in a row.
def setFields (bytes : Nat → UInt8) (start width : Nat) (values : Nat → Nat) : Nat → Nat → UInt8
  | 0 => bytes
  | count + 1 => setField (setFields bytes start width values count) (start + width * count) width (values count)

theorem field_setFields_of_apart {start' width' count : Nat} {values : Nat → Nat}
    (apart : start + width ≤ start' ∨ start' + width' * count ≤ start) :
    field (setFields bytes start' width' values count) start width = field bytes start width := by
  induction count with
  | zero => rfl
  | succ count ih =>
    rw [Nat.mul_succ] at apart
    rw [setFields, field_setField_of_apart (by omega)]
    exact ih (by omega)

theorem field_setFields {values : Nat → Nat} {count i : Nat} (inside : i < count) (small : values i < 256 ^ width) :
    field (setFields bytes start width values count) (start + width * i) width = values i := by
  induction count with
  | zero => exact absurd inside (Nat.not_lt_zero i)
  | succ count ih =>
    rw [setFields]
    by_cases last : i = count
    · rw [last] at small ⊢
      exact field_setField small
    · have before : width * i + width ≤ width * count := by
        rw [← Nat.mul_succ]
        exact Nat.mul_le_mul_left width (by omega)
      rw [field_setField_of_apart (by omega)]
      exact ih (by omega)

end Fields

end SystemsSuite.Lib
