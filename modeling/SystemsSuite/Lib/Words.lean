import Mathlib

set_option autoImplicit false

namespace SystemsSuite.Lib

-- What a machine keeps of a number in 32 bits, unsigned and signed.
abbrev u32 (n : Nat) : Nat := n % 2 ^ 32

def int (n : Int) : Int := n.bmod (2 ^ 32)

theorem int_of_range {n : Int} (low : -2 ^ 31 ≤ n) (high : n < 2 ^ 31) : int n = n := by
  unfold int
  rw [Int.bmod_eq_of_le_mul_two (by push_cast; omega) (by push_cast; omega)]

end SystemsSuite.Lib
