import SystemsSuite.Lib.Horner

set_option autoImplicit false

namespace SystemsSuite.Sham

open Lib

-- `char checksum[9]` of both programs.
def checksumSize : Nat := 9

def checksumStep (checksum : UInt64) (ch : UInt8) : UInt64 :=
  ((checksum <<< 5) + checksum) + ch.toUInt64

def checksumOf (content : List UInt8) : UInt64 := content.foldl checksumStep 0

-- `%08lx`
def formatChecksum (checksum : UInt64) : List Char :=
  (Nat.toDigits 16 checksum.toNat).leftpad 8 '0'

-- The text that ends up in `checksum_str`; no content is a file that `fopen` cannot open.
def calculateFileChecksum : Option (List UInt8) → List Char
  | none => "ERROR: Unable to open file for checksum".toList
  | some content => formatChecksum (checksumOf content)

-- The text and its NUL fit into the buffer.
def ChecksumFits (file : Option (List UInt8)) : Prop :=
  (calculateFileChecksum file).length + 1 ≤ checksumSize

instance (file : Option (List UInt8)) : Decidable (ChecksumFits file) :=
  inferInstanceAs (Decidable (_ ≤ _))

def contentValue (content : List UInt8) : Nat := horner 33 (content.map UInt8.toNat)

theorem checksumStep_toNat (checksum : UInt64) (ch : UInt8) :
    (checksumStep checksum ch).toNat = (33 * checksum.toNat + ch.toNat) % 2 ^ 64 := by
  have shifted : (checksum <<< 5).toNat = checksum.toNat * 32 % 2 ^ 64 := by
    rw [UInt64.toNat_shiftLeft]
    simp [Nat.shiftLeft_eq]
  unfold checksumStep
  rw [UInt64.toNat_add, UInt64.toNat_add, shifted, UInt8.toNat_toUInt64]
  omega

theorem checksumOf_toNat (content : List UInt8) :
    (checksumOf content).toNat = contentValue content % 2 ^ 64 := by
  have stepwise (checksum : UInt64) : (content.foldl checksumStep checksum).toNat =
      (content.map UInt8.toNat).foldl (fun value d => (33 * value + d) % 2 ^ 64) checksum.toNat := by
    induction content generalizing checksum with
    | nil => rfl
    | cons ch rest ih =>
      rw [List.foldl_cons, ih, checksumStep_toNat]
      rfl
  have start : (0 : UInt64).toNat = 0 % 2 ^ 64 := rfl
  rw [checksumOf, stepwise, start, foldl_horner_mod, foldl_horner, Nat.zero_mul, Nat.zero_add]
  rfl

theorem formatChecksum_length (checksum : UInt64) :
    (formatChecksum checksum).length ≤ 8 ↔ checksum.toNat < 2 ^ 32 := by
  have digits : (Nat.toDigits 16 checksum.toNat).length ≤ 8 ↔ checksum.toNat < 16 ^ 8 :=
    Nat.length_toDigits_le_iff (by decide) (by decide)
  have power : 16 ^ 8 = 2 ^ 32 := rfl
  rw [power] at digits
  unfold formatChecksum
  rw [List.length_leftpad, max_le_iff, digits]
  exact and_iff_right le_rfl

theorem byte_le (content : List UInt8) : ∀ d ∈ content.map UInt8.toNat, d ≤ 255 := by
  intro d member
  obtain ⟨ch, _, rfl⟩ := List.mem_map.mp member
  exact Nat.le_of_lt_succ ch.toNat_lt

theorem contentValue_le {content : List UInt8} {n : Nat} (short : content.length ≤ n) :
    contentValue content * 32 + 255 ≤ 255 * 33 ^ n := by
  have bound := horner_le (b := 33) (by decide) (byte_le content)
  rw [List.length_map] at bound
  exact bound.trans (Nat.mul_le_mul_left _ (Nat.pow_le_pow_right (by decide) short))

theorem content_fits (content : List UInt8) :
    ChecksumFits (some content) ↔ contentValue content % 2 ^ 64 < 2 ^ 32 := by
  have length : ChecksumFits (some content) ↔ (formatChecksum (checksumOf content)).length ≤ 8 :=
    Nat.succ_le_succ_iff
  rw [length, formatChecksum_length, checksumOf_toNat]

theorem short_content_fits {content : List UInt8} (short : content.length ≤ 5) :
    ChecksumFits (some content) := by
  have bound := contentValue_le short
  rw [content_fits, Nat.mod_eq_of_lt (by omega)]
  omega

-- Eight bytes are enough, as long as the value does not wrap around.
theorem long_content_overflows {first : UInt8} {rest : List UInt8} (notNul : first ≠ 0)
    (long : 7 ≤ rest.length) (unwrapped : rest.length ≤ 11) : ¬ ChecksumFits (some (first :: rest)) := by
  have positive : 0 < first.toNat := by
    apply Nat.pos_of_ne_zero
    exact fun zero => notNul (UInt8.toNat_inj.mp zero)
  have lower : 33 ^ rest.length ≤ contentValue (first :: rest) := by
    have below := le_horner_cons (b := 33) (rest.map UInt8.toNat) positive
    rwa [List.length_map] at below
  have power : 33 ^ 7 ≤ 33 ^ rest.length := Nat.pow_le_pow_right (by decide) long
  have upper : contentValue (first :: rest) * 32 + 255 ≤ 255 * 33 ^ 12 :=
    contentValue_le (by rw [List.length_cons]; omega)
  rw [content_fits, Nat.mod_eq_of_lt (by omega)]
  omega

theorem fits_iff_content (file : Option (List UInt8)) :
    ChecksumFits file ↔ ∃ content, file = some content ∧ contentValue content % 2 ^ 64 < 2 ^ 32 := by
  cases file with
  | none =>
    constructor
    next =>
      intro fits
      exact absurd fits (by decide +kernel)
    next =>
      rintro ⟨_, none_, _⟩
      contradiction
  | some content =>
    rw [content_fits]
    constructor
    next => exact fun small => ⟨content, rfl, small⟩
    next =>
      rintro ⟨_, same, small⟩
      obtain rfl := Option.some.inj same
      exact small

-- Which files fit: all short ones, and no longer one whose value does not wrap around.
theorem checksum_fits_iff (file : Option (List UInt8)) :
    (ChecksumFits file ↔ ∃ content, file = some content ∧ contentValue content % 2 ^ 64 < 2 ^ 32) ∧
      (∀ content, content.length ≤ 5 → ChecksumFits (some content)) ∧
      ∀ first rest, first ≠ 0 → 7 ≤ rest.length → rest.length ≤ 11 → ¬ ChecksumFits (some (first :: rest)) :=
  ⟨fits_iff_content file, fun _ short => short_content_fits short,
    fun _ _ notNul long unwrapped => long_content_overflows notNul long unwrapped⟩

-- A file of the eight bytes `abcdefgh`.
theorem checksum_fits_not : ¬ ∀ file, ChecksumFits file := fun fits =>
  absurd (fits (some [97, 98, 99, 100, 101, 102, 103, 104])) (by decide +kernel)

end SystemsSuite.Sham
