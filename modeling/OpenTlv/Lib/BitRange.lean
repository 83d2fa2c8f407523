import OpenTlv.Lib.Octets

/-!
# Ranges of bits

A range of bits of a number is read by a shift and a mask, and written by clearing it and or-ing
the new bits in. Every bit of the result is known, so reading a range gives what was written
there, and a range beside it is as before. The octets of a number have its bits in groups of
eight.
-/

namespace OpenTlv

namespace BitRange

/-- The bits of a range. -/
def extract (storage offset width : Nat) : Nat :=
  (storage >>> offset) &&& (2 ^ width - 1)

/-- A number with the bits of a range replaced. -/
def insert (storage offset width value : Nat) : Nat :=
  (storage - (storage &&& ((2 ^ width - 1) <<< offset))) ||| (value <<< offset)

/-- Clearing the bits of a mask. -/
theorem test_bit_clear (storage mask position : Nat) :
    (storage - (storage &&& mask)).testBit position =
      (storage.testBit position && !mask.testBit position) := by
  have hless : storage &&& mask ≤ storage := Nat.and_le_left
  have hlow : (storage &&& mask) % 2 = 1 ↔ storage % 2 = 1 ∧ mask % 2 = 1 :=
    Nat.and_mod_two_eq_one
  have hhalf : (storage &&& mask) / 2 = storage / 2 &&& mask / 2 := Nat.and_div_two
  induction position generalizing storage mask with
  | zero =>
    rw [Nat.testBit_zero, Nat.testBit_zero, Nat.testBit_zero, Bool.eq_iff_iff]
    simp only [Bool.and_eq_true, decide_eq_true_eq, Bool.not_eq_true', decide_eq_false_iff_not]
    omega
  | succ position ih =>
    have hrest : (storage - (storage &&& mask)) / 2 =
        storage / 2 - (storage / 2 &&& mask / 2) := by
      rw [← hhalf]
      omega
    rw [Nat.testBit_succ, Nat.testBit_succ, Nat.testBit_succ, hrest]
    exact ih _ _ Nat.and_le_left Nat.and_mod_two_eq_one Nat.and_div_two

/-- The bits of a range are those of the storage. -/
theorem test_bit_extract (storage offset width position : Nat) :
    (extract storage offset width).testBit position =
      (decide (position < width) && storage.testBit (offset + position)) := by
  unfold extract
  rw [Nat.testBit_and, Nat.testBit_two_pow_sub_one, Nat.testBit_shiftRight, Bool.and_comm]

/-- Every bit behind a write. -/
theorem test_bit_insert (storage offset width : Nat) {value : Nat} (hvalue : value < 2 ^ width)
    (position : Nat) :
    (insert storage offset width value).testBit position =
      if offset ≤ position ∧ position < offset + width then value.testBit (position - offset)
      else storage.testBit position := by
  unfold insert
  rw [Nat.testBit_or, test_bit_clear, Nat.testBit_shiftLeft, Nat.testBit_shiftLeft,
    Nat.testBit_two_pow_sub_one]
  by_cases hlow : offset ≤ position
  · by_cases hhigh : position < offset + width
    · rw [if_pos ⟨hlow, hhigh⟩, decide_eq_true hlow,
        decide_eq_true (show position - offset < width by omega)]
      simp
    · have hbeyond : value.testBit (position - offset) = false :=
        Nat.testBit_lt_two_pow (Nat.lt_of_lt_of_le hvalue
          (Nat.pow_le_pow_right (by omega) (by omega)))
      rw [if_neg (by omega), hbeyond, decide_eq_false (show ¬ position - offset < width by omega)]
      simp
  · rw [if_neg (by omega), decide_eq_false hlow]
    simp

/-- A range that was written holds what was written. -/
theorem extract_insert (storage offset : Nat) {width value : Nat} (hvalue : value < 2 ^ width) :
    extract (insert storage offset width value) offset width = value := by
  apply Nat.eq_of_testBit_eq
  intro position
  rw [test_bit_extract, test_bit_insert _ _ _ hvalue]
  by_cases hinside : position < width
  · rw [if_pos (by omega), decide_eq_true hinside, Nat.add_sub_cancel_left, Bool.true_and]
  · have hbeyond : value.testBit position = false :=
      Nat.testBit_lt_two_pow (Nat.lt_of_lt_of_le hvalue
        (Nat.pow_le_pow_right (by omega) (by omega)))
    rw [decide_eq_false hinside, Bool.false_and, hbeyond]

/-- A range beside one that was written is as before. -/
theorem extract_insert_disjoint (storage : Nat) {offset width value other extent : Nat}
    (hvalue : value < 2 ^ width) (h : other + extent ≤ offset ∨ offset + width ≤ other) :
    extract (insert storage offset width value) other extent = extract storage other extent := by
  apply Nat.eq_of_testBit_eq
  intro position
  rw [test_bit_extract, test_bit_extract, test_bit_insert _ _ _ hvalue]
  by_cases hinside : position < extent
  · rw [if_neg (by omega)]
  · rw [decide_eq_false hinside, Bool.false_and, Bool.false_and]

/-- A write inside some bits keeps the number inside of them. -/
theorem insert_lt {storage offset width value bits : Nat} (hstorage : storage < 2 ^ bits)
    (hvalue : value < 2 ^ width) (h : offset + width ≤ bits) :
    insert storage offset width value < 2 ^ bits := by
  apply Nat.lt_pow_two_of_testBit
  intro position hposition
  rw [test_bit_insert _ _ _ hvalue, if_neg (by omega)]
  exact Nat.testBit_lt_two_pow (Nat.lt_of_lt_of_le hstorage
    (Nat.pow_le_pow_right (by omega) hposition))

/-- The bits of octets that are read most significant first. -/
theorem test_bit_fold (bytes : Bytes) {index bit : Nat} (hindex : index < bytes.length)
    (hbit : bit < 8) :
    (Octets.fold bytes).testBit (8 * (bytes.length - 1 - index) + bit) =
      (bytes.getD index 0).toNat.testBit bit := by
  induction bytes using List.reverseRecOn with
  | nil => cases hindex
  | append_singleton bytes octet ih =>
    have hoctet : octet.toNat < 2 ^ 8 := octet.toNat_lt
    rw [List.length_append, List.length_singleton] at hindex ⊢
    rw [Octets.fold_append_singleton, Nat.mul_comm, show 256 = 2 ^ 8 by norm_num,
      Nat.testBit_two_pow_mul_add _ hoctet, List.getD_eq_getElem?_getD]
    by_cases hlast : index = bytes.length
    · rw [if_pos (by omega), hlast, List.getElem?_concat_length, Option.getD_some]
      congr 1
      omega
    · have hfront : index < bytes.length := by omega
      rw [if_neg (by omega), List.getElem?_append_left hfront, ← List.getD_eq_getElem?_getD,
        ← ih hfront]
      congr 1
      omega

end BitRange

end OpenTlv
