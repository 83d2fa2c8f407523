import Mathlib.Data.Nat.Bitwise
import Mathlib.Tactic

/-!
# Scattered bit fields

A mask selects positions of an octet, and the selected positions, in ascending order, carry
the binary digits of an unsigned number. `unpack` reads such a field and `pack` writes one,
both by one pass over the eight positions. `unpack_pack` says that a field wide enough for a
number gives it back, whatever the positions outside the mask hold, and `pack_unpack` that
packing what was read restores the positions of the mask.
-/

namespace OpenTlv.BitField

/-- One pass of `unpack`: `result` holds the digits read so far, `digit` the weight of the
next one. -/
def unpackLoop (octet mask : Nat) : List Nat → Nat → Nat → Nat
  | [], result, _ => result
  | bit :: bits, result, digit =>
    if mask.testBit bit then
      unpackLoop octet mask bits (if octet.testBit bit then result ||| digit else result)
        (digit <<< 1)
    else unpackLoop octet mask bits result digit

/-- The number held by the positions of `mask` in `octet`. -/
def unpack (octet mask : UInt8) : Nat :=
  unpackLoop octet.toNat mask.toNat (List.range 8) 0 1

/-- One pass of `pack`: `result` holds the positions set so far, `value` the digits left. -/
def packLoop (mask : Nat) : List Nat → Nat → Nat → Nat
  | [], _, result => result
  | bit :: bits, value, result =>
    if mask.testBit bit then
      packLoop mask bits (value >>> 1)
        (if value.testBit 0 then result ||| (1 <<< bit) else result)
    else packLoop mask bits value result

/-- The octet whose positions under `mask` hold `value`. -/
def pack (value : Nat) (mask : UInt8) : UInt8 :=
  UInt8.ofNat (packLoop mask.toNat (List.range 8) value 0)

/-- The largest number a field can hold, as `unpack mask mask` computes it. -/
def maximum (mask : UInt8) : Nat :=
  unpack mask mask

/-- The digits of the field without accumulator. -/
def field (octet mask : Nat) : List Nat → Nat
  | [] => 0
  | bit :: bits =>
    if mask.testBit bit then (octet.testBit bit).toNat + 2 * field octet mask bits
    else field octet mask bits

/-- The number of positions of a mask. -/
def width (mask : Nat) (bits : List Nat) : Nat :=
  (bits.filter fun bit => mask.testBit bit).length

/-- The loop collects the bits that the mask selects. -/
theorem unpack_loop_eq (octet mask : Nat) (bits : List Nat) (result weight : Nat)
    (h : result < 2 ^ weight) :
    unpackLoop octet mask bits result (2 ^ weight) =
      result + 2 ^ weight * field octet mask bits := by
  induction bits generalizing result weight with
  | nil => simp [unpackLoop, field]
  | cons bit bits ih =>
    have hshift : (2 ^ weight) <<< 1 = 2 ^ (weight + 1) := by
      rw [Nat.shiftLeft_eq, Nat.pow_one, Nat.pow_succ]
    by_cases hmask : mask.testBit bit
    · have hor : result ||| 2 ^ weight = result + 2 ^ weight := by
        have hadd := Nat.two_pow_add_eq_or_of_lt h 1
        rw [Nat.mul_one] at hadd
        rw [Nat.lor_comm, ← hadd, Nat.add_comm]
      have hdouble : 2 ^ (weight + 1) = 2 ^ weight + 2 ^ weight := by
        rw [Nat.pow_succ]; omega
      simp only [unpackLoop, field, hmask, if_true, hshift]
      by_cases hbit : octet.testBit bit
      · simp only [hbit, if_true, hor, Bool.toNat_true]
        rw [ih _ _ (by omega), hdouble]
        ring
      · simp only [hbit, Bool.false_eq_true, if_false, Bool.toNat_false, Nat.zero_add]
        rw [ih _ _ (by omega), hdouble]
        ring
    · simp only [unpackLoop, field, hmask, Bool.false_eq_true, if_false]
      exact ih result weight h

/-- `unpack` is the recursive reading of the field. -/
theorem unpack_eq_field (octet mask : UInt8) :
    unpack octet mask = field octet.toNat mask.toNat (List.range 8) := by
  have h := unpack_loop_eq octet.toNat mask.toNat (List.range 8) 0 0 (by simp)
  simpa [unpack] using h

/-- The field depends only on the positions of the mask. -/
theorem field_congr {first second mask : Nat} {bits : List Nat}
    (h : ∀ bit ∈ bits, mask.testBit bit = true → first.testBit bit = second.testBit bit) :
    field first mask bits = field second mask bits := by
  induction bits with
  | nil => rfl
  | cons bit bits ih =>
    have hrest := ih fun b hb => h b (List.mem_cons_of_mem _ hb)
    by_cases hmask : mask.testBit bit
    · simp [field, hmask, hrest, h bit List.mem_cons_self hmask]
    · simp [field, hmask, hrest]

/-- A field is below the power of two of its width. -/
theorem field_lt (octet mask : Nat) (bits : List Nat) :
    field octet mask bits < 2 ^ width mask bits := by
  induction bits with
  | nil => simp [field, width]
  | cons bit bits ih =>
    by_cases hmask : mask.testBit bit
    · have hwidth : width mask (bit :: bits) = width mask bits + 1 := by
        simp [width, hmask]
      have hdigit : (octet.testBit bit).toNat ≤ 1 := Bool.toNat_le _
      rw [hwidth, Nat.pow_succ]
      simp only [field, hmask, if_true]
      omega
    · have hwidth : width mask (bit :: bits) = width mask bits := by
        simp [width, hmask]
      rw [hwidth]
      simpa [field, hmask] using ih

/-- A mask read through itself holds all ones. -/
theorem field_self (mask : Nat) (bits : List Nat) :
    field mask mask bits + 1 = 2 ^ width mask bits := by
  induction bits with
  | nil => simp [field, width]
  | cons bit bits ih =>
    by_cases hmask : mask.testBit bit
    · have hwidth : width mask (bit :: bits) = width mask bits + 1 := by
        simp [width, hmask]
      rw [hwidth, Nat.pow_succ]
      simp only [field, hmask, if_true, Bool.toNat_true]
      omega
    · have hwidth : width mask (bit :: bits) = width mask bits := by
        simp [width, hmask]
      rw [hwidth]
      simpa [field, hmask] using ih

/-- `pack` changes no position outside the remaining bits and sets none outside the mask. -/
theorem pack_loop_test_bit (mask : Nat) (bits : List Nat) (value result position : Nat)
    (h : position ∉ bits ∨ mask.testBit position = false) :
    (packLoop mask bits value result).testBit position = result.testBit position := by
  induction bits generalizing value result with
  | nil => rfl
  | cons bit bits ih =>
    have hrest : position ∉ bits ∨ mask.testBit position = false := by
      rcases h with h | h
      · exact .inl fun hmem => h (List.mem_cons_of_mem _ hmem)
      · exact .inr h
    by_cases hmask : mask.testBit bit
    · have hne : bit ≠ position := by
        rintro rfl
        rcases h with h | h
        · exact h List.mem_cons_self
        · exact absurd hmask (by simp [h])
      simp only [packLoop, hmask, if_true]
      rw [ih _ _ hrest]
      split
      · simp [Nat.testBit_or, Nat.shiftLeft_eq, Nat.testBit_two_pow_of_ne hne]
      · rfl
    · simp only [packLoop, hmask, Bool.false_eq_true, if_false]
      exact ih _ _ hrest

/-- Reading the packed positions gives the value back, reduced to the field. -/
theorem field_pack_loop (mask : Nat) (bits : List Nat) (hnodup : bits.Nodup)
    (value result : Nat) (hfree : ∀ bit ∈ bits, result.testBit bit = false) :
    field (packLoop mask bits value result) mask bits = value % 2 ^ width mask bits := by
  induction bits generalizing value result with
  | nil => simp [field, width, Nat.mod_one]
  | cons bit bits ih =>
    obtain ⟨hbit, hrest⟩ := List.nodup_cons.mp hnodup
    have hfree' : ∀ b ∈ bits, result.testBit b = false :=
      fun b hb => hfree b (List.mem_cons_of_mem _ hb)
    by_cases hmask : mask.testBit bit
    · have hwidth : width mask (bit :: bits) = width mask bits + 1 := by
        simp [width, hmask]
      set next := if value.testBit 0 then result ||| (1 <<< bit) else result with hnext
      have hnextFree : ∀ b ∈ bits, next.testBit b = false := by
        intro b hb
        have hne : bit ≠ b := by rintro rfl; exact hbit hb
        rw [hnext]
        split
        · simp [Nat.testBit_or, hfree' b hb, Nat.shiftLeft_eq, Nat.testBit_two_pow_of_ne hne]
        · exact hfree' b hb
      have hhere : (packLoop mask bits (value >>> 1) next).testBit bit = value.testBit 0 := by
        rw [pack_loop_test_bit mask bits _ _ _ (.inl hbit), hnext]
        split
        next h => simp [Nat.testBit_or, h, Nat.shiftLeft_eq]
        next h => simpa [h] using hfree bit List.mem_cons_self
      rw [hwidth, Nat.pow_succ, Nat.mul_comm (2 ^ width mask bits) 2, Nat.mod_mul]
      simp only [packLoop, hmask, if_true, field, ← hnext, hhere,
        ih hrest (value >>> 1) next hnextFree]
      have hlow : (value.testBit 0).toNat = value % 2 := by
        rw [Nat.testBit_zero]
        rcases Nat.mod_two_eq_zero_or_one value with h | h <;> simp [h]
      rw [hlow, Nat.shiftRight_eq_div_pow]
    · have hwidth : width mask (bit :: bits) = width mask bits := by
        simp [width, hmask]
      rw [hwidth]
      simp only [packLoop, hmask, Bool.false_eq_true, if_false, field]
      exact ih hrest value result hfree'

/-- Packing bits keeps the result an octet. -/
theorem pack_loop_lt (mask : Nat) (bits : List Nat) (h : ∀ bit ∈ bits, bit < 8)
    (value result : Nat) (hresult : result < 256) : packLoop mask bits value result < 256 := by
  induction bits generalizing value result with
  | nil => exact hresult
  | cons bit bits ih =>
    have hrest : ∀ b ∈ bits, b < 8 := fun b hb => h b (List.mem_cons_of_mem _ hb)
    by_cases hmask : mask.testBit bit
    · simp only [packLoop, hmask, if_true]
      apply ih hrest
      split
      · have hpow : (1 <<< bit : Nat) < 2 ^ 8 := by
          rw [Nat.shiftLeft_eq, Nat.one_mul]
          exact Nat.pow_lt_pow_right (by norm_num) (h bit List.mem_cons_self)
        exact Nat.or_lt_two_pow (n := 8) hresult hpow
      · exact hresult
    · simp only [packLoop, hmask, Bool.false_eq_true, if_false]
      exact ih hrest _ _ hresult

theorem pack_to_nat (value : Nat) (mask : UInt8) :
    (pack value mask).toNat = packLoop mask.toNat (List.range 8) value 0 := by
  have h := pack_loop_lt mask.toNat (List.range 8) (by simp) value 0 (by norm_num)
  simp [pack, Nat.mod_eq_of_lt h]

/-- A packed octet has no position outside its mask. -/
theorem pack_test_bit_of_not_mask (value : Nat) (mask : UInt8) (position : Nat)
    (h : mask.toNat.testBit position = false) :
    (pack value mask).toNat.testBit position = false := by
  rw [pack_to_nat, pack_loop_test_bit _ _ _ _ _ (.inr h)]
  simp

theorem maximum_add_one (mask : UInt8) :
    maximum mask + 1 = 2 ^ width mask.toNat (List.range 8) := by
  rw [maximum, unpack_eq_field, field_self]

/-- A value within the field is read back from any octet that agrees with the packed one on
the positions of the mask. -/
theorem unpack_pack {value : Nat} {mask octet : UInt8} (hvalue : value ≤ maximum mask)
    (h : ∀ position < 8, mask.toNat.testBit position = true →
      octet.toNat.testBit position = (pack value mask).toNat.testBit position) :
    unpack octet mask = value := by
  have hsame : field octet.toNat mask.toNat (List.range 8) =
      field (pack value mask).toNat mask.toNat (List.range 8) :=
    field_congr fun position hmem hmask => h position (List.mem_range.mp hmem) hmask
  have hwidth := maximum_add_one mask
  rw [unpack_eq_field, hsame, pack_to_nat,
    field_pack_loop _ _ List.nodup_range _ _ (by simp), Nat.mod_eq_of_lt (by omega)]

/-- An octet is zero when no position is set. -/
theorem eq_zero_of_test_bit {octet : UInt8}
    (h : ∀ position < 8, octet.toNat.testBit position = false) : octet = 0 := by
  apply UInt8.toNat_inj.mp
  apply Nat.eq_of_testBit_eq
  intro position
  rcases Nat.lt_or_ge position 8 with hlt | hge
  · simpa using h position hlt
  · have hbig : octet.toNat < 2 ^ position :=
      Nat.lt_of_lt_of_le octet.toNat_lt (Nat.pow_le_pow_right (by norm_num) hge)
    simpa using Nat.testBit_lt_two_pow hbig

/-- Octets are equal when they agree at every position. -/
theorem eq_of_test_bit {first second : UInt8}
    (h : ∀ position < 8, first.toNat.testBit position = second.toNat.testBit position) :
    first = second := by
  have hzero : first ^^^ second = 0 := by
    apply eq_zero_of_test_bit
    intro position hlt
    rw [UInt8.toNat_xor, Nat.testBit_xor, h position hlt, Bool.xor_self]
  simpa using hzero

/-- An unpacked field is at most the maximum. -/
theorem unpack_le_maximum (octet mask : UInt8) : unpack octet mask ≤ maximum mask := by
  have hlt := field_lt octet.toNat mask.toNat (List.range 8)
  have hmaximum := maximum_add_one mask
  rw [unpack_eq_field]
  omega

/-- Fields of the same number hold the same digit at every position of the mask. -/
theorem field_inj {first second mask : Nat} {bits : List Nat}
    (h : field first mask bits = field second mask bits) {bit : Nat} (hmem : bit ∈ bits)
    (hmask : mask.testBit bit = true) : first.testBit bit = second.testBit bit := by
  induction bits with
  | nil => cases hmem
  | cons head bits ih =>
    by_cases hhead : mask.testBit head
    · simp only [field, hhead, if_true] at h
      have hfirst := Bool.toNat_le (first.testBit head)
      have hsecond := Bool.toNat_le (second.testBit head)
      have hdigit : (first.testBit head).toNat = (second.testBit head).toNat := by omega
      cases hmem with
      | head =>
        revert hdigit
        cases first.testBit bit <;> cases second.testBit bit <;> simp
      | tail _ hmem => exact ih (by omega) hmem
    · simp only [field, hhead, Bool.false_eq_true, if_false] at h
      cases hmem with
      | head => exact absurd hmask hhead
      | tail _ hmem => exact ih h hmem

/-- Packing what was read restores the positions of the mask. -/
theorem pack_unpack (octet mask : UInt8) : pack (unpack octet mask) mask = octet &&& mask := by
  have hread : unpack (pack (unpack octet mask) mask) mask = unpack octet mask :=
    unpack_pack (unpack_le_maximum octet mask) fun _ _ _ => rfl
  rw [unpack_eq_field, unpack_eq_field octet] at hread
  apply eq_of_test_bit
  intro position hlt
  rw [UInt8.toNat_and, Nat.testBit_and]
  cases hmask : mask.toNat.testBit position with
  | false =>
    rw [pack_test_bit_of_not_mask _ _ _ hmask, Bool.and_false]
  | true =>
    rw [Bool.and_true]
    rw [unpack_eq_field octet]
    exact field_inj hread (List.mem_range.mpr hlt) hmask

/-- The positions of the complement of an octet. -/
theorem test_bit_complement (octet : UInt8) {position : Nat} (h : position < 8) :
    (~~~octet).toNat.testBit position = !octet.toNat.testBit position := by
  rw [← UInt8.toNat_toBitVec, ← UInt8.toNat_toBitVec, UInt8.toBitVec_not,
    ← BitVec.getLsbD, ← BitVec.getLsbD, BitVec.getLsbD_not]
  simp [h]

/-- Disjoint masks share no position. -/
theorem test_bit_of_disjoint {first second : UInt8} (h : first &&& second = 0)
    {position : Nat} (hset : first.toNat.testBit position = true) :
    second.toNat.testBit position = false := by
  have hand := congrArg (fun octet : UInt8 => octet.toNat.testBit position) h
  simpa [hset] using hand

/-- An octet within a mask has no position outside it. -/
theorem and_complement_eq_zero {octet mask : UInt8}
    (h : ∀ position < 8, octet.toNat.testBit position = true →
      mask.toNat.testBit position = true) : octet &&& ~~~mask = 0 := by
  apply eq_zero_of_test_bit
  intro position hlt
  rw [UInt8.toNat_and, Nat.testBit_and, test_bit_complement mask hlt]
  cases hset : octet.toNat.testBit position with
  | false => rfl
  | true => simp [h position hlt hset]

/-- An octet without positions outside a mask is within it. -/
theorem test_bit_of_and_complement {octet mask : UInt8} (h : octet &&& ~~~mask = 0)
    {position : Nat} (hlt : position < 8) (hset : octet.toNat.testBit position = true) :
    mask.toNat.testBit position = true := by
  have hand := test_bit_of_disjoint h hset
  rw [test_bit_complement mask hlt] at hand
  simpa using hand

end OpenTlv.BitField
