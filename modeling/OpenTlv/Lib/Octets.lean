import Mathlib.Data.Nat.Bitwise
import Mathlib.Tactic

/-!
# Octet strings as radix-256 numerals and as buffers

General facts about lists of octets: the little-endian digits of a natural number, the fold
that reads digits most significant first, and stores into a buffer of fixed extent. The
digit functions are inverse to each other on every number that fits the width, which is
`fold_reverse_digits` and `fold_digits`. A store keeps the extent of its buffer and
`take_store` reads it back.
-/

namespace OpenTlv

/-- A finite string of octets. -/
abbrev Bytes := List UInt8

namespace Octets

/-- The `width` low radix-256 digits of `value`, least significant first. -/
def digits : Nat → Nat → Bytes
  | 0, _ => []
  | width + 1, value => UInt8.ofNat value :: digits width (value >>> 8)

/-- Read octets most significant first. -/
def fold (bytes : Bytes) : Nat :=
  bytes.foldl (fun acc octet => (acc <<< 8) ||| octet.toNat) 0

@[simp] theorem digits_length (width value : Nat) : (digits width value).length = width := by
  induction width generalizing value with
  | zero => rfl
  | succ width ih => simp [digits, ih]

/-- Shifting by an octet and or-ing one in is one step of radix-256 evaluation. -/
theorem shift_or_octet (acc : Nat) (octet : UInt8) :
    (acc <<< 8) ||| octet.toNat = acc * 256 + octet.toNat := by
  have h : octet.toNat < 2 ^ 8 := octet.toNat_lt
  rw [← Nat.shiftLeft_add_eq_or_of_lt h, Nat.shiftLeft_eq]

theorem fold_append_singleton (bytes : Bytes) (octet : UInt8) :
    fold (bytes ++ [octet]) = fold bytes * 256 + octet.toNat := by
  simp [fold, List.foldl_append, shift_or_octet]

/-- The digits, read most significant first, give the number reduced to the width. -/
theorem fold_reverse_digits (width value : Nat) :
    fold (digits width value).reverse = value % 256 ^ width := by
  induction width generalizing value with
  | zero => simp [digits, fold, Nat.mod_one]
  | succ width ih =>
    have hoctet : (UInt8.ofNat value).toNat = value % 256 := by simp
    have hshift : value >>> 8 = value / 256 := by simp [Nat.shiftRight_eq_div_pow]
    rw [digits, List.reverse_cons, fold_append_singleton, ih, hoctet, hshift,
      Nat.pow_succ, Nat.mul_comm (256 ^ width) 256, Nat.mod_mul]
    omega

/-- A number that fits the width is recovered from its digits. -/
theorem fold_reverse_digits_of_lt {width value : Nat} (h : value < 256 ^ width) :
    fold (digits width value).reverse = value := by
  rw [fold_reverse_digits, Nat.mod_eq_of_lt h]

/-- Octets are the digits of the number they are read as. -/
theorem digits_fold (bytes : Bytes) : digits bytes.length (fold bytes) = bytes.reverse := by
  induction bytes using List.reverseRecOn with
  | nil => rfl
  | append_singleton bytes octet ih =>
    have hoctet := octet.toNat_lt
    have hlow : UInt8.ofNat (fold bytes * 256 + octet.toNat) = octet := by
      apply UInt8.toNat_inj.mp
      rw [UInt8.toNat_ofNat']
      omega
    have hhigh : (fold bytes * 256 + octet.toNat) >>> 8 = fold bytes := by
      rw [Nat.shiftRight_eq_div_pow]
      omega
    rw [List.length_append, List.length_singleton, fold_append_singleton, digits, hlow, hhigh, ih,
      List.reverse_append, List.reverse_singleton, List.singleton_append]

/-- The number of octets is below the power of their count. -/
theorem fold_lt (bytes : Bytes) : fold bytes < 256 ^ bytes.length := by
  induction bytes using List.reverseRecOn with
  | nil => simp [fold]
  | append_singleton bytes octet ih =>
    have hoctet := octet.toNat_lt
    rw [List.length_append, List.length_singleton, fold_append_singleton, Nat.pow_succ]
    omega

/-- A leading octet other than zero makes the number as large as the octets allow. -/
theorem le_fold {first : UInt8} (hfirst : first ≠ 0) (rest : Bytes) :
    256 ^ rest.length ≤ fold (first :: rest) := by
  induction rest using List.reverseRecOn with
  | nil =>
    have hpositive : first.toNat ≠ 0 := fun h => hfirst (UInt8.toNat_inj.mp h)
    simp [fold]
    omega
  | append_singleton rest octet ih =>
    rw [← List.cons_append, fold_append_singleton, List.length_append, List.length_singleton,
      Nat.pow_succ]
    omega

/-- The most significant of at least two digits is nonzero when the number needs the width. -/
theorem digits_getLast_ne_zero {width value : Nat} (hwidth : 0 < width)
    (hlow : 256 ^ (width - 1) ≤ value) (hhigh : value < 256 ^ width) :
    (digits width value)[width - 1]? = some (UInt8.ofNat (value / 256 ^ (width - 1))) ∧
      (UInt8.ofNat (value / 256 ^ (width - 1))) ≠ 0 := by
  induction width generalizing value with
  | zero => omega
  | succ width ih =>
    cases width with
    | zero =>
      refine ⟨by simp [digits], ?_⟩
      intro hzero
      have := congrArg UInt8.toNat hzero
      simp at this hlow hhigh
      omega
    | succ width =>
      have hshift : value >>> 8 = value / 256 := by simp [Nat.shiftRight_eq_div_pow]
      have hdiv : value / 256 / 256 ^ width = value / 256 ^ (width + 1) := by
        rw [Nat.div_div_eq_div_mul, Nat.pow_succ, Nat.mul_comm]
      have hlow' : 256 ^ (width + 1 - 1) ≤ value >>> 8 := by
        rw [hshift, Nat.le_div_iff_mul_le (by norm_num)]
        simpa [Nat.pow_succ] using hlow
      have hhigh' : value >>> 8 < 256 ^ (width + 1) := by
        rw [hshift, Nat.div_lt_iff_lt_mul (by norm_num)]
        simpa [Nat.pow_succ] using hhigh
      have key := ih (Nat.succ_pos _) hlow' hhigh'
      simp only [hshift, Nat.add_sub_cancel, hdiv] at key
      refine ⟨?_, by simpa using key.2⟩
      simpa [digits, hshift] using key.1

/-- Store `source` into `buffer` from `offset` on. -/
def store (buffer : Bytes) (offset : Nat) (source : Bytes) : Bytes :=
  buffer.take offset ++ source ++ buffer.drop (offset + source.length)

/-- A store inside the buffer keeps its extent. -/
theorem store_length {buffer source : Bytes} {offset : Nat}
    (h : offset + source.length ≤ buffer.length) :
    (store buffer offset source).length = buffer.length := by
  simp [store, List.length_take, List.length_drop]
  omega

/-- Consecutive stores leave the concatenation of what they stored. -/
theorem take_store {buffer first second : Bytes} {offset : Nat}
    (hstart : buffer.take offset = first) (hoffset : first.length = offset) :
    (store buffer offset second).take (offset + second.length) = first ++ second := by
  have hlen : (first ++ second).length = offset + second.length := by simp [hoffset]
  rw [store, hstart, ← hlen, List.take_left']
  rfl

/-- What stands from the offset of a store on. -/
theorem drop_store {buffer source : Bytes} {offset : Nat} (h : offset ≤ buffer.length) :
    (store buffer offset source).drop offset =
      source ++ buffer.drop (offset + source.length) := by
  have hlen : (buffer.take offset).length = offset := by simp [h]
  rw [store, List.append_assoc, List.drop_left' hlen]

/-- A store in front of an earlier one joins what the two stored. -/
theorem take_store_front {buffer first second : Bytes}
    (h : first.length + second.length ≤ buffer.length) :
    (store (store buffer first.length second) 0 first).take (first.length + second.length) =
      first ++ second := by
  have hdrop := @drop_store buffer second first.length (by omega)
  have hlen : (first ++ second).length = first.length + second.length := by simp
  rw [store, List.take_zero, List.nil_append, Nat.zero_add, hdrop, ← List.append_assoc,
    List.take_left' hlen]

end Octets

end OpenTlv
