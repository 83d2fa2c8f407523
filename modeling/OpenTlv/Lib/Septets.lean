import OpenTlv.Lib.Octets

/-!
# Radix-128 numerals with continuation bits

A number as octets of seven bits, most significant first, with the top bit set in all octets but
the last. `octets` is the shortest numeral, and `groups` are its digits from the least significant
one on.
-/

namespace OpenTlv

namespace Septets

/-- The octets in front of the last one: digits with the top bit, none of them for zero. -/
def high (number : Nat) : Bytes :=
  if number = 0 then [] else high (number / 128) ++ [UInt8.ofNat (128 + number % 128)]
termination_by number
decreasing_by omega

/-- The shortest numeral of a number. -/
def octets (number : Nat) : Bytes :=
  high (number / 128) ++ [UInt8.ofNat (number % 128)]

/-- The digits of a number, least significant first. There is at least one. -/
def groups (number : Nat) : List Nat :=
  number % 128 :: if number / 128 = 0 then [] else groups (number / 128)
termination_by number
decreasing_by omega

theorem high_zero : high 0 = [] := by
  rw [high, if_pos rfl]

theorem high_of_ne_zero {number : Nat} (h : number ≠ 0) :
    high number = high (number / 128) ++ [UInt8.ofNat (128 + number % 128)] := by
  rw [high, if_neg h]

/-- One more digit below a number. -/
theorem high_push {number low : Nat} (hlow : low < 128) (h : number * 128 + low ≠ 0) :
    high (number * 128 + low) = high number ++ [UInt8.ofNat (128 + low)] := by
  rw [high_of_ne_zero h, show (number * 128 + low) / 128 = number by omega,
    show (number * 128 + low) % 128 = low by omega]

/-- The last group follows the flagged ones. -/
theorem octets_push {number low : Nat} (hlow : low < 128) :
    octets (number * 128 + low) = high number ++ [UInt8.ofNat low] := by
  unfold octets
  rw [show (number * 128 + low) / 128 = number by omega,
    show (number * 128 + low) % 128 = low by omega]

theorem groups_ne_nil (number : Nat) : groups number ≠ [] := by
  rw [groups]
  exact List.cons_ne_nil _ _

theorem groups_lt (number : Nat) : ∀ group ∈ groups number, group < 128 := by
  induction number using Nat.strongRecOn with
  | ind number ih =>
    intro group hgroup
    rw [groups] at hgroup
    obtain rfl | hgroup := List.mem_cons.mp hgroup
    · exact Nat.mod_lt _ (by norm_num)
    split at hgroup
    · cases hgroup
    next hhigh => exact ih (number / 128) (by omega) group hgroup

/-- A bound of the number bounds the digits. -/
theorem groups_length_le {number count : Nat} (hcount : 0 < count) (h : number < 128 ^ count) :
    (groups number).length ≤ count := by
  induction count generalizing number with
  | zero => omega
  | succ count ih =>
    rw [groups, List.length_cons]
    split
    · exact hcount
    next hhigh =>
      have hpower : number < 128 ^ count * 128 := by rwa [← Nat.pow_succ]
      have hdiv : number / 128 < 128 ^ count := (Nat.div_lt_iff_lt_mul (by norm_num)).mpr hpower
      have hpositive : 0 < count := by
        by_contra hzero
        rw [show count = 0 by omega] at hdiv
        omega
      exact Nat.succ_le_succ (ih hpositive hdiv)

/-- The octets in front are the digits, most significant first. -/
theorem high_eq_groups {number : Nat} (h : number ≠ 0) :
    high number = (groups number).reverse.map fun group => UInt8.ofNat (128 + group) := by
  induction number using Nat.strongRecOn with
  | ind number ih =>
    rw [high_of_ne_zero h, groups, List.reverse_cons, List.map_append]
    by_cases hhigh : number / 128 = 0
    · rw [if_pos hhigh, hhigh, high_zero]
      rfl
    · rw [if_neg hhigh, ih (number / 128) (by omega) hhigh]
      rfl

/-- The numeral are the digits, most significant first, all but the last with the top bit. -/
theorem octets_eq_groups (number : Nat) :
    octets number = ((groups number).tail.reverse.map fun group => UInt8.ofNat (128 + group)) ++
      [UInt8.ofNat (number % 128)] := by
  unfold octets
  congr 1
  rw [groups, List.tail_cons]
  by_cases hhigh : number / 128 = 0
  · rw [if_pos hhigh, hhigh, high_zero]
    rfl
  · rw [if_neg hhigh, high_eq_groups hhigh]

theorem octets_length (number : Nat) : (octets number).length = (groups number).length := by
  have hpositive := List.length_pos_of_ne_nil (groups_ne_nil number)
  rw [octets_eq_groups, List.length_append, List.length_map, List.length_reverse,
    List.length_tail, List.length_singleton]
  omega

/-- Every octet of the numeral is a digit, from the last one backwards. -/
theorem octets_getElem? {number i : Nat} (h : i < (groups number).length) :
    (octets number)[i]? = (groups number)[(groups number).length - 1 - i]?.map fun group =>
      if i + 1 < (groups number).length then UInt8.ofNat (128 + group) else UInt8.ofNat group := by
  have hcons : groups number = number % 128 :: (groups number).tail := by
    conv_rhs => rw [groups, List.tail_cons]
    rw [groups]
  have hlength : (groups number).length = (groups number).tail.length + 1 := by
    conv_lhs => rw [hcons, List.length_cons]
  rw [octets_eq_groups]
  by_cases hfront : i + 1 < (groups number).length
  · have hindex : (groups number).length - 1 - i =
        (groups number).tail.length - 1 - i + 1 := by omega
    have htail : (groups number)[(groups number).tail.length - 1 - i + 1]? =
        (groups number).tail[(groups number).tail.length - 1 - i]? :=
      List.getElem?_tail.symm
    rw [List.getElem?_append_left (by rw [List.length_map, List.length_reverse]; omega),
      List.getElem?_map, List.getElem?_reverse (by omega), hindex, htail]
    simp only [if_pos hfront]
  · have hindex : (groups number).length - 1 - i = 0 := by omega
    have hhead : (groups number)[0]? = some (number % 128) := by
      conv_lhs => rw [hcons, List.getElem?_cons_zero]
    rw [List.getElem?_append_right (by rw [List.length_map, List.length_reverse]; omega),
      List.length_map, List.length_reverse, show i - (groups number).tail.length = 0 by omega,
      hindex, hhead]
    simp only [if_neg hfront]
    rfl

/-! ## Single octets -/

/-- The high bit flags a group and the others carry it. -/
theorem continuation_iff : ∀ octet : Fin 256,
    (UInt8.ofNat octet.val &&& 0x80 = 0 ↔ octet.val < 128) ∧
      (UInt8.ofNat octet.val &&& 0x7F).toNat = octet.val % 128 ∧
        (octet.val < 128 → UInt8.ofNat octet.val ||| 0x80 = UInt8.ofNat (128 + octet.val) ∧
          UInt8.ofNat octet.val ||| 0x00 = UInt8.ofNat octet.val) := by
  decide +kernel

/-- An octet ends a numeral when its top bit is clear. -/
theorem last_iff (octet : UInt8) : octet &&& 0x80 = 0 ↔ octet.toNat < 128 := by
  have h := (continuation_iff ⟨octet.toNat, octet.toNat_lt⟩).1
  rwa [UInt8.ofNat_toNat] at h

theorem payload_eq (octet : UInt8) : (octet &&& 0x7F).toNat = octet.toNat % 128 := by
  have h := (continuation_iff ⟨octet.toNat, octet.toNat_lt⟩).2.1
  rwa [UInt8.ofNat_toNat] at h

theorem flagged_group {group : Nat} (h : group < 128) :
    UInt8.ofNat group ||| 0x80 = UInt8.ofNat (128 + group) ∧
      UInt8.ofNat group ||| 0x00 = UInt8.ofNat group :=
  (continuation_iff ⟨group, by omega⟩).2.2 h

theorem high_octet_toNat {group : Nat} (h : group < 128) :
    (UInt8.ofNat (128 + group)).toNat = 128 + group := by
  rw [UInt8.toNat_ofNat']
  omega

theorem low_octet_toNat {group : Nat} (h : group < 128) : (UInt8.ofNat group).toNat = group := by
  rw [UInt8.toNat_ofNat']
  omega

/-! ## Reading -/

/-- The number that the low bits of octets add to the digits `start` in front of them. -/
def value (data : Bytes) (start : Nat) : Nat :=
  data.foldl (fun number octet => number * 128 + octet.toNat % 128) start

theorem value_append (front back : Bytes) (start : Nat) :
    value (front ++ back) start = value back (value front start) :=
  List.foldl_append

theorem value_push (front : Bytes) (octet : UInt8) (start : Nat) :
    value (front ++ [octet]) start = value front start * 128 + octet.toNat % 128 :=
  value_append front [octet] start

/-- The flagged groups carry the number. -/
theorem value_high (number : Nat) : value (high number) 0 = number := by
  induction number using Nat.strongRecOn with
  | ind number ih =>
    by_cases hzero : number = 0
    · rw [hzero, high_zero]
      rfl
    · rw [high_of_ne_zero hzero, value_push, ih _ (by omega),
        high_octet_toNat (Nat.mod_lt _ (by norm_num))]
      omega

/-- The numeral of a number is read as the number. -/
theorem value_octets (number : Nat) : value (octets number) 0 = number := by
  unfold octets
  rw [value_push, value_high, low_octet_toNat (Nat.mod_lt _ (by norm_num))]
  omega

/-- A longer numeral that starts with a digit other than zero has a larger value. -/
theorem value_ge (data : Bytes) (start : Nat) : start * 128 ^ data.length ≤ value data start := by
  induction data generalizing start with
  | nil =>
    show start * 128 ^ 0 ≤ start
    omega
  | cons octet rest ih =>
    calc start * 128 ^ (rest.length + 1)
        = start * 128 * 128 ^ rest.length := by rw [Nat.pow_succ]; ring
      _ ≤ (start * 128 + octet.toNat % 128) * 128 ^ rest.length :=
          Nat.mul_le_mul_right _ (Nat.le_add_right _ _)
      _ ≤ value (octet :: rest) start := ih _

theorem value_pos {first : UInt8} {rest : Bytes} (h : first.toNat % 128 ≠ 0) :
    value (first :: rest) 0 ≠ 0 := by
  have hle := value_ge rest (0 * 128 + first.toNat % 128)
  have hpositive : 0 < (0 * 128 + first.toNat % 128) * 128 ^ rest.length :=
    Nat.mul_pos (by omega) (by positivity)
  show value rest (0 * 128 + first.toNat % 128) ≠ 0
  omega

/-- Octets with the top bit that start with a digit other than zero are the ones in front of the
numeral of their value. -/
theorem high_of_value {front : Bytes} (hflags : ∀ octet ∈ front, 128 ≤ octet.toNat)
    (hlead : ∀ first, front.head? = some first → first.toNat % 128 ≠ 0) :
    high (value front 0) = front := by
  induction front using List.reverseRecOn with
  | nil => exact high_zero
  | append_singleton front octet ih =>
    have hflag := hflags octet (by simp)
    have hoctet : UInt8.ofNat (128 + octet.toNat % 128) = octet := by
      have := octet.toNat_lt
      rw [show 128 + octet.toNat % 128 = octet.toNat by omega, UInt8.ofNat_toNat]
    have hnonzero : value front 0 * 128 + octet.toNat % 128 ≠ 0 := by
      cases front with
      | nil =>
        have := hlead octet rfl
        omega
      | cons first rest =>
        have := @value_pos first rest (hlead first rfl)
        omega
    rw [value_push, high_push (Nat.mod_lt _ (by norm_num)) hnonzero, hoctet,
      ih (fun other hother => hflags other (by simp [hother])) fun first hfirst => by
        cases front with
        | nil => cases hfirst
        | cons other rest => exact hlead first hfirst]

/-- A numeral without a leading zero is the shortest one of its value. -/
theorem octets_of_value {front : Bytes} {last : UInt8}
    (hflags : ∀ octet ∈ front, 128 ≤ octet.toNat) (hlast : last.toNat < 128)
    (hlead : ∀ first, front.head? = some first → first.toNat % 128 ≠ 0) :
    octets (value (front ++ [last]) 0) = front ++ [last] := by
  rw [value_push, octets_push (Nat.mod_lt _ (by norm_num)), high_of_value hflags hlead,
    Nat.mod_eq_of_lt hlast, UInt8.ofNat_toNat]

end Septets

end OpenTlv
