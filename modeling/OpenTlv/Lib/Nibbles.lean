import OpenTlv.Lib.Octets

/-!
# Octets as pairs of nibbles

The nibbles of octets, the high one of every octet first, and the octets packed from nibbles. The
two are inverse to each other on an even number of nibbles.
-/

namespace OpenTlv

namespace Nibbles

/-- The nibbles of octets. -/
def unpack (data : Bytes) : List Nat :=
  data.flatMap fun octet => [octet.toNat / 16, octet.toNat % 16]

/-- The octets of nibbles; a last single nibble is dropped. -/
def pack : List Nat → Bytes
  | high :: low :: rest => UInt8.ofNat (high * 16 + low) :: pack rest
  | _ => []

@[simp] theorem unpack_nil : unpack [] = [] := rfl

@[simp] theorem unpack_cons (octet : UInt8) (data : Bytes) :
    unpack (octet :: data) = octet.toNat / 16 :: octet.toNat % 16 :: unpack data := rfl

@[simp] theorem unpack_length (data : Bytes) : (unpack data).length = 2 * data.length := by
  induction data with
  | nil => rfl
  | cons octet data ih =>
    simp only [unpack_cons, List.length_cons, ih]
    omega

@[simp] theorem pack_length (nibbles : List Nat) : (pack nibbles).length = nibbles.length / 2 := by
  induction nibbles using pack.induct with
  | case1 high low rest ih =>
    simp only [pack, List.length_cons, ih]
    omega
  | case2 nibbles h =>
    match nibbles with
    | [] => rfl
    | [_] => simp [pack]
    | high :: low :: rest => exact absurd rfl (h high low rest)

/-- Every nibble is one of sixteen values. -/
theorem unpack_lt (data : Bytes) : ∀ nibble ∈ unpack data, nibble < 16 := by
  induction data with
  | nil => simp
  | cons octet data ih =>
    have hoctet := octet.toNat_lt
    intro nibble h
    simp only [unpack_cons, List.mem_cons] at h
    obtain rfl | rfl | h := h
    · omega
    · omega
    · exact ih nibble h

/-- Packing the nibbles of octets gives the octets back. -/
theorem pack_unpack (data : Bytes) : pack (unpack data) = data := by
  induction data with
  | nil => rfl
  | cons octet data ih =>
    have hoctet : UInt8.ofNat (octet.toNat / 16 * 16 + octet.toNat % 16) = octet := by
      rw [Nat.div_add_mod', UInt8.ofNat_toNat]
    rw [unpack_cons, pack, hoctet, ih]

/-- Unpacking an even number of nibbles gives them back. -/
theorem unpack_pack {nibbles : List Nat} (heven : nibbles.length % 2 = 0)
    (hlt : ∀ nibble ∈ nibbles, nibble < 16) : unpack (pack nibbles) = nibbles := by
  induction nibbles using pack.induct with
  | case1 high low rest ih =>
    have hhigh := hlt high (by simp)
    have hlow := hlt low (by simp)
    have hoctet : (UInt8.ofNat (high * 16 + low)).toNat = high * 16 + low := by
      rw [UInt8.toNat_ofNat']
      omega
    have hrest := ih (by simp only [List.length_cons] at heven; omega)
      (fun nibble h => hlt nibble (by simp [h]))
    rw [pack, unpack_cons, hoctet, hrest]
    congr 1
    · omega
    · congr 1
      omega
  | case2 nibbles h =>
    match nibbles with
    | [] => rfl
    | [_] => simp at heven
    | high :: low :: rest => exact absurd rfl (h high low rest)

/-- The nibble at a position stands in the octet at half the position. -/
theorem unpack_getElem? (data : Bytes) (index : Nat) :
    (unpack data)[index]? = data[index / 2]?.map fun octet =>
      if index % 2 = 0 then octet.toNat / 16 else octet.toNat % 16 := by
  induction data generalizing index with
  | nil => simp
  | cons octet data ih =>
    match index with
    | 0 => rfl
    | 1 => rfl
    | index + 2 =>
      have hdiv : (index + 2) / 2 = index / 2 + 1 := by omega
      have hmod : (index + 2) % 2 = index % 2 := by omega
      rw [unpack_cons, List.getElem?_cons_succ, List.getElem?_cons_succ, ih, hdiv, hmod,
        List.getElem?_cons_succ]

/-- Packing splits after an even number of nibbles. -/
theorem pack_append {front : List Nat} (rest : List Nat) (heven : front.length % 2 = 0) :
    pack (front ++ rest) = pack front ++ pack rest := by
  induction front using pack.induct with
  | case1 high low front ih =>
    have hfront := ih (by simp only [List.length_cons] at heven; omega)
    simp only [List.cons_append, pack, hfront]
  | case2 nibbles h =>
    match nibbles with
    | [] => rfl
    | [_] => simp at heven
    | high :: low :: front => exact absurd rfl (h high low front)

end Nibbles

end OpenTlv
