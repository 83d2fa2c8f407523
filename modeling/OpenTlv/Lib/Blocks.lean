import OpenTlv.Lib.Octets

/-!
# Buffers cut into blocks

A buffer whose storage is used as blocks of one size behind each other. A store inside of a block is
a store to its content and leaves the other blocks alone.
-/

namespace OpenTlv.Octets

/-- The octets of block `k`. -/
def block (size : Nat) (buffer : Bytes) (k : Nat) : Bytes :=
  (buffer.drop (k * size)).take size

variable {size k j offset : Nat} {buffer source : Bytes}

/-- A block that ends inside of the buffer is complete. -/
theorem block_length (h : (k + 1) * size ≤ buffer.length) :
    (block size buffer k).length = size := by
  rw [Nat.succ_mul] at h
  unfold block
  rw [List.length_take, List.length_drop]
  omega

theorem block_getElem? (i : Nat) :
    (block size buffer k)[i]? = if i < size then buffer[k * size + i]? else none := by
  unfold block
  rw [List.getElem?_take, List.getElem?_drop]

/-- A store changes exactly the octets it covers. -/
theorem store_getElem? (h : offset + source.length ≤ buffer.length) (i : Nat) :
    (store buffer offset source)[i]? =
      if i < offset then buffer[i]?
      else if i < offset + source.length then source[i - offset]? else buffer[i]? := by
  have hfront : (buffer.take offset).length = offset := by
    rw [List.length_take]
    omega
  unfold store
  rw [List.append_assoc, List.getElem?_append, hfront]
  split
  next hlt => rw [List.getElem?_take, if_pos hlt]
  next hge =>
    rw [List.getElem?_append]
    split
    next hin => rw [if_pos (by omega)]
    next hout =>
      rw [if_neg (by omega), List.getElem?_drop]
      congr 1
      omega

/-- A store inside of a block is a store to its content. -/
theorem block_store (hblock : (k + 1) * size ≤ buffer.length)
    (hroom : offset + source.length ≤ size) :
    block size (store buffer (k * size + offset) source) k =
      store (block size buffer k) offset source := by
  have hlength := block_length hblock
  rw [Nat.succ_mul] at hblock
  refine List.ext_getElem? fun i => ?_
  rw [block_getElem?, store_getElem? (by omega), store_getElem? (by omega), block_getElem?]
  split
  next hlt =>
    by_cases hbefore : i < offset
    · rw [if_pos (by omega), if_pos hbefore]
    · rw [if_neg (by omega), if_neg hbefore]
      by_cases hin : i < offset + source.length
      · rw [if_pos (by omega), if_pos hin]
        congr 1
        omega
      · rw [if_neg (by omega), if_neg hin]
  next hge =>
    rw [if_neg (by omega), if_neg (by omega)]

/-- A store inside of a block leaves the others. -/
theorem block_store_ne (hne : j ≠ k) (hblock : (k + 1) * size ≤ buffer.length)
    (hroom : offset + source.length ≤ size) :
    block size (store buffer (k * size + offset) source) j = block size buffer j := by
  rw [Nat.succ_mul] at hblock
  refine List.ext_getElem? fun i => ?_
  rw [block_getElem?, block_getElem?, store_getElem? (by omega)]
  split
  next hlt =>
    rcases Nat.lt_or_gt_of_ne hne with hbefore | hbehind
    · have hend := Nat.mul_le_mul_right size hbefore
      rw [Nat.succ_mul] at hend
      rw [if_pos (by omega)]
    · have hend := Nat.mul_le_mul_right size hbehind
      rw [Nat.succ_mul] at hend
      rw [if_neg (by omega), if_neg (by omega)]
  next => rfl

end OpenTlv.Octets
