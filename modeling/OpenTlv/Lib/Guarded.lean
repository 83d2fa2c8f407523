import OpenTlv.Lib.Octets

/-!
# Programs over bounded storage

Reads from an input and stores into a buffer as operations of a program that stops either with
a code of its own or with a `fault`, an access outside an extent. A program that never stops
with a fault stays inside its storage. The reading lemmas take an input apart from the front,
and the storing lemmas fill a buffer from the front.
-/

namespace OpenTlv

/-- How a program over bounded storage stops. -/
inductive Stop (ε : Type) where
  | code (status : ε)
  | fault
  deriving Repr, DecidableEq

namespace Guarded

variable {ε : Type}

/-- Read one octet. -/
def octet (data : Bytes) (index : Nat) : Except (Stop ε) UInt8 :=
  match data[index]? with
  | some value => .ok value
  | none => .error .fault

/-- Read `count` octets from `offset` on. -/
def slice (data : Bytes) (offset count : Nat) : Except (Stop ε) Bytes :=
  if offset + count ≤ data.length then .ok ((data.drop offset).take count)
  else .error .fault

/-- Store octets from `offset` on. -/
def put (buffer : Bytes) (offset : Nat) (source : Bytes) : Except (Stop ε) Bytes :=
  if offset + source.length ≤ buffer.length then .ok (Octets.store buffer offset source)
  else .error .fault

/-- Read one item of an array. -/
def item {α : Type} {n : Nat} (items : Vector α n) (index : Nat) : Except (Stop ε) α :=
  if h : index < n then .ok items[index] else .error .fault

/-- Assign one item of an array. -/
def assign {α : Type} {n : Nat} (items : Vector α n) (index : Nat) (value : α) :
    Except (Stop ε) (Vector α n) :=
  if h : index < n then .ok (items.set index value) else .error .fault

/-- An item inside of an array. -/
theorem item_of_lt {α : Type} {n index : Nat} {items : Vector α n} {value : α}
    (h : items.toList[index]? = some value) : (item items index : Except (Stop ε) α) = .ok value := by
  obtain ⟨hindex, hvalue⟩ := List.getElem?_eq_some_iff.mp h
  have hlt : index < n := by simpa using hindex
  unfold item
  rw [dif_pos hlt, ← hvalue, Vector.getElem_toList]

/-- Items assigned one behind the other. -/
theorem assign_next {α : Type} {n index : Nat} (items : Vector α n) (value : α)
    (h : index < n) : ∃ items', (assign items index value : Except (Stop ε) (Vector α n)) =
      .ok items' ∧ items'.toList.take (index + 1) = items.toList.take index ++ [value] ∧
      items'.toList.drop (index + 1) = items.toList.drop (index + 1) := by
  refine ⟨items.set index value, dif_pos h, ?_, ?_⟩
  · have hlength : index < (items.toList.set index value).length := by simpa using h
    rw [Vector.toList_set, List.take_succ_eq_append_getElem hlength,
      List.take_set_of_le (le_refl _), List.getElem_set_self]
  · rw [Vector.toList_set, List.drop_set_of_lt (Nat.lt_succ_self index)]

/-- An octet inside of the data. -/
theorem octet_of_lt {data : Bytes} {index : Nat} (h : index < data.length) :
    (octet data index : Except (Stop ε) UInt8) = .ok data[index] := by
  unfold octet
  rw [List.getElem?_eq_getElem h]

/-- A read inside the octets is no fault. -/
theorem octet_ne_fault {data : Bytes} {index : Nat} (h : index < data.length) :
    (octet data index : Except (Stop ε) UInt8) ≠ .error .fault := by
  rw [octet_of_lt h]
  exact fun h => by cases h

/-- A write inside the vector is no fault. -/
theorem assign_ne_fault {α : Type} {n index : Nat} (items : Vector α n) (value : α)
    (h : index < n) : (assign items index value : Except (Stop ε) (Vector α n)) ≠
      .error .fault := by
  unfold assign
  rw [dif_pos h]
  exact fun h => by cases h

/-- Steps one behind the other have no fault where none of them has one. -/
theorem bind_ne_fault {α β : Type} {x : Except (Stop ε) α} {f : α → Except (Stop ε) β}
    (hx : x ≠ .error .fault) (hf : ∀ a, x = .ok a → f a ≠ .error .fault) :
    (x >>= f) ≠ .error .fault := by
  cases x with
  | error stop => exact fun h => hx (congrArg Except.error (Except.error.inj h))
  | ok a => exact hf a rfl

/-- An octet behind a known front. -/
theorem octet_behind (front : Bytes) (value : UInt8) (rest : Bytes) {index : Nat}
    (hindex : front.length = index) :
    (octet (front ++ value :: rest) index : Except (Stop ε) UInt8) = .ok value := by
  unfold octet
  rw [← hindex, List.getElem?_append_right (Nat.le_refl _), Nat.sub_self]
  rfl

/-- A part behind a known front. -/
theorem slice_behind (front part rest : Bytes) {offset count : Nat}
    (hoffset : front.length = offset) (hcount : part.length = count) :
    (slice (front ++ (part ++ rest)) offset count : Except (Stop ε) Bytes) = .ok part := by
  have hextent : offset + count ≤ (front ++ (part ++ rest)).length := by
    simp only [List.length_append]
    omega
  unfold slice
  rw [if_pos hextent, List.drop_left' hoffset, List.take_left' hcount]

/-- The last part behind a known front. -/
theorem slice_rest (front part : Bytes) {offset count : Nat}
    (hoffset : front.length = offset) (hcount : part.length = count) :
    (slice (front ++ part) offset count : Except (Stop ε) Bytes) = .ok part := by
  have h := @slice_behind ε front part [] offset count hoffset hcount
  rwa [List.append_nil] at h

/-- A store inside the buffer. -/
theorem put_of_le {buffer source : Bytes} {offset : Nat}
    (h : offset + source.length ≤ buffer.length) :
    (put buffer offset source : Except (Stop ε) Bytes) =
      .ok (Octets.store buffer offset source) :=
  if_pos h

/-- A buffer with a front stored over what it held before. -/
theorem store_front (buffer front : Bytes) :
    Octets.store buffer 0 front = front ++ buffer.drop front.length := by
  unfold Octets.store
  rw [List.take_zero, List.nil_append, Nat.zero_add]

/-- Filling starts with nothing stored. -/
theorem store_nil (buffer : Bytes) : Octets.store buffer 0 [] = buffer :=
  store_front buffer []

/-- Storing nothing changes nothing. -/
theorem store_empty (buffer : Bytes) (offset : Nat) : Octets.store buffer offset [] = buffer := by
  unfold Octets.store
  rw [List.append_nil, List.length_nil, Nat.add_zero, List.take_append_drop]

/-- A store right behind another one joins the two. -/
theorem store_after {buffer first second : Bytes} {offset : Nat}
    (hroom : offset ≤ buffer.length) :
    Octets.store (Octets.store buffer offset first) (offset + first.length) second =
      Octets.store buffer offset (first ++ second) := by
  have hfront : (buffer.take offset ++ first).length = offset + first.length := by
    rw [List.length_append, List.length_take, Nat.min_eq_left hroom]
  have hdrop : (buffer.take offset ++ first ++ buffer.drop (offset + first.length)).drop
      (offset + first.length + second.length) =
      buffer.drop (offset + (first ++ second).length) := by
    rw [← hfront, ← List.drop_drop, List.drop_left' rfl, List.drop_drop, hfront,
      List.length_append, Nat.add_assoc]
  unfold Octets.store
  rw [hdrop, List.take_left' hfront]
  simp only [List.append_assoc]

/-- A store right before another one joins the two. -/
theorem store_before {buffer first second : Bytes} {offset : Nat}
    (hroom : offset + first.length ≤ buffer.length) :
    Octets.store (Octets.store buffer (offset + first.length) second) offset first =
      Octets.store buffer offset (first ++ second) := by
  have htake : (Octets.store buffer (offset + first.length) second).take offset =
      buffer.take offset := by
    have hlength : offset ≤ (buffer.take (offset + first.length)).length := by
      rw [List.length_take, Nat.min_eq_left hroom]
      omega
    unfold Octets.store
    rw [List.append_assoc, List.take_append_of_le_length hlength, List.take_take,
      Nat.min_eq_left (by omega)]
  have hdrop := @Octets.drop_store buffer second _ hroom
  have hjoin : Octets.store (Octets.store buffer (offset + first.length) second) offset first =
      buffer.take offset ++ first ++
        (second ++ buffer.drop (offset + first.length + second.length)) := by
    rw [← htake, ← hdrop]
    rfl
  rw [hjoin]
  unfold Octets.store
  rw [List.length_append, Nat.add_assoc]
  simp only [List.append_assoc]

/-- A store right behind another one, from any offset on. -/
theorem put_after {buffer front source : Bytes} {offset next : Nat}
    (hnext : next = offset + front.length)
    (hroom : next + source.length ≤ buffer.length) :
    (put (Octets.store buffer offset front) next source : Except (Stop ε) Bytes) =
      .ok (Octets.store buffer offset (front ++ source)) := by
  have hextent : next + source.length ≤ (Octets.store buffer offset front).length := by
    rw [Octets.store_length (by omega)]
    exact hroom
  rw [put_of_le hextent, hnext, store_after (by omega)]

/-- A store behind a stored front extends the front. -/
theorem put_store {buffer front source : Bytes} {offset : Nat} (hoffset : front.length = offset)
    (hroom : offset + source.length ≤ buffer.length) :
    (put (Octets.store buffer 0 front) offset source : Except (Stop ε) Bytes) =
      .ok (Octets.store buffer 0 (front ++ source)) :=
  put_after (by omega) hroom

/-- A front stored over a buffer behind which the rest stands already. -/
theorem store_behind {buffer front source : Bytes} {offset : Nat} (hoffset : front.length = offset)
    (hroom : offset ≤ buffer.length) :
    Octets.store (Octets.store buffer offset source) 0 front =
      Octets.store buffer 0 (front ++ source) := by
  have hbefore := @store_before buffer front source 0 (by omega)
  rwa [Nat.zero_add, hoffset] at hbefore

/-- The first store of a filling. -/
theorem put_first {buffer source : Bytes} (hroom : source.length ≤ buffer.length) :
    (put buffer 0 source : Except (Stop ε) Bytes) = .ok (Octets.store buffer 0 source) :=
  put_of_le (by omega)

/-- A stored front is read back. -/
theorem slice_store {buffer front : Bytes} :
    (slice (Octets.store buffer 0 front) 0 front.length : Except (Stop ε) Bytes) =
      .ok front := by
  rw [store_front]
  exact slice_behind [] front _ rfl rfl

end Guarded

end OpenTlv
