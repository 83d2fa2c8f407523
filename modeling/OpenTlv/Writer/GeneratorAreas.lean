import OpenTlv.Lib.Blocks
import OpenTlv.Writer.Generator
import OpenTlv.Writer.Staging

/-!
# The areas of the generator

The generator reads and stores in the output and in the slices of its workspace. Every operation on
an area leaves the other areas alone, and an encoding in an area stays behind what the area holds in
front of it.
-/

namespace OpenTlv

/-- `bytes` is an encoding of a tag and a value, and for an exact format it is what every
destination with room gets. -/
structure Reencodes (format : Format) (tag value bytes : Bytes) : Prop where
  encodes : Encodes format tag value bytes
  exactly : format.Exact → ∀ element : Element, element.tag = tag → element.value = value →
    ∀ destination : Bytes, bytes.length ≤ destination.length → ∃ stored,
      formatEncode format element destination = .ok (stored, bytes.length) ∧
        stored.take bytes.length = bytes

theorem reencodes_of_encode {format : Format} {element : Element} {destination stored : Bytes}
    {used : Nat} (h : formatEncode format element destination = .ok (stored, used))
    (hwidth : (stored.take used).length = used) :
    Reencodes format element.tag element.value (stored.take used) := by
  obtain ⟨encode, sizes, -, hmeasure, rfl, hroom, -⟩ := format_encode_eq_ok h
  refine ⟨⟨element, destination, stored, rfl, rfl, ?_, ?_⟩, fun hexact other htag hvalue => ?_⟩
  · rw [hwidth]
    exact h
  · rw [hwidth]
  · obtain rfl : other = element := by
      cases other
      cases element
      dsimp only at htag hvalue
      subst htag hvalue
      rfl
    have hnative : sizes.total ≤ sizeMax := by
      unfold formatEncode at h
      rw [hmeasure] at h
      dsimp only at h
      cases hsize : sizeToNative sizes.total with
      | error status =>
        rw [hsize] at h
        cases h
      | ok total =>
        unfold sizeToNative at hsize
        split at hsize
        · cases hsize
        · omega
    obtain ⟨bytes, -, hall⟩ := hexact other sizes hmeasure hnative
    obtain ⟨again, hagain, htake⟩ := hall destination hroom
    rw [h] at hagain
    cases hagain
    rw [hwidth, htake]
    exact hall

namespace Generator

/-- The blocks of a generator have the extents that the options call for. -/
structure Sized (o : GeneratorOptions) (g : Generator) : Prop where
  data : g.data.length = o.maxCaseSize
  workspace : g.workspace.length = (o.maxDepth + 1) * o.maxCaseSize

/-- The octets of an area. -/
def area (o : GeneratorOptions) (g : Generator) : Nat → Bytes
  | 0 => g.data
  | depth + 1 => Octets.block o.maxCaseSize g.workspace depth

/-- A run that makes no access outside of the areas, and what it leads to. -/
abbrev Sound {α : Type} (op : Generating α) (g : Generator) (good : α → Generator → Prop) : Prop :=
  InPlace.Leads op g (fun stop _ => stop ≠ .fault) good

/-- Only one area and the random number change. -/
structure Changes (o : GeneratorOptions) (a : Nat) (g g' : Generator) : Prop where
  sized : g'.Sized o
  others : ∀ b, b ≠ a → g'.area o b = g.area o b
  remaining : g'.remaining = g.remaining
  attempts : g'.attempts = g.attempts

variable {o : GeneratorOptions} {g g' g'' : Generator} {a offset count : Nat} {bytes : Bytes}

theorem Changes.refl (hs : g.Sized o) : g.Changes o a g :=
  ⟨hs, fun _ _ => rfl, rfl, rfl⟩

theorem Changes.trans (h : g.Changes o a g') (h' : g'.Changes o a g'') : g.Changes o a g'' :=
  ⟨h'.sized, fun b hb => (h'.others b hb).trans (h.others b hb), h'.remaining.trans h.remaining,
    h'.attempts.trans h.attempts⟩

theorem block_inside (hs : g.Sized o) {depth : Nat} (ha : depth ≤ o.maxDepth) :
    (depth + 1) * o.maxCaseSize ≤ g.workspace.length := by
  rw [hs.workspace]
  exact Nat.mul_le_mul_right _ (Nat.succ_le_succ ha)

theorem area_length (hs : g.Sized o) (ha : a ≤ o.maxDepth + 1) :
    (g.area o a).length = o.maxCaseSize := by
  cases a with
  | zero => exact hs.data
  | succ depth => exact Octets.block_length (block_inside hs (Nat.le_of_succ_le_succ ha))

theorem area_congr (a : Nat) (hdata : g'.data = g.data) (hworkspace : g'.workspace = g.workspace) :
    g'.area o a = g.area o a := by
  cases a with
  | zero => exact hdata
  | succ depth =>
    unfold area
    rw [hworkspace]

theorem get_sound : Sound get g fun found g' => found = g ∧ g' = g :=
  ⟨rfl, rfl⟩

theorem modify_sound (f : Generator → Generator) : Sound (modify f) g fun _ g' => g' = f g :=
  rfl

theorem next_sound (hs : g.Sized o) (a : Nat) :
    Sound next g fun _ g' => g.Changes o a g' ∧ g'.area o a = g.area o a := by
  unfold next
  refine (modify_sound _).bind fun _ g₁ h₁ => ?_
  subst h₁
  refine get_sound.bind fun found g₂ h₂ => ?_
  obtain ⟨rfl, rfl⟩ := h₂
  exact ⟨⟨⟨hs.data, hs.workspace⟩, fun b _ => area_congr b rfl rfl, rfl, rfl⟩,
    area_congr a rfl rfl⟩

/-- Octets of an area are read where they lie. -/
theorem load_sound (hs : g.Sized o) (ha : a ≤ o.maxDepth + 1)
    (hroom : offset + count ≤ o.maxCaseSize) :
    Sound (load o a offset count) g fun bytes g' =>
      g' = g ∧ bytes = ((g.area o a).drop offset).take count := by
  unfold load
  refine get_sound.bind fun found g' h => ?_
  obtain ⟨rfl, rfl⟩ := h
  cases a with
  | zero =>
    dsimp only
    unfold Guarded.slice
    rw [if_pos (by rw [hs.data]; exact hroom)]
    exact ⟨rfl, rfl⟩
  | succ depth =>
    have hinside := block_inside hs (Nat.le_of_succ_le_succ ha)
    rw [Nat.succ_mul] at hinside
    dsimp only
    unfold Guarded.slice
    rw [if_pos (by omega)]
    refine ⟨rfl, ?_⟩
    unfold area Octets.block
    rw [List.drop_take, List.take_take, List.drop_drop, Nat.min_eq_left (by omega)]

/-- A store stays in its area. -/
theorem store_sound (hs : g.Sized o) (ha : a ≤ o.maxDepth + 1)
    (hroom : offset + bytes.length ≤ o.maxCaseSize) :
    Sound (store o a offset bytes) g fun _ g' =>
      g.Changes o a g' ∧ g'.area o a = Octets.store (g.area o a) offset bytes := by
  unfold store
  refine get_sound.bind fun found g' h => ?_
  obtain ⟨rfl, rfl⟩ := h
  cases a with
  | zero =>
    have hput := hs.data
    dsimp only
    unfold Guarded.put
    rw [if_pos (by omega)]
    refine ⟨⟨⟨?_, hs.workspace⟩, fun b hb => ?_, rfl, rfl⟩, rfl⟩
    · show (Octets.store g'.data offset bytes).length = o.maxCaseSize
      rw [Octets.store_length (by omega), hs.data]
    · cases b with
      | zero => exact absurd rfl hb
      | succ b => rfl
  | succ depth =>
    have hinside := block_inside hs (Nat.le_of_succ_le_succ ha)
    have hend := hinside
    rw [Nat.succ_mul] at hend
    dsimp only
    unfold Guarded.put
    rw [if_pos (by omega)]
    refine ⟨⟨⟨hs.data, ?_⟩, fun b hb => ?_, rfl, rfl⟩, Octets.block_store hinside hroom⟩
    · show (Octets.store g'.workspace _ bytes).length = _
      rw [Octets.store_length (by omega), hs.workspace]
    · cases b with
      | zero => rfl
      | succ b =>
        exact Octets.block_store_ne (fun h => hb (congrArg Nat.succ h)) hinside hroom

/-- Random octets are stored in the front of an area. -/
theorem fill_sound (hs : g.Sized o) (ha : a ≤ o.maxDepth + 1) {length : Nat}
    (hroom : length ≤ o.maxCaseSize) :
    Sound (fill o a length) g fun _ g' => g.Changes o a g' := by
  unfold fill
  refine InPlace.leads_forM (fun g' => g.Changes o a g') _ (fun i hi g' h => ?_) (.refl hs)
  have hlt := List.mem_range.mp hi
  refine (next_sound h.sized a).bind fun r g₁ h₁ => ?_
  refine (store_sound h₁.1.sized ha (Nat.succ_le_of_lt (hlt.trans_le hroom))).mono fun _ g₂ h₂ => ?_
  exact (h.trans h₁.1).trans h₂.1

/-- What a store leaves in front of its end. -/
theorem take_stored {buffer : Bytes} {n : Nat} (hroom : offset + bytes.length ≤ buffer.length)
    (hn : n ≤ bytes.length) :
    (Octets.store buffer offset bytes).take (offset + n) =
      buffer.take offset ++ bytes.take n := by
  have hfront : (buffer.take offset).length = offset := by
    rw [List.length_take]
    omega
  unfold Octets.store
  rw [List.append_assoc, List.take_append, hfront, Nat.add_sub_cancel_left,
    List.take_of_length_le (by omega), List.take_append_of_le_length hn]

/-- An encoding in an area stays behind what the area holds in front of it. -/
theorem encode_sound {encoder : Encoder} {tag value : Bytes} {capacity : Nat} (hs : g.Sized o)
    (ha : a ≤ o.maxDepth + 1) (hroom : offset + capacity ≤ o.maxCaseSize)
    (hsizes : tag.length ≤ sizeMax ∧ value.length ≤ sizeMax) :
    Sound (encodeAt encoder o a offset capacity tag value) g fun result g' =>
      g.Changes o a g' ∧ (g'.area o a).take offset = (g.area o a).take offset ∧
        ∀ n, result = .ok n → n ≤ capacity ∧ ∃ bytes : Bytes, bytes.length = n ∧
          Reencodes encoder.format tag value bytes ∧
          (g'.area o a).take (offset + n) = (g.area o a).take offset ++ bytes := by
  have harea := area_length hs ha
  unfold encodeAt
  refine (load_sound hs ha hroom).bind fun destination g₁ h₁ => ?_
  obtain ⟨rfl, hdestination⟩ := h₁
  have hcapacity : destination.length = capacity := by
    rw [hdestination, List.length_take, List.length_drop]
    omega
  rw [dif_pos hsizes]
  dsimp only
  generalize hencoded : encoder.encode ⟨tag, value, hsizes.1, hsizes.2⟩ destination = encoded
  have hlength := encoder_encode_length encoder ⟨tag, value, hsizes.1, hsizes.2⟩ destination
  rw [hencoded, hcapacity] at hlength
  refine (store_sound hs ha (by omega)).bind fun _ g₂ h₂ => ?_
  obtain ⟨hchanges, hstored⟩ := h₂
  have htake := fun n (hn : n ≤ encoded.2.length) =>
    @take_stored offset encoded.2 (g₁.area o a) n (by omega) hn
  refine ⟨hchanges, ?_, fun n hn => ?_⟩
  · have hfront := htake 0 (Nat.zero_le _)
    rw [Nat.add_zero, List.take_zero, List.append_nil] at hfront
    rw [hstored, hfront]
  · obtain ⟨result, stored⟩ := encoded
    cases result with
    | error failed => cases hn
    | ok used =>
      cases hn
      have hformat := encoder_encode_ok hencoded
      obtain ⟨-, -, -, -, -, hused, -⟩ := format_encode_eq_ok hformat
      have hwidth : (stored.take n).length = n := by
        rw [List.length_take]
        dsimp only at hlength
        omega
      rw [hcapacity] at hused
      refine ⟨hused, stored.take n, hwidth, reencodes_of_encode hformat hwidth, ?_⟩
      rw [hstored]
      exact htake n (by rw [hlength]; exact hused)

end Generator

end OpenTlv
