import OpenTlv.Asn1.DerRoundTrip
import OpenTlv.Writer.Tree

/-!
# The tree writer writes the recursive encoding

`Draft` is the forest that a tree writer has accepted: the closed roots and, for every open
element, its closed children. `Renders` is the recursive encoding of a node: a group encodes the
concatenation of what its children render to. `TreeWriter.Holds` connects both: the octets below
the cursor are what the draft renders to, each open element begins where its frame says, and the
tag storage holds its identifier. Every call keeps this, and a call that fails changes nothing
below the cursor.
-/

namespace OpenTlv

/-- A closed element that a tree writer accepted. -/
inductive WrittenNode where
  | element (element : Element)
  | group (tag : Bytes) (children : List WrittenNode)

/-- An open element with its closed children. -/
structure OpenGroup where
  tag : Bytes
  children : List WrittenNode

/-- The forest accepted so far: closed roots and open elements, the innermost first. -/
structure Draft where
  roots : List WrittenNode := []
  opened : List OpenGroup := []

/-- A node is closed inside the innermost open element. -/
def Draft.add (draft : Draft) (node : WrittenNode) : Draft :=
  match draft.opened with
  | [] => { draft with roots := draft.roots ++ [node] }
  | group :: outer =>
    { draft with opened := { group with children := group.children ++ [node] } :: outer }

/-- An element is opened. -/
def Draft.begin (draft : Draft) (tag : Bytes) : Draft :=
  { draft with opened := ⟨tag, []⟩ :: draft.opened }

/-- The innermost open element is closed. -/
def Draft.finish (draft : Draft) : Draft :=
  match draft.opened with
  | [] => draft
  | group :: outer => { draft with opened := outer }.add (.group group.tag group.children)

/-- `bytes` is what the encoder of the format stores for a tag and a value. -/
def Encodes (format : Format) (tag value bytes : Bytes) : Prop :=
  ∃ (element : Element) (destination stored : Bytes), element.tag = tag ∧ element.value = value ∧
    formatEncode format element destination = .ok (stored, bytes.length) ∧
    stored.take bytes.length = bytes

mutual
/-- The recursive encoding of a closed element. -/
inductive Renders (format : Format) : WrittenNode → Bytes → Prop where
  | element {element : Element} {bytes : Bytes} :
      Encodes format element.tag element.value bytes → Renders format (.element element) bytes
  | group {tag value bytes : Bytes} {children : List WrittenNode} :
      RendersAll format children value → Encodes format tag value bytes →
      Renders format (.group tag children) bytes

/-- The concatenation of what the elements of a list render to. -/
inductive RendersAll (format : Format) : List WrittenNode → Bytes → Prop where
  | nil : RendersAll format [] []
  | cons {node : WrittenNode} {nodes : List WrittenNode} {bytes rest : Bytes} :
      Renders format node bytes → RendersAll format nodes rest →
      RendersAll format (node :: nodes) (bytes ++ rest)
end

theorem RendersAll.append {format : Format} {nodes : List WrittenNode} {node : WrittenNode}
    {bytes added : Bytes} (h : RendersAll format nodes bytes) (hnode : Renders format node added) :
    RendersAll format (nodes ++ [node]) (bytes ++ added) := by
  induction nodes generalizing bytes with
  | nil =>
    cases h
    have hlast := RendersAll.cons hnode .nil
    rw [List.append_nil] at hlast
    exact hlast
  | cons first nodes ih =>
    cases h with
    | cons hfirst hrest =>
      rw [List.append_assoc]
      exact .cons hfirst (ih hrest)

/-- What open elements contribute: their children, behind what was there when they began. -/
def RendersOpen (format : Format) (roots : List WrittenNode) :
    List OpenGroup → List Nat → Bytes → Prop
  | [], [], bytes => RendersAll format roots bytes
  | group :: outer, start :: starts, bytes =>
    ∃ below value, bytes = below ++ value ∧ below.length = start ∧
      RendersAll format group.children value ∧ RendersOpen format roots outer starts below
  | _, _, _ => False

/-- The octets that a draft renders to, with the places where its open elements begin. -/
def Draft.RendersTo (format : Format) (draft : Draft) (starts : List Nat) (bytes : Bytes) : Prop :=
  RendersOpen format draft.roots draft.opened starts bytes

/-- Closing an element adds what it renders to. -/
theorem Draft.RendersTo.add {format : Format} {draft : Draft} {starts : List Nat}
    {bytes added : Bytes} {node : WrittenNode} (h : draft.RendersTo format starts bytes)
    (hnode : Renders format node added) :
    (draft.add node).RendersTo format starts (bytes ++ added) := by
  obtain ⟨roots, opened⟩ := draft
  cases opened with
  | nil =>
    cases starts with
    | nil => exact RendersAll.append h hnode
    | cons start starts => exact h.elim
  | cons group outer =>
    cases starts with
    | nil => exact h.elim
    | cons start starts =>
      obtain ⟨below, value, rfl, hbelow, hvalue, houter⟩ := h
      exact ⟨below, value ++ added, List.append_assoc _ _ _, hbelow,
        hvalue.append hnode, houter⟩

section Tags

/-- The tag storage up to `used` holds the identifiers of the open elements, the innermost last. -/
def TagsHeld (tags : Option Bytes) : Nat → List WriterFrame → List OpenGroup → Prop
  | used, [], [] => used = 0
  | used, frame :: frames, group :: outer =>
    frame.tag.octets tags = group.tag ∧
      match frame.tag with
      | .borrowed tag => (tags.isSome → tag.present = false) ∧ TagsHeld tags used frames outer
      | .stored offset size =>
        offset + storedSize size = used ∧ used ≤ (tags.getD []).length ∧ tags.isSome ∧
          TagsHeld tags offset frames outer
  | _, _, _ => False

end Tags

/-- What a tree writer has stored is what its draft renders to. -/
structure TreeWriter.Holds (format : Format) (draft : Draft) (writer : TreeWriter) : Prop where
  pos : writer.output.pos ≤ writer.output.buf.length
  output : draft.RendersTo format (writer.frames.map (·.start))
    (writer.output.buf.take writer.output.pos)
  tags : TagsHeld writer.tags writer.tagsUsed writer.frames draft.opened

/-- What a failed call leaves as it was. -/
structure TreeWriter.Unchanged (before after : TreeWriter) : Prop where
  pos : after.output.pos = before.output.pos
  frames : after.frames = before.frames
  count : after.count = before.count
  tags : after.tags = before.tags
  tagsUsed : after.tagsUsed = before.tagsUsed
  octets : after.output.buf.take before.output.pos = before.output.buf.take before.output.pos
  room : after.output.buf.length = before.output.buf.length

section Output

variable {encoder : Encoder} {element : Element}

/-- The encoder keeps the extent of its destination. -/
theorem encoder_encode_length (encoder : Encoder) (element : Element) (destination : Bytes) :
    (encoder.encode element destination).2.length = destination.length := by
  unfold Encoder.encode
  split
  · rfl
  · split
    · rfl
    · split
      · rfl
      · split
        · rfl
        · rename_i encode hencode
          split
          · exact encoder.leaves_length element destination
          · rename_i stored used hcall
            have hlength := encoder.stores_length encode hencode element destination stored used
              hcall
            split
            · exact hlength
            · exact hlength

/-- A successful call of the encoder is one of `tlv_format_encode`. -/
theorem encoder_encode_ok {destination stored : Bytes} {used : Nat}
    (h : encoder.encode element destination = (.ok used, stored)) :
    formatEncode encoder.format element destination = .ok (stored, used) := by
  unfold Encoder.encode at h
  split at h
  · cases h
  · rename_i sizes hmeasure
    split at h
    · cases h
    · rename_i total hnative
      split at h
      · cases h
      · rename_i hroom
        split at h
        · cases h
        · rename_i encode hencode
          split at h
          · cases h
          · rename_i written count hcall
            split at h
            · cases h
            · rename_i hused
              cases h
              simp only [formatEncode, hmeasure, hnative, if_neg hroom, hencode, hcall,
                if_neg hused]

/-- What a store to the output leaves: what was below the cursor, and on success behind it the
encoding of the element. -/
def Writer.Wrote (format : Format) (tag value : Bytes) (before : Writer) :
    Except Status Unit × Writer → Prop
  | (.error _, after) =>
    after.pos = before.pos ∧ after.buf.length = before.buf.length ∧
      after.buf.take before.pos = before.buf.take before.pos
  | (.ok (), after) =>
    ∃ bytes, Encodes format tag value bytes ∧ after.pos = before.pos + bytes.length ∧
      after.buf.length = before.buf.length ∧ after.pos ≤ after.buf.length ∧
      after.buf.take after.pos = before.buf.take before.pos ++ bytes

theorem writer_write_spec {writer : Writer} (hpos : writer.pos ≤ writer.buf.length) :
    writer.Wrote encoder.format element.tag element.value
      ((writerWriteElement encoder element).exec writer) := by
  have hextent := encoder_encode_length encoder element (writer.buf.drop writer.pos)
  have htake : (writer.buf.take writer.pos).length = writer.pos := by
    rw [List.length_take]
    omega
  unfold writerWriteElement
  simp only [InPlace.exec_bind, InPlace.exec_get, InPlace.exec_modify, InPlace.exec_ite,
    InPlace.exec_throw]
  rw [if_neg (Nat.not_lt.mpr hpos)]
  cases hencode : encoder.encode element (writer.buf.drop writer.pos) with
  | mk result stored =>
    rw [hencode, List.length_drop] at hextent
    dsimp only at hextent
    have hroom : (writer.buf.take writer.pos ++ stored).length = writer.buf.length := by
      rw [List.length_append, htake]
      omega
    cases result with
    | error failed => exact ⟨rfl, hroom, List.take_left' htake⟩
    | ok used =>
      have hformat := encoder_encode_ok hencode
      obtain ⟨-, -, -, -, -, hused, -⟩ := format_encode_eq_ok hformat
      rw [List.length_drop] at hused
      have hwidth : (stored.take used).length = used := by
        rw [List.length_take]
        omega
      have hencodes : Encodes encoder.format element.tag element.value (stored.take used) := by
        refine ⟨element, writer.buf.drop writer.pos, stored, rfl, rfl, ?_, ?_⟩
        · rw [hwidth]
          exact hformat
        · rw [hwidth]
      refine ⟨stored.take used, hencodes, ?_, hroom, ?_, ?_⟩
      · rw [hwidth]
      · show writer.pos + used ≤ (writer.buf.take writer.pos ++ stored).length
        omega
      · show (writer.buf.take writer.pos ++ stored).take (writer.pos + used) = _
        rw [List.take_append, htake, Nat.add_sub_cancel_left,
          List.take_of_length_le (by omega)]

theorem writer_parent_spec {writer : Writer} (hpos : writer.pos ≤ writer.buf.length)
    (tag value : Bytes) :
    writer.Wrote encoder.format tag value
      ((treeWriterParent encoder tag value).exec writer) := by
  unfold treeWriterParent
  by_cases hsizes : tag.length ≤ sizeMax ∧ value.length ≤ sizeMax
  · rw [dif_pos hsizes]
    exact writer_write_spec hpos
  · rw [dif_neg hsizes]
    exact ⟨rfl, rfl, rfl⟩

end Output

section Calls

variable {encoder : Encoder} {draft : Draft} {writer : TreeWriter}

/-- The state in which a failed call leaves a writer, and what it still holds. -/
theorem TreeWriter.Holds.unchanged (h : writer.Holds encoder.format draft) {after : TreeWriter}
    (hsame : writer.Unchanged after) : after.Holds encoder.format draft := by
  obtain ⟨hpos, houtput, htags⟩ := h
  refine ⟨?_, ?_, ?_⟩
  · rw [hsame.pos, hsame.room]
    exact hpos
  · rw [hsame.pos, hsame.frames, hsame.octets]
    exact houtput
  · rw [hsame.tags, hsame.tagsUsed, hsame.frames]
    exact htags

theorem TreeWriter.Unchanged.refl (writer : TreeWriter) : writer.Unchanged writer :=
  ⟨rfl, rfl, rfl, rfl, rfl, rfl, rfl⟩

/-- Storing behind the used part of the tag storage keeps the identifiers below. -/
theorem TagsHeld.store {storage : Bytes} {used : Nat} {frames : List WriterFrame}
    {opened : List OpenGroup} (h : TagsHeld (some storage) used frames opened) (tag : Bytes)
    {place : Nat} (hplace : used ≤ place) (hroom : place + tag.length ≤ storage.length) :
    TagsHeld (some (Octets.store storage place tag)) used frames opened := by
  induction frames generalizing used opened with
  | nil =>
    cases opened with
    | nil => exact h
    | cons group outer => exact h.elim
  | cons frame frames ih =>
    cases opened with
    | nil => exact h.elim
    | cons group outer =>
      obtain ⟨held, start⟩ := frame
      obtain ⟨hoctets, hheld⟩ := h
      cases held with
      | borrowed view => exact ⟨hoctets, hheld.1, ih hheld.2 hplace⟩
      | stored offset size =>
        obtain ⟨hused, hinside, -, hrest⟩ := hheld
        have hsize : size ≤ storedSize size := by
          unfold storedSize
          split <;> omega
        refine ⟨?_, hused, ?_, rfl, ih hrest (by omega)⟩
        · -- The identifier lies below the place of the store.
          rw [← hoctets]
          show ((Octets.store storage place tag).drop offset).take size =
            (storage.drop offset).take size
          have hbelow : ((Octets.store storage place tag).take place) =
              storage.take place := by
            unfold Octets.store
            rw [List.append_assoc, List.take_left']
            rw [List.length_take]
            omega
          have hslice : ∀ bytes : Bytes, (bytes.drop offset).take size =
              ((bytes.take place).drop offset).take size := by
            intro bytes
            rw [List.drop_take, List.take_take, Nat.min_eq_left (by omega)]
          rw [hslice, hbelow, ← hslice]
        · show used ≤ (Octets.store storage place tag).length
          rw [Octets.store_length hroom]
          exact hinside

/-- Closing a node changes no open identifier. -/
theorem TagsHeld.add {tags : Option Bytes} {used : Nat} {frames : List WriterFrame}
    (h : TagsHeld tags used frames draft.opened) (node : WrittenNode) :
    TagsHeld tags used frames (draft.add node).opened := by
  obtain ⟨roots, opened⟩ := draft
  cases opened with
  | nil => exact h
  | cons group outer =>
    cases frames with
    | nil => exact h.elim
    | cons frame frames => exact h

/-- The identifiers of the frames are those of the open elements. -/
theorem TagsHeld.octets_eq {tags : Option Bytes} {used : Nat} {frames : List WriterFrame}
    {opened : List OpenGroup} (h : TagsHeld tags used frames opened) :
    frames.map (·.tag.octets tags) = opened.map (·.tag) := by
  induction frames generalizing used opened with
  | nil =>
    cases opened with
    | nil => rfl
    | cons group outer => exact h.elim
  | cons frame frames ih =>
    cases opened with
    | nil => exact h.elim
    | cons group outer =>
      obtain ⟨held, start⟩ := frame
      obtain ⟨hoctets, hheld⟩ := h
      cases held with
      | borrowed view => exact congr (congrArg List.cons hoctets) (ih hheld.2)
      | stored offset size => exact congr (congrArg List.cons hoctets) (ih hheld.2.2.2)

theorem stored_size_ge (size : Nat) : size ≤ storedSize size ∧ 0 < storedSize size := by
  unfold storedSize
  split
  · omega
  · omega

/-- An identifier that is held is there until its element is closed. -/
theorem hold_spec {opened : List OpenGroup} {tag : TagView}
    (htags : TagsHeld writer.tags writer.tagsUsed writer.frames opened) (start : Nat) :
    match (treeWriterHold tag).exec writer with
    | (.error _, after) => after = writer
    | (.ok held, after) =>
      after = { writer with tags := after.tags, tagsUsed := after.tagsUsed } ∧
        TagsHeld after.tags after.tagsUsed (⟨held, start⟩ :: writer.frames)
          (⟨tag.bytes, []⟩ :: opened) := by
  obtain ⟨hsize, hpositive⟩ := stored_size_ge tag.bytes.length
  unfold treeWriterHold
  rw [InPlace.exec_bind, InPlace.exec_get]
  dsimp only
  cases hstorage : writer.tags with
  | none =>
    refine ⟨rfl, rfl, fun hsome => ?_, htags⟩
    rw [hstorage] at hsome
    cases hsome
  | some storage =>
    have hheld := htags
    rw [hstorage] at hheld
    dsimp only
    cases hpresent : tag.present with
    | false =>
      rw [if_neg Bool.false_ne_true]
      exact ⟨rfl, rfl, fun _ => hpresent, htags⟩
    | true =>
      rw [if_pos rfl]
      by_cases hroom : storedSize tag.bytes.length > storage.length - writer.tagsUsed
      · rw [if_pos hroom]
        rfl
      · rw [if_neg hroom]
        have hfits : writer.tagsUsed + tag.bytes.length ≤ storage.length := by omega
        refine ⟨rfl, ?_, rfl, ?_, rfl, hheld.store tag.bytes (Nat.le_refl _) hfits⟩
        · show ((Octets.store storage writer.tagsUsed tag.bytes).drop writer.tagsUsed).take
            tag.bytes.length = tag.bytes
          rw [Octets.drop_store (by omega), List.take_left']
          rfl
        · show writer.tagsUsed + storedSize tag.bytes.length ≤
            (Octets.store storage writer.tagsUsed tag.bytes).length
          rw [Octets.store_length hfits]
          omega

/-- What an opening call leaves. -/
theorem begin_spec (h : writer.Holds encoder.format draft) (tag : TagView) :
    match (treeWriterBegin encoder tag).exec writer with
    | (.error _, after) => writer.Unchanged after
    | (.ok (), after) => after.Holds encoder.format (draft.begin tag.bytes) := by
  have hhold := @hold_spec writer draft.opened tag h.tags writer.output.pos
  unfold treeWriterBegin
  rw [InPlace.exec_bind, InPlace.exec_get]
  dsimp only
  by_cases hnull : tag.bytes.length ≠ 0 ∧ tag.present = false
  · rw [if_pos hnull]
    exact .refl writer
  rw [if_neg hnull]
  by_cases hlimit : writer.frames.length > writer.maxDepth ∨ writer.count ≥ writer.maxElements
  · rw [if_pos hlimit]
    exact .refl writer
  rw [if_neg hlimit]
  by_cases hcapacity : writer.frames.length ≥ writer.capacity
  · rw [if_pos hcapacity]
    exact .refl writer
  rw [if_neg hcapacity]
  by_cases hconstructs : encoder.format.constructs tag.bytes = false
  · rw [if_pos hconstructs]
    exact .refl writer
  rw [if_neg hconstructs, InPlace.exec_bind]
  cases hran : (treeWriterHold tag).exec writer with
  | mk result after =>
    rw [hran] at hhold
    cases result with
    | error status =>
      have hsame : after = writer := hhold
      rw [hsame]
      exact .refl writer
    | ok held =>
      obtain ⟨hafter, htags⟩ := hhold
      have houtput : after.output = writer.output := by rw [hafter]
      have hframes : after.frames = writer.frames := by rw [hafter]
      refine ⟨?_, ?_, ?_⟩
      · show after.output.pos ≤ after.output.buf.length
        rw [houtput]
        exact h.pos
      · -- The new element has no children, so it contributes nothing.
        show RendersOpen encoder.format draft.roots (⟨tag.bytes, []⟩ :: draft.opened)
          (after.output.pos :: after.frames.map (·.start))
          (after.output.buf.take after.output.pos)
        rw [houtput, hframes]
        refine ⟨_, [], (List.append_nil _).symm, ?_, .nil, h.output⟩
        rw [List.length_take]
        exact Nat.min_eq_left h.pos
      · show TagsHeld after.tags after.tagsUsed (⟨held, after.output.pos⟩ :: after.frames)
          (⟨tag.bytes, []⟩ :: draft.opened)
        rw [houtput, hframes]
        exact htags

/-- What a call that writes an element leaves. -/
theorem write_element_spec (h : writer.Holds encoder.format draft) (element : Element) :
    match (treeWriterWriteElement encoder element).exec writer with
    | (.error _, after) => writer.Unchanged after
    | (.ok (), after) => after.Holds encoder.format (draft.add (.element element)) := by
  have hwrite := @writer_write_spec encoder element writer.output h.pos
  unfold treeWriterWriteElement
  rw [InPlace.exec_bind, InPlace.exec_get]
  dsimp only
  by_cases hlimit : writer.frames.length > writer.maxDepth ∨ writer.count ≥ writer.maxElements
  · rw [if_pos hlimit]
    exact .refl writer
  rw [if_neg hlimit, InPlace.exec_bind]
  have hran : (onOutput (writerWriteElement encoder element)).exec writer =
      (((writerWriteElement encoder element).exec writer.output).1,
        { writer with output := ((writerWriteElement encoder element).exec writer.output).2 }) :=
    rfl
  rw [hran]
  cases hcall : (writerWriteElement encoder element).exec writer.output with
  | mk result output =>
    rw [hcall] at hwrite
    cases result with
    | error status =>
      obtain ⟨hpos, hroom, hbelow⟩ := hwrite
      exact ⟨hpos, rfl, rfl, rfl, rfl, hbelow, hroom⟩
    | ok _ =>
      obtain ⟨bytes, hencodes, hpos, -, hinside, hbelow⟩ := hwrite
      refine ⟨hinside, ?_, ?_⟩
      · show (draft.add (.element element)).RendersTo encoder.format
          (writer.frames.map (·.start)) (output.buf.take output.pos)
        rw [hbelow]
        exact h.output.add (.element hencodes)
      · show TagsHeld writer.tags writer.tagsUsed writer.frames
          (draft.add (.element element)).opened
        exact h.tags.add _

/-- The innermost open element of a draft: where it begins, and its value. -/
theorem TreeWriter.Holds.innermost (h : writer.Holds encoder.format draft) {frame : WriterFrame}
    {outer : List WriterFrame} (hframes : writer.frames = frame :: outer) :
    ∃ group groups below value, draft.opened = group :: groups ∧
      writer.output.buf.take writer.output.pos = below ++ value ∧ below.length = frame.start ∧
      RendersAll encoder.format group.children value ∧
      RendersOpen encoder.format draft.roots groups (outer.map (·.start)) below ∧
      TagsHeld writer.tags writer.tagsUsed (frame :: outer) (group :: groups) := by
  obtain ⟨-, houtput, htags⟩ := h
  obtain ⟨roots, opened⟩ := draft
  rw [hframes] at houtput htags
  cases opened with
  | nil => exact houtput.elim
  | cons group groups =>
    obtain ⟨below, value, hbytes, hbelow, hvalue, hrest⟩ := houtput
    exact ⟨group, groups, below, value, rfl, hbytes, hbelow, hvalue, hrest, htags⟩

/-- Closing the innermost element gives its place in the tag storage back. -/
theorem TagsHeld.release {tags : Option Bytes} {used : Nat} {frame : WriterFrame}
    {frames : List WriterFrame} {group : OpenGroup} {groups : List OpenGroup}
    (h : TagsHeld tags used (frame :: frames) (group :: groups)) :
    TagsHeld tags (if tags.isSome then used - frame.tag.releases else used) frames groups := by
  obtain ⟨held, start⟩ := frame
  obtain ⟨-, hheld⟩ := h
  cases held with
  | borrowed view =>
    obtain ⟨habsent, hrest⟩ := hheld
    cases hsome : tags.isSome with
    | true =>
      rw [if_pos rfl]
      show TagsHeld tags (used - if view.present then _ else 0) frames groups
      rw [habsent hsome]
      exact hrest
    | false =>
      rw [if_neg Bool.false_ne_true]
      exact hrest
  | stored offset size =>
    obtain ⟨hused, -, hsome, hrest⟩ := hheld
    rw [if_pos hsome]
    show TagsHeld tags (used - storedSize size) frames groups
    rw [← hused, Nat.add_sub_cancel]
    exact hrest

/-- What a closing call leaves. The parent is encoded over its value; where that fails, the value
is copied back. -/
theorem end_spec (h : writer.Holds encoder.format draft) :
    match (treeWriterEnd encoder).exec writer with
    | (.error _, after) => writer.Unchanged after
    | (.ok (), after) => after.Holds encoder.format draft.finish := by
  unfold treeWriterEnd
  rw [InPlace.exec_bind, InPlace.exec_get]
  dsimp only
  cases hframes : writer.frames with
  | nil => exact .refl writer
  | cons frame outer =>
    dsimp only
    by_cases hroom : writer.output.pos - frame.start > writer.scratch.length
    · rw [if_pos hroom]
      exact .refl writer
    rw [if_neg hroom]
    obtain ⟨group, groups, below, value, hopened, hbytes, hbelow, hvalue, hrest, htags⟩ :=
      h.innermost hframes
    have hpos := h.pos
    have hlength : below.length + value.length = writer.output.pos := by
      have hlengths := congrArg List.length hbytes
      rw [List.length_take, List.length_append] at hlengths
      omega
    have haccumulated : (writer.output.buf.drop frame.start).take
        (writer.output.pos - frame.start) = value := by
      rw [← List.drop_take, hbytes, ← hbelow, List.drop_left]
    have hscratch : (Octets.store writer.scratch 0 value).take
        (writer.output.pos - frame.start) = value := by
      have htake := @Octets.take_store writer.scratch [] value 0 rfl rfl
      rw [show writer.output.pos - frame.start = 0 + value.length by omega]
      exact htake
    rw [InPlace.exec_bind, InPlace.exec_modify]
    dsimp only
    rw [InPlace.exec_bind, InPlace.exec_get]
    dsimp only
    rw [haccumulated, hscratch, htags.1]
    have hbelowTake : writer.output.buf.take frame.start = below := by
      rw [← hbelow, ← Nat.min_eq_left (show below.length ≤ writer.output.pos by omega),
        ← List.take_take, hbytes, List.take_left]
    have hparent := @writer_parent_spec encoder { writer.output with pos := frame.start }
      (show frame.start ≤ writer.output.buf.length by omega) group.tag value
    cases hran : (treeWriterParent encoder group.tag value).exec
        { writer.output with pos := frame.start } with
    | mk result output =>
      rw [hran] at hparent
      cases result with
      | error status =>
        -- The value is copied back over what the encoder left.
        obtain ⟨-, hextent, hkept⟩ := hparent
        dsimp only at hextent hkept
        have hfits : frame.start + value.length ≤ output.buf.length := by omega
        refine ⟨rfl, rfl, rfl, rfl, rfl, ?_, ?_⟩
        · show (Octets.store output.buf frame.start value).take writer.output.pos =
            writer.output.buf.take writer.output.pos
          have htake := @Octets.take_store output.buf below value frame.start
            (hkept.trans hbelowTake) hbelow
          rw [hbytes, ← htake]
          congr 1
          omega
        · show (Octets.store output.buf frame.start value).length = writer.output.buf.length
          rw [Octets.store_length hfits, hextent]
      | ok _ =>
        obtain ⟨bytes, hencodes, hafter, -, hinside, hstored⟩ := hparent
        dsimp only at hafter hstored
        rw [hbelowTake] at hstored
        have hnode : Renders encoder.format (.group group.tag group.children) bytes :=
          .group hvalue hencodes
        have hclosed : Draft.RendersTo encoder.format { draft with opened := groups }
            (outer.map (·.start)) below := hrest
        have hfinish : draft.finish =
            { draft with opened := groups }.add (.group group.tag group.children) := by
          unfold Draft.finish
          rw [hopened]
        have hreleased := htags.release
        rw [hfinish]
        cases hsome : writer.tags.isSome with
        | true =>
          rw [hsome, if_pos rfl] at hreleased
          refine ⟨hinside, ?_, ?_⟩
          · show Draft.RendersTo encoder.format _ (outer.map (·.start))
              (output.buf.take output.pos)
            rw [hstored]
            exact hclosed.add hnode
          · show TagsHeld writer.tags (writer.tagsUsed - frame.tag.releases) outer _
            exact @TagsHeld.add { draft with opened := groups } _ _ _ hreleased _
        | false =>
          rw [hsome, if_neg Bool.false_ne_true] at hreleased
          refine ⟨hinside, ?_, ?_⟩
          · show Draft.RendersTo encoder.format _ (outer.map (·.start))
              (output.buf.take output.pos)
            rw [hstored]
            exact hclosed.add hnode
          · show TagsHeld writer.tags writer.tagsUsed outer _
            exact @TagsHeld.add { draft with opened := groups } _ _ _ hreleased _

/-- What a call for one structural event leaves. -/
theorem write_event_spec (h : writer.Holds encoder.format draft) (event : WriteEvent) :
    match (treeWriterWriteEvent encoder event).exec writer with
    | (.error _, after) => writer.Unchanged after
    | (.ok (), after) => after.Holds encoder.format
        (match event.kind with
          | .begin => draft.begin event.element.tag
          | .ending => draft.finish
          | .element => draft.add (.element event.element)) := by
  have hbegin := @begin_spec encoder draft writer h ⟨event.element.tag, event.tagPresent⟩
  have helement := @write_element_spec encoder draft writer h event.element
  have hend := end_spec h
  unfold treeWriterWriteEvent
  rw [InPlace.exec_bind, InPlace.exec_get]
  dsimp only
  by_cases hrefused : event.skipped = true ∨ ¬ (if event.kind = .ending then
      writer.frames.length ≠ 0 ∧ event.depth = writer.frames.length - 1
    else event.depth = writer.frames.length)
  · rw [if_pos hrefused]
    exact .refl writer
  rw [if_neg hrefused]
  cases event.kind with
  | begin => exact hbegin
  | ending => exact hend
  | element =>
    dsimp only
    by_cases hnull : event.element.tag.length ≠ 0 ∧ event.tagPresent = false
    · rw [if_pos hnull]
      exact .refl writer
    rw [if_neg hnull]
    by_cases hconstructs : encoder.format.constructs event.element.tag = true
    · rw [if_pos hconstructs]
      exact .refl writer
    rw [if_neg hconstructs]
    exact helement

theorem set_tag_storage_spec (h : writer.Holds encoder.format draft) (storage : Option Bytes) :
    match (treeWriterSetTagStorage storage).exec writer with
    | (.error _, after) => writer.Unchanged after
    | (.ok (), after) => after.Holds encoder.format draft := by
  unfold treeWriterSetTagStorage
  rw [InPlace.exec_bind, InPlace.exec_get]
  dsimp only
  by_cases hopen : writer.frames.length ≠ 0
  · rw [if_pos hopen]
    exact .refl writer
  rw [if_neg hopen]
  obtain ⟨hpos, houtput, htags⟩ := h
  have hframes : writer.frames = [] := List.eq_nil_of_length_eq_zero (not_not.mp hopen)
  refine ⟨hpos, houtput, ?_⟩
  show TagsHeld storage 0 writer.frames draft.opened
  rw [hframes] at htags ⊢
  cases hopened : draft.opened with
  | nil => rfl
  | cons group groups =>
    rw [hopened] at htags
    exact htags.elim

end Calls

section Runs

/-- The calls of a client on a tree writer. -/
inductive TreeWriterCall where
  | setTagStorage (storage : Option Bytes)
  | begin (tag : TagView)
  | writeElement (element : Element)
  | writeEvent (event : WriteEvent)
  | ending

/-- The operation behind a call. -/
def TreeWriterCall.apply (encoder : Encoder) : TreeWriterCall → InPlace Status TreeWriter Unit
  | .setTagStorage storage => treeWriterSetTagStorage storage
  | .begin tag => treeWriterBegin encoder tag
  | .writeElement element => treeWriterWriteElement encoder element
  | .writeEvent event => treeWriterWriteEvent encoder event
  | .ending => treeWriterEnd encoder

/-- What a successful call adds to the forest. -/
def Draft.accept (draft : Draft) : TreeWriterCall → Draft
  | .setTagStorage _ => draft
  | .begin tag => draft.begin tag.bytes
  | .writeElement element => draft.add (.element element)
  | .writeEvent event =>
    match event.kind with
    | .begin => draft.begin event.element.tag
    | .ending => draft.finish
    | .element => draft.add (.element event.element)
  | .ending => draft.finish

/-- The writer after some calls, and the forest of those that succeeded. -/
def treeWriterRun (encoder : Encoder) : TreeWriter → Draft → List TreeWriterCall →
    TreeWriter × Draft
  | writer, draft, [] => (writer, draft)
  | writer, draft, call :: calls =>
    match (call.apply encoder).exec writer with
    | (.ok (), after) => treeWriterRun encoder after (draft.accept call) calls
    | (.error _, after) => treeWriterRun encoder after draft calls

variable {encoder : Encoder} {draft : Draft} {writer : TreeWriter}

/-- Every call keeps what the writer holds. -/
theorem tree_writer_call_spec (h : writer.Holds encoder.format draft) (call : TreeWriterCall) :
    match (call.apply encoder).exec writer with
    | (.error _, after) => writer.Unchanged after
    | (.ok (), after) => after.Holds encoder.format (draft.accept call) := by
  cases call with
  | setTagStorage storage => exact set_tag_storage_spec h storage
  | begin tag => exact begin_spec h tag
  | writeElement element => exact write_element_spec h element
  | writeEvent event => exact write_event_spec h event
  | ending => exact end_spec h

/-- The writer keeps its invariant over any calls. -/
theorem tree_writer_run_holds (h : writer.Holds encoder.format draft)
    (calls : List TreeWriterCall) :
    (treeWriterRun encoder writer draft calls).1.Holds encoder.format
      (treeWriterRun encoder writer draft calls).2 := by
  induction calls generalizing writer draft with
  | nil => exact h
  | cons call calls ih =>
    have hcall := tree_writer_call_spec h call
    unfold treeWriterRun
    cases hran : (call.apply encoder).exec writer with
    | mk result after =>
      rw [hran] at hcall
      cases result with
      | ok _ => exact ih hcall
      | error status => exact ih (h.unchanged hcall)

theorem tree_writer_init_holds {data scratch : Bytes} {limits : TreeLimits}
    (hinit : treeWriterInit encoder data limits scratch = .ok writer) :
    writer.Holds encoder.format {} := by
  unfold treeWriterInit at hinit
  obtain ⟨-, hinit⟩ := guard_ok.mp hinit
  cases hinit
  exact ⟨Nat.zero_le _, .nil, rfl⟩

/-- After any calls the octets below the cursor are the recursive encoding of what was accepted:
closed elements render to their encoding, and open ones contribute their children. A call that
fails changes neither the cursor, the open elements, the count, the tag storage nor an octet below
the cursor. -/
theorem tree_writer_recursive {data scratch : Bytes} {limits : TreeLimits}
    (hinit : treeWriterInit encoder data limits scratch = .ok writer)
    (calls : List TreeWriterCall) :
    let after := (treeWriterRun encoder writer {} calls).1
    let draft := (treeWriterRun encoder writer {} calls).2
    draft.RendersTo encoder.format (after.frames.map (·.start))
        (after.output.buf.take after.output.pos) ∧
      after.output.pos ≤ after.output.buf.length ∧
      after.frames.map (·.tag.octets after.tags) = draft.opened.map (·.tag) ∧
      ∀ (call : TreeWriterCall) (status : Status) (last : TreeWriter),
        (call.apply encoder).exec after = (.error status, last) → after.Unchanged last := by
  have hholds := tree_writer_run_holds (tree_writer_init_holds hinit) calls
  refine ⟨hholds.output, hholds.pos, hholds.tags.octets_eq, fun call status last hcall => ?_⟩
  have hspec := tree_writer_call_spec hholds call
  rw [hcall] at hspec
  exact hspec

/-- `tlv_format_der` as a writable format. Its encoder fails before it stores anything. -/
def derEncoder : Encoder where
  format := formatDer
  leaves := fun _ destination => destination
  leaves_length := fun _ _ => rfl
  stores_length := by
    intro encode hencode element destination stored used h
    cases hencode
    exact fields_encode_length der_identifier_law asn1_length_law h

/-- The calls that write a SEQUENCE of one INTEGER and of one open SET. -/
def sequenceWrites : List TreeWriterCall :=
  [.setTagStorage (some (List.replicate 4 0)), .begin ⟨[0x30], true⟩,
    .writeElement ⟨[0x02], [0x05], by decide, by decide⟩, .ending, .ending, .begin ⟨[0x31], true⟩,
    .writeElement ⟨[0x02], [0x06], by decide, by decide⟩]

theorem tree_writer_recursive_der :
    ∃ writer, treeWriterInit derEncoder (List.replicate 16 0) ⟨4, 4, 8⟩ (List.replicate 8 0) =
        .ok writer ∧
      (treeWriterRun derEncoder writer {} sequenceWrites).1.output.buf.take 8 =
        [0x30, 0x03, 0x02, 0x01, 0x05, 0x02, 0x01, 0x06] ∧
      (treeWriterRun derEncoder writer {} sequenceWrites).2.RendersTo formatDer
        ((treeWriterRun derEncoder writer {} sequenceWrites).1.frames.map (·.start))
        ((treeWriterRun derEncoder writer {} sequenceWrites).1.output.buf.take
          (treeWriterRun derEncoder writer {} sequenceWrites).1.output.pos) := by
  refine ⟨_, rfl, by decide +kernel, ?_⟩
  exact (@tree_writer_recursive derEncoder _ (List.replicate 16 0) (List.replicate 8 0) ⟨4, 4, 8⟩
    rfl sequenceWrites).1

end Runs

end OpenTlv
