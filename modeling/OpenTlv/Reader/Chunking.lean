import OpenTlv.Asn1.Stability
import OpenTlv.Reader.Tree

/-!
# Chunked tree reads

A tree reader over moving windows of an input goes through the same states as one over the whole
input, in absolute offsets. `TreeReader.over` is that correspondence and `TreeReader.Coherent` the
invariant behind it: the window shows a part of the input, and the offsets that the reader has
kept lie ahead of it, in order, and inside the window.
-/

namespace OpenTlv

/-- What the checks of `tlv_format_decode` say about the extents of an element. -/
theorem format_decode_extent {format : Format} {data : Bytes} {decoded : Decoded}
    (h : formatDecode format data = .ok decoded) :
    decoded.source.size ≤ data.length ∧
      decoded.source.value.offset + decoded.source.value.size ≤ decoded.source.size ∧
      decoded.value.bytes.length = decoded.source.value.size := by
  obtain ⟨decode, -, -, -, hvalid⟩ := format_decode_eq_ok h
  simp only [decodedValid, Range.valid, Bool.and_eq_true, Bool.or_eq_true, Bool.not_eq_true',
    decide_eq_true_eq] at hvalid
  obtain ⟨⟨⟨⟨⟨⟨⟨⟨⟨⟨⟨⟨⟨⟨⟨⟨-, hpresent⟩, -⟩, -⟩, hsize⟩, -⟩, -⟩, hvalue⟩, -⟩, -⟩, -⟩, -⟩, -⟩, -⟩,
    hlength⟩, -⟩, -⟩ := hvalid
  rcases hvalue with habsent | hvalue
  · rw [hpresent] at habsent
    cases habsent
  · exact ⟨hsize, by omega, hlength⟩

section Reader

variable {format : Format} {reader : Reader}

/-- The cursor lies in the window, and the window in the address space. -/
structure Reader.Within (reader : Reader) : Prop where
  pos : reader.pos ≤ reader.size
  size : reader.size ≤ reader.data.length
  reach : reader.baseOffset + reader.size ≤ sizeMax

theorem Reader.Within.valid (h : reader.Within) (hformat : format.decode.isSome) :
    readerValid format reader = .ok () := by
  obtain ⟨hpos, -, hreach⟩ := h
  have hdecode : ¬ format.decode.isNone = true := by
    rw [Option.isNone_iff_eq_none, ← ne_eq, ← Option.isSome_iff_ne_none]
    exact hformat
  unfold readerValid
  rw [if_neg hdecode, if_neg (by omega), if_neg (by omega)]

theorem Reader.Within.rest_length (h : reader.Within) :
    reader.rest.length = reader.size - reader.pos := by
  unfold Reader.rest
  rw [List.length_drop, List.length_take, Nat.min_eq_left h.size]

/-- `reader_next` in terms of the octets ahead of the cursor. -/
theorem reader_next_eq (h : reader.Within) (hformat : format.decode.isSome) :
    readerNext format reader =
      if reader.rest = [] then .error (if reader.finalInput then .atEnd else .needMoreData)
      else
        match formatDecode format reader.rest with
        | .ok decoded => .ok (decoded, { reader with pos := reader.pos + decoded.source.size })
        | .error (status, _) =>
          .error (if status = .truncated ∧ reader.finalInput = false then .needMoreData
            else status) := by
  have hlength := h.rest_length
  have hpos := h.pos
  have hempty : reader.pos = reader.size ↔ reader.rest = [] := by
    rw [← List.length_eq_zero_iff]
    omega
  simp only [readerNext, h.valid hformat]
  by_cases hend : reader.rest = []
  · rw [if_pos hend, if_pos (hempty.mpr hend)]
  · refine (if_neg fun hpos => hend (hempty.mp hpos)).trans (Eq.trans ?_ (if_neg hend).symm)
    cases formatDecode format reader.rest <;> rfl

end Reader

section Tree

variable {format : Format} {whole : Bytes} {reader : TreeReader}

/-- The same reader over the whole input. -/
def TreeReader.over (whole : Bytes) (reader : TreeReader) : TreeReader :=
  { reader with
    input := { data := whole, size := whole.length, pos := reader.input.offset } }

/-- The offsets of the open frames, from the innermost outwards. -/
def frameStops (frames : List TreeFrame) : List Nat :=
  frames.flatMap fun frame => [frame.ending, frame.resume]

/-- The offsets that the reader will still go to. -/
def TreeReader.stops (reader : TreeReader) : List Nat :=
  (if reader.descendPending then [reader.pending.ending, reader.pending.resume]
    else if reader.endPending then [reader.pending.resume] else []) ++ frameStops reader.frames

/-- The end of the window. -/
def Reader.reach (reader : Reader) : Nat :=
  reader.baseOffset + reader.size

/-- The window shows a part of `whole`, and everything the reader goes to lies ahead in it. -/
structure TreeReader.Coherent (whole : Bytes) (reader : TreeReader) : Prop where
  window : reader.input.data = (whole.drop reader.input.baseOffset).take reader.input.size
  reach : reader.input.reach ≤ whole.length
  complete : reader.input.finalInput = true → reader.input.reach = whole.length
  exclusive : reader.descendPending = true → reader.endPending = false
  ordered : (reader.input.offset :: (reader.stops ++ [reader.input.reach])).Pairwise (· ≤ ·)

theorem TreeReader.Coherent.offset_le (h : reader.Coherent whole) {stop : Nat}
    (hstop : stop ∈ reader.stops ++ [reader.input.reach]) : reader.input.offset ≤ stop :=
  (List.pairwise_cons.mp h.ordered).1 stop hstop

theorem TreeReader.Coherent.pos_le (h : reader.Coherent whole) :
    reader.input.pos ≤ reader.input.size := by
  have hle := h.offset_le (List.mem_append_right _ (List.mem_singleton.mpr rfl))
  unfold Reader.offset Reader.reach at hle
  omega

theorem TreeReader.Coherent.data_length (h : reader.Coherent whole) :
    reader.input.data.length = reader.input.size := by
  have hreach := h.reach
  unfold Reader.reach at hreach
  rw [h.window, List.length_take, List.length_drop]
  omega

theorem TreeReader.Coherent.within (h : reader.Coherent whole) (hwhole : whole.length ≤ sizeMax) :
    reader.input.Within :=
  ⟨h.pos_le, h.data_length.ge, h.reach.trans hwhole⟩

/-- The octets of the window between the cursor and an absolute offset. -/
theorem TreeReader.Coherent.slice (h : reader.Coherent whole) {ending : Nat}
    (hhigh : ending ≤ reader.input.reach) :
    (reader.input.data.take (ending - reader.input.baseOffset)).drop reader.input.pos =
      (whole.take ending).drop reader.input.offset := by
  unfold Reader.offset
  unfold Reader.reach at hhigh
  rw [h.window, List.take_take, Nat.min_eq_left (by omega), List.drop_take, List.drop_take,
    List.drop_drop]
  congr 1
  omega

@[simp] theorem over_offset : (reader.over whole).input.offset = reader.input.offset :=
  Nat.zero_add _

/-- The innermost frame is behind no other stop. -/
theorem TreeReader.Coherent.leave (h : reader.Coherent whole) (frame : TreeFrame)
    (left : TreeReader) (hinput : left.input = reader.input)
    (hordered : (frame.resume :: (left.stops ++ [reader.input.reach])).Pairwise (· ≤ ·))
    (hbase : reader.input.baseOffset ≤ frame.resume)
    (hexclusive : left.descendPending = true → left.endPending = false) :
    (left.leave frame).Coherent whole ∧
      (left.leave frame).over whole = (left.over whole).leave frame := by
  have hoffset : (left.leave frame).input.offset = frame.resume := by
    show left.input.baseOffset + (frame.resume - left.input.baseOffset) = frame.resume
    rw [hinput]
    omega
  refine ⟨⟨?_, ?_, ?_, hexclusive, ?_⟩, ?_⟩
  · show left.input.data = (whole.drop left.input.baseOffset).take left.input.size
    rw [hinput]
    exact h.window
  · show left.input.baseOffset + left.input.size ≤ whole.length
    rw [hinput]
    exact h.reach
  · show left.input.finalInput = true → left.input.baseOffset + left.input.size = whole.length
    rw [hinput]
    exact h.complete
  · rw [hoffset]
    show (frame.resume :: (left.stops ++ [left.input.reach])).Pairwise (· ≤ ·)
    rw [hinput]
    exact hordered
  · unfold TreeReader.over
    rw [hoffset]
    rfl

theorem close_event_pending (hend : reader.endPending = true) :
    closeEvent reader =
      some ({ kind := .ending, depth := reader.frames.length, offset := reader.pending.ending,
              skipped := reader.skipped },
        { reader with endPending := false, skipped := false }.leave reader.pending) := by
  unfold closeEvent
  rw [if_pos hend]

theorem close_event_descend (hend : reader.endPending = false)
    (hdescend : reader.descendPending = true) : closeEvent reader = none := by
  unfold closeEvent
  rw [if_neg (by simp [hend]), if_pos hdescend]

theorem close_event_frame (hend : reader.endPending = false)
    (hdescend : reader.descendPending = false) {frame : TreeFrame} {outer : List TreeFrame}
    (hframes : reader.frames = frame :: outer) :
    closeEvent reader =
      if reader.input.offset = frame.ending then
        some ({ kind := .ending, depth := outer.length, offset := frame.ending },
          { reader with frames := outer }.leave frame)
      else none := by
  unfold closeEvent
  rw [if_neg (by simp [hend]), if_neg (by simp [hdescend]), hframes]

theorem close_event_root (hend : reader.endPending = false)
    (hdescend : reader.descendPending = false) (hframes : reader.frames = []) :
    closeEvent reader = none := by
  unfold closeEvent
  rw [if_neg (by simp [hend]), if_neg (by simp [hdescend]), hframes]

/-- An end closes the pending value or the innermost frame, which is read up. -/
theorem close_event_cases {next : TreeReader} {event : TreeEvent}
    (h : closeEvent reader = some (event, next)) :
    (reader.endPending = true ∧
      event = { kind := .ending, depth := reader.frames.length, offset := reader.pending.ending,
                skipped := reader.skipped } ∧
      next = { reader with endPending := false, skipped := false }.leave reader.pending) ∨
    (reader.endPending = false ∧ reader.descendPending = false ∧ ∃ frame outer,
      reader.frames = frame :: outer ∧
      event = { kind := .ending, depth := outer.length, offset := frame.ending } ∧
      next = { reader with frames := outer }.leave frame) := by
  by_cases hend : reader.endPending = true
  · rw [close_event_pending hend] at h
    cases h
    exact .inl ⟨hend, rfl, rfl⟩
  rw [Bool.not_eq_true] at hend
  by_cases hdescend : reader.descendPending = true
  · rw [close_event_descend hend hdescend] at h
    cases h
  rw [Bool.not_eq_true] at hdescend
  cases hframes : reader.frames with
  | nil =>
    rw [close_event_root hend hdescend hframes] at h
    cases h
  | cons frame outer =>
    rw [close_event_frame hend hdescend hframes] at h
    split at h
    · cases h
      exact .inr ⟨hend, hdescend, frame, outer, rfl, rfl, rfl⟩
    · cases h

/-- An end that the window knows is the same over the whole input. -/
theorem close_event_over (h : reader.Coherent whole) :
    match closeEvent reader with
    | none => closeEvent (reader.over whole) = none
    | some (event, next) =>
      closeEvent (reader.over whole) = some (event, next.over whole) ∧
        next.Coherent whole := by
  have hordered := h.ordered
  have hbase : reader.input.baseOffset ≤ reader.input.offset := Nat.le_add_right _ _
  cases hend : reader.endPending with
  | true =>
    have hdescend : reader.descendPending = false := by
      cases hdescend : reader.descendPending with
      | false => rfl
      | true =>
        rw [h.exclusive hdescend] at hend
        cases hend
    simp only [TreeReader.stops, hdescend, hend, Bool.false_eq_true, if_false, if_true,
      List.cons_append, List.nil_append] at hordered
    rw [List.pairwise_cons] at hordered
    have hresume := hordered.1 reader.pending.resume List.mem_cons_self
    obtain ⟨hcoherent, hover⟩ := h.leave reader.pending
      { reader with endPending := false, skipped := false } rfl
      (by simpa [TreeReader.stops, hdescend] using hordered.2) (by omega) (fun _ => rfl)
    rw [close_event_pending hend, @close_event_pending (reader.over whole) hend]
    refine ⟨?_, hcoherent⟩
    rw [hover]
    rfl
  | false =>
    cases hdescend : reader.descendPending with
    | true =>
      rw [close_event_descend hend hdescend]
      exact @close_event_descend (reader.over whole) hend hdescend
    | false =>
      cases hframes : reader.frames with
      | nil =>
        rw [close_event_root hend hdescend hframes]
        exact @close_event_root (reader.over whole) hend hdescend hframes
      | cons frame outer =>
        rw [close_event_frame hend hdescend hframes,
          @close_event_frame (reader.over whole) hend hdescend _ _ hframes, over_offset]
        by_cases hlast : reader.input.offset = frame.ending
        · rw [if_pos hlast, if_pos hlast]
          simp only [TreeReader.stops, hdescend, hend, hframes, frameStops,
            Bool.false_eq_true, if_false, List.nil_append, List.flatMap_cons,
            List.cons_append] at hordered
          rw [List.pairwise_cons, List.pairwise_cons] at hordered
          have hresume := hordered.1 frame.resume (by simp)
          obtain ⟨hcoherent, hover⟩ := h.leave frame { reader with frames := outer } rfl
            (by simpa [TreeReader.stops, hdescend, hend, frameStops] using hordered.2.2)
            (by omega) h.exclusive
          refine ⟨?_, hcoherent⟩
          rw [hover]
          rfl
        · rw [if_neg hlast, if_neg hlast]

/-- The reader narrowed to the value of a frame. -/
def Reader.narrow (input : Reader) (frame : TreeFrame) : Reader :=
  { input with size := frame.ending - input.baseOffset, finalInput := true }

/-- Where the next element is read: at the root, or in the value of the innermost frame. -/
theorem enclosing_cases {frames : List TreeFrame} {input : Reader}
    (h : reader.enclosing = .ok (frames, input)) :
    (frames = [] ∧ input = reader.input ∧ reader.frames = [] ∧ reader.descendPending = false) ∨
    ∃ frame outer, frames = frame :: outer ∧ input = reader.input.narrow frame ∧
      (reader.descendPending = true ∧ frame = reader.pending ∧ outer = reader.frames ∨
        reader.descendPending = false ∧ reader.frames = frame :: outer) := by
  unfold TreeReader.enclosing at h
  cases hdescend : reader.descendPending with
  | true =>
    simp only [hdescend, if_true] at h
    obtain ⟨-, h⟩ := guard_ok.mp h
    split at h
    · cases h
    · cases h
      exact .inr ⟨_, _, rfl, rfl, .inl ⟨rfl, rfl, rfl⟩⟩
  | false =>
    simp only [hdescend, Bool.false_eq_true, if_false] at h
    split at h
    · rename_i hframes
      cases h
      exact .inl ⟨rfl, rfl, hframes, rfl⟩
    · rename_i frame outer hframes
      cases h
      exact .inr ⟨frame, outer, rfl, rfl, .inr ⟨rfl, hframes⟩⟩

theorem enclosing_over :
    (reader.over whole).enclosing =
      reader.enclosing.map fun found =>
        (found.1, match found.1 with
          | [] => (reader.over whole).input
          | frame :: _ => (reader.over whole).input.narrow frame) := by
  unfold TreeReader.enclosing TreeReader.over
  dsimp only
  cases hdescend : reader.descendPending with
  | true =>
    rw [if_pos rfl, if_pos rfl]
    split
    · rfl
    · split <;> rfl
  | false =>
    rw [if_neg (by decide), if_neg (by decide)]
    split <;> rfl

/-- The stops outside the value that the next element is read from. -/
theorem enclosing_ordered (h : reader.Coherent whole) (hend : reader.endPending = false)
    {frames : List TreeFrame} {input : Reader}
    (henclosing : reader.enclosing = .ok (frames, input)) :
    (reader.input.offset :: (frameStops frames ++ [reader.input.reach])).Pairwise (· ≤ ·) := by
  have hordered := h.ordered
  rcases enclosing_cases henclosing with ⟨rfl, -, hframes, hdescend⟩ |
    ⟨frame, outer, rfl, -, ⟨hdescend, rfl, rfl⟩ | ⟨hdescend, hframes⟩⟩
  · simpa [TreeReader.stops, hdescend, hend, hframes] using hordered
  · simpa [TreeReader.stops, hdescend, frameStops] using hordered
  · simpa [TreeReader.stops, hdescend, hend, hframes] using hordered

/-- The cursor moves inside the window. -/
theorem TreeReader.Coherent.move (h : reader.Coherent whole) (next : TreeReader) {pos : Nat}
    (hinput : next.input = { reader.input with pos := pos })
    (hordered : ((reader.input.baseOffset + pos) ::
      (next.stops ++ [reader.input.reach])).Pairwise (· ≤ ·))
    (hexclusive : next.descendPending = true → next.endPending = false) :
    next.Coherent whole := by
  refine ⟨?_, ?_, ?_, hexclusive, ?_⟩
  · rw [hinput]
    exact h.window
  · rw [hinput]
    exact h.reach
  · rw [hinput]
    exact h.complete
  · rw [hinput]
    exact hordered

/-- A published element leaves the reader coherent, and is the same over the whole input. -/
theorem publish_over (h : reader.Coherent whole) {frames : List TreeFrame} {input input' : Reader}
    {decoded : Decoded} (hpos : input.pos = reader.input.pos)
    (hbase : input.baseOffset = reader.input.baseOffset)
    (hpos' : input'.pos = reader.input.offset) (hbase' : input'.baseOffset = 0)
    (hextent : decoded.source.value.offset + decoded.source.value.size ≤ decoded.source.size)
    (hordered : ((reader.input.offset + decoded.source.size) ::
      (frameStops frames ++ [reader.input.reach])).Pairwise (· ≤ ·)) (constructed : Bool) :
    let published := reader.publish frames constructed input.offset decoded
      { input with pos := input.pos + decoded.source.size }
    published.2.Coherent whole ∧
      (reader.over whole).publish frames constructed input'.offset decoded
        { input' with pos := input'.pos + decoded.source.size } =
          (published.1, published.2.over whole) := by
  intro published
  have hoffset : input.offset = reader.input.offset := by
    unfold Reader.offset
    rw [hpos, hbase]
  have hoffset' : input'.offset = reader.input.offset := by
    rw [Reader.offset, hpos', hbase', Nat.zero_add]
  have hbelow : reader.input.baseOffset ≤ reader.input.offset := Nat.le_add_right _ _
  have hresume : ({ input with pos := input.pos + decoded.source.size } : Reader).offset =
      reader.input.offset + decoded.source.size := by
    show input.baseOffset + (input.pos + decoded.source.size) = _
    rw [← hoffset, Reader.offset, Nat.add_assoc]
  have hresume' : ({ input' with pos := input'.pos + decoded.source.size } : Reader).offset =
      reader.input.offset + decoded.source.size := by
    show input'.baseOffset + (input'.pos + decoded.source.size) = _
    rw [← hoffset', Reader.offset, Nat.add_assoc]
  cases constructed with
  | false =>
    constructor
    · refine h.move published.2 rfl ?_ fun hdescend => ?_
      · rw [hpos, ← Nat.add_assoc]
        exact hordered
      · cases hdescend
    · have hover : published.2.over whole =
          { reader.over whole with
            frames := frames
            input := { (reader.over whole).input with
              pos := reader.input.offset + decoded.source.size }
            count := reader.count + 1
            descendPending := false
            endPending := false } := by
        simp only [published, TreeReader.publish, TreeReader.over, Bool.false_eq_true, if_false,
          Bool.false_and, Reader.offset, hpos, Nat.add_assoc]
      rw [hover]
      simp only [published, TreeReader.publish, TreeReader.over, hoffset, hoffset', hpos',
        Bool.false_eq_true, if_false, Bool.false_and]
  | true =>
    have hstart : reader.input.baseOffset +
        (input.offset + decoded.source.value.offset - input.baseOffset) =
          reader.input.offset + decoded.source.value.offset := by
      rw [hoffset, hbase]
      omega
    constructor
    · refine h.move published.2 rfl ?_ fun hdescend => ?_
      · rw [hstart]
        have hrest := hordered
        rw [List.pairwise_cons] at hrest
        have hafter : ∀ stop ∈ frameStops frames ++ [reader.input.reach],
            reader.input.offset + decoded.source.size ≤ stop := hrest.1
        -- an empty value is closed at once and stops nothing
        by_cases hvalue : decoded.value.bytes.length = 0
        · have hstops : published.2.stops =
              (reader.input.offset + decoded.source.size) :: frameStops frames := by
            simp [published, TreeReader.publish, TreeReader.stops, hvalue, hresume]
          rw [hstops, List.cons_append, List.pairwise_cons]
          refine ⟨fun stop hstop => ?_, hordered⟩
          rcases List.mem_cons.mp hstop with rfl | hmem
          · omega
          · have := hafter stop hmem
            omega
        · have hstops : published.2.stops =
              (reader.input.offset + decoded.source.value.offset +
                decoded.source.value.size) ::
              (reader.input.offset + decoded.source.size) :: frameStops frames := by
            simp [published, TreeReader.publish, TreeReader.stops, hvalue, hresume, hoffset]
          rw [hstops, List.cons_append, List.cons_append, List.pairwise_cons,
            List.pairwise_cons]
          refine ⟨fun stop hstop => ?_, fun stop hstop => ?_, hordered⟩
          · rcases List.mem_cons.mp hstop with rfl | hstop
            · omega
            · rcases List.mem_cons.mp hstop with rfl | hmem
              · omega
              · have := hafter stop hmem
                omega
          · rcases List.mem_cons.mp hstop with rfl | hmem
            · omega
            · have := hafter stop hmem
              omega
      · simp only [published, TreeReader.publish, if_true, Bool.true_and, decide_eq_true_eq]
          at hdescend
        simpa [published, TreeReader.publish] using hdescend
    · have hover : published.2.over whole =
          { reader.over whole with
            frames := frames
            input := { (reader.over whole).input with
              pos := reader.input.offset + decoded.source.value.offset }
            count := reader.count + 1
            pending := ⟨reader.input.offset + decoded.source.value.offset +
              decoded.source.value.size, reader.input.offset + decoded.source.size⟩
            descendPending := decoded.value.bytes.length ≠ 0
            endPending := decoded.value.bytes.length = 0 } := by
        have hcursor : published.2.input.offset =
            reader.input.offset + decoded.source.value.offset := hstart
        unfold TreeReader.over
        rw [hcursor]
        simp only [published, TreeReader.publish, if_true, Bool.true_and, hresume, hoffset]
      rw [hover]
      simp only [published, TreeReader.publish, TreeReader.over, hoffset, hoffset', hresume',
        if_true, Bool.true_and]
      rw [hbase', Nat.sub_zero]

/-- A failure over the window and the one over the whole input. -/
def FailsAlike (same : Status → Status → Prop) (status status' : Status) : Prop :=
  status' = status ∨ status ≠ .atEnd ∧ status' ≠ .atEnd ∧ same status status'

/-- The result of a pull over the window and the one over the whole input: the same event and
corresponding states, two failures, or a request for more data. -/
def PullsAlike (same : Status → Status → Prop) (whole : Bytes) (reader : TreeReader)
    (short long : Except Status (TreeEvent × TreeReader)) : Prop :=
  match short with
  | .ok (event, next) => long = .ok (event, next.over whole) ∧ next.Coherent whole
  | .error status =>
    status = .needMoreData ∧ reader.input.finalInput = false ∨
      status ≠ .needMoreData ∧ ∃ status', long = .error status' ∧ FailsAlike same status status'

/-- A format whose results survive more input. -/
def KeepsFormat (same : Status → Status → Prop) (format : Format) : Prop :=
  format.decode.isSome ∧ ∀ p q, p ≠ [] →
    Persists Truncates (OnStatus same) (formatDecode format p) (formatDecode format (p ++ q))

variable {same : Status → Status → Prop}

/-- A decoder never reports the end of the input or a request for more. -/
theorem format_decode_code {data : Bytes} (hdata : data ≠ []) {status : Status}
    {detail : FormatError} (h : formatDecode format data = .error (status, detail)) :
    status ≠ .needMoreData ∧ status ≠ .atEnd := by
  unfold formatDecode at h
  split at h
  · cases h
    decide
  · split at h
    · rename_i hlength
      exact absurd (List.length_eq_zero_iff.mp hlength) hdata
    · split at h
      · split at h
        · cases h
        · cases h
          decide
      · rename_i code _ _
        cases h
        cases code <;> decide

/-- Both readers look at the same octets inside a frame. -/
theorem TreeReader.Coherent.narrow_rest (h : reader.Coherent whole) {frame : TreeFrame}
    (hframe : frame.ending ≤ reader.input.reach) :
    (reader.input.narrow frame).rest = ((reader.over whole).input.narrow frame).rest := by
  show (reader.input.data.take (frame.ending - reader.input.baseOffset)).drop reader.input.pos =
    (whole.take (frame.ending - 0)).drop reader.input.offset
  rw [h.slice hframe, Nat.sub_zero]

/-- At the root the whole input shows what is behind the window. -/
theorem TreeReader.Coherent.root_rest (h : reader.Coherent whole) :
    (reader.over whole).input.rest = reader.input.rest ++ whole.drop reader.input.reach := by
  have hle : reader.input.offset ≤ reader.input.reach :=
    h.offset_le (List.mem_append_right _ (List.mem_singleton.mpr rfl))
  have hreach := h.reach
  have hrest : reader.input.rest = (whole.take reader.input.reach).drop reader.input.offset := by
    rw [← h.slice (Nat.le_refl _)]
    show (reader.input.data.take reader.input.size).drop reader.input.pos = _
    rw [show reader.input.reach - reader.input.baseOffset = reader.input.size from
      Nat.add_sub_cancel_left _ _]
  show (whole.take whole.length).drop reader.input.offset = _
  rw [hrest, List.take_length]
  conv => lhs; rw [← List.take_append_drop reader.input.reach whole]
  rw [List.drop_append_of_le_length]
  rw [List.length_take]
  omega

theorem TreeReader.Coherent.narrow_within (h : reader.Coherent whole)
    (hwhole : whole.length ≤ sizeMax) {frame : TreeFrame}
    (hlow : reader.input.offset ≤ frame.ending) (hhigh : frame.ending ≤ reader.input.reach) :
    (reader.input.narrow frame).Within ∧ ((reader.over whole).input.narrow frame).Within := by
  have hreach := h.reach
  have hlength := h.data_length
  unfold Reader.offset at hlow
  unfold Reader.reach at hhigh hreach
  refine ⟨⟨?_, ?_, ?_⟩, ⟨?_, ?_, ?_⟩⟩
  · show reader.input.pos ≤ frame.ending - reader.input.baseOffset
    omega
  · show frame.ending - reader.input.baseOffset ≤ reader.input.data.length
    omega
  · show reader.input.baseOffset + (frame.ending - reader.input.baseOffset) ≤ sizeMax
    omega
  · show reader.input.baseOffset + reader.input.pos ≤ frame.ending - 0
    omega
  · show frame.ending - 0 ≤ whole.length
    omega
  · show 0 + (frame.ending - 0) ≤ sizeMax
    omega

theorem TreeReader.Coherent.over_within (h : reader.Coherent whole)
    (hwhole : whole.length ≤ sizeMax) : (reader.over whole).input.Within := by
  have hle := h.offset_le (List.mem_append_right _ (List.mem_singleton.mpr rfl))
  have hreach := h.reach
  refine ⟨?_, Nat.le_refl _, ?_⟩
  · show reader.input.offset ≤ whole.length
    omega
  · show 0 + whole.length ≤ sizeMax
    omega

/-- An element that was decoded is published alike. -/
theorem publish_alike (h : reader.Coherent whole) {frames : List TreeFrame} {input input' : Reader}
    {decoded : Decoded} (hpos : input.pos = reader.input.pos)
    (hbase : input.baseOffset = reader.input.baseOffset)
    (hpos' : input'.pos = reader.input.offset) (hbase' : input'.baseOffset = 0)
    (hwithin : input.Within) (hdecode : formatDecode format input.rest = .ok decoded)
    (hordered : (input.reach :: (frameStops frames ++ [reader.input.reach])).Pairwise (· ≤ ·)) :
    PullsAlike same whole reader
      (.ok (reader.publish frames (format.constructs decoded.tag.bytes) input.offset decoded
        { input with pos := input.pos + decoded.source.size }))
      (.ok ((reader.over whole).publish frames (format.constructs decoded.tag.bytes)
        input'.offset decoded { input' with pos := input'.pos + decoded.source.size })) := by
  obtain ⟨hsize, hextent, -⟩ := format_decode_extent hdecode
  rw [hwithin.rest_length] at hsize
  have hpos_le := hwithin.pos
  have hend : reader.input.offset + decoded.source.size ≤ input.reach := by
    unfold Reader.offset Reader.reach
    omega
  have hordered' : ((reader.input.offset + decoded.source.size) ::
      (frameStops frames ++ [reader.input.reach])).Pairwise (· ≤ ·) := by
    rw [List.pairwise_cons] at hordered ⊢
    exact ⟨fun stop hstop => hend.trans (hordered.1 stop hstop), hordered.2⟩
  obtain ⟨hcoherent, hequal⟩ := publish_over h hpos hbase hpos' hbase' hextent hordered'
    (format.constructs decoded.tag.bytes)
  exact ⟨congrArg Except.ok hequal, hcoherent⟩

/-- A pull inside a frame does not depend on the window. -/
theorem next_event_narrow (hformat : format.decode.isSome) (hwhole : whole.length ≤ sizeMax)
    (h : reader.Coherent whole) {frame : TreeFrame} {outer : List TreeFrame}
    (hordered : (reader.input.offset ::
      (frameStops (frame :: outer) ++ [reader.input.reach])).Pairwise (· ≤ ·)) :
    PullsAlike same whole reader
      ((readerNext format (reader.input.narrow frame)).map fun read =>
        reader.publish (frame :: outer) (format.constructs read.1.tag.bytes)
          (reader.input.narrow frame).offset read.1 read.2)
      ((readerNext format ((reader.over whole).input.narrow frame)).map fun read =>
        (reader.over whole).publish (frame :: outer) (format.constructs read.1.tag.bytes)
          ((reader.over whole).input.narrow frame).offset read.1 read.2) := by
  rw [List.pairwise_cons] at hordered
  have hlow : reader.input.offset ≤ frame.ending := hordered.1 _ List.mem_cons_self
  have hhigh : frame.ending ≤ reader.input.reach :=
    (List.pairwise_cons.mp hordered.2).1 _ (by simp)
  obtain ⟨hwithin, hwithin'⟩ := h.narrow_within hwhole hlow hhigh
  have hreach : (reader.input.narrow frame).reach = frame.ending := by
    unfold Reader.offset at hlow
    show reader.input.baseOffset + (frame.ending - reader.input.baseOffset) = frame.ending
    omega
  rw [reader_next_eq hwithin hformat, reader_next_eq hwithin' hformat,
    ← h.narrow_rest hhigh]
  split
  · exact .inr ⟨by simp [Reader.narrow], _, rfl, .inl rfl⟩
  · rename_i hempty
    cases hdecode : formatDecode format (reader.input.narrow frame).rest with
    | ok decoded =>
      refine publish_alike h rfl rfl rfl rfl hwithin hdecode ?_
      rw [hreach, List.pairwise_cons]
      refine ⟨fun stop hstop => ?_, hordered.2⟩
      rcases List.mem_cons.mp hstop with rfl | hmem
      · exact Nat.le_refl _
      · exact (List.pairwise_cons.mp hordered.2).1 stop hmem
    | error failed =>
      obtain ⟨status, detail⟩ := failed
      have hcode := (format_decode_code hempty hdecode).1
      have hshort : (if status = Status.truncated ∧
          (reader.input.narrow frame).finalInput = false then Status.needMoreData
            else status) = status := if_neg fun hnot => by cases hnot.2
      have hlong : (if status = Status.truncated ∧
          ((reader.over whole).input.narrow frame).finalInput = false then Status.needMoreData
            else status) = status := if_neg fun hnot => by cases hnot.2
      dsimp only [Except.map]
      rw [hshort, hlong]
      exact .inr ⟨hcode, _, rfl, .inl rfl⟩

/-- A pull at the root, where the whole input may show more than the window. -/
theorem next_event_root (hformat : KeepsFormat same format) (hwhole : whole.length ≤ sizeMax)
    (h : reader.Coherent whole) :
    PullsAlike same whole reader
      ((readerNext format reader.input).map fun read =>
        reader.publish [] (format.constructs read.1.tag.bytes) reader.input.offset read.1 read.2)
      ((readerNext format (reader.over whole).input).map fun read =>
        (reader.over whole).publish [] (format.constructs read.1.tag.bytes)
          (reader.over whole).input.offset read.1 read.2) := by
  have hwithin := h.within hwhole
  have hwithin' := h.over_within hwhole
  have hrest := h.root_rest
  have hfinal : reader.input.finalInput = true →
      (reader.over whole).input.rest = reader.input.rest := by
    intro hfinal
    rw [hrest, h.complete hfinal, List.drop_length, List.append_nil]
  have hreach : (reader.input.reach :: (frameStops [] ++ [reader.input.reach])).Pairwise
      (· ≤ ·) := by simp [frameStops]
  rw [reader_next_eq hwithin hformat.1, reader_next_eq hwithin' hformat.1]
  by_cases hempty : reader.input.rest = []
  · rw [if_pos hempty]
    cases hinput : reader.input.finalInput with
    | false => exact .inl ⟨rfl, hinput⟩
    | true =>
      rw [hfinal hinput, if_pos hempty]
      exact .inr ⟨by decide, _, rfl, .inl rfl⟩
  · have hempty' : ¬ (reader.over whole).input.rest = [] := by
      rw [hrest]
      simp [hempty]
    rw [if_neg hempty, if_neg hempty']
    have hpersists := hformat.2 reader.input.rest (whole.drop reader.input.reach) hempty
    rw [← hrest] at hpersists
    cases hdecode : formatDecode format reader.input.rest with
    | ok decoded =>
      rw [hdecode, persists_ok] at hpersists
      rw [hpersists]
      exact publish_alike h rfl rfl rfl rfl hwithin hdecode hreach
    | error failed =>
      obtain ⟨status, detail⟩ := failed
      obtain ⟨hcode, hcontrol⟩ := format_decode_code hempty hdecode
      dsimp only [Except.map]
      by_cases hask : status = .truncated ∧ reader.input.finalInput = false
      · rw [if_pos hask]
        exact .inl ⟨rfl, hask.2⟩
      · rw [if_neg hask]
        refine .inr ⟨hcode, ?_⟩
        have hlong : ∃ status' detail', formatDecode format (reader.over whole).input.rest =
            .error (status', detail') ∧ FailsAlike same status status' := by
          cases hinput : reader.input.finalInput with
          | true => exact ⟨status, detail, by rw [hfinal hinput, hdecode], .inl rfl⟩
          | false =>
            rw [hdecode] at hpersists
            rcases hpersists with htruncated | ⟨⟨status', detail'⟩, heq, hsame⟩
            · exact absurd ⟨htruncated, hinput⟩ hask
            · exact ⟨status', detail', heq,
                .inr ⟨hcontrol, (format_decode_code hempty' heq).2, hsame⟩⟩
        obtain ⟨status', detail', heq, halike⟩ := hlong
        rw [heq]
        refine ⟨status', ?_, halike⟩
        show Except.error (if status' = Status.truncated ∧ true = false then
          Status.needMoreData else status') = _
        rw [if_neg fun hnot => by cases hnot.2]

/-- A pull that neither closes a frame nor meets a limit reads an element. -/
theorem next_event_read (hclose : closeEvent reader = none) {frames : List TreeFrame}
    {input : Reader} (henclosing : reader.enclosing = .ok (frames, input)) :
    treeReaderNextEvent format reader =
      if input.pos < input.size ∧ reader.count = reader.maxElements then .error .limit
      else
        (readerNext format input).map fun read =>
          reader.publish frames (format.constructs read.1.tag.bytes) input.offset read.1
            read.2 := by
  unfold treeReaderNextEvent
  rw [hclose]
  dsimp only
  rw [henclosing]
  dsimp only
  split
  · rfl
  · cases readerNext format input <;> rfl

/-- A pull closes a group, or publishes the element that the enclosing window begins with. -/
theorem next_event_cases {next : TreeReader} {event : TreeEvent}
    (h : treeReaderNextEvent format reader = .ok (event, next)) :
    closeEvent reader = some (event, next) ∨
      closeEvent reader = none ∧ ∃ frames input decoded after,
        reader.enclosing = .ok (frames, input) ∧
        ¬ (input.pos < input.size ∧ reader.count = reader.maxElements) ∧
        readerNext format input = .ok (decoded, after) ∧
        reader.publish frames (format.constructs decoded.tag.bytes) input.offset decoded after =
          (event, next) := by
  cases hclose : closeEvent reader with
  | some closed =>
    simp only [treeReaderNextEvent, hclose] at h
    cases h
    exact .inl rfl
  | none =>
    cases henclosing : reader.enclosing with
    | error status =>
      simp only [treeReaderNextEvent, hclose, henclosing] at h
      cases h
    | ok found =>
      obtain ⟨frames, input⟩ := found
      rw [next_event_read hclose henclosing] at h
      obtain ⟨hlimit, h⟩ := guard_ok.mp h
      obtain ⟨⟨decoded, after⟩, hread, h⟩ := bind_ok.mp h
      exact .inr ⟨rfl, frames, input, decoded, after, rfl, hlimit, hread,
        Except.ok.inj h⟩

/-- The limit on elements and a request for more data come at the same place. -/
theorem limit_alike {short long : Except Status (TreeEvent × TreeReader)} {limit limit' : Prop}
    [Decidable limit] [Decidable limit'] (hlimit : limit → limit')
    (hmore : limit' → ¬ limit → short = .error .needMoreData ∧ reader.input.finalInput = false)
    (h : PullsAlike same whole reader short long) :
    PullsAlike same whole reader (if limit then .error .limit else short)
      (if limit' then .error .limit else long) := by
  by_cases hshort : limit
  · rw [if_pos hshort, if_pos (hlimit hshort)]
    exact .inr ⟨by decide, _, rfl, .inl rfl⟩
  · rw [if_neg hshort]
    by_cases hlong : limit'
    · obtain ⟨hneed, hfinal⟩ := hmore hlong hshort
      rw [if_pos hlong, hneed]
      exact .inl ⟨rfl, hfinal⟩
    · rw [if_neg hlong]
      exact h

/-- One pull over a window and over the whole input. -/
theorem next_event_over (hformat : KeepsFormat same format) (hwhole : whole.length ≤ sizeMax)
    (h : reader.Coherent whole) :
    PullsAlike same whole reader (treeReaderNextEvent format reader)
      (treeReaderNextEvent format (reader.over whole)) := by
  have hclose := close_event_over h
  cases hclosed : closeEvent reader with
  | some closed =>
    obtain ⟨event, next⟩ := closed
    rw [hclosed] at hclose
    obtain ⟨hover, hcoherent⟩ := hclose
    simp only [treeReaderNextEvent, hclosed, hover]
    exact ⟨rfl, hcoherent⟩
  | none =>
    rw [hclosed] at hclose
    have hend : reader.endPending = false := by
      cases hend : reader.endPending with
      | false => rfl
      | true =>
        rw [close_event_pending hend] at hclosed
        cases hclosed
    have hover := @enclosing_over whole reader
    cases henclosing : reader.enclosing with
    | error status =>
      rw [henclosing] at hover
      simp only [treeReaderNextEvent, hclosed, hclose, henclosing, hover, Except.map]
      refine .inr ⟨?_, _, rfl, .inl rfl⟩
      unfold TreeReader.enclosing at henclosing
      split at henclosing
      · split at henclosing
        · cases henclosing
          decide
        · split at henclosing
          · cases henclosing
            decide
          · cases henclosing
      · split at henclosing <;> cases henclosing
    | ok found =>
      obtain ⟨frames, input⟩ := found
      rw [henclosing] at hover
      have hordered := enclosing_ordered h hend henclosing
      -- at the root the window is read, in a frame what it leaves of it
      rcases enclosing_cases henclosing with ⟨rfl, rfl, -, -⟩ | ⟨frame, outer, rfl, rfl, -⟩
      · have hreach := h.reach
        have hcomplete := h.complete
        have hpos := h.pos_le
        unfold Reader.reach at hreach hcomplete
        rw [next_event_read hclosed henclosing, next_event_read hclose hover]
        refine limit_alike ?_ ?_ (next_event_root hformat hwhole h)
        · rintro ⟨hlt, hcount⟩
          refine ⟨?_, hcount⟩
          show reader.input.baseOffset + reader.input.pos < whole.length
          omega
        · rintro ⟨hlt, hcount⟩ hnot
          have hlt : reader.input.baseOffset + reader.input.pos < whole.length := hlt
          have hlast : ¬ reader.input.pos < reader.input.size := fun hlt => hnot ⟨hlt, hcount⟩
          have hfinal : reader.input.finalInput = false := by
            cases hfinal : reader.input.finalInput with
            | false => rfl
            | true =>
              have := hcomplete hfinal
              omega
          have hempty : reader.input.rest = [] := by
            rw [← List.length_eq_zero_iff, (h.within hwhole).rest_length]
            omega
          refine ⟨?_, hfinal⟩
          rw [reader_next_eq (h.within hwhole) hformat.1, if_pos hempty, hfinal]
          rfl
      · have hlow : reader.input.offset ≤ frame.ending :=
          (List.pairwise_cons.mp hordered).1 _ List.mem_cons_self
        unfold Reader.offset at hlow
        rw [next_event_read hclosed henclosing, next_event_read hclose hover]
        have hsame : (reader.input.narrow frame).pos < (reader.input.narrow frame).size ↔
            ((reader.over whole).input.narrow frame).pos <
              ((reader.over whole).input.narrow frame).size := by
          show reader.input.pos < frame.ending - reader.input.baseOffset ↔
            reader.input.baseOffset + reader.input.pos < frame.ending - 0
          omega
        refine limit_alike (fun hlimit => ⟨hsame.mp hlimit.1, hlimit.2⟩)
          (fun hlimit hnot => absurd ⟨hsame.mpr hlimit.1, hlimit.2⟩ hnot)
          (next_event_narrow hformat.1 hwhole h hordered)

/-- A new window at the same place. -/
theorem set_input_over (h : reader.Coherent whole) {data : Bytes} {discard : Nat}
    {finalInput : Bool} {next : TreeReader}
    (hshows : data <+: whole.drop (reader.input.baseOffset + discard))
    (hfinal : finalInput = true →
      reader.input.baseOffset + discard + data.length = whole.length)
    (hset : treeReaderSetInput format reader data discard finalInput = .ok next) :
    next.Coherent whole ∧ next.over whole = reader.over whole := by
  unfold treeReaderSetInput readerSetInput at hset
  split at hset
  · cases hset
  · rename_i hvalid
    split at hset
    · cases hset
    · rename_i hdiscard
      split at hset
      · cases hset
      · rename_i hretained
        split at hset
        · cases hset
        · split at hset
          · cases hset
          · cases hset
            have hlength : data.length ≤ whole.length - (reader.input.baseOffset + discard) := by
              have := hshows.length_le
              rwa [List.length_drop] at this
            have hreach := h.reach
            have hpos := h.pos_le
            unfold Reader.reach at hreach
            have hoffset : reader.input.baseOffset + discard + (reader.input.pos - discard) =
                reader.input.offset := by
              unfold Reader.offset
              omega
            have hextends : reader.input.reach ≤
                reader.input.baseOffset + discard + data.length := by
              unfold Reader.reach
              omega
            refine ⟨⟨?_, ?_, hfinal, h.exclusive, ?_⟩, ?_⟩
            · exact List.prefix_iff_eq_take.mp hshows
            · show reader.input.baseOffset + discard + data.length ≤ whole.length
              omega
            · show ((reader.input.baseOffset + discard + (reader.input.pos - discard)) ::
                (reader.stops ++ [reader.input.baseOffset + discard + data.length])).Pairwise
                  (· ≤ ·)
              rw [hoffset]
              have hordered := h.ordered
              rw [List.pairwise_cons, List.pairwise_append] at hordered ⊢
              obtain ⟨hfirst, hstops, -, hlast⟩ := hordered
              refine ⟨fun stop hstop => ?_, hstops, List.pairwise_singleton _ _, ?_⟩
              · rcases List.mem_append.mp hstop with hmem | hmem
                · exact hfirst stop (List.mem_append_left _ hmem)
                · rw [List.mem_singleton.mp hmem]
                  exact (hfirst _ (List.mem_append_right _ (List.mem_singleton.mpr rfl))).trans
                    hextends
              · intro stop hstop last hmem
                rw [List.mem_singleton.mp hmem]
                exact (hlast stop hstop _ (List.mem_singleton.mpr rfl)).trans hextends
            · unfold TreeReader.over
              dsimp only
              rw [show ({ data := data, size := data.length, pos := reader.input.pos - discard,
                          baseOffset := reader.input.baseOffset + discard,
                          finalInput := finalInput } : Reader).offset = reader.input.offset from
                hoffset]

/-- The reader over the whole input is coherent with it. -/
theorem TreeReader.Coherent.over (h : reader.Coherent whole) :
    (reader.over whole).Coherent whole := by
  refine ⟨?_, Nat.le_of_eq (Nat.zero_add _), fun _ => Nat.zero_add _, h.exclusive, ?_⟩
  · show whole = (whole.drop 0).take whole.length
    rw [List.drop_zero, List.take_length]
  · have hstops : (reader.over whole).stops = reader.stops := rfl
    have hordered := h.ordered
    have hreach := h.reach
    rw [over_offset, hstops, show (reader.over whole).input.reach = whole.length from
      Nat.zero_add _]
    rw [← List.cons_append, List.pairwise_append] at hordered ⊢
    refine ⟨hordered.1, List.pairwise_singleton _ _, ?_⟩
    intro stop hstop reach hlast
    rw [List.mem_singleton.mp hlast]
    exact (hordered.2.2 stop hstop _ (List.mem_singleton.mpr rfl)).trans hreach

/-- The end of a window that is final is not a request for more data. -/
theorem next_event_final (hformat : KeepsFormat same format) (hwhole : whole.length ≤ sizeMax)
    (h : reader.Coherent whole) (hfinal : reader.input.finalInput = true) :
    treeReaderNextEvent format reader ≠ .error .needMoreData := by
  intro hneed
  have hpull := next_event_over hformat hwhole h
  rw [hneed] at hpull
  rcases hpull with ⟨-, hnot⟩ | ⟨hnot, -⟩
  · rw [hfinal] at hnot
    cases hnot
  · exact hnot rfl

/-- Skipping a subtree does not depend on the window. -/
theorem skip_subtree_over (h : reader.Coherent whole) :
    match treeReaderSkipSubtree reader with
    | .error status => treeReaderSkipSubtree (reader.over whole) = .error status
    | .ok next =>
      treeReaderSkipSubtree (reader.over whole) = .ok (next.over whole) ∧
        next.Coherent whole := by
  unfold treeReaderSkipSubtree
  cases hdescend : reader.descendPending with
  | false =>
    rw [if_neg Bool.false_ne_true]
    refine if_neg ?_
    show ¬ reader.descendPending = true
    rw [hdescend]
    exact Bool.false_ne_true
  | true =>
    have hordered := h.ordered
    rw [TreeReader.stops, hdescend, if_pos rfl] at hordered
    simp only [List.cons_append, List.nil_append] at hordered
    rw [List.pairwise_cons, List.pairwise_cons] at hordered
    obtain ⟨hoffset, -, hresume⟩ := hordered
    have hbase : reader.input.baseOffset ≤ reader.pending.resume := by
      have hle := hoffset reader.pending.resume
        (List.mem_cons_of_mem _ (List.mem_cons_self))
      unfold Reader.offset at hle
      omega
    have hleave := h.leave reader.pending
      { reader with descendPending := false, endPending := true, skipped := true } rfl
      (by
        show (reader.pending.resume :: ([reader.pending.resume] ++ frameStops reader.frames ++
          [reader.input.reach])).Pairwise (· ≤ ·)
        refine List.pairwise_cons.mpr ⟨?_, hresume⟩
        intro stop hstop
        rcases List.mem_cons.mp hstop with rfl | hmem
        · exact Nat.le_refl _
        · exact (List.pairwise_cons.mp hresume).1 stop hmem)
      hbase (fun h => by cases h)
    refine ⟨?_, hleave.1⟩
    rw [if_pos (show (reader.over whole).descendPending = true from hdescend)]
    exact congrArg Except.ok hleave.2.symm

end Tree

section Runs

/-- The calls of a client on a tree reader. -/
inductive TreeCall where
  | pull
  | supply (data : Bytes) (discard : Nat) (finalInput : Bool)
  deriving Repr, DecidableEq

/-- One call: the reader after it and what a pull returns. -/
def TreeCall.apply (format : Format) (reader : TreeReader) :
    TreeCall → TreeReader × Option (Except Status TreeEvent)
  | .pull =>
    match treeReaderNextEvent format reader with
    | .ok (event, next) => (next, some (.ok event))
    | .error status => (reader, some (.error status))
  | .supply data discard finalInput =>
    match treeReaderSetInput format reader data discard finalInput with
    | .ok next => (next, none)
    | .error _ => (reader, none)

/-- The reader after some calls. -/
def treeAfter (format : Format) : TreeReader → List TreeCall → TreeReader
  | reader, [] => reader
  | reader, call :: calls => treeAfter format (call.apply format reader).1 calls

/-- What the pulls among some calls return. -/
def treeResults (format : Format) : TreeReader → List TreeCall → List (Except Status TreeEvent)
  | _, [] => []
  | reader, call :: calls =>
    (call.apply format reader).2.toList ++ treeResults format (call.apply format reader).1 calls

/-- What `count` pulls in a row return. -/
def treePulls (format : Format) (reader : TreeReader) (count : Nat) :
    List (Except Status TreeEvent) :=
  treeResults format reader (List.replicate count .pull)

/-- Supplied windows show `whole`, and a final one shows it to its end. -/
def TreeCall.Shows (whole : Bytes) (reader : TreeReader) : TreeCall → Prop
  | .pull => True
  | .supply data discard finalInput =>
    data <+: whole.drop (reader.input.baseOffset + discard) ∧
      (finalInput = true → reader.input.baseOffset + discard + data.length = whole.length)

/-- Calls that deliver `whole` in windows. -/
def Delivers (format : Format) (whole : Bytes) : TreeReader → List TreeCall → Prop
  | _, [] => True
  | reader, call :: calls =>
    call.Shows whole reader ∧ Delivers format whole (call.apply format reader).1 calls

instance (whole : Bytes) (reader : TreeReader) : (call : TreeCall) →
    Decidable (call.Shows whole reader)
  | .pull => inferInstanceAs (Decidable True)
  | .supply _ _ _ => inferInstanceAs (Decidable (_ ∧ _))

instance decidableDelivers (format : Format) (whole : Bytes) : (reader : TreeReader) →
    (calls : List TreeCall) → Decidable (Delivers format whole reader calls)
  | _, [] => inferInstanceAs (Decidable True)
  | reader, call :: calls =>
    have := decidableDelivers format whole (call.apply format reader).1 calls
    inferInstanceAs (Decidable (_ ∧ _))

/-- The results that are not requests for more data. -/
def settled (results : List (Except Status TreeEvent)) : List (Except Status TreeEvent) :=
  results.filter (· ≠ .error .needMoreData)

/-- The same event, or failures that are alike. -/
def ResultsAlike (same : Status → Status → Prop) (short long : Except Status TreeEvent) : Prop :=
  match short with
  | .ok event => long = .ok event
  | .error status => ∃ status', long = .error status' ∧ FailsAlike same status status'

variable {format : Format} {whole : Bytes} {same : Status → Status → Prop}

theorem tree_pulls_succ (reader : TreeReader) (count : Nat) :
    treePulls format reader (count + 1) =
      match treeReaderNextEvent format reader with
      | .ok (event, next) => .ok event :: treePulls format next count
      | .error status => .error status :: treePulls format reader count := by
  unfold treePulls
  rw [List.replicate_succ, treeResults]
  simp only [TreeCall.apply]
  cases treeReaderNextEvent format reader <;> rfl

/-- Along any calls, the settled results are those of pulls over the whole input. -/
theorem tree_results_over (hformat : KeepsFormat same format) (hwhole : whole.length ≤ sizeMax)
    {calls : List TreeCall} {reader : TreeReader} (h : reader.Coherent whole)
    (hcalls : Delivers format whole reader calls) :
    (treeAfter format reader calls).Coherent whole ∧
      List.Forall₂ (ResultsAlike same) (settled (treeResults format reader calls))
        (treePulls format (reader.over whole)
          (settled (treeResults format reader calls)).length) := by
  induction calls generalizing reader with
  | nil => exact ⟨h, .nil⟩
  | cons call calls ih =>
    obtain ⟨hshows, hrest⟩ := hcalls
    cases call with
    | supply data discard finalInput =>
      have happly : (TreeCall.supply data discard finalInput).apply format reader =
          ((TreeCall.supply data discard finalInput).apply format reader |>.1, none) := by
        unfold TreeCall.apply
        dsimp only
        split <;> rfl
      have hnext : ((TreeCall.supply data discard finalInput).apply format reader).1.Coherent
          whole ∧ ((TreeCall.supply data discard finalInput).apply format reader).1.over whole =
            reader.over whole := by
        unfold TreeCall.apply
        dsimp only
        cases hset : treeReaderSetInput format reader data discard finalInput with
        | ok next => exact set_input_over h hshows.1 hshows.2 hset
        | error status => exact ⟨h, rfl⟩
      obtain ⟨hcoherent, hover⟩ := hnext
      have hih := ih hcoherent hrest
      rw [hover] at hih
      rw [treeAfter, treeResults, happly]
      exact hih
    | pull =>
      have hpull := next_event_over hformat hwhole h
      cases hevent : treeReaderNextEvent format reader with
      | ok found =>
        obtain ⟨event, next⟩ := found
        have happly : TreeCall.pull.apply format reader = (next, some (.ok event)) := by
          simp only [TreeCall.apply, hevent]
        rw [hevent] at hpull
        obtain ⟨hover, hcoherent⟩ := hpull
        rw [happly] at hrest
        obtain ⟨hafter, hresults⟩ := ih hcoherent hrest
        refine ⟨by rw [treeAfter, happly]; exact hafter, ?_⟩
        have hsettled : settled (treeResults format reader (.pull :: calls)) =
            .ok event :: settled (treeResults format next calls) := by
          rw [treeResults, happly]
          rfl
        rw [hsettled, List.length_cons, tree_pulls_succ, hover]
        exact .cons rfl hresults
      | error status =>
        have happly : TreeCall.pull.apply format reader = (reader, some (.error status)) := by
          simp only [TreeCall.apply, hevent]
        rw [hevent] at hpull
        rw [happly] at hrest
        obtain ⟨hafter, hresults⟩ := ih h hrest
        refine ⟨by rw [treeAfter, happly]; exact hafter, ?_⟩
        rcases hpull with ⟨rfl, -⟩ | ⟨hstatus, status', hover, halike⟩
        · have hsettled : settled (treeResults format reader (.pull :: calls)) =
              settled (treeResults format reader calls) := by
            rw [treeResults, happly]
            simp [settled]
          rw [hsettled]
          exact hresults
        · have hsettled : settled (treeResults format reader (.pull :: calls)) =
              .error status :: settled (treeResults format reader calls) := by
            rw [treeResults, happly]
            simp [settled, hstatus]
          rw [hsettled, List.length_cons, tree_pulls_succ, hover]
          exact .cons ⟨status', rfl, halike⟩ hresults

/-- Reading succeeds only ahead of the end of the window. -/
theorem reader_next_lt {input after : Reader} {decoded : Decoded}
    (h : readerNext format input = .ok (decoded, after)) : input.pos < input.size := by
  unfold readerNext at h
  split at h
  · cases h
  · rename_i hvalid
    split at h
    · cases h
    · rename_i hlast
      unfold readerValid at hvalid
      split at hvalid
      · cases hvalid
      · split at hvalid
        · cases hvalid
        · omega

theorem close_event_progress {reader next : TreeReader} {event : TreeEvent}
    (h : closeEvent reader = some (event, next)) :
    next.input.finalInput = reader.input.finalInput ∧ next.maxElements = reader.maxElements ∧
      next.count = reader.count ∧ next.remaining < reader.remaining := by
  rcases close_event_cases h with ⟨hend, -, rfl⟩ | ⟨hend, hdescend, frame, outer, hframes, -, rfl⟩
  · refine ⟨rfl, rfl, rfl, ?_⟩
    cases hdescend : reader.descendPending <;>
      simp [TreeReader.remaining, TreeReader.leave, hend, hdescend]
  · refine ⟨rfl, rfl, rfl, ?_⟩
    simp [TreeReader.remaining, TreeReader.leave, hend, hdescend, hframes]

theorem enclosing_length {reader : TreeReader} {frames : List TreeFrame} {input : Reader}
    (h : reader.enclosing = .ok (frames, input)) :
    frames.length = reader.frames.length + if reader.descendPending then 1 else 0 := by
  rcases enclosing_cases h with ⟨rfl, -, hframes, hdescend⟩ |
    ⟨frame, outer, rfl, -, ⟨hdescend, -, rfl⟩ | ⟨hdescend, hframes⟩⟩
  · simp [hframes, hdescend]
  · simp [hdescend]
  · simp [hframes, hdescend]

/-- Publishing counts an element and leaves less to do. -/
theorem publish_progress {reader : TreeReader} {frames : List TreeFrame}
    (hframes : frames.length = reader.frames.length + if reader.descendPending then 1 else 0)
    (constructed : Bool) (offset : Nat) (decoded : Decoded) (after : Reader) :
    let next := (reader.publish frames constructed offset decoded after).2
    next.input.finalInput = reader.input.finalInput ∧ next.maxElements = reader.maxElements ∧
      next.count = reader.count + 1 ∧
        (reader.count < reader.maxElements → next.remaining < reader.remaining) := by
  have hflags : (if (decide (decoded.value.bytes.length ≠ 0)) = true then 1 else 0) +
      (if (decide (decoded.value.bytes.length = 0)) = true then 1 else 0) = 1 := by
    by_cases hvalue : decoded.value.bytes.length = 0 <;> simp [hvalue]
  cases constructed with
  | false =>
    refine ⟨rfl, rfl, rfl, fun hcount => ?_⟩
    simp only [TreeReader.publish, TreeReader.remaining, hframes, Bool.false_and,
      Bool.false_eq_true, if_false]
    omega
  | true =>
    refine ⟨rfl, rfl, rfl, fun hcount => ?_⟩
    simp only [TreeReader.publish, TreeReader.remaining, hframes, Bool.true_and, if_true]
    omega

/-- A pull that returns an event brings the reader closer to its end. -/
theorem next_event_progress {reader next : TreeReader} {event : TreeEvent}
    (h : treeReaderNextEvent format reader = .ok (event, next)) :
    next.input.finalInput = reader.input.finalInput ∧
      (reader.count ≤ reader.maxElements →
        next.count ≤ next.maxElements ∧ next.remaining < reader.remaining) := by
  rcases next_event_cases h with hclosed |
    ⟨-, frames, input, decoded, after, henclosing, hlimit, hread, hpublish⟩
  · obtain ⟨hfinal, hmax, hcount, hless⟩ := close_event_progress hclosed
    exact ⟨hfinal, fun hle => ⟨by omega, hless⟩⟩
  · have hlt := reader_next_lt hread
    have hprogress := publish_progress (enclosing_length henclosing)
      (format.constructs decoded.tag.bytes) input.offset decoded after
    rw [hpublish] at hprogress
    dsimp only at hprogress
    obtain ⟨hfinal, hmax, hnumber, hless⟩ := hprogress
    refine ⟨hfinal, fun hle => ?_⟩
    have hcount : reader.count ≠ reader.maxElements := fun heq => hlimit ⟨hlt, heq⟩
    exact ⟨by omega, hless (by omega)⟩

/-- A reader whose window is final never asks for more data. -/
theorem tree_pulls_final (hformat : KeepsFormat same format) (hwhole : whole.length ≤ sizeMax)
    {reader : TreeReader} (h : reader.Coherent whole) (hfinal : reader.input.finalInput = true)
    (count : Nat) : .error .needMoreData ∉ treePulls format reader count := by
  induction count generalizing reader with
  | zero => exact List.not_mem_nil
  | succ count ih =>
    have hpull := next_event_over hformat hwhole h
    rw [tree_pulls_succ]
    cases hevent : treeReaderNextEvent format reader with
    | ok found =>
      obtain ⟨event, next⟩ := found
      rw [hevent] at hpull
      have hnext := ih hpull.2 ((next_event_progress hevent).1.trans hfinal)
      simpa using hnext
    | error status =>
      rw [hevent] at hpull
      rcases hpull with ⟨-, hnot⟩ | ⟨hstatus, -⟩
      · rw [hfinal] at hnot
        cases hnot
      · have hnext := ih h hfinal
        simpa [hnext] using fun heq => hstatus heq.symm

/-- A reader fails after finitely many events. -/
theorem tree_pulls_end {reader : TreeReader} (hcount : reader.count ≤ reader.maxElements)
    {count : Nat} (h : reader.remaining < count) :
    ∃ status, .error status ∈ treePulls format reader count := by
  induction count generalizing reader with
  | zero => omega
  | succ count ih =>
    rw [tree_pulls_succ]
    cases hevent : treeReaderNextEvent format reader with
    | ok found =>
      obtain ⟨event, next⟩ := found
      obtain ⟨hnext, hless⟩ := (next_event_progress hevent).2 hcount
      obtain ⟨status, hmem⟩ := ih hnext (by omega)
      exact ⟨status, List.mem_cons_of_mem _ hmem⟩
    | error status => exact ⟨status, List.mem_cons_self⟩

/-- A decoded element and a failure other than a truncation survive more input. -/
def PrefixStable (format : Format) : Prop :=
  KeepsFormat StaysFailed format

/-- A failure other than a truncation even keeps its code. -/
def KeepsCodes (format : Format) : Prop :=
  KeepsFormat SameCode format

theorem keeps_format {decode : Bytes → FormatResult Decoded} [Kindred same]
    (hformat : format.decode = some decode) (h : KeepsDecode same decode) :
    KeepsFormat same format := by
  refine ⟨by rw [hformat]; rfl, fun p q hp => ?_⟩
  exact format_decode_persists hformat h hp q

theorem library_format_prefix_stable (h : LibraryFormat format) : PrefixStable format := by
  obtain ⟨decode, hdecode, hkeeps⟩ := library_format_stable h
  exact keeps_format hdecode hkeeps

theorem ber_keeps_codes : KeepsCodes formatBer := by
  obtain ⟨decode, hdecode, hkeeps⟩ := @ber_decode_keeps SameCode _
  exact keeps_format hdecode hkeeps

theorem der_keeps_codes : KeepsCodes formatDer := by
  obtain ⟨decode, hdecode, hkeeps⟩ := @der_decode_keeps SameCode _
  exact keeps_format hdecode hkeeps

theorem cer_keeps_codes : KeepsCodes formatCer := by
  obtain ⟨decode, hdecode, hkeeps⟩ := @cer_decode_keeps SameCode _
  exact keeps_format hdecode hkeeps

/-- A new reader is coherent with any input that begins with its window. -/
theorem init_incremental_coherent {limits : TreeLimits} {first : Bytes} {reader : TreeReader}
    (h : treeReaderInitIncremental format limits first = .ok reader) (hfirst : first <+: whole) :
    reader.Coherent whole ∧
      treeReaderInit format limits whole = .ok (reader.over whole) := by
  unfold treeReaderInitIncremental readerInitIncremental readerInit at h
  split at h
  · cases h
  · rename_i hdecode
    cases h
    constructor
    · refine ⟨?_, ?_, (fun h => by cases h), (fun h => by cases h), ?_⟩
      · exact List.prefix_iff_eq_take.mp hfirst
      · show 0 + first.length ≤ whole.length
        have := hfirst.length_le
        omega
      · show ([0, 0 + first.length] : List Nat).Pairwise (· ≤ ·)
        simp
    · simp only [treeReaderInit, readerInit, if_neg hdecode]
      rfl

theorem alike_eq {short long : List (Except Status TreeEvent)}
    (h : List.Forall₂ (ResultsAlike SameCode) short long) : short = long := by
  induction h with
  | nil => rfl
  | @cons result result' results results' halike _ ih =>
    rw [ih]
    cases result with
    | ok event => rw [show result' = .ok event from halike]
    | error status =>
      obtain ⟨status', rfl, hcode | ⟨-, -, hcode⟩⟩ := halike
      · rw [hcode]
      · rw [show status' = status from hcode]

/-- Chunking does not change a tree read: apart from requests for more data, the pulls on a reader
over successive windows return what pulls on a reader over the whole input return. The code of a
failure is the same when the format keeps its codes, and otherwise the failure stays one. -/
theorem tree_read_chunking (hformat : PrefixStable format) (hwhole : whole.length ≤ sizeMax)
    {limits : TreeLimits} {first : Bytes} {reader final : TreeReader}
    (hreader : treeReaderInitIncremental format limits first = .ok reader)
    (hfinal : treeReaderInit format limits whole = .ok final) (hfirst : first <+: whole)
    {calls : List TreeCall} (hcalls : Delivers format whole reader calls) :
    let results := settled (treeResults format reader calls)
    List.Forall₂ (ResultsAlike StaysFailed) results (treePulls format final results.length) ∧
      (KeepsCodes format → results = treePulls format final results.length) ∧
      ((treeAfter format reader calls).input.finalInput = true → ∀ count,
        .error .needMoreData ∉ treePulls format (treeAfter format reader calls) count) ∧
      ∃ status, .error status ∈ treePulls format final (2 * limits.maxElements + 1) := by
  intro results
  obtain ⟨hcoherent, hover⟩ := init_incremental_coherent hreader hfirst
  obtain rfl : final = reader.over whole := Except.ok.inj (hfinal.symm.trans hover)
  obtain ⟨hafter, halike⟩ := tree_results_over hformat hwhole hcoherent hcalls
  refine ⟨halike, fun hcodes => ?_, fun hlast => tree_pulls_final hformat hwhole hafter hlast, ?_⟩
  · exact alike_eq (tree_results_over hcodes hwhole hcoherent hcalls).2
  · have hstart : (reader.over whole) = TreeReader.start limits
        { data := whole, size := whole.length } := by
      unfold treeReaderInit readerInit at hfinal
      split at hfinal
      · cases hfinal
      · exact (Except.ok.inj hfinal).symm
    refine tree_pulls_end ?_ ?_
    · rw [hstart]
      exact Nat.zero_le _
    · rw [hstart]
      simp [TreeReader.remaining, TreeReader.start]

/-- A BER sequence of one integer. -/
def sequenceOctets : Bytes :=
  [0x30, 0x03, 0x02, 0x01, 0x05]

/-- Its delivery. The first window shows half a header, the third one leaves the header behind. -/
def sequenceCalls : List TreeCall :=
  [.pull, .supply sequenceOctets 0 false, .pull, .supply [0x02, 0x01, 0x05] 2 false, .pull,
    .pull, .pull, .supply [] 3 true, .pull]

theorem tree_read_chunking_ber :
    ∃ reader final, treeReaderInitIncremental formatBer ⟨4, 4, 8⟩ [0x30] = .ok reader ∧
      treeReaderInit formatBer ⟨4, 4, 8⟩ sequenceOctets = .ok final ∧
      settled (treeResults formatBer reader sequenceCalls) = treePulls formatBer final 4 := by
  refine ⟨_, _, rfl, rfl, ?_⟩
  have hchunks := (@tree_read_chunking formatBer sequenceOctets
    (library_format_prefix_stable .ber) (by decide) ⟨4, 4, 8⟩ [0x30] _ _ rfl rfl (by decide)
    sequenceCalls (by decide +kernel)).2.1 ber_keeps_codes
  have hlength : (settled (treeResults formatBer (TreeReader.start ⟨4, 4, 8⟩
      { data := [0x30], size := 1, finalInput := false }) sequenceCalls)).length = 4 := by
    decide +kernel
  exact hchunks.trans (congrArg (treePulls formatBer _) hlength)

/-- A format whose identifiers have one octet, and which refuses a zero after the escape. -/
def oneOctetFormat : VariableFormat :=
  { identifier :=
      { inlineMask := 0x1F, escape := 0x1F, continuationBit := 0x80, payloadMask := 0x7F,
        maxSize := 1, policy := some ⟨[], 1, 0⟩ }
    length := { longFormBit := 0x80, payloadMask := 0x7F, byteOrder := .bigEndian, policy := none }
    elementOrder := .tlv
    lengthScope := .value
    constructed := none }

/-- The escape alone is an identifier that is too long. With a zero behind it, it is malformed. -/
theorem tree_read_code_differs :
    ∃ format reader final, (Configuration.variableWidth oneOctetFormat).init = .ok format ∧
      PrefixStable format ∧ treeReaderInitIncremental format ⟨4, 4, 8⟩ [0x1F] = .ok reader ∧
      treeReaderInit format ⟨4, 4, 8⟩ [0x1F, 0x00] = .ok final ∧
      Delivers format [0x1F, 0x00] reader [.pull, .supply [0x1F, 0x00] 0 true] ∧
      settled (treeResults format reader [.pull, .supply [0x1F, 0x00] 0 true]) =
        [.error .invalidTagSize] ∧
      treePulls format final 1 = [.error .invalidTag] := by
  refine ⟨_, _, _, rfl, library_format_prefix_stable
    (@LibraryFormat.configured (.variableWidth oneOctetFormat) _ rfl), rfl, rfl, ?_, ?_, ?_⟩
  · decide +kernel
  · decide +kernel
  · decide +kernel

end Runs

end OpenTlv
