import OpenTlv.Asn1.CerDepth

/-!
# What CER writes and reads

`tlv_cer_write` looks at the children of a constructed element with the traversal of the reader.
The traversal of the whole element makes the same moves behind its header: `Encloses` relates the
two runs. The outer element itself is checked by hand, and `CerReadable` is what the writer would
have to check for the reader to accept every element that it writes.
-/

namespace OpenTlv

/-- A job over some octets and a job over longer ones around them. -/
structure Embedded (inner whole : CerJob Unit) (before after : Bytes) : Prop where
  data : whole.data = before ++ (inner.data ++ after)
  base : inner.base = whole.base + before.length
  depth : inner.initialDepth = whole.initialDepth + 1
  limits : whole.limits = inner.limits
  strict : whole.strict = inner.strict
  innerVisitor : inner.visitor = none
  wholeVisitor : whole.visitor = none
  many : inner.one = false

/-- A level whose offsets count from an earlier octet. -/
def CerLevel.shift (distance : Nat) (level : CerLevel) : CerLevel :=
  { level with
    tagOffset := distance + level.tagOffset
    lengthOffset := distance + level.lengthOffset
    contentStart := distance + level.contentStart }

/-- A run over the contents of an element, and a run that has entered the element. -/
structure Encloses (inner : CerJob Unit) (distance : Nat) (outer : CerLevel)
    (x y : CerRun Unit) : Prop where
  pos : y.pos = distance + x.pos
  count : y.count = x.count
  levels : y.levels = x.levels.map (·.shift distance) ++ [{ outer with segments := x.outer }]
  live : x.ended = none
  ended : y.ended = none
  depth : inner.initialDepth + x.levels.length ≤ inner.limits.maxDepth
  inside : x.pos ≤ inner.data.length

section Embedded

variable {inner whole : CerJob Unit} {before after : Bytes} {outer : CerLevel}
  {x x' y : CerRun Unit}

/-- The octets from a position on, inside the whole encoding. -/
theorem Embedded.drop (h : Embedded inner whole before after) {pos : Nat}
    (hpos : pos ≤ inner.data.length) :
    whole.data.drop (before.length + pos) = inner.data.drop pos ++ after := by
  rw [h.data, ← List.drop_drop, List.drop_left, List.drop_append_of_le_length hpos]

theorem Embedded.get (h : Embedded inner whole before after) {pos : Nat}
    (hpos : pos < inner.data.length) : whole.data[before.length + pos]? = inner.data[pos]? := by
  rw [h.data, List.getElem?_append_right (Nat.le_add_right _ _), Nat.add_sub_cancel_left,
    List.getElem?_append_left hpos]

theorem Embedded.length (h : Embedded inner whole before after) :
    before.length + inner.data.length ≤ whole.data.length := by
  rw [h.data, List.length_append, List.length_append]
  omega

/-- Both runs see the same parent. -/
theorem Encloses.parent (h : Encloses inner before.length outer x y) :
    y.parentSegments = x.parentSegments := by
  unfold CerRun.parentSegments
  rw [h.levels]
  cases x.levels with
  | nil => rfl
  | cons level rest => rfl

theorem Encloses.depth_eq (h : Encloses inner before.length outer x y) :
    y.levels.length = x.levels.length + 1 := by
  rw [h.levels, List.length_append, List.length_map, List.length_singleton]

/-- A segment keeps the relation. -/
theorem Encloses.setParent (h : Encloses inner before.length outer x y)
    (segments : SegmentState) :
    Encloses inner before.length outer (x.setParent segments) (y.setParent segments) := by
  have hlevels := h.levels
  unfold CerRun.setParent
  cases hx : x.levels with
  | nil =>
    rw [hx, List.map_nil, List.nil_append] at hlevels
    rw [hlevels]
    have hdepth := h.depth
    rw [hx] at hdepth
    exact ⟨h.pos, h.count, rfl, h.live, h.ended, hdepth, h.inside⟩
  | cons level rest =>
    rw [hx, List.map_cons, List.cons_append] at hlevels
    rw [hlevels]
    have hdepth := h.depth
    rw [hx] at hdepth
    exact ⟨h.pos, h.count, rfl, h.live, h.ended, hdepth, h.inside⟩

/-- The end of an inner element. -/
theorem encloses_close (he : Embedded inner whole before after)
    (h : Encloses inner before.length outer x y) {level : CerLevel} {rest : List CerLevel}
    (hpos : x.pos + 2 ≤ inner.data.length) (hfirst : inner.data[x.pos]? = some 0)
    (hsecond : inner.data[x.pos + 1]? = some 0) (hlevels : x.levels = level :: rest)
    (hcheck : cerCloseCheck inner level x.pos = .ok ()) :
    ∃ y', CerMove whole y y' ∧
      Encloses inner before.length outer { x with pos := x.pos + 2, levels := rest } y' := by
  have hy := h.levels
  rw [hlevels, List.map_cons, List.cons_append] at hy
  have hlength := he.length
  have hcheck' : cerCloseCheck whole (level.shift before.length) y.pos = .ok () := by
    rw [← hcheck, cerCloseCheck, cerCloseCheck, h.pos, he.limits, he.base]
    simp only [CerLevel.shift, Nat.add_sub_add_left, Nat.add_assoc]
  refine ⟨{ y with
      pos := y.pos + 2
      levels := rest.map (·.shift before.length) ++ [{ outer with segments := x.outer }] },
    .close (level.shift before.length) _ ?_ ?_ ?_ hy hcheck' ?_, ?_⟩
  · rw [h.pos]
    omega
  · rw [h.pos, he.get (by omega), hfirst]
  · rw [h.pos, Nat.add_assoc, he.get (by omega), hsecond]
  · rw [cerComplete, cerReport, he.wholeVisitor]
    dsimp only
    rw [h.ended]
    simp
  · have hdepth := h.depth
    rw [hlevels, List.length_cons] at hdepth
    refine ⟨?_, h.count, rfl, h.live, h.ended, ?_, hpos⟩
    · dsimp only
      rw [h.pos, Nat.add_assoc]
    · dsimp only
      omega

/-- The start of an inner element. -/
theorem encloses_descend (he : Embedded inner whole before after)
    (h : Encloses inner before.length outer x y) (hlimit : inner.limits.maxDepth ≤ cerMaxDepth)
    {tag : Span} {tagSize : Nat} (hfirst : inner.data[x.pos]? ≠ some 0)
    (hcount : x.count ≠ inner.limits.maxElements)
    (htag : (asn1ReadIdentifier (inner.data.drop x.pos)).outcome = .ok tag)
    (hsize : (asn1ReadIdentifier (inner.data.drop x.pos)).consumed = tagSize)
    (hlength : inner.data[x.pos + tagSize]? = some berIndefinite)
    (hconstructed : asn1IsConstructed tag.bytes = true) (hparent : x.parentSegments = none)
    (hform : cerPrimitiveOnly tag.bytes = false)
    (hdepth : inner.initialDepth + x.levels.length ≠ inner.limits.maxDepth) :
    ∃ y', CerMove whole y y' ∧
      Encloses inner before.length outer
        { x with
          pos := x.pos + tagSize + 1
          count := x.count + 1
          levels := ⟨tag.bytes, x.pos, x.pos + tagSize, x.pos + tagSize + 1,
            cerSegments tag.bytes inner.strict⟩ :: x.levels } y' := by
  have hhigh := (List.getElem?_eq_some_iff.mp hlength).1
  obtain ⟨htag', hsize'⟩ := asn1_read_identifier_stable.append_ok htag after
  rw [← he.drop h.inside, ← h.pos] at htag' hsize'
  have hmore := h.depth
  have hlevels := h.depth_eq
  have hbase := he.depth
  refine ⟨_, .descend tag tagSize ?_ ?_ htag' (hsize'.trans hsize) ?_ hconstructed ?_ hform ?_ ?_,
    ?_⟩
  · rw [h.pos, he.get (by omega)]
    exact hfirst
  · rw [h.count, he.limits]
    exact hcount
  · rw [h.pos, Nat.add_assoc, he.get hhigh]
    exact hlength
  · rw [h.parent]
    exact hparent
  · rw [he.limits]
    omega
  · omega
  · refine ⟨?_, ?_, ?_, h.live, h.ended, ?_, hhigh⟩
    · dsimp only
      rw [h.pos]
      omega
    · dsimp only
      rw [h.count]
    · dsimp only
      rw [h.levels, h.pos, he.strict, List.map_cons, List.cons_append, CerLevel.shift]
      simp only [Nat.add_assoc]
    · dsimp only
      rw [List.length_cons]
      omega

/-- Both runs accept the same primitive elements. -/
theorem encloses_accept (he : Embedded inner whole before after)
    (h : Encloses inner before.length outer x y) {tag value : Bytes}
    {lengthOffset valueOffset : Nat}
    (haccept : cerAccept inner x tag value lengthOffset valueOffset = .ok x') :
    ∃ y', cerAccept whole y tag value (before.length + lengthOffset)
        (before.length + valueOffset) = .ok y' ∧ Encloses inner before.length outer x' y' := by
  have hoffset : whole.base + y.pos = inner.base + x.pos := by
    rw [h.pos, he.base]
    omega
  unfold cerAccept
  rw [h.parent]
  rcases cer_accept_ok haccept with ⟨hparent, rfl, hcheck⟩ | ⟨segments, next, hparent, hadd, rfl⟩
  · rw [hparent]
    have hcheck' : cerValueCheck whole tag value (before.length + lengthOffset)
        (before.length + valueOffset) = .ok () := by
      rw [← hcheck, cerValueCheck, cerValueCheck, he.limits, he.strict, he.base]
      simp only [Nat.add_assoc]
    dsimp only
    rw [hcheck']
    exact ⟨y, rfl, h⟩
  · rw [hparent]
    dsimp only
    rw [hoffset, hadd]
    exact ⟨y.setParent next, rfl, h.setParent next⟩

/-- A primitive element. -/
theorem encloses_value (he : Embedded inner whole before after)
    (h : Encloses inner before.length outer x y) {tag : Span} {tagSize length lengthSize : Nat}
    (hfirst : inner.data[x.pos]? ≠ some 0) (hcount : x.count ≠ inner.limits.maxElements)
    (htag : (asn1ReadIdentifier (inner.data.drop x.pos)).outcome = .ok tag)
    (hsize : (asn1ReadIdentifier (inner.data.drop x.pos)).consumed = tagSize)
    (hdefinite : inner.data[x.pos + tagSize]? ≠ some berIndefinite)
    (hprimitive : asn1IsConstructed tag.bytes = false)
    (hlength : (asn1ReadMinimalLength (inner.data.drop (x.pos + tagSize))).outcome = .ok length)
    (hlengthSize :
      (asn1ReadMinimalLength (inner.data.drop (x.pos + tagSize))).consumed = lengthSize)
    (hinside : length ≤ inner.data.length - (x.pos + tagSize + lengthSize))
    (hvalue : cerValue inner x tag.bytes
      ((inner.data.drop (x.pos + tagSize + lengthSize)).take length) (x.pos + tagSize)
      (x.pos + tagSize + lengthSize) = .ok x') :
    ∃ y', CerMove whole y y' ∧ Encloses inner before.length outer x' y' := by
  obtain ⟨hlow, hhigh, -⟩ := asn1_read_identifier_within htag
  obtain ⟨hlowLength, hhighLength⟩ := asn1_read_minimal_length_within hlength
  rw [List.length_drop] at hhigh hhighLength
  have htagEnd : x.pos + tagSize ≤ inner.data.length := by omega
  have hlengthEnd : x.pos + tagSize + lengthSize ≤ inner.data.length := by omega
  have hroom := he.length
  obtain ⟨htag', hsize'⟩ := asn1_read_identifier_stable.append_ok htag after
  rw [← he.drop h.inside, ← h.pos] at htag' hsize'
  obtain ⟨hlength', hlengthSize'⟩ := asn1_read_minimal_length_stable.append_ok hlength after
  rw [← he.drop htagEnd, ← Nat.add_assoc, ← h.pos] at hlength' hlengthSize'
  -- the value is the same slice of the whole encoding
  have hslice : (whole.data.drop (y.pos + tagSize + lengthSize)).take length =
      (inner.data.drop (x.pos + tagSize + lengthSize)).take length := by
    have hshift : y.pos + tagSize + lengthSize =
        before.length + (x.pos + tagSize + lengthSize) := by
      rw [h.pos]
      omega
    rw [hshift, he.drop hlengthEnd, List.take_append_of_le_length]
    rw [List.length_drop]
    exact hinside
  obtain ⟨accepted, haccept, heq⟩ := cer_value_ok hvalue
  obtain ⟨accepted', haccept', hrelated⟩ := encloses_accept he h haccept
  have hlive : x'.ended = none := by
    rw [cerValue, haccept] at hvalue
    dsimp only at hvalue
    rw [he.many, Bool.false_and, cerReport, he.innerVisitor] at hvalue
    rw [← Except.ok.inj hvalue]
    exact hrelated.live
  have hoffsets : y.pos + tagSize = before.length + (x.pos + tagSize) ∧
      y.pos + tagSize + lengthSize = before.length + (x.pos + tagSize + lengthSize) := by
    rw [h.pos]
    omega
  have hnonempty : y.levels.isEmpty = false := by
    rw [List.isEmpty_eq_false_iff, ← List.length_pos_iff, h.depth_eq]
    omega
  refine ⟨{ accepted' with
      pos := y.pos + tagSize + lengthSize +
        ((inner.data.drop (x.pos + tagSize + lengthSize)).take length).length
      count := y.count + 1 },
    .value tag tagSize length lengthSize ?_ ?_ htag' (hsize'.trans hsize) ?_ hprimitive hlength'
      (hlengthSize'.trans hlengthSize) ?_ ?_, ?_⟩
  · rw [h.pos, he.get (by omega)]
    exact hfirst
  · rw [h.count, he.limits]
    exact hcount
  · rw [hoffsets.1, he.get (by omega)]
    exact hdefinite
  · omega
  · rw [hslice, cerValue, hoffsets.1, Nat.add_assoc before.length, haccept']
    dsimp only
    rw [hnonempty, Bool.and_false, cerReport, he.wholeVisitor]
    rfl
  · rw [heq]
    refine ⟨?_, ?_, hrelated.levels, hlive, hrelated.ended, hrelated.depth, ?_⟩
    · dsimp only
      rw [hoffsets.2]
      omega
    · dsimp only
      rw [h.count]
    · dsimp only
      rw [List.length_take, List.length_drop, Nat.min_eq_left hinside]
      omega

/-- A move over the contents is a move of the whole, unless it is the last one. -/
theorem encloses_move (he : Embedded inner whole before after)
    (h : Encloses inner before.length outer x y) (hlimit : inner.limits.maxDepth ≤ cerMaxDepth)
    (hmove : CerMove inner x x') :
    (∃ y', CerMove whole y y' ∧ Encloses inner before.length outer x' y') ∨
    (x.pos = inner.data.length ∧ x.levels = [] ∧ x' = { x with ended := some none } ∧
      ∀ segments, x.outer = some segments → segments.finish (inner.base - 1) = .ok ()) := by
  cases hmove with
  | finish hpos hlevels hsegments => exact .inr ⟨hpos, hlevels, rfl, hsegments⟩
  | close level rest hpos hfirst hsecond hlevels hcheck hcomplete =>
    left
    have hx' : x' = { x with pos := x.pos + 2, levels := rest } := by
      rw [cerComplete, cerReport, he.innerVisitor] at hcomplete
      dsimp only at hcomplete
      rw [he.many, Bool.false_and] at hcomplete
      split at hcomplete
      · exact (Except.ok.inj hcomplete).symm
      · exact (Except.ok.inj hcomplete).symm
    rw [hx']
    exact encloses_close he h hpos hfirst hsecond hlevels hcheck
  | descend tag tagSize hfirst hcount htag hsize hlength hconstructed hparent hform hdepth =>
    exact .inl (encloses_descend he h hlimit hfirst hcount htag hsize hlength hconstructed hparent
      hform hdepth)
  | value tag tagSize length lengthSize hfirst hcount htag hsize hdefinite hprimitive hlength
      hlengthSize hinside hvalue =>
      exact .inl (encloses_value he h hfirst hcount htag hsize hdefinite hprimitive hlength
        hlengthSize hinside hvalue)

/-- The whole run is at the end of contents that belongs to the outer element. -/
def AtEnd (inner : CerJob Unit) (distance : Nat) (outer : CerLevel) (y : CerRun Unit) : Prop :=
  y.pos = distance + inner.data.length ∧ y.ended = none ∧
    ∃ segments, y.levels = [{ outer with segments := segments }] ∧
      ∀ state, segments = some state → state.finish (inner.base - 1) = .ok ()

/-- When the contents are accepted, the whole run comes to their end. -/
theorem encloses_run (he : Embedded inner whole before after)
    (hlimit : inner.limits.maxDepth ≤ cerMaxDepth) {stuck stuck' : CerStop} {fuel : Nat}
    {last : CerRun Unit} (h : Encloses inner before.length outer x y)
    (hrun : drive stuck (·.ended.isSome) (cerStep inner) fuel x = .ok last) :
    Settles stuck' (·.ended.isSome) (cerStep whole) (CerRun.rank whole) y (fun _ => False)
      (AtEnd inner before.length outer) := by
  induction fuel generalizing x y with
  | zero =>
    rw [drive, h.live] at hrun
    cases hrun
  | succ fuel ih =>
    rw [drive, h.live] at hrun
    cases hstep : cerStep inner x with
    | error stop =>
      rw [hstep] at hrun
      cases hrun
    | ok x' =>
      rw [hstep] at hrun
      have hpos : y.pos ≤ whole.data.length := by
        have := he.length
        have := h.inside
        rw [h.pos]
        omega
      rcases encloses_move he h hlimit (cer_step_cases hstep) with
        ⟨y', hmove, hrelated⟩ | ⟨hend, hlevels, -, hsegments⟩
      · refine Settles.advance (by rw [h.ended]; rfl) ?_
        rw [hmove.step]
        exact ⟨(hmove.lowers h.ended hpos).2, ih hrelated hrun⟩
      · refine Settles.refl ⟨?_, h.ended, x.outer, ?_, hsegments⟩
        · rw [h.pos, hend]
        · rw [h.levels, hlevels]
          rfl

end Embedded

section Constructed

variable {element : Element} {limits : CerLimits} {strict : Bool}

/-- The traversal of the contents that `tlv_cer_write` makes. -/
def contentsJob (element : Element) (limits : CerLimits) (strict : Bool) : CerJob Unit :=
  { data := element.value, base := element.tag.length + 1, initialDepth := 1, limits := limits,
    strict := strict }

/-- The traversal of some octets that `tlv_cer_read` makes. -/
def readJob (data : Bytes) (limits : CerLimits) (strict : Bool) : CerJob Unit :=
  { data := data, limits := limits, one := true, strict := strict }

/-- The octets of a constructed element. -/
def constructedBytes (element : Element) : Bytes :=
  element.tag ++ [berIndefinite] ++ (element.value ++ [0, 0])

/-- The level of the element that is read. -/
def outerLevel (tag : Bytes) (strict : Bool) : CerLevel :=
  ⟨tag, 0, tag.length, tag.length + 1, cerSegments tag strict⟩

theorem constructed_bytes_length (element : Element) :
    (constructedBytes element).length = element.tag.length + 1 + element.value.length + 2 := by
  simp only [constructedBytes, List.length_append, List.length_cons, List.length_nil]
  omega

theorem constructed_embedded :
    Embedded (contentsJob element limits strict)
      (readJob (constructedBytes element) limits strict) (element.tag ++ [berIndefinite])
      [0, 0] :=
  ⟨rfl, by simp [contentsJob, readJob], rfl, rfl, rfl, rfl, rfl, rfl⟩

/-- The first iteration of the reader reads the header that was written. -/
theorem constructed_first_step {stored : Bytes} {tagSize : Nat}
    (htag : asn1WriteIdentifier element.tag none = .ok (stored, tagSize))
    (helements : limits.maxElements ≠ 0) :
    cerStep (readJob (constructedBytes element) limits strict) { count := 0, context := () } =
      cerOpen (readJob (constructedBytes element) limits strict) { count := 0, context := () }
        element.tag element.tag.length := by
  obtain ⟨-, rfl, -, hread⟩ := asn1_identifier_law _ _ _ htag
  have hdata : constructedBytes element =
      element.tag ++ (berIndefinite :: (element.value ++ [0, 0])) := by
    simp [constructedBytes]
  have htagRead : asn1ReadIdentifier (constructedBytes element) =
      ⟨.ok ⟨element.tag, some 0⟩, element.tag.length⟩ := by
    rw [hdata]
    exact hread _
  have hfirst : (constructedBytes element)[0]? ≠ some 0 := by
    rw [← List.head?_eq_getElem?]
    exact asn1_identifier_nonzero (congrArg FieldRead.outcome htagRead)
  have hindefinite : (constructedBytes element)[0 + element.tag.length]? = some berIndefinite := by
    rw [hdata, Nat.zero_add, List.getElem?_append_right (Nat.le_refl _), Nat.sub_self]
    rfl
  exact @cer_step_open Unit (readJob (constructedBytes element) limits strict)
    { count := 0, context := () } _ _ hfirst helements.symm htagRead hindefinite

/-- The reader is at the end of contents of the outer element. -/
theorem constructed_last_close {y : CerRun Unit}
    (hy : AtEnd (contentsJob element limits strict) (element.tag ++ [berIndefinite]).length
      (outerLevel element.tag strict) y) :
    ∃ level : CerLevel, level.tag = element.tag ∧
      ((constructedBytes element).take y.pos).drop level.contentStart = element.value ∧
      y.pos - level.contentStart = element.value.length ∧
      y.pos + 2 = (constructedBytes element).length ∧
      cerStep (readJob (constructedBytes element) limits strict) y =
        (if y.pos - level.contentStart > limits.maxValueSize then
          cerFail .limit (0 + level.lengthOffset)
        else .ok ()) >>= fun _ =>
          cerComplete (readJob (constructedBytes element) limits strict) level [] y := by
  obtain ⟨hpos, hended, segments, hlevels, hsegments⟩ := hy
  have hlength := constructed_bytes_length element
  have hheader : (element.tag ++ [berIndefinite]).length = element.tag.length + 1 := by simp
  have hend : y.pos = element.tag.length + 1 + element.value.length := by
    rw [hpos, hheader]
    rfl
  have hsplit : constructedBytes element =
      (element.tag ++ [berIndefinite] ++ element.value) ++ [0, 0] := by
    simp [constructedBytes]
  have hfront : (element.tag ++ [berIndefinite] ++ element.value).length = y.pos := by
    rw [List.length_append, hheader, hend]
  have htail : ∀ k, (constructedBytes element)[y.pos + k]? = ([0, 0] : Bytes)[k]? := by
    intro k
    rw [hsplit, ← hfront, List.getElem?_append_right (Nat.le_add_right _ _),
      Nat.add_sub_cancel_left]
  have hinside : y.pos + 2 ≤ (constructedBytes element).length := by omega
  refine ⟨{ outerLevel element.tag strict with segments := segments }, rfl, ?_, ?_, ?_, ?_⟩
  · show ((constructedBytes element).take y.pos).drop (element.tag.length + 1) = element.value
    rw [hsplit, ← hfront, List.take_left, ← hheader, List.drop_left]
  · show y.pos - (element.tag.length + 1) = element.value.length
    omega
  · omega
  · rw [@cer_step_close Unit (readJob (constructedBytes element) limits strict) y _ _ hinside
      (htail 0) (htail 1) hlevels, cer_close_check_eq]
    · rfl
    · intro state hstate
      have hfinish := hsegments state hstate
      rw [show (contentsJob element limits strict).base - 1 = 0 + element.tag.length by
        rw [Nat.zero_add]; rfl] at hfinish
      exact hfinish

/-- A value beyond the limit is refused where it ends. -/
theorem constructed_last_refused {y : CerRun Unit}
    (hy : AtEnd (contentsJob element limits strict) (element.tag ++ [berIndefinite]).length
      (outerLevel element.tag strict) y)
    (hlong : element.value.length > limits.maxValueSize) :
    ∃ stop, cerStep (readJob (constructedBytes element) limits strict) y = .error stop := by
  obtain ⟨level, -, -, hsize, -, hstep⟩ := constructed_last_close hy
  rw [hstep, hsize, if_pos hlong]
  exact ⟨_, rfl⟩

/-- The reader closes the outer element and returns it. -/
theorem constructed_last_accepted {y : CerRun Unit}
    (hy : AtEnd (contentsJob element limits strict) (element.tag ++ [berIndefinite]).length
      (outerLevel element.tag strict) y)
    (hshort : element.value.length ≤ limits.maxValueSize) :
    ∃ last, cerStep (readJob (constructedBytes element) limits strict) y = .ok last ∧
      last.ended = some (some (⟨element.tag, element.value⟩,
        (constructedBytes element).length)) := by
  obtain ⟨level, htag, hvalue, hsize, hend, hstep⟩ := constructed_last_close hy
  have hcomplete : cerComplete (readJob (constructedBytes element) limits strict) level [] y =
      .ok { y with
        pos := y.pos + 2
        levels := []
        ended := some (some (⟨element.tag, element.value⟩,
          (constructedBytes element).length)) } := by
    rw [cerComplete]
    dsimp only [readJob, cerReport]
    rw [htag, hvalue, hend, hy.2.1]
    rfl
  rw [hstep, hsize, if_neg (Nat.not_lt.mpr hshort)]
  exact ⟨_, hcomplete, rfl⟩

/-- The start of the reader. -/
theorem cer_read_eq {data : Bytes} (hlimit : limits.maxDepth ≤ cerMaxDepth)
    (hinput : data.length ≤ limits.maxInputSize) (hdata : data.length ≠ 0) :
    cerReadImpl data limits strict =
      cerTraverse (readJob data limits strict) { count := 0, context := () } >>= fun s =>
        return (s.ended.getD none).getD (⟨[], []⟩, 0) := by
  rw [cerReadImpl, if_neg (Nat.not_lt.mpr hlimit), if_neg (Nat.not_lt.mpr hinput), if_neg hdata]
  rfl

/-- The reader enters the outer element unless its own rules refuse it. -/
theorem constructed_open (hconstructed : asn1IsConstructed element.tag = true) :
    cerOpen (readJob (constructedBytes element) limits strict) { count := 0, context := () }
        element.tag element.tag.length =
      if cerPrimitiveOnly element.tag then cerFail .invalidLength (0 + (0 + element.tag.length))
      else if 0 = limits.maxDepth then cerFail .limit 0
      else
        .ok { pos := 0 + element.tag.length + 1
              count := 1
              levels := [⟨element.tag, 0, 0 + element.tag.length, 0 + element.tag.length + 1,
                cerSegments element.tag strict⟩]
              context := () } := by
  rw [cerOpen, hconstructed, if_neg (by decide), if_neg (by decide)]
  rfl

/-- What the reader of a constructed element needs beyond what the writer checked. -/
theorem constructed_read_iff {stored : Bytes} {tagSize : Nat}
    (htag : asn1WriteIdentifier element.tag none = .ok (stored, tagSize))
    (hconstructed : asn1IsConstructed element.tag = true)
    (hlimit : limits.maxDepth ≤ cerMaxDepth) (helements : limits.maxElements ≠ 0)
    (hinput : (constructedBytes element).length ≤ limits.maxInputSize)
    {last : CerRun Unit} (hcontents : cerTraverse (contentsJob element limits strict)
      { count := 1, outer := cerSegments element.tag strict, context := () } = .ok last) :
    cerReadImpl (constructedBytes element) limits strict =
        .ok (⟨element.tag, element.value⟩, (constructedBytes element).length) ↔
      limits.maxDepth ≠ 0 ∧ element.value.length ≤ limits.maxValueSize ∧
        cerPrimitiveOnly element.tag = false := by
  have hlength := constructed_bytes_length element
  have hstart : cerTraverse (readJob (constructedBytes element) limits strict)
      { count := 0, context := () } =
      cerOpen (readJob (constructedBytes element) limits strict) { count := 0, context := () }
        element.tag element.tag.length >>=
          drive (CerStop.failed .callback none) (·.ended.isSome)
            (cerStep (readJob (constructedBytes element) limits strict))
            ((constructedBytes element).length + 1) := by
    rw [← constructed_first_step htag helements]
    rfl
  rw [cer_read_eq hlimit hinput (by omega), hstart, constructed_open hconstructed]
  cases hform : cerPrimitiveOnly element.tag with
  | true => simp [cerFail, bind, Except.bind]
  | false =>
    rcases Nat.eq_zero_or_pos limits.maxDepth with hzero | hdepth
    · simp [cerFail, bind, Except.bind, hzero]
    · rw [if_neg (by decide), if_neg (by omega)]
      have hencloses : Encloses (contentsJob element limits strict)
          (element.tag ++ [berIndefinite]).length (outerLevel element.tag strict)
          { count := 1, outer := cerSegments element.tag strict, context := () }
          { pos := 0 + element.tag.length + 1
            count := 1
            levels := [⟨element.tag, 0, 0 + element.tag.length, 0 + element.tag.length + 1,
              cerSegments element.tag strict⟩]
            context := () } :=
        ⟨by simp, rfl, by simp [outerLevel], rfl, rfl, hdepth, Nat.zero_le _⟩
      have hsettles := @encloses_run _ _ _ _ _ _ _ constructed_embedded hlimit _
        (CerStop.failed .callback none) _ _ hencloses hcontents
      have hrank : CerRun.rank (readJob (constructedBytes element) limits strict)
          { pos := 0 + element.tag.length + 1
            count := 1
            levels := [⟨element.tag, 0, 0 + element.tag.length, 0 + element.tag.length + 1,
              cerSegments element.tag strict⟩]
            context := () } < (constructedBytes element).length + 1 := by
        show (constructedBytes element).length - (0 + element.tag.length + 1) + 1 < _
        omega
      rcases hsettles _ hrank with ⟨stop, -, hfalse⟩ | ⟨y, fuel, hfuel, hy, hrun⟩
      · exact hfalse.elim
      · obtain ⟨fuel, rfl⟩ : ∃ k, fuel = k + 1 := ⟨fuel - 1, by omega⟩
        show (drive _ _ _ _ _ >>= _) = _ ↔ _
        rw [hrun, drive, hy.2.1, if_neg (by decide)]
        rcases Nat.lt_or_ge limits.maxValueSize element.value.length with hlong | hshort
        · obtain ⟨stop, hstop⟩ := constructed_last_refused hy hlong
          rw [hstop]
          have hrefused : ¬ element.value.length ≤ limits.maxValueSize := by omega
          simp [bind, Except.bind, hrefused]
        · obtain ⟨closed, hclosed, hended⟩ := constructed_last_accepted hy hshort
          have hhalted : drive (CerStop.failed .callback none) (·.ended.isSome)
              (cerStep (readJob (constructedBytes element) limits strict)) fuel closed =
                .ok closed := by
            cases fuel <;> rw [drive, hended] <;> rfl
          rw [hclosed]
          show (drive _ _ _ _ closed >>= _) = _ ↔ _
          rw [hhalted]
          refine iff_of_true ?_ ⟨by omega, hshort, rfl⟩
          show Except.ok ((closed.ended.getD none).getD (⟨[], []⟩, 0)) = _
          rw [hended]
          rfl

end Constructed

section Primitive

variable {element : Element} {limits : CerLimits} {strict : Bool}

/-- The reader checks of a primitive value what the writer did. -/
theorem check_primitive_value_ok {job : CerJob Unit} {tag value : Bytes}
    {offsetBase lengthOffset valueOffset : Nat} (hsize : value.length ≤ job.limits.maxValueSize)
    (h : checkPrimitiveValue tag value offsetBase job.strict = .ok ()) :
    cerValueCheck job tag value lengthOffset valueOffset = .ok () := by
  unfold checkPrimitiveValue at h
  unfold cerValueCheck
  rw [if_neg (Nat.not_lt.mpr hsize)]
  cases hnumber : cerUniversalNumber tag with
  | none => rfl
  | some number =>
    rw [hnumber] at h
    dsimp only at h ⊢
    split at h
    · cases h
    · rename_i hform
      rw [if_neg hform]
      split at h
      · rename_i hlax
        rw [hlax]
        rfl
      · rename_i hstrict
        rw [if_pos (by simpa using hstrict)]
        split at h
        · cases h
        · rfl

/-- The octets that the writer leaves for a primitive element. -/
theorem cer_encode_primitive {buffer stored : Bytes} {written : Nat}
    (hprimitive : asn1IsConstructed element.tag = false)
    (h : formatEncode formatCer element buffer = .ok (stored, written)) :
    ∃ lengthBytes : Bytes, element.tag ≠ [] ∧
      stored.take written = element.tag ++ lengthBytes ++ element.value ∧
      written = element.tag.length + lengthBytes.length + element.value.length ∧
      (∀ rest, asn1ReadIdentifier (element.tag ++ rest) =
        ⟨.ok ⟨element.tag, some 0⟩, element.tag.length⟩) ∧
      ∀ rest, asn1ReadMinimalLength (lengthBytes ++ rest) =
        ⟨.ok element.value.length, lengthBytes.length⟩ := by
  obtain ⟨encode, sizes, hencode, -, -, -, hcall⟩ := format_encode_eq_ok h
  obtain rfl : cerEncode = encode := Option.some.inj hencode
  unfold cerEncode at hcall
  obtain ⟨-, hcall⟩ := guard_ok.mp hcall
  rw [hprimitive, if_neg (by decide)] at hcall
  obtain ⟨count, lengthBytes, hcount, hnonempty, hused, htake, htags, hlengths⟩ :=
    fields_encode_eq_ok asn1_identifier_law asn1_length_law hcall
  obtain rfl : element.value.length = count := Except.ok.inj hcount
  exact ⟨lengthBytes, hnonempty, htake, hused, htags, hlengths⟩

/-- A primitive element is read back. -/
theorem primitive_read {lengthBytes data : Bytes}
    (hdata : data = element.tag ++ (lengthBytes ++ element.value))
    (hlimit : limits.maxDepth ≤ cerMaxDepth) (helements : limits.maxElements ≠ 0)
    (hinput : data.length ≤ limits.maxInputSize)
    (hsize : element.value.length ≤ limits.maxValueSize) {offsetBase : Nat}
    (hcheck : checkPrimitiveValue element.tag element.value offsetBase strict = .ok ())
    (hprimitive : asn1IsConstructed element.tag = false) (hnonempty : element.tag ≠ [])
    (htags : ∀ rest, asn1ReadIdentifier (element.tag ++ rest) =
      ⟨.ok ⟨element.tag, some 0⟩, element.tag.length⟩)
    (hlengths : ∀ rest, asn1ReadMinimalLength (lengthBytes ++ rest) =
      ⟨.ok element.value.length, lengthBytes.length⟩) :
    cerReadImpl data limits strict = .ok (⟨element.tag, element.value⟩, data.length) := by
  have hlength : data.length =
      element.tag.length + lengthBytes.length + element.value.length := by
    rw [hdata, List.length_append, List.length_append]
    omega
  have hpositive := List.length_pos_iff.mpr hnonempty
  have hread : asn1ReadIdentifier data = ⟨.ok ⟨element.tag, some 0⟩, element.tag.length⟩ := by
    rw [hdata]
    exact htags _
  have hfirst : data[0]? ≠ some 0 := by
    rw [← List.head?_eq_getElem?]
    exact asn1_identifier_nonzero (congrArg FieldRead.outcome hread)
  have hrest : data.drop (0 + element.tag.length) = lengthBytes ++ element.value := by
    rw [hdata, Nat.zero_add, List.drop_left]
  have hcount : asn1ReadMinimalLength (data.drop (0 + element.tag.length)) =
      ⟨.ok element.value.length, lengthBytes.length⟩ := by
    rw [hrest]
    exact hlengths _
  have hdefinite : data[0 + element.tag.length]? ≠ some berIndefinite := by
    have hhead := minimal_length_definite (congrArg FieldRead.outcome hcount)
    rwa [List.head?_drop] at hhead
  have hvalue : (data.drop (0 + element.tag.length + lengthBytes.length)).take
      element.value.length = element.value := by
    rw [← List.drop_drop, hrest, List.drop_left, List.take_length]
  have hinside : element.value.length ≤
      data.length - (0 + element.tag.length + lengthBytes.length) := by omega
  have hstep := @cer_step_value Unit (readJob data limits strict) { count := 0, context := () }
    ⟨element.tag, some 0⟩ _ _ _ hfirst helements.symm hread hdefinite hprimitive hcount hinside
  have haccept : cerAccept (readJob data limits strict) { count := 0, context := () } element.tag
      element.value (0 + element.tag.length) (0 + element.tag.length + lengthBytes.length) =
        .ok { count := 0, context := () } := by
    rw [cerAccept]
    dsimp only [CerRun.parentSegments]
    rw [check_primitive_value_ok hsize hcheck]
    rfl
  have hended : ∃ last : CerRun Unit,
      cerStep (readJob data limits strict) { count := 0, context := () } = .ok last ∧
        last.ended = some (some (⟨element.tag, element.value⟩,
          0 + element.tag.length + lengthBytes.length + element.value.length)) := by
    dsimp only [readJob] at hstep haccept
    rw [hvalue, cerValue, haccept] at hstep
    exact ⟨_, hstep, rfl⟩
  obtain ⟨last, hlast, hresult⟩ := hended
  have hhalted : drive (CerStop.failed .callback none) (·.ended.isSome)
      (cerStep (readJob data limits strict)) (data.length + 1) last = .ok last := by
    rw [drive, hresult]
    rfl
  have hrun : cerTraverse (readJob data limits strict) { count := 0, context := () } =
      .ok last := by
    rw [← hhalted]
    show (cerStep _ _ >>= _) = _
    rw [hlast]
    rfl
  rw [cer_read_eq hlimit hinput (by omega), hrun]
  show Except.ok ((last.ended.getD none).getD (⟨[], []⟩, 0)) = _
  rw [hresult, hlength, Nat.zero_add]
  rfl

end Primitive

section RoundTrip

variable {element : Element} {limits : CerLimits} {strict : Bool}

/-- What the reader requires of an outer element, and the writer does not look at: a constructed
element counts against the depth and its value against the size, and its type may be one that is
always primitive. -/
def CerReadable (element : Element) (limits : CerLimits) : Prop :=
  asn1IsConstructed element.tag = false ∨
    limits.maxDepth ≠ 0 ∧ element.value.length ≤ limits.maxValueSize ∧
      cerPrimitiveOnly element.tag = false

instance (element : Element) (limits : CerLimits) : Decidable (CerReadable element limits) :=
  inferInstanceAs (Decidable (_ ∨ _ ∧ _ ∧ _))

/-- A constructed element is written when its contents are accepted. -/
theorem cer_write_constructed_ok {buffer stored : Bytes} {written : Nat}
    (h : cerWriteConstructed element element.tag.length limits strict (some buffer) =
      .ok (some stored, written)) :
    ∃ last, cerTraverse (contentsJob element limits strict)
        { count := 1, outer := cerSegments element.tag strict, context := () } = .ok last ∧
      (constructedBytes element).length ≤ limits.maxInputSize ∧
      stored.take written = constructedBytes element := by
  have hlength := constructed_bytes_length element
  unfold cerWriteConstructed at h
  obtain ⟨-, h⟩ := guard_ok.mp h
  dsimp only at h
  obtain ⟨hinput, h⟩ := guard_ok.mp h
  cases hcontents : cerTraverse (contentsJob element limits strict)
      { count := 1, outer := cerSegments element.tag strict, context := () } with
  | error stop =>
    rw [contentsJob] at hcontents
    rw [hcontents] at h
    cases h
  | ok last =>
    rw [contentsJob] at hcontents
    rw [hcontents] at h
    dsimp only [bind, Except.bind, pure, Except.pure] at h
    obtain ⟨-, h⟩ := guard_ok.mp h
    cases h
    refine ⟨last, rfl, by omega, ?_⟩
    have hbytes : element.tag ++ [berIndefinite] ++ element.value ++ [0, 0] =
        constructedBytes element := by
      simp [constructedBytes]
    have htake := @Octets.take_store buffer [] (constructedBytes element) 0 rfl rfl
    rw [hbytes, ← hlength, ← Nat.zero_add (constructedBytes element).length, htake,
      List.nil_append]

/-- A framed element is its encoding, within the input limit. -/
theorem cer_write_framed_ok {buffer stored : Bytes} {tagSize written : Nat}
    (h : cerWriteFramed element tagSize limits (some buffer) = .ok (some stored, written)) :
    formatEncode formatCer element buffer = .ok (stored, written) ∧
      written ≤ limits.maxInputSize := by
  unfold cerWriteFramed at h
  split at h
  · cases h
  · rename_i sizes hmeasure
    split at h
    · cases h
    · rename_i total htotal
      split at h
      · cases h
      · rename_i hinput
        dsimp only at h
        split at h
        · cases h
        · rename_i hencode
          cases h
          obtain ⟨_, sizes', -, hmeasure', hused, -⟩ := format_encode_eq_ok hencode
          rw [hmeasure] at hmeasure'
          cases hmeasure'
          have := size_to_native_eq_ok htotal
          exact ⟨hencode, by omega⟩

/-- What CER writes, CER reads, exactly when the outer element is readable. -/
theorem cer_write_read {buffer stored : Bytes} {written : Nat}
    (h : cerWriteImpl element limits strict (some buffer) = .ok (some stored, written)) :
    cerReadImpl (stored.take written) limits strict =
        .ok (⟨element.tag, element.value⟩, (stored.take written).length) ↔
      CerReadable element limits := by
  unfold cerWriteImpl at h
  split at h
  · cases h
  · rename_i hlimit
    split at h
    · cases h
    · rename_i helements
      split at h
      · cases h
      · rename_i tagBytes tagSize htag
        obtain ⟨hnonempty, rfl, -⟩ := asn1_identifier_law _ _ _ htag
        split at h
        · rename_i hconstructed
          obtain ⟨last, hcontents, hinput, hstored⟩ := cer_write_constructed_ok h
          rw [hstored, constructed_read_iff htag hconstructed (Nat.not_lt.mp hlimit) helements
            hinput hcontents, CerReadable, hconstructed]
          simp
        · rename_i hprimitive
          have hprimitive : asn1IsConstructed element.tag = false := by simpa using hprimitive
          split at h
          · cases h
          · rename_i hsize
            obtain ⟨_, hcheck, h⟩ := bind_ok.mp h
            obtain ⟨hencode, hinput⟩ := cer_write_framed_ok h
            obtain ⟨lengthBytes, -, htake, hwritten, htags, hlengths⟩ :=
              cer_encode_primitive hprimitive hencode
            refine iff_of_true ?_ (.inl hprimitive)
            rw [List.append_assoc] at htake
            refine primitive_read htake (Nat.not_lt.mp hlimit) helements ?_
              (Nat.not_lt.mp hsize) hcheck hprimitive hnonempty htags hlengths
            exact (List.length_take_le _ _).trans hinput

/-- A sequence of one integer is written, and read back. -/
theorem cer_write_read_sequence :
    cerWrite ⟨[0x30], [2, 1, 5], by decide, by decide⟩ cerDefaultLimits
        (some [0, 0, 0, 0, 0, 0, 0, 9]) = .ok (some [0x30, 0x80, 2, 1, 5, 0, 0, 9], 7) ∧
      cerRead [0x30, 0x80, 2, 1, 5, 0, 0] cerDefaultLimits = .ok (⟨[0x30], [2, 1, 5]⟩, 7) := by
  have hwrite : cerWrite ⟨[0x30], [2, 1, 5], by decide, by decide⟩ cerDefaultLimits
      (some [0, 0, 0, 0, 0, 0, 0, 9]) = .ok (some [0x30, 0x80, 2, 1, 5, 0, 0, 9], 7) := by
    decide +kernel
  exact ⟨hwrite, (cer_write_read hwrite).mpr (by decide)⟩

/-- A constructed integer is written, and refused by the reader. -/
theorem cer_write_integer_unreadable :
    cerWrite ⟨[0x22], [], by decide, by decide⟩ cerDefaultLimits (some [1, 2, 3, 4]) =
        .ok (some [0x22, 0x80, 0, 0], 4) ∧
      cerRead [0x22, 0x80, 0, 0] cerDefaultLimits = .error (.failed .invalidLength (some 1)) :=
  ⟨rfl, rfl⟩

end RoundTrip

end OpenTlv
