import OpenTlv.Asn1.CerSegments

/-!
# Bounded CER processing

The traversal of `cer_validation.c` and its entry points. `traverse` is one loop over the input
with a stack of open constructed elements. The stack is an array of `TLV_CER_MAX_DEPTH` levels on
the C stack and a push does not look at its extent, so a push beyond it is a `fault` of the model,
apart from the results that the code reports.
-/

namespace OpenTlv

/-- `TLV_CER_MAX_DEPTH`. -/
def cerMaxDepth : Nat := 64

/-- `tlv_cer_limits_t`. -/
structure CerLimits where
  maxDepth : Nat
  maxInputSize : Nat
  maxValueSize : Nat
  maxElements : Nat
  deriving Repr, DecidableEq

/-- `tlv_cer_default_limits`, which a null pointer selects. -/
def cerDefaultLimits : CerLimits :=
  ⟨32, 16 * 1024 * 1024, 16 * 1024 * 1024, 100000⟩

/-- An element that a reader reports. Both parts borrow the input. -/
structure ReadElement where
  tag : Bytes
  value : Bytes
  deriving Repr, DecidableEq

/-- `tlv_cer_visitor_t`, over an explicit context. -/
abbrev CerVisitor (σ : Type) := ReadElement → Nat → Nat → σ → VisitResult × σ

/-- How an operation stops: with a code and perhaps a location, or by a write behind the level
stack. -/
inductive CerStop where
  | failed (status : Status) (offset : Option Nat)
  | fault
  deriving Repr, DecidableEq

/-- `fail`. -/
def cerFail {α : Type} (status : Status) (offset : Nat) : Except CerStop α :=
  .error (.failed status (some offset))

/-- `unlocated`. -/
def cerUnlocated {α : Type} (status : Status) : Except CerStop α :=
  .error (.failed status none)

/-- `cer_level_t`. The level is segmentable when it has a segment state. -/
structure CerLevel where
  tag : Bytes
  tagOffset : Nat
  lengthOffset : Nat
  contentStart : Nat
  segments : Option SegmentState
  deriving Repr, DecidableEq

/-- The arguments of `traverse` that do not change. -/
structure CerJob (σ : Type) where
  data : Bytes
  base : Nat := 0
  initialDepth : Nat := 0
  limits : CerLimits
  visitor : Option (CerVisitor σ) := none
  one : Bool := false
  strict : Bool

/-- The locals of `traverse`, the innermost level first. `ended` is set when it returns
`TLV_OK`, with both outputs of a single-element read. -/
structure CerRun (σ : Type) where
  pos : Nat := 0
  count : Nat
  levels : List CerLevel := []
  outer : Option SegmentState := none
  context : σ
  ended : Option (Option (ReadElement × Nat)) := none

variable {σ : Type}

/-- `parent_segments`. -/
def CerRun.parentSegments (s : CerRun σ) : Option SegmentState :=
  match s.levels with
  | [] => s.outer
  | level :: _ => level.segments

/-- The segment state of the parent after a segment. -/
def CerRun.setParent (s : CerRun σ) (segments : SegmentState) : CerRun σ :=
  match s.levels with
  | [] => { s with outer := some segments }
  | level :: rest => { s with levels := { level with segments := some segments } :: rest }

/-- A located result of the segment accumulator. -/
def segmentResult {α : Type} : Except (Status × Nat) α → Except CerStop α
  | .error (status, offset) => cerFail status offset
  | .ok x => .ok x

/-- Report an element to the visitor, if there is one. -/
def cerReport (job : CerJob σ) (element : ReadElement) (depth offset : Nat) (s : CerRun σ) :
    Except CerStop (CerRun σ) :=
  match job.visitor with
  | none => .ok s
  | some visitor =>
    match visitor element depth offset s.context with
    | (.resume, context) => .ok { s with context := context }
    | (.stop, context) => .ok { s with context := context, ended := some none }
    | (.error, _) => cerFail .visitor offset
    | (.unknown, _) => cerFail .callback offset

/-- The input ends. -/
def cerEnd (job : CerJob σ) (s : CerRun σ) : Except CerStop (CerRun σ) :=
  match s.levels with
  | level :: _ => cerFail .truncated (job.base + level.lengthOffset)
  | [] =>
    match s.outer with
    | none => .ok { s with ended := some none }
    | some segments => do
        segmentResult (segments.finish (job.base - 1))
        return { s with ended := some none }

/-- The rules on the innermost level when its end of contents is reached. -/
def cerCloseCheck (job : CerJob σ) (level : CerLevel) (pos : Nat) : Except CerStop Unit :=
  if pos - level.contentStart > job.limits.maxValueSize then
    cerFail .limit (job.base + level.lengthOffset)
  else
    match level.segments with
    | none => .ok ()
    | some segments => segmentResult (segments.finish (job.base + level.lengthOffset))

/-- A constructed element is complete. -/
def cerComplete (job : CerJob σ) (level : CerLevel) (rest : List CerLevel) (s : CerRun σ) :
    Except CerStop (CerRun σ) :=
  let element : ReadElement :=
    ⟨level.tag, (job.data.take s.pos).drop level.contentStart⟩
  let closed := { s with pos := s.pos + 2, levels := rest }
  match cerReport job element (job.initialDepth + rest.length) (job.base + level.tagOffset)
      closed with
  | .error stop => .error stop
  | .ok s =>
    if s.ended.isSome then .ok s
    else if job.one && rest.isEmpty then .ok { s with ended := some (some (element, s.pos)) }
    else .ok s

/-- The branch of `traverse` for a zero octet: the end of contents. -/
def cerClose (job : CerJob σ) (s : CerRun σ) : Except CerStop (CerRun σ) :=
  if job.data.length - s.pos < 2 then cerFail .truncated (job.base + s.pos)
  else if job.data[s.pos + 1]? ≠ some 0 then cerFail .invalidLength (job.base + s.pos)
  else
    match s.levels with
    | [] => cerFail .invalidTag (job.base + s.pos)
    | level :: rest => do
        cerCloseCheck job level s.pos
        cerComplete job level rest s

/-- A known universal type that may not be constructed. -/
def cerPrimitiveOnly (tag : Bytes) : Bool :=
  match cerUniversalNumber tag with
  | none => false
  | some number =>
    !asn1NumberMustConstruct number && (cerTypeInfo number).form = .primitiveOnly

/-- The segment state of a constructed element, when its type is segmentable. -/
def cerSegments (tag : Bytes) (strict : Bool) : Option SegmentState :=
  match cerUniversalNumber tag with
  | none => none
  | some number =>
    if !asn1NumberMustConstruct number && (cerTypeInfo number).form ≠ .primitiveOnly then
      some (SegmentState.init number (cerTypeInfo number) strict)
    else none

/-- The indefinite branch of `traverse`: push a level and descend. -/
def cerOpen (job : CerJob σ) (s : CerRun σ) (tag : Bytes) (tagSize : Nat) :
    Except CerStop (CerRun σ) :=
  let lengthOffset := s.pos + tagSize
  if asn1IsConstructed tag = false then cerFail .invalidLength (job.base + lengthOffset)
  else if s.parentSegments.isSome then cerFail .invalidTag (job.base + s.pos)
  else if cerPrimitiveOnly tag then cerFail .invalidLength (job.base + lengthOffset)
  else if job.initialDepth + s.levels.length = job.limits.maxDepth then
    cerFail .limit (job.base + s.pos)
  else if s.levels.length ≥ cerMaxDepth then .error .fault
  else
    .ok { s with
      pos := lengthOffset + 1
      count := s.count + 1
      levels := ⟨tag, s.pos, lengthOffset, lengthOffset + 1, cerSegments tag job.strict⟩ ::
        s.levels }

/-- The rules on a primitive element that is no segment. -/
def cerValueCheck (job : CerJob σ) (tag value : Bytes) (lengthOffset valueOffset : Nat) :
    Except CerStop Unit :=
  if value.length > job.limits.maxValueSize then cerFail .limit (job.base + lengthOffset)
  else
    match cerUniversalNumber tag with
    | none => .ok ()
    | some number =>
      if (cerTypeInfo number).form ≠ .primitiveOnly ∧ value.length > cerMaxSegmentOctets then
        cerFail .invalidLength (job.base + lengthOffset)
      else if job.strict then
        match validateUniversalValue number value with
        | .error status => cerFail status (job.base + valueOffset)
        | .ok () => .ok ()
      else .ok ()

/-- The rules on a primitive element: it is a segment of its parent, or a value. -/
def cerAccept (job : CerJob σ) (s : CerRun σ) (tag value : Bytes) (lengthOffset valueOffset : Nat) :
    Except CerStop (CerRun σ) :=
  match s.parentSegments with
  | some segments => do
      let segments ← segmentResult (segments.add tag value (job.base + s.pos))
      return s.setParent segments
  | none => do
      cerValueCheck job tag value lengthOffset valueOffset
      return s

/-- A primitive element whose value is `value`. -/
def cerValue (job : CerJob σ) (s : CerRun σ) (tag value : Bytes) (lengthOffset valueOffset : Nat) :
    Except CerStop (CerRun σ) :=
  match cerAccept job s tag value lengthOffset valueOffset with
  | .error stop => .error stop
  | .ok accepted =>
    let element : ReadElement := ⟨tag, value⟩
    let pos := valueOffset + value.length
    let next := { accepted with pos := pos, count := s.count + 1 }
    if job.one && s.levels.isEmpty then .ok { next with ended := some (some (element, pos)) }
    else cerReport job element (job.initialDepth + s.levels.length) (job.base + s.pos) next

/-- The definite branch of `traverse`: a primitive element with a minimal length. -/
def cerPrimitive (job : CerJob σ) (s : CerRun σ) (tag : Bytes) (tagSize : Nat) :
    Except CerStop (CerRun σ) :=
  let lengthOffset := s.pos + tagSize
  if asn1IsConstructed tag then cerFail .invalidLength (job.base + lengthOffset)
  else
    let field := cerFields.readLength (job.data.drop lengthOffset)
    match field.outcome with
    | .error status => cerFail status (job.base + lengthOffset)
    | .ok length =>
      let valueOffset := lengthOffset + field.consumed
      if length > job.data.length - valueOffset then
        cerFail .truncated (job.base + valueOffset)
      else
        cerValue job s tag ((job.data.drop valueOffset).take length) lengthOffset valueOffset

/-- The branch of `traverse` for an element. -/
def cerElement (job : CerJob σ) (s : CerRun σ) : Except CerStop (CerRun σ) :=
  if s.count = job.limits.maxElements then cerFail .limit (job.base + s.pos)
  else
    let field := cerFields.readTag (job.data.drop s.pos)
    match field.outcome with
    | .error status => cerFail status (job.base + s.pos)
    | .ok tag =>
      if s.pos + field.consumed = job.data.length then
        cerFail .truncated (job.base + (s.pos + field.consumed))
      else if job.data[s.pos + field.consumed]? = some berIndefinite then
        cerOpen job s tag.bytes field.consumed
      else cerPrimitive job s tag.bytes field.consumed

/-- One iteration of `traverse`. -/
def cerStep (job : CerJob σ) (s : CerRun σ) : Except CerStop (CerRun σ) :=
  if s.pos = job.data.length then cerEnd job s
  else if job.data[s.pos]? = some 0 then cerClose job s
  else cerElement job s

/-- `traverse`. Every iteration but the last one advances. -/
def cerTraverse (job : CerJob σ) (s : CerRun σ) : Except CerStop (CerRun σ) :=
  drive (CerStop.failed .callback none) (·.ended.isSome) (cerStep job) (job.data.length + 2) s

/-- `visit_impl`, which `tlv_cer_visit` and `tlv_cer_visit_strict` call: the context after the
traversal. -/
def cerVisitImpl (data : Bytes) (limits : CerLimits) (visitor : Option (CerVisitor σ))
    (context : σ) (strict : Bool) : Except CerStop σ :=
  if limits.maxDepth > cerMaxDepth then cerUnlocated .unsupported
  else if data.length > limits.maxInputSize then cerUnlocated .limit
  else do
    let s ← cerTraverse { data := data, limits := limits, visitor := visitor, strict := strict }
      { count := 0, context := context }
    return s.context

/-- `read_impl`: the element and the octets consumed. -/
def cerReadImpl (data : Bytes) (limits : CerLimits) (strict : Bool) :
    Except CerStop (ReadElement × Nat) :=
  if limits.maxDepth > cerMaxDepth then cerUnlocated .unsupported
  else if data.length > limits.maxInputSize then cerUnlocated .limit
  else if data.length = 0 then cerFail .atEnd 0
  else do
    let s ← cerTraverse { data := data, limits := limits, one := true, strict := strict }
      { count := 0, context := () }
    return (s.ended.getD none).getD (⟨[], []⟩, 0)

/-- `tlv_cer_read`. -/
def cerRead (data : Bytes) (limits : CerLimits) : Except CerStop (ReadElement × Nat) :=
  cerReadImpl data limits false

/-- `tlv_cer_read_strict`. -/
def cerReadStrict (data : Bytes) (limits : CerLimits) : Except CerStop (ReadElement × Nat) :=
  cerReadImpl data limits true

/-- `check_primitive_value`. -/
def checkPrimitiveValue (tag value : Bytes) (offsetBase : Nat) (strict : Bool) :
    Except CerStop Unit :=
  match cerUniversalNumber tag with
  | none => .ok ()
  | some number =>
    if (cerTypeInfo number).form ≠ .primitiveOnly ∧ value.length > cerMaxSegmentOctets then
      cerFail .invalidLength offsetBase
    else if strict = false then .ok ()
    else
      match validateUniversalValue number value with
      | .error status => cerFail status offsetBase
      | .ok () => .ok ()

/-- What a writer leaves: the octets of the destination, if there is one, and the octets
written. -/
abbrev Written := Option Bytes × Nat

/-- The children of a constructed element are framed and stored as they are. -/
def cerWriteConstructed (element : Element) (tagSize : Nat) (limits : CerLimits) (strict : Bool)
    (destination : Option Bytes) : Except CerStop Written :=
  if element.value.length > sizeMax - tagSize - 3 then cerUnlocated .invalidLength
  else
    let total := tagSize + 1 + element.value.length + 2
    if total > limits.maxInputSize then cerUnlocated .limit
    else do
      let _ ← cerTraverse
        { data := element.value, base := tagSize + 1, initialDepth := 1, limits := limits,
          strict := strict }
        { count := 1, outer := cerSegments element.tag strict, context := () }
      match destination with
      | none => return (none, total)
      | some buffer =>
        if buffer.length < total then cerUnlocated .bufferTooShort
        else
          return (some (Octets.store buffer 0
            (element.tag ++ [berIndefinite] ++ element.value ++ [0, 0])), total)

/-- `tlv_encoded_size` and `tlv_write` for a primitive element. -/
def cerWriteFramed (element : Element) (tagSize : Nat) (limits : CerLimits)
    (destination : Option Bytes) : Except CerStop Written :=
  match formatMeasure formatCer element with
  | .error (status, _) => cerFail status (if status = .invalidLength then tagSize else 0)
  | .ok sizes =>
    match sizeToNative sizes.total with
    | .error status => cerFail status (if status = .invalidLength then tagSize else 0)
    | .ok total =>
      if total > limits.maxInputSize then cerUnlocated .limit
      else
        match destination with
        | none => .ok (none, total)
        | some buffer =>
          match formatEncode formatCer element buffer with
          | .error (status, _) => cerUnlocated status
          | .ok (stored, written) => .ok (some stored, written)

/-- `write_impl`. A missing destination asks for the size only. -/
def cerWriteImpl (element : Element) (limits : CerLimits) (strict : Bool)
    (destination : Option Bytes) : Except CerStop Written :=
  if limits.maxDepth > cerMaxDepth then cerUnlocated .unsupported
  else if limits.maxElements = 0 then cerUnlocated .limit
  else
    match cerFields.writeTag element.tag none with
    | .error status => cerUnlocated status
    | .ok (_, tagSize) =>
      if asn1IsConstructed element.tag then
        cerWriteConstructed element tagSize limits strict destination
      else if element.value.length > limits.maxValueSize then cerFail .limit tagSize
      else do
        checkPrimitiveValue element.tag element.value tagSize strict
        cerWriteFramed element tagSize limits destination

/-- `tlv_cer_write`. -/
def cerWrite (element : Element) (limits : CerLimits) (destination : Option Bytes) :
    Except CerStop Written :=
  cerWriteImpl element limits false destination

end OpenTlv
