import OpenTlv.Asn1.Cer

/-!
# Bounded DER processing

The element reader and the traversal of `der_validation.c`, with its entry points. The stack of
`traverse` holds the ends of the enclosing values. `initial_depth` is always below the limit that
the entry points check, so no push goes beyond `TLV_DER_MAX_DEPTH`.
-/

namespace OpenTlv

/-- `TLV_DER_MAX_DEPTH`. -/
def derMaxDepth : Nat := 64

/-- `tlv_der_limits_t`. -/
structure DerLimits where
  maxDepth : Nat
  maxInputSize : Nat
  maxValueSize : Nat
  maxElements : Nat
  deriving Repr, DecidableEq

/-- `tlv_der_default_limits`, which a null pointer selects. -/
def derDefaultLimits : DerLimits :=
  ⟨32, 16 * 1024 * 1024, 16 * 1024 * 1024, 100000⟩

/-- A code and perhaps a location in the input. -/
abbrev DerResult := Except (Status × Option Nat)

/-- `fail`. -/
def derFail {α : Type} (status : Status) (offset : Nat) : DerResult α :=
  .error (status, some offset)

/-- `unlocated`. -/
def derUnlocated {α : Type} (status : Status) : DerResult α :=
  .error (status, none)

/-- `tlv_der_tag_number`. -/
def derTagNumber (tag : Bytes) : Except Status Nat :=
  asn1TagNumberChecked derWriteTag tag

/-- `tlv_der_read_element`: the element at the start of `data` and the octets consumed. -/
def derReadElement (data : Bytes) (base : Nat) (limits : DerLimits) :
    DerResult (ReadElement × Nat) :=
  match derReadTag data with
  | ⟨.error status, _⟩ => derFail status base
  | ⟨.ok tag, tagSize⟩ =>
    match asn1ReadMinimalLength (data.drop tagSize) with
    | ⟨.error status, _⟩ => derFail status (base + tagSize)
    | ⟨.ok length, lengthSize⟩ =>
      if length > limits.maxValueSize then derFail .limit (base + tagSize)
      else if length > data.length - tagSize - lengthSize then
        derFail .truncated (base + tagSize + lengthSize)
      else
        .ok (⟨tag.bytes, (data.drop (tagSize + lengthSize)).take length⟩,
          tagSize + lengthSize + length)

/-- `tlv_der_visitor_t`, over an explicit context. -/
abbrev DerVisitor (σ : Type) := ReadElement → Nat → Nat → σ → VisitResult × σ

/-- The arguments of `traverse` that do not change. -/
structure DerJob (σ : Type) where
  data : Bytes
  base : Nat := 0
  initialDepth : Nat := 0
  limits : DerLimits
  visitor : Option (DerVisitor σ) := none
  one : Bool := false
  strict : Bool

/-- The locals of `traverse`: the end of the innermost value and the ends around it, the nearest
first. `stopped` is set when the visitor stops the traversal. -/
structure DerRun (σ : Type) where
  pos : Nat := 0
  count : Nat
  ending : Nat
  outer : List Nat := []
  first : Option (ReadElement × Nat) := none
  context : σ
  stopped : Bool := false

variable {σ : Type}

/-- The loop of `traverse` is over. -/
def DerRun.halted (s : DerRun σ) : Bool :=
  s.stopped || (s.outer.isEmpty && !(s.pos < s.ending))

/-- The content check of the strict entry points. -/
def derValueCheck (strict : Bool) (element : ReadElement) (offset : Nat) : DerResult Unit :=
  if strict ∧ asn1IsUniversal element.tag = true ∧ asn1IsConstructed element.tag = false then
    match derTagNumber element.tag with
    | .error status => derFail status offset
    | .ok number =>
      match validateUniversalValue number element.value with
      | .error status => derFail status offset
      | .ok () => .ok ()
  else .ok ()

/-- Report an element to the visitor, if there is one. -/
def derReport (job : DerJob σ) (element : ReadElement) (depth offset : Nat) (s : DerRun σ) :
    DerResult (DerRun σ) :=
  match job.visitor with
  | none => .ok s
  | some visitor =>
    match visitor element depth offset s.context with
    | (.resume, context) => .ok { s with context := context }
    | (.stop, context) => .ok { s with context := context, stopped := true }
    | (.error, _) => derFail .visitor offset
    | (.unknown, _) => derFail .callback offset

/-- Enter the value of a constructed element, or pass over it. -/
def derAdvance (job : DerJob σ) (element : ReadElement) (ending : Nat) (s : DerRun σ) :
    DerResult (DerRun σ) :=
  if s.stopped then .ok s
  else if asn1IsConstructed element.tag = true ∧ element.value.length ≠ 0 then
    let pos := ending - element.value.length
    if job.initialDepth + s.outer.length = job.limits.maxDepth then
      derFail .limit (job.base + pos)
    else .ok { s with pos := pos, ending := ending, outer := s.ending :: s.outer }
  else .ok { s with pos := ending }

/-- The element that `traverse` is at. -/
def derElement (job : DerJob σ) (s : DerRun σ) : DerResult (DerRun σ) :=
  if job.initialDepth + s.outer.length > job.limits.maxDepth ∨
      s.count = job.limits.maxElements then
    derFail .limit (job.base + s.pos)
  else
    match derReadElement ((job.data.take s.ending).drop s.pos) (job.base + s.pos) job.limits with
    | .error failed => .error failed
    | .ok (element, used) => do
        let ending := s.pos + used
        derValueCheck job.strict element (job.base + ending - element.value.length)
        -- nothing is entered yet at the first octet, so `ends[0]` is the innermost end
        let s' :=
          if job.one = true ∧ s.pos = 0 then
            { s with count := s.count + 1, first := some (element, used), ending := ending }
          else { s with count := s.count + 1 }
        let s' ← derReport job element (job.initialDepth + s.outer.length) (job.base + s.pos) s'
        derAdvance job element ending s'

/-- One iteration of `traverse`. -/
def derStep (job : DerJob σ) (s : DerRun σ) : DerResult (DerRun σ) :=
  match s.outer with
  | [] => derElement job s
  | ending :: outer =>
    if s.pos = s.ending then .ok { s with ending := ending, outer := outer }
    else derElement job s

/-- `traverse`. Every iteration advances or leaves a value. -/
def derTraverse (job : DerJob σ) (s : DerRun σ) : DerResult (DerRun σ) :=
  drive (Status.callback, none) DerRun.halted (derStep job) (job.data.length + 2) s

/-- `visit_impl`: the context after the traversal. -/
def derVisitImpl (data : Bytes) (limits : DerLimits) (visitor : Option (DerVisitor σ))
    (context : σ) (strict : Bool) : DerResult σ :=
  if limits.maxDepth > derMaxDepth then derUnlocated .unsupported
  else if data.length > limits.maxInputSize then derUnlocated .limit
  else do
    let s ← derTraverse { data := data, limits := limits, visitor := visitor, strict := strict }
      { count := 0, ending := data.length, context := context }
    return s.context

/-- `tlv_der_visit`. -/
def derVisit (data : Bytes) (limits : DerLimits) (visitor : Option (DerVisitor σ)) (context : σ) :
    DerResult σ :=
  derVisitImpl data limits visitor context false

/-- `read_impl`: the element and the octets consumed. -/
def derReadImpl (data : Bytes) (limits : DerLimits) (strict : Bool) :
    DerResult (ReadElement × Nat) :=
  if limits.maxDepth > derMaxDepth then derUnlocated .unsupported
  else if data.length > limits.maxInputSize then derUnlocated .limit
  else if data.length = 0 then derFail .atEnd 0
  else do
    let s ← derTraverse { data := data, limits := limits, one := true, strict := strict }
      { count := 0, ending := data.length, context := () }
    return s.first.getD (⟨[], []⟩, 0)

/-- `tlv_der_read`. -/
def derRead (data : Bytes) (limits : DerLimits) : DerResult (ReadElement × Nat) :=
  derReadImpl data limits false

/-- `tlv_der_read_strict`. -/
def derReadStrict (data : Bytes) (limits : DerLimits) : DerResult (ReadElement × Nat) :=
  derReadImpl data limits true

/-- `tlv_encoded_size`. -/
def encodedSize (format : Format) (element : Element) : Except Status Nat :=
  match formatMeasure format element with
  | .error (status, _) => .error status
  | .ok sizes => sizeToNative sizes.total

/-- `write_impl`. A missing destination asks for the size only. -/
def derWriteImpl (element : Element) (limits : DerLimits) (strict : Bool)
    (destination : Option Bytes) : DerResult Written :=
  match encodedSize formatDer element with
  | .error status => derFail status (if status = .invalidLength then element.tag.length else 0)
  | .ok total =>
    if limits.maxDepth > derMaxDepth then derUnlocated .unsupported
    else if total > limits.maxInputSize ∨ limits.maxElements = 0 then derUnlocated .limit
    else if element.value.length > limits.maxValueSize then
      derFail .limit element.tag.length
    else do
      let header := total - element.value.length
      derValueCheck strict ⟨element.tag, element.value⟩ header
      if asn1IsConstructed element.tag then
        let _ ← derTraverse
          { data := element.value, base := header, initialDepth := 1, limits := limits,
            strict := strict }
          { count := 1, ending := element.value.length, context := () }
      match destination with
      | none => return (none, total)
      | some buffer =>
        match formatEncode formatDer element buffer with
        | .error (status, _) => derUnlocated status
        | .ok (stored, written) => return (some stored, written)

/-- `tlv_der_write_strict`. -/
def derWriteStrict (element : Element) (limits : DerLimits) (destination : Option Bytes) :
    DerResult Written :=
  derWriteImpl element limits true destination

end OpenTlv
