import OpenTlv.Asn1.Der

/-!
# Schema-aware DER reading

The definitions of `der_schema.h`, the definition check and the reader of `der_schema.c`. A type
refers to other types by identity, and types may be shared or recursive, so a definition is a
table of types and the identity of its root. The reader keeps a stack of open containers; ANY
components and extension additions are left to the plain reader.
-/

namespace OpenTlv

/-- `tlv_der_schema_kind_t`. -/
inductive DerSchemaKind where
  | universal
  | sequence
  | set
  | setOf
  | choice
  | any
  | sequenceOf
  deriving Repr, DecidableEq

/-- `tlv_der_tagging_mode_t`. -/
inductive DerTagging where
  | none
  | implicit
  | explicit
  deriving Repr, DecidableEq

/-- `tlv_der_presence_t`. -/
inductive DerPresence where
  | required
  | optional
  | default
  deriving Repr, DecidableEq

/-- `tlv_asn1_class_t`. -/
inductive Asn1Class where
  | universal
  | application
  | contextSpecific
  | privateUse
  deriving Repr, DecidableEq

/-- The class bits of an identifier. -/
def Asn1Class.bits : Asn1Class → UInt8
  | .universal => 0x00
  | .application => 0x40
  | .contextSpecific => 0x80
  | .privateUse => 0xC0

/-- `tlv_value_constraint_t`. -/
inductive ValueConstraint where
  | none
  | range (minValue maxValue : Int)
  | allowedValues (values : List Int)
  deriving Repr, DecidableEq

/-- `tlv_der_schema_leaf_constraint_t`. -/
structure LeafConstraint where
  minLength : Nat
  maxLength : Nat
  valueConstraint : Option ValueConstraint
  deriving Repr, DecidableEq

/-- `tlv_der_schema_component_t`. The type is known by its identity. -/
structure DerSchemaComponent where
  type : Nat
  tagging : DerTagging := .none
  tagClass : Asn1Class := .universal
  tagNumber : Nat := 0
  presence : DerPresence := .required
  defaultEncoding : Option Bytes := none
  deriving Repr, DecidableEq

/-- `tlv_der_schema_type_t`. -/
structure DerSchemaType where
  kind : DerSchemaKind
  universalNumber : Nat := 0
  components : List DerSchemaComponent := []
  element : Option DerSchemaComponent := none
  minElements : Nat := 0
  maxElements : Nat := sizeMax
  constraint : Option LeafConstraint := none
  extensible : Bool := false
  deriving Repr, DecidableEq

/-- The types that the identities of a definition refer to. -/
abbrev DerSchema := Nat → DerSchemaType

/-- `TLV_DER_SCHEMA_MAX_TYPE_DEPTH`. -/
def derSchemaMaxTypeDepth : Nat := 32

/-- `TLV_DER_SCHEMA_MAX_TYPES`. -/
def derSchemaMaxTypes : Nat := 256

/-- `TLV_DER_SCHEMA_MAX_COMPONENTS`. -/
def derSchemaMaxComponents : Nat := 64

/-- `tlv_der_schema_limits_t`. -/
structure DerSchemaLimits where
  base : DerLimits
  maxSetElements : Nat
  deriving Repr, DecidableEq

section Identifiers

/-- The seven-bit digits of a tag number, least significant first. Ten hold 64 bits. -/
def tagDigits : Nat → Nat → List Nat
  | 0, _ => []
  | fuel + 1, number =>
    (number % 128) :: if number / 128 = 0 then [] else tagDigits fuel (number / 128)

/-- The octets of the long form, most significant first; all but the last continue. -/
def longTagOctets : List Nat → Bytes
  | [] => []
  | digit :: rest =>
    (rest.reverse.map fun other => UInt8.ofNat other ||| 0x80) ++ [UInt8.ofNat digit]

/-- `tlv_asn1_tag_make_checked`. -/
def asn1TagMakeChecked (validate : WriteTag) (tagClass : Asn1Class) (constructed : Bool)
    (number : Nat) : Except Status Bytes :=
  let lead := tagClass.bits ||| if constructed then asn1ConstructedBit else 0
  let check (tag : Bytes) : Except Status Bytes :=
    match validate tag none with
    | .error _ => .error .invalidTag
    | .ok _ => .ok tag
  if number < 31 then check [lead ||| UInt8.ofNat number]
  else
    let digits := tagDigits 10 number
    if digits.length + 1 > asn1TagMaxSize then .error .invalidTagSize
    else check ((lead ||| asn1TagNumberMask) :: longTagOctets digits)

/-- `tlv_der_tag_make`. -/
def derTagMake (tagClass : Asn1Class) (constructed : Bool) (number : Nat) :
    Except Status Bytes :=
  asn1TagMakeChecked derWriteTag tagClass constructed number

/-- `universal_is_constructed`. -/
def universalIsConstructed (number : Nat) : Bool :=
  number = 8 || number = 11 || number = 16 || number = 17 || number = 29

/-- `kind_identifier`. -/
def kindIdentifier (type : DerSchemaType) : Except Status Bytes :=
  match type.kind with
  | .sequence => derTagMake .universal true 16
  | .sequenceOf => derTagMake .universal true 16
  | .set => derTagMake .universal true 17
  | .setOf => derTagMake .universal true 17
  | .universal =>
    derTagMake .universal (universalIsConstructed type.universalNumber) type.universalNumber
  | .choice => .error .schema
  | .any => .error .schema

/-- `type_is_constructed`. -/
def typeIsConstructed (type : DerSchemaType) : Bool :=
  match type.kind with
  | .sequence => true
  | .sequenceOf => true
  | .set => true
  | .setOf => true
  | .universal => universalIsConstructed type.universalNumber
  | .choice => false
  | .any => false

variable (types : DerSchema)

/-- The identifier of a tagged component. -/
def componentIdentifier (component : DerSchemaComponent) : Except Status Bytes :=
  derTagMake component.tagClass
    (if component.tagging = .explicit then true else typeIsConstructed (types component.type))
    component.tagNumber

/-- The first component that resolves, with the failed types so far. -/
def firstResolved
    (resolve : DerSchemaComponent → List Nat → Option DerSchemaComponent × List Nat) :
    List DerSchemaComponent → List Nat → Option DerSchemaComponent × List Nat
  | [], failed => (none, failed)
  | component :: rest, failed =>
    match resolve component failed with
    | (some resolved, failed) => (some resolved, failed)
    | (none, failed) => firstResolved resolve rest failed

/-- The component itself, when its identifier is the wire tag. -/
def matching (component : DerSchemaComponent) (wire : Bytes) :
    Except Status Bytes → Option DerSchemaComponent
  | .error _ => none
  | .ok tag => if tag = wire then some component else none

/-- `resolve_tag`. The first argument is the depth that is left. -/
def resolveTag (wire : Bytes) :
    Nat → DerSchemaComponent → List Nat → Option DerSchemaComponent × List Nat
  | 0, _, failed => (none, failed)
  | remaining + 1, component, failed =>
    if component.tagging ≠ .none then
      (matching component wire (componentIdentifier types component), failed)
    else
      match (types component.type).kind with
      | .any => (some component, failed)
      | .choice =>
        if component.type ∈ failed then (none, failed)
        else
          match firstResolved (resolveTag wire remaining) (types component.type).components
              failed with
          | (some resolved, failed) => (some resolved, failed)
          | (none, failed) =>
            (none, if failed.length < derSchemaMaxTypes then failed ++ [component.type]
              else failed)
      | _ => (matching component wire (kindIdentifier (types component.type)), failed)

/-- `resolve_at` at depth zero. -/
def resolveAt (component : DerSchemaComponent) (wire : Bytes) : Option DerSchemaComponent :=
  (resolveTag types wire (derSchemaMaxTypeDepth + 1) component []).1

end Identifiers

section Check

variable (types : DerSchema)

/-- `tlv_value_constraint_check`. -/
def valueConstraintCheck : ValueConstraint → Except Status Unit
  | .none => .ok ()
  | .range minValue maxValue =>
    if minValue ≤ maxValue then .ok () else .error .invalidSchema
  | .allowedValues _ => .ok ()

/-- `check_component`. -/
def checkComponent (component : DerSchemaComponent) (inChoice : Bool) : Except Status Unit :=
  if inChoice = true ∧
      (component.presence ≠ .required ∨ component.defaultEncoding.isSome = true) then
    .error .invalidSchema
  else if component.presence = .default ∧ component.defaultEncoding.getD [] = [] then
    .error .invalidSchema
  else if component.tagging = .implicit ∧ ((types component.type).kind = .choice ∨
      (types component.type).kind = .any) then
    .error .invalidSchema
  else .ok ()

/-- The loop of `check_type` over the components. -/
def checkComponents (kind : DerSchemaKind) : List DerSchemaComponent → Except Status Unit
  | [] => .ok ()
  | component :: rest => do
      checkComponent types component (kind = .choice)
      if (kind = .set ∨ kind = .choice) ∧ component.tagging = .none ∧
          (types component.type).kind = .any then
        .error .invalidSchema
      else checkComponents kind rest

/-- `check_type`. -/
def checkType (type : DerSchemaType) : Except Status Unit :=
  match type.kind with
  | .universal =>
    match type.constraint with
    | none => .ok ()
    | some constraint =>
      if constraint.minLength > constraint.maxLength then .error .invalidSchema
      else
        match constraint.valueConstraint with
        | none => .ok ()
        | some value =>
          if type.universalNumber ≠ 2 ∧ type.universalNumber ≠ 10 then
            .error .invalidSchema
          else valueConstraintCheck value
  | .any => .ok ()
  | .setOf | .sequenceOf =>
    match type.element with
    | none => .error .invalidSchema
    | some element =>
      if type.minElements > type.maxElements ∨ element.presence ≠ .required then
        .error .invalidSchema
      else checkComponents types type.kind [element]
  | .sequence | .set | .choice =>
    if type.components.length > derSchemaMaxComponents then .error .unsupported
    else checkComponents types type.kind type.components

/-- The components that a type refers to. -/
def DerSchemaType.references (type : DerSchemaType) : List DerSchemaComponent :=
  match type.kind with
  | .sequence | .set | .choice => type.components
  | .setOf | .sequenceOf => type.element.toList
  | .universal | .any => []

/-- Add the types of some components that are not known yet. -/
def addTypes : List DerSchemaComponent → List Nat → Except Status (List Nat)
  | [], graph => .ok graph
  | component :: rest, graph =>
    if component.type ∈ graph then addTypes rest graph
    else if graph.length = derSchemaMaxTypes then .error .unsupported
    else addTypes rest (graph ++ [component.type])

/-- The first loop of `check_graph`: every type that the root reaches, each checked once. -/
def collectTypes : Nat → Nat → List Nat → Except Status (List Nat)
  | 0, _, graph => .ok graph
  | fuel + 1, node, graph =>
    match graph[node]? with
    | none => .ok graph
    | some identity => do
        checkType types (types identity)
        let graph ← addTypes (types identity).references graph
        collectTypes fuel (node + 1) graph

/-- The states and heights of `schema_graph_t`: active types, and complete ones with their
heights. -/
structure ChoiceMarks where
  active : List Nat := []
  complete : List (Nat × Nat) := []

/-- The untagged alternatives of a CHOICE that are choices themselves. -/
def transparentChoices (type : DerSchemaType) : List Nat :=
  (type.components.filter fun component =>
    component.tagging = .none && (types component.type).kind = .choice).map (·.type)

/-- `check_choice_path`. The first argument is the depth that is left. -/
def checkChoicePath : Nat → Nat → ChoiceMarks → Except Status ChoiceMarks
  | remaining, node, marks =>
    if node ∈ marks.active then .error .invalidSchema
    else if (marks.complete.lookup node).isSome then .ok marks
    else
      match remaining with
      | 0 => .error .unsupported
      | remaining + 1 => do
          let entered := { marks with active := node :: marks.active }
          let (height, left) ← (transparentChoices types (types node)).foldlM
            (fun (height, marks) child => do
              let marks ← checkChoicePath remaining child marks
              .ok (max height (1 + (marks.complete.lookup child).getD 0), marks))
            (1, entered)
          if height > derSchemaMaxTypeDepth then .error .unsupported
          else
            .ok { active := left.active.erase node
                  complete := (node, height) :: left.complete }

/-- Whether another component resolves the identifier of component `index`. -/
def identifierTaken (components : List DerSchemaComponent) (index : Nat) (tag : Bytes) : Bool :=
  (components.zipIdx.filter fun other => other.2 ≠ index).any fun other =>
    (resolveAt types other.1 tag).isSome

/-- `check_identifiers`. -/
def checkIdentifiers (type : DerSchemaType) : Except Status Unit :=
  if type.kind ≠ .set ∧ type.kind ≠ .choice then .ok ()
  else
    type.components.zipIdx.forM fun (component, index) =>
      let taken (tag : Except Status Bytes) : Except Status Unit :=
        match tag with
        | .error _ => .error .invalidSchema
        | .ok tag =>
          if identifierTaken types type.components index tag then .error .invalidSchema
          else .ok ()
      if component.tagging ≠ .none then taken (componentIdentifier types component)
      else if (types component.type).kind = .choice then .ok ()
      else taken (kindIdentifier (types component.type))

/-- `check_graph` and `tlv_der_schema_check`. -/
def derSchemaCheck (root : Nat) : Except Status Unit := do
  let graph ← collectTypes types (derSchemaMaxTypes + 1) 0 [root]
  let _ ← (graph.filter fun identity => (types identity).kind = .choice).foldlM
    (fun marks identity => checkChoicePath types derSchemaMaxTypeDepth identity marks)
    ({} : ChoiceMarks)
  graph.forM fun identity => checkIdentifiers types (types identity)

end Check

section Leaves

/-- `integer_decode_value`. -/
def integerDecodeValue (data : Bytes) : Int :=
  let lead := if data.headD 0 &&& 0x80 ≠ 0 then sizeMax else 0
  let bits := data.foldl (fun bits octet => (bits * 256 + octet.toNat) % 2 ^ 64) lead
  if bits < 2 ^ 63 then bits else bits - 2 ^ 64

/-- `decode_integer` of `tlv_codec_int64_minimal_be`, as `tlv_asn1_codec_integer` uses it. -/
def decodeInteger (data : Bytes) : Option Int :=
  if data.length = 0 ∨ data.length > 8 then none
  else if validateInteger data = false then none
  else some (integerDecodeValue data)

/-- `tlv_value_constraint_validate`. -/
def valueConstraintValidate (constraint : ValueConstraint) (value : Int) : Except Status Unit := do
  valueConstraintCheck constraint
  match constraint with
  | .none => .ok ()
  | .range minValue maxValue =>
    if value < minValue ∨ value > maxValue then .error .schema else .ok ()
  | .allowedValues values => if value ∈ values then .ok () else .error .schema

/-- `validate_leaf_constraint`. -/
def validateLeafConstraint (type : DerSchemaType) (value : Bytes) : Except Status Unit :=
  match type.constraint with
  | none => .ok ()
  | some constraint =>
    if value.length < constraint.minLength ∨ value.length > constraint.maxLength then
      .error .schema
    else
      match constraint.valueConstraint with
      | none => .ok ()
      | some allowed =>
        match decodeInteger value with
        | none => .error .invalidValue
        | some number => valueConstraintValidate allowed number

end Leaves

section Read

/-- `der_schema_frame_t`: an open container, with absolute offsets. -/
structure DerSchemaFrame where
  type : Nat
  ending : Nat
  pos : Nat
  depth : Nat
  nextComponent : Nat := 0
  seen : Nat := 0
  hasPrev : Bool := false
  prevTag : Bytes := []
  prevOffset : Nat := 0
  prevLength : Nat := 0
  elementCount : Nat := 0
  deriving Repr, DecidableEq

/-- The state of the reader: the open containers, the innermost first, and the elements that are
charged so far. -/
structure DerSchemaRun where
  frames : List DerSchemaFrame := []
  count : Nat := 0
  deriving Repr, DecidableEq

variable (types : DerSchema) (data : Bytes) (limits : DerLimits)

/-- The octets of a part of the input. -/
def slice (offset size : Nat) : Bytes :=
  (data.drop offset).take size

/-- `read_one`. -/
def schemaReadOne (count offset size depth : Nat) : DerResult (ReadElement × Nat × Nat) :=
  if depth > limits.maxDepth ∨ count = limits.maxElements then derFail .limit offset
  else do
    let (element, used) ← derReadElement (slice data offset size) offset limits
    return (element, used, count + 1)

/-- `der_schema_count_visitor`. -/
def derSchemaCountVisitor : DerVisitor Nat := fun _ _ _ visited => (.resume, visited + 1)

/-- A location of the plain reader in the whole input. -/
def translate {α : Type} (offset : Nat) : DerResult α → DerResult α
  | .error (status, location) => .error (status, location.map (· + offset))
  | .ok x => .ok x

/-- `dispatch_any`: the elements charged after the contents of an opaque element. -/
def dispatchAny (count valueOffset valueLength : Nat) (constructed : Bool) (depth : Nat) :
    DerResult Nat :=
  if constructed = false then .ok count
  else do
    let visited ← translate valueOffset
      (derVisit (slice data valueOffset valueLength)
        { limits with
          maxDepth := limits.maxDepth - depth
          maxElements := limits.maxElements - count }
        (some derSchemaCountVisitor) 0)
    return count + visited

/-- A status of the schema checks, at an offset. -/
def located (offset : Nat) : Except Status Unit → DerResult Unit
  | .error status => derFail status offset
  | .ok () => .ok ()

/-- `handle_matched_element`. An EXPLICIT wrapper goes one level deeper, so the depth limit bounds
the recursion; the first argument is above it. -/
def handleMatchedElement : Nat → ReadElement → Nat → Nat → DerSchemaComponent → Nat →
    DerSchemaRun → DerResult DerSchemaRun
  | 0, _, _, elemBase, _, _, _ => derFail .limit elemBase
  | fuel + 1, element, used, elemBase, component, depth, s =>
    let valueLength := element.value.length
    let valueOffset := elemBase + used - valueLength
    let type := types component.type
    if component.tagging = .explicit then do
      let (inner, innerUsed, count) ←
        schemaReadOne data limits s.count valueOffset valueLength (depth + 1)
      if innerUsed ≠ valueLength then derFail .invalidValue (valueOffset + innerUsed)
      else if type.kind = .any then do
        let count ← dispatchAny data limits count valueOffset innerUsed
          (asn1IsConstructed inner.tag) (depth + 1)
        return { s with count := count }
      else
        match resolveAt types { type := component.type } inner.tag with
        | none => derFail .invalidTag valueOffset
        | some resolved =>
          handleMatchedElement fuel inner innerUsed valueOffset resolved (depth + 1)
            { s with count := count }
    else
      match type.kind with
      | .universal => do
          located valueOffset (validateUniversalValue type.universalNumber element.value)
          located valueOffset (validateLeafConstraint type element.value)
          return s
      | .any => do
          let count ← dispatchAny data limits s.count valueOffset valueLength
            (asn1IsConstructed element.tag) depth
          return { s with count := count }
      | .choice => derFail .schema elemBase
      | _ =>
        if depth = limits.maxDepth then derFail .limit valueOffset
        else
          .ok { s with
            frames := { type := component.type, depth := depth, pos := valueOffset,
                        ending := valueOffset + valueLength } :: s.frames }

/-- `is_default_equal`. -/
def isDefaultEqual (elemBase used : Nat) (component : DerSchemaComponent) : Bool :=
  component.presence = .default && component.defaultEncoding = some (slice data elemBase used)

/-- The component loop of `process_sequence`: the component that the tag matches, with its index,
or none when all are passed. -/
def matchSequence (tag : Bytes) (elemBase : Nat) :
    List DerSchemaComponent → Nat →
    DerResult (Option (DerSchemaComponent × DerSchemaComponent) × Nat)
  | [], index => .ok (none, index)
  | component :: rest, index =>
    match resolveAt types component tag with
    | some resolved => .ok (some (component, resolved), index)
    | none =>
      if component.presence = .required then derFail .schema elemBase
      else matchSequence tag elemBase rest (index + 1)

/-- The element is matched: reading goes on behind it, or inside it. -/
def acceptElement (element : ReadElement) (used : Nat) (frame : DerSchemaFrame)
    (outer : List DerSchemaFrame) (resolved : DerSchemaComponent) (count : Nat) :
    DerResult DerSchemaRun :=
  handleMatchedElement types data limits (limits.maxDepth + 1) element used frame.pos resolved
    (frame.depth + 1) { frames := { frame with pos := frame.pos + used } :: outer, count := count }

/-- `process_sequence`. -/
def processSequence (frame : DerSchemaFrame) (outer : List DerSchemaFrame) (s : DerSchemaRun) :
    DerResult DerSchemaRun := do
  let type := types frame.type
  let (element, used, count) ←
    schemaReadOne data limits s.count frame.pos (frame.ending - frame.pos) (frame.depth + 1)
  let (found, index) ← matchSequence types element.tag frame.pos
    (type.components.drop frame.nextComponent) frame.nextComponent
  match found with
  | some (component, resolved) =>
    if isDefaultEqual data frame.pos used component then derFail .invalidValue frame.pos
    else
      acceptElement types data limits element used { frame with nextComponent := index + 1 }
        outer resolved count
  | none =>
    if type.extensible then do
      let count ← dispatchAny data limits count (frame.pos + used - element.value.length)
        element.value.length (asn1IsConstructed element.tag) (frame.depth + 1)
      return { frames := { frame with nextComponent := index, pos := frame.pos + used } :: outer
               count := count }
    else derFail .schema frame.pos

/-- The first component of a SET that the tag matches. -/
def matchSet (tag : Bytes) : List DerSchemaComponent → Nat →
    Option (Nat × DerSchemaComponent × DerSchemaComponent)
  | [], _ => none
  | component :: rest, index =>
    match resolveAt types component tag with
    | some resolved => some (index, component, resolved)
    | none => matchSet tag rest (index + 1)

/-- The order of the elements of a SET: by class and number. -/
def tagsOrdered (previous tag : Bytes) : Bool :=
  match derTagNumber previous, derTagNumber tag with
  | .ok number, .ok number' =>
    previous.headD 0 >>> 6 < tag.headD 0 >>> 6 ||
      (previous.headD 0 >>> 6 = tag.headD 0 >>> 6 && number < number')
  | _, _ => false

/-- `process_set`. -/
def processSet (frame : DerSchemaFrame) (outer : List DerSchemaFrame) (s : DerSchemaRun) :
    DerResult DerSchemaRun := do
  let (element, used, count) ←
    schemaReadOne data limits s.count frame.pos (frame.ending - frame.pos) (frame.depth + 1)
  match matchSet types element.tag (types frame.type).components 0 with
  | none => derFail .schema frame.pos
  | some (index, component, resolved) =>
    if frame.seen.testBit index then derFail .schema frame.pos
    else if frame.hasPrev = true ∧ tagsOrdered frame.prevTag element.tag = false then
      derFail .invalidValue frame.pos
    else if isDefaultEqual data frame.pos used component then derFail .invalidValue frame.pos
    else
      acceptElement types data limits element used
        { frame with
          seen := frame.seen ||| 1 <<< index
          prevTag := element.tag
          hasPrev := true }
        outer resolved count

/-- The order of the elements of a SET OF: by their complete encodings. -/
def encodingsOrdered (frame : DerSchemaFrame) (used : Nat) : Bool :=
  let common := min frame.prevLength used
  slice data frame.prevOffset common < slice data frame.pos common ||
    (slice data frame.prevOffset common = slice data frame.pos common && frame.prevLength ≤ used)

/-- `process_set_of`. -/
def processSetOf (frame : DerSchemaFrame) (outer : List DerSchemaFrame) (s : DerSchemaRun) :
    DerResult DerSchemaRun :=
  if frame.elementCount = (types frame.type).maxElements then derFail .schema frame.pos
  else do
    let (element, used, count) ←
      schemaReadOne data limits s.count frame.pos (frame.ending - frame.pos) (frame.depth + 1)
    match (types frame.type).element.bind fun component =>
        resolveAt types component element.tag with
    | none => derFail .schema frame.pos
    | some resolved =>
      if frame.hasPrev = true ∧ encodingsOrdered data frame used = false then
        derFail .invalidValue frame.pos
      else
        acceptElement types data limits element used
          { frame with
            prevOffset := frame.pos
            prevLength := used
            hasPrev := true
            elementCount := frame.elementCount + 1 }
          outer resolved count

/-- `process_sequence_of`. -/
def processSequenceOf (frame : DerSchemaFrame) (outer : List DerSchemaFrame) (s : DerSchemaRun) :
    DerResult DerSchemaRun :=
  if frame.elementCount = (types frame.type).maxElements then derFail .schema frame.pos
  else do
    let (element, used, count) ←
      schemaReadOne data limits s.count frame.pos (frame.ending - frame.pos) (frame.depth + 1)
    match (types frame.type).element.bind fun component =>
        resolveAt types component element.tag with
    | none => derFail .schema frame.pos
    | some resolved =>
      acceptElement types data limits element used
        { frame with elementCount := frame.elementCount + 1 } outer resolved count

/-- What is missing when a container ends. -/
def frameIncomplete (frame : DerSchemaFrame) : Bool :=
  let type := types frame.type
  match type.kind with
  | .sequence =>
    (type.components.drop frame.nextComponent).any fun component =>
      component.presence = .required
  | .set =>
    type.components.zipIdx.any fun (component, index) =>
      !frame.seen.testBit index && component.presence = .required
  | .setOf => frame.elementCount < type.minElements
  | .sequenceOf => frame.elementCount < type.minElements
  | .universal => false
  | .choice => false
  | .any => false

/-- One iteration of the loop of `read_input`. -/
def schemaStep (s : DerSchemaRun) : DerResult DerSchemaRun :=
  match s.frames with
  | [] => .ok s
  | frame :: outer =>
    if frame.pos = frame.ending then
      if frameIncomplete types frame then derFail .schema frame.ending
      else .ok { s with frames := outer }
    else
      match (types frame.type).kind with
      | .sequence => processSequence types data limits frame outer s
      | .set => processSet types data limits frame outer s
      | .setOf => processSetOf types data limits frame outer s
      | .sequenceOf => processSequenceOf types data limits frame outer s
      | .universal => derFail .schema frame.pos
      | .choice => derFail .schema frame.pos
      | .any => derFail .schema frame.pos

/-- `read_input`. -/
def schemaReadInput (root : Nat) (limits : DerSchemaLimits) : DerResult (ReadElement × Nat) :=
  if limits.base.maxDepth > derMaxDepth then derUnlocated .unsupported
  else if data.length > limits.base.maxInputSize then derUnlocated .limit
  else if data.length = 0 then derFail .schema 0
  else do
    let (element, used, count) ← schemaReadOne data limits.base 0 0 data.length 0
    match resolveAt types { type := root } element.tag with
    | none => derFail .invalidTag 0
    | some resolved => do
        let s ← handleMatchedElement types data limits.base (limits.base.maxDepth + 1) element used
          0 resolved 0 { count := count }
        let _ ← drive (Status.callback, none) (·.frames.isEmpty)
          (schemaStep types data limits.base) (data.length + 1) s
        return (element, used)

/-- `tlv_der_schema_read`: the definition is checked, then the input is read. -/
def derSchemaRead (root : Nat) (limits : DerSchemaLimits) : DerResult (ReadElement × Nat) :=
  match derSchemaCheck types root with
  | .error status => derUnlocated status
  | .ok () => schemaReadInput types data root limits

end Read

end OpenTlv
