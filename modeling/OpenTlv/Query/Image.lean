import OpenTlv.Lib.Octets
import OpenTlv.Query.Accepted
import OpenTlv.Query.Exec

/-!
# Plan images

`tlv_query_plan_open` of `plan.c` on the bytes of an image. The words of the header and of the
instructions lie where the native layout puts them, in little-endian order. An image with a word
outside its enumeration is refused, as `query_program_valid` refuses it; an image that is opened
is a plan that both validators accept.
-/

namespace OpenTlv.Query

/-- `QUERY_MAGIC`. -/
def planMagic : Nat := 0x51525932

/-- `QUERY_IMAGE_VERSION`. -/
def planVersion : Nat := 7

/-- `QUERY_NONE`. -/
def planNone : Nat := 2 ^ 32 - 1

/-- `sizeof(tlv_query_program_t)`. -/
def headerSize : Nat := 52

/-- `sizeof(query_node_t)`. -/
def instructionSize : Nat := 116

/-- The 32-bit word at an offset. -/
def imageWord (image : Bytes) (offset : Nat) : Nat :=
  Octets.fold ((image.drop offset).take 4).reverse

/-- A reference to an instruction. -/
def linkOf (word : Nat) : Option Nat :=
  if word = planNone then none else some word

/-- A Boolean word. -/
def flagOf : Nat → Option Bool
  | 0 => some false
  | 1 => some true
  | _ => none

/-- The value category of a word. -/
def Kind.ofCode : Nat → Option Kind
  | 0 => some .node
  | 1 => some .bool
  | 2 => some .number
  | 3 => some .bytes
  | 4 => some .string
  | _ => none

/-- The level of a word. -/
def Level.ofCode : Nat → Option Level
  | 0 => some .s0
  | 1 => some .s1
  | 2 => some .s2
  | 3 => some .d
  | _ => none

/-- The operation of a path guard. -/
def PathKind.ofCode (word : Nat) : PathKind :=
  if word = Op.child.code then .child
  else if word = Op.desc.code then .desc
  else if word = Op.self.code then .self
  else .other word

/-- Instruction `i` of an image. -/
def decodeInstruction (image : Bytes) (i : Nat) : Option Instruction := do
  let word (k : Nat) : Nat := imageWord image (headerSize + i * instructionSize + 4 * k)
  let op ← Op.all[word 0]?
  let axis ← Axis.all[word 5]?
  let scalar ← flagOf (word 7)
  let type ← Kind.ofCode (word 8)
  let grouped ← flagOf (word 13)
  let nested ← flagOf (word 14)
  let negative ← flagOf (word 26)
  let context ← flagOf (word 27)
  return {
    op := op
    left := linkOf (word 1)
    right := linkOf (word 2)
    start := word 3
    stop := word 4
    axis := axis
    anchor := word 6
    scalar := scalar
    type := type
    low := word 9
    predicateGuard := linkOf (word 10)
    pathGuard := linkOf (word 11)
    pathKind := PathKind.ofCode (word 12)
    grouped := grouped
    nested := nested
    variableSlot := word 15
    dataOffset := word 16
    dataSize := word 17
    resolved := word 18
    hookId := word 19
    scratchSize := word 20
    reuse := linkOf (word 21)
    folded := word 22
    selector := word 23
    immediate := word 25 * 2 ^ 32 + word 24
    negative := negative
    context := context
    maskOffset := word 28 }

/-- The header and the extents of an image agree with its size. -/
def imageExtent (image : Bytes) : Bool :=
  let count := imageWord image 8
  let text := imageWord image 16
  let start := headerSize + count * instructionSize
  image.length ≤ planNone && imageWord image 28 = image.length && count ≠ 0 &&
    count ≤ (image.length - headerSize) / instructionSize && imageWord image 20 = start &&
    text < image.length - start && imageWord image 36 = image.length - start - text - 1

/-- The plan of an image with valid extents. -/
def decodePlan (image : Bytes) : Option Program := do
  let start := headerSize + imageWord image 8 * instructionSize
  let text := imageWord image 16
  let instructions ← (List.range (imageWord image 8)).mapM (decodeInstruction image)
  let level ← Level.ofCode (imageWord image 24)
  if image[start + text]? ≠ some 0 then none
  else
    return {
      instructions := instructions
      root := imageWord image 12
      text := (image.drop start).take text
      level := level
      variableCount := imageWord image 32
      payload := image.drop (start + text + 1)
      patternCapacity := imageWord image 40
      codecStride := imageWord image 44
      tagId := imageWord image 48 }

/-- The label `invalid` of `tlv_query_plan_open`. -/
def invalidPlan : Run Program :=
  unlocated .invalidValue .image "valid execution plan"

/-- `tlv_query_plan_open`. -/
def planOpen (image : Bytes) : Run Program :=
  if image.length < headerSize then unlocated .invalidValue .image "complete plan header"
  else if imageWord image 0 ≠ planMagic then invalidPlan
  else if imageWord image 4 ≠ planVersion then
    unlocated .unsupported .imageVersion "compatible native plan version and byte order"
  else if imageExtent image = false then invalidPlan
  else
    match decodePlan image with
    | none => invalidPlan
    | some p => if programValid p && planTypes p then .ok p else invalidPlan

/-- An opened plan has passed both validators. -/
theorem plan_open_accepted {image : Bytes} {p : Program} (h : planOpen image = .ok p) :
    p.Accepted := by
  unfold planOpen at h
  split at h
  · cases h
  split at h
  · cases h
  split at h
  · cases h
  split at h
  · cases h
  split at h
  · cases h
  · split at h
    · rename_i hvalid
      cases h
      rw [Bool.and_eq_true] at hvalid
      exact ⟨hvalid.1, hvalid.2⟩
    · cases h

end OpenTlv.Query
