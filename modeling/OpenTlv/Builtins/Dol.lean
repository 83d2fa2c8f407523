import OpenTlv.Asn1.Framing
import OpenTlv.Lib.Guarded

/-!
# Data object lists

Reading and construction of data object lists in `dol.c`. The visitor and the resolver are
callbacks over an explicit context. A resolver gets a destination as a place in the output and
answers with the octets that it leaves there; an octet outside the output would be a `fault`. An
object has fewer than `2^63` octets, so the sums of requested lengths do not wrap.
-/

namespace OpenTlv

/-- `tlv_dol_entry_t`. -/
structure DolEntry where
  tag : Bytes
  requestedLength : Nat
  deriving Repr, DecidableEq

/-- `tlv_dol_limits_t`. -/
structure DolLimits where
  maxEntries : Nat
  maxValueLength : Nat
  deriving Repr, DecidableEq

/-- `TLV_DOL_MAX_VALUE_LENGTH`. -/
def dolMaxValueLength : Nat := 255

/-- `tlv_dol_default_limits`, which a null pointer selects. -/
def dolDefaultLimits : DolLimits :=
  ⟨1000, dolMaxValueLength⟩

/-- `tlv_dol_format_t`; `unknown` is any other value of the enumeration's integer type. -/
inductive DolFormat where
  | binary
  | numeric
  | unknown
  deriving Repr, DecidableEq

/-- The arguments of a resolver. The destination is a place and an extent in the output. -/
structure DolQuery where
  entry : DolEntry
  index : Nat
  skip : Nat
  destination : Option (Nat × Nat)
  deriving Repr, DecidableEq

/-- What a resolver reports, with the octets that it stored from the destination on. -/
structure DolAnswer where
  availableLength : Nat := 0
  format : DolFormat := .binary
  absent : Bool := false
  bytes : Bytes := []
  deriving Repr, DecidableEq

/-- `tlv_dol_visit_fn`. -/
abbrev DolVisitor (σ : Type) := DolEntry → Nat → σ → Except Status Unit × σ

/-- `tlv_dol_resolve_fn`. -/
abbrev DolResolver (σ : Type) := DolQuery → σ → Except Status DolAnswer × σ

/-- An operation fails with its code and perhaps the offset of an entry. -/
abbrev DolResult := Except (Stop (Status × Option Nat))

/-- `fail`. -/
def dolFail {α : Type} (status : Status) (offset : Nat) : DolResult α :=
  .error (.code (status, some offset))

/-- `unlocated`. -/
def dolUnlocated {α : Type} (status : Status) : DolResult α :=
  .error (.code (status, none))

/-- `read_entry`, with the failure located as both callers locate it. -/
def readEntry (data : Bytes) (offset : Nat) : DolResult (DolEntry × Nat) :=
  match berReadTag (data.drop offset) with
  | ⟨.error status, _⟩ => dolFail status offset
  | ⟨.ok tag, tagUsed⟩ =>
    if offset + tagUsed = data.length then dolFail .truncated offset
    else do
      let requested ← Guarded.octet data (offset + tagUsed)
      return (⟨tag.bytes, requested.toNat⟩, tagUsed + 1)

section Reading

variable {σ : Type}

/-- The loop of `tlv_dol_read`. -/
def dolReadLoop (data : Bytes) (limits : DolLimits) (visit : DolVisitor σ) :
    Nat → Nat → Nat → σ → DolResult Unit × σ
  | 0, _, _, s => (.error .fault, s)
  | steps + 1, offset, count, s =>
    if offset < data.length then
      if count = limits.maxEntries then (dolFail .limit offset, s)
      else
        match readEntry data offset with
        | .error stop => (.error stop, s)
        | .ok (entry, used) =>
          match visit entry count s with
          | (.error status, s) => (dolFail status offset, s)
          | (.ok (), s) => dolReadLoop data limits visit steps (offset + used) (count + 1) s
    else (.ok (), s)

/-- `tlv_dol_read`. Every round consumes an octet. -/
def dolRead (data : Bytes) (limits : DolLimits) (visit : DolVisitor σ) (s : σ) :
    DolResult Unit × σ :=
  dolReadLoop data limits visit (data.length + 1) 0 0 s

end Reading

section Writing

variable {σ : Type}

/-- `produce_entry`: fill the segment of an entry in the output `data`. -/
def produceEntry (entry : DolEntry) (index : Nat) (resolve : DolResolver σ) (limits : DolLimits)
    (data : Bytes) (segment dolOffset : Nat) (s : σ) : DolResult Bytes × σ :=
  match resolve ⟨entry, index, 0, none⟩ s with
  | (.error status, s) => (dolFail status dolOffset, s)
  | (.ok answer, s) =>
    let available := answer.availableLength
    if answer.absent then
      (Guarded.put data segment (List.replicate entry.requestedLength 0), s)
    else if available > limits.maxValueLength then (dolFail .limit dolOffset, s)
    else if answer.format ≠ .binary ∧ answer.format ≠ .numeric then
      (dolFail .invalidArg dolOffset, s)
    else if available ≤ entry.requestedLength then
      let pad := entry.requestedLength - available
      let leading := if answer.format = .numeric then pad else 0
      let trailing := pad - leading
      match (do
        let data ← Guarded.put data segment (List.replicate leading 0)
        Guarded.put data (segment + leading + available) (List.replicate trailing 0)) with
      | .error stop => (.error stop, s)
      | .ok data =>
        if available ≠ 0 then
          match resolve ⟨entry, index, 0, some (segment + leading, available)⟩ s with
          | (.error status, s) => (dolFail status dolOffset, s)
          | (.ok produced, s) => (Guarded.put data (segment + leading) produced.bytes, s)
        else (.ok data, s)
    else
      let skip :=
        if answer.format = .numeric then available - entry.requestedLength else 0
      match resolve ⟨entry, index, skip, some (segment, entry.requestedLength)⟩ s with
      | (.error status, s) => (dolFail status dolOffset, s)
      | (.ok produced, s) => (Guarded.put data segment produced.bytes, s)

/-- The loop of `tlv_dol_write`. -/
def dolWriteLoop (dol : Bytes) (limits : DolLimits) (resolve : DolResolver σ) :
    Nat → Nat → Nat → Nat → Option Bytes → σ → DolResult (Nat × Option Bytes) × σ
  | 0, _, _, _, _, s => (.error .fault, s)
  | steps + 1, offset, count, total, data, s =>
    if offset < dol.length then
      if count = limits.maxEntries then (dolFail .limit offset, s)
      else
        match readEntry dol offset with
        | .error stop => (.error stop, s)
        | .ok (entry, used) =>
          match data with
          | none =>
            dolWriteLoop dol limits resolve steps (offset + used) (count + 1)
              (total + entry.requestedLength) none s
          | some data =>
            if total + entry.requestedLength > data.length then
              (dolFail .bufferTooShort offset, s)
            else
              match produceEntry entry count resolve limits data total offset s with
              | (.error stop, s) => (.error stop, s)
              | (.ok data, s) =>
                dolWriteLoop dol limits resolve steps (offset + used) (count + 1)
                  (total + entry.requestedLength) (some data) s
    else (.ok (total, data), s)

/-- `tlv_dol_write`, with the written size and the output. A size query has no output and does not
call the resolver. -/
def dolWrite (dol : Bytes) (data : Option Bytes) (limits : DolLimits) (resolve : DolResolver σ)
    (s : σ) : DolResult (Nat × Option Bytes) × σ :=
  if limits.maxValueLength > dolMaxValueLength then (dolUnlocated .limit, s)
  else dolWriteLoop dol limits resolve (dol.length + 1) 0 0 0 data s

end Writing

/-! ## What a list asks for -/

/-- The visitor that lists entries. -/
def listEntry : DolVisitor (List DolEntry) := fun entry _ entries => (.ok (), entries ++ [entry])

/-- How reading a list ends, with the entries that it lists. -/
def dolListed (dol : Bytes) (limits : DolLimits) : DolResult Unit × List DolEntry :=
  dolRead dol limits listEntry []

/-- The segment of an entry: zeros for an absent value, padding or a part for a value of another
length. -/
def dolSegment (requested : Nat) : Option (Bytes × DolFormat) → Bytes
  | none => List.replicate requested 0
  | some (value, .numeric) =>
    if value.length ≤ requested then List.replicate (requested - value.length) 0 ++ value
    else value.drop (value.length - requested)
  | some (value, _) =>
    if value.length ≤ requested then value ++ List.replicate (requested - value.length) 0
    else value.take requested

/-- A segment has the requested length. -/
@[simp] theorem dol_segment_length (requested : Nat) (value : Option (Bytes × DolFormat)) :
    (dolSegment requested value).length = requested := by
  unfold dolSegment
  split
  · exact List.length_replicate ..
  · split
    · rw [List.length_append, List.length_replicate]
      omega
    · rw [List.length_drop]
      omega
  · split
    · rw [List.length_append, List.length_replicate]
      omega
    · rw [List.length_take]
      omega

/-- The values of entries in wire order. -/
abbrev DolValues := DolEntry → Nat → Option (Bytes × DolFormat)

/-- The concatenation of the segments of entries. -/
def dolData (values : DolValues) (entries : List DolEntry) : Bytes :=
  entries.zipIdx.flatMap fun entry => dolSegment entry.1.requestedLength (values entry.1 entry.2)

/-- The size that entries request. -/
def dolSize (entries : List DolEntry) : Nat :=
  (entries.map DolEntry.requestedLength).sum

theorem dol_data_append (values : DolValues) (entries : List DolEntry) (entry : DolEntry) :
    dolData values (entries ++ [entry]) =
      dolData values entries ++
        dolSegment entry.requestedLength (values entry entries.length) := by
  simp [dolData, List.zipIdx_append]

theorem dol_size_append (entries : List DolEntry) (entry : DolEntry) :
    dolSize (entries ++ [entry]) = dolSize entries + entry.requestedLength := by
  simp [dolSize]

/-- The data has the size the list asks for. -/
theorem dol_data_length (values : DolValues) (entries : List DolEntry) :
    (dolData values entries).length = dolSize entries := by
  induction entries using List.reverseRecOn with
  | nil => rfl
  | append_singleton entries entry ih =>
    rw [dol_data_append, dol_size_append, List.length_append, ih, dol_segment_length]

/-- A resolver that answers for every entry by one value: the presence query reports its length
and format or its absence, and a query for octets stores exactly the asked part. -/
structure DolResolver.Consistent {σ : Type} (resolve : DolResolver σ) (values : DolValues) :
    Prop where
  absent : ∀ entry index s answer, values entry index = none →
    (resolve ⟨entry, index, 0, none⟩ s).1 = .ok answer → answer.absent = true
  present : ∀ entry index s answer value format, values entry index = some (value, format) →
    (resolve ⟨entry, index, 0, none⟩ s).1 = .ok answer →
      answer.absent = false ∧ answer.availableLength = value.length ∧ answer.format = format
  produced : ∀ entry index skip start capacity s answer value format,
    values entry index = some (value, format) → skip + capacity ≤ value.length →
      (resolve ⟨entry, index, skip, some (start, capacity)⟩ s).1 = .ok answer →
        answer.bytes = (value.drop skip).take capacity

end OpenTlv
