import OpenTlv.Core.Format

/-!
# The incremental reader

The cursor of `reader.c` over a window of the input. The window begins at the absolute offset
`baseOffset`; `readerSetInput` moves it. `size` is kept besides the octets because the tree reader
narrows a window to the value of an element.
-/

namespace OpenTlv

/-- `tlv_reader_t` without its format. -/
structure Reader where
  data : Bytes
  size : Nat
  pos : Nat := 0
  baseOffset : Nat := 0
  finalInput : Bool := true
  deriving Repr, DecidableEq

/-- `tlv_reader_init`. -/
def readerInit (format : Format) (data : Bytes) : Except Status Reader :=
  if format.decode.isNone then .error .nullArg
  else .ok { data := data, size := data.length }

/-- `tlv_reader_init_incremental`. -/
def readerInitIncremental (format : Format) (data : Bytes) : Except Status Reader :=
  (readerInit format data).map fun reader => { reader with finalInput := false }

/-- `reader_valid`. -/
def readerValid (format : Format) (reader : Reader) : Except Status Unit :=
  if format.decode.isNone then .error .nullArg
  else if reader.pos > reader.size then .error .invalidArg
  else if reader.size > sizeMax - reader.baseOffset then .error .overflow
  else .ok ()

/-- `tlv_reader_set_input`. -/
def readerSetInput (format : Format) (reader : Reader) (data : Bytes) (discard : Nat)
    (finalInput : Bool) : Except Status Reader :=
  match readerValid format reader with
  | .error status => .error status
  | .ok () =>
    if discard > reader.pos then .error .invalidArg
    else if data.length < reader.size - discard then .error .invalidArg
    else if reader.finalInput = true ∧
        (finalInput = false ∨ data.length ≠ reader.size - discard) then
      .error .invalidState
    else if data.length > sizeMax - (reader.baseOffset + discard) then .error .overflow
    else
      .ok { data := data
            size := data.length
            pos := reader.pos - discard
            baseOffset := reader.baseOffset + discard
            finalInput := finalInput }

/-- `tlv_reader_offset`. -/
def Reader.offset (reader : Reader) : Nat :=
  reader.baseOffset + reader.pos

/-- The octets that the reader has not passed. -/
def Reader.rest (reader : Reader) : Bytes :=
  (reader.data.take reader.size).drop reader.pos

/-- `reader_next`: a truncated element in a window that is not final asks for more data. -/
def readerNext (format : Format) (reader : Reader) : Except Status (Decoded × Reader) :=
  match readerValid format reader with
  | .error status => .error status
  | .ok () =>
    if reader.pos = reader.size then
      .error (if reader.finalInput then .atEnd else .needMoreData)
    else
      match formatDecode format reader.rest with
      | .ok decoded => .ok (decoded, { reader with pos := reader.pos + decoded.source.size })
      | .error (status, _) =>
        .error (if status = .truncated ∧ reader.finalInput = false then .needMoreData
          else status)

end OpenTlv
