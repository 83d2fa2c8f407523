import OpenTlv.Lib.Octets

/-!
# Result codes, sizes and byte order

The non-success codes of `tlv_result_t`, the screening of callback results from
`callback_internal.h`, the checked 64-bit sizes of `size.c` and the fixed-width integers of
`endian.c`. Every operation that can fail returns `Except Status`; `TLV_OK` is `Except.ok`.
The build is one with a 64-bit `size_t`, so `SIZE_MAX` and `TLV_SIZE_MAX` coincide.
-/

namespace OpenTlv

/-- The codes of `tlv_result_t` other than `TLV_OK`. -/
inductive Status where
  | atEnd
  | needMoreData
  | truncated
  | invalidTag
  | invalidTagSize
  | invalidLength
  | invalidValue
  | syntaxError
  | schema
  | nullArg
  | invalidArg
  | invalidState
  | invalidSchema
  | bufferTooShort
  | limit
  | overflow
  | nativeSize
  | outOfMemory
  | unsupported
  | visitor
  | callback
  deriving Repr, DecidableEq

/-- `tlv_visit_result_t`; `unknown` is any other value of the enumeration's integer type. -/
inductive VisitResult where
  | resume
  | stop
  | error
  | unknown
  deriving Repr, DecidableEq

/-- `tlv_callback_result` with `allow_end = 0`: a control status from a callback is a defect of
the callback. -/
def callbackStatus : Status → Status
  | .atEnd => .callback
  | .needMoreData => .callback
  | status => status

/-- `tlv_callback_result` applied to a whole result. -/
def callbackResult {α : Type} : Except Status α → Except Status α
  | .ok value => .ok value
  | .error status => .error (callbackStatus status)

/-- `read_result`: reading has no destination, so a capacity error is a callback defect too. -/
def readResult {α : Type} (result : Except Status α) : Except Status α :=
  match callbackResult result with
  | .error .bufferTooShort => .error .callback
  | screened => screened

@[simp] theorem callback_result_ok {α : Type} (value : α) :
    callbackResult (.ok value : Except Status α) = .ok value := rfl

@[simp] theorem read_result_ok {α : Type} (value : α) :
    readResult (.ok value : Except Status α) = .ok value := rfl

theorem callback_result_eq_ok {α : Type} {result : Except Status α} {value : α}
    (h : callbackResult result = .ok value) : result = .ok value := by
  cases result with
  | ok other => exact h
  | error status => simp [callbackResult] at h

/-- `SIZE_MAX` and `TLV_SIZE_MAX`. -/
def sizeMax : Nat := 2 ^ 64 - 1

/-- `tlv_size_add`. -/
def sizeAdd (a b : Nat) : Except Status Nat :=
  if b > sizeMax - a then .error .overflow else .ok (a + b)

/-- `tlv_size_to_native`. -/
def sizeToNative (size : Nat) : Except Status Nat :=
  if size > sizeMax then .error .nativeSize else .ok size

theorem size_add_eq_ok {a b sum : Nat} (h : sizeAdd a b = .ok sum) :
    sum = a + b ∧ b ≤ sizeMax - a := by
  unfold sizeAdd at h
  split at h
  · cases h
  next hle => exact ⟨(Except.ok.inj h).symm, by omega⟩

theorem size_to_native_eq_ok {size native : Nat} (h : sizeToNative size = .ok native) :
    native = size := by
  unfold sizeToNative at h
  split at h
  · cases h
  · exact (Except.ok.inj h).symm

/-- `tlv_byte_order_t`. -/
inductive ByteOrder where
  | unknown
  | bigEndian
  | littleEndian
  deriving Repr, DecidableEq

/-- The octets of a wire integer, most significant first. -/
def ByteOrder.significant (order : ByteOrder) (bytes : Bytes) : Bytes :=
  if order = .bigEndian then bytes else bytes.reverse

/-- `tlv_read_uint`: fold the first `width` octets, at most eight of them, most significant
first. -/
def readUint (data : Bytes) (width : Nat) (order : ByteOrder) : Except Status Nat :=
  if width = 0 ∨ width > 8 then .error .invalidLength
  else if order = .unknown then .error .invalidArg
  else .ok (Octets.fold (order.significant (data.take width)))

/-- `tlv_write_uint`: the octets stored at the destination. -/
def writeUint (width : Nat) (order : ByteOrder) (value : Nat) : Except Status Bytes :=
  if width = 0 ∨ width > 8 then .error .invalidLength
  else if order = .unknown then .error .invalidArg
  else if width < 8 ∧ value >>> (width * 8) ≠ 0 then .error .overflow
  else .ok (order.significant (Octets.digits width value).reverse)

@[simp] theorem significant_length (order : ByteOrder) (bytes : Bytes) :
    (order.significant bytes).length = bytes.length := by
  unfold ByteOrder.significant
  split <;> simp

/-- Reordering twice is the identity. -/
@[simp] theorem significant_significant (order : ByteOrder) (bytes : Bytes) :
    order.significant (order.significant bytes) = bytes := by
  unfold ByteOrder.significant
  split <;> simp

/-- What a successful write of a number stored. -/
theorem write_uint_eq_ok {width value : Nat} {order : ByteOrder} {bytes : Bytes}
    (h : writeUint width order value = .ok bytes) :
    1 ≤ width ∧ width ≤ 8 ∧ order ≠ .unknown ∧
      bytes = order.significant (Octets.digits width value).reverse := by
  unfold writeUint at h
  split at h
  · cases h
  next hwidth =>
    split at h
    · cases h
    next horder =>
      split at h
      · cases h
      · exact ⟨by omega, by omega, horder, (Except.ok.inj h).symm⟩

/-- Reading back what `tlv_write_uint` stored gives the value, in front of any octets. -/
theorem read_uint_write_uint {width value : Nat} {order : ByteOrder} {bytes : Bytes}
    (h : writeUint width order value = .ok bytes) (hvalue : value < 256 ^ width)
    (rest : Bytes) : readUint (bytes ++ rest) width order = .ok value := by
  obtain ⟨hlow, hhigh, horder, rfl⟩ := write_uint_eq_ok h
  have htake : (order.significant (Octets.digits width value).reverse ++ rest).take width =
      order.significant (Octets.digits width value).reverse := by
    rw [List.take_left' (by simp)]
  have hwidth : ¬ (width = 0 ∨ width > 8) := by omega
  rw [readUint, if_neg hwidth, if_neg horder, htake, significant_significant,
    Octets.fold_reverse_digits_of_lt hvalue]

/-! ## Steps that may fail -/

/-- A check that was passed. -/
theorem guard_ok {ε α : Type} {check : Prop} [Decidable check] {failed : ε} {run : Except ε α}
    {value : α} :
    (if check then .error failed else run) = .ok value ↔ ¬ check ∧ run = .ok value := by
  split <;> simp_all

/-- Two steps that succeeded. -/
theorem bind_ok {ε α β : Type} {run : Except ε α} {next : α → Except ε β} {value : β} :
    (run >>= next) = .ok value ↔ ∃ a, run = .ok a ∧ next a = .ok value := by
  cases run with
  | error failed => simp [bind, Except.bind]
  | ok a => simp [bind, Except.bind]

end OpenTlv
