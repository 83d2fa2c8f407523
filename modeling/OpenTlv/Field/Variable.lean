import OpenTlv.Lib.BitField
import OpenTlv.Field.Fixed

/-!
# Variable-width fields

The identifier with continuation octets and the short or long count of `field/variable.c`.
The masks of a configuration are arbitrary, so the prefix fields go through `BitField`.
`variable_identifier_law` and `variable_length_law` hold for every configuration that the
validators of `variable_internal.h` accept, with or without a policy.
-/

namespace OpenTlv

/-- `tlv_identifier_policy_t`. -/
structure IdentifierPolicy where
  forbiddenLeading : List UInt8
  rejectZeroFirstPayload : Nat
  requireMinimal : Nat
  deriving Repr, DecidableEq

/-- `tlv_length_policy_t`. -/
structure LengthPolicy where
  allowShort : Nat
  allowLong : Nat
  requireMinimal : Nat
  maxLongOctets : Nat
  maxValue : Nat
  deriving Repr, DecidableEq

/-- `tlv_variable_identifier_t`. -/
structure VariableIdentifier where
  inlineMask : UInt8
  escape : UInt8
  continuationBit : UInt8
  payloadMask : UInt8
  maxSize : Nat
  policy : Option IdentifierPolicy
  deriving Repr, DecidableEq

/-- `tlv_variable_length_t`. -/
structure VariableLength where
  longFormBit : UInt8
  payloadMask : UInt8
  byteOrder : ByteOrder
  policy : Option LengthPolicy
  deriving Repr, DecidableEq

/-- `single_bit`. -/
def singleBit (bit : UInt8) : Bool :=
  bit != 0 && (bit &&& (bit - 1)) == 0

/-- `identifier_validate`. -/
def identifierValidate (config : VariableIdentifier) : Except Status Unit :=
  if config.inlineMask = 0 ∨ config.escape &&& ~~~config.inlineMask ≠ 0 ∨
      singleBit config.continuationBit = false ∨ config.payloadMask = 0 ∨
      config.continuationBit &&& config.payloadMask ≠ 0 ∨ config.maxSize = 0 then
    .error .invalidArg
  else
    match config.policy with
    | none => .ok ()
    | some policy =>
      if policy.rejectZeroFirstPayload > 1 ∨ policy.requireMinimal > 1 then
        .error .invalidArg
      else .ok ()

/-- `length_validate`. -/
def lengthValidate (config : VariableLength) : Except Status Unit :=
  if singleBit config.longFormBit = false ∨ config.payloadMask = 0 ∨
      config.longFormBit &&& config.payloadMask ≠ 0 then
    .error .invalidArg
  else if config.byteOrder ≠ .bigEndian ∧ config.byteOrder ≠ .littleEndian then
    .error .invalidArg
  else
    match config.policy with
    | none => .ok ()
    | some policy =>
      if policy.allowShort > 1 ∨ policy.allowLong > 1 ∨ policy.requireMinimal > 1 ∨
          (policy.allowShort = 0 ∧ policy.allowLong = 0) ∨
          (policy.allowLong ≠ 0 ∧ policy.maxLongOctets = 0) then
        .error .invalidArg
      else .ok ()

/-- `identifier_prefix`: the policy checks on the leading octets. -/
def identifierPrefix (config : VariableIdentifier) (data : Bytes) : Except Status Unit :=
  match config.policy, data with
  | none, _ => .ok ()
  | some _, [] => .ok ()
  | some policy, first :: rest =>
    if first ∈ policy.forbiddenLeading then .error .invalidTag
    else
      match rest with
      | [] => .ok ()
      | second :: _ =>
        if policy.rejectZeroFirstPayload ≠ 0 ∧
            first &&& config.inlineMask = config.escape ∧
            second &&& config.payloadMask = 0 then
          .error .invalidTag
        else .ok ()

/-- The loop of `identifier_minimal`: it saturates beyond the inline domain. -/
def minimalLoop (radix maximum : Nat) (mask : UInt8) : Bytes → Nat → Nat
  | [], value => value
  | octet :: rest, value =>
    if value ≤ maximum then
      minimalLoop radix maximum mask rest (value * radix + BitField.unpack octet mask)
    else value

/-- `identifier_minimal` on the `count` octets of an identifier. -/
def identifierMinimal (config : VariableIdentifier) (data : Bytes) (count : Nat) : Bool :=
  match config.policy with
  | none => true
  | some policy =>
    if policy.requireMinimal = 0 ∨ count = 1 then true
    else
      let payload := (data.take count).drop 1
      let radix := BitField.maximum config.payloadMask + 1
      let maximum := BitField.maximum config.inlineMask
      if count > 2 ∧ payload.headD 0 &&& config.payloadMask = 0 then false
      else
        let value := minimalLoop radix maximum config.payloadMask payload 0
        value > maximum || value == BitField.unpack config.escape config.inlineMask

/-- The continuation loop of `tlv_variable_identifier_read`: `count` octets precede `data`. -/
def identifierContinuation (config : VariableIdentifier) : Bytes → Nat → FieldRead Nat
  | data, count =>
    if count = config.maxSize then ⟨.error .invalidTagSize, 0⟩
    else
      match data with
      | [] => ⟨.error .truncated, count⟩
      | octet :: rest =>
        if octet &&& ~~~(config.continuationBit ||| config.payloadMask) ≠ 0 then
          ⟨.error .invalidTag, 0⟩
        else if octet &&& config.continuationBit = 0 then ⟨.ok (count + 1), count + 1⟩
        else identifierContinuation config rest (count + 1)

/-- The extent of the identifier at the start of nonempty input. -/
def identifierExtent (config : VariableIdentifier) (first : UInt8) (rest : Bytes) :
    FieldRead Nat :=
  if first &&& config.inlineMask = config.escape then identifierContinuation config rest 1
  else ⟨.ok 1, 1⟩

/-- `tlv_variable_identifier_read`. -/
def variableIdentifierRead (config : VariableIdentifier) : ReadTag := fun data =>
  match identifierValidate config with
  | .error status => ⟨.error status, 0⟩
  | .ok () =>
    match identifierPrefix config data with
    | .error status => ⟨.error status, 0⟩
    | .ok () =>
      match data with
      | [] => ⟨.error .truncated, 0⟩
      | first :: rest =>
        match identifierExtent config first rest with
        | ⟨.error status, consumed⟩ => ⟨.error status, consumed⟩
        | ⟨.ok count, _⟩ =>
          if identifierMinimal config (first :: rest) count = false then
            ⟨.error .invalidTag, 0⟩
          else ⟨.ok ⟨(first :: rest).take count, some 0⟩, count⟩

/-- `tlv_variable_identifier_write`: a tag is written only when the reader accepts it whole. -/
def variableIdentifierWrite (config : VariableIdentifier) : WriteTag := fun tag capacity =>
  match identifierValidate config with
  | .error status => .error status
  | .ok () =>
    if tag.length = 0 ∨ tag.length > config.maxSize then .error .invalidTagSize
    else
      match variableIdentifierRead config tag with
      | ⟨.error .invalidTagSize, _⟩ => .error .invalidTagSize
      | ⟨.error _, _⟩ => .error .invalidTag
      | ⟨.ok _, count⟩ =>
        if count ≠ tag.length then .error .invalidTag else storeField tag capacity

/-- The fold of `tlv_variable_length_read`, most significant octet first, which stops before
a step that would overflow. -/
def foldChecked : Bytes → Nat → Option Nat
  | [], value => some value
  | octet :: rest, value =>
    if value > sizeMax >>> 8 then none
    else foldChecked rest ((value <<< 8) ||| octet.toNat)

/-- The policy checks of the long form, on the count octets most significant first. -/
def longFormAllowed (config : VariableLength) (octets : Bytes) (value : Nat) : Bool :=
  match config.policy with
  | none => true
  | some policy =>
    !(value > policy.maxValue ||
      (policy.requireMinimal != 0 &&
        ((policy.allowShort != 0 && value ≤ BitField.maximum config.payloadMask) ||
          (octets.length > 1 && octets.headD 0 == 0))))

/-- `tlv_variable_length_read`. -/
def variableLengthRead (config : VariableLength) : ReadLength := fun data =>
  match lengthValidate config with
  | .error status => ⟨.error status, 0⟩
  | .ok () =>
    match data with
    | [] => ⟨.error .truncated, 0⟩
    | first :: rest =>
      if first &&& ~~~(config.longFormBit ||| config.payloadMask) ≠ 0 then
        ⟨.error .invalidLength, 1⟩
      else
        let count := BitField.unpack first config.payloadMask
        if first &&& config.longFormBit = 0 then
          if config.policy.any (fun policy => policy.allowShort = 0 || count > policy.maxValue)
          then ⟨.error .invalidLength, 1⟩
          else ⟨.ok count, 1⟩
        else if count = 0 then ⟨.error .invalidLength, 1⟩
        else if config.policy.any
            (fun policy => policy.allowLong = 0 || count > policy.maxLongOctets) then
          ⟨.error .invalidLength, 1⟩
        else if count ≥ data.length then ⟨.error .truncated, data.length⟩
        else
          let octets := config.byteOrder.significant (rest.take count)
          match foldChecked octets 0 with
          | none =>
            ⟨.error (if config.policy.isSome then .invalidLength else .overflow), count + 1⟩
          | some value =>
            if longFormAllowed config octets value then ⟨.ok value, count + 1⟩
            else ⟨.error .invalidLength, count + 1⟩

/-- The counting loop of `tlv_variable_length_write`. -/
def octetCount (remaining : Nat) : Nat :=
  if remaining >>> 8 = 0 then 1 else octetCount (remaining >>> 8) + 1
  termination_by remaining
  decreasing_by simp only [Nat.shiftRight_eq_div_pow] at *; omega

/-- The long-form width chosen by `tlv_variable_length_write`; zero stands for the short
form. -/
def longFormCount (config : VariableLength) (length : Nat) : Except Status Nat :=
  if length > BitField.maximum config.payloadMask ∨
      config.policy.any (fun policy => policy.allowShort = 0) then
    if octetCount length > BitField.maximum config.payloadMask then .error .invalidLength
    else if config.policy.any
        (fun policy => policy.allowLong = 0 || octetCount length > policy.maxLongOctets) then
      .error .invalidLength
    else .ok (octetCount length)
  else .ok 0

/-- `tlv_variable_length_write`. The validated width and order make the inner
`tlv_write_uint` succeed, and the source ignores its result. -/
def variableLengthWrite (config : VariableLength) : WriteLength := fun length capacity =>
  match lengthValidate config with
  | .error status => .error status
  | .ok () =>
    if config.policy.any (fun policy => length > policy.maxValue) then .error .invalidLength
    else
      match longFormCount config length with
      | .error status => .error status
      | .ok count =>
        match capacity with
        | none => .ok ([], count + 1)
        | some room =>
          if room < count + 1 then .error .bufferTooShort
          else if count = 0 then
            .ok ([BitField.pack length config.payloadMask], 1)
          else
            match writeUint count config.byteOrder length with
            | .error status => .error status
            | .ok octets =>
              .ok ((config.longFormBit ||| BitField.pack count config.payloadMask) ::
                octets, count + 1)

section Identifier

variable {config : VariableIdentifier}

/-- A continuation that ends inside the data is not changed by what follows. -/
theorem identifier_continuation_append {data : Bytes} {count last consumed : Nat}
    (h : identifierContinuation config data count = ⟨.ok last, consumed⟩) (rest : Bytes) :
    identifierContinuation config (data ++ rest) count = ⟨.ok last, consumed⟩ := by
  induction data generalizing count with
  | nil =>
    unfold identifierContinuation at h
    split at h <;> simp at h
  | cons octet data ih =>
    unfold identifierContinuation at h ⊢
    simp only [List.cons_append] at h ⊢
    split at h
    · simp at h
    next hmax =>
      rw [if_neg hmax]
      split at h
      · simp at h
      next hbits =>
        rw [if_neg hbits]
        split at h
        next hlast => rw [if_pos hlast]; exact h
        next hlast => rw [if_neg hlast]; exact ih h

/-- The extent of an identifier that is complete does not depend on what follows. -/
theorem identifier_extent_append {first : UInt8} {data : Bytes} {count consumed : Nat}
    (h : identifierExtent config first data = ⟨.ok count, consumed⟩) (rest : Bytes) :
    identifierExtent config first (data ++ rest) = ⟨.ok count, consumed⟩ := by
  unfold identifierExtent at h ⊢
  split at h
  next hescape =>
    rw [if_pos hescape]
    exact identifier_continuation_append h rest
  next hescape =>
    rw [if_neg hescape]
    exact h

/-- An escaped identifier has at least one continuation octet. -/
theorem identifier_extent_nil {first : UInt8} {count consumed : Nat}
    (h : identifierExtent config first [] = ⟨.ok count, consumed⟩) :
    first &&& config.inlineMask ≠ config.escape := by
  intro hescape
  unfold identifierExtent at h
  rw [if_pos hescape] at h
  unfold identifierContinuation at h
  split at h <;> simp at h

/-- The prefix policy accepts a complete identifier also in front of other octets. -/
theorem identifier_prefix_append {first : UInt8} {data : Bytes} {count consumed : Nat}
    (hextent : identifierExtent config first data = ⟨.ok count, consumed⟩)
    (h : identifierPrefix config (first :: data) = .ok ()) (rest : Bytes) :
    identifierPrefix config (first :: data ++ rest) = .ok () := by
  cases hpolicy : config.policy with
  | none => simp [identifierPrefix, hpolicy]
  | some policy =>
    simp only [identifierPrefix, hpolicy, List.cons_append] at h ⊢
    obtain ⟨hfirst, h⟩ := guard_ok.mp h
    rw [if_neg hfirst]
    cases data with
    | cons second data => exact h
    | nil =>
      -- a one-octet identifier is not an escape, so the second check does not apply
      have hinline := identifier_extent_nil hextent
      cases rest with
      | nil => rfl
      | cons second rest => simp [hinline]

/-- Minimality looks only at the octets of the identifier. -/
theorem identifier_minimal_append (data rest : Bytes) :
    identifierMinimal config (data ++ rest) data.length =
      identifierMinimal config data data.length := by
  simp [identifierMinimal]

/-- An identifier that is read whole is read from any longer input. -/
theorem variable_identifier_read_append {tag : Bytes} {span : Span}
    (h : variableIdentifierRead config tag = ⟨.ok span, tag.length⟩) (rest : Bytes) :
    variableIdentifierRead config (tag ++ rest) = ⟨.ok ⟨tag, some 0⟩, tag.length⟩ := by
  unfold variableIdentifierRead at h ⊢
  cases hvalidate : identifierValidate config with
  | error status => simp [hvalidate] at h
  | ok accepted =>
    cases hleading : identifierPrefix config tag with
    | error status => simp [hvalidate, hleading] at h
    | ok accepted =>
      cases tag with
      | nil => simp [hvalidate, hleading] at h
      | cons first data =>
        simp only [hvalidate, hleading] at h
        split at h
        · simp at h
        next count consumed hextent =>
          split at h
          · simp at h
          next hminimal =>
            have hcount : count = (first :: data).length := by
              simpa using congrArg FieldRead.consumed h
            subst hcount
            have hmore := identifier_prefix_append hextent hleading rest
            have hsame := @identifier_minimal_append config (first :: data) rest
            simp only [List.cons_append] at hmore hsame ⊢
            simp only [hmore, identifier_extent_append hextent rest, hsame, hminimal]
            simp

/-- A continuation looks at no octet behind its last one. -/
theorem identifier_continuation_take {data : Bytes} {count last consumed : Nat}
    (h : identifierContinuation config data count = ⟨.ok last, consumed⟩) :
    count < last ∧
      identifierContinuation config (data.take (last - count)) count = ⟨.ok last, consumed⟩ := by
  induction data generalizing count with
  | nil =>
    unfold identifierContinuation at h
    split at h <;> simp at h
  | cons octet data ih =>
    unfold identifierContinuation at h
    dsimp only at h
    split at h
    · simp at h
    next hmax =>
      split at h
      · simp at h
      next hbits =>
        split at h
        next hlast =>
          cases h
          refine ⟨Nat.lt_succ_self _, ?_⟩
          rw [Nat.add_sub_cancel_left, List.take_succ_cons]
          unfold identifierContinuation
          rw [if_neg hmax]
          dsimp only
          rw [if_neg hbits, if_pos hlast]
        next hlast =>
          obtain ⟨hless, htake⟩ := ih h
          refine ⟨by omega, ?_⟩
          rw [show last - count = last - (count + 1) + 1 by omega, List.take_succ_cons]
          unfold identifierContinuation
          rw [if_neg hmax]
          dsimp only
          rw [if_neg hbits, if_neg hlast]
          exact htake

/-- The extent is decided before its last octet. -/
theorem identifier_extent_take {first : UInt8} {data : Bytes} {count consumed : Nat}
    (h : identifierExtent config first data = ⟨.ok count, consumed⟩) :
    0 < count ∧ identifierExtent config first (data.take (count - 1)) = ⟨.ok count, consumed⟩ := by
  unfold identifierExtent at h ⊢
  split at h
  next hescape =>
    rw [if_pos hescape]
    obtain ⟨hless, htake⟩ := identifier_continuation_take h
    exact ⟨by omega, htake⟩
  next hescape =>
    rw [if_neg hescape]
    cases h
    exact ⟨Nat.one_pos, rfl⟩

/-- The policy on leading octets accepts a shorter input as well. -/
theorem identifier_prefix_take {first : UInt8} {data : Bytes}
    (h : identifierPrefix config (first :: data) = .ok ()) (count : Nat) :
    identifierPrefix config (first :: data.take count) = .ok () := by
  cases hpolicy : config.policy with
  | none => simp [identifierPrefix, hpolicy]
  | some policy =>
    simp only [identifierPrefix, hpolicy] at h ⊢
    obtain ⟨hfirst, h⟩ := guard_ok.mp h
    rw [if_neg hfirst]
    cases data with
    | nil => simp
    | cons second data =>
      cases count with
      | zero => rfl
      | succ count => exact h

/-- An identifier is read from its own octets as it is from the whole input. -/
theorem variable_identifier_read_take {data : Bytes} {span : Span} {count : Nat}
    (h : variableIdentifierRead config data = ⟨.ok span, count⟩) :
    variableIdentifierRead config (data.take count) = ⟨.ok span, count⟩ := by
  unfold variableIdentifierRead at h ⊢
  cases hvalidate : identifierValidate config with
  | error status => simp [hvalidate] at h
  | ok accepted =>
    cases hleading : identifierPrefix config data with
    | error status => simp [hvalidate, hleading] at h
    | ok accepted =>
      cases data with
      | nil => simp [hvalidate, hleading] at h
      | cons first data =>
        simp only [hvalidate, hleading] at h
        split at h
        · simp at h
        next extent consumed hextent =>
          split at h
          · simp at h
          next hminimal =>
            cases h
            obtain ⟨hpositive, htake⟩ := identifier_extent_take hextent
            obtain ⟨last, rfl⟩ : ∃ k, count = k + 1 := ⟨count - 1, by omega⟩
            rw [Nat.add_sub_cancel] at htake
            have hsame : identifierMinimal config (first :: data.take last) (last + 1) =
                identifierMinimal config (first :: data) (last + 1) := by
              simp [identifierMinimal, List.take_take]
            simp only [List.take_succ_cons, identifier_prefix_take hleading, htake, hsame,
              hminimal]
            simp [List.take_take]

/-- A validated variable identifier obeys the identifier law. -/
theorem variable_identifier_law (h : identifierValidate config = .ok ()) :
    TagLaw (variableIdentifierRead config) (variableIdentifierWrite config) := by
  intro tag stored width hwrite
  simp only [variableIdentifierWrite, h] at hwrite
  split at hwrite
  · cases hwrite
  next hsize =>
    split at hwrite
    · cases hwrite
    · cases hwrite
    next span count hread =>
      split at hwrite
      · cases hwrite
      next hcount =>
        simp only [ne_eq, not_not] at hcount
        subst hcount
        simp only [storeField] at hwrite
        cases hwrite
        refine ⟨?_, rfl, ?_, ?_⟩
        · rintro rfl
          exact hsize (.inl rfl)
        · intro room hroom
          simp only [variableIdentifierWrite, h, if_neg hsize, hread]
          simp [storeField, Nat.not_lt.mpr hroom]
        · intro rest
          exact variable_identifier_read_append hread rest

end Identifier

section Length

variable {config : VariableLength}

/-- The octet count is at least one and bounds the length. -/
theorem octet_count_spec (length : Nat) :
    1 ≤ octetCount length ∧ length < 256 ^ octetCount length ∧
      (1 < octetCount length → 256 ^ (octetCount length - 1) ≤ length) := by
  induction length using octetCount.induct with
  | case1 length hzero =>
    rw [Nat.shiftRight_eq_div_pow] at hzero
    unfold octetCount
    rw [if_pos (by rw [Nat.shiftRight_eq_div_pow]; exact hzero)]
    refine ⟨Nat.le_refl 1, by omega, by omega⟩
  | case2 length hmore ih =>
    obtain ⟨hlow, hhigh, hleast⟩ := ih
    unfold octetCount
    rw [if_neg hmore]
    rw [Nat.shiftRight_eq_div_pow] at hmore hlow hhigh hleast ⊢
    set count := octetCount (length / 2 ^ 8) with hcount
    refine ⟨by omega, ?_, ?_⟩
    · rw [Nat.pow_succ]
      exact Nat.lt_mul_of_div_lt hhigh (by norm_num)
    · intro hlong
      rw [Nat.add_sub_cancel]
      have hpred : 256 ^ (count - 1) ≤ length / 2 ^ 8 := by
        rcases Nat.lt_or_ge 1 count with hmany | hone
        · exact hleast hmany
        · have : count = 1 := by omega
          simp only [this, Nat.sub_self, Nat.pow_zero]
          omega
      have hmul := (Nat.le_div_iff_mul_le (by norm_num)).mp hpred
      have hpow : 256 ^ count = 256 ^ (count - 1) * 2 ^ 8 := by
        rw [show (2 : Nat) ^ 8 = 256 by norm_num, ← Nat.pow_succ]
        congr 1
        omega
      omega

/-- A 64-bit length has at most eight octets. -/
theorem octet_count_le {length : Nat} (h : length ≤ sizeMax) : octetCount length ≤ 8 := by
  obtain ⟨-, -, hleast⟩ := octet_count_spec length
  by_contra hcontra
  have hpow : 256 ^ 8 ≤ 256 ^ (octetCount length - 1) :=
    Nat.pow_le_pow_right (by norm_num) (by omega)
  have := hleast (by omega)
  have hmax : sizeMax < 256 ^ 8 := by norm_num [sizeMax]
  omega

/-- At most eight octets never overflow the checked fold. -/
theorem fold_checked_eq (bytes : Bytes) (value weight : Nat) (hvalue : value < 256 ^ weight)
    (h : weight + bytes.length ≤ 8) :
    foldChecked bytes value =
      some (bytes.foldl (fun acc octet => (acc <<< 8) ||| octet.toNat) value) := by
  induction bytes generalizing value weight with
  | nil => rfl
  | cons octet bytes ih =>
    have hlength : weight + bytes.length + 1 ≤ 8 := by simpa [Nat.add_assoc] using h
    have hpow : 256 ^ weight ≤ 256 ^ 7 := Nat.pow_le_pow_right (by norm_num) (by omega)
    have hmax : sizeMax >>> 8 = 256 ^ 7 - 1 := by norm_num [sizeMax, Nat.shiftRight_eq_div_pow]
    have hroom : ¬ value > sizeMax >>> 8 := by omega
    have hnext : (value <<< 8) ||| octet.toNat < 256 ^ (weight + 1) := by
      have hoctet := octet.toNat_lt
      rw [Octets.shift_or_octet, Nat.pow_succ]
      omega
    rw [foldChecked, if_neg hroom, List.foldl_cons]
    exact ih _ (weight + 1) hnext (by omega)

/-- The validator makes the two prefix fields disjoint. -/
theorem length_validate_eq_ok (h : lengthValidate config = .ok ()) :
    config.longFormBit ≠ 0 ∧ config.longFormBit &&& config.payloadMask = 0 ∧
      config.byteOrder ≠ .unknown := by
  unfold lengthValidate at h
  obtain ⟨hmasks, h⟩ := guard_ok.mp h
  obtain ⟨horder, h⟩ := guard_ok.mp h
  simp only [not_or] at hmasks
  obtain ⟨hbit, -, hdisjoint⟩ := hmasks
  refine ⟨?_, by simpa using hdisjoint, ?_⟩
  · intro hzero
    simp [hzero, singleBit] at hbit
  · intro hunknown
    exact horder (by simp [hunknown])

/-- A prefix octet of the short form: no stray bits, no long form, and the value. -/
theorem short_octet (hdisjoint : config.longFormBit &&& config.payloadMask = 0) {value : Nat}
    (hvalue : value ≤ BitField.maximum config.payloadMask) :
    BitField.pack value config.payloadMask &&&
        ~~~(config.longFormBit ||| config.payloadMask) = 0 ∧
      BitField.pack value config.payloadMask &&& config.longFormBit = 0 ∧
      BitField.unpack (BitField.pack value config.payloadMask) config.payloadMask = value := by
  have hwithin : ∀ position,
      (BitField.pack value config.payloadMask).toNat.testBit position = true →
        config.payloadMask.toNat.testBit position = true := by
    intro position hset
    by_contra hmask
    have hclear := BitField.pack_test_bit_of_not_mask value config.payloadMask position
      (by simpa using hmask)
    simp [hclear] at hset
  refine ⟨?_, ?_, BitField.unpack_pack hvalue fun _ _ _ => rfl⟩
  · apply BitField.and_complement_eq_zero
    intro position _ hset
    simp [hwithin position hset]
  · apply BitField.eq_zero_of_test_bit
    intro position _
    rw [UInt8.toNat_and, Nat.testBit_and]
    cases hlong : config.longFormBit.toNat.testBit position with
    | false => simp
    | true =>
      have hpayload := BitField.test_bit_of_disjoint hdisjoint hlong
      simp [BitField.pack_test_bit_of_not_mask value _ position hpayload]

/-- A prefix octet of the long form: no stray bits, the long form, and the octet count. -/
theorem long_octet (hbit : config.longFormBit ≠ 0)
    (hdisjoint : config.longFormBit &&& config.payloadMask = 0) {value : Nat}
    (hvalue : value ≤ BitField.maximum config.payloadMask) :
    (config.longFormBit ||| BitField.pack value config.payloadMask) &&&
        ~~~(config.longFormBit ||| config.payloadMask) = 0 ∧
      (config.longFormBit ||| BitField.pack value config.payloadMask) &&&
        config.longFormBit ≠ 0 ∧
      BitField.unpack (config.longFormBit ||| BitField.pack value config.payloadMask)
        config.payloadMask = value := by
  refine ⟨?_, ?_, ?_⟩
  · apply BitField.and_complement_eq_zero
    intro position _ hset
    rw [UInt8.toNat_or, Nat.testBit_or] at hset ⊢
    cases hlong : config.longFormBit.toNat.testBit position with
    | true => simp
    | false =>
      by_contra hmask
      have hclear := BitField.pack_test_bit_of_not_mask value config.payloadMask position
        (by simpa using hmask)
      simp [hlong, hclear] at hset
  · intro hzero
    apply hbit
    apply BitField.eq_zero_of_test_bit
    intro position _
    have hand := congrArg (fun octet : UInt8 => octet.toNat.testBit position) hzero
    cases hlong : config.longFormBit.toNat.testBit position with
    | false => rfl
    | true => simp [hlong] at hand
  · apply BitField.unpack_pack hvalue
    intro position _ hmask
    have hlong : config.longFormBit.toNat.testBit position = false := by
      cases hset : config.longFormBit.toNat.testBit position with
      | false => rfl
      | true => simp [BitField.test_bit_of_disjoint hdisjoint hset] at hmask
    simp [hlong]

/-- The written octets of a long form are folded back to the length. -/
theorem long_form_fold {length : Nat} (hlength : length ≤ sizeMax) :
    foldChecked (Octets.digits (octetCount length) length).reverse 0 = some length := by
  obtain ⟨-, hfits, -⟩ := octet_count_spec length
  have hle := octet_count_le hlength
  rw [fold_checked_eq _ 0 0 (by norm_num) (by simpa using hle)]
  exact congrArg some (Octets.fold_reverse_digits_of_lt hfits)

/-- The most significant octet of a long form of several octets is not zero. -/
theorem long_form_head {length : Nat} (h : 1 < octetCount length) :
    (Octets.digits (octetCount length) length).reverse.headD 0 ≠ 0 := by
  obtain ⟨hlow, hfits, hleast⟩ := octet_count_spec length
  obtain ⟨hlast, hne⟩ := Octets.digits_getLast_ne_zero (by omega) (hleast h) hfits
  rw [List.headD_eq_head?_getD, List.head?_reverse, List.getLast?_eq_getElem?,
    Octets.digits_length, hlast]
  exact hne

/-- What the chosen long form satisfies. -/
theorem long_form_count_eq_ok {length count : Nat} (h : longFormCount config length = .ok count)
    (hcount : count ≠ 0) :
    count = octetCount length ∧ count ≤ BitField.maximum config.payloadMask ∧
      (length > BitField.maximum config.payloadMask ∨
        config.policy.any (fun policy => policy.allowShort = 0) = true) ∧
      config.policy.any
        (fun policy => policy.allowLong = 0 || count > policy.maxLongOctets) = false := by
  unfold longFormCount at h
  split at h
  next hlong =>
    obtain ⟨hmaximum, h⟩ := guard_ok.mp h
    obtain ⟨hpolicy, h⟩ := guard_ok.mp h
    cases h
    exact ⟨rfl, by omega, hlong, by simpa using hpolicy⟩
  · cases h
    exact absurd rfl hcount

/-- The policy of the reader admits the long form that the writer chooses. -/
theorem long_form_allowed {length : Nat}
    (hvalue : config.policy.any (fun policy => length > policy.maxValue) = false)
    (hlong : length > BitField.maximum config.payloadMask ∨
      config.policy.any (fun policy => policy.allowShort = 0) = true) :
    longFormAllowed config (Octets.digits (octetCount length) length).reverse length = true := by
  unfold longFormAllowed
  cases hpolicy : config.policy with
  | none => rfl
  | some policy =>
    simp only [hpolicy, Option.any_some, decide_eq_true_eq, decide_eq_false_iff_not]
      at hvalue hlong
    have hshort : ¬ (policy.allowShort ≠ 0 ∧ length ≤ BitField.maximum config.payloadMask) := by
      rintro ⟨hallow, hle⟩
      rcases hlong with hlong | hlong
      · omega
      · exact hallow hlong
    have hpadded : ¬ (octetCount length > 1 ∧
        (Octets.digits (octetCount length) length).reverse.headD 0 = 0) := by
      rintro ⟨hmany, hzero⟩
      exact long_form_head hmany hzero
    simp only [List.length_reverse, Octets.digits_length]
    by_contra hcontra
    simp only [Bool.not_eq_true, Bool.not_eq_false', Bool.or_eq_true, decide_eq_true_eq,
      Bool.and_eq_true, bne_iff_ne, beq_iff_eq] at hcontra
    rcases hcontra with hover | ⟨-, hboth⟩
    · exact hvalue hover
    · exact hboth.elim hshort hpadded

/-- The short form is read back. -/
theorem variable_length_read_short (h : lengthValidate config = .ok ()) {length : Nat}
    (hlength : length ≤ BitField.maximum config.payloadMask)
    (hshort : config.policy.any (fun policy => policy.allowShort = 0) = false)
    (hvalue : config.policy.any (fun policy => length > policy.maxValue) = false)
    (rest : Bytes) :
    variableLengthRead config (BitField.pack length config.payloadMask :: rest) =
      ⟨.ok length, 1⟩ := by
  obtain ⟨-, hdisjoint, -⟩ := length_validate_eq_ok h
  obtain ⟨hstray, hform, hunpack⟩ := short_octet hdisjoint hlength
  have hpolicy : config.policy.any
      (fun policy => policy.allowShort = 0 || length > policy.maxValue) = false := by
    cases hp : config.policy with
    | none => rfl
    | some policy => simp_all
  simp [variableLengthRead, h, hstray, hform, hunpack, hpolicy]

/-- The long form is read back. -/
theorem variable_length_read_long (h : lengthValidate config = .ok ()) {length count : Nat}
    (hlength : length ≤ sizeMax)
    (hvalue : config.policy.any (fun policy => length > policy.maxValue) = false)
    (hcount : longFormCount config length = .ok count) (hnonzero : count ≠ 0) (rest : Bytes) :
    variableLengthRead config
      ((config.longFormBit ||| BitField.pack count config.payloadMask) ::
        config.byteOrder.significant (Octets.digits count length).reverse ++ rest) =
      ⟨.ok length, count + 1⟩ := by
  obtain ⟨hbit, hdisjoint, -⟩ := length_validate_eq_ok h
  obtain ⟨rfl, hmaximum, hlong, hpolicy⟩ := long_form_count_eq_ok hcount hnonzero
  obtain ⟨hstray, hform, hunpack⟩ := long_octet hbit hdisjoint hmaximum
  have htake : (config.byteOrder.significant
      (Octets.digits (octetCount length) length).reverse ++ rest).take (octetCount length) =
        config.byteOrder.significant (Octets.digits (octetCount length) length).reverse :=
    List.take_left' (by simp)
  have henough : ¬ octetCount length ≥
      (config.byteOrder.significant (Octets.digits (octetCount length) length).reverse
        ++ rest).length + 1 := by
    simp
  simp only [variableLengthRead, h, List.cons_append, List.length_cons, hstray, hform, hunpack,
    hnonzero, hpolicy, henough, htake, significant_significant, long_form_fold hlength,
    long_form_allowed hvalue hlong, ne_eq, not_true_eq_false, if_false, if_true,
    Bool.false_eq_true]

/-- A count is read from its own octets as it is from the whole input. -/
theorem variable_length_read_take {data : Bytes} {length used : Nat}
    (h : variableLengthRead config data = ⟨.ok length, used⟩) :
    variableLengthRead config (data.take used) = ⟨.ok length, used⟩ := by
  cases hvalid : lengthValidate config with
  | error status => simp [variableLengthRead, hvalid] at h
  | ok accepted =>
    cases data with
    | nil => simp [variableLengthRead, hvalid] at h
    | cons first rest =>
      simp only [variableLengthRead, hvalid] at h
      split at h
      · cases h
      next hstray =>
        split at h
        next hshort =>
          split at h
          · cases h
          next hpolicy =>
            cases h
            simp only [variableLengthRead, hvalid, List.take_succ_cons, List.take_zero,
              if_neg hstray, if_pos hshort, if_neg hpolicy]
        next hlong =>
          split at h
          · cases h
          next hnonzero =>
            split at h
            · cases h
            next hpolicy =>
              split at h
              · cases h
              next hroom =>
                rw [List.length_cons] at hroom
                split at h
                · cases h
                next value hfold =>
                  split at h
                  next hallowed =>
                    cases h
                    have henough : ¬ BitField.unpack first config.payloadMask ≥
                        (first :: rest.take (BitField.unpack first
                          config.payloadMask)).length := by
                      rw [List.length_cons, List.length_take]
                      omega
                    simp only [variableLengthRead, hvalid, List.take_succ_cons,
                      if_neg hstray, if_neg hlong, if_neg hnonzero, if_neg hpolicy,
                      if_neg henough, List.take_take, Nat.min_self, hfold, hallowed, if_true]
                  · cases h

/-- A validated variable count obeys the count law. -/
theorem variable_length_law (h : lengthValidate config = .ok ()) :
    LengthLaw (variableLengthRead config) (variableLengthWrite config) := by
  obtain ⟨-, -, horder⟩ := length_validate_eq_ok h
  intro length stored width hlength hwrite
  simp only [variableLengthWrite, h] at hwrite
  obtain ⟨hvalue, hwrite⟩ := guard_ok.mp hwrite
  have hvalue' : config.policy.any (fun policy => length > policy.maxValue) = false := by
    simpa using hvalue
  split at hwrite
  · cases hwrite
  next count hcount =>
    cases hwrite
    rcases Nat.eq_zero_or_pos count with hzero | hpos
    · -- the short form is chosen only for a length within the prefix field
      subst hzero
      have hshort : ¬ (length > BitField.maximum config.payloadMask ∨
          config.policy.any (fun policy => policy.allowShort = 0) = true) := by
        intro hlong
        obtain ⟨hlow, -, -⟩ := octet_count_spec length
        simp only [longFormCount, if_pos hlong] at hcount
        obtain ⟨-, hcount⟩ := guard_ok.mp hcount
        split at hcount
        · cases hcount
        · have := Except.ok.inj hcount
          omega
      simp only [not_or, Bool.not_eq_true] at hshort
      refine ⟨[BitField.pack length config.payloadMask], rfl, ?_, ?_⟩
      · simp [variableLengthWrite, h, hvalue', hcount]
      · intro rest
        exact variable_length_read_short h (by omega) hshort.2 hvalue' rest
    · have hnonzero : count ≠ 0 := by omega
      obtain ⟨heq, -, -, -⟩ := long_form_count_eq_ok hcount hnonzero
      obtain ⟨hlow, hfits, -⟩ := octet_count_spec length
      have huint : writeUint count config.byteOrder length =
          .ok (config.byteOrder.significant (Octets.digits count length).reverse) := by
        rw [heq]
        exact write_uint_of_fits hlow (octet_count_le hlength) horder hfits
      refine ⟨(config.longFormBit ||| BitField.pack count config.payloadMask) ::
        config.byteOrder.significant (Octets.digits count length).reverse, by simp, ?_, ?_⟩
      · simp [variableLengthWrite, h, hvalue', hcount, hnonzero, huint]
      · intro rest
        exact variable_length_read_long h hlength hvalue' hcount hnonzero rest

end Length

end OpenTlv
