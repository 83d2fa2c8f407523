import OpenTlv.Formats.Configurable
import OpenTlv.Formats.Packed
import OpenTlv.Lib.Persist

/-!
# Prefix-stable decoding

A decoder that succeeds keeps its result when octets follow, and a failure other than
`TLV_ERR_TRUNCATED` stays one, in most formats with the same code. Both properties are inherited
by a composition from its fields: `KeepsField` is what a field has to provide,
`fields_decode_keeps` what follows. What counts as the same failure is a parameter.
-/

namespace OpenTlv

variable {α : Type}

/-- A failure that asks for more input. -/
def Truncates (failed : Status × FormatError) : Prop :=
  failed.1 = .truncated

/-- The value of a field together with the octets it consumed. -/
def FieldRead.result (field : FieldRead α) : Except Status (α × Nat) :=
  field.outcome.map fun value => (value, field.consumed)

/-- What `read_result` makes of a status. -/
def readStatus (status : Status) : Status :=
  if callbackStatus status = .bufferTooShort then .callback else callbackStatus status

theorem read_result_error (status : Status) :
    readResult (.error status : Except Status α) = .error (readStatus status) := by
  cases status <;> rfl

theorem read_status_truncated {status : Status} : readStatus status = .truncated ↔
    status = .truncated := by
  cases status <;> decide

/-- Which failure on longer input counts as the same. Screening keeps it. -/
class Kindred (same : Status → Status → Prop) : Prop where
  refl : ∀ status, status ≠ .truncated → same status status
  screened : ∀ status status', same status status' → same (readStatus status) (readStatus status')

/-- Any failure that does not ask for more input. -/
def StaysFailed (_ status' : Status) : Prop :=
  status' ≠ .truncated

/-- A failure with the same code. -/
def SameCode (status status' : Status) : Prop :=
  status' = status

instance : Kindred StaysFailed :=
  ⟨fun _ h => h, fun _ _ h hread => h (read_status_truncated.mp hread)⟩

instance : Kindred SameCode :=
  ⟨fun _ _ => rfl, fun _ _ h => congrArg readStatus h⟩

/-- Format failures with kindred codes. -/
def OnStatus (same : Status → Status → Prop) (failed failed' : Status × FormatError) : Prop :=
  same failed.1 failed'.1

instance {same : Status → Status → Prop} [Kindred same] :
    Repeatable (· = Status.truncated) same :=
  ⟨Kindred.refl⟩

instance {same : Status → Status → Prop} [Kindred same] : Repeatable Truncates (OnStatus same) :=
  ⟨fun failed => Kindred.refl failed.1⟩

/-- A field whose reading survives more input. -/
structure KeepsField (same : Status → Status → Prop) (read : Bytes → FieldRead α) : Prop where
  persists : ∀ p q, Persists (· = Status.truncated) same (read p).result (read (p ++ q)).result
  within : ∀ data value, (read data).outcome = .ok value → (read data).consumed ≤ data.length

/-- A field whose results and failures survive more input. -/
abbrev StableField (read : Bytes → FieldRead α) : Prop :=
  KeepsField StaysFailed read

variable {same : Status → Status → Prop}

theorem FieldRead.result_error {field : FieldRead α} {status : Status}
    (h : field.outcome = .error status) : field.result = .error status := by
  rw [result, h]
  rfl

theorem FieldRead.result_ok {field : FieldRead α} {value : α} (h : field.outcome = .ok value) :
    field.result = .ok (value, field.consumed) := by
  rw [result, h]
  rfl

/-- Two readings of a field, by the outcome on the short input. -/
theorem field_persists_cases {short long : FieldRead α}
    (h : Persists (· = Status.truncated) same short.result long.result) :
    (∃ value, short.outcome = .ok value ∧ long.outcome = .ok value ∧
      long.consumed = short.consumed) ∨
    short.outcome = .error .truncated ∨
    ∃ status status', short.outcome = .error status ∧ long.outcome = .error status' ∧
      same status status' := by
  cases hshort : short.outcome with
  | ok value =>
    rw [FieldRead.result_ok hshort, persists_ok] at h
    cases hlong : long.outcome with
    | error status =>
      rw [FieldRead.result_error hlong] at h
      cases h
    | ok other =>
      rw [FieldRead.result_ok hlong] at h
      obtain ⟨rfl, hconsumed⟩ := Prod.mk.inj (Except.ok.inj h)
      exact .inl ⟨other, rfl, rfl, hconsumed⟩
  | error status =>
    rw [FieldRead.result_error hshort] at h
    rcases h with rfl | ⟨status', hstatus, hstays⟩
    · exact .inr (.inl rfl)
    · cases hlong : long.outcome with
      | ok other =>
        rw [FieldRead.result_ok hlong] at hstatus
        cases hstatus
      | error other =>
        rw [FieldRead.result_error hlong] at hstatus
        obtain rfl := Except.error.inj hstatus
        exact .inr (.inr ⟨status, other, rfl, rfl, hstays⟩)

/-- What a stable field reads, it reads in front of any octets. -/
theorem KeepsField.append_ok {read : Bytes → FieldRead α} (h : KeepsField same read) {p : Bytes}
    {value : α} (hread : (read p).outcome = .ok value) (q : Bytes) :
    (read (p ++ q)).outcome = .ok value ∧ (read (p ++ q)).consumed = (read p).consumed := by
  rcases field_persists_cases (h.persists p q) with
    ⟨other, hshort, hlong, hconsumed⟩ | hshort | ⟨status, status', hshort, -, -⟩
  · rw [hread] at hshort
    cases hshort
    exact ⟨hlong, hconsumed⟩
  · rw [hread] at hshort
    cases hshort
  · rw [hread] at hshort
    cases hshort

variable [Kindred same]

/-- A field that depends on a front part of its input, and asks for that part. -/
theorem KeepsField.of_front {read : Bytes → FieldRead α} (width : Bytes → Nat)
    (hfront : ∀ p q, width p ≤ p.length → read (p ++ q) = read p)
    (hshort : ∀ p, p.length < width p → (read p).outcome = .error .truncated)
    (hwithin : ∀ data value, (read data).outcome = .ok value →
      (read data).consumed ≤ data.length) : KeepsField same read := by
  refine ⟨fun p q => ?_, hwithin⟩
  rcases Nat.lt_or_ge p.length (width p) with hlt | hge
  · rw [FieldRead.result, hshort p hlt]
    exact .inl rfl
  · rw [hfront p q hge]
    exact Persists.refl _

section Fields

theorem take_append_front {p : Bytes} (q : Bytes) {width : Nat} (h : width ≤ p.length) :
    (p ++ q).take width = p.take width :=
  List.take_append_of_le_length h

theorem read_uint_append {p : Bytes} (q : Bytes) {width : Nat} (order : ByteOrder)
    (h : width ≤ p.length) : readUint (p ++ q) width order = readUint p width order := by
  simp only [readUint, take_append_front q h]

/-- Fixed identifiers are stable under more octets. -/
theorem fixed_identifier_keeps {config : FixedIdentifier}
    (hvalid : fixedIdentifierValidate config = .ok ()) :
    KeepsField same (fixedIdentifierRead config) := by
  refine .of_front (fun _ => config.size) (fun p q hge => ?_) (fun p hlt => ?_)
    fun data tag hread => ?_
  · have hlong : ¬ (p ++ q).length < config.size := by
      rw [List.length_append]
      omega
    simp only [fixedIdentifierRead, hvalid, if_neg hlong, if_neg (Nat.not_lt.mpr hge),
      take_append_front q hge]
  · simp only [fixedIdentifierRead, hvalid, if_pos hlt]
  · simp only [fixedIdentifierRead, hvalid] at hread ⊢
    split at hread
    · cases hread
    · rename_i hge
      rw [if_neg hge]
      exact Nat.not_lt.mp hge

/-- Fixed lengths are stable under more octets. -/
theorem fixed_length_keeps {config : FixedLength}
    (hvalid : fixedLengthValidate config = .ok ()) : KeepsField same (fixedLengthRead config) := by
  refine .of_front (fun _ => config.size) (fun p q hge => ?_) (fun p hlt => ?_)
    fun data length hread => ?_
  · have hlong : ¬ (p ++ q).length < config.size := by
      rw [List.length_append]
      omega
    simp only [fixedLengthRead, hvalid, if_neg hlong, if_neg (Nat.not_lt.mpr hge),
      read_uint_append q config.byteOrder hge]
  · simp only [fixedLengthRead, hvalid, if_pos hlt]
  · simp only [fixedLengthRead, hvalid] at hread ⊢
    split at hread
    · cases hread
    · rename_i hge
      rw [if_neg hge]
      exact Nat.not_lt.mp hge

/-- The octets that an escaped count needs. -/
def escapedWidth (config : EscapedLength) : Bytes → Nat
  | [] => 1
  | first :: _ => if first = config.escape then 1 + config.extendedSize else 1

/-- Escaped lengths are stable under more octets. -/
theorem escaped_length_keeps {config : EscapedLength}
    (hvalid : validateLength config = .ok ()) : KeepsField same (escapedLengthRead config) := by
  refine .of_front (escapedWidth config) (fun p q hge => ?_) (fun p hlt => ?_)
    fun data length hread => ?_
  · cases p with
    | nil => simp [escapedWidth] at hge
    | cons first rest =>
      simp only [escapedLengthRead, hvalid, List.cons_append]
      by_cases hescape : first = config.escape
      · subst hescape
        simp only [escapedWidth, if_true, List.length_cons] at hge
        have hshort : ¬ (config.escape :: rest).length < 1 + config.extendedSize := by
          rw [List.length_cons]
          omega
        have hlong : ¬ (config.escape :: (rest ++ q)).length < 1 + config.extendedSize := by
          rw [List.length_cons, List.length_append]
          omega
        rw [if_neg hshort, if_neg hlong,
          read_uint_append q config.byteOrder (show config.extendedSize ≤ rest.length by omega)]
      · by_cases hhigh : first > config.escape
        · rw [if_pos hhigh, if_pos hhigh]
        · have hlow : first < config.escape := by
            rw [gt_iff_lt, UInt8.lt_iff_toNat_lt] at hhigh
            rw [UInt8.lt_iff_toNat_lt]
            have : first.toNat ≠ config.escape.toNat := fun h =>
              hescape (UInt8.toNat_inj.mp h)
            omega
          rw [if_neg hhigh, if_pos hlow, if_neg hhigh, if_pos hlow]
  · cases p with
    | nil => simp only [escapedLengthRead, hvalid]
    | cons first rest =>
      simp only [escapedWidth] at hlt
      split at hlt
      · rename_i hescape
        subst hescape
        have hirrefl : ¬ config.escape < config.escape := UInt8.lt_irrefl _
        simp only [escapedLengthRead, hvalid, gt_iff_lt, if_neg hirrefl, if_pos hlt]
      · simp at hlt
  · cases data with
    | nil => simp [escapedLengthRead, hvalid] at hread
    | cons first rest =>
      simp only [escapedLengthRead, hvalid] at hread ⊢
      split at hread
      · cases hread
      · rename_i hhigh
        rw [if_neg hhigh]
        split at hread
        · rename_i hlow
          rw [if_pos hlow]
          simp
        · rename_i hlow
          rw [if_neg hlow]
          split at hread
          · cases hread
          · rename_i hlength
            rw [if_neg hlength]
            split at hread
            · cases hread
            · split at hread
              · cases hread
              · rename_i hbounds
                simp only [if_neg hbounds]
                omega

/-- The continuation loop survives more input. -/
theorem identifier_continuation_persists (config : VariableIdentifier) (data q : Bytes)
    (count : Nat) :
    Persists (· = Status.truncated) same (identifierContinuation config data count).result
      (identifierContinuation config (data ++ q) count).result := by
  induction data generalizing count with
  | nil =>
    unfold identifierContinuation
    split
    · exact Persists.errors (Kindred.refl _ (by decide))
    · exact .inl rfl
  | cons octet rest ih =>
    unfold identifierContinuation
    rw [List.cons_append]
    dsimp only
    split
    · exact Persists.refl _
    · split
      · exact Persists.refl _
      · split
        · exact Persists.refl _
        · exact ih (count + 1)

/-- The extent that the continuation loop finds lies in the input. -/
theorem identifier_continuation_within {config : VariableIdentifier} {data : Bytes}
    {count last : Nat} (h : (identifierContinuation config data count).outcome = .ok last) :
    count < last ∧ last ≤ count + data.length ∧
      (identifierContinuation config data count).consumed = last := by
  induction data generalizing count with
  | nil =>
    unfold identifierContinuation at h
    split at h <;> cases h
  | cons octet rest ih =>
    unfold identifierContinuation at h ⊢
    split at h
    · cases h
    · rename_i hsize
      rw [if_neg hsize]
      dsimp only at h ⊢
      split at h
      · cases h
      · rename_i hstray
        rw [if_neg hstray]
        split at h
        · rename_i hlast
          cases h
          rw [if_pos hlast, List.length_cons]
          exact ⟨by omega, by omega, rfl⟩
        · rename_i hlast
          obtain ⟨hlow, hhigh, hconsumed⟩ := ih h
          rw [if_neg hlast, List.length_cons]
          exact ⟨by omega, by omega, hconsumed⟩

theorem identifier_extent_persists (config : VariableIdentifier) (first : UInt8)
    (data q : Bytes) :
    Persists (· = Status.truncated) same (identifierExtent config first data).result
      (identifierExtent config first (data ++ q)).result := by
  unfold identifierExtent
  split
  · exact identifier_continuation_persists config data q 1
  · exact Persists.refl _

theorem identifier_extent_within {config : VariableIdentifier} {first : UInt8} {data : Bytes}
    {count : Nat} (h : (identifierExtent config first data).outcome = .ok count) :
    0 < count ∧ count ≤ data.length + 1 ∧
      (identifierExtent config first data).consumed = count := by
  unfold identifierExtent at h ⊢
  split at h
  · rename_i hescape
    obtain ⟨hlow, hhigh, hconsumed⟩ := identifier_continuation_within h
    rw [if_pos hescape]
    exact ⟨by omega, by omega, hconsumed⟩
  · rename_i hescape
    cases h
    rw [if_neg hescape]
    exact ⟨by omega, by omega, rfl⟩

/-- The minimality of an identifier depends on its own octets. -/
theorem identifier_minimal_front (config : VariableIdentifier) {data : Bytes} (q : Bytes)
    {count : Nat} (h : count ≤ data.length) :
    identifierMinimal config (data ++ q) count = identifierMinimal config data count := by
  simp only [identifierMinimal, take_append_front q h]

theorem identifier_prefix_error {config : VariableIdentifier} {data : Bytes} {status : Status}
    (h : identifierPrefix config data = .error status) : status = .invalidTag := by
  unfold identifierPrefix at h
  split at h
  · cases h
  · cases h
  · split at h
    · cases h
      rfl
    · split at h
      · cases h
      · split at h
        · cases h
          rfl
        · cases h

/-- A prefix that is refused stays refused. -/
theorem identifier_prefix_refused {config : VariableIdentifier} {data : Bytes} {status : Status}
    (h : identifierPrefix config data = .error status) (q : Bytes) :
    identifierPrefix config (data ++ q) = .error .invalidTag := by
  unfold identifierPrefix at h ⊢
  split at h
  · cases h
  · cases h
  · rename_i policy first rest hpolicy
    rw [hpolicy]
    simp only [List.cons_append]
    split at h
    · rename_i hforbidden
      rw [if_pos hforbidden]
    · rename_i hforbidden
      rw [if_neg hforbidden]
      split at h
      · cases h
      · rename_i second tail
        split at h
        · rename_i hzero
          simp only [List.cons_append, if_pos hzero]
        · cases h

/-- The identifier reader once the prefix is accepted. -/
theorem variable_identifier_read_eq {config : VariableIdentifier} {first : UInt8} {rest : Bytes}
    (hvalid : identifierValidate config = .ok ())
    (hbegins : identifierPrefix config (first :: rest) = .ok ()) :
    (∀ status, (identifierExtent config first rest).outcome = .error status →
      (variableIdentifierRead config (first :: rest)).outcome = .error status) ∧
    ∀ count, (identifierExtent config first rest).outcome = .ok count →
      variableIdentifierRead config (first :: rest) =
        if identifierMinimal config (first :: rest) count = false then ⟨.error .invalidTag, 0⟩
        else ⟨.ok ⟨(first :: rest).take count, some 0⟩, count⟩ := by
  cases hextent : identifierExtent config first rest with
  | mk outcome consumed =>
    constructor
    · intro status houtcome
      dsimp only at houtcome
      subst houtcome
      simp [variableIdentifierRead, hvalid, hbegins, hextent]
    · intro count houtcome
      dsimp only at houtcome
      subst houtcome
      simp [variableIdentifierRead, hvalid, hbegins, hextent]

theorem variable_identifier_refused {config : VariableIdentifier} {first : UInt8} {rest : Bytes}
    {status : Status} (hvalid : identifierValidate config = .ok ())
    (hbegins : identifierPrefix config (first :: rest) = .error status) :
    (variableIdentifierRead config (first :: rest)).outcome = .error status := by
  simp [variableIdentifierRead, hvalid, hbegins]

/-- The prefix check looks at the continuation only where the extent does. -/
theorem identifier_prefix_accepted {config : VariableIdentifier} {first : UInt8} {rest : Bytes}
    (q : Bytes) (hbegins : identifierPrefix config (first :: rest) = .ok ()) :
    identifierPrefix config (first :: (rest ++ q)) = .ok () ∨
      identifierPrefix config (first :: (rest ++ q)) = .error .invalidTag ∧ rest = [] ∧
        first &&& config.inlineMask = config.escape := by
  unfold identifierPrefix at hbegins ⊢
  cases hpolicy : config.policy with
  | none => exact .inl rfl
  | some policy =>
    rw [hpolicy] at hbegins
    dsimp only at hbegins ⊢
    obtain ⟨hforbidden, hbegins⟩ := guard_ok.mp hbegins
    rw [if_neg hforbidden]
    cases rest with
    | nil =>
      rw [List.nil_append]
      split
      · exact .inl rfl
      · split
        · rename_i hzero
          exact .inr ⟨rfl, rfl, hzero.2.1⟩
        · exact .inl rfl
    | cons second tail =>
      simp only [List.cons_append] at hbegins ⊢
      obtain ⟨hzero, hbegins⟩ := guard_ok.mp hbegins
      rw [if_neg hzero]
      exact .inl rfl

/-- An identifier of one octet at most that is too long may turn out to be malformed. -/
theorem variable_identifier_persists {config : VariableIdentifier}
    (hvalid : identifierValidate config = .ok ())
    (hsize : same .invalidTagSize .invalidTag ∨ config.maxSize ≠ 1) (first : UInt8)
    (rest q : Bytes) :
    Persists (· = Status.truncated) same (variableIdentifierRead config (first :: rest)).result
      (variableIdentifierRead config (first :: (rest ++ q))).result := by
  cases hbegins : identifierPrefix config (first :: rest) with
  | error status =>
    have hlong := identifier_prefix_refused hbegins q
    rw [List.cons_append] at hlong
    rw [FieldRead.result_error (variable_identifier_refused hvalid hbegins),
      FieldRead.result_error (variable_identifier_refused hvalid hlong),
      identifier_prefix_error hbegins]
    exact Persists.errors (Kindred.refl _ (by decide))
  | ok _ =>
    have hread := variable_identifier_read_eq hvalid hbegins
    have hextent : Persists (· = Status.truncated) same
        (identifierExtent config first rest).result
        (identifierExtent config first (rest ++ q)).result :=
      identifier_extent_persists config first rest q
    rcases field_persists_cases hextent with
      ⟨count, hshort, hlong, -⟩ | hshort | ⟨status, status', hshort, hlong, hstays⟩
    · obtain ⟨-, hcount, -⟩ := identifier_extent_within hshort
      -- an escaped identifier of one octet has no extent
      have haccepted : identifierPrefix config (first :: (rest ++ q)) = .ok () := by
        rcases identifier_prefix_accepted q hbegins with haccepted | ⟨-, rfl, hescape⟩
        · exact haccepted
        · simp only [identifierExtent, if_pos hescape, identifierContinuation] at hshort
          split at hshort <;> cases hshort
      have hminimal := @identifier_minimal_front config (first :: rest) q count
        (by rw [List.length_cons]; omega)
      have htake := @take_append_front (first :: rest) q count
        (by rw [List.length_cons]; omega)
      rw [List.cons_append] at hminimal htake
      rw [hread.2 count hshort, (variable_identifier_read_eq hvalid haccepted).2 count hlong,
        hminimal, htake]
      exact Persists.refl _
    · rw [FieldRead.result_error (hread.1 _ hshort)]
      exact .inl rfl
    · rw [FieldRead.result_error (hread.1 _ hshort)]
      rcases identifier_prefix_accepted q hbegins with haccepted | ⟨hrefused, rfl, hescape⟩
      · rw [FieldRead.result_error
          ((variable_identifier_read_eq hvalid haccepted).1 status' hlong)]
        exact Persists.errors hstays
      · rw [FieldRead.result_error (variable_identifier_refused hvalid hrefused)]
        simp only [identifierExtent, if_pos hescape, identifierContinuation] at hshort
        split at hshort
        · rename_i hone
          cases hshort
          exact Persists.errors (hsize.resolve_right fun h => h hone.symm)
        · cases hshort
          exact .inl rfl

/-- What an identifier that is read consumes. -/
theorem variable_identifier_within {config : VariableIdentifier} {data : Bytes} {tag : Span}
    (h : (variableIdentifierRead config data).outcome = .ok tag) :
    0 < (variableIdentifierRead config data).consumed ∧
      (variableIdentifierRead config data).consumed ≤ data.length ∧
      tag = ⟨data.take (variableIdentifierRead config data).consumed, some 0⟩ := by
  cases hvalid : identifierValidate config with
  | error status => simp [variableIdentifierRead, hvalid] at h
  | ok _ =>
    cases data with
    | nil =>
      cases hpolicy : config.policy <;>
        simp [variableIdentifierRead, hvalid, identifierPrefix, hpolicy] at h
    | cons first rest =>
      cases hbegins : identifierPrefix config (first :: rest) with
      | error status =>
        rw [variable_identifier_refused hvalid hbegins] at h
        cases h
      | ok _ =>
        have hread := variable_identifier_read_eq hvalid hbegins
        cases hextent : (identifierExtent config first rest).outcome with
        | error status =>
          rw [hread.1 status hextent] at h
          cases h
        | ok count =>
          obtain ⟨hlow, hhigh, -⟩ := identifier_extent_within hextent
          rw [hread.2 count hextent] at h ⊢
          split at h
          · cases h
          · rename_i hminimal
            cases h
            rw [if_neg hminimal, List.length_cons]
            exact ⟨hlow, hhigh, rfl⟩

/-- Variable identifiers are stable under more octets. -/
theorem variable_identifier_keeps {config : VariableIdentifier}
    (hvalid : identifierValidate config = .ok ())
    (hsize : same .invalidTagSize .invalidTag ∨ config.maxSize ≠ 1) :
    KeepsField same (variableIdentifierRead config) := by
  refine ⟨fun p q => ?_, fun data tag h => (variable_identifier_within h).2.1⟩
  cases p with
  | nil =>
    have hempty : (variableIdentifierRead config []).outcome = .error .truncated := by
      cases hpolicy : config.policy <;>
        simp [variableIdentifierRead, hvalid, identifierPrefix, hpolicy]
    rw [FieldRead.result_error hempty]
    exact .inl rfl
  | cons first rest => exact variable_identifier_persists hvalid hsize first rest q

/-- The octets that a count of short or long form needs. -/
def variableWidth (config : VariableLength) : Bytes → Nat
  | [] => 1
  | first :: _ =>
    let count := BitField.unpack first config.payloadMask
    if first &&& ~~~(config.longFormBit ||| config.payloadMask) = 0 ∧
        first &&& config.longFormBit ≠ 0 ∧ count ≠ 0 ∧
        config.policy.any
          (fun policy => policy.allowLong = 0 || count > policy.maxLongOctets) = false then
      count + 1
    else 1

/-- Variable lengths are stable under more octets. -/
theorem variable_length_keeps {config : VariableLength}
    (hvalid : lengthValidate config = .ok ()) : KeepsField same (variableLengthRead config) := by
  refine .of_front (variableWidth config) (fun p q hge => ?_) (fun p hlt => ?_)
    fun data length hread => ?_
  · cases p with
    | nil => simp [variableWidth] at hge
    | cons first rest =>
      simp only [variableWidth] at hge
      simp only [variableLengthRead, hvalid, List.cons_append]
      split
      · rfl
      · rename_i hstray
        split
        · rfl
        · rename_i hform
          split
          · rfl
          · rename_i hcount
            split
            · rfl
            · rename_i hpolicy
              rw [if_pos ⟨not_not.mp hstray, hform, hcount, Bool.not_eq_true _ ▸ hpolicy⟩,
                List.length_cons] at hge
              have htake := @take_append_front rest q
                (BitField.unpack first config.payloadMask) (by omega)
              have hshort : ¬ BitField.unpack first config.payloadMask ≥
                  (first :: rest).length := by
                rw [List.length_cons]
                omega
              have hlong : ¬ BitField.unpack first config.payloadMask ≥
                  (first :: (rest ++ q)).length := by
                rw [List.length_cons, List.length_append]
                omega
              rw [if_neg hlong, if_neg hshort, htake]
  · cases p with
    | nil => simp only [variableLengthRead, hvalid]
    | cons first rest =>
      simp only [variableWidth] at hlt
      split at hlt
      · rename_i hlong
        obtain ⟨hstray, hform, hcount, hpolicy⟩ := hlong
        have hge : BitField.unpack first config.payloadMask ≥ (first :: rest).length := by
          omega
        simp only [variableLengthRead, hvalid]
        rw [if_neg (not_not.mpr hstray), if_neg hform, if_neg hcount,
          if_neg (by rw [hpolicy]; decide), if_pos hge]
      · simp at hlt
  · cases data with
    | nil => simp [variableLengthRead, hvalid] at hread
    | cons first rest =>
      simp only [variableLengthRead, hvalid] at hread ⊢
      split at hread
      · cases hread
      · rename_i hstray
        rw [if_neg hstray]
        split at hread
        · rename_i hform
          rw [if_pos hform]
          split <;> simp
        · rename_i hform
          rw [if_neg hform]
          split at hread
          · cases hread
          · rename_i hcount
            rw [if_neg hcount]
            split at hread
            · cases hread
            · rename_i hpolicy
              rw [if_neg hpolicy]
              split at hread
              · cases hread
              · rename_i hlength
                rw [if_neg hlength]
                split at hread
                · cases hread
                · split <;> dsimp only <;> omega

/-- A count that is read has at least one octet. -/
theorem variable_length_positive {config : VariableLength} {data : Bytes} {length : Nat}
    (h : (variableLengthRead config data).outcome = .ok length) :
    0 < (variableLengthRead config data).consumed := by
  cases hvalid : lengthValidate config with
  | error status => simp [variableLengthRead, hvalid] at h
  | ok _ =>
    cases data with
    | nil => simp [variableLengthRead, hvalid] at h
    | cons first rest =>
      simp only [variableLengthRead, hvalid, List.length_cons]
      repeat' split
      all_goals dsimp only; omega

end Fields

section Composition

/-- The outcome of a resolver together with the octets of the length field. -/
def Resolution.result (resolution : Resolution) :
    Except (Status × FormatError) ((Nat × Nat) × Nat) :=
  resolution.outcome.map fun bounds => (bounds, resolution.lengthSize)

/-- A resolver whose bounds survive more input. -/
structure KeepsResolve (same : Status → Status → Prop) (resolve : ResolveBounds) : Prop where
  persists : ∀ tag p q,
    Persists Truncates (OnStatus same) (resolve tag p).result (resolve tag (p ++ q)).result
  within : ∀ tag data bounds, (resolve tag data).outcome = .ok bounds →
    (resolve tag data).lengthSize ≤ data.length

/-- A composition of stable fields. -/
structure KeepsFields (same : Status → Status → Prop) (f : FieldComposition) : Prop where
  tag : KeepsField same f.readTag
  length : KeepsField same f.readLength
  resolve : ∀ resolve, f.resolve = some resolve → KeepsResolve same resolve

variable {f : FieldComposition}

/-- Screening and renaming keep what a field asks for. -/
theorem read_result_persists {short long : FieldRead Nat} (g : Nat → Nat × Nat)
    (h : Persists (· = Status.truncated) same short.result long.result) :
    Persists (· = Status.truncated) same
      (FieldRead.result ⟨(readResult short.outcome).map g, short.consumed⟩)
      (FieldRead.result ⟨(readResult long.outcome).map g, long.consumed⟩) := by
  rcases field_persists_cases h with ⟨length, hshort, hlong, hconsumed⟩ | hshort |
    ⟨status, status', hshort, hlong, hstays⟩
  · simp [FieldRead.result, hshort, hlong, hconsumed, Except.map]
  · rw [hshort, read_result_error]
    exact .inl rfl
  · rw [hshort, hlong, read_result_error, read_result_error]
    exact Persists.errors (Kindred.screened _ _ hstays)

/-- The count from a resolver, as a field. -/
def Resolution.field (resolution : Resolution) : FieldRead (Nat × Nat) :=
  ⟨match resolution.outcome with
    | .ok bounds => .ok bounds
    | .error (status, _) => readResult (.error status), resolution.lengthSize⟩

theorem read_count_resolve {resolve : ResolveBounds} (h : f.resolve = some resolve)
    (data : Bytes) (s : FieldsState) :
    (readCount f data s).1 = (resolve s.tag.bytes (data.drop s.pos)).field := by
  simp only [readCount, h]
  split <;> rename_i houtcome <;> simp [Resolution.field, houtcome]

/-- A stable resolution has a stable length field. -/
theorem resolution_field_persists {short long : Resolution}
    (h : Persists Truncates (OnStatus same) short.result long.result) :
    Persists (· = Status.truncated) same short.field.result long.field.result := by
  unfold Resolution.result at h
  unfold Resolution.field
  cases hshort : short.outcome with
  | ok bounds =>
    rw [hshort] at h
    cases hlong : long.outcome with
    | error failed =>
      rw [hlong] at h
      cases h
    | ok other =>
      rw [hlong] at h
      obtain ⟨hbounds, hsize⟩ := Prod.mk.inj (Except.ok.inj h)
      rw [hbounds, hsize]
      exact Persists.refl _
  | error failed =>
    obtain ⟨status, detail⟩ := failed
    rw [hshort] at h
    rcases h with hask | ⟨⟨status', detail'⟩, hstatus, hstays⟩
    · obtain rfl : status = .truncated := hask
      exact .inl rfl
    · cases hlong : long.outcome with
      | ok other =>
        rw [hlong] at hstatus
        cases hstatus
      | error failed =>
        rw [hlong] at hstatus
        obtain rfl := Except.error.inj hstatus
        simp only [read_result_error]
        exact Persists.errors (Kindred.screened _ _ hstays)

/-- The count survives more input. -/
theorem read_count_persists (hf : KeepsFields same f) {p : Bytes} (q : Bytes) {s : FieldsState}
    (hpos : s.pos ≤ p.length) :
    Persists (· = Status.truncated) same (readCount f p s).1.result
      (readCount f (p ++ q) s).1.result := by
  have hdrop : (p ++ q).drop s.pos = p.drop s.pos ++ q := List.drop_append_of_le_length hpos
  cases hresolve : f.resolve with
  | none =>
    simp only [readCount, hresolve, hdrop]
    exact read_result_persists _ (hf.length.persists _ q)
  | some resolve =>
    rw [read_count_resolve hresolve, read_count_resolve hresolve, hdrop]
    exact resolution_field_persists ((hf.resolve resolve hresolve).persists _ _ q)

omit [Kindred same] in
/-- A length field lies in the octets left. -/
theorem read_count_within (hf : KeepsFields same f) {data : Bytes} {s : FieldsState}
    {bounds : Nat × Nat} (h : (readCount f data s).1.outcome = .ok bounds) :
    (readCount f data s).1.consumed ≤ data.length - s.pos := by
  cases hresolve : f.resolve with
  | none =>
    simp only [readCount, hresolve] at h ⊢
    cases houtcome : (f.readLength (data.drop s.pos)).outcome with
    | error status =>
      rw [houtcome, read_result_error] at h
      cases h
    | ok length =>
      have := hf.length.within _ _ houtcome
      rwa [List.length_drop] at this
  | some resolve =>
    rw [read_count_resolve hresolve] at h ⊢
    unfold Resolution.field at h ⊢
    cases houtcome : (resolve s.tag.bytes (data.drop s.pos)).outcome with
    | error failed =>
      rw [houtcome] at h
      simp only [read_result_error] at h
      cases h
    | ok other =>
      have := (hf.resolve resolve hresolve).within _ _ _ houtcome
      rwa [List.length_drop] at this

/-- The position stays in the input. -/
def FieldsState.Inside (s : FieldsState) (data : Bytes) : Prop :=
  s.pos ≤ data.length

/-- The tag step is stable under more octets. -/
theorem tag_step_persists (hf : KeepsFields same f) {p : Bytes} (q : Bytes) {s : FieldsState}
    (hpos : s.Inside p) :
    Persists Truncates (OnStatus same) (tagStep f p s) (tagStep f (p ++ q) s) := by
  have hdrop : (p ++ q).drop s.pos = p.drop s.pos ++ q := List.drop_append_of_le_length hpos
  unfold tagStep
  rw [hdrop]
  rcases field_persists_cases (hf.tag.persists (p.drop s.pos) q) with
    ⟨tag, hshort, hlong, hconsumed⟩ | hshort | ⟨status, status', hshort, hlong, hstays⟩
  · have hwithin := hf.tag.within _ _ hshort
    rw [List.length_drop] at hwithin
    simp only [hshort, hlong, hconsumed, read_result_ok, List.length_append]
    by_cases hzero : (f.readTag (p.drop s.pos)).consumed = 0
    · rw [if_pos (.inl hzero), if_pos (.inl hzero)]
      exact Persists.refl _
    · rw [if_neg (by omega), if_neg (by omega)]
      exact Persists.refl _
  · simp only [hshort, read_result_error]
    exact .inl rfl
  · simp only [hshort, hlong, read_result_error]
    exact Persists.errors (Kindred.screened _ _ hstays)

theorem tag_step_inside {data : Bytes} {s s' : FieldsState} (hpos : s.Inside data)
    (h : tagStep f data s = .ok s') : s'.Inside data := by
  unfold tagStep at h
  dsimp only at h
  split at h
  · cases h
  · split at h
    · cases h
    · rename_i hbounds
      cases h
      unfold FieldsState.Inside at hpos ⊢
      dsimp only
      omega

/-- A count that is not read fails the step with its status. -/
theorem length_step_error {data : Bytes} {s : FieldsState} {status : Status}
    (h : (readCount f data s).1.outcome = .error status) :
    ∃ detail, lengthStep f data s = .error (status, detail) := by
  unfold lengthStep
  simp only [h]
  split
  · split <;> exact ⟨_, rfl⟩
  · exact ⟨_, rfl⟩

omit [Kindred same] in
/-- A count that is read is taken unless the scope refuses it. -/
theorem length_step_ok (hf : KeepsFields same f) {data : Bytes} {s : FieldsState}
    {length trailer : Nat} (h : (readCount f data s).1.outcome = .ok (length, trailer)) :
    lengthStep f data s =
      if f.lengthScope = .tagAndValue ∧ length = 0 then
        fieldsFailure {}
          { s with lengthRange := Range.at s.pos (readCount f data s).1.consumed }
          .invalidLength .length s.pos
      else
        .ok { s with
          length := length
          trailer := trailer
          pos := s.pos + (readCount f data s).1.consumed
          lengthRange := Range.at s.pos (readCount f data s).1.consumed } := by
  have hwithin := read_count_within hf h
  unfold lengthStep
  simp only [h, available, if_pos hwithin, if_neg (Nat.not_lt.mpr hwithin), gt_iff_lt]

/-- The length step is stable under more octets. -/
theorem length_step_persists (hf : KeepsFields same f) {p : Bytes} (q : Bytes) {s : FieldsState}
    (hpos : s.Inside p) :
    Persists Truncates (OnStatus same) (lengthStep f p s) (lengthStep f (p ++ q) s) := by
  rcases field_persists_cases (read_count_persists hf q hpos) with
    ⟨⟨length, trailer⟩, hshort, hlong, hconsumed⟩ | hshort |
    ⟨status, status', hshort, hlong, hstays⟩
  · rw [length_step_ok hf hshort, length_step_ok hf hlong, hconsumed]
    exact Persists.refl _
  · obtain ⟨detail, heq⟩ := length_step_error hshort
    rw [heq]
    exact .inl rfl
  · obtain ⟨detail, heq⟩ := length_step_error hshort
    obtain ⟨detail', heq'⟩ := length_step_error hlong
    rw [heq, heq']
    exact Persists.errors hstays

theorem length_step_inside {data : Bytes} {s s' : FieldsState} (hpos : s.Inside data)
    (h : lengthStep f data s = .ok s') : s'.Inside data := by
  unfold lengthStep at h
  dsimp only at h
  split at h
  · split at h
    · split at h <;> cases h
    · cases h
  · split at h
    · cases h
    · rename_i hfits
      obtain ⟨-, h⟩ := guard_ok.mp h
      cases h
      unfold FieldsState.Inside at hpos ⊢
      dsimp only
      omega

theorem header_steps_eq_bind (f : FieldComposition) (data : Bytes) :
    headerSteps f data =
      if f.elementOrder = .tlv then tagStep f data {} >>= lengthStep f data
      else lengthStep f data {} >>= tagStep f data := by
  unfold headerSteps
  split
  · cases tagStep f data {} <;> rfl
  · cases lengthStep f data {} <;> rfl

/-- The value of an element once its header is read. -/
def elementStep (f : FieldComposition) (data : Bytes) (s : FieldsState) : FormatResult Decoded :=
  if f.lengthScope = .tagAndValue then
    if s.length < s.tagSize then fieldsFailure {} s .invalidLength .length s.lengthRange.offset
    else valueStep data s (s.length - s.tagSize)
  else valueStep data s s.length

theorem fields_decode_eq_bind (f : FieldComposition) (data : Bytes) :
    fieldsDecode f data = headerSteps f data >>= elementStep f data := by
  unfold fieldsDecode
  cases headerSteps f data <;> rfl

theorem header_steps_persists (hf : KeepsFields same f) (p q : Bytes) :
    Persists Truncates (OnStatus same) (headerSteps f p) (headerSteps f (p ++ q)) := by
  have hstart : FieldsState.Inside {} p := Nat.zero_le _
  rw [header_steps_eq_bind, header_steps_eq_bind]
  split
  · exact (tag_step_persists hf q hstart).bind fun s hs =>
      length_step_persists hf q (tag_step_inside hstart hs)
  · exact (length_step_persists hf q hstart).bind fun s hs =>
      tag_step_persists hf q (length_step_inside hstart hs)

theorem header_steps_inside {data : Bytes} {s : FieldsState} (h : headerSteps f data = .ok s) :
    s.Inside data := by
  have hstart : FieldsState.Inside {} data := Nat.zero_le _
  unfold headerSteps at h
  split at h
  · cases hstep : tagStep f data {} with
    | error failed =>
      rw [hstep] at h
      cases h
    | ok s' =>
      rw [hstep] at h
      exact length_step_inside (tag_step_inside hstart hstep) h
  · cases hstep : lengthStep f data {} with
    | error failed =>
      rw [hstep] at h
      cases h
    | ok s' =>
      rw [hstep] at h
      exact tag_step_inside (length_step_inside hstart hstep) h

/-- The value step is stable under more octets. -/
theorem value_step_persists {p : Bytes} (q : Bytes) {s : FieldsState} (hpos : s.Inside p)
    (length : Nat) :
    Persists Truncates (OnStatus same) (valueStep p s length) (valueStep (p ++ q) s length) := by
  unfold FieldsState.Inside at hpos
  have hdrop : (p ++ q).drop s.pos = p.drop s.pos ++ q := List.drop_append_of_le_length hpos
  unfold valueStep
  split
  · exact .inl rfl
  · rename_i hlength
    split
    · exact .inl rfl
    · rename_i htrailer
      have htake := @take_append_front (p.drop s.pos) q length
        (by rw [List.length_drop]; omega)
      rw [List.length_append, if_neg (by omega), if_neg (by omega), hdrop, htake]
      exact Persists.refl _

/-- A decoded element lies in the input. -/
theorem value_step_size {data : Bytes} {s : FieldsState} (hpos : s.Inside data) {length : Nat}
    {decoded : Decoded} (h : valueStep data s length = .ok decoded) :
    decoded.source.size ≤ data.length := by
  unfold FieldsState.Inside at hpos
  unfold valueStep at h
  split at h
  · cases h
  · split at h
    · cases h
    · cases h
      dsimp only
      omega

/-- A decoder whose results survive more input and lie in theirs. -/
structure KeepsDecode (same : Status → Status → Prop)
    (decode : Bytes → FormatResult Decoded) : Prop where
  persists : ∀ p q, Persists Truncates (OnStatus same) (decode p) (decode (p ++ q))
  size : ∀ data decoded, decode data = .ok decoded → decoded.source.size ≤ data.length

/-- Stable fields make a stable decoder. -/
theorem fields_decode_keeps (hf : KeepsFields same f) : KeepsDecode same (fieldsDecode f) := by
  constructor
  · intro p q
    rw [fields_decode_eq_bind, fields_decode_eq_bind]
    refine (header_steps_persists hf p q).bind fun s hs => ?_
    have hpos := header_steps_inside hs
    unfold elementStep
    split
    · split
      · exact Persists.refl _
      · exact value_step_persists q hpos _
    · exact value_step_persists q hpos _
  · intro data decoded h
    unfold fieldsDecode at h
    cases hheader : headerSteps f data with
    | error failed =>
      rw [hheader] at h
      cases h
    | ok s =>
      have hpos := header_steps_inside hheader
      rw [hheader] at h
      dsimp only at h
      split at h
      · split at h
        · cases h
        · exact value_step_size hpos h
      · exact value_step_size hpos h

/-- A tag-only list on top of stable fields. -/
theorem tagged_fields_decode_keeps {f : TaggedFieldsComposition} (hf : KeepsFields same f.fields) :
    KeepsDecode same (taggedFieldsDecode f) := by
  have hfields := fields_decode_keeps hf
  constructor
  · intro p q
    unfold taggedFieldsDecode
    rcases field_persists_cases (hf.tag.persists p q) with
      ⟨tag, hshort, hlong, hconsumed⟩ | hshort | ⟨status, status', hshort, hlong, hstays⟩
    · have hwithin := hf.tag.within _ _ hshort
      simp only [hshort, hlong, hconsumed, read_result_ok, List.length_append]
      by_cases hzero : (f.fields.readTag p).consumed = 0
      · rw [if_pos (.inl hzero), if_pos (.inl hzero)]
        exact Persists.refl _
      · have hinside : ¬ ((f.fields.readTag p).consumed = 0 ∨
            (f.fields.readTag p).consumed > p.length) := by omega
        have hinside' : ¬ ((f.fields.readTag p).consumed = 0 ∨
            (f.fields.readTag p).consumed > p.length + q.length) := by omega
        rw [if_neg hinside, if_neg hinside']
        split
        · exact hfields.persists p q
        · exact Persists.refl _
    · simp only [hshort, read_result_error]
      exact .inl rfl
    · simp only [hshort, hlong, read_result_error]
      exact Persists.errors (Kindred.screened _ _ hstays)
  · intro data decoded h
    unfold taggedFieldsDecode at h
    dsimp only at h
    split at h
    · cases h
    · split at h
      · cases h
      · rename_i hbounds
        split at h
        · exact hfields.size data decoded h
        · cases h
          dsimp only
          omega

omit [Kindred same] in
/-- The added detail of the binary decoders leaves codes and results alone. -/
theorem require_header_keeps (f : BinaryComposition) {decode : Bytes → FormatResult Decoded}
    (h : KeepsDecode same decode) : KeepsDecode same fun data => requireHeader f (decode data) := by
  have herror : ∀ failed : Status × FormatError, ∃ failed' : Status × FormatError,
      requireHeader f (.error failed) = .error failed' ∧ failed'.1 = failed.1 := by
    rintro ⟨status, detail⟩
    cases status
    case truncated =>
      simp only [requireHeader]
      split
      · exact ⟨_, rfl, rfl⟩
      · split <;> exact ⟨_, rfl, rfl⟩
    all_goals exact ⟨_, rfl, rfl⟩
  constructor
  · intro p q
    refine Persists.convert (h.persists p q) (fun decoded _ => rfl) ?_ ?_
    · intro failed hask
      obtain ⟨failed', heq, hstatus⟩ := herror failed
      exact ⟨failed', heq, hstatus.trans hask⟩
    · intro first second hkind
      obtain ⟨first', hfirst, hstatus⟩ := herror first
      obtain ⟨second', hsecond, hstatus'⟩ := herror second
      refine ⟨first', second', hfirst, hsecond, ?_⟩
      unfold OnStatus at hkind ⊢
      rwa [hstatus, hstatus']
  · intro data decoded hdecoded
    cases hdecode : decode data with
    | error failed =>
      obtain ⟨failed', heq, -⟩ := herror failed
      rw [hdecode, heq] at hdecoded
      cases hdecoded
    | ok other =>
      rw [hdecode, require_header_ok] at hdecoded
      obtain rfl := Except.ok.inj hdecoded
      exact h.size data other hdecode

/-- `tlv_format_decode` checks and screens a stable decoder without changing what it says. -/
theorem format_decode_persists {format : Format} {decode : Bytes → FormatResult Decoded}
    (hformat : format.decode = some decode) (h : KeepsDecode same decode) {p : Bytes}
    (hp : p ≠ []) (q : Bytes) :
    Persists Truncates (OnStatus same) (formatDecode format p) (formatDecode format (p ++ q)) := by
  have hlength : p.length ≠ 0 := by simpa using hp
  have hlength' : (p ++ q).length ≠ 0 := by
    rw [List.length_append]
    omega
  simp only [formatDecode, hformat, hlength, hlength', if_false]
  have hpersists := h.persists p q
  cases hshort : decode p with
  | ok decoded =>
    rw [hshort] at hpersists
    have hlong : decode (p ++ q) = .ok decoded := hpersists
    have hsize := h.size p decoded hshort
    have hvalid : decodedValid decoded (p ++ q).length = decodedValid decoded p.length := by
      unfold decodedValid
      dsimp only
      rw [List.length_append, decide_eq_true hsize,
        decide_eq_true (show decoded.source.size ≤ p.length + q.length by omega)]
    rw [hlong]
    dsimp only
    rw [hvalid]
    exact Persists.refl _
  | error failed =>
    obtain ⟨status, detail⟩ := failed
    rw [hshort] at hpersists
    dsimp only
    rcases hpersists with hask | ⟨⟨status', detail'⟩, hlong, hstays⟩
    · exact .inl (read_status_truncated.mpr hask)
    · rw [hlong]
      exact Persists.errors (Kindred.screened _ _ hstays)

end Composition

section Packed

variable {f : PackedLayout}

theorem packed_layout_validate_eq_ok (h : packedLayoutValidate f = .ok ()) :
    f.tag.storageSize = f.headerSize ∧ f.length.storageSize = f.headerSize := by
  unfold packedLayoutValidate at h
  obtain ⟨hsizes, h⟩ := guard_ok.mp h
  exact ⟨by omega, by omega⟩

theorem packed_field_read_append {field : PackedField} {p : Bytes} (q : Bytes)
    (h : field.storageSize ≤ p.length) :
    packedFieldRead field (p ++ q) = packedFieldRead field p := by
  have hlong : ¬ (p ++ q).length < field.storageSize := by
    rw [List.length_append]
    omega
  simp only [packedFieldRead, if_neg hlong, if_neg (Nat.not_lt.mpr h),
    read_uint_append q field.byteOrder h]

/-- A packed element is stable under more octets. -/
theorem packed_element_persists {p : Bytes} (q : Bytes) (h : f.headerSize ≤ p.length)
    (type count : Nat) :
    Persists Truncates (OnStatus same) (packedElement f p type count)
      (packedElement f (p ++ q) type count) := by
  have hdrop : (p ++ q).drop f.headerSize = p.drop f.headerSize ++ q :=
    List.drop_append_of_le_length h
  unfold packedElement
  dsimp only
  split
  · exact .inl rfl
  · rename_i hcount
    have htake := @take_append_front (p.drop f.headerSize) q count
      (by rw [List.length_drop]; omega)
    rw [List.length_append, if_neg (show ¬ count > p.length + q.length - f.headerSize by omega),
      hdrop, htake]
    exact Persists.refl _

/-- A packed layout decodes stably. -/
theorem packed_decode_keeps (hvalid : packedLayoutValidate f = .ok ()) :
    KeepsDecode same (packedDecode f) := by
  obtain ⟨htag, hlength⟩ := packed_layout_validate_eq_ok hvalid
  constructor
  · intro p q
    simp only [packedDecode, hvalid]
    split
    · exact .inl rfl
    · rename_i hheader
      have hlong : ¬ (p ++ q).length < f.headerSize := by
        rw [List.length_append]
        omega
      rw [if_neg hlong, packed_field_read_append q (show f.tag.storageSize ≤ p.length by omega),
        packed_field_read_append q (show f.length.storageSize ≤ p.length by omega)]
      exact (Persists.refl _).bind fun count _ => packed_element_persists q (by omega) _ count
  · intro data decoded h
    simp only [packedDecode, hvalid] at h
    split at h
    · cases h
    · rename_i hheader
      obtain ⟨count, hcount, h⟩ := bind_ok.mp h
      change packedElement f data _ count = .ok decoded at h
      unfold packedElement at h
      dsimp only at h
      split at h
      · cases h
      · split at h
        · cases h
        · cases h
          dsimp only
          omega

end Packed

section Configured

/-- Fixed formats decode stably. -/
theorem fixed_decode_keeps {config : BinaryComposition} {format : Format}
    (h : fixedFormatInit config = .ok format) :
    ∃ decode, format.decode = some decode ∧ KeepsDecode same decode := by
  unfold fixedFormatInit at h
  split at h
  · cases h
  · rename_i hidentifier
    split at h
    · cases h
    · rename_i hlength
      split at h
      · cases h
      · cases h
        exact ⟨_, rfl, require_header_keeps config (fields_decode_keeps
          ⟨fixed_identifier_keeps hidentifier, fixed_length_keeps hlength,
            fun _ hresolve => by cases hresolve⟩)⟩

/-- Variable formats decode stably. -/
theorem variable_decode_keeps {config : VariableFormat} {format : Format}
    (hsize : same .invalidTagSize .invalidTag ∨ config.identifier.maxSize ≠ 1)
    (h : variableFormatInit config = .ok format) :
    ∃ decode, format.decode = some decode ∧ KeepsDecode same decode := by
  unfold variableFormatInit at h
  split at h
  · cases h
  · rename_i fields hfields
    unfold variableFieldsInit at hfields
    split at hfields
    · cases hfields
    · rename_i hidentifier
      split at hfields
      · cases hfields
      · rename_i hlength
        cases h
        exact ⟨_, rfl, fields_decode_keeps ⟨variable_identifier_keeps hidentifier hsize,
          variable_length_keeps hlength, fun _ hresolve => by cases hresolve⟩⟩

/-- Escaped formats decode stably. -/
theorem escaped_decode_keeps {config : EscapedFormat} {format : Format}
    (h : escapedFormatInit config = .ok format) :
    ∃ decode, format.decode = some decode ∧ KeepsDecode same decode := by
  unfold escapedFormatInit at h
  split at h
  · cases h
  · rename_i hidentifier
    split at h
    · cases h
    · rename_i hlength
      split at h
      · cases h
      · split at h
        · cases h
        · cases h
          have hfields : KeepsFields same (escapedFields config).fields :=
            ⟨fixed_identifier_keeps hidentifier, escaped_length_keeps hlength,
              fun _ hresolve => by cases hresolve⟩
          refine ⟨_, rfl, ?_⟩
          by_cases hlist : config.tagOnly.length ≠ 0
          · have heq : escapedDecode config = taggedFieldsDecode (escapedFields config) := by
              funext data
              rw [escapedDecode, if_pos hlist]
            rw [heq]
            exact tagged_fields_decode_keeps hfields
          · have heq : escapedDecode config = fieldsDecode (escapedFields config).fields := by
              funext data
              rw [escapedDecode, if_neg hlist]
            rw [heq]
            exact fields_decode_keeps hfields

/-- Tagged binary formats decode stably. -/
theorem tagged_binary_decode_keeps {config : TaggedBinaryComposition} {format : Format}
    (h : taggedBinaryFormatInit config = .ok format) :
    ∃ decode, format.decode = some decode ∧ KeepsDecode same decode := by
  unfold taggedBinaryFormatInit at h
  split at h
  · cases h
  · rename_i hidentifier
    split at h
    · cases h
    · rename_i hlength
      split at h
      · cases h
      · split at h
        · cases h
        · cases h
          exact ⟨_, rfl, require_header_keeps config.fields (tagged_fields_decode_keeps
            ⟨fixed_identifier_keeps hidentifier, fixed_length_keeps hlength,
              fun _ hresolve => by cases hresolve⟩)⟩

/-- Every accepted configuration decodes stably. -/
theorem configuration_decode_keeps {configuration : Configuration} {format : Format}
    (hsize : ∀ config, configuration = .variableWidth config →
      same .invalidTagSize .invalidTag ∨ config.identifier.maxSize ≠ 1)
    (h : configuration.init = .ok format) :
    ∃ decode, format.decode = some decode ∧ KeepsDecode same decode := by
  cases configuration with
  | fixed config => exact fixed_decode_keeps h
  | variableWidth config => exact variable_decode_keeps (hsize config rfl) h
  | escaped config => exact escaped_decode_keeps h
  | taggedBinary config => exact tagged_binary_decode_keeps h

end Configured

end OpenTlv
