import OpenTlv.Builtins.Lldp

/-!
# LLDP codecs are bijective

`Kind.wire` lists the octets of a representation and `Kind.Valid` says which representations a
codec admits. The decoder accepts exactly the wire octets of admitted representations, and the
encoder stores exactly these octets, both without an access outside an extent.
-/

namespace OpenTlv

namespace Lldp

/-- The two octets of a 16-bit field. -/
def octets16 (value : UInt16) : Bytes :=
  [(value >>> 8).toUInt8, value.toUInt8]

/-- The four octets of a 32-bit field. -/
def octets32 (value : UInt32) : Bytes :=
  [(value >>> 24).toUInt8, (value >>> 16).toUInt8, (value >>> 8).toUInt8, value.toUInt8]

/-- The octets of a representation. -/
def Kind.wire : (kind : Kind) → kind.Representation → Bytes
  | .chassis, value => value.subtype :: value.identifier
  | .port, value => value.subtype :: value.identifier
  | .capabilities, value => octets16 value.supported ++ octets16 value.enabled
  | .management, value =>
    [UInt8.ofNat (value.address.length + 1), value.addressSubtype] ++ (value.address ++
      ([value.interfaceSubtype] ++ (octets32 value.interfaceNumber ++
        ([UInt8.ofNat value.oid.length] ++ value.oid))))
  | .organisation, value =>
    [value.oui.1, value.oui.2.1, value.oui.2.2, value.subtype] ++ value.payload

/-- The representations of identifiers that the codecs of a kind admit. -/
def IdValid (kind : Kind) (value : Id) : Prop :=
  value.identifier.length ≤ sizeMax - 1 ∧
    idValid kind value.subtype value.identifier = .ok true

/-- The representations that a codec admits. -/
def Kind.Valid : (kind : Kind) → kind.Representation → Prop
  | .chassis, value => IdValid .chassis value
  | .port, value => IdValid .port value
  | .capabilities, value => value.enabled &&& ~~~value.supported = 0
  | .management, value =>
    value.address.length ≤ 31 ∧ value.oid.length ≤ 128 ∧
      addressValid value.addressSubtype value.address.length = true ∧
      ¬ (value.interfaceSubtype < 1 ∨ value.interfaceSubtype > 3)
  | .organisation, value => value.payload.length ≤ sizeMax - 4

/-- A 16-bit field is read back from its octets. -/
theorem join_octets16 (value : UInt16) :
    (value >>> 8).toUInt8.toUInt16 <<< 8 ||| value.toUInt8.toUInt16 = value := by
  apply UInt16.toBitVec_inj.mp
  ext i hi
  simp [-UInt16.toUInt16_toUInt8]
  grind

/-- Two octets are what a 16-bit field read from them is stored as. -/
theorem octets16_join (high low : UInt8) :
    octets16 (high.toUInt16 <<< 8 ||| low.toUInt16) = [high, low] := by
  have hhigh : ((high.toUInt16 <<< 8 ||| low.toUInt16) >>> 8).toUInt8 = high := by
    apply UInt8.toBitVec_inj.mp
    ext i hi
    simp
    grind
  have hlow : (high.toUInt16 <<< 8 ||| low.toUInt16).toUInt8 = low := by
    apply UInt8.toBitVec_inj.mp
    ext i hi
    simp
  unfold octets16
  rw [hhigh, hlow]

/-- A 32-bit field is read back from its octets. -/
theorem join_octets32 (value : UInt32) :
    (value >>> 24).toUInt8.toUInt32 <<< 24 ||| (value >>> 16).toUInt8.toUInt32 <<< 16 |||
      (value >>> 8).toUInt8.toUInt32 <<< 8 ||| value.toUInt8.toUInt32 = value := by
  apply UInt32.toBitVec_inj.mp
  ext i hi
  simp [-UInt32.toUInt32_toUInt8]
  grind

/-- Four octets are what a 32-bit field read from them is stored as. -/
theorem octets32_join (b0 b1 b2 b3 : UInt8) :
    octets32 (b0.toUInt32 <<< 24 ||| b1.toUInt32 <<< 16 ||| b2.toUInt32 <<< 8 |||
      b3.toUInt32) = [b0, b1, b2, b3] := by
  unfold octets32
  simp only [List.cons.injEq, and_true]
  refine ⟨?_, ?_, ?_, ?_⟩
  all_goals
    apply UInt8.toBitVec_inj.mp
    ext i hi
    simp
  all_goals grind

@[simp] theorem octets16_length (value : UInt16) : (octets16 value).length = 2 := rfl

@[simp] theorem octets32_length (value : UInt32) : (octets32 value).length = 4 := rfl

/-- Checking an identifier reads inside it. -/
theorem id_valid_total (kind : Kind) (subtype : UInt8) (p : Bytes) :
    ∃ valid, idValid kind subtype p = .ok valid := by
  unfold idValid
  split
  · exact ⟨_, rfl⟩
  split
  · exact ⟨_, rfl⟩
  split
  · split
    · exact ⟨_, rfl⟩
    next hlength =>
      obtain ⟨first, rest, rfl⟩ : ∃ first rest, p = first :: rest := by
        cases p with
        | nil => simp at hlength
        | cons first rest => exact ⟨first, rest, rfl⟩
      exact ⟨_, rfl⟩
  · exact ⟨_, rfl⟩

/-- No admitted identifier is empty. -/
theorem id_valid_ne_nil {kind : Kind} {subtype : UInt8} {p : Bytes}
    (h : idValid kind subtype p = .ok true) : p ≠ [] := by
  intro hnil
  subst p
  simp [idValid] at h

/-! ## Decoding -/

/-- A value is returned when its destination is large enough. -/
theorem return_value_eq_ok {α : Type} {size capacity : Nat} {result value : α} :
    returnValue size capacity result = .ok value ↔ size ≤ capacity ∧ result = value := by
  unfold returnValue
  split
  · simp
    omega
  · simp
    omega

theorem return_value_ne_fault {α : Type} (size capacity : Nat) (result : α) :
    returnValue size capacity result ≠ .error .fault := by
  unfold returnValue
  split <;> simp

/-- What the decoder of identifiers makes of at least two octets. -/
theorem decode_id_cons (kind : Kind) (subtype : UInt8) {identifier : Bytes} (capacity : Nat)
    (hnil : identifier ≠ []) :
    decodeId kind (subtype :: identifier) capacity = (do
      let valid ← idValid kind subtype identifier
      if valid then returnValue kind.representationSize capacity ⟨subtype, identifier⟩
      else .error (.code .invalidValue)) := by
  have hlength : ¬ (subtype :: identifier).length < 2 := by
    have := List.length_pos_of_ne_nil hnil
    simp only [List.length_cons]
    omega
  have hslice := @Guarded.slice_rest Status [subtype] identifier 1
    ((subtype :: identifier).length - 1) rfl rfl
  have hoctet := @Guarded.octet_behind Status [] subtype identifier 0 rfl
  unfold decodeId
  rw [if_neg hlength]
  change (Guarded.octet (subtype :: identifier) 0 >>= _) = _
  rw [show Guarded.octet (subtype :: identifier) 0 = Except.ok subtype from hoctet]
  change (Guarded.slice (subtype :: identifier) 1 _ >>= _) = _
  rw [show Guarded.slice (subtype :: identifier) 1 ((subtype :: identifier).length - 1) =
    Except.ok identifier from hslice]
  rfl

/-- An identifier decodes exactly from its octets. -/
theorem decode_id_iff (kind : Kind) (data : Bytes) (capacity : Nat) (value : Id) :
    decodeId kind data capacity = .ok value ↔
      data = value.subtype :: value.identifier ∧
        idValid kind value.subtype value.identifier = .ok true ∧
        kind.representationSize ≤ capacity := by
  constructor
  · intro h
    match data, h with
    | [], h => simp [decodeId] at h
    | [_], h => simp [decodeId] at h
    | subtype :: next :: rest, h =>
      rw [decode_id_cons kind subtype capacity (List.cons_ne_nil next rest)] at h
      obtain ⟨valid, hvalid⟩ := id_valid_total kind subtype (next :: rest)
      rw [hvalid] at h
      cases valid with
      | false => cases h
      | true =>
        obtain ⟨hcapacity, rfl⟩ := return_value_eq_ok.mp h
        exact ⟨rfl, hvalid, hcapacity⟩
  · intro h
    obtain ⟨hdata, hvalid, hcapacity⟩ := h
    rw [hdata, decode_id_cons kind _ capacity (id_valid_ne_nil hvalid), hvalid]
    exact return_value_eq_ok.mpr ⟨hcapacity, rfl⟩

theorem decode_id_ne_fault (kind : Kind) (data : Bytes) (capacity : Nat) :
    decodeId kind data capacity ≠ .error .fault := by
  match data with
  | [] => simp [decodeId]
  | [_] => simp [decodeId]
  | subtype :: next :: rest =>
    rw [decode_id_cons kind subtype capacity (List.cons_ne_nil next rest)]
    obtain ⟨valid, hvalid⟩ := id_valid_total kind subtype (next :: rest)
    rw [hvalid]
    cases valid with
    | false => exact fun h => by cases h
    | true => exact return_value_ne_fault _ _ _

/-- What the decoder of capabilities makes of four octets. -/
theorem decode_capabilities_four (b0 b1 b2 b3 : UInt8) (capacity : Nat) :
    decodeCapabilities [b0, b1, b2, b3] capacity =
      (if (b2.toUInt16 <<< 8 ||| b3.toUInt16) &&& ~~~(b0.toUInt16 <<< 8 ||| b1.toUInt16) ≠ 0 then
        .error (.code .invalidValue)
      else returnValue (Kind.representationSize .capabilities) capacity
        ⟨b0.toUInt16 <<< 8 ||| b1.toUInt16, b2.toUInt16 <<< 8 ||| b3.toUInt16⟩) := rfl

/-- Capabilities decode exactly from their octets. -/
theorem decode_capabilities_iff (data : Bytes) (capacity : Nat) (value : Capabilities) :
    decodeCapabilities data capacity = .ok value ↔
      data = octets16 value.supported ++ octets16 value.enabled ∧
        value.enabled &&& ~~~value.supported = 0 ∧
        Kind.representationSize .capabilities ≤ capacity := by
  constructor
  · intro h
    have hlength : data.length = 4 := by
      by_contra hlength
      unfold decodeCapabilities at h
      rw [if_pos hlength] at h
      cases h
    match data, hlength, h with
    | [b0, b1, b2, b3], _, h =>
      rw [decode_capabilities_four] at h
      obtain ⟨hsubset, h⟩ := guard_ok.mp h
      obtain ⟨hcapacity, rfl⟩ := return_value_eq_ok.mp h
      refine ⟨?_, not_not.mp hsubset, hcapacity⟩
      rw [octets16_join, octets16_join]
      rfl
  · intro h
    obtain ⟨rfl, hsubset, hcapacity⟩ := h
    change decodeCapabilities [_, _, _, _] capacity = _
    rw [decode_capabilities_four, join_octets16, join_octets16, if_neg (not_not.mpr hsubset)]
    exact return_value_eq_ok.mpr ⟨hcapacity, rfl⟩

theorem decode_capabilities_ne_fault (data : Bytes) (capacity : Nat) :
    decodeCapabilities data capacity ≠ .error .fault := by
  by_cases hlength : data.length = 4
  · match data, hlength with
    | [b0, b1, b2, b3], _ =>
      rw [decode_capabilities_four]
      split
      · simp
      · exact return_value_ne_fault _ _ _
  · unfold decodeCapabilities
    rw [if_pos hlength]
    simp

/-- The length octets of a management address say where its parts stand. -/
theorem management_shape {data : Bytes} (hlength : 9 ≤ data.length) :
    ∃ first addressSubtype rest, data = first :: addressSubtype :: rest ∧
      (2 ≤ first.toNat → first.toNat ≤ data.length - 7 →
        ∃ address interfaceSubtype b0 b1 b2 b3 last oid,
          rest = address ++ ([interfaceSubtype] ++ ([b0, b1, b2, b3] ++ ([last] ++ oid))) ∧
            address.length + 1 = first.toNat) := by
  match data, hlength with
  | first :: addressSubtype :: rest, hlength =>
    refine ⟨first, addressSubtype, rest, rfl, fun hleast hmost => ?_⟩
    simp only [List.length_cons] at hlength hmost
    have htail : 6 ≤ (rest.drop (first.toNat - 1)).length := by
      rw [List.length_drop]
      omega
    have hsplit := List.take_append_drop (first.toNat - 1) rest
    have haddress : (rest.take (first.toNat - 1)).length + 1 = first.toNat := by
      rw [List.length_take]
      omega
    match hdrop : rest.drop (first.toNat - 1), htail with
    | interfaceSubtype :: b0 :: b1 :: b2 :: b3 :: last :: oid, _ =>
      rw [hdrop] at hsplit
      exact ⟨_, interfaceSubtype, b0, b1, b2, b3, last, oid, hsplit.symm, haddress⟩

/-- What the decoder of management addresses makes of octets whose parts are known. -/
theorem decode_management_parts {first addressSubtype : UInt8} {address : Bytes}
    (interfaceSubtype b0 b1 b2 b3 last : UInt8) (oid : Bytes) (capacity : Nat)
    (hnil : address ≠ []) (hfirst : address.length + 1 = first.toNat) :
    decodeManagement (first :: addressSubtype ::
        (address ++ ([interfaceSubtype] ++ ([b0, b1, b2, b3] ++ ([last] ++ oid))))) capacity =
      (if address.length > 31 then .error (.code .invalidValue)
      else if !addressValid addressSubtype address.length then .error (.code .invalidValue)
      else if interfaceSubtype < 1 ∨ interfaceSubtype > 3 then .error (.code .invalidValue)
      else if last.toNat > 128 ∨ last.toNat ≠ oid.length then .error (.code .invalidValue)
      else returnValue (Kind.representationSize .management) capacity
        ⟨addressSubtype, address, interfaceSubtype,
          b0.toUInt32 <<< 24 ||| b1.toUInt32 <<< 16 ||| b2.toUInt32 <<< 8 ||| b3.toUInt32,
          oid⟩) := by
  have hpositive := List.length_pos_of_ne_nil hnil
  generalize hdata : first :: addressSubtype ::
    (address ++ ([interfaceSubtype] ++ ([b0, b1, b2, b3] ++ ([last] ++ oid)))) = data
  have hlength : data.length = address.length + oid.length + 8 := by
    rw [← hdata]
    simp only [List.length_cons, List.length_append, List.length_nil]
    omega
  have hread : ∀ (front rest : Bytes) (value : UInt8) (index : Nat),
      data = front ++ value :: rest → front.length = index →
      (Guarded.octet data index : CodecResult UInt8) = .ok value := by
    intro front rest value index hsplit hindex
    rw [hsplit]
    exact Guarded.octet_behind front value rest hindex
  have h0 := hread [] _ first 0 hdata.symm rfl
  have h1 := hread [first] _ addressSubtype 1 hdata.symm rfl
  have haddress : (Guarded.slice data 2 address.length : CodecResult Bytes) = .ok address := by
    rw [← hdata]
    exact Guarded.slice_behind [first, addressSubtype] address _ rfl rfl
  have hfront : ∀ parts rest : Bytes,
      [interfaceSubtype] ++ ([b0, b1, b2, b3] ++ ([last] ++ oid)) = parts ++ rest →
      data = (first :: addressSubtype :: (address ++ parts)) ++ rest := by
    intro parts rest hparts
    rw [← hdata, hparts]
    simp
  have hinterface := hread _ _ interfaceSubtype (address.length + 2) (hfront [] _ rfl) (by simp)
  have hb0 := hread _ _ b0 (address.length + 3) (hfront [interfaceSubtype] _ rfl) (by simp)
  have hb1 := hread _ _ b1 (address.length + 4) (hfront [interfaceSubtype, b0] _ rfl) (by simp)
  have hb2 := hread _ _ b2 (address.length + 5) (hfront [interfaceSubtype, b0, b1] _ rfl)
    (by simp)
  have hb3 := hread _ _ b3 (address.length + 6) (hfront [interfaceSubtype, b0, b1, b2] _ rfl)
    (by simp)
  have hlast := hread _ _ last (address.length + 7)
    (hfront [interfaceSubtype, b0, b1, b2, b3] _ rfl) (by simp)
  have hoid : (Guarded.slice data (address.length + 8) oid.length : CodecResult Bytes) =
      .ok oid := by
    rw [hfront [interfaceSubtype, b0, b1, b2, b3, last] oid rfl]
    exact Guarded.slice_rest _ oid (by simp) rfl
  have hoffset : 1 + (address.length + 1) = address.length + 2 := by omega
  have hrest : data.length - (address.length + 2) - 6 = oid.length := by omega
  unfold decodeManagement
  rw [if_neg (show ¬ data.length < 9 by omega)]
  simp only [h0, h1, ← hfirst, bind, Except.bind, hoffset, Nat.add_sub_cancel, haddress,
    Nat.add_assoc, Nat.reduceAdd, hinterface, hb0, hb1, hb2, hb3, hlast, hrest]
  by_cases hmost : address.length > 31
  · rw [if_pos hmost, if_pos (by omega)]
  rw [if_neg hmost, if_neg (by omega)]
  by_cases hlengths : last.toNat > 128 ∨ last.toNat ≠ oid.length
  · simp only [if_pos hlengths]
  have hequal : last.toNat = oid.length := by omega
  simp only [if_neg hlengths]
  rw [hequal, hoid]

/-- A management address decodes exactly from its octets. -/
theorem decode_management_iff (data : Bytes) (capacity : Nat) (value : ManagementAddress) :
    decodeManagement data capacity = .ok value ↔
      data = Kind.wire .management value ∧ Kind.Valid .management value ∧
        Kind.representationSize .management ≤ capacity := by
  constructor
  · intro h
    have hlength : ¬ data.length < 9 := by
      intro hshort
      unfold decodeManagement at h
      rw [if_pos hshort] at h
      cases h
    obtain ⟨first, addressSubtype, rest, hdata, hparts⟩ :=
      @management_shape data (by omega)
    have hbounds : 2 ≤ first.toNat ∧ first.toNat ≤ data.length - 7 := by
      by_contra hbounds
      unfold decodeManagement at h
      rw [if_neg hlength, hdata] at h
      change (if _ then _ else _) = _ at h
      rw [hdata] at hbounds
      rw [if_pos (by omega)] at h
      cases h
    obtain ⟨address, interfaceSubtype, b0, b1, b2, b3, last, oid, hrest, hfirst⟩ :=
      hparts hbounds.1 hbounds.2
    have hnil : address ≠ [] := by
      intro hnil
      rw [hnil] at hfirst
      simp at hfirst
      omega
    rw [hdata, hrest, decode_management_parts interfaceSubtype b0 b1 b2 b3 last oid capacity hnil
      hfirst] at h
    obtain ⟨hmost, h⟩ := guard_ok.mp h
    obtain ⟨hvalid, h⟩ := guard_ok.mp h
    obtain ⟨hinterface, h⟩ := guard_ok.mp h
    obtain ⟨hlengths, h⟩ := guard_ok.mp h
    obtain ⟨hcapacity, rfl⟩ := return_value_eq_ok.mp h
    refine ⟨?_, ⟨by simpa using hmost, ?_, by simpa using hvalid, hinterface⟩,
      hcapacity⟩
    · have hlast : UInt8.ofNat oid.length = last := by
        apply UInt8.toNat_inj.mp
        rw [UInt8.toNat_ofNat']
        omega
      have hcount : UInt8.ofNat (address.length + 1) = first := by
        rw [hfirst]
        simp
      rw [hdata, hrest]
      show _ = [UInt8.ofNat (address.length + 1), addressSubtype] ++ (address ++
        ([interfaceSubtype] ++ (octets32 _ ++ ([UInt8.ofNat oid.length] ++ oid))))
      rw [octets32_join, hlast, hcount]
      rfl
    · show oid.length ≤ 128
      omega
  · intro h
    obtain ⟨hdata, ⟨hmost, hoid, hvalid, hinterface⟩, hcapacity⟩ := h
    have hnil : value.address ≠ [] := by
      intro hnil
      simp [hnil, addressValid] at hvalid
    have hfirst : value.address.length + 1 = (UInt8.ofNat (value.address.length + 1)).toNat := by
      rw [UInt8.toNat_ofNat']
      omega
    have hlast : (UInt8.ofNat value.oid.length).toNat = value.oid.length := by
      rw [UInt8.toNat_ofNat']
      omega
    have hparts := @decode_management_parts _ value.addressSubtype _
      value.interfaceSubtype (value.interfaceNumber >>> 24).toUInt8
      (value.interfaceNumber >>> 16).toUInt8 (value.interfaceNumber >>> 8).toUInt8
      value.interfaceNumber.toUInt8 (UInt8.ofNat value.oid.length) value.oid capacity hnil hfirst
    rw [if_neg (by omega), if_neg (by simp [hvalid]), if_neg hinterface, if_neg (by omega),
      join_octets32] at hparts
    rw [hdata]
    exact hparts.trans (return_value_eq_ok.mpr ⟨hcapacity, rfl⟩)

/-- Decoding a management address stays inside its octets. -/
theorem decode_management_ne_fault (data : Bytes) (capacity : Nat) :
    decodeManagement data capacity ≠ .error .fault := by
  by_cases hlength : data.length < 9
  · unfold decodeManagement
    rw [if_pos hlength]
    simp
  obtain ⟨first, addressSubtype, rest, hdata, hparts⟩ := @management_shape data (by omega)
  by_cases hbounds : 2 ≤ first.toNat ∧ first.toNat ≤ data.length - 7
  · obtain ⟨address, interfaceSubtype, b0, b1, b2, b3, last, oid, hrest, hfirst⟩ :=
      hparts hbounds.1 hbounds.2
    have hnil : address ≠ [] := by
      intro hnil
      rw [hnil] at hfirst
      simp at hfirst
      omega
    rw [hdata, hrest, decode_management_parts interfaceSubtype b0 b1 b2 b3 last oid capacity hnil
      hfirst]
    split
    · simp
    split
    · simp
    split
    · simp
    split
    · simp
    · exact return_value_ne_fault _ _ _
  · unfold decodeManagement
    rw [if_neg hlength, hdata]
    change (if _ then _ else _) ≠ _
    rw [hdata] at hbounds
    rw [if_pos (by omega)]
    simp

/-- What the decoder of organisationally specific strings makes of at least four octets. -/
theorem decode_organisation_parts (first second third subtype : UInt8) (payload : Bytes)
    (capacity : Nat) :
    decodeOrganisation (first :: second :: third :: subtype :: payload) capacity =
      returnValue (Kind.representationSize .organisation) capacity
        ⟨(first, second, third), subtype, payload⟩ := by
  have hpayload := @Guarded.slice_rest Status [first, second, third, subtype] payload 4
    ((first :: second :: third :: subtype :: payload).length - 4) rfl rfl
  have hlength : ¬ (first :: second :: third :: subtype :: payload).length < 4 := by
    simp only [List.length_cons]
    omega
  unfold decodeOrganisation
  rw [if_neg hlength]
  change (Guarded.slice ([first, second, third, subtype] ++ payload) 4 _ >>= _) = _
  rw [hpayload]
  rfl

/-- An organisation value decodes exactly from its octets. -/
theorem decode_organisation_iff (data : Bytes) (capacity : Nat) (value : Organisation) :
    decodeOrganisation data capacity = .ok value ↔
      data = Kind.wire .organisation value ∧
        Kind.representationSize .organisation ≤ capacity := by
  constructor
  · intro h
    match data, h with
    | [], h => simp [decodeOrganisation] at h
    | [_], h => simp [decodeOrganisation] at h
    | [_, _], h => simp [decodeOrganisation] at h
    | [_, _, _], h => simp [decodeOrganisation] at h
    | first :: second :: third :: subtype :: payload, h =>
      rw [decode_organisation_parts] at h
      obtain ⟨hcapacity, rfl⟩ := return_value_eq_ok.mp h
      exact ⟨rfl, hcapacity⟩
  · intro h
    obtain ⟨rfl, hcapacity⟩ := h
    exact (decode_organisation_parts _ _ _ _ _ capacity).trans
      (return_value_eq_ok.mpr ⟨hcapacity, rfl⟩)

theorem decode_organisation_ne_fault (data : Bytes) (capacity : Nat) :
    decodeOrganisation data capacity ≠ .error .fault := by
  match data with
  | [] => simp [decodeOrganisation]
  | [_] => simp [decodeOrganisation]
  | [_, _] => simp [decodeOrganisation]
  | [_, _, _] => simp [decodeOrganisation]
  | first :: second :: third :: subtype :: payload =>
    rw [decode_organisation_parts]
    exact return_value_ne_fault _ _ _

/-- The decoder reads inside its input. -/
theorem decode_ne_fault (kind : Kind) (data : Bytes) (capacity : Nat) :
    decode kind data capacity ≠ .error .fault := by
  cases kind with
  | chassis => exact decode_id_ne_fault .chassis data capacity
  | port => exact decode_id_ne_fault .port data capacity
  | capabilities => exact decode_capabilities_ne_fault data capacity
  | management => exact decode_management_ne_fault data capacity
  | organisation => exact decode_organisation_ne_fault data capacity

/-- The decoder accepts the wire octets of admitted representations and no others. -/
theorem decode_iff (kind : Kind) {data : Bytes} (capacity : Nat) (value : kind.Representation)
    (hsize : data.length ≤ sizeMax) :
    decode kind data capacity = .ok value ↔
      data = kind.wire value ∧ kind.Valid value ∧ kind.representationSize ≤ capacity := by
  have hid : ∀ kind : Kind, ∀ value : Id,
      decodeId kind data capacity = .ok value ↔
        data = value.subtype :: value.identifier ∧ IdValid kind value ∧
          kind.representationSize ≤ capacity := by
    intro kind value
    rw [decode_id_iff]
    constructor
    · intro h
      obtain ⟨hdata, hvalid, hcapacity⟩ := h
      have hlength := congrArg List.length hdata
      rw [List.length_cons] at hlength
      exact ⟨hdata, ⟨by omega, hvalid⟩, hcapacity⟩
    · intro h
      exact ⟨h.1, h.2.1.2, h.2.2⟩
  cases kind with
  | chassis => exact hid .chassis value
  | port => exact hid .port value
  | capabilities => exact decode_capabilities_iff data capacity value
  | management => exact decode_management_iff data capacity value
  | organisation =>
    refine (decode_organisation_iff data capacity value).trans ?_
    constructor
    · intro h
      have hlength := congrArg List.length h.1
      have hpayload : value.payload.length ≤ sizeMax - 4 := by
        simp only [Kind.wire, List.length_append, List.length_cons, List.length_nil] at hlength
        omega
      exact ⟨h.1, hpayload, h.2⟩
    · intro h
      exact ⟨h.1, h.2.2⟩

/-! ## Encoding -/

theorem span_size_of_le {value : Bytes} {max : Nat} (h : value.length ≤ max) :
    spanSize value max = .ok value.length :=
  if_neg (by omega)

theorem span_size_of_gt {value : Bytes} {max : Nat} (h : ¬ value.length ≤ max) :
    spanSize value max = .error (.code .invalidValue) :=
  if_pos (by omega)

/-- The encoder of admitted identifiers. -/
theorem encode_id_of_valid {kind : Kind} {value : Id} (destination : Option Bytes)
    (h : IdValid kind value) :
    encodeId kind value destination = stored (value.subtype :: value.identifier) destination := by
  have hcount : 1 + value.identifier.length = (value.subtype :: value.identifier).length := by
    simp only [List.length_cons]
    omega
  unfold encodeId
  simp only [span_size_of_le h.1, h.2, bind, Except.bind, Bool.not_true, Bool.false_eq_true,
    if_false, hcount]
  cases destination with
  | none => rfl
  | some data =>
    unfold stored
    by_cases hroom : data.length < (value.subtype :: value.identifier).length
    · simp only [if_pos hroom]
    · have hlength : 1 + value.identifier.length ≤ data.length := by omega
      have hfirst := @Guarded.put_first Status data [value.subtype] (by simp; omega)
      have hsecond := @Guarded.put_store Status data [value.subtype] value.identifier 1 rfl
        hlength
      simp only [if_neg hroom, hfirst, hsecond]
      rfl

/-- The encoder of other identifiers. -/
theorem encode_id_of_not_valid {kind : Kind} {value : Id} (destination : Option Bytes)
    (h : ¬ IdValid kind value) :
    encodeId kind value destination = .error (.code .invalidValue) := by
  unfold encodeId
  by_cases hspan : value.identifier.length ≤ sizeMax - 1
  · obtain ⟨valid, hvalid⟩ := id_valid_total kind value.subtype value.identifier
    rw [span_size_of_le hspan, hvalid]
    cases valid with
    | false => rfl
    | true => exact absurd ⟨hspan, hvalid⟩ h
  · rw [span_size_of_gt hspan]
    rfl

/-- The encoder of organisationally specific strings whose payload leaves room for the front. -/
theorem encode_organisation_of_valid {value : Organisation} (destination : Option Bytes)
    (h : value.payload.length ≤ sizeMax - 4) :
    encodeOrganisation value destination =
      stored (Kind.wire .organisation value) destination := by
  have hcount : 4 + value.payload.length = (Kind.wire .organisation value).length := by
    simp only [Kind.wire, List.length_append, List.length_cons, List.length_nil]
  unfold encodeOrganisation
  simp only [span_size_of_le h, bind, Except.bind, hcount]
  cases destination with
  | none => rfl
  | some data =>
    unfold stored
    by_cases hroom : data.length < (Kind.wire .organisation value).length
    · simp only [if_pos hroom]
    · have hlength : 4 + value.payload.length ≤ data.length := by omega
      have hfirst := @Guarded.put_first Status data
        [value.oui.1, value.oui.2.1, value.oui.2.2] (by simp; omega)
      have hsecond := @Guarded.put_store Status data
        [value.oui.1, value.oui.2.1, value.oui.2.2] [value.subtype] 3 rfl (by simp; omega)
      have hthird := @Guarded.put_store Status data
        ([value.oui.1, value.oui.2.1, value.oui.2.2] ++ [value.subtype]) value.payload 4 rfl
        hlength
      simp only [if_neg hroom, hfirst, hsecond, hthird]
      by_cases hpayload : value.payload.length ≠ 0
      · rw [if_pos hpayload]
        rfl
      · have hnil : value.payload = [] := by simpa using hpayload
        rw [if_neg hpayload]
        simp [Kind.wire, hnil, pure, Except.pure]

/-- What is staged reaches the destination. -/
theorem emit_staged_store {wire bytes : Bytes} {length : Nat} (destination : Option Bytes)
    (hlength : bytes.length = length) :
    emitStaged (Octets.store wire 0 bytes) length destination = stored bytes destination := by
  subst length
  cases destination with
  | none => rfl
  | some data =>
    unfold emitStaged stored
    by_cases hroom : data.length < bytes.length
    · simp only [if_pos hroom]
    · simp only [if_neg hroom]
      by_cases hempty : bytes.length ≠ 0
      · rw [if_pos hempty, Guarded.slice_store]
        change (Guarded.put data 0 bytes >>= _) = _
        rw [Guarded.put_first (by omega)]
        rfl
      · have hnil : bytes = [] := by simpa using hempty
        rw [if_neg hempty, hnil, Guarded.store_nil]

/-- Valid capabilities are staged as their octets. -/
theorem stage_capabilities_of_valid {value : Capabilities} {wire : Bytes}
    (hwire : wire.length = wireSize) (h : value.enabled &&& ~~~value.supported = 0) :
    stageCapabilities value wire =
      .ok (Octets.store wire 0 (Kind.wire .capabilities value), 4) := by
  have hsize : wire.length = 167 := hwire
  have h0 := @Guarded.put_first Status wire [(value.supported >>> 8).toUInt8] (by simp; omega)
  have h1 := @Guarded.put_store Status wire [(value.supported >>> 8).toUInt8]
    [value.supported.toUInt8] 1 rfl (by simp; omega)
  have h2 := @Guarded.put_store Status wire (octets16 value.supported)
    [(value.enabled >>> 8).toUInt8] 2 rfl (by simp; omega)
  have h3 := @Guarded.put_store Status wire (octets16 value.supported ++
    [(value.enabled >>> 8).toUInt8]) [value.enabled.toUInt8] 3 rfl (by simp; omega)
  unfold stageCapabilities writeU16Be
  rw [if_neg (not_not.mpr h), h0]
  change (Guarded.put _ 1 _ >>= _) = _
  rw [h1]
  change ((Guarded.put _ 2 _ >>= _) >>= _) = _
  rw [show [(value.supported >>> 8).toUInt8] ++ [value.supported.toUInt8] =
    octets16 value.supported from rfl, h2]
  change (Guarded.put _ 3 _ >>= _) = _
  rw [h3]
  rfl

/-- A valid management address is staged as its octets. -/
theorem stage_management_of_valid {value : ManagementAddress} {wire : Bytes}
    (hwire : wire.length = wireSize) (h : Kind.Valid .management value) :
    stageManagement value wire =
      .ok (Octets.store wire 0 (Kind.wire .management value),
        (Kind.wire .management value).length) := by
  obtain ⟨haddress, hoid, hvalid, hinterface⟩ := h
  have hsize : wire.length = 167 := hwire
  have hlength : (Kind.wire .management value).length =
      value.address.length + 2 + 6 + value.oid.length := by
    simp only [Kind.wire, List.length_append, List.length_cons, List.length_nil, octets32_length]
    omega
  have hcheck : ¬ ((!addressValid value.addressSubtype value.address.length) = true ∨
      value.interfaceSubtype < 1 ∨ value.interfaceSubtype > 3) := by
    rw [hvalid]
    simpa using hinterface
  -- The staging area fills from the front, one field behind the other.
  let f1 := [UInt8.ofNat (value.address.length + 1)]
  let f2 := f1 ++ [value.addressSubtype]
  let f3 := f2 ++ value.address
  let f4 := f3 ++ [value.interfaceSubtype]
  let f5 := f4 ++ [(value.interfaceNumber >>> 24).toUInt8]
  let f6 := f5 ++ [(value.interfaceNumber >>> 16).toUInt8]
  let f7 := f6 ++ [(value.interfaceNumber >>> 8).toUInt8]
  let f8 := f7 ++ [value.interfaceNumber.toUInt8]
  let f9 := f8 ++ [UInt8.ofNat value.oid.length]
  have hnext : ∀ (front source : Bytes) (offset : Nat), front.length = offset →
      offset + source.length ≤ 167 →
      (Guarded.put (Octets.store wire 0 front) offset source : CodecResult Bytes) =
        .ok (Octets.store wire 0 (front ++ source)) := by
    intro front source offset hoffset hroom
    exact Guarded.put_store hoffset (by omega)
  have l3 : f3.length = value.address.length + 2 := by
    simp only [f1, f2, f3, List.length_append, List.length_cons, List.length_nil]
    omega
  have l4 : f4.length = value.address.length + 2 + 1 := by simp [f4, l3]
  have l5 : f5.length = value.address.length + 2 + 2 := by simp [f5, l4]
  have l6 : f6.length = value.address.length + 2 + 3 := by simp [f6, l5]
  have l7 : f7.length = value.address.length + 2 + 4 := by simp [f7, l6]
  have l8 : f8.length = value.address.length + 2 + 5 := by simp [f8, l7]
  have l9 : f9.length = value.address.length + 2 + 6 := by simp [f9, l8]
  have h1 := @Guarded.put_first Status wire f1 (by simp [f1]; omega)
  have h2 := hnext f1 [value.addressSubtype] 1 rfl (by simp)
  have h3 := hnext f2 value.address 2 rfl (by omega)
  have h4 := hnext f3 [value.interfaceSubtype] _ l3 (by simp; omega)
  have h5 := hnext f4 [(value.interfaceNumber >>> 24).toUInt8] _ l4 (by simp; omega)
  have h6 := hnext f5 [(value.interfaceNumber >>> 16).toUInt8] _ l5 (by simp; omega)
  have h7 := hnext f6 [(value.interfaceNumber >>> 8).toUInt8] _ l6 (by simp; omega)
  have h8 := hnext f7 [value.interfaceNumber.toUInt8] _ l7 (by simp; omega)
  have h9 := hnext f8 [UInt8.ofNat value.oid.length] _ l8 (by simp; omega)
  have h10 := hnext f9 value.oid _ l9 (by omega)
  have hall : f9 ++ value.oid = Kind.wire .management value := by
    simp [f1, f2, f3, f4, f5, f6, f7, f8, f9, Kind.wire, octets32]
  unfold stageManagement
  simp only [span_size_of_le haddress, span_size_of_le hoid, bind, Except.bind, if_neg hcheck]
  simp only [f1, f2, f3, f4, f5, f6, f7, f8, f9] at h1 h2 h3 h4 h5 h6 h7 h8 h9 h10 hall
  simp only [h1, h2, h3, h4, h5, h6, h7, h8, h9]
  rw [hlength, ← hall]
  by_cases hempty : value.oid.length ≠ 0
  · rw [if_pos hempty, h10]
    rfl
  · have hnil : value.oid = [] := by simpa using hempty
    rw [if_neg hempty, hnil, List.append_nil]
    rfl

/-- The encoder stores the wire octets of admitted representations. -/
theorem encode_of_valid {kind : Kind} {value : kind.Representation} {wire : Bytes}
    (destination : Option Bytes) (hwire : wire.length = wireSize) (h : kind.Valid value) :
    encode wire kind value destination = stored (kind.wire value) destination := by
  cases kind with
  | chassis => exact encode_id_of_valid destination h
  | port => exact encode_id_of_valid destination h
  | capabilities =>
    change (stageCapabilities value wire >>= _) = _
    rw [stage_capabilities_of_valid hwire h]
    exact emit_staged_store destination rfl
  | management =>
    change (stageManagement value wire >>= _) = _
    rw [stage_management_of_valid hwire h]
    exact emit_staged_store destination rfl
  | organisation => exact encode_organisation_of_valid destination h

/-- The encoder rejects all other representations. -/
theorem encode_of_not_valid {kind : Kind} {value : kind.Representation} (wire : Bytes)
    (destination : Option Bytes) (h : ¬ kind.Valid value) :
    encode wire kind value destination = .error (.code .invalidValue) := by
  cases kind with
  | chassis => exact encode_id_of_not_valid destination h
  | port => exact encode_id_of_not_valid destination h
  | capabilities =>
    change (stageCapabilities value wire >>= _) = _
    unfold stageCapabilities
    rw [if_pos (show value.enabled &&& ~~~value.supported ≠ 0 from h)]
    rfl
  | management =>
    change (stageManagement value wire >>= _) = _
    unfold stageManagement
    by_cases haddress : value.address.length ≤ 31
    · by_cases hoid : value.oid.length ≤ 128
      · have hcheck : (!addressValid value.addressSubtype value.address.length) = true ∨
            value.interfaceSubtype < 1 ∨ value.interfaceSubtype > 3 := by
          by_contra hcheck
          obtain ⟨hvalid, hinterface⟩ := not_or.mp hcheck
          exact h ⟨haddress, hoid, by simpa using hvalid, hinterface⟩
        rw [span_size_of_le haddress, span_size_of_le hoid]
        change (if _ then _ else _) >>= _ = _
        rw [if_pos hcheck]
        rfl
      · rw [span_size_of_le haddress, span_size_of_gt hoid]
        rfl
    · rw [span_size_of_gt haddress]
      rfl
  | organisation =>
    change encodeOrganisation value destination = _
    unfold encodeOrganisation
    rw [span_size_of_gt h]
    rfl

/-- The octets of an admitted representation fit an object. -/
theorem wire_length_le {kind : Kind} {value : kind.Representation} (h : kind.Valid value) :
    (kind.wire value).length ≤ sizeMax := by
  cases kind with
  | chassis =>
    have hspan := h.1
    simp only [Kind.wire, List.length_cons, sizeMax] at hspan ⊢
    omega
  | port =>
    have hspan := h.1
    simp only [Kind.wire, List.length_cons, sizeMax] at hspan ⊢
    omega
  | capabilities =>
    show (octets16 value.supported ++ octets16 value.enabled).length ≤ sizeMax
    simp [sizeMax]
  | management =>
    obtain ⟨haddress, hoid, _⟩ := h
    simp only [Kind.wire, List.length_append, List.length_cons, List.length_nil,
      octets32_length, sizeMax]
    omega
  | organisation =>
    have hspan : value.payload.length ≤ sizeMax - 4 := h
    simp only [Kind.wire, List.length_append, List.length_cons, List.length_nil,
      sizeMax] at hspan ⊢
    omega

/-- The LLDP codecs are inverse to each other on both sides and stay inside their storage. -/
theorem lldp_codec_bijective (kind : Kind) (wire : Bytes) (hwire : wire.length = wireSize) :
    (∀ (data : Bytes) (capacity : Nat) (value : kind.Representation), data.length ≤ sizeMax →
      decode kind data capacity = .ok value →
        encode wire kind value none = .ok (data.length, none) ∧
        ∀ destination : Bytes, data.length ≤ destination.length →
          encode wire kind value (some destination) =
            .ok (data.length, some (Octets.store destination 0 data))) ∧
    (∀ (value : kind.Representation) (destination : Bytes) (written : Nat)
      (result : Option Bytes),
      encode wire kind value (some destination) = .ok (written, result) →
        ∃ data, result = some (Octets.store destination 0 data) ∧ data.length = written ∧
          written ≤ destination.length ∧
          ∀ capacity, kind.representationSize ≤ capacity →
            decode kind data capacity = .ok value) ∧
    (∀ (data : Bytes) (capacity : Nat), decode kind data capacity ≠ .error .fault) ∧
    (∀ (value : kind.Representation) (destination : Option Bytes),
      encode wire kind value destination ≠ .error .fault) := by
  refine ⟨?_, ?_, fun data capacity => decode_ne_fault kind data capacity, ?_⟩
  · intro data capacity value hsize hdecode
    obtain ⟨hdata, hvalid, _⟩ := (decode_iff kind capacity value hsize).mp hdecode
    refine ⟨?_, ?_⟩
    · rw [encode_of_valid none hwire hvalid, hdata]
      rfl
    · intro destination hroom
      rw [encode_of_valid (some destination) hwire hvalid, ← hdata]
      exact if_neg (by omega)
  · intro value destination written result hencode
    by_cases hvalid : kind.Valid value
    · rw [encode_of_valid (some destination) hwire hvalid] at hencode
      obtain ⟨rfl, hroom, rfl⟩ := stored_eq_ok hencode
      exact ⟨kind.wire value, rfl, rfl, hroom, fun capacity hcapacity =>
        (decode_iff kind capacity value (wire_length_le hvalid)).mpr ⟨rfl, hvalid, hcapacity⟩⟩
    · rw [encode_of_not_valid wire (some destination) hvalid] at hencode
      cases hencode
  · intro value destination
    by_cases hvalid : kind.Valid value
    · rw [encode_of_valid destination hwire hvalid]
      exact stored_ne_fault _ _
    · rw [encode_of_not_valid wire destination hvalid]
      simp

/-- A management address with an IPv4 address goes both ways. -/
theorem lldp_codec_bijective_management :
    encode (List.replicate wireSize 0) .management ⟨1, [192, 0, 2, 1], 2, 7, [43]⟩ none =
        .ok (13, none) ∧
      decode .management [5, 1, 192, 0, 2, 1, 2, 0, 0, 0, 7, 1, 43] 48 =
        .ok ⟨1, [192, 0, 2, 1], 2, 7, [43]⟩ := by
  have hdecode : decode .management [5, 1, 192, 0, 2, 1, 2, 0, 0, 0, 7, 1, 43] 48 =
      .ok ⟨1, [192, 0, 2, 1], 2, 7, [43]⟩ := rfl
  have hboth := lldp_codec_bijective .management (List.replicate wireSize 0)
    (List.length_replicate ..)
  obtain ⟨hmeasure, hencode⟩ := hboth.1 _ _ _ (by simp [sizeMax]) hdecode
  refine ⟨hmeasure, ?_⟩
  obtain ⟨data, hresult, _, _, hback⟩ := hboth.2.1 _ _ _ _
    (hencode (List.replicate 13 0) (by simp))
  have hdata : data = [5, 1, 192, 0, 2, 1, 2, 0, 0, 0, 7, 1, 43] := by
    have hlength : data.length = 13 := by assumption
    have hstore := Option.some.inj hresult
    rw [Guarded.store_front, Guarded.store_front, hlength] at hstore
    simpa using hstore.symm
  rw [← hdata]
  exact hback 48 (by decide)

end Lldp

end OpenTlv
