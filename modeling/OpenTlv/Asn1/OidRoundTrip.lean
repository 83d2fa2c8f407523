import OpenTlv.Lib.Septets
import OpenTlv.Asn1.SpanRoundTrip

/-!
# Object identifiers survive their codecs

A subidentifier is the radix-128 numeral of an arc, and the contents of an identifier are the
numerals of its subidentifiers one behind the other. The encoder stages the digits of an arc from
the least significant one on, and the decoder stops in front of a number that 64 bits do not hold.
-/

namespace OpenTlv

/-- The octets of a subidentifier. -/
def arcOctets (arc : UInt64) : Bytes :=
  Septets.octets arc.toNat

/-- The octets of subidentifiers. -/
def oidOctets (arcs : List UInt64) : Bytes :=
  arcs.flatMap arcOctets

/-- The digits of an arc, as they are staged. -/
def stagedGroups (arc : UInt64) : Bytes :=
  (Septets.groups arc.toNat).map UInt8.ofNat

/-! ## Encoding of one arc -/

section Encode

variable {arc : UInt64}

theorem arc_shift (arc : UInt64) : (arc >>> 7).toNat = arc.toNat / 128 := by
  rw [UInt64.toNat_shiftRight]
  exact Nat.shiftRight_eq_div_pow _ 7

theorem arc_group (arc : UInt64) : (arc &&& 0x7F).toUInt8 = UInt8.ofNat (arc.toNat % 128) := by
  apply UInt8.toNat_inj.mp
  have hmask : (arc &&& 0x7F).toNat = arc.toNat % 128 := by
    rw [UInt64.toNat_and]
    exact Nat.and_two_pow_sub_one_eq_mod _ 7
  rw [UInt64.toNat_toUInt8, UInt8.toNat_ofNat', hmask]

/-- Staging takes the low seven bits and goes on with the others. -/
theorem staged_groups_eq (arc : UInt64) : stagedGroups arc =
    UInt8.ofNat (arc.toNat % 128) :: if arc >>> 7 ≠ 0 then stagedGroups (arc >>> 7) else [] := by
  have hzero : arc >>> 7 ≠ 0 ↔ ¬ arc.toNat / 128 = 0 := by
    rw [← arc_shift, not_iff_not]
    exact ⟨fun h => by rw [h]; rfl, fun h => UInt64.toNat_inj.mp h⟩
  unfold stagedGroups
  rw [Septets.groups, List.map_cons, arc_shift]
  by_cases hhigh : arc.toNat / 128 = 0
  · rw [if_pos hhigh, if_neg (not_not.mpr (not_not.mp (mt hzero.mp (not_not.mpr hhigh))))]
    rfl
  · rw [if_neg hhigh, if_pos (hzero.mpr hhigh)]

/-- Ten groups are enough for every arc. -/
theorem staged_groups_length (arc : UInt64) : (stagedGroups arc).length ≤ 10 := by
  have hlt := arc.toNat_lt
  unfold stagedGroups
  rw [List.length_map]
  exact Septets.groups_length_le (by norm_num) (hlt.trans (by norm_num))

/-- The loop stages the digits behind those that are staged. -/
theorem arc_groups_eq {turns : Nat} {front buffer : Bytes}
    (hturns : (stagedGroups arc).length ≤ turns)
    (hroom : front.length + (stagedGroups arc).length ≤ buffer.length) :
    arcGroups turns arc front.length (Octets.store buffer 0 front) =
      .ok (front.length + (stagedGroups arc).length,
        Octets.store buffer 0 (front ++ stagedGroups arc)) := by
  induction turns generalizing arc front with
  | zero =>
    rw [staged_groups_eq, List.length_cons] at hturns
    omega
  | succ turns ih =>
    have hstaged := staged_groups_eq arc
    have hput := @Guarded.put_store Status buffer front [UInt8.ofNat (arc.toNat % 128)] _ rfl (by
      rw [hstaged, List.length_cons] at hroom
      rw [List.length_singleton]
      omega)
    rw [arcGroups, arc_group, hput]
    simp only [bind, Except.bind]
    by_cases hmore : arc >>> 7 ≠ 0
    · rw [if_pos hmore] at hstaged
      rw [hstaged, List.length_cons] at hturns hroom
      have hrest := @ih (arc >>> 7) (front ++ [UInt8.ofNat (arc.toNat % 128)]) (by omega) (by
        rw [List.length_append, List.length_singleton]
        omega)
      rw [List.length_append, List.length_singleton] at hrest
      rw [if_pos hmore, hrest, hstaged, List.length_cons, List.append_assoc,
        Nat.add_right_comm, Nat.add_assoc]
      rfl
    · rw [if_neg hmore] at hstaged
      rw [if_neg hmore, hstaged]
      rfl

/-- The staged digits of an arc. -/
theorem arc_groups_staged (arc : UInt64) :
    arcGroups oidArcMaxEncodedBytes arc 0 (List.replicate oidArcMaxEncodedBytes 0) =
      .ok ((arcOctets arc).length,
        Octets.store (List.replicate oidArcMaxEncodedBytes 0) 0 (stagedGroups arc)) := by
  have hlength := staged_groups_length arc
  have h := @arc_groups_eq arc oidArcMaxEncodedBytes [] (List.replicate oidArcMaxEncodedBytes 0)
    hlength (by
      rw [List.length_replicate, List.length_nil, Nat.zero_add]
      exact hlength)
  rw [Guarded.store_nil, List.length_nil, List.nil_append, Nat.zero_add] at h
  rw [h]
  unfold arcOctets stagedGroups
  rw [Septets.octets_length, List.length_map]

theorem measure_oid_arc_eq (arc : UInt64) : measureOidArc arc = .ok (arcOctets arc).length := by
  unfold measureOidArc
  rw [arc_groups_staged]
  rfl

/-- The loop that stores the digits the other way round, with the top bits. -/
theorem store_groups_eq {out : Bytes} {offset remaining i : Nat}
    (hi : i + remaining = (arcOctets arc).length)
    (hroom : offset + (arcOctets arc).length ≤ out.length) :
    storeGroups (Octets.store (List.replicate oidArcMaxEncodedBytes 0) 0 (stagedGroups arc))
        (arcOctets arc).length offset remaining i
        (Octets.store out offset ((arcOctets arc).take i)) =
      .ok (Octets.store out offset (arcOctets arc)) := by
  induction remaining generalizing i with
  | zero =>
    rw [storeGroups, List.take_of_length_le (by omega)]
  | succ remaining ih =>
    have hlength : (arcOctets arc).length = (Septets.groups arc.toNat).length :=
      Septets.octets_length _
    have hindex : i < (arcOctets arc).length := by omega
    obtain ⟨group, hgroup⟩ : ∃ group, (Septets.groups arc.toNat)[(arcOctets arc).length - 1 - i]? =
        some group := ⟨_, List.getElem?_eq_getElem (by omega)⟩
    have hlt := Septets.groups_lt _ _ (List.mem_of_getElem? hgroup)
    have hstaged : (Guarded.octet (Octets.store (List.replicate oidArcMaxEncodedBytes 0) 0
        (stagedGroups arc)) ((arcOctets arc).length - 1 - i) : CodecResult UInt8) =
          .ok (UInt8.ofNat group) := by
      have hinside : (arcOctets arc).length - 1 - i < (stagedGroups arc).length := by
        unfold stagedGroups
        rw [List.length_map]
        omega
      unfold Guarded.octet
      rw [Guarded.store_front, List.getElem?_append_left hinside]
      unfold stagedGroups
      rw [List.getElem?_map, hgroup]
      rfl
    have hoctet : (arcOctets arc)[i]? = some
        (if i + 1 < (arcOctets arc).length then UInt8.ofNat (128 + group)
          else UInt8.ofNat group) := by
      have hdigits := Septets.octets_getElem? (hlength ▸ hindex)
      rw [← hlength, hgroup] at hdigits
      exact hdigits
    have hflag : UInt8.ofNat group ||| (if i + 1 < (arcOctets arc).length then 0x80 else 0x00) =
        if i + 1 < (arcOctets arc).length then UInt8.ofNat (128 + group)
        else UInt8.ofNat group := by
      obtain ⟨hhigh, hlow⟩ := Septets.flagged_group hlt
      by_cases hmore : i + 1 < (arcOctets arc).length
      · rw [if_pos hmore, if_pos hmore, hhigh]
      · rw [if_neg hmore, if_neg hmore, hlow]
    have htake : (arcOctets arc).take (i + 1) = (arcOctets arc).take i ++
        [if i + 1 < (arcOctets arc).length then UInt8.ofNat (128 + group)
          else UInt8.ofNat group] := by
      rw [List.take_add_one, hoctet]
      rfl
    have hput := @Guarded.put_after Status out ((arcOctets arc).take i)
      [if i + 1 < (arcOctets arc).length then UInt8.ofNat (128 + group) else UInt8.ofNat group]
      offset (offset + i) (by rw [List.length_take, Nat.min_eq_left (by omega)]) (by
        rw [List.length_singleton]
        omega)
    rw [storeGroups, hstaged]
    simp only [bind, Except.bind]
    rw [hflag, hput, ← htake]
    exact ih (by omega)

/-- An arc is stored as its numeral. -/
theorem encode_oid_arc_eq {out : Bytes} {offset : Nat}
    (hroom : offset + (arcOctets arc).length ≤ out.length) :
    encodeOidArc arc out offset =
      .ok ((arcOctets arc).length, Octets.store out offset (arcOctets arc)) := by
  have hstore := @store_groups_eq arc out offset (arcOctets arc).length 0 (Nat.zero_add _) hroom
  rw [List.take_zero, Guarded.store_empty] at hstore
  unfold encodeOidArc
  rw [arc_groups_staged]
  simp only [bind, Except.bind]
  rw [hstore]
  rfl

end Encode

/-! ## Arrays of arcs -/

section Arrays

variable {raw : Vector UInt64 oidMaxArcs}

/-- The items of an array from an index on. -/
def arcsFrom (raw : Vector UInt64 oidMaxArcs) (i count : Nat) : List UInt64 :=
  (raw.toList.drop i).take count

theorem arcs_from_cons {i count : Nat} (h : i < oidMaxArcs) :
    ∃ arc, (Guarded.item raw i : CodecResult UInt64) = .ok arc ∧
      arcsFrom raw i (count + 1) = arc :: arcsFrom raw (i + 1) count := by
  have hindex : i < raw.toList.length := by simpa using h
  refine ⟨raw.toList[i], Guarded.item_of_lt (List.getElem?_eq_getElem hindex), ?_⟩
  unfold arcsFrom
  rw [List.drop_eq_getElem_cons hindex, List.take_succ_cons]

/-- The measured size is that of the encoded arcs. -/
theorem measure_arcs_eq {remaining i total : Nat} (h : i + remaining ≤ oidMaxArcs) :
    measureArcs raw remaining i total =
      .ok (total + (oidOctets (arcsFrom raw i remaining)).length) := by
  induction remaining generalizing i total with
  | zero => rfl
  | succ remaining ih =>
    obtain ⟨arc, hitem, harcs⟩ := @arcs_from_cons raw i remaining (by omega)
    rw [measureArcs, hitem]
    simp only [bind, Except.bind]
    rw [measure_oid_arc_eq]
    dsimp only
    rw [ih (by omega), harcs]
    unfold oidOctets
    rw [List.flatMap_cons, List.length_append, Nat.add_assoc]

/-- The arcs are stored one after another. -/
theorem store_arcs_eq {remaining i offset : Nat} {front out : Bytes}
    (h : i + remaining ≤ oidMaxArcs) (hoffset : front.length = offset)
    (hroom : offset + (oidOctets (arcsFrom raw i remaining)).length ≤ out.length) :
    storeArcs raw remaining i offset (Octets.store out 0 front) =
      .ok (Octets.store out 0 (front ++ oidOctets (arcsFrom raw i remaining))) := by
  induction remaining generalizing i offset front with
  | zero =>
    show Except.ok (Octets.store out 0 front) = .ok (Octets.store out 0 (front ++ []))
    rw [List.append_nil]
  | succ remaining ih =>
    obtain ⟨arc, hitem, harcs⟩ := @arcs_from_cons raw i remaining (by omega)
    have hoctets : oidOctets (arcsFrom raw i (remaining + 1)) =
        arcOctets arc ++ oidOctets (arcsFrom raw (i + 1) remaining) := by
      rw [harcs]
      rfl
    rw [hoctets, List.length_append] at hroom
    have hextent : offset + (arcOctets arc).length ≤ (Octets.store out 0 front).length := by
      rw [Octets.store_length (by omega)]
      omega
    have hjoin := @Guarded.store_after out front (arcOctets arc) 0 (Nat.zero_le _)
    rw [Nat.zero_add, hoffset] at hjoin
    rw [storeArcs, hitem]
    simp only [bind, Except.bind]
    rw [encode_oid_arc_eq hextent]
    dsimp only
    rw [hjoin, ih (by omega) (by rw [List.length_append, hoffset]) (by omega), hoctets,
      List.append_assoc]

/-- Arcs are copied behind the ones in front of them. -/
theorem copy_arcs_eq {source target : Vector UInt64 oidMaxArcs} {remaining i j : Nat}
    (hi : i + remaining ≤ oidMaxArcs) (hj : j + remaining ≤ oidMaxArcs) :
    ∃ target', copyArcs source remaining i j target = .ok target' ∧
      target'.toList.take (j + remaining) =
        target.toList.take j ++ arcsFrom source i remaining := by
  induction remaining generalizing i j target with
  | zero =>
    refine ⟨target, rfl, ?_⟩
    show target.toList.take j = target.toList.take j ++ []
    rw [List.append_nil]
  | succ remaining ih =>
    obtain ⟨arc, hitem, harcs⟩ := @arcs_from_cons source i remaining (by omega)
    obtain ⟨target₁, hassign, htake, -⟩ :=
      @Guarded.assign_next Status _ _ j target arc (by omega)
    obtain ⟨target₂, hcopy, hlist⟩ := @ih target₁ (i + 1) (j + 1) (by omega) (by omega)
    refine ⟨target₂, ?_, ?_⟩
    · rw [copyArcs, hitem]
      simp only [bind, Except.bind]
      rw [hassign]
      exact hcopy
    · rw [show j + (remaining + 1) = j + 1 + remaining by omega, hlist, htake, harcs,
        List.append_assoc]
      rfl

end Arrays

/-! ## Subidentifiers -/

/-- The arcs in use. -/
def Asn1Oid.used (input : Asn1Oid) : List UInt64 :=
  input.arcs.toList.take input.count

/-- The subidentifiers of valid arcs. -/
def subidentifiers : Bool → List UInt64 → Option (List UInt64)
  | true, first :: second :: rest =>
    if first > 2 ∨ first < 2 ∧ second ≥ 40 ∨ first = 2 ∧ second > 0xFFFFFFFFFFFFFFFF - 80 then
      none
    else some ((first * 40 + second) :: rest)
  | true, _ => none
  | false, [] => none
  | false, first :: rest => some (first :: rest)

/-- The arcs of subidentifiers. -/
def arcsOf : Bool → List UInt64 → List UInt64
  | true, first :: rest => (splitFirstArc first).1 :: (splitFirstArc first).2 :: rest
  | _, subs => subs

/-- The most subidentifiers that the arcs have room for. -/
def maxSubidentifiers (isOid : Bool) : Nat :=
  if isOid then oidMaxArcs - 1 else oidMaxArcs

/-- The first subidentifier is split into the arcs it combines. -/
theorem split_first_arc {first second : UInt64} (h : ¬ (first > 2 ∨ first < 2 ∧ second ≥ 40 ∨
      first = 2 ∧ second > 0xFFFFFFFFFFFFFFFF - 80)) :
    splitFirstArc (first * 40 + second) = (first, second) := by
  have hmost : (0xFFFFFFFFFFFFFFFF - 80 : UInt64).toNat = 2 ^ 64 - 81 := by decide
  simp only [gt_iff_lt, ge_iff_le, UInt64.lt_iff_toNat_lt, UInt64.le_iff_toNat_le,
    ← UInt64.toNat_inj, hmost, UInt64.reduceToNat] at h
  have hsum : (first * 40 + second).toNat = first.toNat * 40 + second.toNat := by
    rw [UInt64.toNat_add, UInt64.toNat_mul]
    show (first.toNat * 40 % 2 ^ 64 + second.toNat) % 2 ^ 64 = _
    omega
  have hless : ∀ {number : UInt64}, number < 40 ↔ number.toNat < 40 := UInt64.lt_iff_toNat_lt
  have hless' : ∀ {number : UInt64}, number < 80 ↔ number.toNat < 80 := UInt64.lt_iff_toNat_lt
  have hback : ∀ base : UInt64, base.toNat = first.toNat * 40 →
      first * 40 + second - base = second := by
    intro base hbase
    apply UInt64.toNat_inj.mp
    rw [UInt64.toNat_sub_of_le _ _ (UInt64.le_iff_toNat_le.mpr (by omega)), hsum]
    omega
  unfold splitFirstArc
  by_cases hzero : first.toNat = 0
  · have hfirst : first = 0 := UInt64.toNat_inj.mp hzero
    rw [if_pos (hless.mpr (by omega)), hfirst]
    congr 1
    apply UInt64.toNat_inj.mp
    rw [← hfirst, hsum]
    omega
  by_cases hone : first.toNat = 1
  · have hfirst : first = 1 := UInt64.toNat_inj.mp hone
    rw [if_neg (mt hless.mp (by omega)), if_pos (hless'.mpr (by omega)),
      hback 40 (by rw [hone]; rfl), hfirst]
  · have htwo : first.toNat = 2 := by omega
    have hfirst : first = 2 := UInt64.toNat_inj.mp htwo
    rw [if_neg (mt hless.mp (by omega)), if_neg (mt hless'.mp (by omega)),
      hback 80 (by rw [htwo]; rfl), hfirst]

/-- The two arcs of a first subidentifier are valid and combine to it. -/
theorem join_first_arc (sub : UInt64) :
    ¬ ((splitFirstArc sub).1 > 2 ∨ (splitFirstArc sub).1 < 2 ∧ (splitFirstArc sub).2 ≥ 40 ∨
      (splitFirstArc sub).1 = 2 ∧ (splitFirstArc sub).2 > 0xFFFFFFFFFFFFFFFF - 80) ∧
      (splitFirstArc sub).1 * 40 + (splitFirstArc sub).2 = sub := by
  have hlt := sub.toNat_lt
  have hmost : (0xFFFFFFFFFFFFFFFF - 80 : UInt64).toNat = 2 ^ 64 - 81 := by decide
  have hless : sub < 40 ↔ sub.toNat < 40 := UInt64.lt_iff_toNat_lt
  have hless' : sub < 80 ↔ sub.toNat < 80 := UInt64.lt_iff_toNat_lt
  have hsub : ∀ base : UInt64, base ≤ sub → (sub - base).toNat = sub.toNat - base.toNat :=
    fun base hbase => UInt64.toNat_sub_of_le _ _ hbase
  have hjoin : ∀ base : UInt64, base ≤ sub → base + (sub - base) = sub := by
    intro base hbase
    apply UInt64.toNat_inj.mp
    have hle := UInt64.le_iff_toNat_le.mp hbase
    rw [UInt64.toNat_add, hsub base hbase]
    omega
  unfold splitFirstArc
  by_cases hsmall : sub < 40
  · rw [if_pos hsmall]
    refine ⟨?_, ?_⟩
    · simp only [gt_iff_lt, ge_iff_le, UInt64.lt_iff_toNat_lt, UInt64.le_iff_toNat_le,
        ← UInt64.toNat_inj, UInt64.reduceToNat]
      have := hless.mp hsmall
      omega
    · apply UInt64.toNat_inj.mp
      show (0 + sub.toNat) % 2 ^ 64 = sub.toNat
      omega
  rw [if_neg hsmall]
  rw [hless] at hsmall
  by_cases hmiddle : sub < 80
  · rw [if_pos hmiddle]
    rw [hless'] at hmiddle
    have hbase : (40 : UInt64) ≤ sub := UInt64.le_iff_toNat_le.mpr (by
      show 40 ≤ _
      omega)
    have hrest : (sub - 40).toNat = sub.toNat - 40 := hsub 40 hbase
    refine ⟨?_, hjoin 40 hbase⟩
    simp only [gt_iff_lt, ge_iff_le, UInt64.lt_iff_toNat_lt, UInt64.le_iff_toNat_le,
      ← UInt64.toNat_inj, hrest, UInt64.reduceToNat]
    omega
  · rw [if_neg hmiddle]
    rw [hless'] at hmiddle
    have hbase : (80 : UInt64) ≤ sub := UInt64.le_iff_toNat_le.mpr (by
      show 80 ≤ _
      omega)
    have hrest : (sub - 80).toNat = sub.toNat - 80 := hsub 80 hbase
    refine ⟨?_, hjoin 80 hbase⟩
    simp only [gt_iff_lt, ge_iff_le, UInt64.lt_iff_toNat_lt, UInt64.le_iff_toNat_le,
      hrest, hmost, UInt64.reduceToNat]
    omega

/-- The arcs of the subidentifiers of arcs are the arcs. -/
theorem arcs_of_subidentifiers {isOid : Bool} {arcs subs : List UInt64}
    (h : subidentifiers isOid arcs = some subs) :
    arcsOf isOid subs = arcs ∧ subs ≠ [] ∧
      arcs.length = subs.length + (if isOid then 1 else 0) := by
  unfold subidentifiers at h
  split at h
  next first second rest =>
    split at h
    · cases h
    next hvalid =>
      rw [← Option.some.inj h]
      refine ⟨?_, List.cons_ne_nil _ _, rfl⟩
      show (splitFirstArc (first * 40 + second)).1 :: (splitFirstArc (first * 40 + second)).2 ::
        rest = _
      rw [split_first_arc hvalid]
  · cases h
  · cases h
  next first rest =>
    rw [← Option.some.inj h]
    exact ⟨rfl, List.cons_ne_nil _ _, rfl⟩

/-- The subidentifiers of the arcs of subidentifiers are the subidentifiers. -/
theorem subidentifiers_of_arcs (isOid : Bool) {subs : List UInt64} (h : subs ≠ []) :
    subidentifiers isOid (arcsOf isOid subs) = some subs := by
  obtain ⟨first, rest, rfl⟩ := List.exists_cons_of_ne_nil h
  cases isOid with
  | false => rfl
  | true =>
    obtain ⟨hvalid, hjoin⟩ := join_first_arc first
    show (if _ then none
      else some (((splitFirstArc first).1 * 40 + (splitFirstArc first).2) :: rest)) = _
    rw [if_neg hvalid, hjoin]

/-! ## Encoding of identifiers -/

section Identifiers

variable {isOid : Bool} {input : Asn1Oid}

theorem used_length (h : input.count ≤ oidMaxArcs) : input.used.length = input.count := by
  unfold Asn1Oid.used
  rw [List.length_take, Vector.length_toList]
  omega

/-- The array of the subidentifiers of valid arcs. -/
theorem encode_arcs_eq {subs : List UInt64} (hcount : input.count ≤ oidMaxArcs)
    (h : subidentifiers isOid input.used = some subs) :
    ∃ raw, encodeArcs isOid input = .ok (some (raw, subs.length)) ∧
      arcsFrom raw 0 subs.length = subs ∧ subs.length ≤ oidMaxArcs := by
  obtain ⟨harcs, hnonempty, hlength⟩ := arcs_of_subidentifiers h
  rw [used_length hcount] at hlength
  have hpositive := List.length_pos_of_ne_nil hnonempty
  have hused : arcsFrom input.arcs 0 input.count = input.used := rfl
  unfold encodeArcs
  cases isOid with
  | false =>
    rw [if_neg (show ¬ false = true by simp)] at hlength ⊢
    rw [Nat.add_zero] at hlength
    obtain ⟨raw, hcopy, hlist⟩ := @copy_arcs_eq input.arcs (Vector.replicate oidMaxArcs 0)
      input.count 0 0 (by omega) (by omega)
    rw [if_neg (by omega), hcopy]
    refine ⟨raw, by rw [← hlength]; rfl, ?_, by omega⟩
    rw [← hlength]
    show raw.toList.take input.count = subs
    rw [Nat.zero_add, hused] at hlist
    rw [hlist]
    exact harcs.symm
  | true =>
    rw [if_pos rfl] at hlength ⊢
    obtain ⟨rest, hrest⟩ : ∃ rest, rest = input.count - 2 := ⟨_, rfl⟩
    have hcount' : input.count = rest + 1 + 1 := by omega
    obtain ⟨first, hfirst, hlist⟩ := @arcs_from_cons input.arcs 0 (rest + 1) (by
      show 0 < 32
      norm_num)
    obtain ⟨second, hsecond, hlist'⟩ := @arcs_from_cons input.arcs 1 rest (by
      show 1 < 32
      norm_num)
    have hused' : input.used = first :: second :: arcsFrom input.arcs 2 rest := by
      rw [← hused, hcount', hlist, Nat.zero_add, hlist']
    rw [hused'] at h
    have hcases : subidentifiers true (first :: second :: arcsFrom input.arcs 2 rest) =
        if first > 2 ∨ first < 2 ∧ second ≥ 40 ∨ first = 2 ∧ second > 0xFFFFFFFFFFFFFFFF - 80 then
          none
        else some ((first * 40 + second) :: arcsFrom input.arcs 2 rest) := rfl
    rw [hcases] at h
    by_cases hinvalid : first > 2 ∨ first < 2 ∧ second ≥ 40 ∨
        first = 2 ∧ second > 0xFFFFFFFFFFFFFFFF - 80
    · rw [if_pos hinvalid] at h
      cases h
    rw [if_neg hinvalid] at h
    obtain ⟨raw₁, hassign, htake, -⟩ := @Guarded.assign_next Status _ _ 0
      (Vector.replicate oidMaxArcs 0) (first * 40 + second) (by
        show 0 < 32
        norm_num)
    obtain ⟨raw₂, hcopy, hraw⟩ := @copy_arcs_eq input.arcs raw₁ rest 2 1 (by omega) (by omega)
    rw [not_or, not_or] at hinvalid
    have hsubs : raw₂.toList.take subs.length = subs := by
      rw [show subs.length = 1 + rest by omega, hraw, htake, ← Option.some.inj h]
      rfl
    refine ⟨raw₂, ?_, hsubs, by omega⟩
    rw [if_neg (by omega), hfirst]
    simp only [bind, Except.bind]
    rw [hsecond]
    dsimp only
    rw [if_neg hinvalid.1, if_neg hinvalid.2.1, if_neg hinvalid.2.2, hassign]
    dsimp only
    rw [← hrest, hcopy, show input.count - 1 = subs.length by omega]
    rfl

/-- Other arcs are refused. -/
theorem encode_arcs_none (h : ¬ (input.count ≤ oidMaxArcs ∧
      ∃ subs, subidentifiers isOid input.used = some subs)) :
    encodeArcs isOid input = .ok none := by
  unfold encodeArcs
  cases isOid with
  | false =>
    rw [if_neg (show ¬ false = true by simp)]
    by_cases hcount : input.count < 1 ∨ input.count > oidMaxArcs
    · rw [if_pos hcount]
    · refine absurd ⟨by omega, ?_⟩ h
      have hlength := @used_length input (by omega)
      obtain ⟨first, rest, hlist⟩ :=
        List.exists_cons_of_length_pos (show 0 < input.used.length by omega)
      exact ⟨first :: rest, by rw [hlist]; rfl⟩
  | true =>
    rw [if_pos rfl]
    by_cases hcount : input.count < 2 ∨ input.count > oidMaxArcs
    · rw [if_pos hcount]
    obtain ⟨rest, hrest⟩ : ∃ rest, input.count = rest + 1 + 1 := ⟨input.count - 2, by omega⟩
    obtain ⟨first, hfirst, hlist⟩ := @arcs_from_cons input.arcs 0 (rest + 1) (by
      show 0 < 32
      norm_num)
    obtain ⟨second, hsecond, hlist'⟩ := @arcs_from_cons input.arcs 1 rest (by
      show 1 < 32
      norm_num)
    have hused : input.used = first :: second :: arcsFrom input.arcs 2 rest := by
      show arcsFrom input.arcs 0 input.count = _
      rw [hrest, hlist, Nat.zero_add, hlist']
    rw [if_neg hcount, hfirst]
    simp only [bind, Except.bind]
    rw [hsecond]
    dsimp only
    by_cases hlarge : first > 2
    · rw [if_pos hlarge]
    rw [if_neg hlarge]
    by_cases hremainder : first < 2 ∧ second ≥ 40
    · rw [if_pos hremainder]
    rw [if_neg hremainder]
    by_cases hoverflow : first = 2 ∧ second > 0xFFFFFFFFFFFFFFFF - 80
    · rw [if_pos hoverflow]
    refine absurd ⟨by omega, (first * 40 + second) :: arcsFrom input.arcs 2 rest, ?_⟩ h
    rw [hused]
    exact if_neg (by
      rw [not_or, not_or]
      exact ⟨hlarge, hremainder, hoverflow⟩)

/-- The encoder stores the octets of the subidentifiers. -/
theorem encode_oid_eq {subs : List UInt64} (hcount : input.count ≤ oidMaxArcs)
    (h : subidentifiers isOid input.used = some subs) (destination : Option Bytes) :
    encodeOidLike isOid input destination = stored (oidOctets subs) destination := by
  obtain ⟨raw, hencode, hsubs, hlength⟩ := encode_arcs_eq hcount h
  have hmeasure := @measure_arcs_eq raw subs.length 0 0 (by omega)
  rw [Nat.zero_add, hsubs] at hmeasure
  unfold encodeOidLike
  rw [hencode]
  simp only [bind, Except.bind]
  rw [hmeasure]
  cases destination with
  | none => rfl
  | some data =>
    dsimp only
    by_cases hroom : data.length < (oidOctets subs).length
    · rw [if_pos hroom, stored_of_lt hroom]
    · have hstore := @store_arcs_eq raw subs.length 0 0 [] data (by omega) rfl (by
        rw [hsubs]
        omega)
      rw [Guarded.store_nil, List.nil_append, hsubs] at hstore
      rw [if_neg hroom, hstore, stored_of_le (by omega)]
      rfl

end Identifiers

/-! ## Decoding of subidentifiers -/

section Decode

/-- One octet more in an arc. -/
theorem arc_push {arc : UInt64} {octet : UInt8} (h : arc.toNat * 128 + octet.toNat % 128 < 2 ^ 64) :
    ((arc <<< 7) ||| (octet &&& 0x7F).toUInt64).toNat = arc.toNat * 128 + octet.toNat % 128 := by
  have hshift : (arc <<< 7).toNat = arc.toNat <<< 7 := by
    rw [UInt64.toNat_shiftLeft, Nat.shiftLeft_eq, Nat.shiftLeft_eq]
    show arc.toNat * 2 ^ 7 % 2 ^ 64 = arc.toNat * 2 ^ 7
    omega
  have hlow : octet.toNat % 128 < 2 ^ 7 := Nat.mod_lt _ (by norm_num)
  rw [UInt64.toNat_or, hshift, UInt8.toNat_toUInt64, Septets.payload_eq,
    ← Nat.shiftLeft_add_eq_or_of_lt hlow, Nat.shiftLeft_eq]

/-- The check before one octet more. -/
theorem arc_room_iff (arc : UInt64) :
    arc > (0xFFFFFFFFFFFFFFFF : UInt64) >>> 7 ↔ 2 ^ 57 ≤ arc.toNat := by
  have hlimit : ((0xFFFFFFFFFFFFFFFF : UInt64) >>> 7).toNat = 2 ^ 57 - 1 := by decide
  rw [gt_iff_lt, UInt64.lt_iff_toNat_lt, hlimit]
  omega

/-- The octets in front of the last one are collected. -/
theorem read_arc_high {number : Nat} (h : number < 2 ^ 64) (rest : Bytes) :
    readArc (Septets.high number ++ rest) 0 = readArc rest (UInt64.ofNat number) := by
  induction number using Nat.strongRecOn generalizing rest with
  | ind number ih =>
    by_cases hzero : number = 0
    · rw [hzero, Septets.high_zero]
      rfl
    have hgroup : number % 128 < 128 := Nat.mod_lt _ (by norm_num)
    have hoctet := Septets.high_octet_toNat hgroup
    have hhigh : (UInt64.ofNat (number / 128)).toNat = number / 128 := by
      rw [UInt64.toNat_ofNat']
      omega
    have hpush := @arc_push (UInt64.ofNat (number / 128)) (UInt8.ofNat (128 + number % 128)) (by
      rw [hhigh, hoctet]
      omega)
    have harc : (UInt64.ofNat (number / 128) <<< 7) |||
        (UInt8.ofNat (128 + number % 128) &&& 0x7F).toUInt64 = UInt64.ofNat number := by
      apply UInt64.toNat_inj.mp
      rw [hpush, hhigh, hoctet, UInt64.toNat_ofNat']
      omega
    have hmore : UInt8.ofNat (128 + number % 128) &&& 0x80 ≠ 0 :=
      mt (Septets.last_iff _).mp (by omega)
    rw [Septets.high_of_ne_zero hzero, List.append_assoc, ih (number / 128) (by omega) (by omega),
      List.singleton_append, readArc, if_neg (mt (arc_room_iff _).mp (by omega))]
    dsimp only
    rw [harc, if_pos hmore]

/-- A subidentifier is read. -/
theorem read_arc_octets (arc : UInt64) (rest : Bytes) :
    readArc (arcOctets arc ++ rest) 0 = .ok (some (arc, rest)) := by
  have hlt := arc.toNat_lt
  have hgroup : arc.toNat % 128 < 128 := Nat.mod_lt _ (by norm_num)
  have hoctet := Septets.low_octet_toNat hgroup
  have hhigh : (UInt64.ofNat (arc.toNat / 128)).toNat = arc.toNat / 128 := by
    rw [UInt64.toNat_ofNat']
    omega
  have hpush := @arc_push (UInt64.ofNat (arc.toNat / 128)) (UInt8.ofNat (arc.toNat % 128)) (by
    rw [hhigh, hoctet]
    omega)
  have harc : (UInt64.ofNat (arc.toNat / 128) <<< 7) |||
      (UInt8.ofNat (arc.toNat % 128) &&& 0x7F).toUInt64 = arc := by
    apply UInt64.toNat_inj.mp
    rw [hpush, hhigh, hoctet]
    omega
  have hlast : UInt8.ofNat (arc.toNat % 128) &&& 0x80 = 0 := (Septets.last_iff _).mpr (by omega)
  unfold arcOctets Septets.octets
  rw [List.append_assoc, read_arc_high (by omega), List.singleton_append, readArc,
    if_neg (mt (arc_room_iff _).mp (by omega))]
  dsimp only
  rw [harc, if_neg (not_not.mpr hlast)]

/-- What is read as a subidentifier without a redundant first octet are its octets. -/
theorem read_arc_some {data rest : Bytes} {start arc : UInt64}
    (h : readArc data start = .ok (some (arc, rest)))
    (hstart : start ≠ 0 ∨ data.head? ≠ some 0x80) :
    Septets.high start.toNat ++ data = arcOctets arc ++ rest := by
  induction data generalizing start with
  | nil => cases h
  | cons octet data ih =>
    rw [readArc] at h
    by_cases hroom : start > (0xFFFFFFFFFFFFFFFF : UInt64) >>> 7
    · rw [if_pos hroom] at h
      cases h
    rw [if_neg hroom] at h
    dsimp only at h
    have hsmall : ¬ 2 ^ 57 ≤ start.toNat := mt (arc_room_iff start).mpr hroom
    have hoctet := octet.toNat_lt
    have hlow : octet.toNat % 128 < 128 := Nat.mod_lt _ (by norm_num)
    have hpush := @arc_push start octet (by omega)
    by_cases hmore : octet &&& 0x80 ≠ 0
    · rw [if_pos hmore] at h
      have hlarge : ¬ octet.toNat < 128 := mt (Septets.last_iff octet).mpr hmore
      have hpositive : start.toNat * 128 + octet.toNat % 128 ≠ 0 := by
        obtain hstart | hfirst := hstart
        · have : start.toNat ≠ 0 := fun hzero => hstart (UInt64.toNat_inj.mp hzero)
          omega
        · have : octet.toNat ≠ 128 := fun heq => hfirst
            (congrArg some (UInt8.toNat_inj.mp (heq.trans rfl)))
          omega
      have hnext : (start <<< 7) ||| (octet &&& 0x7F).toUInt64 ≠ 0 := fun hzero =>
        hpositive (by rw [← hpush, hzero]; rfl)
      have hdigit : UInt8.ofNat (128 + octet.toNat % 128) = octet := by
        apply UInt8.toNat_inj.mp
        rw [Septets.high_octet_toNat hlow]
        omega
      have hrest := ih h (.inl hnext)
      rw [hpush, Septets.high_push hlow hpositive, hdigit, List.append_assoc] at hrest
      exact hrest
    · rw [if_neg hmore] at h
      obtain ⟨rfl, rfl⟩ := Prod.mk.inj (Option.some.inj (Except.ok.inj h))
      have hsmall : octet.toNat < 128 := (Septets.last_iff octet).mp (not_not.mp hmore)
      have hdigit : UInt8.ofNat (octet.toNat % 128) = octet := by
        apply UInt8.toNat_inj.mp
        rw [Septets.low_octet_toNat hlow]
        omega
      unfold arcOctets
      rw [hpush, Septets.octets_push hlow, hdigit, List.append_assoc]
      rfl

/-! ## The validator -/

/-- The octets before the last one leave an arc open. -/
theorem oid_loop_high {number : Nat} (h : number ≠ 0) (rest : Bytes) :
    oidLoop true (Septets.high number ++ rest) = oidLoop false rest := by
  induction number using Nat.strongRecOn generalizing rest with
  | ind number ih =>
    have hgroup : number % 128 < 128 := Nat.mod_lt _ (by norm_num)
    have hoctet := Septets.high_octet_toNat hgroup
    have hmore : decide (UInt8.ofNat (128 + number % 128) &&& 0x80 = 0) = false :=
      decide_eq_false (mt (Septets.last_iff _).mp (by omega))
    rw [Septets.high_of_ne_zero h, List.append_assoc, List.singleton_append]
    by_cases hfirst : number / 128 = 0
    · have hredundant : UInt8.ofNat (128 + number % 128) ≠ 0x80 := by
        intro heq
        rw [heq] at hoctet
        have : (0x80 : UInt8).toNat = 128 := rfl
        omega
      rw [hfirst, Septets.high_zero, List.nil_append, oidLoop, hmore,
        if_neg (by simpa using hredundant)]
    · rw [ih (number / 128) (by omega) hfirst, oidLoop, hmore, if_neg (by simp)]

/-- The validator goes on behind a subidentifier. -/
theorem oid_loop_octets (arc : UInt64) (rest : Bytes) :
    oidLoop true (arcOctets arc ++ rest) = oidLoop true rest := by
  have hgroup : arc.toNat % 128 < 128 := Nat.mod_lt _ (by norm_num)
  have hoctet := Septets.low_octet_toNat hgroup
  have hlast : decide (UInt8.ofNat (arc.toNat % 128) &&& 0x80 = 0) = true :=
    decide_eq_true ((Septets.last_iff _).mpr (by omega))
  unfold arcOctets Septets.octets
  rw [List.append_assoc, List.singleton_append]
  by_cases hfirst : arc.toNat / 128 = 0
  · have hredundant : UInt8.ofNat (arc.toNat % 128) ≠ 0x80 := by
      intro heq
      rw [heq] at hoctet
      have : (0x80 : UInt8).toNat = 128 := rfl
      omega
    rw [hfirst, Septets.high_zero, List.nil_append, oidLoop, hlast,
      if_neg (by simpa using hredundant)]
  · rw [oid_loop_high hfirst, oidLoop, hlast, if_neg (by simp)]

/-- Encoded arcs are a valid object identifier. -/
theorem validate_oid_octets {subs : List UInt64} (h : subs ≠ []) :
    validateOid (oidOctets subs) = true := by
  have hloop : ∀ subs : List UInt64, oidLoop true (oidOctets subs) = true := by
    intro subs
    induction subs with
    | nil => rfl
    | cons arc subs ih =>
      show oidLoop true (arcOctets arc ++ oidOctets subs) = true
      rw [oid_loop_octets, ih]
  obtain ⟨first, rest, rfl⟩ := List.exists_cons_of_ne_nil h
  have hnonempty : (oidOctets (first :: rest)).isEmpty = false := by
    show (arcOctets first ++ oidOctets rest).isEmpty = false
    unfold arcOctets Septets.octets
    simp
  unfold validateOid
  rw [hnonempty, hloop]
  rfl

/-- The validator went on behind what is read as a subidentifier. -/
theorem oid_loop_read {data rest : Bytes} {start arc : UInt64} {fresh : Bool}
    (h : readArc data start = .ok (some (arc, rest))) (hvalid : oidLoop fresh data = true) :
    oidLoop true rest = true := by
  induction data generalizing start fresh with
  | nil => cases h
  | cons octet data ih =>
    rw [oidLoop] at hvalid
    split at hvalid
    · cases hvalid
    rw [readArc] at h
    split at h
    · cases h
    dsimp only at h
    split at h
    · exact ih h hvalid
    next hlast =>
      obtain ⟨rfl, rfl⟩ := Prod.mk.inj (Option.some.inj (Except.ok.inj h))
      rwa [decide_eq_true (not_not.mp hlast)] at hvalid

/-! ## Decoding of identifiers -/

theorem arc_octets_cons (arc : UInt64) : ∃ first rest, arcOctets arc = first :: rest := by
  unfold arcOctets Septets.octets
  exact List.exists_cons_of_ne_nil (by simp)

/-- Every arc takes at least one octet. -/
theorem oid_octets_length (subs : List UInt64) : subs.length ≤ (oidOctets subs).length := by
  induction subs with
  | nil => exact le_refl _
  | cons arc subs ih =>
    obtain ⟨first, rest, hoctets⟩ := arc_octets_cons arc
    show subs.length + 1 ≤ (arcOctets arc ++ oidOctets subs).length
    rw [List.length_append, hoctets, List.length_cons]
    omega

/-- Subidentifiers are read into the array one behind the other. -/
theorem read_arcs_eq {maxRaw turns n : Nat} {subs : List UInt64} {raw : Vector UInt64 oidMaxArcs}
    (hturns : subs.length ≤ turns) (hmost : n + subs.length ≤ maxRaw) (hmax : maxRaw ≤ oidMaxArcs) :
    ∃ raw', readArcs maxRaw turns (oidOctets subs) raw n = .ok (some (raw', n + subs.length)) ∧
      raw'.toList.take (n + subs.length) = raw.toList.take n ++ subs := by
  induction subs generalizing turns n raw with
  | nil =>
    refine ⟨raw, ?_, (List.append_nil _).symm⟩
    cases turns <;> rfl
  | cons arc subs ih =>
    cases turns with
    | zero =>
      rw [List.length_cons] at hturns
      omega
    | succ turns =>
      rw [List.length_cons] at hturns hmost
      obtain ⟨first, rest, hoctets⟩ := arc_octets_cons arc
      obtain ⟨raw₁, hassign, htake, -⟩ :=
        @Guarded.assign_next Status _ _ n raw arc (by omega)
      obtain ⟨raw₂, hread, hlist⟩ := @ih turns (n + 1) raw₁ (by omega) (by omega)
      have hcount : n + (subs.length + 1) = n + 1 + subs.length := by omega
      refine ⟨raw₂, ?_, ?_⟩
      · have harc := read_arc_octets arc (oidOctets subs)
        show readArcs maxRaw (turns + 1) (arcOctets arc ++ oidOctets subs) raw n = _
        rw [hoctets] at harc ⊢
        rw [List.cons_append] at harc ⊢
        rw [readArcs, harc]
        simp only [bind, Except.bind]
        rw [if_neg (by omega), hassign]
        dsimp only
        rw [hread, List.length_cons, hcount]
      · rw [List.length_cons, hcount, hlist, htake, List.append_assoc]
        rfl

/-- What is read into the array are the subidentifiers of the data. -/
theorem read_arcs_some {maxRaw turns n n' : Nat} {data : Bytes}
    {raw raw' : Vector UInt64 oidMaxArcs}
    (h : readArcs maxRaw turns data raw n = .ok (some (raw', n')))
    (hvalid : oidLoop true data = true) (hn : n ≤ maxRaw) :
    ∃ subs : List UInt64, data = oidOctets subs ∧ n + subs.length ≤ maxRaw := by
  induction turns generalizing data raw n with
  | zero =>
    cases data with
    | nil => exact ⟨[], rfl, hn⟩
    | cons octet rest => cases h
  | succ turns ih =>
    cases data with
    | nil => exact ⟨[], rfl, hn⟩
    | cons octet rest =>
      rw [readArcs] at h
      obtain ⟨read, hread, h⟩ := bind_ok.mp h
      cases read with
      | none => cases h
      | some read =>
        obtain ⟨arc, behind⟩ := read
        dsimp only at h
        by_cases hfull : n ≥ maxRaw
        · rw [if_pos hfull] at h
          cases h
        rw [if_neg hfull] at h
        obtain ⟨raw₁, hassign, h⟩ := bind_ok.mp h
        have hfresh : (octet :: rest).head? ≠ some 0x80 := by
          intro hhead
          rw [oidLoop, if_pos (by simpa using Option.some.inj hhead)] at hvalid
          cases hvalid
        have hfirst := read_arc_some hread (.inr hfresh)
        obtain ⟨subs, hsubs, hcount⟩ := ih h (oid_loop_read hread hvalid) (by omega)
        refine ⟨arc :: subs, ?_, by rw [List.length_cons]; omega⟩
        show _ = arcOctets arc ++ oidOctets subs
        rw [← hsubs, ← hfirst]
        show _ = Septets.high 0 ++ _
        rw [Septets.high_zero, List.nil_append]

/-- The arcs of subidentifiers in their array. -/
theorem decode_arcs_eq {isOid : Bool} {subs : List UInt64} {raw : Vector UInt64 oidMaxArcs}
    (hsubs : subs ≠ []) (hmost : subs.length ≤ maxSubidentifiers isOid)
    (hraw : raw.toList.take subs.length = subs) :
    ∃ result, decodeArcs isOid raw subs.length = .ok result ∧ result.count ≤ oidMaxArcs ∧
      result.used = arcsOf isOid subs := by
  unfold decodeArcs
  cases isOid with
  | false =>
    have hbound : subs.length ≤ oidMaxArcs := hmost
    obtain ⟨arcs, hcopy, hlist⟩ := @copy_arcs_eq raw (Vector.replicate oidMaxArcs 0) subs.length
      0 0 (by omega) (by omega)
    rw [if_neg (by simp), hcopy]
    refine ⟨⟨arcs, subs.length⟩, rfl, hbound, ?_⟩
    rw [Nat.zero_add] at hlist
    show arcs.toList.take subs.length = subs
    rw [hlist]
    exact hraw
  | true =>
    have hbound : subs.length ≤ oidMaxArcs - 1 := hmost
    obtain ⟨first, rest, rfl⟩ := List.exists_cons_of_ne_nil hsubs
    rw [List.length_cons] at hbound hraw
    obtain ⟨item, hitem, hlist⟩ := @arcs_from_cons raw 0 rest.length (by
      show 0 < 32
      norm_num)
    have hparts : item :: arcsFrom raw 1 rest.length = first :: rest := by
      rw [← hraw]
      exact hlist.symm
    obtain ⟨rfl, hrest⟩ := List.cons.inj hparts
    obtain ⟨arcs₁, hassign₁, htake₁, -⟩ := @Guarded.assign_next Status _ _ 0
      (Vector.replicate oidMaxArcs 0) (splitFirstArc item).1 (by
        show 0 < 32
        norm_num)
    obtain ⟨arcs₂, hassign₂, htake₂, -⟩ := @Guarded.assign_next Status _ _ 1 arcs₁
      (splitFirstArc item).2 (by
        show 1 < 32
        norm_num)
    have hmax : oidMaxArcs = 32 := rfl
    obtain ⟨arcs₃, hcopy, hcopied⟩ :=
      @copy_arcs_eq raw arcs₂ rest.length 1 2 (by omega) (by omega)
    refine ⟨⟨arcs₃, rest.length + 1 + 1⟩, ?_, (by
      show rest.length + 1 + 1 ≤ oidMaxArcs
      omega), ?_⟩
    · rw [if_pos rfl, hitem]
      simp only [bind, Except.bind]
      rw [hassign₁]
      dsimp only
      rw [hassign₂]
      dsimp only
      rw [List.length_cons, Nat.add_sub_cancel, hcopy]
      rfl
    · show arcs₃.toList.take (rest.length + 1 + 1) =
        (splitFirstArc item).1 :: (splitFirstArc item).2 :: rest
      rw [Nat.add_assoc, Nat.add_comm, hcopied, htake₂, htake₁, hrest]
      rfl

/-- The decoder takes the octets of subidentifiers apart. -/
theorem decode_oid_eq {isOid : Bool} {subs : List UInt64} (hsubs : subs ≠ [])
    (hmost : subs.length ≤ maxSubidentifiers isOid) :
    ∃ result, result.count ≤ oidMaxArcs ∧ result.used = arcsOf isOid subs ∧
      ∀ capacity, decodeOidLike isOid (oidOctets subs) capacity = asn1Store 264 capacity result := by
  have hmax : maxSubidentifiers isOid ≤ oidMaxArcs := by
    unfold maxSubidentifiers
    split <;> omega
  obtain ⟨raw, hread, hlist⟩ := @read_arcs_eq (maxSubidentifiers isOid) (oidOctets subs).length 0
    subs (Vector.replicate oidMaxArcs 0) (oid_octets_length subs) (by omega) hmax
  rw [Nat.zero_add] at hread hlist
  obtain ⟨result, hdecode, hcount, hused⟩ := @decode_arcs_eq isOid subs raw hsubs hmost hlist
  refine ⟨result, hcount, hused, fun capacity => ?_⟩
  unfold decodeOidLike
  rw [validate_oid_octets hsubs, if_neg (by simp)]
  show (readArcs (maxSubidentifiers isOid) (oidOctets subs).length (oidOctets subs) _ 0 >>= _) = _
  rw [hread]
  simp only [bind, Except.bind]
  rw [hdecode]

/-- What the decoder accepts are the octets of subidentifiers. -/
theorem decode_oid_ok {isOid : Bool} {data : Bytes} {capacity : Nat} {input : Asn1Oid}
    (h : decodeOidLike isOid data capacity = .ok input) :
    ∃ subs : List UInt64, subs ≠ [] ∧ subs.length ≤ maxSubidentifiers isOid ∧
      data = oidOctets subs := by
  unfold decodeOidLike at h
  cases hvalid : validateOid data with
  | false =>
    rw [hvalid] at h
    cases h
  | true =>
    rw [hvalid, if_neg (by simp)] at h
    change (readArcs (maxSubidentifiers isOid) data.length data _ 0 >>= _) = _ at h
    simp only [validateOid, Bool.and_eq_true, Bool.not_eq_true', List.isEmpty_eq_false_iff]
      at hvalid
    obtain ⟨read, hread, h⟩ := bind_ok.mp h
    cases read with
    | none => cases h
    | some read =>
      obtain ⟨raw, n⟩ := read
      obtain ⟨subs, hdata, hcount⟩ := read_arcs_some hread hvalid.2 (Nat.zero_le _)
      rw [Nat.zero_add] at hcount
      refine ⟨subs, fun hnil => hvalid.1 ?_, hcount, hdata⟩
      rw [hdata, hnil]
      rfl

end Decode

/-- The same arcs in use. -/
def Asn1Oid.Same (input other : Asn1Oid) : Prop :=
  other.used = input.used ∧ other.count = input.count

/-- The codecs of object identifiers are inverse on both sides. -/
theorem oid_inverse (isOid : Bool) :
    Inverse Asn1Oid.Same 264 validateOid (encodeOidLike isOid) (decodeOidLike isOid) := by
  refine ⟨fun input destination result h => ?_, fun data capacity input _ h destination => ?_⟩
  · by_cases hadmitted : input.count ≤ oidMaxArcs ∧
        ∃ subs, subidentifiers isOid input.used = some subs
    · obtain ⟨hcount, subs, hsubs⟩ := hadmitted
      obtain ⟨harcs, hnonempty, hlength⟩ := arcs_of_subidentifiers hsubs
      have hused := used_length hcount
      have hmost : subs.length ≤ maxSubidentifiers isOid := by
        unfold maxSubidentifiers
        cases isOid with
        | false =>
          rw [if_neg (by simp)] at hlength ⊢
          omega
        | true =>
          rw [if_pos rfl] at hlength ⊢
          omega
      obtain ⟨other, hother, hdecoded, hdecode⟩ := decode_oid_eq hnonempty hmost
      have hsame : other.used = input.used := hdecoded.trans harcs
      refine ⟨oidOctets subs, encode_oid_eq hcount hsubs, validate_oid_octets hnonempty,
        fun capacity hcapacity => ⟨other, (hdecode capacity).trans
          (asn1_store_of_le other hcapacity), hsame, ?_⟩⟩
      rw [← used_length hother, hsame, hused]
    · unfold encodeOidLike at h
      rw [encode_arcs_none hadmitted] at h
      cases h
  · obtain ⟨subs, hnonempty, hmost, rfl⟩ := decode_oid_ok h
    obtain ⟨other, hother, hdecoded, hdecode⟩ := decode_oid_eq hnonempty hmost
    rw [hdecode] at h
    have hsame := asn1_store_ok h
    rw [hsame] at hdecoded hother
    exact encode_oid_eq hother (by rw [hdecoded]; exact subidentifiers_of_arcs isOid hnonempty)
      destination

end OpenTlv
