import OpenTlv.Codec.IntegerRoundTrip
import OpenTlv.Asn1.OidRoundTrip

/-!
# Internationalized identifiers survive their codecs

The contents of an identifier are labels with slashes between them. A text splits at its slashes
in one way, and since a slash never stands inside of a code point, a text is well-formed exactly
when all of its labels are.
-/

namespace OpenTlv

/-! ## Well-formed texts with slashes -/

/-- A UTF-8 step ends a character or still needs octets. -/
theorem utf8_step_fresh {state next : Utf8Stream} {octet : UInt8}
    (hstate : state = {} ∨ state.need ≠ 0) (h : utf8Step state octet = some next) :
    next = {} ∨ next.need ≠ 0 := by
  unfold utf8Step at h
  by_cases hneed : state.need = 0
  · rw [if_pos hneed] at h
    have hfresh := hstate.resolve_right (not_not.mpr hneed)
    split at h
    · exact .inl ((Option.some.inj h).symm.trans hfresh)
    split at h
    · exact .inr (by rw [← Option.some.inj h]; show (2 : Nat) ≠ 0; omega)
    split at h
    · exact .inr (by rw [← Option.some.inj h]; show (3 : Nat) ≠ 0; omega)
    split at h
    · exact .inr (by rw [← Option.some.inj h]; show (4 : Nat) ≠ 0; omega)
    · cases h
  · rw [if_neg hneed] at h
    split at h
    · cases h
    dsimp only at h
    split at h
    · split at h
      · exact .inl (Option.some.inj h).symm
      · cases h
    · exact .inr (by rw [← Option.some.inj h]; exact hneed)

/-- Between code points nothing is kept. -/
theorem utf8_update_fresh {value : Bytes} {state next : Utf8Stream}
    (hstate : state = {} ∨ state.need ≠ 0) (h : utf8StreamUpdate state value = some next) :
    next = {} ∨ next.need ≠ 0 := by
  induction value generalizing state with
  | nil => exact Option.some.inj h ▸ hstate
  | cons octet value ih =>
    unfold utf8StreamUpdate at h
    rw [List.foldlM_cons] at h
    cases hstep : utf8Step state octet with
    | none =>
      rw [hstep] at h
      cases h
    | some middle =>
      rw [hstep] at h
      exact ih (utf8_step_fresh hstate hstep) h

/-- A text is well-formed when both of its sides of a slash are. -/
theorem utf8_validate_slash (front rest : Bytes) :
    utf8Validate (front ++ 0x2F :: rest) = (utf8Validate front && utf8Validate rest) := by
  have hsplit : utf8StreamUpdate {} (front ++ 0x2F :: rest) =
      utf8StreamUpdate {} front >>= fun middle => utf8Step middle 0x2F >>= fun middle =>
        utf8StreamUpdate middle rest := by
    unfold utf8StreamUpdate
    rw [List.foldlM_append]
    rfl
  unfold utf8Validate
  rw [hsplit]
  cases hfront : utf8StreamUpdate {} front with
  | none => rfl
  | some middle =>
    simp only [bind, Option.bind]
    by_cases hneed : middle.need = 0
    · have hfresh := (utf8_update_fresh (.inl rfl) hfront).resolve_right (not_not.mpr hneed)
      have hstep : utf8Step middle 0x2F = some {} := by
        rw [hfresh]
        rfl
      rw [hstep, decide_eq_true hneed, Bool.true_and]
    · have hstep : utf8Step middle 0x2F = none := by
        unfold utf8Step
        rw [if_neg hneed]
        rfl
      rw [hstep, decide_eq_false hneed, Bool.false_and]

/-! ## Labels -/

/-- Labels with slashes between them. -/
def joinLabels : List Bytes → Bytes
  | [] => []
  | [label] => label
  | label :: next :: rest => label ++ 0x2F :: joinLabels (next :: rest)

/-- The contents of an identifier. -/
def iriOctets (absolute : Bool) (labels : List Bytes) : Bytes :=
  if absolute then 0x2F :: joinLabels labels else joinLabels labels

/-- Labels without slashes. -/
def SlashFree (labels : List Bytes) : Prop :=
  ∀ label ∈ labels, ∀ octet ∈ label, octet ≠ 0x2F

/-- Labels that an identifier can have. -/
structure LabelValid (label : Bytes) : Prop where
  nonempty : label ≠ []
  text : utf8Validate label = true
  slashFree : ∀ octet ∈ label, octet ≠ 0x2F

/-- Every text splits at its slashes. -/
theorem split_labels (data : Bytes) :
    ∃ first rest, SlashFree (first :: rest) ∧ data = joinLabels (first :: rest) := by
  induction data with
  | nil => exact ⟨[], [], by simp [SlashFree], rfl⟩
  | cons octet data ih =>
    obtain ⟨first, rest, hfree, hdata⟩ := ih
    unfold SlashFree at hfree ⊢
    rw [List.forall_mem_cons] at hfree
    by_cases hslash : octet = 0x2F
    · refine ⟨[], first :: rest, ?_, ?_⟩
      · simpa using hfree
      · rw [hslash, hdata]
        rfl
    · refine ⟨octet :: first, rest, ?_, ?_⟩
      · rw [List.forall_mem_cons, List.forall_mem_cons]
        exact ⟨⟨hslash, hfree.1⟩, hfree.2⟩
      · rw [hdata]
        cases rest <;> rfl

/-- Joined labels are UTF-8 exactly when each label is. -/
theorem join_labels_utf8 (first : Bytes) (rest : List Bytes) :
    utf8Validate (joinLabels (first :: rest)) = (first :: rest).all utf8Validate := by
  induction rest generalizing first with
  | nil => exact (Bool.and_true _).symm
  | cons next rest ih =>
    show utf8Validate (first ++ 0x2F :: joinLabels (next :: rest)) = _
    rw [utf8_validate_slash, ih]
    rfl

/-- Every slash of a text is followed by another octet, which is no slash. -/
def slashesSeparate : Bytes → Bool
  | [] => true
  | octet :: rest => (octet ≠ 0x2F || rest.headD 0x2F ≠ 0x2F) && slashesSeparate rest

/-- A label without slashes keeps the separation of the rest. -/
theorem separate_append {label : Bytes} (h : ∀ octet ∈ label, octet ≠ 0x2F) (rest : Bytes) :
    slashesSeparate (label ++ rest) = slashesSeparate rest := by
  induction label with
  | nil => rfl
  | cons octet label ih =>
    rw [List.forall_mem_cons] at h
    rw [List.cons_append, slashesSeparate, decide_eq_true h.1, Bool.true_or, Bool.true_and,
      ih h.2]

theorem join_labels_head {first : Bytes} {rest : List Bytes} (h : SlashFree (first :: rest)) :
    decide ((joinLabels (first :: rest)).headD 0x2F ≠ 0x2F) = !first.isEmpty := by
  unfold SlashFree at h
  rw [List.forall_mem_cons] at h
  cases first with
  | nil => cases rest <;> rfl
  | cons octet first =>
    have hoctet := h.1 octet List.mem_cons_self
    cases rest with
    | nil => exact decide_eq_true hoctet
    | cons next rest => exact decide_eq_true hoctet

/-- The slashes separate when no label behind the first one is empty. -/
theorem join_labels_separate {first : Bytes} {rest : List Bytes} (h : SlashFree (first :: rest)) :
    slashesSeparate (joinLabels (first :: rest)) = rest.all fun label => !label.isEmpty := by
  induction rest generalizing first with
  | nil =>
    have hfree := h first List.mem_cons_self
    have hsingle := separate_append hfree []
    rw [List.append_nil] at hsingle
    exact hsingle
  | cons next rest ih =>
    have hfree := h first List.mem_cons_self
    have hrest : SlashFree (next :: rest) := fun label hlabel =>
      h label (List.mem_cons_of_mem _ hlabel)
    show slashesSeparate (first ++ 0x2F :: joinLabels (next :: rest)) = _
    rw [separate_append hfree, slashesSeparate, join_labels_head hrest, ih hrest, List.all_cons]
    rfl

/-- The checks of the validator for the last octet and for slashes next to each other. -/
theorem separate_eq_checks (first : UInt8) (rest : Bytes) :
    slashesSeparate (first :: rest) = (decide ((first :: rest).getLastD 0x2F ≠ 0x2F) &&
      !((first :: rest).zip ((first :: rest).drop 1)).any fun pair =>
        decide (pair.1 = 0x2F) && decide (pair.2 = 0x2F)) := by
  induction rest generalizing first with
  | nil =>
    rw [slashesSeparate, slashesSeparate]
    simp
  | cons second rest ih =>
    rw [slashesSeparate, ih second]
    simp only [List.headD_cons, List.drop_one, List.tail_cons, List.zip_cons_cons, List.any_cons,
      List.getLastD_cons]
    by_cases hfirst : first = 0x2F
    · by_cases hsecond : second = 0x2F
      · simp [hfirst, hsecond]
      · simp [hfirst, hsecond]
    · simp [hfirst]

/-- The validator of labels. -/
theorem validate_iri_octets {absolute : Bool} {first : Bytes} {rest : List Bytes}
    (h : SlashFree (first :: rest)) :
    validateIriArcs (iriOctets absolute (first :: rest)) absolute = true ↔
      ∀ label ∈ first :: rest, label ≠ [] ∧ utf8Validate label = true := by
  have hlabels : (∀ label ∈ first :: rest, label ≠ [] ∧ utf8Validate label = true) ↔
      (!first.isEmpty && (rest.all fun label => !label.isEmpty)) = true ∧
        (first :: rest).all utf8Validate = true := by
    simp only [Bool.and_eq_true, Bool.not_eq_true', List.isEmpty_eq_false_iff, List.all_eq_true,
      List.forall_mem_cons]
    exact ⟨fun h => ⟨⟨h.1.1, fun label hlabel => (h.2 label hlabel).1⟩, h.1.2,
      fun label hlabel => (h.2 label hlabel).2⟩, fun h => ⟨⟨h.1.1, h.2.1⟩,
        fun label hlabel => ⟨h.1.2 label hlabel, h.2.2 label hlabel⟩⟩⟩
  have hchecks : ∀ (octet : UInt8) (tail : Bytes),
      validateIriArcs (octet :: tail) absolute = true ↔ utf8Validate (octet :: tail) = true ∧
        ((octet = 0x2F) ↔ absolute = true) ∧ slashesSeparate (octet :: tail) = true := by
    intro octet tail
    rw [separate_eq_checks]
    unfold validateIriArcs
    simp only [Bool.and_eq_true, decide_eq_true_eq, List.isEmpty_cons, Bool.not_false, true_and,
      List.headD_cons, eq_iff_iff, and_assoc]
  have hhead := join_labels_head h
  have hseparate := join_labels_separate h
  have hutf8 := join_labels_utf8 first rest
  rw [hlabels, ← hutf8, ← hhead, ← hseparate]
  unfold iriOctets
  cases absolute with
  | true =>
    have hslash := utf8_validate_slash [] (joinLabels (first :: rest))
    have hstep : slashesSeparate (0x2F :: joinLabels (first :: rest)) =
        (decide ((joinLabels (first :: rest)).headD 0x2F ≠ 0x2F) &&
          slashesSeparate (joinLabels (first :: rest))) := by
      rw [slashesSeparate]
      rfl
    rw [if_pos rfl, hchecks, hstep]
    rw [List.nil_append] at hslash
    rw [hslash, Bool.and_eq_true]
    exact ⟨fun h => ⟨h.2.2, h.1.2⟩, fun h => ⟨⟨rfl, h.2⟩, by simp, h.1⟩⟩
  | false =>
    rw [if_neg (by simp)]
    cases hjoin : joinLabels (first :: rest) with
    | nil => exact ⟨fun h => (by cases h), fun h => (by cases h.1)⟩
    | cons octet tail =>
      rw [hchecks, List.headD_cons, Bool.and_eq_true, decide_eq_true_eq]
      exact ⟨fun h => ⟨⟨fun hslash => (by cases h.2.1.mp hslash), h.2.2⟩, h.1⟩,
        fun h => ⟨h.2, ⟨fun hslash => absurd hslash h.1.1, fun h => (by cases h)⟩, h.1.2⟩⟩

/-- What the validator accepts are the contents of valid labels. -/
theorem labels_of_validate {absolute : Bool} {data : Bytes}
    (h : validateIriArcs data absolute = true) :
    ∃ first rest, data = iriOctets absolute (first :: rest) ∧
      ∀ label ∈ first :: rest, LabelValid label := by
  have hfinish : ∀ first rest, SlashFree (first :: rest) →
      data = iriOctets absolute (first :: rest) →
        ∀ label ∈ first :: rest, LabelValid label := by
    intro first rest hfree hdata label hlabel
    rw [hdata, validate_iri_octets hfree] at h
    exact ⟨(h label hlabel).1, (h label hlabel).2, hfree label hlabel⟩
  cases absolute with
  | false =>
    obtain ⟨first, rest, hfree, hdata⟩ := split_labels data
    exact ⟨first, rest, hdata, hfinish first rest hfree hdata⟩
  | true =>
    cases data with
    | nil => cases h
    | cons octet data =>
      have hslash : octet = 0x2F := by
        unfold validateIriArcs at h
        simp only [Bool.and_eq_true, decide_eq_true_eq, List.headD_cons, eq_iff_iff] at h
        exact h.1.1.2.mpr trivial
      obtain ⟨first, rest, hfree, hdata⟩ := split_labels data
      have hoctets : octet :: data = iriOctets true (first :: rest) := by
        rw [hslash, hdata]
        rfl
      exact ⟨first, rest, hoctets, hfinish first rest hfree hoctets⟩

/-- The contents of valid labels are accepted. -/
theorem validate_labels {absolute : Bool} {first : Bytes} {rest : List Bytes}
    (h : ∀ label ∈ first :: rest, LabelValid label) :
    validateIriArcs (iriOctets absolute (first :: rest)) absolute = true :=
  (validate_iri_octets fun label hlabel => (h label hlabel).slashFree).mpr fun label hlabel =>
    ⟨(h label hlabel).nonempty, (h label hlabel).text⟩

/-! ## Splitting -/

section Split

variable {data : Bytes}

/-- The loop goes past the octets of a label. -/
theorem split_arcs_label {label front behind : Bytes} {remaining arcStart : Nat} {result : Asn1Iri}
    (hfree : ∀ octet ∈ label, octet ≠ 0x2F) (hdata : data = front ++ (label ++ behind)) :
    splitArcs data (label.length + remaining) front.length arcStart result =
      splitArcs data remaining (front.length + label.length) arcStart result := by
  induction label generalizing front with
  | nil => rw [List.length_nil, Nat.zero_add, Nat.add_zero]
  | cons octet label ih =>
    rw [List.forall_mem_cons] at hfree
    have hread : arcEnds data front.length = .ok false := by
      have hinside : front.length ≠ data.length := by
        rw [hdata, List.length_append, List.length_append, List.length_cons]
        omega
      unfold arcEnds
      rw [if_neg hinside, hdata, List.cons_append, Guarded.octet_behind front octet _ rfl]
      show Except.ok (decide (octet = 0x2F)) = _
      rw [decide_eq_false hfree.1]
    have hrest := @ih (front ++ [octet]) hfree.2 (by rw [hdata]; simp)
    rw [List.length_append, List.length_singleton] at hrest
    rw [List.length_cons, Nat.add_right_comm, splitArcs, hread]
    simp only [bind, Except.bind]
    rw [if_neg (by simp), hrest, Nat.add_assoc, Nat.add_comm 1]

/-- One label of the loop, up to the end of the data or to the next slash. -/
theorem split_arcs_turn {label front behind : Bytes} {remaining : Nat} {result : Asn1Iri}
    (hfree : ∀ octet ∈ label, octet ≠ 0x2F) (hdata : data = front ++ (label ++ behind))
    (hbehind : behind = [] ∨ ∃ rest, behind = 0x2F :: rest) :
    splitArcs data (label.length + (remaining + 1)) front.length front.length result =
      if result.count ≥ iriMaxArcs then .ok none
      else Guarded.assign result.arcs result.count (.octets label) >>= fun arcs =>
        splitArcs data remaining (front.length + label.length + 1)
          (front.length + label.length + 1) ⟨arcs, result.count + 1⟩ := by
  have hread : arcEnds data (front.length + label.length) = .ok true := by
    unfold arcEnds
    obtain rfl | ⟨rest, rfl⟩ := hbehind
    · rw [if_pos (by rw [hdata]; simp)]
    · have hinside : front.length + label.length ≠ data.length := by
        rw [hdata]
        simp only [List.length_append, List.length_cons]
        omega
      rw [if_neg hinside, hdata, ← List.append_assoc,
        Guarded.octet_behind (front ++ label) 0x2F rest List.length_append]
      rfl
  have hslice : (Guarded.slice data front.length (front.length + label.length - front.length) :
      CodecResult Bytes) = .ok label := by
    rw [hdata]
    exact Guarded.slice_behind front label behind rfl (by omega)
  rw [split_arcs_label hfree hdata, splitArcs, hread]
  simp only [bind, Except.bind]
  rw [if_pos trivial, hslice]

/-- The loop over all labels. -/
theorem split_arcs_eq {first : Bytes} {rest : List Bytes} {front : Bytes} {result : Asn1Iri}
    (hfree : SlashFree (first :: rest)) (hdata : data = front ++ joinLabels (first :: rest)) :
    if result.count + (first :: rest).length ≤ iriMaxArcs then
      ∃ result', splitArcs data ((joinLabels (first :: rest)).length + 1) front.length front.length
          result = .ok (some result') ∧ result'.count = result.count + (first :: rest).length ∧
        result'.arcs.toList.take result'.count =
          result.arcs.toList.take result.count ++ (first :: rest).map .octets
    else splitArcs data ((joinLabels (first :: rest)).length + 1) front.length front.length result =
      .ok none := by
  induction rest generalizing first front result with
  | nil =>
    have hlabel := hfree first List.mem_cons_self
    have hturn := @split_arcs_turn data first front [] 0 result hlabel
      (by rw [List.append_nil]; exact hdata) (.inl rfl)
    rw [Nat.zero_add] at hturn
    rw [show (joinLabels [first]).length + 1 = first.length + 1 from rfl, hturn,
      List.length_singleton]
    by_cases hroom : result.count + 1 ≤ iriMaxArcs
    · obtain ⟨arcs, hassign, htake, -⟩ := @Guarded.assign_next Status _ _ result.count result.arcs
        (.octets first) (by omega)
      rw [if_pos hroom]
      refine ⟨⟨arcs, result.count + 1⟩, ?_, rfl, htake⟩
      rw [if_neg (by omega), hassign]
      rfl
    · rw [if_neg hroom, if_pos (by omega)]
  | cons next rest ih =>
    have hlabel := hfree first List.mem_cons_self
    have hrest : SlashFree (next :: rest) := fun label hlabel =>
      hfree label (List.mem_cons_of_mem _ hlabel)
    have hdata' : data = front ++ (first ++ 0x2F :: joinLabels (next :: rest)) := hdata
    have hturn := @split_arcs_turn data first front _ ((joinLabels (next :: rest)).length + 1)
      result hlabel hdata' (.inr ⟨_, rfl⟩)
    have hturns : (joinLabels (first :: next :: rest)).length + 1 =
        first.length + ((joinLabels (next :: rest)).length + 1 + 1) := by
      show (first ++ 0x2F :: joinLabels (next :: rest)).length + 1 = _
      rw [List.length_append, List.length_cons]
      omega
    have hfront : (front ++ (first ++ [0x2F])).length = front.length + first.length + 1 := by
      simp only [List.length_append, List.length_singleton]
      omega
    rw [hturns, hturn]
    by_cases hfull : result.count ≥ iriMaxArcs
    · rw [if_neg (by rw [List.length_cons]; omega), if_pos hfull]
    obtain ⟨arcs, hassign, htake, -⟩ := @Guarded.assign_next Status _ _ result.count result.arcs
      (.octets first) (by omega)
    have hnext := @ih next (front ++ (first ++ [0x2F])) ⟨arcs, result.count + 1⟩ hrest
      (by rw [hdata']; simp)
    have hcount : result.count + (first :: next :: rest).length =
        result.count + 1 + (next :: rest).length := by
      rw [List.length_cons]
      omega
    rw [hfront] at hnext
    dsimp only at hnext
    rw [if_neg hfull, hassign, hcount]
    by_cases hroom : result.count + 1 + (next :: rest).length ≤ iriMaxArcs
    · rw [if_pos hroom] at hnext ⊢
      obtain ⟨result', hsplit, hcount', hlist⟩ := hnext
      refine ⟨result', hsplit, hcount', ?_⟩
      rw [hlist, htake, List.append_assoc]
      rfl
    · rw [if_neg hroom] at hnext ⊢
      exact hnext

end Split

/-- The arcs in use. -/
def Asn1Iri.used (input : Asn1Iri) : List Asn1Span :=
  input.arcs.toList.take input.count

/-- The decoder splits the contents of valid labels and stores the arcs. -/
theorem decode_iri_split {absolute : Bool} {first : Bytes} {rest : List Bytes}
    (h : ∀ label ∈ first :: rest, LabelValid label) {front : Bytes}
    (hfront : front.length = if absolute then 1 else 0)
    (hdata : iriOctets absolute (first :: rest) = front ++ joinLabels (first :: rest))
    (capacity : Nat) :
    decodeIriLike absolute (iriOctets absolute (first :: rest)) capacity =
      (splitArcs (iriOctets absolute (first :: rest)) ((joinLabels (first :: rest)).length + 1)
        front.length front.length ⟨Vector.replicate iriMaxArcs (.null 0), 0⟩ >>= fun split =>
          match split with
          | none => .error (.code .invalidValue)
          | some result => asn1Store 520 capacity result) := by
  have hturns : (iriOctets absolute (first :: rest)).length + 1 - front.length =
      (joinLabels (first :: rest)).length + 1 := by
    rw [hdata, List.length_append]
    omega
  unfold decodeIriLike
  rw [validate_labels h, ← hturns, hfront]
  exact if_neg (by simp)

/-- The decoder takes the contents of valid labels apart, unless there are too many. -/
theorem decode_iri_eq {absolute : Bool} {first : Bytes} {rest : List Bytes}
    (h : ∀ label ∈ first :: rest, LabelValid label) :
    if (first :: rest).length ≤ iriMaxArcs then
      ∃ result : Asn1Iri, result.count = (first :: rest).length ∧
        result.used = (first :: rest).map .octets ∧ ∀ capacity,
          decodeIriLike absolute (iriOctets absolute (first :: rest)) capacity =
            asn1Store 520 capacity result
    else ∀ capacity, decodeIriLike absolute (iriOctets absolute (first :: rest)) capacity =
      .error (.code .invalidValue) := by
  have hfree : SlashFree (first :: rest) := fun label hlabel => (h label hlabel).slashFree
  obtain ⟨front, hfront, hdata⟩ : ∃ front : Bytes, front.length = (if absolute then 1 else 0) ∧
      iriOctets absolute (first :: rest) = front ++ joinLabels (first :: rest) := by
    cases absolute with
    | false => exact ⟨[], rfl, rfl⟩
    | true => exact ⟨[0x2F], rfl, rfl⟩
  have hdecode := decode_iri_split h hfront hdata
  have hsplit := @split_arcs_eq _ first rest front ⟨Vector.replicate iriMaxArcs (.null 0), 0⟩ hfree
    hdata
  dsimp only at hsplit
  rw [Nat.zero_add] at hsplit
  by_cases hmost : (first :: rest).length ≤ iriMaxArcs
  · rw [if_pos hmost] at hsplit ⊢
    obtain ⟨result, hresult, hcount, hlist⟩ := hsplit
    refine ⟨result, hcount, hlist, fun capacity => ?_⟩
    rw [hdecode, hresult]
    rfl
  · rw [if_neg hmost] at hsplit ⊢
    intro capacity
    rw [hdecode, hsplit]
    rfl

/-! ## Encoding -/

section Encode

variable {input : Asn1Iri}

/-- An arc that the encoder admits is a valid label. -/
theorem iri_arc_valid_iff (arc : Asn1Span) :
    iriArcValid arc = true ↔ ∃ label, arc = .octets label ∧ LabelValid label := by
  unfold iriArcValid
  cases arc with
  | null length =>
    have hnull : (Asn1Span.null length).isNull = true := rfl
    rw [hnull]
    simp
  | octets bytes =>
    simp only [Asn1Span.length, Asn1Span.isNull, Asn1Span.content, Bool.and_eq_true,
      Bool.not_false, decide_eq_true_eq, and_true, List.all_eq_true, Asn1Span.octets.injEq,
      exists_eq_left', ne_eq, List.length_eq_zero_iff]
    exact ⟨fun h => ⟨h.1.1, h.1.2, h.2⟩, fun h => ⟨⟨h.nonempty, h.text⟩, h.slashFree⟩⟩

/-- The arcs of a representation from an index on. -/
theorem iri_arcs_cons {i : Nat} (h : i < input.count) (hmost : input.count ≤ iriMaxArcs) :
    ∃ arc, (Guarded.item input.arcs i : CodecResult Asn1Span) = .ok arc ∧
      input.used.drop i = arc :: input.used.drop (i + 1) := by
  have hlength : input.used.length = input.count := by
    unfold Asn1Iri.used
    rw [List.length_take, Vector.length_toList]
    omega
  have hindex : i < input.used.length := by omega
  have hitem : input.arcs.toList[i]? = some input.used[i] := by
    rw [← List.getElem?_eq_getElem hindex]
    unfold Asn1Iri.used
    rw [List.getElem?_take, if_pos h]
  exact ⟨input.used[i], Guarded.item_of_lt hitem, List.drop_eq_getElem_cons hindex⟩

/-- The first loop of the encoder over valid labels. -/
theorem measure_iri_eq (hmost : input.count ≤ iriMaxArcs) {remaining i total : Nat}
    {labels : List Bytes} (hi : i + remaining = input.count)
    (hused : input.used.drop i = labels.map .octets) (h : ∀ label ∈ labels, LabelValid label) :
    measureIri input remaining i total = .ok (some (total + (joinLabels labels).length)) := by
  induction remaining generalizing i total labels with
  | zero =>
    have hnil : labels = [] := by
      have hlength := congrArg List.length hused
      unfold Asn1Iri.used at hlength
      rw [List.length_map, List.length_drop, List.length_take] at hlength
      exact List.length_eq_zero_iff.mp (by omega)
    rw [hnil]
    rfl
  | succ remaining ih =>
    obtain ⟨arc, hitem, hlist⟩ := @iri_arcs_cons input i (by omega) hmost
    rw [hused] at hlist
    obtain ⟨label, rest, rfl, harc, hrest⟩ := List.map_eq_cons_iff.mp hlist
    rw [List.forall_mem_cons] at h
    have hvalid : iriArcValid arc = true := (iri_arc_valid_iff arc).mpr ⟨label, harc.symm, h.1⟩
    have hlength : arc.length = label.length := by
      rw [← harc]
      rfl
    rw [measureIri, hitem]
    simp only [bind, Except.bind]
    rw [hvalid, if_neg (by simp), ih (by omega) hrest.symm h.2, hlength]
    congr 2
    cases rest with
    | nil =>
      have hlast := congrArg List.length hrest
      unfold Asn1Iri.used at hlast
      rw [List.map_nil, List.length_nil, List.length_drop, List.length_take,
        Vector.length_toList] at hlast
      rw [if_neg (by omega)]
      rfl
    | cons next rest =>
      have hmore := congrArg List.length hrest
      unfold Asn1Iri.used at hmore
      rw [List.map_cons, List.length_cons, List.length_drop, List.length_take] at hmore
      rw [if_pos (by omega)]
      show _ = total + (label ++ 0x2F :: joinLabels (next :: rest)).length
      rw [List.length_append, List.length_cons]
      omega

/-- An arc that is not valid stops the first loop. -/
theorem measure_iri_none (hmost : input.count ≤ iriMaxArcs) {remaining i total : Nat}
    (hi : i + remaining = input.count)
    (h : ¬ ∀ arc ∈ input.used.drop i, iriArcValid arc = true) :
    measureIri input remaining i total = .ok none := by
  induction remaining generalizing i total with
  | zero =>
    refine absurd (fun arc harc => ?_) h
    unfold Asn1Iri.used at harc
    rw [List.drop_of_length_le (by rw [List.length_take]; omega)] at harc
    cases harc
  | succ remaining ih =>
    obtain ⟨arc, hitem, hlist⟩ := @iri_arcs_cons input i (by omega) hmost
    rw [hlist, List.forall_mem_cons, not_and] at h
    rw [measureIri, hitem]
    simp only [bind, Except.bind]
    cases hvalid : iriArcValid arc with
    | false => rfl
    | true =>
      rw [if_neg (by simp)]
      exact ih (by omega) (h hvalid)

/-- The second loop of the encoder over valid labels. -/
theorem store_iri_eq (hmost : input.count ≤ iriMaxArcs) {remaining i offset : Nat}
    {labels : List Bytes} {front out : Bytes} (hi : i + remaining = input.count)
    (hused : input.used.drop i = labels.map .octets) (hoffset : front.length = offset)
    (hroom : offset + (joinLabels labels).length ≤ out.length) :
    storeIri input remaining i offset (Octets.store out 0 front) =
      .ok (Octets.store out 0 (front ++ joinLabels labels)) := by
  induction remaining generalizing i offset labels front with
  | zero =>
    have hnil : labels = [] := by
      have hlength := congrArg List.length hused
      unfold Asn1Iri.used at hlength
      rw [List.length_map, List.length_drop, List.length_take] at hlength
      exact List.length_eq_zero_iff.mp (by omega)
    rw [hnil]
    show Except.ok (Octets.store out 0 front) = .ok (Octets.store out 0 (front ++ []))
    rw [List.append_nil]
  | succ remaining ih =>
    obtain ⟨arc, hitem, hlist⟩ := @iri_arcs_cons input i (by omega) hmost
    rw [hused] at hlist
    obtain ⟨label, rest, rfl, rfl, hrest⟩ := List.map_eq_cons_iff.mp hlist
    have hused' : (rest.map Asn1Span.octets).length = input.count - (i + 1) := by
      rw [hrest, List.length_drop]
      unfold Asn1Iri.used
      rw [List.length_take, Vector.length_toList]
      omega
    rw [storeIri, hitem]
    simp only [bind, Except.bind]
    have hcontent : (Asn1Span.octets label).content = label := rfl
    have hspan : (Asn1Span.octets label).length = label.length := rfl
    rw [hcontent, hspan]
    cases rest with
    | nil =>
      rw [List.map_nil, List.length_nil] at hused'
      have hjoin : joinLabels [label] = label := rfl
      rw [hjoin] at hroom ⊢
      rw [Guarded.put_store hoffset hroom]
      dsimp only
      have hend := @ih (i + 1) (offset + label.length) [] (front ++ label) (by omega)
        hrest.symm (by rw [List.length_append, hoffset]) (by
          show offset + label.length + 0 ≤ _
          omega)
      rw [if_neg (by omega), hend]
      show Except.ok (Octets.store out 0 (front ++ label ++ [])) = _
      rw [List.append_nil]
    | cons next rest =>
      rw [List.map_cons, List.length_cons] at hused'
      have hjoin : joinLabels (label :: next :: rest) =
          label ++ 0x2F :: joinLabels (next :: rest) := rfl
      rw [hjoin, List.length_append, List.length_cons] at hroom
      have hnext := @ih (i + 1) (offset + label.length + 1) (next :: rest)
        (front ++ label ++ [0x2F]) (by omega) hrest.symm (by
          rw [List.length_append, List.length_append, hoffset]
          rfl) (by omega)
      rw [Guarded.put_store hoffset (by omega)]
      dsimp only
      rw [if_pos (by omega), Guarded.put_store (by rw [List.length_append, hoffset]) (by
        rw [List.length_singleton]
        omega)]
      dsimp only
      rw [hnext, hjoin, List.append_assoc, List.append_assoc]
      rfl

/-- The encoder stores the contents of valid labels. -/
theorem encode_iri_eq {absolute : Bool} {first : Bytes} {rest : List Bytes}
    (hmost : input.count ≤ iriMaxArcs) (hused : input.used = (first :: rest).map .octets)
    (h : ∀ label ∈ first :: rest, LabelValid label) (destination : Option Bytes) :
    encodeIriLike absolute input destination =
      stored (iriOctets absolute (first :: rest)) destination := by
  have hcount : input.count ≠ 0 := by
    intro hzero
    unfold Asn1Iri.used at hused
    rw [hzero] at hused
    cases hused
  have hmeasure := @measure_iri_eq input hmost input.count 0 (if absolute then 1 else 0)
    (first :: rest) (Nat.zero_add _) hused h
  have hlength : (if absolute then 1 else 0) + (joinLabels (first :: rest)).length =
      (iriOctets absolute (first :: rest)).length := by
    unfold iriOctets
    cases absolute with
    | false => exact Nat.zero_add _
    | true => exact Nat.add_comm _ _
  unfold encodeIriLike
  rw [if_neg (by omega)]
  dsimp only
  rw [hmeasure, hlength]
  simp only [bind, Except.bind]
  cases destination with
  | none => rfl
  | some data =>
    dsimp only
    by_cases hroom : data.length < (iriOctets absolute (first :: rest)).length
    · rw [if_pos hroom, stored_of_lt hroom]
    rw [if_neg hroom, stored_of_le (by omega)]
    unfold iriOctets at hroom hlength ⊢
    cases absolute with
    | false =>
      rw [if_neg (by simp)] at hroom
      have hstore := @store_iri_eq input hmost input.count 0 0 (first :: rest) [] data
        (Nat.zero_add _) hused rfl (by omega)
      rw [Guarded.store_nil, List.nil_append] at hstore
      simp only [Bool.false_eq_true, if_false]
      rw [hstore]
      rfl
    | true =>
      rw [if_pos rfl, List.length_cons] at hroom
      have hstore := @store_iri_eq input hmost input.count 0 1 (first :: rest) [0x2F] data
        (Nat.zero_add _) hused rfl (by omega)
      simp only [if_true]
      rw [Guarded.put_first (by rw [List.length_singleton]; omega)]
      dsimp only
      rw [hstore]
      rfl

end Encode

/-- The same labels. -/
def Asn1Iri.Same (input other : Asn1Iri) : Prop :=
  other.used.map Asn1Span.content = input.used.map Asn1Span.content ∧ other.count = input.count

/-- The codecs of internationalized identifiers are inverse on both sides. -/
theorem iri_inverse (absolute : Bool) :
    Inverse Asn1Iri.Same 520 (fun data => validateIriArcs data absolute) (encodeIriLike absolute)
      (decodeIriLike absolute) := by
  refine ⟨fun input destination result h => ?_, fun data capacity input _ h destination => ?_⟩
  · by_cases hcount : input.count = 0 ∨ input.count > iriMaxArcs
    · unfold encodeIriLike at h
      rw [if_pos hcount] at h
      cases h
    have hlength : input.used.length = input.count := by
      unfold Asn1Iri.used
      rw [List.length_take, Vector.length_toList]
      omega
    by_cases hvalid : ∀ arc ∈ input.used, iriArcValid arc = true
    · have hlabels : ∀ arc ∈ input.used, arc = .octets arc.content ∧ LabelValid arc.content := by
        intro arc harc
        obtain ⟨label, rfl, hlabel⟩ := (iri_arc_valid_iff arc).mp (hvalid arc harc)
        exact ⟨rfl, hlabel⟩
      have hused : input.used = (input.used.map Asn1Span.content).map .octets := by
        rw [List.map_map]
        conv_lhs => rw [← List.map_id input.used]
        exact List.map_congr_left fun arc harc => (hlabels arc harc).1
      obtain ⟨first, rest, hlist⟩ := List.exists_cons_of_length_pos
        (show 0 < (input.used.map Asn1Span.content).length by rw [List.length_map]; omega)
      have hall : ∀ label ∈ first :: rest, LabelValid label := by
        rw [← hlist]
        intro label hlabel
        obtain ⟨arc, harc, rfl⟩ := List.mem_map.mp hlabel
        exact (hlabels arc harc).2
      have hmost : (first :: rest).length ≤ iriMaxArcs := by
        rw [← hlist, List.length_map]
        omega
      have hdecode := @decode_iri_eq absolute first rest hall
      rw [if_pos hmost] at hdecode
      obtain ⟨other, hother, hsame, hdecode⟩ := hdecode
      rw [hlist] at hused
      refine ⟨iriOctets absolute (first :: rest), encode_iri_eq (by omega) hused hall,
        validate_labels hall, fun capacity hcapacity => ⟨other, (hdecode capacity).trans
          (asn1_store_of_le other hcapacity), ?_, ?_⟩⟩
      · rw [hsame, hused]
      · rw [hother, ← hlist, List.length_map, hlength]
    · have hmeasure := @measure_iri_none input (by omega) input.count 0 (if absolute then 1 else 0)
        (Nat.zero_add _) hvalid
      unfold encodeIriLike at h
      rw [if_neg hcount] at h
      dsimp only at h
      rw [hmeasure] at h
      cases h
  · cases hvalid : validateIriArcs data absolute with
    | false =>
      unfold decodeIriLike at h
      rw [hvalid] at h
      cases h
    | true =>
      obtain ⟨first, rest, rfl, hall⟩ := labels_of_validate hvalid
      have hdecode := @decode_iri_eq absolute first rest hall
      by_cases hmost : (first :: rest).length ≤ iriMaxArcs
      · rw [if_pos hmost] at hdecode
        obtain ⟨other, hother, hsame, hdecode⟩ := hdecode
        rw [hdecode] at h
        have hinput := asn1_store_ok h
        rw [hinput] at hother hsame
        exact encode_iri_eq (by omega) hsame hall destination
      · rw [if_neg hmost] at hdecode
        rw [hdecode] at h
        cases h

/-- The value codecs of universal types are inverse on both sides: of integers, bit strings, object
identifiers, relative identifiers, `GeneralizedTime`, and of both internationalized identifiers. -/
theorem asn1_codecs_inverse :
    Inverse Eq 8 validateInteger encodeInteger Int64Minimal.decodeInteger ∧
      Inverse Asn1BitString.Same 24 validateBitString encodeBitString decodeBitString ∧
        Inverse Asn1Oid.Same 264 validateOid (encodeOidLike true) (decodeOidLike true) ∧
          Inverse Asn1Oid.Same 264 validateOid (encodeOidLike false) (decodeOidLike false) ∧
            Inverse Asn1GeneralizedTime.Same 32 validateGeneralizedTime encodeGeneralizedTime
              decodeGeneralizedTime ∧
              Inverse Asn1Iri.Same 520 (fun data => validateIriArcs data true)
                (encodeIriLike true) (decodeIriLike true) ∧
                Inverse Asn1Iri.Same 520 (fun data => validateIriArcs data false)
                  (encodeIriLike false) (decodeIriLike false) :=
  ⟨integer_inverse, bit_string_inverse, oid_inverse true, oid_inverse false,
    generalized_time_inverse, iri_inverse true, iri_inverse false⟩

/-- The identifier `2.100.3`. -/
def jointIdentifier : Asn1Oid := ⟨⟨#[2, 100, 3] ++ Array.replicate 29 0, rfl⟩, 3⟩

/-- Its octets are read, written again and valid. -/
theorem asn1_codecs_inverse_joint :
    decodeOidLike true [0x81, 0x34, 0x03] 264 = .ok jointIdentifier ∧
      encodeOidLike true jointIdentifier (some [0, 0, 0, 0]) =
        .ok (3, some [0x81, 0x34, 0x03, 0]) ∧
      ∃ data decoded, stored data (some [0, 0, 0, 0]) = .ok (3, some [0x81, 0x34, 0x03, 0]) ∧
        decodeOidLike true data 264 = .ok decoded ∧ Asn1Oid.Same jointIdentifier decoded := by
  have hread : decodeOidLike true [0x81, 0x34, 0x03] 264 = .ok jointIdentifier := by
    decide +kernel
  have hinverse := asn1_codecs_inverse.2.2.1
  have hwrite : encodeOidLike true jointIdentifier (some [0, 0, 0, 0]) =
      .ok (3, some [0x81, 0x34, 0x03, 0]) :=
    hinverse.decoded _ _ _ (by decide) hread _
  obtain ⟨data, hstored, -, hback⟩ := hinverse.encoded _ _ _ hwrite
  obtain ⟨decoded, hdecoded, hsame⟩ := hback 264 (Nat.le_refl _)
  exact ⟨hread, hwrite, data, decoded, (hstored _).symm.trans hwrite, hdecoded, hsame⟩

end OpenTlv
