import OpenTlv.Asn1.Cer
import OpenTlv.Asn1.Stability

/-!
# The iterations of the CER traversal

`CerMove` lists what a successful iteration of `traverse` can do, with everything the iteration
checked. The facts about whole traversals are derived from it. Every iteration advances in the
input or is the last one, so the traversal always comes to an end.
-/

namespace OpenTlv

variable {σ : Type}

/-- One successful iteration of `traverse`. -/
inductive CerMove (job : CerJob σ) (s : CerRun σ) : CerRun σ → Prop
  | finish (hpos : s.pos = job.data.length) (hlevels : s.levels = [])
      (hsegments : ∀ segments, s.outer = some segments → segments.finish (job.base - 1) = .ok ()) :
      CerMove job s { s with ended := some none }
  | close {s' : CerRun σ} (level : CerLevel) (rest : List CerLevel)
      (hpos : s.pos + 2 ≤ job.data.length) (hfirst : job.data[s.pos]? = some 0)
      (hsecond : job.data[s.pos + 1]? = some 0) (hlevels : s.levels = level :: rest)
      (hcheck : cerCloseCheck job level s.pos = .ok ())
      (hcomplete : cerComplete job level rest s = .ok s') : CerMove job s s'
  | descend (tag : Span) (tagSize : Nat) (hfirst : job.data[s.pos]? ≠ some 0)
      (hcount : s.count ≠ job.limits.maxElements)
      (htag : (asn1ReadIdentifier (job.data.drop s.pos)).outcome = .ok tag)
      (hsize : (asn1ReadIdentifier (job.data.drop s.pos)).consumed = tagSize)
      (hlength : job.data[s.pos + tagSize]? = some berIndefinite)
      (hconstructed : asn1IsConstructed tag.bytes = true) (hparent : s.parentSegments = none)
      (hform : cerPrimitiveOnly tag.bytes = false)
      (hdepth : job.initialDepth + s.levels.length ≠ job.limits.maxDepth)
      (hroom : s.levels.length < cerMaxDepth) :
      CerMove job s { s with
        pos := s.pos + tagSize + 1
        count := s.count + 1
        levels := ⟨tag.bytes, s.pos, s.pos + tagSize, s.pos + tagSize + 1,
          cerSegments tag.bytes job.strict⟩ :: s.levels }
  | value {s' : CerRun σ} (tag : Span) (tagSize length lengthSize : Nat)
      (hfirst : job.data[s.pos]? ≠ some 0) (hcount : s.count ≠ job.limits.maxElements)
      (htag : (asn1ReadIdentifier (job.data.drop s.pos)).outcome = .ok tag)
      (hsize : (asn1ReadIdentifier (job.data.drop s.pos)).consumed = tagSize)
      (hdefinite : job.data[s.pos + tagSize]? ≠ some berIndefinite)
      (hprimitive : asn1IsConstructed tag.bytes = false)
      (hlength : (asn1ReadMinimalLength (job.data.drop (s.pos + tagSize))).outcome = .ok length)
      (hlengthSize :
        (asn1ReadMinimalLength (job.data.drop (s.pos + tagSize))).consumed = lengthSize)
      (hinside : length ≤ job.data.length - (s.pos + tagSize + lengthSize))
      (hvalue : cerValue job s tag.bytes
        ((job.data.drop (s.pos + tagSize + lengthSize)).take length) (s.pos + tagSize)
        (s.pos + tagSize + lengthSize) = .ok s') : CerMove job s s'

section Fields

/-- An identifier lies in its octets and is not empty. -/
theorem asn1_read_identifier_within {data : Bytes} {tag : Span}
    (h : (asn1ReadIdentifier data).outcome = .ok tag) :
    0 < (asn1ReadIdentifier data).consumed ∧
      (asn1ReadIdentifier data).consumed ≤ data.length ∧
      tag = ⟨data.take (asn1ReadIdentifier data).consumed, some 0⟩ := by
  have hwithin := @variable_identifier_within (asn1Identifier ⟨[], 1, 1⟩) data
  unfold asn1ReadIdentifier screenedTag at h ⊢
  cases hread : variableIdentifierRead (asn1Identifier ⟨[], 1, 1⟩) data with
  | mk outcome used =>
    rw [hread] at h hwithin
    cases outcome with
    | error status => cases h
    | ok other =>
      dsimp only at h hwithin ⊢
      split at h
      · rename_i hallowed
        rw [if_pos hallowed]
        cases h
        exact hwithin rfl
      · cases h

/-- A length field lies in its octets and is not empty. -/
theorem asn1_read_minimal_length_within {data : Bytes} {length : Nat}
    (h : (asn1ReadMinimalLength data).outcome = .ok length) :
    0 < (asn1ReadMinimalLength data).consumed ∧
      (asn1ReadMinimalLength data).consumed ≤ data.length :=
  ⟨variable_length_positive h, asn1_read_minimal_length_stable.within data length h⟩

/-- The checked identifier writer stores what its reader takes whole. -/
theorem checked_identifier_law {read : ReadTag} (hread : StableField read)
    (hspan : ∀ data tag, (read data).outcome = .ok tag →
      tag = ⟨data.take (read data).consumed, some 0⟩) :
    TagLaw read (asn1WriteIdentifierChecked read) := by
  intro tag stored width h
  have hstable := hread.persists tag
  have htake := hspan tag
  unfold asn1WriteIdentifierChecked at h ⊢
  split at h
  · cases h
  · rename_i hextent
    cases hwhole : read tag with
    | mk outcome used =>
      rw [hwhole] at h hstable htake
      cases outcome with
      | error status => cases status <;> cases h
      | ok span =>
        dsimp only at h htake
        split at h
        · cases h
        · rename_i hused
          obtain rfl : used = tag.length := not_not.mp hused
          have hspan := htake span rfl
          rw [List.take_length] at hspan
          obtain ⟨-, rfl⟩ := Prod.mk.inj (Except.ok.inj h)
          refine ⟨fun hnil => hextent (.inl (by rw [hnil]; rfl)), rfl, ?_, ?_⟩
          · intro room hroom
            have hfits : ¬ room < tag.length := by omega
            rw [if_neg hextent]
            simp [storeField, hfits]
          · intro rest
            have hlong := hstable rest
            rw [FieldRead.result_ok rfl, persists_ok] at hlong
            cases hdata : read (tag ++ rest) with
            | mk outcome used' =>
              rw [hdata] at hlong
              cases outcome with
              | error status =>
                rw [FieldRead.result_error rfl] at hlong
                cases hlong
              | ok other =>
                rw [FieldRead.result_ok rfl] at hlong
                obtain ⟨rfl, rfl⟩ := Prod.mk.inj (Except.ok.inj hlong)
                rw [hspan]

theorem asn1_identifier_law : TagLaw asn1ReadIdentifier asn1WriteIdentifier :=
  checked_identifier_law asn1_read_identifier_stable
    fun _ _ h => (asn1_read_identifier_within h).2.2

theorem asn1_length_law : LengthLaw asn1ReadMinimalLength berWriteLength :=
  @variable_length_law (asn1Length 1) rfl

/-- The indefinite octet is no count. -/
theorem minimal_length_definite {data : Bytes} {length : Nat}
    (h : (asn1ReadMinimalLength data).outcome = .ok length) :
    data.head? ≠ some berIndefinite := by
  cases data with
  | nil => simp
  | cons first rest =>
    intro hfirst
    obtain rfl : first = berIndefinite := Option.some.inj hfirst
    cases h

/-- A zero octet starts no identifier. -/
theorem asn1_identifier_nonzero {data : Bytes} {tag : Span}
    (h : (asn1ReadIdentifier data).outcome = .ok tag) : data.head? ≠ some 0 := by
  cases data with
  | nil => simp
  | cons first rest =>
    intro hfirst
    obtain rfl : first = 0 := Option.some.inj hfirst
    rcases field_persists_cases (asn1_read_identifier_stable.persists [0] rest) with
      ⟨value, hshort, -⟩ | hshort | ⟨status, status', -, hlong, -⟩
    · cases hshort
    · cases hshort
    · rw [List.singleton_append, h] at hlong
      cases hlong

end Fields

section Step

variable {job : CerJob σ} {s s' : CerRun σ}

/-- The step at the end of the octets is a move. -/
theorem cer_end_cases (hpos : s.pos = job.data.length) (h : cerEnd job s = .ok s') :
    CerMove job s s' := by
  unfold cerEnd at h
  split at h
  · cases h
  · rename_i hlevels
    split at h
    · rename_i houter
      cases h
      exact .finish hpos hlevels fun segments hsegments => by
        rw [houter] at hsegments
        cases hsegments
    · rename_i segments houter
      cases hfinish : segments.finish (job.base - 1) with
      | error failed => rw [hfinish] at h; cases h
      | ok _ =>
        rw [hfinish] at h
        cases h
        refine .finish hpos hlevels fun other hother => ?_
        rw [houter] at hother
        cases hother
        exact hfinish

/-- The step at an end of contents is a move. -/
theorem cer_close_cases (hfirst : job.data[s.pos]? = some 0) (h : cerClose job s = .ok s') :
    CerMove job s s' := by
  unfold cerClose at h
  split at h
  · cases h
  · rename_i hroom
    split at h
    · cases h
    · rename_i hsecond
      split at h
      · cases h
      · rename_i level rest hlevels
        cases hcheck : cerCloseCheck job level s.pos with
        | error stop => rw [hcheck] at h; cases h
        | ok _ =>
          rw [hcheck] at h
          have hpos : s.pos + 2 ≤ job.data.length := by omega
          exact .close level rest hpos hfirst (not_not.mp hsecond) hlevels hcheck h

/-- The step at an indefinite header is a move. -/
theorem cer_open_cases {tag : Span} (hfirst : job.data[s.pos]? ≠ some 0)
    (hcount : s.count ≠ job.limits.maxElements)
    (htag : (asn1ReadIdentifier (job.data.drop s.pos)).outcome = .ok tag)
    (hlength : job.data[s.pos + (asn1ReadIdentifier (job.data.drop s.pos)).consumed]? =
      some berIndefinite)
    (h : cerOpen job s tag.bytes (asn1ReadIdentifier (job.data.drop s.pos)).consumed = .ok s') :
    CerMove job s s' := by
  unfold cerOpen at h
  dsimp only at h
  obtain ⟨hconstructed, h⟩ := guard_ok.mp h
  obtain ⟨hparent, h⟩ := guard_ok.mp h
  obtain ⟨hform, h⟩ := guard_ok.mp h
  obtain ⟨hdepth, h⟩ := guard_ok.mp h
  obtain ⟨hroom, h⟩ := guard_ok.mp h
  cases h
  exact .descend tag _ hfirst hcount htag rfl hlength (by simpa using hconstructed)
    (by simpa using hparent) (by simpa using hform) hdepth (by omega)

/-- The step at a definite header is a move. -/
theorem cer_primitive_cases {tag : Span} (hfirst : job.data[s.pos]? ≠ some 0)
    (hcount : s.count ≠ job.limits.maxElements)
    (htag : (asn1ReadIdentifier (job.data.drop s.pos)).outcome = .ok tag)
    (hdefinite : job.data[s.pos + (asn1ReadIdentifier (job.data.drop s.pos)).consumed]? ≠
      some berIndefinite)
    (h : cerPrimitive job s tag.bytes (asn1ReadIdentifier (job.data.drop s.pos)).consumed =
      .ok s') :
    CerMove job s s' := by
  unfold cerPrimitive at h
  dsimp only at h
  split at h
  · cases h
  · rename_i hprimitive
    split at h
    · cases h
    · rename_i length hlength
      split at h
      · cases h
      · rename_i hinside
        exact .value tag _ length _ hfirst hcount htag rfl hdefinite (by simpa using hprimitive)
          hlength rfl (Nat.not_lt.mp hinside) h

/-- A successful iteration is a move. -/
theorem cer_step_cases (h : cerStep job s = .ok s') : CerMove job s s' := by
  unfold cerStep at h
  split at h
  · rename_i hpos
    exact cer_end_cases hpos h
  · split at h
    · rename_i hfirst
      exact cer_close_cases hfirst h
    · rename_i hfirst
      unfold cerElement at h
      split at h
      · cases h
      · rename_i hcount
        dsimp only at h
        split at h
        · cases h
        · rename_i tag htag
          split at h
          · cases h
          · split at h
            · rename_i hlength
              exact cer_open_cases hfirst hcount htag hlength h
            · rename_i hdefinite
              exact cer_primitive_cases hfirst hcount htag hdefinite h

/-- An iteration at the end of contents of the innermost level. -/
theorem cer_step_close {level : CerLevel} {rest : List CerLevel}
    (hpos : s.pos + 2 ≤ job.data.length) (hfirst : job.data[s.pos]? = some 0)
    (hsecond : job.data[s.pos + 1]? = some 0) (hlevels : s.levels = level :: rest) :
    cerStep job s = cerCloseCheck job level s.pos >>= fun _ => cerComplete job level rest s := by
  have hmore : s.pos ≠ job.data.length := by omega
  have hroom : ¬ job.data.length - s.pos < 2 := by omega
  rw [cerStep, if_neg hmore, if_pos hfirst, cerClose, if_neg hroom,
    if_neg (not_not.mpr hsecond), hlevels]

/-- When the segments are complete, only the size of a closed level is left to check. -/
theorem cer_close_check_eq {level : CerLevel} {pos : Nat}
    (hsegments : ∀ state, level.segments = some state →
      state.finish (job.base + level.lengthOffset) = .ok ()) :
    cerCloseCheck job level pos =
      if pos - level.contentStart > job.limits.maxValueSize then
        cerFail .limit (job.base + level.lengthOffset)
      else .ok () := by
  unfold cerCloseCheck
  cases hlevel : level.segments with
  | none => rfl
  | some state =>
    dsimp only
    rw [hsegments state hlevel]
    rfl

/-- An iteration at an element of indefinite length. -/
theorem cer_step_open {tag : Span} {tagSize : Nat} (hfirst : job.data[s.pos]? ≠ some 0)
    (hcount : s.count ≠ job.limits.maxElements)
    (hread : asn1ReadIdentifier (job.data.drop s.pos) = ⟨.ok tag, tagSize⟩)
    (hlength : job.data[s.pos + tagSize]? = some berIndefinite) :
    cerStep job s = cerOpen job s tag.bytes tagSize := by
  have hhigh := (List.getElem?_eq_some_iff.mp hlength).1
  have hmore : s.pos ≠ job.data.length := by omega
  have hend : s.pos + tagSize ≠ job.data.length := by omega
  have htag : cerFields.readTag (job.data.drop s.pos) = ⟨.ok tag, tagSize⟩ := hread
  rw [cerStep, if_neg hmore, if_neg hfirst, cerElement, if_neg hcount, htag]
  dsimp only
  rw [if_neg hend, if_pos hlength]

/-- An iteration at a primitive element that lies inside the input. -/
theorem cer_step_value {tag : Span} {tagSize length lengthSize : Nat}
    (hfirst : job.data[s.pos]? ≠ some 0) (hcount : s.count ≠ job.limits.maxElements)
    (hread : asn1ReadIdentifier (job.data.drop s.pos) = ⟨.ok tag, tagSize⟩)
    (hdefinite : job.data[s.pos + tagSize]? ≠ some berIndefinite)
    (hprimitive : asn1IsConstructed tag.bytes = false)
    (hlength : asn1ReadMinimalLength (job.data.drop (s.pos + tagSize)) = ⟨.ok length, lengthSize⟩)
    (hinside : length ≤ job.data.length - (s.pos + tagSize + lengthSize)) :
    cerStep job s = cerValue job s tag.bytes
      ((job.data.drop (s.pos + tagSize + lengthSize)).take length) (s.pos + tagSize)
      (s.pos + tagSize + lengthSize) := by
  have hwithin := asn1_read_minimal_length_within (congrArg FieldRead.outcome hlength)
  rw [hlength, List.length_drop] at hwithin
  dsimp only at hwithin
  have hmore : s.pos ≠ job.data.length := by omega
  have hend : s.pos + tagSize ≠ job.data.length := by omega
  have htag : cerFields.readTag (job.data.drop s.pos) = ⟨.ok tag, tagSize⟩ := hread
  have hcounted : cerFields.readLength (job.data.drop (s.pos + tagSize)) =
      ⟨.ok length, lengthSize⟩ := hlength
  rw [cerStep, if_neg hmore, if_neg hfirst, cerElement, if_neg hcount, htag]
  dsimp only
  rw [if_neg hend, if_neg hdefinite, cerPrimitive, hprimitive]
  dsimp only
  rw [if_neg (by decide), hcounted]
  dsimp only
  rw [if_neg (Nat.not_lt.mpr hinside)]

/-- Every move is an iteration. -/
theorem CerMove.step (h : CerMove job s s') : cerStep job s = .ok s' := by
  cases h with
  | finish hpos hlevels hsegments =>
    rw [cerStep, if_pos hpos, cerEnd, hlevels]
    dsimp only
    cases houter : s.outer with
    | none => rfl
    | some segments =>
      dsimp only
      rw [hsegments segments houter]
      rfl
  | close level rest hpos hfirst hsecond hlevels hcheck hcomplete =>
    rw [cer_step_close hpos hfirst hsecond hlevels, hcheck]
    exact hcomplete
  | descend tag tagSize hfirst hcount htag hsize hlength hconstructed hparent hform hdepth hroom =>
    have hread : asn1ReadIdentifier (job.data.drop s.pos) = ⟨.ok tag, tagSize⟩ := by
      rw [← htag, ← hsize]
    rw [cer_step_open hfirst hcount hread hlength, cerOpen, hconstructed, hparent, hform,
      if_neg (by decide), if_neg (by decide), if_neg (by decide), if_neg hdepth,
      if_neg (Nat.not_le.mpr hroom)]
  | value tag tagSize length lengthSize hfirst hcount htag hsize hdefinite hprimitive hlength
      hlengthSize hinside hvalue =>
      have hread : asn1ReadIdentifier (job.data.drop s.pos) = ⟨.ok tag, tagSize⟩ := by
        rw [← htag, ← hsize]
      have hcounted : asn1ReadMinimalLength (job.data.drop (s.pos + tagSize)) =
          ⟨.ok length, lengthSize⟩ := by
        rw [← hlength, ← hlengthSize]
      rw [cer_step_value hfirst hcount hread hdefinite hprimitive hcounted hinside]
      exact hvalue

/-- The iterations that are left: octets, and one for the end. -/
def CerRun.rank (job : CerJob σ) (s : CerRun σ) : Nat :=
  job.data.length - s.pos + if s.ended.isSome then 0 else 1

/-- A visitor changes its own context and may stop the traversal. -/
theorem cer_report_ok {element : ReadElement} {depth offset : Nat}
    (h : cerReport job element depth offset s = .ok s') :
    s' = { s with context := s'.context, ended := s'.ended } ∧
      (s'.ended = s.ended ∨ s'.ended = some none) := by
  unfold cerReport at h
  split at h
  · cases h
    exact ⟨rfl, .inl rfl⟩
  · split at h
    all_goals cases h
    · exact ⟨rfl, .inl rfl⟩
    · exact ⟨rfl, .inr rfl⟩

/-- The run after a constructed element. -/
theorem cer_complete_ok {level : CerLevel} {rest : List CerLevel}
    (h : cerComplete job level rest s = .ok s') :
    s' = { s with pos := s.pos + 2, levels := rest, context := s'.context, ended := s'.ended } := by
  unfold cerComplete at h
  dsimp only at h
  split at h
  · cases h
  · rename_i reported hreport
    obtain ⟨hsame, -⟩ := cer_report_ok hreport
    split at h
    · cases h
      exact hsame
    · split at h
      · cases h
        rw [hsame]
      · cases h
        exact hsame

/-- A segment changes the segment state of its parent only. -/
theorem set_parent_tags (s : CerRun σ) (segments : SegmentState) :
    (s.setParent segments).levels.map CerLevel.tag = s.levels.map CerLevel.tag ∧
      (s.setParent segments).ended = s.ended := by
  unfold CerRun.setParent
  split
  · exact ⟨rfl, rfl⟩
  · rename_i level rest hlevels
    exact ⟨by simp [hlevels], rfl⟩

/-- An accepted value is a segment or passed the checks of its type. -/
theorem cer_accept_ok {tag value : Bytes} {lengthOffset valueOffset : Nat}
    (h : cerAccept job s tag value lengthOffset valueOffset = .ok s') :
    (s.parentSegments = none ∧ s' = s ∧
      cerValueCheck job tag value lengthOffset valueOffset = .ok ()) ∨
    ∃ segments next, s.parentSegments = some segments ∧
      segments.add tag value (job.base + s.pos) = .ok next ∧ s' = s.setParent next := by
  unfold cerAccept at h
  split at h
  · rename_i segments hparent
    cases hadd : segments.add tag value (job.base + s.pos) with
    | error failed => rw [hadd] at h; cases h
    | ok next =>
      rw [hadd] at h
      cases h
      exact .inr ⟨segments, next, hparent, hadd, rfl⟩
  · rename_i hparent
    cases hcheck : cerValueCheck job tag value lengthOffset valueOffset with
    | error stop => rw [hcheck] at h; cases h
    | ok _ =>
      rw [hcheck] at h
      cases h
      exact .inl ⟨hparent, rfl, rfl⟩

/-- The run after a primitive element. -/
theorem cer_value_ok {tag value : Bytes} {lengthOffset valueOffset : Nat}
    (h : cerValue job s tag value lengthOffset valueOffset = .ok s') :
    ∃ accepted, cerAccept job s tag value lengthOffset valueOffset = .ok accepted ∧
      s' = { accepted with
        pos := valueOffset + value.length
        count := s.count + 1
        context := s'.context
        ended := s'.ended } := by
  unfold cerValue at h
  split at h
  · cases h
  · rename_i accepted haccept
    refine ⟨accepted, haccept, ?_⟩
    dsimp only at h
    split at h
    · cases h
      rfl
    · exact (cer_report_ok h).1

/-- A move stays inside the input and leaves fewer iterations. -/
theorem CerMove.lowers (h : CerMove job s s') (hended : s.ended = none)
    (hpos : s.pos ≤ job.data.length) :
    s'.pos ≤ job.data.length ∧ s'.rank job < s.rank job := by
  have hflag : (if s'.ended.isSome then 0 else 1) ≤ 1 := by split <;> omega
  cases h with
  | finish =>
    refine ⟨hpos, ?_⟩
    simp [CerRun.rank, hended]
  | close level rest hroom _ _ _ _ hcomplete =>
    have hnext : s'.pos = s.pos + 2 := by rw [cer_complete_ok hcomplete]
    refine ⟨by omega, ?_⟩
    simp only [CerRun.rank, hended, hnext, Option.isSome_none, Bool.false_eq_true, if_false]
    omega
  | descend tag tagSize _ _ htag hsize hlength =>
    have hlow := (asn1_read_identifier_within htag).1
    have hhigh := (List.getElem?_eq_some_iff.mp hlength).1
    refine ⟨hhigh, ?_⟩
    simp only [CerRun.rank, hended, Option.isSome_none, Bool.false_eq_true, if_false]
    omega
  | value tag tagSize length lengthSize _ _ htag hsize _ _ hlength hlengthSize hinside hvalue =>
    have hlow := (asn1_read_identifier_within htag).1
    have hwithin := asn1_read_minimal_length_within hlength
    rw [List.length_drop] at hwithin
    obtain ⟨accepted, -, heq⟩ := cer_value_ok hvalue
    have hnext : s'.pos = s.pos + tagSize + lengthSize + length := by
      rw [heq, List.length_take, List.length_drop, Nat.min_eq_left hinside]
    refine ⟨by omega, ?_⟩
    simp only [CerRun.rank, hended, hnext, Option.isSome_none, Bool.false_eq_true, if_false]
    omega

end Step

end OpenTlv
