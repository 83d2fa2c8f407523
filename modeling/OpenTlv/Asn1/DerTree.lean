import OpenTlv.Asn1.CerMoves
import OpenTlv.Asn1.Der

/-!
# The elements of a DER encoding

`DerContents` says that some octets are a sequence of framed elements, whose constructed values are
again such sequences, with the height of the nesting and the number of elements.
`der_traverse_ok_iff` characterises the plain traversal by it: the traversal succeeds exactly on
contents that are not too high and do not have too many elements.
-/

namespace OpenTlv

/-- What lies inside an element for a reader that enters constructed values. -/
def ReadElement.inside (element : ReadElement) : Bytes :=
  if asn1IsConstructed element.tag then element.value else []

/-- A sequence of elements with the height of its nesting and the number of its elements. -/
inductive DerContents (limits : DerLimits) : Bytes → Nat → Nat → Prop where
  | nil : DerContents limits [] 0 0
  | cons {data : Bytes} {element : ReadElement} {used height count height' count' : Nat}
      (hread : derReadElement data 0 limits = .ok (element, used))
      (hinside : DerContents limits element.inside height count)
      (hrest : DerContents limits (data.drop used) height' count') :
      DerContents limits data (max (height + 1) height') (count + 1 + count')

section Element

variable {data : Bytes} {base : Nat} {limits : DerLimits} {element : ReadElement} {used : Nat}

/-- A DER tag lies in its octets and is not empty. -/
theorem der_read_tag_within {tag : Span} (h : (derReadTag data).outcome = .ok tag) :
    0 < (derReadTag data).consumed ∧ (derReadTag data).consumed ≤ data.length := by
  have hwithin := @asn1_read_identifier_within data
  unfold derReadTag screenedTag at h ⊢
  cases hread : asn1ReadIdentifier data with
  | mk outcome consumed =>
    rw [hread] at h hwithin
    cases outcome with
    | error status => cases h
    | ok other =>
      dsimp only at h hwithin ⊢
      split at h
      · rename_i hallowed
        rw [if_pos hallowed]
        exact ⟨(hwithin rfl).1, (hwithin rfl).2.1⟩
      · cases h

/-- What a framed element says: the header has at least two octets and the value follows it. -/
theorem der_read_element_ok (h : derReadElement data base limits = .ok (element, used)) :
    element.value.length + 2 ≤ used ∧ used ≤ data.length ∧
      element.value = (data.take used).drop (used - element.value.length) := by
  unfold derReadElement at h
  cases htag : derReadTag data with
  | mk outcome tagSize =>
    rw [htag] at h
    cases outcome with
    | error status => cases h
    | ok tag =>
      have hwithin := @der_read_tag_within data tag (by rw [htag])
      rw [htag] at hwithin
      dsimp only at h hwithin
      cases hlength : asn1ReadMinimalLength (data.drop tagSize) with
      | mk outcome lengthSize =>
        rw [hlength] at h
        cases outcome with
        | error status => cases h
        | ok length =>
          have hfield := @asn1_read_minimal_length_within (data.drop tagSize) length
            (by rw [hlength])
          rw [hlength, List.length_drop] at hfield
          dsimp only at h hfield
          obtain ⟨-, h⟩ := guard_ok.mp h
          split at h
          · cases h
          · rename_i hfits
            cases h
            have hvalue : ((data.drop (tagSize + lengthSize)).take length).length =
                length := by
              rw [List.length_take, List.length_drop]
              omega
            dsimp only
            rw [hvalue]
            refine ⟨by omega, by omega, ?_⟩
            rw [List.drop_take, Nat.add_sub_cancel]
            congr 1
            omega

/-- The base of the locations has no part in success. -/
theorem der_read_element_base (base' : Nat) :
    derReadElement data base limits = .ok (element, used) ↔
      derReadElement data base' limits = .ok (element, used) := by
  unfold derReadElement
  cases derReadTag data with
  | mk outcome tagSize =>
    cases outcome with
    | error status => simp [derFail]
    | ok tag =>
      dsimp only
      cases asn1ReadMinimalLength (data.drop tagSize) with
      | mk outcome lengthSize =>
        cases outcome with
        | error status => simp [derFail]
        | ok length =>
          dsimp only
          split
          · simp [derFail]
          · split <;> simp [derFail]

/-- Of the limits, an element reader looks at the value size. -/
theorem der_read_element_limits {limits' : DerLimits}
    (h : limits.maxValueSize = limits'.maxValueSize) :
    derReadElement data base limits = derReadElement data base limits' := by
  simp only [derReadElement, h]

theorem der_read_element_nonempty (h : derReadElement data base limits = .ok (element, used)) :
    data ≠ [] := by
  obtain ⟨hlow, hhigh, -⟩ := der_read_element_ok h
  intro hnil
  rw [hnil, List.length_nil] at hhigh
  omega

end Element

section Contents

variable {limits : DerLimits} {data : Bytes} {height count : Nat}

/-- Of the limits, contents depend only on that of a value's size. -/
theorem DerContents.of_limits {limits' : DerLimits}
    (hlimits : limits.maxValueSize = limits'.maxValueSize)
    (h : DerContents limits data height count) :
    DerContents limits' data height count := by
  induction h with
  | nil => exact .nil
  | cons hread _ _ ihinside ihrest =>
    rw [der_read_element_limits hlimits] at hread
    exact .cons hread ihinside ihrest

theorem der_contents_nil (h : DerContents limits [] height count) : height = 0 ∧ count = 0 := by
  generalize hdata : ([] : Bytes) = data at h
  cases h with
  | nil => exact ⟨rfl, rfl⟩
  | cons hread _ _ => exact absurd hdata.symm (der_read_element_nonempty hread)

/-- Contents that are not empty begin with an element. -/
theorem der_contents_cases (h : DerContents limits data height count) (hdata : data ≠ []) :
    ∃ element used height₁ count₁ height₂ count₂,
      derReadElement data 0 limits = .ok (element, used) ∧
      DerContents limits element.inside height₁ count₁ ∧
      DerContents limits (data.drop used) height₂ count₂ ∧
      height = max (height₁ + 1) height₂ ∧ count = count₁ + 1 + count₂ := by
  cases h with
  | nil => exact absurd rfl hdata
  | cons hread hinside hrest => exact ⟨_, _, _, _, _, _, hread, hinside, hrest, rfl, rfl⟩

theorem der_contents_positive (h : DerContents limits data height count) (hdata : data ≠ []) :
    0 < height := by
  obtain ⟨element, used, h₁, c₁, h₂, c₂, -, -, -, rfl, -⟩ := der_contents_cases h hdata
  omega

/-- The nesting and the number of elements are determined by the octets. -/
theorem der_contents_unique {height' count' : Nat} (h : DerContents limits data height count)
    (h' : DerContents limits data height' count') : height = height' ∧ count = count' := by
  induction h generalizing height' count' with
  | nil =>
    obtain ⟨rfl, rfl⟩ := der_contents_nil h'
    exact ⟨rfl, rfl⟩
  | cons hread _ _ ihinside ihrest =>
    obtain ⟨element, used, h₁, c₁, h₂, c₂, hread', hinside, hrest, rfl, rfl⟩ :=
      der_contents_cases h' (der_read_element_nonempty hread)
    rw [hread] at hread'
    cases hread'
    obtain ⟨rfl, rfl⟩ := ihinside hinside
    obtain ⟨rfl, rfl⟩ := ihrest hrest
    exact ⟨rfl, rfl⟩

end Contents

section Traverse

variable {σ : Type} {job : DerJob σ} {s : DerRun σ}

/-- What is ahead of a traversal: contents up to each of the ends, no deeper than allowed there,
and `total` elements at the end. -/
def DerPending (job : DerJob σ) : Nat → List Nat → Nat → Nat → Prop
  | _, [], count, total => count = total
  | pos, ending :: outer, count, total =>
    ∃ height number, DerContents job.limits ((job.data.take ending).drop pos) height number ∧
      (height = 0 ∨ job.initialDepth + outer.length + height ≤ job.limits.maxDepth + 1) ∧
      DerPending job ending outer (count + number) total

/-- The elements counted so far are within the total. -/
theorem DerPending.count_le {pos count total : Nat} {ends : List Nat}
    (h : DerPending job pos ends count total) : count ≤ total := by
  induction ends generalizing pos count with
  | nil => exact Nat.le_of_eq h
  | cons ending outer ih =>
    obtain ⟨height, number, -, -, hrest⟩ := h
    have := ih hrest
    omega

/-- A value that is used up is left. -/
theorem der_pending_leave {pos count total : Nat} {outer : List Nat} :
    DerPending job pos (pos :: outer) count total ↔ DerPending job pos outer count total := by
  have hempty : (job.data.take pos).drop pos = [] := by
    rw [List.drop_eq_nil_iff, List.length_take]
    exact Nat.min_le_left _ _
  constructor
  · rintro ⟨height, number, hcontents, -, hrest⟩
    rw [hempty] at hcontents
    obtain ⟨rfl, rfl⟩ := der_contents_nil hcontents
    exact hrest
  · intro h
    exact ⟨0, 0, by rw [hempty]; exact .nil, .inl rfl, h⟩

/-- The traversal goes on after every report, and does not look at contents. -/
structure DerJob.Resumes (job : DerJob σ) : Prop where
  visitor : ∀ visitor, job.visitor = some visitor → ∀ element depth offset context,
    (visitor element depth offset context).1 = .resume
  strict : job.strict = false

/-- The positions of a traversal are in order and in the input. -/
structure DerRun.Inside (data : Bytes) (s : DerRun σ) : Prop where
  running : s.stopped = false
  pos : s.pos ≤ s.ending
  ends : (s.ending :: s.outer).Pairwise (· ≤ ·)
  size : ∀ ending ∈ s.ending :: s.outer, ending ≤ data.length

/-- The state behind an element, at its end or inside it. -/
theorem der_pending_element {pos ending count total used : Nat} {outer : List Nat}
    {element : ReadElement}
    (hread : derReadElement ((job.data.take ending).drop pos) 0 job.limits = .ok (element, used)) :
    DerPending job pos (ending :: outer) count total ↔
      job.initialDepth + outer.length ≤ job.limits.maxDepth ∧
        ∃ height number, DerContents job.limits element.inside height number ∧
          (height = 0 ∨ job.initialDepth + outer.length + 1 + height ≤ job.limits.maxDepth + 1) ∧
          DerPending job (pos + used) (ending :: outer) (count + 1 + number) total := by
  have hdrop : ((job.data.take ending).drop pos).drop used =
      (job.data.take ending).drop (pos + used) := List.drop_drop
  constructor
  · rintro ⟨height, number, hcontents, hdepth, hrest⟩
    obtain ⟨other, used', h₁, c₁, h₂, c₂, hread', hinside, hafter, rfl, rfl⟩ :=
      der_contents_cases hcontents (der_read_element_nonempty hread)
    rw [hread] at hread'
    cases hread'
    rw [hdrop] at hafter
    refine ⟨by omega, h₁, c₁, hinside, by omega, h₂, c₂, hafter, by omega, ?_⟩
    rwa [show count + 1 + c₁ + c₂ = count + (c₁ + 1 + c₂) by omega]
  · rintro ⟨hlevel, h₁, c₁, hinside, hdepth, h₂, c₂, hafter, hdepth', hrest⟩
    rw [← hdrop] at hafter
    refine ⟨_, _, .cons hread hinside hafter, by omega, ?_⟩
    rwa [show count + (c₁ + 1 + c₂) = count + 1 + c₁ + c₂ by omega]

/-- The context after the report of an element. -/
def DerRun.reported (job : DerJob σ) (s : DerRun σ) (element : ReadElement) : σ :=
  match job.visitor with
  | none => s.context
  | some visitor =>
    (visitor element (job.initialDepth + s.outer.length) (job.base + s.pos) s.context).2

/-- An element of a traversal that goes on after every report. -/
theorem der_element_eq (hjob : job.Resumes) (hone : job.one = true → s.pos ≠ 0) :
    derElement job s =
      if job.initialDepth + s.outer.length > job.limits.maxDepth ∨
          s.count = job.limits.maxElements then
        derFail .limit (job.base + s.pos)
      else
        match derReadElement ((job.data.take s.ending).drop s.pos) (job.base + s.pos)
            job.limits with
        | .error failed => .error failed
        | .ok (element, used) =>
          derAdvance job element (s.pos + used)
            { s with count := s.count + 1, context := s.reported job element } := by
  unfold derElement
  split
  · rfl
  · cases derReadElement ((job.data.take s.ending).drop s.pos) (job.base + s.pos) job.limits with
    | error failed => rfl
    | ok read =>
      obtain ⟨element, used⟩ := read
      have hfirst : ¬ (job.one = true ∧ s.pos = 0) := fun h => hone h.1 h.2
      have hcheck : derValueCheck job.strict element
          (job.base + (s.pos + used) - element.value.length) = .ok () := by
        simp [derValueCheck, hjob.strict]
      simp only [hcheck, if_neg hfirst]
      unfold derReport DerRun.reported
      cases hvisitor : job.visitor with
      | none => rfl
      | some visitor =>
        have hresume := hjob.visitor visitor hvisitor element
          (job.initialDepth + s.outer.length) (job.base + s.pos) s.context
        cases hvisit : visitor element (job.initialDepth + s.outer.length) (job.base + s.pos)
            s.context with
        | mk result context =>
          rw [hvisit] at hresume
          dsimp only at hresume
          subst hresume
          simp only [bind, Except.bind, hvisit]

/-- The octets of the value of an element, by their place in the input. -/
theorem der_value_slice {pos ending used : Nat} {element : ReadElement}
    (hread : derReadElement ((job.data.take ending).drop pos) 0 job.limits = .ok (element, used)) :
    pos + used ≤ ending ∧ element.value =
      (job.data.take (pos + used)).drop (pos + used - element.value.length) := by
  obtain ⟨hlow, hhigh, hvalue⟩ := der_read_element_ok hread
  rw [List.length_drop, List.length_take] at hhigh
  refine ⟨by omega, ?_⟩
  conv => lhs; rw [hvalue]
  rw [List.drop_take, List.drop_drop, List.drop_take, List.take_take, List.drop_take]
  have hstart : pos + (used - element.value.length) = pos + used - element.value.length := by
    omega
  rw [hstart]
  congr 1
  omega

/-- What is left to traverse. -/
def DerRun.rank (data : Bytes) (s : DerRun σ) : Nat :=
  data.length - s.pos + s.outer.length

/-- A run of the traversal that succeeds with `total` elements. -/
def DerRun.Succeeds (job : DerJob σ) (fuel : Nat) (s : DerRun σ) (total : Nat) : Prop :=
  ∃ s', drive (Status.callback, none) DerRun.halted (derStep job) fuel s = .ok s' ∧
    s'.count = total ∧ s'.first = s.first

/-- A run succeeds when its step does and the rest succeeds. -/
theorem der_succeeds_step {fuel total : Nat} (hlive : s.halted = false) {next : DerRun σ}
    (hstep : derStep job s = .ok next) (hfirst : next.first = s.first) :
    s.Succeeds job (fuel + 1) total ↔ next.Succeeds job fuel total := by
  unfold DerRun.Succeeds
  simp [drive, hlive, hstep, hfirst, bind, Except.bind]

/-- A failing step ends the run. -/
theorem der_fails_step {fuel total : Nat} (hlive : s.halted = false)
    {failed : Status × Option Nat} (hstep : derStep job s = .error failed) :
    ¬ s.Succeeds job (fuel + 1) total := by
  rintro ⟨s', hdrive, -⟩
  simp [drive, hlive, hstep, bind, Except.bind] at hdrive

/-- A position in a value is followed by an element. -/
theorem der_step_element (hlt : s.pos < s.ending) : derStep job s = derElement job s := by
  unfold derStep
  split
  · rfl
  · rw [if_neg (by omega)]

/-- Passing over an element. -/
theorem der_advance_over {element : ReadElement} {ending : Nat} (hrunning : s.stopped = false)
    (h : ¬ (asn1IsConstructed element.tag = true ∧ element.value.length ≠ 0)) :
    derAdvance job element ending s = .ok { s with pos := ending } := by
  unfold derAdvance
  rw [if_neg (by simp [hrunning]), if_neg h]

/-- Entering an element. -/
theorem der_advance_into {element : ReadElement} {ending : Nat} (hrunning : s.stopped = false)
    (h : asn1IsConstructed element.tag = true ∧ element.value.length ≠ 0) :
    derAdvance job element ending s =
      if job.initialDepth + s.outer.length = job.limits.maxDepth then
        derFail .limit (job.base + (ending - element.value.length))
      else
        .ok { s with
          pos := ending - element.value.length
          ending := ending
          outer := s.ending :: s.outer } := by
  unfold derAdvance
  rw [if_neg (by simp [hrunning]), if_pos h]

/-- What a traversal enters is the value. -/
theorem inside_entered {element : ReadElement}
    (h : asn1IsConstructed element.tag = true ∧ element.value.length ≠ 0) :
    element.inside = element.value := by
  rw [ReadElement.inside, if_pos h.1]

/-- An element that is passed over has nothing inside. -/
theorem inside_passed {element : ReadElement}
    (h : ¬ (asn1IsConstructed element.tag = true ∧ element.value.length ≠ 0)) :
    element.inside = [] := by
  unfold ReadElement.inside
  split
  next hconstructed =>
    rw [← List.length_eq_zero_iff]
    by_contra hvalue
    exact h ⟨hconstructed, hvalue⟩
  next => rfl

section Pending

variable {pos ending count total used : Nat} {outer : List Nat} {element : ReadElement}

/-- Contents that are ahead start with an element, and the limits leave room for it. -/
theorem der_pending_reads (hlt : pos < ending) (hending : ending ≤ job.data.length)
    (h : DerPending job pos (ending :: outer) count total)
    (htotal : total ≤ job.limits.maxElements) :
    job.initialDepth + outer.length ≤ job.limits.maxDepth ∧ count < job.limits.maxElements ∧
      ∃ read, derReadElement ((job.data.take ending).drop pos) 0 job.limits = .ok read := by
  obtain ⟨height, number, hcontents, hdepth, hrest⟩ := h
  have hnonempty : (job.data.take ending).drop pos ≠ [] := by
    rw [ne_eq, List.drop_eq_nil_iff, List.length_take]
    omega
  have hheight := der_contents_positive hcontents hnonempty
  obtain ⟨element, used, _, _, _, _, hread, -, -, -, rfl⟩ :=
    der_contents_cases hcontents hnonempty
  have := hrest.count_le
  exact ⟨by omega, by omega, _, hread⟩

/-- Behind an element that is passed over. -/
theorem der_pending_over
    (hread : derReadElement ((job.data.take ending).drop pos) 0 job.limits = .ok (element, used))
    (hpass : ¬ (asn1IsConstructed element.tag = true ∧ element.value.length ≠ 0)) :
    DerPending job pos (ending :: outer) count total ↔
      job.initialDepth + outer.length ≤ job.limits.maxDepth ∧
        DerPending job (pos + used) (ending :: outer) (count + 1) total := by
  rw [der_pending_element hread, inside_passed hpass]
  refine and_congr_right fun hdepth => ⟨?_, fun hrest => ⟨0, 0, .nil, .inl rfl, hrest⟩⟩
  rintro ⟨height, number, hcontents, -, hrest⟩
  obtain ⟨rfl, rfl⟩ := der_contents_nil hcontents
  exact hrest

/-- Inside of an element that is entered. -/
theorem der_pending_into
    (hread : derReadElement ((job.data.take ending).drop pos) 0 job.limits = .ok (element, used))
    (henter : asn1IsConstructed element.tag = true ∧ element.value.length ≠ 0) :
    DerPending job pos (ending :: outer) count total ↔
      job.initialDepth + outer.length < job.limits.maxDepth ∧
        DerPending job (pos + used - element.value.length) ((pos + used) :: ending :: outer)
          (count + 1) total := by
  obtain ⟨-, hvalue⟩ := der_value_slice hread
  rw [der_pending_element hread, inside_entered henter]
  show _ ↔ _ ∧ ∃ height number, _ ∧ _ ∧ _
  rw [← hvalue]
  simp only [List.length_cons]
  constructor
  · rintro ⟨-, height, number, hcontents, hdepth, hrest⟩
    have := der_contents_positive hcontents (List.length_pos_iff.mp (by omega))
    exact ⟨by omega, height, number, hcontents, by omega, hrest⟩
  · rintro ⟨hdepth, height, number, hcontents, hlevel, hrest⟩
    exact ⟨by omega, height, number, hcontents, by omega, hrest⟩

end Pending

/-- A step of a traversal: it fails where no contents are ahead that keep to the limits, and
elsewhere goes on to what is ahead of the same contents. -/
inductive DerStepCase (job : DerJob σ) (s : DerRun σ) : DerResult (DerRun σ) → Prop where
  | failed {failure : Status × Option Nat}
      (h : ∀ total, DerPending job s.pos (s.ending :: s.outer) s.count total →
        ¬ total ≤ job.limits.maxElements) : DerStepCase job s (.error failure)
  | moved {next : DerRun σ} (first : next.first = s.first) (inside : next.Inside job.data)
      (started : job.one = true → next.pos ≠ 0) (rank : next.rank job.data < s.rank job.data)
      (count : next.count ≤ job.limits.maxElements)
      (ahead : ∀ total, DerPending job s.pos (s.ending :: s.outer) s.count total ↔
        DerPending job next.pos (next.ending :: next.outer) next.count total) :
      DerStepCase job s (.ok next)

/-- A step in front of an element. -/
theorem der_step_element_cases (hjob : job.Resumes) (hinside : s.Inside job.data)
    (hone : job.one = true → s.pos ≠ 0) (hcount : s.count ≤ job.limits.maxElements)
    (hlt : s.pos < s.ending) : DerStepCase job s (derStep job s) := by
  obtain ⟨hrunning, -, hends, hsize⟩ := hinside
  have hending := hsize s.ending List.mem_cons_self
  rw [der_step_element hlt, der_element_eq hjob hone]
  split
  next hlimit =>
    refine .failed fun total hpending htotal => ?_
    obtain ⟨hdepth, hroom, -⟩ := der_pending_reads hlt hending hpending htotal
    omega
  next hlimit =>
    cases hread : derReadElement ((job.data.take s.ending).drop s.pos) (job.base + s.pos)
        job.limits with
    | error failure =>
      refine .failed fun total hpending htotal => ?_
      obtain ⟨-, -, read, hok⟩ := der_pending_reads hlt hending hpending htotal
      rw [der_read_element_base (job.base + s.pos), hread] at hok
      cases hok
    | ok read =>
      obtain ⟨element, used⟩ := read
      have hread' := (der_read_element_base 0).mp hread
      have hextent := der_read_element_ok hread'
      obtain ⟨hbound, -⟩ := der_value_slice hread'
      dsimp only
      by_cases henter : asn1IsConstructed element.tag = true ∧ element.value.length ≠ 0
      · rw [@der_advance_into σ job { s with
          count := s.count + 1, context := s.reported job element } element _ hrunning henter]
        dsimp only
        split
        next hmax =>
          refine .failed fun total hpending _ => ?_
          have := ((der_pending_into hread' henter).mp hpending).1
          omega
        next hmax =>
          refine .moved rfl ⟨hrunning, Nat.sub_le _ _, ?_, ?_⟩ (fun _ => ?_) ?_
            (by dsimp only; omega) fun total => ?_
          · refine List.pairwise_cons.mpr ⟨fun other hother => ?_, hends⟩
            rcases List.mem_cons.mp hother with rfl | hmem
            · exact hbound
            · exact hbound.trans ((List.pairwise_cons.mp hends).1 other hmem)
          · intro other hother
            rcases List.mem_cons.mp hother with rfl | hmem
            · exact hbound.trans hending
            · exact hsize other hmem
          · dsimp only
            omega
          · unfold DerRun.rank
            simp only [List.length_cons]
            omega
          · rw [der_pending_into hread' henter]
            exact and_iff_right (by omega)
      · rw [@der_advance_over σ job { s with
          count := s.count + 1, context := s.reported job element } element _ hrunning henter]
        refine .moved rfl ⟨hrunning, hbound, hends, hsize⟩ (fun _ => ?_) ?_ (by dsimp only; omega)
          fun total => ?_
        · dsimp only
          omega
        · unfold DerRun.rank
          dsimp only
          omega
        · rw [der_pending_over hread' henter]
          exact and_iff_right (by omega)

/-- A step at the end of a value. -/
theorem der_step_leave_cases (hinside : s.Inside job.data) (hone : job.one = true → s.pos ≠ 0)
    (hcount : s.count ≤ job.limits.maxElements) (hlast : s.pos = s.ending) {ending : Nat}
    {outer : List Nat} (houter : s.outer = ending :: outer) :
    DerStepCase job s (derStep job s) := by
  obtain ⟨hrunning, -, hends, hsize⟩ := hinside
  rw [houter] at hends hsize
  rw [List.pairwise_cons] at hends
  have hnext := hends.1 ending List.mem_cons_self
  have hstep : derStep job s = .ok { s with ending := ending, outer := outer } := by
    unfold derStep
    rw [houter]
    dsimp only
    rw [if_pos hlast]
  rw [hstep]
  refine .moved rfl ⟨hrunning, by dsimp only; omega, hends.2, fun other hother =>
    hsize other (List.mem_cons_of_mem _ hother)⟩ hone ?_ hcount fun total => ?_
  · unfold DerRun.rank
    rw [houter, List.length_cons]
    dsimp only
    omega
  · rw [← hlast, houter, der_pending_leave]

/-- The traversal succeeds exactly when contents are ahead that keep to the limits. -/
theorem der_drive_ok_iff (hjob : job.Resumes) {fuel total : Nat} (hinside : s.Inside job.data)
    (hone : job.one = true → s.pos ≠ 0) (hfuel : s.rank job.data < fuel)
    (hcount : s.count ≤ job.limits.maxElements) :
    s.Succeeds job fuel total ↔
      DerPending job s.pos (s.ending :: s.outer) s.count total ∧
        total ≤ job.limits.maxElements := by
  induction fuel generalizing s with
  | zero => omega
  | succ fuel ih =>
    have hpos := hinside.pos
    cases hhalted : s.halted with
    | true =>
      obtain ⟨houter, hend⟩ : s.outer = [] ∧ s.ending ≤ s.pos := by
        simpa [DerRun.halted, hinside.running] using hhalted
      rw [← Nat.le_antisymm hpos hend, der_pending_leave, houter]
      unfold DerRun.Succeeds
      simp only [drive, hhalted, if_true, Except.ok.injEq, exists_eq_left', and_true]
      exact ⟨fun htotal => ⟨htotal, by omega⟩, fun h => h.1⟩
    | false =>
      have hcases : DerStepCase job s (derStep job s) := by
        rcases Nat.lt_or_ge s.pos s.ending with hlt | hge
        · exact der_step_element_cases hjob hinside hone hcount hlt
        · cases houter : s.outer with
          | nil =>
            simp [DerRun.halted, hinside.running, houter] at hhalted
            omega
          | cons ending outer =>
            exact der_step_leave_cases hinside hone hcount (by omega) houter
      generalize hstep : derStep job s = result at hcases
      cases hcases with
      | failed hnone =>
        refine iff_of_false (der_fails_step hhalted hstep) ?_
        rintro ⟨hpending, htotal⟩
        exact hnone total hpending htotal
      | moved hfirst hinside' hone' hrank hcount' hahead =>
        rw [der_succeeds_step hhalted hstep hfirst, hahead]
        exact ih hinside' hone' (by omega) hcount'

end Traverse

section Read

variable {σ : Type} {job : DerJob σ} {s s' : DerRun σ} {data : Bytes} {limits : DerLimits}

/-- What an iteration of the traversal changes besides the ends. -/
theorem der_step_moves (hjob : job.Resumes) (hone : job.one = true → s.pos ≠ 0)
    (hrunning : s.stopped = false) (h : derStep job s = .ok s') :
    s'.first = s.first ∧ s'.stopped = false ∧ s.pos ≤ s'.pos ∧
      ((s'.count = s.count ∧ s'.context = s.context) ∨
        ∃ element, s'.count = s.count + 1 ∧ s'.context = s.reported job element) := by
  have helement : derElement job s = .ok s' → s'.first = s.first ∧ s'.stopped = false ∧
      s.pos ≤ s'.pos ∧ ∃ element, s'.count = s.count + 1 ∧
        s'.context = s.reported job element := by
    intro h
    rw [der_element_eq hjob hone] at h
    obtain ⟨-, h⟩ := guard_ok.mp h
    cases hread : derReadElement ((job.data.take s.ending).drop s.pos) (job.base + s.pos)
        job.limits with
    | error failed =>
      rw [hread] at h
      cases h
    | ok read =>
      obtain ⟨element, used⟩ := read
      have hextent := der_read_element_ok hread
      rw [hread] at h
      dsimp only at h
      by_cases henter : asn1IsConstructed element.tag = true ∧ element.value.length ≠ 0
      · rw [@der_advance_into σ job { s with
          count := s.count + 1, context := s.reported job element } element _ hrunning
          henter] at h
        obtain ⟨-, h⟩ := guard_ok.mp h
        cases h
        exact ⟨rfl, hrunning, by dsimp only; omega, element, rfl, rfl⟩
      · rw [@der_advance_over σ job { s with
          count := s.count + 1, context := s.reported job element } element _ hrunning
          henter] at h
        cases h
        exact ⟨rfl, hrunning, Nat.le_add_right _ _, element, rfl, rfl⟩
  unfold derStep at h
  cases houter : s.outer with
  | nil =>
    rw [houter] at h
    obtain ⟨hfirst, hstopped, hpos, hreport⟩ := helement h
    exact ⟨hfirst, hstopped, hpos, .inr hreport⟩
  | cons ending outer =>
    rw [houter] at h
    dsimp only at h
    split at h
    · cases h
      exact ⟨rfl, hrunning, Nat.le_refl _, .inl ⟨rfl, rfl⟩⟩
    · obtain ⟨hfirst, hstopped, hpos, hreport⟩ := helement h
      exact ⟨hfirst, hstopped, hpos, .inr hreport⟩

/-- A traversal that is behind its first element, or does not look for one, keeps it. -/
theorem der_drive_first (hjob : job.Resumes) {fuel : Nat}
    (hone : job.one = true → s.pos ≠ 0) (hrunning : s.stopped = false)
    (h : drive (Status.callback, none) DerRun.halted (derStep job) fuel s = .ok s') :
    s'.first = s.first := by
  have hinvariant := drive_ok_invariant
    (fun (x : DerRun σ) x' (hx : x.first = s.first ∧ (job.one = true → x.pos ≠ 0) ∧
        x.stopped = false) _ hstep => by
      obtain ⟨hfirst, hone, hrunning⟩ := hx
      obtain ⟨hfirst', hstopped, hmoved, -⟩ := der_step_moves hjob hone hrunning hstep
      refine ⟨hfirst'.trans hfirst, fun h => ?_, hstopped⟩
      have := hone h
      omega)
    ⟨rfl, hone, hrunning⟩ h
  exact hinvariant.1.1

/-- The job of `tlv_der_read`. -/
def derReadJob (data : Bytes) (limits : DerLimits) : DerJob Unit :=
  { data := data, limits := limits, one := true, strict := false }

theorem der_read_job_resumes : (derReadJob data limits).Resumes :=
  ⟨(fun _ h => by cases h), rfl⟩

/-- The first iteration of `tlv_der_read`. -/
theorem der_read_step {element : ReadElement} {used : Nat}
    (hread : derReadElement data 0 limits = .ok (element, used)) :
    derStep (derReadJob data limits) { count := 0, ending := data.length, context := () } =
      if limits.maxElements = 0 then derFail .limit 0
      else derAdvance (derReadJob data limits) element used
        { count := 1, ending := used, first := some (element, used), context := () } := by
  have hlimit : (0 > limits.maxDepth ∨ 0 = limits.maxElements) ↔ limits.maxElements = 0 := by
    omega
  simp only [derStep, derElement, derReadJob, List.length_nil, Nat.add_zero, Nat.zero_add,
    List.take_length, List.drop_zero, hread, derValueCheck, derReport, hlimit]
  simp [bind, Except.bind]

/-- `tlv_der_read` at an input that does not begin with an element. -/
theorem der_read_step_error {failed : Status × Option Nat}
    (hread : derReadElement data 0 limits = .error failed) :
    ∃ failed, derStep (derReadJob data limits)
      { count := 0, ending := data.length, context := () } = .error failed := by
  simp only [derStep, derElement, derReadJob, List.length_nil, Nat.add_zero, List.take_length,
    List.drop_zero, hread]
  split
  · exact ⟨_, rfl⟩
  · exact ⟨_, rfl⟩

/-- What `tlv_der_read` returns is the element at the start of the input. -/
theorem der_read_returned {s : DerRun Unit} (hdata : data.length ≠ 0)
    (h : derTraverse (derReadJob data limits)
      { count := 0, ending := data.length, context := () } = .ok s) :
    ∃ element used, derReadElement data 0 limits = .ok (element, used) ∧
      s.first = some (element, used) := by
  unfold derTraverse at h
  rw [show (derReadJob data limits).data.length + 2 = data.length + 1 + 1 from rfl] at h
  unfold drive at h
  have hlive : DerRun.halted ({ count := 0, ending := data.length, context := () } :
      DerRun Unit) = false := by
    simp only [DerRun.halted, Bool.false_or, List.isEmpty_nil, Bool.true_and, Bool.not_eq_false',
      decide_eq_true_eq]
    omega
  rw [if_neg (by rw [hlive]; exact Bool.false_ne_true)] at h
  cases hread : derReadElement data 0 limits with
  | error failed =>
    obtain ⟨failed', hstep⟩ := der_read_step_error hread
    rw [hstep] at h
    cases h
  | ok read =>
    obtain ⟨element, used⟩ := read
    obtain ⟨hlow, -, -⟩ := der_read_element_ok hread
    refine ⟨element, used, rfl, ?_⟩
    rw [der_read_step hread] at h
    split at h
    · cases h
    by_cases henter : asn1IsConstructed element.tag = true ∧ element.value.length ≠ 0
    · rw [@der_advance_into Unit (derReadJob data limits)
        { count := 1, ending := used, first := some (element, used), context := () } element
        used rfl henter] at h
      split at h
      · cases h
      · refine der_drive_first der_read_job_resumes (fun _ => ?_) rfl h
        dsimp only
        omega
    · rw [@der_advance_over Unit (derReadJob data limits)
        { count := 1, ending := used, first := some (element, used), context := () } element
        used rfl henter] at h
      refine der_drive_first der_read_job_resumes (fun _ => ?_) rfl h
      dsimp only
      omega

/-- A run that succeeds, from behind its first element. -/
theorem der_succeeds_iff (hjob : job.Resumes) {fuel : Nat} (hpos : s.pos ≠ 0)
    (hrunning : s.stopped = false) {first : Option (ReadElement × Nat)}
    (hfirst : s.first = first) :
    (∃ s', drive (Status.callback, none) DerRun.halted (derStep job) fuel s = .ok s' ∧
        s'.first = first) ↔ ∃ total, s.Succeeds job fuel total := by
  constructor
  · rintro ⟨s', hdrive, -⟩
    exact ⟨s'.count, s', hdrive, rfl, der_drive_first hjob (fun _ => hpos) hrunning hdrive⟩
  · rintro ⟨total, s', hdrive, -, hsame⟩
    exact ⟨s', hdrive, hsame.trans hfirst⟩

/-- `tlv_der_read` behind the checks of its limits: the first element and what is inside it. -/
theorem der_read_first {element : ReadElement} {used : Nat}
    (hread : derReadElement data 0 limits = .ok (element, used)) :
    (∃ s, derTraverse (derReadJob data limits)
        { count := 0, ending := data.length, context := () } = .ok s ∧
        s.first = some (element, used)) ↔
      ∃ height count, DerContents limits element.inside height count ∧
        height ≤ limits.maxDepth ∧ count + 1 ≤ limits.maxElements := by
  obtain ⟨hlow, hhigh, hvalue⟩ := der_read_element_ok hread
  have hjob := @der_read_job_resumes data limits
  have hlive : DerRun.halted ({ count := 0, ending := data.length, context := () } :
      DerRun Unit) = false := by
    simp only [DerRun.halted, Bool.false_or, List.isEmpty_nil, Bool.true_and, Bool.not_eq_false',
      decide_eq_true_eq]
    omega
  have hstep := der_read_step hread
  unfold derTraverse
  rw [show (derReadJob data limits).data.length + 2 = data.length + 1 + 1 from rfl]
  unfold drive
  rw [if_neg (by rw [hlive]; exact Bool.false_ne_true), hstep]
  -- the element itself counts against the limit
  by_cases hmax : limits.maxElements = 0
  · rw [if_pos hmax]
    refine iff_of_false ?_ ?_
    · rintro ⟨s, hs, -⟩
      cases hs
    · rintro ⟨height, count, -, -, hcount⟩
      omega
  rw [if_neg hmax]
  -- only contents that are not empty are entered
  by_cases henter : asn1IsConstructed element.tag = true ∧ element.value.length ≠ 0
  · have hinner : element.inside = (data.take used).drop (used - element.value.length) := by
      rw [ReadElement.inside, if_pos henter.1]
      exact hvalue
    rw [@der_advance_into Unit (derReadJob data limits)
      { count := 1, ending := used, first := some (element, used), context := () } element used
      rfl henter]
    by_cases hdepth : limits.maxDepth = 0
    · rw [if_pos (by simpa [derReadJob] using hdepth.symm)]
      refine iff_of_false ?_ ?_
      · rintro ⟨s, hs, -⟩
        cases hs
      · rintro ⟨height, count, hcontents, hheight, -⟩
        have hpositive := der_contents_positive hcontents (by
          rw [ReadElement.inside, if_pos henter.1, ← List.length_pos_iff]
          omega)
        omega
    rw [if_neg (by simpa [derReadJob] using fun h => hdepth h.symm)]
    refine Iff.trans (der_succeeds_iff hjob (by dsimp only; omega) rfl rfl) ?_
    refine Iff.trans (exists_congr fun total => der_drive_ok_iff hjob ⟨rfl, ?_, ?_, ?_⟩ ?_ ?_ ?_) ?_
    · dsimp only
      omega
    · simp
    · intro ending hending
      have hused : ending = used := by simpa using hending
      rw [hused]
      exact hhigh
    · intro _
      dsimp only
      omega
    · simp only [DerRun.rank, derReadJob, List.length_cons, List.length_nil]
      omega
    · simp only [derReadJob]
      omega
    dsimp only
    constructor
    · rintro ⟨total, ⟨height, count, hcontents, hheight, hrest⟩, htotal⟩
      rw [der_pending_leave] at hrest
      cases hrest
      refine ⟨height, count, ?_, ?_, ?_⟩
      · rw [hinner]
        exact hcontents
      · simp only [derReadJob, List.length_cons, List.length_nil] at hheight
        omega
      · simp only [derReadJob] at htotal
        omega
    · rintro ⟨height, count, hcontents, hheight, hcount⟩
      rw [hinner] at hcontents
      refine ⟨1 + count, ⟨height, count, hcontents, .inr ?_, der_pending_leave.mpr rfl⟩, ?_⟩
      · simp only [derReadJob, List.length_cons, List.length_nil]
        omega
      · simp only [derReadJob]
        omega
  · have hinner : element.inside = [] := by
      unfold ReadElement.inside
      split
      · rename_i hconstructed
        rw [← List.length_eq_zero_iff]
        by_contra hlength
        exact henter ⟨hconstructed, hlength⟩
      · rfl
    rw [@der_advance_over Unit (derReadJob data limits)
      { count := 1, ending := used, first := some (element, used), context := () } element used
      rfl henter]
    refine Iff.trans (der_succeeds_iff hjob (by dsimp only; omega) rfl rfl) ?_
    refine Iff.trans (exists_congr fun total => der_drive_ok_iff hjob ⟨rfl, ?_, ?_, ?_⟩ ?_ ?_ ?_) ?_
    · exact Nat.le_refl _
    · simp
    · intro ending hending
      have hused : ending = used := by simpa using hending
      rw [hused]
      exact hhigh
    · intro _
      dsimp only
      omega
    · simp only [DerRun.rank, derReadJob, List.length_nil]
      omega
    · simp only [derReadJob]
      omega
    dsimp only
    rw [hinner]
    constructor
    · rintro ⟨total, hpending, htotal⟩
      exact ⟨0, 0, .nil, Nat.zero_le _, by omega⟩
    · intro _
      refine ⟨1, der_pending_leave.mpr rfl, ?_⟩
      simp only [derReadJob]
      omega

/-- `tlv_der_read` in terms of the contents of the element. -/
theorem der_read_ok_iff {element : ReadElement} {used : Nat} :
    derRead data limits = .ok (element, used) ↔
      limits.maxDepth ≤ derMaxDepth ∧ data.length ≤ limits.maxInputSize ∧
        derReadElement data 0 limits = .ok (element, used) ∧
        ∃ height count, DerContents limits element.inside height count ∧
          height ≤ limits.maxDepth ∧ count + 1 ≤ limits.maxElements := by
  unfold derRead derReadImpl
  by_cases hdepth : limits.maxDepth > derMaxDepth
  · rw [if_pos hdepth]
    refine iff_of_false (fun h => by cases h) ?_
    rintro ⟨hle, -⟩
    omega
  rw [if_neg hdepth]
  by_cases hsize : data.length > limits.maxInputSize
  · rw [if_pos hsize]
    refine iff_of_false (fun h => by cases h) ?_
    rintro ⟨-, hle, -⟩
    omega
  rw [if_neg hsize]
  by_cases hempty : data.length = 0
  · rw [if_pos hempty]
    refine iff_of_false (fun h => by cases h) ?_
    rintro ⟨-, -, hread, -⟩
    exact der_read_element_nonempty hread (List.length_eq_zero_iff.mp hempty)
  rw [if_neg hempty]
  have hreturned : ((do
      let s ← derTraverse (derReadJob data limits)
        { count := 0, ending := data.length, context := () }
      return s.first.getD (⟨[], []⟩, 0) : DerResult (ReadElement × Nat)) = .ok (element, used)) ↔
      derReadElement data 0 limits = .ok (element, used) ∧
      ∃ s, derTraverse (derReadJob data limits)
        { count := 0, ending := data.length, context := () } = .ok s ∧
        s.first = some (element, used) := by
    constructor
    · intro h
      cases htraverse : derTraverse (derReadJob data limits)
          { count := 0, ending := data.length, context := () } with
      | error failed =>
        rw [htraverse] at h
        cases h
      | ok s =>
        rw [htraverse] at h
        obtain ⟨element', used', hread, hfirst⟩ := der_read_returned hempty htraverse
        have hsame : s.first.getD (⟨[], []⟩, 0) = (element, used) := Except.ok.inj h
        rw [hfirst, Option.getD_some] at hsame
        cases hsame
        exact ⟨hread, s, rfl, hfirst⟩
    · rintro ⟨-, s, htraverse, hfirst⟩
      rw [htraverse]
      show Except.ok (s.first.getD (⟨[], []⟩, 0)) = _
      rw [hfirst, Option.getD_some]
  refine Iff.trans hreturned ?_
  constructor
  · rintro ⟨hread, htraverse⟩
    exact ⟨by omega, by omega, hread, (der_read_first hread).mp htraverse⟩
  · rintro ⟨-, -, hread, hcontents⟩
    exact ⟨hread, (der_read_first hread).mpr hcontents⟩

/-- A counting visitor counts the elements of the contents. -/
theorem der_visit_count {visited : Nat}
    (h : derVisit data limits (some fun _ _ _ visited => (.resume, visited + 1)) 0 =
      .ok visited) :
    ∃ height, DerContents limits data height visited ∧ height ≤ limits.maxDepth + 1 ∧
      visited ≤ limits.maxElements := by
  unfold derVisit derVisitImpl at h
  split at h
  · cases h
  split at h
  · cases h
  generalize hjob : ({ data := data, limits := limits, visitor := _, strict := false } :
    DerJob Nat) = job at h
  have hresumes : job.Resumes := by
    subst hjob
    refine ⟨?_, rfl⟩
    intro visitor hvisitor element depth offset context
    cases hvisitor
    rfl
  have hone : job.one = false := by rw [← hjob]
  have hone' : job.one = true → (0 : Nat) ≠ 0 := fun h =>
    absurd (hone.symm.trans h) Bool.false_ne_true
  obtain ⟨s, htraverse, h⟩ := bind_ok.mp h
  cases h
  have hcontext : s.context = s.count := by
    have hinvariant := drive_ok_invariant
      (fun (x : DerRun Nat) x' (hx : x.context = x.count ∧ x.stopped = false) _ hstep => by
        obtain ⟨-, hstopped, -, hmoved⟩ := der_step_moves hresumes
          (fun h => absurd (hone.symm.trans h) Bool.false_ne_true) hx.2 hstep
        refine ⟨?_, hstopped⟩
        rcases hmoved with ⟨hcount, hcontext⟩ | ⟨element, hcount, hcontext⟩
        · rw [hcount, hcontext, hx.1]
        · rw [hcount, hcontext, ← hjob, ← hx.1]
          rfl)
      ⟨rfl, rfl⟩ htraverse
    exact hinvariant.1.1
  have hfirst := der_drive_first hresumes hone' rfl htraverse
  have hsucceeds := (der_drive_ok_iff hresumes ⟨rfl, Nat.zero_le _, by simp, ?_⟩ hone' ?_
    (Nat.zero_le _)).mp ⟨s, htraverse, rfl, hfirst⟩
  · obtain ⟨⟨height, number, hcontents, hheight, hpending⟩, htotal⟩ := hsucceeds
    rw [← hjob] at hcontents hheight htotal
    rw [List.take_length, List.drop_zero] at hcontents
    have hnumber : number = s.count := by
      have := hpending
      simp only [DerPending] at this
      omega
    dsimp only [List.length_nil] at hheight htotal
    rw [hcontext, ← hnumber]
    exact ⟨height, hcontents, by omega, by omega⟩
  · intro ending hending
    rw [← hjob]
    exact Nat.le_of_eq (by simpa using hending)
  · rw [← hjob]
    simp only [DerRun.rank, List.length_nil]
    omega

end Read

section Nesting

/-- How many levels of elements some octets have. -/
def derNesting (limits : DerLimits) : Nat → Bytes → Nat
  | 0, _ => 0
  | fuel + 1, data =>
    match derReadElement data 0 limits with
    | .error _ => 0
    | .ok (element, used) =>
      max (derNesting limits fuel element.inside + 1)
        (derNesting limits fuel (data.drop used))

/-- How many levels of elements lie below the first element of the input. -/
def derDepth (data : Bytes) (limits : DerLimits) : Nat :=
  match derReadElement data 0 limits with
  | .error _ => 0
  | .ok (element, _) => derNesting limits data.length element.inside

variable {limits : DerLimits} {data : Bytes} {height count : Nat}

/-- The computed nesting is the height of the contents. -/
theorem der_nesting_eq (h : DerContents limits data height count) {fuel : Nat}
    (hfuel : data.length ≤ fuel) : derNesting limits fuel data = height := by
  induction h generalizing fuel with
  | nil =>
    cases fuel with
    | zero => rfl
    | succ fuel =>
      unfold derNesting
      cases hread : derReadElement [] 0 limits with
      | error failed => rfl
      | ok read => exact absurd rfl (der_read_element_nonempty hread)
  | @cons data element used height count height' count' hread _ _ ihinside ihrest =>
    obtain ⟨hlow, hhigh, -⟩ := der_read_element_ok hread
    obtain ⟨fuel, rfl⟩ : ∃ k, fuel = k + 1 := ⟨fuel - 1, by omega⟩
    have hinside : element.inside.length ≤ element.value.length := by
      unfold ReadElement.inside
      split <;> simp
    unfold derNesting
    rw [hread]
    dsimp only
    rw [ihinside (by omega), ihrest (by rw [List.length_drop]; omega)]

/-- The depth of an element that is well formed. -/
theorem der_depth_eq {element : ReadElement} {used : Nat}
    (hread : derReadElement data 0 limits = .ok (element, used))
    (h : DerContents limits element.inside height count) : derDepth data limits = height := by
  obtain ⟨hlow, hhigh, -⟩ := der_read_element_ok hread
  have hinside : element.inside.length ≤ element.value.length := by
    unfold ReadElement.inside
    split <;> simp
  unfold derDepth
  rw [hread]
  exact der_nesting_eq h (by omega)

end Nesting

end OpenTlv
