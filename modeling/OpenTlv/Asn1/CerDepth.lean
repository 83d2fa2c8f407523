import OpenTlv.Asn1.CerMoves

/-!
# The level stack of the CER traversal

The stack is bounded by an equality test between the running depth and `max_depth`. The test
stops the traversal when the depth starts at or below the limit. `tlv_cer_write` starts it at one
because the element being written is open already, so a limit of zero is never met.
-/

namespace OpenTlv

variable {σ : Type} {job : CerJob σ} {s s' : CerRun σ}

/-- A computation that stops only with a code. -/
def Reported {α : Type} (run : Except CerStop α) : Prop :=
  Meets run (· ≠ .fault) fun _ => True

theorem Reported.fail {α : Type} (status : Status) (offset : Nat) :
    Reported (cerFail status offset : Except CerStop α) :=
  fun h => by cases h

theorem Reported.unlocated {α : Type} (status : Status) :
    Reported (cerUnlocated status : Except CerStop α) :=
  fun h => by cases h

theorem Reported.of_ne_fault {α : Type} {run : Except CerStop α} (h : run ≠ .error .fault) :
    Reported run := by
  cases run with
  | error stop =>
    rintro rfl
    exact h rfl
  | ok x => trivial

/-- Steps that report their failures report them in sequence. -/
theorem Reported.bind {α β : Type} {run : Except CerStop α} {next : α → Except CerStop β}
    (hrun : Reported run) (hnext : ∀ x, Reported (next x)) : Reported (run >>= next) :=
  Meets.bind hrun (fun _ h => h) fun x _ => hnext x

theorem Reported.ne_fault {α : Type} {run : Except CerStop α} (h : Reported run) :
    run ≠ .error .fault := by
  rintro rfl
  exact h rfl

theorem segment_result_reported {α : Type} (result : Except (Status × Nat) α) :
    Reported (segmentResult result) := by
  cases result with
  | error failed => exact .fail _ _
  | ok x => trivial

theorem cer_report_reported {element : ReadElement} {depth offset : Nat} :
    Reported (cerReport job element depth offset s) := by
  unfold cerReport
  split
  · trivial
  · split
    · trivial
    · trivial
    · exact .fail _ _
    · exact .fail _ _

theorem cer_end_reported : Reported (cerEnd job s) := by
  unfold cerEnd
  split
  · exact .fail _ _
  · split
    · trivial
    · exact (segment_result_reported _).bind fun _ => trivial

theorem cer_complete_reported {level : CerLevel} {rest : List CerLevel} :
    Reported (cerComplete job level rest s) := by
  unfold cerComplete
  dsimp only
  split
  · rename_i stop hreport
    have hsafe : Reported (.error stop : Except CerStop (CerRun σ)) :=
      hreport ▸ cer_report_reported
    exact hsafe
  · split
    · trivial
    · split <;> trivial

/-- An end of contents reports its failures. -/
theorem cer_close_reported : Reported (cerClose job s) := by
  unfold cerClose
  split
  · exact .fail _ _
  · split
    · exact .fail _ _
    · split
      · exact .fail _ _
      · refine Reported.bind ?_ fun _ => cer_complete_reported
        unfold cerCloseCheck
        split
        · exact .fail _ _
        · split
          · trivial
          · exact segment_result_reported _

/-- The checks of a value report their failures. -/
theorem cer_value_check_reported {tag value : Bytes} {lengthOffset valueOffset : Nat} :
    Reported (cerValueCheck job tag value lengthOffset valueOffset) := by
  unfold cerValueCheck
  split
  · exact .fail _ _
  · split
    · trivial
    · split
      · exact .fail _ _
      · split
        · split
          · exact .fail _ _
          · trivial
        · trivial

theorem cer_accept_reported {tag value : Bytes} {lengthOffset valueOffset : Nat} :
    Reported (cerAccept job s tag value lengthOffset valueOffset) := by
  unfold cerAccept
  split
  · exact (segment_result_reported _).bind fun _ => trivial
  · exact cer_value_check_reported.bind fun _ => trivial

theorem cer_value_reported {tag value : Bytes} {lengthOffset valueOffset : Nat} :
    Reported (cerValue job s tag value lengthOffset valueOffset) := by
  have hsafe := @cer_accept_reported σ job s tag value lengthOffset valueOffset
  unfold cerValue
  split
  · rename_i stop haccept
    rw [haccept] at hsafe
    exact hsafe
  · dsimp only
    split
    · trivial
    · exact cer_report_reported

theorem cer_primitive_reported {tag : Bytes} {tagSize : Nat} :
    Reported (cerPrimitive job s tag tagSize) := by
  unfold cerPrimitive
  dsimp only
  split
  · exact .fail _ _
  · split
    · exact .fail _ _
    · split
      · exact .fail _ _
      · exact cer_value_reported

/-- A write behind the stack comes from an element that descends from a full stack. -/
theorem cer_step_fault (h : cerStep job s = .error .fault) :
    cerMaxDepth ≤ s.levels.length ∧ job.initialDepth + s.levels.length ≠ job.limits.maxDepth ∧
      s.count ≠ job.limits.maxElements ∧ s.pos + 2 ≤ job.data.length := by
  unfold cerStep at h
  split at h
  · exact absurd h cer_end_reported.ne_fault
  · split at h
    · exact absurd h cer_close_reported.ne_fault
    · unfold cerElement at h
      split at h
      · cases h
      · rename_i hcount
        dsimp only at h
        split at h
        · cases h
        · rename_i tag htag
          split at h
          · cases h
          · split at h
            · rename_i hlength
              have hlow : 0 < (cerFields.readTag (job.data.drop s.pos)).consumed :=
                (asn1_read_identifier_within htag).1
              have hhigh := (List.getElem?_eq_some_iff.mp hlength).1
              unfold cerOpen at h
              dsimp only at h
              split at h
              · cases h
              · split at h
                · cases h
                · split at h
                  · cases h
                  · split at h
                    · cases h
                    · rename_i hdepth
                      split at h
                      · rename_i hfull
                        exact ⟨hfull, hdepth, hcount, by omega⟩
                      · cases h
            · exact absurd h cer_primitive_reported.ne_fault

/-- What a move does to the depth and to the budgets. -/
theorem CerMove.measure (h : CerMove job s s') :
    (s'.levels.length ≤ s.levels.length ∨
      s'.levels.length = s.levels.length + 1 ∧ s.pos + 2 ≤ s'.pos ∧ s.count < s'.count ∧
        job.initialDepth + s.levels.length ≠ job.limits.maxDepth) ∧
    s.pos ≤ s'.pos ∧ s.count ≤ s'.count ∧
      (s.count ≤ job.limits.maxElements → s'.count ≤ job.limits.maxElements) := by
  cases h with
  | finish => exact ⟨.inl (Nat.le_refl _), Nat.le_refl _, Nat.le_refl _, id⟩
  | close level rest _ _ _ hlevels _ hcomplete =>
    rw [cer_complete_ok hcomplete, hlevels]
    exact ⟨.inl (Nat.le_succ _), Nat.le_add_right _ _, Nat.le_refl _, id⟩
  | descend tag tagSize _ hcount htag hsize _ _ _ _ hdepth =>
    have hlow := (asn1_read_identifier_within htag).1
    refine ⟨.inr ⟨rfl, ?_, Nat.lt_succ_self _, hdepth⟩, ?_, Nat.le_succ _, ?_⟩
    · dsimp only
      omega
    · dsimp only
      omega
    · intro hle
      dsimp only
      omega
  | value tag tagSize length lengthSize _ hcount _ _ _ _ _ _ _ hvalue =>
    obtain ⟨accepted, haccept, heq⟩ := cer_value_ok hvalue
    have hlevels : accepted.levels.length = s.levels.length := by
      rcases cer_accept_ok haccept with ⟨-, rfl, -⟩ | ⟨_, next, -, -, rfl⟩
      · rfl
      · have htags := congrArg List.length (set_parent_tags s next).1
        rwa [List.length_map, List.length_map] at htags
    rw [heq]
    dsimp only
    refine ⟨.inl (by omega), by omega, Nat.le_succ _, fun hle => by omega⟩

section Bounds

/-- A traversal that starts at or below its depth limit stays there. -/
theorem cer_traverse_bounded (hlimit : job.limits.maxDepth ≤ cerMaxDepth)
    (hstart : job.initialDepth + s.levels.length ≤ job.limits.maxDepth) :
    Reported (cerTraverse job s) := by
  refine Reported.of_ne_fault fun h => ?_
  have hkeep : ∀ x x' : CerRun σ, job.initialDepth + x.levels.length ≤ job.limits.maxDepth →
      x.ended.isSome = false → cerStep job x = .ok x' →
      job.initialDepth + x'.levels.length ≤ job.limits.maxDepth := by
    intro x x' hx _ hstep
    rcases (cer_step_cases hstep).measure.1 with hle | ⟨hnext, -, -, hdepth⟩ <;> omega
  rcases drive_error_invariant hkeep hstart h with hstuck | ⟨y, hy, -, hfault⟩
  · cases hstuck
  · obtain ⟨hfull, hdepth, -⟩ := cer_step_fault hfault
    omega

/-- Without a depth limit, the stack is as deep as elements and octets allow. -/
theorem cer_traverse_budget (hcount : s.levels.length + 1 ≤ s.count)
    (hlow : s.count ≤ job.limits.maxElements) (hpos : 2 * s.levels.length ≤ s.pos)
    (h : cerTraverse job s = .error .fault) :
    cerMaxDepth + 2 ≤ job.limits.maxElements ∧ 2 * cerMaxDepth + 2 ≤ job.data.length := by
  have hkeep : ∀ x x' : CerRun σ,
      (x.levels.length + 1 ≤ x.count ∧ x.count ≤ job.limits.maxElements ∧
        2 * x.levels.length ≤ x.pos) →
      x.ended.isSome = false → cerStep job x = .ok x' →
      x'.levels.length + 1 ≤ x'.count ∧ x'.count ≤ job.limits.maxElements ∧
        2 * x'.levels.length ≤ x'.pos := by
    rintro x x' ⟨hx, hmax, hoctets⟩ - hstep
    obtain ⟨hdepth, hforward, hmore, hbudget⟩ := (cer_step_cases hstep).measure
    have := hbudget hmax
    rcases hdepth with hle | ⟨hnext, hpush, hpushed, -⟩ <;> omega
  rcases drive_error_invariant hkeep ⟨hcount, hlow, hpos⟩ h with hstuck | ⟨y, hy, -, hfault⟩
  · cases hstuck
  · obtain ⟨hfull, -, hmore, hroom⟩ := cer_step_fault hfault
    omega

end Bounds

section Overflow

/-- The openings of `n` nested sequences. -/
def openings : Nat → Bytes
  | 0 => []
  | n + 1 => 0x30 :: 0x80 :: openings n

theorem openings_length (n : Nat) : (openings n).length = 2 * n := by
  induction n with
  | zero => rfl
  | succ n ih =>
    simp only [openings, List.length_cons, ih]
    omega

theorem read_sequence_tag (rest : Bytes) :
    asn1ReadIdentifier (0x30 :: rest) = ⟨.ok ⟨[0x30], some 0⟩, 1⟩ :=
  (asn1_identifier_law [0x30] [] 1 rfl).2.2.2 rest

/-- An opening descends when there is room. -/
theorem openings_step {n : Nat} (hdata : job.data.drop s.pos = openings (n + 1))
    (hcount : s.count ≠ job.limits.maxElements)
    (hdepth : job.initialDepth + s.levels.length ≠ job.limits.maxDepth)
    (hparent : s.parentSegments = none) :
    cerStep job s =
      if s.levels.length ≥ cerMaxDepth then .error .fault
      else
        .ok { s with
          pos := s.pos + 1 + 1
          count := s.count + 1
          levels := ⟨[0x30], s.pos, s.pos + 1, s.pos + 1 + 1, none⟩ :: s.levels } := by
  have hat : ∀ k, job.data[s.pos + k]? = (openings (n + 1))[k]? := fun k => by
    rw [← hdata, List.getElem?_drop]
  have hfirst : job.data[s.pos]? = some 0x30 := hat 0
  have hsecond : job.data[s.pos + 1]? = some berIndefinite := hat 1
  have hread : asn1ReadIdentifier (job.data.drop s.pos) = ⟨.ok ⟨[0x30], some 0⟩, 1⟩ := by
    rw [hdata]
    exact read_sequence_tag (0x80 :: openings n)
  have hsegments : cerSegments [0x30] job.strict = none := rfl
  rw [cer_step_open (by rw [hfirst]; decide) hcount hread hsecond, cerOpen, if_neg (by decide),
    hparent, if_neg (by decide), if_neg (by decide), if_neg hdepth, hsegments]

/-- With a limit of zero and a depth that starts at one, every opening descends until the stack
is full, and the next one is a write behind it. -/
theorem openings_fault (hlimit : job.limits.maxDepth = 0) (hinitial : job.initialDepth = 1)
    (hbudget : cerMaxDepth + 2 ≤ job.limits.maxElements) (n fuel : Nat) {s : CerRun σ}
    (hdata : job.data.drop s.pos = openings (n + 1)) (hlevels : s.levels.length + n = cerMaxDepth)
    (hcount : s.count + n = cerMaxDepth + 1) (hended : s.ended = none)
    (hparent : s.parentSegments = none) (hfuel : n < fuel) :
    drive (CerStop.failed .callback none) (·.ended.isSome) (cerStep job) fuel s =
      .error .fault := by
  induction n generalizing s fuel with
  | zero =>
    have hstep := openings_step hdata (by omega) (by omega) hparent
    rw [if_pos (by omega)] at hstep
    obtain ⟨fuel, rfl⟩ : ∃ k, fuel = k + 1 := ⟨fuel - 1, by omega⟩
    rw [drive, hended, if_neg (by decide), hstep]
    rfl
  | succ n ih =>
    have hstep := openings_step hdata (by omega) (by omega) hparent
    rw [if_neg (by omega)] at hstep
    obtain ⟨fuel, rfl⟩ : ∃ k, fuel = k + 1 := ⟨fuel - 1, by omega⟩
    rw [drive, hended, if_neg (by decide), hstep]
    have hnext : job.data.drop (s.pos + 1 + 1) = openings (n + 1) := by
      rw [Nat.add_assoc, ← List.drop_drop, hdata]
      rfl
    have hdeeper : (s.levels.length + 1) + n = cerMaxDepth := by omega
    have hcounted : (s.count + 1) + n = cerMaxDepth + 1 := by omega
    exact ih fuel hnext hdeeper hcounted hended rfl (by omega)

end Overflow

section Entries

/-- The entry points of the traversal. -/
inductive CerEntry where
  | read
  | visit
  | write
  deriving Repr, DecidableEq

/-- Some call of an entry point writes behind the level stack. -/
def CerEntry.Overflows (entry : CerEntry) (limits : CerLimits) (strict : Bool) : Prop :=
  match entry with
  | .read => ∃ data, cerReadImpl data limits strict = .error .fault
  | .visit => ∃ (σ : Type) (data : Bytes) (visitor : Option (CerVisitor σ)) (context : σ),
      cerVisitImpl data limits visitor context strict = .error .fault
  | .write => ∃ element destination,
      cerWriteImpl element limits strict destination = .error .fault

/-- The limits under which `tlv_cer_write` follows openings beyond the stack: no depth at all,
and room for as many elements and octets as that takes. -/
def cerUnlimited (limits : CerLimits) : Prop :=
  limits.maxDepth = 0 ∧ cerMaxDepth + 2 ≤ limits.maxElements ∧
    2 * cerMaxDepth + 6 ≤ limits.maxInputSize

instance (limits : CerLimits) : Decidable (cerUnlimited limits) :=
  inferInstanceAs (Decidable (_ ∧ _ ∧ _))

variable {limits : CerLimits}

/-- A reader within the depth of its stack never faults. -/
theorem cer_read_reported (data : Bytes) (strict : Bool) (hlimit : limits.maxDepth ≤ cerMaxDepth) :
    Reported (cerReadImpl data limits strict) := by
  unfold cerReadImpl
  split
  · exact .unlocated _
  · split
    · exact .unlocated _
    · split
      · exact .fail _ _
      · exact (cer_traverse_bounded hlimit (Nat.zero_le _)).bind fun _ => trivial

/-- A visit within the depth of its stack never faults. -/
theorem cer_visit_reported (data : Bytes) (visitor : Option (CerVisitor σ)) (context : σ)
    (strict : Bool) (hlimit : limits.maxDepth ≤ cerMaxDepth) :
    Reported (cerVisitImpl data limits visitor context strict) := by
  unfold cerVisitImpl
  split
  · exact .unlocated _
  · split
    · exact .unlocated _
    · exact (cer_traverse_bounded hlimit (Nat.zero_le _)).bind fun _ => trivial

/-- Framing an element never faults. -/
theorem cer_write_framed_reported (element : Element) (tagSize : Nat)
    (destination : Option Bytes) :
    Reported (cerWriteFramed element tagSize limits destination) := by
  unfold cerWriteFramed
  split
  · exact .fail _ _
  · split
    · exact .fail _ _
    · split
      · exact .unlocated _
      · split
        · trivial
        · split
          · exact .unlocated _
          · trivial

theorem check_primitive_value_reported (tag value : Bytes) (offsetBase : Nat) (strict : Bool) :
    Reported (checkPrimitiveValue tag value offsetBase strict) := by
  unfold checkPrimitiveValue
  split
  · trivial
  · split
    · exact .fail _ _
    · split
      · trivial
      · split
        · exact .fail _ _
        · trivial

/-- A writer writes behind the stack only if its traversal of the children does. -/
theorem cer_write_fault {element : Element} {strict : Bool} {destination : Option Bytes}
    (h : cerWriteImpl element limits strict destination = .error .fault) :
    ∃ tagSize, 0 < tagSize ∧ tagSize + 1 + element.value.length + 2 ≤ limits.maxInputSize ∧
      limits.maxElements ≠ 0 ∧
      cerTraverse (σ := Unit)
        { data := element.value, base := tagSize + 1, initialDepth := 1, limits := limits,
          strict := strict }
        { count := 1, outer := cerSegments element.tag strict, context := () } =
          .error .fault := by
  unfold cerWriteImpl at h
  split at h
  · cases h
  · split at h
    · cases h
    · rename_i helements
      split at h
      · cases h
      · rename_i stored tagSize htag
        split at h
        · obtain ⟨hnonempty, rfl, -⟩ := asn1_identifier_law element.tag stored tagSize htag
          unfold cerWriteConstructed at h
          split at h
          · cases h
          · dsimp only at h
            split at h
            · cases h
            · rename_i hinput
              refine ⟨element.tag.length, List.length_pos_iff.mpr hnonempty, by omega, helements,
                ?_⟩
              by_contra hsafe
              refine Reported.ne_fault (Reported.bind (.of_ne_fault hsafe) fun _ => ?_) h
              split
              · trivial
              · split
                · exact .unlocated _
                · trivial
        · split at h
          · cases h
          · exact absurd h ((check_primitive_value_reported _ _ _ _).bind fun _ =>
              cer_write_framed_reported _ _ _).ne_fault

/-- A sequence whose value is one opening too many. -/
def openingsElement : Element :=
  ⟨[0x30], openings (cerMaxDepth + 1), by decide, by rw [openings_length]; decide⟩

/-- The writer stores past its levels on nested openings. -/
theorem openings_overflow (strict : Bool) (h : cerUnlimited limits) :
    cerWriteImpl openingsElement limits strict none = .error .fault := by
  obtain ⟨hdepth, helements, hinput⟩ := h
  have hlimit : ¬ limits.maxDepth > cerMaxDepth := by omega
  have hsome : limits.maxElements ≠ 0 := by omega
  have htag : cerFields.writeTag openingsElement.tag none = .ok ([], 1) := rfl
  have hlength : openingsElement.value.length = 2 * (cerMaxDepth + 1) := openings_length _
  have hfits : ¬ openingsElement.value.length > sizeMax - 1 - 3 := by
    rw [hlength]
    decide
  have htotal : ¬ 1 + 1 + openingsElement.value.length + 2 > limits.maxInputSize := by omega
  have hconstructed : asn1IsConstructed openingsElement.tag = true := rfl
  have hfault := @openings_fault Unit
    { data := openingsElement.value, base := 1 + 1, initialDepth := 1, limits := limits,
      strict := strict } hdepth rfl helements cerMaxDepth (openingsElement.value.length + 2)
    { count := 1, outer := cerSegments openingsElement.tag strict, context := () } rfl rfl rfl rfl
    rfl (by rw [hlength]; decide)
  rw [cerWriteImpl, if_neg hlimit, if_neg hsome, htag]
  dsimp only
  rw [if_pos hconstructed, cerWriteConstructed, if_neg hfits]
  dsimp only
  rw [if_neg htotal, cerTraverse, hfault]
  rfl

/-- The level stack holds for every input of an entry point exactly when it is not a writer
without any depth. -/
theorem cer_level_stack (entry : CerEntry) (strict : Bool)
    (hlimit : limits.maxDepth ≤ cerMaxDepth) :
    ¬ entry.Overflows limits strict ↔ ¬ (entry = .write ∧ cerUnlimited limits) := by
  cases entry with
  | read =>
    refine ⟨fun _ h => CerEntry.noConfusion h.1, fun _ => ?_⟩
    rintro ⟨data, h⟩
    exact (cer_read_reported data strict hlimit).ne_fault h
  | visit =>
    refine ⟨fun _ h => CerEntry.noConfusion h.1, fun _ => ?_⟩
    rintro ⟨σ, data, visitor, context, h⟩
    exact (cer_visit_reported data visitor context strict hlimit).ne_fault h
  | write =>
    refine ⟨fun hsafe h => hsafe ⟨openingsElement, none, openings_overflow strict h.2⟩, ?_⟩
    rintro hlimited ⟨element, destination, h⟩
    obtain ⟨tagSize, htag, hinput, helements, hfault⟩ := cer_write_fault h
    -- the equality test works from depth one on, so only a limit of zero is left
    have hzero : limits.maxDepth = 0 := by
      by_contra hpositive
      refine absurd hfault (cer_traverse_bounded hlimit ?_).ne_fault
      show 1 + 0 ≤ limits.maxDepth
      omega
    obtain ⟨hbudget, hoctets⟩ := cer_traverse_budget (by exact Nat.le_refl 1)
      (by exact Nat.pos_of_ne_zero helements) (by exact Nat.le_refl 0) hfault
    dsimp only at hoctets
    exact hlimited ⟨rfl, hzero, hbudget, by omega⟩

/-- The default limits are safe for the writer. -/
theorem cer_level_stack_default : ¬ CerEntry.write.Overflows cerDefaultLimits true :=
  (cer_level_stack .write true (by decide)).mpr (by decide)

/-- Sixty-five openings under a depth limit of zero. -/
theorem cer_write_openings_fault :
    cerWriteImpl openingsElement ⟨0, 134, 1000, 66⟩ false none = .error .fault :=
  openings_overflow false (by decide)

end Entries

end OpenTlv
