import OpenTlv.Query.Frames
import OpenTlv.Query.Stream

/-!
# The streaming engines stay in their areas

Every access of `evaluate`, `s1_feed` and `s1_decide` on an accepted plan lies in its area, so
that these computations fail only as the library reports.
-/

namespace OpenTlv.Query

/-- The areas of a streaming execution have the extents it was sized with. -/
structure Cells.Fits (p : Program) (depths capacity : Nat) (c : Cells) : Prop where
  values : c.values.size = p.count
  table : c.table.size = capacity
  states : c.states.size = depths * p.count

/-- What a streaming computation keeps. -/
structure Cells.Kept (p : Program) (depths capacity : Nat) (before after : Cells) : Prop where
  fits : after.Fits p depths capacity
  limit : after.meter.limit = before.meter.limit

/-- What the view of a streaming execution provides. -/
structure View.Fits (v : View) (depths : Nat) : Prop where
  accepted : v.program.Accepted
  bindings : v.bindings.size = v.program.variableCount
  indexes : v.indexes.size = depths

variable {v : View} {p : Program} {depths : Nat} {event : TreeEvent} {c : Cells}

theorem charge_meets (meter : Meter) (amount : Nat) (n : Instruction) :
    Meets (charge meter amount n) (Reports True) fun meter' => meter'.limit = meter.limit :=
  (charge_spec meter amount n).mono (fun e => Reports.mono (fun _ => trivial) e) fun _ h => h.2

/-- The place of an instruction in the row of a depth. -/
theorem row_lt {depth i : Nat} (hdepth : depth < depths) (hi : i < p.count) :
    depth * p.count + i < depths * p.count := by
  have hrow : (depth + 1) * p.count ≤ depths * p.count := Nat.mul_le_mul_right _ hdepth
  rw [Nat.add_mul, Nat.one_mul] at hrow
  omega

theorem parent_mark_meets {capacity depth i : Nat} (hc : c.Fits p depths capacity)
    (hdepth : depth < depths) (hi : i < p.count) :
    Meets (parentMark p c.states depth i) (Reports True) fun _ => True := by
  unfold parentMark
  split
  · trivial
  · rw [Area.read_of_lt (by rw [hc.states]; exact row_lt (by omega) hi)]
    trivial

theorem operand_meets {values : Area Value} {link : Option Nat}
    (h : ∀ i, link = some i → i < values.size) :
    Meets (operand values link) (Reports True) fun _ => True := by
  cases link with
  | none => trivial
  | some i =>
    rw [operand, Area.read_of_lt (h i rfl)]
    trivial

theorem compare_values_meets (meter : Meter) (a b : Value) (n : Instruction) :
    Meets (compareValues meter a b n) (Reports True) fun x => x.2.limit = meter.limit := by
  unfold compareValues
  split
  · have hcharge := charge_meets meter (min a.data.length b.data.length) n
    cases hstep : charge meter (min a.data.length b.data.length) n with
    | error stop =>
      rw [hstep] at hcharge
      exact hcharge
    | ok meter' =>
      rw [hstep] at hcharge
      exact hcharge
  · split
    · exact rfl
    · split
      · exact rfl
      · exact query_error_meets.mpr trivial

theorem plan_tag_meets (hp : p.Accepted) {i : Nat} (hi : i < p.count) (tag : Bytes) :
    Meets (planTag p (p.get i) tag) (Reports True) fun _ => True := by
  have hfacts := hp.facts hi
  rw [plan_tag_eq hfacts.resolved hfacts.data hfacts.mask]
  trivial

theorem predicate_active_meets {capacity i : Nat} (hp : p.Accepted) (hi : i < p.count)
    (hc : c.Fits p depths capacity) :
    Meets (predicateActive (p.get i) c.values) (Reports True) fun _ => True := by
  unfold predicateActive
  cases hguard : (p.get i).predicateGuard with
  | none => trivial
  | some g =>
    have hlt := (hp.facts hi).predicateGuard g hguard
    dsimp only
    rw [Area.read_of_lt (by rw [hc.values]; omega)]
    trivial

theorem path_active_meets {capacity i : Nat} (hv : v.Fits depths) (hi : i < v.program.count)
    (hc : c.Fits v.program depths capacity) (hdepth : event.depth < depths) :
    Meets (pathActive v (v.program.get i) event c) (Reports True) fun _ => True := by
  unfold pathActive
  cases hguard : (v.program.get i).pathGuard with
  | none => trivial
  | some g =>
    have hlt := (hv.accepted.facts hi).pathGuard g hguard
    dsimp only
    split
    · rw [Area.read_of_lt (by rw [hc.values]; omega)]
      trivial
    · rw [Program.fetch_of_lt (by omega)]
      show Meets (if (v.program.get g).op = .root then _ else _) _ _
      split
      · trivial
      · refine (parent_mark_meets hc hdepth (by omega)).bind (fun e he => he) ?_
        intro mark _
        trivial

theorem source_metadata_meets (n : Instruction) (header : Bool) :
    Meets (match sourceMetadata event header with
      | .ok value => return value
      | .error status =>
        queryError n status (if status = .invalidArg then .events else .source)
          "Source metadata" : Run Nat) (Reports True) fun _ => True := by
  cases sourceMetadata event header with
  | ok value => trivial
  | error status => exact query_error_meets.mpr trivial

theorem event_metadata_meets (hv : v.Fits depths) (n : Instruction)
    (hdepth : event.depth < depths) :
    Meets (eventMetadata v n event) (Reports True) fun _ => True := by
  unfold eventMetadata
  cases Metadata.ofCode n.selector
  case len => trivial
  case depth => trivial
  case index =>
    dsimp only
    rw [Area.read_of_lt (by rw [hv.indexes]; exact hdepth)]
    trivial
  case offset => exact source_metadata_meets n _
  case hlen => exact source_metadata_meets n _

/-- A call reads its arguments in range. -/
theorem function_eval_meets {i : Nat} (hp : p.Accepted) (hi : i < p.count)
    (hop : (p.get i).op = .call) {values : Area Value} (hvalues : values.size = p.count)
    {capacity : Nat} {table : Area Nat} (htable : table.size = capacity) (event : TreeEvent)
    (meter : Meter) :
    Meets (functionEval p capacity event (p.get i) values table meter) (Reports True) fun x =>
      x.2.1.size = capacity ∧ x.2.2.limit = meter.limit := by
  obtain ⟨args, -, hwalk, -, hmem, -⟩ := hp.call_arguments hi hop
  obtain ⟨cost, hrun⟩ := function_eval_spec hwalk capacity event (args.map values.cell)
  refine (hrun values table meter htable (fun a ha => ?_) rfl).mono
    (fun e => Reports.mono (fun _ => trivial) e) fun x hx => ⟨hx.2.1, hx.2.2.2⟩
  have := (hmem a ha).1
  omega

/-- The value of an instruction is computed within the areas. -/
theorem instruction_value_meets {capacity i : Nat} (hv : v.Fits depths)
    (hi : i < v.program.count) (hc : c.Fits v.program depths capacity)
    (hcapacity : v.patternCapacity = capacity) (hdepth : event.depth < depths) (a b : Value) :
    Meets (instructionValue v (v.program.get i) event c a b) (Reports True) fun x =>
      x.2.1.size = capacity ∧ x.2.2.limit = c.meter.limit := by
  have hfacts := hv.accepted.facts hi
  unfold instructionValue
  cases hop : (v.program.get i).op
  case metadata =>
    refine (event_metadata_meets hv _ hdepth).bind (fun e he => he) fun value _ => ?_
    split
    · exact query_error_meets.mpr trivial
    · exact ⟨hc.table, rfl⟩
  case bytes | string =>
    dsimp only
    rw [Program.slice_of_le hfacts.data]
    exact ⟨hc.table, rfl⟩
  case variableRef =>
    have hslot := hv.accepted.slots.lt i hi hop
    dsimp only
    rw [Area.read_of_lt (by rw [hv.bindings]; exact hslot)]
    exact ⟨hc.table, rfl⟩
  case call =>
    dsimp only
    rw [hcapacity]
    exact function_eval_meets hv.accepted hi hop hc.values hc.table event c.meter
  case eq | ne | lt | le | gt | ge =>
    refine (compare_values_meets c.meter a b _).bind (fun e he => he) ?_
    rintro ⟨order, meter⟩ hlimit
    exact ⟨hc.table, hlimit⟩
  all_goals exact ⟨hc.table, rfl⟩

theorem test_value_meets {capacity i : Nat} (hv : v.Fits depths) (hi : i < v.program.count)
    (hc : c.Fits v.program depths capacity) (hdepth : event.depth < depths) (active : Bool) :
    Meets (testValue v (v.program.get i) event c i active) (Reports True) fun x =>
      x.2.2.limit = c.meter.limit := by
  have hread : ∀ j < v.program.count,
      c.states.read (event.depth * v.program.count + j) =
        some (c.states.cell (event.depth * v.program.count + j)) := fun j hj =>
    Area.read_of_lt (by rw [hc.states]; exact row_lt hdepth hj)
  unfold testValue
  cases hreuse : (v.program.get i).reuse with
  | some j =>
    have hlt := (hv.accepted.facts hi).reuse j hreuse
    dsimp only
    rw [Area.read_of_lt (by rw [hc.values]; omega), hread j (by omega)]
    exact rfl
  | none =>
    refine (charge_meets c.meter _ _).bind (fun e he => he) fun meter hlimit => ?_
    refine (plan_tag_meets hv.accepted hi _).bind (fun e he => he) fun raw _ => ?_
    rw [hread i hi]
    refine (parent_mark_meets hc hdepth hi).bind (fun e he => he) fun parent _ => ?_
    exact hlimit

theorem store_value_meets {capacity i : Nat} (hi : i < v.program.count)
    (hc : c.Fits v.program depths capacity) (hdepth : event.depth < depths) (value : Value)
    (mark : Mark) :
    Meets (storeValue v event c i value mark) (Reports True)
      (c.Kept v.program depths capacity) := by
  unfold storeValue
  rw [Area.write_of_lt _ (by rw [hc.values]; exact hi)]
  refine (parent_mark_meets hc hdepth hi).bind (fun e he => he) fun parent _ => ?_
  dsimp only
  rw [Area.write_of_lt _ (by rw [hc.states]; exact row_lt hdepth hi)]
  exact ⟨⟨hc.values, hc.table, hc.states⟩, rfl⟩

/-- One instruction of `evaluate` stays in range. -/
theorem evaluate_step_meets {capacity i : Nat} (hv : v.Fits depths) (hi : i < v.program.count)
    (hc : c.Fits v.program depths capacity) (hcapacity : v.patternCapacity = capacity)
    (hdepth : event.depth < depths) :
    Meets (evaluateStep v event c i) (Reports True) (c.Kept v.program depths capacity) := by
  have hfacts := hv.accepted.facts hi
  have hlink : ∀ link : Option Nat, (∀ j, link = some j → j < i) →
      ∀ j, link = some j → j < c.values.size := by
    intro link hlt j hj
    have := hlt j hj
    rw [hc.values]
    omega
  unfold evaluateStep
  rw [Program.fetch_of_lt hi]
  refine (operand_meets (hlink _ hfacts.left)).bind (fun e he => he) fun a _ => ?_
  refine (operand_meets (hlink _ hfacts.right)).bind (fun e he => he) fun b _ => ?_
  refine (charge_meets c.meter 1 _).bind (fun e he => he) fun meter hlimit => ?_
  have hc' : Cells.Fits v.program depths capacity { c with meter := meter } :=
    ⟨hc.values, hc.table, hc.states⟩
  refine (predicate_active_meets hv.accepted hi hc').bind (fun e he => he) fun inPredicate _ => ?_
  refine (path_active_meets hv hi hc' hdepth).bind (fun e he => he) fun inPath _ => ?_
  dsimp only
  split
  · refine (test_value_meets hv hi hc' hdepth _).bind (fun e he => he) ?_
    rintro ⟨value, mark, meter'⟩ hlimit'
    have hc'' : Cells.Fits v.program depths capacity { c with meter := meter' } :=
      ⟨hc.values, hc.table, hc.states⟩
    exact (store_value_meets hi hc'' hdepth value mark).mono (fun e he => he) fun x hx =>
      ⟨hx.fits, hx.limit.trans (hlimit'.trans hlimit)⟩
  · rw [Area.read_of_lt (by rw [hc.states]; exact row_lt hdepth hi), checked_some]
    show Meets (if _ then _ else _) _ _
    split
    · refine (instruction_value_meets hv hi hc' hcapacity hdepth a b).bind (fun e he => he) ?_
      rintro ⟨value, table, meter'⟩ ⟨htable, hlimit'⟩
      have hc'' : Cells.Fits v.program depths capacity
          { c with table := table, meter := meter' } := ⟨hc.values, htable, hc.states⟩
      exact (store_value_meets hi hc'' hdepth value _).mono (fun e he => he) fun x hx =>
        ⟨hx.fits, hx.limit.trans (hlimit'.trans hlimit)⟩
    · exact (store_value_meets hi hc' hdepth _ _).mono (fun e he => he) fun x hx =>
        ⟨hx.fits, hx.limit.trans hlimit⟩

/-- A loop over instructions stays in range when its step does. -/
theorem fold_meets {capacity : Nat} {step : Cells → Nat → Run Cells} {list : List Nat}
    (hlist : ∀ i ∈ list, i < p.count)
    (hstep : ∀ c i, i < p.count → c.Fits p depths capacity →
      Meets (step c i) (Reports True) (c.Kept p depths capacity))
    (hc : c.Fits p depths capacity) :
    Meets (list.foldlM step c) (Reports True) (c.Kept p depths capacity) := by
  induction list generalizing c with
  | nil => exact ⟨hc, rfl⟩
  | cons i rest ih =>
    rw [List.forall_mem_cons] at hlist
    rw [List.foldlM_cons]
    refine (hstep c i hlist.1 hc).bind (fun e he => he) fun c' hkept => ?_
    exact (ih hlist.2 hkept.fits).mono (fun e he => he) fun x hx =>
      ⟨hx.fits, hx.limit.trans hkept.limit⟩

theorem clear_values_eq {values : Area Value} (hvalues : values.size = p.count) :
    ∃ values', clearValues p values = .ok values' ∧ values'.size = p.count ∧
      ∀ i < p.count, values'.cell i = {} := by
  refine ⟨⟨values.size, fun i => if i < p.count then {} else values.cell i⟩, ?_, hvalues,
    fun i hi => if_pos hi⟩
  rw [clearValues, if_pos (by omega)]

/-- `evaluate` stays in range. -/
theorem evaluate_meets {capacity : Nat} (hv : v.Fits depths)
    (hc : c.Fits v.program depths capacity) (hcapacity : v.patternCapacity = capacity)
    (hdepth : event.depth < depths) :
    Meets (evaluate v event c) (Reports True) fun x =>
      c.Kept v.program depths capacity x.1 := by
  obtain ⟨values, hclear, hvalues, -⟩ := clear_values_eq hc.values
  have hrow : event.depth * v.program.count + v.program.count ≤ c.states.size := by
    have : (event.depth + 1) * v.program.count ≤ depths * v.program.count :=
      Nat.mul_le_mul_right _ hdepth
    rw [Nat.add_mul, Nat.one_mul] at this
    rw [hc.states]
    exact this
  unfold evaluate clearRow
  rw [hclear]
  simp only [if_pos hrow]
  have hstep : ∀ c i, i < v.program.count → c.Fits v.program depths capacity →
      Meets (evaluateStep v event c i) (Reports True) (c.Kept v.program depths capacity) :=
    fun c i hi hc => evaluate_step_meets hv hi hc hcapacity hdepth
  refine (fold_meets (fun i hi => List.mem_range.mp hi) hstep ?_).bind
    (fun e he => he) fun c' hkept => ?_
  · exact ⟨hvalues, hc.table, hc.states⟩
  · rw [Area.read_of_lt (by rw [hkept.fits.values]; exact hv.accepted.root_lt)]
    exact ⟨hkept.fits, hkept.limit⟩

theorem s1_candidate_lt (hp : p.Accepted) : s1Candidate p.get p.root < p.count := by
  have hroot := hp.root_lt
  unfold s1Candidate
  split
  · rename_i left right hop hleft hright
    split
    · have := (hp.facts hroot).right right hright
      omega
    · exact hroot
  · exact hroot

/-- The filter of an accepted scope program is an instruction with operands. -/
theorem s1_filter_spec (hp : p.Accepted) {filter : Nat}
    (h : s1Filter p.get p.count p.root = some filter) :
    filter < p.count ∧ (p.get filter).op = .filter := by
  have hlt := s1_candidate_lt hp
  unfold s1Filter at h
  dsimp only at h
  split at h
  · rename_i left predicate hop hleft hright
    split at h
    · cases h
    · split at h
      · cases h
        exact ⟨hlt, hop⟩
      · cases h
  · cases h

/-- The parts of a scope program. -/
theorem scope_parts_meets (hp : p.Accepted) (hlevel : p.level = .s1) :
    ∃ left predicate, scopeParts p = .ok (p.get left, predicate) ∧ left < p.count ∧
      predicate < p.count := by
  have htyped := hp.typed
  simp only [planTypes, Bool.and_eq_true, Bool.or_eq_true, decide_eq_true_eq, hlevel,
    ne_eq, not_true_eq_false, false_or] at htyped
  obtain ⟨filter, hfilter⟩ := Option.isSome_iff_exists.mp htyped.2
  obtain ⟨hlt, hop⟩ := s1_filter_spec hp hfilter
  obtain ⟨l, r, hl, hr, hll, hrl⟩ := hp.operands hlt (by rw [hop]; rfl)
  refine ⟨l, r, ?_, by omega, by omega⟩
  simp [scopeParts, hfilter, Program.fetch_of_lt hlt, hl, hr,
    Program.fetch_of_lt (show l < p.count by omega), bind, Except.bind, pure, Except.pure]

theorem predicate_range_eq {predicate : Nat} (h : predicate < p.count) :
    ∃ range, predicateRange p predicate = .ok range ∧ ∀ i ∈ range, i < p.count := by
  refine ⟨List.range' (p.get predicate).low (predicate + 1 - (p.get predicate).low), ?_, ?_⟩
  · simp [predicateRange, Program.fetch_of_lt h, bind, Except.bind, pure, Except.pure]
  · intro i hi
    rw [List.mem_range'_1] at hi
    omega

theorem decide_value_meets (n : Instruction) (a b : Value) (meter : Meter) :
    Meets (decideValue n a b meter) (Reports True) fun x => x.2.limit = meter.limit := by
  unfold decideValue
  cases n.op
  case literal | bool | call | and | or => exact rfl
  all_goals
    refine (compare_values_meets meter _ _ n).bind (fun e he => he) ?_
    rintro ⟨order, meter'⟩ hlimit
    exact hlimit

/-- One step of a decision stays within the areas. -/
theorem decide_step_meets {capacity i : Nat} (hp : p.Accepted) (hi : i < p.count)
    (hc : c.Fits p depths capacity) :
    Meets (decideStep p c i) (Reports True) (c.Kept p depths capacity) := by
  have hfacts := hp.facts hi
  have hlink : ∀ link : Option Nat, (∀ j, link = some j → j < i) →
      ∀ j, link = some j → j < c.values.size := by
    intro link hlt j hj
    have := hlt j hj
    rw [hc.values]
    omega
  unfold decideStep
  rw [Program.fetch_of_lt hi]
  refine (operand_meets (hlink _ hfacts.left)).bind (fun e he => he) fun a _ => ?_
  refine (operand_meets (hlink _ hfacts.right)).bind (fun e he => he) fun b _ => ?_
  refine (charge_meets c.meter 1 _).bind (fun e he => he) fun meter hlimit => ?_
  split
  · exact ⟨⟨hc.values, hc.table, hc.states⟩, hlimit⟩
  · refine (decide_value_meets _ a b meter).bind (fun e he => he) ?_
    rintro ⟨value, meter'⟩ hlimit'
    dsimp only
    rw [Area.write_of_lt _ (by rw [hc.values]; exact hi)]
    exact ⟨⟨hc.values, hc.table, hc.states⟩, hlimit'.trans hlimit⟩

theorem s1_decide_meets {capacity : Nat} (hp : p.Accepted) (hlevel : p.level = .s1)
    (hc : c.Fits p depths capacity) (selected : Bool) :
    Meets (s1Decide p c selected) (Reports True) fun x => c.Kept p depths capacity x.1 := by
  obtain ⟨left, predicate, hparts, -, hpredicate⟩ := scope_parts_meets hp hlevel
  obtain ⟨range, hrange, hmem⟩ := predicate_range_eq hpredicate
  unfold s1Decide
  rw [hparts]
  show Meets (predicateRange p predicate >>= _) _ _
  rw [hrange]
  refine (fold_meets hmem (fun c i hi hc => decide_step_meets hp hi hc) hc).bind
    (fun e he => he) fun c' hkept => ?_
  rw [Area.read_of_lt (by rw [hkept.fits.values]; exact hpredicate)]
  exact hkept

/-- One step of a collection stays within the areas. -/
theorem collect_step_meets {capacity i : Nat} (hp : p.Accepted) (hi : i < p.count)
    (hc : c.Fits p depths capacity) :
    Meets (collectStep p event c i) (Reports True) (c.Kept p depths capacity) := by
  unfold collectStep
  rw [Program.fetch_of_lt hi]
  show Meets (if _ then _ else _) _ _
  split
  · exact ⟨hc, rfl⟩
  · refine (charge_meets c.meter 1 _).bind (fun e he => he) fun meter hlimit => ?_
    refine (charge_meets meter _ _).bind (fun e he => he) fun meter' hlimit' => ?_
    rw [Area.read_of_lt (by rw [hc.values]; exact hi)]
    refine (plan_tag_meets hp hi _).bind (fun e he => he) fun matched _ => ?_
    have hwrite : ∀ value, Meets (do
        let values ← checked (c.values.write i value)
        return { c with meter := meter', values := values } : Run Cells) (Reports True)
        (c.Kept p depths capacity) := by
      intro value
      rw [Area.write_of_lt _ (by rw [hc.values]; exact hi)]
      exact ⟨⟨hc.values, hc.table, hc.states⟩, hlimit'.trans hlimit⟩
    split
    · split
      · exact query_limit_meets.mpr trivial
      · exact hwrite _
    · exact hwrite _

theorem scope_start_meets {capacity : Nat} (hp : p.Accepted) (hlevel : p.level = .s1)
    (hc : c.Fits p depths capacity) :
    Meets (scopeStart p event c) (Reports True) fun x => c.Kept p depths capacity x.1 := by
  obtain ⟨left, predicate, hparts, hleft, -⟩ := scope_parts_meets hp hlevel
  obtain ⟨values, hclear, hvalues, -⟩ := clear_values_eq hc.values
  unfold scopeStart
  rw [hparts]
  show Meets (clearValues p c.values >>= _) _ _
  rw [hclear]
  refine (charge_meets c.meter 1 _).bind (fun e he => he) fun meter hlimit => ?_
  refine (charge_meets meter _ _).bind (fun e he => he) fun meter' hlimit' => ?_
  refine (plan_tag_meets hp hleft _).bind (fun e he => he) fun selected _ => ?_
  exact ⟨⟨hvalues, hc.table, hc.states⟩, hlimit'.trans hlimit⟩

theorem scope_collect_meets {capacity : Nat} (hp : p.Accepted) (hlevel : p.level = .s1)
    (hc : c.Fits p depths capacity) :
    Meets (scopeCollect p event c) (Reports True) (c.Kept p depths capacity) := by
  obtain ⟨left, predicate, hparts, -, hpredicate⟩ := scope_parts_meets hp hlevel
  obtain ⟨range, hrange, hmem⟩ := predicate_range_eq hpredicate
  unfold scopeCollect
  rw [hparts]
  show Meets (predicateRange p predicate >>= _) _ _
  rw [hrange]
  exact fold_meets hmem (fun c i hi hc => collect_step_meets hp hi hc) hc

end OpenTlv.Query
