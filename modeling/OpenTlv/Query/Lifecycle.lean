import OpenTlv.Query.Bounds
import OpenTlv.Query.Evaluation
import OpenTlv.Query.Exec
import OpenTlv.Query.Growth
import OpenTlv.Lib.Findings

/-!
# The invariant of an execution

`Exec.Sound` holds of every execution of an accepted plan, from its initialization on: the areas
have the extents that the plan needs and lie side by side in the octets that the sizing reports,
the bindings have the types that the plan declares, and a retained execution holds the nodes of the
events that were fed. Every operation keeps it and reports its failures, so that no run of
operations leaves an area.
-/

namespace OpenTlv.Query

/-- The areas of an execution have the extents it was sized with. -/
structure Exec.Sized (e : Exec) : Prop where
  accepted : e.program.Accepted
  values : e.values.size = e.program.count
  bindings : e.bindings.size = e.program.variableCount
  indexes : e.indexes.size = e.depthCapacity
  table : e.table.size = e.patternCapacity

/-- What a streaming execution has besides. -/
structure Exec.Streaming (e : Exec) : Prop where
  level : e.program.level.code ≤ Level.s1.code
  states : e.states.size = e.depthCapacity * e.program.count

/-- What a retained execution has besides. -/
structure Exec.Retaining (e : Exec) : Prop where
  openNodes : e.openNodes.size = e.depthCapacity
  nodes : e.nodes.size = e.nodeCapacity + 1
  frames : e.frames.size = e.program.count + 1
  elements : e.maxElements = e.nodeCapacity
  room : e.elements ≤ e.nodeCapacity
  pruning : e.pruning = false
  equipped : e.session.Equipped

/-- The octets that the sizing reports for an execution. -/
def Exec.reported (e : Exec) : Except Status Nat :=
  if e.retained then evalSize e.layout e.program (e.depthCapacity - 1) e.nodeCapacity
  else execSize e.layout e.program (e.depthCapacity - 1)

/-- The node sets of all frames. -/
def Exec.setRegions (e : Exec) : List Stretch :=
  (List.range (2 * (e.program.count + 1))).map fun i =>
    ⟨e.frameSet (i / 2) (i % 2 = 1), e.nodeCapacity + 1⟩

/-- The cells of all areas. -/
def Exec.regions (e : Exec) : List Stretch :=
  cellsAt e.evalValues e.layout.value e.program.count ++
    cellsAt e.evalBindings e.layout.value e.program.variableCount ++
    cellsAt e.evalIndexes e.layout.word e.depthCapacity ++
    cellsAt e.evalTable e.layout.word e.patternCapacity ++
    if e.retained then
      cellsAt e.evalBase e.layout.word e.depthCapacity ++
        cellsAt e.evalNodes e.layout.node (e.nodeCapacity + 1) ++
        cellsAt e.evalFrames e.layout.frame (e.program.count + 1) ++ e.setRegions ++
        cellsAt e.evalCodecScratch e.program.codecStride e.program.count
    else cellsAt e.evalBase 1 (e.depthCapacity * e.program.count)

/-- No two cells share an octet, and all of them lie behind the execution in the octets that the
sizing reports. -/
structure Exec.Fitting (e : Exec) : Prop where
  reported : e.reported = .ok e.workspace
  inLine : InLine (e.storage + e.layout.exec) e.regions (e.storage + e.workspace)

/-- A cell that is not bound, or holds a value of a type. -/
def BoundAs (type : Kind) (value : Value) : Prop :=
  value = {} ∨ ∃ d : Denoted, d.kind = type ∧ d.kind ≠ .node ∧ ∀ w, value = d.value w

/-- The bindings have the declared types. -/
def Exec.Typed (e : Exec) : Prop :=
  ∀ i, i < e.program.count → (e.program.get i).op = .variableRef →
    BoundAs (e.program.get i).type (e.bindings.cell (e.program.get i).variableSlot)

/-- Every variable is bound. -/
def Exec.Complete (e : Exec) : Prop :=
  ∀ i, i < e.program.count → (e.program.get i).op = .variableRef →
    (e.bindings.cell (e.program.get i).variableSlot).kind ≠ .node

/-- The nodes of a retained execution are the open forest of the events that were fed. -/
def Exec.Holding (e : Exec) (fed : List TreeEvent) : Prop :=
  ∃ (spine : Spine) (current : Forest Item), e.opened = spine.length ∧
    Grown e.nodeCapacity e.nodes e.openNodes e.indexes e.elements spine current ∧
    fed = spine.fed ++ events spine.length current

/-- The invariant of an execution to which `fed` was fed. -/
structure Exec.Sound (e : Exec) (fed : List TreeEvent) : Prop where
  sized : e.Sized
  fitting : e.Fitting
  streaming : e.retained = false → e.Streaming
  retaining : e.retained = true → e.Retaining
  typed : e.Typed
  complete : e.elements ≠ 0 → e.Complete
  opened : e.opened ≤ e.depthCapacity
  holding : e.retained = true → e.Holding fed
  context : e.contextFound = true → ∃ c, e.context = some c ∧ c < e.elements
  result : e.finished = true → e.retained = true →
    (e.frames.cell 0).out.size = e.nodeCapacity + 1
  cursor : e.finished = false → e.resultCursor = 0

section Places

variable {size count width total : Nat}

theorem add_size_ok (h : addSize size count width = .ok total) : total = size + count * width := by
  unfold addSize at h
  split at h
  · cases h
  · exact (Except.ok.inj h).symm

theorem le_align16 (size : Nat) : size ≤ align16 size := by
  unfold align16
  omega

theorem align16_le (size : Nat) : align16 size ≤ size + 15 := by
  unfold align16
  omega

variable {layout : Layout} {p : Program} {depth nodes bytes : Nat}

/-- The octets of a streaming execution. -/
theorem exec_size_eq (h : execSize layout p depth = .ok bytes) :
    p.level.code ≤ Level.s1.code ∧
      bytes = layout.exec + (p.count + p.variableCount) * layout.value +
        streamPattern p * layout.word + (depth + 1) * (layout.word + p.count) := by
  simp only [execSize, guard_ok, bind_ok] at h
  obtain ⟨-, hlevel, -, base, hbase, middle, hmiddle, hbytes⟩ := h
  rw [add_size_ok hbytes, add_size_ok hmiddle, add_size_ok hbase]
  exact ⟨Nat.not_lt.mp hlevel, rfl⟩

/-- The octets of a retained execution. -/
theorem eval_size_eq (h : evalSize layout p depth nodes = .ok bytes) :
    bytes = layout.exec + (p.count + p.variableCount) * layout.value + (depth + 1) * layout.word +
      p.patternCapacity * layout.word + align16 ((depth + 1) * (p.count + layout.word)) + 15 +
      (nodes + 1) * layout.node + (p.count + 1) * layout.frame +
      (nodes + 1) * (2 * (p.count + 1)) + 15 + p.count * p.codecStride := by
  simp only [evalSize, guard_ok, bind_ok] at h
  obtain ⟨-, -, -, a, ha, b, hb, c, hc, states, hstates, -, d, hd, f, hf, g, hg, i, hi, j, hj, k,
    hk, hbytes⟩ := h
  rw [add_size_ok hbytes, add_size_ok hk, add_size_ok hj, add_size_ok hi, add_size_ok hg,
    add_size_ok hf, add_size_ok hd, add_size_ok hstates, add_size_ok hc, add_size_ok hb,
    add_size_ok ha, Nat.zero_add]
  omega

variable {e : Exec}

theorem table_end : e.evalTable + e.patternCapacity * e.layout.word = e.evalBase := by
  rw [Exec.evalTable, Exec.evalBase, Nat.add_mul, Nat.add_assoc]

theorem open_end : e.evalBase + e.depthCapacity * e.layout.word ≤ e.evalNodes := by
  have hrows := le_align16 (e.depthCapacity * (e.program.count + e.layout.word))
  have hnodes := le_align16
    (e.evalBase + align16 (e.depthCapacity * (e.program.count + e.layout.word)))
  have hwords : e.depthCapacity * e.layout.word ≤
      e.depthCapacity * (e.program.count + e.layout.word) :=
    Nat.mul_le_mul_left _ (Nat.le_add_left _ _)
  unfold Exec.evalNodes
  omega

/-- The octets reach as far as the marks of a streaming execution. -/
theorem states_end (hdepth : e.depthCapacity = depth + 1)
    (hpattern : e.patternCapacity = streamPattern e.program)
    (h : execSize e.layout e.program depth = .ok e.workspace) :
    e.evalBase + e.depthCapacity * e.program.count = e.storage + e.workspace := by
  rw [(exec_size_eq h).2, ← hdepth, ← hpattern]
  unfold Exec.evalBase Exec.evalIndexes Exec.evalBindings Exec.evalValues
  ring

/-- The octets reach as far as the codec scratch of a retained execution: each rounding takes at
most the 15 octets that were added for it. -/
theorem scratch_end (hdepth : e.depthCapacity = depth + 1)
    (hpattern : e.patternCapacity = e.program.patternCapacity)
    (h : evalSize e.layout e.program depth e.nodeCapacity = .ok e.workspace) :
    e.evalCodecScratch + e.program.count * e.program.codecStride ≤ e.storage + e.workspace := by
  have hnodes := align16_le
    (e.evalBase + align16 (e.depthCapacity * (e.program.count + e.layout.word)))
  have hscratch := align16_le
    (e.evalSets + 2 * (e.program.count + 1) * (e.nodeCapacity + 1))
  have hbase : e.evalBase = e.storage + e.layout.exec +
      (e.program.count + e.program.variableCount) * e.layout.value +
        (e.depthCapacity + e.patternCapacity) * e.layout.word := by
    unfold Exec.evalBase Exec.evalIndexes Exec.evalBindings Exec.evalValues
    ring
  rw [eval_size_eq h, ← hdepth, ← hpattern]
  unfold Exec.evalCodecScratch
  unfold Exec.evalSets Exec.evalFrames Exec.evalNodes at hscratch ⊢
  linarith

theorem shared_in_line : InLine (e.storage + e.layout.exec)
    (cellsAt e.evalValues e.layout.value e.program.count ++
      cellsAt e.evalBindings e.layout.value e.program.variableCount ++
      cellsAt e.evalIndexes e.layout.word e.depthCapacity ++
      cellsAt e.evalTable e.layout.word e.patternCapacity) e.evalBase := by
  have hvalues := in_line_cells e.evalValues e.layout.value e.program.count
  have hbindings := in_line_cells e.evalBindings e.layout.value e.program.variableCount
  have hindexes := in_line_cells e.evalIndexes e.layout.word e.depthCapacity
  have htable := in_line_cells e.evalTable e.layout.word e.patternCapacity
  rw [table_end] at htable
  exact ((hvalues.append hbindings).append hindexes).append htable

theorem sets_in_line : InLine e.evalSets e.setRegions e.evalCodecScratch := by
  have hcells := in_line_cells e.evalSets (e.nodeCapacity + 1) (2 * (e.program.count + 1))
  have heq : e.setRegions =
      cellsAt e.evalSets (e.nodeCapacity + 1) (2 * (e.program.count + 1)) := by
    refine List.map_congr_left fun i _ => ?_
    have hindex : 2 * (i / 2) + (decide (i % 2 = 1)).toNat = i := by
      rcases Nat.mod_two_eq_zero_or_one i with h | h
      all_goals
        simp only [h, decide_true, zero_ne_one, decide_false, Bool.toNat_true, Bool.toNat_false]
        omega
    rw [Exec.frameSet, hindex]
  rw [heq]
  exact hcells.mono (Nat.le_refl _) (le_align16 _)

theorem retained_in_line : InLine e.evalBase
    (cellsAt e.evalBase e.layout.word e.depthCapacity ++
      cellsAt e.evalNodes e.layout.node (e.nodeCapacity + 1) ++
      cellsAt e.evalFrames e.layout.frame (e.program.count + 1) ++ e.setRegions ++
      cellsAt e.evalCodecScratch e.program.codecStride e.program.count)
    (e.evalCodecScratch + e.program.count * e.program.codecStride) := by
  have hopen := in_line_cells e.evalBase e.layout.word e.depthCapacity
  have hnodes := in_line_cells e.evalNodes e.layout.node (e.nodeCapacity + 1)
  have hframes := in_line_cells e.evalFrames e.layout.frame (e.program.count + 1)
  have hscratch := in_line_cells e.evalCodecScratch e.program.codecStride e.program.count
  exact ((((hopen.mono (Nat.le_refl _) open_end).append hnodes).append hframes).append
    sets_in_line).append hscratch

/-- The areas of a streaming execution fit into the octets that `tlv_query_exec_size` reports. -/
theorem streaming_fits (hr : e.retained = false) (hdepth : e.depthCapacity = depth + 1)
    (hpattern : e.patternCapacity = streamPattern e.program)
    (h : execSize e.layout e.program depth = .ok e.workspace) : e.Fitting := by
  refine ⟨?_, ?_⟩
  · rw [Exec.reported, hr, hdepth]
    exact h
  · have hstates := in_line_cells e.evalBase 1 (e.depthCapacity * e.program.count)
    rw [Nat.mul_one, states_end hdepth hpattern h] at hstates
    rw [Exec.regions, hr]
    exact shared_in_line.append hstates

/-- The areas of a retained execution fit into the octets that `tlv_query_eval_size` reports. -/
theorem retained_fits (hr : e.retained = true) (hdepth : e.depthCapacity = depth + 1)
    (hpattern : e.patternCapacity = e.program.patternCapacity)
    (h : evalSize e.layout e.program depth e.nodeCapacity = .ok e.workspace) : e.Fitting := by
  refine ⟨?_, ?_⟩
  · rw [Exec.reported, hr, hdepth]
    exact h
  · rw [Exec.regions, hr]
    exact shared_in_line.append
      (retained_in_line.mono (Nat.le_refl _) (scratch_end hdepth hpattern h))

/-- An area that fits has all its cells. -/
theorem extent_eq {start : Nat} (h : start + count * width ≤ e.storage + e.workspace) :
    e.extent start count width = count :=
  if_pos h

/-- A zeroed workspace that reaches behind the shared areas has them. -/
theorem zeroed_sized (hp : e.program.Accepted) (h : e.evalBase ≤ e.storage + e.workspace) :
    e.zeroed.Sized := by
  have htable := table_end (e := e)
  have hvalues : e.evalBindings ≤ e.evalIndexes := Nat.le_add_right _ _
  have hindexes : e.evalIndexes ≤ e.evalTable := Nat.le_add_right _ _
  unfold Exec.zeroed
  dsimp only
  split
  all_goals
    refine ⟨hp, extent_eq ?_, extent_eq ?_, extent_eq ?_, extent_eq ?_⟩
    · show e.evalBindings ≤ _
      omega
    · show e.evalIndexes ≤ _
      omega
    · show e.evalTable ≤ _
      omega
    · omega

/-- A zeroed workspace that reaches behind the codec scratch has the areas of a retained
execution. -/
theorem zeroed_retained (hr : e.retained = true)
    (h : e.evalCodecScratch ≤ e.storage + e.workspace) :
    e.evalBase ≤ e.storage + e.workspace ∧ e.zeroed.openNodes.size = e.depthCapacity ∧
      e.zeroed.nodes.size = e.nodeCapacity + 1 ∧
      e.zeroed.frames.size = e.program.count + 1 := by
  have hopen := open_end (e := e)
  have hnodes : e.evalNodes ≤ e.evalFrames := Nat.le_add_right _ _
  have hframes : e.evalFrames ≤ e.evalSets := Nat.le_add_right _ _
  have hsets := le_align16 (e.evalSets + 2 * (e.program.count + 1) * (e.nodeCapacity + 1))
  change _ ≤ e.evalCodecScratch at hsets
  have hfit : e.evalFrames ≤ e.storage + e.workspace := by omega
  unfold Exec.zeroed
  dsimp only
  rw [if_pos hr]
  refine ⟨by omega, extent_eq ?_, extent_eq ?_, extent_eq ?_⟩
  · exact (hopen.trans hnodes).trans hfit
  · exact hfit
  · refine le_trans (le_of_eq ?_) (hsets.trans h)
    show e.evalFrames + (e.program.count + 1) * (e.layout.frame + 2 * (e.nodeCapacity + 1)) = _
    rw [Exec.evalSets]
    ring

end Places

section Init

variable {layout : Layout} {p : Program} {env : Environment}
  {storage capacity depth nodes maxElements work : Nat} {e : Exec}

/-- A streaming execution begins sound. -/
theorem exec_init_sound (hp : p.Accepted)
    (h : execInit layout p storage capacity depth maxElements work = .ok e) : e.Sound [] := by
  simp only [execInit, guard_ok, bind_ok] at h
  obtain ⟨bytes, hbytes, -, -, he⟩ := h
  cases he
  refine ⟨zeroed_sized hp ?_, streaming_fits rfl rfl rfl hbytes,
    fun _ => ⟨(exec_size_eq hbytes).1, extent_eq ?_⟩, fun h => (by cases h), fun i _ _ => .inl rfl,
    fun h => absurd rfl h, Nat.zero_le _, fun h => (by cases h), fun h => (by cases h),
    fun h => (by cases h), fun _ => rfl⟩
  · exact (Nat.le_add_right _ _).trans (states_end rfl rfl hbytes).le
  · rw [Nat.mul_one]
    exact (states_end rfl rfl hbytes).le

/-- `compatible` provides what the calls need. -/
theorem compatible_equips (hp : p.Accepted) (h : compatible p env = .ok ()) :
    Session.Equips p env p.count := by
  have hcalls : ∀ i, i < p.count → (p.get i).op = .call →
      callCompatible p env (p.get i) = .ok () := by
    intro i hi hop
    unfold compatible at h
    split at h
    · cases h
    · refine forM_ok h (p.get i) (List.mem_filter.mpr ⟨?_, by simpa using hop⟩)
      have hlt : i < p.instructions.length := hi
      simp only [Program.get, List.getD_eq_getElem?_getD, List.getElem?_eq_getElem hlt,
        Option.getD_some]
      exact List.getElem_mem hlt
  refine ⟨fun i hi hop hconversion => ?_, fun i hi hop hfunction => ?_,
    fun i hi hop hfunction => ?_, fun i hi hop hfunction => ?_, rfl⟩
  all_goals
    have hcall := hcalls i hi hop
    simp only [callCompatible, guard_ok] at hcall
    obtain ⟨hid, hhook, hclass, hnumber, hformat, -⟩ := hcall
  · have hid : (p.get i).hookId ≠ 0 := fun hzero => hid ⟨hconversion, hzero⟩
    cases hfound : env.hooks.reverse.find?
        (fun hook => hook.id = (p.get i).hookId) with
    | none =>
      rw [hfound] at hhook
      exact absurd ⟨hid, rfl⟩ hhook
    | some hook =>
      rw [hfound] at hhook
      cases hdecode : hook.decode with
      | none => simp [hid, hdecode] at hhook
      | some decode =>
        refine ⟨hook, decode, rfl, hdecode, ?_⟩
        simp only [hdecode, Option.isNone_some, Bool.false_or, Bool.or_eq_true,
          decide_eq_true_eq, not_and, not_or] at hhook
        exact (Nat.not_lt.mp (hhook hid).2).trans (hp.facts hi).scratch
  · cases htags : env.tags with
    | none => simp [hfunction, htags] at hclass
    | some tags =>
      cases hdecompose : tags.classOf with
      | none => simp [hfunction, htags, hdecompose] at hclass
      | some decompose => exact ⟨tags, decompose, rfl, hdecompose⟩
  · cases htags : env.tags with
    | none => simp [hfunction, htags] at hnumber
    | some tags =>
      cases hdecompose : tags.numberOf with
      | none => simp [hfunction, htags, hdecompose] at hnumber
      | some decompose => exact ⟨tags, decompose, rfl, hdecompose⟩
  · cases hfound : env.format with
    | none => simp [hfunction, hfound] at hformat
    | some format => exact ⟨format, rfl⟩

/-- A retained execution begins sound. -/
theorem eval_init_sound (hp : p.Accepted)
    (h : evalInit layout p env storage capacity depth nodes work = .ok e) : e.Sound [] := by
  simp only [evalInit, guard_ok, bind_ok] at h
  obtain ⟨bytes, hbytes, -, -, ⟨⟩, hcompatible, he⟩ := h
  cases he
  have hscratch := scratch_end (e := evalSetup layout p env storage bytes depth nodes work) rfl rfl
    hbytes
  obtain ⟨hshared, hopen, hnodes, hframes⟩ :=
    zeroed_retained rfl ((Nat.le_add_right _ _).trans hscratch)
  have hsized := zeroed_sized hp hshared
  have hequips := compatible_equips hp hcompatible
  refine ⟨{ hsized with }, retained_fits rfl rfl rfl hbytes, fun h => (by cases h),
    fun _ => ⟨hopen, hnodes, hframes, rfl, Nat.zero_le _, rfl,
      { hequips with scratch := extent_eq hscratch }⟩,
    fun i _ _ => .inl rfl, fun h => absurd rfl h, Nat.zero_le _, fun _ => ?_,
    fun h => (by cases h), fun h => (by cases h), fun _ => rfl⟩
  refine ⟨[], .nil, rfl, ⟨rfl, trivial, ?_, fun _ => rfl⟩, rfl⟩
  intro k node hk
  cases hk

end Init

end OpenTlv.Query
