import OpenTlv.Query.Image
import OpenTlv.Query.Operations
import OpenTlv.Query.Steady

/-!
# Executions stay within bounds

The remaining operations of an execution, and runs of them. Binding stores values of the declared
types, a finish evaluates over the closed forest, results are read from the root frame. No
operation on a sound execution leaves an area, so that an opened plan executes within bounds.
-/

namespace OpenTlv.Query

variable {e e' : Exec} {fed : List TreeEvent}

/-- A fresh execution has published nothing and has not finished. -/
theorem is_fresh_iff : e.isFresh = true ↔
    e.elements = 0 ∧ e.opened = 0 ∧ e.invalid = false ∧ e.finished = false := by
  simp only [Exec.isFresh, Bool.and_eq_true, decide_eq_true_eq, Bool.not_eq_true', and_assoc]

section Setup

theorem span_check_meets (data : Bytes) :
    Meets (spanCheck data) (Reports True) fun _ => True := by
  unfold spanCheck
  split
  · exact unlocated_meets
  · trivial

theorem binding_check_meets (binding : Binding) :
    Meets binding.check (Reports True) fun _ => True := by
  cases binding with
  | integer value => trivial
  | unsupported => trivial
  | bytes data => exact span_check_meets data
  | string data =>
    unfold Binding.check
    refine (span_check_meets data).bind (fun _ h => h) fun _ _ => ?_
    split
    · trivial
    · exact unlocated_meets

/-- The first loop passes only variables of the offered type. -/
theorem bind_checks_meets {bindings : Area Value} (kind : Kind) (l : List Instruction)
    (h : ∀ n ∈ l, n.variableSlot < bindings.size) :
    Meets (bindChecks bindings kind l) (Reports True) fun _ => ∀ n ∈ l, n.type = kind := by
  induction l with
  | nil =>
    intro n hn
    cases hn
  | cons n rest ih =>
    rw [List.forall_mem_cons] at h
    unfold bindChecks
    rw [Area.read_of_lt h.1, checked_some]
    show Meets (if _ then _ else _) _ _
    split
    · exact query_error_meets.mpr trivial
    · rename_i hpass
      refine (ih h.2).mono (fun _ h => h) fun _ hall => ?_
      rw [List.forall_mem_cons]
      exact ⟨by simpa using fun hne => hpass (.inl hne), hall⟩

/-- The second loop stores the value in the slots of its variables. -/
theorem bind_stores_meets (value : Value) (l : List Instruction) {bindings : Area Value}
    (h : ∀ n ∈ l, n.variableSlot < bindings.size) :
    Meets (bindStores value l bindings) (Reports True) fun bindings' =>
      bindings'.size = bindings.size ∧
        ∀ slot, bindings'.cell slot = bindings.cell slot ∨
          (bindings'.cell slot = value ∧ ∃ n ∈ l, n.variableSlot = slot) := by
  induction l generalizing bindings with
  | nil => exact ⟨rfl, fun _ => .inl rfl⟩
  | cons n rest ih =>
    rw [List.forall_mem_cons] at h
    unfold bindStores
    rw [Area.write_of_lt _ h.1, checked_some]
    refine (@ih (bindings.put n.variableSlot value) h.2).mono (fun _ h => h)
      fun bindings' hx => ?_
    refine ⟨hx.1, fun slot => ?_⟩
    rcases hx.2 slot with hold | ⟨hnew, m, hm, hslot⟩
    · by_cases hslot : slot = n.variableSlot
      · refine .inr ⟨?_, n, List.mem_cons_self, hslot.symm⟩
        rw [hold, hslot, Area.put_cell_self]
      · exact .inl (by rw [hold, Area.put_cell_of_ne _ _ hslot])
    · exact .inr ⟨hnew, m, List.mem_cons_of_mem _ hm, hslot⟩

/-- A supported binding has a value of its category. -/
theorem binding_bound (binding : Binding) (h : binding ≠ .unsupported) :
    BoundAs binding.kind binding.value := by
  refine .inr ?_
  cases binding with
  | integer value => exact ⟨.int value, rfl, nofun, fun _ => rfl⟩
  | bytes data => exact ⟨.bytes data, rfl, nofun, fun _ => rfl⟩
  | string data => exact ⟨.string data, rfl, nofun, fun _ => rfl⟩
  | unsupported => exact absurd rfl h

/-- A binding stores a value of the declared type in every slot of its name. -/
theorem bind_meets (h : e.Sound fed) (name : Bytes) (binding : Binding) :
    Meets (e.bind name binding) (Reports True) fun e' => e'.Sound fed := by
  have hslots := h.sized.accepted.slots
  have hnamed : ∀ n ∈ e.program.named name,
      n.op = .variableRef ∧ ∃ i < e.program.count, e.program.get i = n := by
    intro n hn
    simp only [Program.named, List.mem_filter, Bool.and_eq_true, decide_eq_true_eq] at hn
    exact ⟨hn.2.1, mem_instructions.mp hn.1⟩
  have hrange : ∀ n ∈ e.program.named name, n.variableSlot < e.bindings.size := by
    intro n hn
    obtain ⟨hop, i, hi, rfl⟩ := hnamed n hn
    rw [h.sized.bindings]
    exact hslots.lt i hi hop
  unfold Exec.bind
  split
  · exact unlocated_meets
  rename_i hfresh
  split
  · exact unlocated_meets
  rename_i hsupported
  refine (bind_checks_meets binding.kind _ hrange).bind (fun _ h => h) fun _ htypes => ?_
  split
  · exact unlocated_meets
  refine (binding_check_meets binding).bind (fun _ h => h) fun _ _ => ?_
  refine (bind_stores_meets binding.value _ hrange).bind (fun _ h => h) fun bindings hstored => ?_
  obtain ⟨hsize, hcells⟩ := hstored
  have hempty : e.elements = 0 := (is_fresh_iff.mp (by simpa using hfresh)).1
  refine
    { h with
      sized := { h.sized with bindings := hsize.trans h.sized.bindings }
      fitting := { h.fitting with }
      streaming := fun hr => { h.streaming hr with }
      retaining := fun hr => { h.retaining hr with }
      typed := fun i hi hop => ?_
      complete := fun hsome => absurd hempty hsome }
  rcases hcells (e.program.get i).variableSlot with hold | ⟨hnew, n, hn, hslot⟩
  · show BoundAs _ (bindings.cell (e.program.get i).variableSlot)
    rw [hold]
    exact h.typed i hi hop
  · -- another variable of the slot has the same type
    obtain ⟨hnop, j, hj, rfl⟩ := hnamed n hn
    have hsame := (hslots.same i hi j hj hop hnop hslot.symm).1
    show BoundAs (e.program.get i).type (bindings.cell (e.program.get i).variableSlot)
    rw [hnew, hsame, htypes _ hn]
    exact binding_bound binding hsupported

theorem set_context_meets (h : e.Sound fed) (ordinal : Nat) :
    Meets (e.setContext ordinal) (Reports True) fun e' => e'.Sound fed := by
  unfold Exec.setContext
  split
  · exact bare_failure_meets
  split
  · exact bare_failure_meets
  rename_i hfresh
  split
  · exact bare_failure_meets
  have hempty : e.elements = 0 := (is_fresh_iff.mp (by simpa using hfresh)).1
  refine
    { h with
      sized := { h.sized with }
      fitting := { h.fitting with }
      streaming := fun hr => { h.streaming hr with }
      retaining := fun hr => { h.retaining hr with }
      context := fun hfound => ?_ }
  obtain ⟨c, -, hlt⟩ := h.context hfound
  omega

theorem set_pruning_meets (h : e.Sound fed) (enabled : Bool) :
    Meets (e.setPruning enabled) (Reports True) fun e' => e'.Sound fed := by
  unfold Exec.setPruning
  split
  · exact bare_failure_meets
  split
  · exact bare_failure_meets
  rename_i hstreaming
  exact
    { h with
      sized := { h.sized with }
      fitting := { h.fitting with }
      streaming := fun hr => { h.streaming hr with }
      retaining := fun hr => absurd hr hstreaming }

theorem attach_document_meets (h : e.Sound fed) (metadata : Nat → Bool → Except Status Nat) :
    Meets (e.attachDocument metadata) (Reports True) fun e' => e'.Sound fed := by
  unfold Exec.attachDocument
  split
  · exact bare_failure_meets
  split
  · exact bare_failure_meets
  exact
    { h with
      sized := { h.sized with }
      fitting := { h.fitting with }
      streaming := fun hr => { h.streaming hr with }
      retaining := fun hr => { h.retaining hr with } }

/-- A reset begins the execution again. -/
theorem reset_sound (h : e.Sound fed) (hreset : e.reset = .ok e') : e'.Sound [] := by
  unfold Exec.reset at hreset
  split at hreset
  · exact eval_init_sound h.sized.accepted hreset
  · exact exec_init_sound h.sized.accepted hreset

end Setup

section Finish

/-- The start context of an evaluation. -/
def Exec.startContext (e : Exec) : Nat :=
  e.context.getD e.nodeCapacity

/-- A balanced execution holds the forest of the events that were fed. -/
theorem session_ready (h : e.Sound fed) (hr : e.retained = true) (hopened : e.opened = 0)
    (hcomplete : e.Complete) : ∃ forest, fed = events 0 forest ∧ e.session.Ready forest := by
  have hretaining := h.retaining hr
  obtain ⟨spine, current, hlength, hgrown, hfed⟩ := h.holding hr
  have hnil : spine = [] := List.length_eq_zero_iff.mp (by omega)
  subst hnil
  obtain ⟨helements, hnodes⟩ := hgrown.closed
  refine ⟨current, hfed, h.sized.accepted, hretaining.equipped, helements, hretaining.room,
    hretaining.nodes, hnodes, fun i hi hop => ?_⟩
  refine ⟨?_, ?_⟩
  · show (e.program.get i).variableSlot < e.bindings.size
    rw [h.sized.bindings]
    exact h.sized.accepted.slots.lt i hi hop
  · rcases h.typed i hi hop with hempty | ⟨d, hkind, hne, hvalue⟩
    · exact absurd (by rw [hempty]) (hcomplete i hi hop)
    · exact ⟨d, hkind, hne, hvalue _⟩

/-- The retained engine ends with the meaning of the root in its root frame. -/
theorem retained_finish_meets {forest : Forest Item} (h : e.Sound fed) (hr : e.retained = true)
    (hready : e.session.Ready forest) (hlive : e.session.Live e.startContext) :
    Meets e.retainedFinish (Reports True) fun e' =>
      ∃ vm : Vm, vm.Fits e.session ∧
        e' = { e with meter := vm.meter, values := vm.values, table := vm.table,
                      frames := vm.frames, result := (vm.frames.cell 0).result } ∧
        ∃ d, e.session.meaning forest e.program.root e.startContext 1 1 = some d ∧
          (vm.frames.cell 0).Holds e.session forest d := by
  have hretaining := h.retaining hr
  have hframes : 0 < e.frames.size := by
    rw [hretaining.frames]
    omega
  obtain ⟨cost, hloop⟩ := retained_loop_spec hready hlive
  have hpush : pushFrame e.session e.vm 0 e.program.root e.startContext 1 1 =
      .ok ⟨e.meter, e.values, e.table,
        e.frames.put 0 (freshFrame e.session e.program.root e.startContext 1 1)⟩ := by
    unfold pushFrame
    rw [show e.vm.frames = e.frames from rfl, Area.write_of_lt _ hframes]
    rfl
  have hfits : Vm.Fits e.session
      ⟨e.meter, e.values, e.table,
        e.frames.put 0 (freshFrame e.session e.program.root e.startContext 1 1)⟩ :=
    ⟨h.sized.values, h.sized.table, hretaining.frames⟩
  have hrun := hloop _ hfits (Area.put_cell_self _ _ _)
  unfold Exec.retainedFinish
  rw [show e.context.getD e.nodeCapacity = e.startContext from rfl, hpush]
  show Meets (retainedLoop e.session _ >>= _) _ _
  refine Meets.bind hrun (fun e => Reports.mono (fun _ => trivial) e) fun vm hvm => ?_
  obtain ⟨hvm, -, d, hmeaning, -, hholds⟩ := hvm
  rw [Area.read_of_lt (by rw [hvm.frames]; omega), checked_some]
  exact ⟨vm, hvm, rfl, d, hmeaning, hholds⟩

/-- The result that shows a meaning. -/
def Denoted.result (w : World) : Denoted → QueryResult
  | .nodes s => { boolean := w.truth (.nodes s) }
  | .bool value => { kind := some .bool, boolean := value }
  | .int value => { kind := some .number, boolean := value ≠ 0, integer := value }
  | .bytes data => { kind := some .bytes, data := data }
  | .string data => { kind := some .string, data := data }

/-- The result of a completed frame shows its meaning. -/
theorem frame_result {w : World} {f : Frame} {d : Denoted} (h : f.value = d.value w) :
    f.result = d.result w := by
  unfold Frame.result
  rw [h]
  cases d with
  | nodes s =>
    cases htruth : w.truth (.nodes s) <;>
      simp [Denoted.value, Denoted.result, Value.truth, htruth]
  | bool value => cases value <;> rfl
  | int value =>
    simp only [Denoted.value, Denoted.result, signed_integer_signed_value]
    simp [signedValue, Value.truth]
  | bytes data => rfl
  | string data => rfl

/-- What a completed evaluation shows. -/
structure Exec.Answers (e : Exec) (forest : Forest Item) (d : Denoted) : Prop where
  meaning : denote (e.session.world forest) (e.program.expression e.program.root) e.context 1 1 =
    some d
  result : e.result = d.result (e.session.world forest)
  holds : (e.frames.cell 0).Holds e.session forest d
  listed : ∀ i node, forest.nodes[i]? = some node → e.nodes.cell i = retain e.nodeCapacity node
  elements : e.elements = forest.size

/-- A finish evaluates the events that were fed, or is reported. -/
theorem finish_meets (h : e.Sound fed) :
    Meets e.finish (Reports True) fun e' =>
      e'.Sound fed ∧ e'.resultCursor = e.resultCursor ∧
        (e.finished = false → e.retained = true →
          ∃ forest d, fed = events 0 forest ∧ e'.Answers forest d) := by
  unfold Exec.finish
  split
  · exact unlocated_meets
  refine (ready_meets h.framed).bind (fun _ h => h) fun _ hcomplete => ?_
  split
  · exact unlocated_meets
  rename_i hbalanced
  split
  · exact unlocated_meets
  rename_i hpresent
  split
  · rename_i hfinished
    exact ⟨h, rfl, fun hnot => by rw [hnot] at hfinished; cases hfinished⟩
  rename_i hnot
  unfold Exec.finishBackend
  split
  · rename_i hr
    have hretaining := h.retaining hr
    obtain ⟨forest, hfed, hready⟩ := session_ready h hr (by simpa using hbalanced) hcomplete
    -- a start context that was found is one of the elements
    have hstart : e.session.Live e.startContext ∧
        e.session.contextAt e.startContext = e.context := by
      unfold Exec.startContext
      cases hcontext : e.context with
      | none => exact ⟨.inr rfl, if_pos rfl⟩
      | some c =>
        have hfound : e.contextFound = true := by
          by_contra hno
          exact hpresent ⟨by rw [hcontext]; rfl, by simpa using hno⟩
        obtain ⟨c', hc', hlt⟩ := h.context hfound
        rw [hcontext] at hc'
        cases hc'
        have hne : c ≠ e.nodeCapacity := by
          have := hretaining.room
          omega
        exact ⟨.inl hlt, if_neg hne⟩
    refine (retained_finish_meets h hr hready hstart.1).bind (fun _ h => h) fun e₁ hrun => ?_
    obtain ⟨vm, hvm, rfl, d, hmeaning, hholds⟩ := hrun
    refine ⟨{ h with
        sized := { h.sized with values := hvm.values, table := hvm.table }
        fitting := { h.fitting with }
        streaming := fun hno => ?_
        retaining := fun _ => { hretaining with frames := hvm.frames }
        result := fun _ _ => hholds.size
        cursor := fun hno => by cases hno },
      rfl, fun _ _ => ⟨forest, d, hfed, ?_, ?_, hholds, hready.nodes, hready.elements⟩⟩
    · exact absurd (hr.symm.trans hno) (by decide)
    · rw [Session.meaning, hstart.2] at hmeaning
      exact hmeaning
    · exact frame_result hholds.value
  · rename_i hr
    refine ⟨{ h with
        sized := { h.sized with }
        fitting := { h.fitting with }
        streaming := fun hno => { h.streaming hno with }
        retaining := fun hretained => absurd hretained hr
        result := fun _ hretained => absurd hretained hr
        cursor := fun hno => by cases hno },
      rfl, fun _ hretained => absurd hretained hr⟩

end Finish

section Results

/-- The search for a selected node succeeds, and what it finds is among the nodes it visits. -/
theorem next_selected_meets {out : Area Bool} (left i : Nat) (h : i + left ≤ out.size) :
    Meets (nextSelected out left i) (Reports True) fun found =>
      ∀ j, found = some j → j < i + left := by
  induction left generalizing i with
  | zero =>
    intro j hj
    cases hj
  | succ left ih =>
    unfold nextSelected
    rw [Area.read_of_lt (by omega), checked_some]
    show Meets (if out.cell i = true then _ else _) _ _
    split
    · intro j hj
      cases hj
      omega
    · refine (ih (i + 1) (by omega)).mono (fun _ h => h) fun found hfound j hj => ?_
      have := hfound j hj
      omega

/-- Reading the next selected node moves the cursor. -/
theorem result_next_meets (h : e.Sound fed) :
    Meets e.resultNext (Reports True) fun x =>
      e.finished = true ∧ ∃ cursor, x.1 = { e with resultCursor := cursor } := by
  unfold Exec.resultNext
  split
  · exact bare_failure_meets
  rename_i hfinished
  split
  · exact bare_failure_meets
  rename_i hnodes
  have hr : e.retained = true := by
    by_contra hno
    exact hnodes (.inl (by simpa using hno))
  have hretaining := h.retaining hr
  have hroom := hretaining.room
  have hsize := h.result (by simpa using hfinished) hr
  rw [Area.read_of_lt (by rw [hretaining.frames]; omega), checked_some]
  have hfit : e.resultCursor ≤ e.elements ∨ e.elements - e.resultCursor = 0 := by omega
  have hsearch : Meets (nextSelected (e.frames.cell 0).out (e.elements - e.resultCursor)
      e.resultCursor) (Reports True) fun found => ∀ j, found = some j → j < e.elements := by
    rcases hfit with hfit | hnone
    · have hinside : e.resultCursor + (e.elements - e.resultCursor) ≤
          (e.frames.cell 0).out.size := by omega
      refine (next_selected_meets _ _ hinside).mono (fun _ h => h) fun found hfound j hj => ?_
      have := hfound j hj
      omega
    · rw [hnone]
      intro j hj
      cases hj
  refine hsearch.bind (fun _ h => h) fun found hfound => ?_
  cases found with
  | none => exact ⟨by simpa using hfinished, _, rfl⟩
  | some j =>
    have hlt := hfound j rfl
    show Meets (checked (e.nodes.read j) >>= _) _ _
    rw [Area.read_of_lt (by rw [hretaining.nodes]; omega), checked_some]
    exact ⟨by simpa using hfinished, _, rfl⟩

theorem get_result_meets : Meets e.getResult (Reports True) fun _ => True := by
  unfold Exec.getResult
  split
  · exact bare_failure_meets
  split
  · exact bare_failure_meets
  trivial

theorem selected_meets : Meets e.selected (Reports True) fun _ => True := by
  unfold Exec.selected
  split
  · exact bare_failure_meets
  split
  · exact bare_failure_meets
  trivial

end Results

section Runs

variable {α : Type} {run : Run α} {answer : α → Exec × Reply}

/-- A computation that reports its failures leaves the execution as it was, or answers. -/
theorem lenient_meets {good : α → Prop} (h : Meets run (Reports True) good) :
    ∃ e' reply, lenient e run answer = some (e', reply) ∧
      ((∃ d, e' = e ∧ reply = .failed d) ∨
        ∃ value, run = .ok value ∧ good value ∧ (e', reply) = answer value) := by
  cases run with
  | ok value => exact ⟨(answer value).1, (answer value).2, rfl, .inr ⟨value, rfl, h, rfl⟩⟩
  | error stop =>
    obtain ⟨⟨d, rfl⟩, -⟩ := h
    exact ⟨e, .failed d, rfl, .inl ⟨d, rfl, rfl⟩⟩

/-- A feed or finish that reports its failures invalidates the execution, or answers. -/
theorem strict_meets {good : α → Prop} (h : Meets run (Reports True) good) :
    ∃ e' reply, strict e run answer = some (e', reply) ∧
      ((∃ d, e' = { e with invalid := true } ∧ reply = .failed d) ∨
        ∃ value, run = .ok value ∧ good value ∧ (e', reply) = answer value) := by
  cases run with
  | ok value => exact ⟨(answer value).1, (answer value).2, rfl, .inr ⟨value, rfl, h, rfl⟩⟩
  | error stop =>
    obtain ⟨⟨d, rfl⟩, -⟩ := h
    exact ⟨{ e with invalid := true }, .failed d, rfl, .inl ⟨d, rfl, rfl⟩⟩

/-- The events an execution holds after an operation with a reply. -/
def Call.after (fed : List TreeEvent) : Call → Reply → List TreeEvent
  | .feed event, .matched _ => fed ++ [event]
  | .reset, .done => []
  | _, _ => fed

/-- The events an execution holds after a run. -/
def fedBy : List TreeEvent → List Call → List Reply → List TreeEvent
  | fed, call :: calls, reply :: replies => fedBy (call.after fed reply) calls replies
  | fed, _, _ => fed

/-- An invalid execution or another cursor keeps the areas. -/
theorem Exec.Sound.marked (h : e.Sound fed) (invalid : Bool) {resultCursor : Nat}
    (hcursor : e.finished = false → resultCursor = 0) :
    Exec.Sound { e with invalid := invalid, resultCursor := resultCursor } fed :=
  { h with
    sized := { h.sized with }
    fitting := { h.fitting with }
    streaming := fun hr => { h.streaming hr with }
    retaining := fun hr => { h.retaining hr with }
    cursor := hcursor }

/-- An operation whose new execution is sound. -/
theorem lenient_sound {run : Run Exec} {call : Call}
    (h : Meets run (Reports True) fun e' => e'.Sound fed) (hs : e.Sound fed)
    (hfed : ∀ d, call.after fed (.failed d) = fed) (hdone : call.after fed .done = fed) :
    ∃ e' reply, (lenient e run fun e' => (e', .done)) = some (e', reply) ∧
      e'.Sound (call.after fed reply) := by
  obtain ⟨e', reply, hrun, hcases⟩ := @lenient_meets e Exec run (fun e' => (e', .done)) _ h
  refine ⟨e', reply, hrun, ?_⟩
  rcases hcases with ⟨d, rfl, rfl⟩ | ⟨value, -, hvalue, heq⟩
  · rw [hfed]
    exact hs
  · cases heq
    rw [hdone]
    exact hvalue

/-- Asking for the next result moves its cursor, or marks the execution. -/
theorem result_next_sound (h : e.Sound fed) :
    ∃ e' reply, lenient e e.resultNext (fun
        | (e', some (event, i)) => (e', .node event i)
        | (e', none) => (e', .atEnd)) = some (e', reply) ∧
      e'.Sound (Call.resultNext.after fed reply) := by
  obtain ⟨e', reply, hrun, hcases⟩ := @lenient_meets e _ e.resultNext _ _ (result_next_meets h)
  refine ⟨e', reply, hrun, ?_⟩
  rcases hcases with ⟨d, rfl, rfl⟩ | ⟨⟨e₁, found⟩, -, ⟨hfinished, cursor, hcursor⟩, heq⟩
  · exact h
  · obtain rfl : e₁ = { e with resultCursor := cursor } := hcursor
    have hsound := @Exec.Sound.marked e fed h e.invalid cursor fun hno => by
      rw [hfinished] at hno
      cases hno
    cases found with
    | none =>
      cases heq
      exact hsound
    | some x =>
      obtain ⟨event, i⟩ := x
      cases heq
      exact hsound

/-- One operation keeps the invariant and leaves no area. -/
theorem call_sound (h : e.Sound fed) (call : Call) :
    ∃ e' reply, e.call call = some (e', reply) ∧ e'.Sound (call.after fed reply) := by
  cases call with
  | reset =>
    cases hreset : e.reset with
    | ok e' => exact ⟨e', .done, by rw [Exec.call, hreset], reset_sound h hreset⟩
    | error status => exact ⟨e, .refused status, by rw [Exec.call, hreset], h⟩
  | context ordinal =>
    exact @lenient_sound e fed _ (.context ordinal) (set_context_meets h ordinal) h
      (fun _ => rfl) rfl
  | pruning enabled =>
    exact @lenient_sound e fed _ (.pruning enabled) (set_pruning_meets h enabled) h
      (fun _ => rfl) rfl
  | document metadata =>
    exact @lenient_sound e fed _ (.document metadata) (attach_document_meets h metadata) h
      (fun _ => rfl) rfl
  | bind name binding =>
    unfold Exec.call
    dsimp only
    split
    · exact ⟨e, _, rfl, h⟩
    · exact @lenient_sound e fed _ (.bind name binding) (bind_meets h name binding) h
        (fun _ => rfl) rfl
  | feed event =>
    unfold Exec.call
    dsimp only
    split
    · exact ⟨e, _, rfl, h⟩
    split
    · refine @lenient_sound e fed _ (.feed event) unlocated_meets h (fun _ => rfl) rfl
    · obtain ⟨e', reply, hrun, hcases⟩ :=
        @strict_meets e _ (e.feed event) (fun x => (x.1, .matched x.2)) _ (feed_meets h)
      refine ⟨e', reply, hrun, ?_⟩
      rcases hcases with ⟨d, rfl, rfl⟩ | ⟨x, -, hx, heq⟩
      · exact h.marked true h.cursor
      · cases heq
        exact hx
  | finish =>
    unfold Exec.call
    dsimp only
    have hfinish : Meets e.finish (Reports True) fun e' => e'.Sound fed :=
      (finish_meets h).mono (fun _ h => h) fun _ hx => hx.1
    split
    · exact ⟨e, _, rfl, h⟩
    · obtain ⟨e', reply, hrun, hcases⟩ :=
        @strict_meets e _ e.finish (fun e' => (e', .done)) _ hfinish
      refine ⟨e', reply, hrun, ?_⟩
      rcases hcases with ⟨d, rfl, rfl⟩ | ⟨x, -, hx, heq⟩
      · exact h.marked true h.cursor
      · cases heq
        exact hx
  | result =>
    unfold Exec.call
    dsimp only
    split
    · exact ⟨e, _, rfl, h⟩
    · obtain ⟨e', reply, hrun, hcases⟩ :=
        @lenient_meets e _ e.getResult (fun value => (e, .result value)) _ get_result_meets
      refine ⟨e', reply, hrun, ?_⟩
      rcases hcases with ⟨d, rfl, rfl⟩ | ⟨x, -, -, heq⟩
      · exact h
      · cases heq
        exact h
  | resultNext =>
    unfold Exec.call
    dsimp only
    split
    · exact ⟨e, _, rfl, h⟩
    · exact result_next_sound h
  | selected =>
    unfold Exec.call
    dsimp only
    split
    · exact ⟨e, _, rfl, h⟩
    · obtain ⟨e', reply, hrun, hcases⟩ :=
        @lenient_meets e _ e.selected (fun event => (e, .node event 0)) _ selected_meets
      refine ⟨e', reply, hrun, ?_⟩
      rcases hcases with ⟨d, rfl, rfl⟩ | ⟨x, -, -, heq⟩
      · exact h
      · cases heq
        exact h

/-- A run of operations keeps the invariant and leaves no area. -/
theorem run_sound (h : e.Sound fed) (calls : List Call) :
    ∃ e' replies, e.run calls = some (e', replies) ∧ e'.Sound (fedBy fed calls replies) := by
  induction calls generalizing e fed with
  | nil => exact ⟨e, [], rfl, h⟩
  | cons call rest ih =>
    obtain ⟨e₁, reply, hcall, hsound⟩ := call_sound h call
    obtain ⟨e', replies, hrun, hlast⟩ := ih hsound
    refine ⟨e', reply :: replies, ?_, hlast⟩
    simp only [Exec.run, hcall, hrun, Option.bind_eq_bind, Option.bind_some]
    rfl

/-- The program, the engine and the place of an execution do not change. -/
structure Exec.SamePlan (e e' : Exec) : Prop where
  program : e'.program = e.program
  retained : e'.retained = e.retained
  place : e'.place = e.place

theorem Exec.SamePlan.refl (e : Exec) : e.SamePlan e :=
  ⟨rfl, rfl, rfl⟩

theorem lenient_same {run : Run α} {reply : Reply} (hrun : ∀ value, run = .ok value →
    e.SamePlan (answer value).1) (h : lenient e run answer = some (e', reply)) :
    e.SamePlan e' := by
  unfold lenient at h
  split at h
  · rename_i value
    have hsame := hrun value rfl
    rw [Option.some.inj h] at hsame
    exact hsame
  · cases h
    exact .refl e
  · cases h

theorem strict_same {run : Run α} {reply : Reply} (hrun : ∀ value, run = .ok value →
    e.SamePlan (answer value).1) (h : strict e run answer = some (e', reply)) :
    e.SamePlan e' := by
  unfold strict at h
  split at h
  · rename_i value
    have hsame := hrun value rfl
    rw [Option.some.inj h] at hsame
    exact hsame
  · cases h
    exact ⟨rfl, rfl, rfl⟩
  · cases h

section Init

variable {layout : Layout} {p : Program} {environment : Environment}
  {storage capacity depth nodes maxElements work : Nat}

/-- An initialized execution runs the plan it was made for, in the octets of its sizing. -/
theorem exec_init_same (h : execInit layout p storage capacity depth maxElements work = .ok e) :
    e.program = p ∧ e.retained = false ∧ e.layout = layout ∧ e.storage = storage ∧
      e.workspace ≤ capacity ∧ execSize layout p depth = .ok e.workspace := by
  simp only [execInit, guard_ok, bind_ok] at h
  obtain ⟨bytes, hbytes, -, hcapacity, he⟩ := h
  cases he
  exact ⟨rfl, rfl, rfl, rfl, Nat.not_lt.mp hcapacity, hbytes⟩

theorem eval_init_same
    (h : evalInit layout p environment storage capacity depth nodes work = .ok e) :
    e.program = p ∧ e.retained = true ∧ e.layout = layout ∧ e.storage = storage ∧
      e.workspace ≤ capacity ∧ evalSize layout p depth nodes = .ok e.workspace := by
  simp only [evalInit, guard_ok, bind_ok] at h
  obtain ⟨bytes, hbytes, -, hcapacity, ⟨⟩, -, he⟩ := h
  cases he
  exact ⟨rfl, rfl, rfl, rfl, Nat.not_lt.mp hcapacity, hbytes⟩

end Init

/-- The calls before the first event keep the plan. -/
theorem setup_same :
    (∀ name binding e', e.bind name binding = .ok e' → e.SamePlan e') ∧
      (∀ ordinal e', e.setContext ordinal = .ok e' → e.SamePlan e') ∧
      (∀ enabled e', e.setPruning enabled = .ok e' → e.SamePlan e') ∧
      ∀ metadata e', e.attachDocument metadata = .ok e' → e.SamePlan e' := by
  refine ⟨fun name binding e' h => ?_, fun ordinal e' h => ?_, fun enabled e' h => ?_,
    fun metadata e' h => ?_⟩
  · refine meets_of_ok ?_ h
    unfold Exec.bind
    split
    · trivial
    split
    · trivial
    refine (meets_any _).bind (fun _ h => h) fun _ _ => ?_
    split
    · trivial
    refine (meets_any _).bind (fun _ h => h) fun _ _ => ?_
    refine (meets_any _).bind (fun _ h => h) fun bindings _ => ?_
    exact ⟨rfl, rfl, rfl⟩
  · refine meets_of_ok ?_ h
    unfold Exec.setContext
    repeat' split
    · trivial
    · trivial
    · trivial
    · exact ⟨rfl, rfl, rfl⟩
  · refine meets_of_ok ?_ h
    unfold Exec.setPruning
    repeat' split
    · trivial
    · trivial
    · exact ⟨rfl, rfl, rfl⟩
  · refine meets_of_ok ?_ h
    unfold Exec.attachDocument
    repeat' split
    · trivial
    · trivial
    · exact ⟨rfl, rfl, rfl⟩

/-- A reset sizes the execution as it was sized before. -/
theorem reset_same (hs : e.Sound fed) (h : e.reset = .ok e') : e.SamePlan e' := by
  have hreported := hs.fitting.reported
  unfold Exec.reset at h
  unfold Exec.reported at hreported
  split at h
  · rename_i hr
    obtain ⟨hprogram, hretained, hlayout, hstorage, -, hbytes⟩ := eval_init_same h
    rw [if_pos hr, hbytes] at hreported
    refine ⟨hprogram, hretained.trans hr.symm, ?_⟩
    rw [Exec.place, hlayout, hstorage, Except.ok.inj hreported, Exec.place]
  · rename_i hr
    obtain ⟨hprogram, hretained, hlayout, hstorage, -, hbytes⟩ := exec_init_same h
    rw [if_neg hr, hbytes] at hreported
    refine ⟨hprogram, by rw [hretained]; simpa using hr, ?_⟩
    rw [Exec.place, hlayout, hstorage, Except.ok.inj hreported, Exec.place]

/-- No operation changes the program or the place of the execution. -/
theorem call_same {call : Call} {reply : Reply} (hs : e.Sound fed)
    (h : e.call call = some (e', reply)) : e.SamePlan e' := by
  obtain ⟨hbind, hcontext, hpruning, hdocument⟩ := @setup_same e
  cases call with
  | reset =>
    unfold Exec.call at h
    dsimp only at h
    split at h
    · rename_i next hreset
      cases h
      exact reset_same hs hreset
    · cases h
      exact .refl e
  | context ordinal => exact lenient_same (fun e₁ h => hcontext _ _ h) h
  | pruning enabled => exact lenient_same (fun e₁ h => hpruning _ _ h) h
  | document metadata => exact lenient_same (fun e₁ h => hdocument _ _ h) h
  | bind name binding =>
    unfold Exec.call at h
    dsimp only at h
    split at h
    · cases h
      exact .refl e
    · exact lenient_same (fun e₁ h => hbind _ _ _ h) h
  | feed event =>
    unfold Exec.call at h
    dsimp only at h
    split at h
    · cases h
      exact .refl e
    split at h
    · exact lenient_same (fun e₁ h => (by cases h)) h
    · refine strict_same (fun x hx => ?_) h
      have hsteady := (meets_of_ok feed_steady hx).1
      exact ⟨hsteady.program, hsteady.retained, hsteady.place⟩
  | finish =>
    have hfinish : ∀ e₁, e.finish = .ok e₁ → e.SamePlan e₁ := fun e₁ h₁ => by
      have hsteady := (meets_of_ok finish_steady h₁).1
      exact ⟨hsteady.program, hsteady.retained, hsteady.place⟩
    unfold Exec.call at h
    dsimp only at h
    split at h
    · cases h
      exact .refl e
    · exact strict_same hfinish h
  | result =>
    unfold Exec.call at h
    dsimp only at h
    split at h
    · cases h
      exact .refl e
    · exact lenient_same (fun _ _ => .refl e) h
  | resultNext =>
    unfold Exec.call at h
    dsimp only at h
    split at h
    · cases h
      exact .refl e
    · refine lenient_same (fun x hx => ?_) h
      have hsteady := (meets_of_ok result_next_steady hx).1.steady
      obtain ⟨e₁, found⟩ := x
      cases found with
      | none => exact ⟨hsteady.program, hsteady.retained, hsteady.place⟩
      | some pair => exact ⟨hsteady.program, hsteady.retained, hsteady.place⟩
  | selected =>
    unfold Exec.call at h
    dsimp only at h
    split at h
    · cases h
      exact .refl e
    · exact lenient_same (fun _ _ => .refl e) h

/-- A run of calls keeps the plan. -/
theorem run_same {calls : List Call} {replies : List Reply} (hs : e.Sound fed)
    (h : e.run calls = some (e', replies)) : e.SamePlan e' := by
  induction calls generalizing e fed replies with
  | nil =>
    cases h
    exact .refl _
  | cons call rest ih =>
    obtain ⟨⟨e₁, reply⟩, hcall, hrest⟩ := Option.bind_eq_some_iff.mp h
    obtain ⟨⟨e₂, more⟩, hrun, heq⟩ := Option.bind_eq_some_iff.mp hrest
    cases heq
    have hfirst := call_same hs hcall
    obtain ⟨e₁', reply', hcall', hsound⟩ := call_sound hs call
    cases hcall.symm.trans hcall'
    have hsecond := ih hsound hrun
    exact ⟨hsecond.program.trans hfirst.program, hsecond.retained.trans hfirst.retained,
      hsecond.place.trans hfirst.place⟩

end Runs

/-- An execution of a plan after its initialization, in either engine. -/
inductive Exec.Initial (layout : Layout) (p : Program) (e : Exec) : Prop where
  | streaming (storage capacity depth maxElements work : Nat)
      (h : execInit layout p storage capacity depth maxElements work = .ok e)
  | retained (environment : Environment) (storage capacity depth nodes work : Nat)
      (h : evalInit layout p environment storage capacity depth nodes work = .ok e)

theorem Exec.Initial.sound {layout : Layout} {p : Program} (hp : p.Accepted)
    (h : e.Initial layout p) : e.Sound [] := by
  cases h with
  | streaming storage capacity depth maxElements work h => exact exec_init_sound hp h
  | retained environment storage capacity depth nodes work h => exact eval_init_sound hp h

/-- An initialized execution has the plan and the layout it was made for. -/
theorem Exec.Initial.same {layout : Layout} {p : Program} (h : e.Initial layout p) :
    e.program = p ∧ e.layout = layout := by
  cases h with
  | streaming storage capacity depth maxElements work h =>
    exact ⟨(exec_init_same h).1, (exec_init_same h).2.2.1⟩
  | retained environment storage capacity depth nodes work h =>
    exact ⟨(eval_init_same h).1, (eval_init_same h).2.2.1⟩

/-- An opened plan executes within bounds. Whatever is bound, fed and read, in either engine, no
operation leaves an area, and no two cells of the areas share one of the octets that the sizing
reports. A retained execution has room for as many frames as the plan has instructions and one
more, and no call has more than three arguments. -/
theorem plan_executes_within_bounds {image : Bytes} {p : Program} {layout : Layout}
    (hopen : planOpen image = .ok p) (hinitial : e.Initial layout p) (calls : List Call) :
    (∃ e' replies, e.run calls = some (e', replies) ∧ e'.program = p ∧
      e'.retained = e.retained ∧ e'.place = (layout, e.storage, e.workspace) ∧ e'.Sized ∧
      e'.Fitting ∧
      (e'.retained = true → e'.frames.size = p.count + 1 ∧ e'.nodes.size = e'.nodeCapacity + 1 ∧
        e'.openNodes.size = e'.depthCapacity ∧ e'.session.scratchRows = p.count) ∧
      (e'.retained = false → e'.states.size = e'.depthCapacity * p.count)) ∧
    ∀ i < p.count, (p.get i).op = .call → ∃ arguments,
      callArguments p.get (p.get i) = some arguments ∧ arguments.length ≤ 3 ∧
        ∀ a ∈ arguments, a < i := by
  have hp := plan_open_accepted hopen
  have hbefore := hinitial.sound hp
  obtain ⟨hprogram, hlayout⟩ := hinitial.same
  refine ⟨?_, fun i hi hop => ?_⟩
  · obtain ⟨e', replies, hrun, hsound⟩ := run_sound hbefore calls
    have hsame := run_same hbefore hrun
    have hplan : e'.program = p := hsame.program.trans hprogram
    have hplace : e'.place = (layout, e.storage, e.workspace) := by
      rw [hsame.place, Exec.place, hlayout]
    refine ⟨e', replies, hrun, hplan, hsame.retained, hplace, hsound.sized, hsound.fitting,
      fun hr => ?_, fun hr => ?_⟩
    · have hretaining := hsound.retaining hr
      rw [← hplan]
      exact ⟨hretaining.frames, hretaining.nodes, hretaining.openNodes,
        hretaining.equipped.scratch⟩
    · rw [(hsound.streaming hr).states, hplan]
  · obtain ⟨arguments, harguments, -, hlength, hmem, -⟩ := hp.call_arguments hi hop
    exact ⟨arguments, harguments, hlength, fun a ha => (hmem a ha).1⟩

/-- The image of `*`: one wildcard test for the retained engine. -/
def wildcardImage : Bytes :=
  let none := planNone
  ([planMagic, planVersion, 1, 0, 0, 168, 2, 169, 0, 0, 0, 0, 0] ++
    [0, none, none, 0, 0, 0, 0, 0, 0, 0, none, none, 0, 0, 0, 0, 0, 0, 0, 0, 0, none, 0, 0, 0, 0,
      0, 0, 0]).flatMap (Octets.digits 4) ++ [0]

/-- The plan of the image. -/
def wildcardPlan : Program :=
  { instructions := [{ op := .test }]
    root := 0
    text := []
    level := .s2
    variableCount := 0
    payload := []
    patternCapacity := 0
    codecStride := 0
    tagId := 0 }

/-- Two nested nodes with everything that an execution is asked for. -/
def nestedCalls : List Call :=
  let node (kind : EventKind) (depth : Nat) : Call :=
    .feed { kind := kind, element := ⟨[0x70], [], by decide, by decide⟩, depth := depth }
  [node .begin 0, node .element 1, node .finish 0, .finish, .result, .resultNext, .resultNext,
    .reset]

theorem plan_executes_within_bounds_nested :
    ∃ e, evalInit ⟨400, 32, 8, 120, 300⟩ wildcardPlan {} 4096 8192 2 4 1000 = .ok e ∧
      e.workspace = 1738 ∧
      (∃ e' replies, e.run nestedCalls = some (e', replies) ∧ e'.program = wildcardPlan ∧
        e'.retained = e.retained ∧
        e'.place = (⟨400, 32, 8, 120, 300⟩, e.storage, e.workspace) ∧ e'.Sized ∧ e'.Fitting ∧
        (e'.retained = true → e'.frames.size = 2 ∧ e'.nodes.size = e'.nodeCapacity + 1 ∧
          e'.openNodes.size = e'.depthCapacity ∧ e'.session.scratchRows = 1) ∧
        (e'.retained = false → e'.states.size = e'.depthCapacity * 1)) ∧
      ∀ i < 1, (wildcardPlan.get i).op = .call → ∃ arguments,
        callArguments wildcardPlan.get (wildcardPlan.get i) = some arguments ∧
          arguments.length ≤ 3 ∧ ∀ a ∈ arguments, a < i := by
  have hopen : planOpen wildcardImage = .ok wildcardPlan := by decide +kernel
  have hinit : ∃ e, evalInit ⟨400, 32, 8, 120, 300⟩ wildcardPlan {} 4096 8192 2 4 1000 = .ok e ∧
      e.workspace = 1738 := by
    have hbytes : evalSize ⟨400, 32, 8, 120, 300⟩ wildcardPlan 2 4 = .ok 1738 := by
      decide +kernel
    unfold evalInit
    rw [hbytes]
    exact ⟨_, rfl, rfl⟩
  obtain ⟨e, he, hbytes⟩ := hinit
  exact ⟨e, he, hbytes,
    plan_executes_within_bounds hopen (.retained {} 4096 8192 2 4 1000 he) nestedCalls⟩

end OpenTlv.Query
