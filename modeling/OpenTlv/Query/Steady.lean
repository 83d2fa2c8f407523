import OpenTlv.Query.Exec

/-!
# What the operations of an execution leave alone

Feeding, finishing and reading results change the workspace of an execution and its progress. The
program, the bindings and the way the execution was set up stay as they are.
-/

namespace OpenTlv.Query

/-- The layout of an execution and the octets it lies in. -/
def Exec.place (e : Exec) : Layout × Nat × Nat :=
  (e.layout, e.storage, e.workspace)

/-- Two states of one execution that was set up once. -/
structure Exec.Steady (e e' : Exec) : Prop where
  program : e'.program = e.program
  retained : e'.retained = e.retained
  place : e'.place = e.place
  environment : e'.environment = e.environment
  document : e'.document = e.document
  bindings : e'.bindings = e.bindings
  invalid : e'.invalid = e.invalid

theorem Exec.Steady.refl (e : Exec) : e.Steady e :=
  ⟨rfl, rfl, rfl, rfl, rfl, rfl, rfl⟩

theorem Exec.Steady.trans {e e' e'' : Exec} (h : e.Steady e') (h' : e'.Steady e'') :
    e.Steady e'' :=
  ⟨h'.program.trans h.program, h'.retained.trans h.retained, h'.place.trans h.place,
    h'.environment.trans h.environment, h'.document.trans h.document,
    h'.bindings.trans h.bindings, h'.invalid.trans h.invalid⟩

/-- Two states of one execution between which nothing was published or finished. -/
structure Exec.Between (e e' : Exec) : Prop where
  steady : e.Steady e'
  elements : e'.elements = e.elements
  finished : e'.finished = e.finished

theorem Exec.Between.refl (e : Exec) : e.Between e :=
  ⟨.refl e, rfl, rfl⟩

theorem Exec.Between.trans {e e' e'' : Exec} (h : e.Between e') (h' : e'.Between e'') :
    e.Between e'' :=
  ⟨h.steady.trans h'.steady, h'.elements.trans h.elements, h'.finished.trans h.finished⟩

/-- Any failure. -/
def AnyStop : Stop → Prop := fun _ => True

/-- A result that a bind uses, without regard to failures. -/
theorem meets_any {α : Type} (run : Run α) : Meets run AnyStop fun _ => True := by
  cases run with
  | error stop => trivial
  | ok value => trivial

theorem meets_of_ok {α : Type} {run : Run α} {good : α → Prop} {value : α}
    (h : Meets run AnyStop good) (hrun : run = .ok value) : good value := by
  rw [hrun] at h
  exact h

variable {e : Exec} {event : TreeEvent}

theorem with_cells_between (c : Cells) : e.Between (e.withCells c) :=
  ⟨⟨rfl, rfl, rfl, rfl, rfl, rfl, rfl⟩, rfl, rfl⟩

theorem retained_feed_between : Meets (e.retainedFeed event) AnyStop fun e' => e.Between e' := by
  unfold Exec.retainedFeed
  split
  · trivial
  split
  · trivial
  refine (meets_any _).bind (fun _ h => h) fun root _ => ?_
  refine (meets_any _).bind (fun _ h => h) fun meter _ => ?_
  dsimp only
  split
  · split
    · trivial
    · refine (meets_any _).bind (fun _ h => h) fun index _ => ?_
      refine (meets_any _).bind (fun _ h => h) fun node _ => ?_
      refine (meets_any _).bind (fun _ h => h) fun nodes _ => ?_
      exact ⟨⟨rfl, rfl, rfl, rfl, rfl, rfl, rfl⟩, rfl, rfl⟩
  · split
    · trivial
    · split
      · trivial
      · refine (meets_any _).bind (fun _ h => h) fun sibling _ => ?_
        split
        all_goals
          refine (meets_any _).bind (fun _ h => h) fun parent _ => ?_
          refine (meets_any _).bind (fun _ h => h) fun nodes _ => ?_
          split
          · refine (meets_any _).bind (fun _ h => h) fun openNodes _ => ?_
            exact ⟨⟨rfl, rfl, rfl, rfl, rfl, rfl, rfl⟩, rfl, rfl⟩
          · exact ⟨⟨rfl, rfl, rfl, rfl, rfl, rfl, rfl⟩, rfl, rfl⟩

theorem decide_scope_between : Meets e.decideScope AnyStop fun x => e.Between x.1 := by
  unfold Exec.decideScope
  refine (meets_any _).bind (fun _ h => h) fun decided _ => ?_
  exact ⟨⟨rfl, rfl, rfl, rfl, rfl, rfl, rfl⟩, rfl, rfl⟩

theorem s1_feed_between : Meets (e.s1Feed event) AnyStop fun x => e.Between x.1 := by
  unfold Exec.s1Feed
  split
  · trivial
  split
  · split
    · exact decide_scope_between
    · exact .refl e
  · split
    · refine (meets_any _).bind (fun _ h => h) fun scope _ => ?_
      dsimp only
      have hstarted : e.Between
          { e.withCells scope.1 with delayedSelected := scope.2, delayed := event } :=
        ⟨⟨rfl, rfl, rfl, rfl, rfl, rfl, rfl⟩, rfl, rfl⟩
      split
      · exact decide_scope_between.mono (fun _ h => h) fun x hx => hstarted.trans hx
      · exact hstarted
    · split
      · refine (meets_any _).bind (fun _ h => h) fun c _ => ?_
        exact with_cells_between c
      · exact .refl e

theorem scope_end_between : Meets (e.scopeEnd event) AnyStop fun x => e.Between x.1 := by
  unfold Exec.scopeEnd
  split
  · exact s1_feed_between
  · exact .refl e

theorem feed_end_between : Meets (e.feedEnd event) AnyStop fun x => e.Between x.1 := by
  unfold Exec.feedEnd
  refine scope_end_between.bind (fun _ h => h) fun x hx => ?_
  exact ⟨{ hx.steady with }, hx.elements, hx.finished⟩

theorem engine_feed_between : Meets (e.engineFeed event) AnyStop fun x => e.Between x.1 := by
  unfold Exec.engineFeed
  split
  · exact .refl e
  split
  · exact s1_feed_between
  · refine (meets_any _).bind (fun _ h => h) fun evaluated _ => ?_
    exact with_cells_between evaluated.1

theorem track_context_between : e.Between (e.trackContext event) := by
  unfold Exec.trackContext
  split
  · exact ⟨⟨rfl, rfl, rfl, rfl, rfl, rfl, rfl⟩, rfl, rfl⟩
  · exact .refl e

theorem discard_values_between : Meets e.discardValues AnyStop fun e' => e.Between e' := by
  unfold Exec.discardValues
  split
  · refine (meets_any _).bind (fun _ h => h) fun values _ => ?_
    exact ⟨⟨rfl, rfl, rfl, rfl, rfl, rfl, rfl⟩, rfl, rfl⟩
  · exact .refl e

theorem enter_depth_between : Meets e.enterDepth AnyStop fun e' => e.Between e' := by
  unfold Exec.enterDepth
  split
  · refine (meets_any _).bind (fun _ h => h) fun indexes _ => ?_
    split
    · exact ⟨⟨rfl, rfl, rfl, rfl, rfl, rfl, rfl⟩, rfl, rfl⟩
    · dsimp only
      split
      · exact ⟨⟨rfl, rfl, rfl, rfl, rfl, rfl, rfl⟩, rfl, rfl⟩
      · trivial
  · exact .refl e

theorem enter_between : Meets (e.enter event) AnyStop fun e' => e.Between e' := by
  unfold Exec.enter
  split
  · refine (meets_any _).bind (fun _ h => h) fun allowed _ => ?_
    refine enter_depth_between.mono (fun _ h => h) fun e' he' => ?_
    exact ⟨{ he'.steady with }, he'.elements, he'.finished⟩
  · exact .refl e

/-- A published node is counted. -/
theorem feed_node_steady : Meets (e.feedNode event) AnyStop fun x =>
    e.Steady x.1 ∧ x.1.elements = e.elements + 1 ∧ x.1.finished = e.finished := by
  unfold Exec.feedNode
  split
  · trivial
  split
  · trivial
  dsimp only
  have htracked := @track_context_between
    { e with pruneAllowed := false, elements := e.elements + 1 } event
  refine engine_feed_between.bind (fun _ h => h) fun x hx => ?_
  obtain ⟨e₁, matched⟩ := x
  refine discard_values_between.bind (fun _ h => h) fun e₂ hdiscarded => ?_
  refine (meets_any _).bind (fun _ h => h) fun index _ => ?_
  refine (meets_any _).bind (fun _ h => h) fun indexes _ => ?_
  refine enter_between.bind (fun _ h => h) fun e₃ hentered => ?_
  have hbefore := (htracked.trans hx).trans hdiscarded
  have hindexed : e₂.Between { e₂ with indexes := indexes } :=
    ⟨⟨rfl, rfl, rfl, rfl, rfl, rfl, rfl⟩, rfl, rfl⟩
  have hafter := (hbefore.trans hindexed).trans hentered
  exact ⟨{ hafter.steady with }, hafter.elements, hafter.finished⟩

/-- What a feed does to the setup and to the number of elements. -/
theorem feed_steady : Meets (e.feed event) AnyStop fun x =>
    e.Steady x.1 ∧ e.elements ≤ x.1.elements ∧ x.1.elements ≤ e.elements + 1 ∧
      x.1.finished = e.finished := by
  unfold Exec.feed
  refine (meets_any _).bind (fun _ h => h) fun _ _ => ?_
  split
  · trivial
  split
  · trivial
  have hbackend : Meets (e.feedBackend event) AnyStop fun e' => e.Between e' := by
    unfold Exec.feedBackend
    split
    · exact retained_feed_between
    · exact .refl e
  refine hbackend.bind (fun _ h => h) fun e₁ hbetween => ?_
  have hevent : Meets (e₁.feedEvent event) AnyStop fun x =>
      e₁.Steady x.1 ∧ e₁.elements ≤ x.1.elements ∧ x.1.elements ≤ e₁.elements + 1 ∧
        x.1.finished = e₁.finished := by
    unfold Exec.feedEvent
    split
    · refine feed_end_between.mono (fun _ h => h) fun x hx => ?_
      exact ⟨hx.steady, by rw [hx.elements], by rw [hx.elements]; omega, hx.finished⟩
    · refine feed_node_steady.mono (fun _ h => h) fun x hx => ?_
      exact ⟨hx.1, by omega, by omega, hx.2.2⟩
  refine hevent.bind (fun _ h => h) fun x hx => ?_
  obtain ⟨hsteady, hmore, hless, hfinished⟩ := hx
  have hwhole := hbetween.steady.trans hsteady
  rw [hbetween.elements] at hmore hless
  exact ⟨{ hwhole with }, hmore, hless, hfinished.trans hbetween.finished⟩

/-- A finish marks the execution and leaves its setup alone. -/
theorem finish_steady : Meets e.finish AnyStop fun e' =>
    e.Steady e' ∧ e'.elements = e.elements ∧ e'.finished = true := by
  unfold Exec.finish
  split
  · trivial
  refine (meets_any _).bind (fun _ h => h) fun _ _ => ?_
  split
  · trivial
  split
  · trivial
  split
  · rename_i hfinished
    exact ⟨.refl e, rfl, hfinished⟩
  have hbackend : Meets e.finishBackend AnyStop fun e' => e.Between e' := by
    unfold Exec.finishBackend
    split
    · unfold Exec.retainedFinish
      refine (meets_any _).bind (fun _ h => h) fun vm _ => ?_
      refine (meets_any _).bind (fun _ h => h) fun vm' _ => ?_
      refine (meets_any _).bind (fun _ h => h) fun root _ => ?_
      exact ⟨⟨rfl, rfl, rfl, rfl, rfl, rfl, rfl⟩, rfl, rfl⟩
    · exact .refl e
  refine hbackend.bind (fun _ h => h) fun e₁ hbetween => ?_
  exact ⟨{ hbetween.steady with }, hbetween.elements, rfl⟩

theorem next_selected_range (out : Area Bool) (left i : Nat) :
    Meets (nextSelected out left i) AnyStop fun found =>
      ∀ j, found = some j → i ≤ j ∧ j < i + left := by
  induction left generalizing i with
  | zero =>
    intro j hj
    cases hj
  | succ left ih =>
    unfold nextSelected
    refine (meets_any _).bind (fun _ h => h) fun flag _ => ?_
    split
    · intro j hj
      cases hj
      omega
    · refine (ih (i + 1)).mono (fun _ h => h) fun found hfound j hj => ?_
      have := hfound j hj
      omega

/-- Reading results moves the cursor: behind a selected node, or behind all of them. -/
theorem result_next_steady : Meets e.resultNext AnyStop fun x =>
    e.Between x.1 ∧
      (x.2 = none → x.1 = { e with resultCursor := max e.resultCursor e.elements }) ∧
      (x.2.isSome = true → e.resultCursor < x.1.resultCursor ∧ x.1.resultCursor ≤ e.elements) := by
  unfold Exec.resultNext
  split
  · trivial
  split
  · trivial
  refine (meets_any _).bind (fun _ h => h) fun root _ => ?_
  refine (next_selected_range root.out (e.elements - e.resultCursor) e.resultCursor).bind
    (fun _ h => h) fun found hfound => ?_
  cases found with
  | none => exact ⟨⟨⟨rfl, rfl, rfl, rfl, rfl, rfl, rfl⟩, rfl, rfl⟩, fun _ => rfl,
    (fun h => by cases h)⟩
  | some i =>
    refine (meets_any _).bind (fun _ h => h) fun node _ => ?_
    have hrange := hfound i rfl
    refine ⟨⟨⟨rfl, rfl, rfl, rfl, rfl, rfl, rfl⟩, rfl, rfl⟩, (fun h => by cases h), fun _ => ?_⟩
    dsimp only
    omega

end OpenTlv.Query
