import OpenTlv.Lib.Paths
import OpenTlv.Reader.Items

/-!
# What a visitor sees

A visitor is called with the elements of the parse in preorder until it stops the visit, and behind
the last element the visit fails where the parse does. This holds of every input, whether or not it
can be read to its end.
-/

namespace OpenTlv

section Items

variable {γ : Type}

/-- A visitor is called with some items, behind which the visit ends or fails. -/
def visitItems (visitor : TreeItem → γ → VisitResult × γ) (failure : Option Status) :
    List TreeItem → γ → Except Status γ
  | [], context => failure.elim (.ok context) .error
  | item :: rest, context =>
    match visitor item context with
    | (.resume, context) => visitItems visitor failure rest context
    | (.stop, context) => .ok context
    | (.error, _) => .error .visitor
    | (.unknown, _) => .error .callback

/-- The elements that a parse finds. What follows a failure is not found. -/
def Parse.forest (depth : Nat) : Parse → Forest TreeItem
  | .done => .nil
  | .failed _ => .nil
  | .element offset decoded next => .leaf ⟨decoded, depth, offset, false⟩ (next.forest depth)
  | .group offset decoded inner next =>
    .branch ⟨decoded, depth, offset, true⟩ (inner.forest (depth + 1))
      ⟨decoded, depth, offset, true⟩ (if inner.failure = none then next.forest depth else .nil)

/-- The items that the events of a parse publish are its elements in preorder. -/
theorem preorder_items (parse : Parse) (depth : Nat) :
    ((parse.preorder depth).filter TreeEvent.publishes).map TreeEvent.item =
      ((parse.forest depth).walk depth).map (·.1) := by
  induction parse generalizing depth with
  | done => rfl
  | failed status => rfl
  | element offset decoded next ih =>
    rw [Parse.preorder, List.filter_cons_of_pos (by rfl), List.map_cons, ih]
    rfl
  | group offset decoded inner next ihInner ihNext =>
    rw [Parse.preorder, List.filter_cons_of_pos (by rfl), List.filter_append, List.map_cons,
      List.map_append, ihInner]
    by_cases hfailure : inner.failure = none
    · rw [if_pos hfailure, List.filter_cons_of_neg (by simp [TreeEvent.publishes]), ihNext,
        Parse.forest, if_pos hfailure]
      simp [Forest.walk, TreeEvent.item]
    · rw [if_neg hfailure, Parse.forest, if_neg hfailure]
      simp [Forest.walk, TreeEvent.item]

/-- The depth of an element is that of the walk. -/
theorem forest_depth (parse : Parse) (depth : Nat) :
    ∀ entry ∈ (parse.forest depth).walk depth, entry.1.depth = entry.2 := by
  induction parse generalizing depth with
  | done => simp [Parse.forest, Forest.walk]
  | failed status => simp [Parse.forest, Forest.walk]
  | element offset decoded next ih =>
    rw [Parse.forest, Forest.walk, List.forall_mem_cons]
    exact ⟨rfl, ih depth⟩
  | group offset decoded inner next ihInner ihNext =>
    rw [Parse.forest, Forest.walk, List.forall_mem_cons, List.forall_mem_append]
    refine ⟨rfl, ihInner (depth + 1), ?_⟩
    split
    · exact ihNext depth
    · simp [Forest.walk]

end Items

section Visit

variable {γ : Type} {format : Format} {limits : TreeLimits} {whole : Bytes}
  {reader last : TreeReader} {events : List TreeEvent} {status : Status}
  {visitor : TreeItem → γ → VisitResult × γ}

/-- The visit of a reader sees the events that the reader publishes. The induction is on the run of
the reader. -/
theorem walk_items_visits (h : Emits (pullMove format) reader events last)
    (hlast : treeReaderNextEvent format last = .error status) (hformat : format.decode.isSome)
    (hsize : reader.window.1 ≤ sizeMax) (hbase : reader.window.2 = 0) {items : Nat}
    (hitems : (events.filter TreeEvent.publishes).length < items) (context : γ) :
    visitResult (walkItems format Sum.inl (visitBody (some visitor)) items (drainEnds reader)
        context) =
      visitItems visitor (if last.atEnd then none else some status)
        ((events.filter TreeEvent.publishes).map TreeEvent.item) context := by
  induction h generalizing items context with
  | refl stop =>
    have hclose : closeEvent stop = none := by
      cases hclose : closeEvent stop with
      | none => rfl
      | some closed =>
        unfold treeReaderNextEvent at hlast
        rw [hclose] at hlast
        cases hlast
    obtain ⟨items, rfl⟩ : ∃ left, items = left + 1 := ⟨items - 1, by omega⟩
    rw [drain_ends_none hclose]
    unfold walkItems
    cases hend : stop.atEnd with
    | true =>
      rw [if_pos rfl]
      rfl
    | false =>
      rw [if_neg Bool.false_ne_true, tree_reader_next_closed hclose, hlast]
      rfl
  | quiet hmove _ _ =>
    unfold pullMove at hmove
    split at hmove <;> cases hmove
  | @emit cursor next last event events hmove _ ih =>
    have hpull : treeReaderNextEvent format cursor = .ok (event, next) := by
      unfold pullMove at hmove
      split at hmove
      · rename_i hpull
        cases hmove
        exact hpull
      · cases hmove
    have hwindow := next_event_window hpull
    have hsize' := hsize
    have hbase' := hbase
    rw [← hwindow] at hsize' hbase'
    cases hclose : closeEvent cursor with
    | some closed =>
      have hsame : closed = (event, next) := by
        unfold treeReaderNextEvent at hpull
        rw [hclose] at hpull
        exact Except.ok.inj hpull
      rw [hsame] at hclose
      have hending : event.publishes = false := by
        simp [TreeEvent.publishes, (close_event_ends hclose).1]
      rw [List.filter_cons_of_neg (by simp [hending])] at hitems ⊢
      rw [drain_ends_some hclose]
      exact ih hlast hsize' hbase' hitems context
    | none =>
      have hnode : event.publishes = true := by
        simp [TreeEvent.publishes, next_event_node hclose hpull]
      rw [List.filter_cons_of_pos hnode, List.length_cons] at hitems
      rw [List.filter_cons_of_pos hnode, List.map_cons]
      obtain ⟨items, rfl⟩ : ∃ left, items = left + 1 := ⟨items - 1, by omega⟩
      have hahead : cursor.atEnd = false := by
        cases hahead : cursor.atEnd with
        | false => rfl
        | true =>
          rw [at_end_pulls hformat hsize hbase hahead] at hpull
          cases hpull
      rw [drain_ends_none hclose, walk_items_pull hclose hahead hpull]
      have hrest := fun after => ih hlast hsize' hbase' (by omega : _ < items) after
      unfold visitItems visitBody
      dsimp only
      cases hvisit : visitor event.item context with
      | mk answer after =>
        cases answer with
        | resume => exact hrest after
        | stop => rfl
        | error => rfl
        | unknown => rfl

/-- A reader publishes the parse of an input in preorder. It is at its end behind it unless the parse
has failed. -/
theorem standing_emits (limits : TreeLimits) (hformat : format.decode.isSome)
    (hwhole : whole.length ≤ sizeMax) :
    let parse := parseSequence format limits limits.maxElements 0 0 whole
    ∃ last, Emits (pullMove format) (.standing limits whole [] 0 0 {}) (parse.preorder 0) last ∧
      treeReaderNextEvent format last = .error (parse.failure.getD .atEnd) ∧
      last.atEnd = parse.failure.isNone := by
  have hparses := parse_sequence_parses format limits limits.maxElements 0 0 whole
  obtain ⟨last, hemits, hlast⟩ := @standing_reads_scope format limits whole [] 0 {} hformat hwhole
    limits.maxElements 0 0 whole _ hparses rfl rfl (Nat.le_refl _) (Nat.zero_le _)
    (by simp [scopeRest, scopeEnd])
  refine ⟨last, hemits, ?_⟩
  cases hfailure : (parseSequence format limits limits.maxElements 0 0 whole).failure with
  | none =>
    rw [hfailure] at hlast
    obtain ⟨pending, rfl⟩ := hlast
    exact ⟨standing_ends hformat hwhole, by simp [TreeReader.atEnd, TreeReader.standing, scopeEnd]⟩
  | some status =>
    rw [hfailure] at hlast
    refine ⟨hlast, ?_⟩
    cases hend : last.atEnd with
    | false => rfl
    | true =>
      have hwindow := hemits.window
      have hsize : last.input.size = whole.length := congrArg Prod.fst hwindow
      have hbase : last.input.baseOffset = 0 := congrArg Prod.snd hwindow
      rw [at_end_pulls hformat (by omega) hbase hend] at hlast
      cases hlast
      exact absurd hfailure hparses.failure_ne_at_end

/-- A visit of an input calls the visitor with the elements of its parse in preorder. -/
theorem tree_reader_visit_items (hformat : format.decode.isSome) (hwhole : whole.length ≤ sizeMax)
    (context : γ) :
    treeReaderVisit format (some visitor) (.standing limits whole [] 0 0 {}) context =
      visitItems visitor (parseSequence format limits limits.maxElements 0 0 whole).failure
        ((((parseSequence format limits limits.maxElements 0 0 whole).forest 0).walk 0).map (·.1))
        context := by
  have hfew := (parse_sequence_parses format limits limits.maxElements 0 0 whole).elements_le
  have hpublished := preorder_publishes
    (parseSequence format limits limits.maxElements 0 0 whole) 0
  obtain ⟨last, hemits, hlast, hend⟩ := standing_emits limits hformat hwhole
  have hvisits := @walk_items_visits γ format _ last _ _ visitor hemits hlast hformat hwhole rfl
    (limits.maxElements + 1) (by omega) context
  rw [drain_ends_none (show closeEvent (.standing limits whole [] 0 0 {}) = none from rfl), hend,
    preorder_items] at hvisits
  refine Eq.trans hvisits ?_
  cases (parseSequence format limits limits.maxElements 0 0 whole).failure with
  | none => rfl
  | some status => rfl

/-- A visit without a visitor reads the input to its end, or to its failure. -/
theorem tree_reader_visit_parse (hformat : format.decode.isSome) (hwhole : whole.length ≤ sizeMax) :
    treeReaderVisit (γ := Unit) format none (.standing limits whole [] 0 0 {}) () =
      match (parseSequence format limits limits.maxElements 0 0 whole).failure with
      | none => .ok ()
      | some status => .error status := by
  have hresumes : ∀ failure items, visitItems (fun _ s => (.resume, s)) failure items () =
      failure.elim (.ok ()) .error := by
    intro failure items
    induction items with
    | nil => rfl
    | cons item rest ih => exact ih
  refine (@tree_reader_visit_items Unit format limits whole (fun _ s => (.resume, s)) hformat hwhole
    ()).trans ?_
  rw [hresumes]
  cases (parseSequence format limits limits.maxElements 0 0 whole).failure with
  | none => rfl
  | some status => rfl

end Visit

end OpenTlv
