import OpenTlv.Reader.Preorder

/-!
# The node projection of the tree reader

`tlv_tree_reader_next` publishes elements only: the ends of groups are passed at once, so that a
client which stops between two elements never stands in front of an end. `walkItems` is the loop
that the visitor and the schema validators share: they pull until the reader is at its end, and
their bodies may skip the value of what was pulled. On an input that is read to its end this loop
is `Parse.walk`, the recursion over the parse.
-/

namespace OpenTlv

/-- `tlv_tree_item_t`. -/
structure TreeItem where
  decoded : Decoded
  depth : Nat
  offset : Nat
  constructed : Bool
  deriving Repr, DecidableEq

/-- Whether the value of an item holds elements. -/
def TreeItem.nested (item : TreeItem) : Bool :=
  item.constructed && item.decoded.value.bytes.length ≠ 0

/-- The item that an event publishes. -/
def TreeEvent.item (event : TreeEvent) : TreeItem :=
  { decoded := event.decoded
    depth := event.depth
    offset := event.offset
    constructed := event.kind = .begin }

/-- The loop of `drain_ends`, of at most some ends. -/
def drainSome : Nat → TreeReader → TreeReader
  | 0, reader => reader
  | ends + 1, reader =>
    match closeEvent reader with
    | none => reader
    | some (_, next) => drainSome ends next

/-- `drain_ends`. Each frame has one end, and one more may be pending. -/
def drainEnds (reader : TreeReader) : TreeReader :=
  drainSome (reader.frames.length + 1) reader

/-- The loop of `tlv_tree_reader_next_diag`, of at most some events. -/
def nextNode (format : Format) : Nat → TreeReader → Except Status (TreeEvent × TreeReader)
  | 0, _ => .error .invalidState
  | events + 1, reader =>
    match treeReaderNextEvent format reader with
    | .error status => .error status
    | .ok (event, next) =>
      if event.kind = .ending then nextNode format events next else .ok (event, next)

/-- `tlv_tree_reader_next`. -/
def treeReaderNext (format : Format) (reader : TreeReader) :
    Except Status (TreeItem × TreeReader) :=
  match nextNode format (reader.frames.length + 2) reader with
  | .error status => .error status
  | .ok (event, next) => .ok (event.item, drainEnds next)

/-- `tlv_tree_reader_skip_subtree` after a pull of an item. -/
def treeReaderSkipItem (reader : TreeReader) : Except Status TreeReader :=
  (treeReaderSkipSubtree reader).map drainEnds

/-- `tlv_tree_reader_at_end`. -/
def TreeReader.atEnd (reader : TreeReader) : Bool :=
  !reader.descendPending && !reader.endPending && reader.frames.length = 0 &&
    reader.input.finalInput && reader.input.pos = reader.input.size

/-- The loop `while (!tlv_tree_reader_at_end(reader))` around a pull and a body. No loop pulls more
items than the reader may count. -/
def walkItems {σ ε : Type} (format : Format) (ofStatus : Status → ε)
    (body : TreeItem → TreeReader → σ → Except ε (TreeReader × σ)) :
    Nat → TreeReader → σ → Except ε σ
  | 0, _, _ => .error (ofStatus .limit)
  | items + 1, reader, s =>
    if reader.atEnd then .ok s
    else
      match treeReaderNext format reader with
      | .error status => .error (ofStatus status)
      | .ok (item, next) =>
        match body item next s with
        | .error failure => .error failure
        | .ok (next, s) => walkItems format ofStatus body items next s

/-- The body of `tlv_tree_reader_visit`. A visitor that stops ends the visit without a failure. -/
def visitBody {γ : Type} : Option (TreeItem → γ → VisitResult × γ) →
    TreeItem → TreeReader → γ → Except (Status ⊕ γ) (TreeReader × γ)
  | none => fun _ next context => .ok (next, context)
  | some visitor => fun item next context =>
    match visitor item context with
    | (.resume, context) => .ok (next, context)
    | (.stop, context) => .error (.inr context)
    | (.error, _) => .error (.inl .visitor)
    | (.unknown, _) => .error (.inl .callback)

/-- What a visit returns. -/
def visitResult {γ : Type} : Except (Status ⊕ γ) γ → Except Status γ
  | .ok context => .ok context
  | .error (.inl status) => .error status
  | .error (.inr context) => .ok context

/-- `tlv_tree_reader_visit` with a visitor, or without one. -/
def treeReaderVisit {γ : Type} (format : Format)
    (visitor : Option (TreeItem → γ → VisitResult × γ)) (reader : TreeReader) (context : γ) :
    Except Status γ :=
  visitResult
    (walkItems format Sum.inl (visitBody visitor) (reader.maxElements + 1) reader context)

/-- A visit of a parse: each element is visited, and the values that the visit enters. -/
def Parse.walk {σ ε : Type} (visit : TreeItem → σ → Except ε (Bool × σ)) (depth : Nat) :
    Parse → σ → Except ε σ
  | .done, s => .ok s
  | .failed _, s => .ok s
  | .element offset decoded next, s =>
    match visit ⟨decoded, depth, offset, false⟩ s with
    | .error failure => .error failure
    | .ok (_, s) => next.walk visit depth s
  | .group offset decoded inner next, s =>
    match visit ⟨decoded, depth, offset, true⟩ s with
    | .error failure => .error failure
    | .ok (false, s) => next.walk visit depth s
    | .ok (true, s) =>
      match inner.walk visit (depth + 1) s with
      | .error failure => .error failure
      | .ok s => next.walk visit depth s

/-- A body that does what a visit says: it skips the values that the visit does not enter. -/
structure Follows {σ ε : Type} (body : TreeItem → TreeReader → σ → Except ε (TreeReader × σ))
    (visit : TreeItem → σ → Except ε (Bool × σ)) : Prop where
  fails : ∀ {item reader s failure}, visit item s = .error failure →
    body item reader s = .error failure
  goes : ∀ {item reader s enters after}, visit item s = .ok (enters, after) →
    enters = true ∨ item.nested = false → body item reader s = .ok (reader, after)
  skips : ∀ {item reader skipped s after}, visit item s = .ok (false, after) →
    item.nested = true → treeReaderSkipItem reader = .ok skipped →
    body item reader s = .ok (skipped, after)

section Ends

variable {format : Format} {limits : TreeLimits} {whole : Bytes} {frames : List TreeFrame}
  {pos count : Nat} {pending : TreeFrame} {reader next : TreeReader} {event : TreeEvent}

/-- Where nothing is to be closed the ends are drained. -/
theorem drain_ends_none (h : closeEvent reader = none) : drainEnds reader = reader := by
  unfold drainEnds drainSome
  rw [h]

/-- The ends that are published at most before the next element. -/
def TreeReader.ends (reader : TreeReader) : Nat :=
  reader.frames.length + if reader.endPending then 1 else 0

theorem ends_le (reader : TreeReader) : reader.ends ≤ reader.frames.length + 1 := by
  unfold TreeReader.ends
  split <;> omega

/-- A closed group is one of the ends. -/
theorem close_event_ends (h : closeEvent reader = some (event, next)) :
    event.kind = .ending ∧ next.ends + 1 = reader.ends := by
  unfold TreeReader.ends
  rcases close_event_cases h with ⟨hend, rfl, rfl⟩ | ⟨hend, -, frame, outer, hframes, rfl, rfl⟩
  · rw [hend]
    exact ⟨rfl, rfl⟩
  · exact ⟨rfl, by simp [TreeReader.leave, hframes, hend]⟩

theorem drain_some_none {ends : Nat} (h : closeEvent reader = none) :
    drainSome ends reader = reader := by
  cases ends with
  | zero => rfl
  | succ ends =>
    unfold drainSome
    rw [h]

theorem drain_some_some {ends : Nat} (h : closeEvent reader = some (event, next)) :
    drainSome (ends + 1) reader = drainSome ends next := by
  show (match closeEvent reader with
    | none => reader
    | some (_, next) => drainSome ends next) = _
  rw [h]

/-- The bound on the ends is enough. -/
theorem drain_some_enough {ends : Nat} (h : reader.ends ≤ ends) :
    closeEvent (drainSome ends reader) = none ∧
      ∀ other, reader.ends ≤ other → drainSome other reader = drainSome ends reader := by
  induction ends generalizing reader with
  | zero =>
    have hnone : closeEvent reader = none := by
      cases hclose : closeEvent reader with
      | none => rfl
      | some closed =>
        have := (close_event_ends hclose).2
        omega
    exact ⟨hnone, fun other _ => drain_some_none hnone⟩
  | succ ends ih =>
    cases hclose : closeEvent reader with
    | none =>
      rw [drain_some_none hclose]
      exact ⟨hclose, fun other _ => drain_some_none hclose⟩
    | some closed =>
      have hends := (close_event_ends hclose).2
      obtain ⟨hnone, hother⟩ := ih (by omega : closed.2.ends ≤ ends)
      rw [drain_some_some hclose]
      refine ⟨hnone, fun other hbound => ?_⟩
      cases other with
      | zero => omega
      | succ other =>
        rw [drain_some_some hclose]
        exact hother other (by omega)

/-- An end is passed. -/
theorem drain_ends_some (h : closeEvent reader = some (event, next)) :
    drainEnds reader = drainEnds next := by
  have hends := (close_event_ends h).2
  have hbound := ends_le reader
  refine (drain_some_some h).trans ?_
  exact (drain_some_enough (ends_le next)).2 _ (by omega)

/-- Behind the ends a pull publishes an element. -/
theorem next_event_node (hclose : closeEvent reader = none)
    (h : treeReaderNextEvent format reader = .ok (event, next)) : event.kind ≠ .ending := by
  rcases next_event_cases h with hclosed | ⟨-, frames, input, decoded, after, -, -, -, hpublish⟩
  · rw [hclose] at hclosed
    cases hclosed
  · cases hpublish
    show (if format.constructs decoded.tag.bytes then TreeEventKind.begin else .element) ≠ _
    split <;> exact fun h => by cases h

/-- Behind the ends one event is an item. -/
theorem tree_reader_next_closed (hclose : closeEvent reader = none) :
    treeReaderNext format reader =
      match treeReaderNextEvent format reader with
      | .error status => .error status
      | .ok (event, next) => .ok (event.item, drainEnds next) := by
  unfold treeReaderNext nextNode
  cases hnext : treeReaderNextEvent format reader with
  | error status => rfl
  | ok pulled =>
    dsimp only
    rw [if_neg (next_event_node hclose hnext)]

theorem at_end_pulls (hformat : format.decode.isSome) (hsize : reader.input.size ≤ sizeMax)
    (hbase : reader.input.baseOffset = 0) (h : reader.atEnd = true) :
    treeReaderNextEvent format reader = .error .atEnd := by
  unfold TreeReader.atEnd at h
  simp only [Bool.and_eq_true, Bool.not_eq_true', decide_eq_true_eq] at h
  obtain ⟨⟨⟨⟨hdescend, hpending⟩, hframes⟩, hfinal⟩, hpos⟩ := h
  have hnil := List.eq_nil_of_length_eq_zero hframes
  have hclose : closeEvent reader = none := close_event_root hpending hdescend hnil
  have henclosing : reader.enclosing = .ok ([], reader.input) := by
    unfold TreeReader.enclosing
    simp [hdescend, hnil]
  have hvalid : readerValid format reader.input = .ok () := by
    unfold readerValid
    rw [if_neg (by simp [Option.isSome_iff_ne_none.mp hformat]), if_neg (by omega),
      if_neg (by omega)]
  unfold treeReaderNextEvent
  rw [hclose]
  dsimp only
  rw [henclosing]
  dsimp only
  rw [if_neg (by omega)]
  unfold readerNext
  rw [hvalid]
  dsimp only
  rw [if_pos hpos, hfinal]
  rfl

end Ends

section Standing

variable {format : Format} {limits : TreeLimits} {whole : Bytes} {frames : List TreeFrame}
  {pos count : Nat} {pending : TreeFrame}

/-- Ahead of the end of its scope the cursor has nothing to close. -/
theorem standing_open (hpos : pos < scopeEnd whole frames) :
    closeEvent (.standing limits whole frames pos count pending) = none := by
  cases frames with
  | nil => rfl
  | cons frame outer =>
    refine (close_event_frame rfl rfl rfl).trans (if_neg ?_)
    show ¬ 0 + pos = frame.ending
    have hless : pos < frame.ending := hpos
    omega

theorem standing_not_at_end (hpos : pos < scopeEnd whole frames) :
    (TreeReader.standing limits whole frames pos count pending).atEnd = false := by
  cases frames with
  | nil =>
    have hless : pos < whole.length := hpos
    have hne : pos ≠ whole.length := by omega
    show (true && true && decide (0 = 0) && true && decide (pos = whole.length)) = false
    simp [hne]
  | cons frame outer => rfl

/-- The end of the innermost value is passed. -/
theorem standing_drains {frame : TreeFrame} :
    drainEnds (.standing limits whole (frame :: frames) frame.ending count pending) =
      drainEnds (.standing limits whole frames frame.resume count pending) := by
  have hclose := @close_event_frame
    (.standing limits whole (frame :: frames) frame.ending count pending) rfl rfl frame frames rfl
  exact drain_ends_some (hclose.trans (if_pos (Nat.zero_add frame.ending)))

/-- The value of a begin is skipped. -/
theorem descending_skips :
    treeReaderSkipItem (.descending limits whole frames pos count pending) =
      .ok (drainEnds (.standing limits whole frames pending.resume count pending)) := by
  show Except.ok (drainEnds _) = _
  rw [drain_ends_some (close_event_pending rfl)]
  rfl

end Standing

section Walk

variable {σ ε : Type} {format : Format} {ofStatus : Status → ε}
  {body : TreeItem → TreeReader → σ → Except ε (TreeReader × σ)}
  {visit : TreeItem → σ → Except ε (Bool × σ)} {limits : TreeLimits} {whole : Bytes}
  {frames : List TreeFrame} {count : Nat} {pending : TreeFrame} {reader next : TreeReader}
  {event : TreeEvent} {s : σ} {items : Nat}

/-- One turn of the loop. -/
theorem walk_items_pull (hclose : closeEvent reader = none) (hend : reader.atEnd = false)
    (hpull : treeReaderNextEvent format reader = .ok (event, next)) :
    walkItems format ofStatus body (items + 1) reader s =
      match body event.item (drainEnds next) s with
      | .error failure => .error failure
      | .ok (next, s) => walkItems format ofStatus body items next s := by
  show (if reader.atEnd then Except.ok s
    else match treeReaderNext format reader with
      | .error status => .error (ofStatus status)
      | .ok (item, next) =>
        match body item next s with
        | .error failure => .error failure
        | .ok (next, s) => walkItems format ofStatus body items next s) = _
  rw [if_neg (by simp [hend]), tree_reader_next_closed hclose, hpull]

/-- A value that is to be entered is walked as if it were entered. -/
theorem walk_items_descend (hbar : limits.barrier frames.length = none) {pos : Nat}
    (hpos : pos < pending.ending) :
    walkItems format ofStatus body items (.descending limits whole frames pos count pending) s =
      walkItems format ofStatus body items
        (.standing limits whole (pending :: frames) pos count pending) s := by
  cases items with
  | zero => rfl
  | succ items =>
    have hopen : closeEvent (.standing limits whole (pending :: frames) pos count pending) =
        none := standing_open hpos
    unfold walkItems
    rw [tree_reader_next_closed (close_event_descend rfl rfl), tree_reader_next_closed hopen,
      descending_enters hbar hpos]
    rfl

section Turns

variable (hformat : format.decode.isSome) (hwhole : whole.length ≤ sizeMax) {offset : Nat}
  {decoded : Decoded} (hcount : count < limits.maxElements)
  (hend : scopeEnd whole frames ≤ whole.length)
  (hpos : offset < scopeEnd whole frames)
  (hdecode : formatDecode format (scopeRest whole frames offset) = .ok decoded)
include hformat hwhole hcount hend hpos hdecode

/-- A turn of the loop at a primitive element. -/
theorem walk_items_element (hfollows : Follows body visit)
    (hconstructs : format.constructs decoded.tag.bytes = false) :
    walkItems format ofStatus body (items + 1)
        (drainEnds (.standing limits whole frames offset count pending)) s =
      match visit ⟨decoded, frames.length, offset, false⟩ s with
      | .error failure => .error failure
      | .ok (_, after) =>
        walkItems format ofStatus body items
          (drainEnds (.standing limits whole frames (offset + decoded.source.size) (count + 1)
            pending)) after := by
  have hpull := @standing_publishes format limits whole frames count pending hformat hwhole
    offset decoded hcount hend hpos hdecode
  rw [hconstructs] at hpull
  have hpull : treeReaderNextEvent format (.standing limits whole frames offset count pending) =
      .ok ({ kind := .element, decoded := decoded, depth := frames.length, offset := offset },
        .standing limits whole frames (offset + decoded.source.size) (count + 1) pending) := hpull
  rw [drain_ends_none (standing_open hpos),
    walk_items_pull (standing_open hpos) (standing_not_at_end hpos) hpull]
  show (match body ⟨decoded, frames.length, offset, false⟩ (drainEnds _) s with
    | .error failure => Except.error failure
    | .ok (next, s) => walkItems format ofStatus body items next s) = _
  cases hvisit : visit ⟨decoded, frames.length, offset, false⟩ s with
  | error failure => rw [hfollows.fails hvisit]
  | ok visited => rw [hfollows.goes hvisit (.inr rfl)]

/-- A turn of the loop at a group. -/
theorem walk_items_begin (hconstructs : format.constructs decoded.tag.bytes = true) :
    walkItems format ofStatus body (items + 1)
        (drainEnds (.standing limits whole frames offset count pending)) s =
      match body ⟨decoded, frames.length, offset, true⟩
        (drainEnds { TreeReader.standing limits whole frames (offset + decoded.source.value.offset)
            (count + 1) ⟨decoded.valueEnd offset, offset + decoded.source.size⟩ with
          descendPending := decoded.value.bytes.length ≠ 0
          endPending := decoded.value.bytes.length = 0 }) s with
      | .error failure => .error failure
      | .ok (next, s) => walkItems format ofStatus body items next s := by
  have hpull := @standing_begins format limits whole frames count pending hformat hwhole
    offset decoded hcount hend hpos hdecode hconstructs
  rw [drain_ends_none (standing_open hpos),
    walk_items_pull (standing_open hpos) (standing_not_at_end hpos) hpull]
  rfl

/-- A turn of the loop at an empty group. -/
theorem walk_items_empty (hfollows : Follows body visit)
    (hconstructs : format.constructs decoded.tag.bytes = true)
    (hcontent : decoded.content (scopeRest whole frames offset) = []) :
    walkItems format ofStatus body (items + 1)
        (drainEnds (.standing limits whole frames offset count pending)) s =
      match visit ⟨decoded, frames.length, offset, true⟩ s with
      | .error failure => .error failure
      | .ok (_, after) =>
        walkItems format ofStatus body items
          (drainEnds (.standing limits whole frames (offset + decoded.source.size) (count + 1)
            ⟨decoded.valueEnd offset, offset + decoded.source.size⟩)) after := by
  obtain ⟨hsize, hvalue, hlength⟩ := decode_in_scope hdecode hend hpos.le
  have hzero : decoded.value.bytes.length = 0 := by
    rw [hlength, ← content_length (hvalue.trans hsize) hend, hcontent, List.length_nil]
  have hdrain : drainEnds { TreeReader.standing limits whole frames
        (offset + decoded.source.value.offset) (count + 1)
        ⟨decoded.valueEnd offset, offset + decoded.source.size⟩ with
      descendPending := decoded.value.bytes.length ≠ 0
      endPending := decoded.value.bytes.length = 0 } =
      drainEnds (.standing limits whole frames (offset + decoded.source.size) (count + 1)
        ⟨decoded.valueEnd offset, offset + decoded.source.size⟩) := by
    rw [hzero, drain_ends_some (close_event_pending rfl)]
    rfl
  have hnested : TreeItem.nested ⟨decoded, frames.length, offset, true⟩ = false := by
    show (true && decide (decoded.value.bytes.length ≠ 0)) = false
    rw [hzero]
    rfl
  rw [walk_items_begin hformat hwhole hcount hend hpos hdecode hconstructs, hdrain]
  cases hvisit : visit ⟨decoded, frames.length, offset, true⟩ s with
  | error failure => rw [hfollows.fails hvisit]
  | ok visited => rw [hfollows.goes hvisit (.inr hnested)]

/-- A turn of the loop at a group that holds elements. -/
theorem walk_items_group (hfollows : Follows body visit)
    (hconstructs : format.constructs decoded.tag.bytes = true)
    (hcontent : decoded.content (scopeRest whole frames offset) ≠ [])
    (hbar : limits.barrier frames.length = none) :
    walkItems format ofStatus body (items + 1)
        (drainEnds (.standing limits whole frames offset count pending)) s =
      match visit ⟨decoded, frames.length, offset, true⟩ s with
      | .error failure => .error failure
      | .ok (false, after) =>
        walkItems format ofStatus body items
          (drainEnds (.standing limits whole frames (offset + decoded.source.size) (count + 1)
            ⟨decoded.valueEnd offset, offset + decoded.source.size⟩)) after
      | .ok (true, after) =>
        walkItems format ofStatus body items
          (drainEnds (.standing limits whole
            (⟨decoded.valueEnd offset, offset + decoded.source.size⟩ :: frames)
            (offset + decoded.source.value.offset) (count + 1)
            ⟨decoded.valueEnd offset, offset + decoded.source.size⟩)) after := by
  obtain ⟨hsize, hvalue, hlength⟩ := decode_in_scope hdecode hend hpos.le
  obtain ⟨-, hinside, -⟩ := value_in_scope hdecode hend hpos.le hcontent
  have hlong : decoded.value.bytes.length ≠ 0 := by
    rw [hlength, ← content_length (hvalue.trans hsize) hend]
    exact fun h => hcontent (List.eq_nil_of_length_eq_zero h)
  have hdescend : { TreeReader.standing limits whole frames
        (offset + decoded.source.value.offset) (count + 1)
        ⟨decoded.valueEnd offset, offset + decoded.source.size⟩ with
      descendPending := decide (decoded.value.bytes.length ≠ 0)
      endPending := decide (decoded.value.bytes.length = 0) } =
      TreeReader.descending limits whole frames (offset + decoded.source.value.offset) (count + 1)
        ⟨decoded.valueEnd offset, offset + decoded.source.size⟩ := by
    rw [decide_eq_true hlong, decide_eq_false hlong]
    rfl
  have hnested : TreeItem.nested ⟨decoded, frames.length, offset, true⟩ = true :=
    decide_eq_true hlong
  rw [walk_items_begin hformat hwhole hcount hend hpos hdecode hconstructs, hdescend,
    drain_ends_none (close_event_descend rfl rfl)]
  cases hvisit : visit ⟨decoded, frames.length, offset, true⟩ s with
  | error failure => rw [hfollows.fails hvisit]
  | ok visited =>
    obtain ⟨enters, after⟩ := visited
    cases enters with
    | false => rw [hfollows.skips hvisit hnested descending_skips]
    | true =>
      rw [hfollows.goes hvisit (.inl rfl)]
      dsimp only
      rw [walk_items_descend hbar hinside, drain_ends_none (standing_open hinside)]

end Turns

/-- Where the loop stands behind a scope that a walk went through. -/
def WalksTo (format : Format) (ofStatus : Status → ε)
    (body : TreeItem → TreeReader → σ → Except ε (TreeReader × σ)) (limits : TreeLimits)
    (whole : Bytes) (frames : List TreeFrame) (count elements items : Nat)
    (result : Except ε σ) : Except ε σ → Prop
  | .error failure => result = .error failure
  | .ok after => ∃ left passed pending, items ≤ left + elements ∧ passed ≤ count + elements ∧
      result = walkItems format ofStatus body left
        (drainEnds (.standing limits whole frames (scopeEnd whole frames) passed pending)) after

theorem WalksTo.mono {passed elements more left : Nat} {result walked : Except ε σ}
    (h : WalksTo format ofStatus body limits whole frames passed elements left result walked)
    (hitems : items + elements ≤ left + more) (hcount : passed + elements ≤ count + more) :
    WalksTo format ofStatus body limits whole frames count more items result walked := by
  cases walked with
  | error failure => exact h
  | ok after =>
    obtain ⟨left, passed, pending, hleft, hpassed, hresult⟩ := h
    exact ⟨left, passed, pending, by omega, by omega, hresult⟩

/-- The loop over a scope is the walk of its parse. -/
theorem standing_walks (hfollows : Follows body visit) (hformat : format.decode.isSome)
    (hwhole : whole.length ≤ sizeMax) {budget depth offset : Nat} {octets : Bytes} {parse : Parse}
    (h : Parses format limits budget depth offset octets parse) (hfailure : parse.failure = none)
    (hbudget : budget + count ≤ limits.maxElements) (hdepth : depth = frames.length)
    (hend : scopeEnd whole frames ≤ whole.length) (hpos : offset ≤ scopeEnd whole frames)
    (hoctets : octets = scopeRest whole frames offset) (hitems : parse.elements ≤ items) :
    WalksTo format ofStatus body limits whole frames count parse.elements items
      (walkItems format ofStatus body items
        (drainEnds (.standing limits whole frames offset count pending)) s)
      (parse.walk visit depth s) := by
  -- along the parse; the reader stands in front of what is parsed next
  induction h generalizing frames count pending items s with
  | done budget depth offset =>
    have hlength := @scope_rest_length whole frames offset hend
    rw [← hoctets, List.length_nil] at hlength
    have hoffset : offset = scopeEnd whole frames := by omega
    rw [hoffset]
    exact ⟨items, count, pending, by omega, by omega, rfl⟩
  | limit depth offset octets hnil => cases hfailure
  | failed budget depth offset octets status detail hnil hdecode => cases hfailure
  | barrier budget depth offset octets decoded status hnil hdecode hconstructs hcontent hbar =>
    cases hfailure
  | inside budget depth offset octets decoded inner status hnil hdecode hconstructs hcontent hbar
      _ hinner ih =>
      have hboth : inner.failure.or (some status) = none := hfailure
      rw [hinner] at hboth
      cases hboth
  | element budget depth offset octets decoded next hnil hdecode hconstructs _ ih =>
    have hahead := scope_ahead hend hoctets hnil
    rw [hoctets] at hdecode
    obtain ⟨hsize, -, -⟩ := decode_in_scope hdecode hend hpos
    have hcount : next.elements + 1 ≤ items := hitems
    obtain ⟨items, rfl⟩ : ∃ left, items = left + 1 := ⟨items - 1, by omega⟩
    rw [walk_items_element hformat hwhole (by omega) hend hahead hdecode hfollows hconstructs]
    show WalksTo _ _ _ _ _ _ _ (next.elements + 1) _ _
      (match visit ⟨decoded, depth, offset, false⟩ s with
        | .error failure => .error failure
        | .ok (_, s) => next.walk visit depth s)
    rw [hdepth]
    cases visit ⟨decoded, frames.length, offset, false⟩ s with
    | error failure => rfl
    | ok visited =>
      rw [← hdepth]
      refine (ih hfailure (by omega) hdepth hend hsize ?_ (by omega)).mono (by omega) (by omega)
      rw [hoctets, scope_rest_drop]
  | empty budget depth offset octets decoded next hnil hdecode hconstructs hcontent _ ih =>
    have hahead := scope_ahead hend hoctets hnil
    rw [hoctets] at hdecode hcontent
    obtain ⟨hsize, -, -⟩ := decode_in_scope hdecode hend hpos
    have hcount : 0 + next.elements + 1 ≤ items := hitems
    obtain ⟨items, rfl⟩ : ∃ left, items = left + 1 := ⟨items - 1, by omega⟩
    rw [walk_items_empty hformat hwhole (by omega) hend hahead hdecode hfollows hconstructs
      hcontent]
    show WalksTo _ _ _ _ _ _ _ (0 + next.elements + 1) _ _
      (match visit ⟨decoded, depth, offset, true⟩ s with
        | .error failure => .error failure
        | .ok (false, s) => next.walk visit depth s
        | .ok (true, s) => next.walk visit depth s)
    rw [hdepth]
    cases visit ⟨decoded, frames.length, offset, true⟩ s with
    | error failure => rfl
    | ok visited =>
      obtain ⟨enters, after⟩ := visited
      have hnext := @ih frames (count + 1)
        ⟨decoded.valueEnd offset, offset + decoded.source.size⟩ after items hfailure (by omega)
        hdepth hend hsize (by rw [hoctets, scope_rest_drop]) (by omega)
      rw [hdepth] at hnext
      cases enters with
      | false => exact hnext.mono (by omega) (by omega)
      | true => exact hnext.mono (by omega) (by omega)
  | group budget depth offset octets decoded inner next hnil hdecode hconstructs hcontent hbar
      hparses hinner _ ihinner ihnext =>
      have hahead := scope_ahead hend hoctets hnil
      rw [hoctets] at hdecode hcontent
      obtain ⟨hsize, -, -⟩ := decode_in_scope hdecode hend hpos
      obtain ⟨hreach, hinside, hcontents⟩ := value_in_scope hdecode hend hpos hcontent
      have hfew := hparses.elements_le
      have hcount : inner.elements + next.elements + 1 ≤ items := hitems
      obtain ⟨items, rfl⟩ : ∃ left, items = left + 1 := ⟨items - 1, by omega⟩
      have hrest : next.failure = none := by
        have hboth : inner.failure.or next.failure = none := hfailure
        rw [hinner] at hboth
        exact hboth
      rw [walk_items_group hformat hwhole (by omega) hend hahead hdecode hfollows hconstructs
        hcontent (hdepth ▸ hbar)]
      show WalksTo _ _ _ _ _ _ _ (inner.elements + next.elements + 1) _ _
        (match visit ⟨decoded, depth, offset, true⟩ s with
          | .error failure => .error failure
          | .ok (false, s) => next.walk visit depth s
          | .ok (true, s) =>
            match inner.walk visit (depth + 1) s with
            | .error failure => .error failure
            | .ok s => next.walk visit depth s)
      rw [hdepth]
      cases visit ⟨decoded, frames.length, offset, true⟩ s with
      | error failure => rfl
      | ok visited =>
        obtain ⟨enters, after⟩ := visited
        cases enters with
        | false =>
          have hnext := @ihnext frames (count + 1)
            ⟨decoded.valueEnd offset, offset + decoded.source.size⟩ after items hrest (by omega)
            hdepth hend hsize (by rw [hoctets, scope_rest_drop]) (by omega)
          rw [hdepth] at hnext
          exact hnext.mono (by omega) (by omega)
        | true =>
          -- the contents are walked in a frame of their own, which then drains
          have hwalk := @ihinner
            (⟨decoded.valueEnd offset, offset + decoded.source.size⟩ :: frames) (count + 1)
            ⟨decoded.valueEnd offset, offset + decoded.source.size⟩ after items hinner
            (by omega) (congrArg (· + 1) hdepth) hreach hinside.le (hoctets ▸ hcontents)
            (by omega)
          rw [hdepth] at hwalk
          dsimp only
          cases hvalue : inner.walk visit (frames.length + 1) after with
          | error failure =>
            rw [hvalue] at hwalk
            exact hwalk
          | ok behind =>
            rw [hvalue] at hwalk
            obtain ⟨left, passed, pending, hleft, hpassed, hresult⟩ := hwalk
            have hnext := @ihnext frames passed pending behind left hrest (by omega)
              hdepth hend hsize (by rw [hoctets, scope_rest_drop]) (by omega)
            rw [hdepth] at hnext
            have hdrains := @standing_drains limits whole frames passed pending
              ⟨decoded.valueEnd offset, offset + decoded.source.size⟩
            rw [hresult]
            exact (hdrains ▸ hnext).mono (by omega) (by omega)

/-- The items that the loop may pull on an input that is read to its end. -/
theorem walk_items_parse (hfollows : Follows body visit) (hformat : format.decode.isSome)
    (hwhole : whole.length ≤ sizeMax)
    (hfailure : (parseSequence format limits limits.maxElements 0 0 whole).failure = none) :
    walkItems format ofStatus body (limits.maxElements + 1) (.standing limits whole [] 0 0 {}) s =
      (parseSequence format limits limits.maxElements 0 0 whole).walk visit 0 s := by
  have hparses := parse_sequence_parses format limits limits.maxElements 0 0 whole
  have hfew := hparses.elements_le
  have hwalks := @standing_walks σ ε format ofStatus body visit limits whole [] 0 {} s
    (limits.maxElements + 1) hfollows hformat hwhole _ _ _ _ _ hparses hfailure (Nat.le_refl _) rfl
    (Nat.le_refl _) (Nat.zero_le _) (by simp [scopeRest, scopeEnd]) (by omega)
  have hdrain : drainEnds (.standing limits whole [] 0 0 {}) =
      TreeReader.standing limits whole [] 0 0 {} :=
    drain_ends_none rfl
  rw [hdrain] at hwalks
  cases hwalk : (parseSequence format limits limits.maxElements 0 0 whole).walk visit 0 s with
  | error failure =>
    rw [hwalk] at hwalks
    exact hwalks
  | ok after =>
    rw [hwalk] at hwalks
    obtain ⟨left, passed, pending, hleft, -, hresult⟩ := hwalks
    obtain ⟨left, rfl⟩ : ∃ more, left = more + 1 := ⟨left - 1, by omega⟩
    rw [hresult, drain_ends_none rfl]
    show (if _ then Except.ok after else _) = _
    rw [if_pos (by simp [TreeReader.atEnd, TreeReader.standing, scopeEnd])]

end Walk

section Visit

variable {format : Format} {limits : TreeLimits} {whole : Bytes} {reader next last : TreeReader}
  {event : TreeEvent} {events : List TreeEvent} {status : Status}

/-- The window of a reader, which no pull moves. -/
def TreeReader.window (reader : TreeReader) : Nat × Nat :=
  (reader.input.size, reader.input.baseOffset)

theorem close_event_window (h : closeEvent reader = some (event, next)) :
    next.window = reader.window := by
  rcases close_event_cases h with ⟨-, -, rfl⟩ | ⟨-, -, frame, outer, -, -, rfl⟩ <;> rfl

theorem next_event_window (h : treeReaderNextEvent format reader = .ok (event, next)) :
    next.window = reader.window := by
  rcases next_event_cases h with hclose | ⟨-, frames, input, decoded, after, -, -, -, hpublish⟩
  · exact close_event_window hclose
  · generalize format.constructs decoded.tag.bytes = constructed at hpublish
    cases constructed <;> cases hpublish <;> rfl

theorem Emits.window (h : Emits (pullMove format) reader events last) :
    last.window = reader.window := by
  induction h with
  | refl => rfl
  | quiet hmove _ _ =>
    unfold pullMove at hmove
    split at hmove <;> cases hmove
  | emit hmove _ ih =>
    unfold pullMove at hmove
    split at hmove
    · rename_i hpull
      cases hmove
      exact ih.trans (next_event_window hpull)
    · cases hmove

/-- No decoding fails with the status of an exhausted reader. -/
theorem Parses.failure_ne_at_end {budget depth offset : Nat} {octets : Bytes} {parse : Parse}
    (h : Parses format limits budget depth offset octets parse) :
    parse.failure ≠ some .atEnd := by
  induction h with
  | done budget depth offset => exact fun h => by cases h
  | limit depth offset octets hnil => exact fun h => by cases h
  | failed budget depth offset octets status detail hnil hdecode =>
    intro hstatus
    cases hstatus
    exact (format_decode_code hnil hdecode).2 rfl
  | element budget depth offset octets decoded next hnil hdecode hconstructs _ ih => exact ih
  | empty budget depth offset octets decoded next hnil hdecode hconstructs hcontent _ ih =>
    exact ih
  | barrier budget depth offset octets decoded status hnil hdecode hconstructs hcontent hbar =>
    intro hstatus
    cases hstatus
    unfold TreeLimits.barrier at hbar
    split at hbar
    · cases hbar
    · split at hbar <;> cases hbar
  | inside budget depth offset octets decoded inner status hnil hdecode hconstructs hcontent hbar
      _ hinner ih =>
      show inner.failure.or (some status) ≠ _
      rw [hinner] at ih ⊢
      exact ih
  | group budget depth offset octets decoded inner next hnil hdecode hconstructs hcontent hbar
      hparses hinner _ ihinner ihnext =>
      show inner.failure.or next.failure ≠ _
      rw [hinner]
      exact ihnext

end Visit

end OpenTlv
