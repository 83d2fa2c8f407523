import OpenTlv.Lib.Emission
import OpenTlv.Reader.Chunking

/-!
# The tree reader reads in preorder

`parseSequence` decodes an element sequence by recursion: the value of a constructed element is
again an element sequence of the same format. `Parse.preorder` lists what it finds. The cursor of
`reader/tree.c` keeps flags and frames in place of the recursion; pulled to its end it publishes
this list and then fails for good.
-/

namespace OpenTlv

/-- What the recursive decoding of an element sequence finds, up to where it fails. -/
inductive Parse where
  | done
  | failed (status : Status)
  | element (offset : Nat) (decoded : Decoded) (next : Parse)
  | group (offset : Nat) (decoded : Decoded) (inner next : Parse)
  deriving Repr, DecidableEq

/-- Why the decoding stopped, if it did not read everything. -/
def Parse.failure : Parse → Option Status
  | .done => none
  | .failed status => some status
  | .element _ _ next => next.failure
  | .group _ _ inner next => inner.failure.or next.failure

/-- The number of elements found. -/
def Parse.elements : Parse → Nat
  | .done => 0
  | .failed _ => 0
  | .element _ _ next => next.elements + 1
  | .group _ _ inner next => inner.elements + next.elements + 1

/-- The offset behind the value of an element at `offset`. -/
def Decoded.valueEnd (decoded : Decoded) (offset : Nat) : Nat :=
  offset + decoded.source.value.offset + decoded.source.value.size

/-- The octets of the value among those the element was decoded from. -/
def Decoded.content (decoded : Decoded) (octets : Bytes) : Bytes :=
  (octets.drop decoded.source.value.offset).take decoded.source.value.size

/-- Where the value of an element at some depth may not be entered. -/
def TreeLimits.barrier (limits : TreeLimits) (depth : Nat) : Option Status :=
  if depth = limits.maxDepth then some .limit
  else if depth = limits.capacity then some .bufferTooShort
  else none

/-- The recursive decoding of the octets at an absolute offset, of at most `budget` elements. -/
def parseSequence (format : Format) (limits : TreeLimits) (budget depth offset : Nat)
    (octets : Bytes) : Parse :=
  if octets = [] then .done
  else
    match budget with
    | 0 => .failed .limit
    | budget + 1 =>
      match formatDecode format octets with
      | .error (status, _) => .failed status
      | .ok decoded =>
        if format.constructs decoded.tag.bytes then
          let inner : Parse :=
            if decoded.content octets = [] then .done
            else
              match limits.barrier depth with
              | some status => .failed status
              | none =>
                parseSequence format limits budget (depth + 1)
                  (offset + decoded.source.value.offset) (decoded.content octets)
          match inner.failure with
          | some status => .group offset decoded inner (.failed status)
          | none =>
            .group offset decoded inner
              (parseSequence format limits (budget - inner.elements) depth
                (offset + decoded.source.size) (octets.drop decoded.source.size))
        else
          .element offset decoded
            (parseSequence format limits budget depth (offset + decoded.source.size)
              (octets.drop decoded.source.size))
termination_by budget

/-- The events of a parse at some depth: a group is opened, listed and closed. -/
def Parse.preorder (depth : Nat) : Parse → List TreeEvent
  | .done => []
  | .failed _ => []
  | .element offset decoded next =>
    { kind := .element, decoded := decoded, depth := depth, offset := offset } ::
      next.preorder depth
  | .group offset decoded inner next =>
    { kind := .begin, decoded := decoded, depth := depth, offset := offset } ::
      (inner.preorder (depth + 1) ++
        if inner.failure = none then
          { kind := .ending, depth := depth, offset := decoded.valueEnd offset } ::
            next.preorder depth
        else [])

/-- Every begin is closed by one end at its depth, behind events that lie deeper, and the end
carries the offset behind the value. -/
inductive Balanced : Nat → List TreeEvent → Prop where
  | nil (depth : Nat) : Balanced depth []
  | element {depth : Nat} {event : TreeEvent} {rest : List TreeEvent}
      (hkind : event.kind = .element) (hdepth : event.depth = depth)
      (hrest : Balanced depth rest) : Balanced depth (event :: rest)
  | group {depth : Nat} {opening closing : TreeEvent} {inner rest : List TreeEvent}
      (hopening : opening.kind = .begin) (hopeningDepth : opening.depth = depth)
      (hinner : Balanced (depth + 1) inner)
      (hclosing : closing.kind = .ending) (hclosingDepth : closing.depth = depth)
      (hend : closing.offset = opening.decoded.valueEnd opening.offset)
      (hrest : Balanced depth rest) : Balanced depth (opening :: (inner ++ closing :: rest))

/-- `Parses format limits budget depth offset octets parse` says what the recursive decoding finds,
one rule for each way an element can be met. -/
inductive Parses (format : Format) (limits : TreeLimits) :
    Nat → Nat → Nat → Bytes → Parse → Prop where
  | done (budget depth offset) : Parses format limits budget depth offset [] .done
  | limit (depth offset octets) :
      octets ≠ [] → Parses format limits 0 depth offset octets (.failed .limit)
  | failed (budget depth offset octets status detail) :
      octets ≠ [] → formatDecode format octets = .error (status, detail) →
      Parses format limits (budget + 1) depth offset octets (.failed status)
  | element (budget depth offset octets decoded next) :
      octets ≠ [] → formatDecode format octets = .ok decoded →
      format.constructs decoded.tag.bytes = false →
      Parses format limits budget depth (offset + decoded.source.size)
        (octets.drop decoded.source.size) next →
      Parses format limits (budget + 1) depth offset octets (.element offset decoded next)
  | empty (budget depth offset octets decoded next) :
      octets ≠ [] → formatDecode format octets = .ok decoded →
      format.constructs decoded.tag.bytes = true → decoded.content octets = [] →
      Parses format limits budget depth (offset + decoded.source.size)
        (octets.drop decoded.source.size) next →
      Parses format limits (budget + 1) depth offset octets (.group offset decoded .done next)
  | barrier (budget depth offset octets decoded status) :
      octets ≠ [] → formatDecode format octets = .ok decoded →
      format.constructs decoded.tag.bytes = true → decoded.content octets ≠ [] →
      limits.barrier depth = some status →
      Parses format limits (budget + 1) depth offset octets
        (.group offset decoded (.failed status) (.failed status))
  | inside (budget depth offset octets decoded inner status) :
      octets ≠ [] → formatDecode format octets = .ok decoded →
      format.constructs decoded.tag.bytes = true → decoded.content octets ≠ [] →
      limits.barrier depth = none →
      Parses format limits budget (depth + 1) (offset + decoded.source.value.offset)
        (decoded.content octets) inner →
      inner.failure = some status →
      Parses format limits (budget + 1) depth offset octets
        (.group offset decoded inner (.failed status))
  | group (budget depth offset octets decoded inner next) :
      octets ≠ [] → formatDecode format octets = .ok decoded →
      format.constructs decoded.tag.bytes = true → decoded.content octets ≠ [] →
      limits.barrier depth = none →
      Parses format limits budget (depth + 1) (offset + decoded.source.value.offset)
        (decoded.content octets) inner →
      inner.failure = none →
      Parses format limits (budget - inner.elements) depth (offset + decoded.source.size)
        (octets.drop decoded.source.size) next →
      Parses format limits (budget + 1) depth offset octets (.group offset decoded inner next)

section Parse

variable {format : Format} {limits : TreeLimits} {budget depth offset : Nat} {octets : Bytes}

/-- What the recursion finds in the value of a constructed element. -/
def parseValue (format : Format) (limits : TreeLimits) (budget depth offset : Nat)
    (octets : Bytes) (decoded : Decoded) : Parse :=
  if decoded.content octets = [] then .done
  else
    match limits.barrier depth with
    | some status => .failed status
    | none =>
      parseSequence format limits budget (depth + 1) (offset + decoded.source.value.offset)
        (decoded.content octets)

@[simp] theorem parse_sequence_nil : parseSequence format limits budget depth offset [] = .done := by
  unfold parseSequence
  rw [if_pos rfl]

theorem parse_sequence_zero (hoctets : octets ≠ []) :
    parseSequence format limits 0 depth offset octets = .failed .limit := by
  unfold parseSequence
  rw [if_neg hoctets]

/-- One element is decoded, then the recursion goes into its value and behind it. -/
theorem parse_sequence_succ (hoctets : octets ≠ []) :
    parseSequence format limits (budget + 1) depth offset octets =
      match formatDecode format octets with
      | .error (status, _) => .failed status
      | .ok decoded =>
        if format.constructs decoded.tag.bytes then
          let inner := parseValue format limits budget depth offset octets decoded
          match inner.failure with
          | some status => .group offset decoded inner (.failed status)
          | none =>
            .group offset decoded inner
              (parseSequence format limits (budget - inner.elements) depth
                (offset + decoded.source.size) (octets.drop decoded.source.size))
        else
          .element offset decoded
            (parseSequence format limits budget depth (offset + decoded.source.size)
              (octets.drop decoded.source.size)) := by
  rw [parseSequence, if_neg hoctets]
  rfl

/-- The recursion computes what the rules say. -/
theorem parse_sequence_parses (format : Format) (limits : TreeLimits) (budget depth offset : Nat)
    (octets : Bytes) :
    Parses format limits budget depth offset octets
      (parseSequence format limits budget depth offset octets) := by
  induction budget using Nat.strong_induction_on generalizing depth offset octets with
  | _ budget ih =>
    by_cases hoctets : octets = []
    · rw [hoctets, parse_sequence_nil]
      exact .done budget depth offset
    cases budget with
    | zero =>
      rw [parse_sequence_zero hoctets]
      exact .limit depth offset octets hoctets
    | succ budget =>
      rw [parse_sequence_succ hoctets]
      cases hdecode : formatDecode format octets with
      | error failure =>
        obtain ⟨status, detail⟩ := failure
        exact .failed budget depth offset octets status detail hoctets hdecode
      | ok decoded =>
        dsimp only
        cases hconstructs : format.constructs decoded.tag.bytes with
        | false =>
          rw [if_neg (by decide)]
          exact .element budget depth offset octets decoded _ hoctets hdecode hconstructs
            (ih budget (Nat.lt_succ_self _) depth _ _)
        | true =>
          rw [if_pos rfl]
          unfold parseValue
          by_cases hcontent : decoded.content octets = []
          · rw [if_pos hcontent]
            exact .empty budget depth offset octets decoded _ hoctets hdecode hconstructs
              hcontent (ih budget (Nat.lt_succ_self _) depth _ _)
          rw [if_neg hcontent]
          cases hbar : limits.barrier depth with
          | some status =>
            exact .barrier budget depth offset octets decoded status hoctets hdecode
              hconstructs hcontent hbar
          | none =>
            dsimp only
            have hinner := ih budget (Nat.lt_succ_self _) (depth + 1)
              (offset + decoded.source.value.offset) (decoded.content octets)
            generalize parseSequence format limits budget (depth + 1)
              (offset + decoded.source.value.offset) (decoded.content octets) = inner
              at hinner
            cases hfailure : inner.failure with
            | some status =>
              exact .inside budget depth offset octets decoded inner status hoctets
                hdecode hconstructs hcontent hbar hinner hfailure
            | none =>
              exact .group budget depth offset octets decoded inner _ hoctets hdecode
                hconstructs hcontent hbar hinner hfailure
                (ih (budget - inner.elements) (by omega) depth _ _)

/-- No more elements are found than the budget allows. -/
theorem Parses.elements_le {parse : Parse}
    (h : Parses format limits budget depth offset octets parse) : parse.elements ≤ budget := by
  induction h with
  | done => exact Nat.zero_le _
  | limit => exact Nat.zero_le _
  | failed => exact Nat.zero_le _
  | element _ _ _ _ _ _ _ _ _ _ ih => exact Nat.succ_le_succ ih
  | empty _ _ _ _ _ _ _ _ _ _ _ ih =>
    show 0 + _ + 1 ≤ _
    omega
  | barrier => exact Nat.succ_le_succ (Nat.zero_le _)
  | inside _ _ _ _ _ _ _ _ _ _ _ _ _ _ ih => exact Nat.succ_le_succ ih
  | group _ _ _ _ _ _ _ _ _ _ _ _ _ _ _ ihinner ihnext =>
    show _ + _ + 1 ≤ _
    omega

/-- An element is entered only below both limits. -/
theorem barrier_none (h : limits.barrier depth = none) (hdepth : depth ≤ limits.maxDepth)
    (hcapacity : depth ≤ limits.capacity) :
    depth + 1 ≤ limits.maxDepth ∧ depth + 1 ≤ limits.capacity := by
  unfold TreeLimits.barrier at h
  split at h
  · cases h
  · split at h
    · cases h
    · omega

/-- No event lies deeper than the limits allow. -/
theorem Parses.depth_le {parse : Parse}
    (h : Parses format limits budget depth offset octets parse) (hdepth : depth ≤ limits.maxDepth)
    (hcapacity : depth ≤ limits.capacity) :
    ∀ event ∈ parse.preorder depth, event.depth ≤ limits.maxDepth ∧
      event.depth ≤ limits.capacity := by
  induction h with
  | done => exact List.forall_mem_nil _
  | limit => exact List.forall_mem_nil _
  | failed => exact List.forall_mem_nil _
  | element _ _ _ _ _ _ _ _ _ _ ih =>
    exact List.forall_mem_cons.mpr ⟨⟨hdepth, hcapacity⟩, ih hdepth hcapacity⟩
  | empty _ _ _ _ _ _ _ _ _ _ _ ih =>
    exact List.forall_mem_cons.mpr ⟨⟨hdepth, hcapacity⟩,
      List.forall_mem_cons.mpr ⟨⟨hdepth, hcapacity⟩, ih hdepth hcapacity⟩⟩
  | barrier =>
    exact List.forall_mem_cons.mpr ⟨⟨hdepth, hcapacity⟩, List.forall_mem_nil _⟩
  | inside _ _ _ _ _ _ _ _ _ _ _ hbar _ hfailure ih =>
    obtain ⟨hdeeper, hroom⟩ := barrier_none hbar hdepth hcapacity
    rw [Parse.preorder, hfailure, if_neg (by simp), List.append_nil]
    exact List.forall_mem_cons.mpr ⟨⟨hdepth, hcapacity⟩, ih hdeeper hroom⟩
  | group _ _ _ _ _ _ _ _ _ _ _ hbar _ hfailure _ ihinner ihnext =>
    obtain ⟨hdeeper, hroom⟩ := barrier_none hbar hdepth hcapacity
    rw [Parse.preorder, hfailure, if_pos rfl]
    refine List.forall_mem_cons.mpr ⟨⟨hdepth, hcapacity⟩, List.forall_mem_append.mpr
      ⟨ihinner hdeeper hroom, List.forall_mem_cons.mpr ⟨⟨hdepth, hcapacity⟩, ?_⟩⟩⟩
    exact ihnext hdepth hcapacity

/-- Whether an event publishes an element. -/
def TreeEvent.publishes (event : TreeEvent) : Bool :=
  event.kind ≠ .ending

/-- The elements found are the events that publish one. -/
theorem preorder_publishes (parse : Parse) (depth : Nat) :
    ((parse.preorder depth).filter TreeEvent.publishes).length ≤ parse.elements := by
  induction parse generalizing depth with
  | done => exact Nat.le_refl _
  | failed => exact Nat.le_refl _
  | element offset decoded next ih =>
    rw [Parse.preorder, List.filter_cons_of_pos (by rfl)]
    exact Nat.succ_le_succ (ih depth)
  | group offset decoded inner next ihinner ihnext =>
    have hinner := ihinner (depth + 1)
    have hnext := ihnext depth
    rw [Parse.preorder, List.filter_cons_of_pos (by rfl), List.filter_append]
    simp only [List.length_cons, List.length_append, Parse.elements]
    split
    · rw [List.filter_cons_of_neg (by simp [TreeEvent.publishes])]
      omega
    · simp only [List.filter_nil, List.length_nil]
      omega

/-- What is listed is balanced up to the ends of the groups that a failure left open. -/
theorem preorder_balanced (parse : Parse) (depth : Nat) :
    ∃ ends : List TreeEvent, (∀ event ∈ ends, event.kind = .ending) ∧
      (parse.failure = none → ends = []) ∧ Balanced depth (parse.preorder depth ++ ends) := by
  induction parse generalizing depth with
  | done => exact ⟨[], List.forall_mem_nil _, fun _ => rfl, .nil depth⟩
  | failed => exact ⟨[], List.forall_mem_nil _, fun _ => rfl, .nil depth⟩
  | element offset decoded next ih =>
    obtain ⟨ends, hends, hnone, hbalanced⟩ := ih depth
    exact ⟨ends, hends, hnone, .element rfl rfl hbalanced⟩
  | group offset decoded inner next ihinner ihnext =>
    obtain ⟨innerEnds, hinnerEnds, hinnerNone, hinner⟩ := ihinner (depth + 1)
    obtain ⟨ends, hends, hnone, hbalanced⟩ := ihnext depth
    rw [Parse.preorder]
    cases hfailure : inner.failure with
    | none =>
      refine ⟨ends, hends, fun h => hnone ?_, ?_⟩
      · simpa [Parse.failure, hfailure] using h
      · rw [hinnerNone hfailure, List.append_nil] at hinner
        rw [if_pos rfl, List.cons_append, List.append_assoc, List.cons_append]
        exact .group rfl rfl hinner rfl rfl rfl hbalanced
    | some status =>
      -- The failure lies inside this group, so its end is missing too.
      let closing : TreeEvent :=
        { kind := .ending, depth := depth, offset := decoded.valueEnd offset }
      refine ⟨innerEnds ++ [closing], ?_, fun h => ?_, ?_⟩
      · exact List.forall_mem_append.mpr ⟨hinnerEnds, List.forall_mem_singleton.mpr rfl⟩
      · simp [Parse.failure, hfailure] at h
      · rw [if_neg (by simp), List.append_nil, List.cons_append, ← List.append_assoc]
        exact .group rfl rfl hinner rfl rfl rfl (.nil depth)

end Parse

section Cursor

variable {format : Format} {limits : TreeLimits} {whole : Bytes} {frames : List TreeFrame}
  {pos count : Nat} {pending : TreeFrame}

/-- The tree reader as a machine: a pull publishes an event or fails for good. -/
def pullMove (format : Format) (reader : TreeReader) : Move TreeReader TreeEvent Status :=
  match treeReaderNextEvent format reader with
  | .ok (event, next) => .emit event next
  | .error status => .halt status reader

theorem pull_move_ok {reader next : TreeReader} {event : TreeEvent}
    (h : treeReaderNextEvent format reader = .ok (event, next)) :
    pullMove format reader = .emit event next := by
  unfold pullMove
  rw [h]

theorem pull_move_error {reader : TreeReader} {status : Status}
    (h : treeReaderNextEvent format reader = .error status) :
    pullMove format reader = .halt status reader := by
  unfold pullMove
  rw [h]

/-- A cursor between two elements of the final input `whole`, inside the values of `frames`. -/
def TreeReader.standing (limits : TreeLimits) (whole : Bytes) (frames : List TreeFrame)
    (pos count : Nat) (pending : TreeFrame) : TreeReader :=
  { input := { data := whole, size := whole.length, pos := pos }
    frames := frames
    capacity := limits.capacity
    maxDepth := limits.maxDepth
    maxElements := limits.maxElements
    count := count
    pending := pending }

/-- The end of the innermost value that is entered. -/
def scopeEnd (whole : Bytes) : List TreeFrame → Nat
  | [] => whole.length
  | frame :: _ => frame.ending

/-- The octets of the innermost value ahead of an offset. -/
def scopeRest (whole : Bytes) (frames : List TreeFrame) (pos : Nat) : Bytes :=
  (whole.take (scopeEnd whole frames)).drop pos

/-- The window that `treeReaderNextEvent` reads an element of the innermost value from. -/
def scopeWindow (whole : Bytes) (frames : List TreeFrame) (pos : Nat) : Reader :=
  { data := whole, size := scopeEnd whole frames, pos := pos }

theorem scope_rest_length (hend : scopeEnd whole frames ≤ whole.length) :
    (scopeRest whole frames pos).length = scopeEnd whole frames - pos := by
  unfold scopeRest
  rw [List.length_drop, List.length_take, Nat.min_eq_left hend]

theorem standing_enclosing :
    (TreeReader.standing limits whole frames pos count pending).enclosing =
      .ok (frames, scopeWindow whole frames pos) := by
  cases frames with
  | nil => rfl
  | cons frame outer => rfl

/-- Ahead of the end of its scope the cursor reads one element of it. -/
theorem standing_reads (hformat : format.decode.isSome) (hwhole : whole.length ≤ sizeMax)
    (hend : scopeEnd whole frames ≤ whole.length) (hpos : pos < scopeEnd whole frames) :
    treeReaderNextEvent format (.standing limits whole frames pos count pending) =
      if count = limits.maxElements then .error .limit
      else
        match formatDecode format (scopeRest whole frames pos) with
        | .error (status, _) => .error status
        | .ok decoded =>
          .ok ((TreeReader.standing limits whole frames pos count pending).publish frames
            (format.constructs decoded.tag.bytes) pos decoded
            { scopeWindow whole frames pos with pos := pos + decoded.source.size }) := by
  have hclose : closeEvent (.standing limits whole frames pos count pending) = none := by
    cases frames with
    | nil => rfl
    | cons frame outer =>
      refine (close_event_frame rfl rfl rfl).trans (if_neg ?_)
      show ¬ 0 + pos = frame.ending
      have hless : pos < frame.ending := hpos
      omega
  have hwithin : (scopeWindow whole frames pos).Within :=
    ⟨hpos.le, hend, by show 0 + scopeEnd whole frames ≤ sizeMax; omega⟩
  have hrest : (scopeWindow whole frames pos).rest ≠ [] := by
    intro hnil
    have hlength := hwithin.rest_length
    rw [hnil] at hlength
    have hzero : 0 = scopeEnd whole frames - pos := hlength
    omega
  have hoffset : (scopeWindow whole frames pos).offset = pos := Nat.zero_add pos
  rw [next_event_read hclose standing_enclosing, reader_next_eq hwithin hformat, if_neg hrest,
    hoffset]
  by_cases hcount : count = limits.maxElements
  · rw [if_pos ⟨hpos, hcount⟩, if_pos hcount]
  · rw [if_neg fun h => hcount h.2, if_neg hcount]
    rw [show (scopeWindow whole frames pos).rest = scopeRest whole frames pos from rfl]
    cases formatDecode format (scopeRest whole frames pos) with
    | ok decoded => rfl
    | error failure =>
      show Except.error (if failure.1 = .truncated ∧ true = false then Status.needMoreData
        else failure.1) = _
      rw [if_neg (by simp)]

/-- At the end of the innermost value its end is published. -/
theorem standing_closes {frame : TreeFrame} :
    treeReaderNextEvent format
        (.standing limits whole (frame :: frames) frame.ending count pending) =
      .ok ({ kind := .ending, depth := frames.length, offset := frame.ending },
        .standing limits whole frames frame.resume count pending) := by
  have hclose := @close_event_frame
    (.standing limits whole (frame :: frames) frame.ending count pending) rfl rfl frame frames rfl
  unfold treeReaderNextEvent
  rw [hclose.trans (if_pos (Nat.zero_add frame.ending))]
  rfl

/-- At the end of the input the reader is done. -/
theorem standing_ends (hformat : format.decode.isSome) (hwhole : whole.length ≤ sizeMax) :
    treeReaderNextEvent format (.standing limits whole [] whole.length count pending) =
      .error .atEnd := by
  have hwithin : (scopeWindow whole [] whole.length).Within :=
    ⟨Nat.le_refl _, Nat.le_refl _, by show 0 + whole.length ≤ sizeMax; omega⟩
  have hrest : (scopeWindow whole [] whole.length).rest = [] :=
    List.eq_nil_of_length_eq_zero (hwithin.rest_length.trans (Nat.sub_self _))
  rw [next_event_read (close_event_root rfl rfl rfl) standing_enclosing,
    if_neg (fun h => Nat.lt_irrefl _ h.1), reader_next_eq hwithin hformat, if_pos hrest]
  rfl

/-- The cursor behind a begin whose value is not empty. -/
def TreeReader.descending (limits : TreeLimits) (whole : Bytes) (frames : List TreeFrame)
    (pos count : Nat) (pending : TreeFrame) : TreeReader :=
  { TreeReader.standing limits whole frames pos count pending with descendPending := true }

/-- Before it enters a value the cursor checks both limits. -/
theorem descending_enclosing :
    (TreeReader.descending limits whole frames pos count pending).enclosing =
      match limits.barrier frames.length with
      | some status => .error status
      | none => .ok (pending :: frames, scopeWindow whole (pending :: frames) pos) := by
  show (if frames.length = limits.maxDepth then Except.error Status.limit
    else if frames.length = limits.capacity then .error .bufferTooShort
    else .ok (pending :: frames, scopeWindow whole (pending :: frames) pos)) = _
  unfold TreeLimits.barrier
  by_cases hdepth : frames.length = limits.maxDepth
  · rw [if_pos hdepth, if_pos hdepth]
  · rw [if_neg hdepth, if_neg hdepth]
    by_cases hcapacity : frames.length = limits.capacity
    · rw [if_pos hcapacity, if_pos hcapacity]
    · rw [if_neg hcapacity, if_neg hcapacity]

theorem descending_stops {status : Status} (h : limits.barrier frames.length = some status) :
    treeReaderNextEvent format (.descending limits whole frames pos count pending) =
      .error status := by
  have henclosing := @descending_enclosing limits whole frames pos count pending
  rw [h] at henclosing
  unfold treeReaderNextEvent
  rw [close_event_descend rfl rfl]
  dsimp only
  rw [henclosing]

/-- Within the limits a pull reads as if the value were entered already. -/
theorem descending_enters (h : limits.barrier frames.length = none) (hpos : pos < pending.ending) :
    treeReaderNextEvent format (.descending limits whole frames pos count pending) =
      treeReaderNextEvent format
        (.standing limits whole (pending :: frames) pos count pending) := by
  have henclosing := @descending_enclosing limits whole frames pos count pending
  rw [h] at henclosing
  have hclose : closeEvent (.standing limits whole (pending :: frames) pos count pending) =
      none := by
    refine (close_event_frame rfl rfl rfl).trans (if_neg ?_)
    show ¬ 0 + pos = pending.ending
    omega
  rw [next_event_read (close_event_descend rfl rfl) henclosing,
    next_event_read hclose standing_enclosing]
  by_cases hlimit : (scopeWindow whole (pending :: frames) pos).pos <
      (scopeWindow whole (pending :: frames) pos).size ∧ count = limits.maxElements
  · exact (if_pos hlimit).trans (if_pos hlimit).symm
  · refine (if_neg hlimit).trans (Eq.trans ?_ (if_neg hlimit).symm)
    cases readerNext format (scopeWindow whole (pending :: frames) pos) with
    | error status => rfl
    | ok read => rfl

/-- The run that reading a scope is: the events of its parse, and then either a failure or the
cursor at the end of the scope with the elements counted. -/
def ReadsScope (format : Format) (limits : TreeLimits) (whole : Bytes) (frames : List TreeFrame)
    (count : Nat) (reader : TreeReader) (parse : Parse) : Prop :=
  ∃ last, Emits (pullMove format) reader (parse.preorder frames.length) last ∧
    match parse.failure with
    | some status => treeReaderNextEvent format last = .error status
    | none => ∃ pending,
        last = .standing limits whole frames (scopeEnd whole frames) (count + parse.elements)
          pending

/-- The scope goes on where octets are left of it. -/
theorem scope_ahead {offset : Nat} {octets : Bytes} (hend : scopeEnd whole frames ≤ whole.length)
    (hoctets : octets = scopeRest whole frames offset) (hnil : octets ≠ []) :
    offset < scopeEnd whole frames := by
  have hlength := @scope_rest_length whole frames offset hend
  rw [← hoctets] at hlength
  have hsome := List.length_pos_iff.mpr hnil
  omega

/-- Where the decoded element and its value lie in the scope. -/
theorem decode_in_scope {offset : Nat} {decoded : Decoded}
    (hdecode : formatDecode format (scopeRest whole frames offset) = .ok decoded)
    (hend : scopeEnd whole frames ≤ whole.length) (hpos : offset ≤ scopeEnd whole frames) :
    offset + decoded.source.size ≤ scopeEnd whole frames ∧
      decoded.valueEnd offset ≤ offset + decoded.source.size ∧
      decoded.value.bytes.length = decoded.source.value.size := by
  obtain ⟨hsize, hvalue, hlength⟩ := format_decode_extent hdecode
  rw [scope_rest_length hend] at hsize
  unfold Decoded.valueEnd
  exact ⟨by omega, by omega, hlength⟩

/-- Behind an element the scope goes on. -/
theorem scope_rest_drop (offset size : Nat) :
    (scopeRest whole frames offset).drop size = scopeRest whole frames (offset + size) := by
  unfold scopeRest
  rw [List.drop_drop]

/-- The value of an element is the scope that its frame opens. -/
theorem scope_rest_content {offset resume : Nat} {decoded : Decoded}
    (hvalue : decoded.valueEnd offset ≤ scopeEnd whole frames) :
    decoded.content (scopeRest whole frames offset) =
      scopeRest whole (⟨decoded.valueEnd offset, resume⟩ :: frames)
        (offset + decoded.source.value.offset) := by
  unfold Decoded.content scopeRest
  unfold Decoded.valueEnd at hvalue
  show _ = (whole.take (decoded.valueEnd offset)).drop _
  unfold Decoded.valueEnd
  rw [List.drop_drop, List.drop_take, List.drop_take, List.take_take]
  congr 1
  omega

theorem content_length {offset : Nat} {decoded : Decoded}
    (hvalue : decoded.valueEnd offset ≤ scopeEnd whole frames)
    (hend : scopeEnd whole frames ≤ whole.length) :
    (decoded.content (scopeRest whole frames offset)).length = decoded.source.value.size := by
  unfold Decoded.valueEnd at hvalue
  unfold Decoded.content
  rw [List.length_take, List.length_drop, scope_rest_length hend]
  omega

/-- The value of a constructed element as a scope of its own. -/
theorem value_in_scope {offset : Nat} {decoded : Decoded}
    (hdecode : formatDecode format (scopeRest whole frames offset) = .ok decoded)
    (hend : scopeEnd whole frames ≤ whole.length) (hpos : offset ≤ scopeEnd whole frames)
    (hcontent : decoded.content (scopeRest whole frames offset) ≠ []) :
    let inside : List TreeFrame :=
      ⟨decoded.valueEnd offset, offset + decoded.source.size⟩ :: frames
    scopeEnd whole inside ≤ whole.length ∧
      offset + decoded.source.value.offset < scopeEnd whole inside ∧
      decoded.content (scopeRest whole frames offset) =
        scopeRest whole inside (offset + decoded.source.value.offset) := by
  obtain ⟨hsize, hvalue, -⟩ := decode_in_scope hdecode hend hpos
  have hcontents := @scope_rest_content whole frames offset (offset + decoded.source.size) decoded
    (hvalue.trans hsize)
  have hreach : scopeEnd whole
      (⟨decoded.valueEnd offset, offset + decoded.source.size⟩ :: frames) ≤ whole.length :=
    hvalue.trans (hsize.trans hend)
  exact ⟨hreach, scope_ahead hreach hcontents hcontent, hcontents⟩

/-- A pull ahead of the end of the scope publishes the element that is decoded there. -/
theorem standing_publishes (hformat : format.decode.isSome) (hwhole : whole.length ≤ sizeMax)
    {offset : Nat} {decoded : Decoded} (hcount : count < limits.maxElements)
    (hend : scopeEnd whole frames ≤ whole.length) (hpos : offset < scopeEnd whole frames)
    (hdecode : formatDecode format (scopeRest whole frames offset) = .ok decoded) :
    treeReaderNextEvent format (.standing limits whole frames offset count pending) =
      .ok ((TreeReader.standing limits whole frames offset count pending).publish frames
        (format.constructs decoded.tag.bytes) offset decoded
        { scopeWindow whole frames offset with pos := offset + decoded.source.size }) := by
  rw [standing_reads hformat hwhole hend hpos, if_neg (Nat.ne_of_lt hcount), hdecode]

/-- The cursor behind a begin: it descends, or closes at once. -/
theorem standing_begins (hformat : format.decode.isSome) (hwhole : whole.length ≤ sizeMax)
    {offset : Nat} {decoded : Decoded} (hcount : count < limits.maxElements)
    (hend : scopeEnd whole frames ≤ whole.length) (hpos : offset < scopeEnd whole frames)
    (hdecode : formatDecode format (scopeRest whole frames offset) = .ok decoded)
    (hconstructs : format.constructs decoded.tag.bytes = true) :
    treeReaderNextEvent format (.standing limits whole frames offset count pending) =
      .ok ({ kind := .begin, decoded := decoded, depth := frames.length, offset := offset },
        { TreeReader.standing limits whole frames (offset + decoded.source.value.offset)
            (count + 1) ⟨decoded.valueEnd offset, offset + decoded.source.size⟩ with
          descendPending := decoded.value.bytes.length ≠ 0
          endPending := decoded.value.bytes.length = 0 }) := by
  rw [standing_publishes hformat hwhole hcount hend hpos hdecode, hconstructs]
  unfold TreeReader.publish TreeReader.standing Decoded.valueEnd
  simp only [if_true, Bool.true_and, scopeWindow, Reader.offset, Nat.zero_add, Nat.sub_zero]

/-- A begin whose value is not empty is left to be entered by the next pull. -/
theorem standing_descends (hformat : format.decode.isSome) (hwhole : whole.length ≤ sizeMax)
    {offset : Nat} {decoded : Decoded} (hcount : count < limits.maxElements)
    (hend : scopeEnd whole frames ≤ whole.length) (hpos : offset < scopeEnd whole frames)
    (hdecode : formatDecode format (scopeRest whole frames offset) = .ok decoded)
    (hconstructs : format.constructs decoded.tag.bytes = true)
    (hcontent : decoded.content (scopeRest whole frames offset) ≠ []) :
    treeReaderNextEvent format (.standing limits whole frames offset count pending) =
      .ok ({ kind := .begin, decoded := decoded, depth := frames.length, offset := offset },
        .descending limits whole frames (offset + decoded.source.value.offset) (count + 1)
          ⟨decoded.valueEnd offset, offset + decoded.source.size⟩) := by
  obtain ⟨hsize, hvalue, hlength⟩ := decode_in_scope hdecode hend hpos.le
  have hsome : decoded.value.bytes.length ≠ 0 := by
    rw [hlength, ← content_length (hvalue.trans hsize) hend]
    exact fun hzero => hcontent (List.eq_nil_of_length_eq_zero hzero)
  rw [standing_begins hformat hwhole hcount hend hpos hdecode hconstructs, decide_eq_true hsome,
    decide_eq_false hsome]
  rfl

section Scope

variable {reader mid : TreeReader} {offset : Nat} {decoded : Decoded} {inner next : Parse}

theorem ReadsScope.failed {status : Status} (h : treeReaderNextEvent format reader = .error status) :
    ReadsScope format limits whole frames count reader (.failed status) :=
  ⟨reader, .refl reader, h⟩

theorem ReadsScope.element
    (hpull : treeReaderNextEvent format reader =
      .ok ({ kind := .element, decoded := decoded, depth := frames.length, offset := offset }, mid))
    (hnext : ReadsScope format limits whole frames (count + 1) mid next) :
    ReadsScope format limits whole frames count reader (.element offset decoded next) := by
  obtain ⟨last, hemits, hlast⟩ := hnext
  refine ⟨last, .emit (pull_move_ok hpull) hemits, ?_⟩
  rw [show count + (Parse.element offset decoded next).elements = count + 1 + next.elements by
    show count + (next.elements + 1) = _
    omega]
  exact hlast

/-- A group is read by its begin and its value, its end and what follows. -/
theorem ReadsScope.group
    (hpull : treeReaderNextEvent format reader =
      .ok ({ kind := .begin, decoded := decoded, depth := frames.length, offset := offset }, mid))
    (hinner : ReadsScope format limits whole
      (⟨decoded.valueEnd offset, offset + decoded.source.size⟩ :: frames) (count + 1) mid inner)
    (hfailure : inner.failure = none)
    (hnext : ∀ pending, ReadsScope format limits whole frames (count + 1 + inner.elements)
      (.standing limits whole frames (offset + decoded.source.size) (count + 1 + inner.elements)
        pending) next) :
    ReadsScope format limits whole frames count reader (.group offset decoded inner next) := by
  obtain ⟨closed, hbefore, hclosed⟩ := hinner
  rw [hfailure] at hclosed
  obtain ⟨pending, rfl⟩ := hclosed
  obtain ⟨last, hafter, hlast⟩ := hnext pending
  refine ⟨last, ?_, ?_⟩
  · rw [Parse.preorder, if_pos hfailure]
    exact .emit (pull_move_ok hpull) (hbefore.trans (.emit (pull_move_ok standing_closes) hafter))
  · rw [Parse.failure, hfailure, Option.none_or,
      show count + (Parse.group offset decoded inner next).elements =
        count + 1 + inner.elements + next.elements by
        show count + (inner.elements + next.elements + 1) = _
        omega]
    exact hlast

/-- A group whose value cannot be read to its end stays open. -/
theorem ReadsScope.inside {status : Status}
    (hpull : treeReaderNextEvent format reader =
      .ok ({ kind := .begin, decoded := decoded, depth := frames.length, offset := offset }, mid))
    (hinner : ReadsScope format limits whole
      (⟨decoded.valueEnd offset, offset + decoded.source.size⟩ :: frames) (count + 1) mid inner)
    (hfailure : inner.failure = some status) :
    ReadsScope format limits whole frames count reader
      (.group offset decoded inner (.failed status)) := by
  obtain ⟨last, hbefore, hlast⟩ := hinner
  rw [hfailure] at hlast
  refine ⟨last, ?_, ?_⟩
  · rw [Parse.preorder, if_neg (by rw [hfailure]; exact Option.some_ne_none status),
      List.append_nil]
    exact .emit (pull_move_ok hpull) hbefore
  · rw [Parse.failure, hfailure, Option.some_or]
    exact hlast

/-- Reading goes on from a begin as from the entered value. -/
theorem ReadsScope.descend (hbar : limits.barrier frames.length = none)
    (hpos : pos < pending.ending)
    (h : ReadsScope format limits whole (pending :: frames) count
      (.standing limits whole (pending :: frames) pos count pending) inner) :
    ReadsScope format limits whole (pending :: frames) count
      (.descending limits whole frames pos count pending) inner := by
  have hsame := @descending_enters format limits whole frames pos count pending hbar hpos
  obtain ⟨last, hemits, hlast⟩ := h
  cases hevents : inner.preorder (pending :: frames).length with
  | nil =>
    rw [hevents] at hemits
    cases hemits with
    | refl =>
      refine ⟨_, by rw [hevents]; exact .refl _, ?_⟩
      cases hfailure : inner.failure with
      | some status =>
        rw [hfailure] at hlast
        exact hsame.trans hlast
      | none =>
        -- Nothing was read, so the value would have to be empty.
        rw [hfailure] at hlast
        obtain ⟨_, hend⟩ := hlast
        have hstart : pos = pending.ending := congrArg (fun reader => reader.input.pos) hend
        omega
    | quiet hmove _ =>
      unfold pullMove at hmove
      split at hmove <;> cases hmove
  | cons event events =>
    rw [hevents] at hemits
    refine ⟨last, ?_, hlast⟩
    rw [hevents]
    cases hemits with
    | quiet hmove _ =>
      unfold pullMove at hmove
      split at hmove <;> cases hmove
    | emit hmove hnext =>
      refine .emit ?_ hnext
      unfold pullMove at hmove ⊢
      rw [hsame]
      split at hmove
      · exact hmove
      · cases hmove

end Scope

/-- The cursor reads its scope as the recursion does. -/
theorem standing_reads_scope (hformat : format.decode.isSome) (hwhole : whole.length ≤ sizeMax)
    {budget depth offset : Nat} {octets : Bytes} {parse : Parse}
    (h : Parses format limits budget depth offset octets parse)
    (hbudget : budget + count = limits.maxElements) (hdepth : depth = frames.length)
    (hend : scopeEnd whole frames ≤ whole.length) (hpos : offset ≤ scopeEnd whole frames)
    (hoctets : octets = scopeRest whole frames offset) :
    ReadsScope format limits whole frames count
      (.standing limits whole frames offset count pending) parse := by
  -- the reader pulls what the parse decodes, scope by scope
  induction h generalizing frames count pending with
  | done budget depth offset =>
    have hlength := @scope_rest_length whole frames offset hend
    rw [← hoctets, List.length_nil] at hlength
    have hoffset : offset = scopeEnd whole frames := by omega
    rw [hoffset]
    exact ⟨_, .refl _, pending, rfl⟩
  | limit depth offset octets hnil =>
    have hahead := scope_ahead hend hoctets hnil
    refine .failed ((standing_reads hformat hwhole hend hahead).trans (if_pos ?_))
    omega
  | failed budget depth offset octets status detail hnil hdecode =>
    have hahead := scope_ahead hend hoctets hnil
    rw [hoctets] at hdecode
    refine .failed ?_
    rw [standing_reads hformat hwhole hend hahead, if_neg (by omega), hdecode]
  | element budget depth offset octets decoded next hnil hdecode hconstructs _ ih =>
    have hahead := scope_ahead hend hoctets hnil
    rw [hoctets] at hdecode
    obtain ⟨hsize, -, -⟩ := decode_in_scope hdecode hend hpos
    have hpull := @standing_publishes format limits whole frames count pending hformat hwhole
      offset decoded (by omega) hend hahead hdecode
    rw [hconstructs] at hpull
    refine .element hpull (ih (by omega) hdepth hend hsize ?_)
    rw [hoctets, scope_rest_drop]
  | empty budget depth offset octets decoded next hnil hdecode hconstructs hcontent _ ih =>
    have hahead := scope_ahead hend hoctets hnil
    rw [hoctets] at hdecode hcontent
    obtain ⟨hsize, hvalue, hlength⟩ := decode_in_scope hdecode hend hpos
    have hzero : decoded.value.bytes.length = 0 := by
      rw [hlength, ← content_length (hvalue.trans hsize) hend, hcontent, List.length_nil]
    have hpull := @standing_begins format limits whole frames count pending hformat hwhole
      offset decoded (by omega) hend hahead hdecode hconstructs
    obtain ⟨last, hafter, hlast⟩ := @ih frames (count + 1)
      ⟨decoded.valueEnd offset, offset + decoded.source.size⟩ (by omega) hdepth hend hsize
      (by rw [hoctets, scope_rest_drop])
    refine ⟨last, .emit (pull_move_ok hpull) (.emit (pull_move_ok ?_) hafter), ?_⟩
    · unfold treeReaderNextEvent
      rw [close_event_pending (decide_eq_true hzero)]
      rw [hzero]
      rfl
    · rw [show count + (Parse.group offset decoded .done next).elements =
        count + 1 + next.elements by
        show count + (0 + next.elements + 1) = _
        omega]
      exact hlast
  | barrier budget depth offset octets decoded status hnil hdecode hconstructs hcontent hbar =>
    have hahead := scope_ahead hend hoctets hnil
    rw [hoctets] at hdecode hcontent
    have hpull := @standing_descends format limits whole frames count pending hformat hwhole
      offset decoded (by omega) hend hahead hdecode hconstructs hcontent
    exact .inside hpull (.failed (descending_stops (hdepth ▸ hbar))) rfl
  | inside budget depth offset octets decoded inner status hnil hdecode hconstructs hcontent hbar _
      hfailure ih =>
      have hahead := scope_ahead hend hoctets hnil
      rw [hoctets] at hdecode hcontent
      have hpull := @standing_descends format limits whole frames count pending hformat hwhole
        offset decoded (by omega) hend hahead hdecode hconstructs hcontent
      obtain ⟨hreach, hinside, hcontents⟩ := value_in_scope hdecode hend hpos hcontent
      have hinner := @ih (⟨decoded.valueEnd offset, offset + decoded.source.size⟩ :: frames)
        (count + 1) ⟨decoded.valueEnd offset, offset + decoded.source.size⟩ (by omega)
        (congrArg (· + 1) hdepth) hreach hinside.le (hoctets ▸ hcontents)
      exact .inside hpull (hinner.descend (hdepth ▸ hbar) hinside) hfailure
  | group budget depth offset octets decoded inner next hnil hdecode hconstructs hcontent hbar
      hparses hfailure _ ihinner ihnext =>
      have hahead := scope_ahead hend hoctets hnil
      rw [hoctets] at hdecode hcontent
      obtain ⟨hsize, -, -⟩ := decode_in_scope hdecode hend hpos
      have hpull := @standing_descends format limits whole frames count pending hformat hwhole
        offset decoded (by omega) hend hahead hdecode hconstructs hcontent
      obtain ⟨hreach, hinside, hcontents⟩ := value_in_scope hdecode hend hpos hcontent
      have hinner := @ihinner (⟨decoded.valueEnd offset, offset + decoded.source.size⟩ :: frames)
        (count + 1) ⟨decoded.valueEnd offset, offset + decoded.source.size⟩ (by omega)
        (congrArg (· + 1) hdepth) hreach hinside.le (hoctets ▸ hcontents)
      have hfew := hparses.elements_le
      refine .group hpull (hinner.descend (hdepth ▸ hbar) hinside) hfailure fun pending => ?_
      exact ihnext (by omega) hdepth hend hsize (by rw [hoctets, scope_rest_drop])

end Cursor

section Pulls

variable {format : Format} {limits : TreeLimits} {reader : TreeReader}

/-- The frames in use and the limits on them. -/
def TreeReader.Bounded (limits : TreeLimits) (reader : TreeReader) : Prop :=
  reader.capacity = limits.capacity ∧ reader.maxDepth = limits.maxDepth ∧
    reader.frames.length ≤ limits.capacity ∧ reader.frames.length ≤ limits.maxDepth

theorem close_event_bounded {next : TreeReader} {event : TreeEvent} (h : reader.Bounded limits)
    (hclose : closeEvent reader = some (event, next)) : next.Bounded limits := by
  rcases close_event_cases hclose with ⟨-, -, rfl⟩ | ⟨-, -, frame, outer, hframes, -, rfl⟩
  · exact h
  · obtain ⟨hcapacity, hdepth, hroom, hdeep⟩ := h
    rw [hframes, List.length_cons] at hroom hdeep
    exact ⟨hcapacity, hdepth, by show outer.length ≤ _; omega, by show outer.length ≤ _; omega⟩

/-- A value is entered only where both limits leave room. -/
theorem enclosing_bounded {frames : List TreeFrame} {input : Reader} (h : reader.Bounded limits)
    (henclosing : reader.enclosing = .ok (frames, input)) :
    frames.length ≤ limits.capacity ∧ frames.length ≤ limits.maxDepth := by
  obtain ⟨hcapacity, hdepth, hroom, hdeep⟩ := h
  unfold TreeReader.enclosing at henclosing
  cases hdescend : reader.descendPending with
  | true =>
    simp only [hdescend, if_true] at henclosing
    split at henclosing
    · cases henclosing
    · split at henclosing
      · cases henclosing
      · cases henclosing
        simp only [List.length_cons]
        omega
  | false =>
    simp only [hdescend, Bool.false_eq_true, if_false] at henclosing
    split at henclosing
    all_goals
      rename_i hframes
      cases henclosing
      rw [hframes] at hroom hdeep
      exact ⟨hroom, hdeep⟩

theorem next_event_bounded {next : TreeReader} {event : TreeEvent} (h : reader.Bounded limits)
    (hpull : treeReaderNextEvent format reader = .ok (event, next)) : next.Bounded limits := by
  rcases next_event_cases hpull with hclose |
    ⟨-, frames, input, decoded, after, henclosing, -, -, hpublish⟩
  · exact close_event_bounded h hclose
  · have hframes := enclosing_bounded h henclosing
    generalize format.constructs decoded.tag.bytes = constructed at hpublish
    cases constructed <;> cases hpublish <;> exact ⟨h.1, h.2.1, hframes⟩

/-- The reader after some pulls. -/
def pulledReader (format : Format) (reader : TreeReader) (pulls : Nat) : TreeReader :=
  treeAfter format reader (List.replicate pulls .pull)

theorem pulled_reader_bounded (h : reader.Bounded limits) (pulls : Nat) :
    (pulledReader format reader pulls).Bounded limits := by
  induction pulls generalizing reader with
  | zero => exact h
  | succ pulls ih =>
    show (pulledReader format (TreeCall.pull.apply format reader).1 pulls).Bounded limits
    apply ih
    unfold TreeCall.apply
    cases hpull : treeReaderNextEvent format reader with
    | ok found => exact next_event_bounded h hpull
    | error status => exact h

/-- What pulls return along a run that ends in a failure. -/
theorem emits_pulls {events : List TreeEvent} {last : TreeReader} {status : Status}
    (h : Emits (pullMove format) reader events last)
    (hlast : treeReaderNextEvent format last = .error status) (pulls : Nat) :
    treePulls format reader pulls =
      (events.map Except.ok).take pulls ++
        List.replicate (pulls - events.length) (Except.error status) := by
  induction pulls generalizing reader events with
  | zero =>
    rw [Nat.zero_sub]
    rfl
  | succ pulls ih =>
    rw [tree_pulls_succ]
    cases h with
    | refl =>
      rw [hlast]
      have hrest := ih (.refl last)
      rw [List.map_nil, List.take_nil, List.nil_append] at hrest ⊢
      rw [List.length_nil, Nat.sub_zero, List.replicate_succ]
      exact congrArg _ hrest
    | quiet hmove _ =>
      unfold pullMove at hmove
      split at hmove <;> cases hmove
    | @emit _ next _ event rest hmove hnext =>
      unfold pullMove at hmove
      cases hpull : treeReaderNextEvent format reader with
      | error status =>
        rw [hpull] at hmove
        cases hmove
      | ok found =>
        rw [hpull] at hmove
        cases hmove
        have hrest := ih hnext
        show Except.ok found.1 :: treePulls format found.2 pulls = _
        rw [hrest, List.map_cons, List.take_succ_cons, List.cons_append, List.length_cons,
          Nat.add_sub_add_right]

/-- A call stores to the reader only where it succeeds. -/
theorem next_event_in_place (format : Format) (reader : TreeReader) :
    (nextEventInPlace format).exec reader =
      match treeReaderNextEvent format reader with
      | .ok (event, next) => (.ok event, next)
      | .error status => (.error status, reader) := by
  unfold nextEventInPlace
  rw [InPlace.exec_bind, InPlace.exec_get]
  dsimp only
  cases hclose : closeEvent reader with
  | some closed =>
    simp only [treeReaderNextEvent, hclose]
    rfl
  | none =>
    dsimp only
    cases henclosing : reader.enclosing with
    | error status =>
      simp only [treeReaderNextEvent, hclose, henclosing]
      rfl
    | ok found =>
      obtain ⟨frames, input⟩ := found
      have hframes : frames =
          if reader.descendPending then reader.pending :: reader.frames else reader.frames := by
        rcases enclosing_cases henclosing with ⟨rfl, -, hnil, hdescend⟩ |
          ⟨frame, outer, rfl, -, ⟨hdescend, rfl, rfl⟩ | ⟨hdescend, hcons⟩⟩
        · rw [hdescend, hnil]
          rfl
        · rw [hdescend]
          rfl
        · rw [hdescend, hcons]
          rfl
      rw [next_event_read hclose henclosing, InPlace.exec_bind, InPlace.exec_lift]
      dsimp only
      by_cases hlimit : input.pos < input.size ∧ reader.count = reader.maxElements
      · rw [if_pos hlimit, if_pos hlimit]
        rfl
      · rw [if_neg hlimit, if_neg hlimit, InPlace.exec_bind, InPlace.exec_lift]
        cases readerNext format input with
        | error status => rfl
        | ok read =>
          obtain ⟨decoded, after⟩ := read
          rw [hframes]
          dsimp only [Except.map, TreeReader.publish]
          cases hconstructs : format.constructs decoded.tag.bytes <;>
            cases hdescend : reader.descendPending <;> rfl

theorem reader_init_standing {data : Bytes} (h : treeReaderInit format limits data = .ok reader) :
    format.decode.isSome ∧ reader = .standing limits data [] 0 0 {} := by
  unfold treeReaderInit readerInit at h
  cases hdecode : format.decode with
  | none =>
    rw [hdecode] at h
    cases h
  | some decode =>
    rw [hdecode] at h
    cases h
    exact ⟨rfl, rfl⟩

/-- Pulled to its end, a reader publishes the preorder of the recursive decoding and then fails
with its failure, or with `atEnd` behind the last element. The published stream is balanced up to
the ends that a failure cuts off, and keeps the limits; a failed call stores nothing. -/
theorem tree_read_preorder {data : Bytes} (hdata : data.length ≤ sizeMax)
    (hinit : treeReaderInit format limits data = .ok reader) :
    let parse := parseSequence format limits limits.maxElements 0 0 data
    let events := parse.preorder 0
    (∀ pulls, treePulls format reader pulls =
      (events.map Except.ok).take pulls ++
        List.replicate (pulls - events.length) (Except.error (parse.failure.getD .atEnd))) ∧
    (∃ ends : List TreeEvent, (∀ event ∈ ends, event.kind = .ending) ∧
      (parse.failure = none → ends = []) ∧ Balanced 0 (events ++ ends)) ∧
    (events.filter TreeEvent.publishes).length ≤ limits.maxElements ∧
    (∀ event ∈ events, event.depth ≤ limits.maxDepth ∧ event.depth ≤ limits.capacity) ∧
    (∀ pulls, (pulledReader format reader pulls).frames.length ≤ limits.capacity) ∧
    ∀ cursor, match (nextEventInPlace format).exec cursor with
      | (.ok event, after) => treeReaderNextEvent format cursor = .ok (event, after)
      | (.error status, after) =>
        treeReaderNextEvent format cursor = .error status ∧ after = cursor := by
  obtain ⟨hformat, rfl⟩ := reader_init_standing hinit
  have hparses := parse_sequence_parses format limits limits.maxElements 0 0 data
  have hscope : scopeEnd data [] = data.length := rfl
  obtain ⟨last, hemits, hlast⟩ := @standing_reads_scope format limits data [] 0 {} hformat hdata
    _ _ _ _ _ hparses (Nat.add_zero _) rfl hscope.le (Nat.zero_le _)
    (by rw [scopeRest, hscope, List.take_length, List.drop_zero])
  have hstuck : treeReaderNextEvent format last = .error
      ((parseSequence format limits limits.maxElements 0 0 data).failure.getD .atEnd) := by
    cases hfailure : (parseSequence format limits limits.maxElements 0 0 data).failure with
    | some status =>
      rw [hfailure] at hlast
      exact hlast
    | none =>
      rw [hfailure] at hlast
      obtain ⟨pending, rfl⟩ := hlast
      exact standing_ends hformat hdata
  refine ⟨emits_pulls hemits hstuck, preorder_balanced _ 0,
    (preorder_publishes _ 0).trans hparses.elements_le,
    hparses.depth_le (Nat.zero_le _) (Nat.zero_le _), fun pulls => ?_, fun cursor => ?_⟩
  · have hstart : (TreeReader.standing limits data [] 0 0 {}).Bounded limits :=
      ⟨rfl, rfl, Nat.zero_le _, Nat.zero_le _⟩
    exact (pulled_reader_bounded hstart pulls).2.2.1
  · rw [next_event_in_place]
    cases treeReaderNextEvent format cursor with
    | ok found => rfl
    | error status => exact ⟨rfl, rfl⟩

/-- A sequence of one integer, read by five pulls of which the last two find its end. -/
theorem tree_read_preorder_ber :
    ∃ reader, sequenceOctets.length ≤ sizeMax ∧
      treeReaderInit formatBer ⟨4, 4, 8⟩ sequenceOctets = .ok reader ∧
      (treePulls formatBer reader 5).map (fun result => result.toOption.map (·.kind)) =
        [some .begin, some .element, some .ending, none, none] ∧
      treePulls formatBer reader 5 =
        (((parseSequence formatBer ⟨4, 4, 8⟩ 8 0 0 sequenceOctets).preorder 0).map
          Except.ok).take 5 ++
        List.replicate
          (5 - ((parseSequence formatBer ⟨4, 4, 8⟩ 8 0 0 sequenceOctets).preorder 0).length)
          (Except.error
            ((parseSequence formatBer ⟨4, 4, 8⟩ 8 0 0 sequenceOctets).failure.getD .atEnd)) := by
  refine ⟨_, by decide, rfl, by decide +kernel, ?_⟩
  exact (@tree_read_preorder formatBer ⟨4, 4, 8⟩ _ sequenceOctets (by decide) rfl).1 5

end Pulls

end OpenTlv
