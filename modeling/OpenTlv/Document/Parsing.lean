import OpenTlv.Document.Building

/-!
# Lists that are parsed

`document_parse_list` and `build_node` read an encoding into a forest. `Reads` says when the
encoding can be read within the limits that are left; without a refusal, `parse_list_spec` succeeds
exactly then, and the forest spells the events of the reader. A failed `build_node` gives back what
it built, so that it leaves the heap it found.
-/

namespace OpenTlv

/-- A reader at its end has nothing to publish. -/
theorem at_end_halts {format : Format} {reader : TreeReader} (h : reader.atEnd = true) :
    ∃ status, treeReaderNextEvent format reader = .error status := by
  unfold TreeReader.atEnd at h
  simp only [Bool.and_eq_true, Bool.not_eq_true', decide_eq_true_eq] at h
  obtain ⟨⟨⟨⟨hdescend, hpending⟩, hframes⟩, hfinal⟩, hpos⟩ := h
  have hnil := List.eq_nil_of_length_eq_zero hframes
  have hclose : closeEvent reader = none := close_event_root hpending hdescend hnil
  have henclosing : reader.enclosing = .ok ([], reader.input) := by
    unfold TreeReader.enclosing
    simp [hdescend, hnil]
  cases hread : readerNext format reader.input with
  | ok found =>
    obtain ⟨decoded, after⟩ := found
    have hlt := reader_next_lt hread
    omega
  | error status =>
    refine ⟨status, ?_⟩
    rw [next_event_read hclose henclosing, if_neg (by omega), hread]
    rfl

namespace Document

/-- The limits that `document_parse_list` reads with. -/
def parseLimits (document : Document) (size depth : Nat) : TreeLimits :=
  ⟨document.parseCapacity size depth, document.parseCapacity size depth,
    document.options.maxElements - document.count⟩

/-- The events of an encoding that can be read within the limits that are left. -/
def Reads (document : Document) (data : Bytes) (depth : Nat) (events : List TreeEvent) : Prop :=
  (data.length = 0 ∨ depth ≤ document.options.maxDepth) ∧
  DocumentBuilder.Fits document depth events ∧
  ∃ reader last, treeReaderInit document.options.format
      (document.parseLimits data.length depth) data = .ok reader ∧
    Emits (pullMove document.options.format) reader events last ∧ last.atEnd = true

theorem fits_left {document : Document} {start : Nat} {events more : List TreeEvent}
    (h : DocumentBuilder.Fits document start (events ++ more)) :
    DocumentBuilder.Fits document start events := by
  refine ⟨fun event hevent => h.1 event (List.mem_append_left _ hevent), ?_⟩
  have hroom := h.2
  rw [List.countP_append] at hroom
  omega

/-- What parsing a list can leave. -/
structure ParsesList (base document : Document) (parent : Option Place) (depth : Nat)
    (outer : LinkContext Place NodeData) (data : Bytes) (result : Except Status Unit)
    (after : Document) (list : LinkForest Place NodeData) : Prop where
  grows : Grows base after parent depth (outer.plug list)
  refusals : document.refusals ≤ after.refusals
  success : result = .ok () → after.refusals = document.refusals ∧
    ∃ events, document.Reads data (depth + outer.length) events ∧
      list.spell after.locations = events.map (TreeEvent.token
        ((outer.owner parent).isNone && document.options.retainSourceLocations))
  failure : ∀ status, result = .error status → after.refusals = document.refusals →
    ∀ events, ¬ document.Reads data (depth + outer.length) events

variable {base document : Document} {parent : Option Place} {depth : Nat}
  {outer : LinkContext Place NodeData} {data : Bytes}

/-- The events of an encoding are determined. -/
theorem Reads.events_left {events read : List TreeEvent} {reader after : TreeReader} {start : Nat}
    (h : document.Reads data start events)
    (hinit : treeReaderInit document.options.format (document.parseLimits data.length start) data =
      .ok reader)
    (hemits : Emits (pullMove document.options.format) reader read after) :
    ∃ rest last, events = read ++ rest ∧
      Emits (pullMove document.options.format) after rest last ∧ last.atEnd = true := by
  obtain ⟨-, -, first, last, hfirst, hall, hend⟩ := h
  rw [hinit] at hfirst
  cases hfirst
  obtain ⟨status, hstatus⟩ := @at_end_halts document.options.format last hend
  obtain ⟨rest, heq, hrest⟩ := hemits.remainder hall (pull_move_error hstatus)
  exact ⟨rest, last, heq, hrest, hend⟩

/-- A list is read below a node that has no children yet. -/
theorem Grows.parse_list (h : Grows base document parent depth (outer.plug .nil))
    (hconstructed : ∀ level ∈ outer, level.data.constructed = true) (data : Bytes) :
    ∃ result after list, document.parseList (outer.owner parent) data (depth + outer.length) =
        some (result, after) ∧ ParsesList base document parent depth outer data result after list := by
  unfold parseList
  split
  next hdeep =>
    refine ⟨_, _, _, rfl, h, Nat.le_refl _, (fun heq => by cases heq), ?_⟩
    rintro status heq - events ⟨hdepth, -⟩
    omega
  next hdeep =>
    dsimp only
    split
    · have hasks := refuse_asks document
      refine ⟨_, _, _, rfl, h.asks hasks.unedited hasks.heap hasks.count ?_, hasks.unedited.refusals,
        (fun heq => by cases heq), ?_⟩
      · rw [hasks.nextIdentity]
        exact h.available
      · intro status heq hsame
        rw [hasks.refusals] at hsame
        simp at hsame
    · obtain ⟨given, asked, hgiven, hasks⟩ : ∃ given asked,
          (if document.parseCapacity data.length (depth + outer.length) = 0 then (true, document)
            else document.allocateBuffer) = (given, asked) ∧ Asks document asked !given := by
        split
        · exact ⟨true, document, rfl, Asks.refl document⟩
        · exact allocate_buffer_asks document
      have hasked := h.asks hasks.unedited hasks.heap hasks.count
        (by rw [hasks.nextIdentity]; exact h.available)
      rw [hgiven]
      cases given with
      | false =>
        refine ⟨_, _, _, rfl, hasked, hasks.unedited.refusals, (fun heq => by cases heq), ?_⟩
        intro status heq hsame
        rw [hasks.refusals] at hsame
        simp at hsame
      | true =>
        have hrefusals : asked.refusals = document.refusals := hasks.refusals
        dsimp only
        rw [hasks.unedited.options, hasks.count]
        cases hinit : treeReaderInit document.options.format
            ⟨document.parseCapacity data.length (depth + outer.length),
              document.parseCapacity data.length (depth + outer.length),
              document.options.maxElements - document.count⟩ data with
        | error status =>
          refine ⟨_, _, _, rfl, hasked, hasks.unedited.refusals, (fun heq => by cases heq), ?_⟩
          rintro other heq - events ⟨-, -, reader, last, hok, -⟩
          rw [parseLimits, hinit] at hok
          cases hok
        | ok reader =>
          obtain ⟨input, hinput⟩ : ∃ input, reader = TreeReader.start
              (document.parseLimits data.length (depth + outer.length)) input := by
            unfold treeReaderInit at hinit
            obtain ⟨input, hread, hinit⟩ := bind_ok.mp hinit
            exact ⟨input, (Except.ok.inj hinit).symm⟩
          dsimp only
          generalize hbuilder : ({ document := asked
                                   reader := reader
                                   container := outer.owner parent
                                   targetDepth := depth + outer.length
                                   retainSourceLocations := (outer.owner parent).isNone &&
                                     document.options.retainSourceLocations } :
            DocumentBuilder) = builder
          have hdraft : DocumentBuilder.Draft base parent depth outer builder [] .nil [] := by
            subst hbuilder hinput
            refine ⟨hasked, rfl, hconstructed, (fun level hlevel => by cases hlevel), rfl, rfl,
              rfl, rfl, rfl, rfl, ?_⟩
            intro hretain
            rw [hasks.unedited.options]
            exact (Bool.and_eq_true _ _ ▸ hretain).2
          have hdocument : builder.document = asked := by rw [← hbuilder]
          have hreader : builder.reader = reader := by rw [← hbuilder]
          have hretain : builder.retainSourceLocations = ((outer.owner parent).isNone &&
              document.options.retainSourceLocations) := by rw [← hbuilder]
          have hformat : builder.document.options.format = document.options.format := by
            rw [hdocument, hasks.unedited.options]
          have hfits : ∀ events, DocumentBuilder.Fits builder.document (depth + outer.length)
              events ↔ DocumentBuilder.Fits document (depth + outer.length) events := by
            intro events
            unfold DocumentBuilder.Fits
            rw [hdocument, hasks.unedited.options, hasks.count]
          have hcount : builder.reader.count ≤ builder.reader.maxElements := by
            rw [hreader, hinput]
            exact Nat.zero_le _
          obtain ⟨result, hrun, hfinishes⟩ := DocumentBuilder.consume_tree_spec hdraft hcount
          rw [hrun]
          have hbefore : builder.document.refusals = document.refusals := by
            rw [hdocument, hrefusals]
          -- a value that reads in full fails only where memory was refused
          cases hfinishes with
          | complete hemits hdone hend hfit hsame =>
            refine ⟨_, _, _, rfl, hdone.grows, (hsame.trans hbefore).ge, ?_, ?_⟩
            · intro _
              refine ⟨hsame.trans hbefore, _, ⟨by omega, (hfits _).mp hfit, reader, _, hinit,
                ?_, hend⟩, ?_⟩
              · rw [← hformat, ← hreader]
                exact hemits
              · rw [← hretain]
                simpa [LinkContext.spellOpen] using hdone.spelled
            · intro status heq
              cases heq
          | stopped hemits hdone hpull hend hfit hkept hsame =>
            refine ⟨_, _, _, rfl, hdone.grows_outer, (hsame.trans hbefore).ge,
              (fun heq => by cases heq), ?_⟩
            intro status heq _ events hreads
            rw [hformat, hreader] at hemits
            obtain ⟨rest, last, -, hrest, hlast⟩ := hreads.events_left hinit hemits
            rw [hformat] at hpull
            obtain ⟨-, hsame⟩ := hrest.halted (pull_move_error hpull)
            rw [hsame, hend] at hlast
            cases hlast
          | limit hemits hgrows hfit hstatus hsame =>
            refine ⟨_, _, _, rfl, hgrows, (hsame.trans hbefore).ge, (fun heq => by cases heq),
              ?_⟩
            intro status heq _ events hreads
            rw [hformat, hreader] at hemits
            obtain ⟨rest, last, hall, -, -⟩ := hreads.events_left hinit hemits
            have hall' := hreads.2.1
            rw [hall] at hall'
            exact hfit ((hfits _).mpr (fits_left hall'))
          | refused hgrows hless hstatus =>
            refine ⟨_, _, _, rfl, hgrows, (hbefore ▸ hless).le, (fun heq => by cases heq), ?_⟩
            intro status heq hsame
            rw [hbefore] at hless
            exact absurd hsame hless.ne'

/-- What was built is given back. -/
theorem Grows.emptied {forest : LinkForest Place NodeData}
    (h : Grows base document parent depth forest) {heap : LinkHeap Place NodeData}
    (hcells : ∀ a, parent ≠ some a →
      heap.cells a = if a ∈ forest.addrs then none else document.heap.cells a)
    (howner : ∀ a, parent = some a → heap.cells a = (document.heap.cells a).map fun cell =>
      { cell with first := none, last := none })
    (hroot : parent = none → heap.first = none ∧ heap.last = none)
    (houter : parent ≠ none → heap.first = document.heap.first ∧ heap.last = document.heap.last) :
    Grows base { document with heap := heap, count := document.count - forest.size } parent depth
      .nil := by
  refine ⟨⟨h.unedited.options, h.unedited.revision, h.unedited.retireEpoch,
    h.unedited.queryCallbacks, h.unedited.queryPending, h.unedited.nextIdentity,
    h.unedited.refusals, h.unedited.locations⟩, ⟨⟨trivial, ?_, ?_⟩, ?_, ?_, ?_⟩, h.owner, ?_,
    List.nodup_nil, trivial, (fun item hitem => by cases hitem), ?_, ?_, .inl rfl, List.nodup_nil, ?_,
    h.available⟩
  · cases parent with
    | none => exact congrArg some (hroot rfl).1
    | some p =>
      obtain ⟨cell, hcell, -⟩ := h.edit.lists.owner_live rfl
      simp [LinkHeap.firstOf, howner p rfl, hcell]
  · cases parent with
    | none => exact congrArg some (hroot rfl).2
    | some p =>
      obtain ⟨cell, hcell, -⟩ := h.edit.lists.owner_live rfl
      simp [LinkHeap.lastOf, howner p rfl, hcell]
  · intro a ha
    show heap.cells a = _
    rw [howner a ha, h.edit.owner a ha]
    cases base.heap.cells a <;> rfl
  · intro hne
    exact ⟨(houter hne).1.trans (h.edit.root hne).1, (houter hne).2.trans (h.edit.root hne).2⟩
  · intro a ha _ _
    show heap.cells a = _
    rw [hcells a ha]
    split
    next hmem => exact (h.fresh a hmem).1.symm
    next hmem => exact h.edit.frame a ha (by simp) hmem
  · intro a ha
    cases ha
  · show document.count - forest.size = base.count + 0
    rw [h.count]
    omega
  · have hroom := h.room
    show document.count - forest.size ≤ document.options.maxElements
    omega
  · intro identity hidentity
    cases hidentity

/-- A node that was built is taken out of its list and given back. -/
theorem Grows.drop_node {node : Place} {item : NodeData} {inner : LinkForest Place NodeData}
    (h : Grows base document parent depth (.single node item inner)) :
    ∃ unlinked heap, document.heap.unlink node = some unlinked ∧
      unlinked.subtreeSize document.bound node = some (inner.size + 1) ∧
      unlinked.freeSubtree document.bound node = some heap ∧
      Grows base { document with heap := heap, count := document.count - (inner.size + 1) } parent
        depth .nil := by
  have hsize : (LinkForest.single node item inner).size = inner.size + 1 := rfl
  have hlists : Lists document.heap parent (LinkForest.nil.append (.node node item inner .nil)) :=
    h.edit.lists
  obtain ⟨unlinked, hunlink, hedit, hnode⟩ := hlists.unlink_at h.nodup
    fun p hp => h.not_mem (h.owner p hp)
  have haddrs : (LinkForest.single node item inner).addrs = node :: inner.addrs := by
    simp [LinkForest.single]
  have hnodup : (node :: inner.addrs).Nodup := haddrs ▸ h.nodup
  have hbound : 2 * inner.size + 2 ≤ document.bound := by
    have hcount := h.count
    have hroom := h.room
    unfold bound
    omega
  have hcount := Holds.subtree_size hnode.1 rfl hnode.2.1 (List.nodup_cons.mp hnodup).1
    (show inner.size < document.bound by omega)
  have hfree := Holds.free_subtree hnode.1 rfl hnode.2.1 hnodup
    (show 2 * inner.size < document.bound by omega)
  refine ⟨unlinked, _, hunlink, hcount, hfree, ?_⟩
  have hkeep : ∀ a, (base.heap.cells a).isSome → a ∉ node :: inner.addrs := by
    intro a ha
    rw [← haddrs]
    exact h.not_mem ha
  refine h.emptied ?_ ?_ ?_ ?_
  · intro a ha
    rw [haddrs]
    show (if a ∈ node :: inner.addrs then none else unlinked.cells a) = _
    split
    · rfl
    next hmem =>
      exact hedit.frame a ha (by simpa using hmem) (by simp [LinkForest.append])
  · intro a ha
    rw [LinkHeap.without_cells (hkeep a (h.owner a ha)), hedit.owner a ha]
    rfl
  · intro hnone
    subst hnone
    exact ⟨Option.some.inj hedit.lists.first, Option.some.inj hedit.lists.last⟩
  · exact fun hne => hedit.root hne

theorem reads_congr {other : Document} (hoptions : other.options = document.options)
    (hcount : other.count = document.count) {start : Nat} {events : List TreeEvent} :
    other.Reads data start events ↔ document.Reads data start events := by
  unfold Reads DocumentBuilder.Fits parseLimits parseCapacity
  rw [hoptions, hcount]

/-- The events that the value of a new node is read as. -/
def ReadsValue (document : Document) (tag value : Bytes) (depth : Nat) (events : List TreeEvent) :
    Prop :=
  if document.options.format.constructs tag ∧ value ≠ [] then
    depth ≠ document.options.maxDepth ∧
      { document with count := document.count + 1 }.Reads value (depth + 1) events
  else events = []

/-- A node with this tag and value can be built within the limits that are left. -/
def Builds (document : Document) (tag value : Bytes) (depth : Nat) (events : List TreeEvent) :
    Prop :=
  depth ≤ document.options.maxDepth ∧ document.count < document.options.maxElements ∧
    document.ReadsValue tag value depth events

/-- What `build_node` leaves. -/
inductive BuildsNode (base document : Document) (parent : Option Place) (depth : Nat)
    (tag value : Bytes) : DocumentResult Place → Prop where
  | built {node : Place} {item : NodeData} {inner : LinkForest Place NodeData} {after : Document}
      {events : List TreeEvent} (hgrows : Grows base after parent depth (.single node item inner))
      (hitem : item.tag = tag ∧ item.constructed = document.options.format.constructs tag ∧
        item.value = if document.options.format.constructs tag then [] else value)
      (hbuilds : document.Builds tag value depth events)
      (hspell : inner.spell after.locations = events.map (TreeEvent.token false))
      (hrefusals : after.refusals = document.refusals) :
      BuildsNode base document parent depth tag value (.ok node, after)
  | failed {status : Status} {after : Document} (hgrows : Grows base after parent depth .nil)
      (hrefusals : document.refusals ≤ after.refusals)
      (hfails : after.refusals = document.refusals → ∀ events,
        ¬ document.Builds tag value depth events) :
      BuildsNode base document parent depth tag value (.error status, after)

/-- A parsed element joins the list with its contents or fails. -/
theorem Grows.build_node (h : Grows base document parent depth .nil) (tag value : Bytes) :
    ∃ result, document.buildNode parent tag value depth = some result ∧
      BuildsNode base document parent depth tag value result := by
  have hstart : Grows base document parent depth (LinkContext.plug [] .nil) := h
  obtain ⟨result, hcreate, hadds⟩ := hstart.create (fun level hlevel => by cases hlevel) tag value
    (document.options.format.constructs tag)
  have hcall : document.createNode parent tag value (document.options.format.constructs tag) depth =
      some result := hcreate
  unfold buildNode
  dsimp only
  rw [hcall]
  cases hadds with
  | limit hlimit =>
    refine ⟨_, rfl, .failed h (Nat.le_refl _) ?_⟩
    rintro - events ⟨hdepth, hroom, -⟩
    have hlimit' : depth + 0 > document.options.maxDepth ∨
      document.count ≥ document.options.maxElements := hlimit
    omega
  | refused hgrows hlocations hrefusals hstatus =>
    exact ⟨_, rfl, .failed hgrows hrefusals.le fun hsame => absurd hsame hrefusals.ne'⟩
  | @added node item after hgrows hdata hlocations hlocation hrefusals hcount hdepth hroom =>
    have hoptions : after.options = document.options :=
      hgrows.unedited.options.trans h.unedited.options.symm
    have hitem : item.tag = tag ∧ item.constructed = document.options.format.constructs tag ∧
        item.value = if document.options.format.constructs tag then [] else value :=
      ⟨hdata.1, hdata.2.2, hdata.2.1⟩
    have hreads : ∀ {start : Nat} {events : List TreeEvent}, after.Reads value start events ↔
        { document with count := document.count + 1 }.Reads value start events := by
      intro start events
      exact @reads_congr { document with count := document.count + 1 } _ after hoptions hcount _ _
    have hsingle : Grows base after parent depth (.single node item .nil) := hgrows
    by_cases hvalue : document.options.format.constructs tag = true ∧ value ≠ []
    · simp only [Option.bind_eq_bind, Option.bind_some, if_pos hvalue]
      by_cases hdeep : depth = after.options.maxDepth
      · obtain ⟨unlinked, heap, hunlink, hsize, hfree, hdropped⟩ := hsingle.drop_node
        refine ⟨(.error .limit, _), ?_, .failed hdropped hrefusals.ge ?_⟩
        · rw [if_pos hdeep]
          simp only [Option.bind_some, hunlink, hsize, hfree]
          rfl
        · rintro - events ⟨-, -, hread⟩
          rw [ReadsValue, if_pos hvalue, ← hoptions] at hread
          exact hread.1 hdeep
      · have hconstructed : ∀ level ∈ [(⟨node, item, .nil, .nil⟩ : LinkLevel Place NodeData)],
            level.data.constructed = true := by
          intro level hlevel
          rw [List.mem_singleton.mp hlevel]
          exact hitem.2.1.trans hvalue.1
        obtain ⟨result, parsed, list, hparse, hparses⟩ :=
          @Grows.parse_list _ _ _ _ [⟨node, item, .nil, .nil⟩] hgrows hconstructed value
        have hcall' : after.parseList (some node) value (depth + 1) = some (result, parsed) :=
          hparse
        rw [if_neg hdeep, hcall']
        have hbuilt : Grows base parsed parent depth (.single node item list) := hparses.grows
        cases result with
        | ok done =>
          obtain ⟨hsame, events, hread, hspell⟩ := hparses.success rfl
          refine ⟨_, rfl, .built hbuilt hitem ⟨by omega, hroom, ?_⟩ hspell
            (hsame.trans hrefusals)⟩
          rw [ReadsValue, if_pos hvalue]
          exact ⟨hoptions ▸ hdeep, hreads.mp hread⟩
        | error status =>
          obtain ⟨unlinked, heap, hunlink, hsize, hfree, hdropped⟩ := hbuilt.drop_node
          refine ⟨(.error status, _), ?_, .failed hdropped (hrefusals ▸ hparses.refusals) ?_⟩
          · simp only [Option.bind_some, hunlink, hsize, hfree]
            rfl
          · rintro hsame events ⟨-, -, hread⟩
            rw [ReadsValue, if_pos hvalue] at hread
            exact hparses.failure status rfl (hsame.trans hrefusals.symm) events
              (hreads.mpr hread.2)
    · refine ⟨_, ?_, @BuildsNode.built _ _ _ _ _ _ _ _ _ _ [] hsingle hitem ⟨hdepth, hroom, ?_⟩ rfl
        hrefusals⟩
      · simp only [Option.bind_eq_bind, Option.bind_some, if_neg hvalue]
        rfl
      · rw [ReadsValue, if_neg hvalue]

end Document

end OpenTlv
