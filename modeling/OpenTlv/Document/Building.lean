import OpenTlv.Document.Growth
import OpenTlv.Reader.Chunking

/-!
# Trees from events

`consume_tree` turns the events of a tree reader into nodes. A forest that is built has an open
end: the nodes that were begun and not ended, each the last one of its list. `Draft` keeps these as
a context, together with what was read as tokens; the open groups of the reader are the levels of
the context, so that no end is ever without the node that it ends. `consume_tree_spec` says where a
run of the loop stops.
-/

namespace OpenTlv

/-- What an event tells of a node. -/
inductive NodeToken where
  | opened (tag : Bytes) (location : SourceLocation)
  | leaf (tag value : Bytes) (location : SourceLocation)
  | closed
  deriving Repr, DecidableEq

/-- The tokens of a forest whose nodes have their locations by address. -/
def LinkForest.spell (locations : Place → SourceLocation) :
    LinkForest Place NodeData → List NodeToken
  | .nil => []
  | .node addr data inner rest =>
    if data.constructed then
      .opened data.tag (locations addr) ::
        (inner.spell locations ++ .closed :: rest.spell locations)
    else .leaf data.tag data.value (locations addr) :: rest.spell locations

/-- The tokens ahead of a list that is still open. -/
def LinkContext.spellOpen (locations : Place → SourceLocation) :
    LinkContext Place NodeData → List NodeToken
  | [] => []
  | level :: outer =>
    spellOpen locations outer ++
      (level.left.spell locations ++ [.opened level.data.tag (locations level.addr)])

/-- The token of an event, with its location where locations are retained. -/
def TreeEvent.token (retain : Bool) (event : TreeEvent) : NodeToken :=
  let location := if retain then event.item.location else {}
  match event.kind with
  | .begin => .opened event.decoded.tag.bytes location
  | .element => .leaf event.decoded.tag.bytes event.decoded.value.bytes location
  | .ending => .closed

/-- The groups that a reader has begun and not ended. -/
def TreeReader.opens (reader : TreeReader) : Nat :=
  reader.frames.length + (if reader.descendPending then 1 else 0) +
    if reader.endPending then 1 else 0

section Spell

variable {locations locations' : Place → SourceLocation} {forest other : LinkForest Place NodeData}
  {context : LinkContext Place NodeData}

/-- The tokens of two lists follow one another. -/
theorem spell_append :
    (forest.append other).spell locations = forest.spell locations ++ other.spell locations := by
  induction forest with
  | nil => rfl
  | node addr data inner rest _ ih =>
    simp only [LinkForest.append, LinkForest.spell, ih]
    split <;> simp

/-- The tokens depend only on the locations of the nodes. -/
theorem spell_congr (h : ∀ a ∈ forest.addrs, locations' a = locations a) :
    forest.spell locations' = forest.spell locations := by
  induction forest with
  | nil => rfl
  | node addr data inner rest ihinner ihrest =>
    simp only [LinkForest.spell, h addr (by simp),
      ihinner fun a ha => h a (by simp [ha]), ihrest fun a ha => h a (by simp [ha])]

theorem spell_open_congr (h : ∀ a ∈ context.addrs, locations' a = locations a) :
    context.spellOpen locations' = context.spellOpen locations := by
  induction context with
  | nil => rfl
  | cons level outer ih =>
    rw [LinkContext.addrs_cons] at h
    have hleft : level.left.spell locations' = level.left.spell locations :=
      spell_congr fun a ha => h a (by simp [ha])
    simp only [LinkContext.spellOpen, h level.addr (by simp), hleft,
      ih fun a ha => h a (by simp [ha])]

/-- A token without its location. -/
def NodeToken.plain : NodeToken → NodeToken
  | .opened tag _ => .opened tag {}
  | .leaf tag value _ => .leaf tag value {}
  | .closed => .closed

theorem spell_plain (forest : LinkForest Place NodeData) (locations : Place → SourceLocation) :
    forest.spell (fun _ => {}) = (forest.spell locations).map NodeToken.plain := by
  induction forest with
  | nil => rfl
  | node addr data inner rest ihinner ihrest =>
    simp only [LinkForest.spell, ihinner, ihrest]
    split <;> simp [NodeToken.plain]

theorem tokens_plain (events : List TreeEvent) :
    (events.map (TreeEvent.token false)).map NodeToken.plain =
      events.map (TreeEvent.token false) := by
  rw [List.map_map]
  refine List.map_congr_left fun event _ => ?_
  simp only [Function.comp, TreeEvent.token, Bool.false_eq_true, if_false]
  cases event.kind <;> rfl

end Spell

section Reader

variable {format : Format} {reader next : TreeReader} {event : TreeEvent}

/-- Closing a value lowers the number of open ones. -/
theorem close_event_opens (h : closeEvent reader = some (event, next))
    (hskipped : reader.skipped = false) :
    event.kind = .ending ∧ event.skipped = false ∧ next.skipped = false ∧
      next.opens + 1 = reader.opens := by
  rcases close_event_cases h with ⟨hend, rfl, rfl⟩ |
    ⟨hend, hdescend, frame, outer, hframes, rfl, rfl⟩
  · refine ⟨rfl, hskipped, rfl, ?_⟩
    simp only [TreeReader.opens, TreeReader.leave, hend]
    rfl
  · exact ⟨rfl, rfl, hskipped,
      by simp [TreeReader.opens, TreeReader.leave, hend, hdescend, hframes]⟩

/-- An end closes a group that is open, and an element lies below all open groups. -/
theorem next_event_opens (h : treeReaderNextEvent format reader = .ok (event, next))
    (hskipped : reader.skipped = false) :
    event.skipped = false ∧ next.skipped = false ∧
      (event.kind = .ending → next.opens + 1 = reader.opens) ∧
      (event.kind = .begin → next.opens = reader.opens + 1) ∧
      (event.kind = .element → next.opens = reader.opens) ∧
      (event.kind ≠ .ending → event.depth = reader.opens) := by
  rcases next_event_cases h with hclosed |
    ⟨hclosed, frames, input, decoded, after, henclosing, -, -, hpublish⟩
  · obtain ⟨hkind, hevent, hnext, hopens⟩ := close_event_opens hclosed hskipped
    rw [hkind]
    exact ⟨hevent, hnext, fun _ => hopens, (fun h => by cases h), (fun h => by cases h),
      fun h => absurd rfl h⟩
  · have hend : reader.endPending = false := by
      cases hend : reader.endPending with
      | false => rfl
      | true =>
        rw [close_event_pending hend] at hclosed
        cases hclosed
    have hopens : frames.length = reader.opens := by
      simp only [TreeReader.opens, hend]
      exact enclosing_length henclosing
    generalize format.constructs decoded.tag.bytes = constructed at hpublish
    cases constructed with
    | false =>
      cases hpublish
      exact ⟨rfl, hskipped, (fun h => by cases h), (fun h => by cases h),
        fun _ => hopens ▸ rfl, fun _ => hopens⟩
    | true =>
      cases hpublish
      refine ⟨rfl, hskipped, (fun h => by cases h), ?_, (fun h => by cases h), fun _ => hopens⟩
      intro _
      rw [← hopens]
      by_cases hvalue : decoded.value.bytes.length = 0
      · simp [TreeReader.opens, hvalue]
      · simp [TreeReader.opens, hvalue]

end Reader

namespace DocumentBuilder

/-- A forest below `parent` whose last nodes are open: `levels` are those that the builder has
begun, inside of the nodes of `outer`, and `list` is what the innermost one holds so far. -/
structure Draft (base : Document) (parent : Option Place) (depth : Nat)
    (outer : LinkContext Place NodeData) (builder : DocumentBuilder)
    (levels : LinkContext Place NodeData) (list : LinkForest Place NodeData)
    (tokens : List NodeToken) : Prop where
  grows : Document.Grows base builder.document parent depth
    (LinkContext.plug (levels ++ outer) list)
  container : builder.container = LinkContext.owner parent (levels ++ outer)
  constructed : ∀ level ∈ levels ++ outer, level.data.constructed = true
  last : ∀ level ∈ levels, level.right = .nil
  spelled : LinkContext.spellOpen builder.document.locations levels ++
    list.spell builder.document.locations = tokens
  opens : builder.reader.opens = levels.length
  skipped : builder.reader.skipped = false
  subtree : builder.subtree = false
  sourceDepth : builder.sourceDepth = 0
  targetDepth : builder.targetDepth = depth + outer.length
  retain : builder.retainSourceLocations = true → builder.document.options.retainSourceLocations

variable {base : Document} {parent : Option Place} {depth : Nat}
  {outer levels : LinkContext Place NodeData} {builder : DocumentBuilder}
  {list : LinkForest Place NodeData} {tokens : List NodeToken}

/-- What is built so far lies inside of the outer nodes. -/
theorem Draft.grows_outer (h : Draft base parent depth outer builder levels list tokens) :
    Document.Grows base builder.document parent depth (outer.plug (levels.plug list)) := by
  rw [← LinkContext.plug_append]
  exact h.grows

theorem Draft.and_nothing (h : Draft base parent depth outer builder levels list tokens)
    {retain : Bool} :
    Draft base parent depth outer builder levels list
      (tokens ++ ([] : List TreeEvent).map (TreeEvent.token retain)) := by
  rw [List.map_nil, List.append_nil]
  exact h

/-- What one event does to a builder whose reader was pulled. -/
inductive Consumes (base : Document) (parent : Option Place) (depth : Nat)
    (outer : LinkContext Place NodeData) (builder : DocumentBuilder) (tokens : List NodeToken)
    (event : TreeEvent) : BuilderResult → Prop where
  | consumed {after : DocumentBuilder} {levels : LinkContext Place NodeData}
      {list : LinkForest Place NodeData}
      (hdraft : Draft base parent depth outer after levels list
        (tokens ++ [event.token builder.retainSourceLocations]))
      (hreader : after.reader = builder.reader)
      (hretain : after.retainSourceLocations = builder.retainSourceLocations)
      (hrefusals : after.document.refusals = builder.document.refusals)
      (hcount : after.document.count =
        builder.document.count + if event.publishes then 1 else 0)
      (hwithin : event.publishes = true →
        depth + outer.length + event.depth ≤ builder.document.options.maxDepth ∧
          builder.document.count < builder.document.options.maxElements) :
      Consumes base parent depth outer builder tokens event (.ok (), after)
  | limit {status : Status} {list : LinkForest Place NodeData}
      (hgrows : Document.Grows base builder.document parent depth (outer.plug list))
      (hpublishes : event.publishes = true) (hstatus : status ≠ .needMoreData)
      (hlimit : depth + outer.length + event.depth > builder.document.options.maxDepth ∨
        builder.document.count ≥ builder.document.options.maxElements) :
      Consumes base parent depth outer builder tokens event (.error status, builder)
  | refused {status : Status} {after : DocumentBuilder} {list : LinkForest Place NodeData}
      (hgrows : Document.Grows base after.document parent depth (outer.plug list))
      (hrefusals : builder.document.refusals < after.document.refusals)
      (hstatus : status ≠ .needMoreData) :
      Consumes base parent depth outer builder tokens event (.error status, after)

/-- An end leaves the innermost node that is open. -/
theorem Draft.close (h : Draft base parent depth outer builder levels list tokens)
    {event : TreeEvent} {next : TreeReader} (hkind : event.kind = .ending)
    (hopens : next.opens + 1 = builder.reader.opens) (hskipped : event.skipped = false)
    (hnext : next.skipped = false) :
    ∃ result, closeItem { builder with reader := next } event = some result ∧
      Consumes base parent depth outer { builder with reader := next } tokens event result := by
  cases levels with
  | nil =>
    have hzero := h.opens
    simp only [List.length_nil] at hzero
    omega
  | cons level levels =>
    have hcell := LinkContext.holds_owner h.grows.edit.lists.holds
    have hcontainer : builder.container = some level.addr := h.container
    have hright : level.right = .nil := h.last level List.mem_cons_self
    have hconstructed := h.constructed level List.mem_cons_self
    refine ⟨_, by simp only [closeItem, hskipped, hcontainer, hcell]; rfl, ?_⟩
    have hforest : LinkContext.plug (level :: levels ++ outer) list =
        LinkContext.plug (levels ++ outer)
          (level.left.append (.single level.addr level.data list)) := by
      rw [List.cons_append, LinkContext.plug, hright]
      rfl
    refine @Consumes.consumed _ _ _ _ _ _ _ _ levels
      (level.left.append (.single level.addr level.data list)) ⟨?_, ?_, ?_, ?_, ?_, ?_,
      hnext, h.subtree, h.sourceDepth, h.targetDepth, h.retain⟩ rfl rfl rfl ?_ ?_
    · rw [← hforest]
      exact h.grows
    · rfl
    · exact fun other hother => h.constructed other (List.mem_cons_of_mem _ hother)
    · exact fun other hother => h.last other (List.mem_cons_of_mem _ hother)
    · rw [← h.spelled]
      simp [spell_append, LinkContext.spellOpen, LinkForest.single, LinkForest.spell,
        hconstructed, TreeEvent.token, hkind]
    · have hlength := h.opens
      simp only [List.length_cons] at hlength
      show next.opens = levels.length
      omega
    · simp [TreeEvent.publishes, hkind]
    · intro hpublishes
      simp [TreeEvent.publishes, hkind] at hpublishes

/-- A document after a new node was put behind the last one that is open, with its location. -/
structure Appended (base : Document) (parent : Option Place) (depth : Nat)
    (context : LinkContext Place NodeData) (list : LinkForest Place NodeData)
    (builder : DocumentBuilder) (event : TreeEvent) (node : Place) (data : NodeData)
    (placed : Document) : Prop where
  grows : Document.Grows base placed parent depth
    (context.plug (list.append (.single node data .nil)))
  data : data.tag = event.decoded.tag.bytes ∧
    data.value = (if event.item.constructed then [] else event.decoded.value.bytes) ∧
      data.constructed = event.item.constructed
  refusals : placed.refusals = builder.document.refusals
  count : placed.count = builder.document.count + 1
  depth : depth + context.length ≤ builder.document.options.maxDepth
  room : builder.document.count < builder.document.options.maxElements
  self : placed.locations node =
    if builder.retainSourceLocations then event.item.location else {}
  old : ∀ a ∈ (context.plug list).addrs, placed.locations a = builder.document.locations a

/-- The location of a node that was added is set where locations are retained. -/
theorem appended_of_added {context : LinkContext Place NodeData} {event : TreeEvent}
    {node : Place} {data : NodeData} {after : Document}
    (hgrows : Document.Grows base after parent depth
      (context.plug (list.append (.single node data .nil))))
    (hdata : data.tag = event.decoded.tag.bytes ∧
      data.value = (if event.item.constructed then [] else event.decoded.value.bytes) ∧
        data.constructed = event.item.constructed)
    (hlocations : ∀ a ∈ (context.plug list).addrs,
      after.locations a = builder.document.locations a)
    (hlocation : after.locations node = {})
    (hrefusals : after.refusals = builder.document.refusals)
    (hcount : after.count = builder.document.count + 1)
    (hdepth : depth + context.length ≤ builder.document.options.maxDepth)
    (hroom : builder.document.count < builder.document.options.maxElements) :
    Appended base parent depth context list builder event node data
      (if builder.retainSourceLocations then after.setLocation node event.item.location
        else after) := by
  have hmem : node ∈ (context.plug (list.append (.single node data .nil))).addrs := by
    rw [(LinkContext.addrs_plug _ _).mem_iff]
    exact List.mem_append_right _ (by simp [LinkForest.single])
  by_cases hretain : builder.retainSourceLocations = true
  · rw [if_pos hretain]
    refine ⟨hgrows.locate hmem _, hdata, hrefusals, hcount, hdepth, hroom, ?_, fun a ha => ?_⟩
    · rw [if_pos hretain]
      exact if_pos rfl
    · have hne : a ≠ node := by
        rintro rfl
        have hnodup := (LinkContext.addrs_plug_single _ _ _ _).nodup_iff.mp hgrows.nodup
        exact (List.nodup_cons.mp hnodup).1 ha
      exact (if_neg hne).trans (hlocations a ha)
  · rw [if_neg hretain]
    exact ⟨hgrows, hdata, hrefusals, hcount, hdepth, hroom, by rw [if_neg hretain]; exact hlocation,
      hlocations⟩

/-- The nodes of a draft are spelled as before. -/
theorem Draft.spelled_after (h : Draft base parent depth outer builder levels list tokens)
    {locations : Place → SourceLocation}
    (hold : ∀ a ∈ (LinkContext.plug (levels ++ outer) list).addrs,
      locations a = builder.document.locations a) :
    LinkContext.spellOpen locations levels ++ list.spell locations = tokens := by
  rw [← h.spelled]
  refine congrArg₂ _ (spell_open_congr fun a ha => hold a ?_) (spell_congr fun a ha => hold a ?_)
  · rw [(LinkContext.addrs_plug _ _).mem_iff]
    refine List.mem_append_left _ ?_
    simp only [LinkContext.addrs, LinkContext.items_append, List.map_append]
    exact List.mem_append_left _ ha
  · rw [(LinkContext.addrs_plug _ _).mem_iff]
    exact List.mem_append_right _ ha

/-- An element stands behind the list that is open, a begin opens the list of its node. -/
theorem Draft.appended (h : Draft base parent depth outer builder levels list tokens)
    {event : TreeEvent} {next : TreeReader} {node : Place} {data : NodeData} {placed : Document}
    (hkind : event.kind ≠ .ending) (hdepth : event.depth = levels.length)
    (hopens : next.opens = levels.length + if event.kind = .begin then 1 else 0)
    (hnext : next.skipped = false)
    (hplaced : Appended base parent depth (levels ++ outer) list builder event node data placed) :
    Consumes base parent depth outer { builder with reader := next } tokens event
      (.ok (), { builder with
        reader := next
        document := placed
        container := if event.item.constructed then some node else builder.container }) := by
  have hpublishes : event.publishes = true := by simpa [TreeEvent.publishes] using hkind
  have hspell := h.spelled_after hplaced.old
  have hself := hplaced.self
  have hdata := hplaced.data
  have hcounted : placed.count =
      builder.document.count + if event.publishes then 1 else 0 := by
    rw [hplaced.count, if_pos hpublishes]
  have hbounds : event.publishes = true →
      depth + outer.length + event.depth ≤ builder.document.options.maxDepth ∧
        builder.document.count < builder.document.options.maxElements := by
    intro _
    have hwithin := hplaced.depth
    rw [List.length_append] at hwithin
    exact ⟨by omega, hplaced.room⟩
  have hretain : builder.retainSourceLocations = true →
      placed.options.retainSourceLocations := by
    rw [hplaced.grows.unedited.options, ← h.grows.unedited.options]
    exact h.retain
  cases hcase : event.kind with
  | ending => exact absurd hcase hkind
  | element =>
    have hitem : event.item.constructed = false := by simp [TreeEvent.item, hcase]
    refine @Consumes.consumed _ _ _ _ _ _ _ _ levels (list.append (.single node data .nil))
      ⟨hplaced.grows, ?_, h.constructed, h.last, ?_, ?_, hnext, h.subtree, h.sourceDepth,
        h.targetDepth, hretain⟩ rfl rfl hplaced.refusals hcounted hbounds
    · show (if event.item.constructed then some node else builder.container) = _
      rw [hitem]
      exact h.container
    · rw [spell_append, ← List.append_assoc, hspell]
      simp [LinkForest.single, LinkForest.spell, hdata, hitem, TreeEvent.token, hcase, hself]
    · show next.opens = levels.length
      rw [hopens, hcase]
      rfl
  | begin =>
    have hitem : event.item.constructed = true := by simp [TreeEvent.item, hcase]
    refine @Consumes.consumed _ _ _ _ _ _ _ _ (⟨node, data, list, .nil⟩ :: levels) .nil
      ⟨hplaced.grows, ?_, ?_, ?_, ?_, ?_, hnext, h.subtree, h.sourceDepth, h.targetDepth,
        hretain⟩ rfl rfl hplaced.refusals hcounted hbounds
    · show (if event.item.constructed then some node else builder.container) = _
      rw [hitem]
      rfl
    · intro level hlevel
      rcases List.mem_cons.mp hlevel with rfl | hlevel
      · exact hdata.2.2.trans hitem
      · exact h.constructed level hlevel
    · intro level hlevel
      rcases List.mem_cons.mp hlevel with rfl | hlevel
      · rfl
      · exact h.last level hlevel
    · rw [LinkContext.spellOpen, ← List.append_assoc, hspell]
      simp [LinkForest.spell, hdata, TreeEvent.token, hcase, hself]
    · show next.opens = levels.length + 1
      rw [hopens, hcase]
      rfl

/-- A begin or an element enters the innermost node that is open. -/
theorem Draft.append (h : Draft base parent depth outer builder levels list tokens)
    {event : TreeEvent} {next : TreeReader} (hkind : event.kind ≠ .ending)
    (hdepth : event.depth = builder.reader.opens)
    (hopens : next.opens = builder.reader.opens + if event.kind = .begin then 1 else 0)
    (hnext : next.skipped = false) :
    ∃ result, appendItem { builder with reader := next } event.item = some result ∧
      Consumes base parent depth outer { builder with reader := next } tokens event result := by
  have hpublishes : event.publishes = true := by simpa [TreeEvent.publishes] using hkind
  have hlevel : event.depth = levels.length := hdepth.trans h.opens
  have htarget := h.targetDepth
  have hsource := h.sourceDepth
  have hsum : builder.targetDepth + (event.depth - builder.sourceDepth) =
      depth + (levels ++ outer).length := by
    rw [htarget, hsource, hlevel, List.length_append]
    omega
  have hmax := builder.document.options.maxDepth_le
  unfold appendItem
  rw [if_neg (by rw [hsource]; exact Nat.not_lt_zero _)]
  split
  next hover =>
    refine ⟨_, rfl, .limit h.grows_outer hpublishes (by decide) (.inl ?_)⟩
    rw [hsource, htarget] at hover
    have hover' : event.depth - 0 > sizeMax - (depth + outer.length) := hover
    show depth + outer.length + event.depth > builder.document.options.maxDepth
    omega
  next hover =>
    have hhead : ∀ level, (levels ++ outer).head? = some level →
        level.data.constructed = true := fun level hlevel =>
      h.constructed level (List.mem_of_mem_head? hlevel)
    obtain ⟨result, hcreate, hadds⟩ := h.grows.create hhead event.decoded.tag.bytes
      event.decoded.value.bytes event.item.constructed
    have hcall : builder.document.createNode builder.container event.item.decoded.tag.bytes
        event.item.decoded.value.bytes event.item.constructed
        (builder.targetDepth + (event.item.depth - builder.sourceDepth)) = some result := by
      rw [h.container]
      exact (congrArg _ hsum).trans hcreate
    rw [hcall]
    cases hadds with
    | limit hlimit =>
      refine ⟨_, rfl, .limit h.grows_outer hpublishes (by decide) ?_⟩
      rw [List.length_append] at hlimit
      show depth + outer.length + event.depth > builder.document.options.maxDepth ∨ _
      rw [hlevel]
      exact hlimit.imp_left fun hlt => by omega
    | refused hgrows hlocations hrefusals hstatus =>
      rw [LinkContext.plug_append] at hgrows
      exact ⟨_, rfl, .refused hgrows hrefusals hstatus⟩
    | added hgrows hdata hlocations hlocation hrefusals hcount hwithin hroom =>
      exact ⟨_, rfl, h.appended hkind hlevel (by rw [hopens, h.opens]) hnext
        (appended_of_added hgrows hdata hlocations hlocation hrefusals hcount hwithin hroom)⟩

/-- One event, with the pull that published it. -/
theorem Draft.consume (h : Draft base parent depth outer builder levels list tokens)
    {event : TreeEvent} {next : TreeReader}
    (hpull : treeReaderNextEvent builder.document.options.format builder.reader =
      .ok (event, next)) :
    ∃ result, consumeEvent { builder with reader := next } event = some result ∧
      Consumes base parent depth outer { builder with reader := next } tokens event result := by
  obtain ⟨hevent, hnext, hending, hbegin, helement, hdepth⟩ := next_event_opens hpull h.skipped
  unfold consumeEvent
  cases hkind : event.kind with
  | ending => exact h.close hkind (hending hkind) hevent hnext
  | begin =>
    have hnot : event.kind ≠ .ending := by rw [hkind]; exact fun heq => by cases heq
    exact h.append hnot (hdepth hnot) (by rw [hbegin hkind, hkind]; rfl) hnext
  | element =>
    have hnot : event.kind ≠ .ending := by rw [hkind]; exact fun heq => by cases heq
    exact h.append hnot (hdepth hnot) (by rw [helement hkind, hkind]; rfl) hnext

/-- The elements of events fit into the limits of a document when they start at some depth. -/
def Fits (document : Document) (start : Nat) (events : List TreeEvent) : Prop :=
  (∀ event ∈ events, event.publishes = true →
    start + event.depth ≤ document.options.maxDepth) ∧
  document.count + events.countP TreeEvent.publishes ≤ document.options.maxElements

/-- Where a run of `consume_tree` stops. -/
inductive Finishes (base : Document) (parent : Option Place) (depth : Nat)
    (outer : LinkContext Place NodeData) (builder : DocumentBuilder) (tokens : List NodeToken) :
    BuilderResult → Prop where
  | complete {after : DocumentBuilder} {events : List TreeEvent}
      {list : LinkForest Place NodeData}
      (hemits : Emits (pullMove builder.document.options.format) builder.reader events after.reader)
      (hdraft : Draft base parent depth outer after [] list
        (tokens ++ events.map (TreeEvent.token builder.retainSourceLocations)))
      (hend : after.reader.atEnd = true)
      (hfits : Fits builder.document (depth + outer.length) events)
      (hrefusals : after.document.refusals = builder.document.refusals) :
      Finishes base parent depth outer builder tokens (.ok (), after)
  | stopped {status : Status} {after : DocumentBuilder} {events : List TreeEvent}
      {levels : LinkContext Place NodeData} {list : LinkForest Place NodeData}
      (hemits : Emits (pullMove builder.document.options.format) builder.reader events after.reader)
      (hdraft : Draft base parent depth outer after levels list
        (tokens ++ events.map (TreeEvent.token builder.retainSourceLocations)))
      (hpull : treeReaderNextEvent builder.document.options.format after.reader = .error status)
      (hend : after.reader.atEnd = false)
      (hfits : Fits builder.document (depth + outer.length) events)
      (hretain : after.retainSourceLocations = builder.retainSourceLocations)
      (hrefusals : after.document.refusals = builder.document.refusals) :
      Finishes base parent depth outer builder tokens (.error status, after)
  | limit {status : Status} {after : DocumentBuilder} {events : List TreeEvent}
      {list : LinkForest Place NodeData}
      (hemits : Emits (pullMove builder.document.options.format) builder.reader events after.reader)
      (hgrows : Document.Grows base after.document parent depth (outer.plug list))
      (hfits : ¬ Fits builder.document (depth + outer.length) events)
      (hstatus : status ≠ .needMoreData)
      (hrefusals : after.document.refusals = builder.document.refusals) :
      Finishes base parent depth outer builder tokens (.error status, after)
  | refused {status : Status} {after : DocumentBuilder} {list : LinkForest Place NodeData}
      (hgrows : Document.Grows base after.document parent depth (outer.plug list))
      (hrefusals : builder.document.refusals < after.document.refusals)
      (hstatus : status ≠ .needMoreData) :
      Finishes base parent depth outer builder tokens (.error status, after)

/-- An event ahead of a run. -/
theorem Finishes.step {event : TreeEvent} {next : DocumentBuilder} {reader : TreeReader}
    {result : BuilderResult}
    (hpull : treeReaderNextEvent builder.document.options.format builder.reader =
      .ok (event, reader)) (hreader : next.reader = reader)
    (hoptions : next.document.options = builder.document.options)
    (hretain : next.retainSourceLocations = builder.retainSourceLocations)
    (hrefusals : next.document.refusals = builder.document.refusals)
    (hcount : next.document.count = builder.document.count + if event.publishes then 1 else 0)
    (hwithin : event.publishes = true →
      depth + outer.length + event.depth ≤ builder.document.options.maxDepth ∧
        builder.document.count < builder.document.options.maxElements)
    (h : Finishes base parent depth outer next
      (tokens ++ [event.token builder.retainSourceLocations]) result) :
    Finishes base parent depth outer builder tokens result := by
  have hemit : ∀ {events : List TreeEvent} {last : TreeReader},
      Emits (pullMove next.document.options.format) next.reader events last →
      Emits (pullMove builder.document.options.format) builder.reader (event :: events) last := by
    intro events last hrest
    rw [hoptions, hreader] at hrest
    exact .emit (pull_move_ok hpull) hrest
  have hfit : ∀ {events : List TreeEvent}, Fits next.document (depth + outer.length) events ↔
      Fits builder.document (depth + outer.length) (event :: events) := by
    intro events
    unfold Fits
    rw [hoptions, hcount, List.countP_cons, List.forall_mem_cons]
    constructor
    · rintro ⟨hdepths, hroom⟩
      exact ⟨⟨fun hpublishes => (hwithin hpublishes).1, hdepths⟩, by omega⟩
    · rintro ⟨⟨-, hdepths⟩, hroom⟩
      exact ⟨hdepths, by omega⟩
  cases h with
  | complete hemits hdraft hend hfits hsame =>
    rw [List.append_assoc, hretain] at hdraft
    exact .complete (hemit hemits) hdraft hend (hfit.mp hfits) (hsame.trans hrefusals)
  | stopped hemits hdraft hstop hend hfits hkept hsame =>
    rw [List.append_assoc, hretain] at hdraft
    rw [hoptions] at hstop
    exact .stopped (hemit hemits) hdraft hstop hend (hfit.mp hfits) (hkept.trans hretain)
      (hsame.trans hrefusals)
  | limit hemits hgrows hfits hstatus hsame =>
    exact .limit (hemit hemits) hgrows (fun h => hfits (hfit.mpr h)) hstatus
      (hsame.trans hrefusals)
  | refused hgrows hless hstatus => exact .refused hgrows (hrefusals ▸ hless) hstatus

/-- At its end the reader has no open group. -/
theorem at_end_opens {reader : TreeReader} (h : reader.atEnd = true) : reader.opens = 0 := by
  simp only [TreeReader.atEnd, Bool.and_eq_true, Bool.not_eq_true', decide_eq_true_eq] at h
  obtain ⟨⟨⟨⟨hdescend, hend⟩, hframes⟩, -⟩, -⟩ := h
  simp [TreeReader.opens, hdescend, hend, hframes]

/-- Reading the next events terminates with a finished draft. -/
theorem consume_some_spec (h : Draft base parent depth outer builder levels list tokens) {fuel : Nat}
    (hcount : builder.reader.count ≤ builder.reader.maxElements)
    (hfuel : builder.reader.remaining < fuel) :
    ∃ result, consumeSome fuel builder = some result ∧
      Finishes base parent depth outer builder tokens result := by
  induction fuel generalizing builder levels list tokens with
  | zero => omega
  | succ fuel ih =>
    have hroom : Fits builder.document (depth + outer.length) [] :=
      ⟨(fun event hevent => by cases hevent), h.grows.room⟩
    have hfinished : builder.finished = builder.reader.atEnd := by
      unfold finished
      rw [h.subtree]
      rfl
    unfold consumeSome
    rw [hfinished]
    cases hend : builder.reader.atEnd with
    | true =>
      have hlength := h.opens
      rw [at_end_opens hend] at hlength
      obtain rfl := List.eq_nil_of_length_eq_zero hlength.symm
      exact ⟨_, rfl, .complete (.refl _) h.and_nothing hend hroom rfl⟩
    | false =>
      cases hpull : treeReaderNextEvent builder.document.options.format builder.reader with
      | error status =>
        exact ⟨_, rfl, .stopped (.refl _) h.and_nothing hpull hend hroom rfl rfl⟩
      | ok found =>
        obtain ⟨event, next⟩ := found
        obtain ⟨hless, hremaining⟩ := (next_event_progress hpull).2 hcount
        obtain ⟨result, hconsume, hconsumes⟩ := h.consume hpull
        simp only [hconsume]
        cases hconsumes with
        | @consumed after levels list hdraft hreader hretain hrefusals hcounted hwithin =>
          obtain ⟨result, hrun, hfinishes⟩ := ih hdraft (by rw [hreader]; exact hless)
            (by rw [hreader]; show next.remaining < fuel; omega)
          refine ⟨result, hrun, hfinishes.step hpull hreader ?_ hretain hrefusals hcounted
            hwithin⟩
          rw [hdraft.grows.unedited.options, h.grows.unedited.options]
        | limit hgrows hpublishes hstatus hlimit =>
          refine ⟨_, rfl, .limit (.emit (pull_move_ok hpull) (.refl _)) hgrows ?_ hstatus rfl⟩
          rintro ⟨hdepths, hnumber⟩
          have hin := hdepths event List.mem_cons_self hpublishes
          rw [List.countP_cons, if_pos hpublishes] at hnumber
          rcases hlimit with hdeep | hfull
          · exact Nat.not_lt.mpr hin hdeep
          · have hfull' : builder.document.count ≥ builder.document.options.maxElements :=
              hfull
            omega
        | refused hgrows hrefusals hstatus =>
          exact ⟨_, rfl, .refused hgrows hrefusals hstatus⟩

/-- The loop of `consume_tree` comes to an end. -/
theorem consume_tree_spec (h : Draft base parent depth outer builder levels list tokens)
    (hcount : builder.reader.count ≤ builder.reader.maxElements) :
    ∃ result, builder.consumeTree = some result ∧
      Finishes base parent depth outer builder tokens result :=
  consume_some_spec h hcount (Nat.lt_succ_self _)

end DocumentBuilder

end OpenTlv
