import OpenTlv.Document.Editing

/-!
# Values that are replaced

`tlv_node_set_value` stores the octets of a primitive node. For a constructed one the new children
are built below a holder on the stack while the old ones are still in place, and only when all of
them are there are the old ones given back and the new ones moved over.
-/

namespace OpenTlv

namespace Document

section Discard

variable {document base : Document} {parent prev : Option Place}
  {forest : LinkForest Place NodeData} {depth : Nat}

/-- Discarding a list removes its nodes and nothing else. -/
theorem discard_siblings_spec (h : Holds document.heap.cells parent prev none forest)
    (hnodup : forest.addrs.Nodup) (hbound : 2 * forest.size ≤ document.bound) {fuel : Nat}
    (hfuel : forest.size ≤ fuel) :
    discardSiblings fuel document forest.firstAddr = some { document with
      heap := document.heap.without forest.addrs
      count := document.count - forest.size } := by
  induction forest generalizing document prev fuel with
  | nil => cases fuel <;> rfl
  | node addr data inner rest _ ih =>
    obtain ⟨hcell, hinner, hrest⟩ := h
    rw [LinkForest.addrs_node] at hnodup
    have hsize : (LinkForest.node addr data inner rest).size = inner.size + rest.size + 1 := rfl
    obtain ⟨fuel, rfl⟩ : ∃ less, fuel = less + 1 := ⟨fuel - 1, by omega⟩
    obtain ⟨hboth, hrestnodup, hdisjoint⟩ :=
      List.nodup_append.mp (List.cons_append ▸ hnodup :
        ((addr :: inner.addrs) ++ rest.addrs).Nodup)
    have hcount := Holds.subtree_size hcell rfl hinner (List.nodup_cons.mp hboth).1
      (show inner.size < document.bound by omega)
    have hfree := Holds.free_subtree hcell rfl hinner hboth
      (show 2 * inner.size < document.bound by omega)
    have hkeep : Holds (document.heap.without (addr :: inner.addrs)).cells parent (some addr) none
        rest :=
      hrest.congr fun a ha => LinkHeap.without_cells fun hmem => hdisjoint a hmem a ha rfl
    simp only [discardSiblings, LinkForest.first_addr_node, hcell, Option.bind_eq_bind,
      Option.bind_some, hcount, hfree, Option.or_none]
    have hlater := @ih { document with
      heap := document.heap.without (addr :: inner.addrs)
      count := document.count - (inner.size + 1) } _ hkeep hrestnodup
      (show 2 * rest.size ≤ document.bound by omega) fuel (by omega)
    rw [hlater]
    simp only [LinkHeap.without_without, LinkForest.addrs_node, List.cons_append, hsize]
    congr 2
    omega

/-- A list is given back as a whole. -/
theorem discard_children_spec (h : Lists document.heap parent forest) (hnodup : forest.addrs.Nodup)
    (hparent : ∀ p, parent = some p → p ∉ forest.addrs)
    (hbound : 2 * forest.size ≤ document.bound) :
    document.discardChildren parent = some { document with
      heap := (document.heap.without forest.addrs).relink parent none none fun _ cell => cell
      count := document.count - forest.size } := by
  have hdiscard := discard_siblings_spec h.holds hnodup hbound
    (show forest.size ≤ document.bound by omega)
  have hlive : ∀ p, parent = some p →
      ((document.heap.without forest.addrs).cells p).isSome := by
    intro p hp
    obtain ⟨cell, hcell, -⟩ := h.owner_live hp
    rw [LinkHeap.without_cells (hparent p hp), hcell]
    rfl
  obtain ⟨middle, hlast, hfirst⟩ := (@LinkHeap.set_ends _ _ _ _ parent none none hlive).1
  simp only [discardChildren, h.first, Option.bind_eq_bind, Option.bind_some, hdiscard, hlast, hfirst]
  rfl

/-- What was built below a node is given back. -/
theorem Grows.discard (h : Grows base document parent depth forest) :
    ∃ heap, document.discardChildren parent =
        some { document with heap := heap, count := document.count - forest.size } ∧
      Grows base { document with heap := heap, count := document.count - forest.size } parent depth
        .nil := by
  have hcount := h.count
  have hroom := h.room
  have hbound : 2 * forest.size ≤ document.bound := by
    unfold bound
    omega
  have howner : ∀ p, parent = some p → p ∉ forest.addrs := fun p hp => h.not_mem (h.owner p hp)
  refine ⟨_, discard_children_spec h.edit.lists h.nodup howner hbound, h.emptied ?_ ?_ ?_ ?_⟩
  · intro a ha
    rw [LinkHeap.relink_cells ha]
    show Option.map _ (if a ∈ forest.addrs then none else document.heap.cells a) = _
    split <;> simp
  · intro a ha
    simp [LinkHeap.relink, ha, LinkHeap.without_cells (howner a ha)]
  · intro hnone
    simp [LinkHeap.relink, hnone]
  · intro hne
    simp [LinkHeap.relink, hne, LinkHeap.without]

end Discard

section Adopt

variable {document : Document} {node : Place} {inner built : LinkForest Place NodeData}

/-- The list of the holder becomes the list of a node, and the old one is given back. -/
theorem adopt_children_spec (h : Lists document.heap (some node) inner)
    (hside : Lists document.heap (some .holder) built) (hnode : node ≠ .holder)
    (hinner : (node :: inner.addrs).Nodup) (hbuilt : (node :: built.addrs).Nodup)
    (hholder : .holder ∉ inner.addrs ∧ .holder ∉ built.addrs)
    (hdisjoint : ∀ a ∈ built.addrs, a ∉ inner.addrs) (hold : 2 * inner.size ≤ document.bound)
    (hnew : built.size ≤ document.bound) :
    ∃ heap, ListEdit document.heap heap (some node) inner built ∧
      (∀ a ∈ inner.addrs, heap.cells a = none) ∧
      document.adoptChildren node = { document with heap := heap }.invalidateLocations
        (some node) := by
  obtain ⟨hnotinner, hinner⟩ := List.nodup_cons.mp hinner
  obtain ⟨hnotbuilt, hbuilt⟩ := List.nodup_cons.mp hbuilt
  -- the old children are given back
  have hfree := h.holds.free_siblings hinner hold (show inner.size ≤ document.bound by omega)
  generalize hfreed : document.heap.without inner.addrs = freed at hfree
  have hcells : ∀ a ∉ inner.addrs, freed.cells a = document.heap.cells a := by
    intro a ha
    rw [← hfreed]
    exact LinkHeap.without_cells ha
  obtain ⟨cell, hcell, -⟩ := h.owner_live rfl
  have hlive : ∀ p, some node = some p → (freed.cells p).isSome := by
    intro p hp
    cases hp
    rw [hcells node hnotinner, hcell]
    rfl
  obtain ⟨lastless, hlastless, hempty⟩ :=
    (@LinkHeap.set_ends _ _ _ freed (some node) none none hlive).1
  generalize hemptied : (freed.relink (some node) none none fun _ cell => cell) = emptied at hempty
  have hother : ∀ a, a ≠ node → emptied.cells a = freed.cells a := by
    intro a ha
    rw [← hemptied, LinkHeap.relink_cells fun heq => ha (Option.some.inj heq).symm]
    simp
  -- the ends of the new list are stored
  have hends : emptied.firstOf (some .holder) = some built.firstAddr ∧
      emptied.lastOf (some .holder) = some built.lastAddr := by
    have hsame : emptied.cells .holder = document.heap.cells .holder := by
      rw [hother .holder hnode.symm, hcells .holder hholder.1]
    exact ⟨(congrArg (Option.map LinkCell.first) hsame).trans hside.first,
      (congrArg (Option.map LinkCell.last) hsame).trans hside.last⟩
  have hlive' : ∀ p, some node = some p → (emptied.cells p).isSome := by
    intro p hp
    cases hp
    rw [← hemptied]
    simpa [LinkHeap.relink] using hlive node rfl
  obtain ⟨headed, hheaded, hset⟩ :=
    (@LinkHeap.set_ends _ _ _ emptied (some node) built.firstAddr built.lastAddr hlive').2
  generalize hstored : (emptied.relink (some node) built.firstAddr built.lastAddr
    fun _ cell => cell) = stored at hset
  have hkeep : ∀ a, a ≠ node → a ∉ inner.addrs → stored.cells a = document.heap.cells a := by
    intro a ha hmem
    rw [← hstored, LinkHeap.relink_cells fun heq => ha (Option.some.inj heq).symm, hother a ha,
      hcells a hmem]
    simp
  -- and its nodes get their new parent
  have hmoved : Holds stored.cells (some .holder) none none built :=
    hside.holds.congr fun a ha => hkeep a (fun heq => hnotbuilt (heq ▸ ha)) (hdisjoint a ha)
  obtain ⟨heap, hreparent, hholds, hfirst, hlast, hframe⟩ :=
    @Holds.reparent _ _ _ _ _ _ _ node hmoved hbuilt document.bound hnew
  have hself : heap.cells node = (document.heap.cells node).map fun cell =>
      { cell with first := built.firstAddr, last := built.lastAddr } := by
    rw [hframe node hnotbuilt, ← hstored, ← hemptied]
    simp [LinkHeap.relink, hcells node hnotinner, hcell]
  refine ⟨heap, ⟨⟨hholds, ?_, ?_⟩, ?_, ?_, ?_⟩, ?_, ?_⟩
  · simp [LinkHeap.firstOf, hself, hcell]
  · simp [LinkHeap.lastOf, hself, hcell]
  · intro a ha
    cases ha
    exact hself
  · intro _
    rw [hfirst, hlast, ← hstored, ← hemptied, ← hfreed]
    simp [LinkHeap.relink, LinkHeap.without]
  · intro a ha hmem hmem'
    rw [hframe a hmem']
    exact hkeep a (fun heq => ha (congrArg some heq.symm)) hmem
  · intro a ha
    have hne : a ≠ node := fun heq => hnotinner (heq ▸ ha)
    rw [hframe a fun hmem => hdisjoint a hmem ha, ← hstored,
      LinkHeap.relink_cells fun heq => hne (Option.some.inj heq).symm, hother a hne, ← hfreed]
    simp [LinkHeap.without, ha]
  · simp only [adoptChildren, freeChildren, h.first, Option.bind_eq_bind, Option.bind_some, hfree,
      hlastless, hempty]
    show (emptied.firstOf _).bind _ = _
    simp only [hends.1, hends.2, Option.bind_some, hheaded, hset]
    show (LinkHeap.reparent node document.bound stored built.firstAddr).bind _ = _
    rw [hreparent]
    rfl

end Adopt

section SetValue

variable {document : Document} {context : LinkContext Place NodeData}
  {left inner right : LinkForest Place NodeData} {node : Place} {data : NodeData} {value : Bytes}

/-- What `tlv_node_set_value` can do to a node in its list. -/
inductive SetsValue (document : Document) (context : LinkContext Place NodeData)
    (left : LinkForest Place NodeData) (node : Place) (data : NodeData)
    (inner right : LinkForest Place NodeData) (value : Bytes) : DocumentResult Unit → Prop where
  | failed {status : Status} {after : Document} (hfails : Fails document after)
      (hreason : after.refusals = document.refusals → document.queryCallbacks = 0 →
        data.constructed = true ∧ ∀ events, ¬ { document with
          count := document.count - inner.size }.Reads value (context.length + 1) events) :
      SetsValue document context left node data inner right value (.error status, after)
  | primitive {after : Document} (hidle : document.queryCallbacks = 0)
      (hprimitive : data.constructed = false)
      (hrepresents : after.Represents
        (context.plug (left.append (.node node { data with value := value } inner right))))
      (hkeeps : Keeps document after) (hrefusals : after.refusals = document.refusals)
      (hepoch : after.retireEpoch = document.retireEpoch)
      (hrevision : after.revision = counterNext document.revision) :
      SetsValue document context left node data inner right value (.ok (), after)
  | constructed {after : Document} {built : LinkForest Place NodeData} {events : List TreeEvent}
      (hidle : document.queryCallbacks = 0) (hconstructed : data.constructed = true)
      (hrepresents : after.Represents (context.plug (left.append (.node node data built right))))
      (hreads : { document with count := document.count - inner.size }.Reads value
        (context.length + 1) events)
      (hspell : built.spell after.locations = events.map (TreeEvent.token false))
      (hnew : ∀ identity ∈ built.identities, document.nextIdentity < identity)
      (hunmarked : Unmarked built) (hkeeps : Keeps document after)
      (hrefusals : after.refusals = document.refusals)
      (hepoch : after.retireEpoch = document.retireEpoch + if inner.size ≠ 0 then 1 else 0)
      (hrevision : after.revision = counterNext document.revision) :
      SetsValue document context left node data inner right value (.ok (), after)

/-- The value of a primitive node is replaced or kept. -/
theorem Represents.set_primitive
    (h : document.Represents (context.plug (left.append (.node node data inner right))))
    (hidle : document.queryCallbacks = 0) (hprimitive : data.constructed = false) :
    ∃ result, document.setPrimitive node value = some result ∧
      SetsValue document context left node data inner right value result := by
  obtain ⟨given, asked, hgiven, hasks⟩ := copy_bytes_asks document value
  have havailable : asked.nextIdentity ≤ 2 ^ 64 - 1 := by
    rw [hasks.nextIdentity]
    exact h.available
  have hfails : Fails document asked := ⟨hasks.heap, hasks.count, hasks.unedited, havailable⟩
  unfold setPrimitive
  rw [hgiven]
  cases given with
  | false =>
    refine ⟨_, rfl, .failed hfails fun hsame => ?_⟩
    rw [hasks.refusals] at hsame
    simp at hsame
  | true =>
    have hrefusals : asked.refusals = document.refusals := hasks.refusals
    have hasked := h.after_failure hfails
    obtain ⟨heap, hmodify, hrepresents⟩ := @Represents.set_data asked context left inner right node
      data hasked (fun item => { item with value := value }) rfl rfl fun hcon => by
        rw [hprimitive] at hcon
        cases hcon
    -- the owner of the list inside of the node is the node itself
    have hbound := hasked.size_lt
    have hdeep := context_length_le context (left.append (.node node data inner right))
    have hsize : 0 < (left.append (.node node data inner right)).size := by
      simp only [LinkForest.size_append, LinkForest.size]
      omega
    have hplug := LinkContext.size_plug context (left.append (.node node data inner right))
    obtain ⟨locations, hinvalidate, -⟩ := @invalidate_locations_spec { asked with heap := heap }
      (⟨node, { data with value := value }, left, right⟩ :: context) inner
      hrepresents.lists.holds (by
        show context.length + 1 ≤ asked.bound
        omega)
    refine ⟨(.ok (), { asked with
      heap := heap
      locations := locations
      revision := counterNext asked.revision }), ?_, .primitive hidle hprimitive ?_ ?_ hrefusals
        hasks.unedited.retireEpoch (congrArg counterNext hasks.unedited.revision)⟩
    · have hinvalidate' : { asked with heap := heap }.invalidateLocations (some node) =
        some { asked with heap := heap, locations := locations } := hinvalidate
      simp only [hmodify, Option.bind_eq_bind, Option.bind_some, hinvalidate']
      rfl
    · exact hrepresents.congr rfl rfl rfl rfl (Nat.le_refl _) havailable
    · exact ⟨hasks.unedited.options, hasks.unedited.queryCallbacks, hasks.unedited.queryPending,
        hasks.unedited.nextIdentity, hasks.unedited.refusals⟩

/-- The children that were built on the side are in place. -/
theorem Represents.adopt {after : Document} {built : LinkForest Place NodeData}
    (h : document.Represents (context.plug (left.append (.node node data inner right))))
    (hconstructed : data.constructed = true)
    (hgrows : Grows { document.enterHolder with count := document.count - inner.size } after
      (some .holder) (context.length + 1) built) {epoch : Nat}
    (hepoch : epoch ≤ document.retireEpoch + inner.size) :
    ∃ heap locations, after.adoptChildren node =
        some { after with heap := heap, locations := locations } ∧
      (∀ result, result = { after with
        heap := heap
        locations := locations
        retireEpoch := epoch
        revision := counterNext after.revision }.leaveHolder →
      result.Represents (context.plug (left.append (.node node data built right)))) ∧
      ∀ a ∈ built.addrs, locations a = after.locations a := by
  -- the context inside of the node, where the lists are exchanged
  obtain ⟨inside, hinside⟩ : ∃ inside : LinkContext Place NodeData,
      ⟨node, data, left, right⟩ :: context = inside := ⟨_, rfl⟩
  have hforest : context.plug (left.append (.node node data inner right)) = inside.plug inner := by
    rw [← hinside]
    rfl
  have howner : inside.owner none = some node := by
    rw [← hinside]
    rfl
  have hlength : inside.length = context.length + 1 := by rw [← hinside]; rfl
  rw [hforest] at h
  obtain ⟨hcells, hfirst, hlast, hfresh, hkept⟩ := h.beside hgrows
  obtain ⟨hnodupcontext, hnodupinner, hapart⟩ :=
    List.nodup_append.mp ((inside.addrs_plug inner).nodup_iff.mp h.nodup)
  have hnode : node ∈ inside.addrs := LinkContext.owner_mem howner
  have hnoholder : ∀ a ∈ inside.addrs ++ inner.addrs, a ≠ .holder := by
    intro a ha heq
    subst heq
    exact h.blocks ((inside.addrs_plug inner).mem_iff.mpr ha)
  -- nothing that was built stands in the old tree
  have hnew : ∀ a ∈ built.addrs, a ∉ inside.addrs ∧ a ∉ inner.addrs := by
    intro a ha
    have hnot := (hfresh a ha).2.2
    rw [(inside.addrs_plug inner).mem_iff, List.mem_append] at hnot
    exact ⟨fun hin => hnot (.inl hin), fun hin => hnot (.inr hin)⟩
  have hbounds : after.bound = document.bound := by
    unfold bound
    rw [hgrows.unedited.options]
    rfl
  have hsmall := h.size_lt
  have hplug := LinkContext.size_plug inside inner
  have hdeep := context_length_le inside inner
  have hcount : after.count = document.count - inner.size + built.size := hgrows.count
  have hroom : after.count ≤ document.options.maxElements := hgrows.unedited.options ▸ hgrows.room
  have hnewbound : built.size ≤ after.bound := by
    rw [hbounds, bound]
    omega
  have hlist : Lists after.heap (some node) inner := howner ▸ hkept.inside
  obtain ⟨heap, hedit, hdead, hadopt⟩ := adopt_children_spec hlist hgrows.edit.lists
    (hnoholder node (List.mem_append_left _ hnode))
    (List.nodup_cons.mpr ⟨fun hin => hapart node hnode node hin rfl, hnodupinner⟩)
    (List.nodup_cons.mpr ⟨fun hin => (hnew node hin).1 hnode, hgrows.nodup⟩)
    ⟨fun hin => hnoholder .holder (List.mem_append_right _ hin) rfl,
      fun hin => (hfresh .holder hin).2.1 rfl⟩
    (fun a ha => (hnew a ha).2) (by omega) hnewbound
  have hplaced : Lists heap none (inside.plug built) :=
    hkept.edit h.nodup (howner ▸ hedit) (fun a ha => (hnew a ha).1) (fun b hb => by cases hb)
  obtain ⟨locations, hinvalidate, hlocations⟩ := @invalidate_locations_spec
    { after with heap := heap } inside built hplaced.holds (by
      show inside.length ≤ after.bound
      omega)
  rw [howner] at hinvalidate
  refine ⟨heap, locations, hadopt.trans hinvalidate, ?_, fun a ha => hlocations a (hnew a ha).1⟩
  intro result hresult
  have hreleased : ∀ a, a ≠ .holder → result.heap.cells a = heap.cells a := by
    intro a ha
    rw [hresult]
    exact put_cell_other ha
  have hresultcount : result.count = after.count := by rw [hresult]; rfl
  have hresultnext : result.nextIdentity = after.nextIdentity := by rw [hresult]; rfl
  have hresultepoch : result.retireEpoch = epoch := by rw [hresult]; rfl
  have hforest' : context.plug (left.append (.node node data built right)) = inside.plug built := by
    rw [← hinside]
    rfl
  have hsizes := hgrows.issued_size
  have hretired := h.retired
  have hcounted := h.count
  rw [hforest']
  -- the invariant for the new list, field by field
  refine h.replace ⟨?_, ?_, ?_⟩ ?_ ?_ hgrows.nodup (fun a ha => (hnew a ha).1) hgrows.typed ?_ ?_ ?_
    ?_ ?_ hgrows.identities ?_ ?_ ?_ ?_
  · refine hplaced.holds.congr fun a ha => hreleased a fun heq => ?_
    rw [(inside.addrs_plug built).mem_iff, List.mem_append] at ha
    rcases ha with ha | ha
    · exact hnoholder a (List.mem_append_left _ ha) heq
    · exact (hfresh a ha).2.1 heq
  · rw [hresult]
    exact hplaced.first
  · rw [hresult]
    exact hplaced.last
  · intro a ha
    have hne : a ≠ .holder := by
      intro heq
      rw [heq, hresult] at ha
      simp [leaveHolder, LinkHeap.release] at ha
    rw [hreleased a hne] at ha
    by_cases hbuilt : a ∈ built.addrs
    · exact .inr hbuilt
    · refine .inl ?_
      have hnotinner : a ∉ inner.addrs := by
        intro hin
        rw [hdead a hin] at ha
        cases ha
      by_cases heq : a = node
      · exact heq ▸ hnode
      · rw [hedit.frame a (fun hsome => heq (Option.some.inj hsome).symm) hnotinner hbuilt,
          hcells a hne hbuilt] at ha
        have hmem := h.live a ha
        rw [(inside.addrs_plug inner).mem_iff, List.mem_append] at hmem
        exact hmem.resolve_right hnotinner
  · exact fun hin => (hfresh .holder hin).2.1 rfl
  · intro level hlevel
    rw [← hinside] at hlevel
    cases hlevel
    exact hconstructed
  · rw [hresult]
    exact hgrows.unedited.options
  · omega
  · omega
  · have hheight := (LinkContext.height_plug.mp h.height).2
    rcases hgrows.height with hnil | hheight'
    · rw [hnil]
      show inside.length + 0 ≤ _
      omega
    · rw [hgrows.unedited.options] at hheight'
      simp only [enterHolder] at hheight'
      omega
  · intro identity hmem
    rw [hresultnext]
    exact ⟨.inr (hgrows.issued identity hmem).1, (hgrows.issued identity hmem).2⟩
  · rw [hresultnext]
    exact hgrows.unedited.nextIdentity
  · rw [hresultnext]
    exact hgrows.available
  · rw [hresultepoch, hresultcount, hresultnext]
    simp only [enterHolder] at hsizes
    omega

/-- The contents of a constructed node are replaced or kept. -/
theorem Represents.set_constructed
    (h : document.Represents (context.plug (left.append (.node node data inner right))))
    (hidle : document.queryCallbacks = 0) (hconstructed : data.constructed = true) :
    ∃ result, document.setConstructed node value = some result ∧
      SetsValue document context left node data inner right value result := by
  have hsmall := h.size_lt
  have hplug := LinkContext.size_plug context (left.append (.node node data inner right))
  have hlistsize : (left.append (.node node data inner right)).size =
      left.size + (inner.size + right.size + 1) := by
    simp only [LinkForest.size_append, LinkForest.size]
  have hcounted := h.count
  have hdeep := context_length_le context (left.append (.node node data inner right))
  -- with the holder in scope the document reads as before
  have hstart := h.start (Nat.sub_le document.count inner.size) (context.length + 1)
  have hkept : Lists document.enterHolder.heap none
      (context.plug (left.append (.node node data inner right))) := (h.beside hstart).2.2.2.2
  have hlist := LinkContext.holds_list hkept.holds
  obtain ⟨hcell, hinner, -⟩ := (holds_append.mp hlist).2
  have hnotin : node ∉ inner.addrs :=
    @Represents.owner_not_mem document (⟨node, data, left, right⟩ :: context) inner h node rfl
  have hsize : document.enterHolder.heap.subtreeSize document.enterHolder.bound node =
      some (inner.size + 1) := Holds.subtree_size hcell rfl hinner hnotin
        (show inner.size < document.bound by omega)
  have hdepth : document.enterHolder.heap.depthFrom document.bound 0 node =
      some (0 + context.length) := @LinkContext.depth_from _ _ _ context _ hkept.holds _ _ hcell
        rfl _ 0 (show context.length < document.bound by omega)
  obtain ⟨result, after, built, hparse, hparses⟩ := @Grows.parse_list _ _ _ _ [] hstart
    (fun level hlevel => by cases hlevel) value
  have hparse' : { document.enterHolder with count := document.count - inner.size }.parseList
      (some .holder) value (context.length + 1) = some (result, after) := hparse
  have hgrows : Grows { document.enterHolder with count := document.count - inner.size } after
      (some .holder) (context.length + 1) built := hparses.grows
  have hrefusals : document.refusals ≤ after.refusals := hparses.refusals
  have hcall : document.setConstructed node value =
      settleChildren node inner.size (result, after) := by
    simp only [setConstructed, hsize, Option.bind_eq_bind, Option.bind_some, Nat.add_sub_cancel]
    show (Option.bind (document.enterHolder.heap.depthFrom document.bound 0 node) _) = _
    rw [hdepth, Option.bind_some, Nat.zero_add]
    show (Option.bind ({ document.enterHolder with count := document.count - inner.size }.parseList
      (some .holder) value (context.length + 1)) _) = _
    rw [hparse', Option.bind_some]
  rw [hcall]
  cases result with
  | error status =>
    obtain ⟨heap, hdiscard, hempty⟩ := hgrows.discard
    refine ⟨(.error status, { after with
      heap := heap
      count := after.count - built.size + inner.size }.leaveHolder), ?_,
        .failed (h.fails_beside hempty ?_) ?_⟩
    · simp only [settleChildren, hdiscard, Option.bind_eq_bind, Option.bind_some]
      rfl
    · have hcount : after.count = document.count - inner.size + built.size := hgrows.count
      have hback : after.count - built.size + inner.size = document.count := by omega
      rw [hback]
      rfl
    · intro hsame _
      exact ⟨hconstructed, hparses.failure status rfl hsame⟩
  | ok done =>
    obtain ⟨hsame, events, hreads, hspell⟩ := hparses.success rfl
    have hepoch : (if inner.size ≠ 0 then counterNext document.retireEpoch
        else document.retireEpoch) = document.retireEpoch + if inner.size ≠ 0 then 1 else 0 := by
      split
      · exact h.epoch_next (by omega)
      · rfl
    obtain ⟨heap, locations, hadopt, hrepresents, hlocations⟩ := h.adopt hconstructed hgrows
      (show document.retireEpoch + (if inner.size ≠ 0 then 1 else 0) ≤ _ by split <;> omega)
    refine ⟨(.ok (), { after with
      heap := heap
      locations := locations
      retireEpoch := document.retireEpoch + if inner.size ≠ 0 then 1 else 0
      revision := counterNext after.revision }.leaveHolder), ?_,
        .constructed hidle hconstructed (hrepresents _ rfl) hreads ?_ ?_ hgrows.unmarked ?_ hsame rfl
        (congrArg counterNext hgrows.unedited.revision)⟩
    · simp only [settleChildren, hadopt, Option.bind_eq_bind, Option.bind_some]
      have hbefore : after.retireEpoch = document.retireEpoch := hgrows.unedited.retireEpoch
      rw [← hepoch, ← hbefore]
      rfl
    · exact (spell_congr hlocations).trans hspell
    · exact fun identity hmem => (hgrows.issued identity hmem).1
    · exact ⟨hgrows.unedited.options, hgrows.unedited.queryCallbacks,
        hgrows.unedited.queryPending, hgrows.unedited.nextIdentity, hgrows.unedited.refusals⟩

/-- `tlv_node_set_value` returns, and what it leaves is a document. -/
theorem Represents.set_value_spec
    (h : document.Represents (context.plug (left.append (.node node data inner right))))
    (value : Bytes) :
    ∃ result, document.setValue node value = some result ∧
      SetsValue document context left node data inner right value result := by
  unfold setValue
  by_cases hidle : document.queryCallbacks = 0
  · rw [if_neg (not_not.mpr hidle), h.cell]
    simp only [Option.bind_eq_bind, Option.bind_some]
    cases hkind : data.constructed with
    | true =>
      rw [if_pos rfl]
      exact h.set_constructed hidle hkind
    | false =>
      rw [if_neg Bool.false_ne_true]
      exact h.set_primitive hidle hkind
  · rw [if_pos hidle]
    exact ⟨_, rfl, .failed h.fails_refl fun _ hcon => absurd hcon hidle⟩

end SetValue

end Document

end OpenTlv
