import OpenTlv.Document.Parsing

/-!
# Documents as forests

`Represents` says which forest a document is and carries its invariant: the links are those of the
forest, nothing else is alive, the count and the limits hold and identities were issued once. Each
call that edits is specified by the context of the list it changes: an erased node leaves it, a
value replaces what is inside of a node, a new node enters ahead of another one. A call that fails
leaves the heap as it was.
-/

namespace OpenTlv

namespace Document

/-- The document is a forest. -/
structure Represents (document : Document) (forest : LinkForest Place NodeData) : Prop where
  lists : Lists document.heap none forest
  live : ∀ a, (document.heap.cells a).isSome → a ∈ forest.addrs
  blocks : .holder ∉ forest.addrs
  nodup : forest.addrs.Nodup
  typed : Typed forest
  count : document.count = forest.size
  room : document.count ≤ document.options.maxElements
  height : forest.height ≤ document.options.maxDepth + 1
  identities : forest.identities.Nodup
  issued : ∀ identity ∈ forest.identities, 0 < identity ∧ identity ≤ document.nextIdentity
  available : document.nextIdentity ≤ 2 ^ 64 - 1
  retired : document.retireEpoch + forest.size ≤ document.nextIdentity

variable {document : Document} {forest : LinkForest Place NodeData}

/-- The nodes of the forest are what is alive. -/
theorem Represents.mem_iff (h : document.Represents forest) {a : Place} :
    a ∈ forest.addrs ↔ (document.heap.cells a).isSome := by
  refine ⟨fun hmem => ?_, h.live a⟩
  obtain ⟨cell, hcell⟩ := h.lists.holds.cell_some hmem
  simp [hcell]

theorem Represents.holder_dead (h : document.Represents forest) :
    document.heap.cells .holder = none := by
  cases hcell : document.heap.cells .holder with
  | none => rfl
  | some cell => exact absurd (h.live .holder (by simp [hcell])) h.blocks

/-- A node with the list it is in. -/
theorem Represents.node (h : document.Represents forest) {a : Place}
    (ha : (document.heap.cells a).isSome) :
    ∃ (context : LinkContext Place NodeData) (left : LinkForest Place NodeData) (data : NodeData)
      (inner right : LinkForest Place NodeData),
      forest = context.plug (left.append (.node a data inner right)) ∧
      document.heap.cells a = some ⟨data, context.owner none, left.lastAddr, right.firstAddr,
        inner.firstAddr, inner.lastAddr⟩ := by
  obtain ⟨context, left, data, inner, right, hforest⟩ := LinkContext.exists_plug (h.live a ha)
  refine ⟨context, left, data, inner, right, hforest, ?_⟩
  have hlist := LinkContext.holds_list (hforest ▸ h.lists.holds)
  simpa using (holds_append.mp hlist).2.1

/-- Only some fields of a document matter, and more identities may have been issued. -/
theorem Represents.congr {after : Document} (h : document.Represents forest)
    (hheap : after.heap = document.heap) (hoptions : after.options = document.options)
    (hcount : after.count = document.count) (hepoch : after.retireEpoch = document.retireEpoch)
    (hidentity : document.nextIdentity ≤ after.nextIdentity)
    (havailable : after.nextIdentity ≤ 2 ^ 64 - 1) : after.Represents forest := by
  have hretired := h.retired
  refine ⟨?_, ?_, h.blocks, h.nodup, h.typed, hcount.trans h.count, ?_, ?_, h.identities, ?_,
    havailable, ?_⟩
  · rw [hheap]
    exact h.lists
  · rw [hheap]
    exact h.live
  · rw [hcount, hoptions]
    exact h.room
  · rw [hoptions]
    exact h.height
  · exact fun identity hmem => ⟨(h.issued identity hmem).1,
      (h.issued identity hmem).2.trans hidentity⟩
  · omega

/-- A subtree is smaller than the bound of the loops. -/
theorem Represents.size_lt (h : document.Represents forest) : 2 * forest.size < document.bound := by
  have hroom := h.room
  rw [h.count] at hroom
  unfold bound
  omega

section Locations

variable {context : LinkContext Place NodeData} {list : LinkForest Place NodeData}

/-- Clearing locations climbs to the root and touches nothing else. -/
theorem clear_locations_spec
    (h : Holds document.heap.cells none none none (context.plug list)) {fuel : Nat}
    (hfuel : context.length ≤ fuel) :
    ∃ locations, clearLocations fuel document (context.owner none) =
      some { document with locations := locations } ∧
        ∀ a ∉ context.addrs, locations a = document.locations a := by
  induction context generalizing document list fuel with
  | nil => exact ⟨document.locations, by cases fuel <;> rfl, fun _ _ => rfl⟩
  | cons level outer ih =>
    obtain ⟨fuel, rfl⟩ : ∃ less, fuel = less + 1 :=
      ⟨fuel - 1, by simp only [List.length_cons] at hfuel; omega⟩
    have hcell := LinkContext.holds_owner h
    obtain ⟨locations, hclear, hfar⟩ := @ih (document.setLocation level.addr {}) _ h fuel
      (by simpa using hfuel)
    refine ⟨locations, ?_, ?_⟩
    · simp only [clearLocations, LinkContext.owner, hcell, Option.bind_eq_bind, Option.bind_some]
      exact hclear
    · intro a ha
      rw [LinkContext.addrs_cons, List.mem_cons, not_or] at ha
      rw [hfar a fun hin => ha.2 (by simp [hin])]
      exact if_neg ha.1

/-- Along the ancestors of a list locations are forgotten, and nothing else changes. -/
theorem invalidate_locations_spec
    (h : Holds document.heap.cells none none none (context.plug list))
    (hbound : context.length ≤ document.bound) :
    ∃ locations, document.invalidateLocations (context.owner none) =
      some { document with locations := locations } ∧
        ∀ a ∉ context.addrs, locations a = document.locations a := by
  unfold invalidateLocations
  split
  · exact clear_locations_spec h hbound
  · exact ⟨document.locations, rfl, fun _ _ => rfl⟩

/-- A context is no deeper than its forest is large. -/
theorem context_length_le (context : LinkContext Place NodeData) (list : LinkForest Place NodeData) :
    context.length ≤ (context.plug list).size := by
  have hlength : context.length ≤ context.items.length := by
    induction context with
    | nil => exact Nat.le_refl _
    | cons level outer ih =>
      simp only [LinkContext.items, List.length_cons, List.length_append]
      omega
  rw [LinkContext.size_plug]
  omega

end Locations

/-- What an edit leaves alone. -/
structure Keeps (document after : Document) : Prop where
  options : after.options = document.options
  queryCallbacks : after.queryCallbacks = document.queryCallbacks
  queryPending : after.queryPending = document.queryPending
  nextIdentity : document.nextIdentity ≤ after.nextIdentity
  refusals : document.refusals ≤ after.refusals

section Erase

variable {context : LinkContext Place NodeData} {left inner right : LinkForest Place NodeData}
  {node : Place} {data : NodeData}

/-- What is left of a forest is still well-formed. -/
theorem Represents.shrink
    (h : document.Represents (context.plug (left.append (.node node data inner right))))
    {after : Document} (hlists : Lists after.heap none (context.plug (left.append right)))
    (hcells : ∀ a, (after.heap.cells a).isSome → (document.heap.cells a).isSome ∧
      a ∉ node :: inner.addrs)
    (hoptions : after.options = document.options)
    (hcount : after.count = document.count - (inner.size + 1))
    (hidentity : after.nextIdentity = document.nextIdentity)
    (hepoch : after.retireEpoch ≤ document.retireEpoch + 1) :
    after.Represents (context.plug (left.append right)) := by
  have hitems := context.items_plug_node left node data inner right
  have haddrs := context.addrs_plug_node left node data inner right
  have hidentities : (context.plug (left.append (.node node data inner right))).identities.Perm
      (data.identity :: inner.identities ++ (context.plug (left.append right)).identities) := by
    have hmap := hitems.map fun item => item.2.identity
    rwa [List.map_append, List.map_cons] at hmap
  have hsize : (context.plug (left.append (.node node data inner right))).size =
      inner.size + 1 + (context.plug (left.append right)).size := by
    have hlength := haddrs.length_eq
    simp only [List.length_append, List.length_cons, LinkForest.addrs_length] at hlength
    omega
  have hnodup := List.nodup_append.mp (haddrs.nodup_iff.mp h.nodup)
  have hcounted := h.count
  have hroom := h.room
  have hretired := h.retired
  refine ⟨hlists, ?_, ?_, hnodup.2.1, ?_, ?_, ?_, ?_, ?_, ?_, ?_, ?_⟩
  · intro a ha
    obtain ⟨hlive, hnot⟩ := hcells a ha
    rcases List.mem_append.mp (haddrs.mem_iff.mp (h.live a hlive)) with hmem | hmem
    · exact absurd hmem hnot
    · exact hmem
  · exact fun hmem => h.blocks (haddrs.mem_iff.mpr (List.mem_append_right _ hmem))
  · have hlist := typed_append.mp (typed_list h.typed)
    refine typed_plug h.typed (typed_owner h.typed fun hnil => ?_)
      (typed_append.mpr ⟨hlist.1, hlist.2.2.2.2⟩)
    have hfirst := congrArg LinkForest.firstAddr hnil
    simp at hfirst
  · rw [hcount]
    omega
  · rw [hcount, hoptions]
    omega
  · rw [hoptions]
    have hheight := LinkContext.height_plug.mp h.height
    refine LinkContext.height_plug.mpr ⟨hheight.1, ?_⟩
    have hle := hheight.2
    simp only [LinkForest.height_append, LinkForest.height] at hle ⊢
    omega
  · exact (List.nodup_append.mp (hidentities.nodup_iff.mp h.identities)).2.1
  · intro identity hmem
    rw [hidentity]
    exact h.issued identity (hidentities.mem_iff.mpr (List.mem_append_right _ hmem))
  · rw [hidentity]
    exact h.available
  · rw [hidentity]
    omega

/-- The cell of a node in its list. -/
theorem Represents.cell
    (h : document.Represents (context.plug (left.append (.node node data inner right)))) :
    document.heap.cells node = some ⟨data, context.owner none, left.lastAddr, right.firstAddr,
      inner.firstAddr, inner.lastAddr⟩ := by
  have hlist := LinkContext.holds_list h.lists.holds
  simpa using (holds_append.mp hlist).2.1

/-- A node that can be retired leaves the epoch below its bound. -/
theorem Represents.epoch_next (h : document.Represents forest) (hsize : 0 < forest.size) :
    counterNext document.retireEpoch = document.retireEpoch + 1 := by
  have hretired := h.retired
  have havailable := h.available
  exact Nat.mod_eq_of_lt (by omega)

/-- The node that owns a list is not in it. -/
theorem Represents.owner_not_mem {list : LinkForest Place NodeData}
    (h : document.Represents (context.plug list)) :
    ∀ p, context.owner none = some p → p ∉ list.addrs := by
  intro p hp hmem
  obtain ⟨-, -, hdisjoint⟩ := List.nodup_append.mp ((context.addrs_plug _).nodup_iff.mp h.nodup)
  exact hdisjoint p (LinkContext.owner_mem hp) p hmem rfl

/-- The identities of one list. -/
theorem Represents.list_identities {list : LinkForest Place NodeData}
    (h : document.Represents (context.plug list)) :
    list.identities.Nodup ∧ ∀ identity ∈ list.identities,
      0 < identity ∧ identity ≤ document.nextIdentity := by
  have hids : (context.plug list).identities.Perm
      (context.items.map (fun item => item.2.identity) ++ list.identities) := by
    have hmap := (context.items_plug list).map fun item => item.2.identity
    rwa [List.map_append] at hmap
  refine ⟨(List.nodup_append.mp (hids.nodup_iff.mp h.identities)).2.1, fun identity hmem => ?_⟩
  exact h.issued identity (hids.mem_iff.mpr (List.mem_append_right _ hmem))

/-- The data of a node changes, other than what its place in the forest depends on. -/
theorem Represents.set_data
    (h : document.Represents (context.plug (left.append (.node node data inner right))))
    {f : NodeData → NodeData} (hidentity : (f data).identity = data.identity)
    (hconstructed : (f data).constructed = data.constructed)
    (hvalue : data.constructed = true → (f data).value = []) :
    ∃ heap, (document.heap.modify node fun cell => { cell with data := f cell.data }) = some heap ∧
      { document with heap := heap }.Represents
        (context.plug (left.append (.node node (f data) inner right))) := by
  have hlistnodup := (List.nodup_append.mp ((context.addrs_plug _).nodup_iff.mp h.nodup)).2.1
  obtain ⟨heap, hmodify, hedit⟩ := h.lists.inside.modify_data hlistnodup h.owner_not_mem f
  have hdisjoint := (List.nodup_append.mp ((context.addrs_plug _).nodup_iff.mp h.nodup)).2.2
  have hsame : (left.append (.node node (f data) inner right)).addrs =
      (left.append (.node node data inner right)).addrs := by simp
  have haddrs : (context.plug (left.append (.node node (f data) inner right))).addrs.Perm
      (context.plug (left.append (.node node data inner right))).addrs := by
    refine (context.addrs_plug _).trans (List.Perm.trans ?_ (context.addrs_plug _).symm)
    rw [hsame]
  have hids : (left.append (.node node (f data) inner right)).identities =
      (left.append (.node node data inner right)).identities := by
    simp [LinkForest.identities, LinkForest.items, hidentity]
  have hidentities : (context.plug (left.append (.node node (f data) inner right))).identities.Perm
      (context.plug (left.append (.node node data inner right))).identities := by
    refine ((context.items_plug _).map _).trans
      (List.Perm.trans ?_ ((context.items_plug _).map _).symm)
    rw [List.map_append, List.map_append]
    exact List.Perm.append_left _ (List.Perm.of_eq hids)
  have hsize : (context.plug (left.append (.node node (f data) inner right))).size =
      (context.plug (left.append (.node node data inner right))).size := by
    rw [← LinkForest.addrs_length, ← LinkForest.addrs_length, haddrs.length_eq]
  have hlists : Lists heap none (context.plug (left.append (.node node (f data) inner right))) :=
    h.lists.edit h.nodup hedit (fun a ha hmem => hdisjoint a hmem a (hsame ▸ ha) rfl)
      (fun b hb => by cases hb)
  refine ⟨heap, hmodify, hlists, ?_, ?_, haddrs.nodup_iff.mpr h.nodup, ?_, ?_, h.room, ?_,
    hidentities.nodup_iff.mpr h.identities, ?_, h.available, ?_⟩
  · intro a ha
    refine haddrs.mem_iff.mpr (h.live a ?_)
    by_cases heq : a = node
    · rw [heq, h.cell]
      rfl
    · have hstore := congrArg (fun found => found.map fun heap => heap.cells a) hmodify
      simp only [LinkHeap.modify, h.cell, Option.map_some, put_cell_other heq,
        Option.some.injEq] at hstore
      rw [hstore]
      exact ha
  · exact fun hmem => h.blocks (haddrs.mem_iff.mp hmem)
  · have hlist := typed_append.mp (typed_list h.typed)
    refine typed_plug h.typed (typed_owner h.typed fun hnil => ?_)
      (typed_append.mpr ⟨hlist.1, ?_, ?_, hlist.2.2.2⟩)
    · have hfirst := congrArg LinkForest.firstAddr hnil
      simp at hfirst
    · rw [hconstructed]
      exact hlist.2.1
    · rw [hconstructed]
      exact hvalue
  · rw [hsize]
    exact h.count
  · have hheight := LinkContext.height_plug.mp h.height
    refine LinkContext.height_plug.mpr ⟨hheight.1, ?_⟩
    have hle := hheight.2
    simp only [LinkForest.height_append, LinkForest.height] at hle ⊢
    exact hle
  · exact fun identity hmem => h.issued identity (hidentities.mem_iff.mp hmem)
  · rw [hsize]
    exact h.retired

/-- An erased node leaves the forest with its subtree. -/
theorem Represents.erase_now
    (h : document.Represents (context.plug (left.append (.node node data inner right)))) :
    ∃ after, document.eraseNow node = some after ∧
      after.Represents (context.plug (left.append right)) ∧ Keeps document after ∧
      after.nextIdentity = document.nextIdentity ∧ after.refusals = document.refusals ∧
      after.retireEpoch = document.retireEpoch + 1 ∧
      after.revision = counterNext document.revision := by
  have haddrs := context.addrs_plug_node left node data inner right
  have hsize : (context.plug (left.append (.node node data inner right))).size =
      inner.size + 1 + (context.plug (left.append right)).size := by
    have hlength := haddrs.length_eq
    simp only [List.length_append, List.length_cons, LinkForest.addrs_length] at hlength
    omega
  have hbound := h.size_lt
  have hdeep := context_length_le context (left.append (.node node data inner right))
  obtain ⟨locations, hinvalidate, -⟩ :=
    invalidate_locations_spec h.lists.holds (by omega : context.length ≤ document.bound)
  obtain ⟨hcontext, hlistnodup, hdisjoint⟩ := List.nodup_append.mp
    ((context.addrs_plug (left.append (.node node data inner right))).nodup_iff.mp h.nodup)
  obtain ⟨unlinked, hunlink, hedit, hnode⟩ :=
    h.lists.inside.unlink_at hlistnodup h.owner_not_mem
  have hnodup : (node :: inner.addrs).Nodup :=
    (List.nodup_append.mp (haddrs.nodup_iff.mp h.nodup)).1
  have hcount := Holds.subtree_size hnode.1 rfl hnode.2.1 (List.nodup_cons.mp hnodup).1
    (show inner.size < document.bound by omega)
  have hfree := Holds.free_subtree hnode.1 rfl hnode.2.1 hnodup
    (show 2 * inner.size < document.bound by omega)
  have hrest : Lists unlinked none (context.plug (left.append right)) := by
    refine h.lists.edit h.nodup hedit (fun a ha hmem => ?_) (fun b hb => by cases hb)
    refine hdisjoint a hmem a ?_ rfl
    rw [LinkForest.addrs_append, List.mem_append] at ha ⊢
    rcases ha with ha | ha
    · exact .inl ha
    · exact .inr (by simp [ha])
  have hoff : ∀ a ∈ (context.plug (left.append right)).addrs, a ∉ node :: inner.addrs :=
    fun a ha hmem => (List.nodup_append.mp (haddrs.nodup_iff.mp h.nodup)).2.2 a hmem a ha rfl
  refine ⟨{ document with
    heap := unlinked.without (node :: inner.addrs)
    locations := locations
    count := document.count - (inner.size + 1)
    retireEpoch := counterNext document.retireEpoch
    revision := counterNext document.revision }, ?_, h.shrink ⟨?_, hrest.first, hrest.last⟩ ?_
      rfl rfl rfl ?_,
    ⟨rfl, rfl, rfl, Nat.le_refl _, Nat.le_refl _⟩, rfl, rfl, ?_, rfl⟩
  · simp only [eraseNow, h.cell, hinvalidate, Option.bind_eq_bind, Option.bind_some, hunlink]
    have hsame : bound { document with locations := locations } = document.bound := rfl
    rw [hsame, hcount, Option.bind_some, hfree]
    rfl
  · exact hrest.holds.congr fun a ha => LinkHeap.without_cells (hoff a ha)
  · intro a ha
    have hnot : a ∉ node :: inner.addrs := by
      intro hmem
      have hnone : (unlinked.without (node :: inner.addrs)).cells a = none := if_pos hmem
      rw [hnone] at ha
      cases ha
    refine ⟨?_, hnot⟩
    rw [LinkHeap.without_cells hnot] at ha
    by_cases hmem : a ∈ (context.plug (left.append (.node node data inner right))).addrs
    · exact h.mem_iff.mp hmem
    · rw [(context.addrs_plug _).mem_iff, List.mem_append] at hmem
      rw [hedit.frame a ?_ (fun hin => hmem (.inr hin)) ?_] at ha
      · exact ha
      · intro heq
        exact hmem (.inl (LinkContext.owner_mem heq))
      · intro hin
        refine hmem (.inr ?_)
        rw [LinkForest.addrs_append, List.mem_append] at hin ⊢
        rcases hin with hin | hin
        · exact .inl hin
        · exact .inr (by simp [hin])
  · show counterNext document.retireEpoch ≤ document.retireEpoch + 1
    rw [h.epoch_next (by omega)]
  · exact h.epoch_next (by omega)

end Erase

section Replace

variable {context : LinkContext Place NodeData} {list list' : LinkForest Place NodeData}

/-- One list of a document becomes another, whose nodes were in it before or are new. -/
theorem Represents.replace (h : document.Represents (context.plug list)) {after : Document}
    (hlists : Lists after.heap none (context.plug list'))
    (hlive : ∀ a, (after.heap.cells a).isSome → a ∈ context.addrs ∨ a ∈ list'.addrs)
    (hblocks : .holder ∉ list'.addrs) (hnodup : list'.addrs.Nodup)
    (hnew : ∀ a ∈ list'.addrs, a ∉ context.addrs) (htyped : Typed list')
    (howner : ∀ level, context.head? = some level → level.data.constructed = true)
    (hoptions : after.options = document.options)
    (hcount : after.count + list.size = document.count + list'.size)
    (hroom : after.count ≤ document.options.maxElements)
    (hheight : context.length + list'.height ≤ document.options.maxDepth + 1)
    (hidentities : list'.identities.Nodup)
    (hissued : ∀ identity ∈ list'.identities,
      (identity ∈ list.identities ∨ document.nextIdentity < identity) ∧
        identity ≤ after.nextIdentity)
    (hnext : document.nextIdentity ≤ after.nextIdentity)
    (havailable : after.nextIdentity ≤ 2 ^ 64 - 1)
    (hretired : after.retireEpoch + after.count ≤ after.nextIdentity) :
    after.Represents (context.plug list') := by
  have hsplit := List.nodup_append.mp ((context.addrs_plug list).nodup_iff.mp h.nodup)
  have hids : (context.plug list).identities.Perm
      (context.items.map (fun item => item.2.identity) ++ list.identities) := by
    have hmap := (context.items_plug list).map fun item => item.2.identity
    rwa [List.map_append] at hmap
  have hids' : (context.plug list').identities.Perm
      (context.items.map (fun item => item.2.identity) ++ list'.identities) := by
    have hmap := (context.items_plug list').map fun item => item.2.identity
    rwa [List.map_append] at hmap
  have hidsplit := List.nodup_append.mp (hids.nodup_iff.mp h.identities)
  have hold : ∀ identity ∈ context.items.map (fun item => item.2.identity),
      0 < identity ∧ identity ≤ document.nextIdentity := fun identity hmem =>
    h.issued identity (hids.mem_iff.mpr (List.mem_append_left _ hmem))
  have hsize := LinkContext.size_plug context list
  have hsize' := LinkContext.size_plug context list'
  have hcounted := h.count
  refine ⟨hlists, ?_, ?_, ?_, ?_, ?_, ?_, ?_, ?_, ?_, havailable, ?_⟩
  · intro a ha
    rw [(context.addrs_plug list').mem_iff, List.mem_append]
    exact hlive a ha
  · rw [(context.addrs_plug list').mem_iff, List.mem_append]
    rintro (hmem | hmem)
    · refine h.blocks ?_
      rw [(context.addrs_plug list).mem_iff]
      exact List.mem_append_left _ hmem
    · exact hblocks hmem
  · refine (context.addrs_plug list').nodup_iff.mpr (List.nodup_append.mpr ⟨hsplit.1, hnodup, ?_⟩)
    intro a ha b hb heq
    exact hnew b hb (heq ▸ ha)
  · exact typed_plug h.typed howner htyped
  · omega
  · rw [hoptions]
    exact hroom
  · rw [hoptions]
    exact LinkContext.height_plug.mpr ⟨(LinkContext.height_plug.mp h.height).1, hheight⟩
  · refine hids'.nodup_iff.mpr (List.nodup_append.mpr ⟨hidsplit.1, hidentities, ?_⟩)
    intro identity hmem other hother heq
    rcases (hissued other hother).1 with hin | hlt
    · exact hidsplit.2.2 identity hmem other hin heq
    · have hle := (hold identity hmem).2
      omega
  · intro identity hmem
    rcases List.mem_append.mp (hids'.mem_iff.mp hmem) with hmem | hmem
    · exact ⟨(hold identity hmem).1, (hold identity hmem).2.trans hnext⟩
    · refine ⟨?_, (hissued identity hmem).2⟩
      rcases (hissued identity hmem).1 with hin | hlt
      · exact (h.issued identity (hids.mem_iff.mpr (List.mem_append_right _ hin))).1
      · omega
  · omega

end Replace

section Holder

variable {base after : Document} {depth count : Nat} {built : LinkForest Place NodeData}

/-- A list of nodes on the side can be built below the holder. -/
theorem Represents.start (h : document.Represents forest) (hcount : count ≤ document.count)
    (depth : Nat) :
    Grows { document.enterHolder with count := count } { document.enterHolder with count := count }
      (some .holder) depth .nil := by
  have hholder : document.enterHolder.heap.cells .holder = some { data := {} } := by
    simp [enterHolder, LinkHeap.birth]
  refine ⟨Unedited.refl _, ⟨⟨trivial, ?_, ?_⟩, ?_, fun _ => ⟨rfl, rfl⟩, fun _ _ _ _ => rfl⟩, ?_,
    (fun a ha => by cases ha), List.nodup_nil, trivial, (fun item hitem => by cases hitem), rfl,
    hcount.trans h.room, .inl rfl,
    List.nodup_nil, (fun identity hmem => by cases hmem), h.available⟩
  · show (document.enterHolder.heap.cells .holder).map LinkCell.first = _
    rw [hholder]
    rfl
  · show (document.enterHolder.heap.cells .holder).map LinkCell.last = _
    rw [hholder]
    rfl
  · intro a ha
    cases ha
    show document.enterHolder.heap.cells .holder = _
    rw [hholder]
    rfl
  · intro p hp
    cases hp
    show (document.enterHolder.heap.cells .holder).isSome
    rw [hholder]
    rfl

/-- While nodes are built on the side, the document is as it was. -/
theorem Represents.beside (h : document.Represents forest)
    (hgrows : Grows { document.enterHolder with count := count } after (some .holder) depth built) :
    (∀ a, a ≠ .holder → a ∉ built.addrs → after.heap.cells a = document.heap.cells a) ∧
      after.heap.first = document.heap.first ∧ after.heap.last = document.heap.last ∧
      (∀ a ∈ built.addrs, document.heap.cells a = none ∧ a ≠ .holder ∧ a ∉ forest.addrs) ∧
      Lists after.heap none forest := by
  have hcells : ∀ a, a ≠ .holder → a ∉ built.addrs →
      after.heap.cells a = document.heap.cells a := by
    intro a ha hmem
    rw [hgrows.edit.frame a (fun heq => ha (Option.some.inj heq).symm) (by simp) hmem]
    exact put_cell_other ha
  have hroot := hgrows.edit.root (by simp)
  have hfresh : ∀ a ∈ built.addrs,
      document.heap.cells a = none ∧ a ≠ .holder ∧ a ∉ forest.addrs := by
    intro a ha
    obtain ⟨hdead, hne⟩ := hgrows.fresh a ha
    have hdead' : document.heap.cells a = none := (put_cell_other hne).symm.trans hdead
    refine ⟨hdead', hne, fun hmem => ?_⟩
    have hsome := h.mem_iff.mp hmem
    rw [hdead'] at hsome
    cases hsome
  refine ⟨hcells, hroot.1, hroot.2, hfresh, h.lists.holds.congr fun a ha => ?_, ?_, ?_⟩
  · exact hcells a (fun heq => h.blocks (heq ▸ ha)) fun hmem => (hfresh a hmem).2.2 ha
  · rw [← h.lists.first]
    exact congrArg some hroot.1
  · rw [← h.lists.last]
    exact congrArg some hroot.2

/-- With nothing built on the side the heap is the old one. -/
theorem Represents.leave_holder (h : document.Represents forest)
    (hgrows : Grows { document.enterHolder with count := count } after (some .holder) depth .nil) :
    after.leaveHolder.heap = document.heap := by
  obtain ⟨hcells, hfirst, hlast, -, -⟩ := h.beside hgrows
  have hall : after.leaveHolder.heap.cells = document.heap.cells := by
    funext a
    by_cases ha : a = .holder
    · rw [ha, h.holder_dead]
      simp [leaveHolder, LinkHeap.release]
    · exact (put_cell_other ha).trans (hcells a ha (by simp))
  cases hheap : document.heap with
  | mk cells first last =>
    rw [hheap] at hall hfirst hlast
    show LinkHeap.mk _ _ _ = _
    exact LinkHeap.mk.injEq _ _ _ _ _ _ ▸ ⟨hall, hfirst, hlast⟩

end Holder

section Insert

variable {parent before : Option Place}

/-- A place in a list: below `parent` and ahead of `before`. -/
theorem Represents.place (h : document.Represents forest)
    (hparent : ∀ p, parent = some p → (document.heap.cells p).isSome)
    (hbefore : ∀ b, before = some b → (document.heap.cells b).map LinkCell.parent = some parent) :
    ∃ (context : LinkContext Place NodeData) (left right : LinkForest Place NodeData),
      forest = context.plug (left.append right) ∧ context.owner none = parent ∧
      right.firstAddr = before := by
  cases before with
  | some b =>
    have hcell := hbefore b rfl
    have hlive : (document.heap.cells b).isSome := by
      cases hb : document.heap.cells b with
      | none => rw [hb] at hcell; cases hcell
      | some cell => rfl
    obtain ⟨context, left, data, inner, right, hforest, hnode⟩ := h.node hlive
    rw [hnode] at hcell
    exact ⟨context, left, .node b data inner right, hforest, Option.some.inj hcell, rfl⟩
  | none =>
    cases parent with
    | none => exact ⟨[], forest, .nil, (LinkForest.append_nil forest).symm, rfl, rfl⟩
    | some p =>
      obtain ⟨context, left, data, inner, right, hforest, -⟩ := h.node (hparent p rfl)
      refine ⟨⟨p, data, left, right⟩ :: context, inner, .nil, ?_, rfl, rfl⟩
      rw [LinkForest.append_nil]
      exact hforest

/-- The depth of a new node below `parent`. -/
theorem Represents.depth_at {context : LinkContext Place NodeData}
    {list : LinkForest Place NodeData}
    (h : document.Represents (context.plug list)) :
    document.childDepth (context.owner none) = some context.length := by
  cases context with
  | nil => rfl
  | cons level outer =>
    have hcell := LinkContext.holds_owner h.lists.holds
    have hbound := h.size_lt
    have hdeep := context_length_le (level :: outer) list
    have hdepth := @LinkContext.depth_from _ _ _ outer _ h.lists.holds _ _ hcell rfl _ 0
      (show outer.length < document.bound by simp only [List.length_cons] at hdeep; omega)
    simp [LinkContext.owner, childDepth, nodeDepth, hdepth]

section Placing

variable {context : LinkContext Place NodeData} {left right inner : LinkForest Place NodeData}
  {node : Place} {item : NodeData} {after : Document}

/-- The nodes of a list that one more node was put into. -/
theorem mem_inserted (a : Place) : a ∈ (left.append (.node node item inner right)).addrs ↔
    a ∈ (left.append right).addrs ∨ a ∈ node :: inner.addrs := by
  simp only [LinkForest.addrs_append, LinkForest.addrs_node, List.mem_append, List.mem_cons]
  tauto

/-- The identities of a list that one more node was put into. -/
theorem identities_inserted : (left.append (.node node item inner right)).identities.Perm
    ((LinkForest.single node item inner).identities ++ (left.append right).identities) := by
  have hmap := (LinkContext.items_plug_node [] left node item inner right).map
    fun item => item.2.identity
  rw [List.map_append] at hmap
  have hsingle : (LinkForest.single node item inner).items = (node, item) :: inner.items := by
    simp [LinkForest.single, LinkForest.items]
  rw [LinkForest.identities, LinkForest.identities, LinkForest.identities, hsingle]
  exact hmap

theorem addrs_single :
    (LinkForest.single node item inner).addrs = node :: inner.addrs := by
  simp [LinkForest.single]

/-- A new node stands in a list and nowhere else. -/
structure Inserted (context : LinkContext Place NodeData)
    (left right inner : LinkForest Place NodeData) (node : Place) (item : NodeData) : Prop where
  nodup : (left.append (.node node item inner right)).addrs.Nodup
  outside : ∀ a ∈ (left.append (.node node item inner right)).addrs, a ∉ context.addrs
  owner : ∀ p, context.owner none = some p →
    p ∉ (left.append (.node node item inner right)).addrs
  holder : .holder ∉ context.addrs ∧ .holder ∉ (left.append (.node node item inner right)).addrs

/-- A node that was built beside a document may be put into any of its lists. -/
theorem Represents.inserted (h : document.Represents (context.plug (left.append right)))
    (hgrows : Grows { document.enterHolder with count := document.count } after (some .holder)
      context.length (.single node item inner)) :
    Inserted context left right inner node item := by
  obtain ⟨-, -, -, hfresh, -⟩ := h.beside hgrows
  rw [addrs_single] at hfresh
  obtain ⟨-, hlistnodup, hdisjoint⟩ := List.nodup_append.mp
    ((context.addrs_plug (left.append right)).nodup_iff.mp h.nodup)
  have hnew : ∀ a ∈ node :: inner.addrs, a ∉ context.addrs ∧ a ∉ (left.append right).addrs := by
    intro a ha
    have hnot := (hfresh a ha).2.2
    rw [(context.addrs_plug _).mem_iff, List.mem_append] at hnot
    exact ⟨fun hin => hnot (.inl hin), fun hin => hnot (.inr hin)⟩
  have hblocks := h.blocks
  rw [(context.addrs_plug _).mem_iff, List.mem_append, not_or] at hblocks
  refine ⟨?_, fun a ha hcon => ?_, fun p hp hin => ?_, hblocks.1, fun hin => ?_⟩
  · have hperm : (left.append (.node node item inner right)).addrs.Perm
        (node :: inner.addrs ++ (left.append right).addrs) :=
      LinkContext.addrs_plug_node [] left node item inner right
    refine hperm.nodup_iff.mpr
      (List.nodup_append.mpr ⟨addrs_single ▸ hgrows.nodup, hlistnodup, ?_⟩)
    intro a ha b hb heq
    exact (hnew a ha).2 (heq ▸ hb)
  · rcases (mem_inserted a).mp ha with ha | ha
    · exact hdisjoint a hcon a ha rfl
    · exact (hnew a ha).1 hcon
  · rcases (mem_inserted p).mp hin with hin | hin
    · exact h.owner_not_mem p hp hin
    · exact (hnew p hin).1 (LinkContext.owner_mem hp)
  · rcases (mem_inserted .holder).mp hin with hin | hin
    · exact hblocks.2 hin
    · exact (hfresh .holder hin).2.1 rfl

/-- The built node leaves the list of the holder. -/
theorem Represents.unlink_built (h : document.Represents (context.plug (left.append right)))
    (hgrows : Grows { document.enterHolder with count := document.count } after (some .holder)
      context.length (.single node item inner)) :
    ∃ unlinked, after.heap.unlink node = some unlinked ∧
      Lists unlinked none (context.plug (left.append right)) ∧
      Holds unlinked.cells none none none (.single node item inner) ∧
      ∀ a, a ≠ .holder → a ∉ node :: inner.addrs →
        unlinked.cells a = document.heap.cells a := by
  obtain ⟨hcells, hfirst, hlast, hfresh, -⟩ := h.beside hgrows
  rw [addrs_single] at hcells hfresh
  have hside : Lists after.heap (some .holder)
      (LinkForest.nil.append (.node node item inner .nil)) := hgrows.edit.lists
  obtain ⟨unlinked, hunlink, hout, hnode⟩ := hside.unlink_at hgrows.nodup (by
    intro p hp
    cases hp
    exact fun hmem => (hgrows.fresh .holder hmem).2 rfl)
  have hfar : ∀ a, a ≠ .holder → a ∉ node :: inner.addrs →
      unlinked.cells a = document.heap.cells a := by
    intro a ha hmem
    rw [hout.frame a (fun heq => ha (Option.some.inj heq).symm) (by simpa using hmem)
      (by simp [LinkForest.append])]
    exact hcells a ha hmem
  have hroot := hout.root (by simp)
  refine ⟨unlinked, hunlink, ⟨h.lists.holds.congr fun a ha => hfar a (fun heq => h.blocks (heq ▸ ha))
    fun hmem => (hfresh a hmem).2.2 ha, ?_, ?_⟩, hnode, hfar⟩
  · rw [← h.lists.first]
    exact congrArg some (hroot.1.trans hfirst)
  · rw [← h.lists.last]
    exact congrArg some (hroot.2.trans hlast)

/-- A document with a built node in one of its lists. -/
theorem Represents.grown (h : document.Represents (context.plug (left.append right)))
    (howner : ∀ level, context.head? = some level → level.data.constructed = true)
    (hgrows : Grows { document.enterHolder with count := document.count } after (some .holder)
      context.length (.single node item inner)) {placed : Document}
    (hlists : Lists placed.heap none (context.plug (left.append (.node node item inner right))))
    (hlive : ∀ a, (placed.heap.cells a).isSome →
      a ∈ context.addrs ∨ a ∈ (left.append (.node node item inner right)).addrs)
    (hoptions : placed.options = after.options) (hcounted : placed.count = after.count)
    (hidentity : placed.nextIdentity = after.nextIdentity)
    (hepoch : placed.retireEpoch = after.retireEpoch) :
    placed.Represents (context.plug (left.append (.node node item inner right))) := by
  have hinserted := h.inserted hgrows
  have hretired := h.retired
  have hissued := hgrows.issued
  have hcount := hgrows.count
  have htyped := typed_append.mp (typed_list h.typed)
  have hlistids := h.list_identities
  have hids := @identities_inserted left right inner node item
  have hsize : (left.append (.node node item inner right)).size =
      (left.append right).size + (inner.size + 1) := by
    simp only [LinkForest.size_append, LinkForest.size]
    omega
  refine h.replace hlists hlive hinserted.holder.2 hinserted.nodup hinserted.outside
    (typed_append.mpr ⟨htyped.1, hgrows.typed.1, hgrows.typed.2.1, hgrows.typed.2.2.1, htyped.2⟩)
    howner (hoptions.trans hgrows.unedited.options) ?_ ?_ ?_ ?_ ?_ ?_ ?_ ?_
  · rw [hcounted, hcount, hsize]
    show document.count + (inner.size + 1) + _ = _
    omega
  · rw [hcounted]
    exact hgrows.unedited.options ▸ hgrows.room
  · have hold := (LinkContext.height_plug.mp h.height).2
    have hbuilt := hgrows.height.resolve_left (by simp [LinkForest.single])
    rw [hgrows.unedited.options] at hbuilt
    simp only [LinkForest.single, LinkForest.height_append, LinkForest.height] at hold hbuilt ⊢
    simp only [enterHolder] at hbuilt
    omega
  · refine hids.nodup_iff.mpr (List.nodup_append.mpr ⟨hgrows.identities, hlistids.1, ?_⟩)
    intro identity hmem other hother heq
    have hlt := (hissued identity hmem).1
    have hle := (hlistids.2 other hother).2
    simp only [enterHolder] at hlt
    omega
  · rw [hidentity]
    intro identity hmem
    rcases List.mem_append.mp (hids.mem_iff.mp hmem) with hmem | hmem
    · exact ⟨.inr (hissued identity hmem).1, (hissued identity hmem).2⟩
    · exact ⟨.inl hmem, (hlistids.2 identity hmem).2.trans hgrows.unedited.nextIdentity⟩
  · rw [hidentity]
    exact hgrows.unedited.nextIdentity
  · rw [hidentity]
    exact hgrows.available
  · have hused := hgrows.issued_size
    rw [h.count] at hcount
    simp only [enterHolder] at hcount hused
    rw [hepoch, hcounted, hidentity, hgrows.unedited.retireEpoch]
    simp only [enterHolder]
    omega

/-- The built node is moved from the holder into its list. -/
theorem Represents.place_node (h : document.Represents (context.plug (left.append right)))
    (howner : ∀ level, context.head? = some level → level.data.constructed = true)
    (hgrows : Grows { document.enterHolder with count := document.count } after (some .holder)
      context.length (.single node item inner)) :
    ∃ placed, after.placeNode (context.owner none) right.firstAddr node = some placed ∧
      placed.Represents (context.plug (left.append (.node node item inner right))) ∧
      Keeps document placed ∧ placed.refusals = after.refusals ∧
      placed.retireEpoch = document.retireEpoch ∧
      placed.revision = counterNext document.revision ∧
      ∀ a ∉ context.addrs, placed.locations a = after.locations a := by
  have hinserted := h.inserted hgrows
  obtain ⟨unlinked, hunlink, hforest, hnode, hfar⟩ := h.unlink_built hgrows
  obtain ⟨linked, hlink, hin⟩ :=
    hforest.inside.link_at hnode hinserted.nodup hinserted.owner
  have hplaced : Lists linked none (context.plug (left.append (.node node item inner right))) :=
    hforest.edit h.nodup hin hinserted.outside (fun b hb => by cases hb)
  have hbound := h.size_lt
  have hdeep := context_length_le context (left.append right)
  have hsame : bound { after with heap := linked } = document.bound := by
    unfold bound
    rw [hgrows.unedited.options]
    rfl
  obtain ⟨locations, hinvalidate, hlocations⟩ := @invalidate_locations_spec
    { after with heap := linked } _ _ hplaced.holds (by rw [hsame]; omega)
  have hreleased : ∀ a, a ≠ .holder → (linked.release .holder).cells a = linked.cells a :=
    fun a ha => put_cell_other ha
  refine ⟨{ after with
    heap := linked.release .holder
    locations := locations
    revision := counterNext after.revision }, ?_, ?_, ?_, rfl, hgrows.unedited.retireEpoch,
    congrArg counterNext hgrows.unedited.revision, hlocations⟩
  · simp only [placeNode, hunlink, hlink, hinvalidate, Option.bind_eq_bind, Option.bind_some]
    rfl
  · refine h.grown howner hgrows
      ⟨hplaced.holds.congr fun a ha => hreleased a fun heq => ?_, hplaced.first, hplaced.last⟩
      (fun a ha => ?_) rfl rfl rfl rfl
    · subst heq
      rcases List.mem_append.mp ((context.addrs_plug _).mem_iff.mp ha) with ha | ha
      · exact hinserted.holder.1 ha
      · exact hinserted.holder.2 ha
    · have hne : a ≠ .holder := by
        intro heq
        subst heq
        simp [LinkHeap.release] at ha
      have hlinked : (linked.cells a).isSome := (hreleased a hne) ▸ ha
      by_cases hin' : a ∈ (left.append (.node node item inner right)).addrs
      · exact .inr hin'
      -- The rest of the heap is what it was before the edit.
      have hnot : a ∉ (left.append right).addrs ∧ a ∉ node :: inner.addrs := by
        rw [mem_inserted, not_or] at hin'
        exact hin'
      by_cases hown : context.owner none = some a
      · exact .inl (LinkContext.owner_mem hown)
      · rw [hin.frame a hown hnot.1 hin', hfar a hne hnot.2] at hlinked
        have hall := h.live a hlinked
        rw [(context.addrs_plug _).mem_iff, List.mem_append] at hall
        exact .inl (hall.resolve_right hnot.1)
  · exact ⟨hgrows.unedited.options, hgrows.unedited.queryCallbacks, hgrows.unedited.queryPending,
      hgrows.unedited.nextIdentity, hgrows.unedited.refusals⟩

end Placing

/-- What a call that fails leaves: the nodes, their locations and the counters are as they were. -/
structure Fails (document after : Document) : Prop where
  heap : after.heap = document.heap
  count : after.count = document.count
  unedited : Unedited document after
  available : after.nextIdentity ≤ 2 ^ 64 - 1

theorem Represents.fails_refl (h : document.Represents forest) : Fails document document :=
  ⟨rfl, rfl, Unedited.refl document, h.available⟩

theorem Represents.fails_asks (h : document.Represents forest) {asked : Document} {refused : Bool}
    (hasks : Asks document asked refused) : Fails document asked := by
  refine ⟨hasks.heap, hasks.count, hasks.unedited, ?_⟩
  rw [hasks.nextIdentity]
  exact h.available

theorem Represents.after_failure (h : document.Represents forest) {after : Document}
    (hfails : Fails document after) : after.Represents forest :=
  h.congr hfails.heap hfails.unedited.options hfails.count hfails.unedited.retireEpoch
    hfails.unedited.nextIdentity hfails.available

/-- With nothing built on the side, the call has changed nothing. -/
theorem Represents.fails_beside (h : document.Represents forest) {after : Document}
    {depth count : Nat}
    (hgrows : Grows { document.enterHolder with count := count } after (some .holder) depth .nil)
    {result : Document} (hresult : result = { after.leaveHolder with count := document.count }) :
    Fails document result := by
  have hunedited := hgrows.unedited
  subst hresult
  refine ⟨h.leave_holder hgrows, rfl, ⟨hunedited.options, hunedited.revision, hunedited.retireEpoch,
    hunedited.queryCallbacks, hunedited.queryPending, hunedited.nextIdentity, hunedited.refusals,
    fun a ha => ?_⟩, hgrows.available⟩
  refine hunedited.locations a ?_
  show (putCell _ _ _ a).isSome
  rw [put_cell_other]
  · exact ha
  · intro heq
    rw [heq, h.holder_dead] at ha
    cases ha

/-- What `tlv_document_insert` can do at a place in a list. -/
inductive Inserts (document : Document) (context : LinkContext Place NodeData)
    (left right : LinkForest Place NodeData) (element : Element) : DocumentResult Place → Prop where
  | failed {status : Status} {after : Document} (hfails : Fails document after)
      (hreason : after.refusals = document.refusals → document.queryCallbacks = 0 →
        (∀ level, context.head? = some level → level.data.constructed = true) →
        probeTag document.options.format element.tag element.tag_le = .ok () →
        ∀ events, ¬ document.Builds element.tag element.value context.length events) :
      Inserts document context left right element (.error status, after)
  | inserted {inner : LinkForest Place NodeData} {node : Place} {item : NodeData} {after : Document}
      {events : List TreeEvent}
      (hrepresents : after.Represents (context.plug (left.append (.node node item inner right))))
      (hitem : item.tag = element.tag ∧
        item.constructed = document.options.format.constructs element.tag ∧
        item.value = if document.options.format.constructs element.tag then [] else element.value)
      (hbuilds : document.Builds element.tag element.value context.length events)
      (hspell : inner.spell after.locations = events.map (TreeEvent.token false))
      (hnew : ∀ identity ∈ item.identity :: inner.identities, document.nextIdentity < identity)
      (hunmarked : Unmarked (.single node item inner))
      (hkeeps : Keeps document after) (hrefusals : after.refusals = document.refusals)
      (hepoch : after.retireEpoch = document.retireEpoch)
      (hrevision : after.revision = counterNext document.revision) :
      Inserts document context left right element (.ok node, after)

/-- The owner of a list takes children if it is constructed. -/
theorem Represents.insertable_at {context : LinkContext Place NodeData}
    {left right : LinkForest Place NodeData}
    (h : document.Represents (context.plug (left.append right))) :
    (document.insertable (context.owner none) right.firstAddr = some true ∧
        ∀ level, context.head? = some level → level.data.constructed = true) ∨
      (document.insertable (context.owner none) right.firstAddr = some false ∧
        ∃ level, context.head? = some level ∧ level.data.constructed = false) := by
  have hbelongs : document.belongs (context.owner none) right.firstAddr = some true := by
    cases right with
    | nil => rfl
    | node addr data inner rest =>
      have hcell := (holds_append.mp (LinkContext.holds_list h.lists.holds)).2.1
      simp [belongs, hcell]
  cases context with
  | nil =>
    refine .inl ⟨?_, fun level hlevel => by cases hlevel⟩
    rw [insertable]
    exact hbelongs
  | cons level outer =>
    have hcell := LinkContext.holds_owner h.lists.holds
    have haccepts : document.accepts (LinkContext.owner none (level :: outer)) =
        some level.data.constructed := by
      simp [accepts, LinkContext.owner, hcell]
    rw [insertable, haccepts]
    cases hkind : level.data.constructed with
    | true =>
      refine .inl ⟨?_, ?_⟩
      · simpa using hbelongs
      · intro other hother
        cases hother
        exact hkind
    | false => exact .inr ⟨rfl, level, rfl, hkind⟩

/-- An insertion adds one node at its place or fails unchanged. -/
theorem Represents.insert_at {context : LinkContext Place NodeData}
    {left right : LinkForest Place NodeData}
    (h : document.Represents (context.plug (left.append right))) (element : Element) :
    ∃ result, document.insert (context.owner none) right.firstAddr element = some result ∧
      Inserts document context left right element result := by
  unfold insert
  by_cases hcallback : document.queryCallbacks ≠ 0
  · rw [if_pos hcallback]
    exact ⟨_, rfl, .failed h.fails_refl fun _ hidle => absurd hidle hcallback⟩
  · rw [if_neg hcallback]
    rcases h.insertable_at with ⟨hplace, howner⟩ | ⟨hplace, level, hlevel, hprimitive⟩
    · rw [hplace]
      simp only [Option.bind_eq_bind, Option.bind_some, if_true]
      cases hprobe : probeTag document.options.format element.tag element.tag_le with
      | error status =>
        refine ⟨_, rfl, .failed h.fails_refl fun _ _ _ hok => ?_⟩
        rw [hprobe] at hok
        cases hok
      | ok done =>
        dsimp only
        rw [h.depth_at, Option.bind_some]
        have hstart := h.start (Nat.le_refl document.count) context.length
        obtain ⟨result, hbuild, hbuilt⟩ := hstart.build_node element.tag element.value
        have hbuild' : document.enterHolder.buildNode (some .holder) element.tag element.value
            context.length = some result := hbuild
        rw [hbuild', Option.bind_some]
        cases hbuilt with
        | @failed status after hgrows hrefusals hfails =>
          refine ⟨(.error status, after.leaveHolder), rfl, .failed (h.fails_beside hgrows ?_) ?_⟩
          · have hcount : after.count = document.count := hgrows.count
            rw [← hcount]
            rfl
          · exact fun hsame _ _ _ events => hfails hsame events
        | @built node item inner after events hgrows hitem hbuilds hspell hrefusals =>
          obtain ⟨placed, hplaced, hrepresents, hkeeps, hsame, hepoch, hrevision, hlocations⟩ :=
            h.place_node howner hgrows
          refine ⟨(.ok node, placed), ?_, .inserted hrepresents hitem hbuilds ?_ ?_
            hgrows.unmarked hkeeps ?_ hepoch hrevision⟩
          · show (after.placeNode _ _ node).bind _ = _
            rw [hplaced]
            rfl
          · refine (spell_congr fun a ha => hlocations a fun hmem => ?_).trans hspell
            refine ((h.beside hgrows).2.2.2.1 a ?_).2.2 ?_
            · simp [LinkForest.single, ha]
            · rw [(context.addrs_plug _).mem_iff]
              exact List.mem_append_left _ hmem
          · intro identity hmem
            refine (hgrows.issued identity ?_).1
            simpa [LinkForest.identities, LinkForest.single, LinkForest.items] using hmem
          · exact hsame.trans hrefusals
    · refine ⟨(.error .invalidArg, document), ?_, .failed h.fails_refl fun _ _ howner => ?_⟩
      · rw [hplace]
        rfl
      · rw [howner level hlevel] at hprimitive
        cases hprimitive

/-- `tlv_document_insert` returns: it fails, or there is a place in a list for the new node. -/
theorem Represents.insert_spec (h : document.Represents forest)
    (hparent : ∀ p, parent = some p → (document.heap.cells p).isSome)
    (hbefore : ∀ b, before = some b → (document.heap.cells b).isSome) (element : Element) :
    ∃ result, document.insert parent before element = some result ∧
      ((∃ status after, result = (.error status, after) ∧ Fails document after) ∨
        ∃ (context : LinkContext Place NodeData) (left right : LinkForest Place NodeData),
          forest = context.plug (left.append right) ∧ context.owner none = parent ∧
          right.firstAddr = before ∧ Inserts document context left right element result) := by
  by_cases hplace : ∀ b, before = some b →
      (document.heap.cells b).map LinkCell.parent = some parent
  · obtain ⟨context, left, right, hforest, hcontext, hright⟩ := h.place hparent hplace
    obtain ⟨result, hinsert, hinserts⟩ := (hforest ▸ h).insert_at element
    rw [hcontext, hright] at hinsert
    exact ⟨result, hinsert, .inr ⟨context, left, right, hforest, hcontext, hright, hinserts⟩⟩
  · have hstranger : ∃ b cell, before = some b ∧ document.heap.cells b = some cell ∧
        cell.parent ≠ parent := by
      by_contra hnone
      refine hplace fun b hb => ?_
      obtain ⟨cell, hcell⟩ := Option.isSome_iff_exists.mp (hbefore b hb)
      rw [hcell]
      by_contra hne
      exact hnone ⟨b, cell, hb, hcell, fun heq => hne (congrArg some heq)⟩
    obtain ⟨b, cell, rfl, hcell, hne⟩ := hstranger
    have hbelongs : document.belongs parent (some b) = some false := by
      simp [belongs, hcell, hne]
    have haccepts : ∃ accepts, document.accepts parent = some accepts := by
      cases parent with
      | none => exact ⟨true, rfl⟩
      | some p =>
        obtain ⟨owner, howner⟩ := Option.isSome_iff_exists.mp (hparent p rfl)
        exact ⟨owner.data.constructed, by simp [accepts, howner]⟩
    obtain ⟨accepts, haccepts⟩ := haccepts
    have hinsertable : document.insertable parent (some b) = some false := by
      rw [insertable, haccepts]
      cases accepts with
      | false => rfl
      | true => exact hbelongs
    unfold insert
    split
    · exact ⟨_, rfl, .inl ⟨_, _, rfl, h.fails_refl⟩⟩
    · refine ⟨(.error .invalidArg, document), ?_, .inl ⟨_, _, rfl, h.fails_refl⟩⟩
      rw [hinsertable]
      rfl

end Insert

end Document

end OpenTlv
