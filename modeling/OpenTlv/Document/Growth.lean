import OpenTlv.Document.Document

/-!
# Lists that are built

While elements are read, nodes are only added, below one owner that had no children before.
`Grows` says what the document then is compared with the one at the beginning: the new nodes form a
forest of their own, and everything else is as it was. It holds after each event, whether the call
succeeds in the end or not, so a failure leaves a forest that can be given back.
-/

namespace OpenTlv

/-- Primitive nodes have no children, constructed ones no value. -/
def Typed : LinkForest Place NodeData → Prop
  | .nil => True
  | .node _ data inner rest =>
    (data.constructed = false → inner = .nil) ∧ (data.constructed = true → data.value = []) ∧
      Typed inner ∧ Typed rest

theorem typed_append {forest other : LinkForest Place NodeData} :
    Typed (forest.append other) ↔ Typed forest ∧ Typed other := by
  induction forest with
  | nil => simp [LinkForest.append, Typed]
  | node addr data inner rest _ ih => simp [LinkForest.append, Typed, ih, and_assoc]

theorem typed_list {context : LinkContext Place NodeData} {list : LinkForest Place NodeData}
    (h : Typed (context.plug list)) : Typed list := by
  induction context generalizing list with
  | nil => exact h
  | cons level outer ih => exact (typed_append.mp (ih h)).2.2.2.1

/-- A node with a child is constructed. -/
theorem typed_owner {context : LinkContext Place NodeData} {list : LinkForest Place NodeData}
    (h : Typed (context.plug list)) (hlist : list ≠ .nil) :
    ∀ level, context.head? = some level → level.data.constructed = true := by
  intro level hlevel
  cases context with
  | nil => cases hlevel
  | cons other outer =>
    cases hlevel
    have hall : Typed (level.left.append (.node level.addr level.data list level.right)) :=
      typed_list h
    have hempty := (typed_append.mp hall).2.1
    cases hflag : level.data.constructed with
    | true => rfl
    | false => exact absurd (hempty hflag) hlist

/-- A list may be replaced below a constructed node. -/
theorem typed_plug {context : LinkContext Place NodeData} {list list' : LinkForest Place NodeData}
    (h : Typed (context.plug list))
    (howner : ∀ level, context.head? = some level → level.data.constructed = true)
    (hlist : Typed list') : Typed (context.plug list') := by
  induction context generalizing list list' with
  | nil => exact hlist
  | cons level outer ih =>
    have hall : Typed (level.left.append (.node level.addr level.data list level.right)) :=
      typed_list h
    obtain ⟨hleft, -, hvalue, -, hright⟩ := typed_append.mp hall
    have hconstructed := howner level rfl
    refine ih h ?_ (typed_append.mpr ⟨hleft, ?_, hvalue, hlist, hright⟩)
    · refine typed_owner h fun hnil => ?_
      have hfirst := congrArg LinkForest.firstAddr hnil
      simp at hfirst
    · intro hfalse
      rw [hconstructed] at hfalse
      cases hfalse

/-- The identities of the nodes of a forest. -/
def LinkForest.identities (forest : LinkForest Place NodeData) : List Nat :=
  forest.items.map fun item => item.2.identity

/-- No node waits to be erased. -/
def Unmarked (forest : LinkForest Place NodeData) : Prop :=
  ∀ item ∈ forest.items, item.2.pendingErase = false

namespace Document

/-- What stays the same while nodes are built. -/
structure Unedited (base document : Document) : Prop where
  options : document.options = base.options
  revision : document.revision = base.revision
  retireEpoch : document.retireEpoch = base.retireEpoch
  queryCallbacks : document.queryCallbacks = base.queryCallbacks
  queryPending : document.queryPending = base.queryPending
  nextIdentity : base.nextIdentity ≤ document.nextIdentity
  refusals : base.refusals ≤ document.refusals
  locations : ∀ a, (base.heap.cells a).isSome → document.locations a = base.locations a

/-- A forest was built below `parent`, which had no children; its roots have depth `depth`. -/
structure Grows (base document : Document) (parent : Option Place) (depth : Nat)
    (forest : LinkForest Place NodeData) : Prop where
  unedited : Unedited base document
  edit : ListEdit base.heap document.heap parent .nil forest
  owner : ∀ p, parent = some p → (base.heap.cells p).isSome
  fresh : ∀ a ∈ forest.addrs, base.heap.cells a = none ∧ a ≠ .holder
  nodup : forest.addrs.Nodup
  typed : Typed forest
  unmarked : Unmarked forest
  count : document.count = base.count + forest.size
  room : document.count ≤ document.options.maxElements
  height : forest = .nil ∨ depth + forest.height ≤ document.options.maxDepth + 1
  identities : forest.identities.Nodup
  issued : ∀ identity ∈ forest.identities, base.nextIdentity < identity ∧
    identity ≤ document.nextIdentity
  available : document.nextIdentity ≤ 2 ^ 64 - 1

section Create

variable {document : Document} {parent : Option Place} {tag value : Bytes} {constructed : Bool}
  {depth : Nat}

theorem Unedited.refl (document : Document) : Unedited document document :=
  ⟨rfl, rfl, rfl, rfl, rfl, Nat.le_refl _, Nat.le_refl _, fun _ _ => rfl⟩

/-- Two steps that build nodes compose. -/
theorem Unedited.trans {base middle document : Document} (h : Unedited base middle)
    (h' : Unedited middle document)
    (hlive : ∀ a, (base.heap.cells a).isSome → (middle.heap.cells a).isSome) :
    Unedited base document :=
  ⟨h'.options.trans h.options, h'.revision.trans h.revision, h'.retireEpoch.trans h.retireEpoch,
    h'.queryCallbacks.trans h.queryCallbacks, h'.queryPending.trans h.queryPending,
    h.nextIdentity.trans h'.nextIdentity, h.refusals.trans h'.refusals,
    fun a ha => (h'.locations a (hlive a ha)).trans (h.locations a ha)⟩

/-- A call that only asks for memory. -/
structure Asks (document asked : Document) (refused : Bool) : Prop where
  unedited : Unedited document asked
  heap : asked.heap = document.heap
  count : asked.count = document.count
  nextIdentity : asked.nextIdentity = document.nextIdentity
  locations : asked.locations = document.locations
  refusals : asked.refusals = document.refusals + if refused then 1 else 0

theorem Asks.refl (document : Document) : Asks document document false :=
  ⟨Unedited.refl document, rfl, rfl, rfl, rfl, rfl⟩

theorem refuse_asks (document : Document) : Asks document document.refuse true :=
  ⟨⟨rfl, rfl, rfl, rfl, rfl, Nat.le_refl _, Nat.le_succ _, fun _ _ => rfl⟩, rfl, rfl, rfl, rfl, rfl⟩

theorem allocate_buffer_asks (document : Document) :
    ∃ given asked, document.allocateBuffer = (given, asked) ∧ Asks document asked !given := by
  unfold allocateBuffer
  cases document.allocator document.allocations with
  | none =>
    exact ⟨_, _, rfl, ⟨rfl, rfl, rfl, rfl, rfl, Nat.le_refl _, Nat.le_succ _, fun _ _ => rfl⟩,
      rfl, rfl, rfl, rfl, rfl⟩
  | some address =>
    exact ⟨_, _, rfl, ⟨rfl, rfl, rfl, rfl, rfl, Nat.le_refl _, Nat.le_refl _, fun _ _ => rfl⟩,
      rfl, rfl, rfl, rfl, rfl⟩

theorem copy_bytes_asks (document : Document) (data : Bytes) :
    ∃ given asked, document.copyBytes data = (given, asked) ∧ Asks document asked !given := by
  unfold copyBytes
  split
  · exact ⟨true, document, rfl, Asks.refl document⟩
  · exact allocate_buffer_asks document

/-- A new node is given at a free place. -/
theorem allocate_node_asks (document : Document) :
    ∃ given asked, document.allocateNode = (given, asked) ∧ Asks document asked given.isNone ∧
      ∀ node, given = some node → document.heap.cells node = none ∧ node ≠ .holder := by
  unfold allocateNode
  cases document.allocator document.allocations with
  | none =>
    exact ⟨_, _, rfl, ⟨⟨rfl, rfl, rfl, rfl, rfl, Nat.le_refl _, Nat.le_succ _, fun _ _ => rfl⟩,
      rfl, rfl, rfl, rfl, rfl⟩, fun _ h => by cases h⟩
  | some address =>
    dsimp only
    split
    · exact ⟨_, _, rfl, ⟨⟨rfl, rfl, rfl, rfl, rfl, Nat.le_refl _, Nat.le_succ _, fun _ _ => rfl⟩,
        rfl, rfl, rfl, rfl, rfl⟩, fun _ h => by cases h⟩
    next hfree =>
      refine ⟨_, _, rfl, ⟨⟨rfl, rfl, rfl, rfl, rfl, Nat.le_refl _, Nat.le_refl _, fun _ _ => rfl⟩,
        rfl, rfl, rfl, rfl, rfl⟩, ?_⟩
      intro node hnode
      cases hnode
      exact ⟨by simpa using hfree, fun h => by cases h⟩

/-- Each node that was built has used up an identity. -/
theorem Grows.issued_size {base document : Document} {parent : Option Place} {depth : Nat}
    {forest : LinkForest Place NodeData} (h : Grows base document parent depth forest) :
    base.nextIdentity + forest.size ≤ document.nextIdentity := by
  have hsub : forest.identities.toFinset ⊆
      Finset.Ioc base.nextIdentity document.nextIdentity := by
    intro identity hmem
    exact Finset.mem_Ioc.mpr (h.issued identity (List.mem_toFinset.mp hmem))
  have hcard := Finset.card_le_card hsub
  rw [List.toFinset_card_of_nodup h.identities, Nat.card_Ioc] at hcard
  have hlength : forest.identities.length = forest.size := by
    rw [← forest.addrs_length, ← forest.items_addrs]
    simp [LinkForest.identities]
  have hnext := h.unedited.nextIdentity
  omega

/-- What a call of `document_create_node` can do. -/
inductive Creates (document : Document) (parent : Option Place) (tag value : Bytes)
    (constructed : Bool) (depth : Nat) : Option (DocumentResult Place) → Prop where
  | limit (h : depth > document.options.maxDepth ∨ document.count ≥ document.options.maxElements) :
      Creates document parent tag value constructed depth (some (.error .limit, document))
  | refused {status : Status} {asked : Document} (hunedited : Unedited document asked)
      (hheap : asked.heap = document.heap) (hcount : asked.count = document.count)
      (hidentity : asked.nextIdentity ≤ 2 ^ 64 - 1)
      (hlocations : ∀ a, (document.heap.cells a).isSome → asked.locations a = document.locations a)
      (hrefusals : document.refusals < asked.refusals) (hstatus : status ≠ .needMoreData) :
      Creates document parent tag value constructed depth (some (.error status, asked))
  | created {node : Place} {asked : Document} (hunedited : Unedited document asked)
      (hheap : asked.heap = document.heap) (hcount : asked.count = document.count)
      (hidentity : asked.nextIdentity = document.nextIdentity + 1)
      (havailable : asked.nextIdentity ≤ 2 ^ 64 - 1)
      (hlocations : ∀ a ≠ node, asked.locations a = document.locations a)
      (hlocation : asked.locations node = {}) (hrefusals : asked.refusals = document.refusals)
      (hfresh : document.heap.cells node = none) (hholder : node ≠ .holder)
      (hdepth : depth ≤ document.options.maxDepth)
      (hroom : document.count < document.options.maxElements) :
      Creates document parent tag value constructed depth
        (((asked.heap.birth node { data :=
            { identity := asked.nextIdentity, tag := tag, value := if constructed then [] else value,
              constructed := constructed } }).link parent none node).map fun heap =>
          (.ok node, { asked with heap := heap, count := asked.count + 1 }))

/-- The node is created, or the limits or a refusal of memory stop the call. -/
theorem create_node_creates (havailable : document.nextIdentity ≤ 2 ^ 64 - 1) :
    Creates document parent tag value constructed depth
      (document.createNode parent tag value constructed depth) := by
  unfold createNode
  split
  next hlimit => exact .limit hlimit
  next hlimit =>
    split
    · have h := refuse_asks document
      exact .refused h.unedited h.heap h.count havailable (fun _ _ => rfl)
        (by rw [h.refusals]; exact Nat.lt_succ_self _) (by decide)
    · split
      · have h := refuse_asks document
        exact .refused h.unedited h.heap h.count havailable (fun _ _ => rfl)
          (by rw [h.refusals]; exact Nat.lt_succ_self _) (by decide)
      next hidentity =>
        obtain ⟨given, asked, hgiven, hasks, hfresh⟩ := allocate_node_asks document
        rw [hgiven]
        cases given with
        | none =>
          exact .refused hasks.unedited hasks.heap hasks.count
            (by rw [hasks.nextIdentity]; exact havailable)
            (fun a _ => congrFun hasks.locations a)
            (by rw [hasks.refusals]; exact Nat.lt_succ_self _) (by decide)
        | some node =>
          obtain ⟨hdead, hholder⟩ := hfresh node rfl
          dsimp only
          generalize hnumbered : { asked with nextIdentity := asked.nextIdentity + 1 }.setLocation
            node {} = numbered
          have hcells : numbered.heap = document.heap := by
            rw [← hnumbered]
            exact hasks.heap
          have hnext : numbered.nextIdentity = document.nextIdentity + 1 := by
            rw [← hnumbered, ← hasks.nextIdentity]
            rfl
          have hother : ∀ a ≠ node, numbered.locations a = document.locations a := by
            intro a ha
            rw [← hnumbered, ← hasks.locations]
            exact if_neg ha
          have hself : numbered.locations node = {} := by
            rw [← hnumbered]
            exact if_pos rfl
          have hsame : Unedited document numbered := by
            rw [← hnumbered]
            refine ⟨hasks.unedited.options, hasks.unedited.revision, hasks.unedited.retireEpoch,
              hasks.unedited.queryCallbacks, hasks.unedited.queryPending, ?_,
              hasks.unedited.refusals, ?_⟩
            · show document.nextIdentity ≤ asked.nextIdentity + 1
              rw [hasks.nextIdentity]
              exact Nat.le_succ _
            · intro a ha
              have hne : a ≠ node := by
                rintro rfl
                rw [hdead] at ha
                cases ha
              exact (if_neg hne).trans (congrFun hasks.locations a)
          have hcount : numbered.count = document.count := by
            rw [← hnumbered]
            exact hasks.count
          have hrefusals : numbered.refusals = document.refusals := by
            rw [← hnumbered]
            exact hasks.refusals
          obtain ⟨copied, final, hcopy, hfinal⟩ : ∃ copied final,
              (if constructed then (true, numbered) else numbered.copyBytes value) =
                (copied, final) ∧ Asks numbered final !copied := by
            cases constructed with
            | true => exact ⟨true, numbered, rfl, Asks.refl numbered⟩
            | false => exact copy_bytes_asks numbered value
          rw [hcopy]
          have hunedited : Unedited document final := by
            refine hsame.trans hfinal.unedited fun a ha => ?_
            rw [hcells]
            exact ha
          cases copied with
          | false =>
            refine .refused hunedited (hfinal.heap.trans hcells) (hfinal.count.trans hcount) ?_ ?_
              ?_ (by decide)
            · rw [hfinal.nextIdentity, hnext]
              omega
            · exact fun a ha => hunedited.locations a ha
            · rw [hfinal.refusals, hrefusals]
              exact Nat.lt_succ_self _
          | true =>
            have hsplit := @Creates.created document parent tag value constructed depth node
              final hunedited (hfinal.heap.trans hcells) (hfinal.count.trans hcount)
              (hfinal.nextIdentity.trans hnext) (by rw [hfinal.nextIdentity, hnext]; omega)
              (fun a ha => (congrFun hfinal.locations a).trans (hother a ha))
              ((congrFun hfinal.locations node).trans hself)
              (hfinal.refusals.trans hrefusals) hdead hholder (by omega) (by omega)
            refine Eq.mp (congrArg _ ?_) hsplit
            rw [Option.map_eq_bind]
            rfl

end Create

section Grows

variable {base document : Document} {parent : Option Place} {depth : Nat}
  {context : LinkContext Place NodeData} {list : LinkForest Place NodeData}

/-- A live node of the beginning is none of the new ones. -/
theorem Grows.not_mem {forest : LinkForest Place NodeData}
    (h : Grows base document parent depth forest)
    {a : Place} (ha : (base.heap.cells a).isSome) : a ∉ forest.addrs := by
  intro hmem
  rw [(h.fresh a hmem).1] at ha
  cases ha

theorem Grows.live {forest : LinkForest Place NodeData}
    (h : Grows base document parent depth forest)
    {a : Place} (ha : (base.heap.cells a).isSome) : (document.heap.cells a).isSome := by
  by_cases hp : parent = some a
  · rw [h.edit.owner a hp]
    simpa using ha
  · rw [h.edit.frame a hp (by simp) (h.not_mem ha)]
    exact ha

/-- The node that owns a list inside of the forest is not in the list. -/
theorem Grows.owner_not_mem (h : Grows base document parent depth (context.plug list)) :
    ∀ p, context.owner parent = some p → p ∉ list.addrs := by
  intro p hp hmem
  obtain ⟨-, -, hdisjoint⟩ :=
    List.nodup_append.mp ((context.addrs_plug list).nodup_iff.mp h.nodup)
  cases context with
  | nil => exact h.not_mem (h.owner p hp) hmem
  | cons level outer =>
    cases hp
    exact hdisjoint level.addr (by simp) level.addr hmem rfl

/-- What does not touch the nodes does not matter. -/
theorem Grows.asks {forest : LinkForest Place NodeData}
    (h : Grows base document parent depth forest)
    {asked : Document} (hunedited : Unedited document asked) (hheap : asked.heap = document.heap)
    (hcount : asked.count = document.count) (havailable : asked.nextIdentity ≤ 2 ^ 64 - 1) :
    Grows base asked parent depth forest := by
  refine ⟨h.unedited.trans hunedited fun a ha => h.live ha, ?_, h.owner, h.fresh, h.nodup, h.typed,
    h.unmarked, hcount.trans h.count, ?_, ?_, h.identities, ?_, havailable⟩
  · rw [hheap]
    exact h.edit
  · rw [hcount, hunedited.options]
    exact h.room
  · rw [hunedited.options]
    exact h.height
  · exact fun identity hidentity => ⟨(h.issued identity hidentity).1,
      (h.issued identity hidentity).2.trans hunedited.nextIdentity⟩

/-- A new node gets a location. -/
theorem Grows.locate {forest : LinkForest Place NodeData}
    (h : Grows base document parent depth forest) {node : Place} (hnode : node ∈ forest.addrs)
    (location : SourceLocation) :
    Grows base (document.setLocation node location) parent depth forest := by
  refine ⟨⟨h.unedited.options, h.unedited.revision, h.unedited.retireEpoch,
    h.unedited.queryCallbacks, h.unedited.queryPending, h.unedited.nextIdentity,
    h.unedited.refusals, ?_⟩, h.edit, h.owner, h.fresh, h.nodup, h.typed, h.unmarked, h.count, h.room,
    h.height, h.identities, h.issued, h.available⟩
  intro a ha
  have hne : a ≠ node := fun heq => h.not_mem ha (heq ▸ hnode)
  exact (if_neg hne).trans (h.unedited.locations a ha)

/-- A fresh node enters a list inside of the forest. -/
theorem Grows.add (h : Grows base document parent depth (context.plug list))
    (howner : ∀ level, context.head? = some level → level.data.constructed = true)
    {node : Place} {data : NodeData} {heap : LinkHeap Place NodeData}
    (hdead : document.heap.cells node = none) (hholder : node ≠ .holder)
    (hedit : ListEdit document.heap heap (context.owner parent) list
      (list.append (.single node data .nil)))
    (hvalue : data.constructed = true → data.value = []) (hmark : data.pendingErase = false)
    (hdepth : depth + context.length ≤ document.options.maxDepth)
    (hroom : document.count < document.options.maxElements)
    (hlast : ∀ identity ∈ (context.plug list).identities, identity < data.identity)
    (hissued : base.nextIdentity < data.identity ∧ data.identity ≤ document.nextIdentity) :
    Grows base { document with heap := heap, count := document.count + 1 } parent depth
      (context.plug (list.append (.single node data .nil))) := by
  have hitems := context.items_plug_single list node data
  have haddrs := context.addrs_plug_single list node data
  have hidentities : (context.plug (list.append (.single node data .nil))).identities.Perm
      (data.identity :: (context.plug list).identities) := hitems.map _
  obtain ⟨hcontext, hlist, hdisjoint⟩ :=
    List.nodup_append.mp ((context.addrs_plug list).nodup_iff.mp h.nodup)
  -- the new place was free, in the list and before it was built
  have hnode : node ∉ (context.plug list).addrs := by
    intro hmem
    obtain ⟨cell, hcell⟩ := h.edit.lists.holds.cell_some hmem
    rw [hdead] at hcell
    cases hcell
  have hbase : base.heap.cells node = none := by
    cases hcell : base.heap.cells node with
    | none => rfl
    | some cell =>
      have hsome := @Grows.live _ _ _ _ _ h node (by simp [hcell])
      rw [hdead] at hsome
      cases hsome
  refine ⟨⟨h.unedited.options, h.unedited.revision, h.unedited.retireEpoch,
    h.unedited.queryCallbacks, h.unedited.queryPending, h.unedited.nextIdentity,
    h.unedited.refusals, h.unedited.locations⟩, ?_, h.owner, ?_, ?_, ?_, ?_, ?_, hroom, .inr ?_, ?_,
    ?_, h.available⟩
  · refine h.edit.inside hedit h.nodup (fun a ha => by simp [ha]) ?_ ?_
    · intro a ha hmem
      rw [LinkForest.addrs_append, List.mem_append] at ha
      rcases ha with ha | ha
      · exact hdisjoint a hmem a ha rfl
      · have heq : a = node := by simpa [LinkForest.single] using ha
        refine hnode ?_
        rw [(context.addrs_plug list).mem_iff, ← heq]
        exact List.mem_append_left _ hmem
    · intro p hp
      have hnot := h.not_mem (h.owner p hp)
      rw [(context.addrs_plug list).mem_iff, List.mem_append] at hnot
      refine ⟨fun hmem => hnot (.inl hmem), fun hmem => ?_⟩
      rw [LinkForest.addrs_append, List.mem_append] at hmem
      rcases hmem with hmem | hmem
      · exact hnot (.inr hmem)
      · have heq : p = node := by simpa [LinkForest.single] using hmem
        have hsome := h.owner p hp
        rw [heq, hbase] at hsome
        cases hsome
  · intro a ha
    rcases List.mem_cons.mp (haddrs.mem_iff.mp ha) with rfl | ha
    · exact ⟨hbase, hholder⟩
    · exact h.fresh a ha
  · exact haddrs.nodup_iff.mpr (List.nodup_cons.mpr ⟨hnode, h.nodup⟩)
  · refine typed_plug h.typed howner (typed_append.mpr ⟨typed_list h.typed, ?_⟩)
    exact ⟨fun _ => rfl, hvalue, trivial, trivial⟩
  · intro item hmem
    rcases List.mem_cons.mp (hitems.mem_iff.mp hmem) with rfl | hmem
    · exact hmark
    · exact h.unmarked item hmem
  · have hsize := haddrs.length_eq
    rw [LinkForest.addrs_length, List.length_cons, LinkForest.addrs_length] at hsize
    show document.count + 1 = _
    rw [hsize, h.count]
    omega
  · have hwithin : context.Within (document.options.maxDepth + 1 - depth) ∧
        context.length + list.height ≤ document.options.maxDepth + 1 - depth := by
      rcases h.height with hnil | hheight
      · have hnil' : (context.plug list).height ≤ document.options.maxDepth + 1 - depth := by
          rw [hnil]
          exact Nat.zero_le _
        exact LinkContext.height_plug.mp hnil'
      · exact LinkContext.height_plug.mp (by omega)
    have hnew : (context.plug (list.append (.single node data .nil))).height ≤
        document.options.maxDepth + 1 - depth := by
      refine LinkContext.height_plug.mpr ⟨hwithin.1, ?_⟩
      have hone : (LinkForest.single node data .nil).height = 1 := rfl
      rw [LinkForest.height_append, hone]
      have hle := hwithin.2
      omega
    show depth + _ ≤ document.options.maxDepth + 1
    omega
  · refine hidentities.nodup_iff.mpr (List.nodup_cons.mpr ⟨fun hmem => ?_, h.identities⟩)
    exact Nat.lt_irrefl _ (hlast _ hmem)
  · intro identity hmem
    rcases List.mem_cons.mp (hidentities.mem_iff.mp hmem) with rfl | hmem
    · exact hissued
    · exact h.issued identity hmem

/-- What creating a node inside of a forest that is built can do. -/
inductive Adds (base document : Document) (parent : Option Place) (depth : Nat)
    (context : LinkContext Place NodeData) (list : LinkForest Place NodeData) (tag value : Bytes)
    (constructed : Bool) : DocumentResult Place → Prop where
  | limit (h : depth + context.length > document.options.maxDepth ∨
        document.count ≥ document.options.maxElements) :
      Adds base document parent depth context list tag value constructed (.error .limit, document)
  | refused {status : Status} {after : Document}
      (hgrows : Grows base after parent depth (context.plug list))
      (hlocations : ∀ a ∈ (context.plug list).addrs, after.locations a = document.locations a)
      (hrefusals : document.refusals < after.refusals) (hstatus : status ≠ .needMoreData) :
      Adds base document parent depth context list tag value constructed (.error status, after)
  | added {node : Place} {data : NodeData} {after : Document}
      (hgrows : Grows base after parent depth (context.plug (list.append (.single node data .nil))))
      (hdata : data.tag = tag ∧ data.value = (if constructed then [] else value) ∧
        data.constructed = constructed)
      (hlocations : ∀ a ∈ (context.plug list).addrs, after.locations a = document.locations a)
      (hlocation : after.locations node = {})
      (hrefusals : after.refusals = document.refusals) (hcount : after.count = document.count + 1)
      (hdepth : depth + context.length ≤ document.options.maxDepth)
      (hroom : document.count < document.options.maxElements) :
      Adds base document parent depth context list tag value constructed (.ok node, after)

/-- A created node joins the list that grows. -/
theorem Grows.create (h : Grows base document parent depth (context.plug list))
    (howner : ∀ level, context.head? = some level → level.data.constructed = true)
    (tag value : Bytes) (constructed : Bool) :
    ∃ result, document.createNode (context.owner parent) tag value constructed
        (depth + context.length) = some result ∧
      Adds base document parent depth context list tag value constructed result := by
  have hcreates : Creates document (context.owner parent) tag value constructed
      (depth + context.length) _ := create_node_creates h.available
  have hlive : ∀ a ∈ (context.plug list).addrs, (document.heap.cells a).isSome := by
    intro a ha
    obtain ⟨cell, hcell⟩ := h.edit.lists.holds.cell_some ha
    simp [hcell]
  revert hcreates
  generalize document.createNode (context.owner parent) tag value constructed
    (depth + context.length) = outcome
  intro hcreates
  cases hcreates with
  | limit hlimit => exact ⟨_, rfl, .limit hlimit⟩
  | refused hunedited hheap hcount hidentity hlocations hrefusals hstatus =>
    exact ⟨_, rfl, .refused (h.asks hunedited hheap hcount hidentity)
      (fun a ha => hlocations a (hlive a ha)) hrefusals hstatus⟩
  | @created node asked hunedited hheap hcount hidentity havailable hlocations hlocation hrefusals
      hfresh hholder hdepth hroom =>
      have hasked := h.asks hunedited hheap hcount havailable
      have hdead : asked.heap.cells node = none := by
        rw [hheap]
        exact hfresh
      have hlist := (List.nodup_append.mp ((context.addrs_plug list).nodup_iff.mp h.nodup)).2.1
      obtain ⟨heap, hlink, hedit⟩ := hasked.edit.lists.inside.link_new hlist h.owner_not_mem hdead
        { identity := asked.nextIdentity, tag := tag, value := if constructed then [] else value,
          constructed := constructed }
      rw [hlink]
      refine ⟨_, rfl, .added (hasked.add howner hdead hholder hedit ?_ rfl ?_ ?_ ?_ ?_)
        ⟨rfl, rfl, rfl⟩ ?_
        hlocation hrefusals (congrArg (· + 1) hcount) hdepth hroom⟩
      · intro hconstructed
        exact if_pos hconstructed
      · rw [hunedited.options]
        exact hdepth
      · rw [hcount, hunedited.options]
        exact hroom
      · intro identity hmem
        have hle := (h.issued identity hmem).2
        show identity < asked.nextIdentity
        omega
      · refine ⟨?_, Nat.le_refl _⟩
        have hle := h.unedited.nextIdentity
        show base.nextIdentity < asked.nextIdentity
        omega
      · intro a ha
        refine hlocations a fun heq => ?_
        have hsome := hlive a ha
        rw [heq, hfresh] at hsome
        cases hsome

end Grows

end Document

end OpenTlv
