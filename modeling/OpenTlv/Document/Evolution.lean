import OpenTlv.Document.SetValue

/-!
# What nodes live through

`Evolves` relates a document with a later one: identities are issued upwards only, a node that
carries an old identity was there before at the same place, and as long as the retirement epoch is
the same no node has gone. Each call that edits is one step of it, and it is transitive.
-/

namespace OpenTlv

/-- The nodes of a forest with their identities. -/
def LinkForest.nodes (forest : LinkForest Place NodeData) : List (Place × Nat) :=
  forest.items.map fun item => (item.1, item.2.identity)

namespace Document

/-- A document with its forest, and what it becomes. -/
structure Evolves (document : Document) (forest : LinkForest Place NodeData) (after : Document)
    (forest' : LinkForest Place NodeData) : Prop where
  represents : after.Represents forest'
  options : after.options = document.options
  nextIdentity : document.nextIdentity ≤ after.nextIdentity
  refusals : document.refusals ≤ after.refusals
  epoch : document.retireEpoch ≤ after.retireEpoch
  kept : after.retireEpoch = document.retireEpoch → ∀ node ∈ forest.nodes, node ∈ forest'.nodes
  known : ∀ node ∈ forest'.nodes, node.2 ≤ document.nextIdentity → node ∈ forest.nodes

variable {document middle after : Document} {forest forest' forest'' : LinkForest Place NodeData}

theorem Represents.evolves_refl (h : document.Represents forest) :
    Evolves document forest document forest :=
  ⟨h, rfl, Nat.le_refl _, Nat.le_refl _, Nat.le_refl _, fun _ _ hnode => hnode,
    fun _ hnode _ => hnode⟩

/-- Two steps of a document compose. -/
theorem Evolves.trans (h : Evolves document forest middle forest')
    (h' : Evolves middle forest' after forest'') : Evolves document forest after forest'' := by
  refine ⟨h'.represents, h'.options.trans h.options, h.nextIdentity.trans h'.nextIdentity,
    h.refusals.trans h'.refusals, h.epoch.trans h'.epoch, ?_, ?_⟩
  · intro hsame node hnode
    have hfirst := h.epoch
    have hsecond := h'.epoch
    exact h'.kept (by omega) node (h.kept (by omega) node hnode)
  · intro node hnode hle
    exact h.known node (h'.known node hnode (hle.trans h.nextIdentity)) hle

/-- A step that is an edit. -/
structure Edits (document : Document) (forest : LinkForest Place NodeData) (after : Document)
    (forest' : LinkForest Place NodeData) : Prop extends Evolves document forest after forest' where
  queryCallbacks : after.queryCallbacks = document.queryCallbacks
  queryPending : after.queryPending = document.queryPending
  unmarked : Unmarked forest → Unmarked forest'

theorem Represents.edits_refl (h : document.Represents forest) :
    Edits document forest document forest :=
  ⟨h.evolves_refl, rfl, rfl, fun hnone => hnone⟩

/-- Two edits compose. -/
theorem Edits.trans (h : Edits document forest middle forest')
    (h' : Edits middle forest' after forest'') : Edits document forest after forest'' :=
  ⟨h.toEvolves.trans h'.toEvolves, h'.queryCallbacks.trans h.queryCallbacks,
    h'.queryPending.trans h.queryPending, fun hnone => h'.unmarked (h.unmarked hnone)⟩

/-- A call that fails is no step at all. -/
theorem Represents.edits_failure (h : document.Represents forest) (hfails : Fails document after) :
    Edits document forest after forest :=
  ⟨⟨h.after_failure hfails, hfails.unedited.options, hfails.unedited.nextIdentity,
    hfails.unedited.refusals, hfails.unedited.retireEpoch.ge, fun _ _ hnode => hnode,
    fun _ hnode _ => hnode⟩, hfails.unedited.queryCallbacks, hfails.unedited.queryPending,
    fun hnone => hnone⟩

section Step

variable {context : LinkContext Place NodeData} {list list' : LinkForest Place NodeData}

/-- The nodes of a forest are those of its context and its list. -/
theorem nodes_plug (context : LinkContext Place NodeData) (list : LinkForest Place NodeData)
    {node : Place × Nat} : node ∈ (context.plug list).nodes ↔
      node ∈ context.items.map (fun item => (item.1, item.2.identity)) ∨ node ∈ list.nodes := by
  have hmap := @List.Perm.mem_iff _ node _ _
    ((context.items_plug list).map fun item => (item.1, item.2.identity))
  rw [List.map_append, List.mem_append] at hmap
  exact hmap

theorem unmarked_plug : Unmarked (context.plug list) ↔
    (∀ item ∈ context.items, item.2.pendingErase = false) ∧ Unmarked list := by
  have hmem := fun item => @List.Perm.mem_iff _ item _ _ (context.items_plug list)
  simp only [List.mem_append] at hmem
  unfold Unmarked
  constructor
  · intro h
    exact ⟨fun item hitem => h item ((hmem item).mpr (.inl hitem)),
      fun item hitem => h item ((hmem item).mpr (.inr hitem))⟩
  · intro h item hitem
    exact ((hmem item).mp hitem).elim (h.1 item) (h.2 item)

theorem unmarked_append {left right : LinkForest Place NodeData} :
    Unmarked (left.append right) ↔ Unmarked left ∧ Unmarked right := by
  simp [Unmarked, LinkForest.items_append, or_imp, forall_and]

theorem unmarked_node {addr : Place} {data : NodeData} {inner rest : LinkForest Place NodeData} :
    Unmarked (.node addr data inner rest) ↔
      data.pendingErase = false ∧ Unmarked inner ∧ Unmarked rest := by
  simp [Unmarked, LinkForest.items, or_imp, forall_and]

/-- One list changes: its new nodes have new identities, and its old ones stay or the epoch goes
on. -/
theorem Keeps.edits (h : Keeps document after)
    (hrepresents : after.Represents (context.plug list'))
    (hepoch : document.retireEpoch ≤ after.retireEpoch)
    (hkept : after.retireEpoch = document.retireEpoch → ∀ node ∈ list.nodes, node ∈ list'.nodes)
    (hknown : ∀ node ∈ list'.nodes, node ∈ list.nodes ∨ document.nextIdentity < node.2)
    (hmarks : Unmarked list → Unmarked list') :
    Edits document (context.plug list) after (context.plug list') := by
  refine ⟨⟨hrepresents, h.options, h.nextIdentity, h.refusals, hepoch, ?_, ?_⟩, h.queryCallbacks,
    h.queryPending, ?_⟩
  · intro hsame node hnode
    rcases (nodes_plug _ _).mp hnode with hnode | hnode
    · exact (nodes_plug _ _).mpr (.inl hnode)
    · exact (nodes_plug _ _).mpr (.inr (hkept hsame node hnode))
  · intro node hnode hle
    rcases (nodes_plug _ _).mp hnode with hnode | hnode
    · exact (nodes_plug _ _).mpr (.inl hnode)
    · refine (nodes_plug _ _).mpr (.inr ((hknown node hnode).resolve_right ?_))
      omega
  · intro hnone
    obtain ⟨hcontext, hlist⟩ := unmarked_plug.mp hnone
    exact unmarked_plug.mpr ⟨hcontext, hmarks hlist⟩

theorem nodes_append {left right : LinkForest Place NodeData} {node : Place × Nat} :
    node ∈ (left.append right).nodes ↔ node ∈ left.nodes ∨ node ∈ right.nodes := by
  simp [LinkForest.nodes, LinkForest.items_append]

theorem nodes_node {addr : Place} {data : NodeData} {inner rest : LinkForest Place NodeData}
    {node : Place × Nat} : node ∈ (LinkForest.node addr data inner rest).nodes ↔
      node = (addr, data.identity) ∨ node ∈ inner.nodes ∨ node ∈ rest.nodes := by
  simp [LinkForest.nodes, LinkForest.items]

/-- New nodes have new identities. -/
theorem nodes_new {built : LinkForest Place NodeData}
    (h : ∀ identity ∈ built.identities, document.nextIdentity < identity) :
    ∀ node ∈ built.nodes, document.nextIdentity < node.2 := by
  intro node hnode
  obtain ⟨item, hitem, rfl⟩ := List.mem_map.mp hnode
  exact h item.2.identity (List.mem_map_of_mem hitem)

end Step

/-- What erasing leaves alone. -/
structure Swept (document after : Document) : Prop where
  keeps : Keeps document after
  nextIdentity : after.nextIdentity = document.nextIdentity
  refusals : after.refusals = document.refusals

theorem Swept.refl (document : Document) : Swept document document :=
  ⟨⟨rfl, rfl, rfl, Nat.le_refl _, Nat.le_refl _⟩, rfl, rfl⟩

theorem Swept.trans {document middle after : Document} (h : Swept document middle)
    (h' : Swept middle after) : Swept document after :=
  ⟨⟨h'.keeps.options.trans h.keeps.options, h'.keeps.queryCallbacks.trans h.keeps.queryCallbacks,
    h'.keeps.queryPending.trans h.keeps.queryPending,
    h.keeps.nextIdentity.trans h'.keeps.nextIdentity, h.keeps.refusals.trans h'.keeps.refusals⟩,
    h'.nextIdentity.trans h.nextIdentity, h'.refusals.trans h.refusals⟩

section Calls

variable {context : LinkContext Place NodeData} {left inner right : LinkForest Place NodeData}
  {node : Place} {data : NodeData}

/-- An erasure is an edit that asks for no memory. -/
theorem Represents.erase_now_edits
    (h : document.Represents (context.plug (left.append (.node node data inner right)))) :
    ∃ after, document.eraseNow node = some after ∧
      Edits document (context.plug (left.append (.node node data inner right))) after
        (context.plug (left.append right)) ∧ Swept document after := by
  obtain ⟨after, herase, hrepresents, hkeeps, hnext, hrefusals, hepoch, -⟩ := h.erase_now
  refine ⟨after, herase, hkeeps.edits hrepresents (by omega) (by omega) ?_ ?_,
    hkeeps, hnext, hrefusals⟩
  · intro other hother
    refine .inl ?_
    rw [nodes_append] at hother ⊢
    rw [nodes_node]
    tauto
  · rw [unmarked_append, unmarked_append, unmarked_node]
    tauto

/-- An insertion removes nothing. -/
theorem Keeps.edits_insert (h : Keeps document after)
    (hrepresents : after.Represents (context.plug (left.append (.node node data inner right))))
    (hepoch : after.retireEpoch = document.retireEpoch)
    (hnew : ∀ identity ∈ data.identity :: inner.identities, document.nextIdentity < identity)
    (hunmarked : Unmarked (.single node data inner)) :
    Edits document (context.plug (left.append right)) after
      (context.plug (left.append (.node node data inner right))) := by
  refine h.edits hrepresents hepoch.ge ?_ ?_ ?_
  · intro _ other hother
    rw [nodes_append] at hother ⊢
    rw [nodes_node]
    tauto
  · intro other hother
    rw [nodes_append, nodes_node] at hother
    rw [nodes_append]
    rcases hother with hother | rfl | hother | hother
    · exact .inl (.inl hother)
    · exact .inr (hnew _ List.mem_cons_self)
    · exact .inr (nodes_new (fun identity hmem => hnew identity (List.mem_cons_of_mem _ hmem))
        other hother)
    · exact .inl (.inr hother)
  · have hsingle := unmarked_node.mp hunmarked
    rw [unmarked_append, unmarked_append, unmarked_node]
    tauto

/-- A primitive node stays the same node. -/
theorem Keeps.edits_data (h : Keeps document after) {data' : NodeData}
    (hrepresents : after.Represents (context.plug (left.append (.node node data' inner right))))
    (hepoch : after.retireEpoch = document.retireEpoch) (hsame : data'.identity = data.identity)
    (hmark : data'.pendingErase = data.pendingErase) :
    Edits document (context.plug (left.append (.node node data inner right))) after
      (context.plug (left.append (.node node data' inner right))) := by
  refine h.edits hrepresents hepoch.ge ?_ ?_ ?_
  · intro _ other hother
    rw [nodes_append, nodes_node] at hother ⊢
    rw [hsame]
    exact hother
  · intro other hother
    rw [nodes_append, nodes_node] at hother ⊢
    rw [hsame] at hother
    exact .inl hother
  · rw [unmarked_append, unmarked_append, unmarked_node, unmarked_node, hmark]
    exact fun hnone => hnone

/-- A value removes the old nodes inside, and the epoch says so. -/
theorem Keeps.edits_children (h : Keeps document after) {built : LinkForest Place NodeData}
    (hrepresents : after.Represents (context.plug (left.append (.node node data built right))))
    (hepoch : after.retireEpoch = document.retireEpoch + if inner.size ≠ 0 then 1 else 0)
    (hnew : ∀ identity ∈ built.identities, document.nextIdentity < identity)
    (hunmarked : Unmarked built) :
    Edits document (context.plug (left.append (.node node data inner right))) after
      (context.plug (left.append (.node node data built right))) := by
  refine h.edits hrepresents (by omega) ?_ ?_ ?_
  · intro hsame other hother
    have hempty : inner = .nil := by
      cases inner with
      | nil => rfl
      | node addr data inner rest =>
        rw [hsame] at hepoch
        simp [LinkForest.size] at hepoch
    subst hempty
    rw [nodes_append, nodes_node] at hother ⊢
    rcases hother with hother | hother | hother | hother
    · exact .inl hother
    · exact .inr (.inl hother)
    · cases hother
    · exact .inr (.inr (.inr hother))
  · intro other hother
    rw [nodes_append, nodes_node] at hother
    rw [nodes_append, nodes_node]
    rcases hother with hother | hother | hother | hother
    · exact .inl (.inl hother)
    · exact .inl (.inr (.inl hother))
    · exact .inr (nodes_new hnew other hother)
    · exact .inl (.inr (.inr (.inr hother)))
  · rw [unmarked_append, unmarked_append, unmarked_node, unmarked_node]
    tauto

/-- An insertion is an edit. -/
theorem Inserts.edits {element : Element} {result : DocumentResult Place}
    (h : document.Represents (context.plug (left.append right)))
    (hinserts : Inserts document context left right element result) :
    ∃ forest', Edits document (context.plug (left.append right)) result.2 forest' := by
  cases hinserts with
  | failed hfails => exact ⟨_, h.edits_failure hfails⟩
  | inserted hrepresents _ _ _ hnew hunmarked hkeeps _ hepoch =>
    exact ⟨_, hkeeps.edits_insert hrepresents hepoch hnew hunmarked⟩

/-- Setting a value is an edit. -/
theorem SetsValue.edits {value : Bytes} {result : DocumentResult Unit}
    (h : document.Represents (context.plug (left.append (.node node data inner right))))
    (hsets : SetsValue document context left node data inner right value result) :
    ∃ forest', Edits document (context.plug (left.append (.node node data inner right))) result.2
      forest' := by
  cases hsets with
  | failed hfails => exact ⟨_, h.edits_failure hfails⟩
  | primitive _ _ hrepresents hkeeps _ hepoch =>
    exact ⟨_, hkeeps.edits_data hrepresents hepoch rfl rfl⟩
  | constructed _ _ hrepresents _ _ hnew hunmarked hkeeps _ hepoch =>
    exact ⟨_, hkeeps.edits_children hrepresents hepoch hnew hunmarked⟩

end Calls

end Document

end OpenTlv
