import OpenTlv.Document.DiffPaths

/-!
# What a semantic diff says

The index of a document names every node once, so that a semantic diff is the difference of two
keyed lists. It is empty where the trees have the same siblings with every tag, at every level.
-/

namespace OpenTlv

namespace Document

/-- The nodes in preorder with the steps to them. -/
abbrev listed (forest : LinkForest Place NodeData) (above : List (Bytes × Nat))
    (counts : Bytes → Nat) : List (List (Bytes × Nat) × Place × NodeData) :=
  forest.located NodeData.tag NodeData.constructed above counts

/-- Entries are put into the index. -/
def recordAll (index : DiffIndex) (entries : List (List (Bytes × Nat) × Place × NodeData)) :
    DiffIndex :=
  entries.foldl (fun index entry => index.record (pathOf entry.1) entry.2.1) index

/-- A map of counters says how many siblings there were of each tag. -/
def Counts (map : List (String × Nat)) (counts : Bytes → Nat) : Prop :=
  ∀ tag, (map.lookup (hexTag tag)).getD 0 = counts tag

/-- Counting one more tag. -/
theorem Counts.next {map : List (String × Nat)} {counts : Bytes → Nat} (h : Counts map counts)
    (tag : Bytes) :
    Counts ((hexTag tag, counts tag + 1) :: map) (Function.update counts tag (counts tag + 1)) := by
  intro other
  by_cases hother : other = tag
  · subst hother
    simp
  · have htag : hexTag other ≠ hexTag tag := fun hequal => hother (hex_tag_injective hequal)
    rw [Function.update_of_ne hother, List.lookup_cons, beq_eq_false_iff_ne.mpr htag]
    exact h other

/-- The loop lists the siblings that a frame is in front of, with what is inside of them. -/
theorem index_list {document : Document} {forest : LinkForest Place NodeData} :
    ∀ {parent prev : Option Place} {above : List (Bytes × Nat)} {map : List (String × Nat)}
      {counts : Bytes → Nat}, Holds document.heap.cells parent prev none forest →
      Counts map counts → (∀ tag, counts tag + forest.size < 2 ^ 64) →
      ∃ steps map', steps ≤ 2 * forest.size ∧ ∀ fuel stack index,
        document.indexLoop (steps + fuel)
            (⟨forest.firstAddr, pathOf above, map⟩ :: stack) index =
          document.indexLoop fuel (⟨none, pathOf above, map'⟩ :: stack)
            (recordAll index (listed forest above counts)) := by
  induction forest with
  | nil =>
    intro parent prev above map counts _ _ _
    exact ⟨0, map, le_refl _, fun fuel stack index => by rw [Nat.zero_add]; rfl⟩
  | node addr data inner rest ihinner ihrest =>
    intro parent prev above map counts hholds hcounts hroom
    obtain ⟨hcell, hinner, hrest⟩ := hholds
    rw [Option.or_none] at hcell
    have hsize : (LinkForest.node addr data inner rest).size = inner.size + rest.size + 1 := rfl
    have hcount : counterNext ((map.lookup (hexTag data.tag)).getD 0) = counts data.tag + 1 := by
      have := hroom data.tag
      rw [hcounts data.tag, counterNext, Nat.mod_eq_of_lt (by omega)]
    have hpath : nodePath (pathOf above) (hexTag data.tag) (counts data.tag + 1) =
        pathOf (above ++ [(data.tag, counts data.tag)]) := node_path_eq above data.tag _
    have hupdate : ∀ tag, Function.update counts data.tag (counts data.tag + 1) tag + rest.size <
        2 ^ 64 := by
      intro tag
      have := hroom tag
      by_cases htag : tag = data.tag
      · subst htag
        rw [Function.update_self]
        omega
      · rw [Function.update_of_ne htag]
        omega
    obtain ⟨stepsRest, mapRest, hstepsRest, hrunRest⟩ :=
      @ihrest parent (some addr) above _ _ hrest (hcounts.next data.tag) hupdate
    cases hconstructed : data.constructed with
    | false =>
      refine ⟨stepsRest + 1, mapRest, by omega, fun fuel stack index => ?_⟩
      have hlisted : listed (.node addr data inner rest) above counts =
          (above ++ [(data.tag, counts data.tag)], addr, data) ::
            listed rest above (Function.update counts data.tag (counts data.tag + 1)) := by
        simp [listed, LinkForest.located, hconstructed]
      rw [hlisted, show stepsRest + 1 + fuel = (stepsRest + fuel) + 1 by omega, indexLoop]
      simp only [LinkForest.first_addr_node, Option.bind_some, hcell, Option.map_some, hcount,
        hpath, hconstructed]
      exact hrunRest fuel stack _
    | true =>
      -- The frame of the children is popped before the next sibling.
      obtain ⟨stepsIn, mapIn, hstepsIn, hrunIn⟩ :=
        @ihinner (some addr) none (above ++ [(data.tag, counts data.tag)]) [] (fun _ => 0)
          hinner (fun tag => rfl) (fun tag => by have := hroom tag; omega)
      refine ⟨stepsIn + stepsRest + 2, mapRest, by omega, fun fuel stack index => ?_⟩
      have hlisted : listed (.node addr data inner rest) above counts =
          (above ++ [(data.tag, counts data.tag)], addr, data) ::
            (listed inner (above ++ [(data.tag, counts data.tag)]) (fun _ => 0) ++
              listed rest above (Function.update counts data.tag (counts data.tag + 1))) := by
        simp [listed, LinkForest.located, hconstructed]
      rw [hlisted, show stepsIn + stepsRest + 2 + fuel =
        (stepsIn + (stepsRest + fuel + 1)) + 1 by omega, indexLoop]
      simp only [LinkForest.first_addr_node, Option.bind_some, hcell, Option.map_some, hcount,
        hpath, hconstructed, if_true]
      rw [hrunIn, indexLoop]
      simp only [Option.bind_none]
      rw [hrunRest]
      simp only [recordAll, List.foldl_cons, List.foldl_append]

section Index

variable {document : Document} {forest : LinkForest Place NodeData}

/-- The nodes of a document in preorder with the steps to them. -/
abbrev named (forest : LinkForest Place NodeData) : List (List (Bytes × Nat) × Place × NodeData) :=
  listed forest [] fun _ => 0

/-- The index of a document. -/
theorem Represents.index_eq (h : document.Represents forest) :
    document.indexDocument = some (recordAll {} (named forest)) := by
  have hroom := h.room
  have hbound := document.options.maxElements_le
  have hcount := h.count
  obtain ⟨steps, map, hsteps, hrun⟩ := @index_list document forest none none [] [] (fun _ => 0)
    h.lists.holds (fun tag => rfl) (fun tag => by
      have : sizeMax < 2 ^ 64 := by decide
      omega)
  obtain ⟨fuel, hfuel⟩ : ∃ fuel, document.bound = steps + (fuel + 1) :=
    ⟨document.bound - steps - 1, by unfold bound; omega⟩
  have hfirst : document.heap.first = forest.firstAddr := Option.some.inj h.lists.first
  unfold indexDocument
  rw [hfuel, hfirst]
  refine (hrun (fuel + 1) [] {}).trans ?_
  rw [indexLoop]
  simp only [Option.bind_none]
  rw [indexLoop]

/-- Absent keys are put at the end. -/
theorem emplace_absent {K V : Type} [BEq K] [LawfulBEq K] {map : List (K × V)} {key : K}
    (h : key ∉ map.map Prod.fst) (value : V) : emplace map key value = map ++ [(key, value)] := by
  unfold emplace
  cases hlookup : map.lookup key with
  | none => simp
  | some other => exact absurd (Keyed.mem_of_lookup hlookup) h

/-- Entries with distinct paths and nodes are all in the index. -/
theorem record_all_eq (entries : List (List (Bytes × Nat) × Place × NodeData)) (index : DiffIndex)
    (hpaths : (index.nodes.map Prod.fst ++ entries.map fun entry => pathOf entry.1).Nodup)
    (hnodes : (index.identities.map Prod.fst ++ entries.map fun entry => entry.2.1).Nodup) :
    recordAll index entries =
      { nodes := index.nodes ++ entries.map fun entry => (pathOf entry.1, entry.2.1)
        identities := index.identities ++ entries.map fun entry => (entry.2.1, pathOf entry.1)
        order := index.order ++ entries.map fun entry => pathOf entry.1 } := by
  induction entries generalizing index with
  | nil => simp [recordAll]
  | cons entry entries ih =>
    have hpath : pathOf entry.1 ∉ index.nodes.map Prod.fst := fun hmem =>
      (List.nodup_append.mp hpaths).2.2 _ hmem _ (List.mem_cons_self ..) rfl
    have hnode : entry.2.1 ∉ index.identities.map Prod.fst := fun hmem =>
      (List.nodup_append.mp hnodes).2.2 _ hmem _ (List.mem_cons_self ..) rfl
    have hrecord : index.record (pathOf entry.1) entry.2.1 =
        { nodes := index.nodes ++ [(pathOf entry.1, entry.2.1)]
          identities := index.identities ++ [(entry.2.1, pathOf entry.1)]
          order := index.order ++ [pathOf entry.1] } := by
      rw [DiffIndex.record, emplace_absent hpath, emplace_absent hnode]
    show recordAll (index.record (pathOf entry.1) entry.2.1) entries = _
    rw [hrecord, ih]
    · simp
    · simpa using hpaths
    · simpa using hnodes

/-- A document is typed, so nothing is inside of primitive nodes. -/
theorem typed_leaves (h : Typed forest) : forest.Leaves NodeData.constructed := by
  induction forest with
  | nil => trivial
  | node addr data inner rest ihinner ihrest =>
    obtain ⟨hempty, -, hinner, hrest⟩ := h
    exact ⟨hempty, ihinner hinner, ihrest hrest⟩

/-- The paths of the nodes are distinct. -/
theorem Represents.paths_nodup (h : document.Represents forest) :
    ((named forest).map fun entry => pathOf entry.1).Nodup := by
  have hsteps : ((named forest).map Prod.fst).Nodup := LinkForest.located_steps_nodup h.nodup
  have := hsteps.map path_of_injective
  rwa [List.map_map] at this

/-- What the index of a document has. -/
theorem Represents.index_nodes (h : document.Represents forest) :
    document.indexDocument = some
      { nodes := (named forest).map fun entry => (pathOf entry.1, entry.2.1)
        identities := (named forest).map fun entry => (entry.2.1, pathOf entry.1)
        order := (named forest).map fun entry => pathOf entry.1 } := by
  have hnodes : ((named forest).map fun entry => entry.2.1).Nodup := by
    rw [LinkForest.located_addrs [] _ (typed_leaves h.typed)]
    exact h.nodup
  rw [h.index_eq, record_all_eq (named forest) {} (by simpa using h.paths_nodup)
    (by simpa using hnodes)]
  rfl

/-- The index names every node of the document once, in preorder, with paths of their own. -/
structure Names (index : DiffIndex) (forest : LinkForest Place NodeData) : Prop where
  order : index.nodes.map Prod.fst = index.order
  distinct : index.order.Nodup
  nodes : index.nodes.map Prod.snd = forest.addrs

/-- The index of a document names its nodes. -/
theorem Represents.names (h : document.Represents forest) : Names
    { nodes := (named forest).map fun entry => (pathOf entry.1, entry.2.1)
      identities := (named forest).map fun entry => (entry.2.1, pathOf entry.1)
      order := (named forest).map fun entry => pathOf entry.1 } forest := by
  refine ⟨?_, h.paths_nodup, ?_⟩
  · rw [List.map_map]
    rfl
  · rw [List.map_map]
    exact LinkForest.located_addrs [] _ (typed_leaves h.typed)

end Index

section Diff

variable {left right : Document} {forest other : LinkForest Place NodeData}

/-- The nodes by path, as an index has them. -/
abbrev keyed (forest : LinkForest Place NodeData) : List (String × Place) :=
  (named forest).map fun entry => (pathOf entry.1, entry.2.1)

/-- A change of a keyed difference as an entry. -/
def entryOf (change : String × Option Place × Option Place) : DiffEntry :=
  ⟨match change.2.1, change.2.2 with
    | none, _ => .added
    | some _, none => .removed
    | some _, some _ => .changed, change.1, change.2.1, change.2.2⟩

/-- The loop over the left nodes. -/
theorem left_entries_eq {a b : DiffIndex} (ha : (a.nodes.map Prod.fst).Nodup)
    {paths : List (String × Place)} (hpaths : ∀ entry ∈ paths, entry ∈ a.nodes) :
    left.leftEntries right a b (fun _ => true) (paths.map Prod.fst) =
      some ((paths.filterMap
        (Keyed.leftDiff (left.contentDiffers right) b.nodes)).map entryOf) := by
  induction paths with
  | nil => rfl
  | cons entry paths ih =>
    obtain ⟨path, node⟩ := entry
    have hlookup : a.nodes.lookup path = some node :=
      (Keyed.lookup_iff ha).mpr (hpaths _ (List.mem_cons_self ..))
    have hrest := ih fun entry hmem => hpaths entry (List.mem_cons_of_mem _ hmem)
    rw [List.map_cons, leftEntries, hrest, hlookup]
    simp only [Bool.not_true, Bool.false_eq_true, if_false, Option.bind_eq_bind,
      Option.bind_some, Option.pure_def, List.filterMap_cons, Keyed.leftDiff]
    cases hother : b.nodes.lookup path with
    | none => rfl
    | some rhs =>
      cases hdiffers : left.contentDiffers right node rhs <;> simp [entryOf, hdiffers]

/-- The loop over the right nodes. -/
theorem right_entries_eq {a b : DiffIndex} (hb : (b.nodes.map Prod.fst).Nodup)
    {paths : List (String × Place)} (hpaths : ∀ entry ∈ paths, entry ∈ b.nodes) :
    rightEntries a b (fun _ => true) (paths.map Prod.fst) =
      some ((paths.filterMap (Keyed.rightDiff a.nodes)).map entryOf) := by
  induction paths with
  | nil => rfl
  | cons entry paths ih =>
    obtain ⟨path, node⟩ := entry
    have hlookup : b.nodes.lookup path = some node :=
      (Keyed.lookup_iff hb).mpr (hpaths _ (List.mem_cons_self ..))
    have hrest := ih fun entry hmem => hpaths entry (List.mem_cons_of_mem _ hmem)
    rw [List.map_cons, rightEntries, hrest, hlookup]
    simp only [Bool.not_true, Bool.or_false, Option.bind_eq_bind, Option.bind_some,
      Option.pure_def, List.filterMap_cons, Keyed.rightDiff]
    cases hother : a.nodes.lookup path <;> simp [entryOf]

/-- The diff of two documents is the difference of their nodes by path. -/
theorem semantic_diff_eq {ε : Type} (hleft : left.Represents forest)
    (hright : right.Represents other) :
    left.semanticDiff right (none : Option (Document → Except ε (List Place))) =
      some (.ok ((Keyed.diff (left.contentDiffers right) (keyed forest)
        (keyed other)).map entryOf)) := by
  have hkeys : ∀ forest : LinkForest Place NodeData,
      (keyed forest).map Prod.fst = (named forest).map fun entry => pathOf entry.1 := by
    intro forest
    rw [List.map_map]
    rfl
  unfold semanticDiff
  rw [hleft.index_nodes, hright.index_nodes]
  simp only [Option.bind_eq_bind, Option.bind_some, includedPaths]
  rw [← hkeys, ← hkeys, left_entries_eq (by rw [hkeys]; exact hleft.paths_nodup) fun _ h => h,
    right_entries_eq (by rw [hkeys]; exact hright.paths_nodup) fun _ h => h]
  simp only [Option.bind_some, Option.pure_def, Keyed.diff, List.map_append]

/-- The same content: the classification and, of primitive nodes, the value. -/
def SameContent (lhs rhs : NodeData) : Prop :=
  lhs.constructed = rhs.constructed ∧ (lhs.constructed = false → lhs.value = rhs.value)

/-- Trees that are the same up to the order of siblings with different tags: with every tag they
have the same siblings in the same order, and so on inside of constructed ones. -/
abbrev SameTrees (forest other : LinkForest Place NodeData) : Prop :=
  LinkForest.Corresponds NodeData.tag NodeData.constructed SameContent forest other

/-- The node that steps lead to. -/
abbrev nodeAt (forest : LinkForest Place NodeData) (steps : List (Bytes × Nat)) :
    Option (Place × NodeData) :=
  forest.locate NodeData.tag NodeData.constructed steps

/-- What is found under a path is what its steps lead to. -/
theorem Represents.keyed_lookup (h : left.Represents forest) (steps : List (Bytes × Nat)) :
    (keyed forest).lookup (pathOf steps) = (nodeAt forest steps).map Prod.fst := by
  have hlocated : (named forest).lookup steps = nodeAt forest steps :=
    LinkForest.lookup_located h.nodup steps
  rw [← hlocated]
  exact Keyed.lookup_rename path_of_injective Prod.fst (named forest) steps

/-- Under a text that is no path nothing is found. -/
theorem keyed_lookup_none {key : String} (h : ∀ steps, pathOf steps ≠ key) :
    (keyed forest).lookup key = none := by
  cases hlookup : (keyed forest).lookup key with
  | none => rfl
  | some node =>
    obtain ⟨entry, hmem, hkey⟩ := List.mem_map.mp (Keyed.mem_of_lookup hlookup)
    obtain ⟨source, -, rfl⟩ := List.mem_map.mp hmem
    exact absurd hkey (h source.1)

/-- A handle to a node that steps lead to has the content of the node. -/
theorem Represents.data_at (h : left.Represents forest) {steps : List (Bytes × Nat)}
    {item : Place × NodeData} (hitem : nodeAt forest steps = some item) :
    left.nodeData item.1 = item.2 := by
  have hmem := (LinkForest.located_items [] fun _ => 0).subset
    (List.mem_map_of_mem (LinkForest.mem_located_root.mpr hitem))
  obtain ⟨cell, hcell, hdata⟩ := h.lists.holds.cell_data hmem
  rw [nodeData, hcell]
  exact hdata

theorem content_differs_eq_false {lhs rhs : Place} :
    left.contentDiffers right lhs rhs = false ↔
      SameContent (left.nodeData lhs) (right.nodeData rhs) := by
  unfold contentDiffers SameContent
  simp only [Bool.or_eq_false_iff, bne_eq_false_iff_eq, Bool.and_eq_false_iff, Bool.not_eq_false']
  refine and_congr_right fun _ => ?_
  cases (left.nodeData lhs).constructed <;> simp

/-- Nodes under the same paths are not different where the trees are the same. -/
theorem keyed_same_iff (hleft : left.Represents forest) (hright : right.Represents other) :
    (∀ key, Option.Rel (fun lhs rhs => left.contentDiffers right lhs rhs = false)
      ((keyed forest).lookup key) ((keyed other).lookup key)) ↔ SameTrees forest other := by
  have hsteps : ∀ steps, Option.Rel (fun lhs rhs => left.contentDiffers right lhs rhs = false)
      ((keyed forest).lookup (pathOf steps)) ((keyed other).lookup (pathOf steps)) ↔
        Option.Rel (fun a b => SameContent a.2 b.2) (nodeAt forest steps)
          (nodeAt other steps) := by
    intro steps
    rw [hleft.keyed_lookup, hright.keyed_lookup]
    cases hlhs : nodeAt forest steps with
    | none =>
      cases nodeAt other steps with
      | none => exact ⟨fun _ => .none, fun _ => .none⟩
      | some rhs => exact ⟨fun h => (by cases h), fun h => (by cases h)⟩
    | some lhs =>
      cases hrhs : nodeAt other steps with
      | none => exact ⟨fun h => (by cases h), fun h => (by cases h)⟩
      | some rhs =>
        have hsame := @content_differs_eq_false left right lhs.1 rhs.1
        rw [hleft.data_at hlhs, hright.data_at hrhs] at hsame
        constructor
        · intro h
          cases h with
          | some h => exact .some (hsame.mp h)
        · intro h
          cases h with
          | some h => exact .some (hsame.mpr h)
  refine Iff.trans ?_ (LinkForest.corresponds_iff fun a b h => h.1).symm
  constructor
  · intro h steps
    exact (hsteps steps).mp (h (pathOf steps))
  · intro h key
    by_cases hkey : ∃ steps, pathOf steps = key
    · obtain ⟨steps, rfl⟩ := hkey
      exact (hsteps steps).mpr (h steps)
    · rw [not_exists] at hkey
      rw [keyed_lookup_none hkey, keyed_lookup_none hkey]
      exact .none

/-- An entry seen from the other side. -/
def swapEntry (entry : DiffEntry) : DiffEntry :=
  ⟨match entry.kind with
    | .added => .removed
    | .removed => .added
    | .changed => .changed, entry.path, entry.right, entry.left⟩

/-- The keys of the nodes of a document are distinct. -/
theorem Represents.keyed_nodup (h : left.Represents forest) :
    ((keyed forest).map Prod.fst).Nodup := by
  have := h.paths_nodup
  rwa [List.map_map]

/-- The diff the other way round has the same entries seen from the other side. -/
theorem swap_entries (hleft : left.Represents forest) (hright : right.Represents other) :
    ((Keyed.diff (right.contentDiffers left) (keyed other) (keyed forest)).map entryOf).Perm
      (((Keyed.diff (left.contentDiffers right) (keyed forest) (keyed other)).map
        entryOf).map swapEntry) := by
  have hsymm : ∀ lhs rhs, right.contentDiffers left rhs lhs = left.contentDiffers right lhs rhs := by
    intro lhs rhs
    rw [Bool.eq_iff_iff, ← Bool.not_eq_false, ← Bool.not_eq_false, not_iff_not,
      content_differs_eq_false, content_differs_eq_false]
    constructor <;> exact fun h => ⟨h.1.symm, fun hflag => (h.2 (h.1.trans hflag)).symm⟩
  refine ((Keyed.diff_swap hsymm hleft.keyed_nodup hright.keyed_nodup).map entryOf).trans ?_
  rw [List.map_map, List.map_map]
  refine List.Perm.of_eq (List.map_congr_left fun change hmem => ?_)
  obtain ⟨key, lhs, rhs⟩ := change
  obtain ⟨-, -, hrel⟩ := (Keyed.mem_diff_iff hleft.keyed_nodup hright.keyed_nodup).mp hmem
  cases lhs <;> cases rhs <;> first | rfl | exact absurd .none hrel

/-- The index of a document names every node once. The diff of two documents is empty where they
are the same trees, has at most one entry for a path, and the other way round has the same entries
with the sides exchanged. -/
theorem semantic_diff_exact {ε : Type} (hleft : Reachable left) (hright : Reachable right) :
    ∃ forest other a b entries backward, left.Represents forest ∧ right.Represents other ∧
      left.indexDocument = some a ∧ Names a forest ∧
      right.indexDocument = some b ∧ Names b other ∧
      left.semanticDiff right (none : Option (Document → Except ε (List Place))) =
        some (.ok entries) ∧
      right.semanticDiff left (none : Option (Document → Except ε (List Place))) =
        some (.ok backward) ∧
      (entries = [] ↔ SameTrees forest other) ∧
      backward.Perm (entries.map swapEntry) ∧
      (entries.map DiffEntry.path).Nodup := by
  obtain ⟨forest, hforest, -⟩ := hleft.represents
  obtain ⟨other, hother, -⟩ := hright.represents
  refine ⟨forest, other, _, _, _, _, hforest, hother, hforest.index_nodes, hforest.names,
    hother.index_nodes, hother.names, semantic_diff_eq hforest hother,
    semantic_diff_eq hother hforest, ?_, swap_entries hforest hother, ?_⟩
  · rw [List.map_eq_nil_iff, Keyed.diff_nil_iff hforest.keyed_nodup hother.keyed_nodup,
      keyed_same_iff hforest hother]
  · rw [List.map_map]
    exact Keyed.diff_keys_nodup hforest.keyed_nodup hother.keyed_nodup

/-- Two sequences that differ in the octet string inside, and an integer behind one of them. -/
theorem semantic_diff_exact_sample :
    ∃ left right : Document, parse sampleOptions some sampleOctets = some (.ok left) ∧
      parse sampleOptions some [0x30, 0x03, 0x04, 0x01, 0xBB, 0x02, 0x01, 0x05] =
        some (.ok right) ∧ ∃ forest other entries backward, left.Represents forest ∧
        right.Represents other ∧
        left.semanticDiff right (none : Option (Document → Except Unit (List Place))) =
          some (.ok entries) ∧
        right.semanticDiff left (none : Option (Document → Except Unit (List Place))) =
          some (.ok backward) ∧ entries.length = 2 ∧ ¬ SameTrees forest other ∧
        backward.Perm (entries.map swapEntry) ∧ (entries.map DiffEntry.path).Nodup := by
  have hsample : ∃ left right, parse sampleOptions some sampleOctets = some (.ok left) ∧
      parse sampleOptions some [0x30, 0x03, 0x04, 0x01, 0xBB, 0x02, 0x01, 0x05] =
        some (.ok right) ∧ ∃ entries,
      left.semanticDiff right (none : Option (Document → Except Unit (List Place))) =
          some (.ok entries) ∧ entries.length = 2 :=
    ⟨_, _, rfl, rfl, _, rfl, rfl⟩
  obtain ⟨left, right, hleft, hright, found, hfound, hlength⟩ := hsample
  obtain ⟨forest, other, _, _, entries, backward, hforest, hother, -, -, -, -, hdiff, hback, hempty,
    hswap, hnodup⟩ := @semantic_diff_exact left right Unit (.parsed hleft) (.parsed hright)
  obtain rfl : entries = found := Except.ok.inj (Option.some.inj (hdiff.symm.trans hfound))
  refine ⟨left, right, hleft, hright, forest, other, entries, backward, hforest, hother, hdiff,
    hback, hlength, fun hsame => ?_, hswap, hnodup⟩
  rw [hempty.mpr hsame] at hlength
  cases hlength

end Diff

end Document

end OpenTlv
