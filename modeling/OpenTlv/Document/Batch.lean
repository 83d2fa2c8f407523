import OpenTlv.Document.Deferred

/-!
# Edits of many nodes at once

`document_edit_targets` edits the nodes that a query has found. Targets inside of other targets are
dropped first, then the value and the limits are checked for all targets, and only then are they
edited one after the other.
-/

namespace OpenTlv

/-- `tlv_document_query_edit_kind_t`. -/
inductive EditKind where
  | remove
  | replace
  | insertAfter
  deriving Repr, DecidableEq

namespace Document

/-- Whether `covering` is `parent` or one of its ancestors. -/
def coveredBy (document : Document) (covering : Option Place) : Nat → Option Place → Option Bool
  | _, none => some false
  | 0, some _ => none
  | fuel + 1, some parent =>
    if covering = some parent then some true
    else do
      let cell ← document.heap.cells parent
      document.coveredBy covering fuel cell.parent

/-- The targets that are not inside of the last one that was kept. The source leaves a null pointer
for a target that is dropped, and every later loop skips it. -/
def uncovered (document : Document) : Option Place → List Place → Option (List Place)
  | _, [] => some []
  | covering, target :: targets => do
      let cell ← document.heap.cells target
      if ← document.coveredBy covering document.bound cell.parent then
        document.uncovered covering targets
      else
        let kept ← document.uncovered (some target) targets
        return target :: kept

/-- The targets that an edit of this kind is about. -/
def selectTargets (document : Document) (kind : EditKind) (targets : List Place) :
    Option (List Place) :=
  if kind = .insertAfter then some targets else document.uncovered none targets

/-- Whether a target is a constructed node. -/
def anyConstructed (document : Document) : List Place → Option Bool
  | [] => some false
  | target :: targets => do
      let cell ← document.heap.cells target
      let others ← document.anyConstructed targets
      return cell.data.constructed || others

/-- Whether the value will be read as a list of elements. A tag that is inserted must be one that
the format can write. -/
def readsElements (document : Document) (kind : EditKind) (targets : List Place)
    (element : Element) : Option (Except Status Bool) :=
  match kind with
  | .remove => some (.ok false)
  | .replace => (document.anyConstructed targets).map .ok
  | .insertAfter => some ((encodedSize document.options.format element).map fun _ =>
    document.options.format.constructs element.tag)

/-- What the preflight counts in a value: its elements, and the depth of the deepest of them. -/
def countElements (format : Format) : Nat → TreeReader → Nat → Nat →
    Option (Except Status (Nat × Nat))
  | 0, _, _, _ => none
  | fuel + 1, reader, added, depth =>
    match treeReaderNextEvent format reader with
    | .error .atEnd => some (.ok (added, depth))
    | .error status => some (.error status)
    | .ok (event, reader) =>
      if event.kind = .ending then countElements format fuel reader added depth
      else countElements format fuel reader (added + 1) (max depth event.depth)

/-- The limits that the preflight reads the value with. -/
def preflightLimits (document : Document) (size : Nat) : TreeLimits :=
  ⟨min document.options.maxDepth size, document.options.maxDepth, document.options.maxElements⟩

/-- The value is read once ahead of the edits. -/
def measureValue (document : Document) (elements : Bool) (value : Bytes) :
    Option (DocumentResult (Nat × Nat)) :=
  if elements ∧ value ≠ [] then
    let capacity := min document.options.maxDepth value.length
    if capacity > sizeMax / 16 then some (.error .overflow, document)
    else
      match if capacity = 0 then (true, document) else document.allocateBuffer with
      | (false, document) => some (.error .outOfMemory, document)
      | (true, document) =>
        match treeReaderInit document.options.format
            (document.preflightLimits value.length) value with
        | .error status => some (.error status, document)
        | .ok reader => do
            let result ←
              countElements document.options.format (reader.remaining + 1) reader 0 0
            return (result, document)
  else some (.ok (0, 0), document)

/-- The nodes that there will be, or the limit that is in the way: one turn for each target. -/
def projectTargets (document : Document) (kind : EditKind) (added relative : Nat) :
    Nat → List Place → Option (Except Status Nat)
  | projected, [] => some (.ok projected)
  | projected, target :: targets => do
      let cell ← document.heap.cells target
      if kind = .remove ∨ (kind = .replace ∧ ¬ cell.data.constructed) then
        document.projectTargets kind added relative projected targets
      else
        let depth ← document.nodeDepth target
        if added ≠ 0 ∧ (depth ≥ document.options.maxDepth ∨
            relative > document.options.maxDepth - depth - 1) then
          return .error .limit
        else if kind = .replace then
          let size ← document.heap.subtreeSize document.bound target
          let projected := projected - (size - 1)
          if added > document.options.maxElements - projected then return .error .limit
          else document.projectTargets kind added relative (projected + added) targets
        else if projected = document.options.maxElements then return .error .limit
        else if added > document.options.maxElements - (projected + 1) then return .error .limit
        else document.projectTargets kind added relative (projected + 1 + added) targets

/-- One target is edited. -/
def commitTarget (document : Document) (kind : EditKind) (element : Element) (target : Place) :
    Option (DocumentResult Unit) :=
  match kind with
  | .remove => (document.erase target).map fun document => (.ok (), document)
  | .replace => document.setValue target element.value
  | .insertAfter => do
      let cell ← document.heap.cells target
      let (result, document) ← document.insert cell.parent cell.next element
      return (result.map fun _ => (), document)

/-- What a batch returns: its result, the targets that were edited, and the document it leaves. -/
abbrev BatchResult := Except Status Unit × Nat × Document

/-- The targets are edited until an edit fails. -/
def commitTargets (kind : EditKind) (element : Element) : Nat → Document → List Place →
    Option BatchResult
  | applied, document, [] => some (.ok (), applied, document)
  | applied, document, target :: targets => do
      match ← document.commitTarget kind element target with
      | (.error status, document) => return (.error status, applied, document)
      | (.ok (), document) => commitTargets kind element (applied + 1) document targets

/-- The edits after the preflight, with a copy of the value that no edit gives back. -/
def editCopied (document : Document) (kind : EditKind) (element : Element)
    (targets : List Place) : Option BatchResult :=
  match if kind = .remove then (true, document) else document.copyBytes element.value with
  | (false, document) => some (.error .outOfMemory, 0, document)
  | (true, document) => commitTargets kind element 0 document targets

/-- `document_edit_targets`. `targets` are nodes of the document in preorder, which the source
asserts. -/
def editTargets (document : Document) (targets : List Place) (kind : EditKind)
    (element : Element) : Option BatchResult :=
  if document.queryCallbacks ≠ 0 then some (.error .invalidState, 0, document)
  else if targets = [] then some (.ok (), 0, document)
  else do
    let kept ← document.selectTargets kind targets
    match ← document.readsElements kind kept element with
    | .error status => return (.error status, 0, document)
    | .ok elements =>
      match ← document.measureValue elements element.value with
      | (.error status, document) => return (.error status, 0, document)
      | (.ok (added, relative), document) =>
        match ← document.projectTargets kind added relative document.count kept with
        | .error status => return (.error status, 0, document)
        | .ok _ => document.editCopied kind element kept

section Targets

variable {document : Document} {context : LinkContext Place NodeData}
  {list : LinkForest Place NodeData}

/-- Whether a node owns a list or what is around of it. -/
def Encloses (node : Option Place) (context : LinkContext Place NodeData) : Bool :=
  context.any fun level => node = some level.addr

/-- The climb finds whether a target encloses the place. -/
theorem covered_by_spec (h : Holds document.heap.cells none none none (context.plug list))
    (covering : Option Place) {fuel : Nat} (hfuel : context.length ≤ fuel) :
    document.coveredBy covering fuel (context.owner none) = some (Encloses covering context) := by
  induction context generalizing list fuel with
  | nil => cases fuel <;> rfl
  | cons level outer ih =>
    obtain ⟨fuel, rfl⟩ : ∃ less, fuel = less + 1 :=
      ⟨fuel - 1, by simp only [List.length_cons] at hfuel; omega⟩
    have hcell := LinkContext.holds_owner h
    have hup := ih h (show outer.length ≤ fuel by simpa using hfuel)
    show document.coveredBy covering (fuel + 1) (some level.addr) = _
    rw [coveredBy, hcell]
    by_cases hself : covering = some level.addr
    · simp [hself, Encloses]
    · rw [if_neg hself]
      refine hup.trans ?_
      simp [hself, Encloses]

/-- Inside of a target that was kept all targets are dropped. -/
theorem uncovered_inside (p : Place → Bool) (list : LinkForest Place NodeData) (covering : Place) :
    ∀ (context : LinkContext Place NodeData) (left : LinkForest Place NodeData),
      document.Represents (context.plug (left.append list)) →
      Encloses (some covering) context = true →
      ∀ more, document.uncovered (some covering) (list.addrs.filter p ++ more) =
        document.uncovered (some covering) more := by
  induction list with
  | nil => exact fun _ _ _ _ _ => rfl
  | node addr data inner rest ihinner ihrest =>
    intro context left h hinside more
    have hassoc : left.append (.node addr data inner rest) =
        (left.append (.single addr data inner)).append rest := by
      rw [LinkForest.append_assoc]
      rfl
    have hin := ihinner (⟨addr, data, left, rest⟩ :: context) .nil h (by
      simp only [Encloses, List.any_cons, Bool.or_eq_true]
      exact .inr hinside)
    have hout := ihrest context (left.append (.single addr data inner)) (hassoc ▸ h) hinside more
    have hbound := h.size_lt
    have hdeep := context_length_le context (left.append (.node addr data inner rest))
    have hcovered := covered_by_spec h.lists.holds (some covering)
      (show context.length ≤ document.bound by omega)
    rw [hinside] at hcovered
    have hrest : document.uncovered (some covering)
        (inner.addrs.filter p ++ rest.addrs.filter p ++ more) =
        document.uncovered (some covering) more := by
      rw [List.append_assoc, hin]
      exact hout
    rw [LinkForest.addrs_node, List.filter_cons, List.filter_append]
    split
    · rw [List.cons_append]
      simp only [uncovered, h.cell, Option.bind_eq_bind, Option.bind_some, hcovered, if_true]
      exact hrest
    · exact hrest

/-- Of targets in preorder those are kept that no other target encloses. -/
theorem uncovered_list (p : Place → Bool) (list : LinkForest Place NodeData) :
    ∀ (context : LinkContext Place NodeData) (left : LinkForest Place NodeData)
      (covering : Option Place), document.Represents (context.plug (left.append list)) →
      Encloses covering context = false → (∀ a, covering = some a → a ∉ list.addrs) →
      ∃ covering', (∀ a, covering' = some a → a ∈ list.addrs ∨ covering = some a) ∧
        ∀ more, document.uncovered covering (list.addrs.filter p ++ more) =
          (document.uncovered covering' more).map (list.tops p ++ ·) := by
  induction list with
  | nil =>
    intro context left covering _ _ _
    refine ⟨covering, fun a ha => .inr ha, fun more => ?_⟩
    simp [LinkForest.tops]
  | node addr data inner rest ihinner ihrest =>
    intro context left covering h hfree hnot
    have hassoc : left.append (.node addr data inner rest) =
        (left.append (.single addr data inner)).append rest := by
      rw [LinkForest.append_assoc]
      rfl
    have hbound := h.size_lt
    have hdeep := context_length_le context (left.append (.node addr data inner rest))
    obtain ⟨hcontext, hlist, hapart⟩ := List.nodup_append.mp
      ((context.addrs_plug (left.append (.node addr data inner rest))).nodup_iff.mp h.nodup)
    obtain ⟨-, -, hnotinner, hnotrest, -, -, hdisjoint⟩ : left.addrs.Nodup ∧ True ∧
        addr ∉ inner.addrs ∧ addr ∉ rest.addrs ∧ inner.addrs.Nodup ∧ rest.addrs.Nodup ∧
        ∀ a ∈ inner.addrs, a ∉ rest.addrs := by
      rw [LinkForest.addrs_append, LinkForest.addrs_node] at hlist
      obtain ⟨hl, hn, -⟩ := List.nodup_append.mp hlist
      obtain ⟨hself, hboth⟩ := List.nodup_cons.mp hn
      obtain ⟨hi, hr, hd⟩ := List.nodup_append.mp hboth
      exact ⟨hl, trivial, fun hm => hself (List.mem_append_left _ hm),
        fun hm => hself (List.mem_append_right _ hm), hi, hr, fun a ha hr => hd a ha a hr rfl⟩
    have hoff : ∀ a ∈ addr :: (inner.addrs ++ rest.addrs), Encloses (some a) context = false := by
      intro a ha
      rw [Encloses, List.any_eq_false]
      intro level hlevel heq
      have hin : level.addr ∈ context.addrs := LinkContext.level_mem hlevel
      refine hapart level.addr hin a ?_ (Option.some.inj (of_decide_eq_true heq)).symm
      rw [LinkForest.addrs_append, LinkForest.addrs_node]
      exact List.mem_append_right _ ha
    rw [LinkForest.addrs_node] at hnot ⊢
    rw [List.filter_cons, List.filter_append]
    cases hp : p addr with
    | true =>
      obtain ⟨covering', hcovering, hrun⟩ := ihrest context
        (left.append (.single addr data inner)) (some addr) (hassoc ▸ h)
        (hoff addr List.mem_cons_self) (fun a ha hm => by cases ha; exact hnotrest hm)
      have hinside := uncovered_inside p inner addr (⟨addr, data, left, rest⟩ :: context) .nil h
        (by simp [Encloses])
      have hcovered := covered_by_spec h.lists.holds covering
        (show context.length ≤ document.bound by omega)
      rw [hfree] at hcovered
      refine ⟨covering', ?_, fun more => ?_⟩
      · intro a ha
        rcases hcovering a ha with hin | heq
        · exact .inl (by simp [hin])
        · cases heq
          exact .inl (by simp)
      · rw [if_pos rfl, List.cons_append]
        simp only [uncovered, h.cell, Option.bind_eq_bind, Option.bind_some, hcovered,
          Bool.false_eq_true, if_false]
        rw [List.append_assoc, hinside, hrun]
        cases document.uncovered covering' more with
        | none => rfl
        | some kept => simp [LinkForest.tops, hp]
    | false =>
      obtain ⟨middle, hmiddle, hin⟩ := ihinner (⟨addr, data, left, rest⟩ :: context) .nil covering h
        (by
          simp only [Encloses, List.any_cons, Bool.or_eq_false_iff]
          exact ⟨decide_eq_false fun heq => hnot addr heq (by simp), hfree⟩)
        (fun a ha hm => hnot a ha (by simp [hm]))
      obtain ⟨covering', hcovering, hout⟩ := ihrest context
        (left.append (.single addr data inner)) middle (hassoc ▸ h)
        (by
          cases middle with
          | none => simp [Encloses]
          | some a =>
            rcases hmiddle a rfl with hm | heq
            · exact hoff a (by simp [hm])
            · rw [← heq]
              exact hfree)
        (by
          intro a ha hm
          rcases hmiddle a ha with hin | heq
          · exact hdisjoint a hin hm
          · exact hnot a heq (by simp [hm]))
      refine ⟨covering', ?_, fun more => ?_⟩
      · intro a ha
        rcases hcovering a ha with hm | heq
        · exact .inl (by simp [hm])
        · rcases hmiddle a heq with hm | heq
          · exact .inl (by simp [hm])
          · exact .inr heq
      · rw [if_neg Bool.false_ne_true, List.append_assoc, hin, hout, Option.map_map]
        congr 1
        funext kept
        simp [LinkForest.tops, hp]

end Targets

/-- The value is read as the children of a node. -/
def ReadsAs (format : Format) (value : Bytes) (inner : LinkForest Place NodeData) : Prop :=
  ∃ limits reader last events, treeReaderInit format limits value = .ok reader ∧
    Emits (pullMove format) reader events last ∧ last.atEnd = true ∧
    inner.spell (fun _ => {}) = events.map (TreeEvent.token false)

/-- What was read is the parse of the value. -/
theorem Reads.reads_as {document : Document} {value : Bytes} {depth : Nat} {events : List TreeEvent}
    {inner : LinkForest Place NodeData} {locations : Place → SourceLocation}
    (h : document.Reads value depth events)
    (hspell : inner.spell locations = events.map (TreeEvent.token false)) :
    ReadsAs document.options.format value inner := by
  obtain ⟨-, -, reader, last, hinit, hemits, hend⟩ := h
  refine ⟨_, reader, last, events, hinit, hemits, hend, ?_⟩
  rw [spell_plain inner locations, hspell, tokens_plain]

/-- A node that was made of an element. -/
structure MadeOf (format : Format) (element : Element) (data : NodeData)
    (inner : LinkForest Place NodeData) : Prop where
  tag : data.tag = element.tag
  constructed : data.constructed = format.constructs element.tag
  value : data.value = if format.constructs element.tag then [] else element.value
  reads : if format.constructs element.tag ∧ element.value ≠ [] then
    ReadsAs format element.value inner else inner = .nil

/-- What an edit makes of a target. -/
inductive EditsNode (format : Format) (kind : EditKind) (element : Element) (addr : Place)
    (data : NodeData) (inner : LinkForest Place NodeData) : LinkForest Place NodeData → Prop where
  | removed (hkind : kind = .remove) : EditsNode format kind element addr data inner .nil
  | primitive (hkind : kind = .replace) (hdata : data.constructed = false) :
      EditsNode format kind element addr data inner
        (.single addr { data with value := element.value } inner)
  | constructed {built : LinkForest Place NodeData} (hkind : kind = .replace)
      (hdata : data.constructed = true) (hreads : ReadsAs format element.value built) :
      EditsNode format kind element addr data inner (.single addr data built)
  | inserted {added : Place} {item : NodeData} {built : LinkForest Place NodeData}
      (hkind : kind = .insertAfter) (hmade : MadeOf format element item built) :
      EditsNode format kind element addr data inner
        (.node addr data inner (.single added item built))

section Commit

variable {document : Document} {context : LinkContext Place NodeData}
  {left inner right : LinkForest Place NodeData} {node : Place} {data : NodeData}

/-- An edit of one target fails and changes nothing, or it edits the target. -/
theorem Represents.commit_spec
    (h : document.Represents (context.plug (left.append (.node node data inner right))))
    (hidle : document.queryCallbacks = 0) (kind : EditKind) (element : Element) :
    ∃ result after, document.commitTarget kind element node = some (result, after) ∧
      after.queryCallbacks = 0 ∧
      ((∃ status, result = .error status ∧ Fails document after) ∨
        ∃ middle, result = .ok () ∧
          EditsNode document.options.format kind element node data inner middle ∧
          Edits document (context.plug (left.append (.node node data inner right))) after
            (context.plug (left.append (middle.append right)))) := by
  cases kind with
  | remove =>
    obtain ⟨after, herase, hedits, hswept⟩ := h.erase_now_edits
    refine ⟨.ok (), after, ?_, hswept.keeps.queryCallbacks.trans hidle,
      .inr ⟨.nil, rfl, .removed rfl, hedits⟩⟩
    simp only [commitTarget, erase, hidle, ne_eq, not_true_eq_false, if_false, herase,
      Option.map_some]
  | replace =>
    obtain ⟨⟨result, after⟩, hset, hsets⟩ := h.set_value_spec element.value
    refine ⟨result, after, hset, ?_⟩
    cases hsets with
    | failed hfails =>
      exact ⟨hfails.unedited.queryCallbacks.trans hidle, .inl ⟨_, rfl, hfails⟩⟩
    | primitive _ hprimitive hrepresents hkeeps _ hepoch =>
      exact ⟨hkeeps.queryCallbacks.trans hidle, .inr ⟨_, rfl, .primitive rfl hprimitive,
        hkeeps.edits_data hrepresents hepoch rfl rfl⟩⟩
    | constructed _ hconstructed hrepresents hreads hspell hnew hunmarked hkeeps _ hepoch =>
      exact ⟨hkeeps.queryCallbacks.trans hidle, .inr ⟨_, rfl,
        .constructed rfl hconstructed (hreads.reads_as hspell),
        hkeeps.edits_children hrepresents hepoch hnew hunmarked⟩⟩
  | insertAfter =>
    have hassoc : left.append (.node node data inner right) =
        (left.append (.single node data inner)).append right := by
      rw [LinkForest.append_assoc]
      rfl
    have h' := h
    rw [hassoc] at h'
    obtain ⟨⟨result, after⟩, hinsert, hinserts⟩ := h'.insert_at element
    have hcommit : document.commitTarget .insertAfter element node =
        some (result.map fun _ => (), after) := by
      simp only [commitTarget, h.cell, Option.bind_eq_bind, Option.bind_some, hinsert]
      rfl
    refine ⟨_, after, hcommit, ?_⟩
    cases hinserts with
    | failed hfails =>
      exact ⟨hfails.unedited.queryCallbacks.trans hidle, .inl ⟨_, rfl, hfails⟩⟩
    | @inserted built added item _ events hrepresents hitem hbuilds hspell hnew hunmarked hkeeps _
        hepoch =>
      have hedits := hkeeps.edits_insert hrepresents hepoch hnew hunmarked
      refine ⟨hkeeps.queryCallbacks.trans hidle, .inr ⟨.node node data inner
        (.single added item built), rfl, .inserted rfl ⟨hitem.1, hitem.2.1, hitem.2.2, ?_⟩, ?_⟩⟩
      · have hreads := hbuilds.2.2
        unfold ReadsValue at hreads
        split
        next hvalue =>
          rw [if_pos hvalue] at hreads
          exact hreads.2.reads_as hspell
        next hvalue =>
          rw [if_neg hvalue] at hreads
          subst hreads
          cases built with
          | nil => rfl
          | node addr data inner rest =>
            simp only [LinkForest.spell, List.map_nil] at hspell
            split at hspell <;> cases hspell
      · rw [← hassoc, LinkForest.append_assoc] at hedits
        exact hedits

end Commit

/-- The targets of an edit among the nodes that are selected. -/
def chosen (kind : EditKind) (p : Place → Bool) (list : LinkForest Place NodeData) : List Place :=
  if kind = .insertAfter then list.addrs.filter p else list.tops p

/-- What the edit of all targets at once makes of a list. -/
inductive Edited (format : Format) (kind : EditKind) (element : Element) (p : Place → Bool) :
    LinkForest Place NodeData → LinkForest Place NodeData → Prop where
  | nil : Edited format kind element p .nil .nil
  | kept {addr : Place} {data : NodeData} {inner inner' rest rest' : LinkForest Place NodeData}
      (hp : p addr = false) (hinner : Edited format kind element p inner inner')
      (hrest : Edited format kind element p rest rest') :
      Edited format kind element p (.node addr data inner rest) (.node addr data inner' rest')
  | target {addr : Place} {data : NodeData} {inner middle rest rest' : LinkForest Place NodeData}
      (hkind : kind ≠ .insertAfter) (hp : p addr = true)
      (hnode : EditsNode format kind element addr data inner middle)
      (hrest : Edited format kind element p rest rest') :
      Edited format kind element p (.node addr data inner rest) (middle.append rest')
  | after {addr added : Place} {data item : NodeData}
      {inner inner' built rest rest' : LinkForest Place NodeData}
      (hkind : kind = .insertAfter) (hp : p addr = true)
      (hinner : Edited format kind element p inner inner')
      (hmade : MadeOf format element item built)
      (hrest : Edited format kind element p rest rest') :
      Edited format kind element p (.node addr data inner rest)
        (.node addr data inner' (.node added item built rest'))

/-- What the commits do to the targets of a list, ahead of those of `more`. -/
inductive Commits (kind : EditKind) (element : Element) (p : Place → Bool) (document : Document)
    (context : LinkContext Place NodeData) (left list : LinkForest Place NodeData) (applied : Nat)
    (more : List Place) : Option BatchResult → Prop where
  | failed {status : Status} {edited : Nat} {after : Document} {forest : LinkForest Place NodeData}
      (hidle : after.queryCallbacks = 0)
      (hedits : Edits document (context.plug (left.append list)) after forest) :
      Commits kind element p document context left list applied more
        (some (.error status, edited, after))
  | done {after : Document} {list' : LinkForest Place NodeData} (hidle : after.queryCallbacks = 0)
      (hedited : Edited document.options.format kind element p list list')
      (hedits : Edits document (context.plug (left.append list)) after
        (context.plug (left.append list'))) :
      Commits kind element p document context left list applied more
        (commitTargets kind element (applied + (chosen kind p list).length) after more)

section Chosen

variable {kind : EditKind} {p : Place → Bool} {addr : Place} {data : NodeData}
  {inner rest : LinkForest Place NodeData}

theorem chosen_other (hp : p addr = false) :
    chosen kind p (.node addr data inner rest) = chosen kind p inner ++ chosen kind p rest := by
  unfold chosen
  split
  · rw [LinkForest.addrs_node, List.filter_cons, hp, if_neg Bool.false_ne_true, List.filter_append]
  · rw [LinkForest.tops, hp, if_neg Bool.false_ne_true]

theorem chosen_target (hkind : kind ≠ .insertAfter) (hp : p addr = true) :
    chosen kind p (.node addr data inner rest) = addr :: chosen kind p rest := by
  unfold chosen
  rw [if_neg hkind, if_neg hkind, LinkForest.tops, hp, if_pos rfl, List.singleton_append]

theorem chosen_after (hp : p addr = true) :
    chosen .insertAfter p (.node addr data inner rest) =
      addr :: (chosen .insertAfter p inner ++ chosen .insertAfter p rest) := by
  simp [chosen, hp]

end Chosen

/-- The targets of a list are edited in preorder. A target that is edited, and what is edited
inside of it, leaves the list behind it as it was. -/
theorem commit_list (kind : EditKind) (element : Element) (p : Place → Bool)
    (list : LinkForest Place NodeData) :
    ∀ (context : LinkContext Place NodeData) (left : LinkForest Place NodeData)
      (document : Document) (applied : Nat) (more : List Place),
      document.Represents (context.plug (left.append list)) → document.queryCallbacks = 0 →
      Commits kind element p document context left list applied more
        (commitTargets kind element applied document (chosen kind p list ++ more)) := by
  induction list with
  | nil =>
    intro context left document applied more h hidle
    have hnone : chosen kind p .nil = [] := by
      unfold chosen
      split <;> rfl
    have hdone := @Commits.done kind element p document context left .nil applied more document
      .nil hidle .nil h.edits_refl
    rw [hnone] at hdone ⊢
    exact hdone
  | node addr data inner rest ihinner ihrest =>
    intro context left document applied more h hidle
    -- what is no target is kept, and the edits go on inside and behind it
    cases hp : p addr with
    | false =>
      have hin := ihinner (⟨addr, data, left, rest⟩ :: context) .nil document applied
        (chosen kind p rest ++ more) h hidle
      rw [chosen_other hp, List.append_assoc]
      generalize hrun : commitTargets kind element applied document
        (chosen kind p inner ++ (chosen kind p rest ++ more)) = run at hin ⊢
      cases hin with
      | failed hstill hedits => exact .failed hstill hedits
      | @done middle inner' hstill hedited hedits =>
        have hassoc : ∀ later : LinkForest Place NodeData,
            (left.append (.single addr data inner')).append later =
              left.append (.node addr data inner' later) := fun later => by
          rw [LinkForest.append_assoc]
          rfl
        have hout := ihrest context (left.append (.single addr data inner')) middle
          (applied + (chosen kind p inner).length) more
          (by rw [hassoc]; exact hedits.represents) hstill
        generalize hrun' : commitTargets kind element (applied + (chosen kind p inner).length)
          middle (chosen kind p rest ++ more) = run' at hout hrun
        cases hout with
        | failed hstill' hedits' =>
          rw [hassoc] at hedits'
          exact .failed hstill' (hedits.trans hedits')
        | @done after rest' hstill' hedited' hedits' =>
          rw [hassoc, hassoc] at hedits'
          rw [hedits.options] at hedited'
          have hdone := @Commits.done kind element p document context left _ applied more _ _ hstill'
            (.kept hp hedited hedited') (hedits.trans hedits')
          rw [chosen_other hp, List.length_append, ← Nat.add_assoc] at hdone
          exact hdone
    | true =>
      obtain ⟨result, edited, hcommit, hstill, hresult⟩ := h.commit_spec hidle kind element
      have hstep : ∀ later, commitTargets kind element applied document (addr :: later) =
          match result with
          | .error status => some (.error status, applied, edited)
          | .ok () => commitTargets kind element (applied + 1) edited later := by
        intro later
        simp only [commitTargets, hcommit, Option.bind_eq_bind, Option.bind_some]
        cases result <;> rfl
      -- the first failure ends the run
      rcases hresult with ⟨status, rfl, hfails⟩ | ⟨middle, rfl, hnode, hedits⟩
      · obtain ⟨later, hlater⟩ : ∃ later, chosen kind p (.node addr data inner rest) =
            addr :: later := by
          by_cases hkind : kind = .insertAfter
          · subst hkind
            exact ⟨_, chosen_after hp⟩
          · exact ⟨_, chosen_target hkind hp⟩
        rw [hlater, List.cons_append, hstep]
        exact .failed hstill (h.edits_failure hfails)
      · by_cases hkind : kind = .insertAfter
        · subst hkind
          cases hnode with
          | removed hkind => cases hkind
          | primitive hkind => cases hkind
          | constructed hkind => cases hkind
          | @inserted added item built _ hmade =>
            rw [chosen_after hp, List.cons_append, hstep, List.append_assoc]
            dsimp only
            -- what is inside of the target comes before the rest of its list
            have hin := ihinner (⟨addr, data, left, .node added item built rest⟩ :: context)
              .nil edited (applied + 1) (chosen .insertAfter p rest ++ more)
              hedits.represents hstill
            generalize hrun : commitTargets .insertAfter element (applied + 1) edited
              (chosen .insertAfter p inner ++ (chosen .insertAfter p rest ++ more)) = run
              at hin ⊢
            cases hin with
            | failed hstill hedits' => exact .failed hstill (hedits.trans hedits')
            | @done between inner' hstill hedited hedits' =>
              have hassoc : ∀ later : LinkForest Place NodeData,
                  (left.append (.node addr data inner' (.single added item built))).append
                    later = left.append (.node addr data inner'
                      (.node added item built later)) := fun later => by
                rw [LinkForest.append_assoc]
                rfl
              have hout := ihrest context
                (left.append (.node addr data inner' (.single added item built))) between
                (applied + 1 + (chosen .insertAfter p inner).length) more
                (by rw [hassoc]; exact hedits'.represents) hstill
              generalize hrun' : commitTargets .insertAfter element
                (applied + 1 + (chosen .insertAfter p inner).length) between
                (chosen .insertAfter p rest ++ more) = run' at hout hrun
              have hboth := hedits.trans hedits'
              cases hout with
              | failed hstill' hedits'' =>
                rw [hassoc] at hedits''
                exact .failed hstill' (hboth.trans hedits'')
              | @done after rest' hstill' hedited' hedits'' =>
                rw [hassoc, hassoc] at hedits''
                rw [hedits.options] at hedited
                rw [hboth.options] at hedited'
                have hdone := @Commits.done .insertAfter element p document context left _ applied
                  more _ _ hstill'
                  (.after rfl hp hedited hmade hedited') (hboth.trans hedits'')
                rw [chosen_after hp, List.length_cons, List.length_append] at hdone
                have hcount : applied + 1 + (chosen .insertAfter p inner).length +
                    (chosen .insertAfter p rest).length = applied +
                    ((chosen .insertAfter p inner).length +
                      (chosen .insertAfter p rest).length + 1) := by omega
                rw [hcount]
                exact hdone
        · rw [chosen_target hkind hp, List.cons_append, hstep]
          dsimp only
          have hout := ihrest context (left.append middle) edited (applied + 1) more
            (by rw [LinkForest.append_assoc]; exact hedits.represents) hstill
          generalize hrun : commitTargets kind element (applied + 1) edited
            (chosen kind p rest ++ more) = run at hout ⊢
          cases hout with
          | failed hstill' hedits' =>
            rw [LinkForest.append_assoc] at hedits'
            exact .failed hstill' (hedits.trans hedits')
          | @done after rest' hstill' hedited hedits' =>
            rw [LinkForest.append_assoc, LinkForest.append_assoc] at hedits'
            rw [hedits.options] at hedited
            have hdone :=
              @Commits.done kind element p document context left _ applied more _ _ hstill'
              (.target hkind hp hnode hedited) (hedits.trans hedits')
            rw [chosen_target hkind hp, List.length_cons] at hdone
            have hcount : applied + 1 + (chosen kind p rest).length =
                applied + ((chosen kind p rest).length + 1) := by omega
            rw [hcount]
            exact hdone

section Total

variable {document : Document} {forest : LinkForest Place NodeData} {targets : List Place}

/-- Counting the elements of a value terminates. -/
theorem count_elements_some {format : Format} {fuel : Nat} {reader : TreeReader}
    (hcount : reader.count ≤ reader.maxElements) (hfuel : reader.remaining < fuel)
    (added depth : Nat) : ∃ result, countElements format fuel reader added depth = some result := by
  induction fuel generalizing reader added depth with
  | zero => omega
  | succ fuel ih =>
    unfold countElements
    cases hevent : treeReaderNextEvent format reader with
    | error status => cases status <;> exact ⟨_, rfl⟩
    | ok found =>
      obtain ⟨event, next⟩ := found
      obtain ⟨hnext, hless⟩ := (next_event_progress hevent).2 hcount
      dsimp only
      split
      · exact ih hnext (by omega) added depth
      · exact ih hnext (by omega) (added + 1) (max depth event.depth)

/-- The preflight only asks for memory. -/
theorem measure_value_asks (document : Document) (elements : Bool) (value : Bytes) :
    ∃ result after refused, document.measureValue elements value = some (result, after) ∧
      Asks document after refused := by
  unfold measureValue
  split
  · dsimp only
    split
    · exact ⟨_, _, _, rfl, Asks.refl document⟩
    · obtain ⟨given, asked, hgiven, hasks⟩ : ∃ given asked,
          (if min document.options.maxDepth value.length = 0 then (true, document)
            else document.allocateBuffer) = (given, asked) ∧ Asks document asked !given := by
        split
        · exact ⟨true, document, rfl, Asks.refl document⟩
        · exact allocate_buffer_asks document
      rw [hgiven]
      cases given with
      | false => exact ⟨_, _, _, rfl, hasks⟩
      | true =>
        dsimp only
        cases hinit : treeReaderInit asked.options.format (asked.preflightLimits value.length)
            value with
        | error status => exact ⟨_, _, _, rfl, hasks⟩
        | ok reader =>
          have hzero : reader.count = 0 := by
            unfold treeReaderInit at hinit
            obtain ⟨input, hread, hinit⟩ := bind_ok.mp hinit
            rw [← Except.ok.inj hinit]
            rfl
          obtain ⟨result, hresult⟩ := @count_elements_some asked.options.format
            (reader.remaining + 1) reader (by omega) (Nat.lt_succ_self _) 0 0
          refine ⟨result, asked, _, ?_, hasks⟩
          simp only [hresult, Option.bind_eq_bind, Option.bind_some]
          rfl
  · exact ⟨_, _, _, rfl, Asks.refl document⟩

theorem Represents.any_constructed (h : document.Represents forest)
    (hlive : ∀ target ∈ targets, target ∈ forest.addrs) :
    ∃ result, document.anyConstructed targets = some result := by
  induction targets with
  | nil => exact ⟨false, rfl⟩
  | cons target targets ih =>
    obtain ⟨result, hresult⟩ := ih fun other hother => hlive other (List.mem_cons_of_mem _ hother)
    obtain ⟨cell, hcell⟩ := h.lists.holds.cell_some (hlive target List.mem_cons_self)
    refine ⟨cell.data.constructed || result, ?_⟩
    simp only [anyConstructed, hcell, hresult, Option.bind_eq_bind, Option.bind_some]
    rfl

/-- What the projection looks at in a node. -/
theorem Represents.measures (h : document.Represents forest) {target : Place}
    (hlive : target ∈ forest.addrs) :
    ∃ cell depth size, document.heap.cells target = some cell ∧
      document.nodeDepth target = some depth ∧
      document.heap.subtreeSize document.bound target = some size := by
  obtain ⟨context, left, data, inner, right, hforest⟩ := LinkContext.exists_plug hlive
  rw [hforest] at h
  have hbound := h.size_lt
  have hdeep := context_length_le context (left.append (.node target data inner right))
  have hplug := LinkContext.size_plug context (left.append (.node target data inner right))
  have hlist : (left.append (.node target data inner right)).size =
      left.size + (inner.size + right.size + 1) := by
    simp only [LinkForest.size_append, LinkForest.size]
  have hinner := (holds_append.mp (LinkContext.holds_list h.lists.holds)).2.2.1
  have hnotin : target ∉ inner.addrs :=
    @Represents.owner_not_mem document (⟨target, data, left, right⟩ :: context) inner h target rfl
  exact ⟨_, _, _, h.cell, LinkContext.depth_from h.lists.holds h.cell rfl 0 (by omega),
    Holds.subtree_size h.cell rfl hinner hnotin (by omega)⟩

/-- The projected count is computed without a fault. -/
theorem Represents.project_targets (h : document.Represents forest)
    (hlive : ∀ target ∈ targets, target ∈ forest.addrs) (kind : EditKind)
    (added relative projected : Nat) :
    ∃ result, document.projectTargets kind added relative projected targets = some result := by
  induction targets generalizing projected with
  | nil => exact ⟨_, rfl⟩
  | cons target targets ih =>
    have hrest := ih fun other hother => hlive other (List.mem_cons_of_mem _ hother)
    obtain ⟨cell, depth, size, hcell, hdepth, hsize⟩ :=
      h.measures (hlive target List.mem_cons_self)
    simp only [projectTargets, hcell, hdepth, hsize, Option.bind_eq_bind, Option.bind_some]
    split_ifs
    all_goals first | exact hrest _ | exact ⟨_, rfl⟩

/-- A list of nodes in preorder is what is selected by being in it. -/
theorem filter_targets {list : List Place} (hsub : targets.Sublist list) (hnodup : list.Nodup) :
    list.filter (fun a => decide (a ∈ targets)) = targets := by
  induction hsub with
  | slnil => rfl
  | @cons targets list a hsub ih =>
    obtain ⟨hnot, hrest⟩ := List.nodup_cons.mp hnodup
    rw [List.filter_cons, if_neg (by simpa using fun hmem => hnot (hsub.subset hmem))]
    exact ih hrest
  | @cons_cons targets list a hsub ih =>
    obtain ⟨hnot, hrest⟩ := List.nodup_cons.mp hnodup
    rw [List.filter_cons, if_pos (by simp)]
    refine congrArg (a :: ·) ((List.filter_congr fun b hb => ?_).trans (ih hrest))
    have hne : b ≠ a := fun heq => hnot (heq ▸ hb)
    simp [hne]

/-- The selection is the one chosen on the forest. -/
theorem Represents.select_targets (h : document.Represents forest)
    (hsub : targets.Sublist forest.addrs) (kind : EditKind) :
    document.selectTargets kind targets =
      some (chosen kind (fun a => decide (a ∈ targets)) forest) := by
  unfold selectTargets chosen
  split
  · rw [filter_targets hsub h.nodup]
  · obtain ⟨covering, -, hrun⟩ := uncovered_list (fun a => decide (a ∈ targets)) forest [] .nil none h
      rfl (fun a ha => by cases ha)
    have hall := hrun []
    rw [List.append_nil, filter_targets hsub h.nodup] at hall
    rw [hall]
    simp [uncovered]

/-- The chosen targets are nodes of the forest. -/
theorem chosen_subset (kind : EditKind) (p : Place → Bool) (forest : LinkForest Place NodeData) :
    ∀ a ∈ chosen kind p forest, a ∈ forest.addrs := by
  unfold chosen
  split
  · exact fun a ha => List.mem_of_mem_filter ha
  · induction forest with
    | nil => exact fun a ha => by cases ha
    | node addr data inner rest ihinner ihrest =>
      intro a ha
      rw [LinkForest.tops, List.mem_append] at ha
      rw [LinkForest.addrs_node, List.mem_cons, List.mem_append]
      rcases ha with ha | ha
      · split at ha
        · exact .inl (List.mem_singleton.mp ha)
        · exact .inr (.inl (ihinner a ha))
      · exact .inr (.inr (ihrest a ha))

/-- The edits after the preflight. -/
theorem Represents.edit_copied (h : document.Represents forest)
    (hidle : document.queryCallbacks = 0) (kind : EditKind) (element : Element)
    (p : Place → Bool) :
    ∃ result applied after forest', document.editCopied kind element (chosen kind p forest) =
      some (result, applied, after) ∧ Edits document forest after forest' := by
  obtain ⟨given, asked, refused, hgiven, hasks⟩ : ∃ given asked refused,
      (if kind = .remove then (true, document) else document.copyBytes element.value) =
        (given, asked) ∧ Asks document asked refused := by
    split
    · exact ⟨true, document, _, rfl, Asks.refl document⟩
    · obtain ⟨given, asked, hcopy, hasks⟩ := copy_bytes_asks document element.value
      exact ⟨given, asked, _, hcopy, hasks⟩
  have hedits := h.edits_failure (h.fails_asks hasks)
  unfold editCopied
  rw [hgiven]
  cases given with
  | false => exact ⟨_, _, _, forest, rfl, hedits⟩
  | true =>
    have hcommits := commit_list kind element p forest [] .nil asked 0 [] hedits.represents
      (hasks.unedited.queryCallbacks.trans hidle)
    rw [List.append_nil] at hcommits
    dsimp only
    generalize hrun : commitTargets kind element 0 asked (chosen kind p forest) = run at hcommits ⊢
    cases hcommits with
    | failed _ hedits' => exact ⟨_, _, _, _, rfl, hedits.trans hedits'⟩
    | done _ _ hedits' => exact ⟨_, _, _, _, rfl, hedits.trans hedits'⟩

/-- `document_edit_targets` returns, and what it leaves is a document. -/
theorem Represents.edit_targets (h : document.Represents forest)
    (hsub : targets.Sublist forest.addrs) (kind : EditKind) (element : Element) :
    ∃ result applied after forest', document.editTargets targets kind element =
      some (result, applied, after) ∧ Edits document forest after forest' := by
  unfold editTargets
  by_cases hidle : document.queryCallbacks = 0
  · rw [if_neg (not_not.mpr hidle)]
    split
    · exact ⟨_, _, _, forest, rfl, h.edits_refl⟩
    · have hlive := chosen_subset kind (fun a => decide (a ∈ targets)) forest
      rw [h.select_targets hsub kind]
      obtain ⟨reads, hreads⟩ : ∃ reads, document.readsElements kind
          (chosen kind (fun a => decide (a ∈ targets)) forest) element = some reads := by
        cases kind with
        | remove => exact ⟨_, rfl⟩
        | replace =>
          obtain ⟨any, hany⟩ := h.any_constructed hlive
          exact ⟨.ok any, by simp [readsElements, hany]⟩
        | insertAfter => exact ⟨_, rfl⟩
      simp only [Option.bind_eq_bind, Option.bind_some, hreads]
      cases reads with
      | error status => exact ⟨_, _, _, forest, rfl, h.edits_refl⟩
      | ok elements =>
        obtain ⟨measured, asked, refused, hmeasure, hasks⟩ :=
          measure_value_asks document elements element.value
        have hedits := h.edits_failure (h.fails_asks hasks)
        dsimp only
        rw [hmeasure, Option.bind_some]
        cases measured with
        | error status => exact ⟨_, _, _, forest, rfl, hedits⟩
        | ok sizes =>
          obtain ⟨projected, hproject⟩ := hedits.represents.project_targets hlive kind sizes.1
            sizes.2 asked.count
          dsimp only
          rw [hproject, Option.bind_some]
          cases projected with
          | error status => exact ⟨_, _, _, forest, rfl, hedits⟩
          | ok total =>
            obtain ⟨result, applied, after, forest', hrun, hedits'⟩ :=
              hedits.represents.edit_copied (hedits.queryCallbacks.trans hidle) kind element
                (fun a => decide (a ∈ targets))
            exact ⟨result, applied, after, forest', hrun, hedits.trans hedits'⟩
  · rw [if_pos hidle]
    exact ⟨_, _, _, forest, rfl, h.edits_refl⟩

end Total

end Document

end OpenTlv
