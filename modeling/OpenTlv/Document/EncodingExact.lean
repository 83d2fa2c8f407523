import OpenTlv.Document.Encoding
import OpenTlv.Document.Runs

/-!
# The encoding loop of documents

The walk presents the nodes of a document as a balanced stream of events. A measurement of them
either ends as their recursive encoding does or finds storage short, and then the loop starts again
with strictly more of it. Capacities are bounded, so the loop ends.
-/

namespace OpenTlv

variable {document : Document} {forest tree : LinkForest Place NodeData}

/-- A list of nodes as it is presented: constructed nodes are branches. -/
def LinkForest.presented : LinkForest Place NodeData → Forest PresentedNode
  | .nil => .nil
  | .node _ data inner rest =>
    if data.constructed then
      .branch ⟨data.element, true⟩ inner.presented
        ⟨(closingEvent 0).element, (closingEvent 0).tagPresent⟩ rest.presented
    else .leaf ⟨data.element, true⟩ rest.presented

theorem size_presented (tree : LinkForest Place NodeData) :
    tree.presented.size ≤ tree.size := by
  induction tree with
  | nil => exact le_refl _
  | node addr data inner rest ihInner ihRest =>
    have hsize : (LinkForest.node addr data inner rest).size = inner.size + rest.size + 1 := rfl
    unfold LinkForest.presented
    split
    · show inner.presented.size + 1 + rest.presented.size ≤ _
      omega
    · show rest.presented.size + 1 ≤ _
      omega

/-- A forest is no deeper than it is large. -/
theorem nesting_le_size {α : Type} (nodes : Forest α) : nodes.nesting ≤ nodes.size := by
  induction nodes with
  | nil => exact le_refl _
  | leaf node rest ih => exact Nat.le_succ_of_le ih
  | branch node kids close rest ihKids ihRest =>
    show max (kids.nesting + 1) rest.nesting ≤ kids.size + 1 + rest.size
    omega

section Walk

variable {heap : LinkHeap Place NodeData} {single : Bool} {parent prev : Option Place}

/-- Where the walk is behind a list of siblings. -/
def listLeave (parent : Option Place) (single : Bool) (depth : Nat) : DocumentSource :=
  if depth ≠ 0 then
    { next := parent, depth := depth - 1, single := single, closing := true }
  else { next := none, depth := depth, single := single, closing := false }

/-- A node is presented with what is inside of it, and then the walk leaves it. -/
theorem node_yields {addr : Place} {cell : LinkCell Place NodeData}
    {inner : LinkForest Place NodeData} {depth : Nat} {events : List WriteEvent} {status : Status}
    (hcell : heap.cells addr = some cell) (hfirst : cell.first = inner.firstAddr)
    (hinner : ∀ {events : List WriteEvent} {status : Status}, inner ≠ .nil →
      Yields (documentNext heap) ⟨some addr, depth, single, true⟩ events status →
      Yields (documentNext heap) ⟨inner.firstAddr, depth + 1, single, false⟩
        (inner.presented.events (depth + 1) ++ events) status)
    (hrest : ∀ closing, Yields (documentNext heap)
      (DocumentSource.leave ⟨some addr, depth, single, closing⟩ cell) events status) :
    Yields (documentNext heap) ⟨some addr, depth, single, false⟩
      ((LinkForest.node addr cell.data inner .nil).presented.events depth ++ events) status := by
  unfold LinkForest.presented
  by_cases hconstructed : cell.data.constructed = true
  · rw [if_pos hconstructed]
    have hclose : Yields (documentNext heap) ⟨some addr, depth, single, true⟩
        (closingEvent depth :: events) status := by
      refine .item ?_ (hrest true)
      unfold documentNext
      dsimp only
      rw [hcell]
      rfl
    have hevents : (Forest.branch (⟨cell.data.element, true⟩ : PresentedNode) inner.presented
        ⟨(closingEvent 0).element, (closingEvent 0).tagPresent⟩
        (LinkForest.presented .nil)).events depth ++ events =
        { kind := .begin, element := cell.data.element, tagPresent := true, depth := depth } ::
          (inner.presented.events (depth + 1) ++ closingEvent depth :: events) := by
      rw [Forest.events, List.cons_append, List.append_assoc]
      rfl
    rw [hevents]
    cases hnil : inner with
    | nil =>
      refine .item ?_ hclose
      unfold documentNext
      dsimp only
      rw [hcell]
      dsimp only
      rw [if_neg Bool.false_ne_true, if_pos hconstructed, hfirst, hnil]
      rfl
    | node child data below others =>
      have hne : inner ≠ .nil := by
        rw [hnil]
        exact fun h => by cases h
      have hinside := hinner hne hclose
      rw [hnil] at hinside
      refine .item ?_ hinside
      unfold documentNext
      dsimp only
      rw [hcell]
      dsimp only
      rw [if_neg Bool.false_ne_true, if_pos hconstructed, hfirst, hnil]
      rfl
  · rw [if_neg hconstructed]
    refine .item ?_ (hrest false)
    unfold documentNext
    dsimp only
    rw [hcell]
    dsimp only
    rw [if_neg Bool.false_ne_true, if_neg hconstructed]

/-- A list of siblings is presented in preorder, and then the walk is behind it. -/
theorem list_yields (h : Holds heap.cells parent prev none tree) (hnil : tree ≠ .nil) {depth : Nat}
    (hmany : ¬ (depth = 0 ∧ single = true)) {events : List WriteEvent} {status : Status}
    (hrest : Yields (documentNext heap) (listLeave parent single depth) events status) :
    Yields (documentNext heap) ⟨tree.firstAddr, depth, single, false⟩
      (tree.presented.events depth ++ events) status := by
  induction tree generalizing parent prev depth events status with
  | nil => exact absurd rfl hnil
  | node addr data inner rest ihInner ihRest =>
    obtain ⟨hcell, hinner, hsiblings⟩ := h
    rw [Option.or_none] at hcell
    have hsplit : (LinkForest.node addr data inner rest).presented.events depth ++ events =
        (LinkForest.node addr data inner .nil).presented.events depth ++
          (rest.presented.events depth ++ events) := by
      cases hconstructed : data.constructed <;>
        simp only [LinkForest.presented, hconstructed, Bool.false_eq_true, if_false, if_true,
          Forest.events, List.cons_append, List.nil_append, List.append_assoc]
    rw [hsplit]
    refine node_yields hcell rfl (fun hne hclose => ?_) fun closing => ?_
    · exact ihInner hinner hne (by omega) hclose
    · unfold DocumentSource.leave
      dsimp only
      rw [if_neg hmany]
      cases hlast : rest with
      | nil =>
        unfold listLeave at hrest
        exact hrest
      | node sibling data' below others =>
        have hne : rest ≠ .nil := by
          rw [hlast]
          exact fun h => by cases h
        have hothers := ihRest hsiblings hne hmany hrest
        rw [hlast] at hothers
        exact hothers

end Walk

/-- Where an encoding of a document starts, and the nodes that it is about: all of them, or one
with what is inside of it. -/
inductive Starts (document : Document) (forest : LinkForest Place NodeData) :
    Option Place → Bool → LinkForest Place NodeData → Prop where
  | whole : Starts document forest document.heap.first false forest
  | node {context : LinkContext Place NodeData} {left inner right : LinkForest Place NodeData}
      {addr : Place} {data : NodeData}
      (hforest : forest = context.plug (left.append (.node addr data inner right))) :
      Starts document forest (some addr) true (.node addr data inner .nil)

variable {first : Option Place} {single : Bool}

/-- The walk of a document presents the nodes that the encoding is about. -/
theorem document_yields (hrepresents : document.Represents forest)
    (hstarts : Starts document forest first single tree) :
    Yields (documentNext document.heap) ⟨first, 0, single, false⟩ (tree.presented.events 0)
      .atEnd := by
  have hend : Yields (documentNext document.heap) ⟨none, 0, single, false⟩ [] .atEnd := .last rfl
  cases hstarts with
  | whole =>
    have hfirst : document.heap.first = forest.firstAddr :=
      Option.some.inj hrepresents.lists.first
    rw [hfirst]
    by_cases hnil : forest = .nil
    · rw [hnil]
      exact hend
    · have hyields := @list_yields forest document.heap false none none
        hrepresents.lists.holds hnil 0 (by simp) _ _ hend
      rw [List.append_nil] at hyields
      exact hyields
  | @node context left inner right addr data hforest =>
    have hlist := LinkContext.holds_list (hforest ▸ hrepresents.lists.holds)
    obtain ⟨hcell, hinner, -⟩ := (holds_append.mp hlist).2
    have hyields := @node_yields document.heap true addr _ inner 0 [] .atEnd hcell rfl
      (fun hne hclose => list_yields hinner hne (by omega) hclose) (fun closing => by
        unfold DocumentSource.leave
        rw [if_pos ⟨rfl, rfl⟩]
        exact hend)
    rw [List.append_nil] at hyields
    exact hyields

/-- A written tree has no more elements than the document allows. -/
theorem tree_size (hrepresents : document.Represents forest)
    (hstarts : Starts document forest first single tree) :
    tree.size ≤ document.options.maxElements := by
  have hroom := hrepresents.room
  rw [hrepresents.count] at hroom
  cases hstarts with
  | whole => exact hroom
  | @node context left inner right addr data hforest =>
    have hlength := (LinkContext.addrs_plug_node context left addr data inner right).length_eq
    rw [← hforest, LinkForest.addrs_length, List.length_append, List.length_cons,
      LinkForest.addrs_length] at hlength
    show inner.size + 0 + 1 ≤ _
    omega

/-! ## Frames -/

/-- The first loop of `prepare_encoding` over events that are there as a list. -/
def framesList : List WriteEvent → Nat → Except Status Nat
  | [], capacity => .ok capacity
  | event :: rest, capacity =>
    if event.kind = .begin then
      if event.depth ≥ sizeMax / frameSize then .error .outOfMemory
      else framesList rest (if event.depth + 1 > capacity then event.depth + 1 else capacity)
    else framesList rest capacity

/-- The frames computed on the heap are those of the events. -/
theorem document_frames_eq {heap : LinkHeap Place NodeData} {source : DocumentSource}
    {events : List WriteEvent} {status : Status}
    (h : Yields (documentNext heap) source events status) {fuel : Nat}
    (hfuel : events.length < fuel) (capacity : Nat) :
    documentFrames heap fuel source capacity = some (framesList events capacity) := by
  induction h generalizing fuel capacity with
  | last hlast =>
    obtain ⟨fuel, rfl⟩ : ∃ less, fuel = less + 1 := ⟨fuel - 1, by omega⟩
    unfold documentFrames
    rw [hlast]
    rfl
  | @item source source' event rest status hitem _ ih =>
    obtain ⟨fuel, rfl⟩ : ∃ less, fuel = less + 1 := ⟨fuel - 1, by omega⟩
    rw [List.length_cons] at hfuel
    unfold documentFrames framesList
    rw [hitem]
    dsimp only
    split
    · split
      · rfl
      · exact ih (by omega) _
    · exact ih (by omega) _

theorem nesting_max (depth kids others capacity : Nat) :
    max (max (if depth + 1 > capacity then depth + 1 else capacity)
        (if kids = 0 then 0 else depth + 1 + kids)) (if others = 0 then 0 else depth + others) =
      max capacity (if max (kids + 1) others = 0 then 0 else depth + max (kids + 1) others) := by
  rw [if_neg (by omega : ¬ max (kids + 1) others = 0)]
  split <;> split <;> split <;> omega

/-- The first pass counts the branches that are inside of each other. -/
theorem frames_list_forest (nodes : Forest PresentedNode) {depth : Nat}
    (hsmall : depth + nodes.nesting ≤ sizeMax / frameSize) (rest : List WriteEvent)
    (capacity : Nat) :
    framesList (nodes.events depth ++ rest) capacity =
      framesList rest (max capacity (if nodes.nesting = 0 then 0 else depth + nodes.nesting)) := by
  induction nodes generalizing depth rest capacity with
  | nil =>
    show framesList rest capacity = framesList rest (max capacity 0)
    rw [Nat.max_zero]
  | leaf node others ih => exact ih hsmall rest capacity
  | branch node kids close others ihKids ihOthers =>
    have hnesting : (Forest.branch node kids close others).nesting =
        max (kids.nesting + 1) others.nesting := rfl
    rw [hnesting] at hsmall ⊢
    unfold Forest.events
    rw [List.cons_append, List.append_assoc, framesList]
    dsimp only
    rw [if_pos rfl, if_neg (by omega), ihKids (by omega), List.cons_append, framesList]
    dsimp only
    rw [if_neg (fun h => by cases h), ihOthers (by omega), nesting_max]

/-! ## Growth -/

variable {memory : Nat → UInt8}

/-- A buffer grows to what is required, or stays as it is; allocation does not fail. -/
theorem grow_workspace_spec (hallocates : ∀ k, (document.allocator k).isSome = true) {data : Bytes}
    {required : Nat} (hdata : data.length ≤ sizeMax) (hrequired : required ≤ sizeMax) :
    ∃ grown after, growWorkspace memory document data required = (.ok grown, after) ∧
      required ≤ grown.length ∧ data.length ≤ grown.length ∧ grown.length ≤ sizeMax ∧
      after.heap = document.heap ∧ after.options = document.options ∧
      after.allocator = document.allocator := by
  unfold growWorkspace
  by_cases henough : required ≤ data.length
  · rw [if_pos henough]
    exact ⟨data, document, rfl, henough, le_refl _, hdata, rfl, rfl, rfl⟩
  · rw [if_neg henough]
    dsimp only
    obtain ⟨address, haddress⟩ := Option.isSome_iff_exists.mp (hallocates document.allocations)
    unfold Document.allocateBuffer
    rw [haddress]
    have h256 : 256 ≤ sizeMax := by decide
    refine ⟨_, _, rfl, ?_, ?_, ?_, rfl, rfl, rfl⟩ <;> rw [List.length_map, List.length_range] <;>
      split <;> split <;> split <;> omega

/-- A restart has more storage of one kind and no less of the other. -/
def WorkspaceGrows (before after : WriterWorkspace) : Prop :=
  (before.data.length < after.data.length ∧ before.scratch.length ≤ after.scratch.length) ∨
    (before.data.length ≤ after.data.length ∧ before.scratch.length < after.scratch.length)

/-- What a call that ends says about the encoding of the nodes. -/
structure Prepared (encoding : Except Status Bytes) (result : Except Status Nat)
    (after : WriterWorkspace) : Prop where
  staged : ∀ bytes, encoding = .ok bytes → bytes.length ≤ sizeMax →
    result = .ok bytes.length ∧ after.data.take bytes.length = bytes
  failed : ∀ status, encoding = .error status → ∃ failure, result = .error failure

/-- A workspace that holds the frames for some nodes; its capacities are of type `size_t`. -/
structure WriterWorkspace.Fits (workspace : WriterWorkspace) (nodes : Forest PresentedNode) :
    Prop where
  frames : nodes.nesting ≤ workspace.frameCapacity
  data : workspace.data.length ≤ sizeMax
  scratch : workspace.scratch.length ≤ sizeMax

/-- A document as the loop finds it: the loop allocates, and that succeeds. -/
structure Document.Lends (document other : Document) : Prop where
  heap : other.heap = document.heap
  options : other.options = document.options
  allocates : ∀ k, (other.allocator k).isSome = true

variable {encoder : Encoder}

theorem Composed.writable {format : Format} (h : Composed format) :
    format.measure.isSome = true ∧ format.encode.isSome = true := by
  cases h with
  | fields _ _ hmeasure hencode => rw [hmeasure, hencode]; exact ⟨rfl, rfl⟩
  | tagged _ _ hmeasure hencode => rw [hmeasure, hencode]; exact ⟨rfl, rfl⟩

/-- With frames enough, a measurement of the nodes of a document fails for lack of storage that it
names, or as their encoding does. -/
theorem document_measured (hrepresents : document.Represents forest)
    (hstarts : Starts document forest first single tree) (hcomposed : Composed encoder.format)
    {workspace : WriterWorkspace} (hframes : tree.presented.nesting ≤ workspace.frameCapacity) :
    ∃ ended, treeWriterMeasureEvents encoder (documentNext document.heap) document.bound
        { next := first, single := single } workspace sizeMax sizeMax = some ended ∧
      WorkspaceCase (tree.presented.encoding encoder.format) workspace ended := by
  have hsize := tree_size hrepresents hstarts
  have hpresented := size_presented tree
  have hmost := document.options.maxElements_le
  refine measure_events_cases hcomposed.exact (document_yields hrepresents hstarts) (by omega)
    (by omega) hframes hcomposed.writable ?_
  unfold Document.bound
  omega

/-- A turn of the loop ends the call or starts again with more storage. -/
theorem prepare_turn_spec (hrepresents : document.Represents forest)
    (hstarts : Starts document forest first single tree) (hcomposed : Composed encoder.format)
    {other : Document} (hlends : document.Lends other) {workspace : WriterWorkspace}
    (hfits : workspace.Fits tree.presented) :
    (∃ result after last,
      prepareTurn encoder memory first single other workspace =
        some (.finished result after last) ∧
      Prepared (tree.presented.encoding encoder.format) result after) ∨
    ∃ after last,
      prepareTurn encoder memory first single other workspace = some (.restart after last) ∧
      WorkspaceGrows workspace after ∧ after.Fits tree.presented ∧ document.Lends last := by
  obtain ⟨⟨result, measured⟩, hmeasured, hcase⟩ :=
    document_measured hrepresents hstarts hcomposed hfits.frames
  have hbound : other.bound = document.bound := by
    unfold Document.bound
    rw [hlends.options]
  unfold prepareTurn
  rw [hbound, hlends.heap, hmeasured]
  rw [Option.bind_eq_bind, Option.bind_some]
  cases hcase with
  | @staged after bytes hencoding hdata =>
    refine .inl ⟨.ok bytes.length, measured, other, if_pos (.inl fun h => by cases h), ?_, ?_⟩
    · intro bytes' hbytes' _
      rw [hencoding] at hbytes'
      cases hbytes'
      exact ⟨rfl, hdata⟩
    · intro status hstatus
      rw [hencoding] at hstatus
      cases hstatus
  | @failed after status hrequiredData hrequiredScratch hstatus =>
    refine .inl ⟨.error status, measured, other,
      if_pos (.inr ⟨hrequiredData, hrequiredScratch⟩), ?_, fun _ _ => ⟨status, rfl⟩⟩
    intro bytes hbytes hsmall
    rcases hstatus with hsame | ⟨-, hlarge⟩
    · rw [hsame] at hbytes
      cases hbytes
    · have := hlarge bytes hbytes
      omega
  | short hframes hdata hscratch hrequiredData hrequiredScratch hlacks =>
    have hcontinue : ¬ ((Except.error .bufferTooShort : Except Status Nat) ≠
        .error .bufferTooShort ∨
        (measured.requiredData = 0 ∧ measured.requiredScratch = 0)) := by
      rintro (hother | hnone)
      · exact hother rfl
      · exact hlacks hnone
    have hfitsData := hfits.data
    have hfitsScratch := hfits.scratch
    obtain ⟨data, middle, hgrowData, hdataRequired, hdataGrows, hdataMax, hheap, hoptions,
      hallocator⟩ := @grow_workspace_spec other memory hlends.allocates measured.data
        measured.requiredData (by omega) (by omega)
    obtain ⟨scratch, last, hgrowScratch, hscratchRequired, hscratchGrows, hscratchMax, hheap',
      hoptions', hallocator'⟩ := @grow_workspace_spec middle memory
        (by rw [hallocator]; exact hlends.allocates) measured.scratch measured.requiredScratch
        (by omega) (by omega)
    refine .inr ⟨{ measured with data := data, scratch := scratch }, last, ?_, ?_, ⟨?_, hdataMax,
      hscratchMax⟩, ⟨hheap'.trans (hheap.trans hlends.heap),
        hoptions'.trans (hoptions.trans hlends.options), ?_⟩⟩
    · dsimp only
      rw [if_neg hcontinue, hgrowData]
      dsimp only
      rw [hgrowScratch]
      rfl
    · unfold WorkspaceGrows
      dsimp only
      omega
    · rw [show ({ measured with data := data, scratch := scratch } :
        WriterWorkspace).frameCapacity = workspace.frameCapacity from hframes]
      exact hfits.frames
    · rw [hallocator', hallocator]
      exact hlends.allocates

/-- The storage that a workspace is away from the largest. -/
def WriterWorkspace.lack (workspace : WriterWorkspace) : Nat :=
  (sizeMax - workspace.data.length) + (sizeMax - workspace.scratch.length)

/-- The loop ends: each restart leaves less storage to add. -/
theorem prepare_loop_spec (hrepresents : document.Represents forest)
    (hstarts : Starts document forest first single tree) (hcomposed : Composed encoder.format)
    {fuel : Nat} {other : Document} (hlends : document.Lends other) {workspace : WriterWorkspace}
    (hfits : workspace.Fits tree.presented) (hfuel : workspace.lack < fuel) :
    ∃ result after last,
      prepareLoop encoder memory first single fuel other workspace = some (result, after, last) ∧
      Prepared (tree.presented.encoding encoder.format) result after := by
  induction fuel generalizing other workspace with
  | zero => exact absurd hfuel (Nat.not_lt_zero _)
  | succ fuel ih =>
    have hturn := @prepare_turn_spec document forest tree first single memory encoder hrepresents
      hstarts hcomposed other hlends workspace hfits
    unfold prepareLoop
    rcases hturn with ⟨result, after, last, hturn, hencoded⟩ |
      ⟨after, last, hturn, hgrows, hfits', hlends'⟩
    · rw [hturn]
      exact ⟨result, after, last, rfl, hencoded⟩
    · rw [hturn]
      refine ih hlends' hfits' ?_
      have hdata := hfits'.data
      have hscratch := hfits'.scratch
      unfold WriterWorkspace.lack at hfuel ⊢
      unfold WorkspaceGrows at hgrows
      omega

/-- The loop that prepares an encoding ends. Its first pass counts frames enough, so a measurement
fails only for storage that it names or as the recursive encoding of the nodes fails; each restart
has strictly more storage; and what it stages in the end is that encoding, whatever the workspace
was. -/
theorem prepare_encoding_exact (hrepresents : document.Represents forest)
    (hstarts : Starts document forest first single tree) (hcomposed : Composed encoder.format)
    (hallocates : ∀ k, (document.allocator k).isSome = true)
    (hframes : tree.presented.nesting ≤ sizeMax / frameSize) {workspace : WriterWorkspace}
    (hdata : workspace.data.length ≤ sizeMax) (hscratch : workspace.scratch.length ≤ sizeMax) :
    (∃ turns, ∀ fuel, turns ≤ fuel → ∃ result after last,
      prepareEncoding encoder memory first single fuel document workspace =
        some (result, after, last) ∧
      Prepared (tree.presented.encoding encoder.format) result after) ∧
    documentFrames document.heap document.bound { next := first, single := single }
        workspace.frameCapacity =
      some (.ok (max workspace.frameCapacity tree.presented.nesting)) ∧
    (∀ other : WriterWorkspace, tree.presented.nesting ≤ other.frameCapacity →
      ∃ ended, treeWriterMeasureEvents encoder (documentNext document.heap) document.bound
          { next := first, single := single } other sizeMax sizeMax = some ended ∧
        WorkspaceCase (tree.presented.encoding encoder.format) other ended) ∧
    ∀ (lender : Document) (other after : WriterWorkspace) (last : Document),
      document.Lends lender → other.Fits tree.presented →
        prepareTurn encoder memory first single lender other = some (.restart after last) →
          WorkspaceGrows other after := by
  have hsize := tree_size hrepresents hstarts
  have hpresented := size_presented tree
  have hlength := tree.presented.events_length 0
  have hcount : documentFrames document.heap document.bound { next := first, single := single }
      workspace.frameCapacity =
      some (.ok (max workspace.frameCapacity tree.presented.nesting)) := by
    rw [document_frames_eq (document_yields hrepresents hstarts)
      (by unfold Document.bound; omega)]
    have hforest := @frames_list_forest tree.presented 0 (by omega) [] workspace.frameCapacity
    rw [List.append_nil] at hforest
    rw [hforest]
    show some (Except.ok _) = _
    congr 2
    split <;> omega
  have hlends : document.Lends document := ⟨rfl, rfl, hallocates⟩
  have hwritable : ¬ (encoder.format.measure.isNone = true ∨
      encoder.format.encode.isNone = true) := by
    obtain ⟨hmeasure, hencode⟩ := hcomposed.writable
    rw [Option.isNone_eq_false_iff.mpr hmeasure, Option.isNone_eq_false_iff.mpr hencode]
    simp
  refine ⟨⟨workspace.lack + 1, fun fuel hfuel => ?_⟩, hcount,
    fun other hother => document_measured hrepresents hstarts hcomposed hother,
    fun lender other after last hlender hfits hturn => ?_⟩
  · unfold prepareEncoding
    rw [if_neg hwritable, hcount, Option.bind_eq_bind, Option.bind_some]
    dsimp only
    have hfits : WriterWorkspace.Fits
        { workspace with frameCapacity := max workspace.frameCapacity tree.presented.nesting }
        tree.presented := ⟨Nat.le_max_right _ _, hdata, hscratch⟩
    split
    · exact prepare_loop_spec hrepresents hstarts hcomposed hlends hfits hfuel
    · obtain ⟨address, haddress⟩ := Option.isSome_iff_exists.mp (hallocates document.allocations)
      have hgiven : document.allocateBuffer =
          (true, { document with allocations := document.allocations + 1 }) := by
        unfold Document.allocateBuffer
        rw [haddress]
      rw [hgiven]
      have hlent : document.Lends { document with allocations := document.allocations + 1 } :=
        ⟨rfl, rfl, hallocates⟩
      exact prepare_loop_spec hrepresents hstarts hcomposed hlent hfits hfuel
  · rcases @prepare_turn_spec document forest tree first single memory encoder hrepresents hstarts
      hcomposed lender hlender other hfits with ⟨result, ended, left, hended, -⟩ |
      ⟨ended, left, hended, hgrows, -, -⟩
    · rw [hended] at hturn
      cases hturn
    · rw [hended] at hturn
      cases hturn
      exact hgrows

/-- A document that was parsed, encoded again from an empty workspace. -/
theorem prepare_encoding_exact_sample :
    ∃ document, Document.parse Document.sampleOptions some Document.sampleOctets =
        some (.ok document) ∧
      ∃ tree : LinkForest Place NodeData, document.Represents tree ∧
        ∃ turns, ∀ fuel, turns ≤ fuel → ∃ result after last,
          prepareEncoding derEncoder (fun _ => 0) document.heap.first false fuel document {} =
            some (result, after, last) ∧
          Prepared (tree.presented.encoding formatDer) result after := by
  have hparse : ∃ document, Document.parse Document.sampleOptions some Document.sampleOctets =
      some (.ok document) ∧ document.options = Document.sampleOptions ∧
        document.allocator = some := ⟨_, rfl, rfl, rfl⟩
  obtain ⟨document, hparse, hoptions, hallocator⟩ := hparse
  obtain ⟨forest, hrepresents, -⟩ := (Document.Reachable.parsed hparse).represents
  have hsize := tree_size hrepresents .whole
  rw [hoptions] at hsize
  have hsmall : forest.presented.nesting ≤ sizeMax / frameSize := by
    have hnesting := nesting_le_size forest.presented
    have hpresented := size_presented forest
    have hmost : Document.sampleOptions.maxElements ≤ sizeMax / frameSize := by decide
    omega
  exact ⟨document, hparse, forest, hrepresents, (@prepare_encoding_exact document forest forest
    document.heap.first false (fun _ => 0) derEncoder hrepresents .whole
    (.fields der_identifier_law asn1_length_law rfl rfl) (fun k => by rw [hallocator]; rfl)
    hsmall {} (Nat.zero_le _) (Nat.zero_le _)).1⟩

end OpenTlv
