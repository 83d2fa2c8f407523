import OpenTlv.Query.Accepted
import OpenTlv.Query.Functions

/-!
# How a session represents a world

The retained machine keeps a forest as a flat array of nodes and a set of contexts as one flag
for every index. `Session.Ready` says that a session is prepared for a forest, `Represents` that
an area holds a set, and `Denoted.value` is the one runtime value of a meaning.
-/

namespace OpenTlv.Query

/-- The category of a meaning. -/
def Denoted.kind : Denoted → Kind
  | .nodes _ => .node
  | .bool _ => .bool
  | .int _ => .number
  | .bytes _ => .bytes
  | .string _ => .string

/-- The runtime value of a meaning. -/
def Denoted.value (w : World) : Denoted → Value
  | .nodes s => { kind := .node, number := (w.truth (.nodes s)).toNat }
  | .bool value => { kind := .bool, number := value.toNat }
  | .int value => signedValue value
  | .bytes data => { kind := .bytes, data := data }
  | .string data => { kind := .string, data := data }

@[simp] theorem value_kind (w : World) (d : Denoted) : (d.value w).kind = d.kind := by
  cases d <;> rfl

/-- The truth of a value is the truth of its meaning. -/
theorem value_truth (w : World) {d : Denoted} (h : d.kind.code ≤ Kind.bool.code) :
    (d.value w).truth = w.truth d := by
  cases d with
  | nodes s => cases htruth : w.truth (.nodes s) <;> simp [Denoted.value, Value.truth, htruth]
  | bool value => cases value <;> simp [Denoted.value, Value.truth, World.truth]
  | int value => simp [Denoted.kind, Kind.code] at h
  | bytes data => simp [Denoted.kind, Kind.code] at h
  | string data => simp [Denoted.kind, Kind.code] at h

theorem signed_integer_signed_value (x : Int) : signedInteger (signedValue x) = x := by
  rcases lt_or_ge x 0 with h | h
  · simp only [signedInteger, signedValue, h, decide_true, if_true]
    omega
  · simp only [signedInteger, signedValue, not_lt.mpr h, decide_false, Bool.false_eq_true,
      if_false]
    omega

/-- The stored form of a listed node. -/
def retain (capacity : Nat) (node : Listed Item) : RetainedNode :=
  { event := nodeEvent node
    parent := node.parent.getD capacity
    ending := node.ending
    sibling := node.sibling }

namespace Session

variable (s : Session)

/-- The world a session evaluates over. The virtual root comes after the nodes. -/
def world (forest : Forest Item) : World :=
  { nodes := forest.nodes
    environment := s.environment
    document := s.document
    bindings := s.bindings.cell
    patternCapacity := s.patternCapacity
    rootFirst := false }

/-- The context of an index. -/
def contextAt (i : Nat) : Context :=
  if i = s.nodeCapacity then none else some i

/-- The indices of contexts. -/
def Live (i : Nat) : Prop :=
  i < s.elements ∨ i = s.nodeCapacity

/-- The flag of an index in a set of contexts. -/
def member (set : Context → Bool) (i : Nat) : Bool :=
  if i < s.elements then set (some i) else decide (i = s.nodeCapacity) && set none

/-- An area holds a set of contexts. -/
def Represents (area : Area Bool) (set : Context → Bool) : Prop :=
  area.size = s.nodeCapacity + 1 ∧ ∀ i ≤ s.nodeCapacity, area.cell i = s.member set i

/-- The environment and the rows of codec scratch are what the calls of a program need. -/
structure Equips (p : Program) (environment : Environment) (scratchRows : Nat) : Prop where
  hook : ∀ i, i < p.count → (p.get i).op = .call →
    (p.get i).function.isConversion = true →
    ∃ hook decode, (environment.hooks.reverse.find?
      fun hook => hook.id = (p.get i).hookId) = some hook ∧ hook.decode = some decode ∧
        hook.scratchSize ≤ p.codecStride
  tagClass : ∀ i, i < p.count → (p.get i).op = .call →
    (p.get i).function = .tagClass →
    ∃ tags decompose, environment.tags = some tags ∧ tags.classOf = some decompose
  number : ∀ i, i < p.count → (p.get i).op = .call →
    (p.get i).function = .number →
    ∃ tags decompose, environment.tags = some tags ∧ tags.numberOf = some decompose
  constructed : ∀ i, i < p.count → (p.get i).op = .call →
    (p.get i).function = .constructed → ∃ format, environment.format = some format
  scratch : scratchRows = p.count

/-- A session has what the calls of its program need. -/
def Equipped : Prop :=
  Equips s.program s.environment s.scratchRows

/-- A session that holds a forest and is bound. -/
structure Ready (forest : Forest Item) : Prop where
  accepted : s.program.Accepted
  equipped : s.Equipped
  elements : s.elements = forest.size
  room : s.elements ≤ s.nodeCapacity
  nodesSize : s.nodes.size = s.nodeCapacity + 1
  nodes : ∀ i node, forest.nodes[i]? = some node → s.nodes.cell i = retain s.nodeCapacity node
  bound : ∀ i, i < s.program.count → (s.program.get i).op = .variableRef →
    (s.program.get i).variableSlot < s.bindings.size ∧
      ∃ d : Denoted, d.kind = (s.program.get i).type ∧ d.kind ≠ .node ∧
        s.bindings.cell (s.program.get i).variableSlot = d.value (s.world forest)

variable {s} {forest : Forest Item}

/-- The indices of a set in order are its members in document order. -/
theorem picks_eq (hroom : s.elements ≤ s.nodeCapacity) (hsize : s.elements = forest.size)
    {area : Area Bool} {set : Context → Bool} (h : s.Represents area set) :
    ((List.range (s.nodeCapacity + 1)).filter area.cell).map s.contextAt =
      (s.world forest).members set := by
  have hsplit : List.range (s.nodeCapacity + 1) =
      List.range s.elements ++
        (List.range' s.elements (s.nodeCapacity - s.elements) ++ [s.nodeCapacity]) := by
    rw [List.range_succ, List.range_eq_range', List.range_eq_range',
      show s.nodeCapacity = s.elements + (s.nodeCapacity - s.elements) by omega,
      ← List.range'_append_1]
    simp
  have hlow : ((List.range s.elements).filter area.cell).map s.contextAt =
      ((List.range s.elements).map some).filter set := by
    rw [List.filter_map]
    rw [List.filter_congr (q := set ∘ some)]
    · apply List.map_congr_left
      intro i hi
      have hlt : i < s.elements := List.mem_range.mp (List.mem_of_mem_filter hi)
      simp [contextAt, show i ≠ s.nodeCapacity by omega]
    · intro i hi
      have hlt : i < s.elements := List.mem_range.mp hi
      simp [h.2 i (by omega), member, hlt]
  have hgap : (List.range' s.elements (s.nodeCapacity - s.elements)).filter area.cell = [] := by
    rw [List.filter_eq_nil_iff]
    intro i hi
    rw [List.mem_range'_1] at hi
    simp [h.2 i (by omega), member, show ¬ i < s.elements by omega,
      show i ≠ s.nodeCapacity by omega]
  have hroot : ([s.nodeCapacity].filter area.cell).map s.contextAt = [none].filter set := by
    have hcell : area.cell s.nodeCapacity = set none := by
      simp [h.2 _ (Nat.le_refl _), member, Nat.not_lt.mpr hroom]
    cases hset : set none <;> simp [hcell, hset, contextAt]
  rw [hsplit, List.filter_append, List.filter_append, hgap, List.nil_append, List.map_append,
    hlow, hroot]
  simp [World.members, World.contexts, world, hsize]

/-- The number of flags is the number of members. -/
theorem count_eq (hroom : s.elements ≤ s.nodeCapacity) (hsize : s.elements = forest.size)
    {area : Area Bool} {set : Context → Bool} (h : s.Represents area set) :
    area.count = ((s.world forest).members set).length := by
  rw [← picks_eq hroom hsize h, List.length_map, Area.count, h.1, List.countP_eq_length_filter]

@[simp] theorem context_at_capacity : s.contextAt s.nodeCapacity = none := by
  simp [contextAt]

/-- An index of the extent and its context. -/
theorem Live.cases {i : Nat} (h : s.Live i) (hroom : s.elements ≤ s.nodeCapacity) :
    (i < s.elements ∧ i ≠ s.nodeCapacity ∧ s.contextAt i = some i) ∨
      (i = s.nodeCapacity ∧ ¬ i < s.elements ∧ s.contextAt i = none) := by
  rcases h with hlt | rfl
  · have hne : i ≠ s.nodeCapacity := by omega
    exact .inl ⟨hlt, hne, by simp [contextAt, hne]⟩
  · exact .inr ⟨rfl, by omega, by simp [contextAt]⟩

theorem Live.le {i : Nat} (h : s.Live i) (hroom : s.elements ≤ s.nodeCapacity) :
    i ≤ s.nodeCapacity := by
  rcases h with hlt | rfl
  · omega
  · exact Nat.le_refl _

/-- The flag at a live index is membership of its context. -/
theorem member_eq {i : Nat} (h : s.Live i) (hroom : s.elements ≤ s.nodeCapacity)
    (set : Context → Bool) : s.member set i = set (s.contextAt i) := by
  rcases h.cases hroom with ⟨hlt, -, hcontext⟩ | ⟨rfl, hge, hcontext⟩
  · simp [member, hlt, hcontext]
  · simp [member, hge, hcontext]

/-- Only live indices have a flag. -/
theorem live_of_member {i : Nat} {set : Context → Bool} (h : s.member set i = true) :
    s.Live i := by
  unfold member at h
  split at h
  · rename_i hlt
    exact .inl hlt
  · simp only [Bool.and_eq_true, decide_eq_true_eq] at h
    exact .inr h.1

namespace Ready

variable (h : s.Ready forest)
include h

/-- The node at an index below the count. -/
theorem listed {i : Nat} (hi : i < s.elements) :
    ∃ node, forest.nodes[i]? = some node ∧ s.nodes.cell i = retain s.nodeCapacity node ∧
      s.nodes.read i = some (retain s.nodeCapacity node) := by
  have hlt : i < forest.nodes.length := by
    rw [Forest.nodes_length, ← h.elements]
    exact hi
  have hget := List.getElem?_eq_getElem hlt
  have hcell := h.nodes i _ hget
  have hroom := h.room
  refine ⟨_, hget, hcell, ?_⟩
  rw [Area.read_of_lt (by rw [h.nodesSize]; omega), hcell]

omit h in
theorem parent_lt {i m : Nat} {node : Listed Item} (hnode : forest.nodes[i]? = some node)
    (hparent : node.parent = some m) : m < i := by
  obtain ⟨-, -, hroot | ⟨m', above, hlt, -, hsome, -⟩⟩ :=
    (forest.laid 0 none 0 0).bounds i node hnode
  · rw [hroot] at hparent
    cases hparent
  · rw [hparent] at hsome
    have : m = 0 + m' := Option.some.inj hsome
    omega

/-- The stored parent tells the parent's context. -/
theorem parent_eq_iff {i c : Nat} {node : Listed Item} (hnode : forest.nodes[i]? = some node)
    (hi : i < s.elements) (hc : s.Live c) :
    node.parent.getD s.nodeCapacity = c ↔ node.parent = s.contextAt c := by
  have hroom := h.room
  cases hparent : node.parent with
  | none =>
    rcases hc.cases hroom with ⟨hlt, hne, hcontext⟩ | ⟨rfl, -, hcontext⟩
    · simp only [Option.getD_none, hcontext, reduceCtorEq, iff_false]
      exact fun h => hne h.symm
    · simp [hcontext]
  | some m =>
    have hm := parent_lt hnode hparent
    rcases hc.cases hroom with ⟨-, -, hcontext⟩ | ⟨heq, -, hcontext⟩
    · simp [hcontext]
    · simp only [Option.getD_some, hcontext, reduceCtorEq, iff_false]
      omega

/-- The interval arithmetic of `Q_TEST` is navigation on the tree. -/
theorem axis_candidate_eq {c i : Nat} (hc : s.Live c) (hi : i < s.elements) (axis : Axis) :
    axisCandidate s axis c (s.nodes.cell c) i (s.nodes.cell i) =
      (s.world forest).onAxis axis (s.contextAt c) i := by
  have hroom := h.room
  obtain ⟨node, hnode, hcell, -⟩ := h.listed hi
  have hsize : i < forest.size := by rw [← h.elements]; exact hi
  have hparentOf : (s.world forest).parentOf i = node.parent := by
    simp [World.parentOf, world, hnode]
  rw [Bool.eq_iff_iff]
  rcases hc.cases hroom with ⟨hlt, hne, hcontext⟩ | ⟨rfl, hge, hcontext⟩
  · obtain ⟨here, hhere, hcell', -⟩ := h.listed hlt
    have hcsize : c < forest.size := by rw [← h.elements]; exact hlt
    have hbelow : Forest.isAncestor forest.nodes c i = true ↔ c < i ∧ i < here.ending :=
      forest.is_ancestor_iff hhere hsize
    have habove : Forest.isAncestor forest.nodes i c = true ↔ i < c ∧ c < node.ending :=
      forest.is_ancestor_iff hnode hcsize
    have hending : c < here.ending := by
      have := ((forest.laid 0 none 0 0).bounds c here hhere).1
      omega
    have hparentOf' : (s.world forest).parentOf c = here.parent := by
      simp [World.parentOf, world, hhere]
    have hnodes : (s.world forest).nodes = forest.nodes := rfl
    have hchild := h.parent_eq_iff hnode hi hc
    have hup := h.parent_eq_iff hhere hlt (.inl hi)
    have hsibling : node.parent.getD s.nodeCapacity = here.parent.getD s.nodeCapacity ↔
        node.parent = here.parent := by
      cases hparent : here.parent with
      | none => simpa [contextAt] using h.parent_eq_iff hnode hi (.inr rfl)
      | some m =>
        have hm := parent_lt hhere hparent
        have := h.parent_eq_iff hnode hi (c := m) (.inl (by omega))
        simpa [contextAt, show m ≠ s.nodeCapacity by omega] using this
    have hending' : i < node.ending := by
      have := ((forest.laid 0 none 0 0).bounds i node hnode).1
      omega
    have hcontext' : s.contextAt i = some i := by
      simp [contextAt, show i ≠ s.nodeCapacity by omega]
    rw [hcontext'] at hup
    rw [hcontext] at hchild ⊢
    cases axis <;>
      simp only [axisCandidate, World.onAxis, World.below, hcell, hcell', retain, hnodes,
        hparentOf, hparentOf', Option.any_some, Option.some.injEq, Bool.and_eq_true,
        Bool.or_eq_true, decide_eq_true_eq, hne, false_or, hlt, true_and, hbelow, habove,
        Bool.not_eq_true', ← Bool.not_eq_true]
    case child => exact hchild
    case parent => rw [eq_comm, hup]
    case followSibling => rw [hsibling]
    case precedeSibling => rw [hsibling]
    all_goals omega
  · have hchild := h.parent_eq_iff hnode hi hc
    rw [hcontext] at hchild ⊢
    cases axis <;>
      simp only [axisCandidate, World.onAxis, World.below, hcell, retain, hparentOf,
        Option.any_none, hge, decide_false, Bool.false_and, Bool.false_eq_true, decide_true,
        Bool.true_or, reduceCtorEq, decide_eq_true_eq, Bool.or_true]
    case child => exact hchild
    case self =>
      rw [iff_false]
      omega

end Ready

end Session

end OpenTlv.Query
