import OpenTlv.Query.Parser
import OpenTlv.Query.Tokens

/-!
# The parser stays in its areas

What `parse` stores is bounded by the tokens it has read: each of them opens at most one bracket or
operator, leaves at most one value, and accounts for at most two instructions, of which the pending
operators have not made theirs yet. The constants that the instructions will need are paid by the
tokens they come from. The operands of every instruction lie before it.
-/

namespace OpenTlv.Query

/-- The operands of an instruction at `i` are there and lie before it. -/
structure Linked (i : Nat) (n : Instruction) : Prop where
  left : ∀ l, n.left = some l → l < i
  right : ∀ r, n.right = some r → r < i
  operands : n.op.isOperator = true ∨ n.op = .args → n.left.isSome ∧ n.right.isSome

/-- The operands of all instructions lie before them. -/
def AllLinked (nodes : List Instruction) : Prop :=
  ∀ i n, nodes[i]? = some n → Linked i n

/-- The payload octets that an instruction may still need: what its text spells, and a resolved
tag. -/
def payloadRoom (maxTag : Nat) (n : Instruction) : Nat :=
  match n.op with
  | .test | .variableRef | .bytes | .string => n.stop - n.start + maxTag
  | .call => maxTag
  | _ => 0

/-- The payload octets that instructions may still need together. -/
def roomOf (maxTag : Nat) (nodes : List Instruction) : Nat :=
  (nodes.map (payloadRoom maxTag)).sum

/-- An instruction that has copied nothing to the payload. -/
structure Unused (n : Instruction) : Prop where
  offset : n.dataOffset = 0
  size : n.dataSize = 0

/-- A change of an instruction that keeps its operands and asks for no more payload. -/
structure Harmless (maxTag : Nat) (f : Instruction → Instruction) : Prop where
  linked : ∀ i n, Linked i n → Linked i (f n)
  room : ∀ n, payloadRoom maxTag (f n) ≤ payloadRoom maxTag n
  unused : ∀ n, Unused n → Unused (f n)

variable {maxTag : Nat}

theorem room_of_append (nodes more : List Instruction) :
    roomOf maxTag (nodes ++ more) = roomOf maxTag nodes + roomOf maxTag more := by
  unfold roomOf
  rw [List.map_append, List.sum_append]

theorem AllLinked.append {nodes : List Instruction} {n : Instruction} (h : AllLinked nodes)
    (hn : Linked nodes.length n) : AllLinked (nodes ++ [n]) := by
  intro i m hm
  rcases Nat.lt_or_ge i nodes.length with hlt | hge
  · rw [List.getElem?_append_left hlt] at hm
    exact h i m hm
  · rw [List.getElem?_append_right hge] at hm
    cases hi : i - nodes.length with
    | zero =>
      rw [hi] at hm
      obtain rfl : i = nodes.length := by omega
      cases hm
      exact hn
    | succ k =>
      rw [hi] at hm
      cases hm

theorem AllLinked.modify {nodes : List Instruction} {i : Nat} {f : Instruction → Instruction}
    (h : AllLinked nodes) (hf : ∀ n, nodes[i]? = some n → Linked i (f n)) :
    AllLinked (nodes.modify i f) := by
  intro j n hn
  rw [List.getElem?_modify] at hn
  obtain ⟨m, hm, rfl⟩ := Option.map_eq_some_iff.mp hn
  split
  next heq =>
    subst heq
    exact hf m hm
  next => exact h j m hm

theorem unused_modify {nodes : List Instruction} {i : Nat} {f : Instruction → Instruction}
    (h : ∀ n ∈ nodes, Unused n) (hf : ∀ n, Unused n → Unused (f n)) :
    ∀ n ∈ nodes.modify i f, Unused n := by
  intro n hn
  obtain ⟨j, hj⟩ := List.mem_iff_getElem?.mp hn
  rw [List.getElem?_modify] at hj
  obtain ⟨m, hm, rfl⟩ := Option.map_eq_some_iff.mp hj
  have hunused := h m (List.mem_of_getElem? hm)
  split
  · exact hf m hunused
  · exact hunused

/-- A change in front of `k` does not touch what follows. -/
theorem room_of_modify {f : Instruction → Instruction} (nodes : List Instruction) (i k : Nat)
    (hf : k ≤ i → ∀ n, nodes[i]? = some n → payloadRoom maxTag (f n) ≤ payloadRoom maxTag n) :
    roomOf maxTag ((nodes.modify i f).drop k) ≤ roomOf maxTag (nodes.drop k) := by
  induction nodes generalizing i k with
  | nil => simp [roomOf]
  | cons n rest ih =>
    cases i with
    | zero =>
      rw [List.modify_zero_cons]
      cases k with
      | zero =>
        have hn := hf (Nat.le_refl _) n rfl
        show (payloadRoom maxTag (f n) :: rest.map (payloadRoom maxTag)).sum ≤
          (payloadRoom maxTag n :: rest.map (payloadRoom maxTag)).sum
        rw [List.sum_cons, List.sum_cons]
        omega
      | succ k => exact Nat.le_refl _
    | succ i =>
      rw [List.modify_succ_cons]
      cases k with
      | zero =>
        have hrest := ih i 0 fun _ => hf (Nat.zero_le _)
        show (payloadRoom maxTag n :: (rest.modify i f).map (payloadRoom maxTag)).sum ≤
          (payloadRoom maxTag n :: rest.map (payloadRoom maxTag)).sum
        unfold roomOf at hrest
        rw [List.drop_zero, List.drop_zero] at hrest
        rw [List.sum_cons, List.sum_cons]
        omega
      | succ k => exact ih i k fun hk => hf (by omega)

/-- The capacities of the areas of the parser. -/
structure ParserAreas where
  nodes : Nat
  ops : Nat
  values : Nat

/-- The variables of the parser lie in their areas and have stored no more than the bounds. -/
structure Parsing.Within (areas : ParserAreas) (maxTag tokens created pending held room : Nat)
    (s : Parsing) : Prop where
  nodesArea : s.nodes.capacity = areas.nodes
  opsArea : s.ops.capacity = areas.ops
  valuesArea : s.values.capacity = areas.values
  linked : AllLinked s.nodes.items
  unused : ∀ n ∈ s.nodes.items, Unused n
  values : ∀ v ∈ s.values.items, v < s.nodes.size
  ops : ∀ op ∈ s.ops.items, op.token < tokens ∧ ∀ f, op.function = some f → f < tokens
  created : s.nodes.size + s.ops.size ≤ created
  pending : s.ops.size ≤ pending
  held : s.values.size ≤ held
  room : roomOf maxTag s.nodes.items ≤ room

section Within

variable {areas : ParserAreas} {size created pending held room : Nat} {s s' : Parsing}
  {tokens : Stack Token} {t : Token}

theorem Parsing.Within.mono {created' pending' held' room' : Nat}
    (h : s.Within areas maxTag size created pending held room) (hcreated : created ≤ created')
    (hpending : pending ≤ pending') (hheld : held ≤ held') (hroom : room ≤ room') :
    s.Within areas maxTag size created' pending' held' room' :=
  { h with
    created := h.created.trans hcreated
    pending := h.pending.trans hpending
    held := h.held.trans hheld
    room := h.room.trans hroom }

/-- An operand is read and compared with the lowest instruction so far. -/
theorem lowest_ok {nodes : Stack Instruction} {operand : Option Nat} (low : Nat)
    (h : ∀ i, operand = some i → i < nodes.size) :
    ∃ least, lowest nodes operand low = .ok least := by
  cases operand with
  | none => exact ⟨low, rfl⟩
  | some i =>
    unfold lowest
    dsimp only
    rw [Stack.read_of_lt (h i rfl)]
    exact ⟨_, rfl⟩

/-- A new instruction behind the last one. -/
theorem add_node_ok {nodes : Stack Instruction} {op : Op} {left right : Option Nat} (t : Token)
    (hleft : ∀ l, left = some l → l < nodes.size) (hright : ∀ r, right = some r → r < nodes.size)
    (hroom : nodes.size < nodes.capacity) :
    ∃ nodes' n, addNode nodes op left right t = .ok (nodes', nodes.size) ∧
      nodes'.items = nodes.items ++ [n] ∧ nodes'.capacity = nodes.capacity ∧ n.op = op ∧
      n.left = left ∧ n.right = right ∧ n.start = t.start ∧ n.stop = t.stop ∧ Unused n := by
  obtain ⟨low, hlow⟩ := lowest_ok nodes.size hleft
  obtain ⟨least, hleast⟩ := lowest_ok low hright
  obtain ⟨nodes', hpush, hitems, hcapacity⟩ := @Stack.push_of_lt _ nodes
    { op := op, left := left, right := right, start := t.start, stop := t.stop, low := least } hroom
  refine ⟨nodes', _, ?_, hitems, hcapacity, rfl, rfl, rfl, rfl, rfl, ⟨rfl, rfl⟩⟩
  unfold addNode
  rw [hlow]
  show (do
    let low ← lowest nodes right low
    let added ← checked (nodes.push
      { op := op, left := left, right := right, start := t.start, stop := t.stop, low := low })
    return (added, nodes.size)) = _
  rw [hleast]
  show (do
    let added ← checked (nodes.push
      { op := op, left := left, right := right, start := t.start, stop := t.stop, low := least })
    return (added, nodes.size)) = _
  rw [hpush]
  rfl

/-- The payload that an instruction for a token may need. -/
def opRoom (maxTag : Nat) (op : Op) (t : Token) : Nat :=
  payloadRoom maxTag { op := op, start := t.start, stop := t.stop }

theorem payload_room_eq {n : Instruction} {op : Op} (hop : n.op = op) (hstart : n.start = t.start)
    (hstop : n.stop = t.stop) : payloadRoom maxTag n = opRoom maxTag op t := by
  unfold opRoom payloadRoom
  rw [hop, hstart, hstop]

/-- What a new value changes. -/
structure Parsing.Adds (s s' : Parsing) : Prop where
  ops : s'.ops = s.ops
  values : s'.values.items = s.values.items ++ [s.nodes.size]
  predicates : s'.predicates = s.predicates
  afterPath : s'.afterPath = s.afterPath

/-- A new value stays in the areas where both have room. -/
theorem add_value_within {op : Op} {left right : Option Nat} (t : Token)
    (h : s.Within areas maxTag size created pending held room)
    (hleft : ∀ l, left = some l → l < s.nodes.size)
    (hright : ∀ r, right = some r → r < s.nodes.size)
    (hoperands : op.isOperator = true ∨ op = .args → left.isSome ∧ right.isSome)
    (hnodes : s.nodes.size < areas.nodes) (hvalues : s.values.size < areas.values) :
    ∃ s', s.addValue op left right t = .ok s' ∧ s.Adds s' ∧
      s'.Within areas maxTag size (created + 1) pending (s.values.size + 1)
        (room + opRoom maxTag op t) := by
  obtain ⟨nodes, n, hadd, hitems, hcapacity, hop, hl, hr, hstart, hstop, hunused⟩ :=
    @add_node_ok s.nodes op left right t hleft hright (by rw [h.nodesArea]; exact hnodes)
  obtain ⟨values, hpush, hstack, hroom⟩ :=
    @Stack.push_of_lt _ s.values s.nodes.size (by rw [h.valuesArea]; exact hvalues)
  have hsize : nodes.size = s.nodes.size + 1 := by
    unfold Stack.size
    rw [hitems, List.length_append]
    rfl
  have hlinked : Linked s.nodes.items.length n :=
    ⟨fun l hn => hleft l (hl ▸ hn), fun r hn => hright r (hr ▸ hn), fun hn => by
      rw [hl, hr]
      exact hoperands (hop ▸ hn)⟩
  refine ⟨{ s with nodes := nodes, values := values }, ?_, ⟨rfl, hstack, rfl, rfl⟩, ?_⟩
  · unfold Parsing.addValue
    rw [hadd]
    show (do
      let values ← checked (s.values.push s.nodes.size)
      return { s with nodes := nodes, values := values }) = _
    rw [hpush]
    rfl
  · refine ⟨hcapacity.trans h.nodesArea, h.opsArea, hroom.trans h.valuesArea, ?_, ?_, ?_, h.ops, ?_,
      h.pending, ?_, ?_⟩
    · show AllLinked nodes.items
      rw [hitems]
      exact h.linked.append hlinked
    · intro m hm
      rw [show ({ s with nodes := nodes, values := values } : Parsing).nodes.items =
        s.nodes.items ++ [n] from hitems, List.mem_append, List.mem_singleton] at hm
      rcases hm with hm | rfl
      · exact h.unused m hm
      · exact hunused
    · intro v hv
      show v < nodes.size
      rw [show ({ s with nodes := nodes, values := values } : Parsing).values.items =
        s.values.items ++ [s.nodes.size] from hstack, List.mem_append, List.mem_singleton] at hv
      rcases hv with hv | rfl
      · have := h.values v hv
        omega
      · omega
    · show nodes.size + s.ops.size ≤ created + 1
      have := h.created
      omega
    · show values.items.length ≤ s.values.items.length + 1
      rw [hstack, List.length_append]
      exact Nat.le_refl _
    · show roomOf maxTag nodes.items ≤ room + opRoom maxTag op t
      rw [hitems, room_of_append]
      have hone : roomOf maxTag [n] = opRoom maxTag op t :=
        (Nat.add_zero _).trans (payload_room_eq hop hstart hstop)
      have := h.room
      omega

/-- Values that are taken leave the others. -/
theorem Parsing.Within.pop {v : Nat} {values : Stack Nat}
    (h : s.Within areas maxTag size created pending held room)
    (hpop : s.values.pop = some (v, values)) :
    v < s.nodes.size ∧ values.size + 1 = s.values.size ∧
      ({ s with values := values } : Parsing).Within areas maxTag size created pending held
        room := by
  obtain ⟨hitems, hcapacity⟩ := Stack.pop_eq_some hpop
  have hsize : values.size + 1 = s.values.size := by
    unfold Stack.size
    rw [hitems, List.length_append]
    rfl
  refine ⟨h.values v (by rw [hitems]; simp), hsize,
    { h with
      valuesArea := hcapacity.trans h.valuesArea
      values := fun w hw => h.values w (by
        rw [hitems]
        exact List.mem_append_left _ hw)
      held := ?_ }⟩
  have := h.held
  show values.size ≤ held
  omega

/-- An operator that is taken from the pending ones may make an instruction. -/
theorem Parsing.Within.popOp {op : Operator} {ops : Stack Operator}
    (h : s.Within areas maxTag size created pending held room)
    (hpop : s.ops.pop = some (op, ops)) :
    (op.token < size ∧ ∀ f, op.function = some f → f < size) ∧ 1 ≤ created ∧ 1 ≤ pending ∧
      ({ s with ops := ops } : Parsing).Within areas maxTag size (created - 1) (pending - 1) held
        room := by
  obtain ⟨hitems, hcapacity⟩ := Stack.pop_eq_some hpop
  have hsize : ops.size + 1 = s.ops.size := by
    unfold Stack.size
    rw [hitems, List.length_append]
    rfl
  have hcreated := h.created
  have hpending := h.pending
  refine ⟨h.ops op (by rw [hitems]; simp), by omega, by omega,
    { h with
      opsArea := hcapacity.trans h.opsArea
      ops := fun other hother => h.ops other (by
        rw [hitems]
        exact List.mem_append_left _ hother)
      created := ?_
      pending := ?_ }⟩
  · show s.nodes.size + ops.size ≤ created - 1
    omega
  · show ops.size ≤ pending - 1
    omega

/-- A harmless change of the instruction behind the last value. -/
theorem change_last_within {f : Instruction → Instruction}
    (h : s.Within areas maxTag size created pending held room) (hf : Harmless maxTag f)
    (hvalue : 0 < s.values.size) :
    ∃ s', s.changeLast f = .ok s' ∧ s'.Within areas maxTag size created pending held room := by
  obtain ⟨v, values, hpop, hitems, -⟩ := Stack.pop_of_pos hvalue
  have hv : v < s.nodes.size := h.values v (by rw [hitems]; simp)
  have htop : s.values.top = some v := by
    unfold Stack.top
    rw [hitems, List.getLast?_concat]
  refine ⟨{ s with nodes := s.nodes.changed v f }, ?_, ?_⟩
  · unfold Parsing.changeLast
    rw [htop]
    show (do
      let nodes ← checked (s.nodes.update v f)
      return { s with nodes := nodes }) = _
    rw [Stack.update_of_lt f hv]
    rfl
  · refine { h with
      linked := h.linked.modify fun n hn => hf.linked v n (h.linked v n hn)
      unused := unused_modify h.unused hf.unused
      values := fun w hw => ?_
      created := ?_
      room := ?_ }
    · show w < (s.nodes.changed v f).size
      rw [Stack.size_changed]
      exact h.values w hw
    · show (s.nodes.changed v f).size + s.ops.size ≤ created
      rw [Stack.size_changed]
      exact h.created
    · have hmodify := @room_of_modify maxTag f s.nodes.items v 0 fun _ n _ => hf.room n
      rw [List.drop_zero, List.drop_zero] at hmodify
      exact hmodify.trans h.room

/-- An instruction that joins two values needs no payload. -/
theorem operation_room (kind : TokenKind) (t : Token) : opRoom maxTag (operation kind) t = 0 := by
  cases kind <;> rfl

/-- What a step of the parser yields: a syntax error, or variables within the bounds. -/
def Stays (areas : ParserAreas) (maxTag size created pending held room : Nat)
    (result : Option Parsing) : Prop :=
  ∀ s', result = some s' → s'.Within areas maxTag size created pending held room

/-- A pending operator joins the last two values to one. -/
theorem reduce_within {op : Operator} {ops : Stack Operator}
    (h : s.Within areas maxTag size created pending held room)
    (hsize : size ≤ tokens.size) (hroom : created ≤ areas.nodes)
    (hpop : s.ops.pop = some (op, ops)) :
    Meets (({ s with ops := ops } : Parsing).reduce tokens op) Reported
      (Stays areas maxTag size created pending held room) := by
  obtain ⟨⟨htoken, -⟩, hone, -, hs⟩ := h.popOp hpop
  unfold Parsing.reduce
  split
  · exact fun s' hs' => by cases hs'
  next hvalues =>
    have hvalues : 2 ≤ s.values.size := Nat.not_lt.mp hvalues
    obtain ⟨right, values, hright, -, -⟩ := Stack.pop_of_pos (s := s.values) (by omega)
    obtain ⟨hr, hsizeRight, hs⟩ := hs.pop hright
    obtain ⟨left, rest, hleft, -, -⟩ := Stack.pop_of_pos (s := values)
      (by dsimp only at hsizeRight; omega)
    obtain ⟨hl, hsizeLeft, hs⟩ := hs.pop hleft
    have hread : op.token < tokens.items.length := htoken.trans_le hsize
    obtain ⟨s', hadd, -, hs'⟩ := @add_value_within maxTag areas size _ _ _ _ _ (operation op.kind)
      (some left) (some right) (tokens.items.get ⟨op.token, hread⟩) hs
      (fun l hl' => by cases hl'; exact hl) (fun r hr' => by cases hr'; exact hr)
      (fun _ => ⟨rfl, rfl⟩)
      (by
        have := hs.created
        dsimp only at this ⊢
        omega)
      (by
        have := h.valuesArea ▸ s.values.size_le
        dsimp only at hsizeLeft hsizeRight ⊢
        omega)
    have hfinal : s'.Within areas maxTag size created pending held room := by
      refine hs'.mono (by omega) (Nat.sub_le _ _) ?_ ?_
      · have := h.held
        dsimp only at hsizeLeft hsizeRight ⊢
        omega
      · rw [operation_room, Nat.add_zero]
    unfold popValue
    rw [show ({ s with ops := ops } : Parsing).values.pop = some (right, values) from hright]
    show Meets (checked values.pop >>= _) Reported _
    rw [show values.pop = some (left, rest) from hleft]
    show Meets (checked (tokens.read op.token) >>= _) Reported _
    rw [Stack.read_of_lt hread]
    show Meets (do
      let s ← ({ s with ops := ops, values := rest } : Parsing).addValue (operation op.kind)
        (some left) (some right) (tokens.items.get ⟨op.token, _⟩)
      return some s) Reported (Stays areas maxTag size created pending held room)
    rw [hadd]
    exact fun s'' hs'' => by
      cases hs''
      exact hfinal

/-- Reducing pending operators makes no more instructions than there were operators. -/
theorem reduce_while_within {least : Nat} (fuel : Nat)
    (h : s.Within areas maxTag size created pending held room)
    (hsize : size ≤ tokens.size) (hroom : created ≤ areas.nodes) :
    Meets (s.reduceWhile tokens least fuel) Reported
      (Stays areas maxTag size created pending held room) := by
  induction fuel generalizing s with
  | zero => exact fun s' hs' => by cases hs'; exact h
  | succ fuel ih =>
    unfold Parsing.reduceWhile
    cases hpop : s.ops.pop with
    | none => exact fun s' hs' => by cases hs'; exact h
    | some found =>
      obtain ⟨op, ops⟩ := found
      dsimp only
      split
      · exact fun s' hs' => by cases hs'; exact h
      · refine (reduce_within h hsize hroom hpop).bind (fun _ h => h) fun result hresult => ?_
        cases result with
        | none => exact fun s' hs' => by cases hs'
        | some s' => exact ih (hresult s' rfl)

theorem syntax_error_reported {α : Type} {good : α → Prop} :
    Meets (s.syntaxError t : Run α) Reported good :=
  reported_syntax _ _ _

/-- A bracket takes one place of the pending operators. -/
theorem open_bracket_within {op : Operator} {maxNesting : Nat}
    (h : s.Within areas maxTag size created pending held room)
    (hop : op.token < size ∧ ∀ f, op.function = some f → f < size)
    (hops : s.ops.size < areas.ops) :
    Meets (s.openBracket maxNesting t op) Reported fun s' =>
      s'.Within areas maxTag size (created + 1) (pending + 1) held room := by
  unfold Parsing.openBracket
  split
  · exact reported_limit _ _ _ _
  · obtain ⟨ops, hpush, hitems, hcapacity⟩ :=
      @Stack.push_of_lt _ s.ops op (by rw [h.opsArea]; exact hops)
    have hnext : ops.size = s.ops.size + 1 := by
      unfold Stack.size
      rw [hitems, List.length_append]
      rfl
    rw [hpush]
    refine { h with
      opsArea := hcapacity.trans h.opsArea
      ops := fun other hother => ?_
      created := ?_
      pending := ?_ }
    · rw [show ({ s with ops := ops, nesting := s.nesting + 1 } : Parsing).ops.items =
        s.ops.items ++ [op] from hitems, List.mem_append, List.mem_singleton] at hother
      rcases hother with hother | rfl
      · exact h.ops other hother
      · exact hop
    · have := h.created
      show s.nodes.size + ops.size ≤ created + 1
      omega
    · have := h.pending
      show ops.size ≤ pending + 1
      omega

/-- The argument of a call is one of the values. -/
theorem call_argument_within {base : Nat}
    (h : s.Within areas maxTag size created pending held room)
    (hbase : s.values.size = base ∨ 0 < s.values.size) :
    ∃ argument values, callArgument s.values base = .ok (argument, values) ∧
      (∀ l, argument = some l → l < s.nodes.size) ∧ values.size ≤ s.values.size ∧
      ({ s with values := values } : Parsing).Within areas maxTag size created pending held
        room := by
  unfold callArgument
  by_cases hnone : s.values.size = base
  · rw [if_pos hnone]
    exact ⟨none, s.values, rfl, fun l hl => (by cases hl), Nat.le_refl _, h⟩
  · obtain ⟨value, values, hpop, -, -⟩ := Stack.pop_of_pos (hbase.resolve_left hnone)
    obtain ⟨hvalue, hsize, hs⟩ := h.pop hpop
    rw [if_neg hnone]
    unfold popValue
    rw [hpop]
    exact ⟨some value, values, rfl, fun l hl => (by cases hl; exact hvalue), by omega, hs⟩

theorem follows_step_ok {i : Nat} (hi : i < tokens.size) :
    ∃ step, followsStep tokens i = .ok step := by
  unfold followsStep
  split
  · exact ⟨false, rfl⟩
  · rw [Stack.read_of_lt (show i - 1 < tokens.size by omega)]
    exact ⟨_, rfl⟩

/-- The value of a call is paid by its closing bracket. -/
theorem close_call_within {base function : Nat}
    (h : s.Within areas maxTag size created pending held room)
    (hnodes : created < areas.nodes) (hvalues : held < areas.values)
    (hfunction : function < tokens.size) :
    Meets (s.closeCall tokens t base function) Reported fun s' =>
      s'.Within areas maxTag size (created + 1) pending (held + 1) (room + maxTag) := by
  unfold Parsing.closeCall
  split
  · exact syntax_error_reported
  next hbase =>
    obtain ⟨argument, values, hargument, hlink, hsize, hs⟩ :=
      @call_argument_within _ _ _ _ _ _ _ _ base h (by omega)
    have hcreated := h.created
    have hheld := h.held
    obtain ⟨s', hadd, hadds, hs'⟩ := @add_value_within maxTag areas size _ _ _ _ _ .call argument
      none (tokens.items.get ⟨function, hfunction⟩) hs hlink (fun r hr => by cases hr)
      (fun hop => by rcases hop with hop | hop <;> cases hop)
      (by dsimp only; omega) (by dsimp only; omega)
    obtain ⟨step, hstep⟩ := follows_step_ok hfunction
    have hpositive : 0 < s'.values.size := by
      unfold Stack.size
      rw [hadds.values, List.length_append]
      exact Nat.succ_pos _
    obtain ⟨last, hlast, hfinal⟩ := @change_last_within maxTag areas size _ _ _ _ s'
      (fun node => { node with anchor := (s'.predicates = 0 && !step).toNat }) hs'
      ⟨fun i n hn => ⟨hn.left, hn.right, hn.operands⟩, fun n => Nat.le_refl _,
        fun n hn => ⟨hn.offset, hn.size⟩⟩ hpositive
    rw [hargument]
    simp only [bind, Except.bind]
    rw [Stack.read_of_lt hfunction]
    simp only [checked_some]
    rw [hadd]
    simp only [hstep, hlast]
    refine hfinal.mono (Nat.le_refl _) (Nat.le_refl _) ?_ (Nat.le_refl _)
    dsimp only
    omega

/-- A predicate joins two values to one. -/
theorem close_predicate_within {op : Operator}
    (h : s.Within areas maxTag size created pending held room)
    (hnodes : created < areas.nodes) (htoken : op.token < tokens.size) :
    Meets (s.closePredicate tokens t op) Reported fun s' =>
      s'.Within areas maxTag size (created + 1) pending held room := by
  unfold Parsing.closePredicate
  split
  · exact syntax_error_reported
  next hbase =>
    have hcreated := h.created
    have hheld := h.held
    have hfits := h.valuesArea ▸ s.values.size_le
    obtain ⟨right, values, hright, -, -⟩ := Stack.pop_of_pos (s := s.values) (by omega)
    obtain ⟨hr, hsizeRight, hs⟩ := h.pop hright
    obtain ⟨left, rest, hleft, -, -⟩ := Stack.pop_of_pos (s := values) (by omega)
    obtain ⟨hl, hsizeLeft, hs⟩ := hs.pop hleft
    dsimp only at hl hsizeLeft
    obtain ⟨s', hadd, -, hs'⟩ := @add_value_within maxTag areas size _ _ _ _ _ .filter (some left)
      (some right) (tokens.items.get ⟨op.token, htoken⟩) hs
      (fun l hl' => by cases hl'; exact hl) (fun r hr' => by cases hr'; exact hr)
      (fun _ => ⟨rfl, rfl⟩) (by dsimp only; omega) (by dsimp only; omega)
    unfold popValue
    rw [hright]
    simp only [bind, Except.bind, checked_some]
    rw [hleft, Stack.read_of_lt htoken]
    simp only [checked_some]
    rw [hadd]
    have hfinal := hs'.mono (Nat.le_refl _) (Nat.le_refl _)
      (show rest.size + 1 ≤ held by omega) (Nat.le_refl _)
    exact { hfinal with }

/-- A group leaves its value. -/
theorem close_group_within {base : Nat}
    (h : s.Within areas maxTag size created pending held room) :
    Meets (s.closeGroup t base) Reported fun s' =>
      s'.Within areas maxTag size created pending held room := by
  unfold Parsing.closeGroup
  split
  · exact syntax_error_reported
  next hbase =>
    obtain ⟨s', hchange, hs'⟩ := @change_last_within maxTag areas size _ _ _ _ s
      (fun node => { node with grouped := true }) h
      ⟨fun i n hn => ⟨hn.left, hn.right, hn.operands⟩, fun n => Nat.le_refl _,
        fun n hn => ⟨hn.offset, hn.size⟩⟩ (by omega)
    rw [hchange]
    exact hs'

/-- A closing bracket makes at most one instruction for its opening one. -/
theorem close_bracket_within (h : s.Within areas maxTag size created pending held room)
    (hsize : size ≤ tokens.size) (hnodes : created ≤ areas.nodes) (hvalues : held < areas.values) :
    Meets (s.closeBracket tokens t) Reported fun s' =>
      s'.Within areas maxTag size created pending (held + 1) (room + maxTag) := by
  unfold Parsing.closeBracket
  refine (reduce_while_within s.ops.size h hsize hnodes).bind (fun _ h => h)
    fun result hresult => ?_
  cases result with
  | none => exact syntax_error_reported
  | some s₁ =>
    have h₁ := hresult s₁ rfl
    dsimp only
    cases hpop : s₁.ops.pop with
    | none => exact syntax_error_reported
    | some found =>
      obtain ⟨op, ops⟩ := found
      dsimp only
      split
      · exact syntax_error_reported
      · obtain ⟨⟨htoken, hfunction⟩, hone, hpending, h₂⟩ := h₁.popOp hpop
        have h₃ : ({ s₁ with ops := ops, nesting := s₁.nesting - 1 } : Parsing).Within areas
            maxTag size (created - 1) (pending - 1) held room := { h₂ with }
        have hclose : Meets (({ s₁ with ops := ops, nesting := s₁.nesting - 1 } :
            Parsing).close tokens t op) Reported fun s' =>
              s'.Within areas maxTag size created pending (held + 1) (room + maxTag) := by
          unfold Parsing.close
          cases hcall : op.function with
          | some function =>
            have := hfunction function hcall
            refine (close_call_within h₃ (by omega) hvalues (by omega)).mono (fun _ h => h)
              fun s' hs' => hs'.mono (by omega) (by omega) (Nat.le_refl _) (Nat.le_refl _)
          | none =>
            dsimp only
            split
            · exact (close_predicate_within h₃ (by omega) (by omega)).mono (fun _ h => h)
                fun s' hs' => hs'.mono (by omega) (by omega) (Nat.le_succ _)
                  (Nat.le_add_right _ _)
            · exact (close_group_within h₃).mono (fun _ h => h)
                fun s' hs' => hs'.mono (by omega) (by omega) (Nat.le_succ _)
                  (Nat.le_add_right _ _)
        exact hclose.bind (fun _ h => h) fun s' hs' => { hs' with }

/-- An operator waits for its right operand, and a leading step separator makes the root. -/
theorem operator_within {i : Nat} (h : s.Within areas maxTag size created pending held room)
    (hsize : size ≤ tokens.size) (hi : i < size) (hnodes : created < areas.nodes)
    (hops : pending < areas.ops) (hvalues : held < areas.values) :
    Meets (s.operator tokens t i) Reported fun s' =>
      s'.Within areas maxTag size (created + 2) (pending + 1) (held + 1) room := by
  unfold Parsing.operator
  split
  · exact syntax_error_reported
  · have hcreated := h.created
    have hheld := h.held
    have hleft : ∃ s₁, s.leftOperand t = .ok s₁ ∧
        s₁.Within areas maxTag size (created + 1) pending (held + 1) room := by
      unfold Parsing.leftOperand
      cases s.expected with
      | false =>
        exact ⟨s, rfl, h.mono (Nat.le_succ _) (Nat.le_refl _) (Nat.le_succ _) (Nat.le_refl _)⟩
      | true =>
        obtain ⟨s₁, hadd, -, h₁⟩ := @add_value_within maxTag areas size _ _ _ _ _ .root none none
          t h (fun l hl => by cases hl) (fun r hr => by cases hr)
          (fun hop => by rcases hop with hop | hop <;> cases hop) (by omega) (by omega)
        exact ⟨s₁, hadd, h₁.mono (Nat.le_refl _) (Nat.le_refl _) (by omega) (Nat.le_refl _)⟩
    obtain ⟨s₁, hfirst, h₁⟩ := hleft
    rw [hfirst]
    refine (reduce_while_within s₁.ops.size h₁ hsize (by omega)).bind (fun _ h => h)
      fun result hresult => ?_
    cases result with
    | none => exact syntax_error_reported
    | some s₂ =>
      have h₂ := hresult s₂ rfl
      have hpending := h₂.pending
      obtain ⟨ops, hpush, hitems, hcapacity⟩ := @Stack.push_of_lt _ s₂.ops
        { kind := t.kind, token := i } (by rw [h₂.opsArea]; omega)
      have hnext : ops.size = s₂.ops.size + 1 := by
        unfold Stack.size
        rw [hitems, List.length_append]
        rfl
      dsimp only
      rw [hpush]
      refine { h₂ with
        opsArea := hcapacity.trans h₂.opsArea
        ops := fun other hother => ?_
        created := ?_
        pending := ?_ }
      · dsimp only at hother
        rw [hitems, List.mem_append, List.mem_singleton] at hother
        rcases hother with hother | rfl
        · exact h₂.ops other hother
        · exact ⟨hi, fun f hf => by cases hf⟩
      · have := h₂.created
        show s₂.nodes.size + ops.size ≤ created + 2
        omega
      · show ops.size ≤ pending + 1
        omega

theorem op_room_le (op : Op) (t : Token) : opRoom maxTag op t ≤ t.width + maxTag := by
  unfold opRoom payloadRoom Token.width
  cases op <;> simp

/-- The operation of an operand has no operands of its own. -/
theorem operand_op_single {kind : TokenKind} {op : Op} (h : operandOp kind = some op) :
    ¬ (op.isOperator = true ∨ op = .args) := by
  cases kind <;> cases h <;> simp [Op.isOperator]

/-- An operand is one value and one instruction. -/
theorem operand_within {maxStates : Nat} {axis : Axis}
    (h : s.Within areas maxTag size created pending held room) (hnodes : created < areas.nodes)
    (hvalues : held < areas.values) :
    Meets (s.operand maxStates t axis) Reported fun s' =>
      s'.Within areas maxTag size (created + 1) pending (held + 1)
        (room + (t.width + maxTag)) := by
  unfold Parsing.operand
  cases hop : operandOp t.kind with
  | none => exact syntax_error_reported
  | some op =>
    have hcreated := h.created
    have hheld := h.held
    have hsingle : ∀ b : Bool, ¬ ((if b then Op.root else op).isOperator = true ∨
        (if b then Op.root else op) = .args) := by
      intro b
      cases b with
      | false => exact operand_op_single hop
      | true => simp [Op.isOperator]
    obtain ⟨s₁, hadd, hadds, h₁⟩ := @add_value_within maxTag areas size _ _ _ _ _
      (if (decide (op = .self) && (decide (s.predicates = 0) && !s.afterPath)) then .root else op)
      none none t h (fun l hl => by cases hl) (fun r hr => by cases hr)
      (fun h => absurd h (hsingle _)) (by omega) (by omega)
    have hpositive : 0 < s₁.values.size := by
      unfold Stack.size
      rw [hadds.values, List.length_append]
      exact Nat.succ_pos _
    have hchange := fun f hf => @change_last_within maxTag areas size _ _ _ _ s₁ f h₁ hf hpositive
    dsimp only
    rw [hadd]
    obtain ⟨s₂, hlast, h₂⟩ := hchange
      (fun node => { node with
        axis := if t.kind = .ddot then .parent else axis
        anchor := (decide (s.predicates = 0) && !s.afterPath).toNat
        scalar := decide (s.predicates ≠ 0) })
      ⟨fun i n hn => ⟨hn.left, hn.right, hn.operands⟩, fun n => Nat.le_refl _,
        fun n hn => ⟨hn.offset, hn.size⟩⟩
    simp only [bind, Except.bind]
    rw [hlast]
    dsimp only
    split
    · exact reported_limit _ _ _ _
    · have hroom := @op_room_le maxTag
        (if (decide (op = .self) && (decide (s.predicates = 0) && !s.afterPath)) then .root
          else op) t
      exact { h₂.mono (Nat.le_refl _) (Nat.le_refl _) (show s.values.size + 1 ≤ held + 1 by omega)
        (Nat.add_le_add_left hroom room) with }

end Within

/-- What the first `i` tokens pay for. -/
def tokenRoom (maxTag : Nat) (tokens : List Token) (i : Nat) : Nat :=
  widths (tokens.take i) + i * maxTag

/-- A token pays for what it spells and for a tag. -/
theorem token_room_step {tokens : List Token} {t : Token} {i k j : Nat}
    (ht : tokens[k]? = some t) (hfirst : i ≤ k) (hlast : k < j) :
    tokenRoom maxTag tokens i + (t.width + maxTag) ≤ tokenRoom maxTag tokens j := by
  obtain ⟨hk, rfl⟩ := List.getElem?_eq_some_iff.mp ht
  have htake : tokens.take j = tokens.take i ++ (tokens.drop i).take (j - i) := by
    rw [← List.take_add]
    congr 1
    omega
  have hmem : tokens[k] ∈ (tokens.drop i).take (j - i) := by
    refine List.mem_iff_getElem?.mpr ⟨k - i, ?_⟩
    rw [List.getElem?_take_of_lt (by omega), List.getElem?_drop, show i + (k - i) = k by omega]
    exact List.getElem?_eq_getElem hk
  have hwidth : tokens[k].width ≤ widths ((tokens.drop i).take (j - i)) :=
    List.single_le_sum (fun _ _ => Nat.zero_le _) _ (List.mem_map_of_mem hmem)
  have hcount : (i + 1) * maxTag ≤ j * maxTag := Nat.mul_le_mul_right _ (by omega)
  rw [Nat.add_mul, Nat.one_mul] at hcount
  unfold tokenRoom
  rw [htake]
  unfold widths at hwidth ⊢
  rw [List.map_append, List.sum_append]
  omega

section Run

variable {areas : ParserAreas} {tokens : Stack Token} {text : Bytes} {limits : ParseLimits}

/-- The variables of the parser after `i` tokens. -/
def Parsing.After (areas : ParserAreas) (maxTag : Nat) (tokens : Stack Token) (i : Nat)
    (s : Parsing) : Prop :=
  s.Within areas maxTag tokens.size (2 * i) i i (tokenRoom maxTag tokens.items i)

/-- The areas of a parser for `count` tokens. -/
structure ParserAreas.Hold (areas : ParserAreas) (count : Nat) : Prop where
  nodes : 2 * count ≤ areas.nodes
  ops : count ≤ areas.ops
  values : count ≤ areas.values

theorem kind_at_lt {i : Nat} {kind : TokenKind} (h : kindAt tokens i = some kind) :
    i < tokens.size := by
  obtain ⟨t, ht, -⟩ := Option.map_eq_some_iff.mp h
  exact (List.getElem?_eq_some_iff.mp ht).1

/-- The name of an axis is followed by the token of a tag. -/
theorem axis_step_meets {i : Nat} {t : Token} {s : Parsing} :
    Meets (s.axisStep text tokens t i) Reported fun step =>
      tokens.read (i + 2) = some step.1 := by
  unfold Parsing.axisStep
  split
  · exact reported_syntax _ _ _
  · split
    next tag htag =>
      split
      · exact htag
      · exact syntax_error_reported
    next => exact syntax_error_reported

/-- The body of the loop of `parse` moves on, and stays within what the tokens pay for. -/
theorem token_after {i : Nat} {t : Token} {s : Parsing} (hareas : areas.Hold tokens.size)
    (ht : tokens.read i = some t) (h : s.After areas maxTag tokens i) :
    Meets (s.token text tokens limits i t) Reported fun next =>
      i < next.1 ∧ next.1 ≤ tokens.size ∧ next.2.After areas maxTag tokens next.1 := by
  have hi : i < tokens.size := (List.getElem?_eq_some_iff.mp ht).1
  have hnodes := hareas.nodes
  have hops := hareas.ops
  have hvalues := hareas.values
  have hpending := Parsing.Within.pending h
  have hpaid := @token_room_step maxTag _ _ i i (i + 1) ht (Nat.le_refl _) (Nat.lt_succ_self _)
  have hopen : ∀ op : Operator, (op.token < tokens.size ∧
      ∀ f, op.function = some f → f < tokens.size) →
        Meets (s.openBracket limits.maxNesting t op) Reported fun s' =>
          s'.Within areas maxTag tokens.size (2 * i + 1) (i + 1) i
            (tokenRoom maxTag tokens.items i) :=
    fun op hop => open_bracket_within h hop (by omega)
  unfold Parsing.token
  split
  · -- a bracket that is no call
    split
    · exact syntax_error_reported
    · refine (hopen { kind := t.kind, token := i, base := s.values.size }
        ⟨hi, fun f hf => by cases hf⟩).bind (fun _ h => h) fun s' hs' => ?_
      exact ⟨Nat.lt_succ_self _, hi, { hs'.mono (show 2 * i + 1 ≤ 2 * (i + 1) by omega)
        (Nat.le_refl _) (Nat.le_succ _) (by dsimp only; omega) with }⟩
  split
  · refine Meets.bind (close_bracket_within h (Nat.le_refl _) (by omega) (by omega)) (fun _ h => h)
      fun s' hs' => ?_
    exact ⟨Nat.lt_succ_self _, hi, hs'.mono (show 2 * i ≤ 2 * (i + 1) by omega) (Nat.le_succ _)
      (Nat.le_refl _) (by dsimp only; omega)⟩
  split
  · refine (operator_within (t := t) h (Nat.le_refl _) hi (by omega) (by omega)
      (by omega)).bind (fun _ h => h) fun s' hs' => ?_
    exact ⟨Nat.lt_succ_self _, hi, hs'.mono (show 2 * i + 2 ≤ 2 * (i + 1) by omega)
      (Nat.le_refl _) (Nat.le_refl _) (by dsimp only; omega)⟩
  split
  · exact syntax_error_reported
  split
  next hcall =>
    -- the name of a function and its bracket are two tokens
    have hnext := kind_at_lt hcall.2
    have hpaid := @token_room_step maxTag _ _ i i (i + 2) ht (Nat.le_refl _) (by omega)
    refine (hopen { kind := .opening, token := i + 1, base := s.values.size, function := some i }
      ⟨hnext, fun f hf => by cases hf; exact hi⟩).bind (fun _ h => h) fun s' hs' => ?_
    exact ⟨by dsimp only; omega, hnext, { hs'.mono (show 2 * i + 1 ≤ 2 * (i + 2) by omega)
      (Nat.le_succ _) (show i ≤ i + 2 by omega) (by dsimp only; omega) with }⟩
  have hoperand : ∀ (tag : Token) (axis : Axis) (j : Nat), i < j →
      tokenRoom maxTag tokens.items i + (tag.width + maxTag) ≤ tokenRoom maxTag tokens.items j →
        Meets (s.operand limits.maxStates tag axis) Reported fun s' =>
          s'.After areas maxTag tokens j := by
    intro tag axis j hj hroom
    refine (operand_within h (by omega) (by omega)).mono (fun _ h => h) fun s' hs' => ?_
    exact hs'.mono (by omega) (by omega) (by omega) hroom
  split
  · -- an axis, two colons and a tag are three tokens
    refine axis_step_meets.bind (fun _ h => h) fun step htag => ?_
    obtain ⟨tag, axis⟩ := step
    have hpaid := @token_room_step maxTag _ _ i (i + 2) (i + 3) htag (by omega) (by omega)
    refine (hoperand tag axis (i + 3) (by omega) hpaid).bind (fun _ h => h) fun s' hs' => ?_
    exact ⟨by dsimp only; omega, (List.getElem?_eq_some_iff.mp htag).1, hs'⟩
  · refine (hoperand t .child (i + 1) (Nat.lt_succ_self _) hpaid).bind (fun _ h => h)
      fun s' hs' => ?_
    exact ⟨Nat.lt_succ_self _, hi, hs'⟩

/-- The loop of `parse` ends behind the last token, within what the tokens pay for. -/
theorem tokens_after {s : Parsing} (hareas : areas.Hold tokens.size) (fuel i : Nat)
    (hi : i ≤ tokens.size) (hfuel : tokens.size - i ≤ fuel) (h : s.After areas maxTag tokens i) :
    Meets (s.tokens text tokens limits fuel i) Reported fun s' =>
      s'.After areas maxTag tokens tokens.size := by
  induction fuel generalizing i s with
  | zero =>
    obtain rfl : i = tokens.size := by omega
    unfold Parsing.tokens
    rw [if_pos (Nat.le_refl _)]
    exact h
  | succ fuel ih =>
    unfold Parsing.tokens
    cases ht : tokens.read i with
    | none =>
      have hge : tokens.size ≤ i := List.getElem?_eq_none_iff.mp ht
      obtain rfl : i = tokens.size := by omega
      exact h
    | some t =>
      refine (token_after hareas ht h).bind (fun _ h => h) fun next hnext => ?_
      obtain ⟨hnext, hlast, hafter⟩ := hnext
      exact ih next.1 hlast (by omega) hafter

/-- What `parse` yields: instructions whose operands lie before them, at most two for each token,
and their root. -/
structure Parsed (tokens : Stack Token) (maxTag : Nat) (nodes : Stack Instruction) (root : Nat) :
    Prop where
  linked : AllLinked nodes.items
  unused : ∀ n ∈ nodes.items, Unused n
  root : root < nodes.size
  created : nodes.size ≤ 2 * tokens.size
  room : roomOf maxTag nodes.items ≤ tokenRoom maxTag tokens.items tokens.size

/-- The parser stays in areas for the tokens, and its instructions are paid by them. -/
theorem parse_parsed {nodes : Stack Instruction} {ops : Stack Operator} {values : Stack Nat}
    (hareas : (ParserAreas.mk nodes.capacity ops.capacity values.capacity).Hold tokens.size)
    (hnodes : nodes.items = []) (hops : ops.items = []) (hvalues : values.items = []) :
    Meets (parse text tokens limits nodes ops values) Reported fun parsed =>
      Parsed tokens maxTag parsed.1 parsed.2 := by
  have hstart : Parsing.After ⟨nodes.capacity, ops.capacity, values.capacity⟩ maxTag tokens 0
      { nodes := nodes, ops := ops, values := values } := by
    refine ⟨rfl, rfl, rfl, ?_, ?_, ?_, ?_, ?_, ?_, ?_, ?_⟩
    · intro i n hn
      dsimp only at hn
      rw [hnodes] at hn
      cases hn
    · intro n hn
      dsimp only at hn
      rw [hnodes] at hn
      cases hn
    · intro v hv
      dsimp only at hv
      rw [hvalues] at hv
      cases hv
    · intro op hop
      dsimp only at hop
      rw [hops] at hop
      cases hop
    · show nodes.items.length + ops.items.length ≤ 2 * 0
      rw [hnodes, hops]
      exact Nat.le_refl _
    · show ops.items.length ≤ 0
      rw [hops]
      exact Nat.le_refl _
    · show values.items.length ≤ 0
      rw [hvalues]
      exact Nat.le_refl _
    · show roomOf maxTag nodes.items ≤ _
      rw [hnodes]
      exact Nat.zero_le _
  unfold parse
  refine (tokens_after hareas tokens.size 0 (Nat.zero_le _) (Nat.sub_le _ _) hstart).bind
    (fun _ h => h) fun s hs => ?_
  unfold Parsing.finish
  dsimp only
  split
  · exact reported_syntax _ _ _
  split
  · exact reported_syntax _ _ _
  refine (reduce_while_within s.ops.size hs (Nat.le_refl _) hareas.nodes).bind (fun _ h => h)
    fun result hresult => ?_
  cases result with
  | none => exact reported_syntax _ _ _
  | some s' =>
    have hs' := hresult s' rfl
    dsimp only
    split
    · exact reported_syntax _ _ _
    next hone =>
      split
      · exact reported_limit _ _ _ _
      · obtain ⟨root, rest, -, hitems, -⟩ := Stack.pop_of_pos (s := s'.values) (by omega)
        have htop : s'.values.top = some root := by
          unfold Stack.top
          rw [hitems, List.getLast?_concat]
        have hcreated := hs'.created
        rw [htop]
        exact ⟨hs'.linked, hs'.unused, hs'.values root (by rw [hitems]; simp),
          by dsimp only; omega, hs'.room⟩

end Run

end OpenTlv.Query
