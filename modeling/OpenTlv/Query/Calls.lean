import OpenTlv.Query.Operators

/-!
# Calls

A call evaluates its arguments one after the other in its own context and then applies its
function. `argumentValue` is what the frame keeps of an argument: its value, and the node it
selects where the function wants one.
-/

namespace OpenTlv.Query

/-- What a call keeps of an argument, with the node that the argument selects. -/
def argumentValue (w : World) (function : Fn) : Denoted → Option (Value × Option Nat)
  | .nodes set =>
    match function with
    | .count => some (signedValue (w.members set).length, none)
    | .exists => some ({ kind := .bool, number := (w.truth (.nodes set)).toNat }, none)
    | .empty => some ({ kind := .bool, number := (!w.truth (.nodes set)).toNat }, none)
    | .not => some ({ kind := .bool, number := (w.truth (.nodes set)).toNat }, none)
    | function => do
        let i ← w.single set
        let event ← w.eventOf (some i)
        if function.isConversion then
          return ({ kind := .bytes, number := 1, data := event.element.value }, some i)
        else return ((Denoted.nodes set).value w, some i)
  | d => some (d.value w, none)

/-- The node that the arguments of a call select. -/
def selection (results : List (Value × Option Nat)) : Option Nat :=
  results.foldl (fun selected result => result.2.or selected) none

variable {s : Session} {forest : Forest Item}

/-- The frame of a call that has evaluated some arguments. -/
structure Frame.Called (s : Session) (f : Frame) (i c position last : Nat) (args : List Nat)
    (results : List (Value × Option Nat)) : Prop where
  instruction : f.instruction = i
  context : f.context = c
  position : f.position = position
  last : f.last = last
  args : f.args = args
  value : f.value = { kind := (s.program.get i).type }
  out : f.out = Area.fill (s.nodeCapacity + 1) false
  values : [f.a, f.b, f.c].take results.length = results.map (·.1)
  selected : f.selected = selection results

/-- The members of a set with one flag. -/
theorem single_spec (h : s.Ready forest) {area : Area Bool} {set : Context → Bool}
    (hout : s.Represents area set) (hcount : area.count = 1) :
    ∃ i, (List.range (s.nodeCapacity + 1)).find? (fun i => area.cell i) = some i ∧
      (s.world forest).members set = [s.contextAt i] ∧ s.Live i := by
  have hpicks := Session.picks_eq h.room h.elements hout
  have hlength : ((List.range (s.nodeCapacity + 1)).filter area.cell).length = 1 := by
    have hlength : area.count =
        ((List.range (s.nodeCapacity + 1)).filter area.cell).length := by
      rw [Area.count, hout.1, List.countP_eq_length_filter]
    rw [← hlength, hcount]
  obtain ⟨i, hi⟩ := List.length_eq_one_iff.mp hlength
  have hmem : i ∈ (List.range (s.nodeCapacity + 1)).filter area.cell := by rw [hi]; simp
  rw [List.mem_filter, List.mem_range] at hmem
  refine ⟨i, ?_, by rw [← hpicks, hi]; rfl, ?_⟩
  · rw [← List.head?_filter, show (fun i => area.cell i) = area.cell from rfl, hi]
    rfl
  · exact Session.live_of_member (by rw [← hout.2 i (by omega)]; exact hmem.2)

theorem event_of_lt (h : s.Ready forest) {i : Nat} (hi : i < s.elements) :
    ∃ node, s.nodes.read i = some (retain s.nodeCapacity node) ∧
      (s.world forest).eventOf (some i) = some (nodeEvent node) := by
  obtain ⟨node, hnode, -, hread⟩ := h.listed hi
  refine ⟨node, hread, ?_⟩
  simp [World.eventOf, Session.world, hnode]

/-- The value of an argument, or the cardinality failure of a node sequence. -/
theorem argument_result_spec (h : s.Ready forest) (n : Instruction) {child : Frame}
    {d : Denoted} (hchild : child.Holds s forest d) :
    Meets (argumentResult s n child)
      (Reports (argumentValue (s.world forest) n.function d = none))
      fun x => argumentValue (s.world forest) n.function d = some x := by
  have hkind : child.value.kind = d.kind := by rw [hchild.value, value_kind]
  unfold argumentResult
  by_cases hnode : d.kind = .node
  · obtain ⟨set, rfl⟩ := nodes_of_kind hnode
    have hout := hchild.set set rfl
    have hcount := Session.count_eq h.room h.elements hout
    have htruth : decide (child.out.count ≠ 0) = (s.world forest).truth (.nodes set) := by
      rw [hcount]
      rfl
    have hempty : decide (child.out.count = 0) = !(s.world forest).truth (.nodes set) := by
      rw [← htruth]
      simp
    rw [if_neg (by rw [hkind]; simp [Denoted.kind]), node_set_eq hchild.size]
    have hvalue : child.value =
        { kind := .node, number := ((s.world forest).truth (.nodes set)).toNat } := hchild.value
    -- the functions that want exactly one concrete node
    have hone : ∀ function : Fn, argumentValue (s.world forest) function (.nodes set) = (do
          let i ← (s.world forest).single set
          let event ← (s.world forest).eventOf (some i)
          if function.isConversion then
            return ({ kind := .bytes, number := 1, data := event.element.value }, some i)
          else return ((Denoted.nodes set).value (s.world forest), some i)) →
        Meets (if child.out.count ≠ 1 then
            queryError n .invalidValue .cardinality "exactly one node"
          else do
            let selected ← checked ((List.range (s.nodeCapacity + 1)).find? fun i =>
              child.out.cell i)
            if selected = s.nodeCapacity then
              queryError n .invalidValue .cardinality "one concrete node"
            else if function.isConversion then
              let node ← checked (s.nodes.read selected)
              return ({ child.value with kind := .bytes, data := node.event.element.value },
                some selected)
            else return (child.value, some selected) : Run (Value × Option Nat))
          (Reports (argumentValue (s.world forest) function (.nodes set) = none))
          fun x => argumentValue (s.world forest) function (.nodes set) = some x := by
      intro function hargument
      rw [hargument]
      by_cases hsingle : child.out.count = 1
      · obtain ⟨i, hfind, hmembers, hlive⟩ := single_spec h hout hsingle
        have htrue : (s.world forest).truth (.nodes set) = true := by
          rw [← htruth, hsingle]
          rfl
        rw [if_neg (not_not.mpr hsingle), hfind]
        show Meets (if i = s.nodeCapacity then _ else _) _ _
        rcases hlive.cases h.room with ⟨hlt, hne, hcontext⟩ | ⟨heq, -, hcontext⟩
        · obtain ⟨node, hread, hevent⟩ := event_of_lt h hlt
          rw [if_neg hne, hread]
          have hsome : (s.world forest).single set = some i := by
            simp [World.single, hmembers, hcontext]
          simp only [hsome, hevent, Option.bind_some, bind, hvalue, htrue]
          cases function.isConversion <;>
            simp [Except.bind, pure, Except.pure, Denoted.value, htrue, retain]
        · have hnone : (s.world forest).single set = none := by
            simp [World.single, hmembers, hcontext]
          rw [if_pos heq]
          exact query_error_meets.mpr (by rw [hnone]; rfl)
      · have hnone : (s.world forest).single set = none := by
          unfold World.single
          split
          · rename_i i hmembers
            rw [hcount, hmembers] at hsingle
            exact absurd rfl hsingle
          · rfl
        rw [if_pos hsingle]
        exact query_error_meets.mpr (by rw [hnone]; rfl)
    cases hfunction : n.function
    case count => exact congrArg (fun k : Nat => some (signedValue k, none)) hcount.symm
    case «exists» =>
      exact congrArg (fun b : Bool => some (({ kind := .bool, number := b.toNat } : Value), none))
        htruth.symm
    case empty =>
      exact congrArg (fun b : Bool => some (({ kind := .bool, number := b.toNat } : Value), none))
        hempty.symm
    case not =>
      show argumentValue (s.world forest) .not (.nodes set) = some (_, none)
      rw [htruth, hvalue]
      rfl
    all_goals exact hone _ rfl
  · rw [if_pos (by rw [hkind]; exact hnode)]
    cases d with
    | nodes set => exact absurd rfl hnode
    | _ => simp [argumentValue, hchild.value]

/-- What the frame of a call holds after its function. -/
def Frame.Answers (s : Session) (forest : Forest Item) (f : Frame) : Denoted → Prop
  | .nodes set => f.value = { kind := .node } ∧ s.Represents f.out set
  | d => f.value = d.value (s.world forest) ∧ f.out.size = s.nodeCapacity + 1

/-- The contract of `scalar_call`: the frame holds the meaning, or the call has none or the work
does not suffice. -/
def Replies (s : Session) (forest : Forest Item) (vm : Vm) (meaning : Option Denoted) (cost : Nat)
    (run : Run (Frame × Vm)) : Prop :=
  Meets run (Reports (vm.meter.left < cost ∨ meaning = none)) fun x =>
    x.2.Fits s ∧ x.2.frames = vm.frames ∧ Spent cost vm.meter x.2.meter ∧
      ∃ d, meaning = some d ∧ x.1.Answers s forest d

/-- The function of a call, its codec and its type. -/
def Instruction.call (n : Instruction) : CallSpec :=
  ⟨n.function, n.hookId, n.type⟩

/-- A call denotes its function on the values of its arguments. -/
theorem denote_of_call (w : World) (call : CallSpec) {arguments : List Expr}
    (hlength : arguments.length ≤ 3) (c : Context) (position last : Nat) :
    denote w (Expr.ofCall call arguments) c position last =
      (arguments.mapM fun e => denote w e c position last) >>=
        denoteCall w call c position last := by
  rcases arguments with _ | ⟨a, _ | ⟨b, _ | ⟨d, _ | ⟨e, rest⟩⟩⟩⟩
  · simp [Expr.ofCall, denote]
  · simp only [Expr.ofCall, denote, List.mapM_cons, List.mapM_nil, bind, pure]
    cases denote w a c position last <;> rfl
  · simp only [Expr.ofCall, denote, List.mapM_cons, List.mapM_nil, bind, pure]
    cases denote w a c position last <;> cases denote w b c position last <;> rfl
  · simp only [Expr.ofCall, denote, List.mapM_cons, List.mapM_nil, bind, pure]
    cases denote w a c position last <;> cases denote w b c position last <;>
      cases denote w d c position last <;> rfl
  · simp at hlength
    omega

/-- The arguments a function of the language takes. -/
def CallShape (function : Fn) (ds : List Denoted) : Prop :=
  match function with
  | .position | .last => ds = []
  | .count | .exists | .empty => ∃ set, ds = [.nodes set]
  | .value | .tag | .constructed | .tagClass | .number => ds = [] ∨ ∃ set, ds = [.nodes set]
  | .num | .bcd | .text | .date => (∃ set, ds = [.nodes set]) ∨ ∃ data, ds = [.bytes data]
  | .len => ds = [] ∨ (∃ data, ds = [.bytes data]) ∨ ∃ data, ds = [.string data]
  | .not => (∃ value, ds = [.bool value]) ∨ ∃ set, ds = [.nodes set]
  | .substr =>
    (∃ data start, ds = [.bytes data, .int start]) ∨
      ∃ data start count, ds = [.bytes data, .int start, .int count]
  | .starts | .ends | .contains | .mask | .range => ∃ a b, ds = [.bytes a, .bytes b]
  | .name | .unknown => False

/-- The checks of a call admit only the shapes of its function. -/
theorem call_shape {p : Program} {n : Instruction} {args : List Nat} {ds : List Denoted}
    (hadmits : n.function.admits args.length = true) (htyped : callTyped p n args = true)
    (hkinds : ds.map Denoted.kind = args.map fun a => (p.get a).type) :
    CallShape n.function ds := by
  have hlength : ds.length = args.length := by simpa using congrArg List.length hkinds
  have hkind : ∀ d : Denoted, (∃ set, d = .nodes set) ∨ (∃ value, d = .bool value) ∨
      (∃ value, d = .int value) ∨ (∃ data, d = .bytes data) ∨ ∃ data, d = .string data := by
    intro d
    cases d <;> simp
  rcases args with _ | ⟨x, _ | ⟨y, _ | ⟨z, _ | ⟨u, rest⟩⟩⟩⟩ <;>
    rcases ds with _ | ⟨a, _ | ⟨b, _ | ⟨c, _ | ⟨d, more⟩⟩⟩⟩ <;> simp at hlength
  · cases hcase : n.function <;> simp_all [Fn.admits, CallShape]
  · have hx : a.kind = (p.get x).type := by simpa using hkinds
    cases hcase : n.function <;> simp [hcase, Fn.admits] at hadmits <;>
      simp [callTyped, hcase, ← hx] at htyped <;> rcases hkind a with ⟨_, rfl⟩ | ⟨_, rfl⟩ | ⟨_, rfl⟩ |
        ⟨_, rfl⟩ | ⟨_, rfl⟩ <;> simp [Denoted.kind, CallShape] at htyped ⊢
  · have hx : a.kind = (p.get x).type := by simpa using (List.cons.inj hkinds).1
    have hy : b.kind = (p.get y).type := by simpa using (List.cons.inj (List.cons.inj hkinds).2).1
    cases hcase : n.function <;> simp [hcase, Fn.admits] at hadmits <;>
      simp [callTyped, hcase, ← hx, ← hy] at htyped <;>
      rcases hkind a with ⟨_, rfl⟩ | ⟨_, rfl⟩ | ⟨_, rfl⟩ | ⟨_, rfl⟩ | ⟨_, rfl⟩ <;>
      simp [Denoted.kind] at htyped <;>
      rcases hkind b with ⟨_, rfl⟩ | ⟨_, rfl⟩ | ⟨_, rfl⟩ | ⟨_, rfl⟩ | ⟨_, rfl⟩ <;>
      simp [CallShape] at htyped ⊢
  · have hx : a.kind = (p.get x).type := by simpa using (List.cons.inj hkinds).1
    have hy : b.kind = (p.get y).type := by simpa using (List.cons.inj (List.cons.inj hkinds).2).1
    have hz : c.kind = (p.get z).type := by
      simpa using (List.cons.inj (List.cons.inj (List.cons.inj hkinds).2).2).1
    cases hcase : n.function <;> simp [hcase, Fn.admits] at hadmits
    simp [callTyped, hcase, ← hx, ← hy, ← hz] at htyped
    rcases hkind a with ⟨_, rfl⟩ | ⟨_, rfl⟩ | ⟨_, rfl⟩ | ⟨_, rfl⟩ | ⟨_, rfl⟩ <;>
      simp [Denoted.kind] at htyped
    rcases hkind b with ⟨_, rfl⟩ | ⟨_, rfl⟩ | ⟨_, rfl⟩ | ⟨_, rfl⟩ | ⟨_, rfl⟩ <;>
      simp at htyped
    rcases hkind c with ⟨_, rfl⟩ | ⟨_, rfl⟩ | ⟨_, rfl⟩ | ⟨_, rfl⟩ | ⟨_, rfl⟩ <;>
      simp [CallShape] at htyped ⊢
  · cases hcase : n.function <;> simp [hcase, Fn.admits] at hadmits

/-- The event a function reads is that of the selected node or of the context. -/
theorem call_event_eq (h : s.Ready forest) {f : Frame} (hc : s.Live f.context) :
    callEvent s f = .ok ((s.world forest).eventOf (f.selected.elim (s.contextAt f.context) some)) := by
  have hbeyond : ∀ i, ¬ i < s.elements → (s.world forest).eventOf (some i) = none := by
    intro i hi
    have hnone : forest.nodes[i]? = none := by
      rw [List.getElem?_eq_none_iff, Forest.nodes_length, ← h.elements]
      omega
    simp [World.eventOf, Session.world, hnone]
  unfold callEvent
  cases hselected : f.selected with
  | some i =>
    simp only [Option.getD_some, Option.elim_some]
    split
    · rename_i hi
      obtain ⟨node, hread, hevent⟩ := event_of_lt h hi
      rw [hread, hevent]
      rfl
    · rename_i hi
      rw [hbeyond i hi]
  | none =>
    simp only [Option.getD_none, Option.elim_none]
    rcases hc.cases h.room with ⟨hlt, -, hcontext⟩ | ⟨-, hge, hcontext⟩
    · rw [if_pos hlt, hcontext]
      obtain ⟨node, hread, hevent⟩ := event_of_lt h hlt
      rw [hread, hevent]
      rfl
    · rw [if_neg hge, hcontext]
      rfl

theorem candidate_event_spec (n : Instruction) (event : Option TreeEvent) :
    Meets (candidateEvent n event) (Reports (event = none)) fun x => event = some x := by
  cases event <;> simp [candidateEvent]

theorem tag_number_spec (n : Instruction) (decompose : Bytes → Except Status Int) (tag : Bytes) :
    Meets (tagNumber n decompose tag)
      (Reports ((callbackResult (decompose tag)).toOption = none)) fun v =>
        ∃ number, (callbackResult (decompose tag)).toOption = some number ∧
          v = signedValue number := by
  unfold tagNumber
  cases callbackResult (decompose tag) with
  | error status => exact query_error_meets.mpr rfl
  | ok number => exact ⟨number, rfl, rfl⟩

/-- The functions of one candidate node. -/
def Fn.isNodeFunction : Fn → Bool
  | .value | .tag | .constructed | .tagClass | .number => true
  | _ => false

/-- A node function reads the event and nothing else. -/
theorem node_function_answered (h : s.Ready forest) {i : Nat} (hi : i < s.program.count)
    (hop : (s.program.get i).op = .call)
    (hfunction : (s.program.get i).function.isNodeFunction = true) {vm : Vm} {f : Frame}
    (hfits : vm.Fits s) (hc : s.Live f.context) (htype : f.value =
    { kind := (s.program.get i).type })
    (hout : f.out.size = s.nodeCapacity + 1) :
    Replies s forest vm
      (((s.world forest).eventOf (f.selected.elim (s.contextAt f.context) some)).bind
        ((s.world forest).nodeFunction (s.program.get i).function)) 0
      (scalarCall s vm f (s.program.get i)) := by
  unfold scalarCall
  rw [call_event_eq h hc]
  generalize (s.world forest).eventOf (f.selected.elim (s.contextAt f.context) some) = target
  have hworld : (s.world forest).environment = s.environment := rfl
  cases hcase : (s.program.get i).function <;> rw [hcase] at hfunction <;>
    try (simp [Fn.isNodeFunction] at hfunction; done)
  case value =>
    refine (candidate_event_spec _ target).bind
      (fun e => Reports.mono (fun hnone => .inr (by rw [hnone]; rfl)) e) ?_
    rintro event rfl
    refine ⟨hfits, rfl, Spent.zero _, .bytes event.element.value, rfl, ?_, hout⟩
    simp [htype, Denoted.value]
  case tag =>
    refine (candidate_event_spec _ target).bind
      (fun e => Reports.mono (fun hnone => .inr (by rw [hnone]; rfl)) e) ?_
    rintro event rfl
    refine ⟨hfits, rfl, Spent.zero _, .bytes event.element.tag, rfl, ?_, hout⟩
    simp [htype, Denoted.value]
  case constructed =>
    refine (candidate_event_spec _ target).bind
      (fun e => Reports.mono (fun hnone => .inr (by rw [hnone]; rfl)) e) ?_
    rintro event rfl
    obtain ⟨format, hformat⟩ := h.equipped.constructed i hi hop hcase
    rw [hformat]
    refine ⟨hfits, rfl, Spent.zero _, .bool (format.isConstructed.any (· event.element.tag)), ?_,
      ?_, hout⟩
    · simp [World.nodeFunction, hworld, hformat]
    · simp [htype, Denoted.value]
  case tagClass =>
    refine (candidate_event_spec _ target).bind
      (fun e => Reports.mono (fun hnone => .inr (by rw [hnone]; rfl)) e) ?_
    rintro event rfl
    obtain ⟨tags, decompose, htags, hdecompose⟩ := h.equipped.tagClass i hi hop hcase
    have hmeaning : (some event).bind ((s.world forest).nodeFunction .tagClass) =
        ((callbackResult (decompose event.element.tag)).toOption).map .int := by
      simp only [Option.bind_some, World.nodeFunction, hworld, htags, hdecompose, bind, pure]
      cases (callbackResult (decompose event.element.tag)).toOption <;> rfl
    rw [hmeaning, htags]
    show Meets (checked tags.classOf >>= _) _ _
    rw [hdecompose]
    refine (tag_number_spec _ decompose event.element.tag).bind
      (fun e => Reports.mono (fun hnone => .inr (by rw [hnone]; rfl)) e) ?_
    rintro v ⟨number, hnumber, rfl⟩
    exact ⟨hfits, rfl, Spent.zero _, .int number, by rw [hnumber]; rfl, rfl, hout⟩
  case number =>
    refine (candidate_event_spec _ target).bind
      (fun e => Reports.mono (fun hnone => .inr (by rw [hnone]; rfl)) e) ?_
    rintro event rfl
    obtain ⟨tags, decompose, htags, hdecompose⟩ := h.equipped.number i hi hop hcase
    have hmeaning : (some event).bind ((s.world forest).nodeFunction .number) =
        ((callbackResult (decompose event.element.tag)).toOption).map .int := by
      simp only [Option.bind_some, World.nodeFunction, hworld, htags, hdecompose, bind, pure]
      cases (callbackResult (decompose event.element.tag)).toOption <;> rfl
    rw [hmeaning, htags]
    show Meets (checked tags.numberOf >>= _) _ _
    rw [hdecompose]
    refine (tag_number_spec _ decompose event.element.tag).bind
      (fun e => Reports.mono (fun hnone => .inr (by rw [hnone]; rfl)) e) ?_
    rintro v ⟨number, hnumber, rfl⟩
    exact ⟨hfits, rfl, Spent.zero _, .int number, by rw [hnumber]; rfl, rfl, hout⟩

/-- A conversion asks the hook that its identity finds. -/
theorem convert_value_eq (h : s.Ready forest) {i : Nat} (hi : i < s.program.count) {hook : Hook}
    {decode : Option TreeEvent → Bytes → Except Status QueryResult} (meter : Meter)
    (hfind : s.environment.hooks.reverse.find?
      (fun hook => hook.id = (s.program.get i).hookId) = some hook)
    (hdecode : hook.decode = some decode) (hsize : hook.scratchSize ≤ s.program.codecStride)
    (event : Option TreeEvent) (data : Bytes) :
    convertValue s i meter (s.program.get i) event data =
      convertResult meter (s.program.get i) (callbackResult (decode event data)) := by
  unfold convertValue
  rw [hfind]
  show (checked hook.decode >>= _) = _
  rw [hdecode]
  exact if_pos ⟨by rw [h.equipped.scratch]; exact hi, hsize⟩

/-- A conversion through its codec hook. -/
theorem convert_value_spec (h : s.Ready forest) {i : Nat} (hi : i < s.program.count)
    (hop : (s.program.get i).op = .call)
    (hfunction : (s.program.get i).function.isConversion = true) (event : Option TreeEvent)
    (data : Bytes) :
    ∃ cost, ∀ meter,
      Meets (convertValue s i meter (s.program.get i) event data)
        (Reports (meter.left < cost ∨ (s.world forest).convert
          (s.program.get i).call event data = none))
        fun x => Spent cost meter x.2 ∧ ∃ d, (s.world forest).convert
          (s.program.get i).call event data = some d ∧ d.kind ≠ .node ∧
            x.1 = d.value (s.world forest) := by
  obtain ⟨hook, decode, hfind, hdecode, hsize⟩ := h.equipped.hook i hi hop hfunction
  have hmeaning : (s.world forest).convert (s.program.get i).call event data =
        (callbackResult (decode event data)).toOption.bind fun result =>
          if result.kind ≠ some (s.program.get i).type then none
          else if result.kind = some .number then some (.int result.integer)
          else if utf8Validate result.data then some (.string result.data)
          else none := by
    have hworld : (s.world forest).environment = s.environment := rfl
    have hfind' : (s.environment.hooks.reverse.find?
        fun hook => hook.id = (s.program.get i).call.hookId) = some hook := hfind
    simp only [World.convert, hworld, hfind', hdecode, bind, Option.bind_some]
    rfl
  simp only [hmeaning, convert_value_eq h hi _ hfind hdecode hsize]
  cases hresult : callbackResult (decode event data) with
  | error status => exact ⟨0, fun meter => query_error_meets.mpr (.inr rfl)⟩
  | ok result =>
    simp only [Except.toOption, Option.bind_some, convertResult]
    by_cases hkind : result.kind = some (s.program.get i).type
    · simp only [if_neg (not_not.mpr hkind)]
      by_cases hnumber : result.kind = some .number
      · simp only [if_pos hnumber]
        exact ⟨0, fun meter => ⟨Spent.zero meter, _, rfl, by simp [Denoted.kind], rfl⟩⟩
      · simp only [if_neg hnumber]
        refine ⟨result.data.length, fun meter => ?_⟩
        refine (charge_spec meter _ _).bind (fun e => Reports.mono Or.inl e) ?_
        intro meter' hspent
        cases hvalid : utf8Validate result.data with
        | false => exact query_error_meets.mpr (.inr rfl)
        | true => exact ⟨hspent, _, rfl, by simp [Denoted.kind], rfl⟩
    · simp only [if_pos hkind]
      exact ⟨0, fun meter => query_error_meets.mpr (.inr trivial)⟩

/-- A conversion call gives the value of its denotation. -/
theorem conversion_answered (h : s.Ready forest) {i : Nat} (hi : i < s.program.count)
    (hop : (s.program.get i).op = .call)
    (hfunction : (s.program.get i).function.isConversion = true) {c : Nat} (hc : s.Live c)
    (selected : Option Nat) (a : Value) :
    ∃ cost, ∀ (vm : Vm) (f : Frame), vm.Fits s → f.instruction = i → f.context = c →
      f.selected = selected → f.a = a → f.out.size = s.nodeCapacity + 1 →
      Replies s forest vm
        ((s.world forest).convert (s.program.get i).call
          ((s.world forest).eventOf (selected.elim (s.contextAt c) some)) a.data) cost
        (scalarCall s vm f (s.program.get i)) := by
  obtain ⟨cost, hrun⟩ := convert_value_spec h hi hop hfunction
    ((s.world forest).eventOf (selected.elim (s.contextAt c) some)) a.data
  refine ⟨cost, ?_⟩
  rintro vm f hfits hinstruction rfl rfl rfl hout
  have hstart : scalarCall s vm f (s.program.get i) =
      convertValue s i vm.meter (s.program.get i)
        ((s.world forest).eventOf (f.selected.elim (s.contextAt f.context) some)) f.a.data >>=
        fun x => .ok ({ f with value := x.1 }, { vm with meter := x.2 }) := by
    unfold scalarCall
    rw [call_event_eq h hc, hinstruction]
    cases hcase : (s.program.get i).function <;> rw [hcase] at hfunction <;>
      first
        | rfl
        | simp [Fn.isConversion] at hfunction
  rw [hstart]
  refine (hrun vm.meter).bind (fun e he => he) ?_
  rintro ⟨value, meter⟩ ⟨hspent, d, hd, hkind, rfl⟩
  refine ⟨⟨hfits.values, hfits.table, hfits.frames⟩, rfl, hspent, d, hd, ?_⟩
  cases d with
  | nodes set => exact absurd rfl hkind
  | _ => exact ⟨rfl, hout⟩

/-- The evaluated arguments land in the slots of their instructions. An instruction that stands
twice has one value. -/
theorem store_arguments_spec (g : Nat → Value) (extra : List Value) (args : List Nat)
    {values : Area Value} (hslots : ∀ a ∈ args, a < values.size) :
    ∃ values', storeArguments values args (args.map g ++ extra) = .ok values' ∧
      values'.size = values.size ∧ (∀ a ∈ args, values'.cell a = g a) ∧
      ∀ a, a ∉ args → values'.cell a = values.cell a := by
  induction args generalizing values with
  | nil =>
    refine ⟨values, ?_, rfl, by simp, by simp⟩
    cases extra <;> rfl
  | cons a rest ih =>
    rw [List.forall_mem_cons] at hslots
    obtain ⟨values', hstore, hsize, hin, hout⟩ :=
      @ih (values.put a (g a)) (by simpa using hslots.2)
    refine ⟨values', ?_, hsize, ?_, ?_⟩
    · simpa [storeArguments, Area.write_of_lt _ hslots.1, bind, Except.bind] using hstore
    · intro b hb
      by_cases hrest : b ∈ rest
      · exact hin b hrest
      · obtain rfl : b = a := by simpa [hrest] using hb
        rw [hout b hrest, Area.put_cell_self]
    · intro b hb
      rw [List.mem_cons, not_or] at hb
      rw [hout b hb.2, Area.put_cell_of_ne _ _ hb.1]

/-- The functions that `query_function_eval` computes for a call. -/
def Fn.isPlain : Fn → Bool
  | .len | .not | .substr | .starts | .ends | .contains => true
  | _ => false

theorem length_value_eq (w : World) (data : Bytes) :
    lengthValue data.length = (lengthOf data).map (·.value w) := by
  unfold lengthValue lengthOf
  split
  · rfl
  · simp only [Option.map_some, Denoted.value, signedValue, Int.natAbs_natCast, Option.some.injEq]
    congr 1

theorem substring_value_eq (w : World) (data : Bytes) (start : Int) (count : Option Int) :
    substringValue ((Denoted.bytes data).value w) (signedValue start) (count.map signedValue) =
      (substring data start count).map (·.value w) := by
  have hnegative : ∀ x : Int, (signedValue x).negative = decide (x < 0) := fun _ => rfl
  have hcount : (count.map signedValue).any (·.negative) = count.any fun x => decide (x < 0) := by
    cases count <;> rfl
  unfold substringValue substring
  rw [hnegative, hcount]
  by_cases hbad : start < 0 ∨ count.any (fun x => decide (x < 0)) = true
  · rw [if_pos (by simpa using hbad), if_pos hbad]
    rfl
  · rw [if_neg (by simpa using hbad), if_neg hbad]
    rw [not_or] at hbad
    have hstart : (signedValue start).number = start.toNat := by
      show start.natAbs = start.toNat
      omega
    have hdrop : data.drop (min (signedValue start).number data.length) =
        data.drop start.toNat := by
      rw [hstart]
      rcases Nat.le_total start.toNat data.length with hle | hge
      · rw [Nat.min_eq_left hle]
      · rw [Nat.min_eq_right hge, List.drop_of_length_le (Nat.le_refl _),
          List.drop_of_length_le hge]
    simp only [Denoted.value, hdrop, Option.map_some, Option.some.injEq, Value.mk.injEq, true_and]
    cases count with
    | none => simp
    | some k =>
      have hk : k.natAbs = k.toNat := by
        have := hbad.2
        simp at this
        omega
      simp only [Option.map_some, Option.elim_some, signedValue, hk]
      rcases Nat.le_total (data.drop start.toNat).length k.toNat with hle | hge
      · rw [Nat.min_eq_left hle, List.take_length, List.take_of_length_le hle]
      · rw [Nat.min_eq_right hge]

/-- The functions of the machine on runtime values are the functions of the language. -/
theorem function_value_eq (w : World) (n : Instruction) (c : Context) (position last : Nat)
    {ds : List Denoted}
    {results : List (Value × Option Nat)} {event : TreeEvent}
    (hplain : n.function.isPlain = true) (hshape : CallShape n.function ds)
    (hresults : ds.mapM (argumentValue w n.function) = some results)
    (hevent : ds = [] → w.eventOf c = some event) :
    functionValue w.patternCapacity event n (results.map (·.1)) =
      (denoteCall w n.call c position last ds).map (·.value w) := by
  cases hcase : n.function <;> rw [hcase] at hplain hshape hresults <;>
    try (simp [Fn.isPlain] at hplain; done)
  case len =>
    rcases hshape with rfl | ⟨data, rfl⟩ | ⟨data, rfl⟩
    · simp only [List.mapM_nil, pure, Option.some.injEq] at hresults
      subst hresults
      simp only [List.map_nil, functionValue, hcase, denoteCall, Instruction.call, hevent rfl, bind,
        Option.bind_some]
      exact length_value_eq w _
    · simp [argumentValue] at hresults
      subst hresults
      simpa [functionValue, hcase, denoteCall, Instruction.call, Denoted.value] using
        length_value_eq w data
    · simp [argumentValue] at hresults
      subst hresults
      simpa [functionValue, hcase, denoteCall, Instruction.call, Denoted.value] using
        length_value_eq w data
  case not =>
    rcases hshape with ⟨value, rfl⟩ | ⟨set, rfl⟩
    · simp [argumentValue] at hresults
      subst hresults
      cases value <;>
        simp [functionValue, hcase, denoteCall, Instruction.call, Denoted.value, Value.truth]
    · simp [argumentValue] at hresults
      subst hresults
      simp only [List.map_cons, List.map_nil, functionValue, hcase, denoteCall, Instruction.call,
        Denoted.value, Value.truth, World.truth, Option.map_some]
      by_cases hempty : (w.members set).length = 0 <;> simp [hempty]
  case substr =>
    rcases hshape with ⟨data, start, rfl⟩ | ⟨data, start, count, rfl⟩
    · simp [argumentValue] at hresults
      subst hresults
      simpa [functionValue, hcase, denoteCall, Instruction.call, Denoted.value, signedValue] using
        substring_value_eq w data start none
    · simp [argumentValue] at hresults
      subst hresults
      simpa [functionValue, hcase, denoteCall, Instruction.call, Denoted.value, signedValue] using
        substring_value_eq w data start (some count)
  case starts =>
    obtain ⟨a, b, rfl⟩ := hshape
    simp [argumentValue] at hresults
    subst hresults
    have hprefix : decide (b <+: a) = b.isPrefixOf a := by
      rw [Bool.eq_iff_iff, decide_eq_true_iff, List.isPrefixOf_iff_prefix]
    simp [functionValue, hcase, denoteCall, Instruction.call, Denoted.value, searchValue, hprefix]
  case ends =>
    obtain ⟨a, b, rfl⟩ := hshape
    simp [argumentValue] at hresults
    subst hresults
    have hsuffix : decide (b <:+ a) = b.isSuffixOf a := by
      rw [Bool.eq_iff_iff, decide_eq_true_iff, List.isSuffixOf_iff_suffix]
    simp [functionValue, hcase, denoteCall, Instruction.call, Denoted.value, searchValue, hsuffix]
  case contains =>
    obtain ⟨a, b, rfl⟩ := hshape
    simp [argumentValue] at hresults
    subst hresults
    simp only [List.map_cons, List.map_nil, functionValue, hcase, denoteCall, Instruction.call,
      Denoted.value, searchValue]
    simp only [ne_eq, not_true_eq_false, or_self, if_false, reduceCtorEq]
    split <;> simp

/-- The values that a called frame passes on. -/
theorem called_values {f : Frame} {i c position last : Nat} {args : List Nat}
    {results : List (Value × Option Nat)} (hcalled : f.Called s i c position last args results)
    {g : Nat → Value} (hg : results.map (·.1) = args.map g) :
    ∃ extra, [f.a, f.b, f.c] = args.map g ++ extra := by
  refine ⟨[f.a, f.b, f.c].drop results.length, ?_⟩
  rw [← hg, ← hcalled.values, List.take_append_drop]

theorem length_of_kind {data : Bytes} {d : Denoted} (h : lengthOf data = some d) :
    d.kind = .number := by
  unfold lengthOf at h
  split at h
  · cases h
  · cases h
    rfl

theorem substring_kind {data : Bytes} {start : Int} {count : Option Int} {d : Denoted}
    (h : substring data start count = some d) : d.kind = .bytes := by
  unfold substring at h
  split at h
  · cases h
  · cases h
    rfl

theorem node_function_kind {w : World} {function : Fn} {event : TreeEvent} {d : Denoted}
    (h : w.nodeFunction function event = some d) : d.kind = function.type := by
  cases function <;> simp only [World.nodeFunction, reduceCtorEq] at h
  case value =>
    cases h
    rfl
  case tag =>
    cases h
    rfl
  case constructed =>
    obtain ⟨format, -, rfl⟩ := Option.map_eq_some_iff.mp h
    rfl
  case tagClass =>
    obtain ⟨tags, -, h⟩ := Option.bind_eq_some_iff.mp h
    obtain ⟨decompose, -, h⟩ := Option.bind_eq_some_iff.mp h
    obtain ⟨number, -, h⟩ := Option.bind_eq_some_iff.mp h
    cases h
    rfl
  case number =>
    obtain ⟨tags, -, h⟩ := Option.bind_eq_some_iff.mp h
    obtain ⟨decompose, -, h⟩ := Option.bind_eq_some_iff.mp h
    obtain ⟨number, -, h⟩ := Option.bind_eq_some_iff.mp h
    cases h
    rfl

theorem convert_kind {w : World} {call : CallSpec} (htype : call.type = call.function.type)
    (hfunction : call.function.isConversion = true) {event : Option TreeEvent} {data : Bytes}
    {d : Denoted} (h : w.convert call event data = some d) : d.kind = call.function.type := by
  obtain ⟨hook, -, h⟩ := Option.bind_eq_some_iff.mp h
  obtain ⟨decode, -, h⟩ := Option.bind_eq_some_iff.mp h
  obtain ⟨result, -, h⟩ := Option.bind_eq_some_iff.mp h
  split at h
  · cases h
  · rename_i hkind
    rw [not_not, htype] at hkind
    split at h
    · rename_i hnumber
      cases h
      rw [hkind] at hnumber
      exact (Option.some.inj hnumber).symm
    · rename_i hnumber
      split at h
      · cases h
        rw [hkind] at hnumber
        cases hcase : call.function <;> rw [hcase] at hfunction hnumber <;>
          simp [Fn.isConversion, Fn.type] at hfunction hnumber
        rfl
      · cases h

/-- A call has a value of the type of its function. -/
theorem denote_call_kind {w : World} {call : CallSpec} (htype : call.type = call.function.type)
    {c : Context} {position last : Nat} {ds : List Denoted} {d : Denoted}
    (hshape : CallShape call.function ds)
    (hd : denoteCall w call c position last ds = some d) : d.kind = call.type := by
  rw [htype]
  obtain ⟨function, hookId, type⟩ := call
  -- the calls that read a candidate: their own context, or the one node of a sequence
  have hcontext : ∀ function', (do w.nodeFunction function' (← w.eventOf c)) = some d →
      d.kind = function'.type := by
    intro function' hcall
    obtain ⟨event, -, hcall⟩ := Option.bind_eq_some_iff.mp hcall
    exact node_function_kind hcall
  have hselected : ∀ set, (do
      let event ← w.eventOf (← w.single set)
      if function.isConversion then
        w.convert ⟨function, hookId, type⟩ (some event) event.element.value
      else w.nodeFunction function event) = some d → d.kind = function.type := by
    intro set hcall
    obtain ⟨i, -, hcall⟩ := Option.bind_eq_some_iff.mp hcall
    obtain ⟨event, -, hcall⟩ := Option.bind_eq_some_iff.mp hcall
    split at hcall
    · rename_i hconversion
      exact convert_kind htype hconversion hcall
    · exact node_function_kind hcall
  cases function <;> simp only [CallShape] at hshape
  case position | last =>
    subst hshape
    cases hd
    rfl
  case count | «exists» | empty =>
    obtain ⟨set, rfl⟩ := hshape
    cases hd
    rfl
  case value | tag | constructed | tagClass | number =>
    rcases hshape with rfl | ⟨set, rfl⟩
    · exact hcontext _ hd
    · exact hselected set hd
  case num | bcd | text | date =>
    rcases hshape with ⟨set, rfl⟩ | ⟨data, rfl⟩
    · exact hselected set hd
    · exact convert_kind htype rfl hd
  case len =>
    rcases hshape with rfl | ⟨data, rfl⟩ | ⟨data, rfl⟩
    · obtain ⟨event, -, hd⟩ := Option.bind_eq_some_iff.mp hd
      exact length_of_kind hd
    · exact length_of_kind hd
    · exact length_of_kind hd
  case not =>
    rcases hshape with ⟨value, rfl⟩ | ⟨set, rfl⟩
    · cases hd
      rfl
    · cases hd
      rfl
  case substr =>
    rcases hshape with ⟨data, start, rfl⟩ | ⟨data, start, count, rfl⟩
    · exact substring_kind hd
    · exact substring_kind hd
  case contains =>
    obtain ⟨a, b, rfl⟩ := hshape
    simp only [denoteCall] at hd
    split at hd
    · cases hd
    · cases hd
      rfl
  case starts | ends | mask | range =>
    obtain ⟨a, b, rfl⟩ := hshape
    cases hd
    rfl

/-- A call of a plain function gives the value of its denotation. -/
theorem plain_answered (h : s.Ready forest) {i : Nat} (hi : i < s.program.count)
    {args : List Nat} (hwalk : s.program.argumentWalk 2 (s.program.get i).left [] = .ok (some args))
    (hargs : ∀ a ∈ args, a < i) {c position last : Nat} (hc : s.Live c) {ds : List Denoted}
    {results : List (Value × Option Nat)}
    (hplain : (s.program.get i).function.isPlain = true)
    (htype : (s.program.get i).type = (s.program.get i).function.type)
    (hshape : CallShape (s.program.get i).function ds) (hlength : ds.length = args.length)
    (hresults : ds.mapM (argumentValue (s.world forest) (s.program.get i).function) = some results)
    (hselected : selection results = none) {g : Nat → Value}
    (hg : results.map (·.1) = args.map g) :
    ∃ cost, ∀ vm f, vm.Fits s → f.Called s i c position last args results →
      Replies s forest vm
        (denoteCall (s.world forest) (s.program.get i).call (s.contextAt c) position last ds) cost
        (scalarCall s vm f (s.program.get i)) := by
  let n := s.program.get i
  let event := (s.world forest).eventOf (s.contextAt c)
  obtain ⟨cost, hrun⟩ := function_eval_spec hwalk s.patternCapacity (event.getD emptyEvent)
    (args.map g)
  refine ⟨cost, fun vm f hfits hcalled => ?_⟩
  have hcontext : s.Live f.context := by rw [hcalled.context]; exact hc
  have hevent : callEvent s f = .ok event := by
    rw [call_event_eq h hcontext, hcalled.selected, hselected, hcalled.context]
    rfl
  have hstart : scalarCall s vm f n = (do
      let event ←
        if n.function = .len ∧ f.args.length = 0 then (candidateEvent n event).map some
        else .ok event
      let values ← storeArguments vm.values f.args [f.a, f.b, f.c]
      functionEval s.program s.patternCapacity (event.getD emptyEvent) n values vm.table
        vm.meter >>= fun x => .ok ({ f with value := x.1 },
          { vm with values := values, table := x.2.1, meter := x.2.2 })) := by
    unfold scalarCall
    rw [hevent]
    cases hcase : n.function <;> rw [hcase] at hplain <;>
      first
        | rfl
        | simp [Fn.isPlain] at hplain
  obtain ⟨extra, hextra⟩ := called_values hcalled hg
  obtain ⟨values, hstore, hsize, hin, -⟩ := @store_arguments_spec g extra args vm.values
    (fun a ha => by have := hargs a ha; rw [hfits.values]; omega)
  -- the application, once the candidate is there and the arguments are stored
  have happly : (ds = [] → event = some (event.getD emptyEvent)) →
      Replies s forest vm
        (denoteCall (s.world forest) n.call (s.contextAt c) position last ds) cost (do
          let values ← storeArguments vm.values f.args [f.a, f.b, f.c]
          functionEval s.program s.patternCapacity (event.getD emptyEvent) n values vm.table
            vm.meter >>= fun x => .ok ({ f with value := x.1 },
              { vm with values := values, table := x.2.1, meter := x.2.2 })) := by
    intro hpresent
    have hvalue := function_value_eq (s.world forest) n (s.contextAt c) position last hplain
      hshape hresults hpresent
    rw [hg] at hvalue
    rw [hcalled.args, hextra, hstore]
    have hslots : ∀ a ∈ args, a < values.size := by
      intro a ha
      have := hargs a ha
      rw [hsize, hfits.values]
      omega
    have hnone : functionValue s.patternCapacity (event.getD emptyEvent) n (args.map g) = none →
        denoteCall (s.world forest) n.call (s.contextAt c) position last ds = none := by
      intro hnone
      rw [← Option.map_eq_none_iff, ← hvalue]
      exact hnone
    refine (hrun values vm.table vm.meter hfits.table hslots (List.map_congr_left hin)).bind
      (fun e => Reports.mono (fun hfails => hfails.imp id hnone) e) ?_
    · rintro ⟨value, table, meter⟩ ⟨hsome, htable, hspent⟩
      rw [show s.patternCapacity = (s.world forest).patternCapacity from rfl, hvalue,
        Option.map_eq_some_iff] at hsome
      obtain ⟨d, hd, rfl⟩ := hsome
      refine ⟨⟨by rw [hsize]; exact hfits.values, htable, hfits.frames⟩, rfl, hspent, d, hd, ?_⟩
      have hkind : d.kind = n.type := denote_call_kind htype hshape hd
      cases d with
      | nodes set =>
        have hnode : Kind.node = n.function.type := hkind.trans htype
        cases hcase : n.function <;> rw [hcase] at hplain hnode <;>
          simp [Fn.isPlain, Fn.type] at hplain hnode
      | _ => exact ⟨rfl, by rw [hcalled.out]; rfl⟩
  rw [hstart]
  by_cases hcandidate : n.function = .len ∧ f.args.length = 0
  · rw [if_pos hcandidate]
    obtain rfl : ds = [] := by
      rw [← List.length_eq_zero_iff, hlength, ← hcalled.args]
      exact hcandidate.2
    cases hpresent : event with
    | none =>
      refine query_error_meets.mpr (.inr ?_)
      have hnone : (s.world forest).eventOf (s.contextAt c) = none := hpresent
      have hlen : (s.program.get i).function = .len := hcandidate.1
      simp [denoteCall, Instruction.call, hlen, hnone]
    | some e =>
      have hreplies := happly fun _ => by rw [hpresent]; rfl
      rw [hpresent] at hreplies
      exact hreplies
  · rw [if_neg hcandidate]
    refine happly fun hempty => ?_
    rw [hempty] at hshape
    refine absurd ⟨?_, ?_⟩ hcandidate
    · cases hcase : n.function <;> rw [hcase] at hplain hshape <;>
        simp [Fn.isPlain, CallShape] at hplain hshape
    · rw [hcalled.args, ← hlength, hempty]
      rfl

/-- The test of `tag-mask` and `tag-range`. -/
def Fn.admitsTag (function : Fn) (a b tag : Bytes) : Bool :=
  if function = .mask then tag.length = a.length && maskTest tag a b
  else bytesCompare tag a ≠ .lt && bytesCompare tag b ≠ .gt

theorem tag_value_truth {function : Fn} {a b : Bytes}
    (hwidth : function = .mask → a.length = b.length) (tag : Bytes) :
    ∃ v, tagValue function tag a b true = some v ∧ v.truth = function.admitsTag a b tag := by
  have htruth : ∀ b : Bool, ({ number := b.toNat } : Value).truth = b := by
    intro b
    cases b <;> rfl
  unfold tagValue Fn.admitsTag
  by_cases hmask : function = .mask
  · simp only [if_pos hmask, if_neg (not_not.mpr (hwidth hmask)), Bool.and_true]
    by_cases hlength : a.length = tag.length
    · rw [if_neg (not_not.mpr hlength)]
      exact ⟨_, rfl, by rw [htruth]; simp [hlength]⟩
    · rw [if_pos hlength]
      exact ⟨_, rfl, by simp [Value.truth, show ¬ tag.length = a.length from fun h => hlength h.symm]⟩
  · simp only [if_neg hmask, Bool.and_true]
    exact ⟨_, rfl, htruth _⟩

/-- The child loop of `tag-mask` and `tag-range` decides the children it visits. -/
theorem select_loop_spec (h : s.Ready forest) {i : Nat} {args : List Nat}
    (hwalk : s.program.argumentWalk 2 (s.program.get i).left [] = .ok (some args))
    (hfunction : (s.program.get i).function = .mask ∨ (s.program.get i).function = .range)
    {a b : Bytes} (hwidth : (s.program.get i).function = .mask → a.length = b.length) {c : Nat}
    (hc : s.Live c) (list : List Nat) (hlist : ∀ k ∈ list, k < s.elements) :
    ∃ cost, ∀ values out table meter, out.size = s.nodeCapacity + 1 →
      table.size = s.patternCapacity → (∀ x ∈ args, x < values.size) →
      args.map values.cell = [{ kind := .bytes, data := a }, { kind := .bytes, data := b }] →
      Meets (selectLoop s values { s.program.get i with anchor := 0 } c list out table meter)
        (Reports (meter.left < cost)) fun x =>
          x.1.size = s.nodeCapacity + 1 ∧ x.2.1.size = s.patternCapacity ∧
            Spent cost meter x.2.2 ∧
            ∀ k, x.1.cell k =
              if k ∈ list ∧ (s.world forest).parentOf k = s.contextAt c then
                (s.world forest).nodes[k]?.any fun node =>
                  (s.program.get i).function.admitsTag a b node.item.element.tag
              else out.cell k := by
  have hroom := h.room
  induction list with
  | nil =>
    refine ⟨0, fun values out table meter hout htable _ _ => ?_⟩
    simp [selectLoop, hout, htable, Spent.zero]
  | cons k rest ih =>
    rw [List.forall_mem_cons] at hlist
    obtain ⟨cost, hrun⟩ := ih hlist.2
    obtain ⟨node, hnode, hcell, hread⟩ := h.listed hlist.1
    have hparent : (s.world forest).parentOf k = node.parent := by
      simp [World.parentOf, Session.world, hnode]
    have hstored : (retain s.nodeCapacity node).parent = c ↔ node.parent = s.contextAt c :=
      h.parent_eq_iff hnode hlist.1 hc
    -- only children of the context are tested
    by_cases hchild : node.parent = s.contextAt c
    · obtain ⟨costF, hrunF⟩ := function_eval_spec (p := s.program)
        (n := { s.program.get i with anchor := 0 }) hwalk s.patternCapacity (nodeEvent node)
        [{ kind := .bytes, data := a }, { kind := .bytes, data := b }]
      obtain ⟨v, hv, htruth⟩ := tag_value_truth hwidth node.item.element.tag
      have hvalue : functionValue s.patternCapacity (nodeEvent node)
          { s.program.get i with anchor := 0 }
          [{ kind := .bytes, data := a }, { kind := .bytes, data := b }] = some v := by
        have hsame : ({ s.program.get i with anchor := 0 } : Instruction).function =
            (s.program.get i).function := rfl
        rw [← hv]
        unfold functionValue
        rw [hsame]
        rcases hfunction with hcase | hcase <;> simp [hcase, nodeEvent, Item.event]
      refine ⟨costF + cost, fun values out table meter hout htable hslots hvalues => ?_⟩
      unfold selectLoop
      rw [hread]
      show Meets (if (retain s.nodeCapacity node).parent ≠ c then _ else _) _ _
      rw [if_neg (not_not.mpr (hstored.mpr hchild))]
      refine (hrunF values table meter htable hslots hvalues).bind
        (fun e => Reports.mono (fun hfails => ?_) e) ?_
      · rcases hfails with hlow | hnone
        · omega
        · rw [hvalue] at hnone
          cases hnone
      · rintro ⟨value, table', meter'⟩ ⟨hsome, htable', hspent⟩
        obtain rfl : v = value := Option.some.inj (hvalue.symm.trans hsome)
        have hklt := hlist.1
        dsimp only
        rw [Area.write_of_lt _ (by omega), htruth]
        refine Meets.mono (hrun values (out.put k _) table' meter' hout htable' hslots hvalues)
          (fun e => Reports.mono (fun hlow => ?_) e) ?_
        · have hleft := hspent.1
          dsimp only at hleft
          omega
        rintro ⟨out', table'', meter''⟩ ⟨hout', htable'', hspent', hcells⟩
        refine ⟨hout', htable'', hspent.trans hspent', fun j => ?_⟩
        rw [hcells j]
        have hat : (s.world forest).nodes[k]? = some node := hnode
        by_cases hj : j = k
        · subst hj
          by_cases hrest : j ∈ rest <;> simp [hrest, hparent, hchild, hat]
        · simp [hj, Area.put_cell_of_ne]
    · refine ⟨cost, fun values out table meter hout htable hslots hvalues => ?_⟩
      unfold selectLoop
      rw [hread]
      show Meets (if (retain s.nodeCapacity node).parent ≠ c then _ else _) _ _
      rw [if_pos (mt hstored.mp hchild)]
      refine Meets.mono (hrun values out table meter hout htable hslots hvalues)
        (fun e he => he) ?_
      rintro ⟨out', table', meter'⟩ ⟨hout', htable', hspent, hcells⟩
      refine ⟨hout', htable', hspent, fun j => ?_⟩
      rw [hcells j]
      by_cases hj : j = k
      · subst hj
        simp [hparent, hchild]
      · simp [hj]

/-- A call that selects by tag gives the set of its denotation. -/
theorem tag_set_answered (h : s.Ready forest) {i : Nat} (hi : i < s.program.count)
    {args : List Nat} (hwalk : s.program.argumentWalk 2 (s.program.get i).left [] = .ok (some args))
    (hargs : ∀ x ∈ args, x < i) {c position last : Nat} (hc : s.Live c) {a b : Bytes}
    (hfunction : (s.program.get i).function = .mask ∨ (s.program.get i).function = .range)
    (htype : (s.program.get i).type = .node)
    (hwidth : (s.program.get i).function = .mask → a.length = b.length)
    {results : List (Value × Option Nat)}
    (hresults : results.map (·.1) =
      [{ kind := .bytes, data := a }, { kind := .bytes, data := b }]) {g : Nat → Value}
    (hg : results.map (·.1) = args.map g) :
    ∃ cost, ∀ vm f, vm.Fits s → f.Called s i c position last args results →
      Replies s forest vm
        (denoteCall (s.world forest) (s.program.get i).call (s.contextAt c) position last
          [.bytes a, .bytes b]) cost (scalarCall s vm f (s.program.get i)) := by
  obtain ⟨cost, hrun⟩ := select_loop_spec h hwalk hfunction hwidth hc (List.range s.elements)
    (fun k hk => List.mem_range.mp hk)
  refine ⟨cost, fun vm f hfits hcalled => ?_⟩
  have hcontext : s.Live f.context := by rw [hcalled.context]; exact hc
  have htwo : [f.a, f.b] = args.map g := by
    have hlength : results.length = 2 := by simpa using congrArg List.length hresults
    have hvalues := hcalled.values
    rw [hlength, hg] at hvalues
    exact hvalues
  obtain ⟨values, hstore, hsize, hin, -⟩ := @store_arguments_spec g [] args vm.values
    (fun x hx => by have := hargs x hx; rw [hfits.values]; omega)
  have hslots : ∀ x ∈ args, x < values.size := by
    intro x hx
    have := hargs x hx
    rw [hsize, hfits.values]
    omega
  have hstart : scalarCall s vm f (s.program.get i) =
      selectLoop s values { s.program.get i with anchor := 0 } c (List.range s.elements) f.out
        vm.table vm.meter >>= fun x => .ok
          ({ f with out := x.1, value := { f.value with kind := .node } },
            { vm with values := values, table := x.2.1, meter := x.2.2 }) := by
    unfold scalarCall
    rw [call_event_eq h hcontext, hcalled.args, htwo, ← List.append_nil (args.map g), hstore,
      hcalled.context]
    rcases hfunction with hcase | hcase <;> rw [hcase] <;> rfl
  have hmeaning : denoteCall (s.world forest) (s.program.get i).call (s.contextAt c) position last
      [.bytes a, .bytes b] = some ((s.world forest).childrenWith (s.contextAt c)
        ((s.program.get i).function.admitsTag a b)) := by
    rcases hfunction with hcase | hcase
    · simp only [denoteCall, Instruction.call, hcase]
      rfl
    · simp only [denoteCall, Instruction.call, hcase]
      rfl
  rw [hstart, hmeaning]
  refine (hrun values f.out vm.table vm.meter (by rw [hcalled.out]; rfl) hfits.table hslots
    (by rw [List.map_congr_left hin, ← hg, hresults])).bind (fun e => Reports.mono Or.inl e) ?_
  rintro ⟨out, table, meter⟩ ⟨hout, htable, hspent, hcells⟩
  refine ⟨⟨by rw [hsize]; exact hfits.values, htable, hfits.frames⟩, rfl, hspent, _, rfl, ?_, hout,
    fun k hk => ?_⟩
  · rw [hcalled.value, htype]
  · dsimp only
    rw [hcells k, hcalled.out]
    unfold Session.member
    by_cases hlt : k < s.elements
    · obtain ⟨node, hnode, -, -⟩ := h.listed hlt
      have hat : (s.world forest).nodes[k]? = some node := hnode
      have hparent : (s.world forest).parentOf k = node.parent := by
        simp [World.parentOf, hat]
      by_cases hchild : node.parent = s.contextAt c <;> simp [hlt, hat, hparent, hchild]
    · simp [hlt]

/-- What a call keeps of the argument at instruction `a`. -/
def Session.argument (s : Session) (forest : Forest Item) (i c position last a : Nat) :
    Option (Value × Option Nat) :=
  (s.meaning forest a c position last).bind
    (argumentValue (s.world forest) (s.program.get i).function)

/-- The equal literals of `tag-mask` have equal lengths. -/
theorem mask_width (h : s.Ready forest) {i : Nat} (hi : i < s.program.count) {args : List Nat}
    (hargs : ∀ a ∈ args, a < i) (htyped : callTyped s.program (s.program.get i) args = true)
    (hmask : (s.program.get i).function = .mask) {c position last : Nat} {a b : Bytes}
    (hds : args.mapM (fun j => s.meaning forest j c position last) =
      some [.bytes a, .bytes b]) : a.length = b.length := by
  rcases args with _ | ⟨x, _ | ⟨y, _ | ⟨z, rest⟩⟩⟩ <;> simp [callTyped, hmask] at htyped
  obtain ⟨⟨⟨-, hx⟩, hy⟩, hsize⟩ := htyped
  have hliteral : ∀ j, j < i → (s.program.get j).op = .bytes →
      s.meaning forest j c position last = some (.bytes (s.program.data (s.program.get j))) ∧
        (s.program.data (s.program.get j)).length = (s.program.get j).dataSize := by
    intro j hj hop
    have hjc : j < s.program.count := by omega
    refine ⟨?_, Program.bytes_at_length (h.accepted.facts hjc).data⟩
    rw [Session.meaning, h.accepted.expression_eq hjc]
    simp only [Program.compose, hop, denote]
  obtain ⟨hmx, hlx⟩ := hliteral x (hargs x (by simp)) hx
  obtain ⟨hmy, hly⟩ := hliteral y (hargs y (by simp)) hy
  simp [hmx, hmy] at hds
  rw [← hds.1, ← hds.2, hlx, hly, hsize]

/-- A call that wants one node keeps the node its argument selects. -/
theorem selected_argument {w : World} {function : Fn}
    (hfunction : function.isNodeFunction = true ∨ function.isConversion = true)
    {set : Context → Bool} {results : List (Value × Option Nat)}
    (hresults : [Denoted.nodes set].mapM (argumentValue w function) = some results) :
    ∃ i event v, w.single set = some i ∧ w.eventOf (some i) = some event ∧
      results = [(v, some i)] ∧ (function.isConversion = true → v.data = event.element.value) := by
  have hargument : argumentValue w function (.nodes set) = (do
      let i ← w.single set
      let event ← w.eventOf (some i)
      if function.isConversion then
        return ({ kind := .bytes, number := 1, data := event.element.value }, some i)
      else return ((Denoted.nodes set).value w, some i)) := by
    cases function <;>
      first
        | rfl
        | simp [Fn.isNodeFunction, Fn.isConversion] at hfunction
  rw [mapM_eq_some_iff, List.map_singleton] at hresults
  obtain ⟨result, rfl⟩ : ∃ result, results = [result] := by
    rcases results with _ | ⟨r, _ | ⟨r', rest⟩⟩ <;> simp at hresults
    exact ⟨r, rfl⟩
  rw [List.map_singleton, List.cons.injEq, hargument] at hresults
  obtain ⟨i, hi, hsome⟩ := Option.bind_eq_some_iff.mp hresults.1
  obtain ⟨event, hevent, hsome⟩ := Option.bind_eq_some_iff.mp hsome
  cases hconversion : function.isConversion <;> rw [hconversion] at hsome <;> cases hsome
  · exact ⟨i, event, _, hi, hevent, rfl, by simp⟩
  · exact ⟨i, event, _, hi, hevent, rfl, fun _ => rfl⟩

/-- The other calls select no node. -/
theorem plain_selection {w : World} {function : Fn} (hplain : function.isPlain = true)
    {ds : List Denoted} (hshape : CallShape function ds) {results : List (Value × Option Nat)}
    (hresults : ds.mapM (argumentValue w function) = some results) :
    selection results = none := by
  cases function <;> simp only [Fn.isPlain, Bool.false_eq_true, CallShape] at hplain hshape
  case len =>
    rcases hshape with rfl | ⟨data, rfl⟩ | ⟨data, rfl⟩ <;> simp [argumentValue] at hresults <;>
      subst hresults <;> rfl
  case not =>
    rcases hshape with ⟨value, rfl⟩ | ⟨set, rfl⟩ <;> simp [argumentValue] at hresults <;>
      subst hresults <;> rfl
  case substr =>
    rcases hshape with ⟨data, start, rfl⟩ | ⟨data, start, count, rfl⟩ <;>
      simp [argumentValue] at hresults <;> subst hresults <;> rfl
  case starts | ends | contains =>
    obtain ⟨a, b, rfl⟩ := hshape
    simp [argumentValue] at hresults
    subst hresults
    rfl

section Answered

variable {i c position last : Nat} {args : List Nat} {ds : List Denoted}
  {results : List (Value × Option Nat)}

theorem Frame.Called.live {f : Frame} (h : f.Called s i c position last args results)
    (hc : s.Live c) : s.Live f.context := by
  rw [h.context]
  exact hc

theorem Frame.Called.filled {f : Frame} (h : f.Called s i c position last args results) :
    f.out.size = s.nodeCapacity + 1 := by
  rw [h.out]
  rfl

/-- The frame keeps the value of the only argument. -/
theorem Frame.Called.only {f : Frame} {v : Value} {selected : Option Nat}
    (h : f.Called s i c position last args results) (hresults : results = [(v, selected)]) :
    f.a = v := by
  have hvalues := h.values
  rw [hresults] at hvalues
  simpa using hvalues

/-- A frame that takes a value over, which is what the call denotes. -/
theorem value_answered {vm : Vm} {f : Frame} {meaning : Option Denoted} {value : Value}
    (hfits : vm.Fits s) (d : Denoted) (hmeaning : meaning = some d)
    (hanswers : ({ f with value := value } : Frame).Answers s forest d) :
    Replies s forest vm meaning 0 (.ok ({ f with value := value }, vm)) :=
  ⟨hfits, rfl, Spent.zero _, d, hmeaning, hanswers⟩

/-- The functions of a place in a set and of a set as a whole. -/
def Fn.isImmediate : Fn → Bool
  | .position | .last | .count | .exists | .empty => true
  | _ => false

/-- They are answered by what the frame has. -/
theorem immediate_answered (h : s.Ready forest) (hc : s.Live c)
    (himmediate : (s.program.get i).function.isImmediate = true)
    (hshape : CallShape (s.program.get i).function ds)
    (hresults : ds.mapM (argumentValue (s.world forest) (s.program.get i).function) = some results)
    {vm : Vm} {f : Frame} (hfits : vm.Fits s) (hcalled : f.Called s i c position last args results) :
    Replies s forest vm
      (denoteCall (s.world forest) (s.program.get i).call (s.contextAt c) position last ds) 0
      (scalarCall s vm f (s.program.get i)) := by
  unfold scalarCall
  rw [call_event_eq h (hcalled.live hc)]
  cases hcase : (s.program.get i).function <;> rw [hcase] at hshape hresults himmediate <;>
    simp only [Fn.isImmediate, Bool.false_eq_true] at himmediate
  case position =>
    obtain rfl : ds = [] := hshape
    refine value_answered hfits (.int position) ?_ ⟨?_, hcalled.filled⟩
    · simp only [denoteCall, Instruction.call, hcase]
    · simp [Denoted.value, hcalled.position]
  case last =>
    obtain rfl : ds = [] := hshape
    refine value_answered hfits (.int last) ?_ ⟨?_, hcalled.filled⟩
    · simp only [denoteCall, Instruction.call, hcase]
    · simp [Denoted.value, hcalled.last]
  case count =>
    obtain ⟨set, rfl⟩ := hshape
    have hone := hcalled.only (by simpa [argumentValue] using hresults.symm)
    refine value_answered hfits (.int ((s.world forest).members set).length) ?_
      ⟨?_, hcalled.filled⟩
    · simp only [denoteCall, Instruction.call, hcase]
    · simp [Denoted.value, hone]
  case «exists» =>
    obtain ⟨set, rfl⟩ := hshape
    have hone := hcalled.only (by simpa [argumentValue] using hresults.symm)
    refine value_answered hfits (.bool ((s.world forest).truth (.nodes set))) ?_
      ⟨?_, hcalled.filled⟩
    · simp only [denoteCall, Instruction.call, hcase, World.truth]
    · simp [Denoted.value, hone]
  case empty =>
    obtain ⟨set, rfl⟩ := hshape
    have hone := hcalled.only (by simpa [argumentValue] using hresults.symm)
    refine value_answered hfits (.bool (!(s.world forest).truth (.nodes set))) ?_
      ⟨?_, hcalled.filled⟩
    · simp [denoteCall, Instruction.call, hcase, World.truth]
    · simp [Denoted.value, hone]

/-- A node function of the context or of the node that the argument selects. -/
theorem node_call_answered (h : s.Ready forest) (hi : i < s.program.count)
    (hop : (s.program.get i).op = .call) (hc : s.Live c)
    (hfunction : (s.program.get i).function.isNodeFunction = true) {meaning : Option Denoted}
    (hmeaning : meaning =
      ((s.world forest).eventOf ((selection results).elim (s.contextAt c) some)).bind
        ((s.world forest).nodeFunction (s.program.get i).function)) {vm : Vm} {f : Frame}
    (hfits : vm.Fits s) (hcalled : f.Called s i c position last args results) :
    Replies s forest vm meaning 0 (scalarCall s vm f (s.program.get i)) := by
  have hreplies := node_function_answered h hi hop hfunction hfits (hcalled.live hc)
    hcalled.value hcalled.filled
  rw [hcalled.selected, hcalled.context, ← hmeaning] at hreplies
  exact hreplies

/-- A conversion of octets, with the node that they are the value of where there is one. -/
theorem conversion_call_answered (h : s.Ready forest) (hi : i < s.program.count)
    (hop : (s.program.get i).op = .call) (hc : s.Live c)
    (hfunction : (s.program.get i).function.isConversion = true) {v : Value}
    {selected : Option Nat} (hresults : results = [(v, selected)]) {meaning : Option Denoted}
    (hmeaning : meaning = (s.world forest).convert (s.program.get i).call
      ((s.world forest).eventOf (selected.elim (s.contextAt c) some)) v.data) :
    ∃ cost, ∀ vm f, vm.Fits s → f.Called s i c position last args results →
      Replies s forest vm meaning cost (scalarCall s vm f (s.program.get i)) := by
  obtain ⟨cost, hrun⟩ := conversion_answered h hi hop hfunction hc selected v
  refine ⟨cost, fun vm f hfits hcalled => ?_⟩
  have hselected : f.selected = selected := by
    rw [hcalled.selected, hresults]
    cases selected <;> rfl
  rw [hmeaning]
  exact hrun vm f hfits hcalled.instruction hcalled.context hselected (hcalled.only hresults)
    hcalled.filled

/-- What a frame keeps are the arguments of the call, one by one. -/
theorem argument_values
    (hds : args.map (fun a => s.meaning forest a c position last) = ds.map some)
    (hresults : ds.mapM (argumentValue (s.world forest) (s.program.get i).function) =
      some results) :
    results.map (·.1) =
      args.map fun a => ((s.argument forest i c position last a).elim {} (·.1)) := by
  have hcompose : args.map (s.argument forest i c position last) = results.map some := by
    have hbind : s.argument forest i c position last =
        (fun d => d.bind (argumentValue (s.world forest) (s.program.get i).function)) ∘
          fun a => s.meaning forest a c position last := rfl
    rw [hbind, ← List.map_map, hds, List.map_map, ← mapM_eq_some_iff.mp hresults]
    exact List.map_congr_left fun d _ => rfl
  exact map_of_map_some hcompose fun a _ r hr => by rw [hr]; rfl

/-- `scalar_call` computes the function of the language on evaluated arguments. -/
theorem call_answered (h : s.Ready forest) (hi : i < s.program.count)
    (hop : (s.program.get i).op = .call)
    (hwalk : s.program.argumentWalk 2 (s.program.get i).left [] = .ok (some args))
    (hargs : ∀ a ∈ args, a < i)
    (htype : (s.program.get i).type = (s.program.get i).function.type)
    (htyped : callTyped s.program (s.program.get i) args = true) (hc : s.Live c)
    (hds : args.mapM (fun a => s.meaning forest a c position last) = some ds)
    (hshape : CallShape (s.program.get i).function ds)
    (hresults : ds.mapM (argumentValue (s.world forest) (s.program.get i).function) =
      some results) :
    ∃ cost, ∀ vm f, vm.Fits s → f.Called s i c position last args results →
      Replies s forest vm
        (denoteCall (s.world forest) (s.program.get i).call (s.contextAt c) position last ds) cost
        (scalarCall s vm f (s.program.get i)) := by
  have hmask := @mask_width s forest h i hi args hargs htyped
  rw [mapM_eq_some_iff] at hds
  have hlength : ds.length = args.length := by simpa using (congrArg List.length hds).symm
  have hg := argument_values hds hresults
  cases hcase : (s.program.get i).function
  case position | last | count | «exists» | empty =>
    exact ⟨0, fun vm f hfits hcalled =>
      immediate_answered h hc (by rw [hcase]; rfl) hshape hresults hfits hcalled⟩
  all_goals rw [hcase] at hshape hresults
  case value | tag | constructed | tagClass | number =>
    refine ⟨0, fun vm f hfits hcalled =>
      node_call_answered h hi hop hc (by rw [hcase]; rfl) ?_ hfits hcalled⟩
    rcases hshape with rfl | ⟨set, rfl⟩
    · obtain rfl : results = [] := by simpa using hresults.symm
      simp only [denoteCall, Instruction.call, hcase, selection, List.foldl_nil, Option.elim_none]
      rfl
    · obtain ⟨j, event, v, hsingle, hevent, rfl, -⟩ := selected_argument (.inl rfl) hresults
      have hselection : selection [(v, some j)] = some j := rfl
      simp [denoteCall, Instruction.call, hcase, hselection, hsingle, hevent, Fn.isConversion]
  case num | bcd | text | date =>
    have hconversion := @conversion_call_answered s forest i c position last args results h hi hop
      hc (by rw [hcase]; rfl)
    rcases hshape with ⟨set, rfl⟩ | ⟨data, rfl⟩
    · obtain ⟨j, event, v, hsingle, hevent, rfl, hdata⟩ := selected_argument (.inr rfl) hresults
      refine hconversion rfl ?_
      simp [denoteCall, Instruction.call, hcase, hsingle, hevent, Fn.isConversion, hdata rfl]
    · refine hconversion (by simpa [argumentValue] using hresults.symm) ?_
      simp [denoteCall, Instruction.call, hcase, Denoted.value, Fn.isConversion]
  case len | not | substr | starts | ends | contains =>
    exact plain_answered h hi hwalk hargs hc (by rw [hcase]; rfl) htype (by rw [hcase]; exact hshape)
      hlength (by rw [hcase]; exact hresults) (plain_selection rfl hshape hresults) hg
  case mask | range =>
    obtain ⟨a, b, rfl⟩ := hshape
    refine tag_set_answered h hi hwalk hargs hc (by simp [hcase]) (by rw [htype, hcase]; rfl)
      (fun hfunction => hmask hfunction (mapM_eq_some_iff.mpr hds)) ?_ hg
    have hboth := hresults
    simp [argumentValue] at hboth
    rw [← hboth]
    rfl
  case name | unknown => exact absurd hshape id

end Answered

/-- A call has no meaning where one of its arguments is no single node. -/
theorem denote_call_strict {w : World} {call : CallSpec} {c : Context} {position last : Nat}
    {d : Denoted} {ds : List Denoted} (hshape : CallShape call.function ds) (hd : d ∈ ds)
    (hnone : argumentValue w call.function d = none) :
    denoteCall w call c position last ds = none := by
  obtain ⟨function, hookId, type⟩ := call
  cases d with
  | nodes set =>
    dsimp only at hshape hnone
    have hselected : (do
        let i ← w.single set
        let event ← w.eventOf (some i)
        if function.isConversion then
          return ({ kind := .bytes, number := 1, data := event.element.value }, some i)
        else return ((Denoted.nodes set).value w, some i)) =
          (none : Option (Value × Option Nat)) →
        (do
          let event ← w.eventOf (← w.single set)
          if function.isConversion then
            w.convert ⟨function, hookId, type⟩ (some event) event.element.value
          else w.nodeFunction function event) = (none : Option Denoted) := by
      intro h
      cases hsingle : w.single set with
      | none => rfl
      | some i =>
        cases hevent : w.eventOf (some i) with
        | none => simp [hevent]
        | some event =>
          simp [hsingle, hevent] at h
          split at h <;> cases h
    cases function <;> simp only [CallShape] at hshape
    case position | last => simp [hshape] at hd
    case count | «exists» | empty => cases hnone
    case value | tag | constructed | tagClass | number =>
      rcases hshape with rfl | ⟨set', rfl⟩
      · simp at hd
      · obtain rfl : set = set' := by simpa using hd
        exact hselected hnone
    case num | bcd | text | date =>
      rcases hshape with ⟨set', rfl⟩ | ⟨data, rfl⟩
      · obtain rfl : set = set' := by simpa using hd
        exact hselected hnone
      · simp at hd
    case not => cases hnone
    case len =>
      rcases hshape with rfl | ⟨data, rfl⟩ | ⟨data, rfl⟩ <;> simp at hd
    case substr =>
      rcases hshape with ⟨data, start, rfl⟩ | ⟨data, start, count, rfl⟩ <;> simp at hd
    case starts | ends | contains | mask | range =>
      obtain ⟨a, b, rfl⟩ := hshape
      simp at hd
  | _ => cases hnone

theorem union_over_kind {contexts : List Context} {right : Context → Option Denoted}
    {d : Denoted} (h : unionOver contexts right = some d) : d.kind = .node := by
  obtain ⟨results, -, h⟩ := Option.bind_eq_some_iff.mp h
  cases h
  rfl

theorem keep_from_kind {w : World} {sequence : List Context}
    {predicate : Context → Nat → Option Denoted} {d : Denoted}
    (h : keepFrom w sequence predicate = some d) : d.kind = .node := by
  obtain ⟨results, -, h⟩ := Option.bind_eq_some_iff.mp h
  cases h
  rfl

theorem combine_sets_kind {f : Bool → Bool → Bool} {a b d : Denoted}
    (h : combineSets f a b = some d) : d.kind = .node := by
  obtain ⟨first, -, h⟩ := Option.bind_eq_some_iff.mp h
  obtain ⟨second, -, h⟩ := Option.bind_eq_some_iff.mp h
  cases h
  rfl

/-- An accepted instruction that is no argument list has a value of its type. -/
theorem meaning_kind (h : s.Ready forest) {i : Nat} (hi : i < s.program.count)
    (hop : (s.program.get i).op ≠ .args) {c position last : Nat} {d : Denoted}
    (hd : s.meaning forest i c position last = some d) : d.kind = (s.program.get i).type := by
  induction i using Nat.strong_induction_on generalizing c position last d with
  | _ i ih =>
    have hfacts := h.accepted.facts hi
    rw [Session.meaning, h.accepted.expression_eq hi] at hd
    cases hcase : (s.program.get i).op <;> simp only [Program.compose, hcase, denote] at hd
    case test | self | bytes | string | bool | literal =>
      cases hd
      exact (hfacts.type _ (by rw [hcase]; rfl)).symm
    case root =>
      split at hd <;> simp only [denote] at hd <;> cases hd <;>
        exact (hfacts.type _ (by rw [hcase]; rfl)).symm
    case metadata =>
      obtain ⟨value, -, rfl⟩ := Option.map_eq_some_iff.mp hd
      exact (hfacts.type _ (by rw [hcase]; rfl)).symm
    case variableRef =>
      obtain ⟨-, bound, hkind, hne, hbinding⟩ := h.bound i hi hcase
      have hbindings : (s.world forest).bindings (s.program.get i).variableSlot =
          bound.value (s.world forest) := hbinding
      cases hd
      rw [← hkind, hbindings]
      cases bound <;> rfl
    case child | desc =>
      obtain ⟨left, -, hd⟩ := Option.bind_eq_some_iff.mp hd
      obtain ⟨set, -, hd⟩ := Option.bind_eq_some_iff.mp hd
      rw [union_over_kind hd]
      exact (hfacts.type _ (by rw [hcase]; rfl)).symm
    case filter =>
      obtain ⟨left, -, hd⟩ := Option.bind_eq_some_iff.mp hd
      obtain ⟨set, -, hd⟩ := Option.bind_eq_some_iff.mp hd
      rw [keep_from_kind hd]
      exact (hfacts.type _ (by rw [hcase]; rfl)).symm
    case union | intersect | except =>
      obtain ⟨left, -, hd⟩ := Option.bind_eq_some_iff.mp hd
      obtain ⟨right, -, hd⟩ := Option.bind_eq_some_iff.mp hd
      rw [combine_sets_kind hd]
      exact (hfacts.type _ (by rw [hcase]; rfl)).symm
    case eq | ne | lt | le | gt | ge =>
      obtain ⟨left, -, hd⟩ := Option.bind_eq_some_iff.mp hd
      obtain ⟨right, -, hd⟩ := Option.bind_eq_some_iff.mp hd
      obtain ⟨order, -, rfl⟩ := Option.map_eq_some_iff.mp hd
      exact (hfacts.type _ (by rw [hcase]; rfl)).symm
    case and | or =>
      obtain ⟨left, -, hd⟩ := Option.bind_eq_some_iff.mp hd
      obtain ⟨right, -, hd⟩ := Option.bind_eq_some_iff.mp hd
      cases hd
      exact (hfacts.type _ (by rw [hcase]; rfl)).symm
    case call =>
      obtain ⟨args, hargs, -, hlength, hmem, hadmits, htype, htyped⟩ :=
        h.accepted.call_arguments hi hcase
      rw [hargs, Option.getD_some, denote_of_call _ _ (by simpa using hlength)] at hd
      obtain ⟨ds, hds, hd⟩ := Option.bind_eq_some_iff.mp hd
      rw [List.mapM_map, mapM_eq_some_iff] at hds
      have hkinds : ds.map Denoted.kind = args.map fun a => (s.program.get a).type := by
        refine map_of_map_some hds fun a ha d hd => ?_
        have hlt := (hmem a ha).1
        exact ih a hlt (by omega) (hmem a ha).2 hd
      exact @denote_call_kind _ (s.program.get i).call htype _ _ _ _ _
        (call_shape hadmits htyped hkinds) hd
    case args => exact absurd hcase hop

/-- The frame of a call takes one more argument. -/
theorem Frame.Called.step {f : Frame} {i c position last : Nat} {args : List Nat}
    {results : List (Value × Option Nat)} (hcalled : f.Called s i c position last args results)
    (hlength : results.length ≤ 2) (x : Value × Option Nat) :
    (Frame.setArgument { f with selected := x.2.or f.selected } results.length x.1).Called s i c
      position last args (results ++ [x]) := by
  have hvalues := hcalled.values
  have hselection : x.2.or f.selected = selection (results ++ [x]) := by
    rw [hcalled.selected]
    simp [selection]
  rcases results with _ | ⟨r, _ | ⟨r', _ | ⟨r'', rest⟩⟩⟩
  · exact ⟨hcalled.instruction, hcalled.context, hcalled.position, hcalled.last, hcalled.args,
      hcalled.value, hcalled.out, rfl, hselection⟩
  · refine ⟨hcalled.instruction, hcalled.context, hcalled.position, hcalled.last, hcalled.args,
      hcalled.value, hcalled.out, ?_, hselection⟩
    simpa [Frame.setArgument] using hvalues
  · refine ⟨hcalled.instruction, hcalled.context, hcalled.position, hcalled.last, hcalled.args,
      hcalled.value, hcalled.out, ?_, hselection⟩
    simpa [Frame.setArgument] using hvalues
  · simp at hlength

/-- What both validators say about a call, and the contract of its arguments. -/
structure Calling (s : Session) (forest : Forest Item) (i : Nat) (args : List Nat) : Prop where
  lt : i < s.program.count
  op : (s.program.get i).op = .call
  walk : s.program.argumentWalk 2 (s.program.get i).left [] = .ok (some args)
  length : args.length ≤ 3
  before : ∀ a ∈ args, a < i
  expressions : ∀ a ∈ args, (s.program.get a).op ≠ .args
  evaluates : ∀ a ∈ args, Evaluates s forest a
  admits : (s.program.get i).function.admits args.length = true
  type : (s.program.get i).type = (s.program.get i).function.type
  typed : callTyped s.program (s.program.get i) args = true
  meaning : ∀ c position last, s.meaning forest i c position last =
    (args.mapM fun a => s.meaning forest a c position last) >>=
      denoteCall (s.world forest) (s.program.get i).call (s.contextAt c) position last

/-- An accepted call meets the contract of its arguments. -/
theorem calling (h : s.Ready forest) {i : Nat} (hi : i < s.program.count)
    (hop : (s.program.get i).op = .call)
    (harguments : ∀ a < i, (s.program.get a).op ≠ .args → Evaluates s forest a) :
    ∃ args, Calling s forest i args := by
  obtain ⟨args, hargs, hwalk, hlength, hmem, hadmits, htype, htyped⟩ :=
    h.accepted.call_arguments hi hop
  refine ⟨args, hi, hop, hwalk, hlength, fun a ha => (hmem a ha).1,
    fun a ha => (hmem a ha).2, fun a ha => harguments a (hmem a ha).1 (hmem a ha).2, hadmits, htype,
    htyped, ?_⟩
  intro c position last
  rw [Session.meaning, h.accepted.expression_eq hi]
  simp only [Program.compose, hop, hargs, Option.getD_some]
  rw [denote_of_call _ _ (by simpa using hlength), List.mapM_map]
  rfl

/-- A called frame that holds its meaning completes. -/
theorem answers_complete (h : s.Ready forest) {i c position last top cost : Nat} {vm₀ vm : Vm}
    {f : Frame} {d : Denoted} {fails : Prop} (hanswers : f.Answers s forest d)
    (hfollows : Follows s top cost vm₀ vm) (htop : top ≤ s.program.count)
    (hmeaning : s.meaning forest i c position last = some d)
    (htype : d.kind = (s.program.get i).type) :
    Meets (complete s vm top f) (Reports fails)
      (Completes s forest i c position last top cost vm₀) := by
  cases d with
  | nodes set =>
    exact complete_meets_nodes h hfollows htop hmeaning htype.symm hanswers.1 hanswers.2
  | _ =>
    exact complete_meets_scalar hfollows htop hmeaning htype (by simp [Denoted.kind])
      hanswers.1 hanswers.2

/-- No call marks its own context: a node value has no truth before it completes. -/
theorem answers_unmarked {f : Frame} {d : Denoted} (hanswers : f.Answers s forest d) :
    ¬ (f.value.kind = .node ∧ f.value.truth = true ∧ f.context < s.elements) := by
  rintro ⟨hkind, htruth, -⟩
  cases d with
  | nodes set =>
    rw [hanswers.1] at htruth
    cases htruth
  | _ =>
    rw [hanswers.1, value_kind] at hkind
    cases hkind

namespace Calling

variable {i : Nat} {args : List Nat}

/-- The values of the arguments have the shape of the function. -/
theorem shape (h : s.Ready forest) (hcall : Calling s forest i args) {c position last : Nat}
    {ds : List Denoted}
    (hds : args.map (fun a => s.meaning forest a c position last) = ds.map some) :
    CallShape (s.program.get i).function ds := by
  refine call_shape hcall.admits hcall.typed (map_of_map_some hds fun a ha d hd => ?_)
  have hlt := hcall.before a ha
  have hi := hcall.lt
  exact meaning_kind h (by omega) (hcall.expressions a ha) hd

/-- A call is strict in its arguments. -/
theorem strict (h : s.Ready forest) (hcall : Calling s forest i args) {a c position last : Nat}
    (ha : a ∈ args) (hnone : s.argument forest i c position last a = none) :
    s.meaning forest i c position last = none := by
  rw [hcall.meaning]
  cases hds : args.mapM fun a => s.meaning forest a c position last with
  | none => rfl
  | some ds =>
    rw [mapM_eq_some_iff] at hds
    obtain ⟨d, hd, hmeaning⟩ : ∃ d ∈ ds, s.meaning forest a c position last = some d := by
      have hmem : s.meaning forest a c position last ∈ ds.map some := by
        rw [← hds]
        exact List.mem_map_of_mem ha
      obtain ⟨d, hd, heq⟩ := List.mem_map.mp hmem
      exact ⟨d, hd, heq.symm⟩
    rw [Session.argument, hmeaning] at hnone
    exact denote_call_strict (hcall.shape h hds) hd hnone

/-- The function of a call with all its arguments. -/
theorem answered (h : s.Ready forest) (hcall : Calling s forest i args) {c position last : Nat}
    (hc : s.Live c) {results : List (Value × Option Nat)}
    (hresults : args.map (s.argument forest i c position last) = results.map some) :
    ∃ cost, ∀ vm f, vm.Fits s → f.Called s i c position last args results →
      Replies s forest vm (s.meaning forest i c position last) cost
        (scalarCall s vm f (s.program.get i)) := by
  obtain ⟨ds, hds, hvalues⟩ := map_bind_some hresults
  have hmeaning := hcall.meaning c position last
  rw [mapM_eq_some_iff.mpr hds] at hmeaning
  rw [hmeaning]
  exact call_answered h hcall.lt hcall.op hcall.walk hcall.before hcall.type hcall.typed hc
    (mapM_eq_some_iff.mpr hds) (hcall.shape h hds) (mapM_eq_some_iff.mpr hvalues)

/-- A dispatch of a call takes the value of its completed argument. -/
theorem dispatch (h : s.Ready forest) (hcall : Calling s forest i args) {c position last : Nat}
    {vm : Vm} {top current : Nat} {f : Frame} {d : Denoted}
    {results : List (Value × Option Nat)} {fails : Prop} {good : Vm × Option Nat → Prop}
    (hfits : vm.Fits s) (htop : top + i < s.program.count)
    (hcalled : f.Called s i c position last args results) (hlength : results.length ≤ 2)
    (hstage : f.stage = 10 + results.length) (hcurrent : current ∈ args)
    (hd : s.meaning forest current c position last = some d)
    (hholds : (vm.frames.cell (top + 1)).Holds s forest d)
    (hstrict : s.meaning forest i c position last = none → fails)
    (hnext : ∀ x f', s.argument forest i c position last current = some x →
      f'.Called s i c position last args (results ++ [x]) → f'.stage = f.stage →
      Meets (nextArgument s vm top f' (s.program.get i) results.length) (Reports fails) good) :
    Meets (dispatchFrame s vm top f (s.program.get i)) (Reports fails) good := by
  have hread : vm.frames.read (top + 1) = some (vm.frames.cell (top + 1)) :=
    Area.read_of_lt (by rw [hfits.frames]; omega)
  have hargument : s.argument forest i c position last current =
      argumentValue (s.world forest) (s.program.get i).function d := by
    rw [Session.argument, hd]
    rfl
  have hdispatch : dispatchFrame s vm top f (s.program.get i) =
      argumentFrame s vm top f (s.program.get i) (vm.frames.cell (top + 1)) := by
    unfold dispatchFrame
    rw [if_neg (by omega), hread]
    show (if f.stage ≥ 10 then _ else _) = _
    rw [if_pos (by omega)]
  rw [hdispatch]
  unfold argumentFrame
  refine (argument_result_spec h (s.program.get i) hholds).bind
    (fun e => Reports.mono (fun hnone => hstrict (hcall.strict h hcurrent ?_)) e) ?_
  · rw [hargument, hnone]
  · rintro ⟨v, selected⟩ hsome
    rw [← hargument] at hsome
    have hsame : f.stage - 10 = results.length := by omega
    dsimp only
    rw [hsame]
    refine hnext _ _ hsome (hcalled.step hlength (v, selected)) ?_
    unfold Frame.setArgument
    split <;> rfl

/-- The run of a call whose argument at `current` is complete. -/
theorem runs (h : s.Ready forest) (hcall : Calling s forest i args) {c : Nat} (hc : s.Live c)
    (position last : Nat) (rest : List Nat) :
    ∀ (done : List Nat) (current : Nat) (results : List (Value × Option Nat)),
      args = done ++ current :: rest →
      done.map (s.argument forest i c position last) = results.map some →
      ∃ cost, ∀ d, s.meaning forest current c position last = some d →
        ∀ vm top f, vm.Fits s → top + i < s.program.count → vm.frames.cell top = f →
          f.Called s i c position last args results → f.stage = 10 + results.length →
          (vm.frames.cell (top + 1)).Holds s forest d →
          Runs s (vm, some top)
            (vm.meter.left < cost ∨ s.meaning forest i c position last = none)
            (Completes s forest i c position last top cost vm) := by
  have hi := hcall.lt
  induction rest with
  | nil =>
    intro done current results hsplit hdone
    have hlength : results.length = done.length := by
      simpa using (congrArg List.length hdone).symm
    have hthree := hcall.length
    rw [hsplit, List.length_append, List.length_singleton] at hthree
    have hcurrent : current ∈ args := by rw [hsplit]; simp
    obtain ⟨cost, hrun⟩ : ∃ cost, ∀ x, s.argument forest i c position last current = some x →
        ∀ vm f, vm.Fits s → f.Called s i c position last args (results ++ [x]) →
          Replies s forest vm (s.meaning forest i c position last) cost
            (scalarCall s vm f (s.program.get i)) := by
      cases hargument : s.argument forest i c position last current with
      | none => exact ⟨0, by simp⟩
      | some x =>
        obtain ⟨cost, hrun⟩ := @answered s forest i args h hcall c position last hc
          (results ++ [x]) (by rw [hsplit]; simp [hdone, hargument])
        refine ⟨cost, fun y hy => ?_⟩
        obtain rfl := Option.some.inj hy
        exact hrun
    refine ⟨stepCost s + cost, fun d hd vm top f hfits htop hframe hcalled hstage hholds => ?_⟩
    refine runs_dispatch hfits (by omega) hframe (by rw [hcalled.instruction]; exact hi)
      (fun hlow => .inl (by omega)) ?_
    intro meter hspent
    have hspent' := hspent.1
    rw [hcalled.instruction]
    refine hcall.dispatch h ⟨hfits.values, hfits.table, hfits.frames⟩ htop hcalled (by omega)
      hstage hcurrent hd hholds .inr ?_
    intro x f' hx hcalled' _
    unfold nextArgument
    rw [if_neg (by rw [hcalled'.args, hsplit]; simp; omega)]
    refine (hrun x hx { vm with meter := meter } f' ⟨hfits.values, hfits.table, hfits.frames⟩
      hcalled').bind (fun e => Reports.mono (fun hfails => ?_) e) ?_
    · refine hfails.imp (fun hlow => ?_) id
      dsimp only at hlow
      omega
    · rintro ⟨g, vm'⟩ ⟨hfits', hframes, hspent'', d', hd', hanswers⟩
      dsimp only at hanswers ⊢
      rw [if_neg (answers_unmarked hanswers)]
      have hfollows : Follows s top (stepCost s + cost) vm vm' :=
        ⟨hfits', hspent.trans hspent'', fun k _ => by rw [hframes]⟩
      have hkind : d'.kind = (s.program.get i).type :=
        meaning_kind h hi (by rw [hcall.op]; simp) hd'
      refine (answers_complete h hanswers hfollows (by omega) hd' hkind).mono
        (fun e he => he) fun y hy => ?_
      have hleft := hy.2.1.spent.1
      exact ⟨by omega, Settles.refl hy⟩
  | cons next rest ih =>
    intro done current results hsplit hdone
    have hlength : results.length = done.length := by
      simpa using (congrArg List.length hdone).symm
    have hthree := hcall.length
    rw [hsplit, List.length_append, List.length_cons, List.length_cons] at hthree
    have hcurrent : current ∈ args := by rw [hsplit]; simp
    have hnextMem : next ∈ args := by rw [hsplit]; simp
    have hbefore := hcall.before next hnextMem
    obtain ⟨costNext, hsuspend⟩ := suspend_meets (hcall.evaluates next hnextMem) position last hc
    -- the rest of the run once the current argument has a value
    obtain ⟨cost, hrun⟩ : ∃ cost, ∀ x, s.argument forest i c position last current = some x →
        ∀ d, s.meaning forest next c position last = some d →
          ∀ vm top f, vm.Fits s → top + i < s.program.count → vm.frames.cell top = f →
            f.Called s i c position last args (results ++ [x]) →
            f.stage = 10 + (results ++ [x]).length →
            (vm.frames.cell (top + 1)).Holds s forest d →
            Runs s (vm, some top)
              (vm.meter.left < cost ∨ s.meaning forest i c position last = none)
              (Completes s forest i c position last top cost vm) := by
      cases hargument : s.argument forest i c position last current with
      | none => exact ⟨0, by simp⟩
      | some x =>
        obtain ⟨cost, hrun⟩ := ih (done ++ [current]) next (results ++ [x])
          (by rw [hsplit]; simp) (by simp [hdone, hargument])
        refine ⟨cost, fun y hy => ?_⟩
        obtain rfl := Option.some.inj hy
        exact hrun
    refine ⟨stepCost s + costNext + cost,
      fun d hd vm top f hfits htop hframe hcalled hstage hholds => ?_⟩
    refine runs_dispatch hfits (by omega) hframe (by rw [hcalled.instruction]; exact hi)
      (fun hlow => .inl (by omega)) ?_
    intro meter hspent
    have hspent' := hspent.1
    rw [hcalled.instruction]
    refine hcall.dispatch h ⟨hfits.values, hfits.table, hfits.frames⟩ htop hcalled (by omega)
      hstage hcurrent hd hholds .inr ?_
    intro x f' hx hcalled' hstage'
    have hget : f'.args[results.length + 1]? = some next := by
      rw [hcalled'.args, hsplit, hlength, List.getElem?_append_right (by omega)]
      simp
    unfold nextArgument
    rw [if_pos (by rw [hcalled'.args, hsplit]; simp; omega), hget, hcalled'.context,
      hcalled'.position, hcalled'.last]
    refine hsuspend _ top _ _ _ ⟨hfits.values, hfits.table, hfits.frames⟩ (by omega)
      (fun hlow => .inl (by dsimp only at hlow; omega))
      (fun hnone => .inr (hcall.strict h hnextMem (by rw [Session.argument, hnone]; rfl))) ?_
    intro vm' d' hd' _ hholds' hframe' hfollows
    have hleft := hfollows.spent.1
    dsimp only at hleft
    have hnext := hrun x hx d' hd' vm' top _ hfollows.fits htop hframe'
      ⟨hcalled'.instruction, rfl, rfl, rfl, hcalled'.args, hcalled'.value, hcalled'.out,
        hcalled'.values, hcalled'.selected⟩
      (by rw [List.length_append, List.length_singleton]; dsimp only; omega) hholds'
    refine hnext.mono (fun hfails => ?_) fun y hy => ?_
    · exact hfails.imp (fun hlow => by omega) id
    · exact hy.after ((Follows.charged hfits hspent).trans hfollows)

end Calling

/-- A call evaluates its arguments and applies its function. -/
theorem evaluates_call (h : s.Ready forest) {i : Nat} (hi : i < s.program.count)
    (hop : (s.program.get i).op = .call)
    (harguments : ∀ a < i, (s.program.get a).op ≠ .args → Evaluates s forest a) :
    Evaluates s forest i := by
  obtain ⟨args, hcall⟩ := calling h hi hop harguments
  cases args with
  | nil =>
    refine evaluates_leaf hi fun c position last hc => ?_
    obtain ⟨cost, hrun⟩ := @Calling.answered s forest i [] h hcall c position last hc [] rfl
    refine ⟨cost, fun vm top hfits htop => ?_⟩
    unfold startFrame
    simp only [hop, hcall.walk]
    refine (hrun vm _ hfits ⟨rfl, rfl, rfl, rfl, rfl, rfl, rfl, rfl, rfl⟩).bind
      (fun e he => he) ?_
    rintro ⟨g, vm'⟩ ⟨hfits', hframes, hspent, d, hd, hanswers⟩
    exact answers_complete h hanswers ⟨hfits', hspent, fun k _ => by rw [hframes]⟩ htop hd
      (meaning_kind h hi (by rw [hop]; simp) hd)
  | cons first rest =>
    intro c position last hc
    have hbefore := hcall.before first (by simp)
    obtain ⟨costFirst, hsuspend⟩ :=
      suspend_meets (hcall.evaluates first (by simp)) position last hc
    obtain ⟨cost, hrun⟩ := hcall.runs h hc position last rest [] first [] rfl rfl
    refine ⟨stepCost s + costFirst + cost, fun vm top hfits htop hframe => ?_⟩
    refine runs_dispatch hfits (by omega) hframe hi (fun hlow => .inl (by omega)) ?_
    intro meter hspent
    have hspent' := hspent.1
    show Meets (startFrame s _ top _ (s.program.get i)) _ _
    unfold startFrame
    simp only [hop, hcall.walk]
    refine hsuspend _ top _ _ _ ⟨hfits.values, hfits.table, hfits.frames⟩ (by omega)
      (fun hlow => .inl (by dsimp only at hlow; omega))
      (fun hnone => .inr (hcall.strict h List.mem_cons_self
        (by rw [Session.argument, hnone]; rfl))) ?_
    intro vm' d hd _ hholds hframe' hfollows
    have hleft := hfollows.spent.1
    dsimp only at hleft
    have hnext := hrun d hd vm' top _ hfollows.fits htop hframe'
      ⟨rfl, rfl, rfl, rfl, rfl, rfl, rfl, rfl, rfl⟩ rfl hholds
    refine hnext.mono (fun hfails => ?_) fun y hy => ?_
    · exact hfails.imp (fun hlow => by omega) id
    · exact hy.after ((Follows.charged hfits hspent).trans hfollows)

end OpenTlv.Query
