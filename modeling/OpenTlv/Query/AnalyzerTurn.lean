import OpenTlv.Query.AnalyzerFits

/-!
# A turn of the analyzer

The steps of one turn of the second loop of `analyze`, in their order. `At` says which kinds of
instructions may still copy a constant in the rest of the turn: of each kind only one step does,
and the others leave the room of the instruction alone.
-/

namespace OpenTlv.Query

variable {count maxTag total i : Nat} {s s' : Analysis} {n : Instruction} {text : Bytes}
  {o : CompileOptions} {pending : Op → Bool}

/-- The state within a turn. Where the instruction may still copy, its room is still there. -/
structure Analysis.At (count maxTag total i : Nat) (pending : Op → Bool) (s : Analysis) : Prop where
  fits : s.Fits count maxTag total (i + 1)
  free : ∀ n, s.nodes.items[i]? = some n → pending n.op = true → s.Fits count maxTag total i

/-- A change that leaves the operation, the operands, the text and the constant of an
instruction. -/
structure Quiet (n m : Instruction) : Prop where
  op : m.op = n.op
  left : m.left = n.left
  right : m.right = n.right
  start : m.start = n.start
  stop : m.stop = n.stop
  constant : n.op.isConstant = true → m.dataOffset = n.dataOffset ∧ m.dataSize = n.dataSize

theorem Quiet.room {m : Instruction} (h : Quiet n m) :
    payloadRoom maxTag m = payloadRoom maxTag n := by
  unfold payloadRoom
  rw [h.op, h.start, h.stop]

theorem Quiet.linked {m : Instruction} (h : Quiet n m) (hn : Linked i n) : Linked i m :=
  ⟨fun l hl => hn.left l (h.left ▸ hl), fun r hr => hn.right r (h.right ▸ hr), fun hop => by
    rw [h.left, h.right]
    rw [h.op] at hop
    exact hn.operands hop⟩

/-- A quiet change keeps the room of every instruction. -/
theorem Analysis.Fits.quiet {k : Nat} {f : Instruction → Instruction}
    (h : s.Fits count maxTag total k) (hn : s.nodes.items[i]? = some n) (hf : Quiet n (f n)) :
    ({ s with nodes := s.nodes.changed i f } : Analysis).Fits count maxTag total k := by
  refine h.changed hn (hf.linked (h.linked i n hn)) (fun hop => ?_) fun _ => hf.room.le
  rw [hf.op] at hop
  obtain ⟨hoffset, hsize⟩ := hf.constant hop
  rw [hoffset, hsize]
  exact h.constants n (List.mem_of_getElem? hn) hop

theorem changed_here {f : Instruction → Instruction} (hn : s.nodes.items[i]? = some n) :
    (s.nodes.changed i f).items[i]? = some (f n) := by
  show (s.nodes.items.modify i f)[i]? = some (f n)
  rw [List.getElem?_modify_eq, hn]
  rfl

/-- A quiet step of a turn. -/
theorem quiet_steps {f : Instruction → Instruction} (h : s.At count maxTag total i pending)
    (hi : i < count) (hf : ∀ n, s.nodes.items[i]? = some n → Quiet n (f n)) :
    Steps count (change i f) s fun _ s' => s'.At count maxTag total i pending := by
  have hlt : i < s.nodes.size := by rw [h.fits.size]; exact hi
  have hn := List.getElem?_eq_getElem hlt
  have hquiet := hf _ hn
  refine (change_steps h.fits hi).mono fun _ s' hs' => ?_
  subst hs'
  refine ⟨h.fits.quiet hn hquiet, fun m hm hpending => ?_⟩
  cases (changed_here hn).symm.trans hm
  rw [hquiet.op] at hpending
  exact (h.free _ hn hpending).quiet hn hquiet

theorem at_only_if {holds : Bool} {step : Analyzer Unit} (h : s.At count maxTag total i pending)
    (hstep : holds = true → Steps count step s fun _ s' => s'.At count maxTag total i pending) :
    Steps count (onlyIf holds step) s fun _ s' => s'.At count maxTag total i pending :=
  only_if_steps hstep fun _ => h

theorem at_level (level : Level) (h : s.At count maxTag total i pending) :
    Steps count (setLevel level) s fun _ s' => s'.At count maxTag total i pending :=
  ⟨{ h.fits with }, fun n hn hpending => { h.free n hn hpending with }⟩

theorem at_require {holds : Bool} {fail : Analyzer Unit} (h : s.At count maxTag total i pending)
    (hfail : ∀ good, Steps count fail s good) :
    Steps count (require holds fail) s fun _ s' => s'.At count maxTag total i pending :=
  (require_steps hfail).mono fun _ _ hsame => hsame.1 ▸ h

/-- Fewer kinds of instructions may still copy. -/
theorem Analysis.At.weaken {fewer : Op → Bool} (h : s.At count maxTag total i pending)
    (hfewer : ∀ op, fewer op = true → pending op = true) : s.At count maxTag total i fewer :=
  ⟨h.fits, fun n hn hop => h.free n hn (hfewer _ hop)⟩

/-- The kinds that copy after the first steps of a turn. -/
def copiesAny (op : Op) : Bool :=
  op = .test || op = .variableRef || op.isConstant || op = .call

/-- The kinds that copy behind tag tests. -/
def copiesLater (op : Op) : Bool :=
  op = .variableRef || op.isConstant || op = .call

/-- The kinds that copy behind variables. -/
def copiesConstant (op : Op) : Bool :=
  op.isConstant || op = .call

/-- The kind that copies last. -/
def copiesCall (op : Op) : Bool :=
  op = .call

theorem start_node_steps (h : s.At count maxTag total i pending) (hi : i < count) :
    Steps count (startNode text i) s fun _ s' => s'.At count maxTag total i pending := by
  unfold startNode
  refine (node_at_steps h.fits hi).bind fun n s' hn => ?_
  obtain ⟨rfl, hn⟩ := hn
  exact quiet_steps h hi fun m _ => ⟨rfl, rfl, rfl, rfl, rfl, fun _ => ⟨rfl, rfl⟩⟩

theorem parent_dots_steps (h : s.At count maxTag total i pending) (hi : i < count) :
    Steps count (parentDots text i) s fun _ s' => s'.At count maxTag total i pending := by
  unfold parentDots
  refine (node_at_steps h.fits hi).bind fun n s' hn => ?_
  obtain ⟨rfl, hn⟩ := hn
  refine payload_offset_steps.bind fun offset s' hoffset => ?_
  obtain ⟨rfl, -⟩ := hoffset
  refine at_only_if h fun hdots => quiet_steps h hi fun m hm => ?_
  cases hn.symm.trans hm
  simp only [Bool.and_eq_true, decide_eq_true_eq] at hdots
  refine ⟨rfl, rfl, rfl, rfl, rfl, fun hop => ?_⟩
  rw [hdots.1.1] at hop
  cases hop

theorem test_level_steps (h : s.At count maxTag total i pending) (hi : i < count) :
    Steps count (testLevel i) s fun _ s' => s'.At count maxTag total i pending := by
  unfold testLevel
  refine (node_at_steps h.fits hi).bind fun n s' hn => ?_
  obtain ⟨rfl, -⟩ := hn
  exact at_only_if h fun _ => at_level .d h

theorem at_type (type : Kind) (h : s.At count maxTag total i pending) (hi : i < count) :
    Steps count (change i fun n => { n with type := type }) s fun _ s' =>
      s'.At count maxTag total i pending :=
  quiet_steps h hi fun _ _ => ⟨rfl, rfl, rfl, rfl, rfl, fun _ => ⟨rfl, rfl⟩⟩

theorem scalar_type_steps (h : s.At count maxTag total i pending) (hi : i < count) :
    Steps count (scalarType text i) s fun _ s' => s'.At count maxTag total i pending := by
  unfold scalarType
  refine (node_at_steps h.fits hi).bind fun n s' hn => ?_
  obtain ⟨rfl, -⟩ := hn
  refine (at_only_if h fun _ => at_type .number h hi).bind fun _ s₁ h₁ => ?_
  refine (at_only_if h₁ fun _ => at_type .bool h₁ hi).bind fun _ s₂ h₂ => ?_
  exact at_require h₂ fun _ => fail_node_steps h₂.fits

theorem literal_value_steps (h : s.At count maxTag total i pending) (hi : i < count) :
    Steps count (literalValue text i) s fun _ s' => s'.At count maxTag total i pending := by
  unfold literalValue
  refine (node_at_steps h.fits hi).bind fun n s' hn => ?_
  obtain ⟨rfl, -⟩ := hn
  refine at_only_if h fun _ => ?_
  unfold storeLiteral
  dsimp only
  split
  · exact fail_node_steps h.fits
  · have hstored := fun value negative => quiet_steps
      (f := fun n => { n with immediate := value, negative := negative }) h hi
      fun _ _ => ⟨rfl, rfl, rfl, rfl, rfl, fun _ => ⟨rfl, rfl⟩⟩
    refine (hstored _ _).bind fun _ s₁ h₁ => ?_
    exact at_only_if h₁ fun _ => at_level .d h₁

theorem truth_type_steps (h : s.At count maxTag total i pending) (hi : i < count) :
    Steps count (truthType i) s fun _ s' => s'.At count maxTag total i pending := by
  unfold truthType
  refine (node_at_steps h.fits hi).bind fun n s' hn => ?_
  obtain ⟨rfl, -⟩ := hn
  exact at_only_if h fun _ => at_type .bool h hi

/-- What an emission leaves: the instruction is of the same kind, and its room is used. -/
theorem Analysis.Fits.used (op : Op) (h : s.Fits count maxTag total (i + 1))
    (hop : ∀ n, s.nodes.items[i]? = some n → n.op = op) (hdone : pending op = false) :
    s.At count maxTag total i pending := by
  refine ⟨h, fun n hn hpending => ?_⟩
  rw [hop n hn, hdone] at hpending
  cases hpending

/-- A tag is copied by an instruction that keeps no constant. -/
theorem emit_tag_steps {used : Nat} (op : Op) {tag : Bytes}
    (h : s.Fits count maxTag used (i + 1)) (hi : i < count)
    (hop : ∀ n, s.nodes.items[i]? = some n → n.op = op) (hconstant : op.isConstant = false)
    (hroom : used + tag.length ≤ total) (harea : total ≤ s.payload.capacity) :
    Steps count (emitTag i tag) s fun _ s' => s'.Fits count maxTag total (i + 1) ∧
      ∀ n, s'.nodes.items[i]? = some n → n.op = op := by
  have hlt : i < s.nodes.size := by rw [h.size]; exact hi
  have hn := List.getElem?_eq_getElem hlt
  have hkind := hop _ hn
  unfold emitTag
  refine payload_offset_steps.bind fun offset s' hoffset => ?_
  obtain ⟨rfl, -⟩ := hoffset
  refine (change_steps h hi).bind fun _ s₁ hs₁ => ?_
  subst hs₁
  have h₁ := h.quiet (f := fun n => { n with
      resolved := 1, dataOffset := offset, dataSize := word32 tag.length }) hn
    ⟨rfl, rfl, rfl, rfl, rfl, fun hc => by rw [hkind, hconstant] at hc; cases hc⟩
  refine (emit_steps total h₁ hroom harea).mono fun _ s₂ hs₂ => ?_
  obtain ⟨h₂, hnodes, -⟩ := hs₂
  refine ⟨h₂, fun m hm => ?_⟩
  rw [hnodes] at hm
  cases (changed_here hn).symm.trans hm
  exact hkind

theorem spelled_length (text : Bytes) (start stop : Nat) :
    (spelled text start stop).length ≤ stop - start :=
  List.length_take_le ..

theorem hex_pattern_length (word : Bytes) {bytes mask : Bytes}
    (h : hexPattern word = some (bytes, mask)) :
    bytes.length + mask.length = word.length ∧ mask.length = bytes.length := by
  induction word using hexPattern.induct generalizing bytes mask with
  | case1 =>
    cases h
    exact ⟨rfl, rfl⟩
  | case2 => cases h
  | case3 high low rest ih =>
    unfold hexPattern at h
    obtain ⟨⟨tail, tailMask⟩, htail, h⟩ := Option.bind_eq_some_iff.mp h
    obtain ⟨hlength, hmask⟩ := ih htail
    dsimp only at h
    simp only [List.length_cons]
    split at h
    · cases h
      simp only [List.length_cons]
      omega
    · obtain ⟨x, -, h⟩ := Option.bind_eq_some_iff.mp h
      obtain ⟨y, -, h⟩ := Option.bind_eq_some_iff.mp h
      cases h
      simp only [List.length_cons]
      omega

theorem hex_octets_length (digits : Bytes) : (hexOctets digits).length ≤ digits.length := by
  induction digits using hexOctets.induct with
  | case1 high low rest ih =>
    unfold hexOctets
    simp only [List.length_cons]
    omega
  | case2 digits hshort =>
    unfold hexOctets
    split
    · exact absurd rfl (hshort _ _ _)
    · exact Nat.zero_le _

theorem unescaped_length (text : Bytes) : (unescaped text).length ≤ text.length := by
  induction text using unescaped.induct with
  | case1 => exact Nat.le_refl _
  | case2 c => exact Nat.le_refl _
  | case3 d rest ih =>
    unfold unescaped
    rw [if_pos rfl]
    simp only [List.length_cons]
    omega
  | case4 c d rest hplain ih =>
    unfold unescaped
    rw [if_neg hplain]
    simp only [List.length_cons] at ih ⊢
    omega

theorem constant_octets_length (text : Bytes) (n : Instruction) :
    (constantOctets text n).length ≤ n.stop - n.start := by
  unfold constantOctets
  split
  · have hlength := hex_octets_length (spelled text (n.start + 2) (n.stop - 1))
    have hspelled := spelled_length text (n.start + 2) (n.stop - 1)
    omega
  · have hlength := unescaped_length (spelled text (n.start + 1) (n.stop - 1))
    have hspelled := spelled_length text (n.start + 1) (n.stop - 1)
    omega

/-- A resolved name is no longer than the options admit. -/
theorem resolve_name_meets :
    Meets (resolveName text n o) Reported fun tag => tag.length ≤ o.maxResolvedTag := by
  unfold resolveName
  split
  · exact ⟨⟨_, rfl⟩, trivial⟩
  · dsimp only
    split
    · exact ⟨⟨_, rfl⟩, trivial⟩
    · split
      · exact ⟨⟨_, rfl⟩, trivial⟩
      split
      · exact reported_limit _ _ _ _
      next hlength => exact Nat.not_lt.mp hlength

theorem resolved_tag_meets {answer : Except Status TagView} :
    Meets (resolvedTag o n answer) Reported fun tag => tag.length ≤ o.maxResolvedTag := by
  unfold resolvedTag
  split
  · exact ⟨⟨_, rfl⟩, trivial⟩
  · split
    · exact ⟨⟨_, rfl⟩, trivial⟩
    split
    · exact reported_limit _ _ _ _
    next hlength => exact Nat.not_lt.mp hlength

/-- The result of a callee that reports its failures. -/
theorem lift_steps {α : Type} {run : Except Stop α} {good : α → Prop}
    (h : s.Fits count maxTag total i) (hrun : Meets run Reported good) :
    Steps count (InPlace.lift run) s fun a s' => s' = s ∧ good a := by
  cases run with
  | error e => exact h.failed hrun
  | ok a => exact ⟨rfl, hrun⟩

/-- A tag test copies a resolved tag, or a pattern and its mask. -/
theorem emit_test_steps (h : s.Fits count o.maxResolvedTag total i) (hi : i < count)
    (hn : s.nodes.items[i]? = some n) (hop : n.op = .test) (harea : total ≤ s.payload.capacity)
    (hdone : pending .test = false) :
    Steps count (emitTest text o i n) s fun _ s' =>
      s'.At count o.maxResolvedTag total i pending := by
  obtain ⟨hle, hspent⟩ := h.spend hn
  have hroom : payloadRoom o.maxResolvedTag n = n.stop - n.start + o.maxResolvedTag := by
    unfold payloadRoom
    rw [hop]
  have hkind : ∀ m, s.nodes.items[i]? = some m → m.op = .test := fun m hm => by
    cases hn.symm.trans hm
    exact hop
  unfold emitTest
  dsimp only
  split
  · refine (lift_steps h resolve_name_meets).bind fun tag s' htag => ?_
    obtain ⟨rfl, htag⟩ := htag
    refine (emit_tag_steps .test hspent hi hkind rfl (by omega) harea).mono fun _ s₁ hs₁ => ?_
    exact hs₁.1.used .test hs₁.2 hdone
  split
  · exact (h.next hi).used .test hkind hdone
  split
  · exact fail_node_steps h
  next bytes mask hpattern =>
    obtain ⟨hlength, hmask⟩ := hex_pattern_length _ hpattern
    have hword := spelled_length text n.start n.stop
    unfold Instruction.spelling at hlength
    unfold emitPattern
    refine payload_offset_steps.bind fun offset s' hoffset => ?_
    obtain ⟨rfl, -⟩ := hoffset
    refine (change_steps hspent hi).bind fun _ s₁ hs₁ => ?_
    subst hs₁
    have hquiet : ∀ m : Instruction, m.op = .test → ∀ offset, Quiet m { m with
        resolved := 2, dataOffset := offset, dataSize := word32 bytes.length } := by
      intro m hm offset
      refine ⟨rfl, rfl, rfl, rfl, rfl, fun hc => ?_⟩
      rw [hm] at hc
      cases hc
    have h₁ := hspent.quiet (f := fun m => { m with
      resolved := 2, dataOffset := offset, dataSize := word32 bytes.length })
      hn (hquiet n hop offset)
    have hn₁ := @changed_here _ s' n (fun m => { m with
      resolved := 2, dataOffset := offset, dataSize := word32 bytes.length }) hn
    refine (emit_steps (total - mask.length) h₁ (by omega)
      (by dsimp only; omega)).bind fun _ s₂ hs₂ => ?_
    obtain ⟨h₂, hnodes₂, hcapacity₂, -⟩ := hs₂
    refine payload_offset_steps.bind fun maskOffset s' hoffset => ?_
    obtain ⟨rfl, -⟩ := hoffset
    refine (change_steps h₂ hi).bind fun _ s₃ hs₃ => ?_
    subst hs₃
    have hn₂ : s'.nodes.items[i]? = some { n with
        resolved := 2, dataOffset := offset, dataSize := word32 bytes.length } := by
      rw [hnodes₂]
      exact hn₁
    have h₃ := h₂.quiet (f := fun m => { m with maskOffset := maskOffset }) hn₂
      ⟨rfl, rfl, rfl, rfl, rfl, fun _ => ⟨rfl, rfl⟩⟩
    have hn₃ := changed_here (f := fun m => { m with maskOffset := maskOffset }) hn₂
    refine (emit_steps total h₃ (by omega)
      (by show total ≤ s'.payload.capacity; rw [hcapacity₂]; exact harea)).mono fun _ s₄ hs₄ => ?_
    obtain ⟨h₄, hnodes₄, -⟩ := hs₄
    refine h₄.used .test (fun m hm => ?_) hdone
    rw [hnodes₄] at hm
    cases hn₃.symm.trans hm
    exact hop

theorem test_tag_steps (h : s.At count o.maxResolvedTag total i copiesAny) (hi : i < count) :
    Steps count (testTag text o i) s fun _ s' =>
      s'.At count o.maxResolvedTag total i copiesLater := by
  unfold testTag
  refine (node_at_steps h.fits hi).bind fun n s' hn => ?_
  obtain ⟨rfl, hn⟩ := hn
  refine only_if_steps (fun htest => ?_) fun _ => h.weaken fun op hop => ?_
  · simp only [Bool.and_eq_true, decide_eq_true_eq] at htest
    have hop := htest.1.1
    have hfree := h.free n hn (by rw [hop]; rfl)
    exact emit_test_steps hfree hi hn hop hfree.area rfl
  · unfold copiesLater at hop
    unfold copiesAny
    simp only [Bool.or_eq_true, decide_eq_true_eq] at hop ⊢
    rcases hop with (hop | hop) | hop
    · exact .inl (.inl (.inr hop))
    · exact .inl (.inr hop)
    · exact .inr hop

/-- The name of a variable is a part of its text. -/
theorem emit_variable_steps (h : s.Fits count maxTag total i) (hi : i < count)
    (hn : s.nodes.items[i]? = some n) (hop : n.op = .variableRef)
    (hdone : pending .variableRef = false) :
    Steps count (emitVariable text o i n) s fun _ s' =>
      s'.At count maxTag total i pending := by
  obtain ⟨hle, hspent⟩ := h.spend hn
  have harea := h.area
  have hroom : payloadRoom maxTag n = n.stop - n.start + maxTag := by
    unfold payloadRoom
    rw [hop]
  have hname := spelled_length text (n.start + 1) n.stop
  unfold emitVariable
  refine payload_offset_steps.bind fun offset s' hoffset => ?_
  obtain ⟨rfl, -⟩ := hoffset
  refine (change_steps hspent hi).bind fun _ s₁ hs₁ => ?_
  subst hs₁
  have h₁ := hspent.quiet (f := fun n => { n with
      dataOffset := offset, dataSize := n.stop - n.start - 1 }) hn
    ⟨rfl, rfl, rfl, rfl, rfl, fun hc => by rw [hop] at hc; cases hc⟩
  refine (emit_steps total h₁ (by omega) harea).bind fun _ s₂ hs₂ => ?_
  obtain ⟨h₂, hnodes, -⟩ := hs₂
  have hkind : ∀ m, s₂.nodes.items[i]? = some m → m.op = .variableRef := fun m hm => by
    rw [hnodes] at hm
    cases (changed_here hn).symm.trans hm
    exact hop
  have hat : s₂.At count maxTag total i pending := h₂.used .variableRef hkind hdone
  split
  · exact fail_node_steps h₂
  next v _ => exact at_type v.2 hat hi

theorem bind_variable_steps (h : s.At count maxTag total i copiesLater) (hi : i < count) :
    Steps count (bindVariable text o i) s fun _ s' =>
      s'.At count maxTag total i copiesConstant := by
  unfold bindVariable
  refine (node_at_steps h.fits hi).bind fun n s' hn => ?_
  obtain ⟨rfl, hn⟩ := hn
  refine only_if_steps (fun hvariable => ?_) fun _ => h.weaken fun op hop => ?_
  · have hop : n.op = .variableRef := of_decide_eq_true hvariable
    exact emit_variable_steps (h.free n hn (by rw [hop]; rfl)) hi hn hop rfl
  · unfold copiesConstant at hop
    unfold copiesLater
    simp only [Bool.or_eq_true, decide_eq_true_eq] at hop ⊢
    rcases hop with hop | hop
    · exact .inl (.inr hop)
    · exact .inr hop

/-- A constant lies where its instruction says. -/
theorem store_constant_steps (h : s.Fits count maxTag total i) (hi : i < count)
    (hn : s.nodes.items[i]? = some n) (hop : n.op.isConstant = true)
    (hdone : pending n.op = false) :
    Steps count (storeConstant text i n) s fun _ s' => s'.At count maxTag total i pending := by
  obtain ⟨hle, hspent⟩ := h.spend hn
  have harea := h.area
  have hroom : payloadRoom maxTag n = n.stop - n.start + maxTag := by
    unfold Op.isConstant at hop
    simp only [Bool.or_eq_true, decide_eq_true_eq] at hop
    unfold payloadRoom
    rcases hop with hop | hop <;> rw [hop]
  have hlength := constant_octets_length text n
  unfold storeConstant
  dsimp only
  refine payload_offset_steps.bind fun offset s' hoffset => ?_
  obtain ⟨rfl, hoffset⟩ := hoffset
  refine (emit_steps total hspent (by omega) harea).bind fun _ s₁ hs₁ => ?_
  obtain ⟨h₁, hnodes, -, hsize⟩ := hs₁
  refine (change_steps h₁ hi).mono fun _ s₂ hs₂ => ?_
  subst hs₂
  have hn₁ : s₁.nodes.items[i]? = some n := by rw [hnodes]; exact hn
  have hlinked := h₁.linked i n hn₁
  have hword := word32_le (constantOctets text n).length
  refine Analysis.Fits.used n.op (h₁.changed hn₁ ⟨hlinked.left, hlinked.right,
    hlinked.operands⟩ (fun _ => ?_) fun hk => by omega) (fun m hm => ?_) hdone
  · show offset + word32 (constantOctets text n).length ≤ s₁.payload.size
    omega
  · cases (changed_here hn₁).symm.trans hm
    rfl

theorem emit_constant_steps (h : s.At count maxTag total i copiesConstant) (hi : i < count) :
    Steps count (emitConstant text i) s fun _ s' => s'.At count maxTag total i copiesCall := by
  unfold emitConstant
  refine (node_at_steps h.fits hi).bind fun n s' hn => ?_
  obtain ⟨rfl, hn⟩ := hn
  refine only_if_steps (fun hop => ?_) fun _ => h.weaken fun op hop => ?_
  · have hconstant : n.op.isConstant = true := hop
    refine store_constant_steps (h.free n hn (by unfold copiesConstant; rw [hconstant]; rfl)) hi hn
      hconstant ?_
    simp only [Bool.or_eq_true, decide_eq_true_eq] at hop
    rcases hop with hop | hop <;> rw [hop] <;> rfl
  · unfold copiesCall at hop
    unfold copiesConstant
    rw [hop, Bool.or_true]

end OpenTlv.Query
