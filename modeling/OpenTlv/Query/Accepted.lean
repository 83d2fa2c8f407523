import OpenTlv.Query.Denotation

/-!
# Accepted plans

What the two validators promise about a plan, stated once as propositions: links point
backward, operands are present and typed, spans lie in the payload and every call has at most
three arguments that are expressions. The engines' proofs use these facts and never unfold a
validator.
-/

namespace OpenTlv.Query

/-- A plan that both validators accept. -/
structure Program.Accepted (p : Program) : Prop where
  valid : programValid p = true
  typed : planTypes p = true

/-- What `query_program_valid` says about instruction `i`. -/
structure InstructionFacts (p : Program) (i : Nat) : Prop where
  low : (p.get i).low ≤ i
  left : ∀ l, (p.get i).left = some l → l < i
  right : ∀ r, (p.get i).right = some r → r < i
  predicateGuard : ∀ g, (p.get i).predicateGuard = some g → g < i
  pathGuard : ∀ g, (p.get i).pathGuard = some g → g < i
  reuse : ∀ j, (p.get i).reuse = some j → j < i
  operands : operandsValid (p.get i) = true
  call : (p.get i).op = .call → callValid p (p.get i) = true
  type : ∀ kind, opType (p.get i).op = some kind → (p.get i).type = kind
  folded : (p.get i).op = .bool → (p.get i).folded ≤ 1
  resolved : (p.get i).resolved ≤ 2
  literal : (p.get i).op = .literal → (p.get i).immediate = 0 → (p.get i).negative = false
  mask : (p.get i).resolved = 2 →
    (p.get i).maskOffset + (p.get i).dataSize ≤ p.payload.length
  data : (p.get i).dataOffset + (p.get i).dataSize ≤ p.payload.length
  scratch : (p.get i).scratchSize ≤ p.codecStride

theorem backward_lt {i j : Nat} {link : Option Nat} (h : backward i link = true)
    (hlink : link = some j) : j < i := by
  subst hlink
  simpa [backward] using h

/-- What the check of one instruction establishes. -/
theorem instruction_facts {p : Program} {i : Nat} (h : instructionValid p i = true) :
    InstructionFacts p i := by
  simp only [instructionValid, Bool.and_eq_true] at h
  obtain ⟨⟨⟨⟨⟨⟨⟨⟨⟨⟨⟨⟨⟨⟨⟨⟨⟨⟨⟨⟨-, -⟩, -⟩, hlow⟩, hleft⟩, hright⟩, hpredicate⟩, hpath⟩, -⟩, hoperands⟩,
    hcall⟩, htype⟩, hfolded⟩, hresolved⟩, hscratch⟩, -⟩, -⟩, hliteral⟩, hmask⟩, hdata⟩, hreuse⟩ := h
  refine ⟨by simpa using hlow, fun l => backward_lt hleft, fun r => backward_lt hright,
    fun g => backward_lt hpredicate, fun g => backward_lt hpath, fun j => backward_lt hreuse,
    hoperands, ?_, ?_, ?_, by simpa using hresolved, ?_, ?_, by simpa using hdata, ?_⟩
  · intro hop
    simpa [hop] using hcall
  · intro kind hkind
    simpa [hkind] using htype
  · intro hop
    simpa [hop] using hfolded
  · intro hop hzero
    have := hliteral
    simp only [hop, hzero] at this
    simpa using this
  · intro htwo
    simpa [htwo] using hmask
  · simp only [Bool.or_eq_true, Bool.and_eq_true, decide_eq_true_eq] at hscratch
    omega

/-- What `plan_types` says about instruction `i`, besides the level. -/
structure TypeFacts (p : Program) (n : Instruction) : Prop where
  left : n.op ≠ .call → n.op ≠ .args → ∀ l, n.left = some l → (p.get l).op ≠ .args
  right : ∀ r, n.right = some r → (p.get r).op ≠ .args
  nodes : n.op = .child ∨ n.op = .desc ∨ n.op = .filter ∨ n.op.isSetOperation = true →
    ∀ l, n.left = some l → (p.get l).type = .node
  sets : n.op = .child ∨ n.op = .desc ∨ n.op.isSetOperation = true →
    ∀ r, n.right = some r → (p.get r).type = .node
  predicate : n.op = .filter →
    ∀ r, n.right = some r → (p.get r).type.code ≤ Kind.number.code
  comparison : n.op.isComparison = true → ∀ l r, n.left = some l → n.right = some r →
    (p.get l).type = (p.get r).type ∧ (p.get l).type ≠ .node
  logicLeft : n.op = .and ∨ n.op = .or →
    ∀ l, n.left = some l → (p.get l).type.code ≤ Kind.bool.code
  logicRight : n.op = .and ∨ n.op = .or →
    ∀ r, n.right = some r → (p.get r).type.code ≤ Kind.bool.code
  call : n.op = .call → ∀ arguments, callArguments p.get n = some arguments →
    callTyped p n arguments = true
  dots : n.op = .test → n.context = true → n.axis = .parent ∧ n.resolved = 0

/-- What the check of one instruction's types establishes. -/
theorem type_facts {p : Program} {n : Instruction} (h : instructionTyped p n = true) :
    TypeFacts p n := by
  simp only [instructionTyped, Bool.and_eq_true] at h
  obtain ⟨⟨⟨-, hleft⟩, hright⟩, hop⟩ := h
  refine ⟨?_, ?_, ?_, ?_, ?_, ?_, ?_, ?_, ?_, ?_⟩
  · intro hcall hargs l hl
    simpa [hcall, hargs, hl] using hleft
  · intro r hr
    simpa [hr] using hright
  · rintro (hn | hn | hn | hn) l hl
    · simp [hn, hl] at hop
      exact hop.1
    · simp [hn, hl] at hop
      exact hop.1
    · simp [hn, hl] at hop
      exact hop.1
    · cases hcase : n.op <;> simp [hcase, Op.isSetOperation] at hn
      all_goals
        simp [hcase, hl] at hop
        exact hop.1
  · rintro (hn | hn | hn) r hr
    · simp [hn, hr] at hop
      exact hop.2
    · simp [hn, hr] at hop
      exact hop.2
    · cases hcase : n.op <;> simp [hcase, Op.isSetOperation] at hn
      all_goals
        simp [hcase, hr] at hop
        exact hop.2
  · intro hn r hr
    simp [hn, hr] at hop
    exact hop.2
  · intro hn l r hl hr
    cases hcase : n.op <;> simp [hcase, Op.isComparison] at hn
    all_goals
      simp [hcase, hl, hr] at hop
      exact hop
  · rintro (hn | hn) l hl
    · simp [hn, hl] at hop
      exact hop.1
    · simp [hn, hl] at hop
      exact hop.1
  · rintro (hn | hn) r hr
    · simp [hn, hr] at hop
      exact hop.2
    · simp [hn, hr] at hop
      exact hop.2
  · intro hn arguments harguments
    simpa [hn, harguments] using hop
  · intro hn hdots
    simp [hn, hdots] at hop
    exact hop.1.2

/-- The variable checks up to instruction `n`: every slot is below the count and stands for one
name and one type. -/
structure SlotFacts (p : Program) (n seen : Nat) : Prop where
  lt : ∀ i < n, (p.get i).op = .variableRef → (p.get i).variableSlot < seen
  type : ∀ i < n, (p.get i).op = .variableRef →
    (p.get i).type = .number ∨ (p.get i).type = .bytes ∨ (p.get i).type = .string
  same : ∀ i < n, ∀ j < n, (p.get i).op = .variableRef → (p.get j).op = .variableRef →
    (p.get i).variableSlot = (p.get j).variableSlot →
      (p.get i).type = (p.get j).type ∧ p.data (p.get i) = p.data (p.get j)

/-- The first variable with a slot is an instruction before. -/
theorem first_variable_spec {p : Program} {i slot : Nat} (hi : i ≤ p.count) {first : Instruction}
    (h : firstVariable p i slot = some first) :
    ∃ k < i, p.get k = first ∧ (p.get k).op = .variableRef ∧ (p.get k).variableSlot = slot := by
  have hmem := List.mem_of_find?_eq_some h
  have hholds := List.find?_some h
  obtain ⟨k, hk, hget⟩ := List.mem_iff_getElem.mp hmem
  have hk' : k < i := by
    rw [List.length_take] at hk
    omega
  have hsame : p.get k = first := by
    have hlt : k < p.instructions.length := by
      have : p.count = p.instructions.length := rfl
      omega
    rw [List.getElem_take] at hget
    simp [Program.get, List.getElem?_eq_getElem hlt, hget]
  simp only [Bool.and_eq_true, decide_eq_true_eq] at hholds
  exact ⟨k, hk', hsame, by rw [hsame]; exact hholds.1, by rw [hsame]; exact hholds.2⟩

/-- What the variable check says about one instruction. -/
theorem variable_step_cases {p : Program} {before i seen : Nat}
    (h : variableStep p before i = some seen) :
    ((p.get i).op ≠ .variableRef ∧ seen = before) ∨
    ((p.get i).op = .variableRef ∧
      ((p.get i).type = .number ∨ (p.get i).type = .bytes ∨ (p.get i).type = .string) ∧
      (((p.get i).variableSlot = before ∧ seen = before + 1) ∨
        ((p.get i).variableSlot < before ∧ seen = before ∧
          ∃ first, firstVariable p i (p.get i).variableSlot = some first ∧
            first.type = (p.get i).type ∧ p.data first = p.data (p.get i)))) := by
  unfold variableStep at h
  dsimp only at h
  split at h
  · rename_i hop
    exact .inl ⟨hop, (Option.some.inj h).symm⟩
  · rename_i hop
    rw [not_not] at hop
    split at h
    · cases h
    · rename_i hgood
      have htype : (p.get i).type = .number ∨ (p.get i).type = .bytes ∨
          (p.get i).type = .string := by
        by_contra hcontra
        simp only [not_or] at hcontra
        simp [hcontra.1, hcontra.2.1, hcontra.2.2] at hgood
      have hslot : (p.get i).variableSlot ≤ before := by
        by_contra hcontra
        simp [show (p.get i).variableSlot > before by omega] at hgood
      refine .inr ⟨hop, htype, ?_⟩
      split at h
      · rename_i heq
        exact .inl ⟨heq, (Option.some.inj h).symm⟩
      · rename_i hne
        cases hfirst : firstVariable p i (p.get i).variableSlot with
        | none => simp [hfirst] at h
        | some first =>
          simp only [hfirst, Bool.and_eq_true, decide_eq_true_eq] at h
          split at h
          · rename_i hsame
            exact .inr ⟨by omega, (Option.some.inj h).symm, first, rfl, hsame.1.1, hsame.2⟩
          · cases h

/-- What the check of the variable slots establishes. -/
theorem slot_facts {p : Program} {n seen : Nat} (hn : n ≤ p.count)
    (h : (List.range n).foldlM (variableStep p) 0 = some seen) : SlotFacts p n seen := by
  induction n generalizing seen with
  | zero => exact ⟨by simp, by simp, by simp⟩
  | succ n ih =>
    rw [List.range_succ, List.foldlM_append] at h
    obtain ⟨before, hbefore, hstep⟩ := Option.bind_eq_some_iff.mp h
    have hfacts := ih (by omega) hbefore
    simp only [List.foldlM_cons, List.foldlM_nil, bind_pure] at hstep
    have hearlier : ∀ i, i < n + 1 → i ≠ n → i < n := by omega
    rcases variable_step_cases hstep with ⟨hop, rfl⟩ | ⟨hop, htype, hslot⟩
    · have hother : ∀ i, (p.get i).op = .variableRef → i ≠ n := by
        rintro i hi rfl
        exact hop hi
      exact ⟨fun i hi hvar => hfacts.lt i (hearlier i hi (hother i hvar)) hvar,
        fun i hi hvar => hfacts.type i (hearlier i hi (hother i hvar)) hvar,
        fun i hi j hj hvar hvar' => hfacts.same i (hearlier i hi (hother i hvar)) j
          (hearlier j hj (hother j hvar')) hvar hvar'⟩
    · -- an earlier variable with the slot of the new one has its type and its name
      have hknown : ∀ j < n, (p.get j).op = .variableRef →
          (p.get j).variableSlot = (p.get n).variableSlot →
          (p.get j).type = (p.get n).type ∧ p.data (p.get j) = p.data (p.get n) := by
        intro j hj hvar heq
        rcases hslot with ⟨hnew, -⟩ | ⟨-, -, first, hfirst, hkind, hdata⟩
        · have := hfacts.lt j hj hvar
          omega
        · obtain ⟨k, hk, rfl, hvar', hslot'⟩ := first_variable_spec (by omega) hfirst
          obtain ⟨hkind', hdata'⟩ := hfacts.same j hj k hk hvar hvar' (by rw [heq, hslot'])
          exact ⟨hkind'.trans hkind, hdata'.trans hdata⟩
      have hseen : before ≤ seen ∧ (p.get n).variableSlot < seen := by
        rcases hslot with ⟨heq, rfl⟩ | ⟨hlt, rfl, -⟩ <;> omega
      refine ⟨fun i hi hvar => ?_, fun i hi hvar => ?_, fun i hi j hj hvar hvar' heq => ?_⟩
      · by_cases hin : i = n
        · rw [hin]
          exact hseen.2
        · have := hfacts.lt i (hearlier i hi hin) hvar
          omega
      · by_cases hin : i = n
        · rw [hin]
          exact htype
        · exact hfacts.type i (hearlier i hi hin) hvar
      · by_cases hin : i = n
        · by_cases hjn : j = n
          · rw [hin, hjn]
            exact ⟨rfl, rfl⟩
          · subst hin
            obtain ⟨hkind, hdata⟩ := hknown j (hearlier j hj hjn) hvar' heq.symm
            exact ⟨hkind.symm, hdata.symm⟩
        · by_cases hjn : j = n
          · subst hjn
            exact hknown i (hearlier i hi hin) hvar heq
          · exact hfacts.same i (hearlier i hi hin) j (hearlier j hj hjn) hvar hvar' heq

namespace Program

variable {p : Program}

theorem fetch_of_lt {i : Nat} (h : i < p.count) : p.fetch i = .ok (p.get i) := by
  have hlt : i < p.instructions.length := h
  simp [fetch, get, List.getElem?_eq_getElem hlt]

theorem slice_of_le {offset size : Nat} (h : offset + size ≤ p.payload.length) :
    p.slice offset size = .ok (p.bytesAt offset size) := by
  simp [slice, h]

theorem bytes_at_length {offset size : Nat} (h : offset + size ≤ p.payload.length) :
    (p.bytesAt offset size).length = size := by
  simp only [bytesAt, List.length_take, List.length_drop]
  omega

namespace Accepted

variable (h : p.Accepted)
include h

theorem root_lt : p.root < p.count := by
  have hvalid := h.valid
  simp only [programValid, Bool.and_eq_true, decide_eq_true_eq] at hvalid
  exact hvalid.1.1.2

theorem root_op : (p.get p.root).op ≠ .args := by
  have htyped := h.typed
  simp only [planTypes, Bool.and_eq_true, decide_eq_true_eq] at htyped
  exact htyped.1.1.1

theorem facts {i : Nat} (hi : i < p.count) : InstructionFacts p i := by
  have hvalid := h.valid
  simp only [programValid, Bool.and_eq_true, List.all_eq_true, List.mem_range] at hvalid
  exact instruction_facts (hvalid.1.2 i hi)

theorem types {i : Nat} (hi : i < p.count) : TypeFacts p (p.get i) := by
  have htyped := h.typed
  simp only [planTypes, Bool.and_eq_true, List.all_eq_true] at htyped
  refine type_facts (htyped.1.1.2 (p.get i) ?_)
  have hlt : i < p.instructions.length := hi
  simp only [get, List.getD_eq_getElem?_getD, List.getElem?_eq_getElem hlt, Option.getD_some]
  exact List.getElem_mem hlt

/-- The slots of the variables. -/
theorem slots : SlotFacts p p.count p.variableCount := by
  have hvalid := h.valid
  simp only [programValid, Bool.and_eq_true, decide_eq_true_eq] at hvalid
  exact slot_facts (Nat.le_refl _) hvalid.2

/-- The operands of an operator. -/
theorem operands {i : Nat} (hi : i < p.count) (hop : (p.get i).op.isOperator = true) :
    ∃ l r, (p.get i).left = some l ∧ (p.get i).right = some r ∧ l < i ∧ r < i := by
  have hfacts := h.facts hi
  have hoperands := hfacts.operands
  simp only [operandsValid, hop, Bool.true_or, if_true, Bool.and_eq_true,
    Option.isSome_iff_exists] at hoperands
  obtain ⟨⟨l, hl⟩, ⟨r, hr⟩⟩ := hoperands
  exact ⟨l, r, hl, hr, hfacts.left l hl, hfacts.right r hr⟩

/-- The operands of an argument list. -/
theorem arguments_operands {i : Nat} (hi : i < p.count) (hop : (p.get i).op = .args) :
    ∃ l r, (p.get i).left = some l ∧ (p.get i).right = some r ∧ l < i ∧ r < i := by
  have hfacts := h.facts hi
  have hoperands := hfacts.operands
  simp only [operandsValid, hop, decide_true, Bool.or_true, if_true, Bool.and_eq_true,
    Option.isSome_iff_exists] at hoperands
  obtain ⟨⟨l, hl⟩, ⟨r, hr⟩⟩ := hoperands
  exact ⟨l, r, hl, hr, hfacts.left l hl, hfacts.right r hr⟩

/-- The checked walk along an argument spine stays in range and finds what the validators
found. -/
theorem argument_walk_eq {bound : Nat} (hbound : bound ≤ p.count) (budget : Nat)
    {cursor : Option Nat} (hcursor : ∀ c, cursor = some c → c < bound) (found : List Nat) :
    p.argumentWalk budget cursor found = .ok (argumentChain p.get budget cursor found) := by
  induction budget generalizing cursor found with
  | zero =>
    cases cursor with
    | none => simp [argumentWalk, argumentChain]
    | some c =>
      have hc : c < p.count := by have := hcursor c rfl; omega
      by_cases hop : (p.get c).op = .args
      · simp [argumentWalk, argumentChain, fetch_of_lt hc, hop, bind, Except.bind, pure,
          Except.pure]
      · simp [argumentWalk, argumentChain, fetch_of_lt hc, hop, bind, Except.bind, pure,
          Except.pure]
  | succ budget ih =>
    cases cursor with
    | none => simp [argumentWalk, argumentChain]
    | some c =>
      have hc : c < p.count := by have := hcursor c rfl; omega
      by_cases hop : (p.get c).op = .args
      · obtain ⟨l, r, hl, hr, hlt, -⟩ := h.arguments_operands hc hop
        have hnext : ∀ c', (p.get c).left = some c' → c' < bound := by
          intro c' hc'
          have := hcursor c rfl
          have := (h.facts hc).left c' hc'
          omega
        have := ih hnext (r :: found)
        unfold argumentChain
        simpa [argumentWalk, fetch_of_lt hc, hop, hr, bind, Except.bind] using this
      · unfold argumentChain
        simp [argumentWalk, fetch_of_lt hc, hop, bind, Except.bind, pure, Except.pure]

/-- The arguments of a spine are expressions before the call. -/
theorem argument_chain_mem {bound : Nat} (hbound : bound ≤ p.count) {budget : Nat}
    {cursor : Option Nat} (hcursor : ∀ c, cursor = some c → c < bound)
    {found arguments : List Nat} (hchain : argumentChain p.get budget cursor found = some arguments)
    (hfound : ∀ a ∈ found, a < bound ∧ (p.get a).op ≠ .args) :
    (∀ a ∈ arguments, a < bound ∧ (p.get a).op ≠ .args) ∧
      arguments.length ≤ found.length + budget + 1 := by
  induction budget generalizing cursor found with
  | zero =>
    cases cursor with
    | none =>
      simp only [argumentChain, Option.some.injEq] at hchain
      subst hchain
      exact ⟨hfound, by omega⟩
    | some c =>
      by_cases hop : (p.get c).op = .args
      · simp [argumentChain, hop] at hchain
      · simp only [argumentChain, hop, if_false, Option.some.injEq] at hchain
        subst hchain
        exact ⟨by simpa using ⟨⟨hcursor c rfl, hop⟩, hfound⟩, by simp⟩
  | succ budget ih =>
    cases cursor with
    | none =>
      simp only [argumentChain, Option.some.injEq] at hchain
      subst hchain
      exact ⟨hfound, by omega⟩
    | some c =>
      have hc : c < p.count := by have := hcursor c rfl; omega
      by_cases hop : (p.get c).op = .args
      · obtain ⟨l, r, hl, hr, hlt, hrt⟩ := h.arguments_operands hc hop
        have hnext : ∀ c', (p.get c).left = some c' → c' < bound := by
          intro c' hc'
          have := hcursor c rfl
          have := (h.facts hc).left c' hc'
          omega
        unfold argumentChain at hchain
        simp only [hop, if_true, hr] at hchain
        have hr' : r < bound ∧ (p.get r).op ≠ .args :=
          ⟨by have := hcursor c rfl; omega, (h.types hc).right r hr⟩
        obtain ⟨hmem, hlength⟩ := ih hnext hchain (by simpa using ⟨hr', hfound⟩)
        exact ⟨hmem, by simp only [List.length_cons] at hlength; omega⟩
      · unfold argumentChain at hchain
        simp only [hop, if_false, Option.some.injEq] at hchain
        subst hchain
        exact ⟨by simpa using ⟨⟨hcursor c rfl, hop⟩, hfound⟩, by simp⟩

/-- The arguments of a call. -/
theorem call_arguments {i : Nat} (hi : i < p.count) (hop : (p.get i).op = .call) :
    ∃ arguments, callArguments p.get (p.get i) = some arguments ∧
      p.argumentWalk 2 (p.get i).left [] = .ok (some arguments) ∧ arguments.length ≤ 3 ∧
      (∀ a ∈ arguments, a < i ∧ (p.get a).op ≠ .args) ∧
      (p.get i).function.admits arguments.length = true ∧
      (p.get i).type = (p.get i).function.type ∧ callTyped p (p.get i) arguments = true := by
  have hfacts := h.facts hi
  have hvalid := hfacts.call hop
  cases harguments : callArguments p.get (p.get i) with
  | none => simp [callValid, harguments] at hvalid
  | some arguments =>
    simp only [callValid, harguments, Bool.and_eq_true, decide_eq_true_eq] at hvalid
    obtain ⟨hmem, hlength⟩ :=
      h.argument_chain_mem (Nat.le_of_lt hi) hfacts.left harguments (by simp)
    refine ⟨arguments, rfl, ?_, by simpa using hlength, hmem, hvalid.1.1, hvalid.1.2,
      (h.types hi).call hop arguments harguments⟩
    rw [h.argument_walk_eq (Nat.le_of_lt hi) 2 hfacts.left []]
    exact congrArg Except.ok harguments

/-- The expression of an instruction depends on its operands only. -/
theorem compose_congr {i : Nat} (hi : i < p.count) {f g : Nat → Expr}
    (hfg : ∀ j < i, f j = g j) : p.compose f i = p.compose g i := by
  have hfacts := h.facts hi
  have hlink : ∀ link : Option Nat, (∀ j, link = some j → j < i) →
      link.elim Expr.self f = link.elim Expr.self g := by
    intro link hlt
    cases link with
    | none => rfl
    | some j => exact hfg j (hlt j rfl)
  have hcall : (p.get i).op = .call →
      ((callArguments p.get (p.get i)).getD []).map f =
        ((callArguments p.get (p.get i)).getD []).map g := by
    intro hop
    obtain ⟨arguments, harguments, -, -, hmem, -⟩ := h.call_arguments hi hop
    rw [harguments, Option.getD_some]
    exact List.map_congr_left fun a ha => hfg a (hmem a ha).1
  simp only [compose, hlink _ hfacts.left, hlink _ hfacts.right]
  cases hop : (p.get i).op <;> simp only []
  rw [hcall hop]

/-- A larger recursion bound spells the same expression. -/
theorem spell_eq {i fuel : Nat} (hi : i < p.count) (hfuel : i < fuel) :
    p.spell fuel i = p.expression i := by
  induction i using Nat.strong_induction_on generalizing fuel with
  | _ i ih =>
    obtain ⟨fuel, rfl⟩ : ∃ k, fuel = k + 1 := ⟨fuel - 1, by omega⟩
    refine h.compose_congr hi fun j hj => ?_
    rw [ih j hj (by omega) (by omega), ih j hj (by omega) hj]

/-- The expression of an instruction from the expressions of its operands. -/
theorem expression_eq {i : Nat} (hi : i < p.count) :
    p.expression i = p.compose p.expression i :=
  h.compose_congr hi fun j hj => h.spell_eq (by omega) hj

end Accepted

end Program

end OpenTlv.Query
