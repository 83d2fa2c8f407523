import OpenTlv.Query.AnalyzerTurn

/-!
# Runs of the analyzer

The end of a turn: calls, the operands of operators and the simplifications. With the turn as a
whole, every run of `analyze` stays in the instructions and in the payload it was given.
-/

namespace OpenTlv.Query

variable {count maxTag total k i : Nat} {s s' : Analysis} {n : Instruction} {text : Bytes}
  {o : CompileOptions}

theorem quiet_fits {f : Instruction → Instruction} (h : s.Fits count maxTag total k)
    (hi : i < count) (hf : ∀ n, s.nodes.items[i]? = some n → Quiet n (f n)) :
    Steps count (change i f) s fun _ s' => s'.Fits count maxTag total k := by
  have hlt : i < s.nodes.size := by rw [h.size]; exact hi
  have hn := List.getElem?_eq_getElem hlt
  refine (change_steps h hi).mono fun _ s' hs' => ?_
  subst hs'
  exact h.quiet hn (hf _ hn)

theorem require_fits {holds : Bool} {fail : Analyzer Unit} (h : s.Fits count maxTag total k)
    (hfail : ∀ good, Steps count fail s good) :
    Steps count (require holds fail) s fun _ s' => s'.Fits count maxTag total k :=
  (require_steps hfail).mono fun _ _ hsame => hsame.1 ▸ h

/-- A leaf has no operands to lie before it. -/
theorem leaf_linked {m : Instruction} (hleft : m.left = none) (hright : m.right = none)
    (hop : m.op.isOperator = false ∧ m.op ≠ .args) : Linked i m := by
  refine ⟨fun l hl => ?_, fun r hr => ?_, fun h => ?_⟩
  · rw [hleft] at hl
    cases hl
  · rw [hright] at hr
    cases hr
  · rcases h with h | h
    · rw [hop.1] at h
      cases h
    · exact absurd h hop.2

/-- A constant is read where it lies. -/
theorem constant_of_steps (h : s.Fits count maxTag total k) (hn : n ∈ s.nodes.items)
    (hop : n.op.isConstant = true) : Steps count (constantOf n) s fun _ s' => s' = s := by
  unfold constantOf
  refine get_steps.bind fun a s' ha => ?_
  obtain ⟨rfl, rfl⟩ := ha
  rw [if_pos (h.constants n hn hop)]
  exact (within_steps rfl).mono fun _ s' hs' => hs'.2

/-- The arguments of a call are instructions. -/
theorem map_nodes_steps (h : s.Fits count maxTag total k) (arguments : List Nat)
    (harguments : ∀ a ∈ arguments, a < count) :
    Steps count (arguments.mapM nodeAt) s fun nodes s' =>
      s' = s ∧ ∀ n ∈ nodes, n ∈ s.nodes.items := by
  induction arguments with
  | nil =>
    rw [List.mapM_nil]
    exact ⟨rfl, fun _ hn => absurd hn List.not_mem_nil⟩
  | cons a rest ih =>
    rw [List.mapM_cons]
    refine (node_at_steps h (harguments a (List.mem_cons_self ..))).bind fun n s' hn => ?_
    obtain ⟨rfl, hn⟩ := hn
    refine (ih fun b hb => harguments b (List.mem_cons_of_mem _ hb)).bind fun nodes s' hs' => ?_
    obtain ⟨rfl, hnodes⟩ := hs'
    refine ⟨rfl, fun m hm => ?_⟩
    rcases List.mem_cons.mp hm with rfl | hm
    · exact List.mem_of_getElem? hn
    · exact hnodes m hm

section Calls

/-- A call that is resolved becomes a leaf. -/
theorem resolve_call_steps {arguments : List Nat} (h : s.Fits count o.maxResolvedTag total i)
    (hi : i < count) (hn : s.nodes.items[i]? = some n) (hop : n.op = .call)
    (harguments : ∀ a ∈ arguments, a < i) :
    Steps count (resolveCall o i n arguments) s fun _ s' =>
      s'.Fits count o.maxResolvedTag total (i + 1) := by
  unfold resolveCall
  split
  next first second =>
    have hfirst := harguments first (List.mem_cons_self ..)
    have hsecond := harguments second (List.mem_cons_of_mem _ (List.mem_cons_self ..))
    refine (node_at_steps h (hfirst.trans hi)).bind fun space s' hspace => ?_
    obtain ⟨rfl, hspace⟩ := hspace
    refine (node_at_steps h (hsecond.trans hi)).bind fun symbol s' hsymbol => ?_
    obtain ⟨rfl, hsymbol⟩ := hsymbol
    refine (require_steps fun _ => fail_node_steps h).bind fun _ s' hs' => ?_
    obtain ⟨rfl, hstrings⟩ := hs'
    simp only [Bool.and_eq_true, decide_eq_true_eq] at hstrings
    split
    · exact fail_node_steps h
    next resolve _ =>
      dsimp only
      refine (constant_of_steps h (List.mem_of_getElem? hspace)
        (by rw [hstrings.1]; rfl)).bind fun a s' hs' => ?_
      subst hs'
      refine (constant_of_steps h (List.mem_of_getElem? hsymbol)
        (by rw [hstrings.2]; rfl)).bind fun b s' hs' => ?_
      subst hs'
      refine (lift_steps h resolved_tag_meets).bind fun tag s' htag => ?_
      obtain ⟨rfl, htag⟩ := htag
      obtain ⟨hle, hspent⟩ := h.spend hn
      have harea := h.area
      have hroom : payloadRoom o.maxResolvedTag n = o.maxResolvedTag := by
        unfold payloadRoom
        rw [hop]
      refine (change_steps hspent hi).bind fun _ s₁ hs₁ => ?_
      subst hs₁
      -- The room of the call pays for the tag of the test that it becomes.
      have h₁ := hspent.changed (f := fun n => { n with op := .test, left := none, right := none })
        hn (leaf_linked rfl rfl ⟨rfl, nofun⟩) (fun hop' => by cases hop') fun hk => by omega
      refine (emit_tag_steps .test h₁ hi (fun m hm => ?_) rfl (by omega) harea).bind
        fun _ s₂ hs₂ => ?_
      · cases (changed_here hn).symm.trans hm
        rfl
      · exact only_if_fits hs₂.1 fun _ => set_level_steps .d hs₂.1
  · exact fail_node_steps h

theorem bind_hook_steps {f : Fn} (h : s.Fits count maxTag total k) (hi : i < count) :
    Steps count (bindHook o i n f) s fun _ s' => s'.Fits count maxTag total k := by
  unfold bindHook
  split
  · exact fail_node_steps h
  · dsimp only
    refine InPlace.Leads.bind (quiet_fits h hi fun _ _ =>
      ⟨rfl, rfl, rfl, rfl, rfl, fun _ => ⟨rfl, rfl⟩⟩) fun _ s₁ h₁ => ?_
    exact set_level_steps .d { h₁ with }

theorem check_range_steps {a b : Instruction} (h : s.Fits count maxTag total k)
    (ha : a ∈ s.nodes.items) (hb : b ∈ s.nodes.items) (hbytes : a.op = .bytes ∧ b.op = .bytes) :
    Steps count (checkRange n a b) s fun _ s' => s'.Fits count maxTag total k := by
  unfold checkRange
  refine (constant_of_steps h ha (by rw [hbytes.1]; rfl)).bind fun first s' hs' => ?_
  subst hs'
  refine (constant_of_steps h hb (by rw [hbytes.2]; rfl)).bind fun last s' hs' => ?_
  subst hs'
  exact require_fits h fun _ => fail_node_steps h

theorem pattern_check_steps {f : Fn} {a b : Instruction} (h : s.Fits count maxTag total k)
    (ha : a ∈ s.nodes.items) (hb : b ∈ s.nodes.items) :
    Steps count (patternCheck o n f a b) s fun _ s' => s'.Fits count maxTag total k := by
  unfold patternCheck
  refine (require_steps fun _ => fail_node_steps h).bind fun _ s' hs' => ?_
  obtain ⟨rfl, hbytes⟩ := hs'
  refine (require_steps fun _ => fail_limit_steps h).bind fun _ s' hs' => ?_
  obtain ⟨rfl, -⟩ := hs'
  refine (require_steps fun _ => fail_node_steps h).bind fun _ s' hs' => ?_
  obtain ⟨rfl, -⟩ := hs'
  refine only_if_fits h fun hrange => check_range_steps h ha hb ?_
  have hf : f = .range := of_decide_eq_true hrange
  subst hf
  simpa using hbytes

/-- A function of a pair checks its two patterns, or reports its syntax. -/
theorem pair_check_steps {f : Fn} {arguments : List Instruction}
    (h : s.Fits count maxTag total k) (harguments : ∀ a ∈ arguments, a ∈ s.nodes.items)
    (first : Bool) :
    Steps count (do
      require first (failTypes n)
      match arguments with
      | [a, b] => patternCheck o n f a b
      | _ => failSyntax n) s fun _ s' => s'.Fits count maxTag total k := by
  refine (require_steps fun _ => fail_node_steps h).bind fun _ s' hs' => ?_
  obtain ⟨rfl, -⟩ := hs'
  rcases arguments with _ | ⟨a, _ | ⟨b, _ | ⟨c, rest⟩⟩⟩
  · exact fail_node_steps h
  · exact fail_node_steps h
  · exact pattern_check_steps h (harguments _ (List.mem_cons_self ..))
      (harguments _ (List.mem_cons_of_mem _ (List.mem_cons_self ..)))
  · exact fail_node_steps h

/-- Checking the arguments of a call keeps the areas. -/
theorem check_arguments_steps {f : Fn} {arguments : List Instruction}
    (h : s.Fits count maxTag total k) (hi : i < count)
    (harguments : ∀ a ∈ arguments, a ∈ s.nodes.items) :
    Steps count (checkArguments o i n f arguments) s fun _ s' => s'.Fits count maxTag total k := by
  have htypes : ∀ good, Steps count (failTypes n : Analyzer Unit) s good := fun _ =>
    fail_node_steps h
  have hnode : ∀ first second : Bool, Steps count (do
      require first (failTypes n)
      onlyIf second (setLevel .d)) s fun _ s' => s'.Fits count maxTag total k := fun first second =>
    (require_fits h htypes).bind fun _ s' h' => only_if_fits h' fun _ => set_level_steps .d h'
  have hdocument : ∀ first : Bool, Steps count (do
      require first (failTypes n)
      setLevel .d) s fun _ s' => s'.Fits count maxTag total k := fun first =>
    (require_fits h htypes).bind fun _ s' h' => set_level_steps .d h'
  have hhook : ∀ first : Bool, Steps count (do
      require first (failTypes n)
      bindHook o i n f) s fun _ s' => s'.Fits count maxTag total k := fun first =>
    (require_fits h htypes).bind fun _ s' h' => bind_hook_steps h' hi
  unfold checkArguments
  cases f with
  | value | tag | tagClass | number | constructed => exact hnode _ _
  | len | not | substr => exact require_fits h htypes
  | count | «exists» | empty => exact hdocument _
  | position | last => exact set_level_steps .d h
  | num | bcd | text | date => exact hhook _
  | starts | ends | contains | mask | range => exact pair_check_steps h harguments _
  | name | unknown => exact h

theorem check_provider_steps {f : Fn} (h : s.Fits count maxTag total k) :
    Steps count (checkProvider o n f) s fun _ s' => s'.Fits count maxTag total k := by
  have hraise : ∀ {s : Analysis} (holds : Bool), s.Fits count maxTag total k →
      Steps count (onlyIf holds (setLevel .d)) s fun _ s' => s'.Fits count maxTag total k :=
    fun holds h => only_if_fits h fun _ => set_level_steps .d h
  unfold checkProvider
  refine (hraise _ h).bind fun _ s₁ h₁ => ?_
  refine (require_fits h₁ fun _ => fail_node_steps h₁).bind fun _ s₂ h₂ => ?_
  refine (hraise _ h₂).bind fun _ s₃ h₃ => ?_
  refine (require_fits h₃ fun _ => fail_node_steps h₃).bind fun _ s₄ h₄ => ?_
  exact hraise _ h₄

theorem check_call_steps {f : Fn} {arguments : List Nat} (h : s.Fits count maxTag total k)
    (hi : i < count) (harguments : ∀ a ∈ arguments, a < i) :
    Steps count (checkCall o i n f arguments) s fun _ s' => s'.Fits count maxTag total k := by
  unfold checkCall
  refine (require_fits h fun _ => fail_node_steps h).bind fun _ s₁ h₁ => ?_
  refine (require_fits h₁ fun _ => fail_node_steps h₁).bind fun _ s₂ h₂ => ?_
  refine (only_if_fits h₂ fun _ => set_level_steps .s2 h₂).bind fun _ s₃ h₃ => ?_
  refine InPlace.Leads.bind (quiet_fits h₃ hi fun _ _ =>
    ⟨rfl, rfl, rfl, rfl, rfl, fun _ => ⟨rfl, rfl⟩⟩) fun _ s₄ h₄ => ?_
  refine (map_nodes_steps h₄ arguments fun a ha => (harguments a ha).trans hi).bind
    fun nodes s₅ hs₅ => ?_
  obtain ⟨rfl, hnodes⟩ := hs₅
  refine (check_arguments_steps h₄ hi hnodes).bind fun _ s₆ h₆ => ?_
  exact check_provider_steps h₆

/-- Analyzing a call keeps the areas. -/
theorem analyze_call_steps (h : s.At count o.maxResolvedTag total i copiesCall) (hi : i < count) :
    Steps count (analyzeCall text o i) s fun _ s' =>
      s'.Fits count o.maxResolvedTag total (i + 1) := by
  unfold analyzeCall
  refine (node_at_steps h.fits hi).bind fun n s' hn => ?_
  obtain ⟨rfl, hn⟩ := hn
  split
  · exact h.fits
  next hop =>
    have hop := Decidable.not_not.mp hop
    refine (call_args_steps h.fits hi.le (h.fits.linked i n hn)).bind fun result s' hresult => ?_
    obtain ⟨rfl, harguments⟩ := hresult
    split
    · exact fail_node_steps h.fits
    next arguments =>
      split
      · refine (resolve_call_steps (h.free n hn (by rw [hop]; rfl)) hi hn hop
          (harguments arguments rfl)).bind fun _ s₁ h₁ => ?_
        exact h₁
      · refine (check_call_steps h.fits hi (harguments arguments rfl)).bind fun _ s₁ h₁ => ?_
        exact h₁

end Calls

section Completion

/-- The two operands of an operator are read. -/
theorem operands_steps {α : Type} {rest : Instruction → Instruction → Analyzer α}
    {good : α → Analysis → Prop} (h : s.Fits count maxTag total k) (hi : i < count)
    (hn : s.nodes.items[i]? = some n) (hop : n.op.isOperator = true)
    (hrest : ∀ a b, a ∈ s.nodes.items → b ∈ s.nodes.items → Steps count (rest a b) s good) :
    Steps count (do
      let a ← linked n.left
      let b ← linked n.right
      rest a b) s good := by
  have hlinked := h.linked i n hn
  obtain ⟨hl, hr⟩ := hlinked.operands (.inl hop)
  obtain ⟨l, hl⟩ := Option.isSome_iff_exists.mp hl
  obtain ⟨r, hr⟩ := Option.isSome_iff_exists.mp hr
  refine (linked_steps h hl ((hlinked.left l hl).trans hi)).bind fun a s' ha => ?_
  obtain ⟨rfl, ha⟩ := ha
  refine (linked_steps h hr ((hlinked.right r hr).trans hi)).bind fun b s' hb => ?_
  obtain ⟨rfl, hb⟩ := hb
  exact hrest a b (List.mem_of_getElem? ha) (List.mem_of_getElem? hb)

theorem check_operands_steps (h : s.Fits count maxTag total k) (hi : i < count) :
    Steps count (checkOperands i) s fun _ s' => s'.Fits count maxTag total k := by
  unfold checkOperands
  refine (node_at_steps h hi).bind fun n s' hn => ?_
  obtain ⟨rfl, hn⟩ := hn
  refine only_if_fits h fun hop => ?_
  unfold checkOperator
  refine operands_steps h hi hn hop fun a b _ _ => ?_
  refine (only_if_fits h fun _ => set_level_steps .d h).bind fun _ s₁ h₁ => ?_
  exact require_fits h₁ fun _ => fail_node_steps h₁

theorem simplified_steps (h : s.Fits count maxTag total k) :
    Steps count simplified s fun _ s' => s'.Fits count maxTag total k :=
  { h with }

/-- A decided instruction has no operands any more. -/
theorem fold_steps {value : Bool} (h : s.Fits count maxTag total k) (hi : i < count) :
    Steps count (fold i value) s fun _ s' => s'.Fits count maxTag total k := by
  have hlt : i < s.nodes.size := by rw [h.size]; exact hi
  unfold fold
  refine (change_steps h hi).bind fun _ s₁ hs₁ => ?_
  subst hs₁
  exact simplified_steps (h.changed (List.getElem?_eq_getElem hlt)
    (leaf_linked rfl rfl ⟨rfl, nofun⟩) (fun hop => by cases hop) fun _ => Nat.zero_le _)

/-- The constants of a comparison are compared where they lie. -/
theorem constant_order_steps {a b : Instruction} (h : s.Fits count maxTag total k)
    (ha : a ∈ s.nodes.items) (hb : b ∈ s.nodes.items) :
    Steps count (constantOrder text a b) s fun _ s' => s' = s := by
  unfold constantOrder
  split
  · rfl
  split
  next hconstant =>
    obtain ⟨hop, hsame⟩ := hconstant
    have hisConstant : a.op.isConstant = true := by
      rcases hop with hop | hop <;> rw [hop] <;> rfl
    refine (constant_of_steps h ha hisConstant).bind fun first s' hs' => ?_
    subst hs'
    refine (constant_of_steps h hb (hsame ▸ hisConstant)).bind fun second s' hs' => ?_
    subst hs'
    rfl
  · rfl

theorem fold_comparison_steps (h : s.Fits count maxTag total k) (hi : i < count) :
    Steps count (foldComparison text i) s fun _ s' => s'.Fits count maxTag total k := by
  unfold foldComparison
  refine (node_at_steps h hi).bind fun n s' hn => ?_
  obtain ⟨rfl, hn⟩ := hn
  refine only_if_fits h fun hop => ?_
  unfold decideComparison
  refine operands_steps h hi hn (comparison_operator hop) fun a b ha hb => ?_
  refine (constant_order_steps h ha hb).bind fun order s' hs' => ?_
  subst hs'
  split
  · exact h
  · exact fold_steps h hi

/-- A dot lies before its path, so its change asks for nothing. -/
theorem drop_dot_steps (h : s.Fits count maxTag total (i + 1)) (hi : i < count) :
    Steps count (dropDot i) s fun _ s' => s'.Fits count maxTag total (i + 1) := by
  unfold dropDot
  refine (node_at_steps h hi).bind fun n s' hn => ?_
  obtain ⟨rfl, hn⟩ := hn
  refine only_if_fits h fun hop => ?_
  have hchild : n.op = .child := of_decide_eq_true hop
  have hlinked := h.linked i n hn
  have hboth := hlinked.operands (.inl (by rw [hchild]; rfl))
  obtain ⟨r, hr⟩ := Option.isSome_iff_exists.mp hboth.2
  have hlt := hlinked.right r hr
  refine (within_steps hr).bind fun dot s' hdot => ?_
  obtain ⟨rfl, rfl⟩ := hdot
  refine (node_at_steps h (hlt.trans hi)).bind fun last s' hlast => ?_
  obtain ⟨rfl, hlast⟩ := hlast
  refine only_if_fits h fun _ => ?_
  have hlinkedLast := h.linked dot last hlast
  unfold removeDot
  refine (change_steps h (hlt.trans hi)).bind fun _ s₁ hs₁ => ?_
  subst hs₁
  have h₁ := h.changed (f := fun dot => { dot with op := .bool, type := .bool, folded := 1 }) hlast
    ⟨hlinkedLast.left, hlinkedLast.right, fun hop => by rcases hop with hop | hop <;> cases hop⟩
    (fun hop => by cases hop) fun hk => by omega
  refine (change_steps h₁ hi).bind fun _ s₂ hs₂ => ?_
  subst hs₂
  have hlt' : i < (s'.nodes.changed dot fun dot =>
      { dot with op := .bool, type := .bool, folded := 1 }).size := by
    rw [Stack.size_changed, h.size]
    exact hi
  have hn₁ : (s'.nodes.changed dot fun dot =>
      { dot with op := .bool, type := .bool, folded := 1 }).items[i]? = some n := by
    show (s'.nodes.items.modify dot _)[i]? = some n
    rw [List.getElem?_modify, hn]
    show some (if dot = i then _ else n) = some n
    rw [if_neg hlt.ne]
  exact simplified_steps (h₁.changed hn₁ ⟨hlinked.left, hlinked.right, fun _ => hboth⟩
    (fun hop => by cases hop) fun hk => by omega)

theorem fold_combination_steps (h : s.Fits count maxTag total k) (hi : i < count) :
    Steps count (foldCombination i) s fun _ s' => s'.Fits count maxTag total k := by
  unfold foldCombination
  refine (node_at_steps h hi).bind fun n s' hn => ?_
  obtain ⟨rfl, hn⟩ := hn
  refine only_if_fits h fun hop => ?_
  have hoperator : n.op.isOperator = true := by
    simp only [Bool.or_eq_true, decide_eq_true_eq] at hop
    rcases hop with hop | hop <;> rw [hop] <;> rfl
  unfold decideCombination
  exact operands_steps h hi hn hoperator fun a b _ _ => only_if_fits h fun _ => fold_steps h hi

theorem share_test_steps (h : s.Fits count maxTag total k) (hi : i < count) :
    Steps count (shareTest text i) s fun _ s' => s'.Fits count maxTag total k := by
  unfold shareTest
  refine (node_at_steps h hi).bind fun n s' hn => ?_
  obtain ⟨rfl, -⟩ := hn
  refine get_steps.bind fun a s' ha => ?_
  obtain ⟨rfl, rfl⟩ := ha
  dsimp only
  split
  · exact h
  · unfold reuseTest
    refine InPlace.Leads.bind (quiet_fits h hi fun _ _ =>
      ⟨rfl, rfl, rfl, rfl, rfl, fun _ => ⟨rfl, rfl⟩⟩) fun _ s₁ h₁ => ?_
    exact simplified_steps h₁

theorem complete_node_steps (h : s.Fits count maxTag total (i + 1)) (hi : i < count) :
    Steps count (completeNode text o i) s fun _ s' => s'.Fits count maxTag total (i + 1) := by
  unfold completeNode
  refine (check_operands_steps h hi).bind fun _ s₁ h₁ => ?_
  refine only_if_fits h₁ fun _ => ?_
  unfold optimizeNode
  refine (fold_comparison_steps h₁ hi).bind fun _ s₂ h₂ => ?_
  refine (drop_dot_steps h₂ hi).bind fun _ s₃ h₃ => ?_
  refine (fold_combination_steps h₃ hi).bind fun _ s₄ h₄ => ?_
  exact share_test_steps h₄ hi

end Completion

/-- A turn of the second loop uses the room of its instruction. -/
theorem analyze_node_steps (h : s.Fits count o.maxResolvedTag total i) (hi : i < count) :
    Steps count (analyzeNode text o i) s fun _ s' =>
      s'.Fits count o.maxResolvedTag total (i + 1) := by
  have hat : s.At count o.maxResolvedTag total i copiesAny := ⟨h.next hi, fun _ _ _ => h⟩
  unfold analyzeNode
  refine (start_node_steps hat hi).bind fun _ s₁ h₁ => ?_
  refine (parent_dots_steps h₁ hi).bind fun _ s₂ h₂ => ?_
  refine (test_tag_steps h₂ hi).bind fun _ s₃ h₃ => ?_
  refine (test_level_steps h₃ hi).bind fun _ s₄ h₄ => ?_
  refine (bind_variable_steps h₄ hi).bind fun _ s₅ h₅ => ?_
  refine (scalar_type_steps h₅ hi).bind fun _ s₆ h₆ => ?_
  refine (literal_value_steps h₆ hi).bind fun _ s₇ h₇ => ?_
  refine (emit_constant_steps h₇ hi).bind fun _ s₈ h₈ => ?_
  refine (truth_type_steps h₈ hi).bind fun _ s₉ h₉ => ?_
  refine (analyze_call_steps h₉ hi).bind fun resolved s₁₀ h₁₀ => ?_
  exact only_if_fits h₁₀ fun _ => complete_node_steps h₁₀ hi

/-- `analyze` reports its failures, and keeps the instructions linked. -/
theorem analyze_steps {root : Nat} (h : s.Fits s.nodes.size o.maxResolvedTag total 0) :
    Steps s.nodes.size (analyze text o root) s fun _ s' =>
      s'.nodes.size = s.nodes.size ∧ AllLinked s'.nodes.items := by
  unfold analyze
  refine get_steps.bind fun a s' ha => ?_
  obtain ⟨rfl, rfl⟩ := ha
  dsimp only
  refine (InPlace.leads_forM (fun s => s.Fits s'.nodes.size o.maxResolvedTag total 0) _
    (fun i hi s hs => mark_node_steps hs (List.mem_range.mp hi)) h).bind fun _ s₁ h₁ => ?_
  refine (InPlace.leads_range (fun i s => s.Fits s'.nodes.size o.maxResolvedTag total i) _
    (fun i hi s hs => analyze_node_steps hs hi) h₁).bind fun _ s₂ h₂ => ?_
  exact ⟨h₂.size, h₂.linked⟩

end OpenTlv.Query
