import OpenTlv.Query.AnalyzerRun
import OpenTlv.Query.Compiler

/-!
# The scratch of the compiler is always sufficient

`tlv_query_compile_scratch` counts the tokens of a text, and its extent is what the layout of
`tlv_query_compile` takes for that count. With areas of these capacities the parser, the guards, the
analyzer and the description of the program make no access outside of their areas, whether the
compilation succeeds or fails.
-/

namespace OpenTlv.Query

variable {text : Bytes} {o : CompileOptions} {nodes : Stack Instruction}
  {count room root storage : Nat}

/-- The instructions that the guards leave for the analyzer. -/
structure Prepared (maxTag count room : Nat) (nodes : Stack Instruction) : Prop where
  size : nodes.size = count
  linked : AllLinked nodes.items
  unused : ∀ n ∈ nodes.items, Unused n
  room : roomOf maxTag nodes.items ≤ room

section Guards

variable {maxTag : Nat}

theorem reported_checked {α : Type} {found : Option α} {a : α} (good : α → Prop)
    (h : found = some a) (ha : good a) : Meets (checked found) Reported good := by
  rw [h]
  exact ha

/-- A harmless change of an instruction. -/
theorem Prepared.update {f : Instruction → Instruction} {j : Nat}
    (h : Prepared maxTag count room nodes) (hj : j < count)
    (hf : ∀ n, nodes.items[j]? = some n →
      Linked j (f n) ∧ payloadRoom maxTag (f n) ≤ payloadRoom maxTag n)
    (hunused : ∀ n, Unused n → Unused (f n)) :
    Meets (checked (nodes.update j f)) Reported fun nodes' =>
      nodes' = nodes.changed j f ∧ Prepared maxTag count room nodes' := by
  have hmodify := @room_of_modify maxTag f nodes.items j 0 fun _ n hn => (hf n hn).2
  rw [List.drop_zero, List.drop_zero] at hmodify
  refine reported_checked _ (Stack.update_of_lt f (by rw [h.size]; exact hj)) ⟨rfl, ?_, ?_, ?_, ?_⟩
  · exact (Stack.size_changed ..).trans h.size
  · exact h.linked.modify fun n hn => (hf n hn).1
  · exact unused_modify h.unused hunused
  · exact hmodify.trans h.room

theorem guard_predicate_meets {guard : Option Nat} {j : Nat}
    (h : Prepared maxTag count room nodes) (hj : j < count) :
    Meets (guardPredicate guard nodes j) Reported (Prepared maxTag count room) := by
  unfold guardPredicate
  refine Meets.mono (h.update hj (fun n hn => ⟨?_, Nat.le_refl _⟩) fun _ hn => ⟨hn.offset, hn.size⟩)
    (fun _ h => h) fun _ h => h.2
  have hlinked := h.linked j n hn
  exact ⟨hlinked.left, hlinked.right, hlinked.operands⟩

/-- A step that does not start at the root any more is still a leaf. -/
theorem self_instead_of_root {n m : Instruction} {j : Nat} (hn : Linked j n)
    (hleft : m.left = n.left) (hright : m.right = n.right) (hstart : m.start = n.start)
    (hstop : m.stop = n.stop) (hop : m.op = if n.op = .root then .self else n.op) :
    Linked j m ∧ payloadRoom maxTag m ≤ payloadRoom maxTag n := by
  refine ⟨⟨fun l hl => hn.left l (hleft ▸ hl), fun r hr => hn.right r (hright ▸ hr),
    fun hoperator => ?_⟩, ?_⟩
  · rw [hleft, hright]
    split at hop
    · rw [hop] at hoperator
      rcases hoperator with hoperator | hoperator <;> cases hoperator
    · rw [hop] at hoperator
      exact hn.operands hoperator
  · unfold payloadRoom
    rw [hop, hstart, hstop]
    by_cases hroot : n.op = .root
    · rw [if_pos hroot]
      exact Nat.zero_le _
    · rw [if_neg hroot]

theorem guard_path_meets {n : Instruction} {j : Nat} (h : Prepared maxTag count room nodes)
    (hj : j < count) :
    Meets (guardPath text n nodes j) Reported (Prepared maxTag count room) := by
  have hread := Stack.read_of_lt (s := nodes) (by rw [h.size]; exact hj)
  unfold guardPath
  refine (reported_checked (fun step => nodes.items[j]? = some step) hread hread).bind
    (fun _ h => h) fun step hstep => ?_
  dsimp only
  refine Meets.bind (h.update hj (fun m hm => ⟨?_, Nat.le_refl _⟩)
    fun _ hn => ⟨hn.offset, hn.size⟩) (fun _ h => h) fun nodes' h' => ?_
  · have hlinked := h.linked j m hm
    exact ⟨hlinked.left, hlinked.right, hlinked.operands⟩
  split
  · exact h'.2
  · refine Meets.mono (h'.2.update hj (fun m hm => ?_) fun _ hn => ⟨hn.offset, hn.size⟩)
      (fun _ h => h) fun _ h => h.2
    have hop : m.op = step.op := by
      rw [h'.1, Stack.items_changed, List.getElem?_modify_eq, hstep] at hm
      cases hm
      rfl
    exact self_instead_of_root (h'.2.linked j m hm) rfl rfl rfl rfl (by rw [hop])

/-- The instructions below an operand lie before its operator. -/
theorem operand_range_meets {operand : Option Nat} {last : Nat}
    (h : Prepared maxTag count room nodes) (hoperand : operand = some last) (hlast : last < count) :
    Meets (operandRange nodes operand) Reported fun range => ∀ j ∈ range, j < count := by
  unfold operandRange
  refine (reported_checked (fun found => found = last) hoperand rfl).bind (fun _ h => h)
    fun found hfound => ?_
  subst hfound
  refine (reported_checked (fun _ => True)
    (Stack.read_of_lt (s := nodes) (by rw [h.size]; exact hlast)) trivial).bind (fun _ h => h)
    fun node _ => ?_
  intro j hj
  have := List.mem_range'_1.mp hj
  omega

theorem guard_node_meets {i : Nat} (h : Prepared maxTag count room nodes) (hi : i < count) :
    Meets (guardNode text nodes i) Reported (Prepared maxTag count room) := by
  have hread := Stack.read_of_lt (s := nodes) (by rw [h.size]; exact hi)
  unfold guardNode
  refine (reported_checked (fun n => nodes.items[i]? = some n) hread hread).bind
    (fun _ h => h) fun n hn => ?_
  have hlinked := h.linked i n hn
  have hguards : ∀ body : Stack Instruction → Nat → Run (Stack Instruction),
      n.op.isOperator = true →
      (∀ nodes j, Prepared maxTag count room nodes → j < count →
        Meets (body nodes j) Reported (Prepared maxTag count room)) →
      Meets (do (← operandRange nodes n.right).foldlM body nodes) Reported
        (Prepared maxTag count room) := by
    intro body hop hbody
    obtain ⟨-, hr⟩ := hlinked.operands (.inl hop)
    obtain ⟨r, hr⟩ := Option.isSome_iff_exists.mp hr
    refine (operand_range_meets h hr ((hlinked.right r hr).trans hi)).bind (fun _ h => h)
      fun range hrange => ?_
    exact Meets.foldlM _ range h fun nodes h j hj => hbody nodes j h (hrange j hj)
  split
  next hfilter =>
    exact hguards _ (by rw [hfilter]; rfl) fun nodes j h hj => guard_predicate_meets h hj
  split
  next hpath =>
    exact hguards _ (by rcases hpath with hpath | hpath <;> rw [hpath] <;> rfl)
      fun nodes j h hj => guard_path_meets h hj
  next => exact h

end Guards

section Describe

theorem pattern_bound_meets {n : Instruction} {i : Nat} (hlinked : AllLinked nodes.items)
    (hn : nodes.items[i]? = some n) :
    Meets (patternBound o nodes n) Reported fun _ => True := by
  have hi : i < nodes.size := (List.getElem?_eq_some_iff.mp hn).1
  unfold patternBound
  split
  next left _ hleft =>
    split
    · have hlt := (hlinked i n hn).left left hleft
      have hread := Stack.read_of_lt (s := nodes) (hlt.trans hi)
      refine (reported_checked (fun last => nodes.items[left]? = some last) hread
        hread).bind (fun _ h => h) fun last hlast => ?_
      dsimp only
      split
      next hargs =>
        have hlinkedLast := hlinked left last hlast
        obtain ⟨-, hr⟩ := hlinkedLast.operands (.inr hargs)
        obtain ⟨r, hr⟩ := Option.isSome_iff_exists.mp hr
        refine (reported_checked (fun found => found = r) hr rfl).bind (fun _ h => h)
          fun found hfound => ?_
        subst hfound
        refine (reported_checked (fun _ => True) (Stack.read_of_lt (s := nodes)
          (((hlinkedLast.right found hr).trans hlt).trans hi)) trivial).bind (fun _ h => h)
          fun _ _ => trivial
      next => exact trivial
    · exact trivial
  next => exact trivial

theorem assign_slot_meets {state : Stack Instruction × Nat} {i : Nat} (hi : i < state.1.size) :
    Meets (assignSlot text state i) Reported fun next => next.1.size = state.1.size := by
  unfold assignSlot
  dsimp only
  refine (reported_checked (fun _ => True) (Stack.read_of_lt hi) trivial).bind
    (fun _ h => h) fun n _ => ?_
  split
  · rfl
  · refine (reported_checked (fun nodes => nodes.size = state.1.size)
      (Stack.update_of_lt _ hi) (Stack.size_changed ..)).bind (fun _ h => h) fun nodes hsize => ?_
    exact hsize

theorem unlocated_reported {α : Type} {status : Status} {kind : ErrorKind} {expected : String}
    {good : α → Prop} : Meets (unlocated status kind expected) Reported good :=
  ⟨⟨_, rfl⟩, trivial⟩

theorem image_size_meets {size used payloadSize : Nat} :
    Meets (imageSize size used payloadSize) Reported fun _ => True := by
  unfold imageSize
  dsimp only
  split
  · exact ⟨⟨_, rfl⟩, trivial⟩
  split
  · exact ⟨⟨_, rfl⟩, trivial⟩
  split
  · exact ⟨⟨_, rfl⟩, trivial⟩
  · trivial

/-- The description of a program reads its instructions where they are. -/
theorem describe_meets {needed : Nat} {a : Analysis} (hlinked : AllLinked a.nodes.items)
    (hroot : root < a.nodes.size) :
    Meets (describe text o needed root a) Reported fun _ => True := by
  unfold describe
  refine (Meets.mapM _ fun n hn => ?_).bind (fun _ h => h) fun bounds _ => ?_
  · obtain ⟨i, hi⟩ := List.mem_iff_getElem?.mp hn
    exact pattern_bound_meets hlinked hi
  refine image_size_meets.bind (fun _ h => h) fun total _ => ?_
  refine (Meets.foldlM (fun state => state.1.size = a.nodes.size) _ rfl
    fun state hstate i hi => ?_).bind (fun _ h => h) fun state hstate => ?_
  · refine (assign_slot_meets (by rw [hstate]; exact List.mem_range.mp hi)).mono (fun _ h => h)
      fun next hnext => hnext.trans hstate
  refine (reported_checked (fun _ => True) (Stack.read_of_lt (s := state.1)
    (by rw [hstate]; exact hroot)) trivial).bind (fun _ h => h) fun _ _ => trivial

end Describe

/-- Areas with the capacities that a count of tokens and the options call for. -/
structure ScratchAreas.Hold (areas : ScratchAreas) (text : Bytes) (o : CompileOptions)
    (count : Nat) : Prop where
  tokens : count ≤ areas.tokens
  nodes : 2 * (count + 1) ≤ areas.nodes
  ops : count + 1 ≤ areas.ops
  values : count + 1 ≤ areas.values
  payload : text.length + count * o.maxResolvedTag ≤ areas.payload

/-- What the analyzer starts with. -/
theorem compile_nodes_meets {areas : ScratchAreas} {none' : Option (Stack Token)}
    (hcount : lex text o.maxTokens none = .ok (count, none')) (hareas : areas.Hold text o count) :
    Meets (compileNodes text o areas) Reported fun result =>
      result.2 < result.1.size ∧ Prepared o.maxResolvedTag result.1.size
        (text.length + count * o.maxResolvedTag) result.1 := by
  obtain ⟨-, tokens, hlaid, hlength, hstores⟩ := lex_stores hcount
  obtain ⟨area, hlex, hitems⟩ := hstores areas.tokens hareas.tokens
  have hsize : area.size = count := by
    unfold Stack.size
    rw [hitems, hlength]
  have hnodes := hareas.nodes
  have hops := hareas.ops
  have hvalues := hareas.values
  unfold compileNodes
  rw [hlex]
  have hparsed := @parse_parsed o.maxResolvedTag area text ⟨o.maxNesting, o.maxStates⟩
    (.empty areas.nodes) (.empty areas.ops) (.empty areas.values)
    ⟨show 2 * area.size ≤ areas.nodes by omega, show area.size ≤ areas.ops by omega,
      show area.size ≤ areas.values by omega⟩ rfl rfl rfl
  refine hparsed.bind (fun _ h => h) fun result hresult => ?_
  have hroom : roomOf o.maxResolvedTag result.1.items ≤
      text.length + count * o.maxResolvedTag := by
    refine hresult.room.trans ?_
    unfold tokenRoom
    rw [hsize, hitems, ← hlength, List.take_length]
    exact Nat.add_le_add_right hlaid.widths _
  refine (Meets.foldlM _ _ ⟨rfl, hresult.linked, hresult.unused, hroom⟩ fun nodes h i hi =>
    guard_node_meets h (List.mem_range.mp hi)).bind (fun _ h => h) fun nodes h => ?_
  exact ⟨by rw [h.size]; exact hresult.root, ⟨rfl, h.linked, h.unused, h.room⟩⟩

/-- The analyzer stays in its areas from the compiled instructions on. -/
theorem analyze_nodes_steps {areas : ScratchAreas} {none' : Option (Stack Token)}
    {nodes : Stack Instruction} (hcount : lex text o.maxTokens none = .ok (count, none'))
    (hareas : areas.Hold text o count) (hnodes : compileNodes text o areas = .ok (nodes, root)) :
    root < nodes.size ∧
      Steps nodes.size (analyze text o root) { nodes := nodes, payload := .empty areas.payload }
        fun _ a => a.nodes.size = nodes.size ∧ AllLinked a.nodes.items := by
  have hmeets := compile_nodes_meets hcount hareas
  rw [hnodes] at hmeets
  obtain ⟨hroot, hprepared⟩ := hmeets
  let start : Analysis := { nodes := nodes, payload := .empty areas.payload }
  have hfits : start.Fits start.nodes.size o.maxResolvedTag
      (text.length + count * o.maxResolvedTag) 0 := by
    refine ⟨rfl, hprepared.linked, fun n hn hop => ?_, ?_, hareas.payload⟩
    · have hunused := hprepared.unused n hn
      rw [hunused.offset, hunused.size]
      exact Nat.zero_le _
    · show 0 + roomOf o.maxResolvedTag (nodes.items.drop 0) ≤ _
      rw [Nat.zero_add, List.drop_zero]
      exact hprepared.room
  exact ⟨hroot, analyze_steps hfits⟩

/-- A compilation in areas of sufficient capacity makes no access outside of them. -/
theorem compile_with_meets {areas : ScratchAreas} {needed : Nat} {storage : Option Nat}
    {none' : Option (Stack Token)} (hcount : lex text o.maxTokens none = .ok (count, none'))
    (hareas : areas.Hold text o count) :
    Meets (compileWith text o needed areas storage).1 Reported fun _ => True := by
  have hnodes := compile_nodes_meets hcount hareas
  unfold compileWith
  cases hcompiled : compileNodes text o areas with
  | error stop =>
    rw [hcompiled] at hnodes
    exact hnodes
  | ok result =>
    obtain ⟨hroot, hanalyzed⟩ := analyze_nodes_steps hcount hareas hcompiled
    unfold Steps InPlace.Leads at hanalyzed
    have hdescribe : ∀ a : Analysis, a.nodes.size = result.1.size → AllLinked a.nodes.items →
        Meets (describe text o needed result.2 a) Reported fun _ => True :=
      fun a hsize hlinked => describe_meets hlinked (by rw [hsize]; exact hroot)
    dsimp only
    cases hran : (analyze text o result.2).exec
        { nodes := result.1, payload := .empty areas.payload } with
    | mk analyzed a =>
      rw [hran] at hanalyzed
      cases analyzed with
      | error stop =>
        obtain ⟨hreported, hsize, hlinked⟩ := hanalyzed
        have hdescribed := hdescribe a hsize hlinked
        dsimp only
        cases hinfo : describe text o needed result.2 a with
        | error early =>
          rw [hinfo] at hdescribed
          exact hdescribed
        | ok described => exact hreported
      | ok _ =>
        have hdescribed := hdescribe a hanalyzed.1 hanalyzed.2
        dsimp only
        cases hinfo : describe text o needed result.2 a with
        | error early =>
          rw [hinfo] at hdescribed
          exact hdescribed
        | ok described =>
          dsimp only
          split
          · trivial
          · split
            · exact unlocated_reported
            · trivial

/-- A reported extent is that of the counted tokens, for options that pass their check. -/
theorem compile_scratch_eq_ok {needed alignment : Nat}
    (h : queryCompileScratch text o = .ok (needed, alignment)) :
    optionsCheck o text.length = .ok () ∧ ∃ count stored,
      lex text o.maxTokens none = .ok (count, stored) ∧
        needed = (count + 1) * scratchUnit + text.length + count * o.maxResolvedTag := by
  unfold queryCompileScratch at h
  cases hoptions : optionsCheck o text.length with
  | error stop =>
    rw [hoptions] at h
    cases h
  | ok _ =>
    refine ⟨rfl, ?_⟩
    rw [hoptions] at h
    cases hlex : lex text o.maxTokens none with
    | error stop =>
      rw [hlex] at h
      cases h
    | ok counted =>
      obtain ⟨count, stored⟩ := counted
      refine ⟨count, stored, rfl, ?_⟩
      rw [hlex] at h
      simp only [bind, Except.bind] at h
      split at h
      · cases h
      split at h
      · cases h
      · cases h
        rfl

/-- The layout takes what is reported: its payload area is what the other areas leave. -/
theorem scratch_areas_exact (count size maxTag : Nat) :
    scratchAreas count ((count + 1) * scratchUnit + size + count * maxTag) =
      ⟨count + 1, 2 * (count + 1), count + 1, count + 1, size + count * maxTag⟩ ∧
    (scratchAreas count ((count + 1) * scratchUnit + size + count * maxTag)).extent =
      (count + 1) * scratchUnit + size + count * maxTag := by
  have hpayload : (count + 1) * scratchUnit + size + count * maxTag - (count + 1) * scratchUnit =
      size + count * maxTag := by omega
  have hareas : scratchAreas count ((count + 1) * scratchUnit + size + count * maxTag) =
      ⟨count + 1, 2 * (count + 1), count + 1, count + 1, size + count * maxTag⟩ := by
    unfold scratchAreas
    rw [hpayload]
  refine ⟨hareas, ?_⟩
  rw [hareas]
  unfold ScratchAreas.extent scratchUnit tokenSize nodeSize operatorSize valueSize
  dsimp only
  omega

/-- **Compiler scratch is always sufficient.** With the extent that `tlv_query_compile_scratch`
reports, the tokens, the instructions, the two stacks and the payload have room for what the lexed
count of tokens calls for, and a compilation in any areas that large makes no access outside of
them, whether it succeeds or fails. The analyzer makes none either where the description of the
program fails before the failure of the analyzer is returned. -/
theorem compile_scratch_sufficient {needed alignment : Nat} {storage : Option Nat}
    (h : queryCompileScratch text o = .ok (needed, alignment)) :
    ∃ count, lex text o.maxTokens none = .ok (count, none) ∧
      scratchAreas count needed = ⟨count + 1, 2 * (count + 1), count + 1, count + 1,
        text.length + count * o.maxResolvedTag⟩ ∧
      (scratchAreas count needed).extent = needed ∧
      queryCompile text o needed storage =
        compileWith text o needed (scratchAreas count needed) storage ∧
      ∀ areas : ScratchAreas, count ≤ areas.tokens → 2 * (count + 1) ≤ areas.nodes →
        count + 1 ≤ areas.ops → count + 1 ≤ areas.values →
        text.length + count * o.maxResolvedTag ≤ areas.payload →
        (compileWith text o needed areas storage).1 ≠ .error .fault ∧
          ∀ nodes root, compileNodes text o areas = .ok (nodes, root) →
            ((analyze text o root).exec { nodes := nodes, payload := .empty areas.payload }).1 ≠
              .error .fault := by
  obtain ⟨hoptions, count, stored, hlex, hneeded⟩ := compile_scratch_eq_ok h
  obtain ⟨rfl, -⟩ := lex_stores hlex
  have hareas := scratch_areas_exact count text.length o.maxResolvedTag
  rw [← hneeded] at hareas
  refine ⟨count, hlex, hareas.1, hareas.2, ?_, ?_⟩
  · unfold queryCompile
    rw [hoptions, h, hlex]
    dsimp only
    rw [if_neg (Nat.lt_irrefl needed)]
  · intro areas htokens hnodes hops hvalues hpayload
    have hhold : areas.Hold text o count := ⟨htokens, hnodes, hops, hvalues, hpayload⟩
    refine ⟨fun hfault => ?_, fun nodes root hcompiled hfault => ?_⟩
    · have hmeets : Meets (compileWith text o needed areas storage).1 Reported fun _ => True :=
        compile_with_meets hlex hhold
      rw [hfault] at hmeets
      obtain ⟨⟨d, hd⟩, -⟩ := hmeets
      cases hd
    · obtain ⟨-, hsteps⟩ := analyze_nodes_steps hlex hhold hcompiled
      unfold Steps InPlace.Leads at hsteps
      cases hran : (analyze text o root).exec
          { nodes := nodes, payload := .empty areas.payload } with
      | mk analyzed a =>
        rw [hran] at hsteps hfault
        subst hfault
        obtain ⟨⟨⟨d, hd⟩, -⟩, -⟩ := hsteps
        cases hd

/-- The path from 70 to 5A takes three tokens. -/
theorem sample_scratch :
    queryCompileScratch [0x37, 0x30, 0x2F, 0x35, 0x41] {} = .ok (2597, 4) := by
  rfl

theorem compile_scratch_sufficient_sample :
    ∃ count, lex [0x37, 0x30, 0x2F, 0x35, 0x41] 8192 none = .ok (count, none) ∧
      scratchAreas count 2597 = ⟨count + 1, 2 * (count + 1), count + 1, count + 1,
        5 + count * 512⟩ ∧
      (scratchAreas count 2597).extent = 2597 ∧
      queryCompile [0x37, 0x30, 0x2F, 0x35, 0x41] {} 2597 none =
        compileWith [0x37, 0x30, 0x2F, 0x35, 0x41] {} 2597 (scratchAreas count 2597) none ∧
      ∀ areas : ScratchAreas, count ≤ areas.tokens → 2 * (count + 1) ≤ areas.nodes →
        count + 1 ≤ areas.ops → count + 1 ≤ areas.values → 5 + count * 512 ≤ areas.payload →
        (compileWith [0x37, 0x30, 0x2F, 0x35, 0x41] {} 2597 areas none).1 ≠ .error .fault ∧
          ∀ nodes root, compileNodes [0x37, 0x30, 0x2F, 0x35, 0x41] {} areas = .ok (nodes, root) →
            ((analyze [0x37, 0x30, 0x2F, 0x35, 0x41] {} root).exec
              { nodes := nodes, payload := .empty areas.payload }).1 ≠ .error .fault :=
  compile_scratch_sufficient sample_scratch

end OpenTlv.Query
