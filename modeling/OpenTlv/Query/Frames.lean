import OpenTlv.Query.Represent

/-!
# What one dispatch computes

The loops and primitive instructions of the retained machine against the language: tag tests and
axis steps, metadata, the descendant expansion and the sets of a frame.
-/

namespace OpenTlv.Query

/-- `query_plan_tag` is the tag test of the instruction. -/
theorem plan_tag_eq {p : Program} {n : Instruction} (hresolved : n.resolved ≤ 2)
    (hdata : n.dataOffset + n.dataSize ≤ p.payload.length)
    (hmask : n.resolved = 2 → n.maskOffset + n.dataSize ≤ p.payload.length) (tag : Bytes) :
    planTag p n tag = .ok ((p.tagTest n).holds tag) := by
  have hlength : (p.data n).length = n.dataSize := Program.bytes_at_length hdata
  unfold planTag Program.tagTest
  rcases Nat.lt_or_ge n.resolved 1 with hzero | hpos
  · have : n.resolved = 0 := by omega
    simp [this, TagTest.holds, pure, Except.pure]
  · have hne : n.resolved ≠ 0 := by omega
    rw [if_neg hne]
    rcases Nat.lt_or_ge n.resolved 2 with hone | htwo
    · have hres : n.resolved = 1 := by omega
      by_cases htag : tag.length = n.dataSize
      · simp [htag, hres, Program.slice_of_le hdata, TagTest.holds, Program.data, pure,
          Except.pure, bind, Except.bind]
      · have hdiffer : (tag == p.data n) = false := by
          simp only [beq_eq_false_iff_ne, ne_eq]
          rintro rfl
          exact htag hlength
        simp [htag, hres, TagTest.holds, hdiffer, pure, Except.pure]
    · have hres : n.resolved = 2 := by omega
      by_cases htag : tag.length = n.dataSize
      · simp [htag, hres, Program.slice_of_le hdata, Program.slice_of_le (hmask hres),
          TagTest.holds, Program.data, Program.mask, pure, Except.pure, bind, Except.bind]
        exact fun _ => (Program.bytes_at_length hdata).symm
      · simp [htag, hres, TagTest.holds, hlength, pure, Except.pure]

variable {s : Session} {forest : Forest Item}

/-- The node loop of `Q_TEST` decides every index it visits. -/
theorem test_loop_spec (h : s.Ready forest) {i c : Nat} (hi : i < s.program.count)
    (hc : s.Live c) (list : List Nat) (hlist : ∀ k ∈ list, k < s.elements) :
    ∃ cost, ∀ out meter, out.size = s.nodeCapacity + 1 →
      Meets (testLoop s (s.program.get i) c (s.nodes.cell c) list out meter)
        (Reports (meter.left < cost)) fun x =>
          x.1.size = s.nodeCapacity + 1 ∧ Spent cost meter x.2 ∧
            ∀ k, x.1.cell k =
              if k ∈ list then
                (s.world forest).select (s.program.get i).axis (s.program.tagTest (s.program.get i))
                  (s.program.get i).context (s.contextAt c) (some k)
              else out.cell k := by
  have hfacts := h.accepted.facts hi
  induction list with
  | nil =>
    refine ⟨0, fun out meter hsize => ?_⟩
    simp [testLoop, hsize, Spent.zero]
  | cons k rest ih =>
    rw [List.forall_mem_cons] at hlist
    obtain ⟨cost, hrun⟩ := ih hlist.2
    obtain ⟨node, hnode, hcell, hread⟩ := h.listed hlist.1
    have hselect : (s.world forest).select (s.program.get i).axis
        (s.program.tagTest (s.program.get i)) (s.program.get i).context (s.contextAt c)
        (some k) = (axisCandidate s (s.program.get i).axis c (s.nodes.cell c) k (s.nodes.cell k) &&
          (s.program.tagTest (s.program.get i)).holds node.item.element.tag) := by
      rw [h.axis_candidate_eq hc hlist.1]
      simp [World.select, Session.world, hnode]
    refine ⟨(1 + node.item.element.tag.length) + cost, fun out meter hsize => ?_⟩
    have hroom := h.room
    have hklt := hlist.1
    unfold testLoop
    rw [hread]
    show Meets (charge meter (1 + (nodeEvent node).element.tag.length) _ >>= _) _ _
    refine (charge_spec meter _ _).bind (fun e => Reports.mono (fun hlow => ?_) e) ?_
    · have : meter.left < 1 + node.item.element.tag.length := hlow
      omega
    intro meter' hspent
    rw [← hcell]
    have htag : (s.nodes.cell k).event.element.tag = node.item.element.tag := by
      rw [hcell]
      rfl
    rw [htag, plan_tag_eq hfacts.resolved hfacts.data hfacts.mask]
    show Meets (checked (out.write k _) >>= _) _ _
    rw [Area.write_of_lt _ (by omega), ← hselect]
    show Meets (testLoop _ _ _ _ rest (out.put k _) meter') _ _
    refine (hrun (out.put k _) meter' hsize).mono (fun e => Reports.mono (fun hlow => ?_) e) ?_
    · have hleft := hspent.1
      dsimp only [nodeEvent, Item.event] at hleft
      omega
    rintro ⟨out', meter''⟩ ⟨hsize', hspent', hcells⟩
    refine ⟨hsize', hspent.trans hspent', fun j => ?_⟩
    rw [hcells j]
    by_cases hrest : j ∈ rest
    · simp [hrest]
    · by_cases hj : j = k
      · subst hj
        simp [hrest]
      · simp [hrest, hj, Area.put_cell_of_ne]

/-- The empty set. -/
theorem represents_fill : s.Represents (Area.fill (s.nodeCapacity + 1) false) fun _ => false := by
  refine ⟨rfl, fun i _ => ?_⟩
  simp [Session.member]

/-- Adding one context to a set. -/
theorem represents_put (hroom : s.elements ≤ s.nodeCapacity) {area : Area Bool}
    {set : Context → Bool} (h : s.Represents area set) {c : Nat} (hc : s.Live c) :
    s.Represents (area.put c true) fun d => decide (d = s.contextAt c) || set d := by
  refine ⟨h.1, fun i hi => ?_⟩
  by_cases heq : i = c
  · subst heq
    simp [Session.member_eq hc hroom]
  · rw [Area.put_cell_of_ne _ _ heq, h.2 i hi]
    unfold Session.member
    rcases hc.cases hroom with ⟨hlt, hne, hcontext⟩ | ⟨rfl, hge, hcontext⟩
    · simp [hcontext, heq]
    · simp [hcontext, heq]

/-- `Q_TEST` selects what the axis step selects. -/
theorem test_frame_spec (h : s.Ready forest) {i c : Nat} (hi : i < s.program.count)
    (hc : s.Live c) :
    ∃ cost, ∀ vm f, f.context = c → f.out = Area.fill (s.nodeCapacity + 1) false →
      Meets (testFrame s vm f (s.program.get i)) (Reports (vm.meter.left < cost)) fun x =>
        ∃ out meter, x = ({ f with out := out }, { vm with meter := meter }) ∧
          Spent cost vm.meter meter ∧
          s.Represents out ((s.world forest).select (s.program.get i).axis
            (s.program.tagTest (s.program.get i)) (s.program.get i).context (s.contextAt c)) := by
  have hroom := h.room
  obtain ⟨cost, hrun⟩ := test_loop_spec h hi hc (List.range s.elements)
    (fun k hk => List.mem_range.mp hk)
  refine ⟨cost, fun vm f hcontext hout => ?_⟩
  have hread : s.nodes.read c = some (s.nodes.cell c) :=
    Area.read_of_lt (by rw [h.nodesSize]; have := hc.le hroom; omega)
  unfold testFrame
  rw [hcontext, hread]
  show Meets (testLoop s _ c (s.nodes.cell c) _ f.out vm.meter >>= _) _ _
  refine (hrun f.out vm.meter (by rw [hout]; rfl)).bind (fun e he => he) ?_
  rintro ⟨out, meter⟩ ⟨hsize, hspent, hcells⟩
  dsimp only at hsize hspent hcells ⊢
  -- only the abbreviation of the parent step reaches the virtual root
  have hroot : (s.world forest).select (s.program.get i).axis
      (s.program.tagTest (s.program.get i)) (s.program.get i).context (s.contextAt c) none =
        decide ((s.program.get i).axis = .parent ∧ c < s.elements ∧
          (s.nodes.cell c).parent = s.nodeCapacity ∧ (s.program.get i).context = true) := by
    rcases hc.cases hroom with ⟨hlt, hne, heq⟩ | ⟨rfl, hge, heq⟩
    · obtain ⟨here, hhere, hcell, -⟩ := h.listed hlt
      have hparent := h.parent_eq_iff hhere hlt (c := s.nodeCapacity) (.inr rfl)
      rw [Session.context_at_capacity] at hparent
      have hparentOf : (s.world forest).parentOf c = here.parent := by
        simp [World.parentOf, Session.world, hhere]
      rw [Bool.eq_iff_iff]
      simp only [World.select, heq, Option.any_some, hparentOf, hcell, retain, hparent, hlt,
        true_and, Bool.and_eq_true, decide_eq_true_eq]
      tauto
    · simp [World.select, heq, hge]
  have hlow : ∀ k ≤ s.nodeCapacity, k ≠ s.nodeCapacity → out.cell k =
      s.member ((s.world forest).select (s.program.get i).axis
        (s.program.tagTest (s.program.get i)) (s.program.get i).context (s.contextAt c)) k := by
    intro k hk hne
    rw [hcells k]
    by_cases hlt : k < s.elements
    · simp [Session.member, hlt]
    · simp [Session.member, hlt, hne, hout]
  have hlast : out.cell s.nodeCapacity = false := by
    rw [hcells]
    simp [Nat.not_lt.mpr hroom, hout]
  split
  · rename_i hparent
    rw [Area.write_of_lt _ (by omega)]
    refine ⟨out.put s.nodeCapacity true, meter, rfl, hspent, hsize, fun k hk => ?_⟩
    by_cases hne : k = s.nodeCapacity
    · subst hne
      rw [Session.member_eq (.inr rfl) hroom, Session.context_at_capacity, hroot,
        decide_eq_true hparent, Area.put_cell_self]
    · rw [Area.put_cell_of_ne _ _ hne]
      exact hlow k hk hne
  · rename_i hparent
    refine ⟨out, meter, rfl, hspent, hsize, fun k hk => ?_⟩
    by_cases hne : k = s.nodeCapacity
    · subst hne
      rw [Session.member_eq (.inr rfl) hroom, Session.context_at_capacity, hroot,
        decide_eq_false hparent, hlast]
    · exact hlow k hk hne

/-- What Source metadata answers is a value, or is reported at its instruction. -/
theorem metadata_result_spec (n : Instruction) (result : Except Status Nat) :
    Meets (match result with
        | .ok value => .ok value
        | .error status => queryError n status
            (if status = .invalidArg then .events else .source) "Source metadata" : Run Nat)
      (Reports (result.toOption = none)) fun v => result.toOption = some v := by
  cases result with
  | ok value => exact rfl
  | error status => exact query_error_meets.mpr rfl

/-- The property of a retained node. -/
theorem property_value_spec (n : Instruction) {c : Nat} {node : Listed Item} :
    Meets (propertyValue s n c (retain s.nodeCapacity node))
      (Reports ((s.world forest).property (Metadata.ofCode n.selector) c node = none))
      fun v => (s.world forest).property (Metadata.ofCode n.selector) c node = some v := by
  have hsource : ∀ header, Meets (sourceValue s n c (retain s.nodeCapacity node) header)
      (Reports ((s.world forest).source c node header = none))
      fun v => (s.world forest).source c node header = some v := by
    intro header
    have hdocument : (s.world forest).document = s.document := rfl
    unfold sourceValue World.source
    rw [hdocument]
    cases s.document with
    | none => exact metadata_result_spec n _
    | some metadata => exact metadata_result_spec n _
  unfold propertyValue
  cases Metadata.ofCode n.selector with
  | len => exact rfl
  | depth => exact rfl
  | index => exact rfl
  | offset => exact hsource false
  | hlen => exact hsource true

/-- `Q_META` is the metadata of the context. -/
theorem metadata_value_spec (h : s.Ready forest) (n : Instruction) {c : Nat} (hc : s.Live c) :
    Meets (metadataValue s n c)
      (Reports ((s.world forest).metadata (Metadata.ofCode n.selector) (s.contextAt c) = none))
      fun v => (s.world forest).metadata (Metadata.ofCode n.selector) (s.contextAt c) =
        some v := by
  unfold metadataValue
  rcases hc.cases h.room with ⟨hlt, hne, heq⟩ | ⟨rfl, hge, heq⟩
  · obtain ⟨node, hnode, hcell, hread⟩ := h.listed hlt
    have hmetadata : (s.world forest).metadata (Metadata.ofCode n.selector) (some c) =
        ((s.world forest).property (Metadata.ofCode n.selector) c node).bind fun value =>
          if value > int64Max then none else some value := by
      have hget : (s.world forest).nodes[c]? = some node := hnode
      simp [World.metadata, hget]
    rw [if_neg hne, hread, heq, hmetadata]
    refine (@property_value_spec s forest n c node).bind
      (fun e => Reports.mono (fun hnone => by rw [hnone]; rfl) e) ?_
    intro value hvalue
    rw [hvalue, Option.bind_some]
    split
    · exact query_error_meets.mpr rfl
    · exact rfl
  · rw [if_pos rfl, heq]
    exact query_error_meets.mpr rfl

theorem mark_loop_spec (n : Instruction) (list : List Nat) (saved : Area Bool) (meter : Meter)
    (hlist : ∀ j ∈ list, j < saved.size) :
    Meets (markLoop n list saved meter) (Reports (meter.left < list.length)) fun x =>
      x.1.size = saved.size ∧ Spent list.length meter x.2 ∧
        ∀ k, x.1.cell k = true ↔ k ∈ list ∨ saved.cell k = true := by
  induction list generalizing saved meter with
  | nil => simp [markLoop, Spent.zero]
  | cons j rest ih =>
    rw [List.forall_mem_cons] at hlist
    unfold markLoop
    refine (charge_spec meter 1 n).bind (fun e => Reports.mono (fun hlow => ?_) e) ?_
    · simp only [List.length_cons]
      omega
    intro meter' hspent
    rw [Area.write_of_lt _ hlist.1]
    refine (ih (saved.put j true) meter' hlist.2).mono
      (fun e => Reports.mono (fun hlow => ?_) e) ?_
    · have := hspent.1
      simp only [List.length_cons]
      omega
    rintro ⟨out, meter''⟩ ⟨hsize, hspent', hcells⟩
    refine ⟨hsize, ?_, fun k => ?_⟩
    · rw [List.length_cons, Nat.add_comm]
      exact hspent.trans hspent'
    · rw [hcells k, List.mem_cons]
      by_cases hk : k = j
      · subst hk
        simp
      · simp [hk, Area.put_cell_of_ne]

/-- Index `k` is in the set or below a member before index `i`. -/
def Reached (s : Session) (set : Context → Bool) (i k : Nat) : Prop :=
  s.member set k = true ∨
    ∃ a < i, s.member set a = true ∧ a < k ∧ k < (s.nodes.cell a).ending

/-- Expanding one more index: below a member everything is expanded already. -/
theorem reached_succ (h : s.Ready forest) {set : Context → Bool} {i k : Nat}
    (hi : i < s.elements) (hk : k < s.elements) :
    Reached s set (i + 1) k ↔
      Reached s set i k ∨ (Reached s set i i ∧ i < k ∧ k < (s.nodes.cell i).ending) := by
  constructor
  · rintro (hmember | ⟨a, hai, ha, hak, hend⟩)
    · exact .inl (.inl hmember)
    · rcases Nat.lt_or_ge a i with hlt | hge
      · exact .inl (.inr ⟨a, hlt, ha, hak, hend⟩)
      · obtain rfl : a = i := by omega
        exact .inr ⟨.inl ha, hak, hend⟩
  · rintro ((hmember | ⟨a, hai, ha, hak, hend⟩) |
      ⟨hmember | ⟨a, hai, ha, hak, hend⟩, hik, hend'⟩)
    · exact .inl hmember
    · exact .inr ⟨a, by omega, ha, hak, hend⟩
    · exact .inr ⟨i, by omega, hmember, hik, hend'⟩
    · -- the subtree of `i` lies in the subtree of `a`
      obtain ⟨upper, hupper, hcell, -⟩ := h.listed (show a < s.elements by omega)
      obtain ⟨node, hnode, hcell', -⟩ := h.listed hi
      rw [hcell] at hend
      rw [hcell'] at hend'
      have hnested := ((forest.laid 0 none 0 0).nested a i upper node hupper hnode hai
        (by simpa [retain] using hend)).1
      refine .inr ⟨a, by omega, ha, by omega, ?_⟩
      rw [hcell]
      simp only [retain] at hend' ⊢
      omega

/-- The expansion marks what lies below a member. -/
theorem expand_loop_spec (h : s.Ready forest) (n : Instruction) (set : Context → Bool)
    (m i : Nat) (him : i + m = s.elements) :
    ∃ cost, ∀ area meter, area.size = s.nodeCapacity + 1 →
      (∀ k < s.elements, area.cell k = true ↔ Reached s set i k) →
      Meets (expandLoop s n (List.range' i m) area meter) (Reports (meter.left < cost)) fun x =>
        x.1.size = s.nodeCapacity + 1 ∧ Spent cost meter x.2 ∧
          (∀ k < s.elements, x.1.cell k = true ↔ Reached s set s.elements k) ∧
          ∀ k ≥ s.elements, x.1.cell k = area.cell k := by
  have hroom := h.room
  induction m generalizing i with
  | zero =>
    refine ⟨0, fun area meter hsize hcells => ?_⟩
    obtain rfl : i = s.elements := by omega
    simp only [List.range'_zero, expandLoop, meets_ok]
    exact ⟨hsize, Spent.zero meter, hcells, fun _ _ => trivial⟩
  | succ m ih =>
    obtain ⟨cost, hrun⟩ := ih (i + 1) (by omega)
    obtain ⟨node, hnode, hcell, hread⟩ := h.listed (show i < s.elements by omega)
    have hending : node.ending ≤ s.elements := by
      have := ((forest.laid 0 none 0 0).bounds i node hnode).2.1
      simp only [Nat.zero_add] at this
      rw [show (forest.listing 0 none 0 0).length = forest.size by simp] at this
      rw [h.elements]
      exact this
    -- a marked node marks its subtree, which is the range up to its end
    by_cases hmarked : Reached s set i i
    · refine ⟨(node.ending - (i + 1)) + cost, fun area meter hsize hcells => ?_⟩
      have hcellI : area.cell i = true := (hcells i (by omega)).mpr hmarked
      rw [List.range'_succ]
      unfold expandLoop
      rw [Area.read_of_lt (by omega), hcellI]
      simp only [checked_some, hread]
      show Meets (markLoop n (List.range' (i + 1) (node.ending - (i + 1))) area meter >>= _) _ _
      refine (mark_loop_spec n _ area meter ?_).bind
        (fun e => Reports.mono (fun hlow => ?_) e) ?_
      · intro j hj
        rw [List.mem_range'_1] at hj
        omega
      · rw [List.length_range'] at hlow
        omega
      rintro ⟨area', meter'⟩ ⟨hsize', hspent, hcells'⟩
      rw [List.length_range'] at hspent
      refine (hrun area' meter' (by rw [hsize', hsize]) ?_).mono
        (fun e => Reports.mono (fun hlow => ?_) e) ?_
      · intro k hk
        rw [hcells' k, reached_succ h (by omega) hk, hcells k hk, List.mem_range'_1, hcell]
        simp only [retain]
        constructor
        · rintro (hin | hold)
          · exact .inr ⟨hmarked, by omega, by omega⟩
          · exact .inl hold
        · rintro (hold | ⟨-, hik, hkend⟩)
          · exact .inr hold
          · exact .inl ⟨by omega, by omega⟩
      · have hleft := hspent.1
        dsimp only at hleft
        omega
      rintro ⟨out, meter''⟩ ⟨hsize'', hspent', hfinal, hkeep⟩
      refine ⟨hsize'', hspent.trans hspent', hfinal, fun k hk => ?_⟩
      have hsame : area'.cell k = area.cell k := by
        rw [Bool.eq_iff_iff, hcells' k, List.mem_range'_1]
        constructor
        · rintro (hin | hold)
          · omega
          · exact hold
        · exact .inr
      rw [hkeep k hk, hsame]
    · refine ⟨cost, fun area meter hsize hcells => ?_⟩
      have hcellI : area.cell i = false := by
        rw [Bool.eq_false_iff]
        exact fun htrue => hmarked ((hcells i (by omega)).mp htrue)
      rw [List.range'_succ]
      unfold expandLoop
      rw [Area.read_of_lt (by omega), hcellI]
      refine hrun area meter hsize ?_
      intro k hk
      rw [hcells k hk, reached_succ h (by omega) hk]
      exact ⟨.inl, fun hor => hor.resolve_right fun hand => hmarked hand.1⟩

/-- The descendant step of `Q_DESC`. -/
theorem expand_spec (h : s.Ready forest) (n : Instruction) (set : Context → Bool) :
    ∃ cost, ∀ saved meter, s.Represents saved set →
      Meets (if saved.cell s.nodeCapacity then .ok (markAll s saved, meter)
          else expandLoop s n (List.range s.elements) saved meter : Run (Area Bool × Meter))
        (Reports (meter.left < cost)) fun x =>
          s.Represents x.1 ((s.world forest).reached set) ∧ Spent cost meter x.2 := by
  have hroom := h.room
  have hcontexts : (s.world forest).contexts = (List.range s.elements).map some ++ [none] := by
    simp [World.contexts, Session.world, h.elements]
  have hrootCell : ∀ saved, s.Represents saved set → saved.cell s.nodeCapacity = set none := by
    intro saved hsaved
    rw [hsaved.2 _ (Nat.le_refl _), Session.member_eq (.inr rfl) hroom,
      Session.context_at_capacity]
  by_cases hroot : set none = true
  · -- everything lies below the virtual root
    refine ⟨0, fun saved meter hsaved => ?_⟩
    rw [hrootCell saved hsaved, if_pos hroot]
    refine ⟨⟨hsaved.1, fun k hk => ?_⟩, Spent.zero meter⟩
    show (decide (k < s.elements) || saved.cell k) = _
    rw [hsaved.2 k hk]
    unfold Session.member
    by_cases hlt : k < s.elements
    · simp [hlt, World.reached, hcontexts, hroot, World.below]
    · simp [hlt, World.reached]
  · have hroot' : set none = false := by simpa using hroot
    obtain ⟨cost, hrun⟩ := expand_loop_spec h n set s.elements 0 (by omega)
    refine ⟨cost, fun saved meter hsaved => ?_⟩
    rw [hrootCell saved hsaved, if_neg hroot, List.range_eq_range']
    refine (hrun saved meter hsaved.1 ?_).mono (fun e he => he) ?_
    · intro k hk
      rw [hsaved.2 k (by omega)]
      simp [Reached]
    rintro ⟨out, meter'⟩ ⟨hsize, hspent, hcells, hkeep⟩
    refine ⟨⟨hsize, fun k hk => ?_⟩, hspent⟩
    by_cases hlt : k < s.elements
    · rw [Bool.eq_iff_iff, hcells k hlt]
      simp only [Reached, Session.member, hlt, if_true, World.reached, Option.any_some, hcontexts,
        Bool.or_eq_true, List.any_append, List.any_map, List.any_eq_true, List.mem_range,
        Function.comp_apply, Bool.and_eq_true, List.any_cons, List.any_nil, hroot', Bool.false_and,
        Bool.or_false]
      apply or_congr_right
      constructor
      · rintro ⟨a, hae, ha, hak, hend⟩
        obtain ⟨upper, hupper, hcell, -⟩ := h.listed hae
        rw [if_pos hae] at ha
        refine ⟨a, hae, ha, ?_⟩
        rw [hcell] at hend
        exact (forest.is_ancestor_iff hupper (by rw [← h.elements]; exact hlt)).mpr ⟨hak, hend⟩
      · rintro ⟨a, hae, ha, hbelow⟩
        obtain ⟨upper, hupper, hcell, -⟩ := h.listed hae
        have := (forest.is_ancestor_iff hupper (by rw [← h.elements]; exact hlt)).mp hbelow
        refine ⟨a, hae, by rw [if_pos hae]; exact ha, this.1, ?_⟩
        rw [hcell]
        exact this.2
    · rw [hkeep k (by omega), hsaved.2 k hk]
      simp [Session.member, hlt, World.reached, hroot']

@[simp] theorem reversed_of_call (call : CallSpec) (arguments : List Expr) :
    (Expr.ofCall call arguments).reversed = false := by
  rcases arguments with _ | ⟨a, _ | ⟨b, _ | ⟨c, rest⟩⟩⟩ <;> rfl

/-- The selector below a chain of predicates decides the order of positions. -/
theorem axis_selector_spec {p : Program} (h : p.Accepted) {i fuel : Nat} (hi : i < p.count)
    (hfuel : i < fuel) :
    ∃ selector, axisSelector p fuel i = .ok selector ∧
      ((selector.grouped = false ∧ selector.op = .test ∧ selector.axis.isReverse = true) ↔
        (p.expression i).reversed = true) := by
  induction i using Nat.strong_induction_on generalizing fuel with
  | _ i ih =>
    obtain ⟨fuel, rfl⟩ : ∃ k, fuel = k + 1 := ⟨fuel - 1, by omega⟩
    unfold axisSelector
    rw [Program.fetch_of_lt hi]
    show ∃ selector, (if (p.get i).op = .filter ∧ (p.get i).grouped = false then _ else _) =
      Except.ok selector ∧ _
    by_cases hchain : (p.get i).op = .filter ∧ (p.get i).grouped = false
    · obtain ⟨l, r, hl, hr, hli, -⟩ := h.operands hi (by rw [hchain.1]; rfl)
      obtain ⟨selector, hselector, hiff⟩ := ih l hli (by omega) (by omega : l < fuel)
      refine ⟨selector, ?_, ?_⟩
      · rw [if_pos hchain, hl]
        exact hselector
      · rw [hiff, h.expression_eq hi]
        simp [Program.compose, hchain, hl, Expr.reversed]
    · refine ⟨p.get i, by rw [if_neg hchain]; rfl, ?_⟩
      rw [h.expression_eq hi]
      cases hop : (p.get i).op <;> simp [Program.compose, hop, Expr.reversed]
      · split <;> rfl
      · exact fun hgrouped => absurd ⟨hop, hgrouped⟩ hchain

end OpenTlv.Query
