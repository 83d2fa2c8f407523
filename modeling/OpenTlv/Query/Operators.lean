import OpenTlv.Query.Machine

/-!
# Set operations, comparisons and boolean operators

The instructions that evaluate both operands in their own context: the left operand stays in the
frame while the right one runs above it.
-/

namespace OpenTlv.Query

variable {s : Session} {forest : Forest Item}

/-- The frame of an operator that has evaluated its left operand. -/
structure Frame.Left (s : Session) (forest : Forest Item) (f : Frame) (i c position last : Nat)
    (d : Denoted) : Prop where
  instruction : f.instruction = i
  context : f.context = c
  position : f.position = position
  last : f.last = last
  value : f.value = { kind := (s.program.get i).type }
  a : f.a = d.value (s.world forest)
  out : f.out = Area.fill (s.nodeCapacity + 1) false
  size : f.saved.size = s.nodeCapacity + 1
  saved : ∀ set, d = .nodes set → s.Represents f.saved set

/-- The first dispatch of an operator starts its left operand. -/
theorem start_operator {i l : Nat} (hop : (s.program.get i).op.isOperator = true)
    (hl : (s.program.get i).left = some l) (vm : Vm) (top c position last : Nat) :
    startFrame s vm top (freshFrame s i c position last) (s.program.get i) =
      suspend s vm top
        { freshFrame s i c position last with
          value := { kind := (s.program.get i).type }
          stage := 1 } l c position last := by
  unfold startFrame
  cases hcase : (s.program.get i).op <;> simp [hcase, Op.isOperator] at hop
  all_goals
    simp only [hl, checked_some]
    rfl

theorem node_set_eq {set : Area Bool} (hsize : set.size = s.nodeCapacity + 1) :
    nodeSet s set = .ok set := by
  simp [nodeSet, hsize]

/-- An operator that combines the values of both operands. -/
theorem evaluates_binary {i l r : Nat} (hi : i < s.program.count)
    (hop : (s.program.get i).op.isOperator = true) (hchild : (s.program.get i).op ≠ .child)
    (hdesc : (s.program.get i).op ≠ .desc) (hfilter : (s.program.get i).op ≠ .filter)
    (hl : (s.program.get i).left = some l) (hr : (s.program.get i).right = some r)
    (hli : l < i) (hri : r < i) (hleft : Evaluates s forest l) (hright : Evaluates s forest r)
    (hstrictLeft : ∀ c position last, s.meaning forest l c position last = none →
      s.meaning forest i c position last = none)
    (hstrictRight : ∀ c position last, s.meaning forest r c position last = none →
      s.meaning forest i c position last = none)
    (hcombine : ∀ c position last dl dr, s.meaning forest l c position last = some dl →
      s.meaning forest r c position last = some dr → dl.kind = (s.program.get l).type →
      dr.kind = (s.program.get r).type → ∃ cost, ∀ vm top f child, vm.Fits s →
        top ≤ s.program.count → f.Left s forest i c position last dl → child.Holds s forest dr →
        Meets (rightFrame s vm top f (s.program.get i) child)
          (Reports (vm.meter.left < cost ∨ s.meaning forest i c position last = none))
          (Completes s forest i c position last top cost vm)) :
    Evaluates s forest i := by
  intro c position last hc
  obtain ⟨costL, hrunL⟩ := suspend_meets hleft position last hc
  obtain ⟨costR, hrunR⟩ := suspend_meets hright position last hc
  -- the cost of the combination once both operands have a meaning
  obtain ⟨costC, hrunC⟩ : ∃ cost, ∀ dl dr, s.meaning forest l c position last = some dl →
      s.meaning forest r c position last = some dr → dl.kind = (s.program.get l).type →
      dr.kind = (s.program.get r).type → ∀ vm top f child, vm.Fits s →
        top ≤ s.program.count → f.Left s forest i c position last dl → child.Holds s forest dr →
        Meets (rightFrame s vm top f (s.program.get i) child)
          (Reports (vm.meter.left < cost ∨ s.meaning forest i c position last = none))
          (Completes s forest i c position last top cost vm) := by
    by_cases hboth : ∃ dl dr, s.meaning forest l c position last = some dl ∧
        s.meaning forest r c position last = some dr ∧ dl.kind = (s.program.get l).type ∧
        dr.kind = (s.program.get r).type
    · obtain ⟨dl, dr, hdl, hdr, hkl, hkr⟩ := hboth
      obtain ⟨cost, hrun⟩ := hcombine c position last dl dr hdl hdr hkl hkr
      refine ⟨cost, fun dl' dr' hdl' hdr' _ _ => ?_⟩
      obtain rfl : dl = dl' := Option.some.inj (hdl.symm.trans hdl')
      obtain rfl : dr = dr' := Option.some.inj (hdr.symm.trans hdr')
      exact hrun
    · exact ⟨0, fun dl dr hdl hdr hkl hkr => absurd ⟨dl, dr, hdl, hdr, hkl, hkr⟩ hboth⟩
  refine ⟨stepCost s + costL + (stepCost s + costR + (stepCost s + costC)),
    fun vm top hfits htop hframe => ?_⟩
  refine runs_dispatch hfits (by omega) hframe hi (fun hlow => .inl (by omega)) ?_
  intro meter hspent
  show Meets (startFrame s _ top _ (s.program.get i)) _ _
  rw [start_operator hop hl]
  have hspent' := hspent.1
  refine hrunL _ top _ _ _ ⟨hfits.values, hfits.table, hfits.frames⟩ (by omega)
    (fun hlow => .inl (by dsimp only at hlow; omega))
    (fun hnone => .inr (hstrictLeft c position last hnone)) ?_
  intro vm1 dl hdl hkl hholdsL hframe1 hfollows1
  have hleft1 := hfollows1.spent.1
  dsimp only at hleft1
  -- the left operand is complete
  refine runs_dispatch hfollows1.fits (by omega) hframe1 hi (fun hlow => .inl (by omega)) ?_
  intro meter1 hspent1
  have hread1 : vm1.frames.read (top + 1) = some (vm1.frames.cell (top + 1)) :=
    Area.read_of_lt (by rw [hfollows1.fits.frames]; omega)
  unfold dispatchFrame
  simp only [one_ne_zero, if_false, hread1, checked_some]
  show Meets (leftFrame s _ top _ (s.program.get i) _) _ _
  unfold leftFrame
  rw [node_set_eq hholdsL.size]
  show Meets (if (s.program.get i).op = .child ∨ (s.program.get i).op = .desc ∨
    (s.program.get i).op = .filter then _ else _) _ _
  rw [if_neg (by simp [hchild, hdesc, hfilter]), hr]
  have hspent1' := hspent1.1
  refine hrunR _ top _ _ _ ⟨hfollows1.fits.values, hfollows1.fits.table, hfollows1.fits.frames⟩
    (by omega) (fun hlow => .inl (by dsimp only at hlow; omega))
    (fun hnone => .inr (hstrictRight c position last hnone)) ?_
  intro vm2 dr hdr hkr hholdsR hframe2 hfollows2
  have hleft2 := hfollows2.spent.1
  dsimp only at hleft2
  -- both operands are complete
  refine runs_dispatch hfollows2.fits (by omega) hframe2 hi (fun hlow => .inl (by omega)) ?_
  intro meter2 hspent2
  have hspent2' := hspent2.1
  have hread2 : vm2.frames.read (top + 1) = some (vm2.frames.cell (top + 1)) :=
    Area.read_of_lt (by rw [hfollows2.fits.frames]; omega)
  unfold dispatchFrame
  simp only [OfNat.ofNat_ne_zero, if_false, hread2, checked_some, Nat.reduceLeDiff,
    OfNat.ofNat_ne_one, ge_iff_le, if_true]
  refine Meets.mono (hrunC dl dr hdl hdr hkl hkr _ top _ _ ?fits (by omega) ?left hholdsR)
    (fun e => Reports.mono (fun hfails => ?_) e) ?_
  case fits => exact ⟨hfollows2.fits.values, hfollows2.fits.table, hfollows2.fits.frames⟩
  case left =>
    exact ⟨rfl, rfl, rfl, rfl, rfl, hholdsL.value, rfl, hholdsL.size, hholdsL.set⟩
  · refine hfails.imp (fun hlow => ?_) id
    dsimp only at hlow
    omega
  · intro y hcompletes
    have hleft3 := hcompletes.2.1.spent.1
    dsimp only at hleft3
    have hall := ((Follows.charged hfits hspent).trans hfollows1).trans
      (((Follows.charged hfollows1.fits hspent1).trans hfollows2).trans
        (Follows.charged hfollows2.fits hspent2))
    refine ⟨by omega, Settles.refl ?_⟩
    simpa only [Nat.add_assoc] using hcompletes.after hall

theorem nodes_of_kind {d : Denoted} (h : d.kind = .node) : ∃ set, d = .nodes set := by
  cases d with
  | nodes set => exact ⟨set, rfl⟩
  | _ => simp [Denoted.kind] at h

/-- Two sets combined flag by flag. -/
theorem represents_combine {f : Bool → Bool → Bool} (hf : f false false = false)
    {first second : Area Bool} {a b : Context → Bool} (ha : s.Represents first a)
    (hb : s.Represents second b) :
    s.Represents (first.combine f second) fun d => f (a d) (b d) := by
  refine ⟨ha.1, fun i hi => ?_⟩
  rw [Area.combine_cell, ha.2 i hi, hb.2 i hi]
  unfold Session.member
  by_cases hlt : i < s.elements
  · simp [hlt]
  · by_cases heq : i = s.nodeCapacity
    · subst heq
      simp [hlt]
    · simp [hlt, heq, hf]

/-- A set operation with its flag function. -/
theorem evaluates_set_operation (h : s.Ready forest) {i : Nat} (hi : i < s.program.count)
    (hop : (s.program.get i).op.isSetOperation = true)
    (hleft : ∀ l, (s.program.get i).left = some l → Evaluates s forest l)
    (hright : ∀ r, (s.program.get i).right = some r → Evaluates s forest r) :
    Evaluates s forest i := by
  have hoperator : (s.program.get i).op.isOperator = true := by
    cases hcase : (s.program.get i).op <;> simp_all [Op.isSetOperation, Op.isOperator]
  obtain ⟨l, r, hl, hr, hli, hri⟩ := h.accepted.operands hi hoperator
  have htypes := h.accepted.types hi
  have htl := htypes.nodes (.inr (.inr (.inr hop))) l hl
  have htr := htypes.sets (.inr (.inr hop)) r hr
  have htype : (s.program.get i).type = .node := (h.accepted.facts hi).type _ (by
    cases hcase : (s.program.get i).op <;> simp_all [Op.isSetOperation, opType])
  -- the three operations differ in their flag function only
  obtain ⟨f, hf, hmeaning, hframe⟩ : ∃ f : Bool → Bool → Bool, f false false = false ∧
      (∀ c position last, s.meaning forest i c position last =
        (do
          let a ← s.meaning forest l c position last
          let b ← s.meaning forest r c position last
          combineSets f a b)) ∧
      ∀ vm top (g child : Frame), g.saved.size = s.nodeCapacity + 1 →
        child.out.size = s.nodeCapacity + 1 →
        rightFrame s vm top g (s.program.get i) child =
          complete s vm top { g with b := child.value, out := g.saved.combine f child.out } := by
    have hexpression := h.accepted.expression_eq hi
    simp only [Session.meaning, hexpression]
    cases hcase : (s.program.get i).op <;> simp [hcase, Op.isSetOperation] at hop
    · refine ⟨(· || ·), rfl, fun c position last => ?_, fun vm top g child hg hchild => ?_⟩
      · simp only [Program.compose, hcase, hl, hr, Option.elim_some, denote]
      · simp only [rightFrame, node_set_eq hg, node_set_eq hchild, hcase]
        rfl
    · refine ⟨(· && ·), rfl, fun c position last => ?_, fun vm top g child hg hchild => ?_⟩
      · simp only [Program.compose, hcase, hl, hr, Option.elim_some, denote]
      · simp only [rightFrame, node_set_eq hg, node_set_eq hchild, hcase]
        rfl
    · refine ⟨fun x y => x && !y, rfl, fun c position last => ?_,
        fun vm top g child hg hchild => ?_⟩
      · simp only [Program.compose, hcase, hl, hr, Option.elim_some, denote]
      · simp only [rightFrame, node_set_eq hg, node_set_eq hchild, hcase]
        rfl
  refine evaluates_binary hi hoperator ?_ ?_ ?_ hl hr hli hri (hleft l hl) (hright r hr) ?_ ?_ ?_
  · rintro heq
    simp [heq, Op.isSetOperation] at hop
  · rintro heq
    simp [heq, Op.isSetOperation] at hop
  · rintro heq
    simp [heq, Op.isSetOperation] at hop
  · intro c position last hnone
    rw [hmeaning, hnone]
    rfl
  · intro c position last hnone
    rw [hmeaning, hnone]
    cases s.meaning forest l c position last <;> rfl
  · intro c position last dl dr hdl hdr hkl hkr
    obtain ⟨a, rfl⟩ := nodes_of_kind (hkl.trans htl)
    obtain ⟨b, rfl⟩ := nodes_of_kind (hkr.trans htr)
    refine ⟨0, fun vm top g child hfits htop hg hchild => ?_⟩
    rw [hframe vm top g child hg.size hchild.size]
    refine complete_meets_nodes h (fresh_follows hfits top) htop
      ?_ htype ?_ (represents_combine hf (hg.saved a rfl) (hchild.set b rfl))
    · rw [hmeaning, hdl, hdr]
      rfl
    · rw [hg.value, htype]

/-- `and` and `or` evaluate both operands. -/
theorem evaluates_logic (h : s.Ready forest) {i : Nat} (hi : i < s.program.count)
    (hop : (s.program.get i).op = .and ∨ (s.program.get i).op = .or)
    (hleft : ∀ l, (s.program.get i).left = some l → Evaluates s forest l)
    (hright : ∀ r, (s.program.get i).right = some r → Evaluates s forest r) :
    Evaluates s forest i := by
  have hoperator : (s.program.get i).op.isOperator = true := by
    rcases hop with hop | hop <;> rw [hop] <;> rfl
  obtain ⟨l, r, hl, hr, hli, hri⟩ := h.accepted.operands hi hoperator
  have htypes := h.accepted.types hi
  have htl := htypes.logicLeft hop l hl
  have htr := htypes.logicRight hop r hr
  have htype : (s.program.get i).type = .bool :=
    (h.accepted.facts hi).type _ (by rcases hop with hop | hop <;> rw [hop] <;> rfl)
  obtain ⟨f, hmeaning, hframe⟩ : ∃ f : Bool → Bool → Bool,
      (∀ c position last, s.meaning forest i c position last =
        (do
          let a ← s.meaning forest l c position last
          let b ← s.meaning forest r c position last
          return .bool (f ((s.world forest).truth a) ((s.world forest).truth b)))) ∧
      ∀ vm top (g child : Frame), g.saved.size = s.nodeCapacity + 1 →
        child.out.size = s.nodeCapacity + 1 →
        rightFrame s vm top g (s.program.get i) child =
          complete s vm top
            { g with
              b := child.value
              value := { g.value with number := (f g.a.truth child.value.truth).toNat } } := by
    simp only [Session.meaning, h.accepted.expression_eq hi]
    rcases hop with hop | hop
    · refine ⟨(· && ·), fun c position last => ?_, fun vm top g child hg hchild => ?_⟩
      · simp only [Program.compose, hop, hl, hr, Option.elim_some, denote]
      · simp only [rightFrame, node_set_eq hg, node_set_eq hchild, hop]
        rfl
    · refine ⟨(· || ·), fun c position last => ?_, fun vm top g child hg hchild => ?_⟩
      · simp only [Program.compose, hop, hl, hr, Option.elim_some, denote]
      · simp only [rightFrame, node_set_eq hg, node_set_eq hchild, hop]
        rfl
  refine evaluates_binary hi hoperator ?_ ?_ ?_ hl hr hli hri (hleft l hl) (hright r hr) ?_ ?_ ?_
  · rcases hop with hop | hop <;> simp [hop]
  · rcases hop with hop | hop <;> simp [hop]
  · rcases hop with hop | hop <;> simp [hop]
  · intro c position last hnone
    rw [hmeaning, hnone]
    rfl
  · intro c position last hnone
    rw [hmeaning, hnone]
    cases s.meaning forest l c position last <;> rfl
  · intro c position last dl dr hdl hdr hkl hkr
    refine ⟨0, fun vm top g child hfits htop hg hchild => ?_⟩
    rw [hframe vm top g child hg.size hchild.size]
    refine complete_meets_scalar (d := .bool (f ((s.world forest).truth dl)
      ((s.world forest).truth dr))) (fresh_follows hfits top) htop ?_ htype.symm
      (by simp [Denoted.kind]) ?_ ?_
    · rw [hmeaning, hdl, hdr]
      rfl
    · rw [hg.a, hchild.value, value_truth _ (by rw [hkl]; exact htl),
        value_truth _ (by rw [hkr]; exact htr), hg.value, htype]
      rfl
    · rw [hg.out]
      rfl

/-- Both machines compare scalars of one category as the language does. -/
theorem retained_compare_spec (w : World) (n : Instruction) {a b : Denoted}
    (hkind : a.kind = b.kind) (hscalar : a.kind ≠ .node) :
    ∃ cost order, a.order b = some order ∧ ∀ meter,
      Meets (retainedCompare meter n (a.value w) (b.value w)) (Reports (meter.left < cost))
        fun x => x.1 = order ∧ Spent cost meter x.2 := by
  cases a <;> cases b <;> simp [Denoted.kind] at hkind hscalar
  case bool.bool x y =>
    exact ⟨0, _, rfl, fun meter => ⟨rfl, Spent.zero meter⟩⟩
  case int.int x y =>
    refine ⟨0, _, rfl, fun meter => ⟨?_, Spent.zero meter⟩⟩
    simp only [Denoted.value, signed_integer_signed_value]
  case bytes.bytes x y =>
    refine ⟨min x.length y.length, _, rfl, fun meter => ?_⟩
    exact (charge_spec meter _ n).bind (fun e he => he) fun meter' hspent => ⟨rfl, hspent⟩
  case string.string x y =>
    refine ⟨min x.length y.length, _, rfl, fun meter => ?_⟩
    exact (charge_spec meter _ n).bind (fun e he => he) fun meter' hspent => ⟨rfl, hspent⟩

/-- A comparison evaluates when its operands do. -/
theorem evaluates_comparison (h : s.Ready forest) {i : Nat} (hi : i < s.program.count)
    (hop : (s.program.get i).op.isComparison = true)
    (hleft : ∀ l, (s.program.get i).left = some l → Evaluates s forest l)
    (hright : ∀ r, (s.program.get i).right = some r → Evaluates s forest r) :
    Evaluates s forest i := by
  have hoperator : (s.program.get i).op.isOperator = true := by
    cases hcase : (s.program.get i).op <;> simp_all [Op.isComparison, Op.isOperator]
  obtain ⟨l, r, hl, hr, hli, hri⟩ := h.accepted.operands hi hoperator
  obtain ⟨hsame, hscalar⟩ := (h.accepted.types hi).comparison hop l r hl hr
  have htype : (s.program.get i).type = .bool := (h.accepted.facts hi).type _ (by
    cases hcase : (s.program.get i).op <;> simp_all [Op.isComparison, opType])
  have hmeaning : ∀ c position last, s.meaning forest i c position last =
      (do
        let a ← s.meaning forest l c position last
        let b ← s.meaning forest r c position last
        denoteCompare (s.program.get i).op a b) := by
    intro c position last
    simp only [Session.meaning, h.accepted.expression_eq hi]
    cases hcase : (s.program.get i).op <;> simp [hcase, Op.isComparison] at hop
    all_goals simp only [Program.compose, hcase, hl, hr, Option.elim_some, denote]
  have hframe : ∀ vm top (g child : Frame), g.saved.size = s.nodeCapacity + 1 →
      child.out.size = s.nodeCapacity + 1 →
      rightFrame s vm top g (s.program.get i) child =
        retainedCompare vm.meter (s.program.get i) g.a child.value >>= fun x =>
          complete s { vm with meter := x.2 } top
            { g with
              b := child.value
              value := { g.value with number := ((s.program.get i).op.holds x.1).toNat } } := by
    intro vm top g child hg hchild
    cases hcase : (s.program.get i).op <;> simp [hcase, Op.isComparison] at hop
    all_goals
      simp only [rightFrame, node_set_eq hg, node_set_eq hchild, hcase]
      rfl
  refine evaluates_binary hi hoperator ?_ ?_ ?_ hl hr hli hri (hleft l hl) (hright r hr) ?_ ?_ ?_
  · rintro heq
    simp [heq, Op.isComparison] at hop
  · rintro heq
    simp [heq, Op.isComparison] at hop
  · rintro heq
    simp [heq, Op.isComparison] at hop
  · intro c position last hnone
    rw [hmeaning, hnone]
    rfl
  · intro c position last hnone
    rw [hmeaning, hnone]
    cases s.meaning forest l c position last <;> rfl
  · intro c position last dl dr hdl hdr hkl hkr
    obtain ⟨cost, order, horder, hrun⟩ := retained_compare_spec (s.world forest)
      (s.program.get i) (a := dl) (b := dr) (by rw [hkl, hkr, hsame]) (by rw [hkl]; exact hscalar)
    refine ⟨cost, fun vm top g child hfits htop hg hchild => ?_⟩
    rw [hframe vm top g child hg.size hchild.size, hg.a, hchild.value]
    refine (hrun vm.meter).bind (fun e => Reports.mono Or.inl e) ?_
    rintro ⟨order', meter⟩ ⟨rfl, hspent⟩
    refine complete_meets_scalar (d := .bool ((s.program.get i).op.holds order'))
      ⟨⟨hfits.values, hfits.table, hfits.frames⟩, hspent, fun _ _ => rfl⟩ htop ?_ htype.symm
      (by simp [Denoted.kind]) ?_ ?_
    · rw [hmeaning, hdl, hdr]
      simp [denoteCompare, horder]
    · rw [hg.value, htype]
      rfl
    · rw [hg.out]
      rfl

end OpenTlv.Query
