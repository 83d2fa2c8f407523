import OpenTlv.Query.Frames

/-!
# Runs of the retained machine

`Evaluates s forest i` is the big-step contract of instruction `i`: from a fresh frame, the
machine comes back to the frame below with the meaning of the expression in the completed frame,
at a cost that the context decides; it reports a failure exactly when the expression has no
meaning or the work does not suffice. The frames below stay as they are. The rules of this module
put one dispatch, a suspended child and a completed frame together.
-/

namespace OpenTlv.Query

/-- The areas of the machine have the extents the session sized. -/
structure Vm.Fits (s : Session) (vm : Vm) : Prop where
  values : vm.values.size = s.program.count
  table : vm.table.size = s.patternCapacity
  frames : vm.frames.size = s.program.count + 1

/-- A completed frame holds a meaning. -/
structure Frame.Holds (s : Session) (forest : Forest Item) (f : Frame) (d : Denoted) : Prop where
  value : f.value = d.value (s.world forest)
  size : f.out.size = s.nodeCapacity + 1
  set : ∀ set, d = .nodes set → s.Represents f.out set

/-- What a run that comes back below `top` leaves. -/
structure Follows (s : Session) (top cost : Nat) (before after : Vm) : Prop where
  fits : after.Fits s
  spent : Spent cost before.meter after.meter
  kept : ∀ k < top, after.frames.cell k = before.frames.cell k

/-- A run of the dispatch loop. -/
def Runs (s : Session) (x : Vm × Option Nat) (fails : Prop)
    (good : Vm × Option Nat → Prop) : Prop :=
  Settles Stop.fault (·.2.isNone) (retainedDispatch s) (·.1.meter.left) x (Reports fails) good

/-- The meaning of an instruction in the context of an index. -/
def Session.meaning (s : Session) (forest : Forest Item) (i c position last : Nat) :
    Option Denoted :=
  denote (s.world forest) (s.program.expression i) (s.contextAt c) position last

/-- The frame at `top` is complete with the meaning of instruction `i`. -/
def Completes (s : Session) (forest : Forest Item) (i c position last top cost : Nat) (vm : Vm)
    (x : Vm × Option Nat) : Prop :=
  x.2 = frameBelow top ∧ Follows s top cost vm x.1 ∧
    ∃ d, s.meaning forest i c position last = some d ∧ d.kind = (s.program.get i).type ∧
      (x.1.frames.cell top).Holds s forest d

/-- The contract of an instruction. -/
def Evaluates (s : Session) (forest : Forest Item) (i : Nat) : Prop :=
  ∀ c position last, s.Live c → ∃ cost, ∀ vm top, vm.Fits s → top + i < s.program.count →
    vm.frames.cell top = freshFrame s i c position last →
    Runs s (vm, some top)
      (vm.meter.left < cost ∨ s.meaning forest i c position last = none)
      (Completes s forest i c position last top cost vm)

variable {s : Session} {forest : Forest Item}

-- the equations of `denote` are derived here, once for all rules
attribute [local simp] denote

/-- Consequence for runs. -/
theorem Runs.mono {x : Vm × Option Nat} {fails fails' : Prop} {good good' : Vm × Option Nat → Prop}
    (h : Runs s x fails good) (hfails : fails → fails') (hgood : ∀ y, good y → good' y) :
    Runs s x fails' good' :=
  Settles.trans h (fun e => Reports.mono hfails e) fun y hy => Settles.refl (hgood y hy)

/-- A completion after earlier work of the same frame. -/
theorem Completes.after {i c position last top cost cost' : Nat} {vm vm' : Vm}
    {y : Vm × Option Nat} (hfollows : Follows s top cost vm vm')
    (h : Completes s forest i c position last top cost' vm' y) :
    Completes s forest i c position last top (cost + cost') vm y := by
  obtain ⟨hback, hnext, hmeaning⟩ := h
  refine ⟨hback, ⟨hnext.fits, hfollows.spent.trans hnext.spent, fun k hk => ?_⟩, hmeaning⟩
  rw [hnext.kept k hk, hfollows.kept k hk]

/-- A charge is work of the same frame. -/
theorem Follows.charged {top cost : Nat} {vm : Vm} {meter : Meter} (hfits : vm.Fits s)
    (hspent : Spent cost vm.meter meter) : Follows s top cost vm { vm with meter := meter } :=
  ⟨⟨hfits.values, hfits.table, hfits.frames⟩, hspent, fun _ _ => rfl⟩

theorem Follows.trans {top cost cost' : Nat} {a b c : Vm} (hfirst : Follows s top cost a b)
    (hsecond : Follows s top cost' b c) : Follows s top (cost + cost') a c := by
  refine ⟨hsecond.fits, hfirst.spent.trans hsecond.spent, fun k hk => ?_⟩
  rw [hsecond.kept k hk, hfirst.kept k hk]

/-- One dispatch of the frame at `top`. -/
theorem runs_dispatch {vm : Vm} {top : Nat} {f : Frame} {fails : Prop}
    {good : Vm × Option Nat → Prop} (hfits : vm.Fits s) (htop : top ≤ s.program.count)
    (hframe : vm.frames.cell top = f) (hinstruction : f.instruction < s.program.count)
    (hlow : vm.meter.left < stepCost s → fails)
    (hbody : ∀ meter, Spent (stepCost s) vm.meter meter →
      Meets (dispatchFrame s { vm with meter := meter } top f (s.program.get f.instruction))
        (Reports fails) fun y => y.1.meter.left ≤ meter.left ∧ Runs s y fails good) :
    Runs s (vm, some top) fails good := by
  refine Settles.advance rfl ?_
  show Meets (retainedStep s vm top) _ _
  have hread : vm.frames.read top = some f := by
    rw [Area.read_of_lt (by rw [hfits.frames]; omega), hframe]
  unfold retainedStep
  rw [hread, checked_some]
  show Meets (s.program.fetch f.instruction >>= _) _ _
  rw [Program.fetch_of_lt hinstruction]
  refine (charge_spec vm.meter (stepCost s) (s.program.get f.instruction)).bind
    (fun e => Reports.mono hlow e) fun meter hspent => ?_
  refine (hbody meter hspent).mono (fun e he => he) ?_
  rintro ⟨vm', next⟩ ⟨hle, hruns⟩
  refine ⟨?_, hruns⟩
  have hspent' := hspent.1
  dsimp only at hle ⊢
  unfold stepCost at hspent'
  omega

theorem suspend_eq {vm : Vm} {top : Nat} (f : Frame) (j c position last : Nat)
    (htop : top + 1 < vm.frames.size) :
    suspend s vm top f j c position last =
      .ok ({ vm with frames :=
        (vm.frames.put top f).put (top + 1) (freshFrame s j c position last) }, some (top + 1)) := by
  have hfirst : vm.frames.write top f = some (vm.frames.put top f) :=
    Area.write_of_lt f (by omega)
  have hsecond : (vm.frames.put top f).write (top + 1) (freshFrame s j c position last) =
      some ((vm.frames.put top f).put (top + 1) (freshFrame s j c position last)) :=
    Area.write_of_lt _ htop
  simp [suspend, pushFrame, hfirst, hsecond, bind, Except.bind, pure, Except.pure]

/-- A child runs to its completion above a suspended frame. -/
theorem suspend_meets {j : Nat} (hj : Evaluates s forest j) {c : Nat} (position last : Nat)
    (hc : s.Live c) :
    ∃ cost, ∀ (vm : Vm) (top : Nat) (f : Frame) (fails : Prop)
      (good : Vm × Option Nat → Prop), vm.Fits s → top + 1 + j < s.program.count →
      (vm.meter.left < cost → fails) → (s.meaning forest j c position last = none → fails) →
      (∀ vm' d, s.meaning forest j c position last = some d →
        d.kind = (s.program.get j).type → (vm'.frames.cell (top + 1)).Holds s forest d →
        vm'.frames.cell top = f → Follows s top cost vm vm' →
        Runs s (vm', some top) fails good) →
      Meets (suspend s vm top f j c position last) (Reports fails) fun y =>
        y.1.meter.left ≤ vm.meter.left ∧ Runs s y fails good := by
  obtain ⟨cost, hrun⟩ := hj c position last hc
  refine ⟨cost, fun vm top f fails good hfits htop hlow hnone hnext => ?_⟩
  have hframes := hfits.frames
  rw [suspend_eq f j c position last (by omega)]
  refine ⟨Nat.le_refl _, ?_⟩
  have hchild := hrun
    { vm with frames := (vm.frames.put top f).put (top + 1) (freshFrame s j c position last) }
    (top + 1) ⟨hfits.values, hfits.table, hfits.frames⟩ (by omega) (Area.put_cell_self _ _ _)
  refine Settles.trans hchild (fun e => Reports.mono (fun h => h.elim hlow hnone) e) ?_
  rintro ⟨vm', next⟩ ⟨hback, hfollows, d, hmeaning, hkind, hholds⟩
  obtain rfl : next = some top := hback
  have hbelow : ∀ k < top, vm'.frames.cell k = vm.frames.cell k := by
    intro k hk
    rw [hfollows.kept k (by omega)]
    dsimp only
    rw [Area.put_cell_of_ne _ _ (by omega), Area.put_cell_of_ne _ _ (by omega)]
  refine hnext vm' d hmeaning hkind hholds ?_ ⟨hfollows.fits, hfollows.spent, hbelow⟩
  rw [hfollows.kept top (by omega)]
  dsimp only
  rw [Area.put_cell_of_ne _ _ (by omega), Area.put_cell_self]

theorem complete_eq {vm : Vm} {top : Nat} {f : Frame} (htop : top < vm.frames.size)
    (hout : f.out.size = s.nodeCapacity + 1) :
    complete s vm top f =
      .ok ({ vm with frames := vm.frames.put top f.completed }, frameBelow top) := by
  simp [complete, nodeSet, hout, Area.write_of_lt _ htop, bind, Except.bind, pure, Except.pure]

/-- A frame that selects nodes completes. -/
theorem complete_nodes (h : s.Ready forest) {vm : Vm} {top : Nat} {f : Frame}
    {set : Context → Bool} (htop : top < vm.frames.size) (hvalue : f.value = { kind := .node })
    (hout : s.Represents f.out set) :
    ∃ f', complete s vm top f =
        .ok ({ vm with frames := vm.frames.put top f' }, frameBelow top) ∧
      f'.Holds s forest (.nodes set) := by
  have hcompleted : f.completed =
      { f with value := { f.value with number := (f.out.count ≠ 0 : Bool).toNat } } := by
    simp [Frame.completed, hvalue]
  refine ⟨_, complete_eq htop hout.1, ?_⟩
  rw [hcompleted]
  refine ⟨?_, hout.1, ?_⟩
  · simp only [hvalue, Denoted.value, World.truth, Session.count_eq h.room h.elements hout]
  · rintro set' hset
    cases hset
    exact hout

/-- A frame with a scalar value completes. -/
theorem complete_scalar {vm : Vm} {top : Nat} {f : Frame} {d : Denoted}
    (htop : top < vm.frames.size) (hkind : d.kind ≠ .node)
    (hvalue : f.value = d.value (s.world forest)) (hout : f.out.size = s.nodeCapacity + 1) :
    complete s vm top f = .ok ({ vm with frames := vm.frames.put top f }, frameBelow top) ∧
      f.Holds s forest d := by
  have hscalar : f.value.kind ≠ .node := by rw [hvalue, value_kind]; exact hkind
  refine ⟨by rw [complete_eq htop hout, Frame.completed, if_neg hscalar], hvalue, hout, ?_⟩
  rintro set rfl
  exact absurd rfl hkind

/-- Completion with a scalar. -/
theorem complete_meets_scalar {i c position last top cost : Nat} {vm₀ vm : Vm} {f : Frame}
    {d : Denoted} {fails : Prop} (hfollows : Follows s top cost vm₀ vm)
    (htop : top ≤ s.program.count) (hmeaning : s.meaning forest i c position last = some d)
    (htype : d.kind = (s.program.get i).type) (hkind : d.kind ≠ .node)
    (hvalue : f.value = d.value (s.world forest)) (hout : f.out.size = s.nodeCapacity + 1) :
    Meets (complete s vm top f) (Reports fails)
      (Completes s forest i c position last top cost vm₀) := by
  have hframes := hfollows.fits.frames
  obtain ⟨heq, hholds⟩ := @complete_scalar s forest vm top f d (by omega) hkind hvalue
    hout
  rw [heq]
  refine ⟨rfl, ⟨⟨hfollows.fits.values, hfollows.fits.table, hframes⟩, hfollows.spent, ?_⟩, d,
    hmeaning, htype, ?_⟩
  · intro k hk
    dsimp only
    rw [Area.put_cell_of_ne _ _ (by omega), hfollows.kept k hk]
  · dsimp only
    rw [Area.put_cell_self]
    exact hholds

/-- Completion with a set of nodes. -/
theorem complete_meets_nodes (h : s.Ready forest) {i c position last top cost : Nat}
    {vm₀ vm : Vm} {f : Frame} {set : Context → Bool} {fails : Prop}
    (hfollows : Follows s top cost vm₀ vm) (htop : top ≤ s.program.count)
    (hmeaning : s.meaning forest i c position last = some (.nodes set))
    (htype : (s.program.get i).type = .node) (hvalue : f.value = { kind := .node })
    (hout : s.Represents f.out set) :
    Meets (complete s vm top f) (Reports fails)
      (Completes s forest i c position last top cost vm₀) := by
  have hframes := hfollows.fits.frames
  obtain ⟨f', heq, hholds⟩ := @complete_nodes s forest h vm top f set (by omega) hvalue hout
  rw [heq]
  refine ⟨rfl, ⟨⟨hfollows.fits.values, hfollows.fits.table, hframes⟩, hfollows.spent, ?_⟩, _,
    hmeaning, htype.symm, ?_⟩
  · intro k hk
    dsimp only
    rw [Area.put_cell_of_ne _ _ (by omega), hfollows.kept k hk]
  · dsimp only
    rw [Area.put_cell_self]
    exact hholds

/-- An instruction without operands: its first dispatch completes the frame. -/
theorem evaluates_leaf {i : Nat} (hi : i < s.program.count)
    (hleaf : ∀ c position last, s.Live c → ∃ cost, ∀ vm top, vm.Fits s →
      top ≤ s.program.count →
      Meets (startFrame s vm top (freshFrame s i c position last) (s.program.get i))
        (Reports (vm.meter.left < cost ∨ s.meaning forest i c position last = none))
        (Completes s forest i c position last top cost vm)) :
    Evaluates s forest i := by
  intro c position last hc
  obtain ⟨cost, hrun⟩ := hleaf c position last hc
  refine ⟨stepCost s + cost, fun vm top hfits htop hframe => ?_⟩
  refine runs_dispatch hfits (by omega) hframe hi (fun hlow => .inl (by omega)) ?_
  intro meter hspent
  show Meets (startFrame s _ top _ (s.program.get i)) _ _
  refine (hrun { vm with meter := meter } top ⟨hfits.values, hfits.table, hfits.frames⟩
    (by omega)).mono (fun e => Reports.mono (fun hfails => ?_) e) ?_
  · refine hfails.imp (fun hlow => ?_) id
    have := hspent.1
    dsimp only at hlow
    omega
  · intro y hcompletes
    have hleft := hcompletes.2.1.spent.1
    dsimp only at hleft
    exact ⟨by omega, Settles.refl (hcompletes.after (Follows.charged hfits hspent))⟩

/-- The value of a fresh frame at its first dispatch. -/
theorem fresh_follows {vm : Vm} (hfits : vm.Fits s) (top : Nat) : Follows s top 0 vm vm :=
  ⟨hfits, Spent.zero _, fun _ _ => rfl⟩

/-- A step's test evaluates. -/
theorem evaluates_test (h : s.Ready forest) {i : Nat} (hi : i < s.program.count)
    (hop : (s.program.get i).op = .test) : Evaluates s forest i := by
  have htype : (s.program.get i).type = .node := (h.accepted.facts hi).type _ (by rw [hop]; rfl)
  refine evaluates_leaf hi fun c position last hc => ?_
  obtain ⟨cost, hrun⟩ := test_frame_spec h hi hc
  refine ⟨cost, fun vm top hfits htop => ?_⟩
  unfold startFrame
  simp only [hop]
  refine (hrun vm _ rfl rfl).bind (fun e => Reports.mono Or.inl e) ?_
  rintro ⟨f, vm'⟩ ⟨out, meter, heq, hspent, hout⟩
  obtain ⟨rfl, rfl⟩ := Prod.mk.inj heq
  refine complete_meets_nodes h
    ⟨⟨hfits.values, hfits.table, hfits.frames⟩, hspent, fun _ _ => rfl⟩ htop ?_ htype ?_ hout
  · rw [Session.meaning, h.accepted.expression_eq hi]
    simp only [Program.compose, hop, denote]
  · simp [freshFrame, htype]

/-- The root and the context node evaluate. -/
theorem evaluates_root (h : s.Ready forest) {i : Nat} (hi : i < s.program.count)
    (hop : (s.program.get i).op = .root ∨ (s.program.get i).op = .self) :
    Evaluates s forest i := by
  have hroom := h.room
  have htype : (s.program.get i).type = .node :=
    (h.accepted.facts hi).type _ (by rcases hop with hop | hop <;> rw [hop] <;> rfl)
  refine evaluates_leaf hi fun c position last hc => ⟨0, fun vm top hfits htop => ?_⟩
  -- the start: the context, or the virtual root of an absolute path
  let start := if (s.program.get i).op = .self ∨ (s.program.get i).anchor ≠ 0 ∨
    (s.program.get i).context = true then c else s.nodeCapacity
  have hstart : s.Live start := by
    dsimp only [start]
    split
    · exact hc
    · exact .inr rfl
  have hmeaning : s.meaning forest i c position last =
      some (.nodes fun d => decide (d = s.contextAt start)) := by
    rw [Session.meaning, h.accepted.expression_eq hi]
    rcases hop with hop | hop
    · by_cases hrelative : (s.program.get i).anchor ≠ 0 ∨ (s.program.get i).context = true
      · have hsame : start = c := if_pos (.inr hrelative)
        simp only [Program.compose, hop, if_pos hrelative, denote, hsame]
      · have hsame : start = s.nodeCapacity := if_neg (by simpa [hop] using hrelative)
        simp only [Program.compose, hop, if_neg hrelative, denote, hsame,
          Session.context_at_capacity]
    · have hsame : start = c := if_pos (.inl hop)
      simp only [Program.compose, hop, denote, hsame]
  have hout := represents_put hroom (represents_fill (s := s)) hstart
  simp only [Bool.or_false] at hout
  have hwrite : (Area.fill (s.nodeCapacity + 1) false).write start true =
      some ((Area.fill (s.nodeCapacity + 1) false).put start true) :=
    Area.write_of_lt _ (by have := hstart.le hroom; simp; omega)
  have hfirst : startFrame s vm top (freshFrame s i c position last) (s.program.get i) =
      complete s vm top
        { freshFrame s i c position last with
          value := { kind := (s.program.get i).type }
          out := (Area.fill (s.nodeCapacity + 1) false).put start true } := by
    unfold startFrame
    rcases hop with hop' | hop' <;> simp only [hop'] <;>
      simp only [freshFrame, start, hop'] at hwrite ⊢ <;> rw [hwrite] <;> rfl
  rw [hfirst]
  exact complete_meets_nodes h (fresh_follows hfits top) htop hmeaning htype (by simp [htype])
    hout

/-- The instructions with a scalar value of their own. -/
theorem evaluates_scalar {i : Nat} (hi : i < s.program.count) {d : Denoted}
    (hkind : d.kind ≠ .node) (htype : d.kind = (s.program.get i).type)
    (hmeaning : ∀ c position last, s.meaning forest i c position last = some d)
    (hstart : ∀ vm top c position last,
      startFrame s vm top (freshFrame s i c position last) (s.program.get i) =
        complete s vm top
          { freshFrame s i c position last with value := d.value (s.world forest) }) :
    Evaluates s forest i := by
  refine evaluates_leaf hi fun c position last hc => ⟨0, fun vm top hfits htop => ?_⟩
  rw [hstart]
  exact complete_meets_scalar (fresh_follows hfits top) htop (hmeaning c position last) htype
    hkind rfl rfl

theorem evaluates_bytes (h : s.Ready forest) {i : Nat} (hi : i < s.program.count)
    (hop : (s.program.get i).op = .bytes) : Evaluates s forest i := by
  have hfacts := h.accepted.facts hi
  have htype : (s.program.get i).type = .bytes := hfacts.type _ (by rw [hop]; rfl)
  refine evaluates_scalar hi (d := .bytes (s.program.data (s.program.get i)))
    (by simp [Denoted.kind]) htype.symm ?_ ?_
  · intro c position last
    rw [Session.meaning, h.accepted.expression_eq hi]
    simp only [Program.compose, hop, denote]
  · intro vm top c position last
    unfold startFrame
    simp only [hop, Program.slice_of_le hfacts.data, htype]
    rfl

theorem evaluates_string (h : s.Ready forest) {i : Nat} (hi : i < s.program.count)
    (hop : (s.program.get i).op = .string) : Evaluates s forest i := by
  have hfacts := h.accepted.facts hi
  have htype : (s.program.get i).type = .string := hfacts.type _ (by rw [hop]; rfl)
  refine evaluates_scalar hi (d := .string (s.program.data (s.program.get i)))
    (by simp [Denoted.kind]) htype.symm ?_ ?_
  · intro c position last
    rw [Session.meaning, h.accepted.expression_eq hi]
    simp only [Program.compose, hop, denote]
  · intro vm top c position last
    unfold startFrame
    simp only [hop, Program.slice_of_le hfacts.data, htype]
    rfl

theorem evaluates_bool (h : s.Ready forest) {i : Nat} (hi : i < s.program.count)
    (hop : (s.program.get i).op = .bool) : Evaluates s forest i := by
  have hfacts := h.accepted.facts hi
  have htype : (s.program.get i).type = .bool := hfacts.type _ (by rw [hop]; rfl)
  have hfolded := hfacts.folded hop
  refine evaluates_scalar hi (d := .bool ((s.program.get i).folded ≠ 0))
    (by simp [Denoted.kind]) htype.symm ?_ ?_
  · intro c position last
    rw [Session.meaning, h.accepted.expression_eq hi]
    simp only [Program.compose, hop, denote]
  · intro vm top c position last
    have hnumber : (decide ((s.program.get i).folded ≠ 0)).toNat = (s.program.get i).folded := by
      rcases Nat.le_one_iff_eq_zero_or_eq_one.mp hfolded with hzero | hone
      · simp [hzero]
      · simp [hone]
    unfold startFrame
    simp only [hop, htype, Denoted.value, hnumber]
    rfl

/-- A number evaluates. -/
theorem evaluates_literal (h : s.Ready forest) {i : Nat} (hi : i < s.program.count)
    (hop : (s.program.get i).op = .literal) : Evaluates s forest i := by
  have hfacts := h.accepted.facts hi
  have htype : (s.program.get i).type = .number := hfacts.type _ (by rw [hop]; rfl)
  refine evaluates_scalar hi (d := .int (s.program.get i).literalValue)
    (by simp [Denoted.kind]) htype.symm ?_ ?_
  · intro c position last
    rw [Session.meaning, h.accepted.expression_eq hi]
    simp only [Program.compose, hop, denote]
  · intro vm top c position last
    have hvalue : signedValue (s.program.get i).literalValue =
        { kind := .number, number := (s.program.get i).immediate,
          negative := (s.program.get i).negative } := by
      cases hnegative : (s.program.get i).negative with
      | false => simp [signedValue, Instruction.literalValue, hnegative]
      | true =>
        have hne : (s.program.get i).immediate ≠ 0 := by
          intro hzero
          have := hfacts.literal hop hzero
          rw [hnegative] at this
          cases this
        simp [signedValue, Instruction.literalValue, hnegative]
        omega
    unfold startFrame
    simp only [hop, htype, Denoted.value, hvalue]
    rfl

theorem evaluates_variable (h : s.Ready forest) {i : Nat} (hi : i < s.program.count)
    (hop : (s.program.get i).op = .variableRef) : Evaluates s forest i := by
  obtain ⟨hslot, d, hkind, hne, hbinding⟩ := h.bound i hi hop
  refine evaluates_scalar hi hne hkind ?_ ?_
  · intro c position last
    rw [Session.meaning, h.accepted.expression_eq hi]
    have hbindings : (s.world forest).bindings (s.program.get i).variableSlot =
        d.value (s.world forest) := hbinding
    simp only [Program.compose, hop, denote, hbindings, Option.some.injEq]
    cases d with
    | nodes set => exact absurd rfl hne
    | bool value => cases value <;> rfl
    | int value =>
      simp only [Value.denoted, Denoted.value, signed_integer_signed_value]
      rfl
    | bytes data => rfl
    | string data => rfl
  · intro vm top c position last
    unfold startFrame
    simp only [hop, Area.read_of_lt hslot, hbinding]
    rfl

theorem evaluates_metadata (h : s.Ready forest) {i : Nat} (hi : i < s.program.count)
    (hop : (s.program.get i).op = .metadata) : Evaluates s forest i := by
  have htype : (s.program.get i).type = .number :=
    (h.accepted.facts hi).type _ (by rw [hop]; rfl)
  refine evaluates_leaf hi fun c position last hc => ⟨0, fun vm top hfits htop => ?_⟩
  have hmeaning : s.meaning forest i c position last =
      ((s.world forest).metadata (Metadata.ofCode (s.program.get i).selector)
        (s.contextAt c)).map fun (value : Nat) => .int value := by
    rw [Session.meaning, h.accepted.expression_eq hi]
    simp only [Program.compose, hop, denote]
  unfold startFrame
  simp only [hop]
  refine (metadata_value_spec h (s.program.get i) hc).bind
    (fun e => Reports.mono (fun hnone => .inr (by rw [hmeaning, hnone]; rfl)) e) ?_
  intro value hvalue
  refine complete_meets_scalar (d := .int value) (fresh_follows hfits top) htop
    (by rw [hmeaning, hvalue]; rfl) htype.symm (by simp [Denoted.kind]) ?_ rfl
  simp [freshFrame, Denoted.value, signedValue, htype]

end OpenTlv.Query
