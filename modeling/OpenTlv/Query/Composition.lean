import OpenTlv.Query.Operators

/-!
# Paths and predicates

The instructions that evaluate their right operand once for every member of the left one. The
scan visits the flags of the saved set in document order, or backward for positions along a
reverse axis; `remaining` is what it has yet to visit.
-/

namespace OpenTlv.Query

/-- What one member adds to the result of a path or a predicate. -/
def absorb (w : World) (filter : Bool) (c : Context) (k : Nat) (d : Denoted) (x : Context) :
    Bool :=
  if filter then w.keeps d k && decide (c = x) else d.selects x

/-- What a sequence of members adds; the first has ordinal `k + 1`. -/
def absorbed (w : World) (filter : Bool) (right : Context → Nat → Option Denoted) :
    List Context → Nat → Option (Context → Bool)
  | [], _ => some fun _ => false
  | c :: rest, k => do
      let d ← right c (k + 1)
      let more ← absorbed w filter right rest (k + 1)
      return fun x => absorb w filter c (k + 1) d x || more x

/-- The union over contexts, member by member. -/
theorem union_over_eq (w : World) (right : Context → Option Denoted) (contexts : List Context)
    (k : Nat) :
    unionOver contexts right =
      (absorbed w false (fun c _ => right c) contexts k).map .nodes := by
  have hgeneral : (contexts.mapM right).map (fun results x => results.any (·.selects x)) =
      absorbed w false (fun c _ => right c) contexts k := by
    induction contexts generalizing k with
    | nil => rfl
    | cons c rest ih =>
      rw [absorbed, ← ih (k + 1), List.mapM_cons]
      cases right c with
      | none => rfl
      | some d => cases List.mapM right rest <;> rfl
  rw [← hgeneral, unionOver]
  cases List.mapM right contexts <;> rfl

/-- The candidates a predicate keeps, member by member. -/
theorem keep_from_eq (w : World) (predicate : Context → Nat → Option Denoted)
    (sequence : List Context) :
    keepFrom w sequence predicate = (absorbed w true predicate sequence 0).map .nodes := by
  have hgeneral : ∀ k, ((sequence.zipIdx k).mapM (judge w predicate)).map
        (fun results x => results.any fun result => result.2 && decide (result.1 = x)) =
      absorbed w true predicate sequence k := by
    induction sequence with
    | nil =>
      intro k
      rfl
    | cons c rest ih =>
      intro k
      rw [absorbed, ← ih (k + 1), List.zipIdx_cons, List.mapM_cons]
      cases hvalue : predicate c (k + 1) with
      | none => simp [judge, hvalue]
      | some d =>
        cases List.mapM (judge w predicate) (rest.zipIdx (k + 1)) with
        | none => simp [judge, hvalue]
        | some results => simp [judge, hvalue, absorb]
  rw [← hgeneral 0, keepFrom]
  cases List.mapM (judge w predicate) (sequence.zipIdx 0) <;> rfl

variable {s : Session} {forest : Forest Item}

/-- The index a scan visits at a cursor. -/
def scanIndex (s : Session) (reverse : Bool) (k : Nat) : Nat :=
  if reverse then s.nodeCapacity - k else k

/-- The members a scan has yet to visit. -/
def remaining (s : Session) (saved : Area Bool) (reverse : Bool) (cursor : Nat) : List Nat :=
  ((List.range' cursor (s.nodeCapacity + 1 - cursor)).map (scanIndex s reverse)).filter saved.cell

/-- All members, in the order of the scan. -/
theorem remaining_zero (h : s.Ready forest) {saved : Area Bool} {set : Context → Bool}
    (hsaved : s.Represents saved set) (reverse : Bool) :
    (remaining s saved reverse 0).map s.contextAt =
      if reverse then ((s.world forest).members set).reverse
      else (s.world forest).members set := by
  rw [← Session.picks_eq h.room h.elements hsaved]
  cases reverse with
  | false =>
    have hindex : scanIndex s false = id := by
      funext k
      simp [scanIndex]
    simp [remaining, hindex, ← List.range_eq_range']
  | true =>
    have hindex : (List.range' 0 (s.nodeCapacity + 1)).map (scanIndex s true) =
        (List.range (s.nodeCapacity + 1)).reverse := by
      rw [List.range_eq_range', List.reverse_range', List.range_eq_range']
      apply List.map_congr_left
      intro k _
      simp only [scanIndex, if_true]
      omega
    simp only [remaining, Nat.sub_zero, hindex, List.filter_reverse, List.map_reverse, if_true]

/-- The next member and what remains after it. -/
theorem find_remaining {saved : Area Bool} {reverse : Bool} {cursor : Nat} :
    (remaining s saved reverse cursor = [] ∧
      ((List.range' cursor (s.nodeCapacity + 1 - cursor)).find? fun k =>
        saved.cell (scanIndex s reverse k)) = none) ∨
    ∃ k, remaining s saved reverse cursor =
        scanIndex s reverse k :: remaining s saved reverse (k + 1) ∧
      ((List.range' cursor (s.nodeCapacity + 1 - cursor)).find? fun k =>
        saved.cell (scanIndex s reverse k)) = some k := by
  unfold remaining
  obtain ⟨m, hm⟩ : ∃ m, m = s.nodeCapacity + 1 - cursor := ⟨_, rfl⟩
  rw [← hm]
  induction m generalizing cursor with
  | zero => exact .inl ⟨rfl, rfl⟩
  | succ m ih =>
    rw [List.range'_succ, List.map_cons]
    by_cases hcell : saved.cell (scanIndex s reverse cursor) = true
    · refine .inr ⟨cursor, ?_, by simp [hcell]⟩
      rw [List.filter_cons_of_pos hcell, show s.nodeCapacity + 1 - (cursor + 1) = m by omega]
    · have hskip := @ih (cursor + 1) (by omega)
      rw [List.filter_cons_of_neg hcell,
        List.find?_cons_of_neg (p := fun k => saved.cell (scanIndex s reverse k)) hcell]
      exact hskip

/-- Whether the right operand of an instruction is a predicate. -/
def Instruction.isFilter (n : Instruction) : Bool :=
  n.op = .filter

/-- The frame of a path or a predicate between two members. -/
structure Frame.Scans (s : Session) (f : Frame) (i : Nat) (reverse : Bool) (rest : List Nat)
    (ordinal length : Nat) (acc : Context → Bool) : Prop where
  instruction : f.instruction = i
  value : f.value = { kind := .node }
  size : f.saved.size = s.nodeCapacity + 1
  rest : remaining s f.saved reverse f.cursor = rest
  ordinal : f.ordinal = ordinal
  length : f.length = length
  out : s.Represents f.out acc

/-- The direction of the scan of an instruction. -/
def Session.backward (s : Session) (i l : Nat) : Bool :=
  (s.program.get i).isFilter && (s.program.expression l).reversed

/-- The position and the length that the right operand sees. -/
def seen (filter : Bool) (k : Nat) : Nat :=
  if filter then k else 1

/-- A frame that scans suspends at the next member or completes. -/
theorem scan_frame_eq (h : s.Ready forest) {i l r : Nat} (hi : i < s.program.count)
    (hl : (s.program.get i).left = some l) (hr : (s.program.get i).right = some r)
    (hli : l < i) (vm : Vm) (top : Nat) {f : Frame} (hsize : f.saved.size = s.nodeCapacity + 1) :
    scanFrame s vm top f (s.program.get i) =
      match (List.range' f.cursor (s.nodeCapacity + 1 - f.cursor)).find? fun k =>
          f.saved.cell (scanIndex s (s.backward i l) k) with
      | none => complete s vm top f
      | some k =>
        suspend s vm top
          { f with
            cursor := k
            selected := some (scanIndex s (s.backward i l) k)
            ordinal := f.ordinal + 1
            stage := 4 }
          r (scanIndex s (s.backward i l) k)
          (seen (s.program.get i).isFilter (f.ordinal + 1))
          (seen (s.program.get i).isFilter f.length) := by
  obtain ⟨selector, hselector, hiff⟩ :=
    @axis_selector_spec s.program h.accepted l s.program.count (by omega) (by omega)
  have hdirection : ((s.program.get i).op = .filter ∧ selector.grouped = false ∧
      selector.op = .test ∧ selector.axis.isReverse = true) ↔ s.backward i l = true := by
    simp only [Session.backward, Instruction.isFilter, Bool.and_eq_true, decide_eq_true_eq, hiff]
  have hindex : ∀ k, (if (s.program.get i).op = .filter ∧ selector.grouped = false ∧
      selector.op = .test ∧ selector.axis.isReverse = true then s.nodeCapacity - k else k) =
        scanIndex s (s.backward i l) k := by
    intro k
    simp only [hdirection]
    rfl
  unfold scanFrame
  simp only [hl, checked_some, hr, node_set_eq hsize]
  show (axisSelector s.program s.program.count l >>= _) = _
  rw [hselector]
  cases hfound : List.find? _ _ with
  | none => simp only [bind, Except.bind, hindex, hfound]
  | some k =>
    simp only [bind, Except.bind, hindex, hfound, seen, Instruction.isFilter, decide_eq_true_eq]

/-- Whether the machine keeps a candidate. -/
theorem keeps_eq (w : World) {d : Denoted} (hkind : d.kind.code ≤ Kind.number.code) (k : Nat) :
    (if (d.value w).kind = .number then
        !(d.value w).negative && decide ((d.value w).number = k + 1)
      else (d.value w).truth) = w.keeps d (k + 1) := by
  cases d with
  | int x =>
    show (!decide (x < 0) && decide (x.natAbs = k + 1)) = decide (x = ((k + 1 : Nat) : Int))
    rw [Bool.eq_iff_iff]
    simp only [Bool.and_eq_true, Bool.not_eq_true', decide_eq_false_iff_not, decide_eq_true_eq]
    omega
  | nodes set => exact value_truth w (d := .nodes set) (Nat.zero_le _)
  | bool value => exact value_truth w (d := .bool value) (Nat.le_refl _)
  | bytes data => simp [Denoted.kind, Kind.code] at hkind
  | string data => simp [Denoted.kind, Kind.code] at hkind

/-- The result after one member. -/
theorem member_frame_eq (h : s.Ready forest) {i x : Nat} {f child : Frame} {acc : Context → Bool}
    {d : Denoted} {k : Nat} (hx : s.Live x) (hselected : f.selected = some x)
    (hordinal : f.ordinal = k + 1) (hout : s.Represents f.out acc) (hchild : child.Holds s forest d)
    (hfilter : (s.program.get i).isFilter = true → d.kind.code ≤ Kind.number.code)
    (hnodes : (s.program.get i).isFilter = false → d.kind = .node) (vm : Vm) (top : Nat) :
    ∃ out, memberFrame s vm top f (s.program.get i) child =
        scanFrame s vm top { f with out := out, cursor := f.cursor + 1 } (s.program.get i) ∧
      s.Represents out fun z => acc z ||
        absorb (s.world forest) (s.program.get i).isFilter (s.contextAt x) (k + 1) d z := by
  have hroom := h.room
  unfold memberFrame
  by_cases hop : (s.program.get i).op = .filter
  · have hisFilter : (s.program.get i).isFilter = true := by simp [Instruction.isFilter, hop]
    have hkeeps := keeps_eq (s.world forest) (hfilter hisFilter) k
    rw [← hchild.value] at hkeeps
    simp only [hop, if_true, hordinal, hkeeps, hselected]
    by_cases hkept : (s.world forest).keeps d (k + 1) = true
    · refine ⟨f.out.put x true, ?_, ?_⟩
      · simp only [hkept, if_true, checked_some, bind, Except.bind]
        rw [Area.write_of_lt _ (by rw [hout.1]; have := hx.le hroom; omega)]
        rfl
      · have hput := represents_put hroom hout hx
        have hset : (fun z => decide (z = s.contextAt x) || acc z) = fun z => acc z ||
            absorb (s.world forest) (s.program.get i).isFilter (s.contextAt x) (k + 1) d z := by
          funext z
          simp [absorb, hisFilter, hkept, Bool.or_comm, eq_comm]
        rw [← hset]
        exact hput
    · refine ⟨f.out, ?_, ?_⟩
      · simp only [hkept, Bool.false_eq_true, if_false]
        rfl
      · have hset : acc = fun z => acc z ||
            absorb (s.world forest) (s.program.get i).isFilter (s.contextAt x) (k + 1) d z := by
          funext z
          simp [absorb, hisFilter, hkept]
        rw [← hset]
        exact hout
  · have hisFilter : (s.program.get i).isFilter = false := by simp [Instruction.isFilter, hop]
    obtain ⟨set, rfl⟩ := nodes_of_kind (hnodes hisFilter)
    refine ⟨f.out.combine (· || ·) child.out, ?_, ?_⟩
    · simp only [hop, if_false, node_set_eq hchild.size, node_set_eq hout.1]
      rfl
    · have hset : (fun z => acc z || set z) = fun z => acc z ||
          absorb (s.world forest) (s.program.get i).isFilter (s.contextAt x) (k + 1)
            (.nodes set) z := by
        funext z
        simp [absorb, hisFilter, Denoted.selects, Denoted.set]
      rw [← hset]
      exact represents_combine rfl hout (hchild.set set rfl)

/-- The right operand in a member of the sequence. -/
def Session.rightMeaning (s : Session) (forest : Forest Item) (i r length : Nat) (c : Context)
    (k : Nat) : Option Denoted :=
  denote (s.world forest) (s.program.expression r) c (seen (s.program.get i).isFilter k)
    (seen (s.program.get i).isFilter length)

/-- The scan from a member on, for a frame that then completes. -/
theorem scan_meets (h : s.Ready forest) {i l r : Nat} (hi : i < s.program.count)
    (hl : (s.program.get i).left = some l) (hr : (s.program.get i).right = some r)
    (hli : l < i) (hri : r < i) (hright : Evaluates s forest r)
    (hfilter : (s.program.get i).isFilter = true →
      (s.program.get r).type.code ≤ Kind.number.code)
    (hnodes : (s.program.get i).isFilter = false → (s.program.get r).type = .node)
    (length : Nat) (rest : List Nat) (hlive : ∀ x ∈ rest, s.Live x) (ordinal : Nat) :
    ∃ cost, ∀ (vm : Vm) (top : Nat) (f : Frame) (acc : Context → Bool) (fails : Prop)
      (good : Vm × Option Nat → Prop), vm.Fits s → top + i < s.program.count →
      f.Scans s i (s.backward i l) rest ordinal length acc → (vm.meter.left < cost → fails) →
      (absorbed (s.world forest) (s.program.get i).isFilter
        (s.rightMeaning forest i r length) (rest.map s.contextAt) ordinal = none → fails) →
      (∀ vm' f' set, absorbed (s.world forest) (s.program.get i).isFilter
          (s.rightMeaning forest i r length) (rest.map s.contextAt) ordinal = some set →
        Follows s top cost vm vm' → f'.value = { kind := .node } →
        s.Represents f'.out (fun z => acc z || set z) →
        Meets (complete s vm' top f') (Reports fails) fun y =>
          y.1.meter.left ≤ vm'.meter.left ∧ Runs s y fails good) →
      Meets (scanFrame s vm top f (s.program.get i)) (Reports fails) fun y =>
        y.1.meter.left ≤ vm.meter.left ∧ Runs s y fails good := by
  -- on the contexts left in the saved sequence
  induction rest generalizing ordinal with
  | nil =>
    refine ⟨0, fun vm top f acc fails good hfits htop hscan hlow hnone hnext => ?_⟩
    rw [scan_frame_eq h hi hl hr hli vm top hscan.size]
    rcases @find_remaining s f.saved (s.backward i l) f.cursor with ⟨-, hfind⟩ | ⟨k, hrest, -⟩
    · rw [hfind]
      refine hnext vm f (fun _ => false) rfl (fresh_follows hfits top) hscan.value ?_
      simpa using hscan.out
    · rw [hscan.rest] at hrest
      cases hrest
  | cons x rest ih =>
    rw [List.forall_mem_cons] at hlive
    obtain ⟨costR, hrunR⟩ := suspend_meets hright
      (seen (s.program.get i).isFilter (ordinal + 1))
      (seen (s.program.get i).isFilter length) hlive.1
    obtain ⟨costS, hrunS⟩ := ih hlive.2 (ordinal + 1)
    refine ⟨costR + (stepCost s + costS),
      fun vm top f acc fails good hfits htop hscan hlow hnone hnext => ?_⟩
    rw [scan_frame_eq h hi hl hr hli vm top hscan.size]
    rcases @find_remaining s f.saved (s.backward i l) f.cursor with ⟨hnil, -⟩ | ⟨k, hrest, hfind⟩
    · rw [hscan.rest] at hnil
      cases hnil
    rw [hscan.rest] at hrest
    obtain ⟨hx, hrest'⟩ := List.cons.inj hrest
    rw [hfind]
    dsimp only
    rw [← hx, hscan.ordinal, hscan.length]
    have hmeaning : s.meaning forest r x (seen (s.program.get i).isFilter (ordinal + 1))
        (seen (s.program.get i).isFilter length) =
          s.rightMeaning forest i r length (s.contextAt x) (ordinal + 1) := rfl
    refine hrunR vm top _ fails good hfits (by omega) (fun hlow' => hlow (by omega)) ?_ ?_
    · intro hfail
      apply hnone
      rw [hmeaning] at hfail
      simp [absorbed, hfail]
    intro vm' d hd hkind hholds hframe hfollows
    rw [hmeaning] at hd
    have hleft := hfollows.spent.1
    refine runs_dispatch hfollows.fits (by omega) hframe
      (by simpa [hscan.instruction] using hi) (fun hlow' => hlow (by omega)) ?_
    intro meter hspent
    have hspent' := hspent.1
    have hread : vm'.frames.read (top + 1) = some (vm'.frames.cell (top + 1)) :=
      Area.read_of_lt (by rw [hfollows.fits.frames]; omega)
    unfold dispatchFrame
    simp only [OfNat.ofNat_ne_zero, if_false, hread, checked_some, Nat.reduceLeDiff,
      OfNat.ofNat_ne_one, ge_iff_le, if_true, hscan.instruction, Nat.reduceEqDiff]
    -- the right operand is done: its value decides about this context
    obtain ⟨out, hmember, hout⟩ := member_frame_eq h (i := i) (x := x) (k := ordinal)
      (f := { f with
        instruction := i
        cursor := k
        selected := some x
        ordinal := ordinal + 1
        length := length
        stage := 4 }) hlive.1 rfl rfl hscan.out hholds
      (fun hf => by rw [hkind]; exact hfilter hf) (fun hf => by rw [hkind]; exact hnodes hf)
      { vm' with meter := meter } top
    show Meets (memberFrame s _ top _ (s.program.get i) _) _ _
    have habsorbed : ∀ more, absorbed (s.world forest) (s.program.get i).isFilter
        (s.rightMeaning forest i r length) (rest.map s.contextAt) (ordinal + 1) = more →
        absorbed (s.world forest) (s.program.get i).isFilter
          (s.rightMeaning forest i r length) ((x :: rest).map s.contextAt) ordinal =
          more.map fun set z => absorb (s.world forest) (s.program.get i).isFilter
            (s.contextAt x) (ordinal + 1) d z || set z := by
      rintro more rfl
      simp only [List.map_cons, absorbed, hd]
      cases absorbed (s.world forest) (s.program.get i).isFilter
        (s.rightMeaning forest i r length) (rest.map s.contextAt) (ordinal + 1) <;> rfl
    rw [hmember]
    refine Meets.mono (hrunS _ top _ (fun z => acc z || absorb (s.world forest)
      (s.program.get i).isFilter (s.contextAt x) (ordinal + 1) d z) fails good ?fits htop ?scans
      ?work ?fails ?finish) (fun e he => he) (fun y hy => ?_)
    case fits => exact ⟨hfollows.fits.values, hfollows.fits.table, hfollows.fits.frames⟩
    case scans =>
      exact ⟨rfl, hscan.value, hscan.size, hrest'.symm, rfl, rfl, hout⟩
    case work =>
      intro hlow'
      apply hlow
      dsimp only at hlow'
      omega
    case fails =>
      intro hfail
      apply hnone
      rw [habsorbed none hfail]
      rfl
    case finish =>
      intro vm'' f' set hset hfollows' hvalue hout'
      have hfollows'' : Follows s top (costR + (stepCost s + costS)) vm vm'' := by
        refine ⟨hfollows'.fits, hfollows.spent.trans (hspent.trans hfollows'.spent), ?_⟩
        intro j hj
        rw [hfollows'.kept j hj]
        exact hfollows.kept j hj
      refine hnext vm'' f' _ (habsorbed (some set) hset) hfollows'' hvalue ?_
      simpa [Bool.or_assoc] using hout'
    · exact ⟨by have := hy.1; dsimp only at this; omega, hy.2⟩

/-- The contexts in which the right operand is evaluated. -/
def Session.base (s : Session) (forest : Forest Item) (i : Nat) (set : Context → Bool) :
    Context → Bool :=
  if (s.program.get i).op = .desc then (s.world forest).reached set else set

/-- The same contexts in the order of positions. -/
def Session.sequence (s : Session) (forest : Forest Item) (i l : Nat) (set : Context → Bool) :
    List Context :=
  if s.backward i l then ((s.world forest).members (s.base forest i set)).reverse
  else (s.world forest).members (s.base forest i set)

/-- The meaning of a path or a predicate. -/
theorem composition_meaning (h : s.Ready forest) {i l r : Nat} (hi : i < s.program.count)
    (hop : (s.program.get i).op = .child ∨ (s.program.get i).op = .desc ∨
      (s.program.get i).op = .filter)
    (hl : (s.program.get i).left = some l) (hr : (s.program.get i).right = some r)
    (c position last : Nat) :
    s.meaning forest i c position last = (do
      let d ← s.meaning forest l c position last
      let set ← d.set
      (absorbed (s.world forest) (s.program.get i).isFilter
        (s.rightMeaning forest i r (s.sequence forest i l set).length)
        (s.sequence forest i l set) 0).map .nodes) := by
  have hexpression := h.accepted.expression_eq hi
  simp only [Session.meaning, hexpression]
  have hright : ∀ length, s.rightMeaning forest i r length = fun d k =>
      denote (s.world forest) (s.program.expression r) d (seen (s.program.get i).isFilter k)
        (seen (s.program.get i).isFilter length) := fun _ => rfl
  rcases hop with hop | hop | hop
  · have hfilter : (s.program.get i).isFilter = false := by simp [Instruction.isFilter, hop]
    simp only [Program.compose, hop, hl, hr, Option.elim_some, denote, Session.sequence,
      Session.base, Session.backward, hfilter, Bool.false_and, Bool.false_eq_true, if_false,
      reduceCtorEq, union_over_eq (s.world forest) _ _ 0, hright, seen]
  · have hfilter : (s.program.get i).isFilter = false := by simp [Instruction.isFilter, hop]
    simp only [Program.compose, hop, hl, hr, Option.elim_some, denote, Session.sequence,
      Session.base, Session.backward, hfilter, Bool.false_and, Bool.false_eq_true, if_false,
      if_true, union_over_eq (s.world forest) _ _ 0, hright, seen]
  · have hfilter : (s.program.get i).isFilter = true := by simp [Instruction.isFilter, hop]
    simp only [Program.compose, hop, hl, hr, Option.elim_some, denote, Session.sequence,
      Session.base, Session.backward, hfilter, Bool.true_and, reduceCtorEq, if_false,
      if_true, keep_from_eq, hright, seen]

/-- The descendant expansion, where there is one. -/
theorem base_spec (h : s.Ready forest) (i : Nat) (set : Context → Bool) :
    ∃ cost, ∀ saved meter, s.Represents saved set →
      Meets (expandSet s (s.program.get i) saved meter) (Reports (meter.left < cost)) fun x =>
        s.Represents x.1 (s.base forest i set) ∧ Spent cost meter x.2 := by
  by_cases hdesc : (s.program.get i).op = .desc
  · simp only [Session.base, expandSet, if_pos hdesc]
    exact expand_spec h (s.program.get i) set
  · simp only [Session.base, expandSet, if_neg hdesc]
    exact ⟨0, fun saved meter hsaved => ⟨hsaved, Spent.zero meter⟩⟩

/-- A path or a predicate once its left operand is complete. -/
theorem path_meets (h : s.Ready forest) {i l r : Nat} (hi : i < s.program.count)
    (hop : (s.program.get i).op = .child ∨ (s.program.get i).op = .desc ∨
      (s.program.get i).op = .filter)
    (hl : (s.program.get i).left = some l) (hr : (s.program.get i).right = some r)
    (hli : l < i) (hri : r < i) (hright : Evaluates s forest r) (c position last : Nat)
    (set : Context → Bool) (hset : s.meaning forest l c position last = some (.nodes set)) :
    ∃ cost, ∀ vm top (f child : Frame), vm.Fits s → top + i < s.program.count →
      f.instruction = i → f.value = { kind := .node } → f.ordinal = 0 →
      s.Represents f.out (fun _ => false) → child.Holds s forest (.nodes set) →
      Meets (leftFrame s vm top f (s.program.get i) child)
        (Reports (vm.meter.left < cost ∨ s.meaning forest i c position last = none))
        fun y => y.1.meter.left ≤ vm.meter.left ∧
          Runs s y (vm.meter.left < cost ∨ s.meaning forest i c position last = none)
            (Completes s forest i c position last top cost vm) := by
  have htypes := h.accepted.types hi
  have htype : (s.program.get i).type = .node := (h.accepted.facts hi).type _ (by
    rcases hop with hop | hop | hop <;> rw [hop] <;> rfl)
  have hmeaning := composition_meaning h hi hop hl hr c position last
  rw [hset] at hmeaning
  obtain ⟨costE, hrunE⟩ := base_spec h i set
  -- the scan sees the saved set only through its members
  let picks := ((List.range' 0 (s.nodeCapacity + 1)).map (scanIndex s (s.backward i l))).filter
    (s.member (s.base forest i set))
  have hpicks : ∀ saved, s.Represents saved (s.base forest i set) →
      remaining s saved (s.backward i l) 0 = picks := by
    intro saved hsaved
    refine List.filter_congr fun x hx => ?_
    rw [List.mem_map] at hx
    obtain ⟨k, hk, rfl⟩ := hx
    rw [List.mem_range'_1] at hk
    refine hsaved.2 _ ?_
    unfold scanIndex
    split <;> omega
  have hlive : ∀ x ∈ picks, s.Live x := fun x hx =>
    Session.live_of_member (List.of_mem_filter hx)
  obtain ⟨costS, hrunS⟩ := scan_meets h hi hl hr hli hri hright
    (fun hfilter => htypes.predicate (by simpa [Instruction.isFilter] using hfilter) r hr)
    (fun hfilter => htypes.sets (by
      rcases hop with hop | hop | hop
      · exact .inl hop
      · exact .inr (.inl hop)
      · simp [Instruction.isFilter, hop] at hfilter) r hr)
    (s.sequence forest i l set).length picks hlive 0
  refine ⟨costE + costS, fun vm top f child hfits htop hinstruction hvalue hordinal hout hchild => ?_⟩
  have hcomposite : (s.program.get i).op = .child ∨ (s.program.get i).op = .desc ∨
      (s.program.get i).op = .filter := hop
  unfold leftFrame
  rw [node_set_eq hchild.size]
  show Meets (if (s.program.get i).op = .child ∨ (s.program.get i).op = .desc ∨
    (s.program.get i).op = .filter then _ else _) _ _
  rw [if_pos hcomposite]
  refine (hrunE child.out vm.meter (hchild.set set rfl)).bind
    (fun e => Reports.mono (fun hlow => Or.inl (by omega)) e) ?_
  rintro ⟨saved, meter⟩ ⟨hsaved, hspent⟩
  dsimp only at hsaved hspent ⊢
  have hcontexts : picks.map s.contextAt = s.sequence forest i l set := by
    rw [← hpicks saved hsaved, remaining_zero h hsaved]
    rfl
  have hspent' := hspent.1
  refine Meets.mono (hrunS _ top _ (fun _ => false) _
    (Completes s forest i c position last top (costE + costS) vm) ?fits htop ?scans ?work ?failed
    ?finish) (fun e he => he) (fun y hy => ?_)
  case fits => exact ⟨hfits.values, hfits.table, hfits.frames⟩
  case scans =>
    refine ⟨hinstruction, hvalue, hsaved.1, hpicks saved hsaved, hordinal, ?_, hout⟩
    dsimp only
    rw [Session.count_eq h.room h.elements hsaved, Session.sequence]
    split <;> simp
  case work =>
    intro hlow
    dsimp only at hlow
    exact .inl (by omega)
  case failed =>
    intro hfail
    rw [hcontexts] at hfail
    refine .inr ?_
    rw [hmeaning]
    simp [Denoted.set, hfail]
  case finish =>
    intro vm' f' result hresult hfollows hvalue' hout'
    rw [hcontexts] at hresult
    have hfollows' : Follows s top (costE + costS) vm vm' :=
      ⟨hfollows.fits, hspent.trans hfollows.spent, hfollows.kept⟩
    simp only [Bool.false_or] at hout'
    refine Meets.mono (@complete_meets_nodes s forest h i c position last top _ _ _ _ _ _
      hfollows' (by omega) ?_ htype hvalue' hout') (fun e he => he) ?_
    · rw [hmeaning]
      simp [Denoted.set, hresult]
    · intro y hcompletes
      refine ⟨?_, Settles.refl hcompletes⟩
      have hleft := hcompletes.2.1.spent.1
      have hleft' := hfollows'.spent.1
      omega
  · exact ⟨by have := hy.1; dsimp only at this; omega, hy.2⟩

/-- Paths and predicates. -/
theorem evaluates_composition (h : s.Ready forest) {i : Nat} (hi : i < s.program.count)
    (hop : (s.program.get i).op = .child ∨ (s.program.get i).op = .desc ∨
      (s.program.get i).op = .filter)
    (hleft : ∀ l, (s.program.get i).left = some l → Evaluates s forest l)
    (hright : ∀ r, (s.program.get i).right = some r → Evaluates s forest r) :
    Evaluates s forest i := by
  have hoperator : (s.program.get i).op.isOperator = true := by
    rcases hop with hop | hop | hop <;> rw [hop] <;> rfl
  obtain ⟨l, r, hl, hr, hli, hri⟩ := h.accepted.operands hi hoperator
  have htl : (s.program.get l).type = .node :=
    (h.accepted.types hi).nodes (by tauto) l hl
  have htype : (s.program.get i).type = .node := (h.accepted.facts hi).type _ (by
    rcases hop with hop | hop | hop <;> rw [hop] <;> rfl)
  intro c position last hc
  obtain ⟨costL, hrunL⟩ := suspend_meets (hleft l hl) position last hc
  have hstrict : s.meaning forest l c position last = none →
      s.meaning forest i c position last = none := by
    intro hnone
    rw [composition_meaning h hi hop hl hr, hnone]
    rfl
  obtain ⟨costP, hrunP⟩ : ∃ cost, ∀ set,
      s.meaning forest l c position last = some (.nodes set) →
      ∀ vm top (f child : Frame), vm.Fits s → top + i < s.program.count →
        f.instruction = i → f.value = { kind := .node } → f.ordinal = 0 →
        s.Represents f.out (fun _ => false) → child.Holds s forest (.nodes set) →
        Meets (leftFrame s vm top f (s.program.get i) child)
          (Reports (vm.meter.left < cost ∨ s.meaning forest i c position last = none))
          fun y => y.1.meter.left ≤ vm.meter.left ∧
            Runs s y (vm.meter.left < cost ∨ s.meaning forest i c position last = none)
              (Completes s forest i c position last top cost vm) := by
    by_cases hexists : ∃ set, s.meaning forest l c position last = some (.nodes set)
    · obtain ⟨set, hset⟩ := hexists
      obtain ⟨cost, hrun⟩ :=
        path_meets h hi hop hl hr hli hri (hright r hr) c position last set hset
      refine ⟨cost, fun set' hset' => ?_⟩
      rw [hset] at hset'
      cases hset'
      exact hrun
    · exact ⟨0, fun set hset => absurd ⟨set, hset⟩ hexists⟩
  refine ⟨stepCost s + costL + (stepCost s + costP), fun vm top hfits htop hframe => ?_⟩
  refine runs_dispatch hfits (by omega) hframe hi (fun hlow => .inl (by omega)) ?_
  intro meter hspent
  have hmeter := hspent.1
  show Meets (startFrame s _ top _ (s.program.get i)) _ _
  rw [start_operator hoperator hl]
  refine hrunL _ top _ _ _ ⟨hfits.values, hfits.table, hfits.frames⟩ (by omega)
    (fun hlow => .inl (by dsimp only at hlow; omega)) (fun hnone => .inr (hstrict hnone)) ?_
  intro vm' d hd hkind hholds hframe' hfollows
  obtain ⟨set, rfl⟩ := nodes_of_kind (hkind.trans htl)
  have hleft' := hfollows.spent.1
  dsimp only at hleft'
  refine runs_dispatch hfollows.fits (by omega) hframe' hi (fun hlow => .inl (by omega)) ?_
  intro meter' hspent'
  have hmeter' := hspent'.1
  have hread : vm'.frames.read (top + 1) = some (vm'.frames.cell (top + 1)) :=
    Area.read_of_lt (by rw [hfollows.fits.frames]; omega)
  unfold dispatchFrame
  simp only [one_ne_zero, if_false, hread, checked_some]
  show Meets (leftFrame s _ top _ (s.program.get i) _) _ _
  refine Meets.mono (hrunP set hd _ top _ _ ?fits htop rfl ?value rfl represents_fill hholds)
    (fun e => Reports.mono (fun hfails => ?_) e) ?_
  case fits => exact ⟨hfollows.fits.values, hfollows.fits.table, hfollows.fits.frames⟩
  case value => simp [htype]
  · refine hfails.imp (fun hlow => ?_) id
    dsimp only at hlow
    omega
  · rintro y ⟨hle, hruns⟩
    dsimp only at hle
    refine ⟨by omega, hruns.mono (fun hfails => ?_) fun z hcompletes => ?_⟩
    · refine hfails.imp (fun hlow => ?_) id
      dsimp only at hlow
      omega
    · have hall := ((Follows.charged hfits hspent).trans hfollows).trans
        (Follows.charged hfollows.fits hspent')
      simpa only [Nat.add_assoc] using hcompletes.after hall

end OpenTlv.Query
