import Mathlib.Tactic.Linarith
import ReservoirWells.Proofs.Group.Directions
import ReservoirWells.Proofs.Group.Individual
import ReservoirWells.Proofs.Group.Signs

/-! # Remainder — the whole target, partly taken and partly shared

    A group that refreshes its production target goes over its children three times.  It adds up what
    the producers under individual control take, it adds up the guide rates under group control, and
    it shares what is left of the target over the producers under group control.  The three passes do
    not look for the same nodes: a group below is passed over by the first and the last one, and its
    guide rate counts in the second one.  When only producers bring in a guide rate, the passes fit
    together, and what is taken and what is shared make up the target:

    * `Hierarchy.individualRate_eq_sum` — what is taken beforehand is told for every producer that
      takes;
    * `Forest.guideTotal_eq_sum` — the guide rates of the producers that share the remainder;
    * `Site.HasTarget.refresh_orders` — the orders of a refresh that goes through, in both directions;
    * `Site.refreshProduction_splits` — the targets after the refresh. -/

namespace ReservoirWells

variable {α : Type}

/-! ## Who takes and who shares -/

section Parts

variable [Scalar α]

/-- The node is a producer whose rate comes off the target of the group beforehand. -/
def Node.takesFirst (n : Node α) : Bool := n.individual && n.isProducer

/-- The node is a producer that gets a part of what is left. -/
def Node.takesRemainder (n : Node α) : Bool := !n.individual && n.isProducer

theorem Node.takesRemainder_iff {n : Node α} :
    n.takesRemainder = true ↔ n.individual = false ∧ n.isProducer = true := by
  rw [takesRemainder, Bool.and_eq_true, Bool.not_eq_true']

end Parts

variable [ExactScalar α]

/-- What is taken from a target beforehand is told for every producer that takes, and is the sum of
    the magnitudes. -/
theorem Hierarchy.individualRate_eq_sum {h : Hierarchy α} {m : ProductionMode} {flows : List α}
    {nodes : List (Nat × Node α)} {taken : α} (htaken : h.individualRate m flows nodes = .ok taken) :
    ∃ rate : Nat × Node α → α,
      (∀ c ∈ nodes, c.2.takesFirst = true → c.2.productionRate h.phases flows m = .ok (rate c)) ∧
      taken = ((nodes.filter fun c => c.2.takesFirst).map fun c =>
        |rate c * c.2.efficiency.val|).sum := by
  let rate : Nat × Node α → α := fun c => (c.2.productionRate h.phases flows m).toOption.getD 0
  have hrate : ∀ {c : Nat × Node α} {x : α}, c.2.productionRate h.phases flows m = .ok x →
      rate c = x := fun hx => getD_of_ok hx 0
  refine ⟨rate, ?_⟩
  rw [individualRate] at htaken
  rw [← zero_add (List.sum _)]
  -- the sum may start anywhere
  generalize (0 : α) = start at htaken ⊢
  induction nodes generalizing start with
  | nil =>
      cases htaken
      exact ⟨fun c hc => (List.not_mem_nil hc).elim, (add_zero _).symm⟩
  | cons c rest ih =>
      rw [List.foldlM_cons] at htaken
      obtain ⟨next, hstep, hrest⟩ := bind_eq_ok.mp htaken
      obtain ⟨hothers, hsum⟩ := ih next hrest
      replace hstep : (if c.2.takesFirst = true then (c.2.productionRate h.phases flows m).map
        fun x => start + Scalar.abs (x * c.2.efficiency.val) else .ok start) = .ok next := hstep
      cases hfirst : c.2.takesFirst with
      | true =>
          rw [if_pos hfirst] at hstep
          cases hx : c.2.productionRate h.phases flows m with
          | error e => rw [hx] at hstep; cases hstep
          | ok x =>
              rw [hx] at hstep
              have hnext : start + Scalar.abs (x * c.2.efficiency.val) = next := Except.ok.inj hstep
              refine ⟨List.forall_mem_cons.mpr ⟨fun _ => ?_, hothers⟩, ?_⟩
              · rw [hrate hx]
                exact hx
              · rw [hsum, List.filter_cons_of_pos (by exact hfirst), List.map_cons, List.sum_cons,
                  hrate hx, ← hnext, Scalar.abs_eq, add_assoc]
      | false =>
          have hskip : ¬ c.2.takesFirst = true := by rw [hfirst]; exact Bool.false_ne_true
          rw [if_neg hskip] at hstep
          cases hstep
          refine ⟨List.forall_mem_cons.mpr ⟨fun htrue => absurd htrue hskip, hothers⟩, ?_⟩
          · rw [hsum, List.filter_cons_of_neg (by exact hskip)]

/-- The guide rate under group control is that of the producers among the siblings, when the other
    siblings under group control bring in nothing. -/
theorem Forest.guideTotal_eq_sum {h : Hierarchy α} {f : Forest α} (hf : f.IsPart h)
    (hothers : ∀ c ∈ f.siblings, c.2.individual = false → c.2.isProducer = false →
      h.guideRate .production c.1 true = .ok 0) :
    f.guideTotal .production true 0
      = ((f.siblings.filter fun c => c.2.takesRemainder).map fun c =>
          c.2.specs.guideRate .production).sum := by
  induction f with
  | nil => rfl
  | well id n next ih =>
      obtain ⟨hn, hwell, hnext⟩ := hf
      have hrest := ih hnext fun c hc => hothers c (List.mem_cons_of_mem _ hc)
      rw [guideTotal, guideTotal_add, zero_add, hrest, siblings]
      cases hkind : n.takesRemainder with
      | true =>
          obtain ⟨hfree, _⟩ := Node.takesRemainder_iff.mp hkind
          rw [List.filter_cons_of_pos (by exact hkind), List.map_cons, List.sum_cons, Node.share_of_free hfree]
          rfl
      | false =>
          have hnone : n.share .production true = 0 := by
            cases hind : n.individual with
            | true => rw [Node.share, hind]; rfl
            | false =>
                rw [Node.takesRemainder, hind, Bool.not_false, Bool.true_and] at hkind
                have hguide := hothers (id, n) (List.mem_cons_self ..) hind hkind
                rw [Hierarchy.guideRate_well hn hwell] at hguide
                exact Except.ok.inj hguide
          rw [hnone, zero_add, List.filter_cons_of_neg (by rw [hkind]; exact Bool.false_ne_true)]
  | group id n below next _ ihn =>
      obtain ⟨hn, hgroup, hbelow, _, hnext⟩ := hf
      have hkind : n.isProducer = false := by
        cases hproducer : n.isProducer with
        | false => rfl
        | true =>
            rw [Node.isGroup_of_isKind hproducer] at hgroup
            cases hgroup
      have hskip : n.takesRemainder = false := by rw [Node.takesRemainder, hkind, Bool.and_false]
      rw [siblings, List.filter_cons_of_neg (by rw [hskip]; exact Bool.false_ne_true),
        ← ihn hnext fun c hc => hothers c (List.mem_cons_of_mem _ hc), guideTotal]
      cases hind : n.individual with
      | true => rfl
      | false =>
          have hguide := hothers (id, n) (List.mem_cons_self ..) hind hkind
          rw [Hierarchy.guideRate_group hn hgroup, ← hbelow] at hguide
          rw [Except.ok.inj hguide, Bool.and_false, if_neg Bool.false_ne_true, zero_add]

/-! ## The orders of a refresh -/

/-- The control by which a producer gets its part of what is left, by its guide rate among all. -/
def Node.partControl (c : Node α) (a : ActivePhases) (m : ProductionMode) (total rest : α) :
    Except GroupError (Control α) :=
  groupControl a (.production m)
    (-(c.specs.guideRate .production / total * rest) / c.efficiency.val)

/-- The order hands a producer its part of what is left, or marks it. -/
def Order.HandsPart (a : ActivePhases) (m : ProductionMode) (total rest : α) (c : Nat × Node α)
    (o : Order α) : Prop :=
  (∃ control, c.2.partControl a m total rest = .ok control ∧ o = .install c.1 control) ∨
    o = .refresh c.1

theorem Order.HandsPart.subject {a : ActivePhases} {m : ProductionMode} {total rest : α}
    {c : Nat × Node α} {o : Order α} (h : o.HandsPart a m total rest c) :
    o.subject? = some c.1 := by
  obtain ⟨_, _, rfl⟩ | rfl := h
  · rfl
  · rfl

namespace Site

variable {s : Site α} {id : Nat} {n : Node α} {m : ProductionMode} {t total : α} {flows : List α}

/-- A refresh that goes through knows what is taken, and hands a part of what is left to every
    producer under group control. -/
theorem HasTarget.refresh_eq_run (h : s.HasTarget id n m t)
    (htotal : (s.hierarchy.below id).guideTotal .production true 0 = total) (hpos : 0 < total)
    (hrun : (s.refreshProduction id flows).2 = .ok ()) :
    ∃ taken, s.hierarchy.individualRate m flows (s.hierarchy.below id).siblings = .ok taken ∧
      s.refreshProduction id flows = s.run ((s.hierarchy.below id).siblings.flatMap fun c =>
        if c.2.takesRemainder then
          c.2.take c.1 s.hierarchy.phases (.production m) false
            (c.2.specs.guideRate .production / total * (t / n.efficiency.val - taken))
              ++ [.refresh c.1]
        else []) := by
  rw [refreshProduction, Hierarchy.refreshPlan_eq h.node h.group (h.refreshTarget_eq s.hierarchy),
    htotal, Scalar.isZero_of_pos hpos] at hrun ⊢
  cases htaken : s.hierarchy.individualRate m flows (s.hierarchy.below id).siblings with
  | error e => rw [htaken] at hrun; cases hrun
  | ok taken =>
      refine ⟨taken, rfl, congrArg s.run (List.flatMap_congr fun c _ => ?_)⟩
      cases hpart : c.2.takesRemainder with
      | true =>
          obtain ⟨hfree, hkind⟩ := Node.takesRemainder_iff.mp hpart
          rw [hfree, hkind, Node.take_of_free hfree, Node.share_of_free hfree]
          rfl
      | false =>
          have hskip : (c.2.individual || !c.2.isProducer) = true := by
            rw [← Bool.not_eq_false', Bool.not_or, Bool.not_not]
            exact hpart
          rw [if_pos hskip, if_neg Bool.false_ne_true]

/-- Every producer under group control is handed its part of what is left and is marked, and nothing
    else is done. -/
theorem HasTarget.refresh_orders (h : s.HasTarget id n m t)
    (htotal : (s.hierarchy.below id).guideTotal .production true 0 = total) (hpos : 0 < total)
    (hrun : (s.refreshProduction id flows).2 = .ok ()) :
    ∃ taken l, s.hierarchy.individualRate m flows (s.hierarchy.below id).siblings = .ok taken ∧
      s.refreshProduction id flows = s.run l ∧
      (∀ c ∈ (s.hierarchy.below id).siblings, c.2.takesRemainder = true → .refresh c.1 ∈ l ∧
        ∃ control, c.2.partControl s.hierarchy.phases m total (t / n.efficiency.val - taken)
          = .ok control ∧ .install c.1 control ∈ l) ∧
      ∀ o ∈ l, ∃ c ∈ (s.hierarchy.below id).siblings, c.2.takesRemainder = true ∧
        o.HandsPart s.hierarchy.phases m total (t / n.efficiency.val - taken) c := by
  obtain ⟨taken, htaken, hcall⟩ := h.refresh_eq_run htotal hpos hrun
  rw [hcall] at hrun
  generalize hl : List.flatMap _ (s.hierarchy.below id).siblings = l at hcall hrun
  have hrefuse := refuse_notMem_of_run hrun
  refine ⟨taken, l, htaken, hcall, fun c hc hpart => ?_, fun o ho => ?_⟩
  · obtain ⟨_, hkind⟩ := Node.takesRemainder_iff.mp hpart
    have hmem : ∀ o ∈ c.2.take c.1 s.hierarchy.phases (.production m) false
        (c.2.specs.guideRate .production / total * (t / n.efficiency.val - taken))
          ++ [.refresh c.1], o ∈ l := by
      intro o ho
      rw [← hl]
      refine List.mem_flatMap.mpr ⟨c, hc, ?_⟩
      rw [if_pos hpart]
      exact ho
    refine ⟨hmem _ (List.mem_append.mpr (Or.inr (List.mem_singleton.mpr rfl))), ?_⟩
    rcases Node.take_cases (show c.2.isKind (Mode.production m).direction.wellKind = true from hkind)
        (show ¬ (false && c.2.individual) = true from Bool.false_ne_true) c.1 s.hierarchy.phases
        (c.2.specs.guideRate .production / total * (t / n.efficiency.val - taken)) with
      ⟨control, hcontrol, heq⟩ | ⟨e, heq⟩
    · refine ⟨control, hcontrol, hmem _ (List.mem_append.mpr (Or.inl ?_))⟩
      rw [heq]
      exact List.mem_singleton.mpr rfl
    · refine absurd (hmem _ (List.mem_append.mpr (Or.inl ?_))) (hrefuse e)
      rw [heq]
      exact List.mem_singleton.mpr rfl
  · rw [← hl] at ho
    obtain ⟨c, hc, hblock⟩ := List.mem_flatMap.mp ho
    split at hblock
    · next hpart =>
        refine ⟨c, hc, hpart, ?_⟩
        rcases List.mem_append.mp hblock with htake | hmark
        · obtain ⟨_, ⟨control, hcontrol, heq⟩ | ⟨e, _, heq⟩⟩ := Node.mem_take htake
          · exact Or.inl ⟨control, hcontrol, heq⟩
          · rw [hl, heq] at ho
            exact absurd ho (hrefuse e)
        · exact Or.inr (List.mem_singleton.mp hmark)
    · cases hblock

/-! ## What a refresh leaves behind -/

section Left

variable {l : List (Order α)} {rest : α}
  (honly : ∀ o ∈ l, ∃ c ∈ (s.hierarchy.below id).siblings, c.2.takesRemainder = true ∧
    o.HandsPart s.hierarchy.phases m total rest c)

include honly

theorem activate_notMem_parts (i place : Nat) : Order.activate i place ∉ l := by
  intro hmem
  obtain ⟨_, _, _, ⟨_, _, heq⟩ | heq⟩ := honly _ hmem
  · cases heq
  · cases heq

/-- The orders about a sibling hand that sibling its part or mark it. -/
theorem handsPart_of_subject {c : Nat × Node α} (hc : c ∈ (s.hierarchy.below id).siblings)
    {o : Order α} (ho : o ∈ l) (hid : o.subject? = some c.1) :
    c.2.takesRemainder = true ∧ o.HandsPart s.hierarchy.phases m total rest c := by
  obtain ⟨c', hc', hpart, hrefresh⟩ := honly o ho
  have hplace : c'.1 = c.1 := Option.some.inj (hrefresh.subject.symm.trans hid)
  -- the sibling at the same place is the same sibling
  have hnode := Forest.node_of_mem_siblings (s.hierarchy.below_isPart id) hc'
  rw [hplace, Forest.node_of_mem_siblings (s.hierarchy.below_isPart id) hc] at hnode
  obtain rfl : c' = c := Prod.ext hplace (Except.ok.inj hnode).symm
  exact ⟨hpart, hrefresh⟩

/-- A producer that is handed its part and marked is under that control and up to date at the end. -/
theorem run_parts (hsep : s.Separate) (hrun : (s.run l).2 = .ok ()) {c : Nat × Node α}
    (hc : c ∈ (s.hierarchy.below id).siblings) (hmark : .refresh c.1 ∈ l) {control : Control α}
    (hcontrol : c.2.partControl s.hierarchy.phases m total rest = .ok control)
    (hmem : .install c.1 control ∈ l) :
    (s.run l).1.UnderControl c.1 control ∧
      ∃ k, (s.run l).1.hierarchy.node c.1 = .ok k ∧ k.outdated = false := by
  have hself : ∀ o ∈ l, o.subject? = some c.1 → o = .install c.1 control ∨ o = .refresh c.1 := by
    intro o ho hid
    obtain ⟨_, ⟨control', hcontrol', rfl⟩ | heq⟩ := handsPart_of_subject honly hc ho hid
    · rw [hcontrol] at hcontrol'
      exact Or.inl (congrArg _ (Except.ok.inj hcontrol').symm)
    · exact Or.inr heq
  refine ⟨run_underControl (Or.inr hmem) (hsep.on _) (activate_notMem_parts honly) hself hrun, ?_⟩
  exact run_refresh (Forest.node_of_mem_siblings (s.hierarchy.below_isPart id) hc)
    (fun o ho hid => (hself o ho hid).imp_left fun heq => ⟨control, heq⟩) hmark hrun

/-- Any other sibling is left as it is. -/
theorem run_parts_untouched (hsep : s.Separate) {c : Nat × Node α}
    (hc : c ∈ (s.hierarchy.below id).siblings) (hother : c.2.takesRemainder = false) :
    s.Untouched (s.run l).1 c := by
  refine untouched_of_run hsep (Forest.node_of_mem_siblings (s.hierarchy.below_isPart id) hc)
    (activate_notMem_parts honly) fun o ho hid => ?_
  rw [(handsPart_of_subject honly hc ho hid).1] at hother
  cases hother

end Left

/-- A group in a rate mode with a target refreshes its producers, with a guide rate under group control
    to which only producers contribute, and nothing fails. Then every producer directly below it that
    is under group control is held to its part, by guide rate, of what the producers under individual
    control leave of the target, by the active control in its group slot, and is up to date. Each
    target weighted with the time that the producer flows, these parts and what is taken beforehand
    add up to the target over the efficiency factor of the group. Every other child is left as it
    is. -/
theorem refreshProduction_splits (h : s.HasTarget id n m t) (hsep : s.Separate)
    (htotal : s.hierarchy.guideRate .production id true = .ok total) (hpos : 0 < total)
    (hothers : ∀ c ∈ (s.hierarchy.below id).siblings, c.2.individual = false →
      c.2.isProducer = false → s.hierarchy.guideRate .production c.1 true = .ok 0)
    (hrun : (s.refreshProduction id flows).2 = .ok ()) :
    ∃ (rate : Nat × Node α → α) (taken : α),
      (∀ c ∈ (s.hierarchy.below id).siblings, c.2.takesFirst = true →
        c.2.productionRate s.hierarchy.phases flows m = .ok (rate c)) ∧
      taken = (((s.hierarchy.below id).siblings.filter fun c => c.2.takesFirst).map fun c =>
        |rate c * c.2.efficiency.val|).sum ∧
      (∀ c ∈ (s.hierarchy.below id).siblings, c.2.takesRemainder = true →
        (∃ control, (s.refreshProduction id flows).1.UnderControl c.1 control ∧
          groupControl s.hierarchy.phases (.production m) control.target = .ok control ∧
          c.2.efficiency.val * -control.target
            = c.2.specs.guideRate .production / total * (t / n.efficiency.val - taken)) ∧
        ∃ k, (s.refreshProduction id flows).1.hierarchy.node c.1 = .ok k ∧ k.outdated = false) ∧
      (((s.hierarchy.below id).siblings.filter fun c => c.2.takesRemainder).map fun c =>
          c.2.efficiency.val * -(s.refreshProduction id flows).1.heldTarget c.1).sum + taken
        = t / n.efficiency.val ∧
      ∀ c ∈ (s.hierarchy.below id).siblings, c.2.takesRemainder = false →
        s.Untouched (s.refreshProduction id flows).1 c := by
  have hpart := s.hierarchy.below_isPart id
  obtain rfl : total = (s.hierarchy.below id).guideTotal .production true 0 :=
    Except.ok.inj (htotal.symm.trans (Hierarchy.guideRate_group h.node h.group .production true))
  obtain ⟨taken, l, htaken, hcall, hparts, honly⟩ := h.refresh_orders rfl hpos hrun
  obtain ⟨rate, hrate, hsum⟩ := Hierarchy.individualRate_eq_sum htaken
  have hguide := Forest.guideTotal_eq_sum hpart hothers
  rw [hcall] at hrun ⊢
  have hheld : ∀ c ∈ (s.hierarchy.below id).siblings, c.2.takesRemainder = true →
      (∃ control, (s.run l).1.UnderControl c.1 control ∧
        groupControl s.hierarchy.phases (.production m) control.target = .ok control ∧
        c.2.efficiency.val * -control.target = c.2.specs.guideRate .production
          / (s.hierarchy.below id).guideTotal .production true 0 * (t / n.efficiency.val - taken)) ∧
      ∃ k, (s.run l).1.hierarchy.node c.1 = .ok k ∧ k.outdated = false := by
    intro c hc hkind
    obtain ⟨hmark, control, hcontrol, hmem⟩ := hparts c hc hkind
    obtain ⟨hunder, hfresh⟩ := run_parts honly hsep hrun hc hmark hcontrol hmem
    have htarget := target_of_groupControl hcontrol
    refine ⟨⟨control, hunder, htarget ▸ hcontrol, ?_⟩, hfresh⟩
    rw [htarget, neg_div, neg_neg, mul_div_cancel₀ _ c.2.efficiency.pos.ne']
  have hshare : ∀ c ∈ (s.hierarchy.below id).siblings.filter fun c => c.2.takesRemainder,
      c.2.efficiency.val * -(s.run l).1.heldTarget c.1 = c.2.specs.guideRate .production
        * ((t / n.efficiency.val - taken)
          / (s.hierarchy.below id).guideTotal .production true 0) := by
    intro c hc
    obtain ⟨hmem, hkind⟩ := List.mem_filter.mp hc
    obtain ⟨⟨control, hunder, _, htarget⟩, _⟩ := hheld c hmem hkind
    rw [hunder.heldTarget, htarget, div_mul_eq_mul_div, mul_div_assoc]
  refine ⟨rate, taken, hrate, hsum, hheld, ?_,
    fun c hc hother => run_parts_untouched honly hsep hc hother⟩
  rw [List.map_congr_left hshare, List.sum_map_mul_right, ← hguide, mul_div_cancel₀ _ hpos.ne',
    sub_add_cancel]

/-- A field that flows half of the time, with a producer of its own that also does, two producers
    under group control, an injector and a region where no well is under group control. -/
def partlyOwnCalls : List (Call ℚ) := [
  .enrol "P1" .producer [.bhp 100],
  .enrol "P2" .producer [.bhp 100],
  .enrol "P3" .producer [.bhp 100],
  .enrol "I1" .injector [.bhp 500],
  .enrol "P4" .producer [.bhp 100],
  .addGroup "FIELD" none .half
    (.producer { ProductionSpec.default with mode := .orat, oil := some 100 }),
  .addWell "P1" (some 0) .half (.producer .default),
  .addWell "P2" (some 0) .one (.producer .default),
  .addWell "P3" (some 0) .half
    (.producer { ProductionSpec.default with guideRate := .two }),
  .addWell "I1" (some 0) .one (.injector .default),
  .addGroup "EAST" (some 0) .one (.producer { ProductionSpec.default with mode := .fld }),
  .addWell "P4" (some 5) .one (.producer .default),
  .attach 1 0,
  .attach 2 1,
  .attach 3 2,
  .attach 4 3,
  .attach 6 4,
  .edit 2 (.individual false),
  .edit 2 (.outdated true),
  .edit 3 (.individual false),
  .edit 3 (.outdated true),
  .edit 4 (.individual false)]

/-- The site of that field. -/
def partlyOwn : Site ℚ := (vacant ⟨true, true, false⟩).serve partlyOwnCalls

/-- The group of the whole field. -/
def partlyOwnGroup : Node ℚ := partlyOwn.hierarchy.nodes.get ⟨0, by decide +kernel⟩

/-- The producer of its own flows forty of oil. -/
def partlyOwnFlows : List ℚ := [-4, -40, 0, 0, 0, 0, 9, 0, 0, 0]

/-- The field is to flow two hundred while it flows, and its own producer takes twenty of them. The other
    two share the rest one to two, and the second of them has to flow twice as much as its part. The
    own producer keeps its controls. -/
theorem refreshProduction_splits_partlyOwn :
    partlyOwn.Separate ∧ (partlyOwn.refreshProduction 0 partlyOwnFlows).2 = .ok () ∧
      (((partlyOwn.hierarchy.below 0).siblings.filter fun c => c.2.takesRemainder).map fun c =>
        c.2.efficiency.val
          * -(partlyOwn.refreshProduction 0 partlyOwnFlows).1.heldTarget c.1).sum + 20 = 200 ∧
      (∃ control, (partlyOwn.refreshProduction 0 partlyOwnFlows).1.UnderControl 3 control ∧
        control.target = -240) ∧
      ∃ c ∈ (partlyOwn.hierarchy.below 0).siblings, c.1 = 1 ∧
        partlyOwn.Untouched (partlyOwn.refreshProduction 0 partlyOwnFlows).1 c := by
  have hsep : partlyOwn.Separate := separate_of_nodup (by decide +kernel)
  have htarget : partlyOwn.HasTarget 0 partlyOwnGroup .orat 100 :=
    ⟨Hierarchy.node_eq_ok.mpr (List.getElem?_eq_getElem _), by decide +kernel, by decide +kernel,
      rfl, by decide +kernel⟩
  have hguide : partlyOwn.hierarchy.guideRate .production 0 true = .ok 3 := by decide +kernel
  have hrun : (partlyOwn.refreshProduction 0 partlyOwnFlows).2 = .ok () := by decide +kernel
  obtain ⟨rate, taken, hrate, htaken, hparts, hsum, hothers⟩ := refreshProduction_splits htarget hsep
    hguide (by decide) (by decide +kernel) hrun
  -- what the own producer takes can be looked up
  have hown : ∀ c ∈ (partlyOwn.hierarchy.below 0).siblings.filter fun c => c.2.takesFirst,
      |rate c * c.2.efficiency.val| = |(c.2.productionRate partlyOwn.hierarchy.phases partlyOwnFlows
        .orat).toOption.getD 0 * c.2.efficiency.val| := by
    intro c hc
    obtain ⟨hmem, hkind⟩ := List.mem_filter.mp hc
    rw [hrate c hmem hkind]
    rfl
  obtain rfl : taken = 20 := by
    rw [htaken, List.map_congr_left hown]
    decide +kernel
  obtain ⟨c, hc, hplace, hkind, hpart⟩ : ∃ c ∈ (partlyOwn.hierarchy.below 0).siblings,
      c.1 = 3 ∧ c.2.takesRemainder = true ∧ c.2.efficiency.val = 1 / 2 ∧
        c.2.specs.guideRate .production = 2 := by decide +kernel
  obtain ⟨d, hd, hfirst, hother⟩ : ∃ c ∈ (partlyOwn.hierarchy.below 0).siblings,
      c.1 = 1 ∧ c.2.takesRemainder = false := by decide +kernel
  have hwhole : (100 : ℚ) / partlyOwnGroup.efficiency.val = 200 := by decide +kernel
  rw [hwhole] at hsum hparts
  refine ⟨hsep, hrun, hsum, ?_, d, hd, hfirst, hothers d hd hother⟩
  obtain ⟨⟨control, hunder, _, heq⟩, _⟩ := hparts c hc hkind
  rw [hplace] at hunder
  refine ⟨control, hunder, ?_⟩
  rw [hpart.1, hpart.2] at heq
  linarith

end Site

end ReservoirWells
