import ReservoirWells.Proofs.Group.Agreement
import ReservoirWells.Proofs.Group.Renewal
import ReservoirWells.Proofs.Group.Tree

/-! # Following — followers that refresh hand out the whole target of their parent

    When a group shares out its own target, the groups directly below it get parts by guide rate, and
    follow from then on.  A follower that is refreshed takes the target of its parent as it is,
    though, and not the part that it was handed down.  So when all of them are refreshed, what their
    wells are held to adds up to the target as many times as there are groups with wells:

    * `Site.LeadsGroups.shared_well` — what a well is held to when the target was shared out;
    * `Site.LeadsGroups.refreshPlan_shared` — what a group decides in a refresh after that;
    * `Site.LeadsGroups.refreshed_well` — what a well is held to once its group was refreshed;
    * `Site.refreshes_multiply_target` — what all wells are held to in the end, and what that adds
      up to. -/

namespace ReservoirWells

variable {α : Type}

/-! ## Groups over wells -/

namespace Forest

section Rows

variable [Scalar α] {h : Hierarchy α} {f : Forest α}

/-- The ways down to siblings that are all wells. -/
theorem descents_of_row (hrow : f.groups = []) (above : List (Node α)) :
    f.descents above = f.siblings.map fun c => ⟨c.1, c.2, above ++ [c.2]⟩ := by
  induction f with
  | nil => rfl
  | well id n next ih => rw [descents, siblings, List.map_cons, ih hrow]
  | group id n below next _ _ => cases hrow

/-- Siblings that are groups over wells are all groups there are. -/
theorem groups_of_rows (hf : f.IsPart h)
    (hrows : ∀ g ∈ f.siblings, g.2.isGroup = true ∧ (h.below g.1).groups = []) :
    f.groups = f.siblings := by
  induction f with
  | nil => rfl
  | well id n next _ =>
      have hgroup := (hrows (id, n) (List.mem_cons_self ..)).1
      rw [hf.2.1] at hgroup
      cases hgroup
  | group id n below next _ ihn =>
      obtain ⟨_, _, hbelow, _, hnext⟩ := hf
      have hself := (hrows (id, n) (List.mem_cons_self ..)).2
      rw [groups, siblings, hbelow, hself, ihn hnext fun g hg => hrows g (List.mem_cons_of_mem _ hg)]
      rfl

/-- The ways down through such siblings have two steps. -/
theorem descents_of_rows (hf : f.IsPart h)
    (hrows : ∀ g ∈ f.siblings, g.2.isGroup = true ∧ (h.below g.1).groups = [])
    (above : List (Node α)) :
    f.descents above = f.siblings.flatMap fun g =>
      (h.below g.1).siblings.map fun c => ⟨c.1, c.2, above ++ [g.2, c.2]⟩ := by
  induction f with
  | nil => rfl
  | well id n next _ =>
      have hgroup := (hrows (id, n) (List.mem_cons_self ..)).1
      rw [hf.2.1] at hgroup
      cases hgroup
  | group id n below next _ ihn =>
      obtain ⟨_, _, hbelow, _, hnext⟩ := hf
      have hself := (hrows (id, n) (List.mem_cons_self ..)).2
      rw [descents, siblings, List.flatMap_cons, hbelow, descents_of_row hself,
        ihn hnext fun g hg => hrows g (List.mem_cons_of_mem _ hg)]
      simp only [List.append_assoc, List.cons_append, List.nil_append]

/-- So the wells are the children of the siblings. -/
theorem wells_of_rows (hf : f.IsPart h)
    (hrows : ∀ g ∈ f.siblings, g.2.isGroup = true ∧ (h.below g.1).groups = []) :
    f.wells = f.siblings.flatMap fun g => (h.below g.1).siblings := by
  rw [← f.descents_wells [], descents_of_rows hf hrows, List.map_flatMap]
  refine List.flatMap_congr fun g _ => ?_
  rw [List.map_map]
  exact List.map_id _

end Rows

variable [ExactScalar α]

/-- A push lets every controlled sibling with a guide rate follow. -/
theorem adopt_mem_push {h : Hierarchy α} {f : Forest α} (hf : f.IsPart h) {mode : Mode}
    {g : Nat × Node α} (hg : g ∈ f.siblings) (hgroup : g.2.isGroup = true)
    (hmode : g.2.specs.mode mode.direction ≠ mode.direction.uncontrolled)
    (htotal : 0 < (h.below g.1).guideTotal mode.direction false 0) (a : ActivePhases)
    (target : α → α) : .adopt g.1 mode.direction.following ∈ f.push a mode false false target := by
  induction f with
  | nil => cases hg
  | well id n next ih =>
      rcases List.mem_cons.mp hg with rfl | hnext
      · rw [hf.2.1] at hgroup
        cases hgroup
      · rw [push]
        exact List.mem_append.mpr (Or.inr (ih hf.2.2 hnext))
  | group id n below next _ ihn =>
      obtain ⟨_, _, hbelow, _, hpart⟩ := hf
      rcases List.mem_cons.mp hg with rfl | hnext
      · rw [← hbelow] at htotal
        rw [push_group hmode htotal]
        exact List.mem_append.mpr (Or.inl (List.mem_append.mpr (Or.inr (List.mem_singleton_self _))))
      · rw [push]
        exact List.mem_append.mpr (Or.inr (ihn hpart hnext))

end Forest

namespace Site

section Orders

variable [Scalar α]

/-- In a run of orders about different nodes a node that takes a mode is otherwise as before. -/
theorem run_adopt {s : Site α} {l : List (Order α)} {id : Nat} {n : Node α} {mode : Mode}
    (hmem : .adopt id mode ∈ l) (hsubjects : (l.filterMap Order.subject?).Nodup)
    (hn : s.hierarchy.node id = .ok n) (hrun : (s.run l).2 = .ok ()) :
    (s.run l).1.hierarchy.node id = .ok (n.adopt mode) := by
  obtain ⟨front, back, rfl⟩ := List.append_of_mem hmem
  rw [List.filterMap_append] at hsubjects
  obtain ⟨_, hnodup, hapart⟩ := List.nodup_append.mp hsubjects
  have hfront : ∀ o ∈ front, o.subject? ≠ some id := by
    intro o ho hid
    exact hapart id (List.mem_filterMap.mpr ⟨o, ho, hid⟩) id (List.mem_cons_self ..) rfl
  have hback : ∀ o ∈ back, o.subject? ≠ some id := by
    intro o ho hid
    exact (List.nodup_cons.mp hnodup).1 (List.mem_filterMap.mpr ⟨o, ho, hid⟩)
  have hgoes : (s.run front).2 = .ok () :=
    run_ok_iff.mpr fun o ho => run_ok_iff.mp hrun o (List.mem_append.mpr (Or.inl ho))
  rw [run_append_of_ok hgoes]
  show (((s.run front).1.adopted id mode).run back).1.hierarchy.node id = _
  rw [run_node_of_notMem hback]
  exact Hierarchy.node_modify_self ((run_node_of_notMem hfront).trans hn) _

end Orders

variable [ExactScalar α]

/-! ## Shares that are handed out -/

/-- The control that holds a well below a group to its share of a target. -/
theorem mem_handouts {s : Site α} {id : Nat} {m : ProductionMode} {x : α}
    (hm : s.hierarchy.phases.Supports (.production m))
    (hproducers : ∀ c ∈ (s.hierarchy.below id).siblings, c.2.isProducer = true) {o : Order α} :
    o ∈ s.handouts id m x ↔ ∃ c ∈ (s.hierarchy.below id).siblings, o = .refresh c.1 ∨
      ∃ control, groupControl s.hierarchy.phases (.production m)
          (-(c.2.specs.guideRate .production / s.guideBelow id * x) / c.2.efficiency.val)
            = .ok control ∧ o = .install c.1 control := by
  rw [handouts, List.mem_flatMap]
  refine exists_congr fun c => and_congr_right fun hc => ?_
  obtain ⟨control, hcontrol⟩ := groupControl_ok hm
    (-(c.2.specs.guideRate .production / s.guideBelow id * x) / c.2.efficiency.val)
  have htake : c.2.take c.1 s.hierarchy.phases (.production m) false
      (c.2.share .production false / s.guideBelow id * x) = [.install c.1 control] :=
    Node.take_of_producer (hproducers c hc) hcontrol c.1
  rw [htake, hcontrol]
  simp only [List.mem_append, List.mem_singleton, Except.ok.injEq, exists_eq_left']
  exact or_comm

/-- The node is a group in a rate mode whose target is defined, everything directly below it is a group
    that is controlled, and everything directly below these is a producer with a guide rate. -/
structure LeadsGroups (s : Site α) (p : Nat) (n : Node α) (m : ProductionMode) (t : α) : Prop
    extends s.HasTarget p n m t where
  groups : ∀ g ∈ (s.hierarchy.below p).siblings,
    g.2.isGroup = true ∧ g.2.specs.production.mode ≠ .none
  producers : ∀ g ∈ (s.hierarchy.below p).siblings, ∀ c ∈ (s.hierarchy.below g.1).siblings,
    c.2.isProducer = true ∧ 0 < c.2.specs.guideRate .production

namespace LeadsGroups

variable {s : Site α} {p : Nat} {n : Node α} {m : ProductionMode} {t : α}
  (h : s.LeadsGroups p n m t)

include h

/-- The groups directly below are over wells only. -/
theorem rows : ∀ g ∈ (s.hierarchy.below p).siblings,
    g.2.isGroup = true ∧ (s.hierarchy.below g.1).groups = [] := by
  intro g hg
  refine ⟨(h.groups g hg).1, Forest.groups_eq_nil (s.hierarchy.below_isPart g.1) fun c hc => ?_⟩
  exact Node.isGroup_of_isKind (h.producers g hg c hc).1

theorem wells_below : (s.hierarchy.below p).wells
    = (s.hierarchy.below p).siblings.flatMap fun g => (s.hierarchy.below g.1).siblings :=
  Forest.wells_of_rows (s.hierarchy.below_isPart p) h.rows

theorem controlled {g : Nat × Node α} (hg : g ∈ (s.hierarchy.below p).siblings) :
    g.2.specs.mode (Mode.production m).direction ≠ (Mode.production m).direction.uncontrolled := by
  show Mode.production _ ≠ .production .none
  rw [ne_eq, Mode.production.injEq]
  exact (h.groups g hg).2

/-- A group with wells has guide rates to divide by. -/
theorem guideBelow_pos {g c : Nat × Node α} (hg : g ∈ (s.hierarchy.below p).siblings)
    (hc : c ∈ (s.hierarchy.below g.1).siblings) : 0 < s.guideBelow g.1 := by
  have hwell : c ∈ (s.hierarchy.below g.1).wells := by
    rw [Forest.wells_of_row (h.rows g hg).2]
    exact hc
  exact lt_of_lt_of_le (h.producers g hg c hc).2 (Forest.guideRate_le_guideTotal .production hwell)

/-! ## After the target was shared out -/

section Shared

variable (hrun : (s.shareProduction p).2 = .ok ())

include hrun

/-- The target is shared out only when there are guide rates to divide by. -/
theorem shareProduction_eq : s.guideBelow p ≠ 0 ∧ s.shareProduction p
    = s.run (s.rowOrders p m fun guide => guide / s.guideBelow p * t) := by
  rcases h.shareProduction_cases with ⟨_, e, he⟩ | ⟨hzero, heq⟩
  · rw [he] at hrun
    cases hrun
  · refine ⟨fun hnone => ?_, heq⟩
    rw [(Scalar.isZero_iff _).mpr hnone] at hzero
    cases hzero

/-- A well is held to its share of the target by guide rate, over the efficiency factors of its group
    and of itself. -/
theorem shared_well (hsep : s.Separate) {g c : Nat × Node α}
    (hg : g ∈ (s.hierarchy.below p).siblings) (hc : c ∈ (s.hierarchy.below g.1).siblings) :
    ∃ control, groupControl s.hierarchy.phases (.production m)
        (-(c.2.specs.guideRate .production / s.guideBelow p * t)
          / (g.2.efficiency.val * c.2.efficiency.val)) = .ok control ∧
      (s.shareProduction p).1.UnderControl c.1 control := by
  obtain ⟨_, heq⟩ := h.shareProduction_eq hrun
  rw [heq] at hrun ⊢
  have hcontrolled : (Forest.group p n (s.hierarchy.below p) .nil).Controlled
      (Mode.production m).direction := by
    refine Forest.controlled_group h.mode_ne fun k hk => ?_
    rw [Forest.groups_of_rows (s.hierarchy.below_isPart p) h.rows] at hk
    exact h.controlled hk
  have hway : (⟨c.1, c.2, [g.2, c.2]⟩ : Descent α) ∈ (s.hierarchy.below p).descents [] := by
    rw [Forest.descents_of_rows (s.hierarchy.below_isPart p) h.rows]
    exact List.mem_flatMap.mpr ⟨g, hg, List.mem_map.mpr ⟨c, hc, rfl⟩⟩
  have hunit : ∀ guide, guide / s.guideBelow p * t
      = t / s.guideBelow p * guide / pathEfficiency ([] : List (Node α)) := by
    intro guide
    rw [show pathEfficiency ([] : List (Node α)) = 1 from rfl]
    ring
  obtain ⟨hproducer, hguide⟩ := h.producers g hg c hc
  rcases Forest.mem_push_of_descent (a := s.hierarchy.phases) _ [] _ hunit hcontrolled.2.1
    _ hway hproducer hguide with ⟨control, hcontrol, hmem⟩ | ⟨e, hmem⟩
  · have htarget : Descent.target ⟨c.1, c.2, [g.2, c.2]⟩ .production (t / s.guideBelow p)
        = -(c.2.specs.guideRate .production / s.guideBelow p * t)
          / (g.2.efficiency.val * c.2.efficiency.val) := by
      show -(t / s.guideBelow p * c.2.specs.guideRate .production)
        / (g.2.efficiency.val * (c.2.efficiency.val * 1)) = _
      ring
    rw [← htarget]
    exact ⟨control, hcontrol, run_install (hsep.on _) hmem
      (s.hierarchy.push_below_nodup p _ _ false false _) Forest.activate_notMem_push hrun⟩
  · exact absurd hmem (refuse_notMem_of_run hrun e)

/-- A group with wells follows. -/
theorem shared_group {g c : Nat × Node α} (hg : g ∈ (s.hierarchy.below p).siblings)
    (hc : c ∈ (s.hierarchy.below g.1).siblings) :
    (s.shareProduction p).1.hierarchy.node g.1 = .ok (g.2.adopt (.production .fld)) := by
  obtain ⟨_, heq⟩ := h.shareProduction_eq hrun
  rw [heq] at hrun ⊢
  have hmem := Forest.adopt_mem_push (s.hierarchy.below_isPart p) hg (h.groups g hg).1
    (h.controlled hg) (h.guideBelow_pos hg hc) s.hierarchy.phases
      fun guide => guide / s.guideBelow p * t
  exact run_adopt hmem (s.hierarchy.push_below_nodup p _ _ false false _)
    (Forest.node_of_mem_siblings (s.hierarchy.below_isPart p) hg) hrun

/-- What lies below a group is seen as before. -/
theorem shared_below (id : Nat) :
    ((s.shareProduction p).1.hierarchy.below id).map (Node.seen .production)
      = (s.hierarchy.below id).map (Node.seen .production) := by
  rw [(h.shareProduction_eq hrun).2]
  exact below_run_rowOrders s p id m _

/-- In a refresh a group with wells takes the whole target of its parent. -/
theorem refreshPlan_shared (hsep : s.Separate) {g c : Nat × Node α}
    (hg : g ∈ (s.hierarchy.below p).siblings) (hc : c ∈ (s.hierarchy.below g.1).siblings)
    (flows : List α) :
    (s.shareProduction p).1.hierarchy.refreshPlan g.1 flows
      = .ok (s.handouts g.1 m (t / n.efficiency.val / g.2.efficiency.val)) := by
  have hparent : (g.2.adopt (.production .fld)).parent = some p :=
    (Hierarchy.mem_siblings_below.mp hg).2.2
  have htarget : (s.shareProduction p).1.hierarchy.refreshTarget (g.2.adopt (.production .fld))
      = .ok (m, t / n.efficiency.val) := by
    rw [Hierarchy.refreshTarget, hparent]
    show (do
      let parent ← (s.shareProduction p).1.hierarchy.node p
      let target ← Hierarchy.definedTarget parent (.production parent.specs.production.mode)
      return (parent.specs.production.mode, target / parent.efficiency.val)) = _
    rw [h.node_shareProduction]
    simp only [bind, Except.bind, h.mode, Hierarchy.definedTarget, h.target]
    rfl
  have hphases : (s.shareProduction p).1.hierarchy.phases = s.hierarchy.phases := by
    rw [(h.shareProduction_eq hrun).2]
    exact (s.run_lasting _).2
  refine refreshPlan_of_seen (h.shared_below hrun g.1) hphases (fun k hk => ?_)
    (h.guideBelow_pos hg hc) (h.shared_group hrun hg hc) (h.groups g hg).1 htarget flows
  obtain ⟨control, _, hunder⟩ := h.shared_well hrun hsep hg hk
  exact ⟨(h.producers g hg k hk).1, control, hunder⟩

/-- So the orders of its refresh are known, and a group without wells has none. -/
theorem refreshOrders_shared (hsep : s.Separate) {g : Nat × Node α}
    (hg : g ∈ (s.hierarchy.below p).siblings) (flows : List α) :
    (s.shareProduction p).1.hierarchy.refreshOrders g.1 flows
      = s.handouts g.1 m (t / n.efficiency.val / g.2.efficiency.val) := by
  cases hrow : (s.hierarchy.below g.1).siblings with
  | nil =>
      have hempty := congrArg Forest.siblings (h.shared_below hrun g.1)
      rw [Forest.siblings_map, Forest.siblings_map, hrow] at hempty
      rw [Hierarchy.refreshOrders_of_empty (List.map_eq_nil_iff.mp hempty), handouts, hrow]
      rfl
  | cons c rest =>
      have hc : c ∈ (s.hierarchy.below g.1).siblings := by
        rw [hrow]
        exact List.mem_cons_self ..
      rw [Hierarchy.refreshOrders, h.refreshPlan_shared hrun hsep hg hc]
      rfl

/-- The mode is supported as soon as there is a well. -/
theorem supports (hsep : s.Separate) {g c : Nat × Node α} (hg : g ∈ (s.hierarchy.below p).siblings)
    (hc : c ∈ (s.hierarchy.below g.1).siblings) : s.hierarchy.phases.Supports (.production m) := by
  obtain ⟨_, hcontrol, _⟩ := h.shared_well hrun hsep hg hc
  exact supports_of_groupControl hcontrol

/-- The orders of a refresh are about the wells of the group. -/
theorem mem_refreshOrders_shared (hsep : s.Separate) {g : Nat × Node α}
    (hg : g ∈ (s.hierarchy.below p).siblings) {flows : List α} {o : Order α} :
    o ∈ (s.shareProduction p).1.hierarchy.refreshOrders g.1 flows ↔
      ∃ c ∈ (s.hierarchy.below g.1).siblings, o = .refresh c.1 ∨
        ∃ control, groupControl s.hierarchy.phases (.production m)
            (-(c.2.specs.guideRate .production / s.guideBelow g.1
              * (t / n.efficiency.val / g.2.efficiency.val)) / c.2.efficiency.val) = .ok control ∧
          o = .install c.1 control := by
  rw [h.refreshOrders_shared hrun hsep hg]
  have hproducers := fun c hc => (h.producers g hg c hc).1
  constructor
  · intro ho
    obtain ⟨c, hc, _⟩ := List.mem_flatMap.mp ho
    exact (mem_handouts (h.supports hrun hsep hg hc) hproducers).mp ho
  · rintro ⟨c, hc, ho⟩
    exact (mem_handouts (h.supports hrun hsep hg hc) hproducers).mpr ⟨c, hc, ho⟩

theorem refreshable_shared (hsep : s.Separate) {turn : Nat × List α}
    (hturn : turn.1 ∈ (s.hierarchy.below p).siblings.map Prod.fst) :
    (s.shareProduction p).1.Refreshable turn := by
  intro o ho
  obtain ⟨g, hg, heq⟩ := List.mem_map.mp hturn
  rw [← heq] at ho
  obtain ⟨c, hc, rfl | ⟨control, _, rfl⟩⟩ := (h.mem_refreshOrders_shared hrun hsep hg).mp ho
  · exact ⟨True.intro, True.intro⟩
  · obtain ⟨_, _, hunder⟩ := h.shared_well hrun hsep hg hc
    exact hunder.renews control

/-! ## After the refreshes -/

/-- Once its group was refreshed a well is held to its share of the whole target by guide rate in the
    group, whatever other groups are refreshed before and after. -/
theorem refreshed_well (hsep : s.Separate) {turns : List (Nat × List α)}
    (hturns : ∀ turn ∈ turns, turn.1 ∈ (s.hierarchy.below p).siblings.map Prod.fst)
    {g c : Nat × Node α} (hg : g ∈ (s.hierarchy.below p).siblings)
    (hc : c ∈ (s.hierarchy.below g.1).siblings) (hturn : g.1 ∈ turns.map Prod.fst) :
    ∃ control, groupControl s.hierarchy.phases (.production m)
        (-(c.2.specs.guideRate .production / s.guideBelow g.1
          * (t / n.efficiency.val / g.2.efficiency.val)) / c.2.efficiency.val) = .ok control ∧
      ((s.shareProduction p).1.serve (refreshCalls turns)).UnderControl c.1 control := by
  have hrefresh : ∀ turn ∈ turns, (s.shareProduction p).1.Refreshable turn :=
    fun turn hmem => h.refreshable_shared hrun hsep (hturns turn hmem)
  have hseparate : (s.shareProduction p).1.Separate := by
    rw [(h.shareProduction_eq hrun).2]
    exact hsep.of_attachedTo (run_attachedTo s _)
  obtain ⟨control, hcontrol⟩ := groupControl_ok (h.supports hrun hsep hg hc)
    (-(c.2.specs.guideRate .production / s.guideBelow g.1
      * (t / n.efficiency.val / g.2.efficiency.val)) / c.2.efficiency.val)
  -- every order is about a well of one group, and there is one control for each well
  have horder : ∀ o ∈ turns.flatMap fun turn =>
      (s.shareProduction p).1.hierarchy.refreshOrders turn.1 turn.2,
      (∃ k, o = .refresh k) ∨ ∃ k d, o = .install k d ∧ (k = c.1 → d = control) := by
    intro o ho
    obtain ⟨turn, hmem, ho⟩ := List.mem_flatMap.mp ho
    obtain ⟨g', hg', heq⟩ := List.mem_map.mp (hturns turn hmem)
    rw [← heq] at ho
    obtain ⟨k, hk, rfl | ⟨d, hd, rfl⟩⟩ := (h.mem_refreshOrders_shared hrun hsep hg').mp ho
    · exact Or.inl ⟨k.1, rfl⟩
    · refine Or.inr ⟨k.1, d, rfl, fun hself => ?_⟩
      obtain ⟨hgroup, rfl⟩ := Hierarchy.eq_of_mem_siblings_below hc hk hself
      obtain ⟨_, rfl⟩ := Hierarchy.eq_of_mem_siblings_below hg hg' hgroup
      exact Except.ok.inj (hd.symm.trans hcontrol)
  refine ⟨control, hcontrol, ?_⟩
  rw [serve_refreshes hrefresh]
  refine run_underControl (Or.inr ?_) (hseparate.on _) (fun index place hmem => ?_)
    (fun o ho hself => ?_) (run_refreshes hrefresh)
  · obtain ⟨turn, hmem, heq⟩ := List.mem_map.mp hturn
    refine List.mem_flatMap.mpr ⟨turn, hmem, ?_⟩
    rw [heq]
    exact (h.mem_refreshOrders_shared hrun hsep hg).mpr ⟨c, hc, Or.inr ⟨control, hcontrol, rfl⟩⟩
  · rcases horder _ hmem with ⟨_, heq⟩ | ⟨_, _, heq, _⟩
    · cases heq
    · cases heq
  · rcases horder o ho with ⟨k, rfl⟩ | ⟨k, d, rfl, hd⟩
    · cases hself
      exact Or.inr rfl
    · cases hself
      rw [hd rfl]
      exact Or.inl rfl

end Shared

end LeadsGroups

/-! ## What the shares add up to -/

/-- Shares by guide rate add up to what is shared. -/
theorem sum_shares (f : Forest α) (hne : f.guideTotal .production false 0 ≠ 0) (t : α) :
    (f.wells.map fun w =>
      w.2.specs.guideRate .production / f.guideTotal .production false 0 * t).sum = t := by
  have htotal : f.guideTotal .production false 0
      = (f.wells.map fun w => w.2.specs.guideRate .production).sum := by
    rw [Forest.guideTotal_eq, zero_add]
  calc (f.wells.map fun w =>
        w.2.specs.guideRate .production / f.guideTotal .production false 0 * t).sum
      = (f.wells.map fun w =>
          t / f.guideTotal .production false 0 * w.2.specs.guideRate .production).sum := by
        refine congrArg List.sum (List.map_congr_left fun w _ => ?_)
        ring
    _ = t / f.guideTotal .production false 0 * f.guideTotal .production false 0 := by
        rw [List.sum_map_mul_left, ← htotal]
    _ = t := div_mul_cancel₀ t hne

/-- When every row that is not empty adds up to the same, the rows add up to a multiple of it. -/
theorem sum_flatMap_rows {β γ : Type} {rows : β → List γ} {amount : γ → α} {t : α} {l : List β}
    (h : ∀ b ∈ l, rows b ≠ [] → ((rows b).map amount).sum = t) :
    ((l.flatMap rows).map amount).sum = (l.filter fun b => !(rows b).isEmpty).length * t := by
  induction l with
  | nil => simp
  | cons b rest ih =>
      have hrest := ih fun b' hb' => h b' (List.mem_cons_of_mem b hb')
      rw [List.flatMap_cons, List.map_append, List.sum_append, hrest, List.filter_cons]
      cases hrow : rows b with
      | nil => simp
      | cons c cs =>
          have hself := h b (List.mem_cons_self ..) (by rw [hrow]; exact List.cons_ne_nil c cs)
          rw [← hrow, hself]
          simp [hrow]
          ring

/-- The groups directly below a node that have something directly below them. -/
def groupsOver (s : Site α) (p : Nat) : List (Nat × Node α) :=
  (s.hierarchy.below p).siblings.filter fun g => !(s.hierarchy.below g.1).siblings.isEmpty

/-- A group over groups over producers shares out its target, and then the groups directly below it are
    refreshed, each of them once or more, in any order and at any rates. A refresh of a group with
    wells goes through whenever its turn is. Sharing out holds every well to its part of the target by
    guide rate among all wells below; the refreshes hold it to its part of the same target by guide
    rate in its own group. So when all nodes flow all of the time, what the wells are held to adds up
    to the target at first, and in the end to the target as many times as there are groups with
    wells. That is the target only if there is one such group, or nothing to share. -/
theorem refreshes_multiply_target {s : Site α} {p : Nat} {n : Node α} {m : ProductionMode} {t : α}
    (h : s.LeadsGroups p n m t) (hsep : s.Separate) (hrun : (s.shareProduction p).2 = .ok ())
    {turns : List (Nat × List α)} (hturns : ∀ id, id ∈ turns.map Prod.fst ↔
      id ∈ (s.hierarchy.below p).siblings.map Prod.fst) :
    let shared := (s.shareProduction p).1
    let final := shared.serve (refreshCalls turns)
    (∀ front id flows back, turns = front ++ (id, flows) :: back →
      (s.hierarchy.below id).siblings ≠ [] →
        ((shared.serve (refreshCalls front)).refreshProduction id flows).2 = .ok ()) ∧
    (∀ g ∈ (s.hierarchy.below p).siblings, ∀ c ∈ (s.hierarchy.below g.1).siblings,
      (∃ control, shared.UnderControl c.1 control ∧ control.target
        = -(c.2.specs.guideRate .production / s.guideBelow p * t)
          / (g.2.efficiency.val * c.2.efficiency.val)) ∧
      ∃ control, final.UnderControl c.1 control ∧ control.target
        = -(c.2.specs.guideRate .production / s.guideBelow g.1
          * (t / n.efficiency.val / g.2.efficiency.val)) / c.2.efficiency.val) ∧
    ((∀ id k, s.hierarchy.node id = .ok k → k.efficiency.val = 1) →
      ((s.hierarchy.below p).wells.map fun w => -shared.heldTarget w.1).sum = t ∧
      ((s.hierarchy.below p).wells.map fun w => -final.heldTarget w.1).sum
        = (s.groupsOver p).length * t ∧
      (((s.hierarchy.below p).wells.map fun w => -final.heldTarget w.1).sum = t ↔
        (s.groupsOver p).length = 1 ∨ t = 0)) := by
  intro shared final
  have hmem : ∀ turn ∈ turns, turn.1 ∈ (s.hierarchy.below p).siblings.map Prod.fst :=
    fun turn hturn => (hturns turn.1).mp (List.mem_map_of_mem hturn)
  have hshared := fun g hg c hc => h.shared_well hrun hsep (g := g) (c := c) hg hc
  have hfinal := fun g hg c hc => h.refreshed_well hrun hsep hmem (g := g) (c := c) hg hc
    ((hturns g.1).mpr (List.mem_map_of_mem hg))
  refine ⟨?_, fun g hg c hc => ⟨?_, ?_⟩, fun hall => ?_⟩
  · intro front id flows back hsplit hsome
    have hid : (id, flows) ∈ turns := by
      rw [hsplit]
      exact List.mem_append.mpr (Or.inr (List.mem_cons_self ..))
    obtain ⟨g, hg, rfl⟩ := List.mem_map.mp (hmem (id, flows) hid)
    obtain ⟨c, hc⟩ := List.exists_mem_of_ne_nil _ hsome
    have hplan := h.refreshPlan_shared hrun hsep hg hc flows
    refine refreshProduction_at_turn (fun turn hturn => ?_) hplan fun o ho => ?_
    · refine h.refreshable_shared hrun hsep (hmem turn ?_)
      rw [hsplit]
      exact List.mem_append.mpr (Or.inl hturn)
    · rw [← h.refreshOrders_shared hrun hsep hg flows] at ho
      exact (h.refreshable_shared hrun hsep (hmem (g.1, flows) hid) o ho).2
  · obtain ⟨control, hcontrol, hunder⟩ := hshared g hg c hc
    exact ⟨control, hunder, target_of_groupControl hcontrol⟩
  · obtain ⟨control, hcontrol, hunder⟩ := hfinal g hg c hc
    exact ⟨control, hunder, target_of_groupControl hcontrol⟩
  · have hone : ∀ {id : Nat} {c : Nat × Node α}, c ∈ (s.hierarchy.below id).siblings →
        c.2.efficiency.val = 1 :=
      fun hc => hall _ _ (Forest.node_of_mem_siblings (s.hierarchy.below_isPart _) hc)
    have hsum : ((s.hierarchy.below p).wells.map fun w => -final.heldTarget w.1).sum
        = (s.groupsOver p).length * t := by
      rw [h.wells_below]
      refine sum_flatMap_rows fun g hg hsome => ?_
      obtain ⟨c₀, hc₀⟩ := List.exists_mem_of_ne_nil _ hsome
      refine Eq.trans ?_ (sum_shares (s.hierarchy.below g.1) (h.guideBelow_pos hg hc₀).ne' t)
      rw [Forest.wells_of_row (h.rows g hg).2]
      refine congrArg List.sum (List.map_congr_left fun c hc => ?_)
      obtain ⟨control, hcontrol, hunder⟩ := hfinal g hg c hc
      rw [hunder.heldTarget, target_of_groupControl hcontrol, hone hg, hone hc, hall p n h.node,
        div_one, div_one, div_one, neg_neg]
      rfl
    refine ⟨?_, hsum, ?_⟩
    · refine Eq.trans ?_ (sum_shares (s.hierarchy.below p) (h.shareProduction_eq hrun).1 t)
      refine congrArg List.sum (List.map_congr_left fun c hc => ?_)
      rw [h.wells_below] at hc
      obtain ⟨g, hg, hc⟩ := List.mem_flatMap.mp hc
      obtain ⟨control, hcontrol, hunder⟩ := hshared g hg c hc
      rw [hunder.heldTarget, target_of_groupControl hcontrol, hone hg, hone hc, mul_one, div_one,
        neg_neg]
      rfl
    · rw [hsum, mul_left_eq_self₀, Nat.cast_eq_one]

/-- A field that may produce a hundred of oil over two followers with a producer each. -/
def twoFollowersCalls : List (Call ℚ) := [
  .enrol "P1" .producer [.bhp 100],
  .enrol "P2" .producer [.bhp 100],
  .addGroup "FIELD" none .one
    (.producer { ProductionSpec.default with mode := .orat, oil := some 100 }),
  .addGroup "NORTH" (some 0) .one (.producer { ProductionSpec.default with mode := .fld }),
  .addGroup "SOUTH" (some 0) .one (.producer { ProductionSpec.default with mode := .fld }),
  .addWell "P1" (some 1) .one (.producer .default),
  .addWell "P2" (some 2) .one (.producer .default),
  .attach 3 0,
  .attach 4 1]

/-- The site of that field. -/
def twoFollowers : Site ℚ := (vacant ⟨true, true, false⟩).serve twoFollowersCalls

/-- The group over both followers. -/
def twoFollowersGroup : Node ℚ := twoFollowers.hierarchy.nodes.get ⟨0, by decide +kernel⟩

theorem leadsGroups_twoFollowers : twoFollowers.LeadsGroups 0 twoFollowersGroup .orat 100 where
  node := Hierarchy.node_eq_ok.mpr (List.getElem?_eq_getElem _)
  group := by decide +kernel
  mode := by decide +kernel
  rate := rfl
  target := by decide +kernel
  groups := by decide +kernel
  producers := by decide +kernel

/-- Both followers are refreshed, the second one first. -/
def twoFollowersTurns : List (Nat × List ℚ) := [(2, []), (1, [])]

theorem efficiency_twoFollowers {id : Nat} {k : Node ℚ} (hk : twoFollowers.hierarchy.node id = .ok k) :
    k.efficiency.val = 1 := by
  have hall : ∀ n ∈ twoFollowers.hierarchy.nodes, n.efficiency.val = 1 := by decide +kernel
  exact hall k (List.mem_of_getElem? (Hierarchy.node_eq_ok.mp hk))

/-- The wells are held to fifty each when the target is shared out, and to a hundred each after the
    refreshes. -/
theorem refreshes_multiply_target_twoFollowers :
    twoFollowers.LeadsGroups 0 twoFollowersGroup .orat 100 ∧ twoFollowers.Separate ∧
      (twoFollowers.shareProduction 0).2 = .ok () ∧
      (∀ id, id ∈ twoFollowersTurns.map Prod.fst ↔
        id ∈ (twoFollowers.hierarchy.below 0).siblings.map Prod.fst) ∧
      ((twoFollowers.hierarchy.below 0).wells.map fun w =>
        -(twoFollowers.shareProduction 0).1.heldTarget w.1).sum = 100 ∧
      ((twoFollowers.hierarchy.below 0).wells.map fun w => -((twoFollowers.shareProduction
        0).1.serve (refreshCalls twoFollowersTurns)).heldTarget w.1).sum = 200 := by
  have hsep : twoFollowers.Separate := separate_of_nodup (by decide +kernel)
  have hrun : (twoFollowers.shareProduction 0).2 = .ok () := by decide +kernel
  have hgroups : (twoFollowers.hierarchy.below 0).siblings.map Prod.fst = [1, 2] := by decide +kernel
  have hturns : ∀ id, id ∈ twoFollowersTurns.map Prod.fst ↔
      id ∈ (twoFollowers.hierarchy.below 0).siblings.map Prod.fst := by
    intro id
    rw [hgroups]
    exact (List.Perm.swap 1 2 []).mem_iff
  have hcount : ((twoFollowers.groupsOver 0).length : ℚ) * 100 = 200 := by decide +kernel
  obtain ⟨_, _, hsums⟩ := refreshes_multiply_target leadsGroups_twoFollowers hsep hrun hturns
  obtain ⟨hfirst, hlast, _⟩ := hsums fun id k hk => efficiency_twoFollowers hk
  exact ⟨leadsGroups_twoFollowers, hsep, hrun, hturns, hfirst, hlast.trans hcount⟩

/-- So refreshing the groups directly below a group need not keep to its target. -/
theorem not_forall_refreshes_conserve :
    ¬ ∀ (phases : ActivePhases) (calls : List (Call ℚ)) (p : Nat) (n : Node ℚ) (m : ProductionMode)
      (t : ℚ) (turns : List (Nat × List ℚ)),
      let s := (vacant phases).serve calls
      let shared := (s.shareProduction p).1
      s.LeadsGroups p n m t → s.Separate →
      (∀ id k, s.hierarchy.node id = .ok k → k.efficiency.val = 1) →
      (s.shareProduction p).2 = .ok () →
      (turns.map Prod.fst).Perm ((s.hierarchy.below p).siblings.map Prod.fst) →
        (∀ front id flows back, turns = front ++ (id, flows) :: back →
          ((shared.serve (refreshCalls front)).refreshProduction id flows).2 = .ok ()) ∧
        ((s.hierarchy.below p).wells.map fun w =>
          -(shared.serve (refreshCalls turns)).heldTarget w.1).sum = t := by
  intro hall
  have hgroups : (twoFollowers.hierarchy.below 0).siblings.map Prod.fst = [1, 2] := by decide +kernel
  have hperm : (twoFollowersTurns.map Prod.fst).Perm
      ((twoFollowers.hierarchy.below 0).siblings.map Prod.fst) := by
    rw [hgroups]
    exact List.Perm.swap 1 2 []
  obtain ⟨_, hsum⟩ := hall _ twoFollowersCalls 0 twoFollowersGroup .orat 100 twoFollowersTurns
    leadsGroups_twoFollowers (separate_of_nodup (by decide +kernel))
    (fun id k hk => efficiency_twoFollowers hk) (by decide +kernel) hperm
  exact absurd hsum (by decide +kernel)

end Site

end ReservoirWells
