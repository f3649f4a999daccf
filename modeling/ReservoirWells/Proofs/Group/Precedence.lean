import Mathlib.Data.List.Perm.Subperm
import ReservoirWells.Proofs.Group.Routes
import ReservoirWells.Proofs.Group.Signs

/-! # Precedence — the highest group with a target of its own governs

    When the groups of a subtree share out their own production targets, the way down to a well may
    lead through several groups that have one.  The first of them is the only one that counts for
    the well: it shares over everything below it, and whatever modes the groups below it have, they
    follow it or stop it.

    * `Route.governed` — the first group on a way that has a target to share, and what follows;
    * `Forest.ownProduction_group` — what a group adds to the orders;
    * `Forest.governors_append_subjects` — no node is written twice, and no group that governs is;
    * `Hierarchy.handed_of_open`, `Hierarchy.handed_of_stops` — what arrives below that group;
    * `Site.shareProduction_precedence` — what becomes of every single well. -/

namespace ReservoirWells

variable {α : Type}

/-! ## The group that governs a well -/

section Governed

variable [Scalar α]

/-- The groups on a way from the first one on that is in a rate mode; nothing when there is none. -/
def Route.governed (r : Route α) : List (Nat × Node α) :=
  r.groups.dropWhile fun g => !g.2.specs.production.mode.isRate

theorem Route.governed_under_of_rate {g : Nat × Node α}
    (hg : g.2.specs.production.mode.isRate = true) (r : Route α) :
    (r.under g).governed = g :: r.groups :=
  List.dropWhile_cons_of_neg (by simp [hg])

theorem Route.governed_under_of_not {g : Nat × Node α}
    (hg : g.2.specs.production.mode.isRate = false) (r : Route α) :
    (r.under g).governed = r.governed :=
  List.dropWhile_cons_of_pos (by simp [hg])

/-- The group stops a production target from above: it is not controlled, or no well below it has a
    guide rate. -/
def Hierarchy.Stops (h : Hierarchy α) (g : Nat × Node α) : Prop :=
  g.2.specs.production.mode = .none ∨ h.guideRate .production g.1 false = .ok 0

instance [DecidableEq α] (h : Hierarchy α) (g : Nat × Node α) : Decidable (h.Stops g) :=
  inferInstanceAs (Decidable (_ ∨ _))

namespace Forest

/-- The groups that share out their own production target: those in a rate mode, without a group in a
    rate mode above them. -/
def governors : Forest α → List (Nat × Node α)
  | .nil => []
  | .well _ _ next => next.governors
  | .group id n below next =>
    (if n.specs.production.mode.isRate then [(id, n)] else below.governors) ++ next.governors

variable {h : Hierarchy α} {a : ActivePhases} {f : Forest α}

/-- A group in a rate mode refuses, or it pushes its target down to everything below it; any other
    group refuses, or leaves it to the groups below. -/
theorem ownProduction_group (a : ActivePhases) (id : Nat) (n : Node α) (below next : Forest α) :
    (n.specs.production.mode.isRate = true ∧
      ((∃ t, ownTarget n (below.guideTotal .production false 0)
            (.production n.specs.production.mode) = .ok t ∧
          (Forest.group id n below next).ownProduction a
            = below.push a (.production n.specs.production.mode) false false (fun guide =>
                guide / below.guideTotal .production false 0 * t) ++ next.ownProduction a) ∨
        ∃ e, (Forest.group id n below next).ownProduction a
          = [.refuse e] ++ next.ownProduction a)) ∨
    n.specs.production.mode.isRate = false ∧
      ((Forest.group id n below next).ownProduction a
          = below.ownProduction a ++ next.ownProduction a ∨
        ∃ e, (Forest.group id n below next).ownProduction a
          = [.refuse e] ++ next.ownProduction a) := by
  rw [ownProduction]
  cases hrate : n.specs.production.mode.isRate with
  | true =>
      refine Or.inl ⟨rfl, ?_⟩
      simp only [if_true]
      cases ownTarget n (below.guideTotal .production false 0)
          (.production n.specs.production.mode) with
      | ok t => exact Or.inl ⟨t, rfl, rfl⟩
      | error e => exact Or.inr ⟨e, rfl⟩
  | false =>
      refine Or.inr ⟨rfl, ?_⟩
      simp only [Bool.false_eq_true, if_false]
      split
      · exact Or.inl rfl
      · exact Or.inr ⟨_, rfl⟩

/-- The groups that share out their own target and the nodes that the orders are about are nodes of the
    forest, each of them only once. -/
theorem governors_append_subjects (a : ActivePhases) (f : Forest α) :
    (f.governors.map (·.1) ++ (f.ownProduction a).filterMap Order.subject?).Subperm
      f.postorder := by
  have hjoin : ∀ {own later : List Nat} {part rest : List (Order α)} {front back : List Nat},
      (own ++ part.filterMap Order.subject?).Subperm front →
      (later ++ rest.filterMap Order.subject?).Subperm back →
      (own ++ later ++ (part ++ rest).filterMap Order.subject?).Subperm (front ++ back) := by
    intro own later part rest front back hpart hrest
    refine List.Subperm.trans (List.Perm.subperm ?_) (List.Subperm.append hpart hrest)
    rw [List.filterMap_append, List.append_assoc, List.append_assoc]
    exact (List.perm_append_comm_assoc ..).append_left own
  induction f with
  | nil => exact List.Subperm.refl _
  | well id n next ih => exact ih.trans (List.sublist_cons_self ..).subperm
  | group id n below next ihb ihn =>
      rw [governors, List.map_append, postorder, List.append_cons]
      rcases ownProduction_group a id n below next with
        ⟨hrate, ⟨t, _, heq⟩ | ⟨e, heq⟩⟩ | ⟨hrate, heq | ⟨e, heq⟩⟩
      · rw [heq, if_pos hrate]
        refine hjoin (List.Subperm.trans List.perm_append_comm.subperm ?_) ihn
        exact ((push_subjects_sublist a _ below false false _).append_right [id]).subperm
      · rw [heq, if_pos hrate]
        exact hjoin (List.sublist_append_right ..).subperm ihn
      · rw [heq, hrate, if_neg Bool.false_ne_true]
        exact hjoin (ihb.trans (List.sublist_append_left ..).subperm) ihn
      · rw [heq, hrate, if_neg Bool.false_ne_true]
        have hnone := ((List.nil_sublist ((below.ownProduction a).filterMap
          Order.subject?)).append_left (below.governors.map (·.1))).subperm
        exact hjoin ((hnone.trans ihb).trans (List.sublist_append_left ..).subperm) ihn

theorem nodup_governors_append_subjects (a : ActivePhases) (hnodup : f.postorder.Nodup) :
    (f.governors.map (·.1) ++ (f.ownProduction a).filterMap Order.subject?).Nodup := by
  obtain ⟨l, hperm, hsub⟩ := f.governors_append_subjects a
  exact hperm.nodup_iff.mp (hsub.nodup hnodup)

/-- No order is about a group that shares out its own target. -/
theorem subject_ne_of_mem_governors (hnodup : f.postorder.Nodup) {g : Nat × Node α}
    (hg : g ∈ f.governors) : ∀ o ∈ f.ownProduction a, o.subject? ≠ some g.1 := by
  intro o ho hid
  exact List.disjoint_of_nodup_append (nodup_governors_append_subjects a hnodup)
    (List.mem_map_of_mem hg) (List.mem_filterMap.mpr ⟨o, ho, hid⟩)

/-- An order comes from the push of the group, or from the groups below it, or from the later siblings,
    or it is a refusal. -/
theorem mem_ownProduction_group {id : Nat} {n : Node α} {below next : Forest α} {o : Order α}
    (ho : o ∈ (Forest.group id n below next).ownProduction a) :
    (n.specs.production.mode.isRate = true ∧ ∃ target,
        o ∈ below.push a (.production n.specs.production.mode) false false target) ∨
      (n.specs.production.mode.isRate = false ∧ o ∈ below.ownProduction a) ∨
      (∃ e, o = .refuse e) ∨ o ∈ next.ownProduction a := by
  rcases ownProduction_group a id n below next with
    ⟨hrate, ⟨t, _, heq⟩ | ⟨e, heq⟩⟩ | ⟨hrate, heq | ⟨e, heq⟩⟩
  · rcases List.mem_append.mp (heq ▸ ho) with hpush | hnext
    · exact Or.inl ⟨hrate, _, hpush⟩
    · exact Or.inr (Or.inr (Or.inr hnext))
  · rcases List.mem_append.mp (heq ▸ ho) with hrefuse | hnext
    · exact Or.inr (Or.inr (Or.inl ⟨e, List.mem_singleton.mp hrefuse⟩))
    · exact Or.inr (Or.inr (Or.inr hnext))
  · rcases List.mem_append.mp (heq ▸ ho) with hown | hnext
    · exact Or.inr (Or.inl ⟨hrate, hown⟩)
    · exact Or.inr (Or.inr (Or.inr hnext))
  · rcases List.mem_append.mp (heq ▸ ho) with hrefuse | hnext
    · exact Or.inr (Or.inr (Or.inl ⟨e, List.mem_singleton.mp hrefuse⟩))
    · exact Or.inr (Or.inr (Or.inr hnext))

/-- When nothing is refused, the push of the first group in a rate mode on a way is part of the
    orders. -/
theorem push_of_governed (hf : f.IsPart h) (hrefuse : ∀ e, .refuse e ∉ f.ownProduction a)
    {r : Route α} (hr : r ∈ f.routes) {g : Nat × Node α} {between : List (Nat × Node α)}
    (hgov : r.governed = g :: between) :
    ⟨between, r.id, r.node⟩ ∈ (h.below g.1).routes ∧
      ∃ t, ownTarget g.2 ((h.below g.1).guideTotal .production false 0)
          (.production g.2.specs.production.mode) = .ok t ∧
        (h.below g.1).push a (.production g.2.specs.production.mode) false false (fun guide =>
          guide / (h.below g.1).guideTotal .production false 0 * t) ⊆ f.ownProduction a := by
  induction f generalizing r with
  | nil => cases hr
  | well id n next ih =>
      rcases List.mem_cons.mp hr with rfl | hin
      · cases hgov
      · exact ih hf.2.2 hrefuse hin hgov
  | group id n below next ihb ihn =>
      obtain ⟨_, _, hbelow, hpart, hnext⟩ := hf
      rcases ownProduction_group a id n below next with
        ⟨hrate, ⟨t, ht, heq⟩ | ⟨e, heq⟩⟩ | ⟨hrate, heq | ⟨e, heq⟩⟩
      · rw [heq] at hrefuse ⊢
        rcases List.mem_append.mp hr with hin | hin
        · -- the group itself is the first one
          obtain ⟨r', hr', rfl⟩ := List.mem_map.mp hin
          rw [Route.governed_under_of_rate hrate] at hgov
          cases hgov
          rw [← hbelow]
          exact ⟨hr', t, ht, List.subset_append_left ..⟩
        · obtain ⟨hroute, t', ht', hsub⟩ := ihn hnext
            (fun e he => hrefuse e (List.mem_append.mpr (Or.inr he))) hin hgov
          exact ⟨hroute, t', ht', List.Subset.trans hsub (List.subset_append_right ..)⟩
      · exact absurd (List.mem_cons_self ..) (heq ▸ hrefuse e)
      · rw [heq] at hrefuse ⊢
        rcases List.mem_append.mp hr with hin | hin
        · obtain ⟨r', hr', rfl⟩ := List.mem_map.mp hin
          rw [Route.governed_under_of_not hrate] at hgov
          obtain ⟨hroute, t, ht, hsub⟩ := ihb hpart
            (fun e he => hrefuse e (List.mem_append.mpr (Or.inl he))) hr' hgov
          exact ⟨hroute, t, ht, List.Subset.trans hsub (List.subset_append_left ..)⟩
        · obtain ⟨hroute, t, ht, hsub⟩ := ihn hnext
            (fun e he => hrefuse e (List.mem_append.mpr (Or.inr he))) hin hgov
          exact ⟨hroute, t, ht, List.Subset.trans hsub (List.subset_append_right ..)⟩
      · exact absurd (List.mem_cons_self ..) (heq ▸ hrefuse e)

/-- An order about a well installs a control for a producer at the end of a way with a group in a rate
    mode, from which something arrives. -/
theorem governed_of_mem_ownProduction (hf : f.IsPart h) {o : Order α} {id : Nat}
    (ho : o ∈ f.ownProduction a) (hid : o.subject? = some id) {n : Node α} (hn : h.node id = .ok n)
    (hwell : n.isGroup = false) :
    ∃ r ∈ f.routes, r.id = id ∧ r.node.isProducer = true ∧ ∃ g between target x,
      r.governed = g :: between ∧
        h.handed .production r.node false false target between = some x := by
  induction f with
  | nil => cases ho
  | well wid m next ih =>
      obtain ⟨r, hr, hrest⟩ := ih hf.2.2 ho
      exact ⟨r, List.mem_cons_of_mem _ hr, hrest⟩
  | group gid m below next ihb ihn =>
      obtain ⟨_, _, hbelow, hpart, hnext⟩ := hf
      rcases mem_ownProduction_group ho with
        ⟨hrate, target, hpush⟩ | ⟨hrate, hown⟩ | ⟨e, rfl⟩ | hlater
      · obtain ⟨c, rfl⟩ := install_of_mem_push hpart hpush hid hn hwell
        obtain ⟨r, hr, hrid, hkind, x, hx, _⟩ := handed_of_install hpart hpush
        exact ⟨r.under (gid, m), List.mem_append.mpr (Or.inl (List.mem_map_of_mem hr)), hrid, hkind,
          (gid, m), r.groups, target, x, r.governed_under_of_rate hrate, hx⟩
      · obtain ⟨r, hr, hrid, hkind, g, between, target, x, hgov, hx⟩ := ihb hpart hown
        exact ⟨r.under (gid, m), List.mem_append.mpr (Or.inl (List.mem_map_of_mem hr)), hrid, hkind,
          g, between, target, x, (r.governed_under_of_not hrate).trans hgov, hx⟩
      · cases hid
      · obtain ⟨r, hr, hrest⟩ := ihn hnext hlater
        exact ⟨r, List.mem_append.mpr (Or.inr hr), hrest⟩

/-- No order makes another control of an entry active. -/
theorem activate_notMem_ownProduction (a : ActivePhases) (f : Forest α) (index place : Nat) :
    .activate index place ∉ f.ownProduction a := by
  induction f with
  | nil => exact List.not_mem_nil
  | well id n next ih => exact ih
  | group id n below next ihb ihn =>
      intro hmem
      rcases mem_ownProduction_group hmem with
        ⟨_, target, hpush⟩ | ⟨_, hown⟩ | ⟨e, heq⟩ | hlater
      · exact activate_notMem_push index place hpush
      · exact ihb hown
      · cases heq
      · exact ihn hlater

/-- The group that governs a well shares out its own target. -/
theorem mem_governors_of_governed {r : Route α} (hr : r ∈ f.routes) {g : Nat × Node α}
    {between : List (Nat × Node α)} (hgov : r.governed = g :: between) : g ∈ f.governors := by
  induction f generalizing r with
  | nil => cases hr
  | well id n next ih =>
      rcases List.mem_cons.mp hr with rfl | hin
      · cases hgov
      · exact ih hin hgov
  | group id n below next ihb ihn =>
      rw [governors]
      rcases List.mem_append.mp hr with hin | hin
      · obtain ⟨r', hr', rfl⟩ := List.mem_map.mp hin
        refine List.mem_append.mpr (Or.inl ?_)
        cases hrate : n.specs.production.mode.isRate with
        | true =>
            rw [Route.governed_under_of_rate hrate] at hgov
            cases hgov
            exact List.mem_singleton.mpr rfl
        | false =>
            rw [Route.governed_under_of_not hrate] at hgov
            exact ihb hr' hgov
      · exact List.mem_append.mpr (Or.inr (ihn hin hgov))

end Forest

end Governed

variable [ExactScalar α]

/-! ## What arrives below the group that governs -/

namespace Hierarchy

variable {h : Hierarchy α} {w : Node α} {groups : List (Nat × Node α)}

/-- A group of the hierarchy stops a target exactly when it takes no part in a push. -/
theorem stops_iff {k : Nat × Node α} (hn : h.node k.1 = .ok k.2) (hg : k.2.isGroup = true) :
    h.Stops k ↔ (k.2.declines .production false
      || Scalar.isZero ((h.below k.1).divisor .production false)) = true := by
  have hmode : Mode.production k.2.specs.production.mode = .production .none ↔
      k.2.specs.production.mode = .none :=
    ⟨fun heq => Mode.production.inj heq, congrArg Mode.production⟩
  have hzero : (Except.ok ((h.below k.1).guideTotal .production false 0) : Except GroupError α)
      = .ok 0 ↔ (h.below k.1).guideTotal .production false 0 = 0 :=
    ⟨fun heq => Except.ok.inj heq, congrArg Except.ok⟩
  rw [Stops, guideRate_group hn hg, hzero, Bool.or_eq_true, Scalar.isZero_iff, Forest.divisor_eq,
    Node.declines, Bool.false_and, Bool.or_false, beq_iff_eq, ← hmode]
  rfl

/-- Nothing arrives at the end of a way with a group that stops the push. -/
theorem handed_of_stops (hgroups : ∀ k ∈ groups, h.node k.1 = .ok k.2 ∧ k.2.isGroup = true)
    {k : Nat × Node α} (hk : k ∈ groups) (hstops : h.Stops k) (target : α → α) :
    h.handed .production w false false target groups = none := by
  induction groups generalizing target with
  | nil => cases hk
  | cons g rest ih =>
      rw [handed]
      rcases List.mem_cons.mp hk with rfl | hin
      · obtain ⟨hn, hg⟩ := hgroups k (List.mem_cons_self ..)
        exact if_pos ((stops_iff hn hg).mp hstops)
      · split
        · rfl
        · exact ih (fun k hk => hgroups k (List.mem_cons_of_mem _ hk)) hin _

/-- When no group on the way stops the push, the guide rates of these groups cancel and their
    efficiency factors add up. -/
theorem handed_of_open (hgroups : ∀ k ∈ groups, h.node k.1 = .ok k.2 ∧ k.2.isGroup = true)
    (hopen : ∀ k ∈ groups, ¬ h.Stops k) {unit : α} : ∀ (above : List (Node α)) (target : α → α),
    (∀ guide, target guide = unit * guide / pathEfficiency above) →
    h.handed .production w false false target groups
      = some (unit * w.specs.guideRate .production
          / pathEfficiency (above ++ groups.map (·.2))) := by
  induction groups with
  | nil =>
      intro above target htarget
      rw [handed, Bool.false_and, if_neg Bool.false_ne_true, htarget, List.map_nil, List.append_nil]
      rfl
  | cons g rest ih =>
      intro above target htarget
      obtain ⟨hn, hg⟩ := hgroups g (List.mem_cons_self ..)
      have htakes := mt (stops_iff hn hg).mpr (hopen g (List.mem_cons_self ..))
      have htotal : (h.below g.1).guideTotal .production false 0 ≠ 0 := by
        intro hzero
        refine hopen g (List.mem_cons_self ..) (Or.inr ?_)
        rw [guideRate_group hn hg, hzero]
      rw [handed]
      simp only [if_neg htakes]
      rw [ih (fun k hk => hgroups k (List.mem_cons_of_mem _ hk))
        (fun k hk => hopen k (List.mem_cons_of_mem _ hk)) (above ++ [g.2])]
      · rw [List.map_cons, List.append_assoc, List.singleton_append]
      · intro guide
        rw [htarget, Forest.divisor_eq]
        exact share_below above g.2 htotal guide

end Hierarchy

/-- A group that shares out its own target has a guide rate below it and a defined target. -/
theorem Forest.target_of_ownTarget {n : Node α} {divisor t : α} {mode : Mode}
    (ht : ownTarget n divisor mode = .ok t) : divisor ≠ 0 ∧ n.target mode = .ok (some t) := by
  rw [ownTarget] at ht
  split at ht
  · cases ht
  · next hzero =>
      refine ⟨fun heq => hzero ((Scalar.isZero_iff divisor).mpr heq), ?_⟩
      cases htarget : n.target mode with
      | error e => rw [htarget] at ht; cases ht
      | ok found =>
          cases found with
          | none => rw [htarget] at ht; cases ht
          | some t' => rw [htarget] at ht; cases ht; rfl

/-! ## What becomes of every well -/

namespace Site

variable {s : Site α} {id : Nat} {f : Forest α}

/-- The groups of a subtree share out their targets by the orders of the subtree. -/
theorem shareProduction_eq_run (hf : s.hierarchy.subtree id = .ok f) :
    s.shareProduction id = s.run (f.ownProduction s.hierarchy.phases) := by
  rw [shareProduction, hf]
  rfl

/-- A well is left as it is when nothing arrives below the group that governs it. -/
theorem shareProduction_leaves (hf : s.hierarchy.subtree id = .ok f) (hsep : s.Separate) {r : Route α}
    (hr : r ∈ f.routes) (hnone : ∀ g between target, r.governed = g :: between →
      r.node.isProducer = true →
        s.hierarchy.handed .production r.node false false target between = none) :
    s.Untouched (s.shareProduction id).1 (r.id, r.node) := by
  have hpart := Hierarchy.subtree_isPart hf
  obtain ⟨hn, hwell⟩ := hpart.node_of_mem_wells (Forest.mem_wells_of_mem_routes hr)
  rw [shareProduction_eq_run hf]
  refine untouched_of_run hsep hn (Forest.activate_notMem_ownProduction _ f) fun o ho hid => ?_
  obtain ⟨r', hr', hplace, hkind, g, between, target, x, hgov, hx⟩ :=
    Forest.governed_of_mem_ownProduction hpart ho hid hn hwell
  obtain rfl := Forest.eq_of_mem_routes (Hierarchy.nodup_postorder_subtree hf) hr' hr hplace
  rw [hnone g between target hgov hkind] at hx
  cases hx

/-- A producer is under the control of its part of the target of the group that governs it, when no
    group in between stops the push. -/
theorem shareProduction_governs (hf : s.hierarchy.subtree id = .ok f) (hsep : s.Separate)
    (hrun : (s.shareProduction id).2 = .ok ()) {r : Route α} (hr : r ∈ f.routes) {g : Nat × Node α}
    {between : List (Nat × Node α)} (hgov : r.governed = g :: between)
    (hkind : r.node.isProducer = true) (hopen : ∀ k ∈ between, ¬ s.hierarchy.Stops k) :
    ∃ t total c, g.2.target (.production g.2.specs.production.mode) = .ok (some t) ∧
      s.hierarchy.guideRate .production g.1 false = .ok total ∧ 0 < total ∧
      (s.shareProduction id).1.UnderControl r.id c ∧
      groupControl s.hierarchy.phases (.production g.2.specs.production.mode) c.target = .ok c ∧
      c.target = -t * r.node.specs.guideRate .production / total
        / pathEfficiency (between.map (·.2) ++ [r.node]) := by
  have hpart := Hierarchy.subtree_isPart hf
  rw [shareProduction_eq_run hf] at hrun ⊢
  obtain ⟨hroute, t, ht, hsub⟩ :=
    Forest.push_of_governed hpart (refuse_notMem_of_run hrun) hr hgov
  obtain ⟨hzero, htarget⟩ := Forest.target_of_ownTarget ht
  have hgroups := fun k hk => Forest.groups_of_mem_routes hpart hr
    ((List.dropWhile_suffix _).subset (hgov ▸ hk : k ∈ r.governed))
  have htotal : 0 < (s.hierarchy.below g.1).guideTotal .production false 0 :=
    lt_of_le_of_ne (Forest.guideTotal_nonneg ..) (Ne.symm hzero)
  have harrives : s.hierarchy.handed .production r.node false false
      (fun guide => guide / (s.hierarchy.below g.1).guideTotal .production false 0 * t) between
      = some (t / (s.hierarchy.below g.1).guideTotal .production false 0
          * r.node.specs.guideRate .production / pathEfficiency (between.map (·.2))) := by
    refine Hierarchy.handed_of_open (fun k hk => hgroups k (List.mem_cons_of_mem _ hk)) hopen [] _
      fun guide => ?_
    rw [show pathEfficiency ([] : List (Node α)) = 1 from rfl]
    ring
  rcases Forest.install_of_handed s.hierarchy.phases (.production g.2.specs.production.mode)
      (s.hierarchy.below_isPart g.1) hroute hkind harrives with ⟨c, hc, hmem⟩ | ⟨e, hmem⟩
  · have hheld := target_of_groupControl hc
    refine ⟨t, _, c, htarget, Hierarchy.guideRate_group (hgroups g (List.mem_cons_self ..)).1
      (hgroups g (List.mem_cons_self ..)).2 .production false, htotal, ?_, hheld ▸ hc, ?_⟩
    · exact run_install (hsep.on _) (hsub hmem)
        (Forest.nodup_governors_append_subjects _
          (Hierarchy.nodup_postorder_subtree hf)).of_append_right
        (Forest.activate_notMem_ownProduction _ f) hrun
    · rw [hheld]
      refine (Direction.wellTarget_div .production _ _ _).trans ?_
      rw [← pathEfficiency_append]
      exact Descent.target_production ⟨r.id, r.node, between.map (·.2) ++ [r.node]⟩ t _
  · exact absurd (hsub hmem) (refuse_notMem_of_run hrun e)

/-- The groups of a subtree share out their own production targets, and nothing fails. A group in a
    rate mode without another one above it, within the subtree, is left as it is, and so is every
    well without a group in a rate mode above it. Any other well is governed by the first such group
    on the way down to it. It is left as it is when it is no producer, or when a group in between is
    not controlled or has no guide rate below it. Otherwise it is under a control of the mode of the
    group that governs it, with its part of the target of that group, over the efficiency factors of
    the nodes below that group, whatever modes and targets the groups in between have. -/
theorem shareProduction_precedence (hf : s.hierarchy.subtree id = .ok f) (hsep : s.Separate)
    (hrun : (s.shareProduction id).2 = .ok ()) :
    (∀ g ∈ f.governors,
      (s.shareProduction id).1.hierarchy.node g.1 = s.hierarchy.node g.1) ∧
    ∀ r ∈ f.routes,
      (r.governed = [] → s.Untouched (s.shareProduction id).1 (r.id, r.node)) ∧
      ∀ g between, r.governed = g :: between →
        g ∈ f.governors ∧
        (r.node.isProducer = false ∨ (∃ k ∈ between, s.hierarchy.Stops k) →
          s.Untouched (s.shareProduction id).1 (r.id, r.node)) ∧
        (r.node.isProducer = true → (∀ k ∈ between, ¬ s.hierarchy.Stops k) →
          ∃ t total c, g.2.target (.production g.2.specs.production.mode) = .ok (some t) ∧
            s.hierarchy.guideRate .production g.1 false = .ok total ∧ 0 < total ∧
            (s.shareProduction id).1.UnderControl r.id c ∧
            groupControl s.hierarchy.phases (.production g.2.specs.production.mode) c.target
              = .ok c ∧
            c.target = -t * r.node.specs.guideRate .production / total
              / pathEfficiency (between.map (·.2) ++ [r.node])) := by
  have hpart := Hierarchy.subtree_isPart hf
  refine ⟨fun g hg => ?_, fun r hr => ⟨fun hnone => ?_, fun g between hgov =>
    ⟨Forest.mem_governors_of_governed hr hgov, fun hpassed => ?_, fun hkind hopen => ?_⟩⟩⟩
  · rw [shareProduction_eq_run hf]
    exact run_node_of_notMem
      (Forest.subject_ne_of_mem_governors (Hierarchy.nodup_postorder_subtree hf) hg)
  · refine shareProduction_leaves hf hsep hr fun g between target hgov _ => ?_
    rw [hnone] at hgov
    cases hgov
  · refine shareProduction_leaves hf hsep hr fun g' between' target hgov' hkind => ?_
    rw [hgov] at hgov'
    cases hgov'
    rcases hpassed with hother | ⟨k, hk, hstops⟩
    · rw [hkind] at hother
      cases hother
    · refine Hierarchy.handed_of_stops (fun k hk => ?_) hk hstops target
      exact Forest.groups_of_mem_routes hpart hr
        ((List.dropWhile_suffix _).subset (hgov ▸ List.mem_cons_of_mem _ hk : k ∈ r.governed))
  · exact shareProduction_governs hf hsep hrun hr hgov hkind hopen

/-- A region with a well of its own and a district that has a target of sixty. The district has a
    part with a target of its own, where the well is on half of the time, a part without control,
    and a well. -/
def districtCalls : List (Call ℚ) := [
  .enrol "P1" .producer [.bhp 100],
  .enrol "P2" .producer [.bhp 100],
  .enrol "P3" .producer [.bhp 100],
  .enrol "P4" .producer [.bhp 100],
  .addGroup "REGION" none .one (.producer { ProductionSpec.default with mode := .fld }),
  .addGroup "DISTRICT" (some 0) .half
    (.producer { ProductionSpec.default with mode := .orat, oil := some 60 }),
  .addGroup "WEST" (some 1) .one
    (.producer { ProductionSpec.default with mode := .lrat, liquid := some 10 }),
  .addGroup "EAST" (some 1) .one (.producer { ProductionSpec.default with mode := .none }),
  .addWell "P1" (some 2) .half
    (.producer { ProductionSpec.default with guideRate := .two }),
  .addWell "P2" (some 3) .one (.producer .default),
  .addWell "P3" (some 1) .one (.producer .default),
  .addWell "P4" (some 0) .one (.producer .default),
  .attach 4 0,
  .attach 5 1,
  .attach 6 2,
  .attach 7 3]

/-- The site of that region. -/
def district : Site ℚ := (vacant ⟨true, true, false⟩).serve districtCalls

/-- The forest of that region. -/
def districtForest : Forest ℚ :=
  .group 0 (district.hierarchy.nodes.get ⟨0, by decide +kernel⟩) (district.hierarchy.below 0) .nil

theorem subtree_district : district.hierarchy.subtree 0 = .ok districtForest :=
  Hierarchy.subtree_group (Hierarchy.node_eq_ok.mpr (List.getElem?_eq_getElem _)) (by decide +kernel)

/-- The well of the district and the well in the part with a target of its own share the target of
    the district by guide rate. The well in the part without control and the well of the region keep
    what they have, and so does the district. -/
theorem shareProduction_precedence_district :
    district.Separate ∧ (district.shareProduction 0).2 = .ok () ∧
      (district.shareProduction 0).1.hierarchy.node 1 = district.hierarchy.node 1 ∧
      (∃ c, (district.shareProduction 0).1.UnderControl 4 c ∧ c.target = -60) ∧
      (∃ c, (district.shareProduction 0).1.UnderControl 6 c ∧ c.target = -15) ∧
      (∃ w ∈ districtForest.wells, w.1 = 5 ∧ district.Untouched (district.shareProduction 0).1 w) ∧
      ∃ w ∈ districtForest.wells, w.1 = 7 ∧ district.Untouched (district.shareProduction 0).1 w := by
  have hsep : district.Separate := separate_of_nodup (by decide +kernel)
  have hrun : (district.shareProduction 0).2 = .ok () := by decide +kernel
  obtain ⟨hkept, hwells⟩ := shareProduction_precedence subtree_district hsep hrun
  have hroute : ∀ place, (hlt : place < districtForest.routes.length) →
      districtForest.routes.get ⟨place, hlt⟩ ∈ districtForest.routes :=
    fun _ _ => List.get_mem ..
  have hcut : ∀ {r : Route ℚ} (hne : r.governed ≠ []),
      r.governed = r.governed.head hne :: r.governed.tail :=
    fun hne => (List.cons_head_tail hne).symm
  refine ⟨hsep, hrun, ?_, ?_, ?_, ⟨_, Forest.mem_wells_of_mem_routes (hroute 1 (by decide +kernel)),
    by decide +kernel, ?_⟩, ⟨_, Forest.mem_wells_of_mem_routes (hroute 3 (by decide +kernel)),
    by decide +kernel, ?_⟩⟩
  · obtain ⟨g, hg, hplace⟩ : ∃ g ∈ districtForest.governors, g.1 = 1 := by decide +kernel
    rw [← hplace]
    exact hkept g hg
  · obtain ⟨_, hgoverned⟩ := hwells _ (hroute 0 (by decide +kernel))
    obtain ⟨_, _, hheld⟩ := hgoverned _ _ (hcut (by decide +kernel))
    obtain ⟨t, total, c, ht, htotal, _, hunder, _, hc⟩ :=
      hheld (by decide +kernel) (by decide +kernel)
    obtain rfl : t = 60 := Option.some.inj (Except.ok.inj (ht.symm.trans (by decide +kernel)))
    obtain rfl : total = 4 := Except.ok.inj (htotal.symm.trans (by decide +kernel))
    exact ⟨c, hunder, hc.trans (by decide +kernel)⟩
  · obtain ⟨_, hgoverned⟩ := hwells _ (hroute 2 (by decide +kernel))
    obtain ⟨_, _, hheld⟩ := hgoverned _ _ (hcut (by decide +kernel))
    obtain ⟨t, total, c, ht, htotal, _, hunder, _, hc⟩ :=
      hheld (by decide +kernel) (by decide +kernel)
    obtain rfl : t = 60 := Option.some.inj (Except.ok.inj (ht.symm.trans (by decide +kernel)))
    obtain rfl : total = 4 := Except.ok.inj (htotal.symm.trans (by decide +kernel))
    exact ⟨c, hunder, hc.trans (by decide +kernel)⟩
  · obtain ⟨_, hgoverned⟩ := hwells _ (hroute 1 (by decide +kernel))
    obtain ⟨_, hpassed, _⟩ := hgoverned _ _ (hcut (by decide +kernel))
    exact hpassed (Or.inr (by decide +kernel))
  · exact (hwells _ (hroute 3 (by decide +kernel))).1 (by decide +kernel)

end Site

end ReservoirWells
