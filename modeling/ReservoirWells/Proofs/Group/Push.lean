import ReservoirWells.Group.Limits
import ReservoirWells.Proofs.Group.Blocks
import ReservoirWells.Proofs.Group.Execution

/-! # Push — the orders by which a target goes down a forest

    `Forest.push` lists orders without looking at the site again.  This file says which orders they
    are, for either direction and any target:

    * `Forest.mem_push` — a group follows, or a well of the direction takes a control of the mode, or
      is refused one;
    * `Forest.push_subjects_sublist` — every node is the subject of one order at most, in post-order;
    * `Hierarchy.push_below_nodup` — so the orders of a push below a node are about different nodes;
    * `Forest.install_of_mem_push` — an order about a well installs a control;
    * `Forest.ownInjection_of_rate` — the push by which a group shares out what it is to inject;
    * `Site.run_push_ok` — a push goes through when the mode is supported and the wells are joined
      to the table. -/

namespace ReservoirWells

variable {α : Type} [Scalar α]

/-- An attached well is not a group. -/
theorem Node.isGroup_of_isKind {n : Node α} {kind : WellKind} (h : n.isKind kind = true) :
    n.isGroup = false := by
  cases hl : n.link? with
  | some link => rw [isGroup, hl]; rfl
  | none =>
      rw [isKind, attachment?, hl] at h
      cases h

/-- The order that hands a share to a well, if there is one, installs the control of that share or
    refuses it. -/
theorem Node.mem_take {n : Node α} {id : Nat} {a : ActivePhases} {mode : Mode} {onlyGroup : Bool}
    {share : α} {o : Order α} (h : o ∈ n.take id a mode onlyGroup share) :
    n.isKind mode.direction.wellKind = true ∧
      ((∃ c, groupControl a mode (mode.direction.wellTarget share n.efficiency.val) = .ok c ∧
          o = .install id c) ∨
        ∃ e, groupControl a mode (mode.direction.wellTarget share n.efficiency.val) = .error e ∧
          o = .refuse e) := by
  rw [take] at h
  cases hk : n.isKind mode.direction.wellKind with
  | false => rw [hk] at h; cases h
  | true =>
      rw [hk, if_neg (by simp)] at h
      cases hi : onlyGroup && n.individual with
      | true => rw [hi] at h; cases h
      | false =>
          rw [hi, if_neg Bool.false_ne_true] at h
          refine ⟨rfl, ?_⟩
          cases hc : groupControl a mode (mode.direction.wellTarget share n.efficiency.val) with
          | ok c =>
              simp only [hc] at h
              exact Or.inl ⟨c, rfl, List.mem_singleton.mp h⟩
          | error e =>
              simp only [hc] at h
              exact Or.inr ⟨e, rfl, List.mem_singleton.mp h⟩

/-- A well of the direction that is not passed over takes the control of its share, or refuses it. -/
theorem Node.take_cases {n : Node α} {mode : Mode} (hkind : n.isKind mode.direction.wellKind = true)
    {onlyGroup : Bool} (htakes : ¬ (onlyGroup && n.individual) = true) (id : Nat)
    (a : ActivePhases) (share : α) :
    (∃ c, groupControl a mode (mode.direction.wellTarget share n.efficiency.val) = .ok c ∧
        n.take id a mode onlyGroup share = [.install id c]) ∨
      ∃ e, n.take id a mode onlyGroup share = [.refuse e] := by
  rw [take, hkind, Bool.not_true, if_neg Bool.false_ne_true, if_neg htakes]
  cases groupControl a mode (mode.direction.wellTarget share n.efficiency.val) with
  | ok c => exact Or.inl ⟨c, rfl, rfl⟩
  | error e => exact Or.inr ⟨e, rfl⟩

/-- The orders that hand a share to a well are about no other node. -/
theorem Node.take_subjects (n : Node α) (id : Nat) (a : ActivePhases) (mode : Mode)
    (onlyGroup : Bool) (share : α) :
    ((n.take id a mode onlyGroup share).filterMap Order.subject?).Sublist [id] := by
  rw [take]
  split
  · exact List.nil_sublist _
  · split
    · exact List.nil_sublist _
    · split
      · exact List.Sublist.refl _
      · exact List.nil_sublist _

namespace Forest

/-- A group that is not controlled leaves every target alone. -/
theorem mode_of_declines {n : Node α} {d : Direction} {onlyGroup : Bool}
    (h : n.declines d onlyGroup = false) : n.specs.mode d ≠ d.uncontrolled := by
  rw [Node.declines, Bool.or_eq_false_iff] at h
  exact ne_of_beq_false h.1

/-- An order of a push that starts with a group goes below the group, or makes it follow, or goes to
    the later siblings. It can be one of the first two only when the group takes part. -/
theorem mem_push_group {a : ActivePhases} {mode : Mode} {id : Nat} {n : Node α}
    {below next : Forest α} {onlyGroup shareGroup : Bool} {target : α → α} {o : Order α}
    (h : o ∈ (Forest.group id n below next).push a mode onlyGroup shareGroup target) :
    (n.specs.mode mode.direction ≠ mode.direction.uncontrolled ∧
      Scalar.isZero (below.divisor mode.direction onlyGroup) = false ∧
      (o ∈ below.push a mode false onlyGroup (fun guide =>
          target (below.guideTotal mode.direction shareGroup 0) / n.efficiency.val
            * (guide / below.divisor mode.direction onlyGroup)) ∨
        o = .adopt id mode.direction.following)) ∨
    o ∈ next.push a mode onlyGroup shareGroup target := by
  rw [push] at h
  rcases List.mem_append.mp h with hown | hnext
  · cases hskip : n.declines mode.direction onlyGroup
        || Scalar.isZero (below.divisor mode.direction onlyGroup) with
    | true => rw [hskip] at hown; cases hown
    | false =>
        rw [hskip, if_neg Bool.false_ne_true] at hown
        obtain ⟨hdeclines, hzero⟩ := Bool.or_eq_false_iff.mp hskip
        refine Or.inl ⟨mode_of_declines hdeclines, hzero, ?_⟩
        rcases List.mem_append.mp hown with hbelow | hself
        · exact Or.inl hbelow
        · exact Or.inr (List.mem_singleton.mp hself)
  · exact Or.inr hnext

/-- The orders of a push: a controlled group follows, or a well of the direction takes a control of
    the mode, or there is no such control. -/
theorem mem_push {a : ActivePhases} {mode : Mode} {o : Order α} (f : Forest α) :
    ∀ {onlyGroup shareGroup : Bool} {target : α → α},
      o ∈ f.push a mode onlyGroup shareGroup target →
      (∃ g ∈ f.groups, g.2.specs.mode mode.direction ≠ mode.direction.uncontrolled ∧
        o = .adopt g.1 mode.direction.following) ∨
        ∃ w ∈ f.wells, w.2.isKind mode.direction.wellKind = true ∧ ∃ t,
          (∃ c, groupControl a mode t = .ok c ∧ o = .install w.1 c) ∨
          (∃ e, groupControl a mode t = .error e ∧ o = .refuse e) := by
  induction f with
  | nil => intro _ _ _ h; cases h
  | well id n next ih =>
      intro onlyGroup shareGroup target h
      rw [push] at h
      rcases List.mem_append.mp h with hown | hnext
      · obtain ⟨hk, hc⟩ := Node.mem_take hown
        exact Or.inr ⟨(id, n), List.mem_cons_self .., hk, _, hc⟩
      · rcases ih hnext with hadopt | ⟨w, hw, hrest⟩
        · exact Or.inl hadopt
        · exact Or.inr ⟨w, List.mem_cons_of_mem _ hw, hrest⟩
  | group id n below next ihb ihn =>
      intro onlyGroup shareGroup target h
      rcases mem_push_group h with ⟨hmode, _, hbelow | hself⟩ | hnext
      · rcases ihb hbelow with ⟨g, hg, heq⟩ | ⟨w, hw, hrest⟩
        · exact Or.inl ⟨g, List.mem_cons_of_mem _ (List.mem_append.mpr (Or.inl hg)), heq⟩
        · exact Or.inr ⟨w, List.mem_append.mpr (Or.inl hw), hrest⟩
      · exact Or.inl ⟨(id, n), List.mem_cons_self .., hmode, hself⟩
      · rcases ihn hnext with ⟨g, hg, heq⟩ | ⟨w, hw, hrest⟩
        · exact Or.inl ⟨g, List.mem_cons_of_mem _ (List.mem_append.mpr (Or.inr hg)), heq⟩
        · exact Or.inr ⟨w, List.mem_append.mpr (Or.inr hw), hrest⟩

/-- A push has one order about a node at most, and none about nodes outside the forest: its subjects
    are places of the forest, in post-order. -/
theorem push_subjects_sublist (a : ActivePhases) (mode : Mode) (f : Forest α) :
    ∀ (onlyGroup shareGroup : Bool) (target : α → α),
      ((f.push a mode onlyGroup shareGroup target).filterMap Order.subject?).Sublist
        f.postorder := by
  induction f with
  | nil => intro _ _ _; exact List.Sublist.slnil
  | well id n next ih =>
      intro onlyGroup shareGroup target
      rw [push, List.filterMap_append]
      exact (n.take_subjects id a mode onlyGroup _).append (ih onlyGroup shareGroup target)
  | group id n below next ihb ihn =>
      intro onlyGroup shareGroup target
      rw [push, List.filterMap_append]
      rw [show (Forest.group id n below next).postorder = (below.postorder ++ [id]) ++ next.postorder
        from (List.append_assoc below.postorder [id] next.postorder).symm]
      -- the group follows after its children have their orders
      refine List.Sublist.append ?_ (ihn onlyGroup shareGroup target)
      split
      · exact List.nil_sublist _
      · rw [List.filterMap_append]
        exact (ihb false onlyGroup _).append (List.Sublist.refl _)

/-- A group that injects at a rate refuses, or it pushes its target down to the children under group
    control. -/
theorem ownInjection_of_rate (a : ActivePhases) (id : Nat) {n : Node α} (below next : Forest α)
    {mode : InjectionMode} (h : n.specs.injection.mode = mode)
    (hmode : mode = .rate ∨ mode = .resv) :
    (∃ e, (Forest.group id n below next).ownInjection a = .refuse e :: next.ownInjection a) ∨
      ∃ t, ownTarget n (below.guideTotal .injection false 0) (.injection mode) = .ok t ∧
        (Forest.group id n below next).ownInjection a
          = below.push a (.injection mode) true false (fun guide =>
              guide / below.guideTotal .injection false 0 * t / n.efficiency.val)
            ++ next.ownInjection a := by
  rcases hmode with rfl | rfl
  · simp only [ownInjection, h]
    cases ownTarget n (below.guideTotal .injection false 0) (.injection .rate) with
    | error e => exact Or.inl ⟨e, rfl⟩
    | ok t => exact Or.inr ⟨t, rfl, rfl⟩
  · simp only [ownInjection, h]
    cases ownTarget n (below.guideTotal .injection false 0) (.injection .resv) with
    | error e => exact Or.inl ⟨e, rfl⟩
    | ok t => exact Or.inr ⟨t, rfl, rfl⟩

end Forest

/-- No push makes another control of an entry active. -/
theorem Forest.activate_notMem_push {a : ActivePhases} {mode : Mode} {f : Forest α}
    {onlyGroup shareGroup : Bool} {target : α → α} (index place : Nat) :
    .activate index place ∉ f.push a mode onlyGroup shareGroup target := by
  intro hmem
  rcases f.mem_push hmem with ⟨_, _, _, heq⟩ | ⟨_, _, _, _, ⟨_, _, heq⟩ | ⟨_, _, heq⟩⟩
  · cases heq
  · cases heq
  · cases heq

/-- An order of a push about a well installs a control. -/
theorem Forest.install_of_mem_push {h : Hierarchy α} {a : ActivePhases} {mode : Mode} {f : Forest α}
    (hf : f.IsPart h) {onlyGroup shareGroup : Bool} {target : α → α} {o : Order α} {id : Nat}
    (ho : o ∈ f.push a mode onlyGroup shareGroup target) (hid : o.subject? = some id) {n : Node α}
    (hn : h.node id = .ok n) (hwell : n.isGroup = false) : ∃ c, o = .install id c := by
  rcases f.mem_push ho with ⟨g, hg, _, rfl⟩ | ⟨w, _, _, _, ⟨c, _, rfl⟩ | ⟨e, _, rfl⟩⟩
  · -- a group follows, and the node is a well
    cases hid
    obtain ⟨hm, hgroup⟩ := hf.node_of_mem_groups hg
    rw [hn] at hm
    cases hm
    rw [hwell] at hgroup
    cases hgroup
  · cases hid
    exact ⟨c, rfl⟩
  · cases hid

/-- An attached node that a push is about is a well of the forest. -/
theorem Site.mem_wells_of_push {s : Site α} {a : ActivePhases} {mode : Mode} {f : Forest α}
    (hf : f.IsPart s.hierarchy) {onlyGroup shareGroup : Bool} {target : α → α} {id index : Nat}
    (hid : id ∈ (f.push a mode onlyGroup shareGroup target).filterMap Order.subject?)
    (ha : s.AttachedTo id index) : id ∈ f.wells.map (·.1) := by
  obtain ⟨o, ho, hid⟩ := List.mem_filterMap.mp hid
  rcases f.mem_push ho with ⟨g, hg, _, rfl⟩ | ⟨w, hw, _, _, ⟨c, _, rfl⟩ | ⟨e, _, rfl⟩⟩
  · -- a group is attached to nothing
    cases hid
    obtain ⟨hm, hgroup⟩ := hf.node_of_mem_groups hg
    obtain ⟨n, hn, hi⟩ := ha
    rw [hn] at hm
    cases hm
    obtain ⟨link, hl⟩ := Node.link?_of_tableIndex hi
    rw [Node.isGroup, hl] at hgroup
    cases hgroup
  · cases hid
    exact List.mem_map_of_mem hw
  · cases hid

section Below

variable (id : Nat) (a : ActivePhases) (mode : Mode) (onlyGroup shareGroup : Bool) (target : α → α)

/-- The orders of a push below a node are about different nodes. -/
theorem Hierarchy.push_below_nodup (h : Hierarchy α) :
    (((h.below id).push a mode onlyGroup shareGroup target).filterMap Order.subject?).Nodup :=
  (Forest.push_subjects_sublist a mode _ onlyGroup shareGroup target).nodup
    (h.nodup_postorder_below id).1

/-- A push below a node leaves the node itself as it is. -/
theorem Site.node_run_push_below (s : Site α) :
    (s.run ((s.hierarchy.below id).push a mode onlyGroup shareGroup target)).1.hierarchy.node id
      = s.hierarchy.node id := by
  refine run_node_of_notMem fun o ho hid => (s.hierarchy.nodup_postorder_below id).2 ?_
  exact (Forest.push_subjects_sublist a mode _ onlyGroup shareGroup target).subset
    (List.mem_filterMap.mpr ⟨o, ho, hid⟩)

end Below

/-- The orders of a group are about different nodes. -/
theorem Node.enforce_nodup (h : Hierarchy α) (id : Nat) (n : Node α) (a : ActivePhases) (mode : Mode)
    (target : α) : ((n.enforce id (h.below id) a mode target).filterMap Order.subject?).Nodup :=
  (Forest.push_subjects_sublist a mode _ false false _).nodup (h.nodup_postorder_group id n)

/-- A target is pushed down a group by the orders of the group. -/
theorem Site.pushTarget_group {s : Site α} {id : Nat} {n : Node α} (hn : s.hierarchy.node id = .ok n)
    (hg : n.isGroup = true) (mode : Mode) (target : α) :
    s.pushTarget id mode target false
      = s.run (n.enforce id (s.hierarchy.below id) s.hierarchy.phases mode target) := by
  rw [pushTarget, Hierarchy.subtree_group hn hg]
  rfl

/-- A push of a supported mode goes through when every well of the forest is attached to an entry of
    the table. -/
theorem Site.run_push_ok {s : Site α} {a : ActivePhases} {mode : Mode} (hmode : a.Supports mode)
    {f : Forest α}
    (hwells : ∀ w ∈ f.wells, ∃ index, s.AttachedTo w.1 index ∧ index < s.wells.length)
    (onlyGroup shareGroup : Bool) (target : α → α) :
    (s.run (f.push a mode onlyGroup shareGroup target)).2 = .ok () := by
  apply run_ok_iff.mpr
  intro o ho
  rcases f.mem_push ho with ⟨_, _, _, rfl⟩ | ⟨w, hw, _, t, ⟨c, _, rfl⟩ | ⟨e, he, _⟩⟩
  · exact True.intro
  · exact hwells w hw
  · obtain ⟨c, hc⟩ := groupControl_ok hmode t
    rw [hc] at he
    cases he

end ReservoirWells
