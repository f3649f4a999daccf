import ReservoirWells.Proofs.Group.Plant
import ReservoirWells.Proofs.Group.Push

/-! # Walks — the operations of a plant are those of its site

    A site decides on all orders first and carries them out afterwards; a plant walks down its
    lists, reads what it needs at each node and acts on the spot.  In a consistent plant both come to
    the same, whatever the arguments, and also when they fail half-way.

    The orders for a tree are about nodes of that tree, so a walk over siblings reads every one of
    them as it was at the start (`Plant.Reaches.carries_siblings`).  The recursions follow by
    induction on the depth of the walk:

    * `Plant.perform_push`, `perform_shareProduction`, `perform_shareInjection` — targets that are
      handed down a subtree;
    * `Plant.perform_reinject`, `perform_refreshProduction`, `perform_refreshInjection`,
      `perform_withdraw` — what is done about one group or one well;
    * `Plant.perform_check` — limits, where nothing is written until one is broken. -/

namespace ReservoirWells

variable {α : Type} [Scalar α]

/-! ## Plans that go tree by tree -/

namespace Forest

/-- A plan that goes through a forest tree by tree and gives orders about its nodes only. -/
structure TreeByTree (plan : Forest α → List (Order α)) : Prop where
  nil : plan .nil = []
  well : ∀ id n next, plan (.well id n next) = plan (.well id n .nil) ++ plan next
  group : ∀ id n below next,
    plan (.group id n below next) = plan (.group id n below .nil) ++ plan next
  subjects : ∀ f : Forest α, (plan f).filterMap Order.subject? ⊆ f.postorder

theorem treeByTree_push (a : ActivePhases) (mode : Mode) (onlyGroup shareGroup : Bool)
    (share : α → α) : TreeByTree fun f => f.push a mode onlyGroup shareGroup share where
  nil := rfl
  well id n next := by simp only [push, List.append_nil]
  group id n below next := by simp only [push, List.append_nil]
  subjects f := (f.push_subjects_sublist a mode onlyGroup shareGroup share).subset

theorem treeByTree_ownProduction (a : ActivePhases) :
    TreeByTree fun f : Forest α => f.ownProduction a where
  nil := rfl
  well id n next := rfl
  group id n below next := by simp only [ownProduction, List.append_nil]
  subjects f := by
    induction f with
    | nil => exact List.Subset.refl _
    | well id n next ih => exact List.subset_cons_of_subset id ih
    | group id n below next ihb ihn =>
        rw [ownProduction, List.filterMap_append]
        refine List.append_subset.mpr ⟨List.subset_append_of_subset_left _ ?_,
          List.subset_append_of_subset_right _ (List.subset_cons_of_subset id ihn)⟩
        split
        · split
          · exact (below.push_subjects_sublist ..).subset
          · exact List.nil_subset _
        · split
          · exact ihb
          · exact List.nil_subset _

theorem treeByTree_ownInjection (a : ActivePhases) :
    TreeByTree fun f : Forest α => f.ownInjection a where
  nil := rfl
  well id n next := rfl
  group id n below next := by simp only [ownInjection, List.append_nil]
  subjects f := by
    induction f with
    | nil => exact List.Subset.refl _
    | well id n next ih => exact List.subset_cons_of_subset id ih
    | group id n below next ihb ihn =>
        rw [ownInjection, List.filterMap_append]
        refine List.append_subset.mpr ⟨List.subset_append_of_subset_left _ ?_,
          List.subset_append_of_subset_right _ (List.subset_cons_of_subset id ihn)⟩
        cases n.specs.injection.mode with
        | fld => exact ihb
        | none => exact ihb
        | rate =>
            dsimp only
            split
            · exact (below.push_subjects_sublist ..).subset
            · exact List.nil_subset _
        | resv =>
            dsimp only
            split
            · exact (below.push_subjects_sublist ..).subset
            · exact List.nil_subset _
        | _ => exact List.nil_subset _

/-- The places of siblings are places of their forest. -/
theorem siblings_sublist_postorder (f : Forest α) : (f.siblings.map (·.1)).Sublist f.postorder := by
  induction f with
  | nil => exact List.Sublist.slnil
  | well id n next ih => exact ih.cons_cons id
  | group id n below next _ ih => exact (ih.cons_cons id).trans (List.sublist_append_right ..)

/-- So is a plan that has some orders about every sibling. -/
theorem treeByTree_siblings (orders : Nat × Node α → List (Order α))
    (horders : ∀ c, (orders c).filterMap Order.subject? ⊆ [c.1]) :
    TreeByTree fun f => f.siblings.flatMap orders where
  nil := rfl
  well id n next := by simp only [siblings, List.flatMap_cons, List.flatMap_nil, List.append_nil]
  group id n below next := by
    simp only [siblings, List.flatMap_cons, List.flatMap_nil, List.append_nil]
  subjects f := by
    intro j hj
    obtain ⟨o, ho, hsubject⟩ := List.mem_filterMap.mp hj
    obtain ⟨c, hc, hown⟩ := List.mem_flatMap.mp ho
    rw [List.mem_singleton.mp (horders c (List.mem_filterMap.mpr ⟨o, hown, hsubject⟩))]
    exact f.siblings_sublist_postorder.subset (List.mem_map_of_mem hc)

end Forest

/-- The outcome of a check whose rates are added to some others. -/
def Outcome.addTo (totals : FlowTotals α) : Outcome α → Outcome α
  | .met own => .met (totals + own)
  | .violated => .violated

namespace Plant

variable {p : Plant α}

/-! ## Walks over siblings -/

section Walks

variable {f : Forest α} {depth id : Nat} {n : Node α} {below : Forest α}

/-- A walk without a step reaches nothing. -/
theorem Reaches.eq_nil (hf : p.Reaches 0 f) : f = .nil := by
  have hnone : ∀ {id n}, id ∈ f.postorder → p.site.hierarchy.node id ≠ .ok n := by
    intro id n hid hn
    obtain ⟨d, hd⟩ := hf.exists_succ hid hn
    cases hd
  cases f with
  | nil => rfl
  | well id n next => exact absurd hf.isPart.1 (hnone (List.mem_cons_self ..))
  | group id n below next =>
      exact absurd hf.isPart.1 (hnone (List.mem_append_right _ (List.mem_cons_self ..)))

/-- What is below a node is reached with as many steps as there are members. -/
theorem reaches_below (hw : p.network.Consistent) (id : Nat) :
    p.Reaches (p.network.members.length + 1) (p.site.hierarchy.below id) :=
  ⟨hw, p.site.hierarchy.below_isPart id, fun j _ => by omega⟩

/-- So is the subtree of a node. -/
theorem reaches_subtree (hw : p.network.Consistent) (hf : p.site.hierarchy.subtree id = .ok f) :
    p.Reaches (p.network.members.length + 1) f :=
  ⟨hw, Hierarchy.subtree_isPart hf, fun j _ => by omega⟩

/-- Steps for one sibling after the other carry a plan that goes tree by tree, if the steps for each
    tree carry its part of the plan. -/
theorem Reaches.carries_siblings {steps : Nat → Steps (Plant α) Unit}
    {plan : Forest α → List (Order α)} (hplan : Forest.TreeByTree plan)
    (hf : p.Reaches depth f) (hnodup : f.postorder.Nodup)
    (hwell : ∀ q : Plant α, q.network.phases = p.network.phases → ∀ id n,
      q.Reaches depth (.well id n .nil) → q.Carries (steps id) (plan (.well id n .nil)))
    (hgroup : ∀ q : Plant α, q.network.phases = p.network.phases → ∀ id n below,
      q.Reaches depth (.group id n below .nil) → below.postorder.Nodup →
        q.Carries (steps id) (plan (.group id n below .nil))) :
    p.Carries ((f.siblings.map (·.1)).forM steps) (plan f) := by
  -- the orders for a tree are about nodes of that tree, so the later siblings are read as they were
  -- at the start
  induction f generalizing p with
  | nil =>
      rw [hplan.nil]
      exact p.carries_orders []
  | well id n next ih =>
      obtain ⟨hid, hnext⟩ := List.nodup_cons.mp hnodup
      rw [hplan.well]
      refine Carries.append (hwell p rfl id n hf.well_self) fun p' hrun => ?_
      have hother : ∀ j ∈ (plan (.well id n .nil)).filterMap Order.subject?,
          j ∉ next.postorder := by
        intro j hj
        rw [List.mem_singleton.mp (hplan.subjects _ hj)]
        exact hid
      obtain ⟨hreach, hphases⟩ := hf.well_next.after hother hrun
      exact ih hreach hnext (fun q hq => hwell q (hq.trans hphases))
        fun q hq => hgroup q (hq.trans hphases)
  | group id n below next _ ih =>
      rw [Forest.postorder, List.append_cons] at hnodup
      obtain ⟨hown, hnext, hdisjoint⟩ := List.nodup_append.mp hnodup
      rw [hplan.group]
      refine Carries.append (hgroup p rfl id n below hf.group_self
        (List.nodup_append.mp hown).1) fun p' hrun => ?_
      have hother : ∀ j ∈ (plan (.group id n below .nil)).filterMap Order.subject?,
          j ∉ next.postorder := fun j hj hmem =>
        hdisjoint j (hplan.subjects _ hj) j hmem rfl
      obtain ⟨hreach, hphases⟩ := hf.group_next.after hother hrun
      exact ih hreach hnext (fun q hq => hwell q (hq.trans hphases))
        fun q hq => hgroup q (hq.trans hphases)

/-- Steps for one sibling after the other carry what each of them is ordered. -/
theorem Reaches.carries_each {steps : Nat → Steps (Plant α) Unit}
    {orders : Nat × Node α → List (Order α)}
    (horders : ∀ c, (orders c).filterMap Order.subject? ⊆ [c.1]) (hf : p.Reaches depth f)
    (hnodup : f.postorder.Nodup)
    (hstep : ∀ q : Plant α, q.network.Consistent → q.network.phases = p.network.phases →
      ∀ child c, q.site.hierarchy.node child = .ok c →
        q.Carries (steps child) (orders (child, c))) :
    p.Carries ((f.siblings.map (·.1)).forM steps) (f.siblings.flatMap orders) := by
  refine hf.carries_siblings (Forest.treeByTree_siblings orders horders) hnodup ?_ ?_
  · intro q hphases child c hq
    rw [Forest.siblings, Forest.siblings, List.flatMap_singleton]
    exact hstep q hq.consistent hphases child c hq.isPart.1
  · intro q hphases child c _ hq _
    rw [Forest.siblings, Forest.siblings, List.flatMap_singleton]
    exact hstep q hq.consistent hphases child c hq.isPart.1

/-! ## Pushing -/

variable {mode : Mode} {onlyGroup shareGroup : Bool}

/-- A well takes its share. -/
theorem carries_push_well (hn : p.site.hierarchy.node id = .ok n) (hwell : n.isGroup = false)
    (target : α) : p.Carries (push mode (depth + 1) id target onlyGroup)
      (n.take id p.network.phases mode onlyGroup target) := by
  obtain ⟨link, hr⟩ := Node.role_of_well hwell
  refine .read (run_node hn) ?_
  rw [hr]
  exact .read (b := p.network.phases) rfl (p.carries_orders _)

/-- A group hands its share on to its children, and then follows. -/
theorem carries_push_group (hw : p.network.Consistent) (hn : p.site.hierarchy.node id = .ok n)
    (hgroup : n.isGroup = true) (share : α → α)
    (hbelow : ∀ share : α → α, p.Carries
      (((p.site.hierarchy.below id).siblings.map (·.1)).forM fun child => do
        let guide ← guideRate mode.direction child onlyGroup
        push mode depth child (share guide) false)
      ((p.site.hierarchy.below id).push p.network.phases mode false onlyGroup share)) :
    p.Carries (push mode (depth + 1) id
        (share ((p.site.hierarchy.below id).guideTotal mode.direction shareGroup 0)) onlyGroup)
      ((Forest.group id n (p.site.hierarchy.below id) .nil).push p.network.phases mode onlyGroup
        shareGroup share) := by
  refine .read (run_node hn) ?_
  rw [(Node.isGroup_iff _).mp hgroup, Forest.push, Forest.push, List.append_nil, Forest.divisor]
  dsimp only
  cases n.declines mode.direction onlyGroup with
  | true => exact p.carries_orders []
  | false =>
      rw [Bool.false_or]
      refine .read (run_guideRate_group hw hn hgroup _ _) ?_
      split
      · exact p.carries_orders []
      · refine .read (run_children hw hn) ?_
        exact .append (hbelow _) fun p' _ => p'.carries_order (.adopt id mode.direction.following)

/-- Handing shares to the nodes of a forest, one after the other, is a push. -/
theorem Reaches.carries_push (hf : p.Reaches depth f) (hnodup : f.postorder.Nodup) (mode : Mode)
    (onlyGroup shareGroup : Bool) (share : α → α) : p.Carries
      ((f.siblings.map (·.1)).forM fun child => do
        let guide ← guideRate mode.direction child shareGroup
        push mode depth child (share guide) onlyGroup)
      (f.push p.network.phases mode onlyGroup shareGroup share) := by
  induction depth generalizing p f onlyGroup shareGroup share with
  | zero =>
      rw [hf.eq_nil]
      exact p.carries_orders []
  | succ depth ih =>
      refine hf.carries_siblings (Forest.treeByTree_push ..) hnodup ?_ ?_
      · intro q hphases id n hq
        obtain ⟨hn, hwell, _⟩ := hq.isPart
        rw [← hphases, Forest.push, Forest.push, List.append_nil]
        exact .read (run_guideRate_well hq.consistent hn hwell _ _) (carries_push_well hn hwell _)
      · intro q hphases id n below hq hb
        obtain ⟨hn, hgroup, rfl, _⟩ := hq.isPart
        rw [← hphases]
        exact .read (run_guideRate_group hq.consistent hn hgroup _ _)
          (carries_push_group hq.consistent hn hgroup share (ih hq.group_below hb false onlyGroup))

/-! ## The groups' own targets -/

/-- The target of a group is shared out over everything below it, or it is refused. -/
theorem Reaches.carries_ownTarget (hbelow : p.Reaches depth (p.site.hierarchy.below id))
    (hn : p.site.hierarchy.node id = .ok n) (divisor : α) (share : α → α → α) :
    p.Carries
      (do
        let target ← Steps.ask fun _ => Forest.ownTarget n divisor mode
        (← children id).forM fun child => do
          let guide ← guideRate mode.direction child shareGroup
          push mode depth child (share target guide) onlyGroup)
      (match Forest.ownTarget n divisor mode with
        | .ok target =>
          (p.site.hierarchy.below id).push p.network.phases mode onlyGroup shareGroup (share target)
        | .error e => [.refuse e]) := by
  cases Forest.ownTarget n divisor mode with
  | error e => exact .refuse (e := e) rfl _
  | ok target =>
      refine .read (b := target) rfl (.read (run_children hbelow.consistent hn) ?_)
      exact hbelow.carries_push (p.site.hierarchy.nodup_postorder_below id).1 mode onlyGroup
        shareGroup (share target)

/-- Sharing out own production targets in a forest is the plan for it. -/
theorem Reaches.carries_shareProduction (hf : p.Reaches depth f) (hnodup : f.postorder.Nodup) :
    p.Carries ((f.siblings.map (·.1)).forM (shareProduction depth))
      (f.ownProduction p.network.phases) := by
  induction depth generalizing p f with
  | zero =>
      rw [hf.eq_nil]
      exact p.carries_orders []
  | succ depth ih =>
      refine hf.carries_siblings (Forest.treeByTree_ownProduction _) hnodup ?_ ?_
      · intro q hphases id n hq
        obtain ⟨hn, hwell, _⟩ := hq.isPart
        obtain ⟨link, hr⟩ := Node.role_of_well hwell
        refine .read (run_node hn) ?_
        rw [hr]
        exact q.carries_orders []
      · intro q hphases id n below hq hb
        obtain ⟨hn, hgroup, rfl, _⟩ := hq.isPart
        rw [← hphases, Forest.ownProduction, Forest.ownProduction, List.append_nil]
        refine .read (run_node hn) ?_
        rw [(Node.isGroup_iff _).mp hgroup]
        dsimp only
        split
        · exact .read (run_guideRate_group hq.consistent hn hgroup _ _)
            (hq.group_below.carries_ownTarget hn _ _)
        · split
          · exact .read (run_children hq.consistent hn) (ih hq.group_below hb)
          · exact q.carries_throw _

/-- Sharing out own injection targets in a forest is the plan for it. -/
theorem Reaches.carries_shareInjection (hf : p.Reaches depth f) (hnodup : f.postorder.Nodup) :
    p.Carries ((f.siblings.map (·.1)).forM (shareInjection depth))
      (f.ownInjection p.network.phases) := by
  induction depth generalizing p f with
  | zero =>
      rw [hf.eq_nil]
      exact p.carries_orders []
  | succ depth ih =>
      refine hf.carries_siblings (Forest.treeByTree_ownInjection _) hnodup ?_ ?_
      · intro q hphases id n hq
        obtain ⟨hn, hwell, _⟩ := hq.isPart
        obtain ⟨link, hr⟩ := Node.role_of_well hwell
        refine .read (run_node hn) ?_
        rw [hr]
        exact q.carries_orders []
      · intro q hphases id n below hq hb
        obtain ⟨hn, hgroup, rfl, _⟩ := hq.isPart
        rw [← hphases, Forest.ownInjection, Forest.ownInjection, List.append_nil]
        refine .read (run_node hn) ?_
        rw [(Node.isGroup_iff _).mp hgroup]
        dsimp only
        cases n.specs.injection.mode with
        | rate =>
            exact .read (run_guideRate_group hq.consistent hn hgroup _ _)
              (hq.group_below.carries_ownTarget hn _ _)
        | resv =>
            exact .read (run_guideRate_group hq.consistent hn hgroup _ _)
              (hq.group_below.carries_ownTarget hn _ _)
        | rein => exact q.carries_orders []
        | vrep => exact q.carries_orders []
        | fld => exact .read (run_children hq.consistent hn) (ih hq.group_below hb)
        | none => exact .read (run_children hq.consistent hn) (ih hq.group_below hb)
        | _ => exact q.carries_throw _

/-! ## What groups inject again, and wells directly below a group -/

/-- Injecting again what is produced follows its plan. -/
theorem follows_reinject (hw : p.network.Consistent) (id : Nat) (rates : RateTable α) :
    p.Follows (reinject (p.network.members.length + 1) id rates)
      (p.site.hierarchy.reinjectionPlan id rates) := by
  refine .bind (p.network.node_hierarchy id).symm fun n hn => ?_
  cases hgroup : n.isGroup with
  | false => exact p.carries_orders []
  | true =>
      have hbelow := reaches_below hw id
      refine .bind (by rw [hw.below_of_node hn]; rfl) fun replaced _ => ?_
      cases replaced with
      | none => exact p.carries_orders []
      | some r =>
          obtain ⟨mode, volume, fraction⟩ := r
          show p.Carries _ ((p.site.hierarchy.below id).inject _ mode volume fraction)
          rw [Forest.inject]
          refine .read (run_guideRate_group hw hn hgroup _ _) ?_
          split
          · exact p.carries_orders []
          · exact .read (run_children hw hn) (hbelow.carries_push
              (p.site.hierarchy.nodup_postorder_below id).1 (.injection mode) true true _)

/-- Refreshing the producers directly below a group follows its plan. -/
theorem follows_refreshProduction (hw : p.network.Consistent) (id : Nat) (flows : List α) :
    p.Follows (refreshProduction (p.network.members.length + 1) id flows)
      (p.site.hierarchy.refreshPlan id flows) := by
  refine .bind (p.network.node_hierarchy id).symm fun n hn => ?_
  cases hgroup : n.isGroup with
  | false => exact p.carries_orders []
  | true =>
      refine .bind rfl fun (mode, target) _ => ?_
      refine .bind (by rw [hw.below_of_node hn]; rfl) fun taken _ => ?_
      refine .read (run_guideRate_group hw hn hgroup _ _) ?_
      dsimp only
      split
      · exact p.carries_orders []
      · refine Carries.read (run_children hw hn) ?_
        refine (reaches_below hw id).carries_each (fun c => ?_)
          (p.site.hierarchy.nodup_postorder_below id).1 fun q hq hphases child c hc => ?_
        · split
          · exact List.nil_subset _
          · rw [List.filterMap_append]
            exact List.append_subset.mpr ⟨(c.2.take_subjects ..).subset, List.Subset.refl _⟩
        · refine .read (run_node hc) ?_
          dsimp only
          cases hkind : c.isProducer with
          | false =>
              rw [Bool.not_false, Bool.or_true]
              exact q.carries_orders []
          | true =>
              have hwell := Node.isGroup_of_isKind hkind
              split
              · exact q.carries_orders []
              · refine .read (run_guideRate_well hq hc hwell _ _) ?_
                rw [show p.site.hierarchy.phases = q.network.phases from hphases.symm]
                exact .append (carries_push_well hc hwell _) fun q' _ => q'.carries_order _

/-- Refreshing the injectors directly below a group follows its plan. -/
theorem follows_refreshInjection (hw : p.network.Consistent) (id : Nat) :
    p.Follows (refreshInjection id) (p.site.plan (.refreshInjection id)) := by
  rw [Site.plan]
  cases hn : p.site.hierarchy.node id with
  | error e =>
      exact run_read_error (run_children_error hn) _
  | ok n =>
      refine .read (run_children hw hn) ?_
      cases hgroup : n.isGroup with
      | false =>
          obtain ⟨m, hm, rfl⟩ := Network.member_of_node hn
          have hnone : (p.site.hierarchy.below id).siblings.map (·.1) = [] :=
            (hw.children_eq hm).symm.trans (hw.children_of_well hm hgroup)
          rw [hnone, Except.map, hgroup]
          exact p.carries_orders []
      | true =>
          rw [Except.map, hgroup]
          refine (reaches_below hw id).carries_each (fun c => ?_)
            (p.site.hierarchy.nodup_postorder_below id).1 fun q _ _ child c hc => ?_
          · dsimp only
            split
            · exact List.Subset.refl _
            · exact List.nil_subset _
          · refine .read (run_node hc) ?_
            dsimp only
            split
            · exact q.carries_order _
            · exact q.carries_orders []

end Walks

/-! ## Limits -/

/-- Carries out what an assessment asks for. -/
def settle : Except GroupError (Finding α) → Steps (Plant α) (Outcome α)
  | .ok (.met totals) => return .met totals
  | .ok (.broken repair) => do
    repair.forM order
    return .violated
  | .error e => throw e

theorem result_settle (p : Plant α) (id : Nat) (rates : RateTable α) :
    result ((settle ((p.site.hierarchy.subtree id).bind
        (·.assess p.site.hierarchy.phases p.site.wells rates .zero))).run p)
      = p.took (p.site.checkLimits id rates) := by
  rw [Site.checkLimits]
  cases (p.site.hierarchy.subtree id).bind
      (·.assess p.site.hierarchy.phases p.site.wells rates .zero) with
  | error e => exact congrArg (·, Except.error e) p.withSite_site.symm
  | ok finding =>
      cases finding with
      | met totals => exact congrArg (·, Except.ok (Outcome.met totals)) p.withSite_site.symm
      | broken repair =>
          show result (((repair.forM order >>= fun _ => pure .violated) :
            Steps (Plant α) (Outcome α)).run p) = _
          rw [EStateM.run_bind, run_orders]
          dsimp only
          generalize p.site.run repair = done
          obtain ⟨t, _ | ⟨⟩⟩ := done <;> rfl

/-- Steps after an assessment are taken only when every limit holds. -/
theorem run_settle_bind {x : Steps (Plant α) (Outcome α)} {found : Except GroupError (Finding α)}
    {next : Outcome α → Steps (Plant α) (Outcome α)} (hnext : next .violated = pure .violated) :
    x.run p = (settle found).run p → (x >>= next).run p = match found with
      | .ok (.met totals) => (next (.met totals)).run p
      | ended => (settle ended).run p := by
  intro hx
  rw [EStateM.run_bind, hx, ← EStateM.run_bind]
  cases found with
  | error e => rfl
  | ok finding =>
      cases finding with
      | met totals => rfl
      | broken repair =>
          show ((repair.forM order >>= fun _ => pure .violated) >>= next).run p = _
          rw [bind_assoc]
          simp only [pure_bind, hnext]
          rfl

section Limits

variable {rates : RateTable α} {f : Forest α} {depth id : Nat} {n : Node α}

/-- A group answers a broken limit as the plan says. -/
theorem Reaches.follows_answer (hbelow : p.Reaches depth (p.site.hierarchy.below id))
    (rates : RateTable α) (hn : p.site.hierarchy.node id = .ok n) (hgroup : n.isGroup = true)
    (mode : Mode) (target : α) : p.Follows (answer (depth + 1) id n rates mode target)
      (n.answer id (p.site.hierarchy.below id) p.network.phases rates mode target) := by
  have hpush : p.Carries (push mode (depth + 1) id target false)
      (n.enforce id (p.site.hierarchy.below id) p.network.phases mode target) :=
    carries_push_group hbelow.consistent hn hgroup (fun _ => target) fun share =>
      hbelow.carries_push (p.site.hierarchy.nodup_postorder_below id).1 mode false false share
  cases mode with
  | injection m =>
      exact Carries.append hpush fun p' _ => p'.carries_order (.adopt id (.injection m))
  | production m =>
      rw [answer, Node.answer]
      cases n.specs.production.procedure with
      | none => exact p.carries_orders []
      | rate => exact hpush
      | well =>
          refine .map ((hbelow.consistent.worst_eq ..).trans
            (Hierarchy.worst_group hn hgroup rates m)) ?_
          intro worst _
          cases worst with
          | none => exact p.carries_orders []
          | some found => exact p.carries_order (.withdraw found.1)

theorem run_check_well (hn : p.site.hierarchy.node id = .ok n) (hwell : n.isGroup = false) :
    (check rates (depth + 1) id).run p
      = (settle (n.assessWell p.network.phases p.wells rates)).run p := by
  obtain ⟨link, hr⟩ := Node.role_of_well hwell
  rw [check, run_read (run_node hn), hr]
  dsimp only
  rw [EStateM.run_bind, Steps.run_ask]
  cases n.assessWell p.network.phases p.wells rates with
  | error e => rfl
  | ok finding => cases finding <;> rfl

/-- A group is assessed after its children, if their limits hold. -/
theorem Reaches.run_check_group (hbelow : p.Reaches depth (p.site.hierarchy.below id))
    (hn : p.site.hierarchy.node id = .ok n) (hgroup : n.isGroup = true)
    (hchildren : (checkAll (check rates depth) .zero
        ((p.site.hierarchy.below id).siblings.map (·.1))).run p
      = (settle ((p.site.hierarchy.below id).assess p.network.phases p.wells rates .zero)).run p) :
    (check rates (depth + 1) id).run p
      = (settle (match (p.site.hierarchy.below id).assess p.network.phases p.wells rates .zero with
          | .ok (.met children) =>
            n.assessGroup id (p.site.hierarchy.below id) p.network.phases rates children
          | ended => ended)).run p := by
  rw [check, run_read (run_node hn), (Node.isGroup_iff _).mp hgroup]
  dsimp only
  rw [run_read (run_children hbelow.consistent hn)]
  refine (run_settle_bind (by rfl) hchildren).trans ?_
  cases (p.site.hierarchy.below id).assess p.network.phases p.wells rates .zero with
  | error e => rfl
  | ok finding =>
      cases finding with
      | broken repair => rfl
      | met totals =>
          dsimp only
          rw [EStateM.run_bind, Steps.run_ask, Node.assessGroup]
          cases n.exceeded p.network.phases totals checkedModes with
          | error e => rfl
          | ok violation =>
              cases violation with
              | none => rfl
              | some v =>
                  have hanswer := hbelow.follows_answer rates hn hgroup v.1 v.2
                  dsimp only
                  rw [EStateM.run_bind]
                  cases hplan : n.answer id (p.site.hierarchy.below id) p.network.phases rates v.1
                      v.2 with
                  | error e =>
                      rw [hplan] at hanswer
                      rw [show _ = EStateM.Result.error e p from hanswer]
                      rfl
                  | ok l =>
                      rw [hplan] at hanswer
                      rw [show _ = (l.forM order).run p from hanswer]
                      rfl

/-- A sibling whose limits hold is followed by the next one. -/
theorem run_checkAll_cons {found : Except GroupError (Finding α)} {rest : List Nat}
    {next : Forest α} (hcheck : (check rates depth id).run p = (settle found).run p)
    (hrest : ∀ totals, (checkAll (check rates depth) totals rest).run p
      = (settle (next.assess p.network.phases p.wells rates totals)).run p)
    (totals : FlowTotals α) :
    (checkAll (check rates depth) totals (id :: rest)).run p
      = (settle (match found with
          | .ok (.met own) => next.assess p.network.phases p.wells rates (totals + own)
          | ended => ended)).run p := by
  show ((check rates depth id >>= fun o => match o with
    | .met own => checkAll (check rates depth) (totals + own) rest
    | .violated => pure .violated) : Steps (Plant α) (Outcome α)).run p = _
  refine (run_settle_bind (by rfl) hcheck).trans ?_
  cases found with
  | error e => rfl
  | ok finding =>
      cases finding with
      | met own => exact hrest _
      | broken repair => rfl

/-- Checking the nodes of a forest, one after the other, is an assessment of the forest, and after
    it the answer to the first limit that is broken. -/
theorem Reaches.run_checkAll (hf : p.Reaches depth f) (totals : FlowTotals α) :
    (checkAll (check rates depth) totals (f.siblings.map (·.1))).run p
      = (settle (f.assess p.network.phases p.wells rates totals)).run p := by
  induction depth generalizing f totals with
  | zero =>
      rw [hf.eq_nil]
      rfl
  | succ depth ih =>
      induction f generalizing totals with
      | nil => rfl
      | well id n next ihn =>
          obtain ⟨hn, hwell, _⟩ := hf.isPart
          exact run_checkAll_cons (run_check_well hn hwell) (ihn hf.well_next) totals
      | group id n below next _ ihn =>
          obtain ⟨hn, hgroup, rfl, _⟩ := hf.isPart
          have hbelow := hf.group_below
          refine (run_checkAll_cons (hbelow.run_check_group hn hgroup (ih hbelow .zero))
            (ihn hf.group_next) totals).trans ?_
          rw [Forest.assess]
          cases (p.site.hierarchy.below id).assess p.network.phases p.wells rates .zero with
          | error e => rfl
          | ok finding => cases finding <;> rfl

/-- A check of one node adds its rates. -/
theorem run_checkAll_single (totals : FlowTotals α) :
    (checkAll (check rates depth) totals [id]).run p = match (check rates depth id).run p with
      | .ok outcome q => .ok (outcome.addTo totals) q
      | .error e q => .error e q := by
  show ((check rates depth id >>= fun o => match o with
    | .met own => pure (.met (totals + own))
    | .violated => pure .violated) : Steps (Plant α) (Outcome α)).run p = _
  rw [EStateM.run_bind]
  cases (check rates depth id).run p with
  | error e q => rfl
  | ok outcome q => cases outcome <;> rfl

end Limits

/-! ## Operations -/

section Operations

variable (hw : p.network.Consistent) (id : Nat)

include hw

/-- Steps that begin at a node follow a plan for its subtree, if they carry it for a well and for a
    group. -/
theorem follows_subtree {steps : Steps (Plant α) Unit} {plan : Forest α → List (Order α)}
    (herror : ∀ e, p.site.hierarchy.node id = .error e → steps.run p = .error e p)
    (hwell : ∀ n, p.Reaches (p.network.members.length + 1) (.well id n .nil) →
      p.Carries steps (plan (.well id n .nil)))
    (hgroup : ∀ n below, p.Reaches (p.network.members.length + 1) (.group id n below .nil) →
      (Forest.group id n below .nil).postorder.Nodup →
        p.Carries steps (plan (.group id n below .nil))) :
    p.Follows steps ((p.site.hierarchy.subtree id).map plan) := by
  cases hn : p.site.hierarchy.node id with
  | error e =>
      rw [Hierarchy.subtree_error hn]
      exact herror e hn
  | ok n =>
      cases hkind : n.isGroup with
      | false =>
          have hf := Hierarchy.subtree_well hn hkind
          rw [hf]
          exact hwell n (reaches_subtree hw hf)
      | true =>
          have hf := Hierarchy.subtree_group hn hkind
          rw [hf]
          exact hgroup n _ (reaches_subtree hw hf) (p.site.hierarchy.nodup_postorder_group id n)

theorem perform_push (mode : Mode) (target : α) (onlyGroup : Bool) :
    p.perform (fun depth => push mode depth id target onlyGroup)
      = p.took (p.site.pushTarget id mode target onlyGroup) := by
  refine Follows.perform (follows_subtree hw id ?_ ?_ ?_)
  · exact fun e hn => run_read_error (run_node_error hn) _
  · intro n hf
    rw [Forest.push, Forest.push, List.append_nil]
    exact carries_push_well hf.isPart.1 hf.isPart.2.1 target
  · intro n below hf _
    obtain ⟨hn, hgroup, rfl, _⟩ := hf.isPart
    exact carries_push_group hw hn hgroup (fun _ => target) fun share =>
      hf.group_below.carries_push (p.site.hierarchy.nodup_postorder_below id).1 mode false onlyGroup
        share

theorem perform_shareProduction :
    p.perform (fun depth => shareProduction depth id) = p.took (p.site.shareProduction id) := by
  refine Follows.perform (follows_subtree hw id ?_ ?_ ?_)
  · exact fun e hn => run_read_error (run_node_error hn) _
  · exact fun n hf => (hf.carries_shareProduction (List.nodup_singleton id)).of_single
  · exact fun n below hf hnodup => (hf.carries_shareProduction hnodup).of_single

theorem perform_shareInjection :
    p.perform (fun depth => shareInjection depth id) = p.took (p.site.shareInjection id) := by
  refine Follows.perform (follows_subtree hw id ?_ ?_ ?_)
  · exact fun e hn => run_read_error (run_node_error hn) _
  · exact fun n hf => (hf.carries_shareInjection (List.nodup_singleton id)).of_single
  · exact fun n below hf hnodup => (hf.carries_shareInjection hnodup).of_single

theorem perform_reinject (rates : RateTable α) :
    p.perform (fun depth => reinject depth id rates) = p.took (p.site.reinject id rates) :=
  (follows_reinject hw id rates).perform

theorem perform_refreshProduction (flows : List α) :
    p.perform (fun depth => refreshProduction depth id flows)
      = p.took (p.site.refreshProduction id flows) :=
  (follows_refreshProduction hw id flows).perform

theorem perform_refreshInjection :
    p.perform (fun _ => refreshInjection id) = p.took (p.site.refreshInjection id) :=
  (follows_refreshInjection hw id).perform

omit hw in
theorem perform_withdraw :
    p.perform (fun _ => order (.withdraw id)) = p.took (p.site.withdrawWell id) :=
  Follows.perform (show p.Follows _ (.ok [.withdraw id]) from p.carries_order (.withdraw id))

/-- A check of a node is an assessment of its subtree, and after it the answer to the first limit
    that is broken. The site starts from zero and adds the rates of the node itself. -/
theorem perform_check (rates : RateTable α) :
    let done := p.perform fun depth => check rates depth id
    (done.1, done.2.map (·.addTo .zero)) = p.took (p.site.checkLimits id rates) := by
  have hassess : (checkAll (check rates (p.network.members.length + 1)) .zero [id]).run p
      = (settle ((p.site.hierarchy.subtree id).bind
          (·.assess p.site.hierarchy.phases p.site.wells rates .zero))).run p := by
    cases hn : p.site.hierarchy.node id with
    | error e =>
        rw [Hierarchy.subtree_error hn]
        exact run_read_error (run_read_error (run_node_error hn) _) _
    | ok n =>
        cases hkind : n.isGroup with
        | false =>
            have hf := Hierarchy.subtree_well hn hkind
            rw [hf]
            exact (reaches_subtree hw hf).run_checkAll .zero
        | true =>
            have hf := Hierarchy.subtree_group hn hkind
            rw [hf]
            exact (reaches_subtree hw hf).run_checkAll .zero
  intro done
  rw [← result_settle, ← hassess, run_checkAll_single]
  show ((result _).1, (result _).2.map _) = _
  cases (check rates (p.network.members.length + 1) id).run p <;> rfl

end Operations

end Plant

end ReservoirWells
