import ReservoirWells.Proofs.Exact
import ReservoirWells.Proofs.Group.Calls
import ReservoirWells.Proofs.Group.Installed
import ReservoirWells.Proofs.Group.Push

/-! # Individual control — which wells an injection target passes over

    A group shares an injection target over the children that are under group control already.  A
    child that is a well under individual control is passed over, and so is a child group that does
    not follow.  A child group that does follow hands its share to everything below it, whether
    it is under group control or not.  So an injector under individual control keeps its controls
    unless it lies below a child group that follows:

    * `Forest.reached` — the wells that a push hands something to;
    * `Forest.mem_reached_of_install`, `Forest.install_of_mem_reached` — these are the wells that
      the orders of a push are about;
    * `Forest.follower_of_mem_reached` — those under individual control lie below a follower;
    * `Site.injects_untouched` — what a shared injection target leaves alone, and what it does not. -/

namespace ReservoirWells

variable {α : Type} [Scalar α]

/-! ## The wells that a push hands something to -/

namespace Forest

/-- The wells of a forest that a push goes down to. With `onlyGroup` it passes over siblings that are
    wells under individual control, and groups that do not follow; below a group that takes part
    it passes over no well. -/
def reached (d : Direction) : (onlyGroup : Bool) → Forest α → List (Nat × Node α)
  | _, .nil => []
  | onlyGroup, .well id n next =>
    (if onlyGroup && n.individual then [] else [(id, n)]) ++ next.reached d onlyGroup
  | onlyGroup, .group _ n below next =>
    (if n.declines d onlyGroup || Scalar.isZero (below.divisor d onlyGroup) then []
      else below.reached d false) ++ next.reached d onlyGroup

variable {a : ActivePhases} {mode : Mode}

theorem reached_subset_wells {d : Direction} (f : Forest α) :
    ∀ {onlyGroup : Bool} {w : Nat × Node α}, w ∈ f.reached d onlyGroup → w ∈ f.wells := by
  induction f with
  | nil => intro onlyGroup w hw; cases hw
  | well id n next ih =>
      intro onlyGroup w hw
      rcases List.mem_append.mp hw with hself | hnext
      · split at hself
        · cases hself
        · rw [List.mem_singleton.mp hself]
          exact List.mem_cons_self ..
      · exact List.mem_cons_of_mem _ (ih hnext)
  | group id n below next ihb ihn =>
      intro onlyGroup w hw
      rcases List.mem_append.mp hw with hbelow | hnext
      · split at hbelow
        · cases hbelow
        · exact List.mem_append.mpr (Or.inl (ihb hbelow))
      · exact List.mem_append.mpr (Or.inr (ihn hnext))

/-- A well takes a control only when the push goes down to it. -/
theorem mem_reached_of_install {id : Nat} {c : Control α} (f : Forest α) :
    ∀ {onlyGroup shareGroup : Bool} {target : α → α},
      .install id c ∈ f.push a mode onlyGroup shareGroup target →
      ∃ w ∈ f.reached mode.direction onlyGroup, w.1 = id := by
  induction f with
  | nil => intro _ _ _ h; cases h
  | well wid n next ih =>
      intro onlyGroup shareGroup target h
      rw [push] at h
      rcases List.mem_append.mp h with hself | hnext
      · rw [Node.take] at hself
        split at hself
        · cases hself
        · split at hself
          · cases hself
          · next hgroup =>
              refine ⟨(wid, n), List.mem_append.mpr (Or.inl ?_), ?_⟩
              · rw [if_neg hgroup]
                exact List.mem_singleton.mpr rfl
              · split at hself
                · cases List.mem_singleton.mp hself
                  rfl
                · cases List.mem_singleton.mp hself
      · obtain ⟨w, hw, heq⟩ := ih hnext
        exact ⟨w, List.mem_append.mpr (Or.inr hw), heq⟩
  | group gid n below next ihb ihn =>
      intro onlyGroup shareGroup target h
      rw [push] at h
      rcases List.mem_append.mp h with hself | hnext
      · split at hself
        · cases hself
        · next htakes =>
            rcases List.mem_append.mp hself with hbelow | hfollow
            · obtain ⟨w, hw, heq⟩ := ihb hbelow
              refine ⟨w, List.mem_append.mpr (Or.inl ?_), heq⟩
              rw [if_neg htakes]
              exact hw
            · cases List.mem_singleton.mp hfollow
      · obtain ⟨w, hw, heq⟩ := ihn hnext
        exact ⟨w, List.mem_append.mpr (Or.inr hw), heq⟩

/-- Every well of the direction to which a push goes down takes a control, unless there is no such
    control. -/
theorem install_of_mem_reached {w : Nat × Node α}
    (hkind : w.2.isKind mode.direction.wellKind = true) (f : Forest α) :
    ∀ {onlyGroup : Bool}, w ∈ f.reached mode.direction onlyGroup →
      ∀ (shareGroup : Bool) (target : α → α),
        (∃ c, .install w.1 c ∈ f.push a mode onlyGroup shareGroup target) ∨
          ∃ e, .refuse e ∈ f.push a mode onlyGroup shareGroup target := by
  have hwiden : ∀ {part whole : List (Order α)}, part ⊆ whole →
      ((∃ c, .install w.1 c ∈ part) ∨ ∃ e, .refuse e ∈ part) →
        (∃ c, .install w.1 c ∈ whole) ∨ ∃ e, .refuse e ∈ whole := by
    intro part whole hsub h
    exact h.imp (fun hc => hc.imp fun _ hmem => hsub hmem) fun he => he.imp fun _ hmem => hsub hmem
  induction f with
  | nil => intro _ hw; cases hw
  | well id n next ih =>
      intro onlyGroup hw shareGroup target
      rw [push]
      rcases List.mem_append.mp hw with hself | hnext
      · split at hself
        · cases hself
        · next hgroup =>
            cases List.mem_singleton.mp hself
            refine hwiden (List.subset_append_left ..) ?_
            rcases Node.take_cases hkind hgroup id a (target (n.share mode.direction shareGroup))
              with ⟨c, _, heq⟩ | ⟨e, heq⟩
            · exact Or.inl ⟨c, heq ▸ List.mem_singleton.mpr rfl⟩
            · exact Or.inr ⟨e, heq ▸ List.mem_singleton.mpr rfl⟩
      · exact hwiden (List.subset_append_right ..) (ih hnext shareGroup target)
  | group id n below next ihb ihn =>
      intro onlyGroup hw shareGroup target
      rw [push]
      rcases List.mem_append.mp hw with hself | hnext
      · split at hself
        · cases hself
        · next htakes =>
            refine hwiden (List.subset_append_left ..) ?_
            simp only [if_neg htakes]
            exact hwiden (List.subset_append_left ..) (ihb hself _ _)
      · exact hwiden (List.subset_append_right ..) (ihn hnext shareGroup target)

/-- Among wells under individual control a push that heeds group control goes down to those only that
    lie below a sibling that follows. -/
theorem follower_of_mem_reached {d : Direction} {h : Hierarchy α} {f : Forest α} (hf : f.IsPart h)
    {w : Nat × Node α} (hw : w ∈ f.reached d true) (hind : w.2.individual = true) :
    ∃ g ∈ f.siblings, g.2.isGroup = true ∧ g.2.specs.mode d = d.following ∧
      w ∈ (h.below g.1).wells := by
  induction f with
  | nil => cases hw
  | well id n next ih =>
      rcases List.mem_append.mp hw with hself | hnext
      · split at hself
        · cases hself
        · next hgroup =>
            cases List.mem_singleton.mp hself
            exact absurd hind hgroup
      · obtain ⟨g, hg, hrest⟩ := ih hf.2.2 hnext
        exact ⟨g, List.mem_cons_of_mem _ hg, hrest⟩
  | group id n below next _ ihn =>
      obtain ⟨_, hgroup, hbelow, _, hnextPart⟩ := hf
      rcases List.mem_append.mp hw with hself | hnext
      · split at hself
        · cases hself
        · next htakes =>
            refine ⟨(id, n), List.mem_cons_self .., hgroup, ?_, ?_⟩
            · rw [Bool.not_eq_true, Bool.or_eq_false_iff, Node.declines, Bool.or_eq_false_iff,
                Bool.true_and] at htakes
              exact not_not.mp fun hne => absurd htakes.1.2 (by simpa using hne)
            · rw [← hbelow]
              exact below.reached_subset_wells hself
      · obtain ⟨g, hg, hrest⟩ := ihn hnextPart hnext
        exact ⟨g, List.mem_cons_of_mem _ hg, hrest⟩

end Forest

/-! ## Shared injection targets -/

/-- A group that injects again what is produced cannot tell how much that is, or it shares a part of it
    out. -/
theorem Hierarchy.reinjectionPlan_of_replacing {h : Hierarchy α} {id : Nat} {n : Node α}
    (hn : h.node id = .ok n) (hg : n.isGroup = true)
    (hmode : n.specs.injection.mode = .rein ∨ n.specs.injection.mode = .vrep)
    (rates : RateTable α) :
    (∃ e, h.reinjectionPlan id rates = .error e) ∨
      ∃ mode volume fraction, h.reinjectionPlan id rates
        = .ok ((h.below id).inject h.phases mode volume fraction) := by
  rw [reinjectionPlan, hn]
  simp only [bind, Except.bind, hg, Bool.not_true, Bool.false_eq_true, if_false]
  rw [replacement?]
  rcases hmode with hm | hm
  · rw [hm]
    cases (h.below id).produced h.phases rates.surface n.specs.injection.phase with
    | error e => exact Or.inl ⟨e, rfl⟩
    | ok produced => exact Or.inr ⟨_, _, _, rfl⟩
  · rw [hm]
    simp only [bind, Except.bind]
    cases h.phases.toList.mapM ((h.below id).produced h.phases rates.reservoir) with
    | error e => exact Or.inl ⟨e, rfl⟩
    | ok produced => exact Or.inr ⟨_, _, _, rfl⟩

/-- The call shares out what a group in a mode is to inject: its own target, or what is produced. -/
def Call.Injects (id : Nat) (mode : InjectionMode) : Call α → Prop
  | .shareInjection i => i = id ∧ (mode = .rate ∨ mode = .resv)
  | .reinject i _ => i = id ∧ (mode = .rein ∨ mode = .vrep)
  | _ => False

namespace Site

/-- Nothing of a well and of its entry is changed. -/
def Untouched (s t : Site α) (w : Nat × Node α) : Prop :=
  t.hierarchy.node w.1 = s.hierarchy.node w.1 ∧
    ∀ index, w.2.tableIndex = .ok index → t.wells.well index = s.wells.well index

variable {s : Site α} {id : Nat} {n : Node α}

/-- A group that shares out what is to be injected fails and changes nothing, or finds no guide rate
    under group control, or pushes a target down to the children under group control. -/
theorem call_injects (hn : s.hierarchy.node id = .ok n) (hg : n.isGroup = true) {c : Call α}
    (hc : c.Injects id n.specs.injection.mode) :
    (∃ e, s.call c = (s, .error e)) ∨
      (Scalar.isZero ((s.hierarchy.below id).guideTotal .injection true 0) = true ∧
        s.call c = (s, .ok ())) ∨
      ∃ mode shareGroup target, s.call c = s.run ((s.hierarchy.below id).push s.hierarchy.phases
        (.injection mode) true shareGroup target) := by
  cases c with
  | shareInjection i =>
      obtain ⟨rfl, hmode⟩ := hc
      have hcall : s.call (.shareInjection i) = s.run
          ((Forest.group i n (s.hierarchy.below i) .nil).ownInjection s.hierarchy.phases) := by
        rw [call, shareInjection, Hierarchy.subtree_group hn hg]
        rfl
      rw [hcall]
      rcases Forest.ownInjection_of_rate s.hierarchy.phases i (s.hierarchy.below i) .nil rfl hmode
        with ⟨e, he⟩ | ⟨target, _, hpush⟩
      · rw [he]
        exact Or.inl ⟨e, rfl⟩
      · rw [hpush, Forest.ownInjection, List.append_nil]
        exact Or.inr (Or.inr ⟨_, false, _, rfl⟩)
  | reinject i rates =>
      obtain ⟨rfl, hmode⟩ := hc
      rw [call, reinject]
      rcases s.hierarchy.reinjectionPlan_of_replacing hn hg hmode rates with
        ⟨e, he⟩ | ⟨m, volume, fraction, hplan⟩
      · rw [he]
        exact Or.inl ⟨e, rfl⟩
      · rw [hplan, follow, Forest.inject]
        cases hz : Scalar.isZero ((s.hierarchy.below i).guideTotal .injection true 0) with
        | true => exact Or.inr (Or.inl ⟨rfl, rfl⟩)
        | false => exact Or.inr (Or.inr ⟨m, true, _, rfl⟩)
  | _ => cases hc

/-- A well that no order is about is left as it is. -/
theorem untouched_of_run {l : List (Order α)} (hsep : s.Separate) {w : Nat × Node α}
    (hn : s.hierarchy.node w.1 = .ok w.2) (hactivate : ∀ i place, Order.activate i place ∉ l)
    (hnot : ∀ o ∈ l, o.subject? ≠ some w.1) : s.Untouched (s.run l).1 w :=
  ⟨run_node_of_notMem hnot, fun _ hi => (run_leaves_well (hsep.on _) ⟨w.2, hn, hi⟩ hactivate hnot).2⟩

/-- A well below a group is passed over by a push that does not go down to it. -/
theorem run_push_untouched (hsep : s.Separate) {w : Nat × Node α}
    (hw : w ∈ (s.hierarchy.below id).wells) (mode : Mode) {onlyGroup : Bool}
    (hnot : w ∉ (s.hierarchy.below id).reached mode.direction onlyGroup) (shareGroup : Bool)
    (target : α → α) :
    s.Untouched (s.run ((s.hierarchy.below id).push s.hierarchy.phases mode onlyGroup shareGroup
      target)).1 w := by
  have hpart := s.hierarchy.below_isPart id
  obtain ⟨hnode, hwell⟩ := hpart.node_of_mem_wells hw
  have hother : ∀ o ∈ (s.hierarchy.below id).push s.hierarchy.phases mode onlyGroup shareGroup target,
      o.subject? ≠ some w.1 := by
    intro o ho hid
    obtain ⟨c, rfl⟩ := Forest.install_of_mem_push hpart ho hid hnode hwell
    obtain ⟨v, hv, hplace⟩ := Forest.mem_reached_of_install _ ho
    -- the well at the same place is the same well
    obtain ⟨hvnode, _⟩ := hpart.node_of_mem_wells (Forest.reached_subset_wells _ hv)
    rw [hplace, hnode] at hvnode
    have hsame : v = w := Prod.ext hplace (Except.ok.inj hvnode).symm
    exact hnot (hsame ▸ hv)
  exact untouched_of_run hsep hnode Forest.activate_notMem_push hother

/-- Every well of the direction to which a push goes down is under a group control when it is over. -/
theorem run_push_underControl (hsep : s.Separate) {w : Nat × Node α} (mode : Mode)
    {onlyGroup : Bool} (hw : w ∈ (s.hierarchy.below id).reached mode.direction onlyGroup)
    (hkind : w.2.isKind mode.direction.wellKind = true) {shareGroup : Bool} {target : α → α}
    (hrun : (s.run ((s.hierarchy.below id).push s.hierarchy.phases mode onlyGroup shareGroup
      target)).2 = .ok ()) :
    ∃ c, (s.run ((s.hierarchy.below id).push s.hierarchy.phases mode onlyGroup shareGroup
      target)).1.UnderControl w.1 c := by
  rcases Forest.install_of_mem_reached (a := s.hierarchy.phases) hkind _ hw shareGroup target with
    ⟨c, hc⟩ | ⟨e, he⟩
  · exact ⟨c, run_install (hsep.on _) hc (s.hierarchy.push_below_nodup id _ _ _ _ _)
      Forest.activate_notMem_push hrun⟩
  · exact absurd he (refuse_notMem_of_run hrun e)

/-- A group shares out what is to be injected below it, by its own target or again what is produced.
    A well below it to which the target does not go down is left as it is, also when the call fails.
    It goes down to a well under individual control only below a child group that follows. There
    it takes hold of every injector when the call goes through, unless no guide rate is under group
    control. -/
theorem injects_untouched (hsep : s.Separate) (hn : s.hierarchy.node id = .ok n)
    (hg : n.isGroup = true) {c : Call α} (hc : c.Injects id n.specs.injection.mode)
    {w : Nat × Node α} (hw : w ∈ (s.hierarchy.below id).wells) :
    (w ∉ (s.hierarchy.below id).reached .injection true → s.Untouched (s.call c).1 w) ∧
    (w ∈ (s.hierarchy.below id).reached .injection true → w.2.individual = true →
      ∃ g ∈ (s.hierarchy.below id).siblings, g.2.isGroup = true ∧
        g.2.specs.injection.mode = .fld ∧ w ∈ (s.hierarchy.below g.1).wells) ∧
    (w ∈ (s.hierarchy.below id).reached .injection true → w.2.isInjector = true →
      (s.call c).2 = .ok () →
        Scalar.isZero ((s.hierarchy.below id).guideTotal .injection true 0) = false →
          ∃ control, (s.call c).1.UnderControl w.1 control) := by
  refine ⟨fun hnot => ?_, fun hreached hind => ?_, fun hreached hkind hok hguide => ?_⟩
  · rcases call_injects hn hg hc with ⟨e, he⟩ | ⟨_, hnone⟩ | ⟨mode, shareGroup, target, hpush⟩
    · rw [he]
      exact ⟨rfl, fun _ _ => rfl⟩
    · rw [hnone]
      exact ⟨rfl, fun _ _ => rfl⟩
    · rw [hpush]
      exact run_push_untouched hsep hw (.injection mode) hnot shareGroup target
  · obtain ⟨g, hgmem, hgroup, hmode, hbelow⟩ :=
      Forest.follower_of_mem_reached (s.hierarchy.below_isPart id) hreached hind
    exact ⟨g, hgmem, hgroup, Mode.injection.inj hmode, hbelow⟩
  · rcases call_injects hn hg hc with ⟨e, he⟩ | ⟨hzero, _⟩ | ⟨mode, shareGroup, target, hpush⟩
    · rw [he] at hok
      cases hok
    · rw [hguide] at hzero
      cases hzero
    · rw [hpush] at hok ⊢
      exact run_push_underControl hsep (.injection mode) hreached hkind hok

/-- An injector of its own and two injectors in a group that follows, one of them under group
    control. -/
def followerCalls : List (Call ℚ) := [
  .enrol "I1" .injector [.bhp 500],
  .enrol "I2" .injector [.bhp 500],
  .enrol "I3" .injector [.bhp 500],
  .addGroup "FIELD" none .one
    ⟨.default, { InjectionSpec.default with mode := .rate, surface := some 300 }⟩,
  .addWell "I1" (some 0) .one (.injector .default),
  .addGroup "EAST" (some 0) .one ⟨.default, { InjectionSpec.default with mode := .fld }⟩,
  .addWell "I2" (some 2) .one (.injector .default),
  .addWell "I3" (some 2) .one (.injector .default),
  .attach 1 0,
  .attach 3 1,
  .attach 4 2,
  .edit 4 (.individual false)]

/-- The site of these wells. -/
def followers : Site ℚ := (vacant ⟨true, true, false⟩).serve followerCalls

/-- The group above all of them. -/
def followersGroup : Node ℚ := followers.hierarchy.nodes.get ⟨0, by decide +kernel⟩

theorem node_followers : followers.hierarchy.node 0 = .ok followersGroup :=
  Hierarchy.node_eq_ok.mpr (List.getElem?_eq_getElem _)

/-- The injector of its own keeps its controls, and the one in the group that follows does not,
    although both are under individual control. -/
theorem injects_untouched_followers :
    followers.Separate ∧ (Call.shareInjection 0 : Call ℚ).Injects 0
        followersGroup.specs.injection.mode ∧
      (∃ w ∈ (followers.hierarchy.below 0).wells, w.1 = 1 ∧ w.2.individual = true ∧
        followers.Untouched (followers.call (.shareInjection 0)).1 w) ∧
      ∃ w ∈ (followers.hierarchy.below 0).wells, w.1 = 3 ∧ w.2.individual = true ∧
        ∃ control, (followers.call (.shareInjection 0)).1.UnderControl 3 control := by
  have hsep : followers.Separate := separate_of_nodup (by decide +kernel)
  have hinjects : (Call.shareInjection 0 : Call ℚ).Injects 0
      followersGroup.specs.injection.mode := ⟨rfl, Or.inl (by decide +kernel)⟩
  have hall := fun w hw => injects_untouched hsep node_followers (by decide +kernel) hinjects
    (w := w) hw
  obtain ⟨first, hfirst, hplace, hind⟩ : ∃ w ∈ (followers.hierarchy.below 0).wells,
      w.1 = 1 ∧ w.2.individual = true := by decide +kernel
  obtain ⟨second, hsecond, hplace', hind', hkind⟩ : ∃ w ∈ (followers.hierarchy.below 0).reached
      .injection true, w.1 = 3 ∧ w.2.individual = true ∧ w.2.isInjector = true := by decide +kernel
  have hmem := Forest.reached_subset_wells _ hsecond
  refine ⟨hsep, hinjects, ⟨first, hfirst, hplace, hind, (hall first hfirst).1 ?_⟩, second, hmem,
    hplace', hind', ?_⟩
  · have hothers : ∀ w ∈ (followers.hierarchy.below 0).reached .injection true, w.1 ≠ 1 := by
      decide +kernel
    exact fun hreached => hothers first hreached hplace
  · rw [← hplace']
    exact (hall second hmem).2.2 hsecond hkind (by decide +kernel) (by decide +kernel)

/-- So an injector under individual control need not keep its controls. -/
theorem not_forall_injects_untouched :
    ¬ ∀ (phases : ActivePhases) (calls : List (Call ℚ)) (id : Nat) (n : Node ℚ) (c : Call ℚ)
      (w : Nat × Node ℚ),
      let s := (vacant phases).serve calls
      s.Separate → s.hierarchy.node id = .ok n → n.isGroup = true →
      c.Injects id n.specs.injection.mode → w ∈ (s.hierarchy.below id).wells →
      w.2.isInjector = true → w.2.individual = true → s.Untouched (s.call c).1 w := by
  intro hall
  obtain ⟨w, hw, hplace, hind, hkind⟩ : ∃ w ∈ (followers.hierarchy.below 0).wells,
      w.1 = 3 ∧ w.2.individual = true ∧ w.2.isInjector = true := by decide +kernel
  obtain ⟨hnode, _⟩ := hall _ followerCalls 0 followersGroup (.shareInjection 0) w
    (separate_of_nodup (by decide +kernel)) node_followers (by decide +kernel)
    ⟨rfl, Or.inl (by decide +kernel)⟩ hw hkind hind
  have hflag : ((followers.call (.shareInjection 0)).1.hierarchy.node 3).map (·.individual)
      ≠ (followers.hierarchy.node 3).map (·.individual) := by decide +kernel
  rw [hplace] at hnode
  exact hflag (congrArg (Except.map (·.individual)) hnode)

end Site

end ReservoirWells
