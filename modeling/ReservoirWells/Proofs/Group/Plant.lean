import ReservoirWells.Group.Plant
import ReservoirWells.Proofs.Group.Network

/-! # Plant — orders given one by one, and the steps that they amount to

    A plant is a site that keeps the children of every node in lists.  Orders change neither the
    lists nor the outline, so a plant is known by its site while orders are carried out
    (`Plant.run_orders`), and a consistent plant stays consistent.

    Steps carry a list of orders when they end as the orders do, given one after the other from the
    same plant (`Plant.Carries`): with the same plant, and with the same error if there is one.  The
    steps may read what earlier steps have left, the orders were all decided beforehand; what makes
    them agree is that the orders so far were not about the nodes that are read next
    (`Plant.Reaches.after`). -/

namespace ReservoirWells

variable {α : Type} [Scalar α]

/-! ## Forests of which the same is read -/

namespace Forest

/-- Forests that agree up to a rewriting are equal when the hierarchies that they are parts of have
    the same nodes there. -/
theorem eq_of_map {g : Node α → Node α} {h h' : Hierarchy α} {f f' : Forest α}
    (hsame : f'.map g = f.map g) (hf : f.IsPart h) (hf' : f'.IsPart h')
    (hnodes : ∀ j ∈ f.postorder, h'.node j = h.node j) : f' = f := by
  induction f generalizing f' with
  | nil => cases f' <;> cases hsame; rfl
  | well id n next ih =>
      cases f' with
      | nil => cases hsame
      | group id' n' below' next' => cases hsame
      | well id' n' next' =>
          obtain ⟨rfl, _, hnext⟩ := Forest.well.inj hsame
          have hn := hnodes id' (List.mem_cons_self ..)
          rw [hf.1, hf'.1] at hn
          rw [Except.ok.inj hn, ih hnext hf.2.2 hf'.2.2 fun j hj =>
            hnodes j (List.mem_cons_of_mem _ hj)]
  | group id n below next ihb ihn =>
      cases f' with
      | nil => cases hsame
      | well id' n' next' => cases hsame
      | group id' n' below' next' =>
          obtain ⟨rfl, _, hbelow, hnext⟩ := Forest.group.inj hsame
          obtain ⟨hn, _, _, hb, hx⟩ := hf
          obtain ⟨hn', _, _, hb', hx'⟩ := hf'
          have hself := hnodes id' (List.mem_append_right _ (List.mem_cons_self ..))
          rw [hn, hn'] at hself
          rw [Except.ok.inj hself,
            ihb hbelow hb hb' fun j hj => hnodes j (List.mem_append_left _ hj),
            ihn hnext hx hx' fun j hj =>
              hnodes j (List.mem_append_right _ (List.mem_cons_of_mem _ hj))]

/-- A forest is a part of every hierarchy with the same outline that has its nodes. -/
theorem IsPart.of_nodes {h h' : Hierarchy α} {f : Forest α} (hf : f.IsPart h)
    (hlasting : h'.nodes.map Node.lasting = h.nodes.map Node.lasting)
    (hnodes : ∀ j ∈ f.postorder, h'.node j = h.node j) : f.IsPart h' := by
  induction f with
  | nil => exact True.intro
  | well id n next ih =>
      obtain ⟨hn, hwell, hnext⟩ := hf
      exact ⟨(hnodes id (List.mem_cons_self ..)).trans hn, hwell,
        ih hnext fun j hj => hnodes j (List.mem_cons_of_mem _ hj)⟩
  | group id n below next ihb ihn =>
      obtain ⟨hn, hgroup, rfl, hbelow, hnext⟩ := hf
      have hunder : ∀ j ∈ (h.below id).postorder, h'.node j = h.node j := fun j hj =>
        hnodes j (List.mem_append_left _ hj)
      have heq : h'.below id = h.below id :=
        eq_of_map (Hierarchy.below_eq_of_map (g := Node.lasting) (fun _ => rfl)
          Node.lasting_isGroup hlasting id) hbelow (h'.below_isPart id) hunder
      exact ⟨(hnodes id (List.mem_append_right _ (List.mem_cons_self ..))).trans hn, hgroup,
        heq.symm, ihb hbelow hunder, ihn hnext fun j hj =>
          hnodes j (List.mem_append_right _ (List.mem_cons_of_mem _ hj))⟩

end Forest

namespace Plant

variable {p p' : Plant α}

/-! ## The site of a plant -/

theorem zipWith_lists (w : Network α) :
    w.hierarchy.nodes.zipWith Member.mk w.lists = w.members := by
  rw [Network.hierarchy, Network.lists, List.zipWith_map, List.zipWith_self]
  exact List.map_id w.members

/-- A plant is known by its site and its lists. -/
theorem ext_site (hsite : p'.site = p.site) (hlists : p'.network.lists = p.network.lists) :
    p' = p := by
  obtain ⟨w', wells'⟩ := p'
  obtain ⟨w, wells⟩ := p
  obtain ⟨hhierarchy, rfl⟩ := Site.mk.inj hsite
  have hphases : w'.phases = w.phases := congrArg Hierarchy.phases hhierarchy
  have hmembers : w'.members = w.members := by
    rw [← zipWith_lists w', ← zipWith_lists w]
    exact congrArg₂ (List.zipWith Member.mk) (congrArg Hierarchy.nodes hhierarchy) hlists
  cases w'
  cases w
  cases hphases
  cases hmembers
  rfl

section WithSite

variable {s : Site α} (h : s.hierarchy.nodes.length = p.network.members.length)

include h

theorem site_withSite : (p.withSite s).site = s := by
  have hnodes : (p.withSite s).network.hierarchy.nodes = s.hierarchy.nodes := by
    rw [withSite, Network.hierarchy, List.map_zipWith]
    refine List.ext_getElem ?_ fun i _ _ => by rw [List.getElem_zipWith]
    rw [List.length_zipWith, h, Nat.min_self]
  show Site.mk ⟨s.hierarchy.phases, (p.withSite s).network.hierarchy.nodes⟩ s.wells = s
  rw [hnodes]

theorem lists_withSite : (p.withSite s).network.lists = p.network.lists := by
  rw [withSite, Network.lists, Network.lists, List.map_zipWith]
  refine List.ext_getElem ?_ fun i _ _ => by rw [List.getElem_zipWith, List.getElem_map]
  rw [List.length_zipWith, h, Nat.min_self, List.length_map]

end WithSite

theorem length_site (p : Plant α) :
    p.site.hierarchy.nodes.length = p.network.members.length :=
  p.network.length_nodes

@[simp] theorem withSite_site (p : Plant α) : p.withSite p.site = p :=
  ext_site (site_withSite p.length_site) (lists_withSite p.length_site)

theorem site_modifyNode (p : Plant α) (id : Nat) (f : Node α → Node α) :
    site { p with network := p.network.modifyNode id f }
      = { p.site with hierarchy := p.site.hierarchy.modify id f } := by
  rw [site, Network.hierarchy_modifyNode]
  rfl

theorem withSite_withSite {s t : Site α} (hs : s.hierarchy.nodes.length = p.network.members.length)
    (ht : t.hierarchy.nodes.length = p.network.members.length) :
    (p.withSite s).withSite t = p.withSite t := by
  have hlength : (p.withSite s).network.members.length = p.network.members.length := by
    rw [← length_site, site_withSite hs, hs]
  refine ext_site ?_ ?_
  · rw [site_withSite (ht.trans hlength.symm), site_withSite ht]
  · rw [lists_withSite (ht.trans hlength.symm), lists_withSite hs, lists_withSite ht]

/-! ## Runs of orders -/

theorem run_order (o : Order α) (p : Plant α) :
    (order o).run p = match p.site.obey o with
      | .ok s => .ok () (p.withSite s)
      | .error e => .error e p := rfl

/-- A run does not change how many nodes there are. -/
theorem length_run (s : Site α) (l : List (Order α)) :
    (s.run l).1.hierarchy.nodes.length = s.hierarchy.nodes.length := by
  have hlasting := congrArg List.length (s.run_lasting l).1
  rwa [List.length_map, List.length_map] at hlasting

/-- Orders given one after the other are a run of the site. -/
theorem run_orders (l : List (Order α)) (p : Plant α) :
    (l.forM order).run p = match p.site.run l with
      | (s, .ok ()) => .ok () (p.withSite s)
      | (s, .error e) => .error e (p.withSite s) := by
  induction l generalizing p with
  | nil =>
      show EStateM.Result.ok () p = .ok () (p.withSite p.site)
      rw [withSite_site]
  | cons o rest ih =>
      show ((order o >>= fun _ => rest.forM order) : Steps (Plant α) Unit).run p = _
      rw [EStateM.run_bind, run_order, Site.run]
      cases ho : p.site.obey o with
      | error e => simp only [withSite_site]
      | ok s =>
          have hs : s.hierarchy.nodes.length = p.network.members.length := by
            have hlasting := congrArg List.length (Site.obey_lasting ho).1
            rwa [List.length_map, List.length_map, length_site] at hlasting
          have hrun := (length_run s rest).trans hs
          dsimp only
          rw [ih, site_withSite hs]
          generalize s.run rest = done at hrun ⊢
          obtain ⟨t, _ | ⟨⟩⟩ := done
          · exact congrArg (EStateM.Result.error _) (withSite_withSite hs hrun)
          · exact congrArg (EStateM.Result.ok ()) (withSite_withSite hs hrun)

/-- What orders lead to, if they can be carried out. -/
theorem site_of_orders {l : List (Order α)} (h : (l.forM order).run p = .ok () p') :
    p.site.run l = (p'.site, .ok ()) ∧ p'.network.lists = p.network.lists := by
  have hlength := (length_run p.site l).trans p.length_site
  rw [run_orders] at h
  generalize p.site.run l = done at h hlength ⊢
  obtain ⟨s, e | ⟨⟩⟩ := done
  · cases h
  · cases h
    exact ⟨by rw [site_withSite hlength], lists_withSite hlength⟩

/-! ## Steps that carry orders -/

/-- The steps do what the orders do, given one after the other. -/
def Carries (p : Plant α) (steps : Steps (Plant α) Unit) (l : List (Order α)) : Prop :=
  steps.run p = (l.forM order).run p

theorem carries_orders (p : Plant α) (l : List (Order α)) : p.Carries (l.forM order) l := rfl

theorem carries_throw (p : Plant α) (e : GroupError) : p.Carries (throw e) [.refuse e] := rfl

theorem carries_order (p : Plant α) (o : Order α) : p.Carries (order o) [o] := by
  show (order o).run p = ((order o >>= fun _ => pure ()) : Steps (Plant α) Unit).run p
  rw [bind_pure_unit]

/-- A reading changes nothing before what it is for. -/
theorem run_read {β γ : Type} {x : Steps (Plant α) β} {b : β} (hx : x.run p = .ok b p)
    (f : β → Steps (Plant α) γ) : (x >>= f).run p = (f b).run p := by
  rw [EStateM.run_bind, hx]

theorem Carries.read {β : Type} {x : Steps (Plant α) β} {f : β → Steps (Plant α) Unit}
    {l : List (Order α)} {b : β} (hx : x.run p = .ok b p) (h : p.Carries (f b) l) :
    p.Carries (x >>= f) l :=
  (run_read hx f).trans h

/-- A reading that fails ends the steps. -/
theorem run_read_error {β γ : Type} {x : Steps (Plant α) β} {e : GroupError}
    (hx : x.run p = .error e p) (f : β → Steps (Plant α) γ) : (x >>= f).run p = .error e p := by
  rw [EStateM.run_bind, hx]

/-- In a list of orders it is one that is refused. -/
theorem Carries.refuse {β : Type} {x : Steps (Plant α) β} {e : GroupError}
    (hx : x.run p = .error e p) (f : β → Steps (Plant α) Unit) :
    p.Carries (x >>= f) [.refuse e] :=
  run_read_error hx f

/-- A loop over one node is the steps for it. -/
theorem Carries.of_single {id : Nat} {steps : Nat → Steps (Plant α) Unit} {l : List (Order α)}
    (h : p.Carries ([id].forM steps) l) : p.Carries (steps id) l := by
  have hsingle : [id].forM steps = (steps id >>= fun _ => pure ()) := rfl
  rw [hsingle, bind_pure_unit] at h
  exact h

/-- Later steps carry later orders if they do so from wherever the earlier orders lead. -/
theorem Carries.append {x y : Steps (Plant α) Unit} {l l' : List (Order α)} (hx : p.Carries x l)
    (hy : ∀ p', (l.forM order).run p = .ok () p' → p'.Carries y l') :
    p.Carries (x >>= fun _ => y) (l ++ l') := by
  have happend : (l ++ l').forM order = (l.forM order >>= fun _ => l'.forM order) :=
    List.forM_append
  rw [Carries, happend, EStateM.run_bind, EStateM.run_bind, hx]
  cases hrun : (l.forM order).run p with
  | error e p' => rfl
  | ok u p' => exact hy p' hrun

/-- The steps do what the orders of a plan do, or they fail as the plan does. -/
def Follows (p : Plant α) (steps : Steps (Plant α) Unit) :
    Except GroupError (List (Order α)) → Prop
  | .ok l => p.Carries steps l
  | .error e => steps.run p = .error e p

theorem Follows.read {β : Type} {x : Steps (Plant α) β} {f : β → Steps (Plant α) Unit}
    {plan : Except GroupError (List (Order α))} {b : β} (hx : x.run p = .ok b p)
    (h : p.Follows (f b) plan) : p.Follows (x >>= f) plan := by
  cases plan with
  | ok l => exact Carries.read hx h
  | error e => exact (run_read hx f).trans h

/-- What is asked on the way to a plan may be asked by the steps. -/
theorem Follows.bind {β : Type} {value : Plant α → Except GroupError β} {x : Except GroupError β}
    {f : β → Steps (Plant α) Unit} {g : β → Except GroupError (List (Order α))} (hx : value p = x)
    (h : ∀ b, x = .ok b → p.Follows (f b) (g b)) : p.Follows (Steps.ask value >>= f) (x >>= g) := by
  have hask := Steps.run_ask value p
  rw [hx] at hask
  cases x with
  | error e => exact run_read_error hask f
  | ok b => exact .read hask (h b rfl)

theorem Follows.map {β : Type} {value : Plant α → Except GroupError β} {x : Except GroupError β}
    {f : β → Steps (Plant α) Unit} {g : β → List (Order α)} (hx : value p = x)
    (h : ∀ b, x = .ok b → p.Carries (f b) (g b)) :
    p.Follows (Steps.ask value >>= f) (x.map g) := by
  have hbind : x.map g = x >>= fun b => .ok (g b) := by cases x <;> rfl
  rw [hbind]
  exact .bind hx h

/-- A plant whose site was changed. -/
def took {β : Type} (p : Plant α) (r : Site.Result α β) : Plant α × Except GroupError β :=
  (p.withSite r.1, r.2)

/-- An operation that follows a plan changes the plant as the plan changes its site. -/
theorem Follows.perform {operation : Nat → Steps (Plant α) Unit}
    {plan : Except GroupError (List (Order α))}
    (h : p.Follows (operation (p.network.members.length + 1)) plan) :
    p.perform operation = p.took (p.site.follow plan) := by
  rw [Plant.perform]
  cases plan with
  | error e =>
      rw [show _ = EStateM.Result.error e p from h, Site.follow, took, withSite_site]
      rfl
  | ok l =>
      rw [show _ = (l.forM order).run p from h, run_orders, Site.follow]
      generalize p.site.run l = done
      obtain ⟨t, _ | ⟨⟩⟩ := done <;> rfl

/-! ## What is read on the way down -/

/-- A walk down the lists of a plant, as deep as that, reaches everything in a forest. -/
structure Reaches (p : Plant α) (depth : Nat) (f : Forest α) : Prop where
  consistent : p.network.Consistent
  isPart : f.IsPart p.site.hierarchy
  deep : ∀ j ∈ f.postorder, p.network.members.length < depth + j

/-- Orders about other nodes change nothing that is read in a forest. -/
theorem Reaches.after {f : Forest α} {depth : Nat} (h : p.Reaches depth f) {l : List (Order α)}
    (hl : ∀ j ∈ l.filterMap Order.subject?, j ∉ f.postorder)
    (hrun : (l.forM order).run p = .ok () p') :
    p'.Reaches depth f ∧ p'.network.phases = p.network.phases := by
  obtain ⟨hsite, hlists⟩ := site_of_orders hrun
  have hlasting := p.site.run_lasting l
  have hlength := length_run p.site l
  have hnodes : ∀ j ∈ f.postorder, (p.site.run l).1.hierarchy.node j = p.site.hierarchy.node j :=
    fun j hj => Site.run_node_of_notMem fun o ho hs => hl j (List.mem_filterMap.mpr ⟨o, ho, hs⟩) hj
  rw [hsite] at hlasting hnodes hlength
  rw [length_site, length_site] at hlength
  refine ⟨⟨h.consistent.of_outline hlists (Site.outline_of_lasting hlasting.1),
    h.isPart.of_nodes hlasting.1 hnodes, ?_⟩, hlasting.2⟩
  rw [hlength]
  exact h.deep

section Reads

variable {f : Forest α} {depth id : Nat} {n : Node α} {below next : Forest α}

theorem Reaches.well_self (h : p.Reaches depth (.well id n next)) :
    p.Reaches depth (.well id n .nil) :=
  ⟨h.consistent, ⟨h.isPart.1, h.isPart.2.1, True.intro⟩, fun j hj => h.deep j <|
    List.mem_cons.mpr ((List.mem_cons.mp hj).imp_right fun hnil => by cases hnil)⟩

theorem Reaches.well_next (h : p.Reaches depth (.well id n next)) : p.Reaches depth next :=
  ⟨h.consistent, h.isPart.2.2, fun j hj => h.deep j (List.mem_cons_of_mem _ hj)⟩

theorem Reaches.group_self (h : p.Reaches depth (.group id n below next)) :
    p.Reaches depth (.group id n below .nil) := by
  obtain ⟨hn, hgroup, hbelow, hpart, _⟩ := h.isPart
  refine ⟨h.consistent, ⟨hn, hgroup, hbelow, hpart, True.intro⟩, fun j hj => h.deep j ?_⟩
  rw [Forest.postorder, List.append_cons]
  exact List.mem_append_left _ hj

theorem Reaches.group_next (h : p.Reaches depth (.group id n below next)) :
    p.Reaches depth next :=
  ⟨h.consistent, h.isPart.2.2.2.2, fun j hj =>
    h.deep j (List.mem_append_right _ (List.mem_cons_of_mem _ hj))⟩

/-- What is below a group comes after it, so one step less is enough there. -/
theorem Reaches.group_below (h : p.Reaches (depth + 1) (.group id n below next)) :
    p.Reaches depth below := by
  obtain ⟨_, _, hbelow, hpart, _⟩ := h.isPart
  refine ⟨h.consistent, hpart, fun j hj => ?_⟩
  have hid := h.deep id (List.mem_append_right _ (List.mem_cons_self ..))
  rw [hbelow] at hj
  have hlt := Hierarchy.lt_of_mem_below hj
  omega

/-- A walk that reaches a node has a step left. -/
theorem Reaches.exists_succ (h : p.Reaches depth f) (hid : id ∈ f.postorder)
    (hn : p.site.hierarchy.node id = .ok n) : ∃ d, depth = d + 1 := by
  obtain ⟨m, hm, _⟩ := Network.member_of_node hn
  have hlt := Network.lt_length_of_member hm
  have hdeep := h.deep id hid
  exact Nat.exists_eq_succ_of_ne_zero (by omega)

theorem run_node (hn : p.site.hierarchy.node id = .ok n) : (node id).run p = .ok n p := by
  obtain ⟨m, hm, rfl⟩ := Network.member_of_node hn
  rw [node, Steps.run_ask, hm]
  rfl

theorem run_node_error {e : GroupError} (hn : p.site.hierarchy.node id = .error e) :
    (node id).run p = .error e p := by
  rw [node, Steps.run_ask, Network.member_of_error hn]
  rfl

theorem run_children_error {e : GroupError} (hn : p.site.hierarchy.node id = .error e) :
    (children id).run p = .error e p := by
  rw [children, Steps.run_ask, Network.member_of_error hn]
  rfl

theorem run_children (hw : p.network.Consistent) (hn : p.site.hierarchy.node id = .ok n) :
    (children id).run p = .ok ((p.site.hierarchy.below id).siblings.map (·.1)) p := by
  obtain ⟨m, hm, rfl⟩ := Network.member_of_node hn
  rw [children, Steps.run_ask, hm]
  exact congrArg (EStateM.Result.ok · p) (hw.children_eq hm)

theorem run_guideRate_well (hw : p.network.Consistent) (hn : p.site.hierarchy.node id = .ok n)
    (hwell : n.isGroup = false) (d : Direction) (onlyGroup : Bool) :
    (guideRate d id onlyGroup).run p = .ok (n.share d onlyGroup) p := by
  rw [guideRate, Steps.run_ask, hw.guideRate_eq,
    Hierarchy.guideRate_well (h := p.network.hierarchy) hn hwell]

theorem run_guideRate_group (hw : p.network.Consistent) (hn : p.site.hierarchy.node id = .ok n)
    (hgroup : n.isGroup = true) (d : Direction) (onlyGroup : Bool) :
    (guideRate d id onlyGroup).run p
      = .ok ((p.site.hierarchy.below id).guideTotal d onlyGroup 0) p := by
  rw [guideRate, Steps.run_ask, hw.guideRate_eq,
    Hierarchy.guideRate_group (h := p.network.hierarchy) hn hgroup]
  rfl

end Reads

end Plant

end ReservoirWells
