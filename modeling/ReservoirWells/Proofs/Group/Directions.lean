import ReservoirWells.Proofs.Exact
import ReservoirWells.Proofs.Group.Installed
import ReservoirWells.Proofs.Group.Repetition
import ReservoirWells.Proofs.Group.Tree

/-! # Directions — production and injection are shared out apart from each other

    An operation that shares targets out works in one direction and starts from one node
    (`Call.shares?`).  Its orders stay in the subtree of that node and suit the direction
    (`Order.Within`): groups follow in the direction, wells of the direction take a group control or
    are marked as up to date, and nothing is asked of any other node.  A run of such orders is
    looked at from one node at a time, since what other orders do does not concern it:

    * `Hierarchy.IsUnder` — the subtree of a node, by the way up;
    * `Site.plan_within` — the orders of every sharing are within its direction and its subtree;
    * `Site.run_follows`, `Site.run_eases` — what becomes of a group, and of a well;
    * `Site.run_seat` — what becomes of a well together with its entry;
    * `Site.call_confined` — so a sharing leaves alone whatever belongs to the other direction or
      lies outside the subtree, also when it fails half-way. -/

namespace ReservoirWells

variable {α : Type} [Scalar α]

/-! ## Subtrees by the way up -/

namespace Hierarchy

variable {h : Hierarchy α} {id : Nat}

/-- A node lies in the subtree of `id`: the way up from it leads there. -/
def IsUnder (h : Hierarchy α) (id j : Nat) : Prop := Relation.ReflTransGen h.IsChild j id

/-- A node has one parent at most. -/
theorem isChild_unique (h : Hierarchy α) : Relator.RightUnique h.IsChild := by
  intro j p q hp hq
  obtain ⟨n, hn, hp⟩ := hp
  obtain ⟨m, hm, hq⟩ := hq
  rw [hn] at hm
  cases hm
  exact Option.some.inj (hp.symm.trans hq)

/-- What is unfolded below a node lies under it. -/
theorem isUnder_of_mem_below {j : Nat} (hj : j ∈ (h.below id).postorder) : h.IsUnder id j := by
  -- the parent of a place is the owner, or an earlier place of the same forest
  induction j using Nat.strongRecOn with
  | ind j ih =>
      obtain ⟨_, n, hn, howner | ⟨k, hk, hlt, hp⟩⟩ :=
        parent_of_mem_ofNodes h _ (some id) (id + 1) rfl j hj
      · exact .single ⟨n, node_eq_ok.mpr hn, howner⟩
      · exact .head ⟨n, node_eq_ok.mpr hn, hp⟩ (ih k hlt hk)

/-- So is the whole subtree. -/
theorem isUnder_of_mem_subtree {f : Forest α} (hf : h.subtree id = .ok f) {j : Nat}
    (hj : j ∈ f.postorder) : h.IsUnder id j := by
  cases hn : h.node id with
  | error e => rw [subtree_error hn] at hf; cases hf
  | ok n =>
      cases hg : n.isGroup with
      | true =>
          rw [subtree_group hn hg] at hf
          cases hf
          rcases List.mem_append.mp hj with hbelow | hself
          · exact isUnder_of_mem_below hbelow
          · rw [List.mem_singleton.mp hself]
            exact .refl
      | false =>
          rw [subtree_well hn hg] at hf
          cases hf
          rw [List.mem_singleton.mp hj]
          exact .refl

end Hierarchy

/-- The place of a group is a place of the forest. -/
theorem Forest.mem_postorder_of_mem_groups {f : Forest α} {g : Nat × Node α} (hg : g ∈ f.groups) :
    g.1 ∈ f.postorder := by
  induction f with
  | nil => cases hg
  | well id n next ih => exact List.mem_cons_of_mem _ (ih hg)
  | group id n below next ihb ihn =>
      rcases List.mem_cons.mp hg with hself | hrest
      · rw [hself]
        exact List.mem_append.mpr (Or.inr (List.mem_cons_self ..))
      · rcases List.mem_append.mp hrest with hbelow | hnext
        · exact List.mem_append.mpr (Or.inl (ihb hbelow))
        · exact List.mem_append.mpr (Or.inr (List.mem_cons_of_mem _ (ihn hnext)))

/-! ## Sharings and their orders -/

/-- The direction in which a call shares targets out, and the node it starts from. -/
def Call.shares? : Call α → Option (Direction × Nat)
  | .push id mode _ _ => some (mode.direction, id)
  | .shareProduction id => some (.production, id)
  | .refreshProduction id _ => some (.production, id)
  | .shareInjection id => some (.injection, id)
  | .reinject id _ => some (.injection, id)
  | .refreshInjection id => some (.injection, id)
  | _ => none

/-- The order stays in the subtree of `id` and suits a direction: a well of the direction takes a
    control or is marked, or a group follows. -/
def Order.Within (h : Hierarchy α) (d : Direction) (id : Nat) : Order α → Prop
  | .install j _ => h.IsUnder id j ∧ ∃ n, h.node j = .ok n ∧ n.isKind d.wellKind = true
  | .refresh j => h.IsUnder id j ∧ ∃ n, h.node j = .ok n ∧ n.isKind d.wellKind = true
  | .adopt j mode =>
    mode = d.following ∧ h.IsUnder id j ∧ ∃ n, h.node j = .ok n ∧ n.isGroup = true
  | .refuse _ => True
  | .activate _ _ => False
  | .withdraw _ => False

namespace Forest

variable {h : Hierarchy α} {id : Nat} {a : ActivePhases} {f : Forest α}

theorem push_within {mode : Mode} (hf : f.IsPart h) (hunder : ∀ j ∈ f.postorder, h.IsUnder id j)
    {onlyGroup shareGroup : Bool} {target : α → α} :
    ∀ o ∈ f.push a mode onlyGroup shareGroup target, o.Within h mode.direction id := by
  intro o ho
  rcases f.mem_push ho with ⟨g, hg, _, heq⟩ | ⟨w, hw, hkind, _, ⟨c, _, heq⟩ | ⟨e, _, heq⟩⟩
  · rw [heq]
    exact ⟨rfl, hunder _ (mem_postorder_of_mem_groups hg), g.2, hf.node_of_mem_groups hg⟩
  · rw [heq]
    exact ⟨hunder _ (mem_postorder_of_mem_wells hw), w.2, (hf.node_of_mem_wells hw).1, hkind⟩
  · rw [heq]
    exact True.intro

/-- The places below a group and after it are places of the forest. -/
theorem under_of_group {j : Nat} {n : Node α} {below next : Forest α}
    (hunder : ∀ k ∈ (Forest.group j n below next).postorder, h.IsUnder id k) :
    (∀ k ∈ below.postorder, h.IsUnder id k) ∧ ∀ k ∈ next.postorder, h.IsUnder id k :=
  ⟨fun k hk => hunder k (List.mem_append.mpr (Or.inl hk)),
    fun k hk => hunder k (List.mem_append.mpr (Or.inr (List.mem_cons_of_mem _ hk)))⟩

theorem ownProduction_within (hf : f.IsPart h) (hunder : ∀ j ∈ f.postorder, h.IsUnder id j) :
    ∀ o ∈ f.ownProduction a, o.Within h .production id := by
  induction f with
  | nil => intro o ho; cases ho
  | well j n next ih => exact ih hf.2.2 fun k hk => hunder k (List.mem_cons_of_mem _ hk)
  | group j n below next ihb ihn =>
      obtain ⟨_, _, _, hpart, hnext⟩ := hf
      obtain ⟨hbelow, hafter⟩ := under_of_group hunder
      intro o ho
      rw [ownProduction] at ho
      rcases List.mem_append.mp ho with hown | hrest
      · split at hown
        · split at hown
          · exact push_within hpart hbelow o hown
          · rw [List.mem_singleton.mp hown]
            exact True.intro
        · split at hown
          · exact ihb hpart hbelow o hown
          · rw [List.mem_singleton.mp hown]
            exact True.intro
      · exact ihn hnext hafter o hrest

theorem ownInjection_within (hf : f.IsPart h) (hunder : ∀ j ∈ f.postorder, h.IsUnder id j) :
    ∀ o ∈ f.ownInjection a, o.Within h .injection id := by
  induction f with
  | nil => intro o ho; cases ho
  | well j n next ih => exact ih hf.2.2 fun k hk => hunder k (List.mem_cons_of_mem _ hk)
  | group j n below next ihb ihn =>
      obtain ⟨_, _, _, hpart, hnext⟩ := hf
      obtain ⟨hbelow, hafter⟩ := under_of_group hunder
      intro o ho
      rw [ownInjection] at ho
      rcases List.mem_append.mp ho with hown | hrest
      · cases hm : n.specs.injection.mode with
        | rate | resv =>
            -- a target of its own is pushed down, or there is none
            rw [hm] at hown
            dsimp only at hown
            split at hown
            · exact push_within hpart hbelow o hown
            · rw [List.mem_singleton.mp hown]
              exact True.intro
        | rein | vrep =>
            rw [hm] at hown
            cases hown
        | fld | none =>
            rw [hm] at hown
            exact ihb hpart hbelow o hown
        | _ =>
            rw [hm] at hown
            rw [List.mem_singleton.mp hown]
            exact True.intro
      · exact ihn hnext hafter o hrest

end Forest

namespace Hierarchy

variable {h : Hierarchy α} {id : Nat} {l : List (Order α)}

theorem reinjectionPlan_within {rates : RateTable α} (hl : h.reinjectionPlan id rates = .ok l) :
    ∀ o ∈ l, o.Within h .injection id := by
  intro o ho
  obtain ⟨n, _, hl⟩ := bind_eq_ok.mp hl
  split at hl
  · cases hl
    cases ho
  · obtain ⟨found, _, hl⟩ := bind_eq_ok.mp hl
    cases found with
    | none =>
        cases hl
        cases ho
    | some found =>
        cases hl
        rw [Forest.inject] at ho
        split at ho
        · cases ho
        · exact Forest.push_within (h.below_isPart id) (fun _ => isUnder_of_mem_below) o ho

theorem isUnder_of_mem_siblings {c : Nat × Node α} (hc : c ∈ (h.below id).siblings) :
    h.IsUnder id c.1 ∧ h.node c.1 = .ok c.2 := by
  obtain ⟨_, hn, hp⟩ := mem_siblings_below.mp hc
  exact ⟨.single ⟨c.2, hn, hp⟩, hn⟩

theorem refreshPlan_within {flows : List α} (hl : h.refreshPlan id flows = .ok l) :
    ∀ o ∈ l, o.Within h .production id := by
  intro o ho
  obtain ⟨n, _, hl⟩ := bind_eq_ok.mp hl
  split at hl
  · cases hl
    cases ho
  · obtain ⟨⟨mode, target⟩, _, hl⟩ := bind_eq_ok.mp hl
    obtain ⟨taken, _, hl⟩ := bind_eq_ok.mp hl
    dsimp only at hl
    split at hl
    · cases hl
      cases ho
    · cases hl
      obtain ⟨c, hc, ho⟩ := List.mem_flatMap.mp ho
      obtain ⟨hunder, hn⟩ := isUnder_of_mem_siblings hc
      split at ho
      · cases ho
      · next hskip =>
          have hkind : c.2.isKind .producer = true := by
            cases hp : c.2.isProducer with
            | true => exact hp
            | false => rw [hp, Bool.not_false, Bool.or_true] at hskip; exact absurd rfl hskip
          rcases List.mem_append.mp ho with htake | hmark
          · obtain ⟨_, ⟨_, _, heq⟩ | ⟨e, _, heq⟩⟩ := Node.mem_take htake
            · rw [heq]
              exact ⟨hunder, c.2, hn, hkind⟩
            · rw [heq]
              exact True.intro
          · rw [List.mem_singleton.mp hmark]
            exact ⟨hunder, c.2, hn, hkind⟩

end Hierarchy

namespace Site

variable {s t : Site α} {d : Direction} {id : Nat}

/-- The orders of a sharing stay in the subtree that it starts from and suit its direction. -/
theorem plan_within {c : Call α} (hc : c.shares? = some (d, id)) {l : List (Order α)}
    (hl : s.plan c = .ok l) : ∀ o ∈ l, o.Within s.hierarchy d id := by
  have hsubtree : ∀ {make : Forest α → List (Order α)},
      (s.hierarchy.subtree id).map make = .ok l →
      (∀ f : Forest α, f.IsPart s.hierarchy → (∀ j ∈ f.postorder, s.hierarchy.IsUnder id j) →
        ∀ o ∈ make f, o.Within s.hierarchy d id) →
      ∀ o ∈ l, o.Within s.hierarchy d id := by
    intro make hl hmake
    cases hf : s.hierarchy.subtree id with
    | error e => rw [hf] at hl; cases hl
    | ok f =>
        rw [hf] at hl
        cases hl
        exact hmake f (Hierarchy.subtree_isPart hf) fun _ => Hierarchy.isUnder_of_mem_subtree hf
  cases c with
  | push j mode target onlyGroup =>
      cases hc
      exact hsubtree hl fun f hf hunder => Forest.push_within hf hunder
  | shareProduction j =>
      cases hc
      exact hsubtree hl fun f hf hunder => Forest.ownProduction_within hf hunder
  | shareInjection j =>
      cases hc
      exact hsubtree hl fun f hf hunder => Forest.ownInjection_within hf hunder
  | reinject j rates =>
      cases hc
      exact Hierarchy.reinjectionPlan_within hl
  | refreshProduction j flows =>
      cases hc
      exact Hierarchy.refreshPlan_within hl
  | refreshInjection j =>
      cases hc
      cases hn : s.hierarchy.node id with
      | error e => rw [plan, hn] at hl; cases hl
      | ok n =>
          rw [plan, hn] at hl
          cases hl
          intro o ho
          dsimp only at ho
          split at ho
          · cases ho
          · obtain ⟨c, hc, ho⟩ := List.mem_flatMap.mp ho
            obtain ⟨hunder, hnode⟩ := Hierarchy.isUnder_of_mem_siblings hc
            split at ho
            · next hmarks =>
                rw [List.mem_singleton.mp ho]
                exact ⟨hunder, c.2, hnode, (Bool.and_eq_true_iff.mp hmarks).2⟩
            · cases ho
  | _ => cases hc

end Site

/-! ## Runs as a group sees them -/

namespace Site

variable {s t : Site α} {id : Nat} {n : Node α} {l : List (Order α)}

/-- A group of which nothing is asked but to take a mode takes it, or stays as it is. -/
theorem run_follows {mode : Mode} (hn : s.hierarchy.node id = .ok n)
    (hl : ∀ o ∈ l, o.subject? = some id → o = .adopt id mode) :
    (s.run l).1.hierarchy.node id = .ok n ∨
      (s.run l).1.hierarchy.node id = .ok (n.adopt mode) := by
  induction l generalizing s n with
  | nil => exact Or.inl hn
  | cons o rest ih =>
      have hrest := fun o' ho' => hl o' (List.mem_cons_of_mem o ho')
      rw [run]
      cases ho : s.obey o with
      | error e => exact Or.inl hn
      | ok t =>
          by_cases hself : o.subject? = some id
          · rw [hl o (List.mem_cons_self ..) hself] at ho
            cases ho
            have hadopted := Hierarchy.node_modify_self hn (·.adopt mode)
            rcases ih (s := s.adopted id mode) hadopted hrest with hsame | hagain
            · exact Or.inr hsame
            · rw [n.adopt_adopt] at hagain
              exact Or.inr hagain
          · exact ih ((obey_node_of_ne ho hself).trans hn) hrest

end Site

/-! ## Runs as a well sees them -/

/-- A node differs from what it was in its group slot at most, except that it may have left
    individual control or be up to date now. -/
structure Node.Eases (n m : Node α) : Prop where
  lasting : m.lasting = n.lasting
  specs : m.specs = n.specs
  individual : m.individual = n.individual ∨ m.individual = false
  outdated : m.outdated = n.outdated ∨ m.outdated = false

namespace Node

theorem Eases.refl (n : Node α) : n.Eases n := ⟨rfl, rfl, Or.inl rfl, Or.inl rfl⟩

theorem Eases.trans {n m k : Node α} (hnm : n.Eases m) (hmk : m.Eases k) : n.Eases k where
  lasting := hmk.lasting.trans hnm.lasting
  specs := hmk.specs.trans hnm.specs
  individual := by
    rcases hmk.individual with hsame | hfree
    · rw [hsame]
      exact hnm.individual
    · exact Or.inr hfree
  outdated := by
    rcases hmk.outdated with hsame | hfresh
    · rw [hsame]
      exact hnm.outdated
    · exact Or.inr hfresh

theorem eases_grouped (n : Node α) (slot : Nat) : n.Eases (n.grouped slot) where
  lasting := n.lasting_grouped slot
  specs := n.specs_grouped slot
  individual := Or.inr rfl
  outdated := by
    cases hr : n.role with
    | group => simp [grouped, withSlot, modifyLink, hr]
    | well link => simp [grouped, withSlot, modifyLink, hr]

theorem eases_refresh (n : Node α) : n.Eases (n.edit (.outdated false)) :=
  ⟨rfl, rfl, Or.inl rfl, Or.inr rfl⟩

end Node

/-- The order about a well hands it a group control or marks it. -/
def Order.Serves (id : Nat) (o : Order α) : Prop := (∃ c, o = .install id c) ∨ o = .refresh id

namespace Site

variable {s t : Site α} {id : Nat} {n : Node α} {l : List (Order α)}

/-- A well that is only handed group controls and marked is eased. -/
theorem run_eases (hn : s.hierarchy.node id = .ok n)
    (hl : ∀ o ∈ l, o.subject? = some id → o.Serves id) :
    ∃ m, (s.run l).1.hierarchy.node id = .ok m ∧ n.Eases m := by
  induction l generalizing s n with
  | nil => exact ⟨n, hn, .refl n⟩
  | cons o rest ih =>
      have hrest := fun o' ho' => hl o' (List.mem_cons_of_mem o ho')
      rw [run]
      cases ho : s.obey o with
      | error e => exact ⟨n, hn, .refl n⟩
      | ok t =>
          have hstep : ∃ m, t.hierarchy.node id = .ok m ∧ n.Eases m := by
            by_cases hself : o.subject? = some id
            · rcases hl o (List.mem_cons_self ..) hself with ⟨c, heq⟩ | heq
              · rw [heq] at ho
                obtain ⟨n', _, w, hn', _, _, _, hgrouped, _⟩ := lookup_of_install ho
                rw [hn] at hn'
                cases hn'
                exact ⟨_, hgrouped, n.eases_grouped _⟩
              · rw [heq] at ho
                cases ho
                exact ⟨_, Hierarchy.node_modify_self hn _, n.eases_refresh⟩
            · exact ⟨n, (obey_node_of_ne ho hself).trans hn, .refl n⟩
          obtain ⟨m, hm, hnm⟩ := hstep
          obtain ⟨k, hk, hmk⟩ := ih hm hrest
          exact ⟨k, hk, hnm.trans hmk⟩

/-- A well that is marked in a run, and otherwise only handed group controls, is up to date. -/
theorem run_refresh (hn : s.hierarchy.node id = .ok n)
    (hl : ∀ o ∈ l, o.subject? = some id → o.Serves id) (hmem : .refresh id ∈ l)
    (hrun : (s.run l).2 = .ok ()) :
    ∃ m, (s.run l).1.hierarchy.node id = .ok m ∧ m.outdated = false := by
  obtain ⟨front, back, rfl⟩ := List.append_of_mem hmem
  have hfront : (s.run front).2 = .ok () :=
    run_ok_iff.mpr fun o ho => run_ok_iff.mp hrun o (List.mem_append.mpr (Or.inl ho))
  obtain ⟨k, hk, _⟩ := run_eases hn fun o ho => hl o (List.mem_append.mpr (Or.inl ho))
  rw [run_append_of_ok hfront]
  generalize (s.run front).1 = t at hk ⊢
  obtain ⟨m, hm, heases⟩ := run_eases (l := back)
    (s := { t with hierarchy := t.hierarchy.modify id (·.edit (.outdated false)) })
    (Hierarchy.node_modify_self hk _)
    fun o ho => hl o (List.mem_append.mpr (Or.inr (List.mem_cons_of_mem _ ho)))
  exact ⟨m, hm, heases.outdated.elim (fun h => h) fun h => h⟩

/-- A well and its entry are as they were, or a group control was put into its place in the entry
    and the well knows that place. -/
def Seat (n m : Node α) (w v : Well α) : Prop :=
  (m.groupSlot? = n.groupSlot? ∧ v = w) ∨
    ∃ c, m.groupSlot? = some (w.controls.place n.groupSlot?) ∧
      v = { w with controls := w.controls.put n.groupSlot? c }

/-- A second group control goes to the place of the first one. -/
theorem Seat.trans {n m k : Node α} {w v u : Well α} (hnm : Seat n m w v) (hmk : Seat m k v u) :
    Seat n k w u := by
  rcases hnm with ⟨hslot, rfl⟩ | ⟨c, hslot, rfl⟩
  · rw [Seat, hslot] at hmk
    exact hmk
  · rcases hmk with ⟨hslot', hsame⟩ | ⟨c', hslot', hput⟩
    · exact Or.inr ⟨c, hslot'.trans hslot, hsame⟩
    · rw [hslot] at hslot' hput
      rw [ControlList.place_put] at hslot'
      rw [ControlList.put_put] at hput
      exact Or.inr ⟨c', hslot', hput⟩

/-- A well with an entry of its own that is only handed group controls and marked finds at most a
    group control in its place of that entry. -/
theorem run_seat (hsep : s.Separate) {index : Nat} {w : Well α} (hn : s.hierarchy.node id = .ok n)
    (hi : n.tableIndex = .ok index) (hw : s.wells.well index = .ok w)
    (hl : ∀ o ∈ l, o.subject? = some id → o.Serves id)
    (hactivate : ∀ i place, Order.activate i place ∉ l) :
    ∃ m v, (s.run l).1.hierarchy.node id = .ok m ∧ (s.run l).1.wells.well index = .ok v ∧
      Seat n m w v := by
  induction l generalizing s n w with
  | nil => exact ⟨n, w, hn, hw, Or.inl ⟨rfl, rfl⟩⟩
  | cons o rest ih =>
      have hrest := fun o' ho' => hl o' (List.mem_cons_of_mem o ho')
      rw [run]
      cases ho : s.obey o with
      | error e => exact ⟨n, w, hn, hw, Or.inl ⟨rfl, rfl⟩⟩
      | ok t =>
          have hstep : ∃ m v, t.hierarchy.node id = .ok m ∧ m.tableIndex = .ok index ∧
              t.wells.well index = .ok v ∧ Seat n m w v := by
            by_cases hself : o.subject? = some id
            · rcases hl o (List.mem_cons_self ..) hself with ⟨c, heq⟩ | heq
              · rw [heq] at ho
                obtain ⟨n', index', w', hn', hi', hw', _, hgrouped, hput⟩ := lookup_of_install ho
                rw [hn] at hn'
                cases hn'
                rw [hi] at hi'
                cases hi'
                rw [hw] at hw'
                cases hw'
                refine ⟨_, _, hgrouped, ?_, hput, Or.inr ⟨c, Node.groupSlot?_grouped hi _, rfl⟩⟩
                exact (Node.tableIndex_of_lasting (n.lasting_grouped _)).trans hi
              · rw [heq] at ho
                cases ho
                exact ⟨_, w, Hierarchy.node_modify_self hn _, hi, hw, Or.inl ⟨rfl, rfl⟩⟩
            · refine ⟨n, w, (obey_node_of_ne ho hself).trans hn, hi, ?_, Or.inl ⟨rfl, rfl⟩⟩
              rw [obey_well_of_not_touches ho]
              · exact hw
              · -- an order that takes hold of the entry is about the well, which has it for itself
                intro htouch
                rcases htouch.subject with ⟨j, hj, hattached⟩ | ⟨place, heq⟩
                · exact hself (hsep j id index hattached ⟨n, hn, hi⟩ ▸ hj)
                · exact hactivate index place (heq ▸ List.mem_cons_self ..)
          obtain ⟨m, v, hm, him, hv, hseat⟩ := hstep
          have hsep' := hsep.of_attachedTo (obey_attachedTo ho)
          obtain ⟨k, u, hk, hu, hseat'⟩ := ih hsep' hm him hv hrest
            fun i place hmem => hactivate i place (List.mem_cons_of_mem o hmem)
          exact ⟨k, u, hk, hu, hseat.trans hseat'⟩

/-! ## What a sharing may change -/

/-- What a sharing in a direction, starting from a node, may change of a site. -/
structure Confined (d : Direction) (id : Nat) (s t : Site α) : Prop where
  phases : t.hierarchy.phases = s.hierarchy.phases
  places : t.hierarchy.nodes.length = s.hierarchy.nodes.length
  entries : t.wells.length = s.wells.length
  /-- No node outside the subtree changes. -/
  outside : ∀ j, ¬ s.hierarchy.IsUnder id j → t.hierarchy.node j = s.hierarchy.node j
  /-- A group changes its mode in the direction at most, and then it follows. -/
  groups : ∀ j n, s.hierarchy.node j = .ok n → n.isGroup = true →
    t.hierarchy.node j = .ok n ∨ t.hierarchy.node j = .ok (n.adopt d.following)
  /-- An attached well of the direction changes its group slot and its flags at most. -/
  wells : ∀ j n, s.hierarchy.node j = .ok n → n.isKind d.wellKind = true →
    ∃ m, t.hierarchy.node j = .ok m ∧ n.Eases m
  /-- Wells of the other direction and wells that are not attached do not change. -/
  bystanders : ∀ j n, s.hierarchy.node j = .ok n → n.isGroup = false →
    n.isKind d.wellKind = false → t.hierarchy.node j = .ok n
  /-- An entry changes only if a well of the direction in the subtree is attached to it, and then a
      control stands in the place of the group control and is active; nothing else is different. -/
  table : ∀ index w, s.wells.well index = .ok w → t.wells.well index = .ok w ∨
    ∃ j n m v, s.hierarchy.IsUnder id j ∧ s.hierarchy.node j = .ok n ∧ n.tableIndex = .ok index ∧
      n.isKind d.wellKind = true ∧ t.hierarchy.node j = .ok m ∧ t.wells.well index = .ok v ∧
      m.groupSlot? = some (w.controls.place n.groupSlot?) ∧
      v.name = w.name ∧ v.kind = w.kind ∧ v.controls.isOpen = w.controls.isOpen ∧
      v.controls.current = w.controls.place n.groupSlot? ∧
      ∀ k, k ≠ w.controls.place n.groupSlot? →
        v.controls.controls[k]? = w.controls.controls[k]?

end Site

section Within

variable {h : Hierarchy α} {d : Direction} {id j : Nat} {n : Node α} {o : Order α}

/-- An order about a node is about one of the subtree: it lets a group follow, or it serves a well
    of the direction. -/
theorem Order.Within.of_subject (ho : o.Within h d id) (hj : o.subject? = some j) :
    h.IsUnder id j ∧
      ((o = .adopt j d.following ∧ ∃ n, h.node j = .ok n ∧ n.isGroup = true) ∨
        (o.Serves j ∧ ∃ n, h.node j = .ok n ∧ n.isKind d.wellKind = true)) := by
  cases o with
  | install i c =>
      cases hj
      exact ⟨ho.1, Or.inr ⟨Or.inl ⟨c, rfl⟩, ho.2⟩⟩
  | refresh i =>
      cases hj
      exact ⟨ho.1, Or.inr ⟨Or.inr rfl, ho.2⟩⟩
  | adopt i mode =>
      cases hj
      obtain ⟨hmode, hunder, hgroup⟩ := ho
      rw [hmode]
      exact ⟨hunder, Or.inl ⟨rfl, hgroup⟩⟩
  | refuse e => cases hj
  | activate i place => cases hj
  | withdraw i => exact False.elim ho

/-- An order about a group lets it follow. -/
theorem Order.Within.follows (ho : o.Within h d id) (hj : o.subject? = some j)
    (hn : h.node j = .ok n) (hg : n.isGroup = true) : o = .adopt j d.following := by
  rcases (ho.of_subject hj).2 with ⟨heq, _⟩ | ⟨_, m, hm, hkind⟩
  · exact heq
  · rw [hn] at hm
    cases hm
    rw [Node.isGroup_of_isKind hkind] at hg
    cases hg

/-- An order about a well serves it, and the well is one of the direction. -/
theorem Order.Within.serves (ho : o.Within h d id) (hj : o.subject? = some j)
    (hn : h.node j = .ok n) (hg : n.isGroup = false) :
    o.Serves j ∧ n.isKind d.wellKind = true := by
  rcases (ho.of_subject hj).2 with ⟨_, m, hm, hgroup⟩ | ⟨hserves, m, hm, hkind⟩
  · rw [hn] at hm
    cases hm
    rw [hg] at hgroup
    cases hgroup
  · rw [hn] at hm
    cases hm
    exact ⟨hserves, hkind⟩

end Within

namespace Site

variable {s t : Site α} {d : Direction} {id : Nat}

/-- A run of orders within a direction and a subtree is confined to them, however far it comes. -/
theorem run_confined (hsep : s.Separate) {l : List (Order α)}
    (hl : ∀ o ∈ l, o.Within s.hierarchy d id) : s.Confined d id (s.run l).1 := by
  have hactivate : ∀ i place, Order.activate i place ∉ l := fun i place hmem => hl _ hmem
  have hlength : (s.run l).1.hierarchy.nodes.length = s.hierarchy.nodes.length := by
    have hmap := congrArg List.length (s.run_lasting l).1
    rwa [List.length_map, List.length_map] at hmap
  have hserves : ∀ {j n}, s.hierarchy.node j = .ok n → n.isGroup = false →
      ∀ o ∈ l, o.subject? = some j → o.Serves j ∧ n.isKind d.wellKind = true :=
    fun hn hg o ho hj => (hl o ho).serves hj hn hg
  refine ⟨(s.run_lasting l).2, hlength, s.run_wells_length l, ?_, ?_, ?_, ?_, ?_⟩
  · intro j hj
    exact run_node_of_notMem fun o ho hsubject => hj ((hl o ho).of_subject hsubject).1
  · intro j n hn hg
    exact run_follows hn fun o ho hj => (hl o ho).follows hj hn hg
  · intro j n hn hkind
    exact run_eases hn fun o ho hj => (hserves hn (Node.isGroup_of_isKind hkind) o ho hj).1
  · intro j n hn hg hkind
    refine (run_node_of_notMem fun o ho hj => ?_).trans hn
    rw [(hserves hn hg o ho hj).2] at hkind
    cases hkind
  · intro index w hw
    by_cases htouched : ∃ o ∈ l, o.Touches s index
    · obtain ⟨o, ho, htouch⟩ := htouched
      rcases htouch.subject with ⟨j, hj, n, hn, hi⟩ | ⟨place, heq⟩
      · have hg : n.isGroup = false := by
          obtain ⟨link, hlink⟩ := Node.link?_of_tableIndex hi
          rw [Node.isGroup, hlink]
          rfl
        obtain ⟨m, v, hm, hv, ⟨_, rfl⟩ | ⟨c, hslot, rfl⟩⟩ := run_seat hsep hn hi hw
          (fun o' ho' hj' => (hserves hn hg o' ho' hj').1) hactivate
        · exact Or.inl hv
        · refine Or.inr ⟨j, n, m, _, ((hl o ho).of_subject hj).1, hn, hi,
            (hserves hn hg o ho hj).2, hm, hv, hslot, rfl, rfl, w.controls.put_isOpen _ c,
            w.controls.put_current _ c, fun k hk => ?_⟩
          rw [ControlList.put_controls_getElem?, if_neg hk]
      · exact (hactivate index place (heq ▸ ho)).elim
    · refine Or.inl ((run_well_of_notMem fun o ho htouch => ?_).trans hw)
      exact htouched ⟨o, ho, htouch⟩

/-- A site that nothing was done to is confined in every way. -/
theorem Confined.refl (hsep : s.Separate) (d : Direction) (id : Nat) : s.Confined d id s :=
  run_confined (l := []) hsep fun _ ho => absurd ho List.not_mem_nil

/-- A call that shares targets out in a direction changes nothing outside the subtree that it starts
    from and nothing that belongs to the other direction, whether it goes through or fails half-way:
    groups only come to follow, wells of the direction only change their group slots, leave
    individual control and become up to date, and their entries only change at the group control. -/
theorem call_confined (hsep : s.Separate) {c : Call α} (hc : c.shares? = some (d, id)) :
    s.Confined d id (s.call c).1 := by
  have hop : c.operates = true := by
    cases c <;> first | rfl | cases hc
  rw [s.call_eq_follow hop]
  cases hl : s.plan c with
  | error e => exact Confined.refl hsep d id
  | ok l => exact run_confined hsep (plan_within hc hl)

/-- A field whose second producer has lost its entry, since a shorter table is used by now. -/
def cutCalls : List (Call ℚ) := [
  .addGroup "FIELD" none .one (.producer { ProductionSpec.default with mode := .orat }),
  .addGroup "NORTH" (some 0) .one (.producer { ProductionSpec.default with mode := .orat }),
  .addWell "P1" (some 1) .one (.producer .default),
  .addWell "P2" (some 0) .one (.producer .default),
  .enrol "P1" .producer [.bhp 100],
  .enrol "P2" .producer [.bhp 100],
  .attach 2 0,
  .attach 3 1,
  .useTable [.ofControls "P1" .producer [.bhp 100]]]

/-- An oil target fails at the second producer; by then the group above the first one follows. -/
theorem call_confined_cutCalls :
    let s := (vacant ⟨true, true, false⟩).serve cutCalls
    let c : Call ℚ := .push 0 (.production .orat) 60 false
    s.Separate ∧ c.shares? = some (.production, 0) ∧ (s.call c).2 = .error (.unknownWell 1) ∧
      ((s.call c).1.hierarchy.node 1).map (·.specs.production.mode) = .ok .fld ∧
      s.Confined .production 0 (s.call c).1 := by
  intro s c
  have hsep : s.Separate := separate_of_nodup (by decide +kernel)
  exact ⟨hsep, rfl, by decide +kernel, by decide +kernel, call_confined hsep rfl⟩

end Site

end ReservoirWells
