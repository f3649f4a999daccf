import ReservoirWells.Proofs.Group.Calls
import ReservoirWells.Proofs.Group.Correction

/-! # Knowledge — a node that is there is always found

    A hierarchy fails with `GroupError.unknownNode` when it is asked for a place that it does not
    have.  Operations take one place from the caller and find all others by themselves, going down
    to children and up to the parent.  Where the parents are there too, an operation on a node of the
    hierarchy never fails that way (`Site.call_known`), however else it may fail.

    * `Known` — the computation does not fail with an unknown node, whatever else it comes to;
    * `Order.Known` — the order is about a node of the site, and is no refusal of an unknown one;
    * `Site.run_known` — a run of such orders does not come upon an unknown node. -/

namespace ReservoirWells

variable {α : Type} [Scalar α]

/-- The computation does not fail with an unknown node. -/
structure Known {β : Type} (x : Except GroupError β) : Prop where
  ne_unknownNode : ∀ id, x ≠ .error (.unknownNode id)

section Steps

variable {β γ : Type} {x : Except GroupError β}

theorem known_ok (b : β) : Known (.ok b) := by
  constructor
  intro id h
  cases h

theorem known_error {e : GroupError} (he : ∀ id, e ≠ .unknownNode id) :
    Known (.error e : Except GroupError β) := by
  constructor
  intro id h
  exact he id (Except.error.inj h)

theorem Known.of_error {e : GroupError} (h : Known (.error e : Except GroupError β)) (id : Nat) :
    e ≠ .unknownNode id := by
  intro he
  exact h.ne_unknownNode id (congrArg Except.error he)

/-- Two steps are known when each of them is. -/
theorem Known.bind {f : β → Except GroupError γ} (hx : Known x)
    (hf : ∀ b, x = .ok b → Known (f b)) : Known (x >>= f) := by
  cases x with
  | error e => exact known_error hx.of_error
  | ok b => exact hf b rfl

theorem Known.map (hx : Known x) (f : β → γ) : Known (x.map f) := by
  cases x with
  | error e => exact known_error hx.of_error
  | ok b => exact known_ok (f b)

theorem known_mapM {f : β → Except GroupError γ} {l : List β} (h : ∀ b ∈ l, Known (f b)) :
    Known (l.mapM f) := by
  induction l with
  | nil => exact known_ok []
  | cons b rest ih =>
      rw [List.mapM_cons]
      refine (h b (List.mem_cons_self ..)).bind fun c _ => ?_
      exact (ih fun d hd => h d (List.mem_cons_of_mem b hd)).bind fun cs _ => known_ok (c :: cs)

theorem known_foldlM {f : γ → β → Except GroupError γ} {l : List β}
    (h : ∀ b ∈ l, ∀ c, Known (f c b)) (c : γ) : Known (l.foldlM f c) := by
  induction l generalizing c with
  | nil => exact known_ok c
  | cons b rest ih =>
      rw [List.foldlM_cons]
      refine (h b (List.mem_cons_self ..) c).bind fun d _ => ?_
      exact ih (fun b' hb' => h b' (List.mem_cons_of_mem b hb')) d

theorem known_findSomeM? {f : β → Except GroupError (Option γ)} {l : List β}
    (h : ∀ b ∈ l, Known (f b)) : Known (l.findSomeM? f) := by
  induction l with
  | nil => exact known_ok none
  | cons b rest ih =>
      rw [List.findSomeM?_cons]
      refine (h b (List.mem_cons_self ..)).bind fun found _ => ?_
      cases found with
      | some c => exact known_ok (some c)
      | none => exact ih fun d hd => h d (List.mem_cons_of_mem b hd)

end Steps

/-! ## Rates, targets and controls -/

omit [Scalar α] in
theorem Rates.slice_known (rates : List α) (kind : RateKind) (start count : Nat) :
    Known (slice rates kind start count) := by
  rw [slice]
  split
  · exact known_ok _
  · exact known_error fun id h => by cases h

omit [Scalar α] in
theorem Rates.entry_known (rates : List α) (kind : RateKind) (place : Nat) :
    Known (entry rates kind place) := by
  rw [entry]
  split
  · exact known_ok _
  · exact known_error fun id h => by cases h

omit [Scalar α] in
theorem RateTable.blocks_known (r : RateTable α) (well phases : Nat) :
    Known (r.blocks well phases) := by
  refine (Rates.slice_known ..).bind fun _ _ => ?_
  exact (Rates.slice_known ..).bind fun _ _ => known_ok _

omit [Scalar α] in
theorem WellTable.well_known (t : WellTable α) (index : Nat) : Known (t.well index) := by
  rw [well]
  split
  · exact known_ok _
  · exact known_error fun id h => by cases h

namespace ActivePhases

variable (a : ActivePhases)

theorem position_known (p : Phase) : Known (a.position p) := by
  rw [position]
  split
  · exact known_ok _
  · exact known_error fun id h => by cases h

omit [Scalar α] in
theorem surfaceRate_known (surface : List α) (p : Phase) : Known (a.surfaceRate surface p) :=
  (a.position_known p).bind fun _ _ => Rates.entry_known ..

theorem sumActive_known (rates : List α) (kind : RateKind) : Known (a.sumActive rates kind) :=
  (Rates.slice_known ..).map _

theorem rate_known (reservoir surface : List α) (mode : Mode) :
    Known (a.rate reservoir surface mode) := by
  unfold rate
  split
  · exact a.sumActive_known _ _
  · exact a.sumActive_known _ _
  · exact a.sumActive_known _ _
  · split
    · exact (known_mapM fun p _ => a.surfaceRate_known surface p).map _
    · exact known_error fun id h => by cases h
  · exact known_error fun id h => by cases h

theorem weights_known (phases : List Phase) : Known (a.weights phases : Except _ (Triple α)) :=
  known_foldlM (fun p _ _ => (a.position_known p).map _) _

end ActivePhases

theorem groupControl_known (a : ActivePhases) (mode : Mode) (target : α) :
    Known (groupControl a mode target) := by
  unfold groupControl
  split
  · exact known_ok _
  · exact known_ok _
  · exact known_ok _
  · split
    · exact (a.weights_known _).map _
    · exact known_error fun id h => by cases h
  · exact known_error fun id h => by cases h

namespace Node

variable (n : Node α)

theorem tableIndex_known : Known n.tableIndex := by
  rw [tableIndex]
  split
  · exact known_ok _
  · exact known_error fun id h => by cases h

theorem target_known (mode : Mode) : Known (n.target mode) := by
  rw [target]
  split
  · exact known_ok _
  · exact known_error fun id h => by cases h

theorem producedAt_known (phases place : Nat) (flows : List α) :
    Known (n.producedAt phases place flows) := by
  rw [producedAt]
  split
  · exact known_ok _
  · exact n.tableIndex_known.bind fun _ _ => Rates.entry_known ..

theorem produced_known (a : ActivePhases) (flows : List α) (p : Phase) :
    Known (n.produced a flows p) :=
  (a.position_known p).bind fun _ _ => n.producedAt_known ..

theorem productionRate_known (a : ActivePhases) (flows : List α) (mode : ProductionMode) :
    Known (n.productionRate a flows mode) := by
  rw [productionRate]
  split
  · exact known_error fun id h => by cases h
  · split
    · exact (known_mapM fun p _ => n.produced_known a flows p).map _
    · exact known_error fun id h => by cases h

theorem magnitude_known (a : ActivePhases) (rates : RateTable α) (mode : ProductionMode) :
    Known (n.magnitude a rates mode) := by
  refine n.tableIndex_known.bind fun _ _ => ?_
  refine (RateTable.blocks_known ..).bind fun _ _ => ?_
  exact (a.rate_known ..).bind fun _ _ => known_ok _

end Node

namespace Forest

theorem producedAt_known (phases place : Nat) (flows : List α) (f : Forest α) (sum : α) :
    Known (f.producedAt phases place flows sum) := by
  induction f generalizing sum with
  | nil => exact known_ok sum
  | well id n next ih => exact (n.producedAt_known ..).bind fun own _ => ih (sum + own)
  | group id n below next ihb ihn => exact (ihb 0).bind fun own _ => ihn (sum + own)

theorem produced_known (f : Forest α) (a : ActivePhases) (flows : List α) (p : Phase) :
    Known (f.produced a flows p) :=
  (a.position_known p).bind fun _ _ => f.producedAt_known ..

theorem worst_known (a : ActivePhases) (rates : RateTable α) (mode : ProductionMode)
    (f : Forest α) (best : Option (Nat × α)) : Known (f.worst a rates mode best) := by
  induction f generalizing best with
  | nil => exact known_ok best
  | well id n next ih => exact (n.magnitude_known ..).bind fun _ _ => ih _
  | group id n below next ihb ihn => exact (ihb none).bind fun _ _ => ihn _

end Forest

/-! ## Orders -/

/-- The order is about a node of the site, and does not refuse an unknown node. -/
def Order.Known (s : Site α) : Order α → Prop
  | .install id _ => ∃ n, s.hierarchy.node id = .ok n
  | .withdraw id => ∃ n, s.hierarchy.node id = .ok n
  | .refuse e => ∀ id, e ≠ .unknownNode id
  | _ => True

namespace Site

variable {s : Site α}

/-- Such an order does not come upon an unknown node. -/
theorem obey_known {o : Order α} (ho : o.Known s) : Known (s.obey o) := by
  cases o with
  | install id c =>
      obtain ⟨n, hn⟩ := ho
      rw [obey, install, hn]
      refine n.tableIndex_known.bind fun index _ => ?_
      exact (WellTable.well_known ..).bind fun _ _ => known_ok _
  | withdraw id =>
      obtain ⟨n, hn⟩ := ho
      rw [obey, withdraw, hn]
      refine n.tableIndex_known.bind fun index _ => ?_
      cases n.link? with
      | none => exact known_ok s
      | some link =>
          refine (WellTable.well_known ..).bind fun w _ => ?_
          split
          · exact known_ok _
          · exact known_ok _
  | refuse e => exact known_error ho
  | _ => exact known_ok _

/-- Nodes stay where they are. -/
theorem obey_exists_node {t : Site α} {o : Order α} (ho : s.obey o = .ok t) {id : Nat}
    (h : ∃ n, s.hierarchy.node id = .ok n) : ∃ n, t.hierarchy.node id = .ok n := by
  obtain ⟨n, hn⟩ := h
  have hnode := Hierarchy.node_eq_of_map (obey_lasting ho).1 id
  cases hm : t.hierarchy.node id with
  | ok m => exact ⟨m, rfl⟩
  | error e => rw [hm, hn] at hnode; cases hnode

/-- A run of such orders does not come upon an unknown node. -/
theorem run_known {l : List (Order α)} (h : ∀ o ∈ l, o.Known s) : Known (s.run l).2 := by
  induction l generalizing s with
  | nil => exact known_ok ()
  | cons o rest ih =>
      rw [run]
      cases ho : s.obey o with
      | error e =>
          have hknown := obey_known (h o (List.mem_cons_self ..))
          rw [ho] at hknown
          exact known_error hknown.of_error
      | ok t =>
          -- the nodes that the later orders are about are still there
          refine ih fun o' ho' => ?_
          have hknown := h o' (List.mem_cons_of_mem o ho')
          cases o' with
          | install id c => exact obey_exists_node ho hknown
          | withdraw id => exact obey_exists_node ho hknown
          | refuse e => exact hknown
          | _ => exact True.intro

/-- The plan does not stumble over an unknown node, neither while it is made nor when it is followed. -/
structure KnownPlan (s : Site α) (plan : Except GroupError (List (Order α))) : Prop where
  made : Known plan
  orders : ∀ l, plan = .ok l → ∀ o ∈ l, o.Known s

theorem knownPlan_ok {l : List (Order α)} (h : ∀ o ∈ l, o.Known s) : s.KnownPlan (.ok l) := by
  refine ⟨known_ok l, fun l' hl' => ?_⟩
  cases hl'
  exact h

theorem knownPlan_bind {β : Type} {x : Except GroupError β}
    {plan : β → Except GroupError (List (Order α))} (hx : Known x)
    (h : ∀ b, x = .ok b → s.KnownPlan (plan b)) : s.KnownPlan (x >>= plan) := by
  refine ⟨hx.bind fun b hb => (h b hb).made, fun l hl => ?_⟩
  obtain ⟨b, hb, hplan⟩ := bind_eq_ok.mp hl
  exact (h b hb).orders l hplan

theorem KnownPlan.follow {plan : Except GroupError (List (Order α))} (h : s.KnownPlan plan) :
    Known (s.follow plan).2 := by
  cases plan with
  | ok l => exact run_known (h.orders l rfl)
  | error e => exact known_error h.made.of_error

end Site

/-! ## Plans -/

namespace Forest

variable {s : Site α} {f : Forest α}

/-- The orders of a push are about nodes of the forest. -/
theorem push_known (hf : f.IsPart s.hierarchy) {a : ActivePhases} {mode : Mode}
    {onlyGroup shareGroup : Bool} {target : α → α} :
    ∀ o ∈ f.push a mode onlyGroup shareGroup target, o.Known s := by
  intro o ho
  rcases f.mem_push ho with ⟨_, _, _, rfl⟩ | ⟨w, hw, _, t, ⟨c, _, rfl⟩ | ⟨e, he, rfl⟩⟩
  · exact True.intro
  · exact ⟨w.2, (hf.node_of_mem_wells hw).1⟩
  · exact (he ▸ groupControl_known a mode t).of_error

theorem ownTarget_known (n : Node α) (divisor : α) (mode : Mode) :
    Known (ownTarget n divisor mode) := by
  rw [ownTarget]
  split
  · exact known_error fun id h => by cases h
  · cases ht : n.target mode with
    | error e => exact known_error (ht ▸ n.target_known mode).of_error
    | ok found =>
        cases found with
        | none => exact known_error fun id h => by cases h
        | some target => exact known_ok target

theorem ownProduction_known {a : ActivePhases} (hf : f.IsPart s.hierarchy) :
    ∀ o ∈ f.ownProduction a, o.Known s := by
  induction f with
  | nil => intro o ho; cases ho
  | well id n next ih => exact ih hf.2.2
  | group id n below next ihb ihn =>
      obtain ⟨_, _, _, hpart, hnext⟩ := hf
      intro o ho
      rw [ownProduction] at ho
      rcases List.mem_append.mp ho with hown | hrest
      · split at hown
        · split at hown
          · exact push_known hpart o hown
          · rename_i e he
            rw [List.mem_singleton.mp hown]
            exact (he ▸ ownTarget_known ..).of_error
        · split at hown
          · exact ihb hpart o hown
          · rw [List.mem_singleton.mp hown]
            intro id h
            cases h
      · exact ihn hnext o hrest

theorem ownInjection_known {a : ActivePhases} (hf : f.IsPart s.hierarchy) :
    ∀ o ∈ f.ownInjection a, o.Known s := by
  induction f with
  | nil => intro o ho; cases ho
  | well id n next ih => exact ih hf.2.2
  | group id n below next ihb ihn =>
      obtain ⟨_, _, _, hpart, hnext⟩ := hf
      have hrefuse : ∀ {m e}, ownTarget n (below.guideTotal .injection false 0) m = .error e →
          ∀ o ∈ [Order.refuse e], o.Known s := by
        intro m e he o ho
        rw [List.mem_singleton.mp ho]
        exact (he ▸ ownTarget_known ..).of_error
      intro o ho
      rw [ownInjection] at ho
      rcases List.mem_append.mp ho with hown | hrest
      · cases hm : n.specs.injection.mode with
        | rate | resv =>
            -- a target of its own is pushed down, or there is none
            rw [hm] at hown
            dsimp only at hown
            split at hown
            · exact push_known hpart o hown
            · next he => exact hrefuse he o hown
        | rein | vrep =>
            rw [hm] at hown
            cases hown
        | fld | none =>
            rw [hm] at hown
            exact ihb hpart o hown
        | _ =>
            rw [hm] at hown
            rw [List.mem_singleton.mp hown]
            intro id h
            cases h
      · exact ihn hnext o hrest

theorem inject_known (hf : f.IsPart s.hierarchy) {a : ActivePhases} {mode : InjectionMode}
    {volume fraction : α} : ∀ o ∈ f.inject a mode volume fraction, o.Known s := by
  intro o ho
  rw [inject] at ho
  split at ho
  · cases ho
  · exact push_known hf o ho

end Forest

namespace Hierarchy

/-- The parent of every node is in the hierarchy. -/
def HasParents (h : Hierarchy α) : Prop :=
  ∀ id n, h.node id = .ok n → ∀ p, n.parent = some p → ∃ g, h.node p = .ok g

variable {h : Hierarchy α} {n : Node α}

theorem replacement?_known (below : Forest α) (rates : RateTable α) :
    Known (h.replacement? n below rates) := by
  unfold replacement?
  dsimp only
  split
  · exact (below.produced_known ..).bind fun _ _ => known_ok _
  · refine (known_mapM fun p _ => below.produced_known h.phases rates.reservoir p).bind fun _ _ => ?_
    exact known_ok _
  · exact known_ok none

theorem definedTarget_known (mode : Mode) : Known (definedTarget n mode) := by
  refine (n.target_known mode).bind fun found _ => ?_
  cases found with
  | some target => exact known_ok target
  | none => exact known_error fun id h => by cases h

/-- A group finds its refresh target, or another error, when its parent is there. -/
theorem refreshTarget_known (hparent : ∀ p, n.parent = some p → ∃ g, h.node p = .ok g) :
    Known (h.refreshTarget n) := by
  rw [refreshTarget]
  split
  · cases hp : n.parent with
    | none => exact known_error fun id h => by cases h
    | some p =>
        obtain ⟨g, hg⟩ := hparent p hp
        show Known (h.node p >>= _)
        rw [hg]
        exact (definedTarget_known _).bind fun _ _ => known_ok _
  · split
    · exact (definedTarget_known _).map _
    · exact known_error fun id h => by cases h

theorem individualRate_known (mode : ProductionMode) (flows : List α) (l : List (Nat × Node α)) :
    Known (h.individualRate mode flows l) := by
  rw [individualRate]
  refine known_foldlM ?_ 0
  rintro ⟨_, m⟩ _ sum
  dsimp only
  split
  · exact (m.productionRate_known ..).map _
  · exact known_ok sum

end Hierarchy

/-! ## Checks -/

theorem Control.isBroken_known (c : Control α) (producer : Bool) (pressure : α)
    (reservoir surface : List α) : Known (c.isBroken producer pressure reservoir surface) := by
  rw [Control.isBroken]
  split
  · exact known_ok _
  · exact known_error fun id h => by cases h
  · exact known_ok _
  · exact known_ok _

theorem Node.inspectTarget_known (n : Node α) (id : Nat) (a : ActivePhases) (totals : FlowTotals α)
    (mode : Mode) : Known (n.inspectTarget id a totals mode) := by
  refine (n.target_known mode).bind fun found _ => ?_
  cases found with
  | none => exact known_ok none
  | some target => exact (a.rate_known ..).bind fun _ _ => known_ok _

theorem Forest.exists_node_of_mem_postorder {h : Hierarchy α} {f : Forest α} (hf : f.IsPart h)
    {id : Nat} (hid : id ∈ f.postorder) : ∃ n, h.node id = .ok n := by
  induction f with
  | nil => cases hid
  | well j n next ih =>
      rcases List.mem_cons.mp hid with rfl | hin
      · exact ⟨n, hf.1⟩
      · exact ih hf.2.2 hin
  | group j n below next ihb ihn =>
      rcases List.mem_append.mp hid with hin | hin
      · exact ihb hf.2.2.2.1 hin
      · rcases List.mem_cons.mp hin with rfl | hin
        · exact ⟨n, hf.1⟩
        · exact ihn hf.2.2.2.2 hin

namespace Site

variable {s : Site α}

/-- A node that is there can be looked at. -/
theorem inspect_known {id : Nat} {n : Node α} (hn : s.hierarchy.node id = .ok n)
    (rates : RateTable α) : Known (s.inspect rates id) := by
  cases hg : n.isGroup with
  | true =>
      rw [inspect_group rates hn hg]
      exact known_findSomeM? fun mode _ => n.inspectTarget_known ..
  | false =>
      rw [inspect_well rates hn hg]
      refine n.tableIndex_known.bind fun index _ => ?_
      refine (rates.blocks_known index _).bind fun blocks _ => ?_
      refine (Rates.entry_known ..).bind fun pressure _ => ?_
      refine (s.wells.well_known index).bind fun w _ => ?_
      exact known_findSomeM? fun checked _ => (checked.1.isBroken_known ..).map _

/-- So can its subtree, and what is found there can be answered. -/
theorem checkLimits_known {id : Nat} {n : Node α} (hn : s.hierarchy.node id = .ok n)
    (rates : RateTable α) : Known (s.checkLimits id rates).2 := by
  have hfirst : Known (s.firstViolation id rates) := by
    rw [firstViolation]
    refine Known.bind ?_ fun f hf => ?_
    · rw [Hierarchy.subtree, hn]
      exact known_ok _
    · refine known_findSomeM? fun j hj => ?_
      obtain ⟨m, hm⟩ := Forest.exists_node_of_mem_postorder (Hierarchy.subtree_isPart hf) hj
      exact inspect_known hm rates
  cases h : s.firstViolation id rates with
  | error e =>
      rw [checkLimits_of_error h]
      exact known_error (h ▸ hfirst).of_error
  | ok found =>
      cases found with
      | none =>
          rw [checkLimits_of_none h]
          exact known_ok _
      | some v =>
          rw [(checkLimits_of_violation h).2]
          exact known_ok _

end Site

/-! ## Calls -/

namespace Site

variable {s : Site α} {id : Nat} {n : Node α}

theorem subtree_known (hn : s.hierarchy.node id = .ok n) : Known (s.hierarchy.subtree id) := by
  rw [Hierarchy.subtree, hn]
  exact known_ok _

/-- A plan that is made from the subtree of a node of the site is known when its orders are. -/
theorem knownPlan_subtree (hn : s.hierarchy.node id = .ok n) {plan : Forest α → List (Order α)}
    (h : ∀ f : Forest α, f.IsPart s.hierarchy → ∀ o ∈ plan f, o.Known s) :
    s.KnownPlan ((s.hierarchy.subtree id).map plan) := by
  cases hf : s.hierarchy.subtree id with
  | error e =>
      have hsubtree := subtree_known hn
      rw [hf] at hsubtree
      exact ⟨known_error hsubtree.of_error, fun l hl => by cases hl⟩
  | ok f => exact knownPlan_ok (h f (Hierarchy.subtree_isPart hf))

theorem knownPlan_reinjection (hn : s.hierarchy.node id = .ok n) (rates : RateTable α) :
    s.KnownPlan (s.hierarchy.reinjectionPlan id rates) := by
  refine knownPlan_bind (by rw [hn]; exact known_ok n) fun m _ => ?_
  cases m.isGroup with
  | false => exact knownPlan_ok fun o ho => by cases ho
  | true =>
      refine knownPlan_bind (Hierarchy.replacement?_known ..) fun found _ => ?_
      cases found with
      | none => exact knownPlan_ok fun o ho => by cases ho
      | some replacement =>
          exact knownPlan_ok (Forest.inject_known (s.hierarchy.below_isPart id))

/-- A group that follows asks its parent, which is there. -/
theorem knownPlan_refresh (hparents : s.hierarchy.HasParents) (hn : s.hierarchy.node id = .ok n)
    (flows : List α) : s.KnownPlan (s.hierarchy.refreshPlan id flows) := by
  refine knownPlan_bind (by rw [hn]; exact known_ok n) fun m hm => ?_
  cases m.isGroup with
  | false => exact knownPlan_ok fun o ho => by cases ho
  | true =>
      refine knownPlan_bind (Hierarchy.refreshTarget_known (hparents id m hm)) fun found _ => ?_
      refine knownPlan_bind (Hierarchy.individualRate_known ..) fun taken _ => ?_
      dsimp only
      split
      · exact knownPlan_ok fun o ho => by cases ho
      · refine knownPlan_ok fun o ho => ?_
        obtain ⟨⟨child, c⟩, hchild, hin⟩ := List.mem_flatMap.mp ho
        have hnode := Forest.node_of_mem_siblings (s.hierarchy.below_isPart id) hchild
        dsimp only at hin
        split at hin
        · cases hin
        · rcases List.mem_append.mp hin with htake | hrefresh
          · obtain ⟨_, ⟨_, _, rfl⟩ | ⟨e, he, rfl⟩⟩ := Node.mem_take htake
            · exact ⟨c, hnode⟩
            · exact (he ▸ groupControl_known ..).of_error
          · rw [List.mem_singleton.mp hrefresh]
            exact True.intro

theorem refreshInjection_known (hn : s.hierarchy.node id = .ok n) :
    Known (s.refreshInjection id).2 := by
  rw [refreshInjection, hn]
  refine run_known fun o ho => ?_
  dsimp only at ho
  split at ho
  · cases ho
  · obtain ⟨⟨child, c⟩, _, hin⟩ := List.mem_flatMap.mp ho
    dsimp only at hin
    split at hin
    · rw [List.mem_singleton.mp hin]
      exact True.intro
    · cases hin

/-- Questions about a node that is there have an answer, or fail for another reason. -/
theorem ask_known (hn : s.hierarchy.node id = .ok n) (q : Query α) : Known (s.ask id q) := by
  have hnode : Known (s.hierarchy.node id) := by
    rw [hn]
    exact known_ok n
  cases q with
  | node => exact hnode.map _
  | efficiency => exact (hnode.map _).map _
  | wellCount => exact ((subtree_known hn).map _).map _
  | guideRate d onlyGroup => exact (hnode.map _).map _
  | target mode => exact (hnode.bind fun m _ => m.target_known mode).map _
  | produced flows p =>
      refine Known.map ((ActivePhases.position_known _ p).bind fun place _ => ?_) _
      exact (subtree_known hn).bind fun f _ => f.producedAt_known ..
  | productionRate flows mode =>
      exact (hnode.bind fun m _ => m.productionRate_known ..).map _
  | worst rates mode =>
      exact ((subtree_known hn).bind fun f _ => f.worst_known ..).map _

theorem rebuild_known {x : Except GroupError (Hierarchy α)} (hx : Known x) :
    Known (s.rebuild x).2 := by
  cases x with
  | ok h => exact known_ok ()
  | error e => exact known_error hx.of_error

/-- A node whose parent is there is inserted, or is refused for another reason. -/
theorem insert_known (m : Node α) (hm : ∀ id ∈ m.parent.toList, ∃ n, s.hierarchy.node id = .ok n) :
    Known (s.hierarchy.insert m) := by
  rw [Hierarchy.insert]
  split
  · exact known_error fun id h => by cases h
  · refine Known.map ?_ _
    cases hp : m.parent with
    | none => exact known_ok ()
    | some p =>
        obtain ⟨g, hg⟩ := hm p (by rw [hp]; exact List.mem_singleton.mpr rfl)
        rw [Hierarchy.checkParent, hg]
        dsimp only
        split
        · exact known_ok ()
        · exact known_error fun id h => by cases h

/-- When parents are there, a call that names nodes of the site never fails with an unknown node. -/
theorem call_known (hparents : s.hierarchy.HasParents) {c : Call α}
    (hc : ∀ id ∈ c.subjects, ∃ n, s.hierarchy.node id = .ok n) : Known (s.call c).2 := by
  have hself : ∀ id, c.subjects = [id] → ∃ n, s.hierarchy.node id = .ok n := by
    intro id hid
    exact hc id (hid ▸ List.mem_singleton.mpr rfl)
  cases c with
  | addGroup name parent efficiency specs =>
      exact rebuild_known ((insert_known (.make name parent efficiency specs .group) hc).map _)
  | addWell name parent efficiency specs =>
      have hnew := insert_known (.make name parent efficiency specs (.well .detached)) hc
      exact rebuild_known (hnew.map _)
  | attach id index =>
      obtain ⟨n, hn⟩ := hself id rfl
      refine rebuild_known ((s.wells.well_known index).bind fun entry _ => ?_)
      refine Known.bind (by rw [hn]; exact known_ok n) fun m _ => ?_
      split
      · exact known_error fun id h => by cases h
      · exact known_ok _
  | edit id e =>
      obtain ⟨n, hn⟩ := hself id rfl
      refine rebuild_known (Known.map ?_ _)
      rw [hn]
      exact known_ok n
  | enrol name kind controls => exact known_ok ()
  | select index place => exact known_ok ()
  | stop index => exact known_ok ()
  | reopen index => exact known_ok ()
  | useTable wells => exact known_ok ()
  | check id rates =>
      obtain ⟨n, hn⟩ := hself id rfl
      exact (checkLimits_known hn rates).map _
  | push id mode target onlyGroup =>
      obtain ⟨n, hn⟩ := hself id rfl
      exact (knownPlan_subtree hn fun f hf => Forest.push_known hf).follow
  | shareProduction id =>
      obtain ⟨n, hn⟩ := hself id rfl
      exact (knownPlan_subtree hn fun f hf => Forest.ownProduction_known hf).follow
  | shareInjection id =>
      obtain ⟨n, hn⟩ := hself id rfl
      exact (knownPlan_subtree hn fun f hf => Forest.ownInjection_known hf).follow
  | reinject id rates =>
      obtain ⟨n, hn⟩ := hself id rfl
      exact (knownPlan_reinjection hn rates).follow
  | refreshProduction id flows =>
      obtain ⟨n, hn⟩ := hself id rfl
      exact (knownPlan_refresh hparents hn flows).follow
  | refreshInjection id =>
      obtain ⟨n, hn⟩ := hself id rfl
      exact refreshInjection_known hn
  | withdraw id =>
      obtain ⟨n, hn⟩ := hself id rfl
      exact (knownPlan_ok fun o ho => by rw [List.mem_singleton.mp ho]; exact ⟨n, hn⟩).follow
  | ask id q =>
      obtain ⟨n, hn⟩ := hself id rfl
      exact ask_known hn q

end Site

end ReservoirWells
