import ReservoirWells.Proofs.Group.Calls
import ReservoirWells.Proofs.Group.Installed

/-! # Renewal — refreshes do not see each other

    A refresh hands controls to wells that are under group control already, and marks them.  Of the
    nodes that changes group slots and marks only, and no refresh reads these (`Node.steady`).  So
    refreshes that come one after the other decide what they would decide at the start:

    * `Hierarchy.refreshPlan_steady` — what a refresh decides from;
    * `Site.run_steady` — what a refresh changes;
    * `Site.serve_refreshes` — a sequence of refreshes is one run of the orders that were decided at
      the start. -/

namespace ReservoirWells

variable {α : Type} [Scalar α]

/-! ## What a refresh reads -/

/-- The node without a group slot, up to date. -/
def Node.steady (n : Node α) : Node α := { n with outdated := false, role := n.role.lasting }

namespace Node

section Steady

variable (n : Node α)

theorem lasting_steady : n.steady.lasting = n.lasting := by
  cases hr : n.role with
  | group => simp only [lasting, steady, hr, NodeRole.lasting]
  | well link => simp only [lasting, steady, hr, NodeRole.lasting]

@[simp] theorem steady_isGroup : n.steady.isGroup = n.isGroup := by
  rw [← lasting_isGroup, lasting_steady, lasting_isGroup]

@[simp] theorem steady_isKind (kind : WellKind) : n.steady.isKind kind = n.isKind kind := by
  rw [← lasting_isKind, lasting_steady, lasting_isKind]

@[simp] theorem steady_tableIndex : n.steady.tableIndex = n.tableIndex :=
  tableIndex_of_lasting n.lasting_steady

theorem steady_take (id : Nat) (a : ActivePhases) (mode : Mode) (onlyGroup : Bool) (share : α) :
    n.steady.take id a mode onlyGroup share = n.take id a mode onlyGroup share := by
  rw [take, take, steady_isKind]
  rfl

theorem steady_productionRate (a : ActivePhases) (flows : List α) (mode : ProductionMode) :
    n.steady.productionRate a flows mode = n.productionRate a flows mode := by
  have hproduced : n.steady.produced a flows = n.produced a flows := by
    funext p
    simp only [produced, producedAt, isInjector, steady_isKind, steady_tableIndex]
    rfl
  rw [productionRate, productionRate, steady_isGroup, hproduced]

/-- A group control that takes the place of another one cannot be told from it. -/
theorem steady_of_free {n : Node α} (h : n.individual = false) (slot : Nat) :
    Node.steady { n.modifyLink fun link => { link with groupSlot := some slot } with
      individual := false } = n.steady := by
  obtain ⟨name, parent, efficiency, specs, individual, outdated, role⟩ := n
  cases h
  cases role with
  | group => rfl
  | well link => rfl

end Steady

end Node

namespace Hierarchy

/-- The hierarchy of the nodes without group slots, all up to date. -/
def steady (h : Hierarchy α) : Hierarchy α := { h with nodes := h.nodes.map Node.steady }

theorem node_steady (h : Hierarchy α) (id : Nat) : h.steady.node id = (h.node id).map Node.steady := by
  have hget : h.steady.nodes[id]? = (h.nodes[id]?).map Node.steady := List.getElem?_map
  rw [node, node, hget]
  cases h.nodes[id]? with
  | none => rfl
  | some n => rfl

theorem below_steady (h : Hierarchy α) (id : Nat) : h.steady.below id = (h.below id).map Node.steady := by
  rw [below, below, ← Forest.ofNodes_map (g := Node.steady) (fun _ => rfl) Node.steady_isGroup,
    List.map_drop]
  rfl

theorem refreshTarget_steady (h : Hierarchy α) (n : Node α) :
    h.steady.refreshTarget n.steady = h.refreshTarget n := by
  have hread : n.steady.specs = n.specs ∧ n.steady.parent = n.parent := ⟨rfl, rfl⟩
  simp only [refreshTarget, hread, node_steady]
  cases n.parent with
  | none => rfl
  | some above =>
      dsimp only
      cases h.node above with
      | error e => rfl
      | ok k => rfl

theorem individualRate_steady (h : Hierarchy α) (m : ProductionMode) (flows : List α)
    (nodes : List (Nat × Node α)) :
    h.steady.individualRate m flows (nodes.map fun c => (c.1, c.2.steady))
      = h.individualRate m flows nodes := by
  rw [individualRate, individualRate, List.foldlM_map]
  simp only [Node.steady_productionRate, Node.isProducer, Node.steady_isKind]
  rfl

/-- A refresh decides the same without group slots and marks. -/
theorem refreshPlan_steady (h : Hierarchy α) (id : Nat) (flows : List α) :
    h.steady.refreshPlan id flows = h.refreshPlan id flows := by
  have htotal : ((h.below id).map Node.steady).guideTotal .production true 0
      = (h.below id).guideTotal .production true 0 :=
    Forest.guideTotal_map (g := Node.steady) (fun _ => rfl) (fun _ => rfl) _ _
  rw [refreshPlan, refreshPlan, node_steady, below_steady]
  cases h.node id with
  | error e => rfl
  | ok n =>
      simp only [Except.map, bind, Except.bind, Node.steady_isGroup, refreshTarget_steady, htotal,
        Forest.siblings_map, individualRate_steady, List.flatMap_map, Node.steady_take,
        Node.isProducer, Node.steady_isKind]
      rfl

/-- The orders of a refresh; none when it fails. -/
def refreshOrders (h : Hierarchy α) (id : Nat) (flows : List α) : List (Order α) :=
  (h.refreshPlan id flows).toOption.getD []

/-- So refreshes of hierarchies that differ in group slots and marks only have the same orders. -/
theorem refreshOrders_of_steady {h h' : Hierarchy α} (hsame : h'.steady = h.steady) (id : Nat)
    (flows : List α) : h'.refreshOrders id flows = h.refreshOrders id flows := by
  rw [refreshOrders, ← refreshPlan_steady, hsame, refreshPlan_steady, refreshOrders]

/-- A refresh of a node with nothing directly below it gives no orders, whether it fails or not. -/
theorem refreshOrders_of_empty {h : Hierarchy α} {id : Nat} (hempty : (h.below id).siblings = [])
    (flows : List α) : h.refreshOrders id flows = [] := by
  have hplan : ∀ l, h.refreshPlan id flows = .ok l → l = [] := by
    intro l hl
    rw [refreshPlan] at hl
    obtain ⟨n, _, hl⟩ := bind_eq_ok.mp hl
    cases hg : n.isGroup with
    | false =>
        rw [hg] at hl
        exact (Except.ok.inj hl).symm
    | true =>
        rw [hg] at hl
        obtain ⟨⟨mode, target⟩, _, hl⟩ := bind_eq_ok.mp hl
        obtain ⟨taken, _, hl⟩ := bind_eq_ok.mp hl
        simp only [hempty, List.flatMap_nil, ite_self] at hl
        exact (Except.ok.inj hl).symm
  rw [refreshOrders]
  cases hl : h.refreshPlan id flows with
  | error e => rfl
  | ok l => exact hplan l hl

end Hierarchy

/-! ## What a refresh changes -/

/-- The order hands a control to a well under group control, or marks a node as up to date. -/
def Order.Renews (h : Hierarchy α) : Order α → Prop
  | .install id _ => ∃ n, h.node id = .ok n ∧ n.individual = false
  | .refresh _ => True
  | _ => False

/-- Which orders renew can be seen without group slots and marks. -/
theorem Order.Renews.of_steady {h h' : Hierarchy α} (hsame : h'.steady = h.steady) {o : Order α}
    (ho : o.Renews h) : o.Renews h' := by
  cases o with
  | install id c =>
      obtain ⟨n, hn, hfree⟩ := ho
      obtain ⟨m, hm, hmn⟩ := Hierarchy.exists_node_of_map (congrArg Hierarchy.nodes hsame.symm) hn
      have hflag : m.steady.individual = n.steady.individual := congrArg Node.individual hmn
      exact ⟨m, hm, hflag.trans hfree⟩
  | refresh id => exact True.intro
  | _ => exact False.elim ho

namespace Site

variable {s t : Site α}

/-- A well under a group control can be handed another one. -/
theorem UnderControl.renews {id : Nat} {c : Control α} (h : s.UnderControl id c) (d : Control α) :
    (Order.install id d).Renews s.hierarchy ∧ s.CanObey (.install id d) := by
  obtain ⟨n, index, _, w, hn, hfree, hi, _, hw, _⟩ := h
  exact ⟨⟨n, hn, hfree⟩, index, ⟨n, hn, hi⟩, WellTable.lt_length_of_well hw⟩

/-- Such an order changes group slots and marks only. -/
theorem obey_steady {o : Order α} (hrenews : o.Renews s.hierarchy) (ho : s.obey o = .ok t) :
    t.hierarchy.steady = s.hierarchy.steady := by
  refine congrArg₂ Hierarchy.mk (obey_lasting ho).2 ?_
  cases o with
  | install id c =>
      obtain ⟨n, hn, hfree⟩ := hrenews
      obtain ⟨_, index, w, _, _, _, rfl⟩ := install_eq_ok.mp ho
      refine Hierarchy.map_modify fun m hm => Node.steady_of_free ?_ _
      rw [hn] at hm
      rw [← Except.ok.inj hm]
      exact hfree
  | refresh id =>
      cases ho
      exact Hierarchy.map_modify fun _ _ => rfl
  | _ => exact False.elim hrenews

/-- And so does a run of such orders. -/
theorem run_steady {l : List (Order α)} (hrenews : ∀ o ∈ l, o.Renews s.hierarchy) :
    (s.run l).1.hierarchy.steady = s.hierarchy.steady := by
  induction l generalizing s with
  | nil => rfl
  | cons o rest ih =>
      rw [run]
      cases ho : s.obey o with
      | error e => rfl
      | ok t =>
          have hsame := obey_steady (hrenews o (List.mem_cons_self ..)) ho
          exact (ih fun o' ho' => (hrenews o' (List.mem_cons_of_mem o ho')).of_steady hsame).trans hsame

/-! ## Refreshes one after the other -/

/-- The calls that refresh groups, each at some rates, one after the other. -/
def refreshCalls (turns : List (Nat × List α)) : List (Call α) :=
  turns.map fun turn => .refreshProduction turn.1 turn.2

theorem refreshProduction_eq_run (s : Site α) (id : Nat) (flows : List α) :
    (s.refreshProduction id flows).1 = (s.run (s.hierarchy.refreshOrders id flows)).1 := by
  rw [refreshProduction, Hierarchy.refreshOrders]
  cases s.hierarchy.refreshPlan id flows with
  | error e => rfl
  | ok l => rfl

/-- A refresh can be carried out, and renews what the wells are held to. -/
def Refreshable (s : Site α) (turn : Nat × List α) : Prop :=
  ∀ o ∈ s.hierarchy.refreshOrders turn.1 turn.2, o.Renews s.hierarchy ∧ s.CanObey o

/-- Refreshes one after the other are one run of the orders that are decided at the start. -/
theorem serve_refreshes {turns : List (Nat × List α)} (hturns : ∀ turn ∈ turns, s.Refreshable turn) :
    s.serve (refreshCalls turns)
      = (s.run (turns.flatMap fun turn => s.hierarchy.refreshOrders turn.1 turn.2)).1 := by
  induction turns generalizing s with
  | nil => rfl
  | cons turn rest ih =>
      have hself := hturns turn (List.mem_cons_self ..)
      have hsame := run_steady fun o ho => (hself o ho).1
      have hcan := s.run_canObey (s.hierarchy.refreshOrders turn.1 turn.2)
      have hrun : (s.run (s.hierarchy.refreshOrders turn.1 turn.2)).2 = .ok () :=
        run_ok_iff.mpr fun o ho => (hself o ho).2
      show (s.refreshProduction turn.1 turn.2).1.serve (refreshCalls rest) = _
      rw [s.refreshProduction_eq_run, List.flatMap_cons, run_append_of_ok hrun]
      generalize (s.run (s.hierarchy.refreshOrders turn.1 turn.2)).1 = u at hsame hcan ⊢
      have horders : ∀ id flows, u.hierarchy.refreshOrders id flows
          = s.hierarchy.refreshOrders id flows := Hierarchy.refreshOrders_of_steady hsame
      rw [ih fun later hlater o ho => ?_]
      · simp only [horders]
      · rw [horders] at ho
        obtain ⟨hrenews, hobey⟩ := hturns later (List.mem_cons_of_mem _ hlater) o ho
        exact ⟨hrenews.of_steady hsame, (hcan o).mpr hobey⟩

/-- That run goes through. -/
theorem run_refreshes {turns : List (Nat × List α)} (hturns : ∀ turn ∈ turns, s.Refreshable turn) :
    (s.run (turns.flatMap fun turn => s.hierarchy.refreshOrders turn.1 turn.2)).2 = .ok () := by
  refine run_ok_iff.mpr fun o ho => ?_
  obtain ⟨turn, hturn, hmem⟩ := List.mem_flatMap.mp ho
  exact (hturns turn hturn o hmem).2

/-- After other refreshes a refresh goes through when its orders could be carried out at the start. -/
theorem refreshProduction_at_turn {turns : List (Nat × List α)}
    (hturns : ∀ turn ∈ turns, s.Refreshable turn) {id : Nat} {flows : List α} {l : List (Order α)}
    (hplan : s.hierarchy.refreshPlan id flows = .ok l) (hcan : ∀ o ∈ l, s.CanObey o) :
    ((s.serve (refreshCalls turns)).refreshProduction id flows).2 = .ok () := by
  have hrenews : ∀ o ∈ turns.flatMap fun turn => s.hierarchy.refreshOrders turn.1 turn.2,
      o.Renews s.hierarchy := by
    intro o ho
    obtain ⟨turn, hturn, hmem⟩ := List.mem_flatMap.mp ho
    exact (hturns turn hturn o hmem).1
  rw [serve_refreshes hturns, refreshProduction, ← Hierarchy.refreshPlan_steady, run_steady hrenews,
    Hierarchy.refreshPlan_steady, hplan]
  exact run_ok_iff.mpr fun o ho => (s.run_canObey _ o).mpr (hcan o ho)

end Site

end ReservoirWells
