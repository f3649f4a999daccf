import ReservoirWells.Proofs.Group.Enforcement
import ReservoirWells.Proofs.Group.Repetition

/-! # Agreement — three ways of splitting the target of a group

    A group over producers of its own can have its target split in three ways: it shares out its
    own target (`Site.shareProduction`), the target is pushed down from outside
    (`Site.pushTarget`), or what was shared out is split once more (`Site.refreshProduction`).  A
    push and a refresh divide by the efficiency factor of the group and agree, whatever was shared
    out before.  Sharing out leaves that factor out, so it agrees with them exactly when the group
    is on all of the time or there is nothing to share.

    * `Forest.push_row` — a push over wells only, well by well;
    * `Site.run_wells_of_refresh` — marking nodes as up to date leaves no trace in the table;
    * `Site.LeadsProducers.refreshProduction_after` — a refresh after the target was shared out;
    * `Site.shareProduction_agrees` — where the three agree. -/

namespace ReservoirWells

variable {α : Type}

section Rows

variable [Scalar α]

/-! ## Wells without groups between them -/

/-- Whoever is under group control takes part in everything. -/
theorem Node.share_of_free {n : Node α} (h : n.individual = false) (d : Direction)
    (onlyGroup : Bool) : n.share d onlyGroup = n.share d false := by
  rw [share, share, h, Bool.and_false, Bool.and_false]

theorem Node.take_of_free {n : Node α} (h : n.individual = false) (id : Nat) (a : ActivePhases)
    (mode : Mode) (onlyGroup : Bool) (share : α) :
    n.take id a mode onlyGroup share = n.take id a mode false share := by
  rw [take, take, h, Bool.and_false, Bool.and_false]

/-- A producer takes its share of a production target as the control of that share. -/
theorem Node.take_of_producer {n : Node α} (h : n.isProducer = true) {a : ActivePhases}
    {m : ProductionMode} {share : α} {c : Control α}
    (hc : groupControl a (.production m) (-share / n.efficiency.val) = .ok c) (id : Nat) :
    n.take id a (.production m) false share = [.install id c] := by
  have hkind : n.isKind (Mode.production m).direction.wellKind = true := h
  have htarget : groupControl a (.production m)
      ((Mode.production m).direction.wellTarget share n.efficiency.val) = .ok c := hc
  rw [take, hkind, Bool.not_true, if_neg Bool.false_ne_true, Bool.false_and,
    if_neg Bool.false_ne_true, htarget]

namespace Forest

variable {f : Forest α}

/-- Siblings that are all wells have no groups among or below them. -/
theorem groups_eq_nil {h : Hierarchy α} (hf : f.IsPart h)
    (hwells : ∀ c ∈ f.siblings, c.2.isGroup = false) : f.groups = [] := by
  induction f with
  | nil => rfl
  | well id n next ih =>
      exact ih hf.2.2 fun c hc => hwells c (List.mem_cons_of_mem _ hc)
  | group id n below next _ _ =>
      have hself : n.isGroup = false := hwells (id, n) (List.mem_cons_self ..)
      rw [hf.2.1] at hself
      cases hself

/-- A push over wells hands every one of them its share. -/
theorem push_row (hrow : f.groups = []) (a : ActivePhases) (mode : Mode)
    (onlyGroup shareGroup : Bool) (target : α → α) :
    f.push a mode onlyGroup shareGroup target = f.siblings.flatMap fun c =>
      c.2.take c.1 a mode onlyGroup (target (c.2.share mode.direction shareGroup)) := by
  induction f with
  | nil => rfl
  | well id n next ih => rw [push, siblings, List.flatMap_cons, ih hrow]
  | group id n below next _ _ => cases hrow

/-- Without groups among or below them, siblings are the wells of the forest. -/
theorem wells_of_row (hrow : f.groups = []) : f.wells = f.siblings := by
  induction f with
  | nil => rfl
  | well id n next ih => rw [wells, siblings, ih hrow]
  | group id n below next _ _ => cases hrow

/-- When no well is under individual control, it makes no difference whether such wells count. -/
theorem guideTotal_of_free (hrow : f.groups = [])
    (hfree : ∀ c ∈ f.siblings, c.2.individual = false) (d : Direction) (sum : α) :
    f.guideTotal d true sum = f.guideTotal d false sum := by
  induction f generalizing sum with
  | nil => rfl
  | well id n next ih =>
      have hself : n.individual = false := hfree (id, n) (List.mem_cons_self ..)
      rw [guideTotal, guideTotal, Node.share_of_free hself]
      exact ih hrow (fun c hc => hfree c (List.mem_cons_of_mem _ hc)) _
  | group id n below next _ _ => cases hrow

end Forest

namespace Hierarchy

/-- Wells under group control take nothing beforehand. -/
theorem individualRate_of_free (h : Hierarchy α) (m : ProductionMode) (flows : List α)
    {nodes : List (Nat × Node α)} (hfree : ∀ c ∈ nodes, c.2.individual = false) :
    h.individualRate m flows nodes = .ok 0 := by
  rw [individualRate]
  generalize (0 : α) = sum
  induction nodes with
  | nil => rfl
  | cons c rest ih =>
      obtain ⟨id, n⟩ := c
      have hself : n.individual = false := hfree (id, n) (List.mem_cons_self ..)
      rw [List.foldlM_cons]
      simp only [hself, Bool.false_and, Bool.false_eq_true, if_false]
      exact ih fun c hc => hfree c (List.mem_cons_of_mem _ hc)

/-- What a refresh does once the mode and the target are known. -/
theorem refreshPlan_eq {h : Hierarchy α} {id : Nat} {n : Node α} (hn : h.node id = .ok n)
    (hg : n.isGroup = true) {m : ProductionMode} {t : α} (ht : h.refreshTarget n = .ok (m, t))
    (flows : List α) :
    h.refreshPlan id flows = (h.individualRate m flows (h.below id).siblings).map fun taken =>
      if Scalar.isZero ((h.below id).guideTotal .production true 0) then []
      else (h.below id).siblings.flatMap fun c =>
        if c.2.individual || !c.2.isProducer then []
        else c.2.take c.1 h.phases (.production m) true
            (c.2.share .production true / (h.below id).guideTotal .production true 0
              * (t / n.efficiency.val - taken)) ++ [.refresh c.1] := by
  rw [refreshPlan, hn]
  simp only [bind, Except.bind, hg, ht, Bool.not_true, Bool.false_eq_true, if_false]
  cases h.individualRate m flows (h.below id).siblings with
  | error e => rfl
  | ok taken =>
      cases hz : Scalar.isZero ((h.below id).guideTotal .production true 0) with
      | true => simp only [Except.map, if_true]; rfl
      | false => simp only [Except.map, Bool.false_eq_true, if_false]; rfl

/-- Every order of a refresh marks a node, or hands it a share in the mode of the refresh. -/
theorem mem_refreshPlan {h : Hierarchy α} {id : Nat} {n : Node α} (hn : h.node id = .ok n)
    (hg : n.isGroup = true) {m : ProductionMode} {t : α} (ht : h.refreshTarget n = .ok (m, t))
    {flows : List α} {l : List (Order α)} (hl : h.refreshPlan id flows = .ok l) {o : Order α}
    (ho : o ∈ l) :
    (∃ child, o = .refresh child) ∨ ∃ c ∈ (h.below id).siblings, ∃ share,
      o ∈ c.2.take c.1 h.phases (.production m) true share := by
  rw [refreshPlan_eq hn hg ht] at hl
  cases htaken : h.individualRate m flows (h.below id).siblings with
  | error e => rw [htaken] at hl; cases hl
  | ok taken =>
      rw [htaken] at hl
      cases hl
      split at ho
      · cases ho
      · obtain ⟨c, hmem, hc⟩ := List.mem_flatMap.mp ho
        split at hc
        · cases hc
        · rcases List.mem_append.mp hc with htake | hmark
          · exact Or.inr ⟨c, hmem, _, htake⟩
          · exact Or.inl ⟨c.1, List.mem_singleton.mp hmark⟩

/-- When all wells below are producers under group control, the whole target is shared out by guide
    rate, and every well is marked. -/
theorem refreshPlan_of_free {h : Hierarchy α} {id : Nat} {n : Node α} (hn : h.node id = .ok n)
    (hg : n.isGroup = true) {m : ProductionMode} {t : α} (ht : h.refreshTarget n = .ok (m, t))
    (hrow : (h.below id).groups = [])
    (hfree : ∀ c ∈ (h.below id).siblings, c.2.isProducer = true ∧ c.2.individual = false)
    (hzero : Scalar.isZero ((h.below id).guideTotal .production false 0) = false)
    (flows : List α) :
    h.refreshPlan id flows = .ok ((h.below id).siblings.flatMap fun c =>
      c.2.take c.1 h.phases (.production m) false
          (c.2.share .production false / (h.below id).guideTotal .production false 0
            * (t / n.efficiency.val - 0)) ++ [.refresh c.1]) := by
  have hgroup := fun c hc => (hfree c hc).2
  rw [refreshPlan_eq hn hg ht, individualRate_of_free h m flows hgroup,
    Forest.guideTotal_of_free hrow hgroup, hzero]
  refine congrArg Except.ok (List.flatMap_congr fun c hc => ?_)
  obtain ⟨hkind, hind⟩ := hfree c hc
  rw [hind, hkind, Bool.not_true, Bool.or_false, if_neg Bool.false_ne_true,
    Node.share_of_free hind, Node.take_of_free hind]

end Hierarchy

/-! ## Modes without a control -/

/-- Phases that have weights are active. -/
theorem ActivePhases.positions_of_weights {a : ActivePhases} {phases : List Phase} {w : Triple α}
    (h : a.weights phases = .ok w) : ∀ p ∈ phases, ∃ place, a.position p = .ok place := by
  rw [weights] at h
  generalize Triple.const (0 : α) = start at h
  induction phases generalizing start with
  | nil => intro p hp; cases hp
  | cons q rest ih =>
      rw [List.foldlM_cons] at h
      obtain ⟨next, hq, hrest⟩ := bind_eq_ok.mp h
      rintro p (_ | ⟨_, hp⟩)
      · cases hplace : a.position q with
        | ok place => exact ⟨place, rfl⟩
        | error e => rw [hplace] at hq; cases hq
      · exact ih next hrest p hp

/-- A mode in which a well can be held to some target is supported. -/
theorem supports_of_groupControl {a : ActivePhases} {mode : Mode} {target : α} {c : Control α}
    (h : groupControl a mode target = .ok c) : a.Supports mode := by
  have hsurface : ∀ phases : List Phase, (a.weights phases).map (Control.surfaceRate target) = .ok c →
      ∀ p ∈ phases, ∃ place, a.position p = .ok place := by
    intro phases hc
    cases hw : a.weights (α := α) phases with
    | error e => rw [hw] at hc; cases hc
    | ok w => exact ActivePhases.positions_of_weights hw
  cases mode with
  | injection m =>
      cases m with
      | rate => exact ⟨[], rfl, fun p hp => by cases hp⟩
      | resv => exact ⟨[], rfl, fun p hp => by cases hp⟩
      | _ => cases h
  | production m =>
      cases m with
      | resv => exact ⟨[], rfl, fun p hp => by cases hp⟩
      | orat => exact ⟨[.oil], rfl, hsurface _ h⟩
      | wrat => exact ⟨[.water], rfl, hsurface _ h⟩
      | grat => exact ⟨[.gas], rfl, hsurface _ h⟩
      | lrat => exact ⟨[.oil, .water], rfl, hsurface _ h⟩
      | _ => cases h

namespace Site

/-- A run leaves the table alone when no order takes hold of an entry. -/
theorem run_wells_of_untouched {l : List (Order α)} : ∀ {s : Site α},
    (∀ o ∈ l, ∀ index, ¬ o.Touches s index) → (s.run l).1.wells = s.wells := by
  induction l with
  | nil => intro s _; rfl
  | cons o rest ih =>
      intro s h
      rw [run]
      cases ho : s.obey o with
      | error e => rfl
      | ok t =>
          have hrest : (t.run rest).1.wells = t.wells := by
            refine ih fun o' ho' index htouch => ?_
            exact h o' (List.mem_cons_of_mem o ho') index ((obey_touches ho o' index).mp htouch)
          obtain ⟨_, hsame | ⟨index, _, htouch, _⟩⟩ := obey_shape ho
          · exact hrest.trans hsame
          · exact absurd htouch (h o (List.mem_cons_self ..) index)

/-- An order that hands a share of an unsupported mode to a well does not take hold of anything. -/
theorem not_touches_of_take {s : Site α} {n : Node α} {id : Nat} {a : ActivePhases} {mode : Mode}
    (hmode : ¬ a.Supports mode) {onlyGroup : Bool} {share : α} {o : Order α}
    (ho : o ∈ n.take id a mode onlyGroup share) (index : Nat) : ¬ o.Touches s index := by
  obtain ⟨_, ⟨c, hc, _⟩ | ⟨e, _, rfl⟩⟩ := Node.mem_take ho
  · exact absurd (supports_of_groupControl hc) hmode
  · intro htouch
    exact htouch

/-! ## Marking nodes as up to date -/

/-- The site with all nodes up to date. -/
def settled (s : Site α) : Site α :=
  { s with hierarchy := { s.hierarchy with
      nodes := s.hierarchy.nodes.map (·.edit (.outdated false)) } }

theorem node_settled (s : Site α) (id : Nat) :
    s.settled.hierarchy.node id = (s.hierarchy.node id).map (·.edit (.outdated false)) := by
  have hget : s.settled.hierarchy.nodes[id]?
      = (s.hierarchy.nodes[id]?).map (·.edit (.outdated false)) := List.getElem?_map
  rw [Hierarchy.node, Hierarchy.node, hget]
  cases s.hierarchy.nodes[id]? with
  | none => rfl
  | some n => rfl

/-- Marking a node makes no difference when all nodes are going to be marked. -/
theorem settled_refresh (s : Site α) (id : Nat) :
    settled { s with hierarchy := s.hierarchy.modify id (·.edit (.outdated false)) }
      = s.settled := by
  have hnodes : (s.hierarchy.modify id (·.edit (.outdated false))).nodes.map
      (Node.edit · (.outdated false)) = s.hierarchy.nodes.map (Node.edit · (.outdated false)) :=
    Hierarchy.map_modify fun _ _ => rfl
  rw [settled, settled, hnodes]
  rfl

/-- Installing a control neither looks at the mark nor changes it. -/
theorem install_settled {s t : Site α} {id : Nat} {c : Control α} (h : s.install id c = .ok t) :
    s.settled.install id c = .ok t.settled := by
  obtain ⟨n, index, w, hn, hi, hw, rfl⟩ := install_eq_ok.mp h
  have hnodes : ∀ slot, (s.hierarchy.nodes.modify id (·.grouped slot)).map
        (Node.edit · (.outdated false))
      = (s.hierarchy.nodes.map (Node.edit · (.outdated false))).modify id (·.grouped slot) := by
    intro slot
    have hcomm : ∀ m : Node α, (m.grouped slot).edit (.outdated false)
        = (m.edit (.outdated false)).grouped slot := by
      rintro ⟨name, parent, efficiency, specs, individual, outdated, role⟩
      cases role with
      | group => rfl
      | well link => rfl
    refine List.ext_getElem? fun j => ?_
    simp only [List.getElem?_map, List.getElem?_modify]
    cases s.hierarchy.nodes[j]? with
    | none => rfl
    | some m => by_cases hj : id = j <;> simp [hj, hcomm]
  refine install_eq_ok.mpr ⟨n.edit (.outdated false), index, w, ?_, hi, hw, ?_⟩
  · rw [node_settled, hn]
    rfl
  · rw [installed_eq, installed_eq, settled]
    show _ = Site.mk { s.settled.hierarchy with
      nodes := (s.hierarchy.nodes.map (Node.edit · (.outdated false))).modify id _ } _
    rw [← hnodes]
    rfl

end Site

/-- The order does nothing but mark a node as up to date. -/
def Order.isRefresh : Order α → Bool
  | .refresh _ => true
  | _ => false

namespace Site

/-- What is left of a run of controls and marks when all nodes are marked beforehand. -/
theorem run_settled {l : List (Order α)} : ∀ {s : Site α},
    (∀ o ∈ l, (∃ id, o = .refresh id) ∨ ∃ id c, o = .install id c) → (s.run l).2 = .ok () →
      (s.settled.run (l.filter fun o => !o.isRefresh)).1 = (s.run l).1.settled := by
  induction l with
  | nil => intro s _ _; rfl
  | cons o rest ih =>
      intro s hl hrun
      have hrest := fun o' ho' => hl o' (List.mem_cons_of_mem o ho')
      rcases hl o (List.mem_cons_self ..) with ⟨id, rfl⟩ | ⟨id, c, rfl⟩
      · rw [← s.settled_refresh id]
        exact ih hrest hrun
      · rw [run] at hrun ⊢
        cases ht : s.install id c with
        | error e =>
            rw [show s.obey (.install id c) = .error e from ht] at hrun
            cases hrun
        | ok t =>
            rw [show s.obey (.install id c) = .ok t from ht] at hrun ⊢
            show (s.settled.run (.install id c :: rest.filter fun o => !o.isRefresh)).1 = _
            rw [run, show s.settled.obey (.install id c) = .ok t.settled from install_settled ht]
            exact ih hrest hrun

/-- Marking nodes in between leaves no trace in the table. -/
theorem run_wells_of_refresh {s : Site α} {l l' : List (Order α)}
    (hl : ∀ o ∈ l, (∃ id, o = .refresh id) ∨ ∃ id c, o = .install id c)
    (hl' : l.filter (fun o => !o.isRefresh) = l') (hrun : (s.run l).2 = .ok ()) :
    (s.run l).1.wells = (s.run l').1.wells := by
  have hsub : ∀ o ∈ l', o ∈ l ∧ o.isRefresh = false := by
    intro o ho
    rw [← hl'] at ho
    obtain ⟨hmem, hnot⟩ := List.mem_filter.mp ho
    exact ⟨hmem, by simpa using hnot⟩
  have hrun' : (s.run l').2 = .ok () :=
    run_ok_iff.mpr fun o ho => run_ok_iff.mp hrun o (hsub o ho).1
  have hkept : l'.filter (fun o => !o.isRefresh) = l' :=
    List.filter_eq_self.mpr fun o ho => by rw [(hsub o ho).2]; rfl
  have hfirst := run_settled hl hrun
  have hsecond := run_settled (fun o ho => hl o (hsub o ho).1) hrun'
  rw [hl'] at hfirst
  rw [hkept] at hsecond
  show (s.run l).1.settled.wells = (s.run l').1.settled.wells
  rw [← hfirst, ← hsecond]

/-- Wells that are marked one by one, each after it took its share, are held to what a push without
    marks holds them to. -/
theorem run_wells_of_marked (s : Site α) {f : Forest α} (hrow : f.groups = []) {a : ActivePhases}
    {mode : Mode} {target : α → α} (hrun : (s.run (f.push a mode false false target)).2 = .ok ()) :
    (s.run (f.siblings.flatMap fun c =>
        c.2.take c.1 a mode false (target (c.2.share mode.direction false)) ++ [.refresh c.1])).1.wells
      = (s.run (f.push a mode false false target)).1.wells := by
  have htaken : ∀ c ∈ f.siblings,
      ∀ o ∈ c.2.take c.1 a mode false (target (c.2.share mode.direction false)),
        o ∈ f.push a mode false false target := by
    intro c hc o ho
    rw [Forest.push_row hrow]
    exact List.mem_flatMap.mpr ⟨c, hc, ho⟩
  have hinstall : ∀ o ∈ f.push a mode false false target, ∃ id c, o = .install id c := by
    intro o ho
    rcases f.mem_push ho with ⟨g, hg, _⟩ | ⟨_, _, _, _, ⟨c, _, rfl⟩ | ⟨e, _, rfl⟩⟩
    · rw [hrow] at hg
      cases hg
    · exact ⟨_, c, rfl⟩
    · exact absurd ho (refuse_notMem_of_run hrun e)
  have horder : ∀ o ∈ f.siblings.flatMap fun c =>
      c.2.take c.1 a mode false (target (c.2.share mode.direction false)) ++ [.refresh c.1],
        (∃ id, o = .refresh id) ∨ o ∈ f.push a mode false false target := by
    intro o ho
    obtain ⟨c, hc, ho⟩ := List.mem_flatMap.mp ho
    rcases List.mem_append.mp ho with htake | hmark
    · exact Or.inr (htaken c hc o htake)
    · exact Or.inl ⟨c.1, List.mem_singleton.mp hmark⟩
  refine run_wells_of_refresh (fun o ho => (horder o ho).imp_right (hinstall o)) ?_
    (run_ok_iff.mpr fun o ho => ?_)
  · rw [List.filter_flatMap, Forest.push_row hrow]
    refine List.flatMap_congr fun c hc => ?_
    rw [List.filter_append, List.filter_eq_self.mpr]
    · exact List.append_nil _
    · intro o ho
      obtain ⟨_, _, rfl⟩ := hinstall o (htaken c hc o ho)
      rfl
  · rcases horder o ho with ⟨_, rfl⟩ | hpush
    · exact True.intro
    · exact run_ok_iff.mp hrun o hpush

end Site

end Rows

variable [ExactScalar α]

/-! ## A group over producers of its own -/

/-- The node is a group in a rate mode whose target is defined. -/
structure Site.HasTarget (s : Site α) (id : Nat) (n : Node α) (m : ProductionMode) (t : α) :
    Prop where
  node : s.hierarchy.node id = .ok n
  group : n.isGroup = true
  mode : n.specs.production.mode = m
  rate : m.isRate = true
  target : n.target (.production m) = .ok (some t)

/-- The node is a group in a rate mode whose target is defined, and everything directly below it is a
    producer with a guide rate that is attached to an entry of the table. -/
structure Site.LeadsProducers (s : Site α) (id : Nat) (n : Node α) (m : ProductionMode) (t : α) :
    Prop where
  node : s.hierarchy.node id = .ok n
  group : n.isGroup = true
  mode : n.specs.production.mode = m
  rate : m.isRate = true
  target : n.target (.production m) = .ok (some t)
  producer : ∀ c ∈ (s.hierarchy.below id).siblings, c.2.isProducer = true
  guide : ∀ c ∈ (s.hierarchy.below id).siblings, 0 < c.2.specs.guideRate .production
  entry : ∀ c ∈ (s.hierarchy.below id).siblings, ∀ a ∈ c.2.attachment?, a.index < s.wells.length

namespace Site

variable {s : Site α} {id : Nat} {n : Node α} {m : ProductionMode} {t : α}

/-- The guide rate of everything below a group. -/
def guideBelow (s : Site α) (id : Nat) : α := (s.hierarchy.below id).guideTotal .production false 0

/-- The orders that hand every well below a group its share of a target. -/
def rowOrders (s : Site α) (id : Nat) (m : ProductionMode) (share : α → α) : List (Order α) :=
  (s.hierarchy.below id).push s.hierarchy.phases (.production m) false false share

/-- The orders that hand every well directly below a group its share of a target by guide rate, and
    mark the well. -/
def handouts (s : Site α) (id : Nat) (m : ProductionMode) (x : α) : List (Order α) :=
  (s.hierarchy.below id).siblings.flatMap fun c =>
    c.2.take c.1 s.hierarchy.phases (.production m) false
        (c.2.share .production false / s.guideBelow id * x) ++ [.refresh c.1]

/-! ## What can be seen after a push -/

/-- Handing out shares leaves everything as it is seen by pushes, below any node. -/
theorem below_run_rowOrders (s : Site α) (id j : Nat) (m : ProductionMode) (share : α → α) :
    ((s.run (s.rowOrders id m share)).1.hierarchy.below j).map (Node.seen .production)
      = (s.hierarchy.below j).map (Node.seen .production) := by
  have hnodes : (s.run (s.rowOrders id m share)).1.hierarchy.nodes.map
      (Node.seen (Mode.production m).direction)
        = s.hierarchy.nodes.map (Node.seen (Mode.production m).direction) :=
    run_push_seen (s.hierarchy.below_isPart id) share
  exact Hierarchy.below_eq_of_map (g := Node.seen .production) (fun _ => rfl)
    (Node.seen_isGroup .production) hnodes j

section Seen

variable {u : Site α} (hseen : (u.hierarchy.below id).map (Node.seen .production)
  = (s.hierarchy.below id).map (Node.seen .production))

include hseen

/-- Producers that took a group control are producers under group control. -/
theorem producers_of_seen (hunder : ∀ c ∈ (s.hierarchy.below id).siblings,
    c.2.isProducer = true ∧ ∃ control, u.UnderControl c.1 control) :
    ∀ c ∈ (u.hierarchy.below id).siblings, c.2.isProducer = true ∧ c.2.individual = false := by
  intro c hc
  have hsame : (c.1, c.2.seen .production)
      ∈ (s.hierarchy.below id).siblings.map fun c => (c.1, c.2.seen .production) := by
    rw [← Forest.siblings_map, ← hseen, Forest.siblings_map]
    exact List.mem_map_of_mem hc
  obtain ⟨c₀, hc₀, heq⟩ := List.mem_map.mp hsame
  obtain ⟨hid, hnode⟩ := Prod.mk.inj heq
  have hkind : ∀ k : Node α, (k.seen .production).isProducer = k.isProducer :=
    fun k => k.lasting_isKind .producer
  obtain ⟨hproducer, _, k, _, _, _, hk, hfree, _⟩ := hunder c₀ hc₀
  have hc' := Forest.node_of_mem_siblings (u.hierarchy.below_isPart id) hc
  rw [hid] at hk
  obtain rfl : k = c.2 := Except.ok.inj (hk.symm.trans hc')
  refine ⟨?_, hfree⟩
  rw [← hkind, ← hnode, hkind]
  exact hproducer

/-- A refresh of a group over such producers hands out its target over its efficiency factor. -/
theorem refreshPlan_of_seen (hphases : u.hierarchy.phases = s.hierarchy.phases)
    (hunder : ∀ c ∈ (s.hierarchy.below id).siblings,
      c.2.isProducer = true ∧ ∃ control, u.UnderControl c.1 control)
    (hpos : 0 < s.guideBelow id) (hn : u.hierarchy.node id = .ok n) (hg : n.isGroup = true)
    (ht : u.hierarchy.refreshTarget n = .ok (m, t)) (flows : List α) :
    u.hierarchy.refreshPlan id flows = .ok (s.handouts id m (t / n.efficiency.val)) := by
  have hchildren := producers_of_seen hseen hunder
  have htotal : (u.hierarchy.below id).guideTotal .production false 0 = s.guideBelow id := by
    rw [guideBelow, ← Forest.guideTotal_seen, hseen, Forest.guideTotal_seen]
  have hrow : (u.hierarchy.below id).groups = [] :=
    Forest.groups_eq_nil (u.hierarchy.below_isPart id) fun c hc =>
      Node.isGroup_of_isKind (hchildren c hc).1
  rw [Hierarchy.refreshPlan_of_free hn hg ht hrow hchildren
    (by rw [htotal]; exact Scalar.isZero_of_pos hpos), htotal, hphases, sub_zero]
  -- the orders do not tell the wells from what is seen of them
  have hread : ∀ f : Forest α, (f.siblings.flatMap fun c =>
      c.2.take c.1 s.hierarchy.phases (.production m) false
          (c.2.share .production false / s.guideBelow id * (t / n.efficiency.val)) ++ [.refresh c.1])
      = (f.map (Node.seen .production)).siblings.flatMap fun c =>
        c.2.take c.1 s.hierarchy.phases (.production m) false
          (c.2.share .production false / s.guideBelow id * (t / n.efficiency.val))
            ++ [.refresh c.1] := by
    intro f
    have htake : ∀ (k : Node α) (j : Nat) (share : α),
        (k.seen .production).take j s.hierarchy.phases (.production m) false share
          = k.take j s.hierarchy.phases (.production m) false share :=
      fun k j share => k.seen_take j s.hierarchy.phases share
    rw [Forest.siblings_map, List.flatMap_map]
    simp only [htake, Node.seen_share]
  rw [handouts, hread, hread (s.hierarchy.below id), hseen]

end Seen

namespace HasTarget

variable (h : s.HasTarget id n m t)

include h

theorem mode_ne : n.specs.mode (Mode.production m).direction
    ≠ (Mode.production m).direction.uncontrolled := by
  show Mode.production n.specs.production.mode ≠ .production .none
  rw [h.mode]
  rintro heq
  cases heq
  exact Bool.false_ne_true h.rate

/-- The own target of the group is shared out as it is, if there are guide rates to divide by. -/
theorem shareProduction_cases :
    (Scalar.isZero (s.guideBelow id) = true ∧ ∃ e, s.shareProduction id = s.run [.refuse e]) ∨
      (Scalar.isZero (s.guideBelow id) = false ∧ s.shareProduction id
        = s.run (s.rowOrders id m fun guide => guide / s.guideBelow id * t)) := by
  have horders : s.shareProduction id
      = s.run ((Forest.group id n (s.hierarchy.below id) .nil).ownProduction s.hierarchy.phases) := by
    rw [shareProduction, Hierarchy.subtree_group h.node h.group]
    rfl
  rw [horders]
  simp only [Forest.ownProduction, h.mode, if_pos h.rate, Forest.ownTarget, h.target, List.append_nil]
  rw [guideBelow]
  cases Scalar.isZero ((s.hierarchy.below id).guideTotal .production false 0) with
  | true => exact Or.inl ⟨rfl, _, rfl⟩
  | false => exact Or.inr ⟨rfl, rfl⟩

/-- Sharing out the own target consists of handing out shares, or of a refusal. -/
theorem shareProduction_orders : ∃ l, s.shareProduction id = s.run l ∧ ∀ o ∈ l,
    (∃ e, o = .refuse e) ∨ ∃ share, o ∈ s.rowOrders id m share := by
  rcases h.shareProduction_cases with ⟨_, e, he⟩ | ⟨_, heq⟩
  · exact ⟨_, he, fun o ho => Or.inl ⟨e, List.mem_singleton.mp ho⟩⟩
  · exact ⟨_, heq, fun o ho => Or.inr ⟨_, ho⟩⟩

/-- The group does not change when its own target is shared out. -/
theorem node_shareProduction : (s.shareProduction id).1.hierarchy.node id = .ok n := by
  rcases h.shareProduction_cases with ⟨_, e, he⟩ | ⟨_, heq⟩
  · rw [he]
    exact h.node
  · rw [heq]
    exact (s.node_run_push_below id _ _ false false _).trans h.node

/-- The group refreshes by its own mode and target. -/
theorem refreshTarget_eq (g : Hierarchy α) : g.refreshTarget n = .ok (m, t) := by
  have hfollows : (m == ProductionMode.fld) = false := by
    refine beq_false_of_ne ?_
    rintro rfl
    exact Bool.false_ne_true h.rate
  rw [Hierarchy.refreshTarget, h.mode, hfollows, if_neg Bool.false_ne_true, if_pos h.rate,
    Hierarchy.definedTarget, h.target]
  rfl

end HasTarget

namespace LeadsProducers

variable (h : s.LeadsProducers id n m t)

include h

theorem hasTarget : s.HasTarget id n m t := ⟨h.node, h.group, h.mode, h.rate, h.target⟩

theorem groups_below : (s.hierarchy.below id).groups = [] :=
  Forest.groups_eq_nil (s.hierarchy.below_isPart id) fun c hc =>
    Node.isGroup_of_isKind (h.producer c hc)

/-- The children are attached to entries of the table. -/
theorem attached {c : Nat × Node α} (hc : c ∈ (s.hierarchy.below id).siblings) :
    ∃ index, s.AttachedTo c.1 index ∧ index < s.wells.length := by
  have hnode := Forest.node_of_mem_siblings (s.hierarchy.below_isPart id) hc
  have hkind := h.producer c hc
  have hentry := h.entry c hc
  cases ha : c.2.attachment? with
  | none =>
      rw [Node.isProducer, Node.isKind, ha] at hkind
      cases hkind
  | some a =>
      refine ⟨a.index, ⟨c.2, hnode, ?_⟩, hentry a ha⟩
      rw [Node.tableIndex, ha]

/-- The children are the wells below the group. -/
theorem mem_wells {c : Nat × Node α} (hc : c ∈ (s.hierarchy.below id).siblings) :
    c ∈ (s.hierarchy.below id).wells :=
  (Forest.mem_of_mem_siblings (s.hierarchy.below_isPart id) hc).2
    (Node.isGroup_of_isKind (h.producer c hc))

theorem guideBelow_pos (hsome : (s.hierarchy.below id).siblings ≠ []) : 0 < s.guideBelow id := by
  obtain ⟨c, hc⟩ := List.exists_mem_of_ne_nil _ hsome
  exact lt_of_lt_of_le (h.guide c hc)
    (Forest.guideRate_le_guideTotal .production (h.mem_wells hc))

/-- The own target of the group is shared out as it is. -/
theorem shareProduction_eq (hpos : 0 < s.guideBelow id) :
    s.shareProduction id = s.run (s.rowOrders id m fun guide => guide / s.guideBelow id * t) := by
  rcases h.hasTarget.shareProduction_cases with ⟨hzero, _⟩ | ⟨_, heq⟩
  · rw [Scalar.isZero_of_pos hpos] at hzero
    cases hzero
  · exact heq

/-- A target that is pushed down is divided by the efficiency factor of the group first. -/
theorem pushTarget_eq (hpos : 0 < s.guideBelow id) :
    s.pushTarget id (.production m) t false
      = s.run ((s.rowOrders id m fun guide => t / n.efficiency.val * (guide / s.guideBelow id))
        ++ [.adopt id (.production .fld)]) := by
  rw [pushTarget_group h.node h.group, Node.enforce_eq h.hasTarget.mode_ne hpos]
  rfl

end LeadsProducers

/-- That a node takes a mode leaves no trace in the table. -/
theorem run_wells_of_adopt (s : Site α) (l : List (Order α)) (id : Nat) (mode : Mode) :
    (s.run (l ++ [.adopt id mode])).1.wells = (s.run l).1.wells := by
  rw [run_append]
  generalize s.run l = done
  obtain ⟨u, _ | ⟨⟩⟩ := done
  · rfl
  · rfl

namespace LeadsProducers

variable (h : s.LeadsProducers id n m t)

include h

/-! ## What is shared out -/

/-- The wells below the group are its children. -/
theorem child_of_mem_wells {w : Nat × Node α} (hw : w ∈ (s.hierarchy.below id).wells) :
    w ∈ (s.hierarchy.below id).siblings := by
  rw [← Forest.wells_of_row h.groups_below]
  exact hw

/-- The orders go through when the mode is supported, and hold every child to its share. -/
theorem run_rowOrders (hsep : s.Separate) (hm : s.hierarchy.phases.Supports (.production m))
    (share : α → α) :
    (s.run (s.rowOrders id m share)).2 = .ok () ∧ ∀ c ∈ (s.hierarchy.below id).siblings,
      ∃ control, (s.run (s.rowOrders id m share)).1.UnderControl c.1 control ∧
        control.target = -share (c.2.specs.guideRate .production) / c.2.efficiency.val := by
  have hrun : (s.run (s.rowOrders id m share)).2 = .ok () :=
    run_push_ok hm (fun w hw => h.attached (h.child_of_mem_wells hw)) false false share
  refine ⟨hrun, fun c hc => ?_⟩
  obtain ⟨control, hcontrol⟩ := groupControl_ok hm
    (-share (c.2.specs.guideRate .production) / c.2.efficiency.val)
  have hmem : .install c.1 control ∈ s.rowOrders id m share := by
    rw [rowOrders, Forest.push_row h.groups_below]
    refine List.mem_flatMap.mpr ⟨c, hc, ?_⟩
    show _ ∈ c.2.take c.1 _ _ false (share (c.2.specs.guideRate .production))
    rw [Node.take_of_producer (h.producer c hc) hcontrol]
    exact List.mem_cons_self ..
  have hsubjects := s.hierarchy.push_below_nodup id s.hierarchy.phases (.production m) false false share
  exact ⟨control, run_install (hsep.on _) hmem hsubjects Forest.activate_notMem_push hrun,
    target_of_groupControl hcontrol⟩

/-! ## Splitting once more -/

/-- A refresh after the orders shares out the target over the efficiency factor of the group. -/
theorem refreshProduction_after (hsep : s.Separate)
    (hm : s.hierarchy.phases.Supports (.production m)) (hpos : 0 < s.guideBelow id)
    (share : α → α) (flows : List α) :
    ((s.run (s.rowOrders id m share)).1.refreshProduction id flows).1.wells
      = (s.run (s.rowOrders id m fun guide =>
          t / n.efficiency.val * (guide / s.guideBelow id))).1.wells := by
  obtain ⟨hrun, hunder⟩ := h.run_rowOrders hsep hm share
  have hnode := (s.node_run_push_below id s.hierarchy.phases (.production m) false false share).trans
    h.node
  have hphases := (s.run_lasting (s.rowOrders id m share)).2
  have hcan := s.run_canObey (s.rowOrders id m share)
  have hforgotten : (s.run (s.rowOrders id m share)).1.run
        (s.rowOrders id m fun guide => t / n.efficiency.val * (guide / s.guideBelow id))
      = s.run (s.rowOrders id m fun guide => t / n.efficiency.val * (guide / s.guideBelow id)) := by
    refine run_twins (Forest.push_twins s.hierarchy.phases rfl _ share _) hrun ?_
    exact run_ok_iff.mpr fun o ho => (hcan o).mpr (run_ok_iff.mp (h.run_rowOrders hsep hm _).1 o ho)
  have hagain := (h.run_rowOrders hsep hm fun guide =>
    t / n.efficiency.val * (guide / s.guideBelow id)).1
  rw [← congrArg Prod.snd hforgotten] at hagain
  have hplan := refreshPlan_of_seen (below_run_rowOrders s id id m share) hphases
    (fun c hc => ⟨h.producer c hc, (hunder c hc).imp fun _ hcontrol => hcontrol.1⟩) hpos hnode h.group
    (h.hasTarget.refreshTarget_eq _) flows
  have hshare : ∀ c : Nat × Node α, c.2.share .production false / s.guideBelow id
      * (t / n.efficiency.val) = t / n.efficiency.val
        * (c.2.share .production false / s.guideBelow id) := fun c => mul_comm _ _
  rw [← congrArg (fun r => r.1.wells) hforgotten, refreshProduction, hplan]
  simp only [follow, handouts, hshare]
  exact run_wells_of_marked _ h.groups_below hagain

end LeadsProducers

/-! ## Where nothing is shared out -/

/-- No well directly below the group can be held to the mode: there is none, or the mode is about
    phases that are not there. -/
def Unheld (s : Site α) (id : Nat) (m : ProductionMode) : Prop :=
  (s.hierarchy.below id).siblings = [] ∨ ¬ s.hierarchy.phases.Supports (.production m)

namespace LeadsProducers

variable (h : s.LeadsProducers id n m t)

include h

/-- Pushing a target down consists of handing out shares and taking modes. -/
theorem pushTarget_orders : ∃ l, s.pushTarget id (.production m) t false = s.run l ∧ ∀ o ∈ l,
    (∃ g mode, o = .adopt g mode) ∨ ∃ share, o ∈ s.rowOrders id m share := by
  refine ⟨_, pushTarget_group h.node h.group (.production m) t, fun o ho => ?_⟩
  rcases Forest.mem_push_group ho with ⟨_, _, hbelow | hself⟩ | hnext
  · exact Or.inr ⟨_, hbelow⟩
  · exact Or.inl ⟨_, _, hself⟩
  · cases hnext

/-- No share takes hold of the table. -/
theorem not_touches_rowOrders (hnone : s.Unheld id m) {share : α → α} {o : Order α}
    (ho : o ∈ s.rowOrders id m share) (index : Nat) : ¬ o.Touches s index := by
  rw [rowOrders, Forest.push_row h.groups_below] at ho
  obtain ⟨c, hc, htake⟩ := List.mem_flatMap.mp ho
  rcases hnone with hempty | hmode
  · rw [hempty] at hc
    cases hc
  · exact not_touches_of_take hmode htake index

theorem wells_shareProduction (hnone : s.Unheld id m) : (s.shareProduction id).1.wells = s.wells := by
  obtain ⟨l, hl, horders⟩ := h.hasTarget.shareProduction_orders
  rw [hl]
  refine run_wells_of_untouched fun o ho index => ?_
  rcases horders o ho with ⟨e, rfl⟩ | ⟨share, hshare⟩
  · exact not_false
  · exact h.not_touches_rowOrders hnone hshare index

theorem wells_pushTarget (hnone : s.Unheld id m) :
    (s.pushTarget id (.production m) t false).1.wells = s.wells := by
  obtain ⟨l, hl, horders⟩ := h.pushTarget_orders
  rw [hl]
  refine run_wells_of_untouched fun o ho index => ?_
  rcases horders o ho with ⟨g, mode, rfl⟩ | ⟨share, hshare⟩
  · exact not_false
  · exact h.not_touches_rowOrders hnone hshare index

theorem wells_refreshProduction (hnone : s.Unheld id m) (flows : List α) :
    ((s.shareProduction id).1.refreshProduction id flows).1.wells = s.wells := by
  have hnode := h.hasTarget.node_shareProduction
  have hwells := h.wells_shareProduction hnone
  have hnone' : (s.shareProduction id).1.Unheld id m := by
    obtain ⟨l, hl, _⟩ := h.hasTarget.shareProduction_orders
    obtain ⟨hlasting, hphases⟩ := s.run_lasting l
    rw [hl, Unheld, hphases]
    refine hnone.imp_left fun hempty => ?_
    have hbelow := Hierarchy.below_eq_of_map (g := Node.lasting) (fun _ => rfl)
      (fun k => k.lasting_isGroup) hlasting id
    have hsiblings := congrArg Forest.siblings hbelow
    rw [Forest.siblings_map, Forest.siblings_map, hempty] at hsiblings
    exact List.map_eq_nil_iff.mp hsiblings
  rw [refreshProduction, ← hwells]
  generalize (s.shareProduction id).1 = u at hnode hnone' ⊢
  cases hplan : u.hierarchy.refreshPlan id flows with
  | error e => rfl
  | ok l =>
      refine run_wells_of_untouched fun o ho index => ?_
      rcases Hierarchy.mem_refreshPlan hnode h.group (h.hasTarget.refreshTarget_eq u.hierarchy) hplan ho
        with ⟨child, rfl⟩ | ⟨c, hc, share, htake⟩
      · exact not_false
      · rcases hnone' with hempty | hmode
        · rw [hempty] at hc
          cases hc
        · exact not_touches_of_take hmode htake index

end LeadsProducers

/-! ## The three ways -/

/-- What a well is held to can be seen from its entry. -/
theorem heldTarget_of_attachedTo {u : Site α} {j index : Nat} (ha : u.AttachedTo j index) :
    u.heldTarget j = match u.wells.well index with
      | .ok w => match w.controls.active? with
        | some c => c.target
        | none => 0
      | .error _ => 0 := by
  obtain ⟨k, hk, hi⟩ := ha
  rw [heldTarget, activeControl, hk]
  simp only [bind, Except.bind, hi]
  cases u.wells.well index with
  | error e => rfl
  | ok w => cases hc : w.controls.active? <;> simp only [pure, Except.pure, hc]

/-- When the wells can be held to the mode there is a total to divide by. -/
theorem LeadsProducers.pos_of_held (h : s.LeadsProducers id n m t) (hheld : ¬ s.Unheld id m) :
    0 < s.guideBelow id ∧ s.hierarchy.phases.Supports (.production m) := by
  refine ⟨h.guideBelow_pos fun hempty => hheld (Or.inl hempty), ?_⟩
  by_contra hmode
  exact hheld (Or.inr hmode)

/-- What the children are held to by the own target of the group, and by a target pushed down. -/
theorem LeadsProducers.heldTargets (h : s.LeadsProducers id n m t) (hsep : s.Separate)
    (hheld : ¬ s.Unheld id m) {c : Nat × Node α} (hc : c ∈ (s.hierarchy.below id).siblings) :
    (s.shareProduction id).1.heldTarget c.1
        = -(c.2.specs.guideRate .production / s.guideBelow id * t) / c.2.efficiency.val ∧
      (s.pushTarget id (.production m) t false).1.heldTarget c.1
        = -(t / n.efficiency.val * (c.2.specs.guideRate .production / s.guideBelow id))
            / c.2.efficiency.val := by
  obtain ⟨hpos, hm⟩ := h.pos_of_held hheld
  constructor
  · obtain ⟨control, hunder, htarget⟩ := (h.run_rowOrders hsep hm _).2 c hc
    rw [h.shareProduction_eq hpos, hunder.heldTarget, htarget]
  · obtain ⟨hrun, hchildren⟩ := h.run_rowOrders hsep hm fun guide =>
      t / n.efficiency.val * (guide / s.guideBelow id)
    obtain ⟨control, hunder, htarget⟩ := hchildren c hc
    -- the group that follows in the end is not the well
    have hne : id ≠ c.1 := by
      intro heq
      have hnode := Forest.node_of_mem_siblings (s.hierarchy.below_isPart id) hc
      rw [← heq, h.node] at hnode
      have hwell := Node.isGroup_of_isKind (h.producer c hc)
      rw [← Except.ok.inj hnode, h.group] at hwell
      cases hwell
    rw [h.pushTarget_eq hpos, run_append_of_ok hrun]
    exact (hunder.adopted hne (.production .fld)).heldTarget.trans htarget

/-- A group in a rate mode over producers of its own. What the wells are held to when its target was
    shared out and then refreshed is what they are held to when the target is pushed down. When the
    target was only shared out, they are held to as much as when it is pushed down times the
    efficiency factor of the group. So this comes to the same when the group is on all of the time
    or there is nothing to share, and, if any well can be held to the mode, in no other case. -/
theorem shareProduction_agrees (h : s.LeadsProducers id n m t) (hsep : s.Separate) :
    (∀ flows, ((s.shareProduction id).1.refreshProduction id flows).1.wells
        = (s.pushTarget id (.production m) t false).1.wells) ∧
      (s.hierarchy.phases.Supports (.production m) → ∀ c ∈ (s.hierarchy.below id).siblings,
        (s.shareProduction id).1.heldTarget c.1
          = n.efficiency.val * (s.pushTarget id (.production m) t false).1.heldTarget c.1) ∧
      (n.efficiency.val = 1 ∨ t = 0 →
        (s.shareProduction id).1.wells = (s.pushTarget id (.production m) t false).1.wells) ∧
      (¬ s.Unheld id m →
        (s.shareProduction id).1.wells = (s.pushTarget id (.production m) t false).1.wells →
          n.efficiency.val = 1 ∨ t = 0) := by
  have hsame : n.efficiency.val = 1 ∨ t = 0 → ∀ guide, guide / s.guideBelow id * t
      = t / n.efficiency.val * (guide / s.guideBelow id) := by
    rintro (hone | hzero) guide
    · rw [hone, div_one, mul_comm]
    · rw [hzero, mul_zero, zero_div, zero_mul]
  by_cases hheld : s.Unheld id m
  · have hshare := h.wells_shareProduction hheld
    have hpush := h.wells_pushTarget hheld
    refine ⟨fun flows => (h.wells_refreshProduction hheld flows).trans hpush.symm, ?_,
      fun _ => hshare.trans hpush.symm, fun hnot => absurd hheld hnot⟩
    intro hm c hc
    refine absurd hheld ?_
    rintro (hempty | hmode)
    · rw [hempty] at hc
      cases hc
    · exact hmode hm
  · obtain ⟨hpos, hm⟩ := h.pos_of_held hheld
    have hwells : (s.pushTarget id (.production m) t false).1.wells = (s.run (s.rowOrders id m
        fun guide => t / n.efficiency.val * (guide / s.guideBelow id))).1.wells := by
      rw [h.pushTarget_eq hpos, run_wells_of_adopt]
    have hheldTargets : ∀ c ∈ (s.hierarchy.below id).siblings,
        (s.shareProduction id).1.heldTarget c.1
          = n.efficiency.val * (s.pushTarget id (.production m) t false).1.heldTarget c.1 := by
      intro c hc
      obtain ⟨hown, hpushed⟩ := h.heldTargets hsep hheld hc
      have heff := n.efficiency.pos.ne'
      have hceff := c.2.efficiency.pos.ne'
      rw [hown, hpushed]
      field_simp
    refine ⟨fun flows => ?_, fun _ => hheldTargets, fun hcases => ?_, fun _ heq => ?_⟩
    · rw [h.shareProduction_eq hpos, hwells]
      exact h.refreshProduction_after hsep hm hpos _ flows
    · rw [h.shareProduction_eq hpos, hwells, funext (hsame hcases)]
    · obtain ⟨c, hc⟩ := List.exists_mem_of_ne_nil _ fun hempty => hheld (Or.inl hempty)
      obtain ⟨index, ha, _⟩ := h.attached hc
      have hequal : (s.shareProduction id).1.heldTarget c.1
          = (s.pushTarget id (.production m) t false).1.heldTarget c.1 := by
        obtain ⟨l, hl, _⟩ := h.hasTarget.shareProduction_orders
        obtain ⟨l', hl', _⟩ := h.pushTarget_orders
        rw [heldTarget_of_attachedTo, heldTarget_of_attachedTo, heq]
        · rw [hl']
          exact (run_attachedTo s l' c.1 index).mpr ha
        · rw [hl]
          exact (run_attachedTo s l c.1 index).mpr ha
      have hfactor := hheldTargets c hc
      rw [hequal] at hfactor
      rcases eq_or_ne t 0 with hzero | ht
      · exact Or.inr hzero
      · have hpart := div_ne_zero ht n.efficiency.pos.ne'
        have hguide := div_ne_zero (h.guide c hc).ne' hpos.ne'
        have hnonzero : (s.pushTarget id (.production m) t false).1.heldTarget c.1 ≠ 0 := by
          rw [(h.heldTargets hsep hheld hc).2]
          exact div_ne_zero (neg_ne_zero.mpr (mul_ne_zero hpart hguide)) c.2.efficiency.pos.ne'
        exact Or.inl ((right_eq_mul₀ hnonzero).mp hfactor)

/-- Two producers below a group that is on half of the time and may produce a hundred of oil. -/
def halfFieldCalls : List (Call ℚ) := [
  .enrol "P1" .producer [.bhp 100],
  .enrol "P2" .producer [.bhp 100],
  .addGroup "FIELD" none .half
    (.producer { ProductionSpec.default with mode := .orat, oil := some 100 }),
  .addWell "P1" (some 0) .one (.producer .default),
  .addWell "P2" (some 0) .half (.producer .default),
  .attach 1 0,
  .attach 2 1]

/-- The site of that field. -/
def halfField : Site ℚ := (vacant ⟨true, true, false⟩).serve halfFieldCalls

/-- The group of both producers. -/
def halfFieldGroup : Node ℚ := halfField.hierarchy.nodes.get ⟨0, by decide +kernel⟩

theorem node_halfField : halfField.hierarchy.node 0 = .ok halfFieldGroup :=
  Hierarchy.node_eq_ok.mpr (List.getElem?_eq_getElem _)

theorem leadsProducers_halfField : halfField.LeadsProducers 0 halfFieldGroup .orat 100 where
  node := node_halfField
  group := by decide +kernel
  mode := by decide +kernel
  rate := rfl
  target := by decide +kernel
  producer := by decide +kernel
  guide := by decide +kernel
  entry := by decide +kernel

/-- The first well is to flow fifty when the target of its group is shared out, and a hundred once
    that is refreshed, as when the target is pushed down. -/
theorem shareProduction_agrees_halfField :
    halfField.LeadsProducers 0 halfFieldGroup .orat 100 ∧ halfField.Separate ∧
      ((halfField.shareProduction 0).1.refreshProduction 0 []).1.wells
        = (halfField.pushTarget 0 (.production .orat) 100 false).1.wells ∧
      (halfField.shareProduction 0).1.heldTarget 1 = -50 ∧
      (halfField.pushTarget 0 (.production .orat) 100 false).1.heldTarget 1 = -100 ∧
      (halfField.shareProduction 0).1.wells
        ≠ (halfField.pushTarget 0 (.production .orat) 100 false).1.wells := by
  have hsep : halfField.Separate := separate_of_nodup (by decide +kernel)
  have hoil : halfField.hierarchy.phases.Supports (.production .orat) := by
    refine ⟨[.oil], rfl, fun p hp => ?_⟩
    rw [List.mem_singleton.mp hp]
    exact ⟨1, by decide +kernel⟩
  obtain ⟨hrefresh, hfactor, _, honly⟩ := shareProduction_agrees leadsProducers_halfField hsep
  obtain ⟨c, hc, hplace⟩ : ∃ c ∈ (halfField.hierarchy.below 0).siblings, c.1 = 1 := by
    decide +kernel
  have hpush : (halfField.pushTarget 0 (.production .orat) 100 false).1.heldTarget 1 = -100 := by
    decide +kernel
  have hfirst := hfactor hoil c hc
  rw [hplace, hpush] at hfirst
  refine ⟨leadsProducers_halfField, hsep, hrefresh [], hfirst.trans (by decide +kernel), hpush, ?_⟩
  intro heq
  have hheld : ¬ halfField.Unheld 0 .orat := by
    rintro (hempty | hmode)
    · rw [hempty] at hc
      cases hc
    · exact hmode hoil
  rcases honly hheld heq with hone | hzero
  · exact absurd hone (by decide +kernel)
  · exact absurd hzero (by decide)

/-- So sharing out the target of a group need not agree with pushing it down, and a refresh that
    follows may change what the wells are held to. -/
theorem not_forall_shareProduction_agrees :
    ¬ ∀ (phases : ActivePhases) (calls : List (Call ℚ)) (id : Nat) (n : Node ℚ)
      (m : ProductionMode) (t : ℚ),
      let s := (vacant phases).serve calls
      s.LeadsProducers id n m t → s.Separate →
      (s.shareProduction id).1.wells = (s.pushTarget id (.production m) t false).1.wells ∧
        ∀ flows, ∀ c ∈ (s.hierarchy.below id).siblings,
          ((s.shareProduction id).1.refreshProduction id flows).1.heldTarget c.1
            = (s.shareProduction id).1.heldTarget c.1 := by
  intro hall
  obtain ⟨hsame, _⟩ := hall _ halfFieldCalls 0 halfFieldGroup .orat 100 leadsProducers_halfField
    (separate_of_nodup (by decide +kernel))
  exact absurd hsame (by decide +kernel)

end Site

end ReservoirWells
