import ReservoirWells.Group.Limits
import ReservoirWells.Proofs.Fallible
import ReservoirWells.Proofs.Group.Subtree

/-! # Inspection — one node at a time, on the site as it stands

    `Forest.assess` walks a subtree, adds up rates on the way and stops at the first limit that does
    not hold.  Here the same question is asked without a walk: `Site.inspect` looks at a single node
    and answers with an error, a violation or nothing, and `Site.firstViolation` takes the first
    answer among the nodes in post-order, by `List.findSomeM?`.

    * `Forest.flows` — the rates of a forest added up, whether or not they can all be read;
    * `Site.correct` — the corrective action for a violation, in terms of the operations of
      `Site`;
    * `Site.assess_eq` — the walk finds the first violation in post-order, and the flows of the
      whole forest when there is none. -/

namespace ReservoirWells

variable {α : Type} [Scalar α]

/-! ## The flows of a forest -/

/-- What a well adds to the rates of the groups above it; nothing when its blocks cannot be read. -/
def Node.flows (n : Node α) (a : ActivePhases) (rates : RateTable α) : FlowTotals α :=
  match n.tableIndex.bind fun index => rates.blocks index a.count with
  | .ok (reservoir, surface) => .ofWell n.isInjector reservoir surface
  | .error _ => .zero

/-- The flows of the wells of a forest, added to `totals` in the order of the siblings; each group
    adds up its own children first. -/
def Forest.flows (a : ActivePhases) (rates : RateTable α) :
    FlowTotals α → Forest α → FlowTotals α
  | totals, .nil => totals
  | totals, .well _ n next => flows a rates (totals + n.flows a rates) next
  | totals, .group _ _ below next => flows a rates (totals + flows a rates .zero below) next

/-! ## Looking at one node -/

/-- A limit that does not hold, and where. -/
inductive Violation (α : Type)
  /-- A control of a table entry that is not the active one. -/
  | control (index place : Nat)
  /-- A target of a group in a mode that is not in force. -/
  | target (id : Nat) (mode : Mode) (target : α)
  deriving Repr, DecidableEq

/-- The controls of a well that are looked at, with their places: neither the active one nor the
    group control. -/
def Node.checkedControls (n : Node α) (l : ControlList α) : List (Control α × Nat) :=
  l.controls.zipIdx.filter fun entry => !(entry.2 == l.current || some entry.2 == n.groupSlot?)

/-- The targets of a group that are looked at, in order: injection before production, and in neither
    direction the one in force. -/
def Node.checkedTargets (n : Node α) : List Mode :=
  ([InjectionMode.rate, .resv].map Mode.injection
      ++ [ProductionMode.orat, .wrat, .grat, .lrat, .resv].map Mode.production).filter
    fun mode => !(n.specs.mode mode.direction == mode)

/-- Looks at one target of a group whose flows are `totals`. An undefined target is no limit. -/
def Node.inspectTarget (n : Node α) (id : Nat) (a : ActivePhases) (totals : FlowTotals α)
    (mode : Mode) : Except GroupError (Option (Violation α)) := do
  match ← n.target mode with
  | none => return none
  | some target =>
    let d := mode.direction
    let rate ← a.rate (totals.reservoir d).toList (totals.surface d).toList mode
    return if target < d.extent rate then some (.target id mode target) else none

namespace Site

/-- Looks at a well: the first of its checked controls that is exceeded. -/
def inspectWell (s : Site α) (rates : RateTable α) (n : Node α) :
    Except GroupError (Option (Violation α)) := do
  let index ← n.tableIndex
  let (reservoir, surface) ← rates.blocks index s.hierarchy.phases.count
  let pressure ← rates.pressure index
  let entry ← s.wells.well index
  (n.checkedControls entry.controls).findSomeM? fun checked =>
    (checked.1.isBroken n.isProducer pressure reservoir surface).map fun broken =>
      if broken then some (.control index checked.2) else none

/-- Looks at a group: the first of its checked targets that the flows of everything below it
    exceed. -/
def inspectGroup (s : Site α) (rates : RateTable α) (id : Nat) (n : Node α) :
    Except GroupError (Option (Violation α)) :=
  let totals := (s.hierarchy.below id).flows s.hierarchy.phases rates .zero
  n.checkedTargets.findSomeM? (n.inspectTarget id s.hierarchy.phases totals)

/-- The rate that a group compares with its target of a mode: what everything below it adds up to. -/
def comparedRate (s : Site α) (rates : RateTable α) (id : Nat) (mode : Mode) :
    Except GroupError α :=
  let totals := (s.hierarchy.below id).flows s.hierarchy.phases rates .zero
  s.hierarchy.phases.rate (totals.reservoir mode.direction).toList
    (totals.surface mode.direction).toList mode

/-- Looks at the node at a place. -/
def inspect (s : Site α) (rates : RateTable α) (id : Nat) :
    Except GroupError (Option (Violation α)) := do
  let n ← s.hierarchy.node id
  if n.isGroup then s.inspectGroup rates id n else s.inspectWell rates n

/-- The first violation in the subtree of a node, in post-order. -/
def firstViolation (s : Site α) (id : Nat) (rates : RateTable α) :
    Except GroupError (Option (Violation α)) := do
  let f ← s.hierarchy.subtree id
  f.postorder.findSomeM? (s.inspect rates)

/-- The corrective action for a violation. A well goes over to the control that is exceeded; a group
    pushes an exceeded injection target down and takes its mode, and answers an exceeded
    production target by its procedure. -/
def correct (s : Site α) (rates : RateTable α) : Violation α → Result α Unit
  | .control index place =>
    ({ s with wells := s.wells.modify index fun w => { w with controls := w.controls.select place } },
      .ok ())
  | .target id (.injection m) target =>
    match s.pushTarget id (.injection m) target false with
    | (t, .ok ()) =>
      ({ t with hierarchy := t.hierarchy.modify id (·.adopt (.injection m)) }, .ok ())
    | (t, .error e) => (t, .error e)
  | .target id (.production m) target =>
    match s.hierarchy.node id with
    | .error e => (s, .error e)
    | .ok n =>
      match n.specs.production.procedure with
      | .none => (s, .ok ())
      | .rate => s.pushTarget id (.production m) target false
      | .well =>
        match s.hierarchy.worst id rates m with
        | .error e => (s, .error e)
        | .ok none => (s, .ok ())
        | .ok (some (well, _)) => s.withdrawWell well

/-! ## What an inspection without error says -/

theorem inspect_group {s : Site α} (rates : RateTable α) {id : Nat} {n : Node α}
    (hn : s.hierarchy.node id = .ok n) (hg : n.isGroup = true) :
    s.inspect rates id = s.inspectGroup rates id n := by
  simp only [inspect, hn, bind, Except.bind, hg]
  rfl

theorem inspect_well {s : Site α} (rates : RateTable α) {id : Nat} {n : Node α}
    (hn : s.hierarchy.node id = .ok n) (hg : n.isGroup = false) :
    s.inspect rates id = s.inspectWell rates n := by
  simp only [inspect, hn, bind, Except.bind, hg]
  rfl

/-- A well that was looked at without error is attached to an entry of the table and has its blocks
    and its pressure, and what was found is the first of its checked controls that is exceeded. -/
theorem inspectWell_cases {s : Site α} {rates : RateTable α} {n : Node α}
    {found : Option (Violation α)} (h : s.inspectWell rates n = .ok found) :
    ∃ index b pressure w, n.tableIndex = .ok index ∧
      rates.blocks index s.hierarchy.phases.count = .ok b ∧ rates.pressure index = .ok pressure ∧
      s.wells.well index = .ok w ∧
      ((n.checkedControls w.controls).findSomeM? fun checked =>
        (checked.1.isBroken n.isProducer pressure b.1 b.2).map fun broken =>
          if broken then some (.control index checked.2) else none) = .ok found := by
  rw [inspectWell] at h
  obtain ⟨index, hi, h⟩ := bind_eq_ok.mp h
  obtain ⟨b, hb, h⟩ := bind_eq_ok.mp h
  obtain ⟨pressure, hp, h⟩ := bind_eq_ok.mp h
  obtain ⟨w, hw, h⟩ := bind_eq_ok.mp h
  exact ⟨index, b, pressure, w, hi, hb, hp, hw, h⟩

/-! ## The walk and the first event -/

/-- The orders by which an assessment answers a violation. -/
def repair (s : Site α) (rates : RateTable α) : Violation α → Except GroupError (List (Order α))
  | .control index place => .ok [.activate index place]
  | .target id mode target => do
    let n ← s.hierarchy.node id
    n.answer id (s.hierarchy.below id) s.hierarchy.phases rates mode target

/-- The finding that goes with what was found first, when the flows are `totals`. -/
def finding (s : Site α) (rates : RateTable α) (totals : FlowTotals α) :
    Option (Violation α) → Except GroupError (Finding α)
  | none => .ok (.met totals)
  | some v => (s.repair rates v).map .broken

end Site

omit [Scalar α] in
/-- The scan of a control list finds the first exceeded control that is not skipped. -/
theorem firstBroken_eq (skip : Nat → Bool) (isBroken : Control α → Except GroupError Bool)
    {γ : Type} (wrap : Nat → γ) :
    ∀ (l : List (Control α)) (index : Nat),
      (((l.zipIdx index).filter fun entry => !skip entry.2).findSomeM? fun checked =>
          (isBroken checked.1).map fun broken => if broken then some (wrap checked.2) else none)
        = (firstBroken skip isBroken index l).map (Option.map wrap) := by
  intro l
  -- the places count on from `index`, so the induction is for every start
  induction l with
  | nil => intro index; rfl
  | cons c rest ih =>
      intro index
      rw [List.zipIdx_cons, firstBroken]
      cases hs : skip index with
      | true =>
          rw [if_pos rfl, List.filter_cons_of_neg (by simp [hs])]
          exact ih (index + 1)
      | false =>
          rw [if_neg Bool.false_ne_true, List.filter_cons_of_pos (by simp [hs])]
          cases hb : isBroken c with
          | error e => exact findSomeM?_cons_error (by rw [hb]; rfl) _
          | ok broken =>
              cases broken with
              | true => exact findSomeM?_cons_some (by rw [hb]; rfl) _
              | false =>
                  rw [findSomeM?_cons_none (by rw [hb]; rfl)]
                  exact ih (index + 1)

/-- The scan of the targets of a group finds the first exceeded one that is not in force. -/
theorem exceeded_eq (n : Node α) (id : Nat) (a : ActivePhases) (totals : FlowTotals α) :
    ∀ modes : List Mode,
      (modes.filter fun mode => !(n.specs.mode mode.direction == mode)).findSomeM?
          (n.inspectTarget id a totals)
        = (n.exceeded a totals modes).map
            (Option.map fun found => Violation.target id found.1 found.2) := by
  intro modes
  induction modes with
  | nil => rfl
  | cons mode rest ih =>
      rw [Node.exceeded]
      by_cases hm : (n.specs.mode mode.direction == mode) = true
      · rw [if_pos hm, List.filter_cons_of_neg (by simp [hm])]
        exact ih
      · rw [if_neg hm, List.filter_cons_of_pos (by simp [hm])]
        cases ht : n.target mode with
        | error e => exact findSomeM?_cons_error (by rw [Node.inspectTarget, ht]; rfl) _
        | ok found =>
            cases found with
            | none =>
                rw [findSomeM?_cons_none (by rw [Node.inspectTarget, ht]; rfl)]
                exact ih
            | some target =>
                have hlook : n.inspectTarget id a totals mode =
                    (a.rate (totals.reservoir mode.direction).toList
                      (totals.surface mode.direction).toList mode).map fun rate =>
                        if target < mode.direction.extent rate then some (.target id mode target)
                        else none := by
                  rw [Node.inspectTarget, ht]
                  rfl
                cases hr : a.rate (totals.reservoir mode.direction).toList
                    (totals.surface mode.direction).toList mode with
                | error e => exact findSomeM?_cons_error (by rw [hlook, hr]; rfl) _
                | ok rate =>
                    rw [hr] at hlook
                    by_cases hlt : target < mode.direction.extent rate
                    · rw [findSomeM?_cons_some (hlook.trans (by rw [Except.map, if_pos hlt]))]
                      simp only [if_pos hlt]
                      rfl
                    · rw [findSomeM?_cons_none (hlook.trans (by rw [Except.map, if_neg hlt]))]
                      simp only [if_neg hlt]
                      exact ih

namespace Site

/-- The assessment of a well is its inspection. -/
theorem assessWell_eq (s : Site α) (rates : RateTable α) (n : Node α) :
    n.assessWell s.hierarchy.phases s.wells rates
      = (s.inspectWell rates n).bind (s.finding rates (n.flows s.hierarchy.phases rates)) := by
  rw [Node.assessWell, inspectWell]
  cases hi : n.tableIndex with
  | error e => rfl
  | ok index =>
      cases hb : rates.blocks index s.hierarchy.phases.count with
      | error e => simp only [bind, Except.bind, hb]
      | ok blocks =>
          cases hp : rates.pressure index with
          | error e => simp only [bind, Except.bind, hb, hp]
          | ok pressure =>
              cases hw : s.wells.well index with
              | error e => simp only [bind, Except.bind, hb, hp, hw]
              | ok entry =>
                  simp only [bind, Except.bind, hb, hp, hw, Node.checkedControls]
                  rw [firstBroken_eq
                    (fun place => place == entry.controls.current || some place == n.groupSlot?)
                    (·.isBroken n.isProducer pressure blocks.1 blocks.2) (Violation.control index)]
                  cases firstBroken _ _ 0 entry.controls.controls with
                  | error e => rfl
                  | ok found =>
                      cases found with
                      | some place => rfl
                      | none =>
                          simp only [Except.map, Option.map_none, finding, Node.flows, hi, hb,
                            Except.bind]
                          rfl

/-- The assessment of a group is its inspection. -/
theorem assessGroup_eq (s : Site α) (rates : RateTable α) {id : Nat} {n : Node α}
    (hn : s.hierarchy.node id = .ok n) :
    n.assessGroup id (s.hierarchy.below id) s.hierarchy.phases rates
        ((s.hierarchy.below id).flows s.hierarchy.phases rates .zero)
      = (s.inspectGroup rates id n).bind (s.finding rates
          ((s.hierarchy.below id).flows s.hierarchy.phases rates .zero)) := by
  rw [inspectGroup, Node.checkedTargets, exceeded_eq, Node.assessGroup]
  show _ = (Except.map _ (n.exceeded _ _ checkedModes)).bind _
  cases he : n.exceeded s.hierarchy.phases
      ((s.hierarchy.below id).flows s.hierarchy.phases rates .zero) checkedModes with
  | error e => rfl
  | ok found =>
      cases found with
      | none => rfl
      | some found =>
          simp only [Except.map, Except.bind, Option.map_some, finding, repair, hn, bind]

/-- The assessment of a part of the hierarchy finds the first violation in post-order, and the flows
    of the whole part when there is none. -/
theorem assess_eq (s : Site α) (rates : RateTable α) (f : Forest α) (hf : f.IsPart s.hierarchy)
    (totals : FlowTotals α) :
    f.assess s.hierarchy.phases s.wells rates totals
      = (f.postorder.findSomeM? (s.inspect rates)).bind
          (s.finding rates (f.flows s.hierarchy.phases rates totals)) := by
  induction f generalizing totals with
  | nil => rfl
  | well id n next ih =>
      obtain ⟨hn, hwell, hnext⟩ := hf
      rw [Forest.assess, Forest.postorder, Forest.flows, assessWell_eq,
        ← inspect_well rates hn hwell]
      cases hi : s.inspect rates id with
      | error e => rw [findSomeM?_cons_error hi]; rfl
      | ok found =>
          cases found with
          | none => rw [findSomeM?_cons_none hi]; exact ih hnext _
          | some v =>
              rw [findSomeM?_cons_some hi]
              simp only [Except.bind, finding]
              cases s.repair rates v with
              | error e => rfl
              | ok orders => rfl
  | group id n below next ihb ihn =>
      obtain ⟨hn, hgroup, hbelow, hpart, hnext⟩ := hf
      -- the group itself is looked at only when nothing was found below it
      rw [Forest.assess, Forest.postorder, Forest.flows, findSomeM?_append, ihb hpart]
      cases hb : below.postorder.findSomeM? (s.inspect rates) with
      | error e => rfl
      | ok found =>
          cases found with
          | some v =>
              simp only [Except.bind, finding]
              cases s.repair rates v with
              | error e => rfl
              | ok orders => rfl
          | none =>
              simp only [Except.bind, finding]
              rw [hbelow, assessGroup_eq s rates hn, ← inspect_group rates hn hgroup]
              cases hi : s.inspect rates id with
              | error e => rw [findSomeM?_cons_error hi]; rfl
              | ok found =>
                  cases found with
                  | none => rw [findSomeM?_cons_none hi]; exact ihn hnext _
                  | some v =>
                      rw [findSomeM?_cons_some hi]
                      simp only [Except.bind, finding]
                      cases s.repair rates v with
                      | error e => rfl
                      | ok orders => rfl

end Site

end ReservoirWells
