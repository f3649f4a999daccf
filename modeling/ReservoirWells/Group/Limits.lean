import ReservoirWells.Group.Distribution

/-!
# Limits — checking them and answering the first one that is broken

The subtree of a node is assessed from the wells up: the children of a group in order, then the
group itself against the rates summed over its children.  The first limit that does not hold ends
the assessment with a *repair*, the orders that answer it; an error ends it as well.  Nothing
changes until the assessment is over (`Site.checkLimits`).

* A well checks its own controls, except the active one and the group control.  The repair makes the
  broken control active.
* A group checks its injection targets, then its production targets, each except the one of its
  current mode.  A broken injection target is pushed down as group control; for a broken production
  target the group's procedure decides.
-/

namespace ReservoirWells

variable {α : Type} [Scalar α]

/-- What an assessment finds. -/
inductive Finding (α : Type)
  /-- Every limit holds; the rates are summed over the wells. -/
  | met (totals : FlowTotals α)
  /-- A limit is broken; the orders answer it. -/
  | broken (repair : List (Order α))
  deriving Repr

/-! ## Wells -/

namespace Control

/-- The rate that a control is about: the sum of a block, each place with its weight. -/
def weighted (c : Control α) (block : List α) : α :=
  Scalar.total (block.zipWith (· * ·) c.weights.toList)

/-- Whether a limit is exceeded. A producer's pressure may not fall below its limit and an
    injector's may not rise above it; rates are compared by magnitude, at reservoir conditions with
    a margin of one part in a million. -/
def isBroken (c : Control α) (producer : Bool) (pressure : α) (reservoir surface : List α) :
    Except GroupError Bool :=
  match c.kind with
  | .bhp => .ok (if producer then decide (pressure < c.target) else decide (c.target < pressure))
  | .thp => .error (.notImplemented .tubingHeadLimit)
  | .reservoirRate =>
    let rate := Scalar.abs (c.weighted reservoir)
    let target := Scalar.abs c.target
    .ok (decide (Scalar.max rate target * 1e-6 < rate - target))
  | .surfaceRate =>
    .ok (decide (Scalar.abs c.target < Scalar.abs (c.weighted surface)))

end Control

/-- The first control that is exceeded, among those that `skip` does not pass over. The list starts
    at place `index`. -/
def firstBroken (skip : Nat → Bool) (isBroken : Control α → Except GroupError Bool) :
    (index : Nat) → List (Control α) → Except GroupError (Option Nat)
  | _, [] => .ok none
  | index, c :: rest =>
    if skip index then firstBroken skip isBroken (index + 1) rest
    else
      match isBroken c with
      | .ok true => .ok (some index)
      | .ok false => firstBroken skip isBroken (index + 1) rest
      | .error e => .error e

/-- Assesses a well. -/
def Node.assessWell (n : Node α) (a : ActivePhases) (wells : WellTable α) (rates : RateTable α) :
    Except GroupError (Finding α) := do
  let index ← n.tableIndex
  let (reservoir, surface) ← rates.blocks index a.count
  let pressure ← rates.pressure index
  let entry ← wells.well index
  let skip (place : Nat) : Bool :=
    place == entry.controls.current || some place == n.groupSlot?
  match ← firstBroken skip (·.isBroken n.isProducer pressure reservoir surface) 0
      entry.controls.controls with
  | some place => return .broken [.activate index place]
  | none => return .met (.ofWell n.isInjector reservoir surface)

/-! ## Groups -/

/-- The modes whose targets a group checks, in order. -/
def checkedModes : List Mode :=
  [.injection .rate, .injection .resv, .production .orat, .production .wrat, .production .grat,
    .production .lrat, .production .resv]

/-- How much of a rate counts against a target: production is negative and counts by magnitude. -/
def Direction.extent (d : Direction) (rate : α) : α :=
  match d with
  | .production => Scalar.abs rate
  | .injection => rate

namespace Node

/-- The first of some modes whose target the summed rates exceed, together with the target. The mode
    in force and undefined targets are passed over. -/
def exceeded (n : Node α) (a : ActivePhases) (totals : FlowTotals α) :
    List Mode → Except GroupError (Option (Mode × α))
  | [] => .ok none
  | mode :: rest =>
    let d := mode.direction
    if n.specs.mode d == mode then n.exceeded a totals rest
    else
      match n.target mode with
      | .error e => .error e
      | .ok none => n.exceeded a totals rest
      | .ok (some target) =>
        match a.rate (totals.reservoir d).toList (totals.surface d).toList mode with
        | .error e => .error e
        | .ok rate =>
          if target < d.extent rate then .ok (some (mode, target)) else n.exceeded a totals rest

/-- The orders that push a target from a group down over its children. -/
def enforce (n : Node α) (id : Nat) (below : Forest α) (a : ActivePhases) (mode : Mode)
    (target : α) : List (Order α) :=
  (Forest.group id n below .nil).push a mode false false fun _ => target

/-- The answer of a group to an exceeded target. An injection target is enforced and becomes the
    mode of the group; for a production target the procedure decides. -/
def answer (n : Node α) (id : Nat) (below : Forest α) (a : ActivePhases) (rates : RateTable α)
    (mode : Mode) (target : α) : Except GroupError (List (Order α)) :=
  match mode with
  | .injection _ => .ok (n.enforce id below a mode target ++ [.adopt id mode])
  | .production m =>
    match n.specs.production.procedure with
    | .none => .ok []
    | .rate => .ok (n.enforce id below a mode target)
    | .well =>
      (below.worst a rates m none).map fun worst =>
        match worst with
        | some (well, _) => [.withdraw well]
        | none => []

/-- Assesses a group whose children are in order and flow as `totals` says. -/
def assessGroup (n : Node α) (id : Nat) (below : Forest α) (a : ActivePhases)
    (rates : RateTable α) (totals : FlowTotals α) : Except GroupError (Finding α) :=
  match n.exceeded a totals checkedModes with
  | .error e => .error e
  | .ok none => .ok (.met totals)
  | .ok (some (mode, target)) => (n.answer id below a rates mode target).map .broken

end Node

/-! ## Subtrees -/

/-- Assesses sibling nodes in order, each group after everything below it, and adds their rates to
    `totals`. -/
def Forest.assess (a : ActivePhases) (wells : WellTable α) (rates : RateTable α) :
    FlowTotals α → Forest α → Except GroupError (Finding α)
  | totals, .nil => .ok (.met totals)
  | totals, .well _ n next =>
    match n.assessWell a wells rates with
    | .ok (.met own) => assess a wells rates (totals + own) next
    | ended => ended
  | totals, .group id n below next =>
    match assess a wells rates .zero below with
    | .ok (.met children) =>
      match n.assessGroup id below a rates children with
      | .ok (.met own) => assess a wells rates (totals + own) next
      | ended => ended
    | ended => ended

/-- The outcome of a check. -/
inductive Outcome (α : Type)
  /-- Every limit holds. -/
  | met (totals : FlowTotals α)
  /-- A limit was broken, and has been answered. -/
  | violated
  deriving Repr

/-- Checks the limits in the subtree of a node, and answers the first one that is broken. -/
def Site.checkLimits (s : Site α) (id : Nat) (rates : RateTable α) : Site.Result α (Outcome α) :=
  match (s.hierarchy.subtree id).bind (·.assess s.hierarchy.phases s.wells rates .zero) with
  | .error e => (s, .error e)
  | .ok (.met totals) => (s, .ok (.met totals))
  | .ok (.broken repair) =>
    let (after, done) := s.run repair
    (after, done.map fun _ => .violated)

end ReservoirWells
