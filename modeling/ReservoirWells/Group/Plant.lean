import ReservoirWells.Group.Limits
import ReservoirWells.Group.Network

/-!
# Plants — the operations, one step after the other

A plant is a network together with the well table that its wells point into.  The operations below
walk down the stored lists.  At each node they read what is there at that moment, act, and go on to
the next child, so a later reading sees what was done before it; an error ends the walk and leaves
behind what was done so far.

A site decides on all of its orders first and carries them out afterwards.  Here every order is
carried out on the spot (`Plant.order`), and nothing is decided before it is needed.

The walks are recursions on a depth; `Plant.perform` starts them with the number of members, which
is deeper than any network goes.

* **`Plant.push`** — a target is handed down from a node to its children.
* **`Plant.shareProduction`**, **`shareInjection`**, **`reinject`** — where the targets come from.
* **`Plant.refreshProduction`**, **`refreshInjection`** — the wells directly below a group.
* **`Plant.check`** — the limits of a subtree, children first.
-/

namespace ReservoirWells

/-- A network and the well table that its wells point into. -/
structure Plant (α : Type) [Scalar α] where
  /-- Groups and wells. -/
  network : Network α
  /-- The wells' controls. -/
  wells : WellTable α

variable {α : Type} [Scalar α]

namespace Plant

open Steps

/-- The nodes and the table, without the lists of children. -/
def site (p : Plant α) : Site α := ⟨p.network.hierarchy, p.wells⟩

/-- The nodes and the table of a site, with the lists of children as they were. -/
def withSite (p : Plant α) (s : Site α) : Plant α where
  network := {
    phases := s.hierarchy.phases
    members := p.network.members.zipWith (fun m n => { m with node := n }) s.hierarchy.nodes }
  wells := s.wells

/-- Changes the network by some steps; the well table stays as it is. -/
def build {β : Type} (steps : Steps (Network α) β) (p : Plant α) : Plant α × Except GroupError β :=
  match steps.run p.network with
  | .ok b network => ({ p with network }, .ok b)
  | .error e network => ({ p with network }, .error e)

/-! ## Single steps -/

/-- Carries out an order. -/
def order (o : Order α) : Steps (Plant α) Unit := fun p =>
  match p.site.obey o with
  | .ok s => .ok () (p.withSite s)
  | .error e => .error e p

/-- The node at a place. -/
def node (id : Nat) : Steps (Plant α) (Node α) :=
  ask fun p => (p.network.member id).map (·.node)

/-- The children of a member, as they are listed. -/
def children (id : Nat) : Steps (Plant α) (List Nat) :=
  ask fun p => (p.network.member id).map (·.children)

/-- The active phases. -/
def phases : Steps (Plant α) ActivePhases := do return (← get).network.phases

/-- The guide rate of a member. -/
def guideRate (d : Direction) (id : Nat) (onlyGroup : Bool) : Steps (Plant α) α :=
  ask fun p => p.network.guideRate d id onlyGroup

/-! ## Handing targets down -/

/-- Hands a target to a node, and a group hands it on to its children. With `onlyGroup` the node
    takes it only if it is under group control, or follows already. -/
def push (mode : Mode) : (depth id : Nat) → (target : α) → (onlyGroup : Bool) →
    Steps (Plant α) Unit
  | 0, _, _, _ => return
  | depth + 1, id, target, onlyGroup => do
    let d := mode.direction
    let n ← node id
    match n.role with
    | .well _ => (n.take id (← phases) mode onlyGroup target).forM order
    | .group =>
      if n.declines d onlyGroup then return
      let divisor ← guideRate d id (d == .injection && onlyGroup)
      if Scalar.isZero divisor then return
      let scaled := target / n.efficiency.val
      (← children id).forM fun child => do
        let guide ← guideRate d child onlyGroup
        push mode depth child (scaled * (guide / divisor)) false
      order (.adopt id d.following)

/-- Shares out the own production target of a group, or goes on with its children. -/
def shareProduction : (depth id : Nat) → Steps (Plant α) Unit
  | 0, _ => return
  | depth + 1, id => do
    let n ← node id
    match n.role with
    | .well _ => return
    | .group =>
      let mode := n.specs.production.mode
      if mode.isRate then
        let divisor ← guideRate .production id false
        let target ← ask fun _ => Forest.ownTarget n divisor (.production mode)
        (← children id).forM fun child => do
          let guide ← guideRate .production child false
          push (.production mode) depth child (guide / divisor * target) false
      else if mode == .fld || mode == .none then
        (← children id).forM (shareProduction depth)
      else throw (.unsupportedMode (.production mode) .productionControls)

/-- Shares out the own injection target of a group, or goes on with its children. -/
def shareInjection : (depth id : Nat) → Steps (Plant α) Unit
  | 0, _ => return
  | depth + 1, id => do
    let n ← node id
    match n.role with
    | .well _ => return
    | .group =>
      let mode := n.specs.injection.mode
      match mode with
      | .rate | .resv =>
        let divisor ← guideRate .injection id false
        let target ← ask fun _ => Forest.ownTarget n divisor (.injection mode)
        (← children id).forM fun child => do
          let guide ← guideRate .injection child false
          push (.injection mode) depth child (guide / divisor * target / n.efficiency.val) true
      | .rein | .vrep => return
      | .fld | .none => (← children id).forM (shareInjection depth)
      | _ => throw (.unsupportedMode (.injection mode) .injectionControls)

/-- Shares out what a group is to inject again over its children. -/
def reinject (depth id : Nat) (rates : RateTable α) : Steps (Plant α) Unit := do
  let n ← node id
  if !n.isGroup then return
  let replaced ← ask fun p => do
    p.network.hierarchy.replacement? n (← p.network.below id) rates
  match replaced with
  | none => return
  | some (mode, volume, fraction) =>
    let divisor ← guideRate .injection id true
    if Scalar.isZero divisor then return
    (← children id).forM fun child => do
      let guide ← guideRate .injection child true
      push (.injection mode) depth child (guide / divisor * volume * fraction) true

/-! ## Wells directly below a group -/

/-- Shares out what producers under individual control leave of a group's target. -/
def refreshProduction (depth id : Nat) (flows : List α) : Steps (Plant α) Unit := do
  let n ← node id
  if !n.isGroup then return
  let (mode, target) ← ask fun p => p.network.hierarchy.refreshTarget n
  let taken ← ask fun p => do
    p.network.hierarchy.individualRate mode flows (← p.network.below id).siblings
  let remaining := target / n.efficiency.val - taken
  let divisor ← guideRate .production id true
  if Scalar.isZero divisor then return
  (← children id).forM fun child => do
    let c ← node child
    if c.individual || !c.isProducer then return
    let guide ← guideRate .production child true
    push (.production mode) depth child (guide / divisor * remaining) true
    order (.refresh child)

/-- Marks the injectors below a node that are under group control as up to date. -/
def refreshInjection (id : Nat) : Steps (Plant α) Unit := do
  (← children id).forM fun child => do
    let c ← node child
    if !c.individual && c.isInjector then order (.refresh child)

/-! ## Limits -/

/-- Checks some members in order and adds up their rates, until one has broken a limit. -/
def checkAll (check : Nat → Steps (Plant α) (Outcome α)) :
    FlowTotals α → List Nat → Steps (Plant α) (Outcome α)
  | totals, [] => return .met totals
  | totals, child :: rest => do
    match ← check child with
    | .met own => checkAll check (totals + own) rest
    | .violated => return .violated

/-- Answers a target that a group exceeds. -/
def answer (depth id : Nat) (n : Node α) (rates : RateTable α) (mode : Mode) (target : α) :
    Steps (Plant α) Unit := do
  match mode with
  | .injection _ =>
    push mode depth id target false
    order (.adopt id mode)
  | .production m =>
    match n.specs.production.procedure with
    | .none => return
    | .rate => push mode depth id target false
    | .well =>
      match ← ask fun p => p.network.worst id rates m with
      | some (worst, _) => order (.withdraw worst)
      | none => return

/-- Checks the limits of a subtree, the children of a group before the group itself, and answers the
    first one that is broken. -/
def check (rates : RateTable α) : (depth id : Nat) → Steps (Plant α) (Outcome α)
  | 0, _ => return .violated
  | depth + 1, id => do
    let n ← node id
    match n.role with
    | .well _ =>
      match ← ask fun p => n.assessWell p.network.phases p.wells rates with
      | .met totals => return .met totals
      | .broken repair =>
        repair.forM order
        return .violated
    | .group =>
      match ← checkAll (check rates depth) .zero (← children id) with
      | .violated => return .violated
      | .met totals =>
        match ← ask fun p => n.exceeded p.network.phases totals checkedModes with
        | none => return .met totals
        | some (mode, target) =>
          answer (depth + 1) id n rates mode target
          return .violated

/-! ## Operations -/

/-- The plant that some steps leave behind, and what they return. -/
def result {β : Type} : EStateM.Result GroupError (Plant α) β → Plant α × Except GroupError β
  | .ok b p => (p, .ok b)
  | .error e p => (p, .error e)

/-- Starts an operation with a depth that no walk reaches. -/
def perform {β : Type} (operation : (depth : Nat) → Steps (Plant α) β) (p : Plant α) :
    Plant α × Except GroupError β :=
  result ((operation (p.network.members.length + 1)).run p)

end Plant

end ReservoirWells
