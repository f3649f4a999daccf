import ReservoirWells.Group.Order

/-!
# Distribution — sharing targets out by guide rate

A group shares a target out over its children in proportion to their guide rates, each child group
shares its part out over its own children, and so on down to the wells, which turn their part into a
control.  A group that shares a target from above follows it from then on (mode FLD).

`Forest.push` is that rule, for either direction; the operations below differ only in where the
first target comes from and which children take part:

* **`Site.pushTarget`** — a target that the caller gives.
* **`Site.shareProduction`**, **`Site.shareInjection`** — the targets of the groups themselves.
* **`Site.reinject`** — a part of what is produced.
* **`Site.refreshProduction`** — what is left of a target once the producers under individual
  control have taken theirs.
-/

namespace ReservoirWells

variable {α : Type} [Scalar α]

/-! ## The control of a well -/

/-- Weight one for the places of some phases, and zero for the others. -/
def ActivePhases.weights (a : ActivePhases) (phases : List Phase) :
    Except GroupError (Triple α) :=
  phases.foldlM
    (fun weights p => (a.position p).map fun place => weights.set place 1) (Triple.const 0)

/-- The control that holds a well to a target in a mode. -/
def groupControl (a : ActivePhases) (mode : Mode) (target : α) : Except GroupError (Control α) :=
  match mode with
  | .production .resv | .injection .resv => .ok (.reservoirRate target (.const 1))
  | .injection .rate => .ok (.surfaceRate target (.const 1))
  | .production m =>
    match m.surfacePhases? with
    | some phases => (a.weights phases).map (.surfaceRate target)
    | none => .error (.unsupportedMode mode .wellControl)
  | .injection _ => .error (.unsupportedMode mode .wellControl)

namespace Direction

/-- The mode of a group that follows a target from above. -/
def following : Direction → Mode
  | .production => .production .fld
  | .injection => .injection .fld

/-- The mode of a group that is not controlled. -/
def uncontrolled : Direction → Mode
  | .production => .production .none
  | .injection => .injection .none

/-- The wells that flow in a direction. -/
def wellKind : Direction → WellKind
  | .production => .producer
  | .injection => .injector

/-- The share of a well as a control target: over its efficiency factor, and negative for
    production. -/
def wellTarget (d : Direction) (share efficiency : α) : α :=
  match d with
  | .production => -share / efficiency
  | .injection => share / efficiency

end Direction

/-! ## Pushing a target down -/

/-- The orders that hand a share of a target to a well. Wells of the other direction ignore it, and
    with `onlyGroup` so do wells under individual control. -/
def Node.take (n : Node α) (id : Nat) (a : ActivePhases) (mode : Mode) (onlyGroup : Bool)
    (share : α) : List (Order α) :=
  if !n.isKind mode.direction.wellKind then []
  else if onlyGroup && n.individual then []
  else
    match groupControl a mode (mode.direction.wellTarget share n.efficiency.val) with
    | .ok control => [.install id control]
    | .error e => [.refuse e]

/-- Whether a group leaves a target alone: it is not controlled, or it is to take part only as a
    follower and is none. -/
def Node.declines (n : Node α) (d : Direction) (onlyGroup : Bool) : Bool :=
  n.specs.mode d == d.uncontrolled || (onlyGroup && n.specs.mode d != d.following)

namespace Forest

/-- The sum by which a group divides when it shares a target out. With `onlyGroup`, an injection
    target is divided among the wells under group control only; a production target never is. -/
def divisor (below : Forest α) (d : Direction) (onlyGroup : Bool) : α :=
  below.guideTotal d (d == .injection && onlyGroup) 0

/-- The orders that push a target down a forest. `target` turns the guide rate of a sibling into
    its share; guide rates are taken with `shareGroup`. A group hands on its share over its own
    efficiency factor, in proportion to guide rates, and then follows; a group without guide
    rates below it leaves everything as it is. Only the siblings themselves heed `onlyGroup`. -/
def push (a : ActivePhases) (mode : Mode) :
    (onlyGroup shareGroup : Bool) → (target : α → α) → Forest α → List (Order α)
  | _, _, _, .nil => []
  | onlyGroup, shareGroup, target, .well id n next =>
    n.take id a mode onlyGroup (target (n.share mode.direction shareGroup))
      ++ push a mode onlyGroup shareGroup target next
  | onlyGroup, shareGroup, target, .group id n below next =>
    let d := mode.direction
    let divisor := below.divisor d onlyGroup
    let scaled := target (below.guideTotal d shareGroup 0) / n.efficiency.val
    (if n.declines d onlyGroup || Scalar.isZero divisor then []
      else push a mode false onlyGroup (fun guide => scaled * (guide / divisor)) below
        ++ [.adopt id d.following])
      ++ push a mode onlyGroup shareGroup target next

/-! ## The groups' own targets -/

/-- The target that a group in a rate mode shares out. -/
def ownTarget (n : Node α) (divisor : α) (mode : Mode) : Except GroupError α :=
  if Scalar.isZero divisor then .error (.zeroGuideRate n.name)
  else
    match n.target mode with
    | .ok (some target) => .ok target
    | .ok none => .error (.undefinedTarget n.name mode)
    | .error e => .error e

/-- The orders that share out the own production target of each group. A group in a rate mode
    shares it over all children; below a group without such a mode the search goes on. -/
def ownProduction (a : ActivePhases) : Forest α → List (Order α)
  | .nil => []
  | .well _ _ next => ownProduction a next
  | .group _ n below next =>
    let mode := n.specs.production.mode
    let divisor := below.guideTotal .production false 0
    (if mode.isRate then
        match ownTarget n divisor (.production mode) with
        | .ok target =>
          below.push a (.production mode) false false fun guide => guide / divisor * target
        | .error e => [.refuse e]
      else if mode == .fld || mode == .none then ownProduction a below
      else [.refuse (.unsupportedMode (.production mode) .productionControls)])
      ++ ownProduction a next

/-- The orders that share out the own injection target of each group, over the group's efficiency
    factor and over the children that are under group control already. Groups that replace what
    is produced are left to `Site.reinject`. -/
def ownInjection (a : ActivePhases) : Forest α → List (Order α)
  | .nil => []
  | .well _ _ next => ownInjection a next
  | .group _ n below next =>
    let mode := n.specs.injection.mode
    let divisor := below.guideTotal .injection false 0
    (match mode with
      | .rate | .resv =>
        match ownTarget n divisor (.injection mode) with
        | .ok target =>
          below.push a (.injection mode) true false fun guide =>
            guide / divisor * target / n.efficiency.val
        | .error e => [.refuse e]
      | .rein | .vrep => []
      | .fld | .none => ownInjection a below
      | _ => [.refuse (.unsupportedMode (.injection mode) .injectionControls)])
      ++ ownInjection a next

/-- The orders that share out a volume to be injected, over the children under group control. -/
def inject (a : ActivePhases) (mode : InjectionMode) (volume fraction : α) (below : Forest α) :
    List (Order α) :=
  let divisor := below.guideTotal .injection true 0
  if Scalar.isZero divisor then []
  else below.push a (.injection mode) true true fun guide => guide / divisor * volume * fraction

end Forest

/-! ## Plans -/

namespace Hierarchy

/-- What a group injects again, the mode in which it does, and the fraction of it. Production is
    negative, so the volume changes sign. -/
def replacement? (h : Hierarchy α) (n : Node α) (below : Forest α) (rates : RateTable α) :
    Except GroupError (Option (InjectionMode × α × α)) :=
  let spec := n.specs.injection
  match spec.mode with
  | .rein => do
    let produced ← below.produced h.phases rates.surface spec.phase
    return some (.rate, -produced, spec.reinjection.val)
  | .vrep => do
    let produced ← h.phases.toList.mapM (below.produced h.phases rates.reservoir)
    return some (.resv, -Scalar.total produced, spec.voidage.val)
  | _ => .ok none

/-- The plan of `Site.reinject`. -/
def reinjectionPlan (h : Hierarchy α) (id : Nat) (rates : RateTable α) :
    Except GroupError (List (Order α)) := do
  let n ← h.node id
  if !n.isGroup then return []
  else
    match ← h.replacement? n (h.below id) rates with
    | some (mode, volume, fraction) => return (h.below id).inject h.phases mode volume fraction
    | none => return []

/-- The target of a node that must be defined. -/
def definedTarget (n : Node α) (mode : Mode) : Except GroupError α := do
  match ← n.target mode with
  | some target => return target
  | none => .error (.undefinedTarget n.name mode)

/-- The mode and target by which a group refreshes the wells directly below it. A follower takes
    those of its parent, the target over the parent's efficiency factor. -/
def refreshTarget (h : Hierarchy α) (n : Node α) : Except GroupError (ProductionMode × α) :=
  let mode := n.specs.production.mode
  if mode == .fld then
    match n.parent with
    | none => .error (.missingParent n.name)
    | some above => do
      let parent ← h.node above
      let theirs := parent.specs.production.mode
      let target ← definedTarget parent (.production theirs)
      return (theirs, target / parent.efficiency.val)
  else if mode.isRate then (definedTarget n (.production mode)).map fun target => (mode, target)
  else .error (.unsupportedMode (.production mode) .productionUpdate)

/-- The rate that producers under individual control take, added up over some nodes. -/
def individualRate (h : Hierarchy α) (mode : ProductionMode) (flows : List α)
    (nodes : List (Nat × Node α)) : Except GroupError α :=
  nodes.foldlM
    (fun sum (_, n) =>
      if n.individual && n.isProducer then
        (n.productionRate h.phases flows mode).map fun rate =>
          sum + Scalar.abs (rate * n.efficiency.val)
      else .ok sum) 0

/-- The plan of `Site.refreshProduction`. -/
def refreshPlan (h : Hierarchy α) (id : Nat) (flows : List α) :
    Except GroupError (List (Order α)) := do
  let n ← h.node id
  if !n.isGroup then return []
  else
    let below := h.below id
    let (mode, target) ← h.refreshTarget n
    let taken ← h.individualRate mode flows below.siblings
    let remaining := target / n.efficiency.val - taken
    let divisor := below.guideTotal .production true 0
    if Scalar.isZero divisor then return []
    else return below.siblings.flatMap fun (child, c) =>
      if c.individual || !c.isProducer then []
      else
        c.take child h.phases (.production mode) true
            (c.share .production true / divisor * remaining)
          ++ [.refresh child]

end Hierarchy

/-! ## Operations -/

namespace Site

/-- Pushes a target down the subtree of a node. With `onlyGroup`, the node itself takes it only if
    it follows already. -/
def pushTarget (s : Site α) (id : Nat) (mode : Mode) (target : α) (onlyGroup : Bool) :
    Result α Unit :=
  s.follow ((s.hierarchy.subtree id).map fun f =>
    f.push s.hierarchy.phases mode onlyGroup onlyGroup fun _ => target)

/-- Shares out the own production targets of the groups in the subtree of a node. -/
def shareProduction (s : Site α) (id : Nat) : Result α Unit :=
  s.follow ((s.hierarchy.subtree id).map (·.ownProduction s.hierarchy.phases))

/-- Shares out the own injection targets of the groups in the subtree of a node. -/
def shareInjection (s : Site α) (id : Nat) : Result α Unit :=
  s.follow ((s.hierarchy.subtree id).map (·.ownInjection s.hierarchy.phases))

/-- Shares out what a group is to inject again: a fraction of the produced phase, or of the produced
    volume. Any other group, and a well, does nothing. -/
def reinject (s : Site α) (id : Nat) (rates : RateTable α) : Result α Unit :=
  s.follow (s.hierarchy.reinjectionPlan id rates)

/-- Shares the remainder of a group's production target over the producers directly below it that
    are under group control. -/
def refreshProduction (s : Site α) (id : Nat) (flows : List α) : Result α Unit :=
  s.follow (s.hierarchy.refreshPlan id flows)

/-- Marks the injectors directly below a node that are under group control as up to date. -/
def refreshInjection (s : Site α) (id : Nat) : Result α Unit :=
  s.follow ((s.hierarchy.node id).map fun n =>
    if !n.isGroup then []
    else (s.hierarchy.below id).siblings.flatMap fun (child, c) =>
      if !c.individual && c.isInjector then [.refresh child] else [])

/-- Takes a well out of production. -/
def withdrawWell (s : Site α) (id : Nat) : Result α Unit := s.follow (.ok [.withdraw id])

end Site

end ReservoirWells
