import ReservoirWells.Group.Forest

/-!
# Flow — rates of blocks, wells and subtrees, and the targets they are compared with

A mode picks a rate out of a block: the surface rates of its phases, or the sum over all active
phases.  Signs are left as they are, so production comes out negative.

* **`ActivePhases.rate`** — the rate of a block under a mode.
* **`Node.target`** — the defined target of a mode.
* **`Forest.produced`** — the production of one phase, summed over the wells of a forest.
* **`Forest.worst`** — the well with the largest rate.
-/

namespace ReservoirWells

variable {α : Type} [Scalar α]

/-! ## Rates of a block -/

namespace ActivePhases

/-- Place of an active phase in a block. -/
def position (a : ActivePhases) (p : Phase) : Except GroupError Nat :=
  match a.position? p with
  | some place => .ok place
  | none => .error (.phaseNotActive p)

/-- The surface rate of one phase. -/
def surfaceRate (a : ActivePhases) (surface : List α) (p : Phase) : Except GroupError α := do
  let place ← a.position p
  Rates.entry surface .surface place

/-- The sum over all active phases. -/
def sumActive (a : ActivePhases) (rates : List α) (kind : RateKind) : Except GroupError α :=
  (Rates.slice rates kind 0 a.count).map Scalar.total

/-- The rate that a mode is about. -/
def rate (a : ActivePhases) (reservoir surface : List α) (mode : Mode) : Except GroupError α :=
  match mode with
  | .production .resv | .injection .resv => a.sumActive reservoir .reservoir
  | .injection .rate => a.sumActive surface .surface
  | .production m =>
    match m.surfacePhases? with
    | some phases => (phases.mapM (a.surfaceRate surface)).map Scalar.total
    | none => .error (.unsupportedMode mode .productionRate)
  | .injection _ => .error (.unsupportedMode mode .injectionRate)

end ActivePhases

/-! ## Targets -/

/-- The operation of asking for a target, by direction. -/
def Direction.targetActivity : Direction → Activity
  | .production => .productionTarget
  | .injection => .injectionTarget

namespace Node

/-- The target of a mode; nothing when it is undefined. -/
def target (n : Node α) (mode : Mode) : Except GroupError (Option α) :=
  match n.specs.targetField? mode with
  | some target => .ok (defined? target)
  | none => .error (.unsupportedMode mode mode.direction.targetActivity)

/-! ## Production of wells -/

/-- What a well produces at one place of its block. Injectors produce nothing. -/
def producedAt (n : Node α) (phases place : Nat) (flows : List α) : Except GroupError α :=
  if n.isInjector then .ok 0
  else do
    let index ← n.tableIndex
    Rates.entry flows .phaseFlow (index * phases + place)

/-- What a well produces of one phase. -/
def produced (n : Node α) (a : ActivePhases) (flows : List α) (p : Phase) :
    Except GroupError α := do
  let place ← a.position p
  n.producedAt a.count place flows

/-- The rate of a single well under a production mode. -/
def productionRate (n : Node α) (a : ActivePhases) (flows : List α) (mode : ProductionMode) :
    Except GroupError α :=
  if n.isGroup then .error (.notImplemented .groupProductionRate)
  else
    match if mode == .resv then some a.toList else mode.surfacePhases? with
    | some phases => (phases.mapM (n.produced a flows)).map Scalar.total
    | none => .error (.unsupportedMode (.production mode) .wellProductionRate)

/-- The magnitude of the rate of a well under a production mode, from its own blocks. -/
def magnitude (n : Node α) (a : ActivePhases) (rates : RateTable α) (mode : ProductionMode) :
    Except GroupError α := do
  let index ← n.tableIndex
  let (reservoir, surface) ← rates.blocks index a.count
  let rate ← a.rate reservoir surface (.production mode)
  return Scalar.abs rate

end Node

namespace Forest

/-- What the wells of a forest produce at one place of their blocks, added to `sum`. -/
def producedAt (phases place : Nat) (flows : List α) : α → Forest α → Except GroupError α
  | sum, .nil => .ok sum
  | sum, .well _ n next => do
    let own ← n.producedAt phases place flows
    producedAt phases place flows (sum + own) next
  | sum, .group _ _ below next => do
    let own ← producedAt phases place flows 0 below
    producedAt phases place flows (sum + own) next

/-- What the wells of a forest produce of one phase. -/
def produced (f : Forest α) (a : ActivePhases) (flows : List α) (p : Phase) :
    Except GroupError α := do
  let place ← a.position p
  f.producedAt a.count place flows 0

/-- Keeps the larger of two wells; the earlier one unless the later is strictly larger. -/
def worse (best candidate : Option (Nat × α)) : Option (Nat × α) :=
  match best, candidate with
  | some (_, most), some (_, rate) => if most < rate then candidate else best
  | none, _ => candidate
  | _, none => best

/-- The well with the largest magnitude of rate, together with that magnitude; the first one if
    there are several. Each group puts forward its own largest. -/
def worst (a : ActivePhases) (rates : RateTable α) (mode : ProductionMode) :
    Option (Nat × α) → Forest α → Except GroupError (Option (Nat × α))
  | best, .nil => .ok best
  | best, .well id n next => do
    let rate ← n.magnitude a rates mode
    worst a rates mode (worse best (some (id, rate))) next
  | best, .group _ _ below next => do
    let candidate ← worst a rates mode none below
    worst a rates mode (worse best candidate) next

end Forest

namespace Hierarchy

/-- The target of a node for a mode. -/
def target (h : Hierarchy α) (id : Nat) (mode : Mode) : Except GroupError (Option α) := do
  let n ← h.node id
  n.target mode

/-- The production of a phase in the subtree of a node. The phase is looked at before the node. -/
def produced (h : Hierarchy α) (id : Nat) (flows : List α) (p : Phase) : Except GroupError α := do
  let place ← h.phases.position p
  let f ← h.subtree id
  f.producedAt h.phases.count place flows 0

/-- The rate of a single well under a production mode. -/
def productionRate (h : Hierarchy α) (id : Nat) (flows : List α) (mode : ProductionMode) :
    Except GroupError α := do
  let n ← h.node id
  n.productionRate h.phases flows mode

/-- The well with the largest magnitude of rate in the subtree of a node. -/
def worst (h : Hierarchy α) (id : Nat) (rates : RateTable α) (mode : ProductionMode) :
    Except GroupError (Option (Nat × α)) := do
  let f ← h.subtree id
  f.worst h.phases rates mode none

end Hierarchy

end ReservoirWells
