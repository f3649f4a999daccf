import ReservoirWells.Group.Flow

/-!
# Orders — changes to a site, decided first and carried out one by one

A site is a hierarchy together with the well table that its wells point into.  Sharing a target out
or repairing a broken limit is decided on the site as it stands, as a list of orders; `Site.run`
then carries the orders out from left to right.  An order is carried out whole or not at all, and
the first one that cannot be carried out ends the run: what was done before it stays done.

* **`Site.obey`** — one order.
* **`Site.run`** — a list of orders: the site they lead to, and the error that ended them, if any.
-/

namespace ReservoirWells

/-- A hierarchy and the well table that its wells point into. -/
structure Site (α : Type) [Scalar α] where
  /-- Groups and wells. -/
  hierarchy : Hierarchy α
  /-- The wells' controls. -/
  wells : WellTable α

/-- One change to a site. -/
inductive Order (α : Type)
  /-- The well takes a group control and is no longer under individual control. -/
  | install (id : Nat) (control : Control α)
  /-- The node takes a mode. -/
  | adopt (id : Nat) (mode : Mode)
  /-- The targets of the node are up to date. -/
  | refresh (id : Nat)
  /-- Another control of a table entry becomes active. -/
  | activate (index control : Nat)
  /-- The well goes out of production. -/
  | withdraw (id : Nat)
  /-- Nothing can be done. -/
  | refuse (error : GroupError)
  deriving Repr, DecidableEq

variable {α : Type} [Scalar α]

namespace Site

/-- The result of an operation that may stop half-way: the site as it was left, and whether
    everything was done. -/
abbrev Result (α : Type) [Scalar α] (β : Type) := Site α × Except GroupError β

/-- Puts a well under a group control: the control goes into the place set aside for it and becomes
    active. -/
def install (s : Site α) (id : Nat) (control : Control α) : Except GroupError (Site α) := do
  let n ← s.hierarchy.node id
  let index ← n.tableIndex
  let entry ← s.wells.well index
  let (controls, slot) := entry.controls.impose n.groupSlot? control
  return {
    hierarchy := s.hierarchy.modify id fun n =>
      { n.modifyLink fun link => { link with groupSlot := some slot } with individual := false }
    wells := s.wells.setControls index (controls.select slot) }

/-- Takes a well out of production. It is stopped, or, if it is not to stop, left open with a group
    control of rate zero. -/
def withdraw (s : Site α) (id : Nat) : Except GroupError (Site α) := do
  let n ← s.hierarchy.node id
  let index ← n.tableIndex
  match n.link? with
  | none => return s
  | some link =>
    let entry ← s.wells.well index
    if link.stopsWhenWithdrawn then
      return { s with wells := s.wells.setControls index entry.controls.stop }
    else
      let (controls, slot) := entry.controls.impose link.groupSlot (.surfaceRate 0 (.const 1))
      return {
        hierarchy := s.hierarchy.modify id
          (·.modifyLink fun link => { link with groupSlot := some slot })
        wells := s.wells.setControls index controls.reopen }

/-- Carries out one order. -/
def obey (s : Site α) : Order α → Except GroupError (Site α)
  | .install id control => s.install id control
  | .adopt id mode => .ok { s with hierarchy := s.hierarchy.modify id (·.adopt mode) }
  | .refresh id => .ok { s with hierarchy := s.hierarchy.modify id (·.edit (.outdated false)) }
  | .activate index control => .ok { s with
      wells := s.wells.modify index fun w => { w with controls := w.controls.select control } }
  | .withdraw id => s.withdraw id
  | .refuse error => .error error

/-- Carries out orders from left to right, until one fails. -/
def run (s : Site α) : List (Order α) → Result α Unit
  | [] => (s, .ok ())
  | o :: rest =>
    match s.obey o with
    | .ok s => s.run rest
    | .error e => (s, .error e)

/-- Carries out a plan; a plan that was not found changes nothing. -/
def follow (s : Site α) : Except GroupError (List (Order α)) → Result α Unit
  | .ok orders => s.run orders
  | .error e => (s, .error e)

end Site

end ReservoirWells
