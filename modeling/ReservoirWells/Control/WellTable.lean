import ReservoirWells.Control.Rates

/-!
# Wells and their controls

A well has a list of controls of which one is active, and it may be stopped without losing its list.
One place of the list may be set aside for the control that a group imposes: `ControlList.impose`
writes that place, and makes one at the end of the list when there is none yet.

The well table is the list of all wells; nodes of a group tree point into it by index.
-/

namespace ReservoirWells

/-- Produces or injects. -/
inductive WellKind
  | producer
  | injector
  deriving Repr, DecidableEq, Inhabited

/-- What a well control bounds. -/
inductive ControlKind
  /-- Bottom-hole pressure. -/
  | bhp
  /-- Tubing-head pressure. -/
  | thp
  /-- A weighted sum of the rates at reservoir conditions. -/
  | reservoirRate
  /-- A weighted sum of the surface rates. -/
  | surfaceRate
  deriving Repr, DecidableEq, Inhabited

/-- One control of a well. -/
structure Control (α : Type) where
  /-- What is bounded. -/
  kind : ControlKind
  /-- The bound; negative for rates of producers. -/
  target : α
  /-- The weight of each place of the rate block. -/
  weights : Triple α
  deriving Repr, DecidableEq, Inhabited

variable {α : Type}

namespace Control

/-- A bottom-hole pressure control. -/
def bhp [Zero α] (target : α) : Control α := ⟨.bhp, target, .const 0⟩

/-- A surface rate control. -/
def surfaceRate (target : α) (weights : Triple α) : Control α := ⟨.surfaceRate, target, weights⟩

/-- A reservoir rate control. -/
def reservoirRate (target : α) (weights : Triple α) : Control α :=
  ⟨.reservoirRate, target, weights⟩

end Control

/-- The controls of one well. -/
structure ControlList (α : Type) where
  /-- All controls, in the order in which they are checked. -/
  controls : List (Control α)
  /-- Index of the active control. -/
  current : Nat
  /-- Whether the well flows. -/
  isOpen : Bool
  deriving Repr, DecidableEq, Inhabited

namespace ControlList

/-- An open well with the first control active. -/
def ofList (controls : List (Control α)) : ControlList α := ⟨controls, 0, true⟩

/-- The active control; a well without controls has none. -/
def active? (l : ControlList α) : Option (Control α) := l.controls[l.current]?

/-- Makes another control active; an index outside the list changes nothing. -/
def select (l : ControlList α) (index : Nat) : ControlList α :=
  if index < l.controls.length then { l with current := index } else l

/-- Stops the well. -/
def stop (l : ControlList α) : ControlList α := { l with isOpen := false }

/-- Opens the well. -/
def reopen (l : ControlList α) : ControlList α := { l with isOpen := true }

/-- Writes the group control into its place, or at the end of the list when `slot` names no place
    of it. The second part is the place that holds the control now. -/
def impose (l : ControlList α) (slot : Option Nat) (c : Control α) : ControlList α × Nat :=
  match slot with
  | some place =>
    if place < l.controls.length then ({ l with controls := l.controls.set place c }, place)
    else ({ l with controls := l.controls ++ [c] }, l.controls.length)
  | none => ({ l with controls := l.controls ++ [c] }, l.controls.length)

end ControlList

/-- A well of the table. -/
structure Well (α : Type) where
  /-- Its name. -/
  name : String
  /-- Whether it produces or injects. -/
  kind : WellKind
  /-- Its controls. -/
  controls : ControlList α
  deriving Repr, DecidableEq, Inhabited

/-- An open well whose first control is active. -/
def Well.ofControls (name : String) (kind : WellKind) (controls : List (Control α)) : Well α :=
  ⟨name, kind, .ofList controls⟩

/-- All wells, in the order in which they were added. -/
abbrev WellTable (α : Type) := List (Well α)

namespace WellTable

/-- The entry at an index. -/
def well (t : WellTable α) (index : Nat) : Except GroupError (Well α) :=
  match t[index]? with
  | some w => .ok w
  | none => .error (.unknownWell index)

/-- Replaces the controls of one entry. -/
def setControls (t : WellTable α) (index : Nat) (l : ControlList α) : WellTable α :=
  t.modify index fun w => { w with controls := l }

end WellTable

end ReservoirWells
