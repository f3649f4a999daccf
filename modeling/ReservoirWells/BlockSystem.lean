import ReservoirWells.Scalar

/-!
# The linear system of a well

Residuals are addressed by segment and equation, Jacobian entries by the segment and equation of
their row and the segment and unknown of their column.  Both are kept flat and row by row: `row` and
`entry` turn an address into a place.

Writing outside the system changes nothing and reading there gives zero; the operations whose name
ends in a question mark say so instead.
-/

namespace ReservoirWells

/-- Residuals and Jacobian of a well. -/
structure BlockSystem (α : Type) where
  /-- Number of segments. -/
  segments : Nat
  /-- Number of equations, and of unknowns, of a segment. -/
  equations : Nat
  /-- The residuals, a run per segment. -/
  residuals : Array α
  /-- The Jacobian, a run per row. -/
  entries : Array α
  deriving Repr, DecidableEq, Inhabited

namespace BlockSystem

variable {α : Type} [Scalar α]

/-- All zero. -/
def zero (segments equations : Nat) : BlockSystem α :=
  let size := segments * equations
  ⟨segments, equations, Array.replicate size 0, Array.replicate (size * size) 0⟩

/-- Sets everything to zero. -/
def clear (s : BlockSystem α) : BlockSystem α :=
  { s with residuals := s.residuals.map fun _ => 0, entries := s.entries.map fun _ => 0 }

/-! ## Addresses -/

/-- Place of a residual. -/
def row (s : BlockSystem α) (seg eq : Nat) : Nat := seg * s.equations + eq

/-- Place of a Jacobian entry. -/
def entry (s : BlockSystem α) (rowSeg rowEq colSeg colVar : Nat) : Nat :=
  s.row rowSeg rowEq * (s.segments * s.equations) + s.row colSeg colVar

/-- Whether a segment and an equation lie within the system. -/
def hasRow (s : BlockSystem α) (seg eq : Nat) : Bool :=
  decide (seg < s.segments) && decide (eq < s.equations)

/-! ## Reading -/

/-- A residual. -/
def residual (s : BlockSystem α) (seg eq : Nat) : α := (s.residuals[s.row seg eq]?).getD 0

/-- A Jacobian entry. -/
def jacobian (s : BlockSystem α) (rowSeg rowEq colSeg colVar : Nat) : α :=
  (s.entries[s.entry rowSeg rowEq colSeg colVar]?).getD 0

/-- The residuals of a segment, by equation. -/
def segmentResidual (s : BlockSystem α) (seg : Nat) : List α :=
  (List.range s.equations).map (s.residual seg)

/-- A residual within the system. -/
def residual? (s : BlockSystem α) (seg eq : Nat) : Option α :=
  if s.hasRow seg eq then some (s.residual seg eq) else none

/-- A Jacobian entry within the system. -/
def jacobian? (s : BlockSystem α) (rowSeg rowEq colSeg colVar : Nat) : Option α :=
  if s.hasRow rowSeg rowEq && s.hasRow colSeg colVar then
    some (s.jacobian rowSeg rowEq colSeg colVar)
  else none

/-- The residuals of a segment within the system. -/
def segmentResidual? (s : BlockSystem α) (seg : Nat) : Option (List α) :=
  if seg < s.segments then some (s.segmentResidual seg) else none

/-! ## Writing -/

/-- Changes a residual. -/
def modifyResidual (s : BlockSystem α) (seg eq : Nat) (f : α → α) : BlockSystem α :=
  { s with residuals := s.residuals.modify (s.row seg eq) f }

/-- Changes a Jacobian entry. -/
def modifyJacobian (s : BlockSystem α) (rowSeg rowEq colSeg colVar : Nat) (f : α → α) :
    BlockSystem α :=
  { s with entries := s.entries.modify (s.entry rowSeg rowEq colSeg colVar) f }

/-- Replaces a residual. -/
def setResidual (s : BlockSystem α) (seg eq : Nat) (value : α) : BlockSystem α :=
  s.modifyResidual seg eq fun _ => value

/-- Adds to a residual. -/
def addResidual (s : BlockSystem α) (seg eq : Nat) (value : α) : BlockSystem α :=
  s.modifyResidual seg eq (· + value)

/-- Replaces a Jacobian entry. -/
def setJacobian (s : BlockSystem α) (rowSeg rowEq colSeg colVar : Nat) (value : α) :
    BlockSystem α :=
  s.modifyJacobian rowSeg rowEq colSeg colVar fun _ => value

/-- Adds to a Jacobian entry. -/
def addJacobian (s : BlockSystem α) (rowSeg rowEq colSeg colVar : Nat) (value : α) :
    BlockSystem α :=
  s.modifyJacobian rowSeg rowEq colSeg colVar (· + value)

/-- Changes a residual within the system. -/
def modifyResidual? (s : BlockSystem α) (seg eq : Nat) (f : α → α) : Option (BlockSystem α) :=
  if s.hasRow seg eq then some (s.modifyResidual seg eq f) else none

/-- Changes a Jacobian entry within the system. -/
def modifyJacobian? (s : BlockSystem α) (rowSeg rowEq colSeg colVar : Nat) (f : α → α) :
    Option (BlockSystem α) :=
  if s.hasRow rowSeg rowEq && s.hasRow colSeg colVar then
    some (s.modifyJacobian rowSeg rowEq colSeg colVar f)
  else none

/-- Adds multiples of a list of derivatives to a row, in the columns of a segment. -/
def addRow (s : BlockSystem α) (rowSeg rowEq colSeg : Nat) (derivatives : List α) (scale : α) :
    BlockSystem α :=
  derivatives.zipIdx.foldl
    (fun s (derivative, slot) => s.addJacobian rowSeg rowEq colSeg slot (scale * derivative)) s

/-! ## Listing -/

/-- The residuals, a list per segment. -/
def residualRows (s : BlockSystem α) : List (List α) :=
  (List.range s.segments).map s.segmentResidual

/-- The address and value of each Jacobian entry that is not zero, row by row. -/
def nonzeros (s : BlockSystem α) : List ((Nat × Nat) × (Nat × Nat) × α) :=
  let places := (List.range s.segments).flatMap fun seg =>
    (List.range s.equations).map fun eq => (seg, eq)
  places.flatMap fun r => places.filterMap fun c =>
    let value := s.jacobian r.1 r.2 c.1 c.2
    if Scalar.isZero value then none else some (r, c, value)

end BlockSystem

end ReservoirWells
