import ReservoirWells.Dual
import ReservoirWells.Segment.Layout

/-!
# The values of the unknowns

`Unknowns` holds one row per segment, one value per place of the layout.  `Unknowns.seed` reads a
row as dual numbers whose derivative is with respect to one chosen unknown; the fractions of all
three phases come with it, inactive phases having none.
-/

namespace ReservoirWells

/-- The values of the unknowns of all segments. -/
structure Unknowns (α : Type) where
  /-- The places. -/
  layout : Layout
  /-- A row per segment. -/
  rows : List (List α)
  deriving Repr, DecidableEq, Inhabited

/-- The unknowns of one segment as dual numbers. -/
structure SeededRow (α : Type) where
  /-- Total rate. -/
  totalRate : Dual α
  /-- Pressure. -/
  pressure : Dual α
  /-- Fraction of each phase. -/
  fractions : PerPhase (Dual α)
  deriving Repr, DecidableEq

variable {α : Type} [Scalar α]

namespace Unknowns

/-- All zero. -/
def zero (layout : Layout) (segments : Nat) : Unknowns α :=
  ⟨layout, List.replicate segments (List.replicate layout.size 0)⟩

/-- Number of segments. -/
def segments (u : Unknowns α) : Nat := u.rows.length

/-- One value. -/
def value (u : Unknowns α) (seg slot : Nat) : α := ((u.rows[seg]?).bind (·[slot]?)).getD 0

/-- The total rate of a segment. -/
def totalRate (u : Unknowns α) (seg : Nat) : α := u.value seg Layout.rateSlot

/-- The pressure of a segment. -/
def pressure (u : Unknowns α) (seg : Nat) : α := u.value seg u.layout.pressureSlot

/-- Replaces the row of a segment; nothing for a segment outside the well or a row that does not fit
    the layout. -/
def setRow? (u : Unknowns α) (seg : Nat) (row : List α) : Option (Unknowns α) :=
  if seg < u.rows.length && row.length == u.layout.size then
    some { u with rows := u.rows.set seg row }
  else none

/-- Replaces the rows of consecutive segments from `first` on. -/
def setRows? (u : Unknowns α) : (first : Nat) → List (List α) → Option (Unknowns α)
  | _, [] => some u
  | first, row :: rest => (u.setRow? first row).bind fun u => u.setRows? (first + 1) rest

/-- One unknown as a dual number, with derivative one if it is the chosen one. -/
def seeded (u : Unknowns α) (seg chosen slot : Nat) : Dual α :=
  ⟨u.value seg slot, if slot == chosen then 1 else 0⟩

/-- The unknowns of a segment, differentiated with respect to the one at place `chosen`. -/
def seed (u : Unknowns α) (seg chosen : Nat) : SeededRow α :=
  let fraction (slot : Option Nat) : Dual α :=
    match slot with
    | some slot => u.seeded seg chosen slot
    | none => 0
  let water := fraction u.layout.waterSlot?
  let gas := fraction u.layout.gasSlot?
  let fractions : PerPhase (Dual α) := ⟨water, 0, gas⟩
  { totalRate := u.seeded seg chosen Layout.rateSlot
    pressure := u.seeded seg chosen u.layout.pressureSlot
    fractions := fractions.set u.layout.impliedPhase (.const 1 - water - gas) }

end Unknowns

end ReservoirWells
