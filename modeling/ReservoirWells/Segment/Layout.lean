import ReservoirWells.Phase

/-!
# The unknowns of a segment and their places

A segment has one unknown per place of its layout: the total rate first, then the water fraction
when water is active beside another phase, then the gas fraction when gas and oil are active, and
the pressure last.  There is one equation per unknown, in the same places: a mass balance for each
active phase, and the pressure equation, which the top segment gives to the control equation.
Without active phases the place of the rate has no mass balance.

The fraction of one phase is not an unknown but what the others leave of one
(`Layout.impliedPhase`).
-/

namespace ReservoirWells

/-- The places of a segment's unknowns, which the active phases decide. -/
structure Layout where
  /-- The active phases. -/
  phases : ActivePhases
  deriving Repr, DecidableEq, Inhabited

namespace Layout

/-- Place of the total rate. -/
def rateSlot : Nat := 0

/-- Place of the water fraction, if it is an unknown. -/
def waterSlot? (l : Layout) : Option Nat :=
  if l.phases.water && l.phases.count > 1 then some 1 else none

/-- Place of the gas fraction, if it is an unknown. -/
def gasSlot? (l : Layout) : Option Nat :=
  if l.phases.gas && l.phases.oil then some (if l.waterSlot?.isSome then 2 else 1) else none

/-- Place of the pressure. -/
def pressureSlot (l : Layout) : Nat :=
  1 + (if l.waterSlot?.isSome then 1 else 0) + (if l.gasSlot?.isSome then 1 else 0)

/-- Number of unknowns, and of equations, of a segment. -/
def size (l : Layout) : Nat := l.pressureSlot + 1

/-- Number of mass balances. -/
def components (l : Layout) : Nat := l.phases.count

/-- The phase whose fraction is what the others leave: oil when it is active, otherwise gas,
    otherwise water. -/
def impliedPhase (l : Layout) : Phase :=
  if l.phases.oil then .oil else if l.phases.gas then .gas else .water

end Layout

end ReservoirWells
