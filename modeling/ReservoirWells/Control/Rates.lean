import ReservoirWells.Scalar
import ReservoirWells.Group.Error

/-!
# Rates — flat lists with one block per well

Rates come as flat lists: every well owns one block of entries, one entry per active phase.
Production is negative, injection positive.

* **`Rates.slice`** — a stretch of such a list, or the error that says how long the list should be.
* **`RateTable`** — the lists of one moment, and `RateTable.blocks`, the two blocks of one well.
* **`Triple`** — a block filled up with zeros to three entries.
* **`FlowTotals`** — rates added up over the wells below a node, by direction and conditions.
-/

namespace ReservoirWells

variable {α : Type}

namespace Rates

/-- The `count` entries of a list of rates from place `start` on. -/
def slice (rates : List α) (kind : RateKind) (start count : Nat) : Except GroupError (List α) :=
  if start + count ≤ rates.length then .ok ((rates.drop start).take count)
  else .error (.ratesTooShort kind rates.length (start + count))

/-- The entry of a list of rates at one place. -/
def entry (rates : List α) (kind : RateKind) (place : Nat) : Except GroupError α :=
  match rates[place]? with
  | some x => .ok x
  | none => .error (.ratesTooShort kind rates.length (place + 1))

end Rates

/-- The rates of all wells. -/
structure RateTable (α : Type) where
  /-- Bottom-hole pressure per well. -/
  bhp : List α
  /-- Volume rates at reservoir conditions, a block per well. -/
  reservoir : List α
  /-- Surface rates, a block per well. -/
  surface : List α
  deriving Repr, Inhabited

namespace RateTable

/-- The reservoir block and the surface block of one well. -/
def blocks (r : RateTable α) (well phases : Nat) : Except GroupError (List α × List α) := do
  let reservoir ← Rates.slice r.reservoir .reservoir (well * phases) phases
  let surface ← Rates.slice r.surface .surface (well * phases) phases
  return (reservoir, surface)

/-- The bottom-hole pressure of one well. -/
def pressure (r : RateTable α) (well : Nat) : Except GroupError α :=
  Rates.entry r.bhp .bottomHolePressure well

end RateTable

/-! ## Triples -/

/-- Three values, one for each place of the longest possible block. -/
structure Triple (α : Type) where
  /-- First place. -/
  first : α
  /-- Second place. -/
  second : α
  /-- Third place. -/
  third : α
  deriving Repr, DecidableEq, Inhabited

namespace Triple

/-- The same value at every place. -/
def const (x : α) : Triple α := ⟨x, x, x⟩

/-- The values in order. -/
def toList (t : Triple α) : List α := [t.first, t.second, t.third]

/-- Combines two triples place by place. -/
def zipWith (f : α → α → α) (s t : Triple α) : Triple α :=
  ⟨f s.first t.first, f s.second t.second, f s.third t.third⟩

/-- Replaces the value at one place. -/
def set (t : Triple α) (place : Nat) (x : α) : Triple α :=
  match place with
  | 0 => { t with first := x }
  | 1 => { t with second := x }
  | 2 => { t with third := x }
  | _ => t

/-- A block, filled up with zeros. -/
def ofBlock [Zero α] (block : List α) : Triple α :=
  ⟨block[0]?.getD 0, block[1]?.getD 0, block[2]?.getD 0⟩

end Triple

/-! ## Totals -/

/-- Rates added up over wells: injection apart from production, reservoir conditions apart from
    surface conditions. -/
structure FlowTotals (α : Type) where
  /-- Injection at reservoir conditions. -/
  reservoirInjection : Triple α
  /-- Production at reservoir conditions. -/
  reservoirProduction : Triple α
  /-- Injection at surface conditions. -/
  surfaceInjection : Triple α
  /-- Production at surface conditions. -/
  surfaceProduction : Triple α
  deriving Repr, DecidableEq, Inhabited

namespace FlowTotals

/-- Nothing flows. -/
def zero [Zero α] : FlowTotals α := ⟨.const 0, .const 0, .const 0, .const 0⟩

instance [Add α] : Add (FlowTotals α) :=
  ⟨fun s t =>
    { reservoirInjection := s.reservoirInjection.zipWith (· + ·) t.reservoirInjection
      reservoirProduction := s.reservoirProduction.zipWith (· + ·) t.reservoirProduction
      surfaceInjection := s.surfaceInjection.zipWith (· + ·) t.surfaceInjection
      surfaceProduction := s.surfaceProduction.zipWith (· + ·) t.surfaceProduction }⟩

/-- The blocks of a single well. Only an injector counts as injecting. -/
def ofWell [Zero α] (injector : Bool) (reservoir surface : List α) : FlowTotals α :=
  if injector then
    { zero with reservoirInjection := .ofBlock reservoir, surfaceInjection := .ofBlock surface }
  else
    { zero with reservoirProduction := .ofBlock reservoir, surfaceProduction := .ofBlock surface }

/-- The triple at reservoir conditions, in one direction. -/
def reservoir (t : FlowTotals α) : Direction → Triple α
  | .production => t.reservoirProduction
  | .injection => t.reservoirInjection

/-- The triple at surface conditions, in one direction. -/
def surface (t : FlowTotals α) : Direction → Triple α
  | .production => t.surfaceProduction
  | .injection => t.surfaceInjection

end FlowTotals

end ReservoirWells
