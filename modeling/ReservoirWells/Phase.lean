/-!
# Phases — water, oil and gas, and which of them are active

A rate block holds one entry per *active* phase, in the order water, oil, gas.
`ActivePhases.position` says where a phase stands in such a block; a phase that is not active
has no position.

* **`PerPhase`** — one value for each of the three phases, active or not.
-/

namespace ReservoirWells

/-- A black-oil phase. -/
inductive Phase
  | water
  | oil
  | gas
  deriving Repr, DecidableEq, Inhabited

namespace Phase

/-- All phases, in the order in which rate blocks list them. -/
def all : List Phase := [.water, .oil, .gas]

/-- Place of a phase in the list of all phases. -/
def index : Phase → Nat
  | .water => 0
  | .oil => 1
  | .gas => 2

/-- The phase as messages spell it. -/
def name : Phase → String
  | .water => "water"
  | .oil => "oil"
  | .gas => "gas"

/-- The phase as injection decks spell it. -/
def keyword : Phase → String
  | .water => "WATER"
  | .oil => "OIL"
  | .gas => "GAS"

end Phase

/-- One value for each phase. -/
structure PerPhase (β : Type) where
  /-- The value for water. -/
  water : β
  /-- The value for oil. -/
  oil : β
  /-- The value for gas. -/
  gas : β
  deriving Repr, DecidableEq, Inhabited

namespace PerPhase

variable {β γ : Type}

/-- The same value for every phase. -/
def const (b : β) : PerPhase β := ⟨b, b, b⟩

/-- The value for one phase. -/
def get (v : PerPhase β) : Phase → β
  | .water => v.water
  | .oil => v.oil
  | .gas => v.gas

/-- Replaces the value for one phase. -/
def set (v : PerPhase β) (p : Phase) (b : β) : PerPhase β :=
  match p with
  | .water => { v with water := b }
  | .oil => { v with oil := b }
  | .gas => { v with gas := b }

/-- Applies a function to every value. -/
def map (f : β → γ) (v : PerPhase β) : PerPhase γ := ⟨f v.water, f v.oil, f v.gas⟩

/-- The values in the order of `Phase.all`. -/
def toList (v : PerPhase β) : List β := Phase.all.map v.get

end PerPhase

/-- Which phases take part in the simulation. -/
structure ActivePhases where
  /-- Water is active. -/
  water : Bool
  /-- Oil is active. -/
  oil : Bool
  /-- Gas is active. -/
  gas : Bool
  deriving Repr, DecidableEq, Inhabited

namespace ActivePhases

/-- All three phases are active. -/
def threePhase : ActivePhases := ⟨true, true, true⟩

/-- Whether a phase is active. -/
def isActive (a : ActivePhases) : Phase → Bool
  | .water => a.water
  | .oil => a.oil
  | .gas => a.gas

/-- The active phases, in block order. -/
def toList (a : ActivePhases) : List Phase := Phase.all.filter a.isActive

/-- Number of active phases, which is the length of a rate block. -/
def count (a : ActivePhases) : Nat := a.toList.length

/-- Place of a phase in a rate block. -/
def position? (a : ActivePhases) (p : Phase) : Option Nat := a.toList.idxOf? p

end ActivePhases

end ReservoirWells
