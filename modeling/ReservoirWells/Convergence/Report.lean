/-!
# Convergence reports

A report lists the equations of wells that have not converged, in the order in which they were
found. A report without failures says that everything has converged.
-/

namespace ReservoirWells

/-- How badly an equation has failed, from mildest to worst. -/
inductive Severity
  /-- Not at all. -/
  | none
  /-- Above its tolerance. -/
  | normal
  /-- Above everything allowed. -/
  | tooLarge
  /-- Not even a number. -/
  | notANumber
  deriving Repr, DecidableEq, Inhabited

namespace Severity

/-- Place in the order from mildest to worst. -/
def rank : Severity → Nat
  | .none => 0
  | .normal => 1
  | .tooLarge => 2
  | .notANumber => 3

/-- The worse of two severities. -/
def worse (s t : Severity) : Severity := if s.rank < t.rank then t else s

end Severity

/-- The equations that can fail. -/
inductive Equation
  /-- A mass balance. -/
  | massBalance
  /-- The pressure equation of a segment. -/
  | pressure
  /-- Control on bottom-hole pressure. -/
  | controlBhp
  /-- Control on tubing-head pressure. -/
  | controlThp
  /-- Control on a rate. -/
  | controlRate
  deriving Repr, DecidableEq, Inhabited

/-- One equation of one well that has failed. -/
structure Failure where
  /-- The equation. -/
  equation : Equation
  /-- How badly. -/
  severity : Severity
  /-- Which mass balance. -/
  component : Option Nat
  /-- The well. -/
  well : String
  deriving Repr, DecidableEq, Inhabited

/-- The failures in the order found. -/
structure Report where
  /-- All failures. -/
  failures : List Failure
  deriving Repr, DecidableEq, Inhabited

namespace Report

/-- No failures. -/
def empty : Report := ⟨[]⟩

/-- Adds one failure at the end. -/
def push (r : Report) (f : Failure) : Report := ⟨r.failures ++ [f]⟩

instance : Append Report := ⟨fun r s => ⟨r.failures ++ s.failures⟩⟩

/-- Whether nothing has failed. -/
def converged (r : Report) : Bool := r.failures.isEmpty

/-- The worst severity of all failures. -/
def worst (r : Report) : Severity := r.failures.foldl (fun s f => s.worse f.severity) .none

end Report

end ReservoirWells
