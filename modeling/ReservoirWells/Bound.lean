import ReservoirWells.Scalar

/-!
# Bounds — numbers that were checked once

Guide rates and fractions may not be negative, efficiency factors must be positive.  A value of
`Nonneg α` or `Positive α` is a number together with the proof of its bound, so the
code that divides by it need not look again.  The two checks are the only way in from a plain
number; they hold for every kind of amount, words as well as scalars.

A sum of checked numbers is looked at again: there is none when it is out of range, which
happens to words of fixed width, and none when it turns out to be below zero.
-/

namespace ReservoirWells

/-- Why a number was refused. -/
inductive BoundError
  | negative
  | zero
  | notANumber
  deriving Repr, DecidableEq

/-- The wording of each refusal. -/
def BoundError.message : BoundError → String
  | .negative => "value must not be negative"
  | .zero => "value must not be zero"
  | .notANumber => "value is not a number"

variable {α : Type}

/-- A number that is at least zero. -/
structure Nonneg (α : Type) [Amount α] where
  /-- The number. -/
  val : α
  /-- Its bound. -/
  nonneg : 0 ≤ val

/-- A number that is greater than zero. -/
structure Positive (α : Type) [Amount α] where
  /-- The number. -/
  val : α
  /-- Its bound. -/
  pos : 0 < val

variable [Amount α]

/-- Accepts a number that is at least zero. A value that is neither that nor below zero is not
    comparable with zero at all. -/
def Nonneg.check (x : α) : Except BoundError (Nonneg α) :=
  if h : 0 ≤ x then .ok ⟨x, h⟩
  else if x < 0 then .error .negative
  else .error .notANumber

/-- Accepts a number greater than zero, and tells zero from negative numbers. -/
def Positive.check (x : α) : Except BoundError (Positive α) :=
  if h : 0 < x then .ok ⟨x, h⟩
  else if x < 0 then .error .negative
  else if 0 ≤ x then .error .zero
  else .error .notANumber

/-- Zero is not negative. -/
def Nonneg.zero : Nonneg α := ⟨0, Amount.zero_le_zero⟩

/-- One is not negative. -/
def Nonneg.one : Nonneg α := ⟨1, Amount.zero_le_one⟩

/-- The sum of two checked numbers. There is none when it is out of range, or not at least zero. -/
def Nonneg.add? [RangedAdd α] (x y : Nonneg α) : Option (Nonneg α) :=
  (RangedAdd.add? x.val y.val).bind fun sum => if h : 0 ≤ sum then some ⟨sum, h⟩ else none

/-- The sum of checked numbers, added from left to right. -/
def Nonneg.total? [RangedAdd α] (xs : List (Nonneg α)) : Option (Nonneg α) :=
  xs.foldlM Nonneg.add? .zero

end ReservoirWells
