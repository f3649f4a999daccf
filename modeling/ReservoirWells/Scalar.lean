/-!
# Scalars — one set of formulas for every kind of number

Rates, targets, pressures and residuals are all scalars.  Each formula of this library is
written once, over a type `α` of scalars, and is run on `Float`; the same formula read over an
ordered field says what it computes when nothing is rounded.

* **`Amount`** — zero, one, addition and a decidable order: what can be counted up and bounded.
* **`RangedAdd`** — the sum of two amounts, unless it is out of range.
* **`Scalar`** — an amount with the remaining arithmetic, and which scalars are finite.
* **`Transcendental`** — powers, exponentials and logarithms, used by the pressure-loss laws only.

A scalar need not be comparable with itself.  A scalar that is not even at most itself is *not a
number* (`Scalar.isNumber`), and every comparison below is written so that such a scalar falls
on the side its doc comment says.
-/

namespace ReservoirWells

/-- What can be counted up and compared with zero. The two laws are all that the bounds of
    `ReservoirWells.Bound` need of zero and one. -/
class Amount (α : Type) extends Zero α, One α, Add α, LT α, LE α where
  /-- Strict comparison can be decided. -/
  decidableLt : DecidableLT α
  /-- Comparison can be decided. -/
  decidableLe : DecidableLE α
  /-- Zero is at most zero. -/
  zero_le_zero : (0 : α) ≤ 0
  /-- Zero is at most one. -/
  zero_le_one : (0 : α) ≤ 1

instance Amount.instDecidableLT {α : Type} [Amount α] : DecidableLT α := Amount.decidableLt

instance Amount.instDecidableLE {α : Type} [Amount α] : DecidableLE α := Amount.decidableLe

/-- Addition that notices when a sum is out of range. -/
class RangedAdd (α : Type) [Add α] where
  /-- The sum; nothing when it is out of range. -/
  add? : α → α → Option α
  /-- A sum within the range is the plain sum. -/
  eq_add : ∀ {x y sum : α}, add? x y = some sum → sum = x + y

/-- The numbers that flow through a well: field operations, an order with decidable comparisons, and
    decimal literals. -/
class Scalar (α : Type) extends Amount α, Sub α, Mul α, Div α, Neg α, OfScientific α where
  /-- Neither infinite nor "not a number". -/
  isFinite : α → Bool

/-- Powers, exponentials and decimal logarithms of scalars. -/
class Transcendental (α : Type) where
  /-- The power `x ^ y`. -/
  pow : α → α → α
  /-- The exponential function. -/
  exp : α → α
  /-- The decimal logarithm. -/
  log10 : α → α
  /-- The natural logarithm of ten. -/
  ln10 : α

namespace Scalar

variable {α : Type} [Scalar α]

/-- A scalar is a number when it is at most itself. -/
def isNumber (x : α) : Bool := decide (x ≤ x)

/-- Two scalars are the same when each is at most the other. -/
def same (x y : α) : Bool := decide (x ≤ y) && decide (y ≤ x)

/-- Zero of either sign. -/
def isZero (x : α) : Bool := same x 0

/-- Below zero, or a zero on the negative side: one whose reciprocal is below zero. -/
def isNegative (x : α) : Bool := decide (x < 0) || (isZero x && decide (1 / x < 0))

/-- The magnitude of a scalar. -/
def abs (x : α) : α := if x < 0 then -x else x

/-- The larger of two scalars; a side that is not a number gives way to the other. -/
def max (x y : α) : α := if isNumber x then (if x < y then y else x) else y

/-- The larger of two scalars; a side that is not a number is the result. -/
def strictMax (x y : α) : α :=
  if isNumber x then (if isNumber y then max x y else y) else x

/-- The sum of a list, added from left to right. -/
def total (xs : List α) : α := xs.foldl (· + ·) 0

end Scalar

/-- Double-precision floats are scalars. -/
instance : Scalar Float where
  decidableLt := inferInstance
  decidableLe := inferInstance
  zero_le_zero := by decide
  zero_le_one := by decide
  isFinite := Float.isFinite

/-- Words of sixty-four bits are amounts; their sums wrap. -/
instance : Amount Int64 where
  decidableLt := inferInstance
  decidableLe := inferInstance
  zero_le_zero := by decide
  zero_le_one := by decide

/-- A sum of floats that is too large is infinite, and not out of range. -/
instance RangedAdd.instFloat : RangedAdd Float where
  add? x y := some (x + y)
  eq_add h := (Option.some.inj h).symm

/-- A sum of words is in range when nothing was lost by wrapping. -/
instance RangedAdd.instInt64 : RangedAdd Int64 where
  add? x y := if (x + y).toInt = x.toInt + y.toInt then some (x + y) else none
  eq_add {x y _} h := by
    by_cases hrange : (x + y).toInt = x.toInt + y.toInt
    · rw [if_pos hrange] at h
      exact (Option.some.inj h).symm
    · rw [if_neg hrange] at h
      cases h

/-- Powers and logarithms of double-precision floats. -/
instance : Transcendental Float where
  pow := Float.pow
  exp := Float.exp
  log10 := Float.log10
  ln10 := 2.302585092994046

end ReservoirWells
