import ReservoirWells.Scalar

/-!
# Dual numbers — a value together with one derivative

`Dual α` carries a value and its derivative with respect to one unknown.  The operations below
are the usual differentiation rules; every branch looks at values only, so a derivative never
decides which formula is used.  A scalar may stand on the right of `+`, `-`, `*` and `/`, where it
is a constant.

* **`Dual.const`** — a scalar with derivative zero.
* **`Dual.pow`** — a power with a constant exponent, differentiated through the exponent less
  three, so that the value and its derivative share one evaluation of the power.
-/

namespace ReservoirWells

/-- A value and its derivative. -/
structure Dual (α : Type) where
  /-- The value. -/
  re : α
  /-- The derivative. -/
  eps : α
  deriving Repr, DecidableEq, Inhabited

namespace Dual

variable {α : Type} [Scalar α]

/-- A constant: its derivative is zero. -/
def const (c : α) : Dual α := ⟨c, 0⟩

instance : Zero (Dual α) := ⟨const 0⟩

instance : Add (Dual α) := ⟨fun x y => ⟨x.re + y.re, x.eps + y.eps⟩⟩

instance : Sub (Dual α) := ⟨fun x y => ⟨x.re - y.re, x.eps - y.eps⟩⟩

instance : Neg (Dual α) := ⟨fun x => ⟨-x.re, -x.eps⟩⟩

instance : Mul (Dual α) := ⟨fun x y => ⟨x.re * y.re, x.eps * y.re + y.eps * x.re⟩⟩

instance : Div (Dual α) :=
  ⟨fun x y =>
    let i := 1 / y.re
    ⟨x.re * i, (x.eps * y.re - y.eps * x.re) * i * i⟩⟩

instance : HAdd (Dual α) α (Dual α) := ⟨fun x c => ⟨x.re + c, x.eps⟩⟩

instance : HSub (Dual α) α (Dual α) := ⟨fun x c => ⟨x.re - c, x.eps⟩⟩

instance : HMul (Dual α) α (Dual α) := ⟨fun x c => ⟨x.re * c, x.eps * c⟩⟩

instance : HDiv (Dual α) α (Dual α) := ⟨fun x c => ⟨x.re / c, x.eps / c⟩⟩

/-- The same value, as a constant. -/
def forget (x : Dual α) : Dual α := const x.re

/-- The reciprocal. -/
def recip (x : Dual α) : Dual α :=
  let r := 1 / x.re
  ⟨r, x.eps * (-r * r)⟩

/-- The magnitude: a negative value changes sign together with its derivative. -/
def abs (x : Dual α) : Dual α := if x.re < 0 then -x else x

variable [Transcendental α]

/-- The exponential function. -/
def exp (x : Dual α) : Dual α :=
  let e := Transcendental.exp x.re
  ⟨e, x.eps * e⟩

/-- The decimal logarithm. -/
def log10 (x : Dual α) : Dual α :=
  ⟨Transcendental.log10 x.re, x.eps * ((1 / x.re) / Transcendental.ln10)⟩

/-- The power with a constant exponent. Exponents zero, one and two are products; any other goes
    through the exponent less three, which a zero base does not survive below exponent three. -/
def pow (x : Dual α) (n : α) : Dual α :=
  if Scalar.isZero n then const 1
  else if Scalar.same n 1 then x
  else if Scalar.abs ((n - 1) - 1) < 2.220446049250313e-16 then x * x
  else
    let q := Transcendental.pow x.re (((n - 1) - 1) - 1)
    ⟨q * x.re * x.re * x.re, x.eps * (q * x.re * x.re * n)⟩

/-- The power that is exactly zero for a zero base, whatever the exponent, and takes the
    magnitude of any other base. The fraction of an absent phase and a rate of zero stay free of
    infinite derivatives this way. -/
def powAbs (x : Dual α) (n : α) : Dual α :=
  if Scalar.isZero x.re then 0 else pow (abs x) n

end Dual

end ReservoirWells
