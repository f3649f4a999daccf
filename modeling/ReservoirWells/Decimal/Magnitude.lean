/-!
# Magnitudes — the exact value of a float

A finite float is `± m · 2 ^ q` with whole `m` and `q`.  `Decimal.Reading.ofFloat` reads sign,
`m` and `q` off the sixty-four bits; everything that writes a float in decimal starts from there and
works in whole numbers, so no digit is ever lost to rounding on the way.
-/

namespace ReservoirWells.Decimal

/-- The magnitude `m · 2 ^ q` of a finite float. -/
structure Magnitude where
  /-- The whole number `m`. -/
  m : Nat
  /-- The power of two. -/
  q : Int
  deriving Repr, DecidableEq, Inhabited

/-- What the bits of a float stand for. -/
inductive Reading
  | notANumber
  | infinite (negative : Bool)
  | finite (negative : Bool) (size : Magnitude)
  deriving Repr, DecidableEq

/-- The bit that leads the whole number of every normal float: two to the power of fifty-two. -/
def leadingBit : Nat := 1 <<< 52

/-- Reads the sign bit, the eleven exponent bits and the fifty-two fraction bits. -/
def Reading.ofFloat (x : Float) : Reading :=
  let bits := x.toBits.toNat
  let negative := bits >>> 63 == 1
  let exponent : Nat := bits / leadingBit % 2048
  let fraction : Nat := bits % leadingBit
  if exponent == 2047 then
    if fraction == 0 then .infinite negative else .notANumber
  else if exponent == 0 then .finite negative ⟨fraction, -1074⟩
  else .finite negative ⟨leadingBit + fraction, (exponent : Int) - 1075⟩

namespace Magnitude

/-- The value in units of `10 ^ k`, as a quotient of whole numbers. -/
def ratio (x : Magnitude) (k : Int) : Nat × Nat :=
  (x.m * Nat.pow 2 x.q.toNat * Nat.pow 10 (-k).toNat, Nat.pow 2 (-x.q).toNat * Nat.pow 10 k.toNat)

/-- The decimal exponent of a positive magnitude: the largest `e` with `10 ^ e` at most the value.
    The number of binary digits leaves only a few candidates, since the decimal logarithm of two is
    0.30103 to five places. -/
def decimalExponent (x : Magnitude) : Int :=
  let top : Int := (Nat.log2 x.m + x.q + 1) * 30103 / 100000 + 1
  let fits (e : Int) : Bool :=
    let (num, den) := x.ratio e
    den ≤ num
  ([top, top - 1, top - 2].find? fits).getD (top - 3)

/-- The whole number nearest to the value in units of `10 ^ k`; a half goes to the even
    neighbour. -/
def nearest (x : Magnitude) (k : Int) : Nat :=
  let (num, den) := x.ratio k
  let floor := num / den
  let rest := 2 * (num % den)
  if rest < den then floor
  else if den < rest then floor + 1
  else if floor % 2 == 0 then floor else floor + 1

/-- The value rounded to `digits` significant decimal digits: a whole number and the power of ten
    that it counts. -/
def significant (x : Magnitude) (digits : Nat) : Nat × Int :=
  let k := x.decimalExponent - digits + 1
  (x.nearest k, k)

end Magnitude

end ReservoirWells.Decimal
