import ReservoirWells.Decimal.Magnitude

/-!
# Shortest decimal text — the fewest digits that read back

Among the decimals that round to a given float, the text shows one with the fewest digits, and of
those the one nearest to the float; an exact tie goes up.  For each count of digits only the two
neighbours of the value on that decimal grid can be nearest, so `Magnitude.shortest` tries those two
and takes the first grid that has a hit.

The text is always positional: no exponent, and no fraction for a whole number.
-/

namespace ReservoirWells.Decimal

namespace Magnitude

/-- Whether the whole number `c`, in units of `10 ^ k`, rounds to the float with this magnitude.
    The bounds lie half-way to the neighbouring floats; below a power of two the neighbour is twice
    as near. A bound itself rounds to the float when its last bit is even. -/
def readsBack (x : Magnitude) (c : Nat) (k : Int) : Bool :=
  let quarter : Magnitude := ⟨1, x.q - 2⟩
  let (num, den) := quarter.ratio k
  let low := if x.m == leadingBit && x.q != -1074 then 4 * x.m - 1 else 4 * x.m - 2
  let high := 4 * x.m + 2
  if x.m % 2 == 0 then
    decide (low * num ≤ c * den) && decide (c * den ≤ high * num)
  else
    decide (low * num < c * den) && decide (c * den < high * num)

/-- The neighbour of the value on the grid of `10 ^ k` that reads back, the nearer one if both
    do. -/
def shortestOn (x : Magnitude) (k : Int) : Option Nat :=
  let (num, den) := x.ratio k
  let floor := num / den
  match x.readsBack floor k, x.readsBack (floor + 1) k with
  | true, true => if 2 * (num % den) < den then some floor else some (floor + 1)
  | true, false => some floor
  | false, true => some (floor + 1)
  | false, false => none

/-- The shortest decimal of a positive magnitude. Seventeen digits always read back. -/
def shortest (x : Magnitude) : Nat × Int :=
  let e := x.decimalExponent
  let grids := (List.range 17).map fun (i : Nat) => e - i
  match grids.findSome? fun k => (x.shortestOn k).map fun c => (c, k) with
  | some found => found
  | none => (x.nearest (e - 16), e - 16)

end Magnitude

/-- Positional text of the whole number `c` in units of `10 ^ k`, without zeros at the end of a
    fraction. -/
def positional (c : Nat) (k : Int) : String :=
  let places := (-k).toNat
  let digits := Nat.toDigits 10 (c * Nat.pow 10 k.toNat)
  let padded := List.replicate (places + 1 - digits.length) '0' ++ digits
  let whole := padded.take (padded.length - places)
  let fraction := (padded.drop (padded.length - places)).reverse.dropWhile (· == '0')
  if fraction.isEmpty then String.ofList whole
  else String.ofList (whole ++ '.' :: fraction.reverse)

/-- The text of a float in a message. -/
def floatText (x : Float) : String :=
  let signed (negative : Bool) (text : String) : String := if negative then "-" ++ text else text
  match Reading.ofFloat x with
  | .notANumber => "NaN"
  | .infinite negative => signed negative "inf"
  | .finite negative size =>
    if size.m == 0 then signed negative "0"
    else
      let (c, k) := size.shortest
      signed negative (positional c k)

end ReservoirWells.Decimal
