import Mathlib.Algebra.Field.Rat
import Mathlib.Algebra.Order.Field.Basic
import Mathlib.Algebra.Order.Group.Unbundled.Abs
import Mathlib.Algebra.Order.Ring.Rat
import ReservoirWells.Bound

/-! # Exact scalars — arithmetic without rounding

    The formulas of this library are written over any `Scalar`.  An `ExactScalar` is a scalar whose
    operations are those of a linearly ordered field, so that nothing is rounded, nothing is
    infinite and everything is comparable.  What a formula computes in exact arithmetic is stated
    over this class, and the rational numbers are an instance on which the statements can be run.

    The last section says what the comparisons of `Scalar` come to for exact scalars. -/

namespace ReservoirWells

/-- Scalars that form a linearly ordered field. Decimal literals have their exact values. -/
class ExactScalar (α : Type) extends Scalar α, Field α, LinearOrder α, IsStrictOrderedRing α where
  /-- There is neither an infinite value nor a "not a number". -/
  isFinite_eq_true : ∀ x : α, Scalar.isFinite x = true
  /-- A literal is its digits over or times a power of ten. -/
  ofScientific_eq : ∀ (digits : Nat) (below : Bool) (places : Nat),
    (OfScientific.ofScientific digits below places : α)
      = if below then (digits : α) / 10 ^ places else (digits : α) * 10 ^ places

/-- Rational numbers are scalars. -/
instance instScalarRat : Scalar ℚ where
  decidableLt := inferInstance
  decidableLe := inferInstance
  zero_le_zero := le_refl 0
  zero_le_one := zero_le_one
  isFinite := fun _ => true

/-- Rational arithmetic is exact. -/
instance instExactScalarRat : ExactScalar ℚ where
  __ := instScalarRat
  __ := (inferInstance : Field ℚ)
  __ := (inferInstance : LinearOrder ℚ)
  __ := (inferInstance : IsStrictOrderedRing ℚ)
  isFinite_eq_true := fun _ => rfl
  ofScientific_eq := by
    intro digits below places
    show Rat.ofScientific digits below places = _
    rw [Rat.ofScientific_def]
    cases below with
    | true => simp [Rat.mkRat_eq_div]
    | false => simp

/-! ## Factors -/

namespace Positive

variable {α : Type} [ExactScalar α]

/-- The factor of a node that flows all of the time. -/
def one : Positive α := ⟨1, one_pos⟩

/-- The factor of a node that flows half of the time. -/
def half : Positive α := ⟨1 / 2, one_half_pos⟩

end Positive

/-- The guide rate of a node that gets twice the usual share. -/
def Nonneg.two {α : Type} [ExactScalar α] : Nonneg α := ⟨2, zero_le_two⟩

/-- A literal is not below zero. -/
theorem ExactScalar.ofScientific_nonneg {α : Type} [ExactScalar α] (digits : Nat) (below : Bool)
    (places : Nat) : 0 ≤ (OfScientific.ofScientific digits below places : α) := by
  rw [ExactScalar.ofScientific_eq]
  split
  · exact div_nonneg (Nat.cast_nonneg _) (pow_nonneg (Nat.cast_nonneg 10) _)
  · exact mul_nonneg (Nat.cast_nonneg _) (pow_nonneg (Nat.cast_nonneg 10) _)

/-- A literal with nothing but a zero after its point is a whole number. -/
theorem ExactScalar.ofScientific_whole {α : Type} [ExactScalar α] (n : Nat) :
    (OfScientific.ofScientific (n * 10) true 1 : α) = n := by
  rw [ExactScalar.ofScientific_eq, if_pos rfl, pow_one, Nat.cast_mul, Nat.cast_ofNat]
  exact mul_div_cancel_right₀ _ (Nat.ofNat_pos (n := 10)).ne'

/-! ## Sums -/

/-- Members that contribute nothing need not be added up. -/
theorem sum_map_filter_of_zero {α β : Type} [ExactScalar α] {p : β → Bool} {f : β → α} {l : List β}
    (h : ∀ b ∈ l, p b = false → f b = 0) : ((l.filter p).map f).sum = (l.map f).sum := by
  induction l with
  | nil => rfl
  | cons b rest ih =>
      have hrest := ih fun x hx => h x (List.mem_cons_of_mem b hx)
      rw [List.map_cons, List.sum_cons]
      cases hp : p b with
      | true => rw [List.filter_cons_of_pos hp, List.map_cons, List.sum_cons, hrest]
      | false =>
          rw [List.filter_cons_of_neg (by rw [hp]; exact Bool.false_ne_true), hrest,
            h b (List.mem_cons_self ..) hp, zero_add]

/-! ## Comparisons -/

namespace Scalar

variable {α : Type} [ExactScalar α]

/-- Only zero is a zero. -/
theorem isZero_iff (x : α) : isZero x = true ↔ x = 0 := by
  rw [show isZero x = (decide (x ≤ 0) && decide (0 ≤ x)) from rfl]
  rw [Bool.and_eq_true, decide_eq_true_eq, decide_eq_true_eq]
  constructor
  · rintro ⟨h1, h2⟩
    exact le_antisymm h1 h2
  · intro h
    exact ⟨h.le, h.ge⟩

/-- A positive scalar is no zero. -/
theorem isZero_of_pos {x : α} (h : 0 < x) : isZero x = false := by
  cases hz : isZero x with
  | false => rfl
  | true => exact absurd ((isZero_iff x).mp hz) h.ne'

theorem abs_eq (x : α) : abs x = |x| := by
  rw [abs]
  split
  · next h => rw [abs_of_neg h]
  · next h => rw [abs_of_nonneg (not_lt.mp h)]

end Scalar

end ReservoirWells
