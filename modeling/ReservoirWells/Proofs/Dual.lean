import Mathlib.Tactic.FieldSimp
import Mathlib.Tactic.Ring
import ReservoirWells.Proofs.Exact
import ReservoirWells.Dual

/-! # Dual numbers — forgetting a derivative commutes with arithmetic

    Every operation on dual numbers looks at values only when it chooses a formula, and its derivative
    is linear in the derivatives that go in.  So in exact arithmetic it makes no difference whether
    derivatives are forgotten before an operation or after it (`Dual.forget_add` and so on), for any
    power, exponential and logarithm whatever. -/

namespace ReservoirWells.Dual

variable {α : Type}

section Constants

variable [Scalar α]

@[simp] theorem forget_re (x : Dual α) : x.forget.re = x.re := rfl

@[simp] theorem forget_eps (x : Dual α) : x.forget.eps = 0 := rfl

@[simp] theorem forget_forget (x : Dual α) : x.forget.forget = x.forget := rfl

@[simp] theorem forget_const (c : α) : (const c).forget = const c := rfl

@[simp] theorem forget_zero : (0 : Dual α).forget = 0 := rfl

@[simp] theorem re_sub (x y : Dual α) : (x - y).re = x.re - y.re := rfl

@[simp] theorem eps_sub (x y : Dual α) : (x - y).eps = x.eps - y.eps := rfl

@[simp] theorem re_zero : (0 : Dual α).re = 0 := rfl

@[simp] theorem eps_zero : (0 : Dual α).eps = 0 := rfl

@[simp] theorem re_const (c : α) : (const c).re = c := rfl

@[simp] theorem eps_const (c : α) : (const c).eps = 0 := rfl

@[simp] theorem re_add (x y : Dual α) : (x + y).re = x.re + y.re := rfl

@[simp] theorem eps_add (x y : Dual α) : (x + y).eps = x.eps + y.eps := rfl

@[simp] theorem re_neg (x : Dual α) : (-x).re = -x.re := rfl

@[simp] theorem re_mul (x y : Dual α) : (x * y).re = x.re * y.re := rfl

theorem eps_neg (x : Dual α) : (-x).eps = -x.eps := rfl

theorem eps_mul (x y : Dual α) : (x * y).eps = x.eps * y.re + y.eps * x.re := rfl

theorem eps_div (x y : Dual α) :
    (x / y).eps = (x.eps * y.re - y.eps * x.re) * (1 / y.re) * (1 / y.re) := rfl

theorem eps_recip (x : Dual α) : x.recip.eps = x.eps * (-(1 / x.re) * (1 / x.re)) := rfl

@[simp] theorem re_recip (x : Dual α) : x.recip.re = 1 / x.re := rfl

@[simp] theorem re_add_scalar (x : Dual α) (c : α) : (x + c).re = x.re + c := rfl

theorem eps_add_scalar (x : Dual α) (c : α) : (x + c).eps = x.eps := rfl

@[simp] theorem re_sub_scalar (x : Dual α) (c : α) : (x - c).re = x.re - c := rfl

@[simp] theorem re_div_scalar (x : Dual α) (c : α) : (x / c).re = x.re / c := rfl

@[simp] theorem re_mul_scalar (x : Dual α) (c : α) : (x * c).re = x.re * c := rfl

@[simp] theorem eps_mul_scalar (x : Dual α) (c : α) : (x * c).eps = x.eps * c := rfl

omit [Scalar α] in
/-- Dual numbers are the same when their values and their derivatives are. -/
@[ext] theorem ext {x y : Dual α} (hre : x.re = y.re) (heps : x.eps = y.eps) : x = y := by
  obtain ⟨re, eps⟩ := x
  cases hre
  cases heps
  rfl

/-- What is forgotten is a derivative that is not zero. -/
theorem forget_eq {x y : Dual α} (hre : x.re = y.re) (heps : y.eps = 0) : x.forget = y := by
  obtain ⟨re, eps⟩ := y
  cases hre
  cases heps
  rfl

/-- Only values remain. -/
theorem forget_congr {x y : Dual α} (h : x.re = y.re) : x.forget = y.forget := congrArg const h

@[simp] theorem forget_ite (p : Prop) [Decidable p] (x y : Dual α) :
    (if p then x else y).forget = if p then x.forget else y.forget := apply_ite ..

/-! ## Values alone

    The value of a result follows from values alone, whatever the scalars are. -/

theorem re_div_eq_mul (x y : Dual α) : (x / y).re = x.re * (1 / y.re) := rfl

theorem re_abs_eq (x : Dual α) : x.abs.re = Scalar.abs x.re := apply_ite ..

variable [Transcendental α]

theorem re_exp (x : Dual α) : x.exp.re = Transcendental.exp x.re := rfl

theorem re_log10 (x : Dual α) : x.log10.re = Transcendental.log10 x.re := rfl

/-- The value of a power. -/
def valuePow (x n : α) : α := ((const x).pow n).re

theorem re_pow (x : Dual α) (n : α) : (x.pow n).re = valuePow x.re n := by
  rw [valuePow, pow, pow]
  simp only [apply_ite Dual.re]
  rfl

theorem re_powAbs (x : Dual α) (n : α) :
    (x.powAbs n).re = if Scalar.isZero x.re then 0 else valuePow (Scalar.abs x.re) n := by
  rw [powAbs, apply_ite Dual.re, re_pow, re_abs_eq]
  rfl

end Constants

section Arithmetic

variable [ExactScalar α] (x y : Dual α) (c : α)

/-! ## Field operations -/

@[simp] theorem forget_add : (x + y).forget = x.forget + y.forget := forget_eq rfl (add_zero (0 : α))

@[simp] theorem forget_sub : (x - y).forget = x.forget - y.forget := forget_eq rfl (sub_zero (0 : α))

@[simp] theorem forget_neg : (-x).forget = -x.forget := forget_eq rfl (neg_zero (G := α))

@[simp] theorem forget_mul : (x * y).forget = x.forget * y.forget := by
  refine forget_eq rfl ?_
  show (0 : α) * y.re + 0 * x.re = 0
  rw [zero_mul, zero_mul, add_zero]

@[simp] theorem forget_div : (x / y).forget = x.forget / y.forget := by
  refine forget_eq rfl ?_
  show ((0 : α) * y.re - 0 * x.re) * (1 / y.re) * (1 / y.re) = 0
  rw [zero_mul, zero_mul, sub_zero, zero_mul, zero_mul]

@[simp] theorem forget_add_scalar : (x + c).forget = x.forget + c := rfl

@[simp] theorem forget_sub_scalar : (x - c).forget = x.forget - c := rfl

@[simp] theorem forget_mul_scalar : (x * c).forget = x.forget * c := forget_eq rfl (zero_mul c)

@[simp] theorem forget_div_scalar : (x / c).forget = x.forget / c := forget_eq rfl (zero_div c)

@[simp] theorem forget_recip : x.recip.forget = x.forget.recip := forget_eq rfl (zero_mul (_ : α))

@[simp] theorem forget_abs : x.abs.forget = x.forget.abs := by
  rw [abs, abs, forget_ite, forget_neg, forget_re]

variable {x y} in
/-- The rules for products and quotients undo each other. -/
protected theorem mul_div_cancel_left (h : y.re ≠ 0) : y * (x / y) = x := by
  ext
  · rw [re_mul, re_div_eq_mul, mul_one_div, mul_div_cancel₀ _ h]
  · rw [eps_mul, re_div_eq_mul, eps_div]
    field_simp
    ring

variable {x} in
protected theorem abs_of_neg (h : x.re < 0) : x.abs = -x := if_pos h

variable {x} in
protected theorem abs_of_pos (h : 0 < x.re) : x.abs = x := if_neg h.not_gt

variable {x} in
/-- Numbers of opposite sign have one magnitude, with one derivative; a zero that is moving is no such
    number. -/
protected theorem abs_neg (h : x.re ≠ 0) : (-x).abs = x.abs := by
  rcases lt_or_gt_of_ne h with hneg | hpos
  · rw [Dual.abs_of_neg hneg, Dual.abs_of_pos (x := -x) (neg_pos.mpr hneg)]
  · rw [Dual.abs_of_pos hpos, Dual.abs_of_neg (x := -x) (neg_neg_of_pos hpos)]
    exact Dual.ext (neg_neg x.re) (neg_neg x.eps)

/-- Nothing is added by a part that is multiplied by zero. -/
protected theorem add_mul_zero : x + y * 0 = x := by
  ext
  · rw [re_add, re_mul, re_zero, mul_zero, add_zero]
  · rw [eps_add, eps_mul, re_zero, eps_zero, mul_zero, zero_mul, add_zero, add_zero]

/-! ## Functions -/

variable [Transcendental α]

@[simp] theorem forget_exp : x.exp.forget = x.forget.exp := forget_eq rfl (zero_mul (_ : α))

@[simp] theorem forget_log10 : x.log10.forget = x.forget.log10 := forget_eq rfl (zero_mul (_ : α))

@[simp] theorem forget_pow : (x.pow c).forget = x.forget.pow c := by
  have hcube : (⟨Transcendental.pow x.re (((c - 1) - 1) - 1) * x.re * x.re * x.re,
      x.eps * (Transcendental.pow x.re (((c - 1) - 1) - 1) * x.re * x.re * c)⟩ : Dual α).forget
        = ⟨Transcendental.pow x.re (((c - 1) - 1) - 1) * x.re * x.re * x.re,
          0 * (Transcendental.pow x.re (((c - 1) - 1) - 1) * x.re * x.re * c)⟩ :=
    forget_eq rfl (zero_mul (_ : α))
  rw [pow, pow, forget_ite, forget_ite, forget_ite, forget_const, forget_mul]
  exact congrArg _ (congrArg _ (congrArg _ hcube))

@[simp] theorem forget_powAbs : (x.powAbs c).forget = x.forget.powAbs c := by
  rw [powAbs, powAbs, forget_ite, forget_zero, forget_pow, forget_abs, forget_re]

/-! ## Values -/

omit [Transcendental α] in
@[simp] theorem re_div : (x / y).re = x.re / y.re := mul_one_div x.re y.re

omit [Transcendental α] in
@[simp] theorem re_abs : x.abs.re = |x.re| := by
  rw [abs]
  split
  · next h => exact (abs_of_neg h).symm
  · next h => exact (abs_of_nonneg (not_lt.mp h)).symm

/-- Powers are not below zero when the given power function has no such values. -/
theorem re_pow_nonneg (hpow : ∀ b n : α, 0 ≤ b → 0 ≤ Transcendental.pow b n) (hx : 0 ≤ x.re) :
    0 ≤ (x.pow c).re := by
  rw [pow]
  split
  · exact zero_le_one
  split
  · exact hx
  split
  · exact mul_nonneg hx hx
  · exact mul_nonneg (mul_nonneg (mul_nonneg (hpow _ _ hx) hx) hx) hx

theorem re_powAbs_nonneg (hpow : ∀ b n : α, 0 ≤ b → 0 ≤ Transcendental.pow b n) :
    0 ≤ (x.powAbs c).re := by
  rw [powAbs]
  split
  · exact le_refl 0
  · exact re_pow_nonneg _ _ hpow (re_abs x ▸ abs_nonneg x.re)

theorem re_powAbs_of_zero (h : x.re = 0) : (x.powAbs c).re = 0 := by
  rw [powAbs, if_pos ((Scalar.isZero_iff _).mpr h)]
  rfl

theorem re_powAbs_congr {x y : Dual α} (h : x.re = y.re) : (x.powAbs c).re = (y.powAbs c).re := by
  rw [re_powAbs, re_powAbs, h]

end Arithmetic

end ReservoirWells.Dual
