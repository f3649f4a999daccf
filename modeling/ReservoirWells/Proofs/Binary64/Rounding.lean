import ReservoirWells.Proofs.Binary64.Order

/-! # Rounding of floats — no result is rounded past a float

    Every operation on finite floats computes a mantissa and an exponent, cuts the mantissa off at
    the exponent of the result and rounds what is left.  Rounding moves the mantissa up by at most
    one, so a float that is not above the exact result is not above the rounded one either
    (`place_le_round`).  With it the laws of `RoundedScalar` hold for floats: sums of what is not
    below zero, multiples and quotients are never smaller than they should be. -/

namespace ReservoirWells.Binary64

open Float.Model Float.Model.UnpackedFloat

/-! ## One rounding -/

/-- The exponent to which a mantissa is rounded. -/
def target (m : Nat) (e : Int) : Int := max (m.log2 + e - 52) (-1074)

/-- What is left of a mantissa when it is cut off at an exponent. -/
def cut (m : Nat) (e t : Int) : Nat := m / 2 ^ (t - e).toNat

theorem shiftRight_mantissa (em : ExtendedMantissa) (k : Nat) :
    (em >>> k).mantissa = em.mantissa / 2 ^ k := by
  induction k with
  | zero => exact (Nat.div_one _).symm
  | succ k ih =>
      show (em >>> k).mantissa / 2 = _
      rw [ih, Nat.div_div_eq_div_mul, Nat.pow_succ]

theorem ofMantissaAndAccuracy_mantissa (m : Nat) (acc : Accuracy) :
    (ExtendedMantissa.ofMantissaAndAccuracy m acc).mantissa = m := by
  cases acc with
  | exact => rfl
  | inexact o => cases o <;> rfl

theorem roundedMantissa_bounds (em : ExtendedMantissa) :
    em.mantissa ≤ em.roundedMantissa ∧ em.roundedMantissa ≤ em.mantissa + 1 := by
  have hmod := Nat.mod_lt em.mantissa (by decide : 2 > 0)
  show em.mantissa ≤ em.accuracy.roundToNearestEven em.mantissa ∧
    em.accuracy.roundToNearestEven em.mantissa ≤ em.mantissa + 1
  cases em.accuracy with
  | exact => exact ⟨Nat.le_refl _, Nat.le_succ _⟩
  | inexact o =>
      cases o with
      | lt => exact ⟨Nat.le_refl _, Nat.le_succ _⟩
      | eq =>
          show _ ≤ em.mantissa + em.mantissa % 2 ∧ em.mantissa + em.mantissa % 2 ≤ _
          omega
      | gt => exact ⟨Nat.le_succ _, Nat.le_refl _⟩

/-- What is cut off at the target has at most 53 bits, and no fewer unless the target is the least
    exponent. -/
theorem cut_bounds {m : Nat} {e : Int} (hm : 0 < m) (he : e ≤ target m e) :
    cut m e (target m e) < 2 ^ 53 ∧
      (2 ^ 52 ≤ cut m e (target m e) ∨ target m e = -1074) := by
  have hlow := Nat.log2_self_le hm.ne'
  have hhigh := @Nat.lt_log2_self m
  rw [cut, target] at *
  generalize hk : (max (m.log2 + e - 52) (-1074) - e).toNat = k
  constructor
  · rw [Nat.div_lt_iff_lt_mul (Nat.two_pow_pos k), ← Nat.pow_add]
    exact hhigh.trans_le (Nat.pow_le_pow_right (by decide) (by omega))
  · by_cases hleast : max (m.log2 + e - 52) (-1074) = -1074
    · exact Or.inr hleast
    · refine Or.inl ?_
      rw [Nat.le_div_iff_mul_le (Nat.two_pow_pos k), ← Nat.pow_add,
        show 52 + k = m.log2 by omega]
      exact hlow

theorem targetExponent_eq (m : Nat) (e : Int) :
    Format.binary64.targetExponent (totalExponent m e) = target m e := by
  show max ((m.log2 : Int) + 1 + e - 53) (-1074) = max (m.log2 + e - 52) (-1074)
  congr 1
  omega

theorem shiftToTargetExponent_eq (m : Nat) (e : Int) (acc : Accuracy) :
    shiftToTargetExponent Format.binary64 m e acc
      = (ExtendedMantissa.ofMantissaAndAccuracy m acc >>> (target m e - e).toNat,
          e + (target m e - e).toNat) := by
  rw [shiftToTargetExponent, targetExponent_eq]
  rfl

/-- The second shift. A mantissa that was rounded up to 54 bits loses the last one, which is zero. -/
theorem shift_rounded {r : Nat} {t : Int} (hr : 0 < r) (hle : r ≤ 2 ^ 53) (ht : -1074 ≤ t)
    (hfull : 2 ^ 52 ≤ r ∨ t = -1074) :
    let shifted := shiftToTargetExponent Format.binary64 r t .exact
    0 < shifted.1.mantissa ∧ Rounded shifted.1.mantissa shifted.2 ∧
      placeOf shifted.1.mantissa shifted.2 = placeOf r t := by
  rw [shiftToTargetExponent_eq]
  simp only [shiftRight_mantissa, ofMantissaAndAccuracy_mantissa]
  rcases Nat.lt_or_eq_of_le hle with hlt | rfl
  · have hlog : r.log2 < 53 := (Nat.log2_lt hr.ne').mpr hlt
    have hshift : (target r t - t).toNat = 0 := by
      rw [target]
      omega
    rw [hshift, Nat.pow_zero, Nat.div_one, Nat.cast_zero, add_zero]
    exact ⟨hr, ⟨ht, hlt, hfull⟩, rfl⟩
  · have hshift : (target (2 ^ 53) t - t).toNat = 1 := by
      rw [target, Nat.log2_two_pow]
      omega
    rw [hshift]
    refine ⟨by decide, ⟨by omega, by decide, Or.inl (by decide)⟩, ?_⟩
    rw [placeOf, placeOf]
    omega

/-- The mantissa that is left when one is cut off at its target and rounded. -/
def nearest (m : Nat) (e : Int) (acc : Accuracy) : Nat :=
  (ExtendedMantissa.ofMantissaAndAccuracy m acc >>> (target m e - e).toNat).roundedMantissa

/-- Rounding keeps the mantissa that was cut off or moves it up by one. -/
theorem nearest_bounds (m : Nat) (e : Int) (acc : Accuracy) :
    cut m e (target m e) ≤ nearest m e acc ∧ nearest m e acc ≤ cut m e (target m e) + 1 := by
  have hcut : (ExtendedMantissa.ofMantissaAndAccuracy m acc >>> (target m e - e).toNat).mantissa
      = cut m e (target m e) := by
    rw [shiftRight_mantissa, ofMantissaAndAccuracy_mantissa]
    rfl
  rw [← hcut]
  exact roundedMantissa_bounds _

/-- A rounded result is a zero or a float at the place of the rounded mantissa. -/
theorem roundWithAccuracy_cases (s : Sign) {m : Nat} {e : Int} (acc : Accuracy) (hm : 0 < m)
    (he : e ≤ target m e) :
    (nearest m e acc = 0 ∧ roundWithAccuracy Format.binary64 s m e acc = .zero s) ∨
      ∃ m' e' p, roundWithAccuracy Format.binary64 s m e acc = .finite s m' e' p ∧
        Rounded m' e' ∧ placeOf m' e' = placeOf (nearest m e acc) (target m e) := by
  obtain ⟨hlt, hfull⟩ := cut_bounds hm he
  obtain ⟨hlow, hhigh⟩ := nearest_bounds m e acc
  have hleast : -1074 ≤ target m e := le_max_right _ _
  have hexp : e + (target m e - e).toNat = target m e := by omega
  have hmantissa : (ExtendedMantissa.ofMantissaAndAccuracy m acc >>>
      (target m e - e).toNat).roundedMantissa = nearest m e acc := rfl
  rw [roundWithAccuracy, shiftToTargetExponent_eq, hexp]
  dsimp only
  rw [hmantissa]
  rcases Nat.eq_zero_or_pos (nearest m e acc) with hzero | hpos
  · refine Or.inl ⟨hzero, ?_⟩
    rw [hzero, shiftToTargetExponent_eq, dif_pos]
    rw [shiftRight_mantissa, ofMantissaAndAccuracy_mantissa]
    exact Nat.zero_div _
  · obtain ⟨hp, hrounded, hplace⟩ := shift_rounded hpos (by omega) hleast (by omega)
    rw [dif_neg hp.ne']
    exact Or.inr ⟨_, _, hp, rfl, hrounded, hplace⟩

/-! ## Values -/

/-- The number that a mantissa and an exponent stand for. -/
def value (m : Nat) (e : Int) : ℚ := m * 2 ^ e

theorem value_mul_two_pow (m k : Nat) (e : Int) : value (m * 2 ^ k) e = value m (e + k) := by
  rw [value, value, zpow_add₀ two_ne_zero, zpow_natCast, Nat.cast_mul, Nat.cast_pow,
    Nat.cast_ofNat, mul_assoc, mul_comm (2 ^ e)]

theorem value_le_iff {m m' : Nat} {e : Int} : value m e ≤ value m' e ↔ m ≤ m' := by
  rw [value, value, mul_le_mul_iff_left₀ (zpow_pos two_pos e), Nat.cast_le]

/-- Cutting off is rounding towards zero. -/
theorem le_cut {m u : Nat} {e t : Int} (he : e ≤ t) (h : value u t ≤ value m e) : u ≤ cut m e t := by
  rw [cut, Nat.le_div_iff_mul_le (Nat.two_pow_pos _)]
  rw [show t = e + (t - e).toNat by omega, ← value_mul_two_pow, value_le_iff] at h
  exact h

/-- A float that is not above the exact result has its place before the rounded one. -/
theorem placeOf_le {u m r : Nat} {k e : Int} (hu : Rounded u k) (hm : 0 < m)
    (he : e ≤ target m e) (hr : cut m e (target m e) ≤ r) (h : value u k ≤ value m e) :
    placeOf u k ≤ placeOf r (target m e) := by
  obtain ⟨hlow, hlt, hfull⟩ := hu
  obtain ⟨_, hcut⟩ := cut_bounds hm he
  have hleast : -1074 ≤ target m e := le_max_right _ _
  rw [placeOf, placeOf]
  rcases lt_trichotomy k (target m e) with hbefore | rfl | hbehind
  · omega
  · have hle := le_cut he h
    omega
  · -- a larger exponent asks for 53 bits, which is more than the exact result has
    exfalso
    have hbits : m < 2 ^ 53 * 2 ^ (target m e - e).toNat := by
      rw [← Nat.pow_add]
      refine Nat.lt_log2_self.trans_le (Nat.pow_le_pow_right (by decide) ?_)
      rw [target] at *
      omega
    have hsmall : value m e < value (2 ^ 53) (target m e) := by
      rw [show target m e = e + (target m e - e).toNat by omega, ← value_mul_two_pow,
        ← not_le, value_le_iff, not_le]
      exact hbits
    have hlarge : value (2 ^ 53) (target m e) ≤ value u k := by
      rw [show k = target m e + (k - target m e).toNat by omega, ← value_mul_two_pow, value_le_iff]
      have hpow : 2 ^ 1 ≤ 2 ^ (k - target m e).toNat :=
        Nat.pow_le_pow_right (by decide) (by omega)
      calc 2 ^ 53 = 2 ^ 52 * 2 ^ 1 := rfl
        _ ≤ u * 2 ^ (k - target m e).toNat := Nat.mul_le_mul (by omega) hpow
    exact absurd (hlarge.trans h) (not_le.mpr hsmall)

/-! ## Rounding and packing -/

/-- What is left of an unpacked float after packing. -/
def packed? (u : UnpackedFloat) : Option Int :=
  place? (unpack Format.binary64 (UnpackedFloat.pack Format.binary64 u))

theorem packed?_canonical {u : UnpackedFloat} (h : Canonical u) : packed? u = place? u := by
  rw [packed?, unpack_pack h]

theorem packed?_infinity : packed? (.infinity .positive) = some infinitePlace := rfl

theorem packed?_zero (s : Sign) : packed? (.zero s) = some 0 := by
  cases s <;> rfl

/-- Packing stops at the infinities. -/
theorem packed?_finite {s : Sign} {m : Nat} {e : Int} {p : 0 < m} (h : Rounded m e) :
    packed? (.finite s m e p) = some (s.apply (min (placeOf m e) infinitePlace)) := by
  rw [packed?, unpack_pack_finite h]
  by_cases hhigh : e ≤ 971
  · rw [if_pos hhigh, min_eq_left (placeOf_lt h hhigh).le]
    rfl
  · obtain ⟨_, _, hfull⟩ := h
    have hbehind : infinitePlace ≤ placeOf m e := by
      rw [placeOf, infinitePlace]
      omega
    rw [if_neg hhigh, min_eq_right hbehind]
    rfl

/-- A packed result has the place of the rounded mantissa, and stops at the infinities. -/
theorem packed?_roundWithAccuracy (s : Sign) {m : Nat} {e : Int} (acc : Accuracy) (hm : 0 < m)
    (he : e ≤ target m e) :
    packed? (roundWithAccuracy Format.binary64 s m e acc)
      = some (s.apply (min (placeOf (nearest m e acc) (target m e)) infinitePlace)) := by
  rcases roundWithAccuracy_cases s acc hm he with ⟨hzero, hround⟩ | ⟨m', e', p, hround, h, hplace⟩
  · obtain ⟨_, hfull⟩ := cut_bounds hm he
    obtain ⟨hlow, _⟩ := nearest_bounds m e acc
    have hleast : placeOf (nearest m e acc) (target m e) = 0 := by
      rw [placeOf, hzero]
      omega
    rw [hround, packed?_zero, hleast, min_eq_left infinitePlace_pos.le]
    cases s <;> rfl
  · rw [hround, packed?_finite h, hplace]

/-- Packed results are floats of the sign asked for that are not before a float that is not above the
    exact result. -/
theorem placeOf_le_packed (s : Sign) {u m : Nat} {k e : Int} {acc : Accuracy} (hu : Rounded u k)
    (hk : k ≤ 971) (hm : 0 < m) (he : e ≤ target m e) (h : value u k ≤ value m e) :
    ∃ b, packed? (roundWithAccuracy Format.binary64 s m e acc) = some (s.apply b) ∧
      placeOf u k ≤ b := by
  refine ⟨_, packed?_roundWithAccuracy s acc hm he, le_min ?_ (placeOf_lt hu hk).le⟩
  exact placeOf_le hu hm he (nearest_bounds m e acc).1 h

theorem log2_mul_two_pow {m : Nat} (hm : 0 < m) (k : Nat) : (m * 2 ^ k).log2 = m.log2 + k := by
  induction k with
  | zero => rw [Nat.pow_zero, Nat.mul_one, Nat.add_zero]
  | succ k ih =>
      have hpos := Nat.mul_pos hm (Nat.two_pow_pos k)
      rw [Nat.pow_succ, ← Nat.mul_assoc, Nat.mul_comm, Nat.log2_two_mul hpos.ne', ih, Nat.add_assoc]

/-- Rounding with the exponent lowered first, if it is too large. -/
theorem placeOf_le_packed_round (s : Sign) {u m : Nat} {k e : Int} (hu : Rounded u k) (hk : k ≤ 971)
    (hm : 0 < m) (h : value u k ≤ value m e) :
    ∃ b, packed? (UnpackedFloat.round Format.binary64 s m e) = some (s.apply b) ∧
      placeOf u k ≤ b := by
  rw [UnpackedFloat.round, targetExponent_eq, decreaseExponent]
  simp only [Nat.shiftLeft_eq]
  generalize hj : (e - target m e).toNat = j
  have htarget : target (m * 2 ^ j) (e - j) = target m e := by
    rw [target, target, log2_mul_two_pow hm]
    congr 1
    omega
  refine placeOf_le_packed s hu hk (Nat.mul_pos hm (Nat.two_pow_pos j)) (by omega) ?_
  rw [value_mul_two_pow, sub_add_cancel]
  exact h

/-! ## Sums -/

theorem add_comm (x y : UnpackedFloat) :
    UnpackedFloat.add Format.binary64 x y = UnpackedFloat.add Format.binary64 y x := by
  cases x with
  | notANumber => cases y <;> rfl
  | infinity s =>
      cases y with
      | infinity t => cases s <;> cases t <;> rfl
      | notANumber | zero t | finite t m e p => rfl
  | zero s =>
      cases y with
      | zero t => cases s <;> cases t <;> rfl
      | notANumber | infinity t | finite t m e p => rfl
  | finite s m e p =>
      cases y with
      | finite t m' e' p' =>
          rw [UnpackedFloat.add, UnpackedFloat.add, min_comm]
          dsimp only
          rw [Int.add_comm]
      | notANumber | infinity t | zero t => rfl

/-- A float whose place is not below zero is infinite, a zero, or positive. -/
theorem cases_of_place {x : UnpackedFloat} (hx : Canonical x) {a : Int} (ha : place? x = some a)
    (h0 : 0 ≤ a) :
    (x = .infinity .positive ∧ a = infinitePlace) ∨ (∃ s, x = .zero s ∧ a = 0) ∨
      ∃ m e p, x = .finite .positive m e p ∧ Rounded m e ∧ e ≤ 971 ∧ a = placeOf m e := by
  cases x with
  | notANumber => cases ha
  | infinity s =>
      cases s with
      | positive => exact Or.inl ⟨rfl, (Option.some.inj ha).symm⟩
      | negative =>
          obtain rfl := Option.some.inj ha
          exact absurd h0 (by decide)
  | zero s => exact Or.inr (Or.inl ⟨s, rfl, (Option.some.inj ha).symm⟩)
  | finite s m e p =>
      cases s with
      | positive => exact Or.inr (Or.inr ⟨m, e, p, rfl, hx.1, hx.2, (Option.some.inj ha).symm⟩)
      | negative =>
          obtain rfl := Option.some.inj ha
          exact absurd (Int.neg_nonneg.mp h0) (not_le.mpr (placeOf_pos p hx.1))

/-- The sum of two positive floats is rounded from the sum of their values. -/
theorem add_finite {m₁ m₂ : Nat} (e₁ e₂ : Int) (p₁ : 0 < m₁) (p₂ : 0 < m₂) :
    ∃ m e, 0 < m ∧ value m₁ e₁ ≤ value m e ∧
      UnpackedFloat.add Format.binary64 (.finite .positive m₁ e₁ p₁) (.finite .positive m₂ e₂ p₂)
        = UnpackedFloat.round Format.binary64 .positive m e := by
  have hshift : min e₁ e₂ + ((e₁ - min e₁ e₂).toNat : Int) = e₁ := by omega
  rw [UnpackedFloat.add]
  simp only [decreaseExponent, Nat.shiftLeft_eq]
  generalize min e₁ e₂ = e at *
  generalize (e₁ - e).toNat = k₁ at *
  generalize (e₂ - e).toNat = k₂
  have hm : 0 < m₁ * 2 ^ k₁ + m₂ * 2 ^ k₂ :=
    Nat.add_pos_left (Nat.mul_pos p₁ (Nat.two_pow_pos k₁)) _
  refine ⟨m₁ * 2 ^ k₁ + m₂ * 2 ^ k₂, e, hm, ?_, ?_⟩
  · rw [← hshift, ← value_mul_two_pow, value_le_iff]
    exact Nat.le_add_right _ _
  · show UnpackedFloat.normalize Format.binary64 ((m₁ * 2 ^ k₁ + m₂ * 2 ^ k₂ : Nat) : Int) e
      .positive = _
    rw [UnpackedFloat.normalize, compare_gt_iff_gt.mpr (Int.natCast_pos.mpr hm)]
    rfl

/-- A sum is not before its first part. -/
theorem le_packed_add {x y : UnpackedFloat} (hx : Canonical x) (hy : Canonical y) {a b : Int}
    (ha : place? x = some a) (hb : place? y = some b) (ha0 : 0 ≤ a) (hb0 : 0 ≤ b) :
    ∃ c, packed? (UnpackedFloat.add Format.binary64 x y) = some c ∧ a ≤ c := by
  rcases cases_of_place hy hb hb0 with ⟨rfl, rfl⟩ | ⟨t, rfl, rfl⟩ | ⟨m₂, e₂, p₂, rfl, h₂, hk₂, rfl⟩
  · -- adding infinity gives infinity
    rcases cases_of_place hx ha ha0 with ⟨rfl, rfl⟩ | ⟨s, rfl, rfl⟩ | ⟨m₁, e₁, p₁, rfl, h₁, hk₁, rfl⟩
    · exact ⟨infinitePlace, packed?_infinity, le_refl _⟩
    · exact ⟨infinitePlace, packed?_infinity, infinitePlace_pos.le⟩
    · exact ⟨infinitePlace, packed?_infinity, (placeOf_lt h₁ hk₁).le⟩
  · -- adding zero changes nothing but the sign of a zero
    rcases cases_of_place hx ha ha0 with ⟨rfl, rfl⟩ | ⟨s, rfl, rfl⟩ | ⟨m₁, e₁, p₁, rfl, h₁, hk₁, rfl⟩
    · exact ⟨infinitePlace, packed?_infinity, le_refl _⟩
    · cases s <;> cases t <;> exact ⟨0, packed?_zero _, le_refl 0⟩
    · exact ⟨placeOf m₁ e₁, packed?_canonical hx, le_refl _⟩
  · rcases cases_of_place hx ha ha0 with ⟨rfl, rfl⟩ | ⟨s, rfl, rfl⟩ | ⟨m₁, e₁, p₁, rfl, h₁, hk₁, rfl⟩
    · exact ⟨infinitePlace, packed?_infinity, le_refl _⟩
    · exact ⟨placeOf m₂ e₂, packed?_canonical hy, (placeOf_pos p₂ h₂).le⟩
    · obtain ⟨m, e, hm, hvalue, hadd⟩ := add_finite e₁ e₂ p₁ p₂
      rw [hadd]
      exact placeOf_le_packed_round .positive h₁ hk₁ hm hvalue

/-! ## Products and quotients -/

theorem mul_comm (x y : UnpackedFloat) :
    UnpackedFloat.mul Format.binary64 x y = UnpackedFloat.mul Format.binary64 y x := by
  have hsign : ∀ s t : Sign, s * t = t * s := by
    intro s t
    cases s <;> cases t <;> rfl
  cases x with
  | notANumber => cases y <;> rfl
  | infinity s =>
      cases y with
      | infinity t | finite t m e p => exact congrArg UnpackedFloat.infinity (hsign s t)
      | notANumber | zero t => rfl
  | zero s =>
      cases y with
      | zero t | finite t m e p => exact congrArg UnpackedFloat.zero (hsign s t)
      | notANumber | infinity t => rfl
  | finite s m e p =>
      cases y with
      | infinity t => exact congrArg UnpackedFloat.infinity (hsign s t)
      | zero t => exact congrArg UnpackedFloat.zero (hsign s t)
      | finite t m' e' p' =>
          rw [UnpackedFloat.mul, UnpackedFloat.mul, hsign, Nat.mul_comm, Int.add_comm]
      | notANumber => rfl

/-- The place of one. -/
def onePlace : Int := placeOf (2 ^ 52) (-52)

theorem rounded_one : Rounded (2 ^ 52) (-52) := ⟨by decide, by decide, Or.inl (le_refl _)⟩

theorem value_one : value (2 ^ 52) (-52) = 1 := by
  rw [show 2 ^ 52 = 1 * 2 ^ 52 from rfl, value_mul_two_pow, value]
  norm_num

/-- Floats that are later have larger values. -/
theorem value_le_of_placeOf_le {u m : Nat} {k e : Int} (hu : Rounded u k) (hm : Rounded m e)
    (h : placeOf u k ≤ placeOf m e) : value u k ≤ value m e := by
  obtain ⟨_, hlt, _⟩ := hu
  obtain ⟨_, hlt', hfull⟩ := hm
  rw [placeOf, placeOf] at h
  have hle : k ≤ e := by omega
  rw [show e = k + (e - k).toNat by omega, ← value_mul_two_pow, value_le_iff]
  rcases hle.eq_or_lt with rfl | hlt
  · rw [sub_self, Int.toNat_zero, Nat.pow_zero, Nat.mul_one]
    omega
  · have hpow : 2 ^ 1 ≤ 2 ^ (e - k).toNat := Nat.pow_le_pow_right (by decide) (by omega)
    calc u ≤ 2 ^ 52 * 2 ^ 1 := by omega
      _ ≤ m * 2 ^ (e - k).toNat := Nat.mul_le_mul (by omega) hpow

theorem le_target_of_full {m : Nat} (hm : 2 ^ 52 ≤ m) (e : Int) : e ≤ target m e := by
  have hlog : 52 ≤ m.log2 := (Nat.le_log2 (by omega)).mpr hm
  rw [target]
  omega

/-- A multiple is not before what is multiplied. -/
theorem le_packed_mul {x y : UnpackedFloat} (hx : Canonical x) (hy : Canonical y) {a b : Int}
    (ha : place? x = some a) (hb : place? y = some b) (ha0 : 0 ≤ a) (hb1 : onePlace ≤ b)
    (hfinite : b < infinitePlace) :
    ∃ c, packed? (UnpackedFloat.mul Format.binary64 y x) = some c ∧ a ≤ c := by
  have hone : 0 < onePlace := by decide
  rcases cases_of_place hy hb (by omega) with ⟨_, rfl⟩ | ⟨_, _, rfl⟩ | ⟨m₂, e₂, p₂, rfl, h₂, _, rfl⟩
  · omega
  · omega
  · rcases cases_of_place hx ha ha0 with ⟨rfl, rfl⟩ | ⟨s, rfl, rfl⟩ | ⟨m₁, e₁, p₁, rfl, h₁, hk₁, rfl⟩
    · exact ⟨infinitePlace, packed?_infinity, le_refl _⟩
    · exact ⟨0, packed?_zero _, le_refl _⟩
    · have hvalue : value m₁ e₁ ≤ value (m₂ * m₁) (e₂ + e₁) := by
        have hle := value_le_of_placeOf_le rounded_one h₂ hb1
        rw [value_one] at hle
        have hnonneg : 0 ≤ value m₁ e₁ :=
          mul_nonneg (Nat.cast_nonneg m₁) (zpow_nonneg zero_le_two e₁)
        calc value m₁ e₁ ≤ value m₂ e₂ * value m₁ e₁ := le_mul_of_one_le_left hnonneg hle
          _ = value (m₂ * m₁) (e₂ + e₁) := by
            rw [value, value, value, zpow_add₀ two_ne_zero, Nat.cast_mul, mul_mul_mul_comm]
      have hfull : 2 ^ 52 ≤ m₂ := by
        obtain ⟨_, _, hfull⟩ := h₂
        rw [onePlace, placeOf, placeOf] at hb1
        omega
      exact placeOf_le_packed .positive h₁ hk₁ (Nat.mul_pos p₂ p₁)
        (le_target_of_full (hfull.trans (Nat.le_mul_of_pos_right m₂ p₁)) _) hvalue

/-- The quotient of two positive floats is rounded from at least 53 bits of it. -/
theorem div_finite {m₁ m₂ : Nat} {e₁ e₂ : Int} (p₁ : 0 < m₁) (p₂ : 0 < m₂) (h₁ : Rounded m₁ e₁)
    (h₂ : Rounded m₂ e₂) (h : placeOf m₁ e₁ ≤ placeOf m₂ e₂) :
    ∃ q t acc, 2 ^ 52 ≤ q ∧ 1 ≤ value q t ∧
      UnpackedFloat.div Format.binary64 (.finite .positive m₂ e₂ p₂) (.finite .positive m₁ e₁ p₁)
        = roundWithAccuracy Format.binary64 .positive q t acc := by
  have hlog₁ : m₁.log2 < 53 := (Nat.log2_lt p₁.ne').mpr h₁.2.1
  have hlog₂ : m₂.log2 < 53 := (Nat.log2_lt p₂.ne').mpr h₂.2.1
  have hle : e₁ ≤ e₂ := by
    obtain ⟨_, hlt₁, hfull₁⟩ := h₁
    obtain ⟨_, hlt₂, _⟩ := h₂
    rw [placeOf, placeOf] at h
    omega
  -- the exponent at which the quotient has 53 bits or 54
  generalize ht : e₂ - e₁ + m₂.log2 - m₁.log2 - 53 = t
  have htarget : min (e₂ - e₁) (Format.binary64.targetExponent
      (totalExponent m₂ e₂ - totalExponent m₁ e₁)) = t := by
    show min (e₂ - e₁) (max ((m₂.log2 + 1 + e₂ - (m₁.log2 + 1 + e₁) : Int) - 53) (-1074)) = t
    omega
  generalize hk : (e₂ - e₁ - t).toNat = k
  have hfull : 2 ^ 52 ≤ m₂ * 2 ^ k / m₁ := by
    rw [Nat.le_div_iff_mul_le p₁]
    calc 2 ^ 52 * m₁ ≤ 2 ^ 52 * 2 ^ (m₁.log2 + 1) := Nat.mul_le_mul_left _ Nat.lt_log2_self.le
      _ = 2 ^ m₂.log2 * 2 ^ k := by rw [← Nat.pow_add, ← Nat.pow_add]; congr 1; omega
      _ ≤ m₂ * 2 ^ k := Nat.mul_le_mul_right _ (Nat.log2_self_le p₂.ne')
  refine ⟨m₂ * 2 ^ k / m₁, t, accuracyOfFraction (m₂ * 2 ^ k % m₁) m₁, hfull, ?_, ?_⟩
  · have hone : value 1 0 = 1 := by
      rw [value, Nat.cast_one, zpow_zero, one_mul]
    rw [← hone]
    rcases le_total t 0 with hneg | hpos
    · -- the dividend is at least the divisor, so the quotient has a bit at exponent zero
      have hdivisor : m₁ ≤ m₂ * 2 ^ (e₂ - e₁).toNat := by
        have hvalue := value_le_of_placeOf_le h₁ h₂ h
        rw [show e₂ = e₁ + (e₂ - e₁).toNat by omega, ← value_mul_two_pow, value_le_iff] at hvalue
        exact hvalue
      have hbit : 2 ^ (-t).toNat ≤ m₂ * 2 ^ k / m₁ := by
        rw [Nat.le_div_iff_mul_le p₁, show k = (e₂ - e₁).toNat + (-t).toNat by omega, Nat.pow_add,
          ← Nat.mul_assoc, Nat.mul_comm]
        exact Nat.mul_le_mul_right _ hdivisor
      calc value 1 0 = value (2 ^ (-t).toNat) t := by
            rw [← Nat.one_mul (2 ^ _), value_mul_two_pow]
            congr 1
            omega
        _ ≤ value (m₂ * 2 ^ k / m₁) t := value_le_iff.mpr hbit
    · calc value 1 0 ≤ value (2 ^ t.toNat) 0 := value_le_iff.mpr (Nat.two_pow_pos _)
        _ = value 1 t := by
            rw [← Nat.one_mul (2 ^ _), value_mul_two_pow]
            congr 1
            omega
        _ ≤ value (m₂ * 2 ^ k / m₁) t := value_le_iff.mpr (by omega)
  · rw [UnpackedFloat.div, divCore, htarget, hk]
    simp only [Nat.shiftLeft_eq]
    rfl

/-- What is behind a float is at least once as large. -/
theorem one_le_packed_div {x y : UnpackedFloat} (hx : Canonical x) (hy : Canonical y) {a b : Int}
    (ha : place? x = some a) (hb : place? y = some b) (ha0 : 0 < a) (hab : a < b) :
    ∃ c, packed? (UnpackedFloat.div Format.binary64 y x) = some c ∧ onePlace ≤ c := by
  rcases cases_of_place hx ha ha0.le with ⟨rfl, rfl⟩ | ⟨_, _, rfl⟩ | ⟨m₁, e₁, p₁, rfl, h₁, _, rfl⟩
  · rcases cases_of_place hy hb (by omega) with ⟨_, rfl⟩ | ⟨_, _, rfl⟩ | ⟨m₂, e₂, _, _, h₂, hk₂, rfl⟩
    · omega
    · omega
    · exact absurd hab (placeOf_lt h₂ hk₂).not_gt
  · omega
  · rcases cases_of_place hy hb (by omega) with ⟨rfl, rfl⟩ | ⟨_, _, rfl⟩ | ⟨m₂, e₂, p₂, rfl, h₂, _, rfl⟩
    · exact ⟨infinitePlace, packed?_infinity, by decide⟩
    · omega
    · obtain ⟨q, t, acc, hfull, hvalue, hdiv⟩ := div_finite p₁ p₂ h₁ h₂ hab.le
      rw [hdiv]
      refine placeOf_le_packed .positive rounded_one (by decide) (by omega) (le_target_of_full hfull t) ?_
      rw [value_one]
      exact hvalue

/-! ## The laws of rounded arithmetic -/

theorem rank?_mul (x y : Float) :
    rank? (x * y) = packed? (UnpackedFloat.mul Format.binary64 x.toModel.unpack y.toModel.unpack) :=
  rfl

theorem rank?_neg (x : Float) : rank? (-x) = (rank? x).map (-·) := by
  have hcanonical : Canonical x.toModel.unpack := unpack_canonical _
  show packed? x.toModel.unpack.neg = (place? x.toModel.unpack).map (-·)
  generalize x.toModel.unpack = u at *
  cases u with
  | notANumber => rfl
  | infinity s => cases s <;> rfl
  | zero s => cases s <;> rfl
  | finite s m e p =>
      have hneg : Canonical (UnpackedFloat.finite s m e p).neg := hcanonical
      rw [packed?_canonical hneg]
      cases s with
      | positive => rfl
      | negative => exact congrArg some (neg_neg _).symm

theorem rank?_one : rank? 1 = some onePlace := by decide +kernel

/-- Floats are rounded, and never past a float. -/
instance instRoundedScalarFloat : RoundedScalar Float where
  mul_comm := by
    intro x y
    show Float.ofModel (.pack (UnpackedFloat.mul Format.binary64 _ _)) = _
    rw [mul_comm]
    rfl
  add_comm := by
    intro x y
    show Float.ofModel (.pack (UnpackedFloat.add Format.binary64 _ _)) = _
    rw [add_comm]
    rfl
  zero_add_zero := by decide +kernel
  le_add := by
    intro x y hx hy
    obtain ⟨z, a, hz, ha, hza⟩ := le_iff_rank.mp hx
    obtain ⟨z', b, hz', hb, hzb⟩ := le_iff_rank.mp hy
    obtain rfl : (0 : Int) = z := Option.some.inj hz
    obtain rfl : (0 : Int) = z' := Option.some.inj hz'
    obtain ⟨c, hc, hac⟩ := le_packed_add (unpack_canonical _) (unpack_canonical _) ha hb hza hzb
    exact le_iff_rank.mpr ⟨a, c, ha, hc, hac⟩
  le_mul := by
    intro x y hx hy hfinite
    obtain ⟨z, a, hz, ha, hza⟩ := le_iff_rank.mp hx
    obtain ⟨i, b, hi, hb, hib⟩ := le_iff_rank.mp hy
    obtain ⟨b', hb', _, hlt⟩ := isFinite_iff_rank.mp hfinite
    obtain rfl : (0 : Int) = z := Option.some.inj hz
    obtain rfl : onePlace = i := Option.some.inj (rank?_one.symm.trans hi)
    obtain rfl : b = b' := Option.some.inj (hb.symm.trans hb')
    obtain ⟨c, hc, hac⟩ :=
      le_packed_mul (unpack_canonical _) (unpack_canonical _) ha hb hza hib hlt
    exact le_iff_rank.mpr ⟨a, c, ha, hc, hac⟩
  one_le_div := by
    intro x y hx hxy
    obtain ⟨z, a, hz, ha, hza⟩ := lt_iff_rank.mp hx
    obtain ⟨a', b, ha', hb, hab⟩ := lt_iff_rank.mp hxy
    obtain rfl : (0 : Int) = z := Option.some.inj hz
    obtain rfl : a = a' := Option.some.inj (ha.symm.trans ha')
    obtain ⟨c, hc, hle⟩ := one_le_packed_div (unpack_canonical _) (unpack_canonical _) ha hb hza hab
    exact le_iff_rank.mpr ⟨onePlace, c, rank?_one, hc, hle⟩
  neg_nonneg := by
    intro x hx
    obtain ⟨a, z, ha, hz, haz⟩ := lt_iff_rank.mp hx
    obtain rfl : (0 : Int) = z := Option.some.inj hz
    refine le_iff_rank.mpr ⟨0, -a, rfl, ?_, Int.neg_nonneg.mpr haz.le⟩
    rw [rank?_neg, ha]
    rfl
  zero_lt_one := by decide +kernel
  one_le_ten := by decide +kernel
  isFinite_ten := by decide +kernel

end ReservoirWells.Binary64
