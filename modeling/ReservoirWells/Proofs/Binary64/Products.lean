import ReservoirWells.Proofs.Binary64.Difference

/-! # Products of floats — rounding keeps the order

    A product is rounded to the nearest float, so a larger exact product is never rounded below a
    smaller one.  What has been shifted out of a mantissa is remembered in two bits, and mantissa and
    bits together are one number (`ExtendedMantissa.key`) that shifting and rounding keep in order.
    Products with different targets cannot cross either: the larger one has all of its 53 bits.

    * `nearest_le` — rounded mantissas with one target are ordered like what they are rounded from;
    * `packed?_round_le` — and so are packed results, whatever their targets;
    * `packed?_mul_le` — a float that is not below zero keeps the order of what it is multiplied with,
      signs and infinities included;
    * `instMonotoneScalarFloat` — the laws of `MonotoneScalar` hold for floats. -/

namespace ReservoirWells.Binary64

open Float.Model Float.Model.UnpackedFloat

/-! ## The bits that are shifted out -/

/-- A mantissa and what is known of the bits behind it, as one number. -/
def key (em : ExtendedMantissa) : Nat :=
  4 * em.mantissa + 2 * em.roundBit.toNat + em.stickyBit.toNat

theorem key_shiftRightOne (em : ExtendedMantissa) :
    key em.shiftRightOne = 2 * em.mantissa + (em.roundBit || em.stickyBit).toNat := by
  have hbit : (em.mantissa % 2 != 0).toNat = em.mantissa % 2 := by
    rcases Nat.mod_two_eq_zero_or_one em.mantissa with h | h <;> rw [h] <;> rfl
  show 4 * (em.mantissa / 2) + 2 * (em.mantissa % 2 != 0).toNat
    + (em.roundBit || em.stickyBit).toNat = _
  rw [hbit]
  omega

theorem key_shiftRightOne_le {em em' : ExtendedMantissa} (h : key em ≤ key em') :
    key em.shiftRightOne ≤ key em'.shiftRightOne := by
  obtain ⟨m, r, s⟩ := em
  obtain ⟨m', r', s'⟩ := em'
  rw [key_shiftRightOne, key_shiftRightOne]
  simp only [key] at h ⊢
  cases r <;> cases s <;> cases r' <;> cases s' <;> simp only [Bool.toNat, cond, Bool.or] at h ⊢ <;>
    omega

theorem key_shiftRight_le {em em' : ExtendedMantissa} (h : key em ≤ key em') (k : Nat) :
    key (em >>> k) ≤ key (em' >>> k) := by
  induction k with
  | zero => exact h
  | succ k ih => exact key_shiftRightOne_le ih

/-- Rounding to the nearest mantissa, ties to the even one, keeps the order. -/
theorem roundedMantissa_le {em em' : ExtendedMantissa} (h : key em ≤ key em') :
    em.roundedMantissa ≤ em'.roundedMantissa := by
  obtain ⟨hlow, hhigh⟩ := roundedMantissa_bounds em
  obtain ⟨hlow', hhigh'⟩ := roundedMantissa_bounds em'
  rcases Nat.lt_or_ge em.mantissa em'.mantissa with hlt | hge
  · omega
  · obtain ⟨m, r, s⟩ := em
    obtain ⟨m', r', s'⟩ := em'
    have hsame : m = m' := by
      have hr := r'.toNat_le
      have hs := s'.toNat_le
      simp only [key] at h hge
      omega
    subst hsame
    simp only [ExtendedMantissa.roundedMantissa]
    cases r <;> cases s <;> cases r' <;> cases s' <;>
      simp only [key, Bool.toNat, cond, ExtendedMantissa.accuracy, Accuracy.roundToNearestEven]
        at h ⊢ <;> omega

theorem shiftRight_add (em : ExtendedMantissa) (j k : Nat) : em >>> (j + k) = (em >>> j) >>> k := by
  induction k with
  | zero => rfl
  | succ k ih => exact congrArg ExtendedMantissa.shiftRightOne ih

/-- Nothing is lost of a mantissa that ends in zeros. -/
theorem shiftRight_zeros (m j : Nat) :
    ExtendedMantissa.ofMantissaAndAccuracy (m * 2 ^ j) .exact >>> j
      = ExtendedMantissa.ofMantissaAndAccuracy m .exact := by
  induction j with
  | zero => rw [Nat.pow_zero, Nat.mul_one]; rfl
  | succ j ih =>
      have hlast : ExtendedMantissa.ofMantissaAndAccuracy (m * 2 ^ (j + 1)) .exact >>> 1
          = ExtendedMantissa.ofMantissaAndAccuracy (m * 2 ^ j) .exact := by
        show ExtendedMantissa.mk (m * 2 ^ (j + 1) / 2) (m * 2 ^ (j + 1) % 2 != 0) false = ⟨_, _, _⟩
        rw [Nat.pow_succ, ← Nat.mul_assoc, Nat.mul_div_cancel _ (by decide), Nat.mul_mod_left]
        rfl
      rw [Nat.add_comm j 1, shiftRight_add, Nat.add_comm 1 j, hlast, ih]

/-! ## Rounded mantissas -/

/-- A mantissa may be written at any smaller exponent before it is rounded. -/
theorem nearest_eq (m : Nat) {e e' : Int} (hle : e' ≤ e) (he : e ≤ target m e) :
    nearest m e .exact = (ExtendedMantissa.ofMantissaAndAccuracy (m * 2 ^ (e - e').toNat) .exact
      >>> (target m e - e').toNat).roundedMantissa := by
  rw [nearest, ← shiftRight_zeros m (e - e').toNat, ← shiftRight_add]
  congr 2
  omega

/-- Mantissas with one target are rounded in order. -/
theorem nearest_le {m m' : Nat} {e e' : Int} (ht : target m e = target m' e') (he : e ≤ target m e)
    (he' : e' ≤ target m' e') (h : value m e ≤ value m' e') :
    nearest m e .exact ≤ nearest m' e' .exact := by
  have hmin : min e e' + (e - min e e').toNat = e := by omega
  have hmin' : min e e' + (e' - min e e').toNat = e' := by omega
  have hscaled : m * 2 ^ (e - min e e').toNat ≤ m' * 2 ^ (e' - min e e').toNat := by
    rw [← value_le_iff (e := min e e'), value_mul_two_pow, value_mul_two_pow, hmin, hmin']
    exact h
  rw [nearest_eq m (min_le_left e e') he, nearest_eq m' (min_le_right e e') he', ht]
  refine roundedMantissa_le (key_shiftRight_le ?_ _)
  exact Nat.mul_le_mul_left 4 hscaled

/-- What is larger has no smaller target. -/
theorem target_le {m m' : Nat} {e e' : Int} (hm : 0 < m) (h : value m e ≤ value m' e') :
    target m e ≤ target m' e' := by
  have hlow : (2 : ℚ) ^ ((m.log2 : Int) + e) ≤ value m e := by
    rw [zpow_add₀ two_ne_zero, zpow_natCast, value]
    refine mul_le_mul_of_nonneg_right ?_ (zpow_nonneg zero_le_two e)
    exact_mod_cast Nat.log2_self_le hm.ne'
  have hhigh : value m' e' < (2 : ℚ) ^ ((m'.log2 + 1 : Nat) + e') := by
    rw [zpow_add₀ two_ne_zero, zpow_natCast, value]
    refine mul_lt_mul_of_pos_right ?_ (zpow_pos two_pos e')
    exact_mod_cast @Nat.lt_log2_self m'
  have hlt := (zpow_lt_zpow_iff_right₀ one_lt_two).mp (hlow.trans_lt (h.trans_lt hhigh))
  rw [target, target]
  omega

/-- Packed results are ordered like what they are rounded from. -/
theorem packed?_round_le {m m' : Nat} {e e' : Int} (hm : 0 < m) (hm' : 0 < m')
    (he : e ≤ target m e) (he' : e' ≤ target m' e') (h : value m e ≤ value m' e') :
    min (placeOf (nearest m e .exact) (target m e)) infinitePlace
      ≤ min (placeOf (nearest m' e' .exact) (target m' e')) infinitePlace := by
  refine min_le_min_right infinitePlace ?_
  rw [placeOf, placeOf]
  rcases (target_le hm h).eq_or_lt with ht | hlt
  · have hle := nearest_le ht he he' h
    rw [ht]
    omega
  · -- the larger one has a target above the least, so it fills its mantissa
    obtain ⟨hbits, _⟩ := cut_bounds hm he
    obtain ⟨_, hfull⟩ := cut_bounds hm' he'
    obtain ⟨_, hhigh⟩ := nearest_bounds m e .exact
    obtain ⟨hlow, _⟩ := nearest_bounds m' e' .exact
    have hleast : -1074 ≤ target m e := le_max_right _ _
    omega

/-! ## Products -/

/-- The exact product of two floats is at or below its target already. -/
theorem add_le_target {m m' : Nat} {e e' : Int} (hm : 0 < m) (hm' : 0 < m') (h : Rounded m e)
    (h' : Rounded m' e') : e + e' ≤ target (m * m') (e + e') := by
  rcases h.2.2 with hfull | hleast
  · exact le_target_of_full (hfull.trans (Nat.le_mul_of_pos_right m hm')) _
  · rcases h'.2.2 with hfull' | hleast'
    · exact le_target_of_full (hfull'.trans (Nat.le_mul_of_pos_left m' hm)) _
    · rw [target, hleast, hleast']
      omega

/-- The place of the product of two positive finite floats. -/
def productPlace (m m' : Nat) (e e' : Int) : Int :=
  min (placeOf (nearest (m * m') (e + e') .exact) (target (m * m') (e + e'))) infinitePlace

section Finite

variable {s t : Sign} {m m' : Nat} {e e' : Int} {p : 0 < m} {p' : 0 < m'}

theorem packed?_mul_finite (h : Rounded m e) (h' : Rounded m' e') :
    packed? (UnpackedFloat.mul Format.binary64 (.finite s m e p) (.finite t m' e' p'))
      = some ((s * t).apply (productPlace m m' e e')) :=
  packed?_roundWithAccuracy (s * t) .exact (Nat.mul_pos p p') (add_le_target p p' h h')

theorem productPlace_nonneg (m m' : Nat) (e e' : Int) : 0 ≤ productPlace m m' e e' := by
  have hleast : -1074 ≤ target (m * m') (e + e') := le_max_right _ _
  rw [productPlace, placeOf]
  refine le_min ?_ infinitePlace_pos.le
  omega

theorem productPlace_le {u : Nat} {k : Int} (p : 0 < m) (p' : 0 < m') (pu : 0 < u)
    (h : Rounded m e) (h' : Rounded m' e') (hu : Rounded u k)
    (hle : placeOf m' e' ≤ placeOf u k) : productPlace m m' e e' ≤ productPlace m u e k := by
  have hvalue : value (m * m') (e + e') ≤ value (m * u) (e + k) := by
    have hfactor := value_le_of_placeOf_le h' hu hle
    have hproduct : ∀ (n : Nat) (j : Int), value (m * n) (e + j) = value m e * value n j := by
      intro n j
      rw [value, value, value, zpow_add₀ two_ne_zero, Nat.cast_mul, mul_mul_mul_comm]
    rw [hproduct, hproduct]
    exact mul_le_mul_of_nonneg_left hfactor (value_pos e p).le
  exact packed?_round_le (Nat.mul_pos p p') (Nat.mul_pos p pu) (add_le_target p p' h h')
    (add_le_target p pu h hu) hvalue

end Finite

/-- A place that is not that of an infinity. -/
def Inside (a : Int) : Prop := -infinitePlace < a ∧ a < infinitePlace

theorem inside_zero : Inside 0 := ⟨by decide, by decide⟩

theorem not_inside_infinity (s : Sign) : ¬Inside (s.apply infinitePlace) := by
  rintro ⟨hlow, hhigh⟩
  cases s with
  | positive => exact lt_irrefl _ hhigh
  | negative => exact lt_irrefl _ hlow

theorem apply_ne_zero (s : Sign) {a : Int} (ha : 0 < a) : s.apply a ≠ 0 := by
  cases s with
  | positive => exact ha.ne'
  | negative => exact (Int.neg_neg_of_pos ha).ne

theorem inside_finite {s : Sign} {m : Nat} {e : Int} {p : 0 < m} (h : Canonical (.finite s m e p)) :
    Inside (s.apply (placeOf m e)) :=
  apply_bounds s (placeOf_pos p h.1) (placeOf_lt h.1 h.2)

/-- A product of numbers is a number unless one factor is infinite and the other zero. -/
theorem packed?_mul_isSome {x y : UnpackedFloat} (hx : Canonical x) (hy : Canonical y) {a b : Int}
    (ha : place? x = some a) (hb : place? y = some b) :
    (packed? (UnpackedFloat.mul Format.binary64 x y)).isSome = true ↔
      (Inside a ∨ b ≠ 0) ∧ (Inside b ∨ a ≠ 0) := by
  have hinfinity : ∀ s, (packed? (.infinity s)).isSome = true := by
    intro s
    rw [packed?_infinity_sign]
    rfl
  have hzero : ∀ s, (packed? (.zero s)).isSome = true := by
    intro s
    rw [packed?_zero]
    rfl
  have hnone : ¬(packed? .notANumber).isSome = true := by
    rw [packed?_notANumber]
    exact Bool.false_ne_true
  have hend : ∀ s : Sign, s.apply infinitePlace ≠ 0 := fun s => apply_ne_zero s infinitePlace_pos
  cases x with
  | notANumber => cases ha
  | infinity s =>
      obtain rfl := Option.some.inj ha
      cases y with
      | notANumber => cases hb
      | infinity t =>
          obtain rfl := Option.some.inj hb
          exact iff_of_true (hinfinity _) ⟨Or.inr (hend t), Or.inr (hend s)⟩
      | zero t =>
          obtain rfl := Option.some.inj hb
          exact iff_of_false hnone fun h => h.1.elim (not_inside_infinity s) fun hne => hne rfl
      | finite t m e p =>
          obtain rfl := Option.some.inj hb
          exact iff_of_true (hinfinity _)
            ⟨Or.inr (apply_ne_zero t (placeOf_pos p hy.1)), Or.inl (inside_finite hy)⟩
  | zero s =>
      obtain rfl := Option.some.inj ha
      cases y with
      | notANumber => cases hb
      | infinity t =>
          obtain rfl := Option.some.inj hb
          exact iff_of_false hnone fun h => h.2.elim (not_inside_infinity t) fun hne => hne rfl
      | zero t =>
          obtain rfl := Option.some.inj hb
          exact iff_of_true (hzero _) ⟨Or.inl inside_zero, Or.inl inside_zero⟩
      | finite t m e p =>
          obtain rfl := Option.some.inj hb
          exact iff_of_true (hzero _) ⟨Or.inl inside_zero, Or.inl (inside_finite hy)⟩
  | finite s m e p =>
      obtain rfl := Option.some.inj ha
      cases y with
      | notANumber => cases hb
      | infinity t =>
          obtain rfl := Option.some.inj hb
          exact iff_of_true (hinfinity _)
            ⟨Or.inl (inside_finite hx), Or.inr (apply_ne_zero s (placeOf_pos p hx.1))⟩
      | zero t =>
          obtain rfl := Option.some.inj hb
          exact iff_of_true (hzero _) ⟨Or.inl (inside_finite hx), Or.inl inside_zero⟩
      | finite t m' e' p' =>
          obtain rfl := Option.some.inj hb
          refine iff_of_true ?_ ⟨Or.inl (inside_finite hx), Or.inl (inside_finite hy)⟩
          rw [packed?_mul_finite hx.1 hy.1]
          rfl

/-- A product with a factor that is not a number is not a number. -/
theorem packed?_mul_notANumber {x y : UnpackedFloat} (h : place? x = none ∨ place? y = none) :
    packed? (UnpackedFloat.mul Format.binary64 x y) = none := by
  rcases h with h | h
  · cases x with
    | notANumber => exact packed?_notANumber
    | infinity s | zero s | finite s m e p => cases h
  · cases y with
    | notANumber => cases x <;> exact packed?_notANumber
    | infinity s | zero s | finite s m e p => cases h

/-- No packed result is behind infinity. -/
theorem packed?_le_infinity {u : UnpackedFloat} {a : Int} (h : packed? u = some a) :
    a ≤ infinitePlace := (place_bounds (unpack_canonical _) h).2

/-- A product of what is not below zero is not below zero. -/
theorem packed?_mul_nonneg {x y : UnpackedFloat} (hx : Canonical x) (hy : Canonical y) {a b c : Int}
    (ha : place? x = some a) (hb : place? y = some b) (ha0 : 0 ≤ a) (hb0 : 0 ≤ b)
    (hc : packed? (UnpackedFloat.mul Format.binary64 x y) = some c) : 0 ≤ c := by
  have hinfinity : packed? (.infinity .positive) = some c → 0 ≤ c := by
    intro h
    obtain rfl := Option.some.inj (packed?_infinity.symm.trans h)
    exact infinitePlace_pos.le
  have hzero : ∀ s, packed? (.zero s) = some c → 0 ≤ c := by
    intro s h
    exact (Option.some.inj ((packed?_zero s).symm.trans h)).le
  rcases cases_of_place hx ha ha0 with ⟨rfl, _⟩ | ⟨s, rfl, _⟩ | ⟨m, e, p, rfl, h, _, _⟩
  · rcases cases_of_place hy hb hb0 with ⟨rfl, _⟩ | ⟨t, rfl, _⟩ | ⟨m', e', p', rfl, h', _, _⟩
    · exact hinfinity hc
    · cases packed?_notANumber.symm.trans hc
    · exact hinfinity hc
  · rcases cases_of_place hy hb hb0 with ⟨rfl, _⟩ | ⟨t, rfl, _⟩ | ⟨m', e', p', rfl, h', _, _⟩
    · cases packed?_notANumber.symm.trans hc
    · exact hzero _ hc
    · exact hzero _ hc
  · rcases cases_of_place hy hb hb0 with ⟨rfl, _⟩ | ⟨t, rfl, _⟩ | ⟨m', e', p', rfl, h', _, _⟩
    · exact hinfinity hc
    · exact hzero _ hc
    · rw [packed?_mul_finite h h'] at hc
      obtain rfl := Option.some.inj hc
      exact productPlace_nonneg m m' e e'

/-- Multiplying by a positive finite float keeps the order of what is not below zero. -/
theorem packed?_finite_mul_le {m : Nat} {e : Int} {p : 0 < m} {x y : UnpackedFloat} (h : Rounded m e)
    (he : e ≤ 971) (hx : Canonical x) (hy : Canonical y) {a b c d : Int} (ha : place? x = some a)
    (hb : place? y = some b) (ha0 : 0 ≤ a) (hab : a ≤ b)
    (hc : packed? (UnpackedFloat.mul Format.binary64 (.finite .positive m e p) x) = some c)
    (hd : packed? (UnpackedFloat.mul Format.binary64 (.finite .positive m e p) y) = some d) :
    c ≤ d := by
  have hz : Canonical (.finite .positive m e p) := ⟨h, he⟩
  rcases cases_of_place hy hb (ha0.trans hab) with ⟨rfl, rfl⟩ | ⟨t, rfl, rfl⟩ |
    ⟨u, k, pu, rfl, hu, hk, rfl⟩
  · obtain rfl := Option.some.inj (packed?_infinity.symm.trans hd)
    exact packed?_le_infinity hc
  · rcases cases_of_place hx ha ha0 with ⟨rfl, rfl⟩ | ⟨s, rfl, rfl⟩ | ⟨m', e', p', rfl, h', hk', rfl⟩
    · exact absurd hab infinitePlace_pos.not_ge
    · obtain rfl := Option.some.inj ((packed?_zero _).symm.trans hc)
      exact (Option.some.inj ((packed?_zero _).symm.trans hd)).le
    · exact absurd hab (placeOf_pos p' h').not_ge
  · rcases cases_of_place hx ha ha0 with ⟨rfl, rfl⟩ | ⟨s, rfl, rfl⟩ | ⟨m', e', p', rfl, h', hk', rfl⟩
    · exact absurd hab (placeOf_lt hu hk).not_ge
    · obtain rfl := Option.some.inj ((packed?_zero _).symm.trans hc)
      exact packed?_mul_nonneg hz hy rfl hb (placeOf_pos p h).le (placeOf_pos pu hu).le hd
    · rw [packed?_mul_finite h h'] at hc
      rw [packed?_mul_finite h hu] at hd
      obtain rfl := Option.some.inj hc
      obtain rfl := Option.some.inj hd
      exact productPlace_le p p' pu h h' hu hab

/-- Zero times a number is zero, if it is a number. -/
theorem packed?_zero_mul {s : Sign} {x : UnpackedFloat} {c : Int}
    (hc : packed? (UnpackedFloat.mul Format.binary64 (.zero s) x) = some c) : c = 0 := by
  cases x with
  | notANumber | infinity t => cases packed?_notANumber.symm.trans hc
  | zero t | finite t m e p => exact (Option.some.inj ((packed?_zero _).symm.trans hc)).symm

/-- Infinity times what is not below zero is infinity, if it is a number. -/
theorem packed?_infinity_mul {x : UnpackedFloat} (hx : Canonical x) {a c : Int}
    (ha : place? x = some a) (ha0 : 0 ≤ a)
    (hc : packed? (UnpackedFloat.mul Format.binary64 (.infinity .positive) x) = some c) :
    c = infinitePlace := by
  rcases cases_of_place hx ha ha0 with ⟨rfl, _⟩ | ⟨s, rfl, _⟩ | ⟨m, e, p, rfl, _, _, _⟩
  · exact (Option.some.inj (packed?_infinity.symm.trans hc)).symm
  · cases packed?_notANumber.symm.trans hc
  · exact (Option.some.inj (packed?_infinity.symm.trans hc)).symm

/-- Multiplying by what is not below zero keeps the order of what is not below zero. -/
theorem packed?_mul_le_of_nonneg {x y z : UnpackedFloat} (hx : Canonical x) (hy : Canonical y)
    (hz : Canonical z) {a b k c d : Int} (ha : place? x = some a) (hb : place? y = some b)
    (hk : place? z = some k) (hk0 : 0 ≤ k) (ha0 : 0 ≤ a) (hab : a ≤ b)
    (hc : packed? (UnpackedFloat.mul Format.binary64 z x) = some c)
    (hd : packed? (UnpackedFloat.mul Format.binary64 z y) = some d) : c ≤ d := by
  rcases cases_of_place hz hk hk0 with ⟨rfl, rfl⟩ | ⟨s, rfl, rfl⟩ | ⟨m, e, p, rfl, h, he, rfl⟩
  · rw [packed?_infinity_mul hx ha ha0 hc, packed?_infinity_mul hy hb (ha0.trans hab) hd]
  · rw [packed?_zero_mul hc, packed?_zero_mul hd]
  · exact packed?_finite_mul_le h he hx hy ha hb ha0 hab hc hd

/-- The sign of a factor is the sign of the product. -/
theorem packed?_mul_neg {x z : UnpackedFloat} (hx : Canonical x) (hz : Canonical z) :
    packed? (UnpackedFloat.mul Format.binary64 z x.neg)
      = (packed? (UnpackedFloat.mul Format.binary64 z x)).map (-·) := by
  have hinfinity : ∀ s t : Sign, packed? (.infinity (s * -t))
      = (packed? (.infinity (s * t))).map (-·) := by
    intro s t
    rw [packed?_infinity_sign, packed?_infinity_sign]
    cases s <;> cases t <;> rfl
  have hzero : ∀ s t : Sign, packed? (.zero s) = (packed? (.zero t)).map (-·) := by
    intro s t
    rw [packed?_zero, packed?_zero]
    rfl
  have hnone : packed? .notANumber = (packed? .notANumber).map (-·) := by
    rw [packed?_notANumber]
    rfl
  cases z with
  | notANumber => exact hnone
  | infinity s =>
      cases x with
      | notANumber | zero t => exact hnone
      | infinity t | finite t m e p => exact hinfinity s t
  | zero s =>
      cases x with
      | notANumber | infinity t => exact hnone
      | zero t | finite t m e p => exact hzero _ _
  | finite s m e p =>
      cases x with
      | notANumber => exact hnone
      | infinity t => exact hinfinity s t
      | zero t => exact hzero _ _
      | finite t m' e' p' =>
          show packed? (UnpackedFloat.mul Format.binary64 _ (.finite (-t) m' e' p')) = _
          rw [packed?_mul_finite hz.1 hx.1, packed?_mul_finite hz.1 hx.1]
          cases s <;> cases t <;> first | rfl | exact congrArg some (neg_neg _).symm

theorem canonical_neg {x : UnpackedFloat} (h : Canonical x) : Canonical x.neg := by
  cases x with
  | notANumber | infinity s | zero s => trivial
  | finite s m e p => exact h

theorem place?_neg (x : UnpackedFloat) : place? x.neg = (place? x).map (-·) := by
  cases x with
  | notANumber => rfl
  | infinity s | zero s => cases s <;> rfl
  | finite s m e p =>
      cases s with
      | positive => rfl
      | negative => exact congrArg some (neg_neg _).symm

/-- Multiplying by what is not below zero keeps the order. -/
theorem packed?_mul_le {x y z : UnpackedFloat} (hx : Canonical x) (hy : Canonical y)
    (hz : Canonical z) {a b k c d : Int} (ha : place? x = some a) (hb : place? y = some b)
    (hk : place? z = some k) (hk0 : 0 ≤ k) (hab : a ≤ b)
    (hc : packed? (UnpackedFloat.mul Format.binary64 z x) = some c)
    (hd : packed? (UnpackedFloat.mul Format.binary64 z y) = some d) : c ≤ d := by
  -- what is below zero is seen from its other side
  have hneg : ∀ {u : UnpackedFloat} {i j : Int}, Canonical u → place? u = some i →
      packed? (UnpackedFloat.mul Format.binary64 z u) = some j →
      place? u.neg = some (-i) ∧ packed? (UnpackedFloat.mul Format.binary64 z u.neg) = some (-j) := by
    intro u i j hu hi hj
    rw [place?_neg, packed?_mul_neg hu hz, hi, hj]
    exact ⟨rfl, rfl⟩
  rcases le_or_gt 0 a with ha0 | ha0
  · exact packed?_mul_le_of_nonneg hx hy hz ha hb hk hk0 ha0 hab hc hd
  · obtain ⟨ha', hc'⟩ := hneg hx ha hc
    rcases le_or_gt 0 b with hb0 | hb0
    · have hlow := packed?_mul_nonneg hz (canonical_neg hx) hk ha' hk0 (by omega) hc'
      have hhigh := packed?_mul_nonneg hz hy hk hb hk0 hb0 hd
      omega
    · obtain ⟨hb', hd'⟩ := hneg hy hb hd
      have hle := packed?_mul_le_of_nonneg (canonical_neg hy) (canonical_neg hx) hz hb' ha' hk hk0
        (by omega) (by omega) hd' hc'
      omega

/-! ## The laws of ordered products -/

theorem number_iff_rank {x : Float} : x ≤ x ↔ (rank? x).isSome = true := by
  rw [le_iff_rank, Option.isSome_iff_exists]
  constructor
  · rintro ⟨a, _, ha, _, _⟩
    exact ⟨a, ha⟩
  · rintro ⟨a, ha⟩
    exact ⟨a, a, ha, ha, le_refl a⟩

theorem isFinite_iff_inside {x : Float} {a : Int} (ha : rank? x = some a) :
    Scalar.isFinite x = true ↔ Inside a := by
  refine isFinite_iff_rank.trans ⟨?_, fun h => ⟨a, ha, h⟩⟩
  rintro ⟨a', ha', h⟩
  obtain rfl : a = a' := Option.some.inj (ha.symm.trans ha')
  exact h

theorem isZero_iff_rank {x : Float} {a : Int} (ha : rank? x = some a) :
    Scalar.isZero x = false ↔ a ≠ 0 := by
  rw [← Bool.not_eq_true, Scalar.isZero_iff_le, not_iff_not]
  constructor
  · rintro ⟨hle, hge⟩
    obtain ⟨b, z, hb, hz, hbz⟩ := le_iff_rank.mp hle
    obtain ⟨z', b', hz', hb', hzb⟩ := le_iff_rank.mp hge
    obtain rfl : a = b := Option.some.inj (ha.symm.trans hb)
    obtain rfl : a = b' := Option.some.inj (ha.symm.trans hb')
    obtain rfl : (0 : Int) = z := Option.some.inj hz
    obtain rfl : (0 : Int) = z' := Option.some.inj hz'
    exact le_antisymm hbz hzb
  · rintro rfl
    exact ⟨le_iff_rank.mpr ⟨0, 0, ha, rfl, le_refl 0⟩, le_iff_rank.mpr ⟨0, 0, rfl, ha, le_refl 0⟩⟩

/-- Products of floats are ordered like their factors. -/
instance instMonotoneScalarFloat : MonotoneScalar Float where
  toRoundedScalar := instRoundedScalarFloat
  number_mul_iff := by
    intro x y
    rw [number_iff_rank, number_iff_rank, number_iff_rank, rank?_mul]
    cases ha : rank? x with
    | none => simp [packed?_mul_notANumber (Or.inl ha)]
    | some a =>
        cases hb : rank? y with
        | none => simp [packed?_mul_notANumber (Or.inr hb)]
        | some b =>
            rw [isFinite_iff_inside ha, isFinite_iff_inside hb, isZero_iff_rank ha,
              isZero_iff_rank hb]
            have hproduct := packed?_mul_isSome (unpack_canonical _) (unpack_canonical _) ha hb
            exact hproduct.trans (and_iff_right ⟨rfl, rfl⟩).symm
  mul_nonneg := by
    intro x y hx hy hxy
    obtain ⟨z, a, hz, ha, hza⟩ := le_iff_rank.mp hx
    obtain ⟨z', b, hz', hb, hzb⟩ := le_iff_rank.mp hy
    obtain ⟨c, _, hc, _, _⟩ := le_iff_rank.mp hxy
    obtain rfl : (0 : Int) = z := Option.some.inj hz
    obtain rfl : (0 : Int) = z' := Option.some.inj hz'
    exact le_iff_rank.mpr ⟨0, c, rfl, hc,
      packed?_mul_nonneg (unpack_canonical _) (unpack_canonical _) ha hb hza hzb hc⟩
  mul_le_mul := by
    intro x y z hz hxy hzx hzy
    obtain ⟨o, k, ho, hk, hok⟩ := le_iff_rank.mp hz
    obtain ⟨a, b, ha, hb, hab⟩ := le_iff_rank.mp hxy
    obtain ⟨c, _, hc, _, _⟩ := le_iff_rank.mp hzx
    obtain ⟨d, _, hd, _, _⟩ := le_iff_rank.mp hzy
    obtain rfl : (0 : Int) = o := Option.some.inj ho
    exact le_iff_rank.mpr ⟨c, d, hc, hd, packed?_mul_le (unpack_canonical _) (unpack_canonical _)
      (unpack_canonical _) ha hb hk hok hab hc hd⟩

end ReservoirWells.Binary64
