import ReservoirWells.Proofs.Binary64.Rounding

/-! # Differences of floats — a difference has the sign of what it is rounded from

    The exact difference of two finite floats is a multiple of the least positive float, so
    rounding never takes it to zero or past it.  A difference is at most zero exactly when its first
    side is at most the second, with one exception: the difference of an infinity from itself is not
    a number, and no comparison with it holds.

    * `placeOf_le_iff` — places and values order positive floats in the same way;
    * `packed?_sub` — the sign of a difference;
    * `sub_le_zero_iff` — what it means for floats that a difference is at most zero. -/

namespace ReservoirWells.Binary64

open Float.Model Float.Model.UnpackedFloat

/-! ## Signed values -/

/-- What is rounded is at its target already. -/
theorem target_of_rounded {m : Nat} {e : Int} (hm : 0 < m) (h : Rounded m e) : target m e = e := by
  obtain ⟨hlow, hlt, hfull⟩ := h
  have hlog := (Nat.log2_lt hm.ne').mpr hlt
  have hbits := log2_eq_full_iff hm hlt
  rw [target]
  omega

/-- Positive floats are ordered by their values. -/
theorem placeOf_le_iff {u m : Nat} {k e : Int} (hu : Rounded u k) (hpos : 0 < m) (hm : Rounded m e) :
    placeOf u k ≤ placeOf m e ↔ value u k ≤ value m e := by
  constructor
  · exact value_le_of_placeOf_le hu hm
  · intro h
    have htarget := target_of_rounded hpos hm
    have hcut : cut m e (target m e) ≤ m := Nat.div_le_self _ _
    have hle := placeOf_le hu hpos htarget.ge hcut h
    rwa [htarget] at hle

/-- The number that a sign, a mantissa and an exponent stand for. -/
def signedValue (s : Sign) (m : Nat) (e : Int) : ℚ := (s.apply m : Int) * 2 ^ e

theorem signedValue_positive (m : Nat) (e : Int) : signedValue .positive m e = value m e := by
  rw [signedValue, value]
  exact congrArg (· * _) (Int.cast_natCast m)

theorem signedValue_negative (m : Nat) (e : Int) : signedValue .negative m e = -value m e := by
  rw [signedValue, value, ← neg_mul]
  exact congrArg (· * _) ((Int.cast_neg _).trans (congrArg _ (Int.cast_natCast m)))

theorem signedValue_mul_two_pow (s : Sign) (m k : Nat) (e : Int) :
    signedValue s (m * 2 ^ k) e = signedValue s m (e + k) := by
  cases s with
  | positive => rw [signedValue_positive, signedValue_positive, value_mul_two_pow]
  | negative => rw [signedValue_negative, signedValue_negative, value_mul_two_pow]

theorem value_pos {m : Nat} (e : Int) (hm : 0 < m) : 0 < value m e :=
  mul_pos (Nat.cast_pos.mpr hm) (zpow_pos two_pos e)

/-- Finite floats of any sign are ordered by their values. -/
theorem apply_placeOf_le_iff {s t : Sign} {u m : Nat} {k e : Int} (hu : Rounded u k) (pu : 0 < u)
    (hm : Rounded m e) (pm : 0 < m) :
    s.apply (placeOf u k) ≤ t.apply (placeOf m e) ↔ signedValue s u k ≤ signedValue t m e := by
  have hplace := placeOf_pos pu hu
  have hplace' := placeOf_pos pm hm
  have hvalue := value_pos k pu
  have hvalue' := value_pos e pm
  cases s with
  | positive =>
      cases t with
      | positive =>
          rw [signedValue_positive, signedValue_positive]
          exact placeOf_le_iff hu pm hm
      | negative =>
          rw [signedValue_positive, signedValue_negative]
          refine iff_of_false (not_le.mpr ?_) (not_le.mpr ((neg_lt_zero.mpr hvalue').trans hvalue))
          exact (Int.neg_neg_of_pos hplace').trans hplace
  | negative =>
      cases t with
      | positive =>
          rw [signedValue_positive, signedValue_negative]
          refine iff_of_true ?_ ((neg_lt_zero.mpr hvalue).trans hvalue').le
          exact ((Int.neg_neg_of_pos hplace).trans hplace').le
      | negative =>
          rw [signedValue_negative, signedValue_negative, neg_le_neg_iff, ← placeOf_le_iff hm pu hu]
          exact neg_le_neg_iff

/-! ## The sign of a difference -/

/-- The difference of two finite floats is rounded from the difference of their values. -/
theorem sub_finite {s t : Sign} {u m : Nat} {k e : Int} (pu : 0 < u) (pm : 0 < m) :
    ∃ d : Int, (d : ℚ) * 2 ^ min k e = signedValue s u k - signedValue t m e ∧
      UnpackedFloat.sub Format.binary64 (.finite s u k pu) (.finite t m e pm)
        = UnpackedFloat.normalize Format.binary64 d (min k e) .positive := by
  have hk : min k e + ((k - min k e).toNat : Int) = k := by omega
  have he : min k e + ((e - min k e).toNat : Int) = e := by omega
  refine ⟨s.apply (u * 2 ^ (k - min k e).toNat : Nat) - t.apply (m * 2 ^ (e - min k e).toNat : Nat),
    ?_, ?_⟩
  · rw [Int.cast_sub, sub_mul]
    show signedValue s _ _ - signedValue t _ _ = _
    rw [signedValue_mul_two_pow, signedValue_mul_two_pow, hk, he]
  · rw [UnpackedFloat.sub]
    simp only [decreaseExponent, Nat.shiftLeft_eq]

/-- The least positive float. -/
theorem rounded_least : Rounded 1 (-1074) := ⟨le_refl _, by decide, Or.inr rfl⟩

theorem value_least_le {m : Nat} {e : Int} (hm : 0 < m) (he : -1074 ≤ e) :
    value 1 (-1074) ≤ value m e := by
  rw [show e = -1074 + (e + 1074).toNat by omega, ← value_mul_two_pow, value_le_iff]
  exact Nat.mul_pos hm (Nat.two_pow_pos _)

/-- Rounding keeps the sign of what is at least one in the least place. -/
theorem packed?_normalize (d : Int) {e : Int} (he : -1074 ≤ e) :
    ∃ c, packed? (UnpackedFloat.normalize Format.binary64 d e .positive) = some c ∧
      (c ≤ 0 ↔ d ≤ 0) := by
  have hleast : 0 < placeOf 1 (-1074) := by decide
  rw [UnpackedFloat.normalize]
  rcases lt_trichotomy d 0 with hneg | rfl | hpos
  · rw [compare_lt_iff_lt.mpr hneg]
    have hd : 0 < (-d).toNat := by omega
    obtain ⟨b, hb, hle⟩ := placeOf_le_packed_round .negative rounded_least (by decide) hd
      (value_least_le hd he)
    exact ⟨-b, hb, iff_of_true (by omega) hneg.le⟩
  · rw [compare_eq_iff_eq.mpr rfl]
    exact ⟨0, packed?_zero _, Iff.rfl⟩
  · rw [compare_gt_iff_gt.mpr hpos]
    have hd : 0 < d.toNat := by omega
    obtain ⟨b, hb, hle⟩ := placeOf_le_packed_round .positive rounded_least (by decide) hd
      (value_least_le hd he)
    exact ⟨b, hb, iff_of_false (by omega) (not_le.mpr hpos)⟩

theorem packed?_sub_finite {s t : Sign} {u m : Nat} {k e : Int} {pu : 0 < u} {pm : 0 < m}
    (hu : Rounded u k) (hm : Rounded m e) :
    ∃ c, packed? (UnpackedFloat.sub Format.binary64 (.finite s u k pu) (.finite t m e pm)) = some c ∧
      (c ≤ 0 ↔ s.apply (placeOf u k) ≤ t.apply (placeOf m e)) := by
  obtain ⟨d, hd, hsub⟩ := sub_finite (s := s) (t := t) (k := k) (e := e) pu pm
  obtain ⟨c, hc, hsign⟩ := packed?_normalize d (e := min k e) (le_min hu.1 hm.1)
  refine ⟨c, hsub ▸ hc, hsign.trans ?_⟩
  have hscale : 0 < (d : ℚ) * 2 ^ min k e ↔ 0 < d :=
    (mul_pos_iff_of_pos_right (zpow_pos two_pos _)).trans Int.cast_pos
  rw [apply_placeOf_le_iff hu pu hm pm, ← not_lt, ← hscale, hd, sub_pos, not_lt]

theorem packed?_notANumber : packed? .notANumber = none := packed?_canonical trivial

theorem packed?_infinity_sign (s : Sign) : packed? (.infinity s) = some (s.apply infinitePlace) :=
  packed?_canonical (u := .infinity s) trivial

/-- A difference with a side that is not a number is not a number. -/
theorem packed?_sub_notANumber {x y : UnpackedFloat} (h : place? x = none ∨ place? y = none) :
    packed? (UnpackedFloat.sub Format.binary64 x y) = none := by
  have hnone : ∀ {u : UnpackedFloat}, place? u = none → u = .notANumber := by
    intro u hu
    cases u with
    | notANumber => rfl
    | infinity s | zero s | finite s m e p => cases hu
  rcases h with h | h
  · rw [hnone h]
    cases y <;> exact packed?_notANumber
  · rw [hnone h]
    cases x <;> exact packed?_notANumber

/-- No place is beyond those of the infinities. -/
theorem place_bounds {x : UnpackedFloat} (hx : Canonical x) {a : Int} (ha : place? x = some a) :
    -infinitePlace ≤ a ∧ a ≤ infinitePlace := by
  have hpos := infinitePlace_pos
  cases x with
  | notANumber => cases ha
  | infinity s =>
      obtain rfl := Option.some.inj ha
      cases s with
      | positive => exact ⟨(Int.neg_nonpos_of_nonneg hpos.le).trans hpos.le, le_refl _⟩
      | negative => exact ⟨le_refl _, (Int.neg_nonpos_of_nonneg hpos.le).trans hpos.le⟩
  | zero s =>
      obtain rfl := Option.some.inj ha
      omega
  | finite s m e p =>
      obtain rfl := Option.some.inj ha
      obtain ⟨hlow, hhigh⟩ := apply_bounds s (placeOf_pos p hx.1) (placeOf_lt hx.1 hx.2)
      exact ⟨hlow.le, hhigh.le⟩

/-- An infinity stays what it is when another number is taken from it. -/
theorem packed?_infinity_sub {s : Sign} {y : UnpackedFloat} (hy : Canonical y) {b : Int}
    (hb : place? y = some b) (hne : s.apply infinitePlace ≠ b) :
    ∃ c, packed? (UnpackedFloat.sub Format.binary64 (.infinity s) y) = some c ∧
      (c ≤ 0 ↔ s.apply infinitePlace ≤ b) := by
  have hpos := infinitePlace_pos
  obtain ⟨hlow, hhigh⟩ := place_bounds hy hb
  have hsub : UnpackedFloat.sub Format.binary64 (.infinity s) y = .infinity s := by
    cases y with
    | notANumber => cases hb
    | infinity t =>
        obtain rfl := Option.some.inj hb
        cases s <;> cases t <;> first | rfl | exact absurd rfl hne
    | zero t | finite t m e p => rfl
  rw [hsub]
  refine ⟨_, packed?_infinity_sign s, ?_⟩
  cases s with
  | positive => exact iff_of_false (not_le.mpr hpos) (not_le.mpr (lt_of_le_of_ne hhigh hne.symm))
  | negative => exact iff_of_true (Int.neg_nonpos_of_nonneg hpos.le) hlow

/-- Taking an infinity from another number leaves the opposite infinity. -/
theorem packed?_sub_infinity {t : Sign} {x : UnpackedFloat} (hx : Canonical x) {a : Int}
    (ha : place? x = some a) (hne : a ≠ t.apply infinitePlace) :
    ∃ c, packed? (UnpackedFloat.sub Format.binary64 x (.infinity t)) = some c ∧
      (c ≤ 0 ↔ a ≤ t.apply infinitePlace) := by
  have hpos := infinitePlace_pos
  obtain ⟨hlow, hhigh⟩ := place_bounds hx ha
  have hsub : UnpackedFloat.sub Format.binary64 x (.infinity t) = .infinity (-t) := by
    cases x with
    | notANumber => cases ha
    | infinity s =>
        obtain rfl := Option.some.inj ha
        cases s <;> cases t <;> first | rfl | exact absurd rfl hne
    | zero s | finite s m e p => rfl
  rw [hsub]
  refine ⟨_, packed?_infinity_sign (-t), ?_⟩
  cases t with
  | positive => exact iff_of_true (Int.neg_nonpos_of_nonneg hpos.le) hhigh
  | negative => exact iff_of_false (not_le.mpr hpos) (not_le.mpr (lt_of_le_of_ne hlow hne.symm))

/-- A difference is a number with the sign that the order of its sides gives it, unless both are the
    same infinity. -/
theorem packed?_sub {x y : UnpackedFloat} (hx : Canonical x) (hy : Canonical y) {a b : Int}
    (ha : place? x = some a) (hb : place? y = some b)
    (hdiffer : a = b → -infinitePlace < a ∧ a < infinitePlace) :
    ∃ c, packed? (UnpackedFloat.sub Format.binary64 x y) = some c ∧ (c ≤ 0 ↔ a ≤ b) := by
  have hinfinite : ∀ s : Sign, a = b → a ≠ s.apply infinitePlace := by
    intro s hab
    obtain ⟨hlow, hhigh⟩ := hdiffer hab
    cases s with
    | positive => exact ne_of_lt hhigh
    | negative => exact (ne_of_lt hlow).symm
  cases x with
  | notANumber => cases ha
  | infinity s =>
      obtain rfl := Option.some.inj ha
      exact packed?_infinity_sub hy hb fun hab => hinfinite s hab rfl
  | zero s =>
      obtain rfl := Option.some.inj ha
      cases y with
      | notANumber => cases hb
      | infinity t =>
          obtain rfl := Option.some.inj hb
          exact packed?_sub_infinity hx ha fun hab => hinfinite t hab hab
      | zero t =>
          obtain rfl := Option.some.inj hb
          refine ⟨0, ?_, Iff.rfl⟩
          cases s <;> cases t <;> exact packed?_zero _
      | finite t m e p =>
          obtain rfl := Option.some.inj hb
          refine ⟨_, packed?_canonical (u := .finite (-t) m e p) hy, ?_⟩
          cases t with
          | positive => exact Int.neg_nonpos_iff _
          | negative => exact Int.neg_nonneg.symm
  | finite s m e p =>
      obtain rfl := Option.some.inj ha
      cases y with
      | notANumber => cases hb
      | infinity t =>
          obtain rfl := Option.some.inj hb
          exact packed?_sub_infinity hx ha fun hab => hinfinite t hab hab
      | zero t =>
          obtain rfl := Option.some.inj hb
          exact ⟨_, packed?_canonical hx, Iff.rfl⟩
      | finite t m' e' p' =>
          obtain rfl := Option.some.inj hb
          exact packed?_sub_finite hx.1 hy.1

/-- Only the infinities have the places at the ends. -/
theorem eq_infinity_of_place {x : UnpackedFloat} (hx : Canonical x) {a : Int}
    (ha : place? x = some a) (hend : ¬(-infinitePlace < a ∧ a < infinitePlace)) :
    ∃ s, x = .infinity s ∧ s.apply infinitePlace = a := by
  have hpos := infinitePlace_pos
  cases x with
  | notANumber => cases ha
  | infinity s => exact ⟨s, rfl, Option.some.inj ha⟩
  | zero s =>
      obtain rfl := Option.some.inj ha
      exact absurd ⟨neg_neg_of_pos hpos, hpos⟩ hend
  | finite s m e p =>
      obtain rfl := Option.some.inj ha
      exact absurd (apply_bounds s (placeOf_pos p hx.1) (placeOf_lt hx.1 hx.2)) hend

/-- The difference of an infinity from itself is not a number. -/
theorem packed?_sub_self {x y : UnpackedFloat} (hx : Canonical x) (hy : Canonical y) {a : Int}
    (ha : place? x = some a) (hb : place? y = some a)
    (hend : ¬(-infinitePlace < a ∧ a < infinitePlace)) :
    packed? (UnpackedFloat.sub Format.binary64 x y) = none := by
  obtain ⟨s, rfl, hs⟩ := eq_infinity_of_place hx ha hend
  obtain ⟨t, rfl, ht⟩ := eq_infinity_of_place hy hb hend
  have happly := hs.trans ht.symm
  cases s <;> cases t <;> first | exact packed?_notANumber | exact absurd happly (by decide)

/-! ## Differences of floats -/

theorem rank?_sub (x y : Float) :
    rank? (x - y) = packed? (UnpackedFloat.sub Format.binary64 x.toModel.unpack y.toModel.unpack) :=
  rfl

/-- A difference is at most zero when its first side is at most the second, and they are not the same
    infinity. -/
theorem sub_le_zero_iff {x y : Float} : x - y ≤ 0 ↔ x ≤ y ∧ (y ≤ x → x.isFinite = true) := by
  constructor
  · intro h
    obtain ⟨c, z, hc, hz, hcz⟩ := le_iff_rank.mp h
    obtain rfl : (0 : Int) = z := Option.some.inj hz
    rw [rank?_sub] at hc
    cases ha : rank? x with
    | none => cases (packed?_sub_notANumber (Or.inl ha)).symm.trans hc
    | some a =>
        cases hb : rank? y with
        | none => cases (packed?_sub_notANumber (Or.inr hb)).symm.trans hc
        | some b =>
            have hdiffer : a = b → -infinitePlace < a ∧ a < infinitePlace := by
              rintro rfl
              by_contra hend
              cases (packed?_sub_self (unpack_canonical _) (unpack_canonical _) ha hb hend).symm.trans
                hc
            obtain ⟨d, hd, hsign⟩ :=
              packed?_sub (unpack_canonical _) (unpack_canonical _) ha hb hdiffer
            obtain rfl : d = c := Option.some.inj (hd.symm.trans hc)
            have hab := hsign.mp hcz
            refine ⟨le_iff_rank.mpr ⟨a, b, ha, hb, hab⟩, ?_⟩
            intro hyx
            obtain ⟨b', a', hb', ha', hba⟩ := le_iff_rank.mp hyx
            obtain rfl : a = a' := Option.some.inj (ha.symm.trans ha')
            obtain rfl : b = b' := Option.some.inj (hb.symm.trans hb')
            exact isFinite_iff_rank.mpr ⟨a, ha, hdiffer (le_antisymm hab hba)⟩
  · rintro ⟨hxy, hfinite⟩
    obtain ⟨a, b, ha, hb, hab⟩ := le_iff_rank.mp hxy
    have hdiffer : a = b → -infinitePlace < a ∧ a < infinitePlace := by
      rintro rfl
      obtain ⟨a', ha', hinside⟩ := isFinite_iff_rank.mp (hfinite (le_iff_rank.mpr ⟨a, a, hb, ha, hab⟩))
      obtain rfl : a = a' := Option.some.inj (ha.symm.trans ha')
      exact hinside
    obtain ⟨c, hc, hsign⟩ := packed?_sub (unpack_canonical _) (unpack_canonical _) ha hb hdiffer
    exact le_iff_rank.mpr ⟨c, 0, hc, rfl, hsign.mpr hab⟩

end ReservoirWells.Binary64
