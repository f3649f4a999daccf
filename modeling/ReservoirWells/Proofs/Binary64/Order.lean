import Mathlib
import ReservoirWells.Proofs.Ordered

/-! # Order of floats — the place of a float among all floats

    A float is unpacked into a sign, a mantissa and an exponent before anything is computed with it.
    The mantissa of a finite float has 53 bits unless the exponent is the least one (`Canonical`),
    so exponent and mantissa together are one integer that grows with the float: its *place*, with
    the infinities behind the largest finite float and both zeros at zero.

    * `unpack_canonical`, `unpack_pack` — unpacking gives canonical floats, and packing keeps them;
    * `compare_eq` — canonical floats are compared by their places;
    * `instOrderedScalarFloat` — so the numbers among the floats are linearly ordered. -/

namespace ReservoirWells.Binary64

open Float.Model Float.Model.UnpackedFloat

/-! ## Canonical floats -/

/-- The mantissa has 53 bits, or less when the exponent is the least one. -/
def Rounded (m : Nat) (e : Int) : Prop :=
  -1074 ≤ e ∧ m < 2 ^ 53 ∧ (2 ^ 52 ≤ m ∨ e = -1074)

/-- A finite float is rounded, and its exponent is not too large. -/
def Canonical : UnpackedFloat → Prop
  | .finite _ m e _ => Rounded m e ∧ e ≤ 971
  | _ => True

theorem finite_eq {s : Sign} {m m' : Nat} {e e' : Int} {p : 0 < m} {p' : 0 < m'} (hm : m = m')
    (he : e = e') : UnpackedFloat.finite s m e p = .finite s m' e' p' := by
  subst hm he
  rfl

/-- The leading bit of a mantissa is not stored. -/
theorem toNat_one_append (b : BitVec 52) : (1#1 ++ b).toNat = 2 ^ 52 + b.toNat := by
  rw [BitVec.toNat_append, ← Nat.shiftLeft_add_eq_or_of_lt b.isLt]
  rfl

theorem unpack_canonical (b : BitVec 64) :
    Canonical (UnpackedFloat.unpack Format.binary64 b) := by
  have hbias : (Format.binary64.exponentBias : Int) = 1023 := rfl
  have hm : (@unpackMantissa Format.binary64 b).toNat < 2 ^ 52 := BitVec.isLt _
  have he : (@unpackExponent Format.binary64 b).toNat < 2 ^ 11 := BitVec.isLt _
  rw [UnpackedFloat.unpack, hbias]
  dsimp only
  split
  · split <;> trivial
  · rename_i hinfinite
    split
    · rename_i hleast
      split
      · trivial
      · rw [hleast]
        exact ⟨⟨by decide, hm.trans (by decide), Or.inr (by decide)⟩, by decide⟩
    · rename_i hleast
      have hlow : (@unpackExponent Format.binary64 b).toNat ≠ 0 := by
        intro h
        exact hleast (BitVec.eq_of_toNat_eq h)
      have hhigh : (@unpackExponent Format.binary64 b).toNat ≠ 2047 := by
        intro h
        exact hinfinite (BitVec.eq_of_toNat_eq h)
      have hmantissa := toNat_one_append (@unpackMantissa Format.binary64 b)
      refine ⟨⟨?_, ?_, Or.inl ?_⟩, ?_⟩
      · show _ ≤ ((_ : Nat) : Int) - (1023 + 52)
        omega
      · rw [hmantissa]
        omega
      · rw [hmantissa]
        omega
      · show ((_ : Nat) : Int) - (1023 + 52) ≤ _
        omega

/-! ## Packing and unpacking -/

theorem unpack_normal (s : Sign) {e : BitVec 11} (m : BitVec 52) (h0 : e ≠ 0#11) (h1 : e ≠ -1#11) :
    unpack Format.binary64 (packComponents Format.binary64 s e m)
      = .finite s (2 ^ 52 + m.toNat) (e.toNat - 1075) (by omega) := by
  rw [UnpackedFloat.unpack]
  simp only [unpackMantissa_packComponents, unpackExponent_packComponents,
    unpackSign_packComponents, Sign.ofBitVec_toBitVec, if_neg h0, if_neg h1, toNat_one_append]
  rfl

theorem unpack_subnormal (s : Sign) {m : BitVec 52} (hm : 0 < m.toNat) :
    unpack Format.binary64 (packComponents Format.binary64 s 0#11 m)
      = .finite s m.toNat (-1074) hm := by
  have hne : m ≠ 0#52 := by
    intro h
    rw [h] at hm
    exact absurd hm (by decide)
  rw [UnpackedFloat.unpack]
  simp only [unpackMantissa_packComponents, unpackExponent_packComponents,
    unpackSign_packComponents, Sign.ofBitVec_toBitVec]
  rw [if_neg (by decide), if_pos trivial, dif_neg hne]
  rfl

theorem log2_eq_full_iff {m : Nat} (hm : 0 < m) (hlt : m < 2 ^ 53) : m.log2 = 52 ↔ 2 ^ 52 ≤ m := by
  rw [← Nat.le_log2 hm.ne']
  have hlog := (Nat.log2_lt hm.ne').mpr hlt
  omega

/-- A rounded float is kept by packing, or becomes infinite when its exponent is too large. -/
theorem unpack_pack_finite {s : Sign} {m : Nat} {e : Int} {p : 0 < m} (h : Rounded m e) :
    unpack Format.binary64 (UnpackedFloat.pack Format.binary64 (.finite s m e p))
      = if e ≤ 971 then .finite s m e p else .infinity s := by
  obtain ⟨hlow, hm, hfull⟩ := h
  have hbias : (e + Format.binary64.exponentBias
      + Format.binary64.mantissaBitsWithoutImplicit).toNat = (e + 1075).toNat := by
    show (e + (1023 : Nat) + (52 : Nat)).toNat = _
    omega
  have hbits : (m.log2 + 1 = Format.binary64.mantissaBits) = (2 ^ 52 ≤ m) := by
    rw [← log2_eq_full_iff p hm]
    show (m.log2 + 1 = 52 + 1) = _
    rw [Nat.add_right_cancel_iff]
  rw [UnpackedFloat.pack, hbias]
  simp only [hbits]
  by_cases hhigh : e ≤ 971
  · rw [if_pos hhigh, if_neg (by show ¬2 ^ 11 ≤ _; omega)]
    by_cases hnormal : 2 ^ 52 ≤ m
    · have hexp : (BitVec.ofNat 11 (e + 1075).toNat).toNat = (e + 1075).toNat :=
        Nat.mod_eq_of_lt (by omega)
      have hmant : (BitVec.ofNat 52 m).toNat = m - 2 ^ 52 := by
        rw [BitVec.toNat_ofNat]
        omega
      rw [if_pos hnormal, unpack_normal s _ ?_ ?_]
      · exact finite_eq (by rw [hmant]; omega) (by rw [hexp]; omega)
      · intro h
        have hzero := congrArg BitVec.toNat h
        rw [hexp] at hzero
        change _ = 0 at hzero
        omega
      · intro h
        have hlast := congrArg BitVec.toNat h
        rw [hexp] at hlast
        change _ = 2047 at hlast
        omega
    · have hmant : (BitVec.ofNat 52 m).toNat = m := Nat.mod_eq_of_lt (by omega)
      rw [if_neg hnormal, unpack_subnormal s (by rw [hmant]; exact p)]
      exact finite_eq hmant (by omega)
  · rw [if_neg hhigh, if_pos (by show 2 ^ 11 ≤ _; omega)]
    cases s <;> rfl

theorem unpack_pack {u : UnpackedFloat} (h : Canonical u) :
    unpack Format.binary64 (UnpackedFloat.pack Format.binary64 u) = u := by
  cases u with
  | notANumber => rfl
  | infinity s => cases s <;> rfl
  | zero s => cases s <;> rfl
  | finite s m e p => rw [unpack_pack_finite h.1, if_pos h.2]

/-! ## Places -/

/-- The place of a positive finite float. -/
def placeOf (m : Nat) (e : Int) : Int := (e + 1074) * 2 ^ 52 + m

/-- The place behind the largest finite float. -/
def infinitePlace : Int := 2047 * 2 ^ 52

/-- The place of a float. "Not a number" has none. -/
def place? : UnpackedFloat → Option Int
  | .notANumber => none
  | .infinity s => some (s.apply infinitePlace)
  | .zero _ => some 0
  | .finite s m e _ => some (s.apply (placeOf m e))

theorem infinitePlace_pos : 0 < infinitePlace := by decide

section Places

variable {s₁ s₂ : Sign} {m₁ m₂ : Nat} {e₁ e₂ : Int} {p₁ : 0 < m₁} {p₂ : 0 < m₂}

theorem placeOf_pos (p : 0 < m₁) (h : Rounded m₁ e₁) : 0 < placeOf m₁ e₁ := by
  obtain ⟨hlow, _, _⟩ := h
  rw [placeOf]
  omega

theorem placeOf_lt (h : Rounded m₁ e₁) (hhigh : e₁ ≤ 971) : placeOf m₁ e₁ < infinitePlace := by
  obtain ⟨_, hm, _⟩ := h
  rw [placeOf, infinitePlace]
  omega

/-- Mantissas of 53 bits are compared only when the exponents are the same. -/
theorem compare_placeOf (h₁ : Rounded m₁ e₁) (h₂ : Rounded m₂ e₂) :
    (compare e₁ e₂).then (compare m₁ m₂) = compare (placeOf m₁ e₁) (placeOf m₂ e₂) := by
  obtain ⟨hlow₁, hm₁, hfull₁⟩ := h₁
  obtain ⟨hlow₂, hm₂, hfull₂⟩ := h₂
  rw [placeOf, placeOf]
  rcases lt_trichotomy e₁ e₂ with hlt | rfl | hgt
  · rw [compare_lt_iff_lt.mpr hlt]
    exact (compare_lt_iff_lt.mpr (by omega)).symm
  · rw [compare_eq_iff_eq.mpr rfl]
    rcases lt_trichotomy m₁ m₂ with hlt | rfl | hgt
    · exact (compare_lt_iff_lt.mpr hlt).trans (compare_lt_iff_lt.mpr (by omega)).symm
    · exact (compare_eq_iff_eq.mpr rfl).trans (compare_eq_iff_eq.mpr rfl).symm
    · exact (compare_gt_iff_gt.mpr hgt).trans (compare_gt_iff_gt.mpr (by omega)).symm
  · rw [compare_gt_iff_gt.mpr hgt]
    exact (compare_gt_iff_gt.mpr (by omega)).symm

end Places

theorem apply_bounds (s : Sign) {a b : Int} (ha : 0 < a) (hab : a < b) :
    -b < s.apply a ∧ s.apply a < b := by
  cases s with
  | negative =>
      show -b < -a ∧ -a < b
      omega
  | positive =>
      show -b < a ∧ a < b
      omega

theorem compare_neg_neg (a b : Int) : compare (-a) (-b) = (compare a b).swap := by
  rcases lt_trichotomy a b with hlt | rfl | hgt
  · rw [compare_lt_iff_lt.mpr hlt]
    show compare (-a) (-b) = .gt
    exact compare_gt_iff_gt.mpr (neg_lt_neg hlt)
  · rw [compare_eq_iff_eq.mpr rfl, compare_eq_iff_eq.mpr rfl]
    rfl
  · rw [compare_gt_iff_gt.mpr hgt]
    show compare (-a) (-b) = .lt
    exact compare_lt_iff_lt.mpr (neg_lt_neg hgt)

/-- Canonical floats are compared by their places. -/
theorem compare_eq {x y : UnpackedFloat} (hx : Canonical x) (hy : Canonical y) :
    x.compare y = (place? x).bind fun a => (place? y).map fun b => compare a b := by
  cases x with
  | notANumber => rfl
  | infinity s =>
      cases y with
      | notANumber => cases s <;> rfl
      | infinity t => cases s <;> cases t <;> rfl
      | zero t => cases s <;> rfl
      | finite t m e p =>
          obtain ⟨hlow, hhigh⟩ := apply_bounds t (placeOf_pos p hy.1) (placeOf_lt hy.1 hy.2)
          cases s with
          | positive => exact congrArg some (compare_gt_iff_gt.mpr hhigh).symm
          | negative => exact congrArg some (compare_lt_iff_lt.mpr hlow).symm
  | zero s =>
      cases y with
      | notANumber => rfl
      | infinity t => cases t <;> rfl
      | zero t => rfl
      | finite t m e p =>
          have hpos := placeOf_pos p hy.1
          cases t with
          | positive => exact congrArg some (compare_lt_iff_lt.mpr hpos).symm
          | negative => exact congrArg some (compare_gt_iff_gt.mpr (neg_neg_of_pos hpos)).symm
  | finite s m e p =>
      have hpos := placeOf_pos p hx.1
      obtain ⟨hlow, hhigh⟩ := apply_bounds s hpos (placeOf_lt hx.1 hx.2)
      cases y with
      | notANumber => cases s <;> rfl
      | infinity t =>
          cases t with
          | positive => cases s <;> exact congrArg some (compare_lt_iff_lt.mpr hhigh).symm
          | negative => cases s <;> exact congrArg some (compare_gt_iff_gt.mpr hlow).symm
      | zero t =>
          cases s with
          | positive => exact congrArg some (compare_gt_iff_gt.mpr hpos).symm
          | negative => exact congrArg some (compare_lt_iff_lt.mpr (neg_neg_of_pos hpos)).symm
      | finite t m' e' p' =>
          have hplace := compare_placeOf hx.1 hy.1
          have hpos' := placeOf_pos p' hy.1
          have hapart := (neg_neg_of_pos hpos).trans hpos'
          have hapart' := (neg_neg_of_pos hpos').trans hpos
          cases s with
          | positive =>
              cases t with
              | positive => exact congrArg some hplace
              | negative => exact congrArg some (compare_gt_iff_gt.mpr hapart').symm
          | negative =>
              cases t with
              | positive => exact congrArg some (compare_lt_iff_lt.mpr hapart).symm
              | negative =>
                  refine congrArg some ((congrArg Ordering.swap hplace).trans ?_)
                  exact (compare_neg_neg _ _).symm

/-! ## The order of floats -/

/-- The place of a packed float. -/
def rank? (x : Float) : Option Int := place? x.toModel.unpack

theorem compare_eq_rank (x y : Float) :
    x.toModel.unpack.compare y.toModel.unpack
      = (rank? x).bind fun a => (rank? y).map fun b => compare a b :=
  compare_eq (unpack_canonical _) (unpack_canonical _)

theorem le_iff_rank {x y : Float} :
    x ≤ y ↔ ∃ a b, rank? x = some a ∧ rank? y = some b ∧ a ≤ b := by
  have hle : x ≤ y ↔ (x.toModel.unpack.compare y.toModel.unpack).any (·.isLE) = true :=
    decide_eq_true_iff
  rw [hle, compare_eq_rank]
  cases rank? x with
  | none => simp
  | some a =>
      cases rank? y with
      | none => simp
      | some b => simp [Ordering.isLE_iff_ne_gt, compare_le_iff_le]

theorem lt_iff_rank {x y : Float} :
    x < y ↔ ∃ a b, rank? x = some a ∧ rank? y = some b ∧ a < b := by
  have hlt : x < y ↔ (x.toModel.unpack.compare y.toModel.unpack == some .lt) = true :=
    decide_eq_true_iff
  rw [hlt, compare_eq_rank]
  cases rank? x with
  | none => simp
  | some a =>
      cases rank? y with
      | none => simp
      | some b => simp [compare_lt_iff_lt]

/-- A float is finite when its place is between those of the infinities. -/
theorem isFinite_iff_rank {x : Float} :
    x.isFinite = true ↔ ∃ a, rank? x = some a ∧ -infinitePlace < a ∧ a < infinitePlace := by
  have hcanonical : Canonical x.toModel.unpack := unpack_canonical _
  show x.toModel.unpack.isFinite = true ↔ ∃ a, place? x.toModel.unpack = some a ∧ _
  cases hu : x.toModel.unpack with
  | notANumber => simp [UnpackedFloat.isFinite, place?]
  | infinity s =>
      have hpos := infinitePlace_pos
      cases s <;> simp [UnpackedFloat.isFinite, place?, Sign.apply]
  | zero s => simp [UnpackedFloat.isFinite, place?, infinitePlace_pos]
  | finite s m e p =>
      rw [hu] at hcanonical
      have hbounds := apply_bounds s (placeOf_pos p hcanonical.1)
        (placeOf_lt hcanonical.1 hcanonical.2)
      simp [UnpackedFloat.isFinite, place?, hbounds]

/-- The numbers among the floats are linearly ordered. -/
instance instOrderedScalarFloat : OrderedScalar Float where
  le_trans := by
    intro x y z hxy hyz
    obtain ⟨a, b, ha, hb, hab⟩ := le_iff_rank.mp hxy
    obtain ⟨b', c, hb', hc, hbc⟩ := le_iff_rank.mp hyz
    obtain rfl : b = b' := Option.some.inj (hb.symm.trans hb')
    exact le_iff_rank.mpr ⟨a, c, ha, hc, hab.trans hbc⟩
  le_total := by
    intro x y hx hy
    obtain ⟨a, _, ha, _, _⟩ := le_iff_rank.mp hx
    obtain ⟨b, _, hb, _, _⟩ := le_iff_rank.mp hy
    rcases Int.le_total a b with h | h
    · exact Or.inl (le_iff_rank.mpr ⟨a, b, ha, hb, h⟩)
    · exact Or.inr (le_iff_rank.mpr ⟨b, a, hb, ha, h⟩)
  le_self := by
    intro x y h
    obtain ⟨a, b, ha, hb, _⟩ := le_iff_rank.mp h
    exact ⟨le_iff_rank.mpr ⟨a, a, ha, ha, le_refl a⟩, le_iff_rank.mpr ⟨b, b, hb, hb, le_refl b⟩⟩
  lt_iff := by
    intro x y
    constructor
    · intro h
      obtain ⟨a, b, ha, hb, hab⟩ := lt_iff_rank.mp h
      refine ⟨le_iff_rank.mpr ⟨a, b, ha, hb, hab.le⟩, ?_⟩
      intro hyx
      obtain ⟨b', a', hb', ha', hba⟩ := le_iff_rank.mp hyx
      obtain rfl : a = a' := Option.some.inj (ha.symm.trans ha')
      obtain rfl : b = b' := Option.some.inj (hb.symm.trans hb')
      exact absurd hab hba.not_gt
    · rintro ⟨hxy, hyx⟩
      obtain ⟨a, b, ha, hb, _⟩ := le_iff_rank.mp hxy
      refine lt_iff_rank.mpr ⟨a, b, ha, hb, ?_⟩
      by_contra hnot
      exact hyx (le_iff_rank.mpr ⟨b, a, hb, ha, not_lt.mp hnot⟩)
  le_self_of_isFinite := by
    intro x h
    obtain ⟨a, ha, _⟩ := isFinite_iff_rank.mp h
    exact le_iff_rank.mpr ⟨a, a, ha, ha, le_refl a⟩
  isFinite_of_le := by
    intro x y h0 hxy hy
    obtain ⟨z, a, hz, ha, hza⟩ := le_iff_rank.mp h0
    obtain ⟨a', b, ha', hb, hab⟩ := le_iff_rank.mp hxy
    obtain ⟨b', hb', _, hlt⟩ := isFinite_iff_rank.mp hy
    obtain rfl : (0 : Int) = z := Option.some.inj hz
    obtain rfl : a = a' := Option.some.inj (ha.symm.trans ha')
    obtain rfl : b = b' := Option.some.inj (hb.symm.trans hb')
    have hpos := infinitePlace_pos
    exact isFinite_iff_rank.mpr ⟨a, ha, by omega, by omega⟩
  isFinite_zero := rfl

end ReservoirWells.Binary64
