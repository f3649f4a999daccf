import ReservoirWells.Proofs.Exact

/-! # Ordered scalars — comparisons when some scalars are no numbers

    Floats are not linearly ordered: "not a number" is not even at most itself.  What is left of a
    linear order is `OrderedScalar`, and it is enough to say what the largest of a list means.
    `RoundedScalar` adds what is left of the arithmetic when results are rounded, `MonotoneScalar` that
    products keep the order.  Exact scalars are all three, so what is proved over these classes holds
    with rounding and without.

    * `Scalar.largest_le` — the largest of a list is within a bound exactly when every member is,
      and `Scalar.isNumber_largest` — no member that is not a number is masked by a later one;
    * `Scalar.foldl_max_eq_largest` — among numbers both maxima are the same;
    * `Scalar.le_total` — a sum of what is not below zero is at least as large as every part. -/

namespace ReservoirWells

/-- Scalars whose numbers are linearly ordered; other scalars are comparable with nothing. -/
class OrderedScalar (α : Type) [Scalar α] : Prop where
  /-- Comparison is transitive. -/
  le_trans : ∀ {x y z : α}, x ≤ y → y ≤ z → x ≤ z
  /-- Any two numbers can be compared. -/
  le_total : ∀ {x y : α}, x ≤ x → y ≤ y → x ≤ y ∨ y ≤ x
  /-- Only numbers can be compared. -/
  le_self : ∀ {x y : α}, x ≤ y → x ≤ x ∧ y ≤ y
  /-- Strict comparison is comparison one way only. -/
  lt_iff : ∀ {x y : α}, x < y ↔ x ≤ y ∧ ¬y ≤ x
  /-- What is finite is a number. -/
  le_self_of_isFinite : ∀ {x : α}, Scalar.isFinite x = true → x ≤ x
  /-- What lies between zero and something finite is finite. -/
  isFinite_of_le : ∀ {x y : α}, 0 ≤ x → x ≤ y → Scalar.isFinite y = true → Scalar.isFinite x = true
  /-- Zero is finite. -/
  isFinite_zero : Scalar.isFinite (0 : α) = true

/-- Scalars whose operations are rounded, but never past a scalar: adding what is not below zero, or
    multiplying by what is not below one, makes nothing smaller. -/
class RoundedScalar (α : Type) [Scalar α] : Prop extends OrderedScalar α where
  /-- The order of factors does not matter. -/
  mul_comm : ∀ x y : α, x * y = y * x
  /-- The order of summands does not matter. -/
  add_comm : ∀ x y : α, x + y = y + x
  /-- Nothing and nothing make nothing. -/
  zero_add_zero : (0 : α) + 0 = 0
  /-- A sum is at least as large as its first part. -/
  le_add : ∀ {x y : α}, 0 ≤ x → 0 ≤ y → x ≤ x + y
  /-- A multiple is at least as large. -/
  le_mul : ∀ {x y : α}, 0 ≤ x → 1 ≤ y → Scalar.isFinite y = true → x ≤ y * x
  /-- What is larger is at least once as large. -/
  one_le_div : ∀ {x y : α}, 0 < x → x < y → 1 ≤ y / x
  /-- The negative of what is below zero is not. -/
  neg_nonneg : ∀ {x : α}, x < 0 → 0 ≤ -x
  /-- One is above zero. -/
  zero_lt_one : (0 : α) < 1
  /-- The literal ten is at least one. -/
  one_le_ten : (1 : α) ≤ 10.0
  /-- The literal ten is finite. -/
  isFinite_ten : Scalar.isFinite (10.0 : α) = true

/-- Scalars whose products are ordered like their factors, as far as they are numbers. -/
class MonotoneScalar (α : Type) [Scalar α] : Prop extends RoundedScalar α where
  /-- A product is a number when its factors are, unless one is infinite and the other zero. -/
  number_mul_iff : ∀ {x y : α}, x * y ≤ x * y ↔ (x ≤ x ∧ y ≤ y) ∧
    (Scalar.isFinite x = true ∨ Scalar.isZero y = false) ∧
      (Scalar.isFinite y = true ∨ Scalar.isZero x = false)
  /-- Multiplying what is not below zero does not lead below zero. -/
  mul_nonneg : ∀ {x y : α}, 0 ≤ x → 0 ≤ y → x * y ≤ x * y → 0 ≤ x * y
  /-- Multiplying by what is not below zero keeps the order. -/
  mul_le_mul : ∀ {x y z : α}, 0 ≤ z → x ≤ y → z * x ≤ z * x → z * y ≤ z * y → z * x ≤ z * y

/-- Exact scalars are linearly ordered, and nothing is rounded. -/
instance instRoundedScalarOfExact {α : Type} [ExactScalar α] : RoundedScalar α where
  le_trans := le_trans
  le_total := fun {x y} _ _ => le_total x y
  le_self := fun {x y} _ => ⟨le_refl x, le_refl y⟩
  lt_iff := lt_iff_le_not_ge
  le_self_of_isFinite := fun {x} _ => le_refl x
  isFinite_of_le := fun {x} _ _ _ _ => ExactScalar.isFinite_eq_true x
  isFinite_zero := ExactScalar.isFinite_eq_true 0
  mul_comm := mul_comm
  add_comm := add_comm
  zero_add_zero := add_zero 0
  le_add := fun _ hy => le_add_of_nonneg_right hy
  le_mul := fun hx hy _ => le_mul_of_one_le_left hx hy
  one_le_div := fun hx hxy => (one_le_div hx).mpr hxy.le
  neg_nonneg := fun hx => (neg_pos.mpr hx).le
  zero_lt_one := zero_lt_one
  one_le_ten := by
    rw [ExactScalar.ofScientific_eq, if_pos rfl, pow_one]
    exact (one_le_div Nat.ofNat_pos).mpr (Nat.cast_le.mpr (by decide : 10 ≤ 100))
  isFinite_ten := ExactScalar.isFinite_eq_true _

/-- Exact products are ordered like their factors. -/
instance instMonotoneScalarOfExact {α : Type} [ExactScalar α] : MonotoneScalar α where
  toRoundedScalar := instRoundedScalarOfExact
  number_mul_iff := by
    intro x y
    exact iff_of_true (le_refl _) ⟨⟨le_refl x, le_refl y⟩,
      Or.inl (ExactScalar.isFinite_eq_true x), Or.inl (ExactScalar.isFinite_eq_true y)⟩
  mul_nonneg := fun hx hy _ => mul_nonneg hx hy
  mul_le_mul := fun hz hxy _ _ => mul_le_mul_of_nonneg_left hxy hz

namespace OrderedScalar

variable {α : Type} [Scalar α] [OrderedScalar α] {x y z : α}

theorem not_lt_of_le (h : x ≤ y) : ¬y < x := by
  intro hlt
  exact (lt_iff.mp hlt).2 h

theorem le_of_not_lt (hx : x ≤ x) (hy : y ≤ y) (h : ¬y < x) : x ≤ y := by
  rcases le_total hx hy with hle | hle
  · exact hle
  · by_contra hnot
    exact h (lt_iff.mpr ⟨hle, hnot⟩)

theorem lt_of_lt_of_le (hxy : x < y) (hyz : y ≤ z) : x < z := by
  obtain ⟨hle, hnot⟩ := lt_iff.mp hxy
  refine lt_iff.mpr ⟨le_trans hle hyz, ?_⟩
  intro hzx
  exact hnot (le_trans hyz hzx)

theorem lt_of_le_of_lt (hxy : x ≤ y) (hyz : y < z) : x < z := by
  obtain ⟨hle, hnot⟩ := lt_iff.mp hyz
  refine lt_iff.mpr ⟨le_trans hxy hle, ?_⟩
  intro hzx
  exact hnot (le_trans hzx hxy)

end OrderedScalar

namespace Scalar

variable {α : Type} [Scalar α]

theorem isNumber_iff {x : α} : isNumber x = true ↔ x ≤ x := decide_eq_true_iff

theorem isZero_iff_le {x : α} : isZero x = true ↔ x ≤ 0 ∧ 0 ≤ x := by
  show (decide (x ≤ 0) && decide (0 ≤ x)) = true ↔ _
  rw [Bool.and_eq_true, decide_eq_true_eq, decide_eq_true_eq]

/-! ## Maxima -/

/-- The strict maximum is the maximum of two numbers, or a side that is no number. -/
theorem strictMax_cases (x y : α) :
    (x ≤ x ∧ y ≤ y ∧ strictMax x y = max x y) ∨ (¬x ≤ x ∧ strictMax x y = x) ∨
      (¬y ≤ y ∧ strictMax x y = y) := by
  rw [strictMax]
  by_cases hx : isNumber x = true
  · rw [if_pos hx]
    by_cases hy : isNumber y = true
    · rw [if_pos hy]
      exact Or.inl ⟨isNumber_iff.mp hx, isNumber_iff.mp hy, rfl⟩
    · rw [if_neg hy]
      exact Or.inr (Or.inr ⟨fun h => hy (isNumber_iff.mpr h), rfl⟩)
  · rw [if_neg hx]
    exact Or.inr (Or.inl ⟨fun h => hx (isNumber_iff.mpr h), rfl⟩)

section Maxima

variable [OrderedScalar α]

/-- The larger of two numbers is one of them and not below the other. -/
theorem max_cases {x y : α} (hx : x ≤ x) (hy : y ≤ y) :
    (max x y = x ∧ y ≤ x) ∨ (max x y = y ∧ x ≤ y) := by
  rw [max, if_pos (isNumber_iff.mpr hx)]
  by_cases hlt : x < y
  · rw [if_pos hlt]
    exact Or.inr ⟨rfl, (OrderedScalar.lt_iff.mp hlt).1⟩
  · rw [if_neg hlt]
    exact Or.inl ⟨rfl, OrderedScalar.le_of_not_lt hy hx hlt⟩

theorem strictMax_le {x y z : α} : strictMax x y ≤ z ↔ x ≤ z ∧ y ≤ z := by
  rcases strictMax_cases x y with ⟨hx, hy, heq⟩ | ⟨hx, heq⟩ | ⟨hy, heq⟩
  · rw [heq]
    rcases max_cases hx hy with ⟨hmax, hle⟩ | ⟨hmax, hle⟩
    · rw [hmax]
      constructor
      · intro h
        exact ⟨h, OrderedScalar.le_trans hle h⟩
      · rintro ⟨h, _⟩
        exact h
    · rw [hmax]
      constructor
      · intro h
        exact ⟨OrderedScalar.le_trans hle h, h⟩
      · rintro ⟨_, h⟩
        exact h
  · rw [heq]
    constructor
    · intro h
      exact absurd (OrderedScalar.le_self h).1 hx
    · rintro ⟨h, _⟩
      exact h
  · rw [heq]
    constructor
    · intro h
      exact absurd (OrderedScalar.le_self h).1 hy
    · rintro ⟨_, h⟩
      exact h

theorem strictMax_eq_or (x y : α) : strictMax x y = x ∨ strictMax x y = y := by
  rcases strictMax_cases x y with ⟨hx, hy, heq⟩ | ⟨_, heq⟩ | ⟨_, heq⟩
  · rw [heq]
    rcases max_cases hx hy with ⟨hmax, _⟩ | ⟨hmax, _⟩
    · exact Or.inl hmax
    · exact Or.inr hmax
  · exact Or.inl heq
  · exact Or.inr heq

theorem foldl_strictMax_le (l : List α) (x z : α) :
    l.foldl strictMax x ≤ z ↔ x ≤ z ∧ ∀ y ∈ l, y ≤ z := by
  induction l generalizing x with
  | nil =>
      constructor
      · intro h
        exact ⟨h, fun y hy => by cases hy⟩
      · rintro ⟨h, _⟩
        exact h
  | cons y rest ih => rw [List.foldl_cons, ih, strictMax_le, List.forall_mem_cons, and_assoc]

theorem foldl_strictMax_mem (l : List α) (x : α) :
    l.foldl strictMax x = x ∨ l.foldl strictMax x ∈ l := by
  induction l generalizing x with
  | nil => exact Or.inl rfl
  | cons y rest ih =>
      rw [List.foldl_cons]
      rcases ih (strictMax x y) with hstart | hmem
      · rcases strictMax_eq_or x y with hx | hy
        · exact Or.inl (hstart.trans hx)
        · exact Or.inr (List.mem_cons.mpr (Or.inl (hstart.trans hy)))
      · exact Or.inr (List.mem_cons_of_mem y hmem)

/-- The largest member of a list, or zero; a member that is no number is the result. -/
def largest (l : List α) : α := l.foldl strictMax 0

/-- The largest member is within a bound exactly when every member is. -/
theorem largest_le {l : List α} {z : α} (hz : 0 ≤ z) : largest l ≤ z ↔ ∀ x ∈ l, x ≤ z := by
  rw [largest, foldl_strictMax_le]
  exact and_iff_right hz

theorem largest_mem (l : List α) : largest l = 0 ∨ largest l ∈ l := foldl_strictMax_mem l 0

theorem le_largest {l : List α} (h : largest l ≤ largest l) :
    0 ≤ largest l ∧ ∀ x ∈ l, x ≤ largest l :=
  (foldl_strictMax_le l 0 (largest l)).mp h

/-- No member that is not a number is masked by another one. -/
theorem isNumber_largest (l : List α) :
    isNumber (largest l) = true ↔ ∀ x ∈ l, isNumber x = true := by
  rw [isNumber_iff]
  constructor
  · intro h x hx
    exact isNumber_iff.mpr (OrderedScalar.le_self ((le_largest h).2 x hx)).1
  · intro h
    rcases largest_mem l with hzero | hmem
    · rw [hzero]
      exact Amount.zero_le_zero
    · exact isNumber_iff.mp (h _ hmem)

/-- What holds of everything above some member holds of the largest one exactly when it holds of one
    of them. -/
theorem any_largest {l : List α} {p : α → Bool} (hnumber : ∀ x ∈ l, isNumber x = true)
    (hzero : p 0 = false) (hmono : ∀ x ∈ l, ∀ y, x ≤ y → p x = true → p y = true) :
    p (largest l) = l.any p := by
  obtain ⟨_, hle⟩ := le_largest (isNumber_iff.mp ((isNumber_largest l).mpr hnumber))
  rw [Bool.eq_iff_iff, List.any_eq_true]
  constructor
  · intro h
    rcases largest_mem l with hstart | hmem
    · rw [hstart, hzero] at h
      cases h
    · exact ⟨_, hmem, h⟩
  · rintro ⟨x, hx, h⟩
    exact hmono x hx _ (hle x hx) h

/-- Among numbers both maxima are the same. -/
theorem foldl_max_eq_largest {l : List α} (hl : ∀ x ∈ l, x ≤ x) : l.foldl max 0 = largest l := by
  have hfold : ∀ (l : List α) (x : α), x ≤ x → (∀ y ∈ l, y ≤ y) →
      l.foldl max x = l.foldl strictMax x := by
    intro l
    induction l with
    | nil =>
        intro x _ _
        rfl
    | cons y rest ih =>
        intro x hx hl
        have hy := hl y (List.mem_cons_self ..)
        have hmax : strictMax x y = max x y := by
          rw [strictMax, if_pos (isNumber_iff.mpr hx), if_pos (isNumber_iff.mpr hy)]
        have hself : max x y ≤ max x y := by
          rcases max_cases hx hy with ⟨heq, _⟩ | ⟨heq, _⟩
          · rw [heq]
            exact hx
          · rw [heq]
            exact hy
        rw [List.foldl_cons, List.foldl_cons, hmax]
        exact ih _ hself fun z hz => hl z (List.mem_cons_of_mem y hz)
  exact hfold l 0 Amount.zero_le_zero hl

end Maxima

@[simp] theorem abs_zero [OrderedScalar α] : abs (0 : α) = 0 :=
  if_neg (OrderedScalar.not_lt_of_le Amount.zero_le_zero)

/-! ## Rounded arithmetic -/

section Rounded

variable [RoundedScalar α]

/-- A list of zeros adds up to zero. -/
theorem total_of_zeros {l : List α} (h : ∀ x ∈ l, x = 0) : total l = 0 := by
  induction l with
  | nil => rfl
  | cons x rest ih =>
      obtain rfl : x = 0 := h x (List.mem_cons_self ..)
      rw [total, List.foldl_cons, RoundedScalar.zero_add_zero]
      exact ih fun y hy => h y (List.mem_cons_of_mem 0 hy)

theorem le_add_left {x y : α} (hx : 0 ≤ x) (hy : 0 ≤ y) : y ≤ x + y := by
  rw [RoundedScalar.add_comm]
  exact RoundedScalar.le_add hy hx

theorem add_nonneg {x y : α} (hx : 0 ≤ x) (hy : 0 ≤ y) : 0 ≤ x + y :=
  OrderedScalar.le_trans hx (RoundedScalar.le_add hx hy)

theorem abs_nonneg {x : α} (h : abs x ≤ abs x) : 0 ≤ abs x := by
  rw [abs] at *
  by_cases hlt : x < 0
  · rw [if_pos hlt]
    exact RoundedScalar.neg_nonneg hlt
  · rw [if_neg hlt] at *
    exact OrderedScalar.le_of_not_lt Amount.zero_le_zero h hlt

/-- A sum of parts that are not below zero is at least as large as each of them. -/
theorem le_total (l : List α) (hl : ∀ x ∈ l, 0 ≤ x) : 0 ≤ total l ∧ ∀ x ∈ l, x ≤ total l := by
  have hfold : ∀ (l : List α) (sum : α), 0 ≤ sum → (∀ x ∈ l, 0 ≤ x) →
      sum ≤ l.foldl (· + ·) sum ∧ ∀ x ∈ l, x ≤ l.foldl (· + ·) sum := by
    intro l
    induction l with
    | nil =>
        intro sum hsum _
        exact ⟨(OrderedScalar.le_self hsum).2, fun x hx => by cases hx⟩
    | cons y rest ih =>
        intro sum hsum hl
        have hy := hl y (List.mem_cons_self ..)
        obtain ⟨hstart, hrest⟩ := ih (sum + y) (add_nonneg hsum hy)
          fun x hx => hl x (List.mem_cons_of_mem y hx)
        refine ⟨OrderedScalar.le_trans (RoundedScalar.le_add hsum hy) hstart, ?_⟩
        intro x hx
        rcases List.mem_cons.mp hx with rfl | hx
        · exact OrderedScalar.le_trans (le_add_left hsum hy) hstart
        · exact hrest x hx
  exact hfold l 0 Amount.zero_le_zero hl

end Rounded

end Scalar

end ReservoirWells
