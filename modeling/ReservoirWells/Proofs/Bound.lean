import ReservoirWells.Bound
import ReservoirWells.Proofs.Binary64.Rounding

/-! # Combinations — whether a sum of checked numbers would be checked again

    Checked numbers may be added without another check where adding never leads below zero: sums of
    floats may be rounded or become infinite, but they are neither negative nor "not a number".  Words
    of fixed width are different.  A sum of words that looks at its range is not formed at all when
    it does not fit; one that does not look wraps, and is negative exactly when the exact sum ends in
    the upper half of the range of words.

    * `Combination` — checked numbers, zero and one, added two by two or list by list; what it holds
      when sums wrap (`value`) and when they are looked at (`sum?`);
    * `Combination.fold_rel`, `Combination.fold_keeps` — whatever holds of the numbers and is kept by
      adding holds of their combinations;
    * `Combination.accepted_of_rounded` — rounded scalars, floats among them;
    * `Combination.toInt_value`, `Combination.toInt_sum?` — words hold the exact sum, wrapped once,
      and the sum that is looked at is formed exactly when the exact one is a word;
    * `Combination.accepted_iff_exact` — which combinations stay checked. -/

namespace ReservoirWells

/-- How a checked number comes about. -/
inductive Combination (α : Type) [Amount α]
  /-- A number that was accepted. -/
  | checked (b : Nonneg α)
  | zero
  | one
  | add (first second : Combination α)
  /-- The sum of a list, from left to right. -/
  | sum (parts : List (Combination α))

namespace Combination

variable {α β γ : Type}

section Folds

variable [Amount α]

mutual

/-- What becomes of a combination when its numbers are read and added in some way. -/
def fold (read : Nonneg α → β) (plus : β → β → β) : Combination α → β
  | checked b => read b
  | zero => read .zero
  | one => read .one
  | add first second => plus (first.fold read plus) (second.fold read plus)
  | sum parts => foldFrom read plus (read .zero) parts

/-- The same for a list that is added to a start. -/
def foldFrom (read : Nonneg α → β) (plus : β → β → β) (start : β) : List (Combination α) → β
  | [] => start
  | part :: rest => foldFrom read plus (plus start (part.fold read plus)) rest

end

variable {read : Nonneg α → β} {read' : Nonneg α → γ} {plus : β → β → β} {plus' : γ → γ → γ}
  {R : β → γ → Prop}

mutual

/-- Two ways to read and add that agree on numbers and on adding agree on combinations. -/
theorem fold_rel (hread : ∀ b, R (read b) (read' b))
    (hplus : ∀ {x x' y y'}, R x x' → R y y' → R (plus x y) (plus' x' y')) :
    ∀ c : Combination α, R (c.fold read plus) (c.fold read' plus')
  | checked b => hread b
  | zero => hread .zero
  | one => hread .one
  | add first second => hplus (fold_rel hread hplus first) (fold_rel hread hplus second)
  | sum parts => foldFrom_rel hread hplus parts (hread .zero)

theorem foldFrom_rel (hread : ∀ b, R (read b) (read' b))
    (hplus : ∀ {x x' y y'}, R x x' → R y y' → R (plus x y) (plus' x' y')) :
    ∀ (parts : List (Combination α)) {start : β} {start' : γ}, R start start' →
      R (foldFrom read plus start parts) (foldFrom read' plus' start' parts)
  | [], _, _, hstart => hstart
  | part :: rest, _, _, hstart =>
    foldFrom_rel hread hplus rest (hplus hstart (fold_rel hread hplus part))

end

/-- What holds of the numbers and is kept by adding holds of every combination. -/
theorem fold_keeps {P : β → Prop} (hread : ∀ b, P (read b))
    (hplus : ∀ {x y}, P x → P y → P (plus x y)) (c : Combination α) : P (c.fold read plus) :=
  @fold_rel _ _ _ _ read read plus plus (fun x _ => P x) hread hplus c

/-- The number that a combination holds. -/
def value (c : Combination α) : α := c.fold Nonneg.val (· + ·)

/-- The number would be accepted if it were checked again. -/
def Accepted (c : Combination α) : Prop := ∃ b, Nonneg.check c.value = .ok b ∧ b.val = c.value

theorem accepted_iff (c : Combination α) : c.Accepted ↔ 0 ≤ c.value := by
  rw [Accepted, Nonneg.check]
  constructor
  · rintro ⟨b, _, hb⟩
    exact hb ▸ b.nonneg
  · intro h
    exact ⟨⟨c.value, h⟩, dif_pos h, rfl⟩

variable [RangedAdd α]

/-- The checked number that a combination comes to when each of its sums is looked at; there is none
    when one of them is out of range or below zero. -/
def sum? (c : Combination α) : Option (Nonneg α) :=
  c.fold some fun first second => first.bind fun x => second.bind fun y => x.add? y

theorem foldFrom_checked (xs : List (Nonneg α)) (start : Option (Nonneg α)) :
    foldFrom some (fun first second => first.bind fun x => second.bind fun y => x.add? y) start
        (xs.map checked)
      = start.bind fun start => xs.foldlM Nonneg.add? start := by
  induction xs generalizing start with
  | nil => exact (Option.bind_fun_some start).symm
  | cons x rest ih =>
    refine (ih _).trans ?_
    cases start <;> rfl

/-- The sum of a list of checked numbers is a combination of them. -/
theorem sum?_checked (xs : List (Nonneg α)) : (sum (xs.map checked)).sum? = Nonneg.total? xs :=
  foldFrom_checked xs (some .zero)

/-- A checked sum is within the range, and then it is the plain sum. -/
theorem add?_val {x y sum : Nonneg α} (h : x.add? y = some sum) : sum.val = x.val + y.val := by
  obtain ⟨plain, hplain, hsum⟩ := Option.bind_eq_some_iff.mp h
  split at hsum
  · exact Option.some.inj hsum ▸ RangedAdd.eq_add hplain
  · cases hsum

/-- Where every sum can be formed, the checked number is what the combination holds. -/
theorem val_of_sum? (c : Combination α) {b : Nonneg α} (h : c.sum? = some b) : b.val = c.value := by
  refine fold_rel (R := fun (checked : Option (Nonneg α)) (plain : α) =>
    ∀ b, checked = some b → b.val = plain) ?_ ?_ c b h
  · rintro b _ ⟨⟩
    rfl
  · intro first x second y hx hy b hb
    obtain ⟨first, hfirst, hb⟩ := Option.bind_eq_some_iff.mp hb
    obtain ⟨second, hsecond, hb⟩ := Option.bind_eq_some_iff.mp hb
    rw [add?_val hb, hx first hfirst, hy second hsecond]

end Folds

/-! ## Rounded scalars -/

/-- Rounding does not lead below zero, so every combination is accepted. -/
theorem accepted_of_rounded [Scalar α] [RoundedScalar α] (c : Combination α) : c.Accepted := by
  rw [accepted_iff]
  exact c.fold_keeps (fun b => b.nonneg) Scalar.add_nonneg

/-- Sums of floats are never out of range, so each of them can be formed. -/
theorem exists_sum?_float (c : Combination Float) : ∃ b, c.sum? = some b := by
  refine c.fold_keeps (P := fun (checked : Option (Nonneg Float)) => ∃ b, checked = some b) ?_ ?_
  · exact fun b => ⟨b, rfl⟩
  · rintro _ _ ⟨x, rfl⟩ ⟨y, rfl⟩
    exact ⟨⟨x.val + y.val, Scalar.add_nonneg x.nonneg y.nonneg⟩,
      dif_pos (Scalar.add_nonneg x.nonneg y.nonneg)⟩

/-! ## Words -/

/-- The sum of the same numbers, when nothing wraps. -/
def exact (c : Combination Int64) : Int := c.fold (fun b => b.val.toInt) (· + ·)

theorem zero_le_toInt {w : Int64} (h : 0 ≤ w) : 0 ≤ w.toInt := by
  simpa using Int64.le_iff_toInt_le.mp h

theorem exact_nonneg (c : Combination Int64) : 0 ≤ c.exact :=
  c.fold_keeps (fun b => zero_le_toInt b.nonneg) Int.add_nonneg

/-- What a combination holds is the exact sum, wrapped once: it does not matter that each step
    wraps. -/
theorem toInt_value (c : Combination Int64) : c.value.toInt = c.exact.bmod (2 ^ 64) := by
  refine fold_rel (R := fun (x : Int64) (n : Int) => x.toInt = n.bmod (2 ^ 64)) ?_ ?_ c
  · intro b
    exact (Int64.toInt_bmod b.val).symm
  · intro x n y m hx hy
    rw [Int64.toInt_add, hx, hy, Int.bmod_add_bmod, Int.add_bmod_bmod]

/-- A wrapped number is not negative when it ends in the lower half of the range. -/
theorem bmod_nonneg_iff (n : Int) : 0 ≤ n.bmod (2 ^ 64) ↔ n % 2 ^ 64 < 2 ^ 63 := by
  rw [Int.bmod_def]
  split <;> omega

/-- The sum of two accepted words can be formed when the exact sum is a word. -/
theorem toInt_add? (x y : Nonneg Int64) :
    (x.add? y).map (·.val.toInt)
      = if x.val.toInt + y.val.toInt < 2 ^ 63 then some (x.val.toInt + y.val.toInt) else none := by
  have hx := zero_le_toInt x.nonneg
  have hy := zero_le_toInt y.nonneg
  by_cases hsmall : x.val.toInt + y.val.toInt < 2 ^ 63
  · have hplain : (x.val + y.val).toInt = x.val.toInt + y.val.toInt := by
      rw [Int64.toInt_add, Int.bmod_eq_of_le (by omega) (by omega)]
    have hnonneg : 0 ≤ x.val + y.val := by
      rw [Int64.le_iff_toInt_le, Int64.toInt_zero, hplain]
      exact Int.add_nonneg hx hy
    have hadd : x.add? y = some ⟨x.val + y.val, hnonneg⟩ := by
      rw [Nonneg.add?, show RangedAdd.add? x.val y.val = some (x.val + y.val) from if_pos hplain]
      exact dif_pos hnonneg
    rw [hadd, if_pos hsmall, ← hplain]
    rfl
  · have hplain : (x.val + y.val).toInt ≠ x.val.toInt + y.val.toInt := by
      have := Int64.toInt_lt (x.val + y.val)
      omega
    rw [Nonneg.add?, show RangedAdd.add? x.val y.val = none from if_neg hplain, if_neg hsmall]
    rfl

/-- Every sum of a combination of words can be formed exactly when the exact sum is a word: the
    numbers are not negative, so no later sum comes back into the range. -/
theorem toInt_sum? (c : Combination Int64) :
    c.sum?.map (·.val.toInt) = if c.exact < 2 ^ 63 then some c.exact else none := by
  refine (fold_rel (R := fun (checked : Option (Nonneg Int64)) (n : Int) =>
    0 ≤ n ∧ checked.map (·.val.toInt) = if n < 2 ^ 63 then some n else none) ?_ ?_ c).2
  · intro b
    exact ⟨zero_le_toInt b.nonneg, (if_pos (Int64.toInt_lt b.val)).symm⟩
  · rintro first n second m ⟨hn, hfirst⟩ ⟨hm, hsecond⟩
    refine ⟨Int.add_nonneg hn hm, ?_⟩
    cases first with
    | none =>
      have hlarge : 2 ^ 63 ≤ n := by simpa using hfirst
      rw [if_neg (by omega)]
      rfl
    | some x =>
      cases second with
      | none =>
        have hlarge : 2 ^ 63 ≤ m := by simpa using hsecond
        rw [if_neg (by omega)]
        rfl
      | some y =>
        obtain ⟨-, rfl⟩ : n < 2 ^ 63 ∧ n = x.val.toInt := by simpa using hfirst.symm
        obtain ⟨-, rfl⟩ : m < 2 ^ 63 ∧ m = y.val.toInt := by simpa using hsecond.symm
        exact toInt_add? x y

/-- Checked floats stay checked in every combination, whether it is rounded or infinite.  Checked
    words do as long as their exact sum is a word, which the combination then holds; beyond that
    a sum that looks at its range is not formed, and one that wraps stays checked exactly when it
    wraps to the lower half of the range. -/
theorem accepted_iff_exact (floats : Combination Float) (words : Combination Int64) :
    (floats.Accepted ∧ ∃ b, floats.sum? = some b ∧ b.val = floats.value) ∧
      (words.Accepted ↔ words.exact % 2 ^ 64 < 2 ^ 63) ∧
      (words.exact < 2 ^ 63 → words.Accepted ∧ words.value.toInt = words.exact) ∧
      words.sum?.map (·.val.toInt) = if words.exact < 2 ^ 63 then some words.exact else none := by
  obtain ⟨b, hb⟩ := exists_sum?_float floats
  have hiff : words.Accepted ↔ words.exact % 2 ^ 64 < 2 ^ 63 := by
    rw [accepted_iff, Int64.le_iff_toInt_le, Int64.toInt_zero, toInt_value, bmod_nonneg_iff]
  refine ⟨⟨accepted_of_rounded floats, b, hb, val_of_sum? floats hb⟩, hiff,
    fun hsmall => ⟨hiff.mpr ?_, ?_⟩, toInt_sum? words⟩
  · rw [Int.emod_eq_of_lt words.exact_nonneg (by omega)]
    exact hsmall
  · have hnonneg := words.exact_nonneg
    rw [toInt_value, Int.bmod_eq_of_le (by omega) (by omega)]

/-- The largest word and one are both accepted. Their sum is out of range, and the word that it wraps
    to is refused. -/
theorem not_forall_accepted :
    Nonneg.total? [⟨9223372036854775807, by decide⟩, Nonneg.one (α := Int64)] = none ∧
      Nonneg.check (add (checked ⟨9223372036854775807, by decide⟩) one : Combination Int64).value
        = .error .negative ∧
      ¬ ∀ c : Combination Int64, c.Accepted := by
  refine ⟨by decide, (dif_neg (by decide)).trans (if_pos (by decide)), fun h => ?_⟩
  have haccepted := (accepted_iff _).mp (h (add (checked ⟨9223372036854775807, by decide⟩) one))
  exact absurd haccepted (by decide)

end Combination

end ReservoirWells
