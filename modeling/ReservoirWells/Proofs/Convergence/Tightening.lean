import ReservoirWells.Proofs.Convergence.Listing

/-! # Tightening — a check that is held more strictly never finds less

    Two checks of one well may differ in the residuals, in the tolerances and in whether these are
    relaxed.  Every equation goes through its own chain of thresholds, and all chains are monotone:
    larger residuals and smaller tolerances can only make an equation fail worse.  What is not
    monotone is multiplication: an infinite formation volume factor makes a residual of zero into
    something that is not a number, and any larger residual into an infinite one, which is milder.

    * `Report.about` — what a report says of one equation;
    * `SegmentedWell.severityOf_le` — one chain of thresholds is monotone in all that it compares;
    * `SegmentedWell.checkConvergence_tightened` — no equation fails worse in the less strict check. -/

namespace ReservoirWells

variable {α : Type} [Scalar α]

/-! ## What two reports say of an equation -/

namespace Severity

theorem rank_le (s : Severity) : s.rank ≤ 3 := by cases s <;> decide

theorem rank_worse_le {s t : Severity} {n : Nat} :
    (s.worse t).rank ≤ n ↔ s.rank ≤ n ∧ t.rank ≤ n := by
  rw [worse]
  by_cases h : s.rank < t.rank
  · rw [if_pos h]
    omega
  · rw [if_neg h]
    omega

/-- The chain behind every verdict on a number is monotone in what is found too large and in what is
    found above its tolerance. -/
theorem rank_chain_le : ∀ {large large' above above' : Bool}, (large = true → large' = true) →
    (above = true → above' = true) →
    rank (if large then .tooLarge else if above then .normal else .none)
      ≤ rank (if large' then .tooLarge else if above' then .normal else .none) := by decide

theorem rank_eq_zero {s : Severity} : s.rank = 0 ↔ s = .none := by cases s <;> decide

end Severity

namespace Report

/-- The failures of one equation. -/
def about (r : Report) (equation : Equation) (component : Option Nat) : Report :=
  ⟨r.failures.filter fun f => f.equation == equation && f.component == component⟩

theorem rank_worst_le {r : Report} {n : Nat} :
    r.worst.rank ≤ n ↔ ∀ f ∈ r.failures, f.severity.rank ≤ n := by
  have hfold : ∀ (l : List Failure) (start : Severity),
      (l.foldl (fun s f => s.worse f.severity) start).rank ≤ n ↔
        start.rank ≤ n ∧ ∀ f ∈ l, f.severity.rank ≤ n := by
    intro l
    induction l with
    | nil => simp
    | cons f rest ih =>
        intro start
        rw [List.foldl_cons, ih, Severity.rank_worse_le, List.forall_mem_cons, and_assoc]
  exact (hfold r.failures .none).trans (and_iff_right n.zero_le)

theorem mem_ofJudged {judged : List Failure} {f : Failure} :
    f ∈ (ofJudged judged).failures ↔ f ∈ judged ∧ f.severity ≠ .none := by
  rw [ofJudged, List.mem_filter, Bool.not_eq_true', beq_eq_false_iff_ne]

theorem converged_ofJudged {judged : List Failure} :
    (ofJudged judged).converged = true ↔ ∀ f ∈ judged, f.severity = .none := by
  rw [converged_iff, List.eq_nil_iff_forall_not_mem]
  simp only [mem_ofJudged, not_and, not_not]

/-- Whatever was judged the first time is judged at least as badly the second time. -/
def NoWorse (judged judged' : List Failure) : Prop :=
  ∀ f ∈ judged, ∃ f' ∈ judged', f'.equation = f.equation ∧ f'.component = f.component ∧
    f.severity.rank ≤ f'.severity.rank

namespace NoWorse

variable {judged judged' : List Failure}

theorem rank_worst_about_le (h : NoWorse judged judged') (equation : Equation)
    (component : Option Nat) :
    ((ofJudged judged).about equation component).worst.rank
      ≤ ((ofJudged judged').about equation component).worst.rank := by
  rw [rank_worst_le]
  intro f hf
  obtain ⟨hmem, hkey⟩ := List.mem_filter.mp hf
  obtain ⟨hjudged, hfailed⟩ := mem_ofJudged.mp hmem
  obtain ⟨f', hjudged', hequation, hcomponent, hle⟩ := h f hjudged
  refine hle.trans (rank_worst_le.mp (Nat.le_refl _) f' (List.mem_filter.mpr ⟨?_, ?_⟩))
  · -- what has failed the first time has failed the second time
    refine mem_ofJudged.mpr ⟨hjudged', fun hnone => hfailed ?_⟩
    exact Severity.rank_eq_zero.mp (Nat.le_zero.mp (hle.trans (Severity.rank_eq_zero.mpr hnone).le))
  · rwa [hequation, hcomponent]

theorem converged (h : NoWorse judged judged') (hconverged : (ofJudged judged').converged = true) :
    (ofJudged judged).converged = true := by
  rw [converged_ofJudged] at hconverged ⊢
  intro f hf
  obtain ⟨f', hf', _, _, hle⟩ := h f hf
  rw [hconverged f' hf'] at hle
  exact Severity.rank_eq_zero.mp (Nat.le_zero.mp hle)

end NoWorse

end Report

/-! ## One chain of thresholds -/

/-- At most as large as a scalar that is a number. -/
def Scalar.Below (x y : α) : Prop := y ≤ y → x ≤ y

/-- The largest of a list is at most as large as that of another list with a larger member for each
    of its members. -/
theorem Scalar.largest_below [OrderedScalar α] {l l' : List α}
    (h : ∀ x ∈ l, ∃ y ∈ l', Below x y) : Below (largest l) (largest l') := by
  intro hnumber
  obtain ⟨hzero, hle⟩ := le_largest hnumber
  refine (largest_le hzero).mpr fun x hx => ?_
  obtain ⟨y, hy, hxy⟩ := h x hx
  have hy := hle y hy
  exact OrderedScalar.le_trans (hxy (OrderedScalar.le_self hy).1) hy

/-- Each of the tolerances is at most as large as before. -/
structure Tolerances.Tightens (t' t : Tolerances α) : Prop where
  largest : t'.largest ≤ t.largest
  flow : t'.flow ≤ t.flow
  relaxedFlow : t'.relaxedFlow ≤ t.relaxedFlow
  pressure : t'.pressure ≤ t.pressure
  relaxedPressure : t'.relaxedPressure ≤ t.relaxedPressure

namespace SegmentedWell

section Thresholds

variable [OrderedScalar α]

/-- A residual that is larger, or no number, fails at least as badly under smaller tolerances. -/
theorem severityOf_le {residual residual' tolerance tolerance' relaxed relaxed' : α}
    {tooLarge tooLarge' relax relax' : Bool} (hresidual : Scalar.Below residual residual')
    (hlarge : residual ≤ residual' → tooLarge = true → tooLarge' = true)
    (hrelax : relax' = true → relax = true) (htolerance : tolerance' ≤ tolerance)
    (hrelaxed : relaxed' ≤ relaxed) :
    (severityOf residual tooLarge relax tolerance relaxed).rank
      ≤ (severityOf residual' tooLarge' relax' tolerance' relaxed').rank := by
  by_cases hnumber' : residual' ≤ residual'
  · have hle := hresidual hnumber'
    have hnumber := (OrderedScalar.le_self hle).1
    have habove : ∀ {x x' : α}, x' ≤ x → x < residual → x' < residual' := by
      intro x x' hx hlt
      exact OrderedScalar.lt_of_lt_of_le (OrderedScalar.lt_of_le_of_lt hx hlt) hle
    have hnormal : ((!relax && decide (tolerance < residual)) || decide (relaxed < residual)) = true →
        ((!relax' && decide (tolerance' < residual')) || decide (relaxed' < residual')) = true := by
      rw [Bool.or_eq_true, Bool.and_eq_true, Bool.or_eq_true, Bool.and_eq_true, decide_eq_true_eq,
        decide_eq_true_eq, decide_eq_true_eq, decide_eq_true_eq, Bool.not_eq_true',
        Bool.not_eq_true']
      rintro (⟨hstrict, hlt⟩ | hlt)
      · refine Or.inl ⟨Bool.eq_false_of_not_eq_true fun h => ?_, habove htolerance hlt⟩
        exact Bool.false_ne_true (hstrict.symm.trans (hrelax h))
      · exact Or.inr (habove hrelaxed hlt)
    rw [severityOf, severityOf, Scalar.isNumber_iff.mpr hnumber, Scalar.isNumber_iff.mpr hnumber']
    exact Severity.rank_chain_le (hlarge hle) hnormal
  · have hnot : Scalar.isNumber residual' = false :=
      Bool.eq_false_of_not_eq_true fun h => hnumber' (Scalar.isNumber_iff.mp h)
    rw [severityOf.eq_def residual', hnot]
    exact Severity.rank_le _

end Thresholds

/-! ## Two checks -/

/-- The residuals that a check finds, by place. -/
def found (w : SegmentedWell α) (factors : List α) (place : Nat) : α :=
  match factors[place]? with
  | some factor => w.massResidual place factor
  | none => if place = w.layout.pressureSlot then w.pressureResidual else w.controlResidual

theorem found_eq (w : SegmentedWell α) {factors : List α}
    (hfactors : factors.length = w.layout.components) :
    w.found factors w.layout.pressureSlot = w.pressureResidual ∧
      w.found factors w.layout.size = w.controlResidual := by
  have hle := hfactors.le.trans (components_le w.layout)
  have hsize : w.layout.size = w.layout.pressureSlot + 1 := rfl
  rw [found, found, List.getElem?_eq_none hle, List.getElem?_eq_none (by omega)]
  exact ⟨if_pos rfl, if_neg (by omega)⟩

/-- What a check reports, from the residuals that it finds by place. -/
theorem checkConvergence_found (w : SegmentedWell α) (s : WellRecord α) {factors : List α}
    (hfactors : factors.length = w.layout.components) (t : Tolerances α) (relax : Bool) :
    w.checkConvergence s factors t relax = (w.controlInForce s).map fun control =>
      .ofJudged (w.judge control t relax (w.found factors)) := by
  obtain ⟨hpressure, hcontrol⟩ := w.found_eq hfactors
  refine w.checkConvergence_eq s hfactors t relax ?_ hpressure hcontrol
  intro eq factor hfactor
  rw [found, hfactor]

/-- The residuals of a second check are at least as large, and where an infinite factor weighs a
    residual that is not zero, that of the first check is not zero either. -/
structure Worsened (w : SegmentedWell α) (factors : List α) (other : BlockSystem α) : Prop where
  residual : ∀ seg < w.tree.size, ∀ eq < w.layout.size,
    Scalar.abs (w.system.residual seg eq) ≤ Scalar.abs (other.residual seg eq)
  notZero : ∀ seg < w.tree.size, ∀ eq factor, factors[eq]? = some factor →
    Scalar.isFinite factor = false → Scalar.isZero (Scalar.abs (other.residual seg eq)) = false →
    Scalar.isZero (Scalar.abs (w.system.residual seg eq)) = false

section Checks

variable [MonotoneScalar α] {w : SegmentedWell α} {factors : List α} {other : BlockSystem α}

/-- Magnitudes keep their order when they are weighted, as long as no zero meets an infinite factor. -/
theorem weighted_below {factor x y : α} (hfactor : 0 ≤ factor) (hle : Scalar.abs x ≤ Scalar.abs y)
    (hzero : Scalar.isFinite factor = false → Scalar.isZero (Scalar.abs y) = false →
      Scalar.isZero (Scalar.abs x) = false) :
    Scalar.Below (factor * Scalar.abs x) (factor * Scalar.abs y) := by
  intro hnumber
  obtain ⟨hnumbers, hfinite, hnotZero⟩ := MonotoneScalar.number_mul_iff.mp hnumber
  have hx := (OrderedScalar.le_self hle).1
  refine MonotoneScalar.mul_le_mul hfactor hle (MonotoneScalar.number_mul_iff.mpr ?_) hnumber
  refine ⟨⟨hnumbers.1, hx⟩, ?_, ?_⟩
  · rcases hfinite with hfinite | hy
    · exact Or.inl hfinite
    · cases hinfinite : Scalar.isFinite factor with
      | true => exact Or.inl rfl
      | false => exact Or.inr (hzero hinfinite hy)
  · rcases hnotZero with hy | hfactor
    · exact Or.inl (OrderedScalar.isFinite_of_le (Scalar.abs_nonneg hx) hle hy)
    · exact Or.inr hfactor

/-- Each residual that the second check finds is at least as large, or no number. -/
theorem found_below (hfactors : factors.length = w.layout.components)
    (hnonneg : ∀ b ∈ factors, 0 ≤ b) (h : w.Worsened factors other) {place : Nat}
    (hplace : place ≤ w.layout.size) :
    Scalar.Below (w.found factors place) (found { w with system := other } factors place) := by
  have hslot : w.layout.pressureSlot < w.layout.size := Nat.lt_succ_self _
  rw [found, found]
  cases hfactor : factors[place]? with
  | some factor =>
      obtain ⟨hlt, hget⟩ := List.getElem?_eq_some_iff.mp hfactor
      have hcomponents := components_le w.layout
      show Scalar.Below (w.massResidual place factor) (massResidual _ place factor)
      rw [massResidual_eq, massResidual_eq]
      refine Scalar.largest_below fun r hr => ?_
      obtain ⟨seg, hseg, rfl⟩ := List.mem_map.mp hr
      refine ⟨_, List.mem_map.mpr ⟨seg, hseg, rfl⟩, ?_⟩
      have hseg := List.mem_range.mp hseg
      exact weighted_below (hnonneg factor (hget ▸ List.getElem_mem hlt))
        (h.residual seg hseg place (by omega)) (h.notZero seg hseg place factor hfactor)
  | none =>
      show Scalar.Below (if place = w.layout.pressureSlot then _ else _)
        (if place = w.layout.pressureSlot then _ else _)
      by_cases hpressure : place = w.layout.pressureSlot
      · rw [if_pos hpressure, if_pos hpressure, pressureResidual_eq, pressureResidual_eq]
        refine Scalar.largest_below fun r hr => ?_
        obtain ⟨seg, hseg, rfl⟩ := List.mem_map.mp hr
        refine ⟨_, List.mem_map.mpr ⟨seg, hseg, rfl⟩, fun _ => ?_⟩
        have hseg := List.mem_range'_1.mp hseg
        exact h.residual seg (by omega) _ hslot
      · rw [if_neg hpressure, if_neg hpressure]
        intro _
        exact h.residual 0 (Nat.succ_pos _) _ hslot

/-- Ten times the largest residual allowed is smaller when that is. -/
theorem ten_mul_le {x x' : α} (h : x' ≤ x) : 10.0 * x' ≤ 10.0 * x := by
  have hten := OrderedScalar.le_self_of_isFinite (RoundedScalar.isFinite_ten (α := α))
  have hzero : (0 : α) ≤ 10.0 := OrderedScalar.le_trans Amount.zero_le_one RoundedScalar.one_le_ten
  have hpos : Scalar.isZero (10.0 : α) = false := by
    refine Bool.eq_false_of_not_eq_true fun hzero => ?_
    have hone := OrderedScalar.le_trans RoundedScalar.one_le_ten (Scalar.isZero_iff_le.mp hzero).1
    exact OrderedScalar.not_lt_of_le hone RoundedScalar.zero_lt_one
  have hnumber : ∀ {y : α}, y ≤ y → 10.0 * y ≤ 10.0 * y := by
    intro y hy
    exact MonotoneScalar.number_mul_iff.mpr
      ⟨⟨hten, hy⟩, Or.inl RoundedScalar.isFinite_ten, Or.inr hpos⟩
  obtain ⟨hx', hx⟩ := OrderedScalar.le_self h
  exact MonotoneScalar.mul_le_mul hzero h (hnumber hx') (hnumber hx)

/-- What is judged by larger residuals and smaller tolerances is judged no milder. -/
theorem judge_noWorse {residual residual' : Nat → α} {t t' : Tolerances α} {relax relax' : Bool}
    (hresidual : ∀ place ≤ w.layout.size, Scalar.Below (residual place) (residual' place))
    (hnonneg : residual w.layout.pressureSlot ≤ residual w.layout.pressureSlot →
      0 ≤ residual w.layout.pressureSlot)
    (ht : t'.Tightens t) (hrelax : relax' = true → relax = true) (control : Equation) :
    Report.NoWorse (w.judge control t relax residual) (w.judge control t' relax' residual') := by
  have hcomponents := components_le w.layout
  have hsize : w.layout.size = w.layout.pressureSlot + 1 := rfl
  intro f hf
  rcases List.mem_append.mp hf with hf | hf
  · obtain ⟨eq, heq, rfl⟩ := List.mem_map.mp hf
    refine ⟨_, List.mem_append_left _ (List.mem_map.mpr ⟨eq, heq, rfl⟩), rfl, rfl, ?_⟩
    have hle : eq ≤ w.layout.size := by
      have := List.mem_range.mp heq
      omega
    refine severityOf_le (hresidual eq hle) ?_ hrelax ht.flow ht.relaxedFlow
    intro hbelow hlarge
    have hlt := OrderedScalar.lt_of_le_of_lt ht.largest (of_decide_eq_true hlarge)
    exact decide_eq_true (OrderedScalar.lt_of_lt_of_le hlt hbelow)
  · rcases List.mem_cons.mp hf with rfl | hf
    · refine ⟨_, List.mem_append_right _ (List.mem_cons_self ..), rfl, rfl, ?_⟩
      refine severityOf_le (hresidual _ (by omega)) ?_ hrelax ht.pressure ht.relaxedPressure
      intro hbelow hinfinite
      rw [Bool.not_eq_true'] at hinfinite ⊢
      refine Bool.eq_false_of_not_eq_true fun hfinite => ?_
      have hnumber := (OrderedScalar.le_self hbelow).1
      rw [OrderedScalar.isFinite_of_le (hnonneg hnumber) hbelow hfinite] at hinfinite
      cases hinfinite
    · rw [List.mem_singleton.mp hf]
      refine ⟨_, List.mem_append_right _ (List.mem_cons_of_mem _ (List.mem_singleton.mpr rfl)), rfl,
        rfl, ?_⟩
      have htolerance : (if control == .controlRate then t'.flow else t'.pressure)
          ≤ if control == .controlRate then t.flow else t.pressure := by
        cases control == .controlRate
        · exact ht.pressure
        · exact ht.flow
      refine severityOf_le (hresidual _ (Nat.le_refl _)) ?_ id htolerance htolerance
      intro hbelow hlarge
      have hlt := OrderedScalar.lt_of_le_of_lt (ten_mul_le ht.largest) (of_decide_eq_true hlarge)
      exact decide_eq_true (OrderedScalar.lt_of_lt_of_le hlt hbelow)

end Checks

/-- A check with larger residuals, smaller tolerances or without relaxed ones finds every equation at
    least as bad, and a well that has converged in it has converged in the other check as well. -/
theorem checkConvergence_tightened [MonotoneScalar α] (w : SegmentedWell α) (s : WellRecord α)
    {factors : List α} {other : BlockSystem α} {t t' : Tolerances α} {relax relax' : Bool}
    {report report' : Report} (hnonneg : ∀ b ∈ factors, 0 ≤ b) (hworse : w.Worsened factors other)
    (ht : t'.Tightens t) (hrelax : relax' = true → relax = true)
    (h : w.checkConvergence s factors t relax = .ok report)
    (h' : ({ w with system := other } : SegmentedWell α).checkConvergence s factors t' relax'
      = .ok report') :
    (∀ equation component, (report.about equation component).worst.rank
        ≤ (report'.about equation component).worst.rank) ∧
      (report'.converged = true → report.converged = true) := by
  have hfactors : factors.length = w.layout.components := by
    rw [checkConvergence] at h
    obtain ⟨_, hok, _⟩ := bind_eq_ok.mp h
    exact checkFactors_eq_ok.mp hok
  rw [checkConvergence_found _ _ hfactors] at h
  rw [checkConvergence_found _ _ (by exact hfactors)] at h'
  cases hcontrol : w.controlInForce s with
  | error e =>
      rw [hcontrol] at h
      cases h
  | ok control =>
      have hcontrol' : ({ w with system := other } : SegmentedWell α).controlInForce s
          = .ok control := hcontrol
      rw [hcontrol] at h
      rw [hcontrol'] at h'
      obtain rfl := Except.ok.inj h
      obtain rfl := Except.ok.inj h'
      have hpressure : w.found factors w.layout.pressureSlot ≤ w.found factors w.layout.pressureSlot →
          0 ≤ w.found factors w.layout.pressureSlot := by
        rw [(w.found_eq hfactors).1, pressureResidual_eq]
        intro hnumber
        exact (Scalar.le_largest hnumber).1
      have hjudged : Report.NoWorse (w.judge control t relax (w.found factors))
          (w.judge control t' relax' (found { w with system := other } factors)) :=
        judge_noWorse (fun place hplace => found_below hfactors hnonneg hworse hplace) hpressure ht
          hrelax control
      exact ⟨hjudged.rank_worst_about_le, hjudged.converged⟩

/-- Ten times the residuals under the usual tolerances, compared with the residuals under the relaxed
    ones: a mass balance and the pressure equation fail in addition, the control equation stays. -/
theorem checkConvergence_tightened_twoSegments :
    ∃ report report', (twoSegments #[0, 1e-3, 5, 1, 0, -2e3]).checkConvergence (.producer 2 .orat)
          [2, 1] .default true = .ok report ∧
      (twoSegments #[0, 1e-2, 50, 10, 0, -2e4]).checkConvergence (.producer 2 .orat)
          [2, 1] .default false = .ok report' ∧
      report.failures.length = 2 ∧ report'.failures.length = 4 ∧
      ∀ equation component, (report.about equation component).worst.rank
        ≤ (report'.about equation component).worst.rank := by
  have hcheck : (twoSegments #[0, 1e-3, 5, 1, 0, -2e3]).checkConvergence (.producer 2 .orat) [2, 1]
      .default true = .ok ⟨[⟨.massBalance, .normal, some 0, "P1"⟩,
        ⟨.controlRate, .normal, none, "P1"⟩]⟩ := by decide +kernel
  have hcheck' : (twoSegments #[0, 1e-2, 50, 10, 0, -2e4]).checkConvergence (.producer 2 .orat) [2, 1]
      .default false = .ok ⟨[⟨.massBalance, .normal, some 0, "P1"⟩,
        ⟨.massBalance, .normal, some 1, "P1"⟩, ⟨.pressure, .normal, none, "P1"⟩,
        ⟨.controlRate, .normal, none, "P1"⟩]⟩ := by decide +kernel
  have hworse : (twoSegments #[0, 1e-3, 5, 1, 0, -2e3]).Worsened [2, 1]
      (twoSegments #[0, 1e-2, 50, 10, 0, -2e4]).system := by
    refine ⟨by decide +kernel, ?_⟩
    intro seg _ eq factor hfactor hinfinite
    have hfinite : ∀ b ∈ [(2 : Float), 1], Scalar.isFinite b = true := by decide +kernel
    rw [hfinite factor (List.mem_of_getElem? hfactor)] at hinfinite
    cases hinfinite
  have htolerances : (Tolerances.default : Tolerances Float).Tightens .default := by
    constructor <;> decide +kernel
  obtain ⟨hle, _⟩ := checkConvergence_tightened (twoSegments #[0, 1e-3, 5, 1, 0, -2e3])
    (.producer 2 .orat) (by decide +kernel) hworse htolerances (by decide) hcheck hcheck'
  exact ⟨_, _, hcheck, hcheck', rfl, rfl, hle⟩

/-- An infinite factor weighs residuals of zero worse than any others, so the larger residuals may be
    judged milder. -/
theorem not_forall_tightened :
    ¬∀ (w : SegmentedWell Float) (s : WellRecord Float) (factors : List Float)
      (other : BlockSystem Float) (t t' : Tolerances Float) (relax relax' : Bool)
      (report report' : Report), (∀ b ∈ factors, 0 ≤ b) →
      (∀ seg < w.tree.size, ∀ eq < w.layout.size,
        Scalar.isFinite (w.system.residual seg eq) = true ∧
          Scalar.isFinite (other.residual seg eq) = true) →
      (∀ seg < w.tree.size, ∀ eq < w.layout.size,
        Scalar.abs (w.system.residual seg eq) ≤ Scalar.abs (other.residual seg eq)) →
      t'.Tightens t → (relax' = true → relax = true) →
      w.checkConvergence s factors t relax = .ok report →
      ({ w with system := other } : SegmentedWell Float).checkConvergence s factors t' relax'
        = .ok report' →
      ∀ equation component, (report.about equation component).worst.rank
        ≤ (report'.about equation component).worst.rank := by
  intro h
  have hcheck : (twoSegments #[0, 0, 0, 0, 0, 0]).checkConvergence (.producer 2 .orat) [1 / 0, 1]
      .default false = .ok ⟨[⟨.massBalance, .notANumber, some 0, "P1"⟩]⟩ := by decide +kernel
  have hcheck' : (twoSegments #[1, 0, 0, 1, 0, 0]).checkConvergence (.producer 2 .orat) [1 / 0, 1]
      .default false = .ok ⟨[⟨.massBalance, .tooLarge, some 0, "P1"⟩]⟩ := by decide +kernel
  have hle := h (twoSegments #[0, 0, 0, 0, 0, 0]) (.producer 2 .orat) [1 / 0, 1]
    (twoSegments #[1, 0, 0, 1, 0, 0]).system .default .default false false _ _ (by decide +kernel)
    (by decide +kernel) (by decide +kernel) (by constructor <;> decide +kernel) id hcheck hcheck'
    .massBalance (some 0)
  exact absurd hle (by decide)

end SegmentedWell

end ReservoirWells
