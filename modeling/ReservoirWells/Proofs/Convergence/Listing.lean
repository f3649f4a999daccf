import ReservoirWells.Proofs.Convergence.Measure
import ReservoirWells.Proofs.Binary64.Products

/-! # Listing — one list of residuals that decides what a check reports

    The largest residuals are found twice: by one loop over segments and equations that stops at the
    first residual that is not finite, and by a check, equation by equation.  The list of the first
    is complete exactly when every residual is finite, and then a check reports what its thresholds
    say of the entries of that list and of nothing else.

    * `SegmentedWell.checkConvergence_eq` — what a check reports, from one residual per equation;
    * `SegmentedWell.finiteResiduals_eq_ok_iff`, `SegmentedWell.finiteResiduals_eq_error_iff` — when
      residuals are listed, and which residual is at fault otherwise;
    * `SegmentedWell.finiteResiduals_lists` — the list holds the maxima, and a check judges these. -/

namespace ReservoirWells

variable {α : Type} [Scalar α]

/-! ## Judging one residual per equation -/

namespace Tolerances

/-- How badly a mass balance has failed whose largest weighted residual this is. -/
def judgeMass (t : Tolerances α) (relax : Bool) (residual : α) : Severity :=
  SegmentedWell.severityOf residual (decide (t.largest < residual)) relax t.flow t.relaxedFlow

/-- How badly the pressure equations have failed whose largest residual this is. -/
def judgePressure (t : Tolerances α) (relax : Bool) (residual : α) : Severity :=
  SegmentedWell.severityOf residual (!Scalar.isFinite residual) relax t.pressure t.relaxedPressure

/-- How badly the control equation has failed. -/
def judgeControl (t : Tolerances α) (control : Equation) (residual : α) : Severity :=
  let tolerance := if control == .controlRate then t.flow else t.pressure
  SegmentedWell.severityOf residual (decide (10.0 * t.largest < residual)) true tolerance tolerance

end Tolerances

namespace Report

/-- The report of what has failed among some equations that were judged. -/
def ofJudged (judged : List Failure) : Report := ⟨judged.filter fun f => !(f.severity == .none)⟩

theorem ofJudged_append (l l' : List Failure) : ofJudged (l ++ l') = ofJudged l ++ ofJudged l' :=
  congrArg mk (List.filter_append l l')

theorem append_assoc (r r' r'' : Report) : r ++ r' ++ r'' = r ++ (r' ++ r'') :=
  congrArg mk (List.append_assoc ..)

/-- A report that is put together equation by equation. -/
theorem foldl_ofJudged {β : Type} (judged : β → Failure) (l : List β) (start : Report) :
    l.foldl (fun report b => report ++ ofJudged [judged b]) start
      = start ++ ofJudged (l.map judged) := by
  induction l generalizing start with
  | nil => exact congrArg mk (List.append_nil _).symm
  | cons b rest ih =>
      rw [List.foldl_cons, ih, append_assoc, ← ofJudged_append]
      rfl

end Report

namespace SegmentedWell

/-- All equations of a well with what the thresholds say of them. The residuals are given by place, as
    `finiteResiduals` lists them: mass balances, pressure equations, control equation. -/
def judge (w : SegmentedWell α) (control : Equation) (t : Tolerances α) (relax : Bool)
    (residual : Nat → α) : List Failure :=
  (List.range w.layout.components).map
      (fun eq => ⟨.massBalance, t.judgeMass relax (residual eq), some eq, w.name⟩)
    ++ [⟨.pressure, t.judgePressure relax (residual w.layout.pressureSlot), none, w.name⟩,
      ⟨control, t.judgeControl control (residual w.layout.size), none, w.name⟩]

omit [Scalar α] in
theorem reportOf_eq (w : SegmentedWell α) (equation : Equation) (component : Option Nat)
    (severity : Severity) :
    w.reportOf equation component severity
      = .ofJudged [⟨equation, severity, component, w.name⟩] := by
  cases severity <;> rfl

/-- What a check reports, from the residuals that it finds. -/
theorem checkConvergence_eq (w : SegmentedWell α) (s : WellRecord α) {factors : List α}
    (hfactors : factors.length = w.layout.components) (t : Tolerances α) (relax : Bool)
    {residual : Nat → α}
    (hmass : ∀ eq factor, factors[eq]? = some factor → residual eq = w.massResidual eq factor)
    (hpressure : residual w.layout.pressureSlot = w.pressureResidual)
    (hcontrol : residual w.layout.size = w.controlResidual) :
    w.checkConvergence s factors t relax
      = (w.controlInForce s).map fun control => .ofJudged (w.judge control t relax residual) := by
  have hmasses : (factors.zipIdx.map fun entry =>
        (⟨.massBalance, w.massSeverity t relax entry.2 entry.1, some entry.2, w.name⟩ : Failure))
      = (List.range w.layout.components).map fun eq =>
        ⟨.massBalance, t.judgeMass relax (residual eq), some eq, w.name⟩ := by
    apply List.ext_getElem
    · rw [List.length_map, List.length_map, List.length_zipIdx, List.length_range, hfactors]
    · intro eq heq _
      rw [List.length_map, List.length_zipIdx] at heq
      rw [List.getElem_map, List.getElem_map, List.getElem_zipIdx, List.getElem_range, Nat.zero_add,
        hmass eq _ (List.getElem?_eq_getElem heq)]
      rfl
  rw [checkConvergence, checkFactors_eq_ok.mpr hfactors]
  cases w.controlInForce s with
  | error e => rfl
  | ok control =>
      show Except.ok (factors.zipIdx.foldl (fun report entry => report
          ++ w.reportOf .massBalance (some entry.2) (w.massSeverity t relax entry.2 entry.1)) .empty
        ++ w.reportOf .pressure none (w.pressureSeverity t relax)
        ++ w.reportOf control none (w.controlSeverity t control)) = _
      simp only [reportOf_eq]
      rw [Report.foldl_ofJudged, hmasses, Report.append_assoc, Report.append_assoc,
        ← Report.ofJudged_append, ← Report.ofJudged_append]
      show _ = Except.ok (Report.ofJudged (w.judge control t relax residual))
      rw [judge, hpressure, hcontrol]
      rfl

/-! ## The first residual that is not finite -/

/-- Rows are visited segment by segment. -/
def Precedes (place place' : Nat × Nat) : Prop :=
  place.1 < place'.1 ∨ place.1 = place'.1 ∧ place.2 < place'.2

theorem Precedes.asymm {place place' : Nat × Nat} (h : Precedes place place') :
    ¬Precedes place' place := by
  rintro (h' | h')
  · rcases h with h | h <;> omega
  · rcases h with h | h <;> omega

/-- In a list in order, a search finds the first member that passes. -/
theorem find?_eq_some_iff_first {β : Type} {R : β → β → Prop} {l : List β} (hl : l.Pairwise R)
    (hasymm : ∀ {a b}, R a b → ¬R b a) {p : β → Bool} {b : β} :
    l.find? p = some b ↔ b ∈ l ∧ p b = true ∧ ∀ a ∈ l, R a b → p a = false := by
  constructor
  · intro h
    obtain ⟨hb, before, behind, rfl, hbefore⟩ := List.find?_eq_some_iff_append.mp h
    refine ⟨List.mem_append_right _ (List.mem_cons_self ..), hb, ?_⟩
    intro a ha hab
    rcases List.mem_append.mp ha with ha | ha
    · exact Bool.eq_false_of_not_eq_true' (hbefore a ha)
    · rcases List.mem_cons.mp ha with rfl | ha
      · exact absurd hab (hasymm hab)
      · have hba := (List.pairwise_cons.mp (List.pairwise_append.mp hl).2.1).1 a ha
        exact absurd hab (hasymm hba)
  · rintro ⟨hmem, hb, hfirst⟩
    cases hfind : l.find? p with
    | none => exact absurd hb (by simpa using List.find?_eq_none.mp hfind b hmem)
    | some c =>
        obtain ⟨hc, before, behind, rfl, hbefore⟩ := List.find?_eq_some_iff_append.mp hfind
        rcases List.mem_append.mp hmem with hmem | hmem
        · exact absurd hb (by simpa using hbefore b hmem)
        · rcases List.mem_cons.mp hmem with rfl | hmem
          · rfl
          · have hcb := (List.pairwise_cons.mp (List.pairwise_append.mp hl).2.1).1 b hmem
            exact absurd hc (by simp [hfirst c (by simp) hcb])

/-- The rows of a well in the order in which they are visited. -/
def rows (w : SegmentedWell α) : List (Nat × Nat) :=
  (List.range w.tree.size).flatMap fun seg => (List.range w.layout.size).map fun eq => (seg, eq)

omit [Scalar α] in
theorem mem_rows {w : SegmentedWell α} {seg eq : Nat} :
    (seg, eq) ∈ w.rows ↔ seg < w.tree.size ∧ eq < w.layout.size := by
  simp [rows]

omit [Scalar α] in
theorem pairwise_rows (w : SegmentedWell α) : w.rows.Pairwise Precedes := by
  rw [rows, List.pairwise_flatMap]
  constructor
  · intro seg _
    rw [List.pairwise_map]
    exact List.pairwise_lt_range.imp fun h => Or.inr ⟨rfl, h⟩
  · refine List.pairwise_lt_range.imp fun h => ?_
    intro place hplace place' hplace'
    obtain ⟨eq, _, rfl⟩ := List.mem_map.mp hplace
    obtain ⟨eq', _, rfl⟩ := List.mem_map.mp hplace'
    exact Or.inl h

/-- The row holds a mass balance or a pressure equation; the only other one is that of the control
    equation. -/
def Counts (w : SegmentedWell α) (seg eq : Nat) : Prop :=
  seg < w.tree.size ∧ eq < w.layout.size ∧ (seg, eq) ≠ (0, w.layout.pressureSlot)

/-- The magnitude of a residual, weighted in a mass balance. -/
def weightedResidual (w : SegmentedWell α) (factors : List α) (seg eq : Nat) : α :=
  match factors[eq]? with
  | some factor => factor * Scalar.abs (w.system.residual seg eq)
  | none => Scalar.abs (w.system.residual seg eq)

/-- Nothing is infinite or not a number. -/
structure AllFinite (w : SegmentedWell α) (factors : List α) : Prop where
  /-- Neither a mass balance nor a pressure equation. -/
  counted : ∀ seg eq, w.Counts seg eq →
    Scalar.isFinite (w.weightedResidual factors seg eq) = true
  /-- Nor the control equation. -/
  control : Scalar.isFinite (Scalar.abs (w.system.residual 0 w.layout.pressureSlot)) = true

/-- The first residual that is not finite, segment by segment; the control equation comes last and
    without a segment. -/
def FirstFault (w : SegmentedWell α) (factors : List α) : Option Nat → Nat → Prop
  | some seg, eq => w.Counts seg eq ∧ Scalar.isFinite (w.weightedResidual factors seg eq) = false ∧
      ∀ seg' eq', w.Counts seg' eq' → Precedes (seg', eq') (seg, eq) →
        Scalar.isFinite (w.weightedResidual factors seg' eq') = true
  | none, eq => eq = w.layout.pressureSlot ∧
      (∀ seg' eq', w.Counts seg' eq' →
        Scalar.isFinite (w.weightedResidual factors seg' eq') = true) ∧
      Scalar.isFinite (Scalar.abs (w.system.residual 0 w.layout.pressureSlot)) = false

section Faults

variable [RoundedScalar α] {w : SegmentedWell α} {factors : List α}

omit [Scalar α] [RoundedScalar α] in
/-- With an active phase every row but the pressure row is that of a component. -/
theorem components_eq {l : Layout} (h : 0 < l.components) : l.components = l.pressureSlot := by
  obtain ⟨water, oil, gas⟩ := l
  cases water <;> cases oil <;> cases gas <;> first | rfl | exact absurd h (by decide)

theorem countedResidual_eq (hphases : 0 < w.layout.components)
    (hfactors : factors.length = w.layout.components) {seg eq : Nat} (h : w.Counts seg eq) :
    w.countedResidual factors seg eq = w.weightedResidual factors seg eq := by
  obtain ⟨_, heq, hplace⟩ := h
  rw [countedResidual, weightedResidual]
  cases hfactor : factors[eq]? with
  | some factor => exact RoundedScalar.mul_comm _ _
  | none =>
      have hslot : eq = w.layout.pressureSlot := by
        have hle := List.getElem?_eq_none_iff.mp hfactor
        have hcomponents := components_eq hphases
        rw [Layout.size] at heq
        omega
      have hpos : 0 < seg := by
        refine Nat.pos_of_ne_zero ?_
        rintro rfl
        exact hplace (by rw [hslot])
      exact if_pos hpos

/-- The row of the control equation never stops the search. -/
theorem isFinite_countedResidual (hphases : 0 < w.layout.components)
    (hfactors : factors.length = w.layout.components) {seg eq : Nat} (hseg : seg < w.tree.size)
    (heq : eq < w.layout.size) :
    Scalar.isFinite (w.countedResidual factors seg eq) = false ↔
      w.Counts seg eq ∧ Scalar.isFinite (w.weightedResidual factors seg eq) = false := by
  by_cases hplace : (seg, eq) = (0, w.layout.pressureSlot)
  · have hnone : factors[eq]? = none := by
      rw [(Prod.mk.inj hplace).2]
      exact List.getElem?_eq_none (hfactors.trans (components_eq hphases)).le
    have hzero : w.countedResidual factors seg eq = 0 := by
      rw [countedResidual, hnone, (Prod.mk.inj hplace).1]
      rfl
    rw [hzero, OrderedScalar.isFinite_zero]
    exact iff_of_false Bool.true_eq_false_eq_False (fun h => h.1.2.2 hplace)
  · have hcounts : w.Counts seg eq := ⟨hseg, heq, hplace⟩
    rw [countedResidual_eq hphases hfactors hcounts]
    exact (and_iff_right hcounts).symm

theorem firstNotFinite_eq_some_iff (hphases : 0 < w.layout.components)
    (hfactors : factors.length = w.layout.components) {seg eq : Nat} :
    w.firstNotFinite factors = some (seg, eq) ↔ w.FirstFault factors (some seg) eq := by
  have hfault : ∀ place ∈ w.rows,
      (!Scalar.isFinite (w.countedResidual factors place.1 place.2)) = true ↔
        w.Counts place.1 place.2 ∧
          Scalar.isFinite (w.weightedResidual factors place.1 place.2) = false := by
    intro place hplace
    obtain ⟨hseg, heq⟩ := mem_rows.mp hplace
    rw [Bool.not_eq_true', isFinite_countedResidual hphases hfactors hseg heq]
  refine (find?_eq_some_iff_first w.pairwise_rows Precedes.asymm).trans ?_
  constructor
  · rintro ⟨hmem, hbad, hfirst⟩
    obtain ⟨hcounts, hnot⟩ := (hfault _ hmem).mp hbad
    refine ⟨hcounts, hnot, ?_⟩
    intro seg' eq' hcounts' hbefore
    by_contra hnot'
    have hrow : (seg', eq') ∈ w.rows := mem_rows.mpr ⟨hcounts'.1, hcounts'.2.1⟩
    have hbad' := (hfault _ hrow).mpr ⟨hcounts', Bool.eq_false_of_not_eq_true hnot'⟩
    exact Bool.false_ne_true ((hfirst _ hrow hbefore).symm.trans hbad')
  · rintro ⟨hcounts, hnot, hfirst⟩
    have hrow : (seg, eq) ∈ w.rows := mem_rows.mpr ⟨hcounts.1, hcounts.2.1⟩
    refine ⟨hrow, (hfault _ hrow).mpr ⟨hcounts, hnot⟩, ?_⟩
    intro place hplace hbefore
    refine Bool.eq_false_of_not_eq_true fun hbad => ?_
    obtain ⟨hcounts', hnot'⟩ := (hfault place hplace).mp hbad
    exact Bool.false_ne_true (hnot'.symm.trans (hfirst _ _ hcounts' hbefore))

theorem firstNotFinite_eq_none_iff (hphases : 0 < w.layout.components)
    (hfactors : factors.length = w.layout.components) :
    w.firstNotFinite factors = none ↔ ∀ seg eq, w.Counts seg eq →
      Scalar.isFinite (w.weightedResidual factors seg eq) = true := by
  refine List.find?_eq_none.trans ?_
  constructor
  · intro h seg eq hcounts
    have hfinite := h (seg, eq) (mem_rows.mpr ⟨hcounts.1, hcounts.2.1⟩)
    rw [← countedResidual_eq hphases hfactors hcounts]
    simpa using hfinite
  · rintro h ⟨seg, eq⟩ hplace hbad
    obtain ⟨hseg, heq⟩ := mem_rows.mp hplace
    rw [Bool.not_eq_true', isFinite_countedResidual hphases hfactors hseg heq] at hbad
    obtain ⟨hcounts, hnot⟩ := hbad
    exact Bool.false_ne_true (hnot.symm.trans (h seg eq hcounts))

end Faults

/-- Residuals are listed exactly when all of them are finite. -/
theorem finiteResiduals_eq_ok_iff [RoundedScalar α] {w : SegmentedWell α} {factors : List α}
    (hphases : 0 < w.layout.components) (hfactors : factors.length = w.layout.components) :
    (∃ v, w.finiteResiduals factors = .ok v) ↔ w.AllFinite factors := by
  have hnone := firstNotFinite_eq_none_iff hphases hfactors
  rw [finiteResiduals, checkFactors_eq_ok.mpr hfactors, ok_bind]
  cases hfirst : w.firstNotFinite factors with
  | some place =>
      constructor
      · rintro ⟨v, hv⟩
        cases hv
      · intro h
        rw [hnone.mpr h.counted] at hfirst
        cases hfirst
  | none =>
      cases hcontrol : Scalar.isFinite w.controlResidual with
      | false =>
          constructor
          · rintro ⟨v, hv⟩
            cases hv
          · intro h
            exact absurd (hcontrol.symm.trans h.control) Bool.false_ne_true
      | true => exact iff_of_true ⟨_, rfl⟩ ⟨hnone.mp hfirst, hcontrol⟩

/-- Otherwise the error names the first residual that is not finite. -/
theorem finiteResiduals_eq_error_iff [RoundedScalar α] {w : SegmentedWell α} {factors : List α}
    (hphases : 0 < w.layout.components) (hfactors : factors.length = w.layout.components)
    {e : WellError α} :
    w.finiteResiduals factors = .error e ↔
      ∃ seg? eq, w.FirstFault factors seg? eq ∧ e = .notFinite w.name seg? eq := by
  have hnone := firstNotFinite_eq_none_iff hphases hfactors
  rw [finiteResiduals, checkFactors_eq_ok.mpr hfactors, ok_bind]
  cases hfirst : w.firstNotFinite factors with
  | some place =>
      obtain ⟨seg, eq⟩ := place
      have hfault := (firstNotFinite_eq_some_iff hphases hfactors).mp hfirst
      constructor
      · intro h
        exact ⟨some seg, eq, hfault, (Except.error.inj h).symm⟩
      · rintro ⟨seg', eq', hfault', rfl⟩
        cases seg' with
        | none =>
            rw [hnone.mpr hfault'.2.1] at hfirst
            cases hfirst
        | some seg' =>
            have hsame := (firstNotFinite_eq_some_iff hphases hfactors).mpr hfault'
            cases hfirst.symm.trans hsame
            rfl
  | none =>
      have hfinite := hnone.mp hfirst
      have hsome : ∀ seg eq, ¬w.FirstFault factors (some seg) eq := by
        intro seg eq hfault
        exact Bool.false_ne_true (hfault.2.1.symm.trans (hfinite _ _ hfault.1))
      cases hcontrol : Scalar.isFinite w.controlResidual with
      | false =>
          constructor
          · intro h
            exact ⟨none, w.layout.pressureSlot, ⟨rfl, hfinite, hcontrol⟩, (Except.error.inj h).symm⟩
          · rintro ⟨seg?, eq, hfault, rfl⟩
            cases seg? with
            | none =>
                obtain ⟨rfl, _, _⟩ := hfault
                rfl
            | some seg => exact absurd hfault (hsome seg eq)
      | true =>
          refine iff_of_false (fun h => by cases h) ?_
          rintro ⟨seg?, eq, hfault, _⟩
          cases seg? with
          | none => exact Bool.false_ne_true (hfault.2.2.symm.trans hcontrol)
          | some seg => exact hsome seg eq hfault

/-! ## What is listed -/

end SegmentedWell

/-- The largest of some scalars; zero when there are none. -/
structure Scalar.IsMaximum (m : α) (l : List α) : Prop where
  /-- No member is larger. -/
  le : ∀ x ∈ l, x ≤ m
  /-- Some member is as large. -/
  attained : (∃ x ∈ l, m ≤ x) ∨ l = [] ∧ m = 0

theorem Scalar.isMaximum_largest [OrderedScalar α] {l : List α} (hl : ∀ x ∈ l, 0 ≤ x) :
    IsMaximum (largest l) l := by
  have hnumber : largest l ≤ largest l := by
    rw [← isNumber_iff, isNumber_largest]
    exact fun x hx => isNumber_iff.mpr (OrderedScalar.le_self (hl x hx)).2
  refine ⟨(le_largest hnumber).2, ?_⟩
  cases l with
  | nil => exact Or.inr ⟨rfl, rfl⟩
  | cons x rest =>
      refine Or.inl ?_
      rcases largest_mem (x :: rest) with hzero | hmem
      · exact ⟨x, List.mem_cons_self .., hzero ▸ hl x (List.mem_cons_self ..)⟩
      · exact ⟨_, hmem, hnumber⟩

namespace SegmentedWell

/-- The list holds the largest weighted residual of each mass balance, the largest residual of the
    pressure equations below the top, and the residual of the control equation. -/
structure Lists (w : SegmentedWell α) (factors v : List α) : Prop where
  length : v.length = w.layout.size + 1
  mass : ∀ eq factor, factors[eq]? = some factor →
    Scalar.IsMaximum (v.getD eq 0) (w.massResiduals eq factor)
  pressure : Scalar.IsMaximum (v.getD w.layout.pressureSlot 0) w.pressureResiduals
  control : v.getD w.layout.size 0 = Scalar.abs (w.system.residual 0 w.layout.pressureSlot)

section Listed

variable {w : SegmentedWell α} {factors v : List α}

/-- Entry by entry, what is listed is what a check finds. -/
theorem getD_of_finiteResiduals [RoundedScalar α] (hphases : 0 < w.layout.components)
    (hv : w.finiteResiduals factors = .ok v) :
    v.length = w.layout.size + 1 ∧
      (∀ eq factor, factors[eq]? = some factor → v.getD eq 0 = w.massResidual eq factor) ∧
      v.getD w.layout.pressureSlot 0 = w.pressureResidual ∧
      v.getD w.layout.size 0 = w.controlResidual := by
  obtain ⟨hfactors, _, _, rfl⟩ := finiteResiduals_cases hv
  have hcomponents := components_eq hphases
  have hsize : w.layout.size = w.layout.pressureSlot + 1 := rfl
  have hentry : ∀ eq < w.layout.size,
      ((List.range w.layout.size).map (fun eq => Scalar.largest (w.countedResiduals factors eq))
        ++ [w.controlResidual]).getD eq 0 = Scalar.largest (w.countedResiduals factors eq) := by
    intro eq heq
    rw [List.getD_eq_getElem?_getD, List.getElem?_append_left (by simpa using heq),
      List.getElem?_map, List.getElem?_range heq]
    rfl
  refine ⟨by simp, ?_, ?_, ?_⟩
  · intro eq factor hfactor
    have heq := (List.getElem?_eq_some_iff.mp hfactor).1
    rw [hentry eq (by omega), countedResiduals, massResidual, Scalar.largest, List.foldl_map]
    simp only [countedResidual, hfactor, RoundedScalar.mul_comm factor]
  · have hnone : factors[w.layout.pressureSlot]? = none :=
      List.getElem?_eq_none (hfactors.trans hcomponents).le
    have hpos : 0 < w.tree.size := Nat.succ_pos _
    have hrange : List.range w.tree.size = 0 :: List.range' 1 (w.tree.size - 1) := by
      rw [List.range_eq_range', ← Nat.succ_pred_eq_of_pos hpos, List.range'_succ]
      rfl
    have hzero : Scalar.strictMax (0 : α) 0 = 0 := by
      rcases Scalar.strictMax_eq_or (0 : α) 0 with h | h <;> exact h
    rw [hentry _ (Nat.lt_succ_self _), countedResiduals, pressureResidual, Scalar.largest,
      List.foldl_map, hrange, List.foldl_cons]
    simp only [countedResidual, hnone]
    rw [if_neg (Nat.lt_irrefl 0), hzero]
    refine List.foldl_ext _ _ _ fun most seg hseg => ?_
    have hpos : 0 < seg := (List.mem_range'_1.mp hseg).1
    rw [if_pos hpos]
  · rw [List.getD_eq_getElem?_getD, List.getElem?_append_right (by simp)]
    simp

/-- A finite multiple of a magnitude is not below zero, if the factor is not. -/
theorem mul_abs_nonneg [MonotoneScalar α] {factor x : α} (hfactor : 0 ≤ factor)
    (h : Scalar.isFinite (factor * Scalar.abs x) = true) : 0 ≤ factor * Scalar.abs x := by
  have hnumber := OrderedScalar.le_self_of_isFinite h
  obtain ⟨⟨_, habs⟩, _, _⟩ := MonotoneScalar.number_mul_iff.mp hnumber
  exact MonotoneScalar.mul_nonneg hfactor (Scalar.abs_nonneg habs) hnumber

/-- What is listed are the maxima of what was found finite. -/
theorem lists_of_finiteResiduals [MonotoneScalar α] (hphases : 0 < w.layout.components)
    (hnonneg : ∀ b ∈ factors, 0 ≤ b) (hv : w.finiteResiduals factors = .ok v) :
    w.Lists factors v := by
  obtain ⟨hlength, hmass, hpressure, hcontrol⟩ := getD_of_finiteResiduals hphases hv
  have hfactors := (finiteResiduals_cases hv).1
  have hcomponents := components_eq hphases
  have hfinite := (finiteResiduals_eq_ok_iff hphases hfactors).mp ⟨v, hv⟩
  refine ⟨hlength, ?_, ?_, hcontrol⟩
  · intro eq factor hfactor
    rw [hmass eq factor hfactor, massResidual_eq]
    refine Scalar.isMaximum_largest fun r hr => ?_
    obtain ⟨seg, hseg, rfl⟩ := List.mem_map.mp hr
    obtain ⟨heq, hget⟩ := List.getElem?_eq_some_iff.mp hfactor
    have hcounts : w.Counts seg eq := by
      refine ⟨List.mem_range.mp hseg, ?_, ?_⟩
      · rw [Layout.size]
        omega
      · intro hplace
        have := (Prod.mk.inj hplace).2
        omega
    have hentry := hfinite.counted seg eq hcounts
    rw [weightedResidual, hfactor] at hentry
    exact mul_abs_nonneg (hnonneg factor (hget ▸ List.getElem_mem heq)) hentry
  · rw [hpressure, pressureResidual_eq]
    refine Scalar.isMaximum_largest fun r hr => ?_
    obtain ⟨seg, hseg, rfl⟩ := List.mem_map.mp hr
    obtain ⟨hpos, hlt⟩ := List.mem_range'_1.mp hseg
    have hnone : factors[w.layout.pressureSlot]? = none :=
      List.getElem?_eq_none (hfactors.trans hcomponents).le
    have hcounts : w.Counts seg w.layout.pressureSlot := by
      refine ⟨by omega, Nat.lt_succ_self _, ?_⟩
      intro hplace
      have := (Prod.mk.inj hplace).1
      omega
    have hentry := hfinite.counted seg _ hcounts
    rw [weightedResidual, hnone] at hentry
    exact Scalar.abs_nonneg (OrderedScalar.le_self_of_isFinite hentry)

end Listed

/-- Residuals are listed exactly when all of them are finite; otherwise the error names the first one
    that is not, and the control equation last. What is listed are the maxima of the weighted
    residuals, and whatever a check reports of them it reports by its thresholds from this list. -/
theorem finiteResiduals_lists [MonotoneScalar α] (w : SegmentedWell α) {factors : List α}
    (hphases : 0 < w.layout.components) (hfactors : factors.length = w.layout.components)
    (hnonneg : ∀ b ∈ factors, 0 ≤ b) :
    ((∃ v, w.finiteResiduals factors = .ok v) ↔ w.AllFinite factors) ∧
      (∀ e, w.finiteResiduals factors = .error e ↔
        ∃ seg? eq, w.FirstFault factors seg? eq ∧ e = .notFinite w.name seg? eq) ∧
      ∀ v, w.finiteResiduals factors = .ok v → w.Lists factors v ∧
        ∀ s t relax, w.checkConvergence s factors t relax = (w.controlInForce s).map fun control =>
          .ofJudged (w.judge control t relax fun place => v.getD place 0) := by
  refine ⟨finiteResiduals_eq_ok_iff hphases hfactors,
    fun e => finiteResiduals_eq_error_iff hphases hfactors, ?_⟩
  intro v hv
  refine ⟨lists_of_finiteResiduals hphases hnonneg hv, ?_⟩
  intro s t relax
  obtain ⟨_, hmass, hpressure, hcontrol⟩ := getD_of_finiteResiduals hphases hv
  exact w.checkConvergence_eq s hfactors t relax hmass hpressure hcontrol

/-- A check reports what it makes of the listed residuals; an infinite residual of the lower segment is
    at fault before a control residual that is not a number. -/
theorem finiteResiduals_lists_twoSegments :
    (twoSegments #[0, 3, 5, 1e9, 0, -2e3]).Lists [1, 1] [1e9, 3, 2e3, 5] ∧
      (twoSegments #[0, 3, 5, 1e9, 0, -2e3]).checkConvergence (.producer 2 .orat) [1, 1] .default true
        = .ok ⟨[⟨.massBalance, .tooLarge, some 0, "P1"⟩, ⟨.massBalance, .normal, some 1, "P1"⟩,
          ⟨.controlRate, .normal, none, "P1"⟩]⟩ ∧
      (twoSegments #[0, 0, 0 / 0, 0, 1 / 0, 0]).FirstFault [1, 1] (some 1) 1 := by
  have hnonneg : ∀ b ∈ [(1 : Float), 1], 0 ≤ b := by decide +kernel
  obtain ⟨_, _, hlisted⟩ := finiteResiduals_lists (twoSegments #[0, 3, 5, 1e9, 0, -2e3])
    (by decide) rfl hnonneg
  obtain ⟨hlists, hcheck⟩ := hlisted [1e9, 3, 2e3, 5] (by decide +kernel)
  obtain ⟨_, herror, _⟩ := finiteResiduals_lists (twoSegments #[0, 0, 0 / 0, 0, 1 / 0, 0])
    (by decide) rfl hnonneg
  refine ⟨hlists, ?_, ?_⟩
  · rw [hcheck]
    decide +kernel
  · obtain ⟨seg?, eq, hfault, heq⟩ :=
      (herror (.notFinite "P1" (some 1) 1)).mp (by decide +kernel)
    cases heq
    exact hfault

end SegmentedWell

end ReservoirWells
