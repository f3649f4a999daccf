import ReservoirWells.Proofs.Exact
import ReservoirWells.Proofs.Group.Placement
import ReservoirWells.Proofs.Group.Withdrawal

/-! # Pinning — a withdrawn well that is not stopped

    A well that does not stop when it is withdrawn is opened, and a rate of zero is written into the
    place of its group control.  That control is not made active.  So the well goes on under the
    control that was active before, unless that one stood in the same place:

    * `ControlList.Rests` — a well does not flow: it is stopped, or open at a rate of zero;
    * `ControlList.active?_impose` — which control is active once another one was imposed;
    * `Site.withdrawWell_rests_iff` — when a withdrawn well does not flow;
    * `Site.not_forall_withdrawWell_rests` — it may flow on, and a stopped well may flow again. -/

namespace ReservoirWells

variable {α : Type} [Scalar α]

/-! ## Wells that do not flow -/

/-- Zero is a zero. -/
theorem Scalar.isZero_zero : Scalar.isZero (0 : α) = true :=
  Bool.and_eq_true_iff.mpr
    ⟨decide_eq_true Amount.zero_le_zero, decide_eq_true Amount.zero_le_zero⟩

/-- The control holds the surface rate at zero. -/
def Control.isZeroRate (c : Control α) : Bool := c.kind == .surfaceRate && Scalar.isZero c.target

namespace ControlList

/-- The well does not flow: it is stopped, or open with a surface rate of zero as its active
    control. -/
def Rests (l : ControlList α) : Prop :=
  l.isOpen = false ∨ l.isOpen = true ∧ ∃ c ∈ l.active?, c.isZeroRate = true

instance (l : ControlList α) : Decidable l.Rests := inferInstanceAs (Decidable (_ ∨ _))

omit [Scalar α] in
/-- A control that was imposed is active when the active control stood in its place, and the active
    control is the same as before otherwise. -/
theorem active?_impose (l : ControlList α) (slot : Option Nat) (c : Control α) :
    (l.impose slot c).1.active? = if l.current = l.place slot then some c else l.active? := by
  have hcurrent : (l.impose slot c).1.current = l.current := by rw [impose_eq]
  rw [active?, hcurrent, impose_controls_getElem?, active?]

end ControlList

namespace Site

/-- The well of a node does not flow. -/
def Rests (s : Site α) (id : Nat) : Prop :=
  ∃ n index w, s.hierarchy.node id = .ok n ∧ n.tableIndex = .ok index ∧
    s.wells.well index = .ok w ∧ w.controls.Rests

/-- Whether a well flows can be seen from its entry. -/
theorem rests_iff {s : Site α} {id index : Nat} {w : Well α} (ha : s.AttachedTo id index)
    (hw : s.wells.well index = .ok w) : s.Rests id ↔ w.controls.Rests := by
  obtain ⟨n, hn, hi⟩ := ha
  constructor
  · rintro ⟨n', index', w', hn', hi', hw', hrests⟩
    rw [hn] at hn'
    cases hn'
    rw [hi] at hi'
    cases hi'
    rw [hw] at hw'
    cases hw'
    exact hrests
  · intro hrests
    exact ⟨n, index, w, hn, hi, hw, hrests⟩

/-- A well that is attached to an entry can be withdrawn, and then it is stopped or has a group
    control of rate zero.  It does not flow exactly when it is one of the wells that stop, when the
    active control stood in the place of the group control, or when the active control was a rate of
    zero already.  In any other case it is open afterwards, also if it was stopped before, and under
    the control that was active before. -/
theorem withdrawWell_rests_iff {s : Site α} {id index : Nat} {n : Node α} {link : WellLink}
    {w : Well α} (hn : s.hierarchy.node id = .ok n) (hl : n.link? = some link)
    (hi : n.tableIndex = .ok index) (hw : s.wells.well index = .ok w) :
    (s.withdrawWell id).2 = .ok () ∧ (s.withdrawWell id).1.OutOfProduction id ∧
      ((s.withdrawWell id).1.Rests id ↔ link.stopsWhenWithdrawn = true ∨
        w.controls.current = w.controls.place link.groupSlot ∨
        ∃ c ∈ w.controls.active?, c.isZeroRate = true) ∧
      (link.stopsWhenWithdrawn = false → w.controls.current ≠ w.controls.place link.groupSlot →
        ∃ v, (s.withdrawWell id).1.wells.well index = .ok v ∧ v.controls.isOpen = true ∧
          v.controls.active? = w.controls.active?) := by
  have ha : s.AttachedTo id index := ⟨n, hn, hi⟩
  obtain ⟨t, ht⟩ := withdraw_ok ha (WellTable.lt_length_of_well hw)
  have hat : t.AttachedTo id index := (obey_attachedTo (o := .withdraw id) ht id index).mpr ha
  have hout := outOfProduction_of_withdraw ht
  rw [withdrawWell_of_ok ht]
  refine ⟨rfl, hout, ?_⟩
  obtain ⟨n', index', link', w', hn', hi', hl', hw', hcases⟩ := withdraw_cases ht
  rw [hn] at hn'
  cases hn'
  rw [hi] at hi'
  cases hi'
  rw [hl] at hl'
  cases hl'
  rw [hw] at hw'
  cases hw'
  rcases hcases with ⟨hstops, rfl⟩ | ⟨hstays, rfl⟩
  · refine ⟨?_, fun hstays => ?_⟩
    · rw [rests_iff hat (WellTable.well_setControls_self hw _)]
      exact ⟨fun _ => Or.inl hstops, fun _ => Or.inl rfl⟩
    · rw [hstops] at hstays
      cases hstays
  · have hentry := WellTable.well_setControls_self hw
      (w.controls.impose link.groupSlot (.surfaceRate 0 (.const 1))).1.reopen
    have hactive := w.controls.active?_impose link.groupSlot (.surfaceRate 0 (.const 1))
    have hzero : (Control.surfaceRate (0 : α) (.const 1)).isZeroRate = true := Scalar.isZero_zero
    refine ⟨?_, fun _ hne => ⟨_, hentry, rfl, ?_⟩⟩
    · rw [rests_iff hat hentry, hstays]
      constructor
      · rintro (hclosed | ⟨_, c, hc, hrate⟩)
        · cases hclosed
        · by_cases hplace : w.controls.current = w.controls.place link.groupSlot
          · exact Or.inr (Or.inl hplace)
          · rw [if_neg hplace] at hactive
            exact Or.inr (Or.inr ⟨c, hactive ▸ hc, hrate⟩)
      · intro hrests
        refine Or.inr ⟨rfl, ?_⟩
        by_cases hplace : w.controls.current = w.controls.place link.groupSlot
        · rw [if_pos hplace] at hactive
          exact ⟨_, hactive, hzero⟩
        · rw [if_neg hplace] at hactive
          obtain ⟨c, hc, hrate⟩ := (hrests.resolve_left Bool.false_ne_true).resolve_left hplace
          exact ⟨c, hactive.trans hc, hrate⟩
    · exact hactive.trans (if_neg hne)

/-- A producer in a field that does not stop when it is withdrawn, with a rate of its own as its
    second control. -/
def keptOpenCalls : List (Call ℚ) := [
  .enrol "P1" .producer [.bhp 100, .surfaceRate (-80) ⟨0, 1, 0⟩],
  .addGroup "FIELD" none .one (.producer { ProductionSpec.default with mode := .orat }),
  .addWell "P1" (some 0) .one (.producer .default),
  .attach 1 0,
  .edit 1 (.stopsWhenWithdrawn false)]

/-- The site of that well, which is under its own control. -/
def keptOpen : Site ℚ := (vacant ⟨true, true, false⟩).serve keptOpenCalls

/-- The well. -/
def keptOpenWell : Node ℚ := keptOpen.hierarchy.nodes.get ⟨1, by decide +kernel⟩

theorem node_keptOpen : keptOpen.hierarchy.node 1 = .ok keptOpenWell :=
  Hierarchy.node_eq_ok.mpr (List.getElem?_eq_getElem _)

theorem tableIndex_keptOpen : keptOpenWell.tableIndex = .ok 0 := by decide +kernel

/-- The same site after a target was shared out, when the well is under a group control. -/
def heldOpen : Site ℚ := keptOpen.serve [.push 0 (.production .orat) 60 false]

/-- The well, which now has a place for its group control. -/
def heldOpenWell : Node ℚ := heldOpen.hierarchy.nodes.get ⟨1, by decide +kernel⟩

/-- The well flows on when it is under its own control, and it does not when it was under a group
    control before. -/
theorem withdrawWell_rests_iff_keptOpen :
    (keptOpen.withdrawWell 1).2 = .ok () ∧ ¬ (keptOpen.withdrawWell 1).1.Rests 1 ∧
      (heldOpen.withdrawWell 1).2 = .ok () ∧ (heldOpen.withdrawWell 1).1.Rests 1 := by
  have hlink : keptOpenWell.link? = some ⟨some ⟨0, .producer⟩, none, false⟩ := by decide +kernel
  have hentry : keptOpen.wells.well 0 = .ok (keptOpen.wells.get ⟨0, by decide +kernel⟩) :=
    WellTable.well_eq_ok.mpr (List.getElem?_eq_getElem _)
  obtain ⟨hown, _, hiff, _⟩ :=
    withdrawWell_rests_iff node_keptOpen hlink tableIndex_keptOpen hentry
  have hnode : heldOpen.hierarchy.node 1 = .ok heldOpenWell :=
    Hierarchy.node_eq_ok.mpr (List.getElem?_eq_getElem _)
  have hindex : heldOpenWell.tableIndex = .ok 0 := by decide +kernel
  have hlink' : heldOpenWell.link? = some ⟨some ⟨0, .producer⟩, some 2, false⟩ := by decide +kernel
  have hentry' : heldOpen.wells.well 0 = .ok (heldOpen.wells.get ⟨0, by decide +kernel⟩) :=
    WellTable.well_eq_ok.mpr (List.getElem?_eq_getElem _)
  obtain ⟨hgroup, _, hiff', _⟩ := withdrawWell_rests_iff hnode hlink' hindex hentry'
  refine ⟨hown, ?_, hgroup, hiff'.mpr (Or.inr (Or.inl (by decide +kernel)))⟩
  rw [hiff]
  decide +kernel

/-- So a well that was withdrawn need not be out of production. -/
theorem not_forall_withdrawWell_rests :
    ¬ ∀ (phases : ActivePhases) (calls : List (Call ℚ)) (id index : Nat),
      let s := (vacant phases).serve calls
      s.AttachedTo id index → index < s.wells.length → (s.withdrawWell id).2 = .ok () →
      (s.withdrawWell id).1.Rests id := by
  intro hall
  have ha : keptOpen.AttachedTo 1 0 := ⟨_, node_keptOpen, tableIndex_keptOpen⟩
  obtain ⟨n, index, w, hn, hi, hw, hrests⟩ :=
    hall ⟨true, true, false⟩ keptOpenCalls 1 0 ha (by decide +kernel) (by decide +kernel)
  -- the well is attached to the same entry as before
  obtain ⟨n', hn', hi'⟩ := (run_attachedTo keptOpen [.withdraw 1] 1 0).mpr ha
  obtain rfl : n = n' := Except.ok.inj (hn.symm.trans hn')
  obtain rfl : index = 0 := Except.ok.inj (hi.symm.trans hi')
  have hflows : ((keptOpen.withdrawWell 1).1.wells.well 0).map (fun w => decide w.controls.Rests)
      = .ok false := by decide +kernel
  rw [show (keptOpen.withdrawWell 1).1.wells.well 0 = .ok w from hw] at hflows
  exact of_decide_eq_false (Except.ok.inj hflows) hrests

end Site

end ReservoirWells
