import ReservoirWells.Proofs.Exact
import ReservoirWells.BlockSystem

/-! # Block systems — what is read after something was written

    Residuals and Jacobian entries are kept in flat arrays, so that a write goes to the address that
    it names has to be proved.  It does in a system of full size, where every address has a place of
    its own (`place_inj`):

    * `BlockSystem.residual_modifyResidual`, `BlockSystem.jacobian_modifyJacobian` — a single write;
    * `BlockSystem.jacobian_addRow` — a row of derivatives in the columns of a segment;
    * `BlockSystem.Sized` — the size, which no write changes. -/

namespace ReservoirWells

/-! ## Places -/

/-- The place of column `j` in row `i`. -/
theorem place_lt {rows columns i j : Nat} (hi : i < rows) (hj : j < columns) :
    i * columns + j < rows * columns :=
  calc i * columns + j < i * columns + columns := Nat.add_lt_add_left hj _
    _ = (i + 1) * columns := (Nat.succ_mul i columns).symm
    _ ≤ rows * columns := Nat.mul_le_mul_right columns hi

/-- Different addresses have different places. -/
theorem place_inj {columns i i' j j' : Nat} (hj : j < columns) (hj' : j' < columns) :
    i * columns + j = i' * columns + j' ↔ i = i' ∧ j = j' := by
  constructor
  · intro h
    have hpos : 0 < columns := Nat.zero_lt_of_lt hj
    have hrow : i = i' := by
      have hdiv := congrArg (· / columns) h
      simpa only [Nat.mul_comm _ columns, Nat.mul_add_div hpos, Nat.div_eq_of_lt hj,
        Nat.div_eq_of_lt hj', Nat.add_zero] using hdiv
    subst hrow
    exact ⟨rfl, Nat.add_left_cancel h⟩
  · rintro ⟨rfl, rfl⟩
    rfl

namespace BlockSystem

variable {α : Type}

/-- The system of a number of segments and equations, with a place for every address. -/
structure Sized (s : BlockSystem α) (segments equations : Nat) : Prop where
  segments_eq : s.segments = segments
  equations_eq : s.equations = equations
  residuals_size : s.residuals.size = segments * equations
  entries_size : s.entries.size = segments * equations * (segments * equations)

variable {s : BlockSystem α} {m n : Nat}

section Places

theorem Sized.row_eq (h : s.Sized m n) (seg eq : Nat) : s.row seg eq = seg * n + eq := by
  rw [row, h.equations_eq]

theorem Sized.entry_eq (h : s.Sized m n) (rowSeg rowEq colSeg colVar : Nat) :
    s.entry rowSeg rowEq colSeg colVar
      = (rowSeg * n + rowEq) * (m * n) + (colSeg * n + colVar) := by
  rw [entry, h.row_eq, h.row_eq, h.segments_eq, h.equations_eq]

/-- The places of two entries are the same exactly when their addresses are. -/
theorem Sized.entry_inj (h : s.Sized m n) {r e c v r' e' c' v' : Nat} (he : e < n) (hc : c < m)
    (hv : v < n) (he' : e' < n) (hc' : c' < m) (hv' : v' < n) :
    s.entry r e c v = s.entry r' e' c' v' ↔ (r = r' ∧ e = e') ∧ c = c' ∧ v = v' := by
  rw [h.entry_eq, h.entry_eq, place_inj (place_lt hc hv) (place_lt hc' hv'), place_inj he he',
    place_inj hv hv']

theorem Sized.entry_lt (h : s.Sized m n) {r e c v : Nat} (hr : r < m) (he : e < n) (hc : c < m)
    (hv : v < n) : s.entry r e c v < s.entries.size := by
  rw [h.entry_eq, h.entries_size]
  exact place_lt (place_lt hr he) (place_lt hc hv)

end Places

/-! ## The size -/

section Sizes

variable [Scalar α]

theorem sized_zero (m n : Nat) : (zero m n : BlockSystem α).Sized m n :=
  ⟨rfl, rfl, Array.size_replicate, Array.size_replicate⟩

theorem Sized.clear (h : s.Sized m n) : s.clear.Sized m n :=
  ⟨h.segments_eq, h.equations_eq, Array.size_map.trans h.residuals_size,
    Array.size_map.trans h.entries_size⟩

omit [Scalar α] in
theorem Sized.modifyResidual (h : s.Sized m n) (seg eq : Nat) (f : α → α) :
    (s.modifyResidual seg eq f).Sized m n :=
  ⟨h.segments_eq, h.equations_eq, Array.size_modify.trans h.residuals_size, h.entries_size⟩

omit [Scalar α] in
theorem Sized.setResidual (h : s.Sized m n) (seg eq : Nat) (value : α) :
    (s.setResidual seg eq value).Sized m n :=
  h.modifyResidual ..

theorem Sized.addResidual (h : s.Sized m n) (seg eq : Nat) (value : α) :
    (s.addResidual seg eq value).Sized m n :=
  h.modifyResidual ..

omit [Scalar α] in
theorem Sized.modifyJacobian (h : s.Sized m n) (r e c v : Nat) (f : α → α) :
    (s.modifyJacobian r e c v f).Sized m n :=
  ⟨h.segments_eq, h.equations_eq, h.residuals_size, Array.size_modify.trans h.entries_size⟩

end Sizes

/-! ## Single writes -/

section Writes

variable [Scalar α]

/-- A change of a residual is read at its address and nowhere else. -/
theorem residual_modifyResidual (h : s.Sized m n) {seg eq seg' eq' : Nat} (hseg : seg < m)
    (heq : eq < n) (heq' : eq' < n) (f : α → α) :
    (s.modifyResidual seg eq f).residual seg' eq'
      = if seg = seg' ∧ eq = eq' then f (s.residual seg eq) else s.residual seg' eq' := by
  have hlt : s.row seg eq < s.residuals.size := by
    rw [h.row_eq, h.residuals_size]
    exact place_lt hseg heq
  have hsame : s.row seg eq = s.row seg' eq' ↔ seg = seg' ∧ eq = eq' := by
    rw [h.row_eq, h.row_eq, place_inj heq heq']
  show (((s.residuals.modify (s.row seg eq) f)[s.row seg' eq']?).getD 0) = _
  rw [Array.getElem?_modify]
  by_cases haddress : seg = seg' ∧ eq = eq'
  · rw [if_pos haddress, ← hsame.mpr haddress, if_pos rfl, residual,
      Array.getElem?_eq_getElem hlt]
    rfl
  · rw [if_neg haddress, if_neg fun hplace => haddress (hsame.mp hplace)]
    rfl

/-- A change of an entry is read at its address and nowhere else. -/
theorem jacobian_modifyJacobian (h : s.Sized m n) {r e c v r' e' c' v' : Nat} (hr : r < m)
    (he : e < n) (hc : c < m) (hv : v < n) (he' : e' < n) (hc' : c' < m) (hv' : v' < n)
    (f : α → α) :
    (s.modifyJacobian r e c v f).jacobian r' e' c' v'
      = if (r = r' ∧ e = e') ∧ c = c' ∧ v = v' then f (s.jacobian r e c v)
        else s.jacobian r' e' c' v' := by
  have hlt := h.entry_lt hr he hc hv
  have hsame : s.entry r e c v = s.entry r' e' c' v' ↔ (r = r' ∧ e = e') ∧ c = c' ∧ v = v' :=
    h.entry_inj he hc hv he' hc' hv'
  show (((s.entries.modify (s.entry r e c v) f)[s.entry r' e' c' v']?).getD 0) = _
  rw [Array.getElem?_modify]
  by_cases haddress : (r = r' ∧ e = e') ∧ c = c' ∧ v = v'
  · rw [if_pos haddress, ← hsame.mpr haddress, if_pos rfl, jacobian,
      Array.getElem?_eq_getElem hlt]
    rfl
  · rw [if_neg haddress, if_neg fun hplace => haddress (hsame.mp hplace)]
    rfl

@[simp] theorem residual_modifyJacobian (s : BlockSystem α) (r e c v : Nat) (f : α → α)
    (seg eq : Nat) : (s.modifyJacobian r e c v f).residual seg eq = s.residual seg eq := rfl

@[simp] theorem jacobian_modifyResidual (s : BlockSystem α) (seg eq : Nat) (f : α → α)
    (r e c v : Nat) : (s.modifyResidual seg eq f).jacobian r e c v = s.jacobian r e c v := rfl

/-- A cleared system holds zeros only. -/
theorem jacobian_clear (s : BlockSystem α) (r e c v : Nat) : s.clear.jacobian r e c v = 0 := by
  show (((s.entries.map fun _ => (0 : α))[s.entry r e c v]?).getD 0) = 0
  rw [Array.getElem?_map]
  cases s.entries[s.entry r e c v]? <;> rfl

end Writes

/-! ## Rows of derivatives -/

section Rows

variable [Scalar α]

/-- Adding a row leaves everything but the entries alone. -/
theorem addRow_eq (s : BlockSystem α) (r e c : Nat) (ds : List α) (scale : α) :
    ∃ entries, s.addRow r e c ds scale = { s with entries } := by
  have hall : ∀ (l : List (α × Nat)) (entries : Array α), ∃ entries',
      l.foldl (fun s (d : α × Nat) => s.addJacobian r e c d.2 (scale * d.1)) { s with entries }
        = { s with entries := entries' } := by
    intro l
    induction l with
    | nil => intro entries; exact ⟨entries, rfl⟩
    | cons d rest ih => intro entries; exact ih _
  exact hall ds.zipIdx s.entries

@[simp] theorem residual_addRow (s : BlockSystem α) (r e c : Nat) (ds : List α) (scale : α)
    (seg eq : Nat) : (s.addRow r e c ds scale).residual seg eq = s.residual seg eq := by
  obtain ⟨entries, h⟩ := s.addRow_eq r e c ds scale
  rw [h]
  rfl

theorem Sized.addRow (h : s.Sized m n) (r e c : Nat) (ds : List α) (scale : α) :
    (s.addRow r e c ds scale).Sized m n := by
  have hall : ∀ (l : List (α × Nat)) {s : BlockSystem α}, s.Sized m n →
      (l.foldl (fun s (d : α × Nat) => s.addJacobian r e c d.2 (scale * d.1)) s).Sized m n := by
    intro l
    induction l with
    | nil => intro s hs; exact hs
    | cons d rest ih => intro s hs; exact ih (hs.modifyJacobian ..)
  exact hall ds.zipIdx h

end Rows

/-- A row of derivatives is added to the entries of its row and column segment. -/
theorem jacobian_addRow [ExactScalar α] (h : s.Sized m n) {r e c r' e' c' v' : Nat} {ds : List α}
    (hr : r < m) (he : e < n) (hc : c < m) (hds : ds.length ≤ n) (he' : e' < n) (hc' : c' < m)
    (hv' : v' < n) (scale : α) :
    (s.addRow r e c ds scale).jacobian r' e' c' v' = s.jacobian r' e' c' v'
      + if (r = r' ∧ e = e') ∧ c = c' then scale * ds.getD v' 0 else 0 := by
  -- the induction is over the derivatives that are left, the first of which belongs to place `k`
  have hall : ∀ (ds : List α) (k : Nat) {s : BlockSystem α}, s.Sized m n → k + ds.length ≤ n →
      ((ds.zipIdx k).foldl (fun s d => s.addJacobian r e c d.2 (scale * d.1)) s).jacobian r' e' c' v'
        = s.jacobian r' e' c' v'
          + if ((r = r' ∧ e = e') ∧ c = c') ∧ k ≤ v' then scale * ds.getD (v' - k) 0 else 0 := by
    intro ds
    induction ds with
    | nil => intro k s _ _; simp
    | cons d rest ih =>
        intro k s hs hk
        rw [List.length_cons] at hk
        have hfirst : (s.addJacobian r e c k (scale * d)).Sized m n := hs.modifyJacobian ..
        rw [List.zipIdx_cons, List.foldl_cons, ih (k + 1) hfirst (by omega), addJacobian,
          jacobian_modifyJacobian hs hr he hc (by omega) he' hc' hv']
        by_cases haddress : (r = r' ∧ e = e') ∧ c = c'
        · obtain ⟨⟨rfl, rfl⟩, rfl⟩ := haddress
          rcases Nat.lt_trichotomy k v' with hlt | rfl | hgt
          · have hnext : v' - k = (v' - (k + 1)) + 1 := by omega
            simp [hlt.ne, Nat.succ_le_of_lt hlt, hlt.le, hnext]
          · simp
          · simp [hgt.ne', Nat.not_le.mpr hgt, Nat.not_le.mpr (Nat.lt_succ_of_lt hgt)]
        · have hnot : ¬ ((r = r' ∧ e = e') ∧ c = c' ∧ k = v') := fun hboth =>
            haddress ⟨hboth.1, hboth.2.1⟩
          simp only [haddress, hnot, false_and, if_false]
  have hrow := hall ds 0 h (by omega)
  simp only [Nat.zero_le, and_true, Nat.sub_zero] at hrow
  exact hrow

end BlockSystem

end ReservoirWells
