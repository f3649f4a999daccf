import Mathlib.Logic.Function.Basic
import ReservoirWells.Proofs.BlockSystem

/-! # Ledgers — a system is two maps that know nothing of places

    Residuals and Jacobian entries are packed into two flat arrays, a residual by the two parts of its
    address and an entry by four.  A ledger keeps the same numbers by their addresses, in two maps of
    which a write changes one value.  Whatever is written, in any order and as often as one likes, a
    system that starts out empty holds what the ledger holds, and no access misses the arrays.

    * `SystemWrite`, `BlockSystem.write` — what can be written to a system;
    * `Ledger`, `Ledger.write` — the same for the two maps;
    * `BlockSystem.Keeps` — every read within the system finds what the ledger says;
    * `BlockSystem.Keeps.write` — one write, and `BlockSystem.keeps_writes` — a list of them. -/

namespace ReservoirWells

variable {α : Type}

/-- The address of a residual, or of a column: a segment, and an equation or an unknown. -/
abbrev RowAddress := Nat × Nat

/-- The address is one of a system with `m` segments and `n` equations. -/
def RowAddress.Within (m n : Nat) (a : RowAddress) : Prop := a.1 < m ∧ a.2 < n

instance RowAddress.instDecidableWithin (m n : Nat) (a : RowAddress) : Decidable (a.Within m n) :=
  inferInstanceAs (Decidable (a.1 < m ∧ a.2 < n))

/-- What can be written to a system. -/
inductive SystemWrite (α : Type)
  | clear
  | setResidual (row : RowAddress) (value : α)
  | addResidual (row : RowAddress) (value : α)
  | setJacobian (row column : RowAddress) (value : α)
  | addJacobian (row column : RowAddress) (value : α)

/-- The write stays within a system with `m` segments and `n` equations. -/
def SystemWrite.Within (m n : Nat) : SystemWrite α → Prop
  | clear => True
  | setResidual row _ | addResidual row _ => row.Within m n
  | setJacobian row column _ | addJacobian row column _ => row.Within m n ∧ column.Within m n

instance SystemWrite.instDecidableWithin (m n : Nat) :
    (w : SystemWrite α) → Decidable (w.Within m n)
  | clear => inferInstanceAs (Decidable True)
  | setResidual row _ | addResidual row _ => inferInstanceAs (Decidable (row.Within m n))
  | setJacobian row column _ | addJacobian row column _ =>
    inferInstanceAs (Decidable (row.Within m n ∧ column.Within m n))

/-! ## The two maps -/

/-- A residual for each row, and an entry for each row and column. -/
structure Ledger (α : Type) where
  residual : RowAddress → α
  jacobian : RowAddress × RowAddress → α

namespace Ledger

variable [Scalar α]

/-- All zero. -/
def zero : Ledger α := ⟨fun _ => 0, fun _ => 0⟩

/-- Changes one residual. -/
def modifyResidual (g : Ledger α) (row : RowAddress) (f : α → α) : Ledger α :=
  { g with residual := Function.update g.residual row (f (g.residual row)) }

/-- Changes one entry. -/
def modifyJacobian (g : Ledger α) (row column : RowAddress) (f : α → α) : Ledger α :=
  { g with jacobian := Function.update g.jacobian (row, column) (f (g.jacobian (row, column))) }

omit [Scalar α] in
theorem residual_modifyResidual (g : Ledger α) (row row' : RowAddress) (f : α → α) :
    (g.modifyResidual row f).residual row'
      = if row' = row then f (g.residual row) else g.residual row' :=
  Function.update_apply ..

omit [Scalar α] in
theorem jacobian_modifyJacobian (g : Ledger α) (row column row' column' : RowAddress) (f : α → α) :
    (g.modifyJacobian row column f).jacobian (row', column')
      = if (row', column') = (row, column) then f (g.jacobian (row, column))
        else g.jacobian (row', column') :=
  Function.update_apply ..

/-- What becomes of a ledger under a write. -/
def write (g : Ledger α) : SystemWrite α → Ledger α
  | .clear => zero
  | .setResidual row value => g.modifyResidual row fun _ => value
  | .addResidual row value => g.modifyResidual row (· + value)
  | .setJacobian row column value => g.modifyJacobian row column fun _ => value
  | .addJacobian row column value => g.modifyJacobian row column (· + value)

/-- The same for a list of writes. -/
def writes (g : Ledger α) (l : List (SystemWrite α)) : Ledger α := l.foldl write g

end Ledger

/-! ## The system -/

namespace BlockSystem

variable [Scalar α]

/-- The system after a write; nothing if the write would go past it. -/
def write (s : BlockSystem α) : SystemWrite α → Option (BlockSystem α)
  | .clear => some s.clear
  | .setResidual row value => s.modifyResidual? row.1 row.2 fun _ => value
  | .addResidual row value => s.modifyResidual? row.1 row.2 (· + value)
  | .setJacobian row column value =>
    s.modifyJacobian? row.1 row.2 column.1 column.2 fun _ => value
  | .addJacobian row column value =>
    s.modifyJacobian? row.1 row.2 column.1 column.2 (· + value)

/-- The same for a list of writes, each of which has to stay within the system. -/
def writes (s : BlockSystem α) (l : List (SystemWrite α)) : Option (BlockSystem α) :=
  l.foldlM write s

/-- The system has a place for every address, and what is read there is what the ledger says. -/
structure Keeps (s : BlockSystem α) (m n : Nat) (g : Ledger α) : Prop where
  sized : s.Sized m n
  residual : ∀ row : RowAddress, row.Within m n → s.residual row.1 row.2 = g.residual row
  jacobian : ∀ row column : RowAddress, row.Within m n → column.Within m n →
    s.jacobian row.1 row.2 column.1 column.2 = g.jacobian (row, column)

variable {s : BlockSystem α} {m n : Nat} {g : Ledger α} {row column : RowAddress}

omit [Scalar α] in
theorem Sized.hasRow (h : s.Sized m n) (hrow : row.Within m n) : s.hasRow row.1 row.2 = true := by
  rw [BlockSystem.hasRow, h.segments_eq, h.equations_eq, decide_eq_true hrow.1,
    decide_eq_true hrow.2]
  rfl

omit [Scalar α] in
theorem Sized.row_lt (h : s.Sized m n) (hrow : row.Within m n) :
    s.row row.1 row.2 < s.residuals.size := by
  rw [h.row_eq, h.residuals_size]
  exact place_lt hrow.1 hrow.2

/-- A cleared system holds zeros only, its residuals included. -/
theorem residual_clear (s : BlockSystem α) (seg eq : Nat) : s.clear.residual seg eq = 0 := by
  show (((s.residuals.map fun _ => (0 : α))[s.row seg eq]?).getD 0) = 0
  rw [Array.getElem?_map]
  cases s.residuals[s.row seg eq]? <;> rfl

/-! ### Writing -/

theorem Sized.keeps_clear (h : s.Sized m n) : s.clear.Keeps m n .zero :=
  ⟨h.clear, fun _ _ => residual_clear .., fun _ _ _ _ => jacobian_clear ..⟩

/-- A new system is a cleared one. -/
theorem keeps_zero (m n : Nat) : (zero m n : BlockSystem α).Keeps m n .zero := by
  have hclear : (zero m n : BlockSystem α).clear = zero m n := by
    rw [clear, zero]
    simp only [Array.map_replicate]
  rw [← hclear]
  exact (sized_zero m n).keeps_clear

/-- No residual but the one that is named changes. -/
theorem Keeps.modifyResidual (h : s.Keeps m n g) (hrow : row.Within m n) (f : α → α) :
    (s.modifyResidual row.1 row.2 f).Keeps m n (g.modifyResidual row f) where
  sized := h.sized.modifyResidual ..
  residual := by
    intro row' hrow'
    rw [residual_modifyResidual h.sized hrow.1 hrow.2 hrow'.2, h.residual row hrow,
      h.residual row' hrow', Ledger.residual_modifyResidual]
    exact if_congr (Prod.ext_iff.symm.trans eq_comm) rfl rfl
  jacobian := h.jacobian

/-- No entry but the one that is named changes. -/
theorem Keeps.modifyJacobian (h : s.Keeps m n g) (hrow : row.Within m n)
    (hcolumn : column.Within m n) (f : α → α) :
    (s.modifyJacobian row.1 row.2 column.1 column.2 f).Keeps m n
      (g.modifyJacobian row column f) where
  sized := h.sized.modifyJacobian ..
  residual := h.residual
  jacobian := by
    intro row' column' hrow' hcolumn'
    rw [jacobian_modifyJacobian h.sized hrow.1 hrow.2 hcolumn.1 hcolumn.2 hrow'.2 hcolumn'.1
      hcolumn'.2, h.jacobian row column hrow hcolumn, h.jacobian row' column' hrow' hcolumn',
      Ledger.jacobian_modifyJacobian]
    have hsame : (row.1 = row'.1 ∧ row.2 = row'.2) ∧ column.1 = column'.1 ∧ column.2 = column'.2
        ↔ (row', column') = (row, column) :=
      ((and_congr Prod.ext_iff.symm Prod.ext_iff.symm).trans Prod.mk_inj.symm).trans eq_comm
    exact if_congr hsame rfl rfl

/-- A write within the system goes through, and does to the system what it does to the ledger. -/
theorem Keeps.write (h : s.Keeps m n g) {w : SystemWrite α} (hw : w.Within m n) :
    ∃ s', s.write w = some s' ∧ s'.Keeps m n (g.write w) := by
  cases w with
  | clear => exact ⟨s.clear, rfl, h.sized.keeps_clear⟩
  | setResidual row value =>
      exact ⟨_, if_pos (h.sized.hasRow hw), h.modifyResidual hw _⟩
  | addResidual row value =>
      exact ⟨_, if_pos (h.sized.hasRow hw), h.modifyResidual hw _⟩
  | setJacobian row column value =>
      refine ⟨_, if_pos ?_, h.modifyJacobian hw.1 hw.2 _⟩
      rw [h.sized.hasRow hw.1, h.sized.hasRow hw.2, Bool.and_true]
  | addJacobian row column value =>
      refine ⟨_, if_pos ?_, h.modifyJacobian hw.1 hw.2 _⟩
      rw [h.sized.hasRow hw.1, h.sized.hasRow hw.2, Bool.and_true]

/-- So do writes one after the other. -/
theorem Keeps.writes (l : List (SystemWrite α)) {s : BlockSystem α} {g : Ledger α}
    (h : s.Keeps m n g) (hl : ∀ w ∈ l, w.Within m n) :
    ∃ s', s.writes l = some s' ∧ s'.Keeps m n (g.writes l) := by
  induction l generalizing s g with
  | nil => exact ⟨s, rfl, h⟩
  | cons w rest ih =>
      obtain ⟨s₁, hs₁, hkeeps⟩ := h.write (hl w (List.mem_cons_self ..))
      obtain ⟨s₂, hs₂, hkeeps⟩ := ih hkeeps fun w' hw' => hl w' (List.mem_cons_of_mem w hw')
      refine ⟨s₂, ?_, hkeeps⟩
      rw [BlockSystem.writes, List.foldlM_cons, hs₁]
      exact hs₂

/-! ### Reading -/

theorem Keeps.residual? (h : s.Keeps m n g) (hrow : row.Within m n) :
    s.residual? row.1 row.2 = some (g.residual row) := by
  rw [BlockSystem.residual?, if_pos (h.sized.hasRow hrow), h.residual row hrow]

theorem Keeps.jacobian? (h : s.Keeps m n g) (hrow : row.Within m n) (hcolumn : column.Within m n) :
    s.jacobian? row.1 row.2 column.1 column.2 = some (g.jacobian (row, column)) := by
  rw [BlockSystem.jacobian?, h.sized.hasRow hrow, h.sized.hasRow hcolumn, Bool.and_true, if_pos rfl,
    h.jacobian row column hrow hcolumn]

/-- The residuals of a segment, by equation. -/
theorem Keeps.segmentResidual (h : s.Keeps m n g) {seg : Nat} (hseg : seg < m) :
    s.segmentResidual seg = (List.range n).map fun eq => g.residual (seg, eq) := by
  rw [BlockSystem.segmentResidual, h.sized.equations_eq]
  exact List.map_congr_left fun eq heq => h.residual (seg, eq) ⟨hseg, List.mem_range.mp heq⟩

/-- They are one run of the flat array, which ends within it. -/
theorem Sized.segmentResidual_eq_extract (h : s.Sized m n) {seg : Nat} (hseg : seg < m) :
    s.row seg 0 + n ≤ s.residuals.size ∧
      s.segmentResidual seg = (s.residuals.extract (s.row seg 0) (s.row seg 0 + n)).toList := by
  have hend : s.row seg 0 + n ≤ s.residuals.size := by
    rw [h.row_eq, h.residuals_size, Nat.add_zero, ← Nat.succ_mul]
    exact Nat.mul_le_mul_right n hseg
  refine ⟨hend, ?_⟩
  rw [BlockSystem.segmentResidual, h.equations_eq]
  refine List.ext_getElem ?_ ?_
  · rw [List.length_map, List.length_range, Array.length_toList, Array.size_extract,
      Nat.min_eq_left hend, Nat.add_sub_cancel_left]
  · intro eq heq _
    rw [List.length_map, List.length_range] at heq
    have hplace : s.row seg eq = s.row seg 0 + eq := by
      rw [h.row_eq, h.row_eq, Nat.add_zero]
    have hlt : s.row seg 0 + eq < s.residuals.size := (Nat.add_lt_add_left heq _).trans_le hend
    rw [List.getElem_map, List.getElem_range, Array.getElem_toList, Array.getElem_extract, residual,
      hplace, Array.getElem?_eq_getElem hlt, Option.getD_some]

/-- A new system, of any size, after any list of writes within it: each write goes through, and the
    system holds what two independent maps hold after the same writes. Every residual and every entry
    is read as its map has it, at a place that lies within the flat array; the residuals of a segment
    are listed by equation, and are one run of the array. -/
theorem keeps_writes (m n : Nat) (l : List (SystemWrite α)) (hl : ∀ w ∈ l, w.Within m n) :
    let g := Ledger.zero.writes l
    ∃ s, (zero m n).writes l = some s ∧
      (∀ row : RowAddress, row.Within m n →
        s.row row.1 row.2 < s.residuals.size ∧
          s.residual? row.1 row.2 = some (g.residual row)) ∧
      (∀ row column : RowAddress, row.Within m n → column.Within m n →
        s.entry row.1 row.2 column.1 column.2 < s.entries.size ∧
          s.jacobian? row.1 row.2 column.1 column.2 = some (g.jacobian (row, column))) ∧
      ∀ seg < m, s.row seg 0 + n ≤ s.residuals.size ∧
        s.segmentResidual? seg = some ((List.range n).map fun eq => g.residual (seg, eq)) ∧
        (s.residuals.extract (s.row seg 0) (s.row seg 0 + n)).toList
          = (List.range n).map fun eq => g.residual (seg, eq) := by
  intro g
  obtain ⟨s, hs, hkeeps⟩ := (keeps_zero m n).writes l hl
  refine ⟨s, hs, ?_, ?_, ?_⟩
  · intro row hrow
    exact ⟨hkeeps.sized.row_lt hrow, hkeeps.residual? hrow⟩
  · intro row column hrow hcolumn
    exact ⟨hkeeps.sized.entry_lt hrow.1 hrow.2 hcolumn.1 hcolumn.2,
      hkeeps.jacobian? hrow hcolumn⟩
  · intro seg hseg
    obtain ⟨hend, hrun⟩ := hkeeps.sized.segmentResidual_eq_extract hseg
    refine ⟨hend, ?_, hrun.symm.trans (hkeeps.segmentResidual hseg)⟩
    rw [segmentResidual?, if_pos (hkeeps.sized.segments_eq ▸ hseg), hkeeps.segmentResidual hseg]

/-- A few writes, two of them to a residual and two to an entry that mirrors it. -/
def mirroredWrites : List (SystemWrite ℚ) :=
  [.setResidual (2, 1) 7, .clear, .setResidual (2, 1) 4, .addResidual (2, 1) 1,
    .setJacobian (1, 0) (2, 1) (-1), .addJacobian (1, 0) (2, 1) 3]

/-- What was written last counts, and neither the rest of the segment nor the mirrored entry changes. -/
theorem keeps_writes_mirrored : (∀ w ∈ mirroredWrites, w.Within 3 2) ∧
    ∃ s, (zero 3 2).writes mirroredWrites = some s ∧ s.residual? 2 1 = some 5 ∧
      s.segmentResidual? 2 = some [0, 5] ∧ s.jacobian? 1 0 2 1 = some 2 ∧
      s.jacobian? 2 1 1 0 = some 0 := by
  have hwithin : ∀ w ∈ mirroredWrites, w.Within 3 2 := by decide
  obtain ⟨s, hs, hresidual, hjacobian, hsegment⟩ := keeps_writes 3 2 mirroredWrites hwithin
  refine ⟨hwithin, s, hs, ?_, ?_, ?_, ?_⟩
  · rw [(hresidual (2, 1) (by decide)).2]
    decide +kernel
  · rw [(hsegment 2 (by decide)).2.1]
    decide +kernel
  · rw [(hjacobian (1, 0) (2, 1) (by decide) (by decide)).2]
    decide +kernel
  · rw [(hjacobian (2, 1) (1, 0) (by decide) (by decide)).2]
    decide +kernel

end BlockSystem

end ReservoirWells
