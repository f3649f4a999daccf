import Mathlib.Data.Finset.Prod
import Mathlib.Data.Finset.Range
import ReservoirWells.Proofs.Segment.Derivatives
import ReservoirWells.Proofs.Segment.Rows

/-! # Iterations — the linear system of a Newton iteration

    An iteration sets all unknowns, empties the system, computes the profile and assembles the
    pressure equations and the control equation.  When all of this goes through, every row of the
    pressure holds one term: its value, and its derivative with respect to every unknown of the well.

    * `BlockSystem.HoldsTerm` — a row that holds a term and its derivatives;
    * `SegmentedWell.pressureEquationsOf_row` — among many segments, a segment gets the row that its
      own equation writes;
    * `SegmentedWell.holdsTerm_controlEquation` — the row of the control equation;
    * `SegmentedWell.linearize` — an iteration, from any state that a well can come to
      (`SegmentedWell.Reached`);
    * `SegmentedWell.exists_linearize` — it goes through, and its rows hold what they should
      (`SegmentedWell.Linearized`). -/

namespace ReservoirWells

variable {α : Type}

/-! ## Rows that hold a term -/

/-- The segment and the place of each unknown. -/
def addresses (m n : Nat) : Finset (Nat × Nat) := Finset.range m ×ˢ Finset.range n

theorem mem_addresses {m n : Nat} {k : Nat × Nat} : k ∈ addresses m n ↔ k.1 < m ∧ k.2 < n := by
  rw [addresses, Finset.mem_product, Finset.mem_range, Finset.mem_range]

namespace BlockSystem

/-- A row that holds a term and its derivative with respect to every unknown. -/
structure HoldsTerm [Scalar α] (m n r e : Nat) (f : Nat × Nat → Dual α) (s : BlockSystem α) :
    Prop where
  value : ∀ k ∈ addresses m n, s.residual r e = (f k).re
  derivative : ∀ k ∈ addresses m n, s.jacobian r e k.1 k.2 = (f k).eps

variable {m n r e : Nat} {f : Nat × Nat → Dual α} {s s' : BlockSystem α}

theorem HoldsTerm.congr [Scalar α] (h : HoldsTerm m n r e f s) (hsame : SameRow m n r e s' s) :
    HoldsTerm m n r e f s' where
  value := fun k hk => hsame.residual.trans (h.value k hk)
  derivative := by
    intro k hk
    obtain ⟨hc, hv⟩ := mem_addresses.mp hk
    exact (hsame.jacobian k.1 k.2 hc hv).trans (h.derivative k hk)

end BlockSystem

namespace Unknowns

/-- The place that is seeded in segment `i` for an unknown of the well. In all other segments it lies
    outside the layout. -/
def seedFor (l : Layout) (i : Nat) (k : Nat × Nat) : Nat := if i = k.1 then k.2 else l.size

theorem eps_seeded [ExactScalar α] (u : Unknowns α) {l : Layout} {i slot : Nat}
    (hslot : slot < l.size) (k : Nat × Nat) :
    (u.seeded i (seedFor l i k) slot).eps = if i = k.1 ∧ slot = k.2 then 1 else 0 := by
  show (if slot == seedFor l i k then 1 else 0 : α) = _
  simp only [beq_iff_eq, seedFor]
  by_cases hi : i = k.1
  · simp only [hi, if_true, true_and]
  · simp only [hi, if_false, false_and, hslot.ne]

end Unknowns

namespace SegmentedWell

open BlockSystem

/-! ## Many segments -/

section Segments

variable [Scalar α] {w : SegmentedWell α} {seg r : Nat} {x y z : Assembly α}

theorem SameAt.refl (w : SegmentedWell α) (seg : Nat) (x : Assembly α) : w.SameAt seg x x :=
  ⟨⟨rfl, fun _ _ _ _ => rfl⟩, rfl⟩

theorem SameAt.trans (h : w.SameAt seg x y) (h' : w.SameAt seg y z) : w.SameAt seg x z :=
  ⟨h.row.trans h'.row, h.drop.trans h'.drop⟩

theorem OnlyAt.fits (h : w.OnlyAt seg x y) (hx : w.Fits x) : w.Fits y :=
  ⟨h.row.sized, h.length_drops.trans hx.length_drops⟩

/-- Other segments have what they had. -/
theorem OnlyAt.sameAt (h : w.OnlyAt seg x y) (hne : seg ≠ r) : w.SameAt r y x :=
  ⟨h.row.sameRow w.layout.pressureSlot_lt_size fun hrow => hne hrow.1, h.drop r hne⟩

variable [Transcendental α] (hown : ∀ seg, w.OwnRow seg (w.pressureEquation seg))

include hown

/-- A segment that is not assembled has what it had. -/
theorem pressureEquationsOf_sameAt {order : List Nat} (hseg : seg ∉ order) :
    ∀ {x}, w.Fits x → w.SameAt seg (w.pressureEquationsOf order x).1 x := by
  induction order with
  | nil => intro x _; exact .refl w seg x
  | cons first rest ih =>
      intro x hx
      have hne : seg ≠ first := List.ne_of_not_mem_cons hseg
      have hrest : seg ∉ rest := List.not_mem_of_not_mem_cons hseg
      rw [pressureEquationsOf]
      cases hy : w.pressureEquation first x with
      | error e => exact .refl w seg x
      | ok y =>
          have honly := (hown first).only hx hy
          exact (ih hrest (honly.fits hx)).trans (honly.sameAt (Ne.symm hne))

/-- A segment that is assembled once among others has what its own equation writes. -/
theorem pressureEquationsOf_row {order : List Nat} (hnodup : order.Nodup)
    (hgoes : ∀ seg ∈ order, w.Assembles seg) (hseg : seg ∈ order) :
    ∀ {x}, w.Fits x → ∃ y, w.pressureEquation seg x = .ok y ∧
      w.SameAt seg (w.pressureEquationsOf order x).1 y := by
  induction order with
  | nil => cases hseg
  | cons first rest ih =>
      intro x hx
      obtain ⟨hfirst, hnodup⟩ := List.nodup_cons.mp hnodup
      obtain ⟨⟨_, _, _, hwrites⟩, hgoes⟩ := List.forall_mem_cons.mp hgoes
      have hy := hwrites x hx
      have honly := (hown first).only hx hy
      rw [pressureEquationsOf, hy]
      rcases List.mem_cons.mp hseg with rfl | hseg
      · exact ⟨_, hy, pressureEquationsOf_sameAt hown hfirst (honly.fits hx)⟩
      · -- the equation reads its own row only, and the first segment left it alone
        obtain ⟨z, hz, hsame⟩ := ih hnodup hgoes hseg (honly.fits hx)
        have hbefore := honly.sameAt fun heq => hfirst (heq ▸ hseg)
        obtain ⟨z', hz', hsame'⟩ := ((hown seg).reads (honly.fits hx) hx hbefore).2 z hz
        exact ⟨z', hz', hsame.trans hsame'⟩

end Segments

end SegmentedWell

/-! ## The row of the control equation -/

namespace ControlTarget

variable [Scalar α]

/-- The place of the unknown that the control equation is about. -/
def slot (l : Layout) : ControlTarget α → Nat
  | .pressure _ => l.pressureSlot
  | .rate _ => Layout.rateSlot
  | .stopped => Layout.rateSlot

/-- What that unknown is to be. -/
def amount : ControlTarget α → α
  | .pressure target => target
  | .rate target => target
  | .stopped => 0

omit [Scalar α] in
theorem slot_lt_size (l : Layout) (target : ControlTarget α) : target.slot l < l.size := by
  cases target with
  | pressure _ => exact l.pressureSlot_lt_size
  | rate _ => exact l.rateSlot_lt_size
  | stopped => exact l.rateSlot_lt_size

end ControlTarget

namespace SegmentedWell

open BlockSystem

section Control

variable [ExactScalar α] {w : SegmentedWell α}

/-- The unknown of the top segment that is controlled, less what it is to be. -/
def controlTerm (w : SegmentedWell α) (target : ControlTarget α) (k : Nat × Nat) : Dual α :=
  w.unknowns.seeded 0 (Unknowns.seedFor w.layout 0 k) (target.slot w.layout)
    - Dual.const target.amount

/-- The control equations differ in the unknown and in what it is to be, and in nothing else. -/
theorem system_controlEquation (w : SegmentedWell α) (target : ControlTarget α) :
    (w.controlEquation target).system
      = (w.system.setResidual 0 w.layout.pressureSlot
          (w.unknowns.value 0 (target.slot w.layout) - target.amount)).setJacobian 0
            w.layout.pressureSlot 0 (target.slot w.layout) 1 := by
  cases target with
  | pressure _ => rfl
  | rate _ => rfl
  | stopped =>
      rw [ControlTarget.amount, sub_zero]
      rfl

variable (hs : w.system.Sized w.tree.size w.layout.size) (hsize : 0 < w.tree.size)
  (target : ControlTarget α)

include hs hsize

theorem onlyRow_controlEquation :
    OnlyRow w.tree.size w.layout.size 0 w.layout.pressureSlot [0] w.system
      (w.controlEquation target).system := by
  rw [system_controlEquation]
  have hslot := w.layout.pressureSlot_lt_size
  exact ((RewritesRow.modifyResidual hsize hslot _).comp (.modifyJacobian hsize hslot hsize
    (target.slot_lt_size w.layout) (List.mem_singleton.mpr rfl) _)).only hs

/-- An empty row holds the control equation afterwards. -/
theorem holdsTerm_controlEquation
    (hempty : ∀ c < w.tree.size, ∀ v < w.layout.size,
      w.system.jacobian 0 w.layout.pressureSlot c v = 0) :
    HoldsTerm w.tree.size w.layout.size 0 w.layout.pressureSlot (w.controlTerm target)
      (w.controlEquation target).system := by
  have hslot := w.layout.pressureSlot_lt_size
  have htarget := target.slot_lt_size w.layout
  rw [system_controlEquation]
  constructor
  · intro k _
    rw [setJacobian, residual_modifyJacobian, setResidual,
      residual_modifyResidual hs hsize hslot hslot, if_pos ⟨rfl, rfl⟩]
    rfl
  · intro k hk
    obtain ⟨hc, hv⟩ := mem_addresses.mp hk
    rw [setJacobian, jacobian_modifyJacobian (hs.setResidual ..) hsize hslot hsize htarget hslot hc
      hv, setResidual, jacobian_modifyResidual, hempty _ hc _ hv, controlTerm, Dual.eps_sub,
      Dual.eps_const, sub_zero, w.unknowns.eps_seeded htarget]
    simp only [and_self, true_and]

end Control

end SegmentedWell

/-! ## Any values of the unknowns -/

namespace Unknowns

/-- A row for each segment with given values. -/
def rowsOf (m n : Nat) (values : Nat → Nat → α) : List (List α) :=
  (List.range m).map fun i => (List.range n).map (values i)

theorem length_rowsOf (m n : Nat) (values : Nat → Nat → α) : (rowsOf m n values).length = m := by
  rw [rowsOf, List.length_map, List.length_range]

theorem length_of_mem_rowsOf {m n : Nat} {values : Nat → Nat → α} {row : List α}
    (h : row ∈ rowsOf m n values) : row.length = n := by
  obtain ⟨i, _, rfl⟩ := List.mem_map.mp h
  rw [List.length_map, List.length_range]

/-- The values can be read back. -/
theorem value_rowsOf [Scalar α] {l : Layout} {m i slot : Nat} (values : Nat → Nat → α) (hi : i < m)
    (hslot : slot < l.size) :
    (Unknowns.mk l (rowsOf m l.size values)).value i slot = values i slot := by
  show (((rowsOf m l.size values)[i]?).bind (·[slot]?)).getD 0 = _
  rw [rowsOf, List.getElem?_map, List.getElem?_range hi, Option.map_some, Option.bind_some,
    List.getElem?_map, List.getElem?_range hslot]
  rfl

variable {u u' : Unknowns α}

/-- There are as many segments as before. -/
theorem length_of_setRows? {rows : List (List α)} {first : Nat}
    (h : u.setRows? first rows = some u') : u'.rows.length = u.rows.length := by
  induction rows generalizing u first with
  | nil =>
      cases h
      rfl
  | cons row rest ih =>
      rw [setRows?, Option.bind_eq_some_iff] at h
      obtain ⟨between, hrow, hrest⟩ := h
      rw [setRow?] at hrow
      split at hrow
      · cases hrow
        rw [ih hrest, List.length_set]
      · cases hrow

/-- Rows that fit replace all rows from the first on. -/
theorem setRows?_of_fits {rows : List (List α)} {first : Nat}
    (hlength : first + rows.length = u.rows.length)
    (hrows : ∀ row ∈ rows, row.length = u.layout.size) :
    u.setRows? first rows = some { u with rows := u.rows.take first ++ rows } := by
  induction rows generalizing u first with
  | nil =>
      rw [List.length_nil, Nat.add_zero] at hlength
      rw [setRows?, List.append_nil, hlength, List.take_length]
  | cons row rest ih =>
      obtain ⟨hrow, hrest⟩ := List.forall_mem_cons.mp hrows
      rw [List.length_cons] at hlength
      have hfirst : first < u.rows.length := by omega
      have hedited : first + 1 + rest.length = (u.rows.set first row).length := by
        rw [List.length_set]
        omega
      have htake : (u.rows.set first row).take (first + 1) = u.rows.take first ++ [row] := by
        rw [List.take_succ_eq_append_getElem (by rwa [List.length_set]), List.getElem_set_self,
          List.take_set_of_le (Nat.le_refl first)]
      have hfits : (first < u.rows.length && row.length == u.layout.size) = true := by
        rw [decide_eq_true hfirst, hrow, beq_self_eq_true, Bool.and_self]
      rw [setRows?, setRow?, if_pos hfits, Option.bind_some,
        @ih { u with rows := u.rows.set first row } (first + 1) hedited hrest, htake,
        List.append_assoc]
      rfl

end Unknowns

namespace SegmentedWell

section Reached

variable [Scalar α] [Transcendental α]

/-- The states that a well and its record can come to: from a new well and a record with a drop for
    every segment, by any calls and by control equations. -/
inductive Reached (tree : SegmentTree α) (phases : ActivePhases) (settings : Settings α) :
    SegmentedWell α × WellRecord α → Prop
  | start (name : String) {record : WellRecord α} (h : record.drops.length = tree.size) :
    Reached tree phases settings (make name tree phases settings, record)
  | call {x : SegmentedWell α × WellRecord α} (h : Reached tree phases settings x)
    (c : WellCall α) : Reached tree phases settings (c.run x)
  | control {x : SegmentedWell α × WellRecord α} (h : Reached tree phases settings x)
    (target : ControlTarget α) : Reached tree phases settings (x.1.controlEquation target, x.2)

/-- An iteration up to its linear system: other values of all unknowns, an empty system, the profile,
    the pressure equations of all segments and the control equation. Nothing when one of them
    fails. -/
def linearize (x : SegmentedWell α × WellRecord α) (fluid : Fluid α) (target : ControlTarget α)
    (values : Nat → Nat → α) : Option (SegmentedWell α × WellRecord α) := do
  let w ← x.1.setUnknowns 0 (Unknowns.rowsOf x.1.tree.size x.1.layout.size values)
  let w ← (compute { w with system := w.system.clear } fluid).toOption
  let (y, done) := w.assembleAll x.2
  done.toOption
  return (y.1.controlEquation target, y.2)

end Reached

section Linearized

variable [ExactScalar α] [Transcendental α] {tree : SegmentTree α} {phases : ActivePhases}
  {settings : Settings α} {x : SegmentedWell α × WellRecord α}

theorem rows_length_run {m : Nat} (c : WellCall α) (h : x.1.unknowns.rows.length = m) :
    (c.run x).1.unknowns.rows.length = m := by
  cases c with
  | edit first rows =>
      show ((x.1.setUnknowns first rows).getD x.1).unknowns.rows.length = m
      rw [setUnknowns]
      cases hrows : x.1.unknowns.setRows? first rows with
      | none => exact h
      | some u => exact (Unknowns.length_of_setRows? hrows).trans h
  | compute fluid =>
      rw [WellCall.run, SegmentedWell.compute]
      cases Profile.compute x.1.tree x.1.unknowns fluid <;> exact h
  | clear => exact h
  | assemble => exact h

/-- All along there is a row of unknowns for each segment, besides all that is sound. -/
theorem Reached.sound (h : Reached tree phases settings x) :
    Sound tree phases settings x ∧ x.1.unknowns.rows.length = tree.size := by
  induction h with
  | start name h => exact ⟨sound_make name h, List.length_replicate⟩
  | call _ c ih => exact ⟨ih.1.run c, rows_length_run c ih.2⟩
  | control _ target ih =>
      obtain ⟨hsound, hrows⟩ := ih
      refine ⟨⟨hsound.tree_eq, hsound.layout_eq, hsound.settings_eq, hsound.profile_isOf, ?_,
        hsound.drops_length⟩, hrows⟩
      rw [system_controlEquation]
      exact (hsound.system_sized.setResidual ..).modifyJacobian ..

end Linearized

/-! ## The linear system of an iteration -/

section System

open BlockSystem

variable [ExactScalar α] [Transcendental α]

/-- A well with the linear system of an iteration: each row for which there is an equation holds the
    equation's term and its derivatives, and the mass balances are empty. -/
structure Linearized (fluid : Fluid α) (target : ControlTarget α) (w : SegmentedWell α) : Prop where
  sized : w.system.Sized w.tree.size w.layout.size
  mass_rows : ∀ r e c v, e < w.layout.size → e ≠ w.layout.pressureSlot → c < w.tree.size →
    v < w.layout.size → w.system.jacobian r e c v = 0
  control_row : HoldsTerm w.tree.size w.layout.size 0 w.layout.pressureSlot (w.controlTerm target)
    w.system
  pressure_rows : ∀ {seg segment outlet}, w.belowTop seg = .ok (segment, outlet) →
    HoldsTerm w.tree.size w.layout.size seg w.layout.pressureSlot (fun k =>
      w.wholeResidual segment seg outlet (soloStates w.tree w.unknowns fluid k.1 k.2)) w.system

/-- The row of a segment holds the whole residual where the entries are its derivatives. -/
theorem RowOf.holdsTerm {w : SegmentedWell α} {fluid : Fluid α} {segment : Segment α}
    {seg outlet : Nat} {s : BlockSystem α} (h : RowOf w fluid segment seg outlet s) :
    HoldsTerm w.tree.size w.layout.size seg w.layout.pressureSlot (fun k =>
      w.wholeResidual segment seg outlet (soloStates w.tree w.unknowns fluid k.1 k.2)) s where
  value := fun k hk => h.value k.1 (mem_addresses.mp hk).1 k.2 (mem_addresses.mp hk).2
  derivative := fun k hk => h.derivative k.1 (mem_addresses.mp hk).1 k.2 (mem_addresses.mp hk).2

variable {w : SegmentedWell α} {q : Profile α} {fluid : Fluid α} {x : Assembly α} {seg : Nat}
  (hwell : w.tree.WellFormed)
  (hopen : ∀ segment ∈ w.tree.segments, segment.device.isShut = false)
  (hof : q.IsOf w.tree w.unknowns fluid) (hq : w.profile = some q) (hx : w.Fits x)

include hwell hof hq in
/-- Every segment has a row of its own. -/
theorem ownRow_of_isOf : ∀ seg, w.OwnRow seg (w.pressureEquation seg) := by
  refine fun seg => ownRow_pressureEquation hwell fun q' hq' => ?_
  cases hq.symm.trans hq'
  exact hof.slots_length

include hopen hof hq hx

/-- The equation of an open segment can be assembled. -/
theorem pressureEquation_of_fits {outlet : Nat} {segment : Segment α}
    (hbelow : w.belowTop seg = .ok (segment, outlet)) :
    w.pressureEquation seg x = .ok ⟨w.openSystem q segment seg outlet x.system,
      x.drops.modify seg (w.openDrop q segment seg)⟩ := by
  obtain ⟨hsegment, _⟩ := belowTop_eq_ok.mp hbelow
  have hseg := SegmentTree.lt_size_of_segment? hsegment
  rw [pressureEquation_open hbelow (hopen segment (List.mem_of_getElem? hsegment))
    (current_eq_ok.mpr hq) hof.slots_pos]
  exact Assembly.recordDrop_of_lt (hx.lt_drops hseg) _ _

include hwell

/-- So those of all segments can. -/
theorem assembles_of_fits (hseg : seg ∈ List.range' 1 (w.tree.size - 1)) : w.Assembles seg := by
  obtain ⟨hpos, hlt⟩ := List.mem_range'_1.mp hseg
  obtain ⟨r, hr⟩ := SegmentTree.exists_reach (t := w.tree) hpos (by omega)
  have hbelow : w.belowTop seg = .ok (r.segment, r.outlet) := belowTop_eq_ok.mpr
    ⟨SegmentTree.segment?_of_reach? hr, SegmentTree.outlet?_eq_some.mpr ⟨r, hr, rfl⟩⟩
  exact (ownRow_of_isOf hwell hof hq seg).assembles hx
    (pressureEquation_of_fits hopen hof hq hx hbelow)

/-- In an empty system each of them gets its row. -/
theorem holdsTerm_pressureEquations (hempty : ∀ r e c v, x.system.jacobian r e c v = 0)
    {outlet : Nat} {segment : Segment α} (hbelow : w.belowTop seg = .ok (segment, outlet)) :
    HoldsTerm w.tree.size w.layout.size seg w.layout.pressureSlot (fun k =>
      w.wholeResidual segment seg outlet (soloStates w.tree w.unknowns fluid k.1 k.2))
      (w.pressureEquations x).1.system := by
  obtain ⟨hsegment, houtlet⟩ := belowTop_eq_ok.mp hbelow
  have hlt := SegmentTree.lt_size_of_segment? hsegment
  have hpos : seg ≠ 0 := by
    rintro rfl
    cases houtlet
  have hmem : seg ∈ List.range' 1 (w.tree.size - 1) := List.mem_range'_1.mpr (by omega)
  obtain ⟨y, hy, hsame⟩ := pressureEquationsOf_row (ownRow_of_isOf hwell hof hq)
    List.nodup_range' (fun _ => assembles_of_fits hwell hopen hof hq hx) hmem hx
  rw [pressureEquation_of_fits hopen hof hq hx hbelow] at hy
  cases hy
  have hrow : RowOf w fluid segment seg outlet (w.openSystem q segment seg outlet x.system) :=
    rowOf_openSystem hwell hof houtlet hx.sized fun c v => hempty seg w.layout.pressureSlot c v
  exact hrow.holdsTerm.congr hsame.row

/-- Where nothing is shut and the profile is up to date, all equations can be assembled, and they and
    the control equation make the linear system of an empty one. -/
theorem linearized_of_fits (hempty : ∀ r e c v, x.system.jacobian r e c v = 0)
    (target : ControlTarget α) : (w.pressureEquations x).2 = .ok () ∧
      Linearized fluid target
        ({ w with system := (w.pressureEquations x).1.system }.controlEquation target) := by
  have hslot := w.layout.pressureSlot_lt_size
  have hsize : 0 < w.tree.size := Nat.succ_pos _
  have hown := ownRow_of_isOf hwell hof hq
  refine ⟨pressureEquationsOf_ok _ (fun _ => assembles_of_fits hwell hopen hof hq hx) hx, ?_⟩
  have hfits : w.Fits (w.pressureEquations x).1 := pressureEquationsOf_induction
    (fun seg a b hab ha => ((hown seg).only ha hab).fits ha) _ hx
  have hcontrol := onlyRow_controlEquation
    (w := { w with system := (w.pressureEquations x).1.system }) hfits.sized hsize target
  -- the equations leave the mass balances and the top segment alone
  have huntouched : ∀ {r e}, e < w.layout.size → r = 0 ∨ e ≠ w.layout.pressureSlot →
      ∀ c < w.tree.size, ∀ v < w.layout.size,
        (w.pressureEquations x).1.system.jacobian r e c v = 0 := by
    intro r e he hrow c hc v hv
    rw [← hempty r e c v]
    exact (pressureEquationsOf_untouched hown hx _ he hrow).jacobian c v hc hv
  refine ⟨hcontrol.sized, ?_, ?_, ?_⟩
  · intro r e c v he hne hc hv
    rw [(hcontrol.sameRow he fun hrow => hne hrow.2.symm).jacobian c v hc hv]
    exact huntouched he (.inr hne) c hc v hv
  · exact holdsTerm_controlEquation (w := { w with system := (w.pressureEquations x).1.system })
      hfits.sized hsize target (huntouched hslot (.inl rfl))
  · intro seg segment outlet hbelow
    have hpos : seg ≠ 0 := by
      rintro rfl
      cases (belowTop_eq_ok.mp hbelow).2
    exact (holdsTerm_pressureEquations hwell hopen hof hq hx hempty hbelow).congr
      (hcontrol.sameRow hslot fun hrow => hpos hrow.1.symm)

end System

/-! ## Iterations -/

section Iterations

variable [ExactScalar α] [Transcendental α] {tree : SegmentTree α} {phases : ActivePhases}
  {settings : Settings α} {x y : SegmentedWell α × WellRecord α}

/-- An iteration goes through when each of its steps does. -/
theorem linearize_eq_some {fluid : Fluid α} {target : ControlTarget α}
    {values : Nat → Nat → α} : linearize x fluid target values = some y ↔ ∃ w w',
      x.1.setUnknowns 0 (Unknowns.rowsOf x.1.tree.size x.1.layout.size values) = some w ∧
      compute { w with system := w.system.clear } fluid = .ok w' ∧
      (w'.assembleAll x.2).2 = .ok () ∧
      ((w'.assembleAll x.2).1.1.controlEquation target, (w'.assembleAll x.2).1.2) = y := by
  constructor
  · intro h
    obtain ⟨w, hset, hrest⟩ := Option.bind_eq_some_iff.mp h
    obtain ⟨w', hcompute, hrest⟩ := Option.bind_eq_some_iff.mp hrest
    obtain ⟨_, hdone, hy⟩ := Option.bind_eq_some_iff.mp hrest
    exact ⟨w, w', hset, toOption_eq_some.mp hcompute, toOption_eq_some.mp hdone,
      Option.some.inj hy⟩
  · rintro ⟨w, w', hset, hcompute, hdone, hy⟩
    exact Option.bind_eq_some_iff.mpr ⟨w, hset, Option.bind_eq_some_iff.mpr ⟨w',
      toOption_eq_some.mpr hcompute, Option.bind_eq_some_iff.mpr ⟨(),
        toOption_eq_some.mpr hdone, congrArg some hy⟩⟩⟩

/-- Another iteration can follow. -/
theorem Reached.linearize {fluid : Fluid α} {target : ControlTarget α} {values : Nat → Nat → α}
    (hx : Reached tree phases settings x)
    (hy : SegmentedWell.linearize x fluid target values = some y) :
    Reached tree phases settings y := by
  obtain ⟨w, w', hset, hcompute, _, rfl⟩ := linearize_eq_some.mp hy
  have hedited := hx.call (.edit 0 (Unknowns.rowsOf x.1.tree.size x.1.layout.size values))
  rw [WellCall.run, hset, Option.getD_some] at hedited
  have hcomputed := (hedited.call .clear).call (.compute fluid)
  simp only [WellCall.run, hcompute] at hcomputed
  exact (hcomputed.call .assemble).control target

/-- An iteration goes through when nothing is shut and the profile can be computed. -/
theorem exists_linearize (hx : Reached tree phases settings x) (hwell : tree.WellFormed)
    (hopen : ∀ segment ∈ tree.segments, segment.device.isShut = false) {fluid : Fluid α}
    {values : Nat → Nat → α} {u : Unknowns α}
    (hu : u = ⟨⟨phases⟩, Unknowns.rowsOf tree.size (Layout.mk phases).size values⟩)
    {q : Profile α} (hq : Profile.compute tree u fluid = .ok q) (target : ControlTarget α) :
    ∃ y, SegmentedWell.linearize x fluid target values = some y ∧ y.1.tree = tree ∧
      y.1.unknowns = u ∧ y.1.settings = settings ∧ Linearized fluid target y.1 := by
  obtain ⟨hsound, hrows⟩ := hx.sound
  obtain rfl : x.1.tree = tree := hsound.tree_eq
  obtain rfl : x.1.settings = settings := hsound.settings_eq
  have hlayout : x.1.unknowns.layout = ⟨phases⟩ := hsound.layout_eq
  have hset : x.1.setUnknowns 0 (Unknowns.rowsOf x.1.tree.size x.1.layout.size values)
      = some { x.1 with unknowns := u, profile := none } := by
    rw [setUnknowns, layout, Unknowns.setRows?_of_fits
      (by rw [Nat.zero_add, Unknowns.length_rowsOf, hrows])
      fun row hrow => Unknowns.length_of_mem_rowsOf hrow, hu, ← hlayout]
    rfl
  obtain ⟨w, hw⟩ : ∃ w : SegmentedWell α,
      w = { x.1 with unknowns := u, profile := some q, system := x.1.system.clear } := ⟨_, rfl⟩
  have hcompute : compute { x.1 with
      unknowns := u, profile := none, system := x.1.system.clear } fluid = .ok w := by
    rw [compute, hq, hw]
  have hsystem : w.system = x.1.system.clear := by rw [hw]
  have htree : w.tree = x.1.tree := by rw [hw]
  have hunknowns : w.unknowns = u := by rw [hw]
  have hfits : w.Fits ⟨w.system, x.2.drops⟩ := by
    refine ⟨?_, hsound.drops_length.trans (congrArg _ htree.symm)⟩
    have hsized := hsound.system_sized.clear
    rw [hsystem, htree, layout, hunknowns, hu]
    rwa [layout, hlayout] at hsized
  obtain ⟨hdone, hlinearized⟩ := linearized_of_fits (htree ▸ hwell) (htree ▸ hopen)
    (by rw [htree, hunknowns]; exact Profile.isOf_of_compute hq) (by rw [hw]) hfits
    (fun r e c v => by rw [hsystem, BlockSystem.jacobian_clear]) target
  exact ⟨_, linearize_eq_some.mpr ⟨_, w, hset, hcompute, hdone, rfl⟩, htree, hunknowns,
    by rw [hw]; rfl, hlinearized⟩

end Iterations

end SegmentedWell

end ReservoirWells
