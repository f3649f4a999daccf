import ReservoirWells.Proofs.Segment.Equations

/-! # Runs — what a caller does with a well between assemblies

    In every Newton iteration the unknowns are edited, the profile is computed, the system is
    cleared and the pressure equations are assembled.  Nothing forces this order: a run is any list
    of these calls, and a call that fails leaves behind what it had done.

    * `WellCall.run`, `WellCall.runAll` — the well and its record after one call and after several;
    * `SegmentedWell.Written` — everything that the equation of a segment can write;
    * `SegmentedWell.written_of_pressureEquation` — and it writes that, at its own place;
    * `SegmentedWell.Sound` — what holds of a well and its record all along a run
      (`Sound.runAll`): a profile that the well has is that of its present unknowns. -/

namespace ReservoirWells

variable {α : Type}

/-- The calls of an iteration. -/
inductive WellCall (α : Type)
  /-- Other unknowns from a segment on. -/
  | edit (first : Nat) (rows : List (List α))
  | compute (fluid : Fluid α)
  | clear
  | assemble

namespace WellCall

variable [Scalar α] [Transcendental α]

/-- What becomes of a well and its record. -/
def run (x : SegmentedWell α × WellRecord α) : WellCall α → SegmentedWell α × WellRecord α
  | edit first rows => ((x.1.setUnknowns first rows).getD x.1, x.2)
  | compute fluid =>
    match x.1.compute fluid with
    | .ok w => (w, x.2)
    | .error _ => x
  | clear => ({ x.1 with system := x.1.system.clear }, x.2)
  | assemble => (x.1.assembleAll x.2).1

/-- The same for a list of calls, whether or not they went through. -/
def runAll (x : SegmentedWell α × WellRecord α) (calls : List (WellCall α)) :
    SegmentedWell α × WellRecord α :=
  calls.foldl run x

/-- Whatever every call preserves holds all along a run. -/
theorem runAll_induction {P : SegmentedWell α × WellRecord α → Prop}
    (hrun : ∀ x c, P x → P (run x c)) (calls : List (WellCall α)) :
    ∀ {x : SegmentedWell α × WellRecord α}, P x → P (runAll x calls) := by
  induction calls with
  | nil => intro x hx; exact hx
  | cons c rest ih => intro x hx; exact ih (hrun x c hx)

end WellCall

/-- Rows of unknowns have no say in the layout. -/
theorem Unknowns.layout_of_setRows? [Scalar α] {u u' : Unknowns α} {rows : List (List α)}
    {first : Nat} (h : u.setRows? first rows = some u') : u'.layout = u.layout := by
  induction rows generalizing u first with
  | nil =>
      rw [setRows?] at h
      cases h
      rfl
  | cons row rest ih =>
      rw [setRows?, Option.bind_eq_some_iff] at h
      obtain ⟨between, hrow, hrest⟩ := h
      rw [ih hrest]
      rw [setRow?] at hrow
      split at hrow
      · cases hrow
        rfl
      · cases hrow

namespace SegmentedWell

/-! ## What an equation writes -/

section Written

variable [ExactScalar α] [Transcendental α] {w : SegmentedWell α}

/-- The system after the equation of a shut valve. -/
def shutSystem (w : SegmentedWell α) (seg : Nat) (s : BlockSystem α) : BlockSystem α :=
  (s.setResidual seg w.layout.pressureSlot (w.unknowns.totalRate seg)).setJacobian seg
    w.layout.pressureSlot seg Layout.rateSlot 1

/-- The system that the equation of a segment leaves behind, and how it changes the drops of the
    segment. -/
inductive Written (w : SegmentedWell α) (segment : Segment α) (seg outlet : Nat)
    (s : BlockSystem α) : BlockSystem α → (Drop α → Drop α) → Prop
  | shut (hshut : segment.device.isShut = true) :
    Written w segment seg outlet s (w.shutSystem seg s) fun d => { d with friction := 0 }
  | flowing (q : Profile α) (hopen : segment.device.isShut = false) (hq : w.profile = some q) :
    Written w segment seg outlet s (w.openSystem q segment seg outlet s) (w.openDrop q segment seg)

/-- A profile of the present unknowns has a place for each of them. -/
theorem slots_pos_of_isOf
    (hprofile : ∀ q, w.profile = some q → ∃ fluid, q.IsOf w.tree w.unknowns fluid) :
    ∀ q, w.profile = some q → 0 < q.slots.length := by
  intro q hq
  obtain ⟨fluid, hof⟩ := hprofile q hq
  exact hof.slots_pos

/-- Without a profile only shut valves have an equation. -/
theorem pressureEquation_stale {segment : Segment α} {seg outlet : Nat}
    (hbelow : w.belowTop seg = .ok (segment, outlet)) (hopen : segment.device.isShut = false)
    (hq : w.profile = none) (x : Assembly α) :
    w.pressureEquation seg x = .error .staleProfile := by
  have hcurrent : w.current = .error .staleProfile := by rw [current, hq]
  cases hdevice : segment.device.controlsInflow with
  | true =>
      simp only [pressureEquation, deviceEquation, hbelow, bind, Except.bind, hdevice, hopen,
        hcurrent, if_true, Bool.not_true, Bool.false_eq_true, if_false]
  | false =>
      simp only [pressureEquation, pipeEquation, hbelow, bind, Except.bind, hdevice, hcurrent,
        Bool.false_eq_true, if_false]

/-- An equation that is assembled belongs to a segment below the top, and touches the system and the
    drops of that segment. -/
theorem written_of_pressureEquation (hslots : ∀ q, w.profile = some q → 0 < q.slots.length)
    {seg : Nat} {x y : Assembly α} (h : w.pressureEquation seg x = .ok y) :
    ∃ segment outlet system record, w.tree.segment? seg = some segment ∧
      w.tree.outlet? seg = some outlet ∧
      Written w segment seg outlet x.system system record ∧ seg < x.drops.length ∧
      y = ⟨system, x.drops.modify seg record⟩ := by
  obtain ⟨⟨segment, outlet⟩, hbelow, _⟩ := bind_eq_ok.mp h
  obtain ⟨hsegment, houtlet⟩ := belowTop_eq_ok.mp hbelow
  refine ⟨segment, outlet, ?_⟩
  cases hshut : segment.device.isShut with
  | true =>
      rw [pressureEquation_shut hbelow hshut] at h
      obtain ⟨hlt, rfl⟩ := recordDrop_eq_ok.mp h
      exact ⟨_, _, hsegment, houtlet, .shut hshut, hlt, rfl⟩
  | false =>
      cases hq : w.profile with
      | none =>
          rw [pressureEquation_stale hbelow hshut hq] at h
          cases h
      | some q =>
          rw [pressureEquation_open hbelow hshut (current_eq_ok.mpr hq) (hslots q hq)] at h
          obtain ⟨hlt, rfl⟩ := recordDrop_eq_ok.mp h
          exact ⟨_, _, hsegment, houtlet, .flowing q hshut hq, hlt, rfl⟩

variable {segment : Segment α} {seg outlet : Nat} {s system : BlockSystem α}
  {record : Drop α → Drop α}

theorem Written.sized (h : Written w segment seg outlet s system record)
    (hs : s.Sized w.tree.size w.layout.size) : system.Sized w.tree.size w.layout.size := by
  cases h with
  | shut => exact (hs.setResidual ..).modifyJacobian ..
  | flowing q => exact sized_openSystem hs

/-- No other residual changes. -/
theorem Written.residual_other (h : Written w segment seg outlet s system record)
    (hslots : ∀ q, w.profile = some q → 0 < q.slots.length)
    (hs : s.Sized w.tree.size w.layout.size) (hseg : seg < w.tree.size) {other eq : Nat}
    (heq : eq < w.layout.size) (hne : seg ≠ other) :
    system.residual other eq = s.residual other eq := by
  cases h with
  | shut =>
      rw [shutSystem, BlockSystem.setJacobian, BlockSystem.residual_modifyJacobian,
        BlockSystem.setResidual, BlockSystem.residual_modifyResidual hs hseg
          w.layout.pressureSlot_lt_size heq, if_neg fun h => hne h.1]
  | flowing q _ hq =>
      rw [residual_openSystem hs (hslots q hq) hseg heq, if_neg fun h => hne h.1]

end Written

/-! ## All along a run -/

section Induction

variable [Scalar α] [Transcendental α]

/-- Whatever the equations of some segments preserve is preserved when they are assembled in order,
    also when one of them fails. -/
theorem pressureEquationsOf_induction {w : SegmentedWell α} {P : Assembly α → Prop}
    (hstep : ∀ seg x y, w.pressureEquation seg x = .ok y → P x → P y) :
    ∀ (segs : List Nat) {x : Assembly α}, P x → P (w.pressureEquationsOf segs x).1 := by
  intro segs
  induction segs with
  | nil => intro x hx; exact hx
  | cons seg rest ih =>
      intro x hx
      rw [pressureEquationsOf]
      cases hseg : w.pressureEquation seg x with
      | error e => exact hx
      | ok y => exact ih (hstep seg x y hseg hx)

end Induction

section Sound

variable [ExactScalar α] [Transcendental α] {tree : SegmentTree α} {phases : ActivePhases}
  {settings : Settings α}

/-- The well has the tree, the layout and the settings that it was made with, its profile is up to
    date, and system and drops have a place for every segment. -/
structure Sound (tree : SegmentTree α) (phases : ActivePhases) (settings : Settings α)
    (x : SegmentedWell α × WellRecord α) : Prop where
  tree_eq : x.1.tree = tree
  layout_eq : x.1.layout = ⟨phases⟩
  settings_eq : x.1.settings = settings
  profile_isOf : ∀ q, x.1.profile = some q → ∃ fluid, q.IsOf x.1.tree x.1.unknowns fluid
  system_sized : x.1.system.Sized x.1.tree.size x.1.layout.size
  drops_length : x.2.drops.length = x.1.tree.size

variable {x : SegmentedWell α × WellRecord α}

/-- A well at rest, and a record with a drop for every segment. -/
theorem sound_make (name : String) {record : WellRecord α} (h : record.drops.length = tree.size) :
    Sound tree phases settings (make name tree phases settings, record) where
  tree_eq := rfl
  layout_eq := rfl
  settings_eq := rfl
  profile_isOf := by
    intro q hq
    cases hq
  system_sized := BlockSystem.sized_zero ..
  drops_length := h

theorem Sound.edit (h : Sound tree phases settings x) (first : Nat) (rows : List (List α)) :
    Sound tree phases settings (WellCall.run x (.edit first rows)) := by
  show Sound tree phases settings ((x.1.setUnknowns first rows).getD x.1, x.2)
  rw [setUnknowns]
  cases hrows : x.1.unknowns.setRows? first rows with
  | none => exact h
  | some u =>
      -- the new unknowns come without a profile, so no profile can be stale
      have hlayout : u.layout = x.1.layout := Unknowns.layout_of_setRows? hrows
      refine ⟨h.tree_eq, hlayout.trans h.layout_eq, h.settings_eq, ?_, ?_, h.drops_length⟩
      · intro q hq
        cases hq
      · show x.1.system.Sized x.1.tree.size u.layout.size
        rw [hlayout]
        exact h.system_sized

theorem Sound.compute (h : Sound tree phases settings x) (fluid : Fluid α) :
    Sound tree phases settings (WellCall.run x (.compute fluid)) := by
  show Sound tree phases settings
    (match x.1.compute fluid with | .ok w => (w, x.2) | .error _ => x)
  rw [SegmentedWell.compute]
  cases hq : Profile.compute x.1.tree x.1.unknowns fluid with
  | error e => exact h
  | ok q =>
      refine ⟨h.tree_eq, h.layout_eq, h.settings_eq, ?_, h.system_sized, h.drops_length⟩
      rintro q' ⟨⟩
      exact ⟨fluid, Profile.isOf_of_compute hq⟩

theorem Sound.clear (h : Sound tree phases settings x) :
    Sound tree phases settings (WellCall.run x .clear) :=
  ⟨h.tree_eq, h.layout_eq, h.settings_eq, h.profile_isOf, h.system_sized.clear, h.drops_length⟩

theorem Sound.assemble (h : Sound tree phases settings x) :
    Sound tree phases settings (WellCall.run x .assemble) := by
  -- the sizes are all that the equations could spoil
  have hstep : ∀ seg a b, x.1.pressureEquation seg a = .ok b →
      a.system.Sized x.1.tree.size x.1.layout.size ∧ a.drops.length = x.1.tree.size →
      b.system.Sized x.1.tree.size x.1.layout.size ∧ b.drops.length = x.1.tree.size := by
    rintro seg a b hab ⟨hs, hdrops⟩
    obtain ⟨segment, outlet, system, record, _, _, hwritten, _, rfl⟩ :=
      written_of_pressureEquation (slots_pos_of_isOf h.profile_isOf) hab
    exact ⟨hwritten.sized hs, (List.length_modify ..).trans hdrops⟩
  have hsizes := pressureEquationsOf_induction hstep (List.range' 1 (x.1.tree.size - 1))
    (x := ⟨x.1.system, x.2.drops⟩) ⟨h.system_sized, h.drops_length⟩
  exact ⟨h.tree_eq, h.layout_eq, h.settings_eq, h.profile_isOf, hsizes.1, hsizes.2⟩

theorem Sound.run (h : Sound tree phases settings x) (c : WellCall α) :
    Sound tree phases settings (WellCall.run x c) := by
  cases c with
  | edit first rows => exact h.edit first rows
  | compute fluid => exact h.compute fluid
  | clear => exact h.clear
  | assemble => exact h.assemble

theorem Sound.runAll (h : Sound tree phases settings x) (calls : List (WellCall α)) :
    Sound tree phases settings (WellCall.runAll x calls) :=
  WellCall.runAll_induction (fun _ c hx => hx.run c) calls h

end Sound

end SegmentedWell

/-! ## A well over rational numbers -/

/-- Powers with whole exponents. Exponentials and logarithms are not rational; constant properties
    and laminar flow do without them, and the values here stand for nothing. -/
instance instTranscendentalRat : Transcendental ℚ where
  pow := fun x y => x ^ y.num
  exp := fun _ => 1
  log10 := fun _ => 0
  ln10 := 1

namespace WellCall

/-- A fluid that is laminar in the side branch. -/
def brine : Fluid ℚ := .constant ⟨some ⟨1000, 1⟩, none, none⟩

/-- The well with the side branch, where friction and acceleration count, and a record for it. -/
def sideBranch : SegmentedWell ℚ × WellRecord ℚ :=
  (.make "B" SegmentTree.sideBranch ⟨true, false, false⟩ ⟨true, true, 10⟩, .producer 4 .wrat)

end WellCall

end ReservoirWells
