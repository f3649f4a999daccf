import Mathlib.Data.List.Perm.Basic
import ReservoirWells.Proofs.BlockSystem
import ReservoirWells.Proofs.Segment.Sessions

/-! # Rows — segments are assembled without getting in each other's way

    The rows of all segments lie in one flat system, where some entries are replaced and others are
    added to.  An equation has a row of its own all the same: it changes that row in the columns of
    the segment and its neighbours, and it reads no other.  So changes for different segments can be
    swapped, and the order of assembly does not matter, whatever the numbers are and however they
    are rounded.

    * `BlockSystem.OnlyRow`, `BlockSystem.SameRow` — what a change leaves alone, and what it reads;
    * `BlockSystem.RewritesRow` — a change of one row, closed under composition, and
      `BlockSystem.RewritesRow.comm` — two of them for different segments;
    * `SegmentedWell.OwnRow` — how assembling an equation can go, and
      `SegmentedWell.ownRow_pressureEquation`;
    * `SegmentedWell.pressureEquationsOf_perm` — a list of segments, in another order;
    * `Session.assembly_ownRow` — all of it in any session with a well. -/

namespace ReservoirWells

variable {α : Type}

/-- Every place is that of an address. -/
theorem exists_address {rows columns k : Nat} (hk : k < rows * columns) :
    ∃ i j, i < rows ∧ j < columns ∧ i * columns + j = k := by
  have hpos : 0 < columns := by
    rcases Nat.eq_zero_or_pos columns with hzero | hpos
    · rw [hzero, Nat.mul_zero] at hk
      cases hk
    · exact hpos
  exact ⟨k / columns, k % columns, Nat.div_lt_of_lt_mul (by rwa [Nat.mul_comm]),
    Nat.mod_lt k hpos, Nat.div_add_mod' k columns⟩

namespace BlockSystem

variable [Scalar α] {s s' s'' : BlockSystem α} {m n seg seg' eq eq' : Nat}
  {columns columns' : List Nat} {f g : BlockSystem α → BlockSystem α}

/-! ## Comparing systems row by row -/

/-- Two systems hold the same in a row. -/
structure SameRow (m n seg eq : Nat) (s s' : BlockSystem α) : Prop where
  residual : s.residual seg eq = s'.residual seg eq
  jacobian : ∀ c v, c < m → v < n → s.jacobian seg eq c v = s'.jacobian seg eq c v

theorem SameRow.symm (h : SameRow m n seg eq s s') : SameRow m n seg eq s' s :=
  ⟨h.residual.symm, fun c v hc hv => (h.jacobian c v hc hv).symm⟩

theorem SameRow.trans (h : SameRow m n seg eq s s') (h' : SameRow m n seg eq s' s'') :
    SameRow m n seg eq s s'' :=
  ⟨h.residual.trans h'.residual, fun c v hc hv => (h.jacobian c v hc hv).trans
    (h'.jacobian c v hc hv)⟩

theorem Sized.residual_eq (h : s.Sized m n) {k : Nat} (hk : k < s.residuals.size)
    (hplace : seg * n + eq = k) : s.residual seg eq = s.residuals[k] := by
  rw [residual, h.row_eq, hplace, Array.getElem?_eq_getElem hk, Option.getD_some]

theorem Sized.jacobian_eq (h : s.Sized m n) {c v k : Nat} (hk : k < s.entries.size)
    (hplace : (seg * n + eq) * (m * n) + (c * n + v) = k) :
    s.jacobian seg eq c v = s.entries[k] := by
  rw [jacobian, h.entry_eq, hplace, Array.getElem?_eq_getElem hk, Option.getD_some]

/-- Jacobians of full size with the same entry at every address are the same. -/
theorem Sized.entries_eq (h : s.Sized m n) (h' : s'.Sized m n)
    (hall : ∀ r e c v, r < m → e < n → c < m → v < n →
      s.jacobian r e c v = s'.jacobian r e c v) : s.entries = s'.entries := by
  refine Array.ext (h.entries_size.trans h'.entries_size.symm) fun k hk hk' => ?_
  obtain ⟨i, j, hi, hj, hplace⟩ := exists_address (h.entries_size ▸ hk)
  obtain ⟨r, e, hr, he, hi⟩ := exists_address hi
  obtain ⟨c, v, hc, hv, hj⟩ := exists_address hj
  rw [← hi, ← hj] at hplace
  rw [← h.jacobian_eq hk hplace, ← h'.jacobian_eq hk' hplace]
  exact hall r e c v hr he hc hv

/-- Systems of full size that hold the same in every row are the same. -/
theorem Sized.ext (h : s.Sized m n) (h' : s'.Sized m n)
    (hrows : ∀ r e, r < m → e < n → SameRow m n r e s s') : s = s' := by
  have hresiduals : s.residuals = s'.residuals := by
    refine Array.ext (h.residuals_size.trans h'.residuals_size.symm) fun k hk hk' => ?_
    obtain ⟨r, e, hr, he, hplace⟩ := exists_address (h.residuals_size ▸ hk)
    rw [← h.residual_eq hk hplace, ← h'.residual_eq hk' hplace]
    exact (hrows r e hr he).residual
  have hentries : s.entries = s'.entries :=
    h.entries_eq h' fun r e c v hr he hc hv => (hrows r e hr he).jacobian c v hc hv
  cases s with
  | mk segments equations residuals entries =>
      cases s' with
      | mk segments' equations' residuals' entries' =>
          rw [mk.injEq]
          exact ⟨h.segments_eq.trans h'.segments_eq.symm,
            h.equations_eq.trans h'.equations_eq.symm, hresiduals, hentries⟩

/-- The second system is the first, but for the residual of a row and its entries in the columns of
    some segments. -/
structure OnlyRow (m n seg eq : Nat) (columns : List Nat) (s s' : BlockSystem α) : Prop where
  sized : s'.Sized m n
  residual : ∀ r e, e < n → ¬ (seg = r ∧ eq = e) → s'.residual r e = s.residual r e
  jacobian : ∀ r e c v, e < n → c < m → v < n → ¬ ((seg = r ∧ eq = e) ∧ c ∈ columns) →
    s'.jacobian r e c v = s.jacobian r e c v

theorem OnlyRow.refl (hs : s.Sized m n) : OnlyRow m n seg eq columns s s :=
  ⟨hs, fun _ _ _ _ => rfl, fun _ _ _ _ _ _ _ _ => rfl⟩

theorem OnlyRow.trans (h : OnlyRow m n seg eq columns s s')
    (h' : OnlyRow m n seg eq columns s' s'') : OnlyRow m n seg eq columns s s'' :=
  ⟨h'.sized, fun r e he hne => (h'.residual r e he hne).trans (h.residual r e he hne),
    fun r e c v he hc hv hne =>
      (h'.jacobian r e c v he hc hv hne).trans (h.jacobian r e c v he hc hv hne)⟩

/-- All other rows are as they were. -/
theorem OnlyRow.sameRow (h : OnlyRow m n seg eq columns s s') {r e : Nat} (he : e < n)
    (hne : ¬ (seg = r ∧ eq = e)) : SameRow m n r e s' s :=
  ⟨h.residual r e he hne, fun c v hc hv => h.jacobian r e c v he hc hv fun hrow => hne hrow.1⟩

/-! ## Changing a row -/

/-- A change of systems that rewrites a row in the columns of some segments. It changes nothing
    else, and what becomes of the row depends on the row alone. -/
structure RewritesRow (m n seg eq : Nat) (columns : List Nat)
    (f : BlockSystem α → BlockSystem α) : Prop where
  only : ∀ {s}, s.Sized m n → OnlyRow m n seg eq columns s (f s)
  reads : ∀ {s s'}, s.Sized m n → s'.Sized m n → SameRow m n seg eq s s' →
    SameRow m n seg eq (f s) (f s')

namespace RewritesRow

theorem comp (hf : RewritesRow m n seg eq columns f) (hg : RewritesRow m n seg eq columns g) :
    RewritesRow m n seg eq columns fun s => g (f s) where
  only := fun hs => (hf.only hs).trans (hg.only (hf.only hs).sized)
  reads := fun hs hs' h => hg.reads (hf.only hs).sized (hf.only hs').sized (hf.reads hs hs' h)

/-- The same for a list of changes. -/
theorem foldl {β : Type} {g : β → BlockSystem α → BlockSystem α} :
    ∀ l : List β, (∀ b ∈ l, RewritesRow m n seg eq columns (g b)) →
      RewritesRow m n seg eq columns fun s => l.foldl (fun s b => g b s) s := by
  intro l
  induction l with
  | nil =>
      intro _
      exact ⟨fun hs => .refl hs, fun _ _ h => h⟩
  | cons b rest ih =>
      intro hl
      exact (hl b (List.mem_cons_self ..)).comp
        (ih fun b' hb' => hl b' (List.mem_cons_of_mem _ hb'))

/-- A change of the residual. -/
theorem modifyResidual (hseg : seg < m) (heq : eq < n) (change : α → α) :
    RewritesRow m n seg eq columns fun s => s.modifyResidual seg eq change where
  only := by
    intro s hs
    refine ⟨hs.modifyResidual .., ?_, ?_⟩
    · intro r e he hne
      rw [residual_modifyResidual hs hseg heq he, if_neg hne]
    · intro r e c v _ _ _ _
      exact jacobian_modifyResidual ..
  reads := by
    intro s s' hs hs' h
    refine ⟨?_, h.jacobian⟩
    rw [residual_modifyResidual hs hseg heq heq, residual_modifyResidual hs' hseg heq heq,
      h.residual]

/-- A change of an entry of the row. -/
theorem modifyJacobian (hseg : seg < m) (heq : eq < n) {c v : Nat} (hc : c < m) (hv : v < n)
    (hmem : c ∈ columns) (change : α → α) :
    RewritesRow m n seg eq columns fun s => s.modifyJacobian seg eq c v change where
  only := by
    intro s hs
    refine ⟨hs.modifyJacobian .., fun _ _ _ _ => rfl, ?_⟩
    intro r e c' v' he hc' hv' hne
    rw [jacobian_modifyJacobian hs hseg heq hc hv he hc' hv', if_neg]
    rintro ⟨hrow, rfl, _⟩
    exact hne ⟨hrow, hmem⟩
  reads := by
    intro s s' hs hs' h
    refine ⟨h.residual, ?_⟩
    intro c' v' hc' hv'
    rw [jacobian_modifyJacobian hs hseg heq hc hv heq hc' hv',
      jacobian_modifyJacobian hs' hseg heq hc hv heq hc' hv', h.jacobian c v hc hv,
      h.jacobian c' v' hc' hv']

/-- Derivatives that are added to the row in the columns of a segment. -/
theorem addRow (hseg : seg < m) (heq : eq < n) {c : Nat} (hc : c < m) (hmem : c ∈ columns)
    {ds : List α} (hds : ds.length ≤ n) (scale : α) :
    RewritesRow m n seg eq columns fun s => s.addRow seg eq c ds scale := by
  refine foldl (g := fun d s => s.addJacobian seg eq c d.2 (scale * d.1)) ds.zipIdx ?_
  intro d hd
  have hplace : d.2 < 0 + ds.length := List.snd_lt_add_of_mem_zipIdx hd
  exact modifyJacobian hseg heq hc (by omega) hmem _

/-- Whatever row two systems have in common, they still have in common. -/
theorem congr (hf : RewritesRow m n seg eq columns f) (hs : s.Sized m n) (hs' : s'.Sized m n)
    {r e : Nat} (he : e < n) (h : SameRow m n r e s s') : SameRow m n r e (f s) (f s') := by
  by_cases hrow : seg = r ∧ eq = e
  · obtain ⟨rfl, rfl⟩ := hrow
    exact hf.reads hs hs' h
  · exact (((hf.only hs).sameRow he hrow).trans h).trans ((hf.only hs').sameRow he hrow).symm

/-- Where the one change leaves a row alone, it does so before and after the other. -/
theorem sameRow_swap (hf : RewritesRow m n seg eq columns f)
    (hg : RewritesRow m n seg' eq' columns' g) (hs : s.Sized m n) {r e : Nat} (he : e < n)
    (hrow : ¬ (seg = r ∧ eq = e)) : SameRow m n r e (f (g s)) (g (f s)) :=
  have hbefore := hg.congr (hf.only hs).sized hs he ((hf.only hs).sameRow he hrow)
  ((hf.only (hg.only hs).sized).sameRow he hrow).trans hbefore.symm

/-- Changes for different segments can be swapped: every row is left alone by one of them. -/
theorem comm (hf : RewritesRow m n seg eq columns f) (hg : RewritesRow m n seg' eq' columns' g)
    (hne : seg ≠ seg') (hs : s.Sized m n) : f (g s) = g (f s) := by
  refine (hf.only (hg.only hs).sized).sized.ext (hg.only (hf.only hs).sized).sized ?_
  intro r e _ he
  by_cases hr : seg = r
  · exact (hg.sameRow_swap hf hs he fun hrow => hne (hr.trans hrow.1.symm)).symm
  · exact hf.sameRow_swap hg hs he fun hrow => hr hrow.1

end RewritesRow

end BlockSystem

namespace SegmentedWell

open BlockSystem

variable [Scalar α] {w : SegmentedWell α} {seg outlet : Nat}

/-! ## The row of a segment -/

/-- The segments in whose columns the equation of a segment has entries: the segment itself, its
    outlet and its inlets. -/
def columns (w : SegmentedWell α) (seg : Nat) : List Nat :=
  seg :: ((w.tree.outlet? seg).toList ++ w.tree.inlets seg)

/-- An assembly for a well: the system is of its size, and there is a drop for each segment. -/
structure Fits (w : SegmentedWell α) (x : Assembly α) : Prop where
  sized : x.system.Sized w.tree.size w.layout.size
  length_drops : x.drops.length = w.tree.size

/-- A change for a segment of the row of its pressure equation. -/
abbrev RewritesOwn (w : SegmentedWell α) (seg : Nat) (f : BlockSystem α → BlockSystem α) : Prop :=
  RewritesRow w.tree.size w.layout.size seg w.layout.pressureSlot (w.columns seg) f

/-- How assembling an equation of a segment can go. -/
inductive OwnRow (w : SegmentedWell α) (seg : Nat)
    (equation : Assembly α → Except (WellError α) (Assembly α)) : Prop
  /-- It fails for one reason, whatever it is assembled into. -/
  | fails (e : WellError α) (h : ∀ x, w.Fits x → equation x = .error e)
  /-- It rewrites its row of the system and the drops of the segment. -/
  | writes (f : BlockSystem α → BlockSystem α) (g : Drop α → Drop α) (hf : w.RewritesOwn seg f)
    (h : ∀ x, w.Fits x → equation x = .ok ⟨f x.system, x.drops.modify seg g⟩)

/-- What an equation asks for before it changes anything is the same for every assembly. -/
theorem ownRow_ask {β : Type} (value : Except (WellError α) β)
    {equation : β → Assembly α → Except (WellError α) (Assembly α)}
    (h : ∀ b, value = .ok b → w.OwnRow seg (equation b)) :
    w.OwnRow seg fun x => value >>= fun b => equation b x := by
  cases hvalue : value with
  | error e => exact .fails e fun _ _ => rfl
  | ok b => exact h b hvalue

theorem Fits.rewrite {x : Assembly α} (hx : w.Fits x) {f : BlockSystem α → BlockSystem α}
    (hf : w.RewritesOwn seg f) (g : Drop α → Drop α) :
    w.Fits ⟨f x.system, x.drops.modify seg g⟩ :=
  ⟨(hf.only hx.sized).sized, (List.length_modify ..).trans hx.length_drops⟩

omit [Scalar α] in
theorem Fits.lt_drops {x : Assembly α} (hx : w.Fits x) (hseg : seg < w.tree.size) :
    seg < x.drops.length :=
  hx.length_drops ▸ hseg

section Equations

variable (hwell : w.tree.WellFormed)
  (hslots : ∀ q, w.profile = some q → q.slots.length = w.layout.size)

include hwell in
/-- A segment with an equation, and its outlet. -/
theorem lt_size_of_belowTop {segment : Segment α}
    (hbelow : w.belowTop seg = .ok (segment, outlet)) :
    (seg < w.tree.size ∧ seg ∈ w.columns seg) ∧ outlet < w.tree.size ∧ outlet ∈ w.columns seg := by
  obtain ⟨hsegment, houtlet⟩ := belowTop_eq_ok.mp hbelow
  obtain ⟨_, below, _, hfound, _⟩ := hwell.outlet?_iff.mp houtlet
  refine ⟨⟨SegmentTree.lt_size_of_segment? hsegment, List.mem_cons_self ..⟩,
    SegmentTree.lt_size_of_segment? hfound, ?_⟩
  rw [columns, houtlet]
  exact List.mem_cons_of_mem _ (List.mem_cons_self ..)

include hslots in
/-- Evaluated terms have a derivative for each unknown. -/
theorem length_derivatives_le {q : Profile α} (hq : w.current = .ok q)
    (term : States α → Dual α) : (q.evaluate term).derivatives.length ≤ w.layout.size :=
  ((q.length_derivatives term).trans (hslots q (current_eq_ok.mp hq))).le

include hwell in
theorem rewritesOwn_insertEquation {segment : Segment α}
    (hbelow : w.belowTop seg = .ok (segment, outlet)) {equation : Linearization α}
    (hlength : equation.derivatives.length ≤ w.layout.size) :
    w.RewritesOwn seg fun s => w.insertEquation s seg outlet equation := by
  obtain ⟨⟨hseg, hself⟩, houtlet, hmem⟩ := lt_size_of_belowTop hwell hbelow
  have hslot := w.layout.pressureSlot_lt_size
  have hunknown : ((List.replicate w.layout.size (0 : α)).set w.layout.pressureSlot 1).length
      ≤ w.layout.size := by simp
  have hown := (RewritesRow.modifyResidual hseg hslot fun _ => equation.value -
    w.unknowns.pressure outlet).comp (.addRow hseg hslot hseg hself hlength (1 : α))
  exact hown.comp (.addRow hseg hslot houtlet hmem hunknown (-1 : α))

/-- A loss that is taken off the residual, with the derivatives of heads in the columns of the
    segment and others. -/
theorem rewritesOwn_loss (hseg : seg < w.tree.size) (loss sign : α) {head : Linearization α}
    (hhead : head.derivatives.length ≤ w.layout.size) {heads : List (Nat × Linearization α)}
    (hheads : ∀ h ∈ heads, (h.1 < w.tree.size ∧ h.1 ∈ w.columns seg) ∧
      h.2.derivatives.length ≤ w.layout.size) :
    w.RewritesOwn seg fun s => heads.foldl
      (fun s h => s.addRow seg w.layout.pressureSlot h.1 h.2.derivatives sign)
      ((s.addResidual seg w.layout.pressureSlot (-loss)).addRow seg w.layout.pressureSlot seg
        head.derivatives (-sign)) := by
  have hslot := w.layout.pressureSlot_lt_size
  have hself : seg ∈ w.columns seg := List.mem_cons_self ..
  have hown := (RewritesRow.modifyResidual hseg hslot (· + -loss)).comp
    (.addRow hseg hslot hseg hself hhead (-sign))
  refine hown.comp (.foldl (g := fun h s =>
    s.addRow seg w.layout.pressureSlot h.1 h.2.derivatives sign) heads ?_)
  intro h hh
  obtain ⟨⟨hinlet, hmem⟩, hlength⟩ := hheads h hh
  exact .addRow hseg hslot hinlet hmem hlength sign

include hwell hslots in
/-- The acceleration loss has entries for the segment and its inlets. -/
theorem ownRow_accelerationLoss : w.OwnRow seg (w.accelerationLoss seg) := by
  refine ownRow_ask (w.belowTop seg) ?_
  rintro ⟨segment, outlet⟩ hbelow
  refine ownRow_ask w.current fun q hq => ?_
  obtain ⟨⟨hseg, _⟩, _⟩ := lt_size_of_belowTop hwell hbelow
  -- the two changes are read off the equation, and only then shown to stay in the row
  refine .writes ?system ?drop ?rewrites ?equation
  case equation =>
    rintro ⟨system, drops⟩ hx
    dsimp only
    exact Assembly.recordDrop_of_lt (x := ⟨system, drops⟩) (hx.lt_drops hseg) _ _
  case rewrites =>
    refine rewritesOwn_loss hseg _ _ (length_derivatives_le hslots hq _) ?_
    intro h hh
    obtain ⟨inlet, hinlet, rfl⟩ := List.mem_map.mp hh
    exact ⟨⟨SegmentTree.lt_size_of_outlet? (SegmentTree.mem_inlets.mp hinlet),
      List.mem_cons_of_mem _ (List.mem_append_right _ hinlet)⟩,
      length_derivatives_le hslots hq _⟩

variable [Transcendental α]

include hwell hslots

/-- A pipe has an equation of its own, and the acceleration loss belongs to the same row. -/
theorem ownRow_pipeEquation : w.OwnRow seg (w.pipeEquation seg) := by
  refine ownRow_ask (w.belowTop seg) ?_
  rintro ⟨segment, outlet⟩ hbelow
  refine ownRow_ask w.current fun q hq => ?_
  obtain ⟨⟨hseg, _⟩, _⟩ := lt_size_of_belowTop hwell hbelow
  have hrecord : ∀ x, w.Fits x → x.recordDrop seg = fun f =>
      .ok { x with drops := x.drops.modify seg f } := fun x hx =>
    funext fun f => Assembly.recordDrop_of_lt (hx.lt_drops hseg) x.system f
  have hinsert := rewritesOwn_insertEquation hwell hbelow
    (length_derivatives_le hslots hq fun states => (states seg).pressure
      - w.hydrostatic seg states - w.friction segment seg (q.upwind seg) states)
  cases w.settings.acceleration with
  | false =>
      refine .writes _ ?drop hinsert ?plain
      case plain =>
        intro x hx
        simp only [hrecord x hx, ok_bind]
        rfl
  | true =>
      cases ownRow_accelerationLoss hwell hslots with
      | fails e h =>
          refine .fails e fun x hx => ?_
          simp only [hrecord x hx, ok_bind]
          exact h _ (hx.rewrite hinsert _)
      | writes f g hf h =>
          refine .writes _ (g ∘ ?before) (hinsert.comp hf) ?accelerated
          case accelerated =>
            intro x hx
            simp only [hrecord x hx, ok_bind, ← List.modify_modify_eq]
            exact h _ (hx.rewrite hinsert _)

/-- So has a device. A shut one needs no profile. -/
theorem ownRow_deviceEquation : w.OwnRow seg (w.deviceEquation seg) := by
  refine ownRow_ask (w.belowTop seg) ?_
  rintro ⟨segment, outlet⟩ hbelow
  obtain ⟨⟨hseg, hself⟩, _⟩ := lt_size_of_belowTop hwell hbelow
  dsimp only
  cases segment.device.controlsInflow with
  | false => exact .fails (.notADevice w.name segment.number) fun _ _ => rfl
  | true =>
      cases segment.device.isShut with
      | true =>
          have hslot := w.layout.pressureSlot_lt_size
          have hclose := (RewritesRow.modifyResidual hseg hslot fun _ =>
            w.unknowns.totalRate seg).comp (.modifyJacobian hseg hslot hseg
              w.layout.rateSlot_lt_size hself fun _ => 1)
          exact .writes _ _ hclose fun x hx =>
            Assembly.recordDrop_of_lt (hx.lt_drops hseg) _ _
      | false =>
          refine ownRow_ask w.current fun q hq => ?_
          have hinsert := rewritesOwn_insertEquation hwell hbelow
            (length_derivatives_le hslots hq fun states => (states seg).pressure
              - deviceDrop segment seg (q.upwind seg) states)
          exact .writes _ _ hinsert fun x hx =>
            Assembly.recordDrop_of_lt (hx.lt_drops hseg) _ _

/-- And so has every segment: at the top and outside the well assembling fails. -/
theorem ownRow_pressureEquation : w.OwnRow seg (w.pressureEquation seg) := by
  refine ownRow_ask (w.belowTop seg) ?_
  rintro ⟨segment, outlet⟩ _
  dsimp only
  cases segment.device.controlsInflow with
  | true => exact ownRow_deviceEquation hwell hslots
  | false => exact ownRow_pipeEquation hwell hslots

end Equations

/-! ## One segment -/

/-- Two assemblies hold the same in the row of a segment and in its drops. -/
structure SameAt (w : SegmentedWell α) (seg : Nat) (x x' : Assembly α) : Prop where
  row : SameRow w.tree.size w.layout.size seg w.layout.pressureSlot x.system x'.system
  drop : x.drops[seg]? = x'.drops[seg]?

/-- The second assembly is the first but for the row of a segment, in the columns of the segment and
    its neighbours, and its drops. -/
structure OnlyAt (w : SegmentedWell α) (seg : Nat) (x y : Assembly α) : Prop where
  row : OnlyRow w.tree.size w.layout.size seg w.layout.pressureSlot (w.columns seg) x.system
    y.system
  length_drops : y.drops.length = x.drops.length
  drop : ∀ i, seg ≠ i → y.drops[i]? = x.drops[i]?

section Outcomes

variable {equation : Assembly α → Except (WellError α) (Assembly α)} {x x' y : Assembly α}

/-- An equation with a row of its own changes nothing else. -/
theorem OwnRow.only (h : w.OwnRow seg equation) (hx : w.Fits x) (hy : equation x = .ok y) :
    w.OnlyAt seg x y := by
  cases h with
  | fails e hfails =>
      rw [hfails x hx] at hy
      cases hy
  | writes f g hf hwrites =>
      rw [hwrites x hx] at hy
      cases hy
      refine ⟨hf.only hx.sized, List.length_modify .., ?_⟩
      intro i hi
      exact List.getElem?_modify_ne g x.drops hi

/-- And it reads nothing else. -/
theorem OwnRow.reads (h : w.OwnRow seg equation) (hx : w.Fits x) (hx' : w.Fits x')
    (hsame : w.SameAt seg x x') :
    (∀ e, equation x = .error e → equation x' = .error e) ∧
      ∀ y, equation x = .ok y → ∃ y', equation x' = .ok y' ∧ w.SameAt seg y y' := by
  cases h with
  | fails e hfails =>
      rw [hfails x hx, hfails x' hx']
      refine ⟨fun _ he => he, ?_⟩
      intro y hy
      cases hy
  | writes f g hf hwrites =>
      rw [hwrites x hx, hwrites x' hx']
      refine ⟨?_, ?_⟩
      · intro e he
        cases he
      · intro y hy
        cases hy
        refine ⟨_, rfl, hf.reads hx.sized hx'.sized hsame.row, ?_⟩
        show (x.drops.modify seg g)[seg]? = (x'.drops.modify seg g)[seg]?
        rw [List.getElem?_modify_eq, List.getElem?_modify_eq, hsame.drop]

variable [Transcendental α]

/-- Assembled step by step, a segment leaves everything as it was when it fails, also when there is
    no such segment. -/
theorem run_pressureSteps_of_fits (hx : w.Fits x) (seg : Nat) :
    (w.pressureSteps seg).run x = x.settle (w.pressureEquation seg x) := by
  by_cases hseg : seg < w.tree.size
  · exact run_pressureSteps (hx.lt_drops hseg)
  · have hnone : w.tree.segment? seg = none := by
      rw [SegmentTree.segment?, List.getElem?_eq_none_iff, SegmentTree.length_segments]
      exact Nat.not_lt.mp hseg
    rw [pressureSteps, pressureEquation, belowTop, hnone]
    rfl

end Outcomes

/-! ## Any order -/

section Orders

variable [Transcendental α] {x : Assembly α}

/-- The equation of a segment can be assembled. -/
def Assembles (w : SegmentedWell α) (seg : Nat) : Prop :=
  ∃ f g, w.RewritesOwn seg f ∧ ∀ x, w.Fits x →
    w.pressureEquation seg x = .ok ⟨f x.system, x.drops.modify seg g⟩

/-- A segment that was assembled once can always be assembled. -/
theorem OwnRow.assembles {y : Assembly α} (h : w.OwnRow seg (w.pressureEquation seg))
    (hx : w.Fits x) (hy : w.pressureEquation seg x = .ok y) : w.Assembles seg := by
  cases h with
  | fails e hfails =>
      rw [hfails x hx] at hy
      cases hy
  | writes f g hf hwrites => exact ⟨f, g, hf, hwrites⟩

theorem pressureEquationsOf_ok (order : List Nat) (h : ∀ seg ∈ order, w.Assembles seg) :
    ∀ {x : Assembly α}, w.Fits x → (w.pressureEquationsOf order x).2 = .ok () := by
  induction order with
  | nil => intro x _; rfl
  | cons seg rest ih =>
      intro x hx
      obtain ⟨f, g, hf, hwrites⟩ := h seg (List.mem_cons_self ..)
      rw [pressureEquationsOf, hwrites x hx]
      exact ih (fun seg' hseg' => h seg' (List.mem_cons_of_mem _ hseg')) (hx.rewrite hf g)

/-- Segments that can be assembled give the same in any order: two neighbours can be swapped. -/
theorem pressureEquationsOf_perm {order order' : List Nat} (hperm : order.Perm order') :
    (∀ seg ∈ order, w.Assembles seg) → ∀ {x : Assembly α}, w.Fits x →
      w.pressureEquationsOf order x = w.pressureEquationsOf order' x := by
  induction hperm with
  | nil => intro _ x _; rfl
  | cons seg _ ih =>
      intro h x hx
      obtain ⟨f, g, hf, hwrites⟩ := h seg (List.mem_cons_self ..)
      rw [pressureEquationsOf, pressureEquationsOf, hwrites x hx]
      exact ih (fun seg' hseg' => h seg' (List.mem_cons_of_mem _ hseg')) (hx.rewrite hf g)
  | swap a b rest =>
      intro h x hx
      obtain ⟨f, g, hf, hb⟩ := h b (List.mem_cons_self ..)
      obtain ⟨f', g', hf', ha⟩ := h a (List.mem_cons_of_mem _ (List.mem_cons_self ..))
      by_cases hne : a = b
      · rw [hne]
      · have hsystem : f' (f x.system) = f (f' x.system) := hf'.comm hf hne hx.sized
        have hdrops : (x.drops.modify b g).modify a g' = (x.drops.modify a g').modify b g :=
          List.modify_modify_ne g g' x.drops (Ne.symm hne)
        simp only [pressureEquationsOf, ha x hx, hb x hx, ha _ (hx.rewrite hf g),
          hb _ (hx.rewrite hf' g'), hsystem, hdrops]
  | trans hfirst _ ih ih' =>
      intro h x hx
      exact (ih h hx).trans (ih' (fun seg hseg => h seg (hfirst.mem_iff.mpr hseg)) hx)

/-- Whatever segments are assembled, and also when one of them fails, the mass balances and the row
    of the top segment stay as they were. -/
theorem pressureEquationsOf_untouched (hown : ∀ seg, w.OwnRow seg (w.pressureEquation seg))
    (hx : w.Fits x) (order : List Nat) {r e : Nat} (he : e < w.layout.size)
    (hrow : r = 0 ∨ e ≠ w.layout.pressureSlot) :
    SameRow w.tree.size w.layout.size r e (w.pressureEquationsOf order x).1.system x.system := by
  have hstep : ∀ seg a b, w.pressureEquation seg a = .ok b →
      w.Fits a ∧ SameRow w.tree.size w.layout.size r e a.system x.system →
      w.Fits b ∧ SameRow w.tree.size w.layout.size r e b.system x.system := by
    rintro seg a b hab ⟨ha, hsame⟩
    have honly := (hown seg).only ha hab
    refine ⟨⟨honly.row.sized, honly.length_drops.trans ha.length_drops⟩, ?_⟩
    refine (honly.row.sameRow he ?_).trans hsame
    rintro ⟨rfl, rfl⟩
    rcases hrow with rfl | hslot
    · obtain ⟨_, hbelow, _⟩ := bind_eq_ok.mp hab
      cases (belowTop_eq_ok.mp hbelow).2
    · exact hslot rfl
  exact (pressureEquationsOf_induction hstep order ⟨hx, rfl, fun _ _ _ _ => rfl⟩).2

end Orders

end SegmentedWell

/-! ## In a session -/

/-- Take a well as it is at any point of a session, and any system and drops for it.

    Assembled step by step, a segment gets its equation or leaves everything as it was. The equation
    changes only its residual, the entries of its row in the columns of the segment, its outlet and
    its inlets, and the drops of the segment; what becomes of them, and whether the equation can be
    assembled, depends on nothing else in the system. When each segment below the top can be
    assembled, any order of them gives what the given order gives; and in no case are the mass
    balances or the row of the control equation touched. -/
theorem Session.assembly_ownRow [Scalar α] [Transcendental α] {segments : List (Segment α)}
    {tree : SegmentTree α} (htree : SegmentTree.ofList segments = .ok tree) (name : String)
    (phases : ActivePhases) (settings : Settings α) (record : WellRecord α)
    (calls : List (SessionCall α)) {x : Assembly α}
    (hx : ((start name tree phases settings record).acts calls).well.Fits x) :
    let w := ((start name tree phases settings record).acts calls).well
    (∀ seg, (w.pressureSteps seg).run x = x.settle (w.pressureEquation seg x) ∧
      (∀ y, w.pressureEquation seg x = .ok y → w.OnlyAt seg x y) ∧
      ∀ x', w.Fits x' → w.SameAt seg x x' →
        (∀ e, w.pressureEquation seg x = .error e → w.pressureEquation seg x' = .error e) ∧
        ∀ y, w.pressureEquation seg x = .ok y →
          ∃ y', w.pressureEquation seg x' = .ok y' ∧ w.SameAt seg y y') ∧
    (∀ order : List Nat, order.Perm (List.range' 1 (w.tree.size - 1)) →
      (∀ seg ∈ order, ∃ y, w.pressureEquation seg x = .ok y) →
      w.pressureEquationsOf order x = w.pressureEquations x ∧
        (w.pressureEquations x).2 = .ok ()) ∧
    ∀ (order : List Nat) (r e : Nat), e < w.layout.size → r = 0 ∨ e ≠ w.layout.pressureSlot →
      BlockSystem.SameRow w.tree.size w.layout.size r e (w.pressureEquationsOf order x).1.system
        x.system := by
  intro w
  have hs : ((start name tree phases settings record).acts calls).Fresh tree phases :=
    (fresh_start name tree phases settings record).acts calls
  have hwell : w.tree.WellFormed := by
    rw [show w.tree = tree from hs.tree_eq]
    exact (SegmentTree.wellFormed_of_ofList htree).1
  have hown : ∀ seg, w.OwnRow seg (w.pressureEquation seg) := fun seg =>
    SegmentedWell.ownRow_pressureEquation hwell fun q hq => hs.length_slots hq
  refine ⟨?_, ?_, ?_⟩
  · intro seg
    exact ⟨SegmentedWell.run_pressureSteps_of_fits hx seg, fun y hy => (hown seg).only hx hy,
      fun x' hx' hsame => (hown seg).reads hx hx' hsame⟩
  · intro order hperm hgoes
    have hassembles : ∀ seg ∈ order, w.Assembles seg := by
      intro seg hseg
      obtain ⟨y, hy⟩ := hgoes seg hseg
      exact (hown seg).assembles hx hy
    have hsame := SegmentedWell.pressureEquationsOf_perm hperm hassembles hx
    refine ⟨hsame, ?_⟩
    rw [← SegmentedWell.pressureEquationsOf_ok order hassembles hx, hsame]
    rfl
  · intro order r e he hrow
    exact SegmentedWell.pressureEquationsOf_untouched hown hx order he hrow

/-- The side branch once more, in another order and on top of what was assembled before. -/
theorem Session.assembly_ownRow_reassembled :
    let s := (start "B" SegmentTree.sideBranch ⟨true, false, false⟩ ⟨true, true, 10⟩
      (.producer 4 .wrat)).acts (failedComputation ++ [.assembleAll])
    s.well.Fits s.assembly ∧
      s.well.pressureEquationsOf [3, 1, 2] s.assembly = s.well.pressureEquations s.assembly ∧
      (s.well.pressureEquations s.assembly).2 = .ok () ∧
      ∃ y, s.well.pressureEquation 2 s.assembly = .ok y ∧ y.system ≠ s.well.system ∧
        s.well.OnlyAt 2 s.assembly y := by
  intro s
  have hfits : s.well.Fits s.assembly := by
    refine ⟨⟨?_, ?_, ?_, ?_⟩, ?_⟩ <;> decide +kernel
  have hgoes : ∀ seg ∈ [3, 1, 2], (s.well.pressureEquation seg s.assembly).isOk = true := by
    decide +kernel
  have htree : SegmentTree.ofList SegmentTree.sideBranch.segments = .ok SegmentTree.sideBranch := by
    decide +kernel
  obtain ⟨hlocal, hordered, _⟩ := assembly_ownRow htree "B" _ _ _
    (failedComputation ++ [.assembleAll]) hfits
  have hok : ∀ seg ∈ [3, 1, 2], ∃ y, s.well.pressureEquation seg s.assembly = .ok y := by
    intro seg hseg
    cases hy : s.well.pressureEquation seg s.assembly with
    | error e =>
        have hnot := hgoes seg hseg
        rw [hy] at hnot
        cases hnot
    | ok y => exact ⟨y, rfl⟩
  obtain ⟨hsame, hdone⟩ := hordered [3, 1, 2] (by decide) hok
  obtain ⟨y, hy⟩ := hok 2 (by decide)
  refine ⟨hfits, hsame, hdone, y, hy, ?_, (hlocal 2).2.1 y hy⟩
  have hchanges : (s.well.pressureEquation 2 s.assembly).map (·.system) ≠ .ok s.well.system := by
    decide +kernel
  intro hstays
  rw [hy] at hchanges
  exact hchanges (congrArg _ hstays)

end ReservoirWells
