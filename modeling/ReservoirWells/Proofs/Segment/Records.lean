import Mathlib.Tactic.Linarith
import ReservoirWells.Proofs.Segment.Runs

/-! # Records — the recorded drops explain the residuals

    The drops of a segment are recorded by other statements than those that write its equation, and
    not all of them every time: friction only when it counts, acceleration after everything else,
    and a device records nothing but the drop across it.  What is never recorded for a segment stays
    zero (`Drop.Spared`), and so the three parts are always those of the last assembly:

    * `SegmentedWell.Explains` — the residual of a segment is what its drops leave of the pressure
      difference;
    * `SegmentedWell.explainedAt_of_pressureEquation` — an equation is explained by what it records;
    * `SegmentedWell.assembleAll_explained` — after an assembly all of them are, at the end of any
      run; where they hold, the drops add up along the way to the top. -/

namespace ReservoirWells

variable {α : Type}

/-! ## What stays zero -/

namespace Drop

variable [ExactScalar α] {settings : Settings α} {segment : Segment α}

/-- The whole drop from a segment to its outlet. -/
def total (d : Drop α) : α := d.hydrostatic + d.friction + d.acceleration

/-- What does not count for a segment was not recorded for it. -/
structure Spared (settings : Settings α) (segment : Segment α) (d : Drop α) : Prop where
  hydrostatic : segment.device.controlsInflow = true → d.hydrostatic = 0
  friction : segment.device.controlsInflow = false → settings.friction = false → d.friction = 0
  acceleration : segment.device.controlsInflow = true ∨ settings.acceleration = false →
    d.acceleration = 0

theorem spared_zero : Spared settings segment .zero :=
  ⟨fun _ => rfl, fun _ _ => rfl, fun _ => rfl⟩

/-- The drops of all segments are of this kind. -/
def AllSpared (tree : SegmentTree α) (settings : Settings α) (drops : List (Drop α)) : Prop :=
  ∀ seg segment d, tree.segment? seg = some segment → drops[seg]? = some d →
    d.Spared settings segment

end Drop

theorem Device.controlsInflow_of_isShut {d : Device α} (h : d.isShut = true) :
    d.controlsInflow = true := by
  cases d with
  | pipe => cases h
  | spiral => rfl
  | autonomous => rfl
  | valve => rfl

namespace SegmentedWell

variable [ExactScalar α] [Transcendental α] {w : SegmentedWell α} {segment : Segment α}
  {seg outlet : Nat} {s system : BlockSystem α} {record : Drop α → Drop α} {d : Drop α}

theorem Written.spared (h : Written w segment seg outlet s system record)
    (hd : d.Spared w.settings segment) : (record d).Spared w.settings segment := by
  cases h with
  | shut hshut =>
      have hdevice := Device.controlsInflow_of_isShut hshut
      exact ⟨hd.hydrostatic, fun hpipe => absurd (hpipe.symm.trans hdevice) Bool.false_ne_true,
        hd.acceleration⟩
  | flowing q =>
      rw [openDrop]
      cases hdevice : segment.device.controlsInflow with
      | true =>
          rw [if_pos rfl]
          exact ⟨fun _ => hd.hydrostatic hdevice,
            fun hpipe => absurd (hpipe.symm.trans hdevice) Bool.false_ne_true,
            fun _ => hd.acceleration (.inl hdevice)⟩
      | false =>
          rw [if_neg Bool.false_ne_true]
          refine ⟨fun hnot => absurd (hdevice.symm.trans hnot) Bool.false_ne_true,
            fun _ hoff => ?_, ?_⟩
          · simp only [hoff, Bool.false_eq_true, if_false]
            exact hd.friction hdevice hoff
          · rintro (hnot | hoff)
            · exact absurd (hdevice.symm.trans hnot) Bool.false_ne_true
            · simp only [hoff, Bool.false_eq_true, if_false]
              exact hd.acceleration (.inr hoff)

/-! ## What is explained -/

/-- The residual of a segment in terms of its drops. Where something can flow it is the pressure
    difference less the three drops; a shut valve has its rate as residual and nothing drops. -/
structure Explains (w : SegmentedWell α) (segment : Segment α) (seg outlet : Nat) (residual : α)
    (d : Drop α) : Prop where
  flowing : segment.device.isShut = false → residual =
    w.unknowns.pressure seg - w.unknowns.pressure outlet - d.hydrostatic - d.friction
      - d.acceleration
  shut : segment.device.isShut = true → residual = w.unknowns.totalRate seg ∧ d.friction = 0

/-- Whatever is written, it is explained by what is recorded with it. -/
theorem Written.explains (h : Written w segment seg outlet s system record)
    (hprofile : ∀ q, w.profile = some q → ∃ fluid, q.IsOf w.tree w.unknowns fluid)
    (hs : s.Sized w.tree.size w.layout.size) (hseg : seg < w.tree.size)
    (hd : d.Spared w.settings segment) :
    Explains w segment seg outlet (system.residual seg w.layout.pressureSlot) (record d) := by
  have hslot := w.layout.pressureSlot_lt_size
  cases h with
  | shut hshut =>
      refine ⟨fun hopen => absurd (hopen.symm.trans hshut) Bool.false_ne_true,
        fun _ => ⟨?_, rfl⟩⟩
      rw [shutSystem, BlockSystem.setJacobian, BlockSystem.residual_modifyJacobian,
        BlockSystem.setResidual, BlockSystem.residual_modifyResidual hs hseg hslot hslot,
        if_pos ⟨rfl, rfl⟩]
  | flowing q hopen hq =>
      obtain ⟨fluid, hof⟩ := hprofile q hq
      have hpressure : (q.statesFor 0 seg).pressure.re = w.unknowns.pressure seg := by
        rw [hof.pressure_eq w.unknowns.layout.size_pos hseg]
        rfl
      refine ⟨fun _ => ?_, fun hshut => absurd (hopen.symm.trans hshut) Bool.false_ne_true⟩
      rw [residual_openSystem hs hof.slots_pos hseg hslot, if_pos ⟨rfl, rfl⟩, equationTerm,
        accelerates, openDrop]
      cases hdevice : segment.device.controlsInflow with
      | true =>
          simp only [Bool.not_true, Bool.and_false, Bool.false_eq_true, if_true, if_false,
            Dual.re_sub, hpressure, hd.hydrostatic hdevice, hd.acceleration (.inl hdevice)]
          ring
      | false =>
          -- what is switched off was never recorded, and the term that stands for it is zero
          have hrecorded : (if w.settings.friction
              then (w.friction segment seg (q.upwind seg) (q.statesFor 0)).re else d.friction)
                = (w.friction segment seg (q.upwind seg) (q.statesFor 0)).re := by
            cases hon : w.settings.friction with
            | true => rfl
            | false =>
                rw [if_neg Bool.false_ne_true, hd.friction hdevice hon, friction, hon,
                  if_neg Bool.false_ne_true]
                rfl
          simp only [Bool.not_false, Bool.and_true, Bool.false_eq_true, if_false, hrecorded,
            Dual.re_sub, hpressure]
          cases hon : w.settings.acceleration with
          | true =>
              simp only [if_true]
              ring
          | false =>
              simp only [Bool.false_eq_true, if_false, hd.acceleration (.inr hon)]
              ring

/-! ## Assembling -/

/-- What the assembly of a well starts from and keeps up. -/
structure Ready (w : SegmentedWell α) (x : Assembly α) : Prop where
  system_sized : x.system.Sized w.tree.size w.layout.size
  spared : Drop.AllSpared w.tree w.settings x.drops

/-- The equation of a segment is explained by its drops. -/
def ExplainedAt (w : SegmentedWell α) (x : Assembly α) (seg : Nat) : Prop :=
  ∃ segment outlet d, w.tree.segment? seg = some segment ∧ w.tree.outlet? seg = some outlet ∧
    x.drops[seg]? = some d ∧
    Explains w segment seg outlet (x.system.residual seg w.layout.pressureSlot) d

section Steps

variable (hprofile : ∀ q, w.profile = some q → ∃ fluid, q.IsOf w.tree w.unknowns fluid)

include hprofile

variable {x y : Assembly α} (hx : Ready w x) (h : w.pressureEquation seg x = .ok y)

include hx h

theorem ready_of_pressureEquation : Ready w y := by
  obtain ⟨segment, outlet, system, record, hsegment, _, hwritten, _, rfl⟩ :=
    written_of_pressureEquation (slots_pos_of_isOf hprofile) h
  refine ⟨hwritten.sized hx.system_sized, ?_⟩
  intro other segment' d' hsegment' hd'
  by_cases hsame : seg = other
  · subst hsame
    cases hsegment.symm.trans hsegment'
    rw [List.getElem?_modify_eq] at hd'
    obtain ⟨d, hd, rfl⟩ := Option.map_eq_some_iff.mp hd'
    exact hwritten.spared (hx.spared seg segment d hsegment hd)
  · rw [List.getElem?_modify_ne record _ hsame] at hd'
    exact hx.spared other segment' d' hsegment' hd'

/-- The equation that is assembled is explained, and those assembled before remain so. -/
theorem explainedAt_of_pressureEquation {other : Nat}
    (hother : other = seg ∨ ExplainedAt w x other) : ExplainedAt w y other := by
  obtain ⟨segment, outlet, system, record, hsegment, houtlet, hwritten, hlt, rfl⟩ :=
    written_of_pressureEquation (slots_pos_of_isOf hprofile) h
  have hseg := SegmentTree.lt_size_of_segment? hsegment
  by_cases hsame : seg = other
  · subst hsame
    have hd : x.drops[seg]? = some x.drops[seg] := List.getElem?_eq_getElem hlt
    refine ⟨segment, outlet, record x.drops[seg], hsegment, houtlet, ?_, ?_⟩
    · show (x.drops.modify seg record)[seg]? = _
      rw [List.getElem?_modify_eq, hd]
      rfl
    · exact hwritten.explains hprofile hx.system_sized hseg (hx.spared seg segment _ hsegment hd)
  · obtain ⟨segment', outlet', d, hsegment', houtlet', hd, hexplains⟩ :=
      hother.resolve_left fun heq => hsame heq.symm
    refine ⟨segment', outlet', d, hsegment', houtlet', ?_, ?_⟩
    · show (x.drops.modify seg record)[other]? = _
      rw [List.getElem?_modify_ne record _ hsame, hd]
    · show Explains w segment' other outlet' (system.residual other w.layout.pressureSlot) d
      rw [hwritten.residual_other (slots_pos_of_isOf hprofile) hx.system_sized hseg
        w.layout.pressureSlot_lt_size hsame]
      exact hexplains

end Steps

/-- After some equations all of them are explained. -/
theorem explainedAt_of_pressureEquationsOf
    (hprofile : ∀ q, w.profile = some q → ∃ fluid, q.IsOf w.tree w.unknowns fluid)
    {segs : List Nat} {y : Assembly α} : ∀ {x : Assembly α}, Ready w x →
    w.pressureEquationsOf segs x = (y, .ok ()) → ∀ seg, seg ∈ segs ∨ ExplainedAt w x seg →
      ExplainedAt w y seg := by
  -- the induction is over the segments that are left; the others are explained already
  induction segs with
  | nil =>
      intro x _ h seg hseg
      cases h
      exact hseg.resolve_left List.not_mem_nil
  | cons first rest ih =>
      intro x hx h seg hseg
      rw [pressureEquationsOf] at h
      cases hfirst : w.pressureEquation first x with
      | error e =>
          rw [hfirst] at h
          cases h
      | ok between =>
          rw [hfirst] at h
          refine ih (ready_of_pressureEquation hprofile hx hfirst) h seg ?_
          rcases hseg with hmem | hdone
          · rcases List.mem_cons.mp hmem with heq | hrest
            · exact .inr (explainedAt_of_pressureEquation hprofile hx hfirst (.inl heq))
            · exact .inl hrest
          · exact .inr (explainedAt_of_pressureEquation hprofile hx hfirst (.inr hdone))

/-! ## Along a run -/

section Runs

variable {tree : SegmentTree α} {phases : ActivePhases} {settings : Settings α}
  {x : SegmentedWell α × WellRecord α}

/-- A sound well with a record that spares what does not count. -/
structure Recording (tree : SegmentTree α) (phases : ActivePhases) (settings : Settings α)
    (x : SegmentedWell α × WellRecord α) : Prop extends Sound tree phases settings x where
  spared : Drop.AllSpared x.1.tree x.1.settings x.2.drops

theorem Recording.ready (h : Recording tree phases settings x) :
    Ready x.1 ⟨x.1.system, x.2.drops⟩ :=
  ⟨h.system_sized, h.spared⟩

theorem recording_make (name : String) {record : WellRecord α}
    (h : record.drops = List.replicate tree.size .zero) :
    Recording tree phases settings (make name tree phases settings, record) where
  toSound := sound_make name (by rw [h, List.length_replicate])
  spared := by
    intro seg segment d _ hd
    have hmem : d ∈ List.replicate tree.size Drop.zero := h ▸ List.mem_of_getElem? hd
    rw [List.eq_of_mem_replicate hmem]
    exact Drop.spared_zero

/-- Only assembling changes the record. -/
theorem Recording.run (h : Recording tree phases settings x) (c : WellCall α) :
    Recording tree phases settings (WellCall.run x c) := by
  have hsound : Sound tree phases settings (WellCall.run x c) := h.toSound.run c
  refine ⟨hsound, ?_⟩
  rw [hsound.tree_eq, hsound.settings_eq, ← h.tree_eq, ← h.settings_eq]
  cases c with
  | edit first rows => exact h.spared
  | compute fluid =>
      rw [WellCall.run]
      cases x.1.compute fluid with
      | ok w => exact h.spared
      | error e => exact h.spared
  | clear => exact h.spared
  | assemble =>
      have hready : Ready x.1 (x.1.pressureEquations ⟨x.1.system, x.2.drops⟩).1 :=
        pressureEquationsOf_induction
          (fun _ _ _ hstep hx => ready_of_pressureEquation h.profile_isOf hx hstep) _ h.ready
      exact hready.spared

end Runs

/-- Every well that is made of a list of segments has, after any run with one record and a
    successful assembly at its end, residuals that the recorded drops explain. Where they are all
    zero and no valve is shut, the pressure difference to the top is the sum of the drops along the
    outlets. -/
theorem assembleAll_explained {all : List (Segment α)} {tree : SegmentTree α}
    (htree : SegmentTree.ofList all = .ok tree) (name : String) (phases : ActivePhases)
    (settings : Settings α) {start : WellRecord α}
    (hstart : (∃ mode, start = .producer tree.size mode) ∨
      ∃ mode, start = .injector tree.size mode)
    (calls : List (WellCall α)) {w w' : SegmentedWell α} {s s' : WellRecord α}
    (hrun : WellCall.runAll (make name tree phases settings, start) calls = (w, s))
    (hdone : w.assembleAll s = ((w', s'), .ok ())) :
    (∀ seg, 0 < seg → seg < tree.size → ∃ segment outlet d,
        tree.segment? seg = some segment ∧ tree.outlet? seg = some outlet ∧
        s'.drops[seg]? = some d ∧
        Explains w' segment seg outlet (w'.system.residual seg w'.layout.pressureSlot) d) ∧
      ((∀ segment ∈ all, segment.device.isShut = false) →
        (∀ seg, 0 < seg → seg < tree.size →
          w'.system.residual seg w'.layout.pressureSlot = 0) →
        ∀ seg < tree.size, ∃ path, tree.Leads seg path 0 ∧
          w'.unknowns.pressure seg - w'.unknowns.pressure 0
            = (path.map fun i => (s'.drops.getD i .zero).total).sum) := by
  obtain ⟨hwell, hsegments⟩ := SegmentTree.wellFormed_of_ofList htree
  have hdrops : start.drops = List.replicate tree.size .zero := by
    rcases hstart with ⟨mode, rfl⟩ | ⟨mode, rfl⟩ <;> rfl
  have hrecording : Recording tree phases settings (w, s) := by
    rw [← hrun]
    exact WellCall.runAll_induction (fun _ c hx => hx.run c) calls (recording_make name hdrops)
  obtain rfl : w.tree = tree := hrecording.tree_eq
  -- the assembly changes the system and the drops only
  rw [assembleAll, pressureEquations] at hdone
  generalize hsegs : List.range' 1 (w.tree.size - 1) = segs at hdone
  cases hassembled : w.pressureEquationsOf segs ⟨w.system, s.drops⟩ with
  | mk y result =>
      rw [hassembled] at hdone
      cases hdone
      have hall : ∀ seg, 0 < seg → seg < w.tree.size → ExplainedAt w y seg := by
        intro seg hpos hlt
        refine explainedAt_of_pressureEquationsOf hrecording.profile_isOf hrecording.ready
          hassembled seg (.inl ?_)
        rw [← hsegs, List.mem_range'_1]
        omega
      refine ⟨fun seg hpos hlt => ?_, fun hopen hzero seg hlt => ?_⟩
      · obtain ⟨segment, outlet, d, hsegment, houtlet, hd, hexplains⟩ := hall seg hpos hlt
        exact ⟨segment, outlet, d, hsegment, houtlet, hd, hexplains.flowing, hexplains.shut⟩
      · obtain ⟨path, hpath, _⟩ := hwell.exists_leads (List.getElem?_eq_getElem (i := seg)
          (l := w.tree.segments) (by rwa [SegmentTree.length_segments]))
        refine ⟨path, hpath, SegmentTree.WellFormed.sum_of_leads w.unknowns.pressure _ ?_ hpath⟩
        intro i o ho
        have hpos : 0 < i := by
          rcases Nat.eq_zero_or_pos i with rfl | hpos
          · cases ho
          · exact hpos
        have hi := SegmentTree.lt_size_of_outlet? ho
        obtain ⟨segment, outlet, d, hsegment, houtlet, hd, hexplains⟩ := hall i hpos hi
        cases ho.symm.trans houtlet
        have hresidual := hexplains.flowing
          (hopen segment (hsegments ▸ List.mem_of_getElem? hsegment))
        have hvanishes : y.system.residual i w.layout.pressureSlot = 0 := hzero i hpos hi
        rw [hvanishes] at hresidual
        rw [List.getD_eq_getElem?_getD, hd, Option.getD_some, Drop.total]
        linarith

/-- Two iterations, the second of which is in balance. -/
def iterations : List (WellCall ℚ) :=
  [.edit 0 [[-1, 0], [-1, 0], [-1, 0], [1, 0]], .compute WellCall.brine, .assemble,
    .edit 0 [[-3 / 100, 100000], [-1 / 100, 443500], [-2 / 100, 329000], [-1 / 100, 381500]],
    .compute WellCall.brine, .clear]

/-- What the first of them recorded has gone, and the pressure of segment number three is that of
    the top and the drops in between. -/
theorem assembleAll_explained_iterations : ∃ w s w' s',
    WellCall.runAll WellCall.sideBranch iterations = (w, s) ∧
      w.assembleAll s = ((w', s'), .ok ()) ∧ s.drops[2]? ≠ s'.drops[2]? ∧
      s'.drops[2]? = some ⟨100000, 128000, 1000⟩ ∧
      w'.unknowns.pressure 1 - w'.unknowns.pressure 0
        = ([1, 2].map fun i => (s'.drops.getD i .zero).total).sum := by
  have hfacts : let x := WellCall.runAll WellCall.sideBranch iterations
      let y := x.1.assembleAll x.2
      y.2 = .ok () ∧ x.2.drops[2]? ≠ y.1.2.drops[2]? ∧
        y.1.2.drops[2]? = some ⟨100000, 128000, 1000⟩ ∧
        ∀ seg < 4, 0 < seg → y.1.1.system.residual seg y.1.1.layout.pressureSlot = 0 := by
    decide +kernel
  rcases hx : WellCall.runAll WellCall.sideBranch iterations with ⟨w, s⟩
  rcases hy : w.assembleAll s with ⟨⟨w', s'⟩, result⟩
  simp only [hx, hy] at hfacts
  obtain ⟨rfl, hchanged, hnew, hbalance⟩ := hfacts
  have hopen : ∀ segment ∈ SegmentTree.sideBranch.segments, segment.device.isShut = false := by
    decide +kernel
  obtain ⟨path, hpath, hsum⟩ := (assembleAll_explained (by decide +kernel) "B" _ _
    (.inl ⟨.wrat, rfl⟩) iterations hx hy).2 hopen (fun seg hpos hlt => hbalance seg hlt hpos) 1
      (by decide)
  have hway : SegmentTree.sideBranch.Leads 1 [1, 2] 0 := .step rfl (.step rfl (.stay 0))
  rw [hway.unique hpath] at hsum
  exact ⟨w, s, w', s', rfl, hy, hchanged, hnew, hsum⟩

end SegmentedWell

end ReservoirWells
