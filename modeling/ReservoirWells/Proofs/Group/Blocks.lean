import ReservoirWells.Group.Distribution
import ReservoirWells.Proofs.Fallible

/-! # Blocks — which rates and controls a mode has

    A block of rates holds one entry per active phase, and a mode picks its rate out of a block by
    the places of its phases.  So whether a mode has a rate depends on the active phases alone:

    * `ActivePhases.Supports` — the mode is about rates of active phases, which is the case when it
      has a rate in any block whatever (`ActivePhases.supports_of_rate`);
    * `ActivePhases.rate_ok` — such a mode has a rate in every full block;
    * `groupControl_ok` — and there is a control that holds a well to a target in it. -/

namespace ReservoirWells

variable {α : Type} [Scalar α]

/-! ## Reading lists of rates -/

omit [Scalar α] in
/-- A stretch of a list is read exactly when it ends within the list. -/
theorem Rates.slice_eq_ok {rates l : List α} {kind : RateKind} {start count : Nat} :
    Rates.slice rates kind start count = .ok l ↔
      start + count ≤ rates.length ∧ (rates.drop start).take count = l := by
  rw [slice]
  by_cases h : start + count ≤ rates.length
  · rw [if_pos h]
    exact ⟨fun heq => ⟨h, Except.ok.inj heq⟩, fun heq => congrArg Except.ok heq.2⟩
  · rw [if_neg h]
    refine ⟨fun heq => ?_, fun heq => absurd heq.1 h⟩
    cases heq

omit [Scalar α] in
theorem Rates.entry_eq_ok {rates : List α} {kind : RateKind} {place : Nat} {x : α} :
    Rates.entry rates kind place = .ok x ↔ rates[place]? = some x := by
  cases h : rates[place]? with
  | none => simp [entry, h]
  | some y => simp [entry, h]

omit [Scalar α] in
/-- The blocks of a well are read exactly when both lists reach to their ends. -/
theorem RateTable.blocks_eq_ok {r : RateTable α} {well phases : Nat} {b : List α × List α} :
    r.blocks well phases = .ok b ↔
      (well * phases + phases ≤ r.reservoir.length ∧ well * phases + phases ≤ r.surface.length) ∧
      (r.reservoir.drop (well * phases)).take phases = b.1 ∧
      (r.surface.drop (well * phases)).take phases = b.2 := by
  obtain ⟨b₁, b₂⟩ := b
  rw [blocks]
  cases h₁ : Rates.slice r.reservoir .reservoir (well * phases) phases with
  | error e =>
      constructor
      · intro h
        cases h
      · rintro ⟨⟨hle, _⟩, _⟩
        rw [Rates.slice_eq_ok.mpr ⟨hle, rfl⟩] at h₁
        cases h₁
  | ok l₁ =>
      obtain ⟨hle₁, hl₁⟩ := Rates.slice_eq_ok.mp h₁
      cases h₂ : Rates.slice r.surface .surface (well * phases) phases with
      | error e =>
          constructor
          · intro h
            cases h
          · rintro ⟨⟨_, hle⟩, _⟩
            rw [Rates.slice_eq_ok.mpr ⟨hle, rfl⟩] at h₂
            cases h₂
      | ok l₂ =>
          obtain ⟨hle₂, hl₂⟩ := Rates.slice_eq_ok.mp h₂
          show Except.ok (l₁, l₂) = Except.ok (b₁, b₂) ↔ _
          rw [Except.ok.injEq, Prod.mk.injEq, hl₁, hl₂]
          exact ⟨fun h => ⟨⟨hle₁, hle₂⟩, h⟩, fun h => h.2⟩

omit [Scalar α] in
/-- The blocks of a well are full. -/
theorem RateTable.length_of_blocks {r : RateTable α} {well phases : Nat} {b : List α × List α}
    (h : r.blocks well phases = .ok b) : b.1.length = phases ∧ b.2.length = phases := by
  obtain ⟨⟨hle₁, hle₂⟩, h₁, h₂⟩ := RateTable.blocks_eq_ok.mp h
  rw [← h₁, ← h₂, List.length_take, List.length_drop, List.length_take, List.length_drop]
  omega

/-! ## The rate of a mode -/

/-- The phases whose surface rates a mode needs; `none` for a mode without a rate. -/
def Mode.ratePhases? : Mode → Option (List Phase)
  | .production .resv => some []
  | .production m => m.surfacePhases?
  | .injection .rate => some []
  | .injection .resv => some []
  | .injection _ => none

namespace ActivePhases

/-- The mode has a rate, and the phases that it needs are active. -/
def Supports (a : ActivePhases) (mode : Mode) : Prop :=
  ∃ phases, mode.ratePhases? = some phases ∧ ∀ p ∈ phases, ∃ place, a.position p = .ok place

theorem position_eq_ok {a : ActivePhases} {p : Phase} {place : Nat} :
    a.position p = .ok place ↔ a.position? p = some place := by
  cases h : a.position? p with
  | none => simp [position, h]
  | some k => simp [position, h]

theorem position?_lt_count {a : ActivePhases} {p : Phase} {place : Nat}
    (h : a.position? p = some place) : place < a.count :=
  (List.idxOf?_eq_some_iff.mp h).1

theorem count_le_three (a : ActivePhases) : a.count ≤ 3 :=
  List.length_filter_le a.isActive Phase.all

omit [Scalar α] in
/-- The surface rate of an active phase is in every full block. -/
theorem surfaceRate_ok {a : ActivePhases} {block : List α} {p : Phase} {place : Nat}
    (hp : a.position p = .ok place) (hblock : a.count ≤ block.length) :
    ∃ x, a.surfaceRate block p = .ok x := by
  have hlt := position?_lt_count (position_eq_ok.mp hp)
  rw [surfaceRate, hp]
  exact ⟨_, Rates.entry_eq_ok.mpr (List.getElem?_eq_getElem (by omega))⟩

omit [Scalar α] in
/-- A phase whose surface rate is in some block is active. -/
theorem position_of_surfaceRate {a : ActivePhases} {block : List α} {p : Phase} {x : α}
    (h : a.surfaceRate block p = .ok x) : ∃ place, a.position p = .ok place := by
  rw [surfaceRate] at h
  cases hp : a.position p with
  | error e => rw [hp] at h; cases h
  | ok place => exact ⟨place, rfl⟩

/-- The total of the active phases is in every full block. -/
theorem sumActive_ok {a : ActivePhases} {block : List α} (kind : RateKind)
    (hblock : a.count ≤ block.length) : ∃ x, a.sumActive block kind = .ok x := by
  rw [sumActive, Rates.slice_eq_ok.mpr ⟨by omega, rfl⟩]
  exact ⟨_, rfl⟩

/-- A production mode other than the one about reservoir volume has the total over its phases. -/
theorem rate_production (a : ActivePhases) (reservoir surface : List α) {m : ProductionMode}
    (hm : m ≠ .resv) : a.rate reservoir surface (.production m) = match m.surfacePhases? with
      | some phases => (phases.mapM (a.surfaceRate surface)).map Scalar.total
      | none => .error (.unsupportedMode (.production m) .productionRate) := by
  cases m <;> first | rfl | exact absurd rfl hm

/-- A mode that has a rate in some block is supported. -/
theorem supports_of_rate {a : ActivePhases} {reservoir surface : List α} {mode : Mode} {x : α}
    (h : a.rate reservoir surface mode = .ok x) : a.Supports mode := by
  cases mode with
  | injection m =>
      cases m with
      | rate => exact ⟨[], rfl, fun p hp => by cases hp⟩
      | resv => exact ⟨[], rfl, fun p hp => by cases hp⟩
      | _ => cases h
  | production m =>
      by_cases hm : m = .resv
      · rw [hm]
        exact ⟨[], rfl, fun p hp => by cases hp⟩
      · rw [rate_production a _ _ hm] at h
        cases hp : m.surfacePhases? with
        | none => rw [hp] at h; cases h
        | some phases =>
            rw [hp] at h
            refine ⟨phases, ?_, ?_⟩
            · cases m <;> first | exact hp | exact absurd rfl hm
            · cases hx : phases.mapM (a.surfaceRate surface) with
              | error e => simp only [hx] at h; cases h
              | ok xs =>
                  intro p hmem
                  obtain ⟨y, hy⟩ := mapM_ok_iff.mp ⟨xs, hx⟩ p hmem
                  exact position_of_surfaceRate hy

theorem ratePhases?_production {m : ProductionMode} (hm : m ≠ .resv) :
    (Mode.production m).ratePhases? = m.surfacePhases? := by
  cases m <;> first | rfl | exact absurd rfl hm

/-- A supported mode has a rate in every full block. -/
theorem rate_ok {a : ActivePhases} {mode : Mode} (h : a.Supports mode) {reservoir surface : List α}
    (hr : a.count ≤ reservoir.length) (hs : a.count ≤ surface.length) :
    ∃ x, a.rate reservoir surface mode = .ok x := by
  obtain ⟨phases, hphases, hactive⟩ := h
  cases mode with
  | injection m =>
      cases m with
      | rate => exact sumActive_ok .surface hs
      | resv => exact sumActive_ok .reservoir hr
      | _ => cases hphases
  | production m =>
      by_cases hm : m = .resv
      · rw [hm]
        exact sumActive_ok .reservoir hr
      · rw [ratePhases?_production hm] at hphases
        obtain ⟨xs, hxs⟩ : ∃ xs, phases.mapM (a.surfaceRate surface) = .ok xs := by
          refine mapM_ok_iff.mpr fun p hp => ?_
          obtain ⟨place, hplace⟩ := hactive p hp
          exact surfaceRate_ok hplace hs
        rw [rate_production a _ _ hm, hphases]
        exact ⟨_, by simp only [hxs]; rfl⟩

/-- Phases that all have a place have weights. -/
theorem weights_ok {a : ActivePhases} {phases : List Phase}
    (h : ∀ p ∈ phases, ∃ place, a.position p = .ok place) :
    ∃ w : Triple α, a.weights phases = .ok w := by
  rw [weights]
  generalize Triple.const (0 : α) = start
  induction phases generalizing start with
  | nil => exact ⟨start, rfl⟩
  | cons p rest ih =>
      obtain ⟨place, hp⟩ := h p (List.mem_cons_self ..)
      rw [List.foldlM_cons, hp]
      exact ih (fun q hq => h q (List.mem_cons_of_mem p hq)) _

end ActivePhases

/-- A supported mode has a control for every target. -/
theorem groupControl_ok {a : ActivePhases} {mode : Mode} (h : a.Supports mode) (target : α) :
    ∃ c, groupControl a mode target = .ok c := by
  obtain ⟨phases, hphases, hactive⟩ := h
  cases mode with
  | injection m =>
      cases m with
      | rate => exact ⟨_, rfl⟩
      | resv => exact ⟨_, rfl⟩
      | _ => cases hphases
  | production m =>
      by_cases hm : m = .resv
      · rw [hm]
        exact ⟨_, rfl⟩
      · rw [ActivePhases.ratePhases?_production hm] at hphases
        obtain ⟨w, hw⟩ : ∃ w : Triple α, a.weights phases = .ok w :=
          ActivePhases.weights_ok hactive
        refine ⟨.surfaceRate target w, ?_⟩
        cases m <;> cases hphases <;> first
          | exact absurd rfl hm
          | simp only [groupControl, ProductionMode.surfacePhases?, hw]; rfl

/-- The target of a group control is the one that was asked for. -/
theorem target_of_groupControl {a : ActivePhases} {mode : Mode} {target : α} {c : Control α}
    (h : groupControl a mode target = .ok c) : c.target = target := by
  have hsurface : ∀ phases : List Phase,
      (a.weights phases).map (.surfaceRate target) = .ok c → c.target = target := by
    intro phases hc
    cases hw : a.weights (α := α) phases with
    | error e => rw [hw] at hc; cases hc
    | ok w =>
        rw [hw] at hc
        cases hc
        rfl
  cases mode with
  | injection m =>
      cases m with
      | rate => cases h; rfl
      | resv => cases h; rfl
      | _ => cases h
  | production m =>
      cases m with
      | resv => cases h; rfl
      | orat => exact hsurface [.oil] h
      | wrat => exact hsurface [.water] h
      | grat => exact hsurface [.gas] h
      | lrat => exact hsurface [.oil, .water] h
      | _ => cases h

end ReservoirWells
