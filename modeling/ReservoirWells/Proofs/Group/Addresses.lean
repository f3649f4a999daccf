import ReservoirWells.Proofs.Group.Totals
import ReservoirWells.Proofs.Group.Execution
import ReservoirWells.Proofs.Group.Push
import ReservoirWells.Proofs.Group.Tree

/-! # Addresses — two ways to the rate of a well

    A flat list of rates holds a block for every well.  The rate of a well is read from it in two ways:
    from the block that is cut out for the well, or entry by entry, where the place of an entry is
    computed from the number of the well and the place of the phase.

    * `Rates.address_ne`, `RateTable.blocks_overwrite` — the blocks of two wells share no entry;
    * `Node.produced_eq_surfaceRate` — an entry found by its address is the entry of the block;
    * `Node.productionRate_eq_rate` — so both ways have the same rate in every mode that has one;
    * `Hierarchy.productionRate_agrees` — and they fail alike, whatever the other wells flow. -/

namespace ReservoirWells

variable {α : Type}

/-! ## Blocks -/

/-- The entries of one well in a flat list of rates. -/
def Rates.block (flows : List α) (index count : Nat) : List α :=
  (flows.drop (index * count)).take count

theorem Rates.length_block {flows : List α} {index count : Nat}
    (hfull : index * count + count ≤ flows.length) :
    (Rates.block flows index count).length = count := by
  rw [block, List.length_take, List.length_drop]
  omega

/-- The number of the well can be read off the place of an entry. -/
theorem Rates.address_div {index count place : Nat} (hplace : place < count) :
    (index * count + place) / count = index := by
  rw [Nat.mul_comm, Nat.mul_add_div (by omega), Nat.div_eq_of_lt hplace, Nat.add_zero]

/-- Entries of different wells have different places. -/
theorem Rates.address_ne {index other count place place' : Nat} (hne : other ≠ index)
    (hplace : place < count) (hplace' : place' < count) :
    other * count + place ≠ index * count + place' := by
  intro heq
  refine hne ?_
  calc other = (other * count + place) / count := (address_div hplace).symm
    _ = (index * count + place') / count := by rw [heq]
    _ = index := address_div hplace'

/-- What is written to another well does not reach the block. -/
theorem Rates.block_set {flows : List α} {index other count place : Nat} (hne : other ≠ index)
    (hplace : place < count) (x : α) :
    Rates.block (flows.set (other * count + place) x) index count
      = Rates.block flows index count := by
  refine List.ext_getElem? fun place' => ?_
  rw [block, block, getElem?_block, getElem?_block]
  by_cases hlt : place' < count
  · rw [if_pos hlt, if_pos hlt, List.getElem?_set_ne (address_ne hne hplace hlt)]
  · rw [if_neg hlt, if_neg hlt]

/-- The rates with other values in one place of both lists. -/
def RateTable.overwrite (r : RateTable α) (place : Nat) (x y : α) : RateTable α :=
  { r with reservoir := r.reservoir.set place x, surface := r.surface.set place y }

/-- What is written to another well changes neither of the blocks of a well. -/
theorem RateTable.blocks_overwrite {r : RateTable α} {index other count place : Nat}
    {b : List α × List α} (hb : r.blocks index count = .ok b) (hne : other ≠ index)
    (hplace : place < count) (x y : α) :
    (r.overwrite (other * count + place) x y).blocks index count = .ok b := by
  obtain ⟨⟨hle₁, hle₂⟩, h₁, h₂⟩ := blocks_eq_ok.mp hb
  refine blocks_eq_ok.mpr ⟨⟨?_, ?_⟩, ?_, ?_⟩
  · rw [overwrite, List.length_set]
    exact hle₁
  · rw [overwrite, List.length_set]
    exact hle₂
  · exact (Rates.block_set hne hplace x).trans h₁
  · exact (Rates.block_set hne hplace y).trans h₂

/-! ## Rates of a block -/

namespace ActivePhases

/-- The surface rate of an active phase is the entry of the block at its place. -/
theorem surfaceRate_eq_getElem? {a : ActivePhases} {block : List α} {p : Phase} {place : Nat} {x : α}
    (hp : a.position? p = some place) (hx : block[place]? = some x) :
    a.surfaceRate block p = .ok x := by
  rw [surfaceRate, position_eq_ok.mpr hp]
  exact Rates.entry_eq_ok.mpr hx

theorem nodup_toList (a : ActivePhases) : a.toList.Nodup :=
  List.Nodup.filter a.isActive (by decide : Phase.all.Nodup)

/-- An active phase stands at its place. -/
theorem position?_getElem {a : ActivePhases} {place : Nat} (h : place < a.toList.length) :
    a.position? a.toList[place] = some place := by
  refine List.idxOf?_eq_some_iff.mpr ⟨h, rfl, ?_⟩
  intro earlier hlt heq
  exact absurd ((List.Nodup.getElem_inj_iff a.nodup_toList).mp heq) (by omega)

/-- The surface rates of the active phases, one by one, are the block. -/
theorem mapM_surfaceRate_toList {a : ActivePhases} {block : List α} (hfull : block.length = a.count) :
    a.toList.mapM (a.surfaceRate block) = .ok block := by
  refine mapM_of_forall₂ (List.forall₂_iff_get.mpr ⟨hfull.symm, fun place h₁ h₂ => ?_⟩)
  exact surfaceRate_eq_getElem? (position?_getElem h₁) (List.getElem?_eq_getElem h₂)

/-- A full block has the surface rate of a phase, unless the phase is not active. -/
theorem surfaceRate_cases {a : ActivePhases} {block : List α} (hfull : block.length = a.count)
    (p : Phase) : (∃ x, a.surfaceRate block p = .ok x) ∨
      a.surfaceRate block p = .error (.phaseNotActive p) := by
  cases hp : a.position? p with
  | none =>
      refine Or.inr ?_
      rw [surfaceRate, position, hp]
      rfl
  | some place => exact Or.inl (surfaceRate_ok (position_eq_ok.mpr hp) (by omega))

variable [Scalar α]

/-- A full block either has a rate in a mode that adds up surface rates, or a phase of the mode is
    not active. -/
theorem rate_cases {a : ActivePhases} (reservoir : List α) {surface : List α} {m : ProductionMode}
    {phases : List Phase} (hm : m.surfacePhases? = some phases) (hfull : surface.length = a.count) :
    (∃ x, a.rate reservoir surface (.production m) = .ok x) ∨
      ∃ p ∈ phases, a.rate reservoir surface (.production m) = .error (.phaseNotActive p) := by
  have hresv : m ≠ .resv := by
    rintro rfl
    cases hm
  simp only [rate_production a reservoir surface hresv, hm]
  rcases mapM_cases (a.surfaceRate surface) phases with ⟨xs, hxs⟩ | ⟨p, hp, e, he, herror⟩
  · rw [hxs]
    exact Or.inl ⟨_, rfl⟩
  · rcases surfaceRate_cases hfull p with ⟨x, hx⟩ | hinactive
    · rw [hx] at he
      cases he
    · obtain rfl : GroupError.phaseNotActive p = e := Except.error.inj (hinactive.symm.trans he)
      rw [herror]
      exact Or.inr ⟨p, hp, rfl⟩

/-- Reservoir volume is the total of a full block. -/
theorem rate_resv {a : ActivePhases} {reservoir : List α} (surface : List α)
    (hfull : reservoir.length = a.count) :
    a.rate reservoir surface (.production .resv) = .ok (Scalar.total reservoir) := by
  show a.sumActive reservoir .reservoir = _
  rw [sumActive, Rates.slice_eq_ok.mpr ⟨by omega, rfl⟩, List.drop_zero, ← hfull, List.take_length]
  rfl

end ActivePhases

/-! ## Rates of a well -/

variable [Scalar α]

namespace Node

variable {n : Node α} {a : ActivePhases} {index : Nat}

/-- A producer that is joined to the table is a well and no injector. -/
theorem of_attached_producer (h : n.attachment? = some ⟨index, .producer⟩) :
    n.isGroup = false ∧ n.isInjector = false ∧ n.tableIndex = .ok index := by
  have hkind : ∀ kind, n.isKind kind = (some WellKind.producer == some kind) := by
    intro kind
    rw [isKind, h]
    rfl
  refine ⟨isGroup_of_isKind (hkind .producer), hkind .injector, ?_⟩
  rw [tableIndex_eq_ok, h]
  rfl

/-- What such a well produces of a phase is the entry of its block. -/
theorem produced_eq_surfaceRate (h : n.attachment? = some ⟨index, .producer⟩) {flows : List α}
    (hfull : index * a.count + a.count ≤ flows.length) (p : Phase) :
    n.produced a flows p = a.surfaceRate (Rates.block flows index a.count) p := by
  obtain ⟨_, hinjector, hindex⟩ := of_attached_producer h
  rw [produced, ActivePhases.surfaceRate]
  cases hp : a.position p with
  | error e => rfl
  | ok place =>
      have hlt := ActivePhases.position?_lt_count (ActivePhases.position_eq_ok.mp hp)
      have hx := List.getElem?_eq_getElem (by omega : index * a.count + place < flows.length)
      have hblock : (Rates.block flows index a.count)[place]?
          = some flows[index * a.count + place] := by
        rw [Rates.block, getElem?_block, if_pos hlt, hx]
      show n.producedAt a.count place flows = Rates.entry _ .surface place
      rw [Rates.entry_eq_ok.mpr hblock, producedAt, if_neg (by rw [hinjector]; decide), hindex]
      exact Rates.entry_eq_ok.mpr hx

/-- The rate of such a well, added up from single entries, is the rate of its block. -/
theorem productionRate_eq_rate (h : n.attachment? = some ⟨index, .producer⟩) {flows : List α}
    (hfull : index * a.count + a.count ≤ flows.length) {m : ProductionMode} (hm : m.isRate = true) :
    let block := Rates.block flows index a.count
    n.productionRate a flows m = a.rate block block (.production m) := by
  intro block
  obtain ⟨hgroup, _⟩ := of_attached_producer h
  have hblock : block.length = a.count := Rates.length_block hfull
  have hproduced : n.produced a flows = a.surfaceRate block :=
    funext (produced_eq_surfaceRate h hfull)
  rw [productionRate, if_neg (by rw [hgroup]; decide), hproduced]
  by_cases hresv : m = .resv
  · rw [hresv, ActivePhases.rate_resv block hblock]
    show (a.toList.mapM (a.surfaceRate block)).map Scalar.total = _
    rw [ActivePhases.mapM_surfaceRate_toList hblock]
    rfl
  · rw [ActivePhases.rate_production a block block hresv, if_neg (by simpa using hresv)]
    cases hphases : m.surfacePhases? with
    | some phases => rfl
    | none =>
        rw [ProductionMode.isRate, hphases] at hm
        exact absurd (by simpa using hm) hresv

/-- A mode without a rate is refused both ways. -/
theorem productionRate_unsupported (h : n.attachment? = some ⟨index, .producer⟩)
    {m : ProductionMode} (hm : m.isRate = false) (flows reservoir surface : List α) :
    n.productionRate a flows m
        = .error (.unsupportedMode (.production m) .wellProductionRate) ∧
      a.rate reservoir surface (.production m)
        = .error (.unsupportedMode (.production m) .productionRate) := by
  obtain ⟨hgroup, _⟩ := of_attached_producer h
  rw [productionRate, if_neg (by rw [hgroup]; decide)]
  cases m <;> first | exact ⟨rfl, rfl⟩ | cases hm

end Node

namespace Hierarchy

variable {h : Hierarchy α} {id index : Nat} {n : Node α} {r : RateTable α} {b : List α × List α}

/-- The rate of a joined producer, taken from its blocks or added up from single entries of the
    lists, is the same in every mode about rates. Both ways refuse the same inactive phase, and all
    other modes. Neither reads an entry outside of the two blocks of the well, and what belongs to
    another well is outside of them. -/
theorem productionRate_agrees (hn : h.node id = .ok n)
    (hattached : n.attachment? = some ⟨index, .producer⟩)
    (hblocks : r.blocks index h.phases.count = .ok b) :
    (∀ m ∈ [ProductionMode.orat, .wrat, .grat, .lrat],
      h.productionRate id r.surface m = h.phases.rate b.1 b.2 (.production m) ∧
      ((∃ x, h.phases.rate b.1 b.2 (.production m) = .ok x) ∨
        ∃ p, h.phases.rate b.1 b.2 (.production m) = .error (.phaseNotActive p))) ∧
    (∃ x, h.productionRate id r.reservoir .resv = .ok x ∧
      h.phases.rate b.1 b.2 (.production .resv) = .ok x) ∧
    (∀ m ∉ [ProductionMode.orat, .wrat, .grat, .lrat, .resv], ∀ flows,
      h.productionRate id flows m
        = .error (.unsupportedMode (.production m) .wellProductionRate) ∧
      h.phases.rate b.1 b.2 (.production m)
        = .error (.unsupportedMode (.production m) .productionRate)) ∧
    (∀ r' : RateTable α, r'.blocks index h.phases.count = .ok b → ∀ m,
      h.productionRate id r'.surface m = h.productionRate id r.surface m ∧
      h.productionRate id r'.reservoir m = h.productionRate id r.reservoir m) ∧
    ∀ other ≠ index, ∀ place < h.phases.count,
      (∀ place' < h.phases.count,
        other * h.phases.count + place ≠ index * h.phases.count + place') ∧
      ∀ x y, (r.overwrite (other * h.phases.count + place) x y).blocks index h.phases.count
        = .ok b := by
  have hrate : ∀ flows m, h.productionRate id flows m = n.productionRate h.phases flows m := by
    intro flows m
    rw [productionRate, hn]
    rfl
  obtain ⟨hlen₁, hlen₂⟩ := RateTable.length_of_blocks hblocks
  -- both lists of a table with these blocks, read entry by entry, have the rates of the blocks
  have hread : ∀ {r' : RateTable α}, r'.blocks index h.phases.count = .ok b → ∀ m,
      m.isRate = true →
      h.productionRate id r'.reservoir m = h.phases.rate b.1 b.1 (.production m) ∧
      h.productionRate id r'.surface m = h.phases.rate b.2 b.2 (.production m) := by
    intro r' hr' m hm
    obtain ⟨⟨hle₁, hle₂⟩, h₁, h₂⟩ := RateTable.blocks_eq_ok.mp hr'
    rw [hrate, hrate, Node.productionRate_eq_rate hattached hle₁ hm,
      Node.productionRate_eq_rate hattached hle₂ hm, ← h₁, ← h₂]
    exact ⟨rfl, rfl⟩
  refine ⟨?_, ?_, ?_, ?_, ?_⟩
  · intro m hm
    obtain ⟨phases, hphases⟩ : ∃ phases, m.surfacePhases? = some phases := by
      simp only [List.mem_cons, List.not_mem_nil, or_false] at hm
      rcases hm with rfl | rfl | rfl | rfl <;> exact ⟨_, rfl⟩
    have hresv : m ≠ .resv := by
      rintro rfl
      cases hphases
    have hm : m.isRate = true := by
      rw [ProductionMode.isRate, hphases]
      rfl
    refine ⟨(hread hblocks m hm).2.trans ?_, ?_⟩
    · rw [ActivePhases.rate_production _ _ _ hresv, ActivePhases.rate_production _ _ _ hresv]
    · rcases ActivePhases.rate_cases b.1 hphases hlen₂ with hok | ⟨p, _, herror⟩
      · exact Or.inl hok
      · exact Or.inr ⟨p, herror⟩
  · rw [(hread hblocks .resv rfl).1, ActivePhases.rate_resv b.1 hlen₁,
      ActivePhases.rate_resv b.2 hlen₁]
    exact ⟨_, rfl, rfl⟩
  · intro m hm flows
    rw [hrate]
    refine Node.productionRate_unsupported hattached ?_ flows b.1 b.2
    cases m <;> first | rfl | exact absurd (by decide) hm
  · intro r' hr' m
    cases hm : m.isRate with
    | true =>
        obtain ⟨hreservoir, hsurface⟩ := hread hblocks m hm
        obtain ⟨hreservoir', hsurface'⟩ := hread hr' m hm
        exact ⟨hsurface'.trans hsurface.symm, hreservoir'.trans hreservoir.symm⟩
    | false =>
        have hrefused := fun flows =>
          (Node.productionRate_unsupported (a := h.phases) hattached hm flows b.1 b.2).1
        simp only [hrate, hrefused, and_self]
  · intro other hne place hplace
    exact ⟨fun place' hplace' => Rates.address_ne hne hplace hplace',
      RateTable.blocks_overwrite hblocks hne hplace⟩

/-- A field with two producers of water and oil. -/
def pairedFieldCalls : List (Call ℚ) := [
  .enrol "P1" .producer [.bhp 100],
  .enrol "P2" .producer [.bhp 100],
  .addGroup "FIELD" none .one ⟨.default, .default⟩,
  .addWell "P1" (some 0) .one (.producer .default),
  .addWell "P2" (some 0) .one (.producer .default),
  .attach 1 0,
  .attach 2 1]

/-- The hierarchy of that field. -/
def pairedField : Hierarchy ℚ := ((Site.vacant ⟨true, true, false⟩).serve pairedFieldCalls).hierarchy

/-- The second of the producers. -/
def pairedFieldWell : Node ℚ := pairedField.nodes.get ⟨2, by decide +kernel⟩

/-- Rates of the two. -/
def pairedFieldRates : RateTable ℚ := ⟨[200, 200], [-1, -1, -3, -4], [-1, -1, -2, -3]⟩

/-- Liquid of the second producer is five, and stays so when the first one flows nine of oil; there is
    no gas. -/
theorem productionRate_agrees_pairedField :
    pairedField.productionRate 2 (pairedFieldRates.overwrite 1 0 (-9)).surface .lrat = .ok (-5) ∧
      pairedField.phases.rate [-3, -4] [-2, -3] (.production .lrat) = .ok (-5 : ℚ) ∧
      pairedField.productionRate 2 pairedFieldRates.surface .grat = .error (.phaseNotActive .gas) := by
  have hn : pairedField.node 2 = .ok pairedFieldWell := node_eq_ok.mpr (List.getElem?_eq_getElem _)
  have hattached : pairedFieldWell.attachment? = some ⟨1, .producer⟩ := by decide +kernel
  have hown : pairedFieldRates.blocks 1 pairedField.phases.count = .ok ([-3, -4], [-2, -3]) := by
    decide +kernel
  obtain ⟨hsurface, _, _, hblocks, hothers⟩ := productionRate_agrees hn hattached hown
  have hliquid : pairedField.phases.rate [-3, -4] [-2, -3] (.production .lrat) = .ok (-5 : ℚ) := by
    decide +kernel
  refine ⟨?_, hliquid, ?_⟩
  · have hwritten := (hothers 0 (by decide) 1 (by decide +kernel)).2 0 (-9)
    rw [(hblocks (pairedFieldRates.overwrite 1 0 (-9)) hwritten .lrat).1,
      (hsurface .lrat (by decide)).1]
    exact hliquid
  · rw [(hsurface .grat (by decide)).1]
    decide +kernel

end Hierarchy

end ReservoirWells
