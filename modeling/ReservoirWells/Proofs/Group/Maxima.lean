import ReservoirWells.Proofs.Binary64.Rounding
import ReservoirWells.Proofs.Group.Withdrawal

/-! # Maxima — the largest well, however the groups are nested

    The search for the largest well asks every group for the largest one below it and compares what
    the groups put forward.  Among numbers the comparison is associative (`Forest.worse_assoc`), so
    the groups make no difference and the search is one scan over the wells from left to right:

    * `Forest.worst_eq_foldlM` — the search and the scan agree, in what they find and in how they fail;
    * `Forest.Numbers.scan_cases` — a scan finds nothing in an empty list, and the first of the largest
      wells in any other one;
    * `Hierarchy.worst_scans` — hence the search of a subtree finds the first of its largest wells;
    * `Hierarchy.not_forall_worst_scans` — a well whose rate is no number hides the larger wells that
      come after it in its group. -/

namespace ReservoirWells

variable {α : Type} [Scalar α]

/-! ## Scanning a list of wells -/

/-- The magnitude of a well is that of the rate of its own blocks. -/
theorem Node.magnitude_eq_ok {n : Node α} {a : ActivePhases} {rates : RateTable α}
    {m : ProductionMode} {x : α} :
    n.magnitude a rates m = .ok x ↔ ∃ index b rate, n.tableIndex = .ok index ∧
      rates.blocks index a.count = .ok b ∧ a.rate b.1 b.2 (.production m) = .ok rate ∧
      x = Scalar.abs rate := by
  constructor
  · intro h
    rw [magnitude] at h
    obtain ⟨index, hi, h⟩ := bind_eq_ok.mp h
    obtain ⟨b, hb, h⟩ := bind_eq_ok.mp h
    obtain ⟨rate, hrate, h⟩ := bind_eq_ok.mp h
    exact ⟨index, b, rate, hi, hb, hrate, (Except.ok.inj h).symm⟩
  · rintro ⟨index, b, rate, hi, hb, hrate, rfl⟩
    simp only [magnitude, hi, bind, Except.bind, hb, hrate]
    rfl

namespace Forest

/-- One step of a scan: the well takes the place of the best one so far if it is strictly larger. -/
def challenge (a : ActivePhases) (rates : RateTable α) (m : ProductionMode)
    (best : Option (Nat × α)) (w : Nat × Node α) : Except GroupError (Option (Nat × α)) := do
  let rate ← w.2.magnitude a rates m
  return worse best (some (w.1, rate))

/-- The wells of a list that have a magnitude have one that is a number. -/
def Numbers (a : ActivePhases) (rates : RateTable α) (m : ProductionMode)
    (ws : List (Nat × Node α)) : Prop :=
  ∀ w ∈ ws, ∀ x, w.2.magnitude a rates m = .ok x → x ≤ x

/-- The well is the first of the largest ones of a list: those before it are smaller, and those after
    it are not larger. -/
def FirstLargest (a : ActivePhases) (rates : RateTable α) (m : ProductionMode)
    (ws : List (Nat × Node α)) (top : Nat × α) : Prop :=
  ∃ before w after, ws = before ++ w :: after ∧ w.1 = top.1 ∧
    w.2.magnitude a rates m = .ok top.2 ∧
    (∀ v ∈ before, ∃ y, v.2.magnitude a rates m = .ok y ∧ y < top.2) ∧
    ∀ v ∈ after, ∃ y, v.2.magnitude a rates m = .ok y ∧ y ≤ top.2

theorem FirstLargest.exists_mem {a : ActivePhases} {rates : RateTable α} {m : ProductionMode}
    {ws : List (Nat × Node α)} {top : Nat × α} (h : FirstLargest a rates m ws top) :
    ∃ w ∈ ws, w.1 = top.1 ∧ w.2.magnitude a rates m = .ok top.2 := by
  obtain ⟨before, w, after, rfl, hid, hx, _⟩ := h
  exact ⟨w, List.mem_append.mpr (Or.inr (List.mem_cons_self ..)), hid, hx⟩

@[simp] theorem worse_none_left (candidate : Option (Nat × α)) : worse none candidate = candidate :=
  rfl

@[simp] theorem worse_none_right (best : Option (Nat × α)) : worse best none = best := by
  cases best <;> rfl

theorem worse_some (b c : Nat × α) :
    worse (some b) (some c) = if b.2 < c.2 then some c else some b := rfl

theorem challenge_of_ok {a : ActivePhases} {rates : RateTable α} {m : ProductionMode}
    {w : Nat × Node α} {x : α} (hx : w.2.magnitude a rates m = .ok x) (best : Option (Nat × α)) :
    challenge a rates m best w = .ok (worse best (some (w.1, x))) := by
  rw [challenge, hx]
  rfl

theorem challenge_of_error {a : ActivePhases} {rates : RateTable α} {m : ProductionMode}
    {w : Nat × Node α} {e : GroupError} (he : w.2.magnitude a rates m = .error e)
    (best : Option (Nat × α)) : challenge a rates m best w = .error e := by
  rw [challenge, he]
  rfl

variable {a : ActivePhases} {rates : RateTable α} {m : ProductionMode}

theorem challenge_eq_ok {best next : Option (Nat × α)} {w : Nat × Node α} :
    challenge a rates m best w = .ok next ↔
      ∃ x, w.2.magnitude a rates m = .ok x ∧ worse best (some (w.1, x)) = next := by
  constructor
  · intro h
    obtain ⟨x, hx, h⟩ := bind_eq_ok.mp h
    exact ⟨x, hx, Except.ok.inj h⟩
  · rintro ⟨x, hx, rfl⟩
    exact challenge_of_ok hx best

theorem numbered_none : Numbered (none : Option (Nat × α)) := by
  intro c hc
  cases hc

theorem Numbers.numbered {ws : List (Nat × Node α)} (hws : Numbers a rates m ws) {w : Nat × Node α}
    (hw : w ∈ ws) {x : α} (hx : w.2.magnitude a rates m = .ok x) : Numbered (some (w.1, x)) := by
  rintro c ⟨⟩
  exact hws w hw x hx

theorem Numbers.tail {ws : List (Nat × Node α)} {w : Nat × Node α}
    (h : Numbers a rates m (w :: ws)) : Numbers a rates m ws :=
  fun v hv => h v (List.mem_cons_of_mem w hv)

/-- A scan of numbers finds a number. -/
theorem Numbers.numbered_scan {ws : List (Nat × Node α)} (hws : Numbers a rates m ws)
    {best found : Option (Nat × α)} (hbest : Numbered best)
    (h : ws.foldlM (challenge a rates m) best = .ok found) : Numbered found := by
  induction ws generalizing best with
  | nil =>
      obtain rfl : best = found := Except.ok.inj h
      exact hbest
  | cons w rest ih =>
      rw [List.foldlM_cons] at h
      obtain ⟨next, hnext, h⟩ := bind_eq_ok.mp h
      obtain ⟨x, hx, rfl⟩ := challenge_eq_ok.mp hnext
      exact ih hws.tail (hbest.worse (hws.numbered (List.mem_cons_self ..) hx)) h

section Ordered

variable [OrderedScalar α]

/-- A well in front of a list keeps the place of the first largest one, or leaves it to the one of the
    list if that is strictly larger. -/
theorem FirstLargest.cons {ws : List (Nat × Node α)} {w : Nat × Node α} {x : α}
    (hx : w.2.magnitude a rates m = .ok x) (hown : x ≤ x) {top : Nat × α} (htop : top.2 ≤ top.2)
    (h : FirstLargest a rates m ws top) :
    FirstLargest a rates m (w :: ws) (if x < top.2 then top else (w.1, x)) := by
  obtain ⟨before, v, after, rfl, hid, hv, hbefore, hafter⟩ := h
  by_cases hlt : x < top.2
  · rw [if_pos hlt]
    refine ⟨w :: before, v, after, rfl, hid, hv, ?_, hafter⟩
    exact List.forall_mem_cons.mpr ⟨⟨x, hx, hlt⟩, hbefore⟩
  · -- the well stays, and nothing after it is larger than the largest of the list
    have hle : top.2 ≤ x := OrderedScalar.le_of_not_lt htop hown hlt
    rw [if_neg hlt]
    refine ⟨[], w, before ++ v :: after, rfl, rfl, hx, ?_, ?_⟩
    · intro u hu
      cases hu
    · intro u hu
      rcases List.mem_append.mp hu with hin | hin
      · obtain ⟨y, hy, hyt⟩ := hbefore u hin
        exact ⟨y, hy, OrderedScalar.le_trans (OrderedScalar.lt_iff.mp hyt).1 hle⟩
      · rcases List.mem_cons.mp hin with rfl | hin
        · exact ⟨top.2, hv, hle⟩
        · obtain ⟨y, hy, hyt⟩ := hafter u hin
          exact ⟨y, hy, OrderedScalar.le_trans hyt hle⟩

/-- Among numbers it does not matter which two of three candidates are compared first. The earliest of
    equal ones wins either way. -/
theorem worse_assoc {x y z : Option (Nat × α)} (hx : Numbered x) (hy : Numbered y)
    (hz : Numbered z) : worse (worse x y) z = worse x (worse y z) := by
  cases x with
  | none => rfl
  | some x =>
      cases y with
      | none => rfl
      | some y =>
          cases z with
          | none => simp
          | some z =>
              by_cases hxy : x.2 < y.2
              · rw [worse_some x y, if_pos hxy, worse_some y z]
                by_cases hyz : y.2 < z.2
                · have hxz := OrderedScalar.lt_of_lt_of_le hxy (OrderedScalar.lt_iff.mp hyz).1
                  rw [if_pos hyz, worse_some, if_pos hxz]
                · rw [if_neg hyz, worse_some, if_pos hxy]
              · rw [worse_some x y, if_neg hxy, worse_some y z]
                by_cases hyz : y.2 < z.2
                · rw [if_pos hyz]
                · -- the last candidate is at most the middle one, which is at most the first
                  have hyx := OrderedScalar.le_of_not_lt (hy y rfl) (hx x rfl) hxy
                  have hzy := OrderedScalar.le_of_not_lt (hz z rfl) (hy y rfl) hyz
                  have hzx := OrderedScalar.not_lt_of_le (OrderedScalar.le_trans hzy hyx)
                  rw [if_neg hyz, worse_some, worse_some, if_neg hzx, if_neg hxy]

/-- A scan may start from nothing and be compared with an earlier candidate afterwards. -/
theorem Numbers.scan_eq_map {ws : List (Nat × Node α)} (hws : Numbers a rates m ws)
    {best : Option (Nat × α)} (hbest : Numbered best) :
    ws.foldlM (challenge a rates m) best
      = (ws.foldlM (challenge a rates m) none).map (worse best) := by
  induction ws generalizing best with
  | nil => exact congrArg Except.ok (worse_none_right best).symm
  | cons w rest ih =>
      rw [List.foldlM_cons, List.foldlM_cons]
      cases hx : w.2.magnitude a rates m with
      | error e =>
          rw [challenge_of_error hx, challenge_of_error hx]
          rfl
      | ok x =>
          have hown := hws.numbered (List.mem_cons_self ..) hx
          rw [challenge_of_ok hx, challenge_of_ok hx, worse_none_left]
          show rest.foldlM (challenge a rates m) (worse best (some (w.1, x)))
            = (rest.foldlM (challenge a rates m) (some (w.1, x))).map (worse best)
          rw [ih hws.tail (hbest.worse hown), ih hws.tail hown]
          cases hrest : rest.foldlM (challenge a rates m) none with
          | error e => rfl
          | ok found =>
              have hlater := hws.tail.numbered_scan numbered_none hrest
              exact congrArg Except.ok (worse_assoc hbest hown hlater)

/-- The search through the groups is the scan over the wells, whatever comes of it. -/
theorem worst_eq_foldlM {f : Forest α} (hf : Numbers a rates m f.wells) {best : Option (Nat × α)}
    (hbest : Numbered best) :
    f.worst a rates m best = f.wells.foldlM (challenge a rates m) best := by
  induction f generalizing best with
  | nil => rfl
  | well id n next ih =>
      rw [worst, wells, List.foldlM_cons]
      cases hx : n.magnitude a rates m with
      | error e => rw [challenge_of_error hx]; rfl
      | ok x =>
          rw [challenge_of_ok hx]
          exact ih hf.tail (hbest.worse (hf.numbered (List.mem_cons_self ..) hx))
  | group id n below next ihb ihn =>
      have hbelow : Numbers a rates m below.wells :=
        fun w hw => hf w (List.mem_append.mpr (Or.inl hw))
      have hnext : Numbers a rates m next.wells :=
        fun w hw => hf w (List.mem_append.mpr (Or.inr hw))
      rw [worst, wells, List.foldlM_append, hbelow.scan_eq_map hbest, ihb hbelow numbered_none]
      cases hfound : below.wells.foldlM (challenge a rates m) none with
      | error e => rfl
      | ok candidate =>
          exact ihn hnext (hbest.worse (hbelow.numbered_scan numbered_none hfound))

/-- A scan that goes through finds nothing in an empty list, and the first of the largest wells in any
    other one. -/
theorem Numbers.scan_cases {ws : List (Nat × Node α)} (hws : Numbers a rates m ws)
    {found : Option (Nat × α)} (h : ws.foldlM (challenge a rates m) none = .ok found) :
    (ws = [] ∧ found = none) ∨ ∃ top, found = some top ∧ FirstLargest a rates m ws top := by
  induction ws generalizing found with
  | nil => exact Or.inl ⟨rfl, (Except.ok.inj h).symm⟩
  | cons w rest ih =>
      rw [List.foldlM_cons] at h
      obtain ⟨first, hfirst, h⟩ := bind_eq_ok.mp h
      obtain ⟨x, hx, rfl⟩ := challenge_eq_ok.mp hfirst
      have hown := hws.numbered (List.mem_cons_self ..) hx
      rw [worse_none_left, hws.tail.scan_eq_map hown] at h
      cases hlater : rest.foldlM (challenge a rates m) none with
      | error e =>
          rw [hlater] at h
          cases h
      | ok later =>
          rw [hlater] at h
          obtain rfl : worse (some (w.1, x)) later = found := Except.ok.inj h
          rcases ih hws.tail hlater with ⟨rfl, rfl⟩ | ⟨top, rfl, hlargest⟩
          · refine Or.inr ⟨(w.1, x), rfl, [], w, [], rfl, rfl, hx, ?_, ?_⟩ <;>
            · intro u hu
              cases hu
          · have htop := hws.tail.numbered_scan numbered_none hlater top rfl
            refine Or.inr ⟨_, ?_, hlargest.cons hx (hown _ rfl) htop⟩
            rw [worse_some]
            exact (apply_ite some ..).symm

end Ordered

end Forest

/-! ## The largest well of a subtree -/

namespace Hierarchy

/-- Where the rates of the wells of a subtree in a mode are numbers, the search for the largest well is
    one scan over these wells from left to right. It finds nothing exactly when there is no well, and
    otherwise the first of the largest wells with the magnitude of the rate of its own blocks. -/
theorem worst_scans [OrderedScalar α] {h : Hierarchy α} {id : Nat} {f : Forest α}
    {rates : RateTable α} {m : ProductionMode} (hf : h.subtree id = .ok f)
    (hnumbers : Forest.Numbers h.phases rates m f.wells) :
    h.worst id rates m = f.wells.foldlM (Forest.challenge h.phases rates m) none ∧
    ∀ found, h.worst id rates m = .ok found →
      (found = none ↔ f.wells = []) ∧
      ∀ top, found = some top → Forest.FirstLargest h.phases rates m f.wells top ∧
        ∃ n index b rate, h.node top.1 = .ok n ∧ n.tableIndex = .ok index ∧
          rates.blocks index h.phases.count = .ok b ∧
          h.phases.rate b.1 b.2 (.production m) = .ok rate ∧ top.2 = Scalar.abs rate := by
  have hscan : h.worst id rates m = f.wells.foldlM (Forest.challenge h.phases rates m) none := by
    rw [worst, hf]
    exact Forest.worst_eq_foldlM hnumbers Forest.numbered_none
  refine ⟨hscan, fun found hfound => ?_⟩
  rw [hscan] at hfound
  rcases hnumbers.scan_cases hfound with ⟨hnil, rfl⟩ | ⟨top, rfl, hlargest⟩
  · refine ⟨iff_of_true rfl hnil, ?_⟩
    rintro top ⟨⟩
  · obtain ⟨w, hmem, hid, hx⟩ := hlargest.exists_mem
    obtain ⟨hn, _⟩ := (subtree_isPart hf).node_of_mem_wells hmem
    obtain ⟨index, b, rate, hi, hb, hrate, heq⟩ := Node.magnitude_eq_ok.mp hx
    refine ⟨iff_of_false (Option.some_ne_none top) (List.ne_nil_of_mem hmem), ?_⟩
    rintro _ ⟨⟩
    exact ⟨hlargest, w.2, index, b, rate, hid ▸ hn, hi, hb, hrate, heq⟩

/-- The efficiency of a node that is always on. -/
def fullTime : Positive Float := ⟨1, by decide +kernel⟩

/-- A field of four producers, two of them in a group of their own. -/
def nestedFieldCalls : List (Call Float) := [
  .enrol "P1" .producer [.bhp 100],
  .enrol "P2" .producer [.bhp 100],
  .enrol "P3" .producer [.bhp 100],
  .enrol "P4" .producer [.bhp 100],
  .addGroup "FIELD" none fullTime ⟨.default, .default⟩,
  .addWell "P1" (some 0) fullTime (.producer .default),
  .addGroup "EAST" (some 0) fullTime ⟨.default, .default⟩,
  .addWell "P2" (some 2) fullTime (.producer .default),
  .addWell "P3" (some 2) fullTime (.producer .default),
  .addWell "P4" (some 0) fullTime (.producer .default),
  .attach 1 0,
  .attach 3 1,
  .attach 4 2,
  .attach 5 3]

/-- The hierarchy of that field. -/
def nestedField : Hierarchy Float :=
  ((Site.vacant ⟨true, true, false⟩).serve nestedFieldCalls).hierarchy

/-- The group of all wells. -/
def nestedFieldGroup : Node Float := nestedField.nodes.get ⟨0, by decide +kernel⟩

/-- The field as a tree. -/
def nestedFieldTree : Forest Float := .group 0 nestedFieldGroup (nestedField.below 0) .nil

/-- Rates of the four wells, those of the second and the last one as given. -/
def nestedFieldRates (water oil last : Float) : RateTable Float :=
  let flows := [0, -3, water, oil, 0, -5, 0, last]
  ⟨[200, 200, 200, 200], flows, flows⟩

theorem subtree_nestedField : nestedField.subtree 0 = .ok nestedFieldTree :=
  subtree_group (node_eq_ok.mpr (List.getElem?_eq_getElem _)) (by decide +kernel)

/-- Three of the wells flow five, in the group and outside of it. The first of them is found. -/
theorem worst_scans_nestedField :
    nestedField.subtree 0 = .ok nestedFieldTree ∧
      nestedFieldTree.wells.map (·.1) = [1, 3, 4, 5] ∧
      Forest.FirstLargest nestedField.phases (nestedFieldRates (-2) (-3) (-5)) .lrat
        nestedFieldTree.wells (3, 5) := by
  have hmagnitudes : ∀ w ∈ nestedFieldTree.wells, ∃ x ∈ [3, 5],
      w.2.magnitude nestedField.phases (nestedFieldRates (-2) (-3) (-5)) .lrat = .ok x ∧ x ≤ x := by
    decide +kernel
  have hnumbers : Forest.Numbers nestedField.phases (nestedFieldRates (-2) (-3) (-5)) .lrat
      nestedFieldTree.wells := by
    intro w hw x hx
    obtain ⟨y, _, hy, hle⟩ := hmagnitudes w hw
    obtain rfl : y = x := Except.ok.inj (hy.symm.trans hx)
    exact hle
  have hfound : nestedField.worst 0 (nestedFieldRates (-2) (-3) (-5)) .lrat
      = .ok (some (3, 5)) := by decide +kernel
  obtain ⟨_, hcases⟩ := worst_scans subtree_nestedField hnumbers
  exact ⟨subtree_nestedField, by decide +kernel, ((hcases _ hfound).2 _ rfl).1⟩

/-- Opposite infinities are numbers that add up to none. A well with such a rate hides the larger well
    that comes after it in its group, so the rates of the wells have to be numbers themselves. -/
theorem not_forall_worst_scans :
    ¬ ∀ (phases : ActivePhases) (calls : List (Call Float)) (id : Nat) (f : Forest Float)
      (rates : RateTable Float) (m : ProductionMode) (found : Option (Nat × Float)),
      let h := ((Site.vacant phases).serve calls).hierarchy
      (∀ x ∈ rates.bhp ++ rates.reservoir ++ rates.surface, x ≤ x) → h.subtree id = .ok f →
      h.worst id rates m = .ok found →
      (found = none ↔ f.wells = []) ∧
        ∀ top, found = some top → Forest.FirstLargest h.phases rates m f.wells top := by
  intro hall
  have hfound : nestedField.worst 0 (nestedFieldRates (-1 / 0) (1 / 0) (-1)) .lrat
      = .ok (some (1, 3)) := by decide +kernel
  obtain ⟨_, hlargest⟩ := hall _ nestedFieldCalls 0 nestedFieldTree
    (nestedFieldRates (-1 / 0) (1 / 0) (-1)) .lrat _ (by decide +kernel) subtree_nestedField hfound
  have hmissed : ∃ v ∈ nestedFieldTree.wells, v.1 ≠ 1 ∧
      v.2.magnitude nestedField.phases (nestedFieldRates (-1 / 0) (1 / 0) (-1)) .lrat = .ok 5 := by
    decide +kernel
  obtain ⟨v, hv, hne, hfive⟩ := hmissed
  obtain ⟨before, w, after, hsplit, hid, _, hbefore, hafter⟩ := hlargest _ rfl
  rw [hsplit, List.mem_append, List.mem_cons] at hv
  rcases hv with hv | rfl | hv
  · obtain ⟨y, hy, hlt⟩ := hbefore v hv
    obtain rfl : 5 = y := Except.ok.inj (hfive.symm.trans hy)
    exact absurd hlt (by decide +kernel)
  · exact hne hid
  · obtain ⟨y, hy, hle⟩ := hafter v hv
    obtain rfl : 5 = y := Except.ok.inj (hfive.symm.trans hy)
    exact absurd hle (by decide +kernel)

end Hierarchy

end ReservoirWells
