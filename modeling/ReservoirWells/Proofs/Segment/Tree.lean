import Mathlib.Algebra.BigOperators.Group.List.Basic
import Mathlib.Algebra.Order.Group.Defs
import Mathlib.Data.Finset.Card
import Mathlib.Data.Finset.Range
import Mathlib.Tactic.Abel
import ReservoirWells.Proofs.Exact
import ReservoirWells.Proofs.Fallible
import ReservoirWells.Segment.Tree

/-! # Tree — an accepted list of segments is a tree

    Nothing in `SegmentTree.ofList` looks for circles.  That there are none follows from the
    lengths: a segment is longer than its outlet, wherever in the list the outlet stands, so the way
    along the outlets can only end at the top, and it ends within as many steps as there are
    shorter segments.

    * `SegmentTree.WellFormed` — what `SegmentTree.ofList` has checked, as facts about the tree;
    * `SegmentTree.Leads` — the way from a segment along the outlets;
    * `SegmentTree.WellFormed.exists_leads` — every segment has a way to the top;
    * `SegmentTree.WellFormed.sum_of_leads` — along a way the differences add up to the difference of
      its ends;
    * `SegmentTree.ofList_isTreeOf` — everything that makes the result a tree. -/

namespace ReservoirWells

namespace SegmentTree

variable {α : Type}

/-! ## Reading a tree -/

section Reading

variable {t : SegmentTree α} {i o : Nat}

@[simp] theorem length_segments (t : SegmentTree α) : t.segments.length = t.size := by
  simp [segments, size]

@[simp] theorem outlet?_zero (t : SegmentTree α) : t.outlet? 0 = none := rfl

theorem outlet?_eq_some : t.outlet? i = some o ↔ ∃ r, t.reach? i = some r ∧ r.outlet = o :=
  Option.map_eq_some_iff

theorem segment?_of_reach? {r : Reach α} (h : t.reach? i = some r) :
    t.segment? i = some r.segment := by
  cases i with
  | zero => cases h
  | succ k =>
      show (t.top :: t.reaches.map (·.segment))[k + 1]? = some r.segment
      rw [List.getElem?_cons_succ, List.getElem?_map]
      exact congrArg (Option.map (·.segment)) h

theorem mem_reaches {r : Reach α} (h : t.reach? i = some r) : r ∈ t.reaches := by
  cases i with
  | zero => cases h
  | succ k => exact List.mem_of_getElem? h

theorem lt_size_of_segment? {s : Segment α} (h : t.segment? i = some s) : i < t.size := by
  rw [← t.length_segments]
  exact (List.getElem?_eq_some_iff.mp h).1

/-- Every index but that of the top is the index of a reach. -/
theorem exists_reach (hpos : 0 < i) (hi : i < t.size) : ∃ r, t.reach? i = some r := by
  cases i with
  | zero => cases hpos
  | succ k => exact ⟨_, List.getElem?_eq_getElem (Nat.lt_of_succ_lt_succ hi)⟩

theorem lt_size_of_outlet? (h : t.outlet? i = some o) : i < t.size := by
  obtain ⟨r, hr, _⟩ := outlet?_eq_some.mp h
  exact lt_size_of_segment? (segment?_of_reach? hr)

/-- Only the top segment has no outlet. -/
theorem outlet?_eq_none (hi : i < t.size) : t.outlet? i = none ↔ i = 0 := by
  constructor
  · intro hnone
    rcases Nat.eq_zero_or_pos i with hzero | hpos
    · exact hzero
    · obtain ⟨r, hr⟩ := exists_reach hpos hi
      rw [outlet?, hr] at hnone
      cases hnone
  · rintro rfl
    exact t.outlet?_zero

/-- What drains into a segment is what has it as outlet. -/
theorem mem_inlets : i ∈ t.inlets o ↔ t.outlet? i = some o := by
  simp only [inlets, List.mem_filter, List.mem_range, beq_iff_eq]
  constructor
  · rintro ⟨_, ho⟩
    exact ho
  · intro ho
    exact ⟨lt_size_of_outlet? ho, ho⟩

theorem pairwise_inlets (t : SegmentTree α) (o : Nat) : (t.inlets o).Pairwise (· < ·) :=
  List.pairwise_lt_range.sublist List.filter_sublist

theorem nodup_inlets (t : SegmentTree α) (o : Nat) : (t.inlets o).Nodup :=
  (t.pairwise_inlets o).imp fun hlt => Nat.ne_of_lt hlt

end Reading

/-! ## The way along the outlets -/

/-- From segment `i` the outlets lead through the segments of `path`, the first of which is `i`, to
    segment `j`. -/
inductive Leads (t : SegmentTree α) : Nat → List Nat → Nat → Prop
  | stay (i : Nat) : t.Leads i [] i
  | step {i o j : Nat} {path : List Nat} (ho : t.outlet? i = some o) (h : t.Leads o path j) :
      t.Leads i (i :: path) j

/-- There is one way to the top at most. -/
theorem Leads.unique {t : SegmentTree α} {i : Nat} {path : List Nat} (h : t.Leads i path 0) :
    ∀ {other : List Nat}, t.Leads i other 0 → other = path := by
  generalize hj : 0 = j at h
  induction h with
  | stay i =>
      subst hj
      intro other hother
      cases hother with
      | stay => rfl
      | step ho _ => cases ho
  | step ho _ ih =>
      intro other hother
      cases hother with
      | stay => subst hj; cases ho
      | step ho' hrest =>
          obtain rfl := Option.some.inj (ho.symm.trans ho')
          rw [ih hj hrest]

/-! ## What was checked -/

/-- The outlet of a reach is a shorter segment of the list and has the number that the segment names;
    the differences are taken against it. -/
structure Drains [Scalar α] (all : List (Segment α)) (r : Reach α) (below : Segment α) : Prop where
  found : all[r.outlet]? = some below
  named : r.segment.outlet = some below.number
  length_not_le : ¬ r.length ≤ 0
  length_eq : r.length = r.segment.length - below.length
  depth_eq : r.depth = r.segment.depth - below.depth

/-- A tree as `ofList` builds them. -/
structure WellFormed [Scalar α] (t : SegmentTree α) : Prop where
  top_outlet : t.top.outlet = none
  top_device : t.top.device.controlsInflow = false
  numbers : (t.segments.map (·.number)).Nodup
  drains : ∀ r ∈ t.reaches, ∃ below, Drains t.segments r below

/-- A list without duplicates does not repeat what was seen before it either. -/
theorem duplicate?_eq_none {l : List (Segment α)} :
    ∀ {seen : List Nat}, duplicate? seen l = none →
      (l.map (·.number)).Nodup ∧ ∀ s ∈ l, s.number ∉ seen := by
  induction l with
  | nil => intro seen _; simp
  | cons s rest ih =>
      intro seen h
      rw [duplicate?] at h
      split at h
      · cases h
      · rename_i hnew
        obtain ⟨hnodup, hseen⟩ := ih h
        have hs : s.number ∉ seen := by simpa using hnew
        refine ⟨List.nodup_cons.mpr ⟨?_, hnodup⟩, ?_⟩
        · intro hmem
          obtain ⟨s', hs', heq⟩ := List.mem_map.mp hmem
          exact hseen s' hs' (heq ▸ List.mem_cons_self ..)
        · rintro s' (_ | ⟨_, hs'⟩)
          · exact hs
          · exact fun hmem => hseen s' hs' (List.mem_cons_of_mem _ hmem)

section Building

variable [Scalar α]

/-- A segment is connected to a shorter one that has the number of its outlet. -/
theorem drains_of_connect {all : List (Segment α)} {s : Segment α} {r : Reach α}
    (h : connect all s = .ok r) : r.segment = s ∧ ∃ below, Drains all r below := by
  rw [connect] at h
  split at h
  · cases h
  · rename_i number hnumber
    split at h
    · cases h
    · rename_i below outlet hfind
      dsimp only at h
      split at h
      · cases h
      · rename_i hlong
        cases h
        have hnamed : (below.number == number) = true := by
          simpa only using List.find?_some hfind
        refine ⟨rfl, below, ?_, ?_, hlong, rfl, rfl⟩
        · exact List.mem_zipIdx_iff_getElem?.mp (List.mem_of_find?_eq_some hfind)
        · rw [eq_of_beq hnamed]
          exact hnumber

/-- An accepted list gives a well-formed tree of its own segments. -/
theorem wellFormed_of_ofList {all : List (Segment α)} {t : SegmentTree α}
    (h : ofList all = .ok t) : t.WellFormed ∧ t.segments = all := by
  cases all with
  | nil => cases h
  | cons top below =>
      rw [ofList] at h
      split at h
      · cases h
      rename_i houtlet
      split at h
      · cases h
      rename_i hdevice
      split at h
      · cases h
      rename_i hdup
      cases hreaches : below.mapM (connect (top :: below)) with
      | error e => rw [hreaches] at h; cases h
      | ok reaches =>
          rw [hreaches] at h
          cases h
          have hsegments : top :: reaches.map (·.segment) = top :: below := by
            rw [map_of_mapM (fun _ _ hr => (drains_of_connect hr).1) hreaches]
          refine ⟨⟨by simpa using houtlet, by simpa using hdevice, ?_, ?_⟩, hsegments⟩
          · show ((top :: reaches.map (·.segment)).map (·.number)).Nodup
            rw [hsegments]
            exact (duplicate?_eq_none hdup).1
          · show ∀ r ∈ reaches, ∃ o, Drains (top :: reaches.map (·.segment)) r o
            rw [hsegments]
            exact forall_of_mapM (fun _ _ _ hr => (drains_of_connect hr).2) hreaches

end Building

namespace WellFormed

section Numbers

variable [Scalar α] {t : SegmentTree α}

/-- A number belongs to one segment. -/
theorem index_unique (h : t.WellFormed) {i j : Nat} {s s' : Segment α}
    (hi : t.segment? i = some s) (hj : t.segment? j = some s') (hsame : s.number = s'.number) :
    i = j := by
  refine (List.getElem?_inj ?_ h.numbers).mp ?_
  · rw [List.length_map, length_segments]
    exact lt_size_of_segment? hi
  · rw [List.getElem?_map, List.getElem?_map]
    show (t.segment? i).map _ = (t.segment? j).map _
    rw [hi, hj]
    exact congrArg some hsame

/-- Looking up a number is the inverse of reading it. -/
theorem indexOf?_eq_some (h : t.WellFormed) {number i : Nat} :
    t.indexOf? number = some i ↔ ∃ s, t.segment? i = some s ∧ s.number = number := by
  rw [indexOf?, List.findIdx?_eq_some_iff_getElem]
  constructor
  · rintro ⟨hi, hnumber, _⟩
    exact ⟨_, List.getElem?_eq_getElem hi, eq_of_beq hnumber⟩
  · rintro ⟨s, hs, rfl⟩
    obtain ⟨hi, hget⟩ := List.getElem?_eq_some_iff.mp hs
    refine ⟨hi, by rw [hget, beq_self_eq_true], ?_⟩
    intro j hj hnumber
    have hsame := h.index_unique (List.getElem?_eq_getElem (Nat.lt_trans hj hi)) hs
      (eq_of_beq hnumber)
    exact Nat.ne_of_lt hj hsame

/-- The outlet of a segment is the segment whose number it names. -/
theorem outlet?_iff (h : t.WellFormed) {i o : Nat} :
    t.outlet? i = some o ↔ ∃ s below, t.segment? i = some s ∧ t.segment? o = some below ∧
      s.outlet = some below.number := by
  constructor
  · intro ho
    obtain ⟨r, hr, rfl⟩ := outlet?_eq_some.mp ho
    obtain ⟨below, hbelow⟩ := h.drains r (mem_reaches hr)
    exact ⟨r.segment, below, segment?_of_reach? hr, hbelow.found, hbelow.named⟩
  · rintro ⟨s, below, hs, hbelow, hnamed⟩
    have hpos : 0 < i := by
      rcases Nat.eq_zero_or_pos i with rfl | hpos
      · cases hs
        rw [h.top_outlet] at hnamed
        cases hnamed
      · exact hpos
    obtain ⟨r, hr⟩ := exists_reach hpos (lt_size_of_segment? hs)
    obtain ⟨other, hother⟩ := h.drains r (mem_reaches hr)
    cases hs.symm.trans (segment?_of_reach? hr)
    have hnumber : below.number = other.number :=
      Option.some.inj (hnamed.symm.trans hother.named)
    exact outlet?_eq_some.mpr ⟨r, hr, h.index_unique hother.found hbelow hnumber.symm⟩

end Numbers

/-! ## Ways to the top -/

variable [ExactScalar α] {t : SegmentTree α} {i o : Nat}

/-- A segment and its outlet: the outlet is shorter, and the differences are those of the two. -/
theorem outlet_segments (h : t.WellFormed) (ho : t.outlet? i = some o) :
    ∃ s below, t.segment? i = some s ∧ t.segment? o = some below ∧ below.length < s.length ∧
      t.lengthBeyondOutlet i = s.length - below.length ∧
      t.depthBelowOutlet i = s.depth - below.depth := by
  obtain ⟨r, hr, rfl⟩ := outlet?_eq_some.mp ho
  obtain ⟨below, hbelow⟩ := h.drains r (mem_reaches hr)
  have hlong : 0 < r.segment.length - below.length := by
    rw [← hbelow.length_eq]
    exact lt_of_not_ge hbelow.length_not_le
  refine ⟨r.segment, below, segment?_of_reach? hr, hbelow.found, sub_pos.mp hlong, ?_, ?_⟩
  · rw [lengthBeyondOutlet, hr]
    exact hbelow.length_eq
  · rw [depthBelowOutlet, hr]
    exact hbelow.depth_eq

/-- A segment reaches beyond its outlet. -/
theorem lengthBeyondOutlet_pos (h : t.WellFormed) (hpos : 0 < i) (hi : i < t.size) :
    0 < t.lengthBeyondOutlet i := by
  obtain ⟨r, hr⟩ := exists_reach hpos hi
  obtain ⟨s, below, _, _, hlt, hlength, _⟩ := h.outlet_segments (outlet?_eq_some.mpr ⟨r, hr, rfl⟩)
  rw [hlength]
  exact sub_pos.mpr hlt

/-- The indices of the segments that are shorter than some length. -/
def shorter (t : SegmentTree α) (length : α) : Finset Nat :=
  (Finset.range t.size).filter fun j => ∃ s ∈ t.segment? j, s.length < length

/-- There are fewer segments shorter than the outlet than shorter than the segment itself, for the
    outlet is one more. -/
theorem card_shorter_lt {s below : Segment α} (hbelow : t.segment? o = some below)
    (hlt : below.length < s.length) :
    (shorter t below.length).card < (shorter t s.length).card := by
  refine Finset.card_lt_card (Finset.ssubset_iff_of_subset ?_ |>.mpr ⟨o, ?_, ?_⟩)
  · intro j hj
    simp only [shorter, Finset.mem_filter] at hj ⊢
    obtain ⟨hrange, s', hs', hshort⟩ := hj
    exact ⟨hrange, s', hs', hshort.trans hlt⟩
  · simp only [shorter, Finset.mem_filter, Finset.mem_range]
    exact ⟨lt_size_of_segment? hbelow, below, hbelow, hlt⟩
  · simp [shorter, hbelow]

/-- From every segment the outlets lead to the top, through no more segments than are shorter than
    it. -/
theorem exists_leads (h : t.WellFormed) : ∀ {i : Nat} {s : Segment α}, t.segment? i = some s →
    ∃ path, t.Leads i path 0 ∧ path.length ≤ (shorter t s.length).card := by
  intro i s hs
  induction hn : (shorter t s.length).card using Nat.strong_induction_on generalizing i s with
  | _ n ih =>
      rcases Nat.eq_zero_or_pos i with rfl | hpos
      · exact ⟨[], .stay 0, Nat.zero_le _⟩
      · obtain ⟨r, hr⟩ := exists_reach hpos (lt_size_of_segment? hs)
        have ho : t.outlet? i = some r.outlet := outlet?_eq_some.mpr ⟨r, hr, rfl⟩
        obtain ⟨s', below, hs', hbelow, hlt, _, _⟩ := h.outlet_segments ho
        cases hs.symm.trans hs'
        have hfewer : (shorter t below.length).card < n := hn ▸ card_shorter_lt hbelow hlt
        obtain ⟨path, hpath, hlen⟩ := ih _ hfewer hbelow rfl
        exact ⟨i :: path, .step ho hpath, Nat.succ_le_of_lt (Nat.lt_of_le_of_lt hlen hfewer)⟩

/-- A segment is not shorter than itself, so its way to the top is shorter than the list. -/
theorem card_shorter_lt_size {s : Segment α} (hs : t.segment? i = some s) :
    (shorter t s.length).card < t.size := by
  rw [← Finset.card_range t.size]
  refine Finset.card_lt_card
    ((Finset.ssubset_iff_of_subset (Finset.filter_subset ..)).mpr ⟨i, ?_, ?_⟩)
  · exact Finset.mem_range.mpr (lt_size_of_segment? hs)
  · simp [hs]

/-- Quantities that differ by `step` from each segment to its outlet differ by the sum of the steps
    from the start of a way to its end. -/
theorem sum_of_leads (value step : Nat → α)
    (hstep : ∀ i o, t.outlet? i = some o → value i - value o = step i) {j : Nat} {path : List Nat}
    (hpath : t.Leads i path j) : value i - value j = (path.map step).sum := by
  induction hpath with
  | stay i => rw [sub_self, List.map_nil, List.sum_nil]
  | @step i o j path ho _ ih =>
      rw [List.map_cons, List.sum_cons, ← ih, ← hstep i o ho]
      abel

end WellFormed

/-! ## Trees of a list -/

/-- The segments of a list, drained towards the first of them. -/
structure IsTreeOf [ExactScalar α] (t : SegmentTree α) (all : List (Segment α)) : Prop where
  /-- The segments are those of the list, in its order. -/
  segments_eq : t.segments = all
  /-- The outlet is the segment with the number that is named. -/
  outlet_iff : ∀ i o, t.outlet? i = some o ↔
    ∃ s below, all[i]? = some s ∧ all[o]? = some below ∧ s.outlet = some below.number
  outlet_none_iff : ∀ i < all.length, t.outlet? i = none ↔ i = 0
  /-- The outlets lead to the top in one way, and in fewer steps than there are segments. -/
  leads : ∀ i < all.length, ∃ path, t.Leads i path 0 ∧ path.length < all.length ∧
    ∀ other, t.Leads i other 0 → other = path
  inlets_iff : ∀ i o, i ∈ t.inlets o ↔ t.outlet? i = some o
  /-- Every segment but the top is the inlet of one segment, once. -/
  inlet_once : ∀ i, 0 < i → i < all.length → ∃ o < all.length, (t.inlets o).count i = 1 ∧
    ∀ other, other ≠ o → i ∉ t.inlets other
  inlets_increasing : ∀ o, (t.inlets o).Pairwise (· < ·)
  /-- Looking up a number and reading it are inverse to each other. -/
  indexOf_iff : ∀ number i, t.indexOf? number = some i ↔ ∃ s, all[i]? = some s ∧ s.number = number
  length_pos : ∀ i, 0 < i → i < all.length → 0 < t.lengthBeyondOutlet i
  /-- Along the way to the top the differences add up. -/
  sums : ∀ i path s, t.Leads i path 0 → all[i]? = some s →
    (path.map t.depthBelowOutlet).sum = s.depth - t.top.depth ∧
      (path.map t.lengthBeyondOutlet).sum = s.length - t.top.length

section

variable [ExactScalar α]

/-- The differences along a way to the top add up to the difference of its ends, for any quantity of
    a segment whose differences are taken against the outlet. -/
theorem WellFormed.sum_eq_sub {t : SegmentTree α} (quantity : Segment α → α) {step : Nat → α}
    (hstep : ∀ i o s below, t.outlet? i = some o → t.segment? i = some s →
      t.segment? o = some below → step i = quantity s - quantity below)
    (h : t.WellFormed) {i : Nat} {path : List Nat} {s : Segment α} (hpath : t.Leads i path 0)
    (hs : t.segment? i = some s) : (path.map step).sum = quantity s - quantity t.top := by
  have hsum := WellFormed.sum_of_leads (fun j => ((t.segment? j).map quantity).getD 0) step ?_ hpath
  · rw [← hsum]
    show ((t.segment? i).map quantity).getD 0 - quantity t.top = _
    rw [hs]
    rfl
  · intro j o ho
    obtain ⟨s, below, hs, hbelow, _⟩ := h.outlet_segments ho
    rw [hstep j o s below ho hs hbelow]
    show ((t.segment? j).map quantity).getD 0 - ((t.segment? o).map quantity).getD 0 = _
    rw [hs, hbelow]
    rfl

/-- An accepted list becomes a tree. -/
theorem ofList_isTreeOf {all : List (Segment α)} {t : SegmentTree α} (h : ofList all = .ok t) :
    t.IsTreeOf all := by
  obtain ⟨hwell, rfl⟩ := wellFormed_of_ofList h
  have hsize : t.segments.length = t.size := t.length_segments
  refine ⟨rfl, fun i o => hwell.outlet?_iff, ?_, ?_, fun i o => mem_inlets, ?_, t.pairwise_inlets,
    fun number i => hwell.indexOf?_eq_some, ?_, ?_⟩
  · intro i hi
    exact outlet?_eq_none (hsize ▸ hi)
  · intro i hi
    have hs : t.segment? i = some t.segments[i] := List.getElem?_eq_getElem hi
    obtain ⟨path, hpath, hlen⟩ := hwell.exists_leads hs
    refine ⟨path, hpath, ?_, fun other => hpath.unique⟩
    rw [hsize]
    exact Nat.lt_of_le_of_lt hlen (WellFormed.card_shorter_lt_size hs)
  · intro i hpos hi
    obtain ⟨r, hr⟩ := exists_reach hpos (hsize ▸ hi)
    have ho : t.outlet? i = some r.outlet := outlet?_eq_some.mpr ⟨r, hr, rfl⟩
    obtain ⟨_, below, _, hbelow, _⟩ := hwell.outlet_segments ho
    refine ⟨r.outlet, hsize ▸ lt_size_of_segment? hbelow,
      List.count_eq_one_of_mem (t.nodup_inlets _) (mem_inlets.mpr ho), ?_⟩
    intro other hne hmem
    exact hne (Option.some.inj ((mem_inlets.mp hmem).symm.trans ho))
  · intro i hpos hi
    exact hwell.lengthBeyondOutlet_pos hpos (hsize ▸ hi)
  · intro i path s hpath hs
    refine ⟨hwell.sum_eq_sub Segment.depth ?_ hpath hs,
      hwell.sum_eq_sub Segment.length ?_ hpath hs⟩
    · intro j o s below ho hs hbelow
      obtain ⟨s', below', hs', hbelow', _, _, hdepth⟩ := hwell.outlet_segments ho
      cases hs.symm.trans hs'
      cases hbelow.symm.trans hbelow'
      exact hdepth
    · intro j o s below ho hs hbelow
      obtain ⟨s', below', hs', hbelow', _, hlength, _⟩ := hwell.outlet_segments ho
      cases hs.symm.trans hs'
      cases hbelow.symm.trans hbelow'
      exact hlength

/-- A well with a side branch. Segment number three stands before the segment that it drains into. -/
def sideBranch : SegmentTree ℚ :=
  ⟨pipe 1 none 1000 1000, [⟨pipe 3 (some 2) 1015 1040, 2, 5, 20⟩,
    ⟨pipe 2 (some 1) 1010 1020, 0, 10, 20⟩, ⟨pipe 4 (some 2) 1012 1030, 2, 2, 10⟩]⟩
where
  pipe (number : Nat) (outlet : Option Nat) (depth length : ℚ) : Segment ℚ :=
    ⟨number, outlet, depth, length, 1 / 100, 1 / 10, 0, .pipe⟩

end

end SegmentTree

end ReservoirWells
