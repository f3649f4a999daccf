import Mathlib.Data.Fin.Basic
import ReservoirWells.Proofs.Segment.Tree
import ReservoirWells.Segment.Set

/-! # Set — the stored connections of a well are those of its tree

    `SegmentSet.build` fills six tables in two passes over the list, each of which may stop early.
    A tree keeps no tables.  The bridge between the two is the tree of the segments that were
    connected so far: entering one more segment everywhere keeps every table equal to what this tree
    says, and the next segment is refused here exactly when it is refused there.

    * `SegmentSet.foldlM_note` — the first pass finds the duplicates that the tree finds;
    * `Links.Stores`, `Links.Stores.join` — the tables of a tree, kept by entering one segment;
    * `SegmentSet.build_agrees` — the same error, or the tables of the same tree;
    * `SegmentSet.build_isTree` — what that makes of the tables. -/

namespace ReservoirWells

variable {α : Type} {n : Nat}

/-! ## Reading a table -/

section Table

variable {β : Type} (table : Vector β n) (i j : Fin n) (b : β)

theorem getElem?_table : table.toList[i.val]? = some (table.get i) :=
  Vector.getElem?_toList.trans (getElem?_pos ..)

theorem map_table : (List.finRange n).map table.get = table.toList := by
  refine List.ext_getElem? fun k => ?_
  rcases Nat.lt_or_ge k n with hlt | hge
  · rw [getElem?_table table ⟨k, hlt⟩, List.getElem?_map, List.getElem?_eq_getElem (by simpa)]
    simp
  · rw [List.getElem?_eq_none (by simpa), List.getElem?_eq_none (by simpa)]

@[simp]
theorem replicate_table : (Vector.replicate n b).get i = b :=
  Vector.getElem_replicate _

theorem set_table : (table.set i b i.isLt).get j = if i.val = j.val then b else table.get j :=
  Vector.getElem_set i.isLt j.isLt

end Table

/-! ## The numbers -/

namespace SegmentSet

section Numbers

variable {segments : Vector (Segment α) n} {index : List (Nat × Fin n)}

/-- The indices below the top segment. -/
theorem map_val_tail_finRange (n : Nat) :
    (List.finRange n).tail.map Fin.val = List.range' 1 (List.finRange n).tail.length := by
  rw [List.map_tail, List.map_coe_finRange_eq_range, List.range_eq_range', List.tail_range',
    List.length_tail, List.length_finRange]

theorem isSome_lookup (index : List (Nat × Fin n)) (number : Nat) :
    (index.lookup number).isSome = (index.map Prod.fst).contains number := by
  induction index with
  | nil => rfl
  | cons entry rest ih =>
      rw [List.lookup_cons, List.map_cons, List.contains_cons, ← ih]
      cases number == entry.1 <;> rfl

/-- The first pass stops at the first number that occurs a second time, and notes all otherwise. -/
theorem foldlM_note (segments : Vector (Segment α) n) (is : List (Fin n))
    (index : List (Nat × Fin n)) :
    is.foldlM (note segments) index
      = match SegmentTree.duplicate? (index.map Prod.fst) (is.map segments.get) with
        | some number => .error (.duplicateNumber number)
        | none => .ok ((is.map fun i => ((segments.get i).number, i)).reverse ++ index) := by
  induction is generalizing index with
  | nil => rfl
  | cons i rest ih =>
      rw [List.foldlM_cons, List.map_cons, SegmentTree.duplicate?, note, isSome_lookup]
      split
      · rfl
      · have hnoted : ((i :: rest).map fun i => ((segments.get i).number, i)).reverse ++ index
            = (rest.map fun i => ((segments.get i).number, i)).reverse
              ++ ((segments.get i).number, i) :: index := by
          rw [List.map_cons, List.reverse_cons, List.append_assoc]
          rfl
        rw [ok_bind, ih, hnoted]
        rfl

/-- The index finds every segment by its number, and nothing else. -/
def Numbers (segments : Vector (Segment α) n) (index : List (Nat × Fin n)) : Prop :=
  ∀ number i, index.lookup number = some i ↔ (segments.get i).number = number

theorem lookup_eq_some {index : List (Nat × Fin n)} (h : (index.map Prod.fst).Nodup) {number : Nat}
    {i : Fin n} : index.lookup number = some i ↔ (number, i) ∈ index := by
  rw [List.lookup_eq_some_iff]
  constructor
  · rintro ⟨before, after, rfl, -⟩
    exact List.mem_append_right _ (List.mem_cons_self ..)
  · intro hmem
    obtain ⟨before, after, rfl⟩ := List.append_of_mem hmem
    refine ⟨before, after, rfl, fun entry hentry => bne_iff_ne.mpr ?_⟩
    rw [List.map_append, List.map_cons] at h
    rintro rfl
    exact (List.nodup_append.mp h).2.2 entry.1 (List.mem_map_of_mem hentry) entry.1
      (List.mem_cons_self ..) rfl

/-- What the first pass has noted of a list without duplicates. -/
theorem numbers_of_nodup (h : (segments.toList.map (·.number)).Nodup) :
    Numbers segments
      (((List.finRange n).map fun i => ((segments.get i).number, i)).reverse ++ []) := by
  intro number i
  have hkeys :
      (((List.finRange n).map fun i => ((segments.get i).number, i)).map Prod.fst).Nodup := by
    rw [← map_table, List.map_map] at h
    rwa [List.map_map]
  rw [List.append_nil, lookup_eq_some (by rwa [List.map_reverse, List.nodup_reverse]),
    List.mem_reverse, List.mem_map]
  constructor
  · rintro ⟨j, _, hj⟩
    obtain ⟨rfl, rfl⟩ := Prod.ext_iff.mp hj
    rfl
  · rintro rfl
    exact ⟨i, List.mem_finRange i, rfl⟩

/-- Searching the list for a number finds what the index finds. -/
theorem Numbers.find? (h : Numbers segments index) (number : Nat) :
    segments.toList.zipIdx.find? (fun (s, _) => s.number == number)
      = (index.lookup number).map fun i => (segments.get i, i.val) := by
  have hplace {s : Segment α} {k : Nat} (hmem : (s, k) ∈ segments.toList.zipIdx)
      (hs : (s.number == number) = true) :
      ∃ i : Fin n, i = k ∧ segments.get i = s ∧ index.lookup number = some i := by
    have hget : segments.toList[k]? = some s := List.mem_zipIdx_iff_getElem?.mp hmem
    have hk : k < n := by
      obtain ⟨hk, -⟩ := List.getElem?_eq_some_iff.mp hget
      rwa [Vector.length_toList] at hk
    rw [getElem?_table segments ⟨k, hk⟩] at hget
    obtain rfl := Option.some.inj hget
    exact ⟨⟨k, hk⟩, rfl, rfl, (h ..).mpr (beq_iff_eq.mp hs)⟩
  cases hfind : segments.toList.zipIdx.find? fun (s, _) => s.number == number with
  | some found =>
      obtain ⟨i, hi, hs, hlookup⟩ :=
        hplace (List.mem_of_find?_eq_some hfind) (by simpa using List.find?_some hfind)
      rw [hlookup, Option.map_some, hs, hi]
  | none =>
      cases hlookup : index.lookup number with
      | none => rfl
      | some i =>
          refine absurd ?_ (List.find?_eq_none.mp hfind (segments.get i, i.val) ?_)
          · exact beq_iff_eq.mpr ((h ..).mp hlookup)
          · exact List.mem_zipIdx_iff_getElem?.mpr (getElem?_table ..)

end Numbers

end SegmentSet

/-! ## One segment more -/

namespace SegmentTree

/-- The tree with one more segment. -/
def extend (t : SegmentTree α) (r : Reach α) : SegmentTree α :=
  { t with reaches := t.reaches ++ [r] }

variable (t : SegmentTree α) (r : Reach α)

theorem size_extend : (t.extend r).size = t.size + 1 := by
  rw [size, size, extend, List.length_append, List.length_singleton]

theorem reach?_extend (i : Nat) :
    (t.extend r).reach? i = if t.size = i then some r else t.reach? i := by
  cases i with
  | zero => exact (if_neg (Nat.succ_ne_zero _)).symm
  | succ k =>
      show (t.reaches ++ [r])[k]? = if t.reaches.length + 1 = k + 1 then some r else t.reaches[k]?
      rcases lt_trichotomy k t.reaches.length with hlt | rfl | hgt
      · rw [List.getElem?_append_left hlt, if_neg (by omega)]
      · rw [List.getElem?_concat_length, if_pos rfl]
      · rw [if_neg (by omega), List.getElem?_eq_none (Nat.le_of_lt hgt), List.getElem?_eq_none]
        rw [List.length_append, List.length_singleton]
        exact hgt

theorem outlet?_extend (i : Nat) :
    (t.extend r).outlet? i = if t.size = i then some r.outlet else t.outlet? i := by
  rw [outlet?, reach?_extend, outlet?]
  split <;> rfl

/-- A new segment is the last inlet of its outlet. -/
theorem inlets_extend (o : Nat) :
    (t.extend r).inlets o = t.inlets o ++ if r.outlet = o then [t.size] else [] := by
  rw [inlets, size_extend, List.range_succ, List.filter_append, inlets]
  refine congrArg₂ _ (List.filter_congr fun j hj => ?_) ?_
  · rw [outlet?_extend, if_neg (Nat.ne_of_gt (List.mem_range.mp hj))]
  · rw [List.filter_singleton, outlet?_extend, if_pos rfl]
    by_cases ho : r.outlet = o
    · rw [if_pos ho, ho, beq_self_eq_true]
      rfl
    · rw [if_neg ho, beq_eq_false_iff_ne.mpr fun h => ho (Option.some.inj h)]
      rfl

end SegmentTree

/-! ## The tables of a tree -/

section Tables

variable [Scalar α]

/-- Every table holds what a tree says, also at the indices that the tree does not have yet. -/
structure Links.Stores (links : Links α n) (t : SegmentTree α) : Prop where
  outlets : ∀ i : Fin n, (links.outlets.get i).map Fin.val = t.outlet? i
  inlets : ∀ i : Fin n, (links.inlets.get i).map Fin.val = t.inlets i
  depths : ∀ i : Fin n, links.depths.get i = t.depthBelowOutlet i
  lengths : ∀ i : Fin n, links.lengths.get i = t.lengthBeyondOutlet i

namespace Links.Stores

variable {links : Links α n} {t : SegmentTree α}

theorem empty (top : Segment α) : (Links.empty α n).Stores ⟨top, []⟩ := by
  have hreach (i : Nat) : (⟨top, []⟩ : SegmentTree α).reach? i = none := by cases i <;> rfl
  have houtlet (i : Nat) : (⟨top, []⟩ : SegmentTree α).outlet? i = none := by
    rw [SegmentTree.outlet?, hreach, Option.map_none]
  refine ⟨fun i => ?_, fun i => ?_, fun i => ?_, fun i => ?_⟩
  · simp [Links.empty, houtlet]
  · simp [Links.empty, SegmentTree.inlets, houtlet]
  · simp [Links.empty, SegmentTree.depthBelowOutlet, hreach]
  · simp [Links.empty, SegmentTree.lengthBeyondOutlet, hreach]

/-- Entering a segment in every table is adding it to the tree. -/
theorem join (h : links.Stores t) {i o : Fin n} (hi : t.size = i) (s : Segment α)
    (depth length : α) : (links.join i o depth length).Stores (t.extend ⟨s, o, depth, length⟩) := by
  refine ⟨fun j => ?_, fun j => ?_, fun j => ?_, fun j => ?_⟩
  · rw [SegmentTree.outlet?_extend, hi, ← h.outlets]
    simp only [Links.join, set_table]
    split <;> rfl
  · rw [SegmentTree.inlets_extend, hi, ← h.inlets]
    simp only [Links.join, set_table]
    split
    · rename_i ho
      obtain rfl := Fin.ext ho
      rw [List.map_append]
      rfl
    · rw [List.append_nil]
  · rw [SegmentTree.depthBelowOutlet, SegmentTree.reach?_extend, hi]
    have hdepth := h.depths j
    simp only [Links.join, set_table] at hdepth ⊢
    split
    · rfl
    · exact hdepth
  · rw [SegmentTree.lengthBeyondOutlet, SegmentTree.reach?_extend, hi]
    have hlength := h.lengths j
    simp only [Links.join, set_table] at hlength ⊢
    split
    · rfl
    · exact hlength

end Links.Stores

namespace SegmentSet

variable {segments : Vector (Segment α) n} {index : List (Nat × Fin n)}

/-- A segment is connected, or refused, as it is in a tree. -/
theorem connect_agrees (h : Numbers segments index) (links : Links α n) (i : Fin n) :
    Agree (fun links' r => r.segment = segments.get i ∧
        ∃ o : Fin n, links' = links.join i o r.depth r.length ∧ r.outlet = o.val)
      (connect segments index links i) (SegmentTree.connect segments.toList (segments.get i)) := by
  rw [connect, SegmentTree.connect]
  dsimp only
  cases (segments.get i).outlet with
  | none => exact .error _
  | some number =>
      dsimp only
      rw [h.find? number]
      cases index.lookup number with
      | none => exact .error _
      | some o =>
          simp only [Option.map_some]
          split
          · exact .error _
          · exact .ok ⟨rfl, o, rfl, rfl⟩

/-- The second pass over the segments from the end of a tree on: it stops where adding them to the
    tree does, and ends with the tables of the larger tree. -/
theorem foldlM_connect (h : Numbers segments index) (is : List (Fin n)) {links : Links α n}
    {t : SegmentTree α} (hlinks : links.Stores t)
    (his : is.map Fin.val = List.range' t.size is.length) :
    Agree (fun links' reaches => links'.Stores { t with reaches := t.reaches ++ reaches } ∧
        reaches.map (·.segment) = is.map segments.get)
      (is.foldlM (connect segments index) links)
      ((is.map segments.get).mapM (SegmentTree.connect segments.toList)) := by
  induction is generalizing links t with
  | nil =>
      rw [List.map_nil, List.mapM_nil]
      refine .ok ⟨?_, rfl⟩
      rwa [List.append_nil]
  | cons i rest ih =>
      rw [List.length_cons, List.range'_succ, List.map_cons] at his
      obtain ⟨hi, hrest⟩ := List.cons.inj his
      rw [List.foldlM_cons, List.map_cons, List.mapM_cons]
      refine (connect_agrees h links i).bind ?_
      rintro _ r ⟨hsegment, o, rfl, ho⟩
      have hnext : (links.join i o r.depth r.length).Stores (t.extend r) := by
        rw [show r = ⟨r.segment, o, r.depth, r.length⟩ from ho ▸ rfl]
        exact hlinks.join hi.symm r.segment r.depth r.length
      have htail := ih hnext (by rw [SegmentTree.size_extend]; exact hrest)
      rw [← bind_pure (List.foldlM _ _ rest)]
      refine htail.bind ?_
      rintro links' reaches ⟨hstores, hsegments⟩
      refine .ok ⟨?_, ?_⟩
      · rwa [SegmentTree.extend, List.append_assoc] at hstores
      · rw [List.map_cons, hsegment, hsegments]

/-- The set holds the segments of a tree, their numbers and their connections. -/
structure Represents (m : SegmentSet α n) (t : SegmentTree α) : Prop
    extends m.toLinks.Stores t where
  segments_eq : m.segments.toList = t.segments
  numbers : Numbers m.segments m.index

/-- Both ways of building report the same error, or they build the same tree. -/
theorem build_agrees (segments : Vector (Segment α) n) :
    Agree Represents (build segments) (SegmentTree.ofList segments.toList) := by
  cases hall : segments.toList with
  | nil =>
      have hnone : segments[0]? = none := by
        rw [← Vector.getElem?_toList, hall]
        rfl
      rw [build, hnone]
      exact .error _
  | cons top below =>
      have htop : segments[0]? = some top := by
        rw [← Vector.getElem?_toList, hall]
        rfl
      have hindices : (List.finRange n).tail.map segments.get = below := by
        rw [List.map_tail, map_table, hall, List.tail_cons]
      rw [build, htop, SegmentTree.ofList]
      dsimp only
      split
      · exact .error _
      split
      · exact .error _
      rw [foldlM_note, map_table, hall, List.map_nil]
      cases hdup : SegmentTree.duplicate? [] (top :: below) with
      | some number => exact .error _
      | none =>
          have hnodup : (segments.toList.map (·.number)).Nodup := by
            rw [hall]
            exact (SegmentTree.duplicate?_eq_none hdup).1
          have hnumbers := numbers_of_nodup hnodup
          have hagree := foldlM_connect hnumbers (List.finRange n).tail (Links.Stores.empty top)
            (map_val_tail_finRange n)
          rw [hindices, hall] at hagree
          show Agree _ _ ((fun reaches => (⟨top, reaches⟩ : SegmentTree α))
            <$> below.mapM (SegmentTree.connect (top :: below)))
          rw [map_eq_pure_bind]
          refine hagree.bind ?_
          rintro links reaches ⟨hstores, hsegments⟩
          refine .ok ⟨hstores, ?_, hnumbers⟩
          rw [hall, SegmentTree.segments, hsegments]

/-- An accepted list becomes the tables of the tree that it is accepted as. -/
theorem represents_of_build {m : SegmentSet α n} (h : build segments = .ok m) :
    m.segments = segments ∧ ∃ t, SegmentTree.ofList segments.toList = .ok t ∧ m.Represents t := by
  have hagree := build_agrees segments
  rw [h] at hagree
  cases hlist : SegmentTree.ofList segments.toList with
  | error e =>
      rw [hlist] at hagree
      cases hagree
  | ok t =>
      rw [hlist] at hagree
      cases hagree with
      | ok hm =>
          refine ⟨Vector.toList_inj.mp ?_, t, rfl, hm⟩
          rw [hm.segments_eq, (SegmentTree.wellFormed_of_ofList hlist).2]

end SegmentSet

end Tables

/-! ## The stored tree -/

namespace SegmentSet

/-- From index `i` the stored outlets lead through the indices of `path`, the first of which is `i`,
    to index `j`. -/
inductive Leads (m : SegmentSet α n) : Fin n → List (Fin n) → Fin n → Prop
  | stay (i : Fin n) : m.Leads i [] i
  | step {i o j : Fin n} {path : List (Fin n)} (ho : m.outlets.get i = some o)
      (h : m.Leads o path j) : m.Leads i (i :: path) j

/-- The tables of a set describe a list of segments that drain towards the first of them. -/
structure IsTree [ExactScalar α] (m : SegmentSet α n) (segments : Vector (Segment α) n) : Prop where
  segments_eq : m.segments = segments
  /-- The outlet is the segment with the number that is named. -/
  outlet_iff : ∀ i o : Fin n, m.outlets.get i = some o ↔
    (segments.get i).outlet = some (segments.get o).number
  outlet_none_iff : ∀ i : Fin n, m.outlets.get i = none ↔ i.val = 0
  /-- The outlets lead to the top in one way, and in fewer steps than there are segments. -/
  leads : ∀ i : Fin n, ∃ path top, top.val = 0 ∧ m.Leads i path top ∧ path.length < n ∧
    ∀ other, m.Leads i other top → other = path
  /-- Inlets and outlets say the same. -/
  inlets_iff : ∀ i o : Fin n, i ∈ m.inlets.get o ↔ m.outlets.get i = some o
  /-- Every segment but the top is the inlet of one segment, once. -/
  inlet_once : ∀ i : Fin n, 0 < i.val → ∃ o : Fin n, (m.inlets.get o).count i = 1 ∧
    ∀ other : Fin n, other ≠ o → i ∉ m.inlets.get other
  inlets_increasing : ∀ o : Fin n, (m.inlets.get o).Pairwise (· < ·)
  /-- Looking up a number and reading it are inverse to each other. -/
  index_iff : ∀ number (i : Fin n), m.index.lookup number = some i ↔
    (segments.get i).number = number
  top_zero : ∀ i : Fin n, i.val = 0 → m.depths.get i = 0 ∧ m.lengths.get i = 0
  length_pos : ∀ i : Fin n, 0 < i.val → 0 < m.lengths.get i
  /-- Along the way to the top the differences add up. -/
  sums : ∀ (i top : Fin n) path, top.val = 0 → m.Leads i path top →
    (path.map m.depths.get).sum = (segments.get i).depth - (segments.get top).depth ∧
      (path.map m.lengths.get).sum = (segments.get i).length - (segments.get top).length

namespace Represents

section Reading

variable [Scalar α] {m : SegmentSet α n} {t : SegmentTree α} {i j o : Fin n}

theorem outlet_iff (h : m.Represents t) : m.outlets.get i = some o ↔ t.outlet? i = some o.val := by
  rw [← h.outlets i]
  exact (Option.map_injective Fin.val_injective).eq_iff.symm.trans (by rw [Option.map_some])

theorem mem_inlets (h : m.Represents t) : i ∈ m.inlets.get o ↔ i.val ∈ t.inlets o := by
  rw [← h.inlets o, List.mem_map_of_injective Fin.val_injective]

theorem count_inlets (h : m.Represents t) :
    (m.inlets.get o).count i = (t.inlets o).count i.val := by
  rw [← h.inlets o, List.count_map_of_injective _ _ Fin.val_injective]

/-- The way along the stored outlets is the way in the tree. -/
theorem leads (h : m.Represents t) {path : List (Fin n)} (hpath : m.Leads i path j) :
    t.Leads i (path.map Fin.val) j := by
  induction hpath with
  | stay i => exact .stay i.val
  | step ho _ ih => exact .step (h.outlet_iff.mp ho) ih

/-- A way in the tree is one along the stored outlets. -/
theorem exists_leads (h : m.Represents t) {i' j' : Nat} {path : List Nat}
    (hpath : t.Leads i' path j') : ∀ {i : Fin n}, i.val = i' →
      ∃ path' j, path'.map Fin.val = path ∧ j.val = j' ∧ m.Leads i path' j := by
  induction hpath with
  | stay i' => exact fun {i} hi => ⟨[], i, rfl, hi, .stay i⟩
  | step ho _ ih =>
      rintro i rfl
      rw [← h.outlets i] at ho
      obtain ⟨o, hstored, rfl⟩ := Option.map_eq_some_iff.mp ho
      obtain ⟨path', j, rfl, hj, hpath'⟩ := ih rfl
      exact ⟨i :: path', j, rfl, hj, .step hstored hpath'⟩

theorem getElem?_segments (h : m.Represents t) (i : Fin n) :
    t.segments[i.val]? = some (m.segments.get i) := by
  rw [← h.segments_eq]
  exact getElem?_table ..

end Reading

variable [ExactScalar α] {m : SegmentSet α n} {t : SegmentTree α}

/-- A set of tables is a tree when it represents one. -/
theorem isTree (h : m.Represents t) (ht : t.IsTreeOf m.segments.toList) : m.IsTree m.segments := by
  have hplace (i : Fin n) : i.val < m.segments.toList.length := by simp
  have hget := getElem?_table m.segments
  refine ⟨rfl, fun i o => ?_, fun i => ?_, fun i => ?_, fun i o => ?_, fun i hi => ?_, fun o => ?_,
    h.numbers, fun i hi => ?_, fun i hi => ?_, fun i top path htop hpath => ?_⟩
  · rw [h.outlet_iff, ht.outlet_iff, hget, hget]
    constructor
    · rintro ⟨s, below, hs, hbelow, hnamed⟩
      rwa [Option.some.inj hs, Option.some.inj hbelow]
    · exact fun hnamed => ⟨_, _, rfl, rfl, hnamed⟩
  · rw [← Option.map_eq_none_iff (f := Fin.val), h.outlets i]
    exact ht.outlet_none_iff i (hplace i)
  · obtain ⟨path, hpath, hlen, hunique⟩ := ht.leads i (hplace i)
    obtain ⟨path', top, rfl, htop, hpath'⟩ := h.exists_leads hpath rfl
    refine ⟨path', top, htop, hpath', by simpa using hlen, fun other hother => ?_⟩
    have hother' := h.leads hother
    rw [htop] at hother'
    exact List.map_injective_iff.mpr Fin.val_injective (hunique _ hother')
  · rw [h.mem_inlets, h.outlet_iff]
    exact ht.inlets_iff i o
  · obtain ⟨o, ho, hcount, hother⟩ := ht.inlet_once i hi (hplace i)
    have ho' : o < n := by simpa using ho
    refine ⟨⟨o, ho'⟩, h.count_inlets.trans hcount, fun other hne => ?_⟩
    rw [h.mem_inlets]
    exact hother other fun heq => hne (Fin.ext heq)
  · have hpairwise := ht.inlets_increasing o
    rw [← h.inlets o, List.pairwise_map] at hpairwise
    exact hpairwise
  · have hreach : t.reach? i = none := by rw [hi]; rfl
    rw [h.depths i, h.lengths i, SegmentTree.depthBelowOutlet, SegmentTree.lengthBeyondOutlet,
      hreach]
    exact ⟨rfl, rfl⟩
  · rw [h.lengths i]
    exact ht.length_pos i hi (hplace i)
  · have htop' : t.top = m.segments.get top := by
      refine Option.some.inj (Eq.trans ?_ (h.getElem?_segments top))
      exact htop ▸ rfl
    have hleads := h.leads hpath
    rw [htop] at hleads
    obtain ⟨hdepth, hlength⟩ := ht.sums i _ _ hleads (hget i)
    rw [List.map_map, htop'] at hdepth hlength
    refine ⟨Eq.trans ?_ hdepth, Eq.trans ?_ hlength⟩
    · exact congrArg List.sum (List.map_congr_left fun j _ => h.depths j)
    · exact congrArg List.sum (List.map_congr_left fun j _ => h.lengths j)

end Represents

variable [ExactScalar α]

/-- What is stored for an accepted list is a tree. -/
theorem build_isTree {segments : Vector (Segment α) n} {m : SegmentSet α n}
    (h : build segments = .ok m) : m.IsTree segments := by
  obtain ⟨rfl, t, ht, hm⟩ := represents_of_build h
  exact hm.isTree (SegmentTree.ofList_isTreeOf ht)

/-- The tables of the well with a side branch. -/
def sideBranch : SegmentSet ℚ 4 where
  segments := ⟨SegmentTree.sideBranch.segments.toArray, rfl⟩
  index := [(4, 3), (2, 2), (3, 1), (1, 0)]
  outlets := #v[none, some 2, some 0, some 2]
  inlets := #v[[2], [], [1, 3], []]
  depths := #v[0, 5, 10, 2]
  lengths := #v[0, 20, 20, 10]

/-- The second segment drains into the third, which stands after it. -/
theorem build_isTree_sideBranch : build sideBranch.segments = .ok sideBranch ∧
    sideBranch.IsTree sideBranch.segments ∧ sideBranch.Leads 1 [1, 2] 0 ∧
    ([1, 2].map sideBranch.lengths.get).sum = 40 := by
  have hbuild : build sideBranch.segments = .ok sideBranch := by decide +kernel
  have htree := build_isTree hbuild
  have hpath : sideBranch.Leads 1 [1, 2] 0 := .step rfl (.step rfl (.stay 0))
  refine ⟨hbuild, htree, hpath, ?_⟩
  rw [(htree.sums 1 0 _ rfl hpath).2]
  decide +kernel

end SegmentSet

end ReservoirWells
