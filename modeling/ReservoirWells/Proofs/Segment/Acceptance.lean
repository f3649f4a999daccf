import ReservoirWells.Proofs.Binary64.Difference
import ReservoirWells.Proofs.Segment.Tree

/-! # Acceptance — which lists of segments are accepted, and what is said of the others

    A list of segments is a well when it has a top segment without outlet and without inflow control,
    no number twice, and every other segment drains into a segment than which it is longer.  The
    checks say this and name the first fault otherwise (`accepts_iff`, `eq_error_iff`), whatever
    "longer" is taken to mean by the comparison of the difference of two lengths with zero.

    For floats that comparison is not quite the order of the lengths.  A difference that is not a
    number passes as longer: that of a length which is not a number, and that of an infinite length
    from itself (`exceeds_iff`).  Among lengths without such a pair the checks are exact and no
    outlets go round in a circle; a circle that is accepted passes over such a pair. -/

namespace ReservoirWells

namespace SegmentTree

variable {α : Type}

/-! ## Wells and faults -/

section Wells

variable (longer : Segment α → Segment α → Prop)

/-- A segment drains into a segment of the list, and is longer. -/
def Joined (all : List (Segment α)) (s : Segment α) : Prop :=
  ∃ below ∈ all, s.outlet = some below.number ∧ longer s below

/-- A list of segments that is a well. -/
inductive IsWell : List (Segment α) → Prop
  | intro {top : Segment α} {below : List (Segment α)} (outlet : top.outlet = none)
      (device : top.device.controlsInflow = false)
      (numbers : ((top :: below).map (·.number)).Nodup)
      (joined : ∀ s ∈ below, Joined longer (top :: below) s) : IsWell (top :: below)

/-- What can be wrong with a segment below the top. -/
inductive Fault (all : List (Segment α)) (s : Segment α) : SegmentError → Prop
  | missingOutlet (outlet : s.outlet = none) : Fault all s (.missingOutlet s.number)
  | unknownOutlet {number : Nat} (outlet : s.outlet = some number)
      (unknown : ∀ o ∈ all, o.number ≠ number) : Fault all s (.unknownOutlet s.number number)
  | notLonger {below : Segment α} (mem : below ∈ all) (outlet : s.outlet = some below.number)
      (short : ¬ longer s below) : Fault all s (.notLonger s.number)

/-- The first thing that is wrong with a list, in the order of the checks. -/
inductive FirstFault : List (Segment α) → SegmentError → Prop
  | empty : FirstFault [] .empty
  | topHasOutlet {top : Segment α} {below : List (Segment α)} (outlet : top.outlet ≠ none) :
      FirstFault (top :: below) (.topHasOutlet top.number)
  | deviceOnTop {top : Segment α} {below : List (Segment α)} (outlet : top.outlet = none)
      (device : top.device.controlsInflow = true) :
      FirstFault (top :: below) (.deviceOnTop top.number)
  | duplicateNumber {top s : Segment α} {below before after : List (Segment α)}
      (outlet : top.outlet = none) (device : top.device.controlsInflow = false)
      (split : top :: below = before ++ s :: after)
      (numbers : (before.map (·.number)).Nodup) (again : s.number ∈ before.map (·.number)) :
      FirstFault (top :: below) (.duplicateNumber s.number)
  | fault {top s : Segment α} {before after : List (Segment α)} {e : SegmentError}
      (outlet : top.outlet = none) (device : top.device.controlsInflow = false)
      (numbers : ((top :: (before ++ s :: after)).map (·.number)).Nodup)
      (joined : ∀ s' ∈ before, Joined longer (top :: (before ++ s :: after)) s')
      (fault : Fault longer (top :: (before ++ s :: after)) s e) :
      FirstFault (top :: (before ++ s :: after)) e

end Wells

section Congruence

variable {longer longer' : Segment α → Segment α → Prop} {all : List (Segment α)}

/-- Only what is said of segments and their outlets matters. -/
theorem Joined.congr (h : ∀ s ∈ all, ∀ o ∈ all, s.outlet = some o.number → (longer s o ↔ longer' s o))
    {s : Segment α} (hs : s ∈ all) : Joined longer all s ↔ Joined longer' all s := by
  constructor
  · rintro ⟨o, ho, hname, hlonger⟩
    exact ⟨o, ho, hname, (h s hs o ho hname).mp hlonger⟩
  · rintro ⟨o, ho, hname, hlonger⟩
    exact ⟨o, ho, hname, (h s hs o ho hname).mpr hlonger⟩

theorem IsWell.congr (h : ∀ s ∈ all, ∀ o ∈ all, s.outlet = some o.number → (longer s o ↔ longer' s o))
    (hwell : IsWell longer all) : IsWell longer' all := by
  cases hwell with
  | intro houtlet hdevice hnumbers hjoined =>
      refine .intro houtlet hdevice hnumbers fun s hs => ?_
      exact (Joined.congr h (List.mem_cons_of_mem _ hs)).mp (hjoined s hs)

theorem FirstFault.congr
    (h : ∀ s ∈ all, ∀ o ∈ all, s.outlet = some o.number → (longer s o ↔ longer' s o))
    {e : SegmentError} (hfault : FirstFault longer all e) : FirstFault longer' all e := by
  cases hfault with
  | empty => exact .empty
  | topHasOutlet houtlet => exact .topHasOutlet houtlet
  | deviceOnTop houtlet hdevice => exact .deviceOnTop houtlet hdevice
  | duplicateNumber houtlet hdevice hsplit hnumbers hagain =>
      exact .duplicateNumber houtlet hdevice hsplit hnumbers hagain
  | @fault top s before after e houtlet hdevice hnumbers hjoined hfault =>
      have hs : s ∈ top :: (before ++ s :: after) := by simp
      refine .fault houtlet hdevice hnumbers ?_ ?_
      · intro s' hs'
        exact (Joined.congr h (List.mem_cons_of_mem _ (List.mem_append_left _ hs'))).mp
          (hjoined s' hs')
      · cases hfault with
        | missingOutlet hmissing => exact .missingOutlet hmissing
        | unknownOutlet hname hunknown => exact .unknownOutlet hname hunknown
        | notLonger hmem hname hshort =>
            exact .notLonger hmem hname fun hl => hshort ((h _ hs _ hmem hname).mpr hl)

end Congruence

/-! ## The checks -/

/-- The first number that was seen before belongs to the first segment that repeats one. -/
theorem duplicate?_eq_some {l : List (Segment α)} {n : Nat} : ∀ {seen : List Nat},
    duplicate? seen l = some n ↔ ∃ before s after, l = before ++ s :: after ∧ s.number = n ∧
      (before.map (·.number)).Nodup ∧ (∀ s' ∈ before, s'.number ∉ seen) ∧
      (s.number ∈ seen ∨ s.number ∈ before.map (·.number)) := by
  induction l with
  | nil =>
      intro seen
      constructor
      · intro h
        cases h
      · rintro ⟨before, s, after, hl, _⟩
        cases before <;> cases hl
  | cons a rest ih =>
      intro seen
      rw [duplicate?]
      by_cases ha : a.number ∈ seen
      · rw [if_pos (List.contains_iff_mem.mpr ha)]
        constructor
        · intro h
          exact ⟨[], a, rest, rfl, Option.some.inj h, List.nodup_nil, by simp, Or.inl ha⟩
        · rintro ⟨before, s, after, hl, rfl, _, hnew, _⟩
          cases before with
          | nil => cases hl; rfl
          | cons b before => cases hl; exact absurd ha (hnew _ (List.mem_cons_self ..))
      · rw [if_neg fun h => ha (List.contains_iff_mem.mp h), ih]
        constructor
        · rintro ⟨before, s, after, rfl, hs, hnodup, hnew, hagain⟩
          refine ⟨a :: before, s, after, rfl, hs, ?_, ?_, ?_⟩
          · refine List.nodup_cons.mpr ⟨fun hmem => ?_, hnodup⟩
            obtain ⟨s', hs', hsame⟩ := List.mem_map.mp hmem
            exact hnew s' hs' (hsame ▸ List.mem_cons_self ..)
          · exact List.forall_mem_cons.mpr
              ⟨ha, fun s' hs' hseen => hnew s' hs' (List.mem_cons_of_mem _ hseen)⟩
          · simpa only [List.map_cons, List.mem_cons, or_left_comm, or_assoc] using hagain
        · rintro ⟨before, s, after, hl, hs, hnodup, hnew, hagain⟩
          cases before with
          | nil =>
              cases hl
              exact absurd (hagain.resolve_right List.not_mem_nil) ha
          | cons b before =>
              cases hl
              obtain ⟨ha', hnodup⟩ := List.nodup_cons.mp hnodup
              refine ⟨before, s, after, rfl, hs, hnodup, fun s' hs' => ?_, ?_⟩
              · intro hseen
                rcases List.mem_cons.mp hseen with hsame | hseen
                · exact ha' (List.mem_map.mpr ⟨s', hs', hsame⟩)
                · exact hnew s' (List.mem_cons_of_mem _ hs') hseen
              · simpa only [List.map_cons, List.mem_cons, or_left_comm, or_assoc] using hagain

/-- Nothing is found among numbers that are distinct. -/
theorem duplicate?_of_nodup {l : List (Segment α)} (h : (l.map (·.number)).Nodup) :
    duplicate? [] l = none := by
  cases hdup : duplicate? [] l with
  | none => rfl
  | some n =>
      obtain ⟨before, s, after, rfl, _, _, _, hagain⟩ := duplicate?_eq_some.mp hdup
      rw [List.map_append, List.map_cons] at h
      have hagain := hagain.resolve_left List.not_mem_nil
      exact absurd (List.mem_cons_self ..) (List.disjoint_of_nodup_append h hagain)

section Checks

variable [Scalar α] {all : List (Segment α)} {s : Segment α}

/-- A segment passes as longer than another when the difference of the lengths is not at most zero. -/
def Exceeds (s o : Segment α) : Prop := ¬s.length - o.length ≤ 0

theorem Drains.exceeds {r : Reach α} {below : Segment α} (h : Drains all r below) :
    Exceeds r.segment below := by
  rw [Exceeds, ← h.length_eq]
  exact h.length_not_le

theorem connect_of_missing (h : s.outlet = none) :
    connect all s = .error (.missingOutlet s.number) := by
  rw [connect, h]

theorem connect_of_unknown {number : Nat} (h : s.outlet = some number)
    (hunknown : ∀ o ∈ all, o.number ≠ number) :
    connect all s = .error (.unknownOutlet s.number number) := by
  rw [connect, h]
  dsimp only
  split
  · rfl
  · rename_i o i hfind
    have hmem : o ∈ all := List.mem_of_getElem?
      (List.mem_zipIdx_iff_getElem?.mp (List.mem_of_find?_eq_some hfind))
    have hnumber := List.find?_some hfind
    exact absurd (eq_of_beq hnumber) (hunknown o hmem)

/-- The outlet is the segment of the list that has the number. -/
theorem connect_of_named (hnumbers : (all.map (·.number)).Nodup) {o : Segment α} (ho : o ∈ all)
    (h : s.outlet = some o.number) :
    ∃ i, connect all s = if s.length - o.length ≤ 0 then .error (.notLonger s.number)
      else .ok ⟨s, i, s.depth - o.depth, s.length - o.length⟩ := by
  rw [connect, h]
  dsimp only
  split
  · rename_i hfind
    obtain ⟨i, hi⟩ := List.mem_iff_getElem?.mp ho
    have hnot := List.find?_eq_none.mp hfind (o, i) (List.mem_zipIdx_iff_getElem?.mpr hi)
    exact absurd (beq_self_eq_true o.number) hnot
  · rename_i o' i hfind
    have hmem : o' ∈ all := List.mem_of_getElem?
      (List.mem_zipIdx_iff_getElem?.mp (List.mem_of_find?_eq_some hfind))
    have hnumber := List.find?_some hfind
    obtain rfl : o' = o := List.inj_on_of_nodup_map hnumbers hmem ho (eq_of_beq hnumber)
    exact ⟨i, rfl⟩

theorem connect_ok_iff (hnumbers : (all.map (·.number)).Nodup) :
    (∃ r, connect all s = .ok r) ↔ Joined Exceeds all s := by
  constructor
  · rintro ⟨r, hr⟩
    obtain ⟨rfl, below, hbelow⟩ := drains_of_connect hr
    exact ⟨below, List.mem_of_getElem? hbelow.found, hbelow.named, hbelow.exceeds⟩
  · rintro ⟨o, ho, hname, hlong⟩
    obtain ⟨i, hconnect⟩ := connect_of_named hnumbers ho hname
    rw [if_neg hlong] at hconnect
    exact ⟨_, hconnect⟩

theorem connect_error_iff (hnumbers : (all.map (·.number)).Nodup) {e : SegmentError} :
    connect all s = .error e ↔ Fault Exceeds all s e := by
  constructor
  · intro h
    cases houtlet : s.outlet with
    | none =>
        rw [connect_of_missing houtlet] at h
        cases h
        exact .missingOutlet houtlet
    | some number =>
        by_cases hknown : ∃ o ∈ all, o.number = number
        · obtain ⟨o, ho, rfl⟩ := hknown
          obtain ⟨i, hconnect⟩ := connect_of_named hnumbers ho houtlet
          rw [hconnect] at h
          split at h
          · rename_i hshort
            cases h
            exact .notLonger ho houtlet (not_not.mpr hshort)
          · cases h
        · have hunknown : ∀ o ∈ all, o.number ≠ number := fun o ho hsame => hknown ⟨o, ho, hsame⟩
          rw [connect_of_unknown houtlet hunknown] at h
          cases h
          exact .unknownOutlet houtlet hunknown
  · intro h
    cases h with
    | missingOutlet houtlet => exact connect_of_missing houtlet
    | unknownOutlet houtlet hunknown => exact connect_of_unknown houtlet hunknown
    | notLonger ho houtlet hshort =>
        obtain ⟨i, hconnect⟩ := connect_of_named hnumbers ho houtlet
        rw [hconnect, if_pos (not_not.mp hshort)]

/-- Behind the checks of the top and of the numbers the segments are connected in order. -/
theorem ofList_of_numbers {top : Segment α} {below : List (Segment α)} (houtlet : top.outlet = none)
    (hdevice : top.device.controlsInflow = false)
    (hnumbers : ((top :: below).map (·.number)).Nodup) :
    ofList (top :: below) = (below.mapM (connect (top :: below))).map fun reaches => ⟨top, reaches⟩ := by
  rw [ofList, houtlet, hdevice, duplicate?_of_nodup hnumbers]
  rfl

/-- A list is accepted when it is a well. -/
theorem accepts_iff : (∃ t, ofList all = .ok t) ↔ IsWell Exceeds all := by
  constructor
  · rintro ⟨t, ht⟩
    obtain ⟨hwell, rfl⟩ := wellFormed_of_ofList ht
    refine .intro hwell.top_outlet hwell.top_device hwell.numbers fun s hs => ?_
    obtain ⟨r, hr, rfl⟩ := List.mem_map.mp hs
    obtain ⟨below, hbelow⟩ := hwell.drains r hr
    exact ⟨below, List.mem_of_getElem? hbelow.found, hbelow.named, hbelow.exceeds⟩
  · rintro ⟨houtlet, hdevice, hnumbers, hjoined⟩
    obtain ⟨reaches, hreaches⟩ :=
      mapM_ok_iff.mpr fun s hs => (connect_ok_iff hnumbers).mpr (hjoined s hs)
    exact ⟨⟨_, reaches⟩, by rw [ofList_of_numbers houtlet hdevice hnumbers, hreaches]; rfl⟩

/-- A list that is not accepted is refused for its first fault. -/
theorem eq_error_iff {e : SegmentError} : ofList all = .error e ↔ FirstFault Exceeds all e := by
  constructor
  · intro h
    cases all with
    | nil =>
        cases h
        exact .empty
    | cons top below =>
        cases houtlet : top.outlet with
        | some n =>
            rw [ofList, houtlet] at h
            cases h
            exact .topHasOutlet (by rw [houtlet]; exact Option.some_ne_none n)
        | none =>
            cases hdevice : top.device.controlsInflow with
            | true =>
                rw [ofList, houtlet, hdevice] at h
                cases h
                exact .deviceOnTop houtlet hdevice
            | false =>
                cases hdup : duplicate? [] (top :: below) with
                | some n =>
                    rw [ofList, houtlet, hdevice, hdup] at h
                    cases h
                    obtain ⟨before, s, after, hsplit, rfl, hnodup, _, hagain⟩ :=
                      duplicate?_eq_some.mp hdup
                    exact .duplicateNumber houtlet hdevice hsplit hnodup
                      (hagain.resolve_left List.not_mem_nil)
                | none =>
                    have hnumbers := (duplicate?_eq_none hdup).1
                    rw [ofList_of_numbers houtlet hdevice hnumbers] at h
                    have hmap : below.mapM (connect (top :: below)) = .error e := by
                      cases hmap : below.mapM (connect (top :: below)) with
                      | error e' => rw [hmap] at h; cases h; rfl
                      | ok ys => rw [hmap] at h; cases h
                    obtain ⟨before, s, after, rfl, hbefore, hs⟩ := mapM_eq_error.mp hmap
                    exact .fault houtlet hdevice hnumbers
                      (fun s' hs' => (connect_ok_iff hnumbers).mp (hbefore s' hs'))
                      ((connect_error_iff hnumbers).mp hs)
  · intro h
    cases h with
    | empty => rfl
    | @topHasOutlet top below houtlet =>
        rw [ofList, if_pos (Option.isSome_iff_ne_none.mpr houtlet)]
    | deviceOnTop houtlet hdevice =>
        rw [ofList, houtlet, hdevice]
        rfl
    | duplicateNumber houtlet hdevice hsplit hnumbers hagain =>
        have hdup := duplicate?_eq_some.mpr
          ⟨_, _, _, hsplit, rfl, hnumbers, fun _ _ => List.not_mem_nil, Or.inr hagain⟩
        rw [ofList, houtlet, hdevice, hdup]
        rfl
    | @fault top s before after e houtlet hdevice hnumbers hjoined hfault =>
        have hmap := mapM_eq_error.mpr ⟨before, s, after, rfl,
          fun s' hs' => (connect_ok_iff hnumbers).mpr (hjoined s' hs'),
          (connect_error_iff hnumbers).mpr hfault⟩
        rw [ofList_of_numbers houtlet hdevice hnumbers, hmap]
        rfl

end Checks

/-! ## Lengths -/

/-- A segment is longer than another. -/
def Longer [Scalar α] (s o : Segment α) : Prop := o.length < s.length

/-- The difference of two lengths is not a number: one of them is none, or both are the same
    infinity. -/
def Unmeasured [Scalar α] (s o : Segment α) : Prop :=
  Scalar.isNumber s.length = false ∨ Scalar.isNumber o.length = false ∨
    (s.length ≤ o.length ∧ o.length ≤ s.length ∧ Scalar.isFinite s.length = false)

/-- Every segment of a list can be measured against its outlet. -/
def Measured [Scalar α] (all : List (Segment α)) : Prop :=
  ∀ s ∈ all, ∀ o ∈ all, s.outlet = some o.number → ¬Unmeasured s o

/-- Outlets that go round in a circle, through the segments of `path`. -/
def Circle (t : SegmentTree α) (path : List Nat) : Prop := path ≠ [] ∧ ∃ i, t.Leads i path i

/-- A difference of floats that is not at most zero is that of a longer segment, or not a number. -/
theorem exceeds_iff {s o : Segment Float} : Exceeds s o ↔ Longer s o ∨ Unmeasured s o := by
  have hnumber : ∀ {x : Float}, Scalar.isNumber x = false ↔ ¬x ≤ x := by
    intro x
    rw [← Scalar.isNumber_iff, Bool.not_eq_true]
  rw [Exceeds, Binary64.sub_le_zero_iff, Longer, Unmeasured, hnumber, hnumber]
  constructor
  · intro h
    by_cases hs : s.length ≤ s.length
    · by_cases ho : o.length ≤ o.length
      · by_cases hle : s.length ≤ o.length
        · obtain ⟨hge, hinfinite⟩ := Classical.not_imp.mp fun hfinite => h ⟨hle, hfinite⟩
          exact Or.inr (Or.inr (Or.inr ⟨hle, hge, Bool.not_eq_true _ ▸ hinfinite⟩))
        · exact Or.inl (OrderedScalar.lt_iff.mpr
            ⟨(OrderedScalar.le_total hs ho).resolve_left hle, hle⟩)
      · exact Or.inr (Or.inr (Or.inl ho))
    · exact Or.inr (Or.inl hs)
  · rintro (hlong | hs | ho | ⟨_, hge, hinfinite⟩) ⟨hle, hfinite⟩
    · exact (OrderedScalar.lt_iff.mp hlong).2 hle
    · exact hs (OrderedScalar.le_self hle).1
    · exact ho (OrderedScalar.le_self hle).2
    · exact Bool.false_ne_true (hinfinite.symm.trans (hfinite hge))

/-- What holds from every segment of a way to its outlet, and is transitive, holds from its start to
    its end. -/
theorem Leads.rel {R : Nat → Nat → Prop} (htrans : ∀ {i j k}, R i j → R j k → R i k)
    {t : SegmentTree α} {i j : Nat} {path : List Nat} (h : t.Leads i path j) (hne : path ≠ [])
    (hstep : ∀ k ∈ path, ∀ o, t.outlet? k = some o → R k o) : R i j := by
  induction h with
  | stay i => exact absurd rfl hne
  | @step i o j path ho hrest ih =>
      have hfirst := hstep i (List.mem_cons_self ..) o ho
      cases hrest with
      | stay => exact hfirst
      | step ho' hrest' =>
          exact htrans hfirst (ih (List.cons_ne_nil _ _) fun k hk => hstep k (List.mem_cons_of_mem _ hk))

/-- A circle has a segment that is not longer than its outlet. -/
theorem Circle.exists_not_longer [Scalar α] [OrderedScalar α] {t : SegmentTree α} {path : List Nat}
    (hcircle : t.Circle path) {P : Segment α → Segment α → Prop}
    (hfound : ∀ j o, t.outlet? j = some o →
      ∃ s below, t.segment? j = some s ∧ t.segment? o = some below ∧ P s below) :
    ∃ j ∈ path, ∃ s below, t.segment? j = some s ∧ below ∈ t.segments ∧ P s below ∧
      ¬Longer s below := by
  obtain ⟨hne, i, hleads⟩ := hcircle
  by_contra hnone
  have hlonger : ∃ s below, t.segment? i = some s ∧ t.segment? i = some below ∧ Longer s below := by
    refine hleads.rel
      (R := fun j o => ∃ s below, t.segment? j = some s ∧ t.segment? o = some below ∧ Longer s below)
      ?_ hne ?_
    · rintro i j k ⟨s, s', hs, hs', hlt⟩ ⟨s'', below, hs'', hbelow, hlt'⟩
      obtain rfl : s' = s'' := Option.some.inj (hs'.symm.trans hs'')
      exact ⟨s, below, hs, hbelow,
        OrderedScalar.lt_of_lt_of_le hlt' (OrderedScalar.lt_iff.mp hlt).1⟩
    · intro j hj o ho
      obtain ⟨s, below, hs, hbelow, hP⟩ := hfound j o ho
      refine ⟨s, below, hs, hbelow, ?_⟩
      by_contra hshort
      exact hnone ⟨j, hj, s, below, hs, List.mem_of_getElem? hbelow, hP, hshort⟩
  obtain ⟨s, s', hs, hs', hlt⟩ := hlonger
  obtain rfl : s = s' := Option.some.inj (hs.symm.trans hs')
  exact (OrderedScalar.lt_iff.mp hlt).2 (OrderedScalar.lt_iff.mp hlt).1

/-- The outlet of a segment of an accepted list passes as shorter. -/
theorem WellFormed.exceeds_of_outlet? [Scalar α] {t : SegmentTree α} (h : t.WellFormed) {j o : Nat}
    (ho : t.outlet? j = some o) : ∃ s below, t.segment? j = some s ∧ t.segment? o = some below ∧
      s.outlet = some below.number ∧ Exceeds s below := by
  obtain ⟨r, hr, rfl⟩ := outlet?_eq_some.mp ho
  obtain ⟨below, hbelow⟩ := h.drains r (mem_reaches hr)
  exact ⟨r.segment, below, segment?_of_reach? hr, hbelow.found, hbelow.named, hbelow.exceeds⟩

/-- What is accepted, what is refused and why. Circles of outlets need lengths whose difference is
    not a number; without such lengths a segment passes as longer exactly when it is. -/
theorem ofList_accepts (all : List (Segment Float)) :
    ((∃ t, ofList all = .ok t) ↔ IsWell (fun s o => Longer s o ∨ Unmeasured s o) all) ∧
    (∀ e, ofList all = .error e ↔ FirstFault (fun s o => Longer s o ∨ Unmeasured s o) all e) ∧
    (∀ t path, ofList all = .ok t → t.Circle path → ∃ j ∈ path, ∃ s below, all[j]? = some s ∧
      below ∈ all ∧ s.outlet = some below.number ∧ Unmeasured s below) ∧
    (Measured all → ((∃ t, ofList all = .ok t) ↔ IsWell Longer all) ∧
      (∀ e, ofList all = .error e ↔ FirstFault Longer all e) ∧
      ∀ t path, ofList all = .ok t → ¬t.Circle path) := by
  have hjudged : ∀ {longer : Segment Float → Segment Float → Prop},
      (∀ s ∈ all, ∀ o ∈ all, s.outlet = some o.number → (Exceeds s o ↔ longer s o)) →
      ((∃ t, ofList all = .ok t) ↔ IsWell longer all) ∧
        ∀ e, ofList all = .error e ↔ FirstFault longer all e := by
    intro longer h
    have h' : ∀ s ∈ all, ∀ o ∈ all, s.outlet = some o.number → (longer s o ↔ Exceeds s o) :=
      fun s hs o ho hname => (h s hs o ho hname).symm
    exact ⟨accepts_iff.trans ⟨.congr h, .congr h'⟩,
      fun e => eq_error_iff.trans ⟨.congr h, .congr h'⟩⟩
  have hcircle : ∀ t path, ofList all = .ok t → t.Circle path → ∃ j ∈ path, ∃ s below,
      all[j]? = some s ∧ below ∈ all ∧ s.outlet = some below.number ∧ Unmeasured s below := by
    intro t path ht hcircle
    obtain ⟨hwell, rfl⟩ := wellFormed_of_ofList ht
    obtain ⟨j, hj, s, below, hs, hbelow, ⟨hname, hpasses⟩, hshort⟩ :=
      hcircle.exists_not_longer fun j o ho => hwell.exceeds_of_outlet? ho
    exact ⟨j, hj, s, below, hs, hbelow, hname, (exceeds_iff.mp hpasses).resolve_left hshort⟩
  have hall := hjudged fun s _ o _ _ => exceeds_iff (s := s) (o := o)
  refine ⟨hall.1, hall.2, hcircle, fun hmeasured => ?_⟩
  have hstrict := hjudged fun s hs o ho hname =>
    exceeds_iff.trans (or_iff_left (hmeasured s hs o ho hname))
  refine ⟨hstrict.1, hstrict.2, fun t path ht hpath => ?_⟩
  obtain ⟨j, _, s, below, hs, hbelow, hname, hunmeasured⟩ := hcircle t path ht hpath
  exact hmeasured s (List.mem_of_getElem? hs) below hbelow hname hunmeasured

/-- Two segments that drain into each other, with lengths that are not numbers. -/
def ring : List (Segment Float) :=
  [segment 1 none 0, segment 2 (some 3) (0 / 0), segment 3 (some 2) (0 / 0)]
where
  segment (number : Nat) (outlet : Option Nat) (length : Float) : Segment Float :=
    ⟨number, outlet, 0, length, 1, 1, 0, .pipe⟩

/-- A list that is not a well is accepted, and its outlets go round in a circle. -/
theorem not_forall_accepted_isWell : ¬∀ all : List (Segment Float),
    ((∃ t, ofList all = .ok t) ↔ IsWell Longer all) ∧
      (∀ e, ofList all = .error e ↔ FirstFault Longer all e) ∧
      ∀ t path, ofList all = .ok t → ¬t.Circle path := by
  intro h
  obtain ⟨t, ht, houtlet, houtlet'⟩ :
      ∃ t, ofList ring = .ok t ∧ t.outlet? 1 = some 2 ∧ t.outlet? 2 = some 1 := ⟨_, rfl, rfl, rfl⟩
  exact (h ring).2.2 t [1, 2] ht ⟨List.cons_ne_nil _ _, 1, .step houtlet (.step houtlet' (.stay 1))⟩

end SegmentTree

end ReservoirWells
