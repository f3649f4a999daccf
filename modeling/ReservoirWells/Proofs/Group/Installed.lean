import ReservoirWells.Proofs.Group.Execution

/-! # Installed — a group control that was installed stays in force

    Installing a group control makes it the active control of the well's table entry and takes the
    well out of individual control (`Site.UnderControl`).  It stays so for the rest of a run when
    no later order is about the well, provided that no other well is attached to the same entry
    (`Site.Separate`):

    * `Site.separate_of_nodup` — wells are separate when the table indices in the node list are;
    * `Site.run_leaves_well` — a run leaves alone a well that no order is about;
    * `Site.run_underControl` — a well is under a group control that a run installs, or that it was
      under before;
    * `Site.run_install` — so a control that was installed in a run is in force at its end. -/

namespace ReservoirWells

variable {α : Type} [Scalar α]

/-! ## The group control in a list -/

namespace ControlList

variable {β : Type}

/-- The place of an imposed control is a place of the list, and the control stands there. -/
theorem impose_getElem? (l : ControlList β) (slot : Option Nat) (c : Control β) :
    (l.impose slot c).1.controls[(l.impose slot c).2]? = some c := by
  have hlast : (l.controls ++ [c])[l.controls.length]? = some c := List.getElem?_concat_length
  cases slot with
  | none => exact hlast
  | some place =>
      rw [impose]
      by_cases hlt : place < l.controls.length
      · rw [if_pos hlt]
        exact List.getElem?_set_self hlt
      · rw [if_neg hlt]
        exact hlast

theorem select_of_getElem? {l : ControlList β} {place : Nat} {c : Control β}
    (h : l.controls[place]? = some c) : l.select place = { l with current := place } :=
  if_pos (List.getElem?_eq_some_iff.mp h).1

end ControlList

/-! ## Wells with entries of their own -/

/-- The table indices that wells are attached to, in the order of the nodes. -/
def Hierarchy.entries (h : Hierarchy α) : List Nat :=
  h.nodes.filterMap fun n => n.attachment?.map (·.index)

namespace Site

/-- No two wells are attached to the same entry. -/
def Separate (s : Site α) : Prop :=
  ∀ i j index, s.AttachedTo i index → s.AttachedTo j index → i = j

/-- No two of some nodes are attached to the same entry. -/
def SeparateOn (s : Site α) (ids : List Nat) : Prop :=
  ∀ i ∈ ids, ∀ j ∈ ids, ∀ index, s.AttachedTo i index → s.AttachedTo j index → i = j

theorem Separate.on {s : Site α} (h : s.Separate) (ids : List Nat) : s.SeparateOn ids :=
  fun i _ j _ => h i j

/-- Only the nodes that are attached count. -/
theorem SeparateOn.of_attached {s t : Site α} {ids ids' : List Nat} (h : s.SeparateOn ids)
    (hmem : ∀ i ∈ ids', ∀ index, t.AttachedTo i index → i ∈ ids ∧ s.AttachedTo i index) :
    t.SeparateOn ids' := by
  intro i hi j hj index hai haj
  obtain ⟨hi, hai⟩ := hmem i hi index hai
  obtain ⟨hj, haj⟩ := hmem j hj index haj
  exact h i hi j hj index hai haj

theorem SeparateOn.tail {s : Site α} {id : Nat} {ids : List Nat} (h : s.SeparateOn (id :: ids)) :
    s.SeparateOn ids :=
  h.of_attached fun _ hi _ ha => ⟨List.mem_cons_of_mem _ hi, ha⟩

/-- Wells are separate when no index comes twice in the node list. -/
theorem separate_of_nodup {s : Site α} (h : s.hierarchy.entries.Nodup) : s.Separate := by
  have hentry : ∀ {i index}, s.AttachedTo i index → ∃ hi : i < s.hierarchy.nodes.length,
      (s.hierarchy.nodes[i].attachment?.map (·.index)) = some index := by
    rintro i index ⟨n, hn, hindex⟩
    obtain ⟨hi, hget⟩ := List.getElem?_eq_some_iff.mp (Hierarchy.node_eq_ok.mp hn)
    refine ⟨hi, ?_⟩
    rw [hget]
    exact Node.tableIndex_eq_ok.mp hindex
  have hpair := List.pairwise_iff_getElem.mp (List.pairwise_filterMap.mp h)
  intro i j index hi hj
  obtain ⟨hilt, hi⟩ := hentry hi
  obtain ⟨hjlt, hj⟩ := hentry hj
  rcases Nat.lt_trichotomy i j with hlt | heq | hgt
  · exact absurd rfl (hpair i j hilt hjlt hlt index hi index hj)
  · exact heq
  · exact absurd rfl (hpair j i hjlt hilt hgt index hj index hi)

/-- Wells stay separate. -/
theorem Separate.of_attachedTo {s t : Site α} (h : s.Separate)
    (hsame : ∀ id index, t.AttachedTo id index ↔ s.AttachedTo id index) : t.Separate := by
  intro i j index hi hj
  exact h i j index ((hsame i index).mp hi) ((hsame j index).mp hj)

end Site

/-- An order that takes hold of an entry is about a well that is attached to it, or it makes another
    control active. -/
theorem Order.Touches.subject {s : Site α} {index : Nat} {o : Order α} (h : o.Touches s index) :
    (∃ id, o.subject? = some id ∧ s.AttachedTo id index) ∨ ∃ place, o = .activate index place := by
  cases o with
  | install id c => exact Or.inl ⟨id, rfl, h⟩
  | withdraw id => exact Or.inl ⟨id, rfl, h⟩
  | activate i place => exact Or.inr ⟨place, congrArg (Order.activate · place) h⟩
  | adopt id mode => exact False.elim h
  | refresh id => exact False.elim h
  | refuse e => exact False.elim h

namespace Site

/-- A run leaves alone a well that no order is about, together with its entry. -/
theorem run_leaves_well {s : Site α} {l : List (Order α)} {id index : Nat}
    (hsep : s.SeparateOn (id :: l.filterMap Order.subject?)) (ha : s.AttachedTo id index)
    (hactivate : ∀ i place, Order.activate i place ∉ l) (hnot : ∀ o ∈ l, o.subject? ≠ some id) :
    (s.run l).1.hierarchy.node id = s.hierarchy.node id ∧
      (s.run l).1.wells.well index = s.wells.well index := by
  refine ⟨run_node_of_notMem hnot, run_well_of_notMem ?_⟩
  intro o ho htouch
  rcases htouch.subject with ⟨j, hj, hattached⟩ | ⟨place, rfl⟩
  · have hmem : j ∈ l.filterMap Order.subject? := List.mem_filterMap.mpr ⟨o, ho, hj⟩
    have hsame : j = id := hsep j (List.mem_cons_of_mem _ hmem) id (List.mem_cons_self ..) index
      hattached ha
    exact hnot o ho (hsame ▸ hj)
  · exact hactivate index place ho

/-! ## Under a group control -/

/-- The well is not under individual control, and the control in its group slot is `c` and is the
    active one of its entry. -/
def UnderControl (s : Site α) (id : Nat) (c : Control α) : Prop :=
  ∃ n index slot w, s.hierarchy.node id = .ok n ∧ n.individual = false ∧
    n.tableIndex = .ok index ∧ n.groupSlot? = some slot ∧ s.wells.well index = .ok w ∧
    w.controls.current = slot ∧ w.controls.controls[slot]? = some c

/-- A well is under the control that was just installed. -/
theorem underControl_of_install {s t : Site α} {id : Nat} {c : Control α}
    (h : s.install id c = .ok t) : t.UnderControl id c := by
  obtain ⟨n, index, w, hn, hi, hw, rfl⟩ := install_eq_ok.mp h
  obtain ⟨link, hl⟩ := Node.link?_of_tableIndex hi
  have hplace := w.controls.impose_getElem? n.groupSlot? c
  refine ⟨_, index, (w.controls.impose n.groupSlot? c).2, _, Hierarchy.node_modify_self hn _, rfl,
    ?_, ?_, WellTable.well_setControls_self hw _, ?_, ?_⟩
  · show (n.modifyLink _).tableIndex = _
    rw [Node.tableIndex_of_lasting (n.lasting_modifyLink _)]
    · exact hi
    · exact fun _ => rfl
  · show (n.modifyLink _).groupSlot? = _
    cases hr : n.role with
    | group => rw [Node.link?, hr] at hl; cases hl
    | well link => rw [Node.modifyLink, hr]; rfl
  · rw [ControlList.select_of_getElem? hplace]
  · rw [ControlList.select_of_getElem? hplace]
    exact hplace

/-- The active control of the entry that a well is attached to, if the entry has any controls. -/
def activeControl (s : Site α) (id : Nat) : Except GroupError (Option (Control α)) := do
  let n ← s.hierarchy.node id
  let index ← n.tableIndex
  let w ← s.wells.well index
  return w.controls.active?

/-- The target that a well is held to; zero when there is none. -/
def heldTarget (s : Site α) (id : Nat) : α :=
  match s.activeControl id with
  | .ok (some c) => c.target
  | _ => 0

/-- A well under a group control is held to the target of that control. -/
theorem UnderControl.heldTarget {s : Site α} {id : Nat} {c : Control α}
    (h : s.UnderControl id c) : s.heldTarget id = c.target := by
  obtain ⟨n, index, slot, w, hn, _, hi, _, hw, hcur, hget⟩ := h
  have hactive : s.activeControl id = .ok (some c) := by
    refine bind_eq_ok.mpr ⟨n, hn, ?_⟩
    refine bind_eq_ok.mpr ⟨index, hi, ?_⟩
    refine bind_eq_ok.mpr ⟨w, hw, ?_⟩
    rw [ControlList.active?, hcur, hget]
    rfl
  rw [Site.heldTarget, hactive]

/-- An order keeps a well under a group control when it is about another node, when it installs that
    control, and when it marks the well as up to date. -/
theorem UnderControl.of_obey {s t : Site α} {id : Nat} {c : Control α} {o : Order α}
    (h : s.UnderControl id c) (hsep : s.SeparateOn (id :: o.subject?.toList))
    (ho : s.obey o = .ok t) (hactivate : ∀ i place, o ≠ .activate i place)
    (honly : o.subject? = some id → o = .install id c ∨ o = .refresh id) : t.UnderControl id c := by
  obtain ⟨n, index, slot, w, hn, hind, hi, hslot, hw, hcur, hget⟩ := h
  by_cases hself : o.subject? = some id
  · rcases honly hself with rfl | rfl
    · exact underControl_of_install ho
    · cases ho
      exact ⟨_, index, slot, w, Hierarchy.node_modify_self hn _, hind, hi, hslot, hw, hcur, hget⟩
  · refine ⟨n, index, slot, w, (obey_node_of_ne ho hself).trans hn, hind, hi, hslot, ?_, hcur, hget⟩
    rw [obey_well_of_not_touches ho]
    · exact hw
    · intro htouch
      rcases htouch.subject with ⟨j, hj, hattached⟩ | ⟨place, heq⟩
      · have hmem : j ∈ id :: o.subject?.toList := List.mem_cons_of_mem _ (Option.mem_toList.mpr hj)
        have hsame : j = id := hsep j hmem id (List.mem_cons_self ..) index hattached ⟨n, hn, hi⟩
        exact hself (hsame ▸ hj)
      · exact hactivate index place heq

/-- A well is under a group control at the end of a run when it was before or when the run installs
    that control, and no order about the well does anything but install it or mark the well. -/
theorem run_underControl {s : Site α} {l : List (Order α)} {id : Nat} {c : Control α}
    (hbefore : s.UnderControl id c ∨ .install id c ∈ l)
    (hsep : s.SeparateOn (id :: l.filterMap Order.subject?))
    (hactivate : ∀ i place, Order.activate i place ∉ l)
    (honly : ∀ o ∈ l, o.subject? = some id → o = .install id c ∨ o = .refresh id)
    (hrun : (s.run l).2 = .ok ()) : (s.run l).1.UnderControl id c := by
  induction l generalizing s with
  | nil => exact hbefore.resolve_right List.not_mem_nil
  | cons o rest ih =>
      rw [run] at hrun ⊢
      cases ho : s.obey o with
      | error e => rw [ho] at hrun; cases hrun
      | ok t =>
          rw [ho] at hrun
          rw [filterMap_cons_toList] at hsep
          have hself := honly o (List.mem_cons_self ..)
          have hafter : t.UnderControl id c ∨ .install id c ∈ rest := by
            rcases hbefore with hunder | hmem
            · refine Or.inl (hunder.of_obey (hsep.of_attached fun i hi _ ha =>
                ⟨List.cons_subset_cons id (List.subset_append_left ..) hi, ha⟩) ho ?_ hself)
              exact fun i place heq => hactivate i place (heq ▸ List.mem_cons_self ..)
            · rcases List.mem_cons.mp hmem with rfl | hrest
              · exact Or.inl (underControl_of_install ho)
              · exact Or.inr hrest
          refine ih hafter (hsep.of_attached fun i hi index ha => ⟨?_, ?_⟩)
            (fun i place hmem => hactivate i place (List.mem_cons_of_mem o hmem))
            (fun o' ho' => honly o' (List.mem_cons_of_mem o ho')) hrun
          · exact List.cons_subset_cons id (List.subset_append_right ..) hi
          · exact (obey_attachedTo ho i index).mp ha

/-- A control that was installed in a run is in force at its end, when the orders are about different
    nodes. -/
theorem run_install {s : Site α} {l : List (Order α)} {id : Nat} {c : Control α}
    (hsep : s.SeparateOn (l.filterMap Order.subject?)) (hmem : .install id c ∈ l)
    (hsubjects : (l.filterMap Order.subject?).Nodup)
    (hactivate : ∀ i place, Order.activate i place ∉ l) (hrun : (s.run l).2 = .ok ()) :
    (s.run l).1.UnderControl id c := by
  have hself : id ∈ l.filterMap Order.subject? := List.mem_filterMap.mpr ⟨_, hmem, rfl⟩
  refine run_underControl (Or.inr hmem) (hsep.of_attached fun i hi _ ha => ⟨?_, ha⟩) hactivate
    (fun o ho hid => Or.inl ?_) hrun
  · exact List.cons_subset.mpr ⟨hself, List.Subset.refl _⟩ hi
  · exact eq_of_filterMap_nodup hsubjects ho hmem hid rfl

end Site

end ReservoirWells
