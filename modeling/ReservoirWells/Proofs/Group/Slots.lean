import ReservoirWells.Proofs.Exact
import ReservoirWells.Proofs.Group.Installed
import ReservoirWells.Proofs.Group.Placement
import ReservoirWells.Proofs.Group.Tree

/-! # Slots — a well has one group control at most

    A group control goes to the end of the list the first time, and over the one before from then on.
    So the list of an attached well is the list with which its entry came into the table, followed by
    at most one control, and the slot of the well says whether there is one.  The node and the entry
    are kept in different places and change together only, which needs every well to be attached
    once, to an entry of its own (`Site.Orderly`).

    * `ControlList.Keeps` — what a slot says about a list that began as another one;
    * `Site.Slotted` — what is true of all nodes and entries at any time;
    * `Site.obey_slotted`, `Site.call_slotted` — one order and one call, also one that fails
      half-way;
    * `Site.serve_slots` — hence every site that orderly calls lead to. -/

namespace ReservoirWells

variable {α : Type} [Scalar α]

/-! ## One list -/

namespace ControlList

variable {β : Type}

/-- The list is the original one and there is no slot, or it has one more control, at the slot. -/
def Keeps (original : List (Control β)) (slot : Option Nat) (l : ControlList β) : Prop :=
  (slot = none ∧ l.controls = original) ∨
    ∃ c, slot = some original.length ∧ l.controls = original ++ [c]

/-- The active control is a place of the list, or the first one of a list that may be empty. -/
def Valid (l : ControlList β) : Prop := l.current = 0 ∨ l.current < l.controls.length

section Keeps

variable {original : List (Control β)} {slot : Option Nat} {l l' : ControlList β}

/-- A list with a slot still has the original controls in front when a control is imposed. -/
theorem Keeps.impose (h : l.Keeps original slot) (c : Control β) :
    (l.impose slot c).1.Keeps original (some (l.place slot)) := by
  -- with or without a slot, the place is the one behind the original controls
  have hplace : l.place slot = original.length ∧ l.controls.take original.length = original ∧
      l.controls.drop (original.length + 1) = [] := by
    rcases h with ⟨rfl, hl⟩ | ⟨d, rfl, hl⟩
    · rw [place_none, hl]
      exact ⟨rfl, List.take_length, List.drop_eq_nil_of_le (by omega)⟩
    · have hlen : l.controls.length = original.length + 1 := by
        rw [hl, List.length_append, List.length_singleton]
      refine ⟨place_of_lt (by omega), ?_, List.drop_eq_nil_of_le (by omega)⟩
      rw [hl, List.take_left]
  obtain ⟨hplace, htake, hdrop⟩ := hplace
  refine Or.inr ⟨c, congrArg some hplace, ?_⟩
  rw [impose_eq]
  show l.controls.take (l.place slot) ++ c :: l.controls.drop (l.place slot + 1) = original ++ [c]
  rw [hplace, htake, hdrop]

theorem Keeps.of_controls (h : l.Keeps original slot) (hl : l'.controls = l.controls) :
    l'.Keeps original slot := by
  rw [Keeps, hl]
  exact h

theorem valid_select (h : l.Valid) (index : Nat) : (l.select index).Valid := by
  rw [select]
  split
  · exact Or.inr ‹_›
  · exact h

theorem valid_put (l : ControlList β) (slot : Option Nat) (c : Control β) :
    (l.put slot c).Valid := by
  refine Or.inr ?_
  rw [put_current]
  exact l.place_lt_length_put slot c

/-- A list that only grows stays valid. -/
theorem Valid.impose (h : l.Valid) (slot : Option Nat) (c : Control β) :
    (l.impose slot c).1.Valid := by
  have hlen := l.length_impose slot c
  rw [Valid, hlen, impose_eq]
  rcases h with hzero | hlt
  · exact Or.inl hzero
  · exact Or.inr (Nat.lt_of_lt_of_le hlt (Nat.le_max_left ..))

theorem controls_select (l : ControlList β) (index : Nat) :
    (l.select index).controls = l.controls := by
  rw [select]
  split
  · rfl
  · rfl

end Keeps

end ControlList

/-! ## All nodes and entries -/

/-- What a node tells about its group control. -/
def Node.seat (n : Node α) : Option Attachment × Option Nat × Bool :=
  (n.attachment?, n.groupSlot?, n.individual)

/-- Only the edit of the flag of individual control changes what a node tells about its group
    control. -/
theorem Node.seat_edit (n : Node α) {e : Edit α} (he : ∀ b, e ≠ .individual b) :
    (n.edit e).seat = n.seat := by
  cases e with
  | individual b => exact absurd rfl (he b)
  | mode mode => cases mode <;> rfl
  | stopsWhenWithdrawn b =>
      cases hr : n.role with
      | group => simp [edit, modifyLink, hr]
      | well link => simp [edit, modifyLink, hr, seat, attachment?, groupSlot?, link?]
  | _ => rfl

/-- The entries of the table began with the lists `originals`, and wells and entries agree on the
    group controls that came later. -/
structure Site.Slotted (originals : List (List (Control α))) (s : Site α) : Prop where
  /-- No two wells share an entry. -/
  separate : s.Separate
  /-- A node that is not under individual control has a group control. -/
  grouped : ∀ id n, s.hierarchy.node id = .ok n → n.individual = false → n.groupSlot? ≠ none
  /-- Only an attached well has a group control. -/
  detached : ∀ id n, s.hierarchy.node id = .ok n → n.attachment? = none → n.groupSlot? = none
  /-- The entry of an attached well is the original one, and what its slot says. -/
  kept : ∀ id n index, s.hierarchy.node id = .ok n → n.tableIndex = .ok index →
    ∃ original w, originals[index]? = some original ∧ s.wells.well index = .ok w ∧
      w.controls.Keeps original n.groupSlot?
  /-- An entry without a well is as it came. -/
  unused : ∀ index, (∀ id, ¬ s.AttachedTo id index) →
    (s.wells[index]?.map fun w => w.controls.controls) = originals[index]?
  /-- Active controls are valid. -/
  valid : ∀ index w, s.wells.well index = .ok w → w.controls.Valid

namespace Site

variable {originals : List (List (Control α))} {s : Site α}

theorem attachedTo_of_seat {h : Hierarchy α}
    (hsame : h.nodes.map Node.seat = s.hierarchy.nodes.map Node.seat) (id index : Nat) :
    AttachedTo { s with hierarchy := h } id index ↔ s.AttachedTo id index :=
  attachedTo_of_map (fun _ _ hnm => congrArg Prod.fst hnm) hsame id index

/-! ### Changes on one side -/

/-- Nodes may change in all that does not tell about group controls. -/
theorem Slotted.reseat (hs : s.Slotted originals) {h : Hierarchy α}
    (hsame : h.nodes.map Node.seat = s.hierarchy.nodes.map Node.seat) :
    Slotted originals { s with hierarchy := h } := by
  have hback : ∀ {id n}, h.node id = .ok n → ∃ m, s.hierarchy.node id = .ok m ∧
      m.attachment? = n.attachment? ∧ m.groupSlot? = n.groupSlot? ∧
        m.individual = n.individual := by
    intro id n hn
    obtain ⟨m, hm, hmn⟩ := Hierarchy.exists_node_of_map hsame hn
    exact ⟨m, hm, congrArg (·.1) hmn, congrArg (·.2.1) hmn, congrArg (·.2.2) hmn⟩
  constructor
  case separate =>
    exact hs.separate.of_attachedTo (attachedTo_of_seat hsame)
  case grouped =>
    intro id n hn
    obtain ⟨m, hm, _, hslot, hflag⟩ := hback hn
    rw [← hslot, ← hflag]
    exact hs.grouped id m hm
  case detached =>
    intro id n hn
    obtain ⟨m, hm, hattach, hslot, _⟩ := hback hn
    rw [← hslot, ← hattach]
    exact hs.detached id m hm
  case kept =>
    intro id n index hn hi
    obtain ⟨m, hm, hattach, hslot, _⟩ := hback hn
    rw [← hslot]
    refine hs.kept id m index hm ?_
    rw [Node.tableIndex_eq_ok, hattach]
    exact Node.tableIndex_eq_ok.mp hi
  case unused =>
    intro index hfree
    exact hs.unused index fun id ha => hfree id ((attachedTo_of_seat hsame id index).mpr ha)
  case valid =>
    exact hs.valid

/-- An entry may change in all but its controls, and another one of them may become active. -/
theorem Slotted.retouch (hs : s.Slotted originals) {index : Nat}
    {g : ControlList α → ControlList α}
    (hg : ∀ w, s.wells.well index = .ok w → (g w.controls).controls = w.controls.controls ∧
      (g w.controls).Valid) :
    (s.retouch index g).Slotted originals := by
  constructor
  case separate =>
    exact hs.separate
  case grouped =>
    exact hs.grouped
  case detached =>
    exact hs.detached
  case kept =>
    intro id n i hn hi
    obtain ⟨original, w, horiginal, hw, hkeeps⟩ := hs.kept id n i hn hi
    refine ⟨original, _, horiginal, WellTable.well_modify_eq_ok.mpr ⟨w, hw, rfl⟩, ?_⟩
    split
    · next heq =>
        subst heq
        exact hkeeps.of_controls (hg w hw).1
    · exact hkeeps
  case unused =>
    intro i hfree
    rw [← hs.unused i hfree]
    show ((s.wells.modify index _)[i]?.map _) = _
    rw [List.getElem?_modify]
    cases hw : s.wells[i]? with
    | none => rfl
    | some w =>
        refine congrArg some ?_
        show (ite (index = i) _ w).controls.controls = w.controls.controls
        split
        · next heq =>
            subst heq
            exact (hg w (WellTable.well_eq_ok.mpr hw)).1
        · rfl
  case valid =>
    intro i v hv
    obtain ⟨w, hw, rfl⟩ := WellTable.well_modify_eq_ok.mp hv
    split
    · next heq =>
        subst heq
        exact (hg w hw).2
    · exact hs.valid i w hw

/-! ### A node and its entry -/

/-- An attached well may take another slot when its entry takes the control that goes with it. -/
theorem Slotted.impose (hs : s.Slotted originals) {id index : Nat} {n : Node α} {w : Well α}
    (hn : s.hierarchy.node id = .ok n) (hi : n.tableIndex = .ok index)
    (hw : s.wells.well index = .ok w) {f : Node α → Node α} {l : ControlList α}
    (hf : ∀ m, (f m).attachment? = m.attachment?) (hslot : (f n).groupSlot? ≠ none)
    (hl : ∀ original, w.controls.Keeps original n.groupSlot? →
      l.Keeps original (f n).groupSlot?) (hvalid : l.Valid) :
    Slotted originals ⟨s.hierarchy.modify id f, s.wells.setControls index l⟩ := by
  have hsame : ∀ j i, AttachedTo ⟨s.hierarchy.modify id f, s.wells.setControls index l⟩ j i
      ↔ s.AttachedTo j i :=
    attachedTo_of_map (g := Node.attachment?) (fun _ _ hnm => hnm)
      (Hierarchy.map_modify fun m _ => hf m)
  constructor
  case separate =>
    exact hs.separate.of_attachedTo hsame
  case grouped =>
    intro j m hm hflag
    rcases Hierarchy.node_of_modify hn hm with ⟨_, rfl⟩ | ⟨_, hm⟩
    · exact hslot
    · exact hs.grouped j m hm hflag
  case detached =>
    intro j m hm hnone
    rcases Hierarchy.node_of_modify hn hm with ⟨_, rfl⟩ | ⟨_, hm⟩
    · rw [hf] at hnone
      rw [Node.tableIndex_eq_ok, hnone] at hi
      cases hi
    · exact hs.detached j m hm hnone
  case kept =>
    intro j m i hm hmi
    rcases Hierarchy.node_of_modify hn hm with ⟨_, rfl⟩ | ⟨hother, hm⟩
    · have hindex : index = i := by
        rw [Node.tableIndex_eq_ok] at hi hmi
        rw [hf, hi] at hmi
        exact Option.some.inj hmi
      subst hindex
      obtain ⟨original, v, horiginal, hv, hkeeps⟩ := hs.kept id n index hn hi
      rw [hw] at hv
      cases hv
      exact ⟨original, _, horiginal, WellTable.well_setControls_self hw l, hl original hkeeps⟩
    · -- another well has another entry
      have hne : index ≠ i := by
        rintro rfl
        exact hother (hs.separate j id index ⟨m, hm, hmi⟩ ⟨n, hn, hi⟩)
      obtain ⟨original, v, horiginal, hv, hkeeps⟩ := hs.kept j m i hm hmi
      exact ⟨original, v, horiginal, (s.wells.well_modify_of_ne hne _).trans hv, hkeeps⟩
  case unused =>
    -- the entry that changes has a well
    intro i hfree
    have hne : index ≠ i := by
      rintro rfl
      exact hfree id ((hsame id index).mpr ⟨n, hn, hi⟩)
    rw [← hs.unused i fun j ha => hfree j ((hsame j i).mpr ha)]
    exact congrArg (Option.map _) (List.getElem?_modify_ne _ s.wells hne)
  case valid =>
    intro i v hv
    obtain ⟨u, hu, rfl⟩ := WellTable.well_modify_eq_ok.mp hv
    split
    · exact hvalid
    · exact hs.valid i u hu

/-! ### More nodes, more entries, more attachments -/

/-- A node without an attachment may come in. -/
theorem Slotted.concat (hs : s.Slotted originals) {n : Node α} (hattach : n.attachment? = none)
    (hslot : n.groupSlot? = none) (hflag : n.individual = true) :
    Slotted originals { s with hierarchy := s.hierarchy.concat n } := by
  have hsame : ∀ id index, AttachedTo { s with hierarchy := s.hierarchy.concat n } id index
      ↔ s.AttachedTo id index := by
    intro id index
    constructor
    · rintro ⟨m, hm, hi⟩
      rcases Hierarchy.node_concat.mp hm with hm | ⟨_, rfl⟩
      · exact ⟨m, hm, hi⟩
      · rw [Node.tableIndex_eq_ok, hattach] at hi
        cases hi
    · rintro ⟨m, hm, hi⟩
      exact ⟨m, Hierarchy.node_concat.mpr (Or.inl hm), hi⟩
  constructor
  case separate =>
    exact hs.separate.of_attachedTo hsame
  case grouped =>
    intro id m hm
    rcases Hierarchy.node_concat.mp hm with hm | ⟨_, rfl⟩
    · exact hs.grouped id m hm
    · rw [hflag]
      intro h
      cases h
  case detached =>
    intro id m hm
    rcases Hierarchy.node_concat.mp hm with hm | ⟨_, rfl⟩
    · exact hs.detached id m hm
    · exact fun _ => hslot
  case kept =>
    intro id m index hm hi
    obtain ⟨k, hk, hki⟩ := (hsame id index).mp ⟨m, hm, hi⟩
    have hkm : k = m := Except.ok.inj
      ((Hierarchy.node_concat.mpr (Or.inl hk)).symm.trans hm)
    subst hkm
    exact hs.kept id k index hk hi
  case unused =>
    intro index hfree
    exact hs.unused index fun id ha => hfree id ((hsame id index).mpr ha)
  case valid =>
    exact hs.valid

/-- There are as many entries as original lists. -/
theorem Slotted.length (hs : s.Slotted originals) : s.wells.length = originals.length := by
  have hnone : ∀ index : Nat, s.wells[index]? = none ↔ originals[index]? = none := by
    intro index
    -- an entry with a well is there by `kept`, one without is as in `originals` by `unused`
    by_cases ha : ∃ id, s.AttachedTo id index
    · obtain ⟨id, n, hn, hi⟩ := ha
      obtain ⟨original, w, horiginal, hw, _⟩ := hs.kept id n index hn hi
      rw [horiginal, WellTable.well_eq_ok.mp hw]
      simp
    · rw [← hs.unused index fun id hid => ha ⟨id, hid⟩]
      exact Option.map_eq_none_iff.symm
  have hle : ∀ index, s.wells.length ≤ index ↔ originals.length ≤ index := by
    intro index
    have hwells : s.wells[index]? = none ↔ s.wells.length ≤ index := List.getElem?_eq_none_iff
    rw [← hwells, hnone index]
    exact List.getElem?_eq_none_iff
  exact Nat.le_antisymm ((hle _).mpr (Nat.le_refl _)) ((hle _).mp (Nat.le_refl _))

/-- An entry may come in at the end of the table. -/
theorem Slotted.enrol (hs : s.Slotted originals) (name : String) (kind : WellKind)
    (controls : List (Control α)) :
    Slotted (originals ++ [controls]) { s with
      wells := s.wells ++ [.ofControls name kind controls] } := by
  have hold : ∀ {β : Type} {l : List β} {i : Nat} {b : β} (c : β), l[i]? = some b →
      (l ++ [c])[i]? = some b := by
    intro β l i b c hb
    rw [List.getElem?_append_left (List.getElem?_eq_some_iff.mp hb).1]
    exact hb
  have hlen := hs.length
  constructor
  case separate =>
    exact hs.separate
  case grouped =>
    exact hs.grouped
  case detached =>
    exact hs.detached
  case kept =>
    intro id n index hn hi
    obtain ⟨original, w, horiginal, hw, hkeeps⟩ := hs.kept id n index hn hi
    exact ⟨original, w, hold _ horiginal,
      WellTable.well_eq_ok.mpr (hold _ (WellTable.well_eq_ok.mp hw)), hkeeps⟩
  case unused =>
    intro index hfree
    have hunused := hs.unused index hfree
    show ((s.wells ++ [_])[index]?.map _) = _
    -- both lists grow by one, so the new entry meets the new original
    rw [List.getElem?_append, List.getElem?_append, hlen]
    split
    · exact hunused
    · rw [List.getElem?_singleton, List.getElem?_singleton]
      split
      · rfl
      · rfl
  case valid =>
    intro index w hw
    have hget : (s.wells ++ [_])[index]? = some w := WellTable.well_eq_ok.mp hw
    rw [List.getElem?_append] at hget
    split at hget
    · exact hs.valid index w (WellTable.well_eq_ok.mpr hget)
    · obtain ⟨_, rfl⟩ := List.getElem?_eq_some_iff.mp hget
      rw [List.getElem_singleton]
      exact Or.inl rfl

/-- A well that is joined to an entry is attached to it, and nothing else is attached to anything
    else than before. -/
theorem attachedTo_of_joined {id index : Nat} {n : Node α} (hn : s.hierarchy.node id = .ok n)
    (hgroup : n.isGroup = false) {kind : WellKind} {j i : Nat}
    (h : AttachedTo { s with hierarchy := s.hierarchy.modify id (·.joined ⟨index, kind⟩) } j i) :
    (j = id ∧ i = index) ∨ s.AttachedTo j i := by
  obtain ⟨m, hm, hi⟩ := h
  rcases Hierarchy.node_of_modify hn hm with ⟨rfl, rfl⟩ | ⟨_, hm⟩
  · rw [Node.tableIndex_eq_ok, (Node.joined_well hgroup _).1] at hi
    cases hi
    exact Or.inl ⟨rfl, rfl⟩
  · exact Or.inr ⟨m, hm, hi⟩

/-- A well that has no entry may be attached to an entry that has no well. -/
theorem Slotted.attach (hs : s.Slotted originals) {id index : Nat} {n : Node α} {w : Well α}
    (hn : s.hierarchy.node id = .ok n) (hgroup : n.isGroup = false)
    (hw : s.wells.well index = .ok w) (hnone : n.attachment? = none)
    (hfree : ∀ j, ¬ s.AttachedTo j index) (kind : WellKind) :
    Slotted originals { s with hierarchy := s.hierarchy.modify id (·.joined ⟨index, kind⟩) } := by
  obtain ⟨hattached, hslot, hflag⟩ := Node.joined_well hgroup ⟨index, kind⟩
  constructor
  case separate =>
    intro j k i hj hk
    rcases attachedTo_of_joined hn hgroup hj with ⟨hjid, hi⟩ | hjold
    · rcases attachedTo_of_joined hn hgroup hk with ⟨hkid, _⟩ | hkold
      · rw [hjid, hkid]
      · exact absurd (hi ▸ hkold) (hfree k)
    · rcases attachedTo_of_joined hn hgroup hk with ⟨_, hi⟩ | hkold
      · exact absurd (hi ▸ hjold) (hfree j)
      · exact hs.separate j k i hjold hkold
  case grouped =>
    intro j m hm
    rcases Hierarchy.node_of_modify hn hm with ⟨_, rfl⟩ | ⟨_, hm⟩
    · rw [hslot, hflag]
      exact hs.grouped id n hn
    · exact hs.grouped j m hm
  case detached =>
    intro j m hm hnot
    rcases Hierarchy.node_of_modify hn hm with ⟨_, rfl⟩ | ⟨_, hm⟩
    · rw [hattached] at hnot
      cases hnot
    · exact hs.detached j m hm hnot
  case kept =>
    intro j m i hm hi
    rcases Hierarchy.node_of_modify hn hm with ⟨_, rfl⟩ | ⟨_, hm⟩
    · -- the entry is as it came, and the well has no slot yet
      rw [Node.tableIndex_eq_ok, hattached] at hi
      cases hi
      refine ⟨w.controls.controls, w, ?_, hw, Or.inl ⟨?_, rfl⟩⟩
      · rw [← hs.unused index hfree, WellTable.well_eq_ok.mp hw]
        rfl
      · exact hslot.trans (hs.detached id n hn hnone)
    · exact hs.kept j m i hm hi
  case unused =>
    intro i hi
    refine hs.unused i ?_
    rintro j ⟨m, hm, hmi⟩
    have hne : id ≠ j := by
      rintro rfl
      rw [hn] at hm
      cases hm
      rw [Node.tableIndex_eq_ok, hnone] at hmi
      cases hmi
    exact hi j ⟨m, (s.hierarchy.node_modify_of_ne hne _).trans hm, hmi⟩
  case valid =>
    exact hs.valid

/-! ## Orders and runs -/

/-- Wells and entries agree after every order that can be carried out. -/
theorem obey_slotted (hs : s.Slotted originals) {t : Site α} {o : Order α}
    (ho : s.obey o = .ok t) : t.Slotted originals := by
  cases o with
  | install id c =>
      obtain ⟨n, index, w, hn, hi, hw, rfl⟩ := install_eq_ok.mp ho
      have hslot := Node.groupSlot?_grouped hi (w.controls.place n.groupSlot?)
      rw [installed_eq]
      refine hs.impose hn hi hw ?_ ?_ ?_ (ControlList.valid_put ..)
      · exact fun m => Node.attachment?_of_lasting (m.lasting_grouped _)
      · rw [hslot]
        exact Option.some_ne_none _
      · intro original hkeeps
        rw [hslot]
        refine (hkeeps.impose c).of_controls ?_
        rw [ControlList.put_eq]
  | adopt id mode =>
      cases ho
      refine hs.reseat (Hierarchy.map_modify fun m _ => ?_)
      cases mode <;> rfl
  | refresh id =>
      cases ho
      exact hs.reseat (Hierarchy.map_modify fun _ _ => rfl)
  | activate index place =>
      cases ho
      exact hs.retouch (g := (·.select place)) fun w hw =>
        ⟨w.controls.controls_select place, ControlList.valid_select (hs.valid index w hw) place⟩
  | withdraw id =>
      obtain ⟨n, index, link, w, hn, hi, hl, hw, ⟨_, rfl⟩ | ⟨_, rfl⟩⟩ := withdraw_cases ho
      · refine hs.retouch (g := fun _ => w.controls.stop) fun v hv => ?_
        rw [hw] at hv
        cases hv
        exact ⟨rfl, hs.valid index w hw⟩
      · have hold : n.groupSlot? = link.groupSlot := by rw [Node.groupSlot?, hl]; rfl
        have hslot := Node.groupSlot?_withSlot hi (w.controls.place link.groupSlot)
        rw [pinned_eq]
        refine hs.impose hn hi hw ?_ ?_ ?_ ((hs.valid index w hw).impose _ _)
        · exact fun m => Node.attachment?_of_lasting (m.lasting_withSlot _)
        · rw [hslot]
          exact Option.some_ne_none _
        · intro original hkeeps
          rw [hslot]
          rw [hold] at hkeeps
          exact (hkeeps.impose _).of_controls rfl
  | refuse e => cases ho

/-- Wells and entries agree after a run, also after one that ends early. -/
theorem run_slotted (hs : s.Slotted originals) (l : List (Order α)) :
    (s.run l).1.Slotted originals := by
  induction l generalizing s with
  | nil => exact hs
  | cons o rest ih =>
      rw [run]
      cases ho : s.obey o with
      | error e => exact hs
      | ok t => exact ih (obey_slotted hs ho)

end Site

/-! ## Calls -/

/-- The call attaches no well a second time and no second well to an entry, and it leaves the flag
    of individual control and the table as a whole to the operations. -/
def Call.Orderly (s : Site α) (c : Call α) : Prop :=
  c.bypasses = false ∧ ∀ p ∈ c.attached?, (s.call c).2 = .ok () →
    (∀ n ∈ s.hierarchy.nodes[p.1]?, n.attachment? = none) ∧ p.2 ∉ s.hierarchy.entries

instance (s : Site α) (c : Call α) : Decidable (c.Orderly s) :=
  inferInstanceAs (Decidable (_ ∧ _))

namespace Site

/-- Every call is orderly when its turn comes. -/
def Orderly (s : Site α) : List (Call α) → Prop
  | [] => True
  | c :: rest => c.Orderly s ∧ (s.call c).1.Orderly rest

instance decidableOrderly : (s : Site α) → (calls : List (Call α)) → Decidable (s.Orderly calls)
  | _, [] => instDecidableTrue
  | s, c :: rest =>
    have := decidableOrderly (s.call c).1 rest
    inferInstanceAs (Decidable (c.Orderly s ∧ (s.call c).1.Orderly rest))

variable {originals : List (List (Control α))} {s : Site α}

theorem not_attachedTo_of_notMem {index : Nat} (h : index ∉ s.hierarchy.entries) (id : Nat) :
    ¬ s.AttachedTo id index := by
  rintro ⟨n, hn, hi⟩
  refine h (List.mem_filterMap.mpr ⟨n, ?_, Node.tableIndex_eq_ok.mp hi⟩)
  exact List.mem_of_getElem? (Hierarchy.node_eq_ok.mp hn)

/-- Wells and entries agree after an orderly call, whatever comes of it. -/
theorem call_slotted (hs : s.Slotted originals) {c : Call α} (hc : c.Orderly s) :
    (s.call c).1.Slotted (originals ++ c.enrolled?.toList) := by
  have hnew : ∀ {n : Node α}, c.newNode? = some n → n.attachment? = none → n.groupSlot? = none →
      n.individual = true → (s.call c).1.Slotted originals := by
    intro n hn hattach hslot hflag
    rcases call_newNode (s := s) hn with ⟨e, he⟩ | ⟨_, hok⟩
    · rw [he]
      exact hs
    · rw [hok]
      exact hs.concat hattach hslot hflag
  have hrun : c.operates = true → (s.call c).1.Slotted originals := by
    intro hop
    obtain ⟨l, hl⟩ := s.call_eq_run hop
    rw [hl]
    exact run_slotted hs l
  have hsame : ∀ c : Call α, c.enrolled? = none → originals ++ c.enrolled?.toList = originals := by
    intro c hnone
    rw [hnone]
    exact List.append_nil _
  cases c with
  | enrol name kind controls => exact hs.enrol name kind controls
  | addGroup name parent efficiency specs =>
      rw [hsame _ rfl]
      exact hnew rfl rfl rfl rfl
  | addWell name parent efficiency specs =>
      rw [hsame _ rfl]
      exact hnew rfl rfl rfl rfl
  | attach id index =>
      rw [hsame _ rfl]
      obtain ⟨_, hfree⟩ := hc
      replace hfree := hfree (id, index) rfl
      rw [call] at hfree ⊢
      rcases s.hierarchy.attach_cases id index s.wells with ⟨e, he⟩ | ⟨n, w, hn, hgroup, hw, hok⟩
      · rw [he]
        exact hs
      · rw [hok] at hfree ⊢
        obtain ⟨hnone, hentry⟩ := hfree rfl
        exact hs.attach hn hgroup hw (hnone n (Hierarchy.node_eq_ok.mp hn))
          (not_attachedTo_of_notMem hentry) w.kind
  | edit id e =>
      rw [hsame _ rfl, call]
      rcases s.hierarchy.edit_cases id e with ⟨e', he⟩ | hok
      · rw [he]
        exact hs
      · rw [hok]
        refine hs.reseat (Hierarchy.map_modify fun m _ => m.seat_edit ?_)
        exact fun b heq => by rw [heq] at hc; cases hc.1
  | select index place =>
      rw [hsame _ rfl]
      exact hs.retouch (g := (·.select place)) fun w hw =>
        ⟨w.controls.controls_select place, ControlList.valid_select (hs.valid index w hw) place⟩
  | stop index =>
      rw [hsame _ rfl]
      exact hs.retouch fun w hw => ⟨rfl, hs.valid index w hw⟩
  | reopen index =>
      rw [hsame _ rfl]
      exact hs.retouch fun w hw => ⟨rfl, hs.valid index w hw⟩
  | useTable wells => cases hc.1
  | ask id q =>
      rw [hsame _ rfl]
      exact hs
  | _ =>
      rw [hsame _ rfl]
      exact hrun rfl

/-- And after a list of orderly calls. -/
theorem serve_slotted (hs : s.Slotted originals) {calls : List (Call α)} (hc : s.Orderly calls) :
    (s.serve calls).Slotted (originals ++ calls.filterMap Call.enrolled?) := by
  induction calls generalizing s originals with
  | nil =>
      rw [List.filterMap_nil, List.append_nil]
      exact hs
  | cons c rest ih =>
      have hstep := ih (call_slotted hs hc.1) hc.2
      rw [filterMap_cons_toList, ← List.append_assoc]
      exact hstep

theorem slotted_vacant (phases : ActivePhases) : (vacant phases : Site α).Slotted [] where
  separate i j index := by
    rintro ⟨n, hn, _⟩
    cases hn
  grouped id n hn := by cases hn
  detached id n hn := by cases hn
  kept id n index hn := by cases hn
  unused _ _ := rfl
  valid index w hw := by cases hw

/-- In every site that orderly calls lead to: the list of the entry of an attached well is the one
    with which the entry came, without a slot, or that list and one more control, which the slot
    names; a node that is not under individual control has a slot; groups are under individual
    control; the active control of a list that is not empty is one of its controls. -/
theorem serve_slots {phases : ActivePhases} {calls : List (Call α)}
    (h : (vacant phases).Orderly calls) :
    let s := (vacant phases).serve calls
    (∀ id n index, s.hierarchy.node id = .ok n → n.tableIndex = .ok index →
      ∃ original w, (calls.filterMap Call.enrolled?)[index]? = some original ∧
        s.wells.well index = .ok w ∧ w.controls.Keeps original n.groupSlot?) ∧
    (∀ id n, s.hierarchy.node id = .ok n →
      (n.individual = false → n.groupSlot? ≠ none) ∧ (n.isGroup = true → n.individual = true)) ∧
    (∀ index w, s.wells.well index = .ok w → w.controls.controls ≠ [] →
      w.controls.current < w.controls.controls.length) := by
  intro s
  have hs : s.Slotted (calls.filterMap Call.enrolled?) := serve_slotted (slotted_vacant phases) h
  refine ⟨hs.kept, ?_, ?_⟩
  · intro id n hn
    refine ⟨hs.grouped id n hn, fun hgroup => ?_⟩
    have hlink : n.link? = none := Option.isNone_iff_eq_none.mp hgroup
    have hslot : n.groupSlot? = none := by rw [Node.groupSlot?, hlink]; rfl
    exact Bool.eq_true_of_not_eq_false fun hflag => hs.grouped id n hn hflag hslot
  · intro index w hw hne
    rcases hs.valid index w hw with hzero | hlt
    · rw [hzero]
      exact List.length_pos_iff.mpr hne
    · exact hlt

/-- A field of two producers: one takes a group control and is withdrawn, the other one takes it
    twice and returns to its own control. -/
def fieldCalls : List (Call ℚ) := [
  .enrol "P1" .producer [.bhp 100],
  .addGroup "FIELD" none .one specs,
  .addWell "P1" (some 0) .one specs,
  .addWell "P2" (some 0) .half specs,
  .attach 1 0,
  .attach 2 1,
  .enrol "P2" .producer [.bhp 100, .surfaceRate (-7) ⟨0, 1, 0⟩],
  .attach 2 1,
  .push 0 (.production .orat) 60 false,
  .select 1 0,
  .edit 1 (.stopsWhenWithdrawn false),
  .withdraw 1,
  .shareProduction 0,
  .stop 1]
where
  specs : Specs ℚ := .producer { ProductionSpec.default with mode := .orat }

/-- Either well of the field ends with one control more than its entry had. -/
theorem serve_slots_fieldCalls :
    let s := (vacant ⟨true, true, false⟩).serve fieldCalls
    (vacant ⟨true, true, false⟩).Orderly fieldCalls ∧
      s.hierarchy.nodes.map (fun n => (n.attachment?.map (·.index), n.groupSlot?))
          = [(none, none), (some 0, some 1), (some 1, some 2)] ∧
        ∀ id n index, s.hierarchy.node id = .ok n → n.tableIndex = .ok index →
          ∃ original w,
            [[.bhp 100], [.bhp 100, .surfaceRate (-7) ⟨0, 1, 0⟩]][index]? = some original ∧
            s.wells.well index = .ok w ∧ w.controls.Keeps original n.groupSlot? := by
  have horderly : (vacant ⟨true, true, false⟩).Orderly fieldCalls := by decide +kernel
  exact ⟨horderly, by decide +kernel, (serve_slots horderly).1⟩

end Site

end ReservoirWells
