import ReservoirWells.Proofs.Group.Execution

/-! # Placement — a group control in its place of the list

    A group control goes to the place that its slot names, or to the end of the list when the slot
    names none.  Which place that is does not depend on the control (`ControlList.place`), and no
    other place of the list changes (`ControlList.impose_controls_getElem?`).  Lists are compared place by
    place here, so that writing over a place and writing at the end are one case.

    * `ControlList.put` — the list after the control was written and made active;
    * `ControlList.put_put` — of two controls in the same place the second one remains;
    * `ControlList.put_between` — a control that was put before another one, which had its place
      already, may be put once more after it. -/

namespace ReservoirWells

variable {α : Type} [Scalar α]

attribute [ext] ControlList

namespace ControlList

variable {β : Type}

/-- The place to which a group control goes. -/
def place (l : ControlList β) (slot : Option Nat) : Nat :=
  min (slot.getD l.controls.length) l.controls.length

theorem place_le (l : ControlList β) (slot : Option Nat) : l.place slot ≤ l.controls.length :=
  Nat.min_le_right ..

theorem place_none (l : ControlList β) : l.place none = l.controls.length := Nat.min_self _

/-- A slot that names a place of the list is that place. -/
theorem place_of_lt {l : ControlList β} {p : Nat} (h : p < l.controls.length) :
    l.place (some p) = p := Nat.min_eq_left (Nat.le_of_lt h)

/-- The place of an imposed control, and the list with the control in it. -/
theorem impose_eq (l : ControlList β) (slot : Option Nat) (c : Control β) :
    l.impose slot c
      = ({ l with controls := l.controls.take (l.place slot) ++ c
            :: l.controls.drop (l.place slot + 1) }, l.place slot) := by
  have hend : (l.controls.take l.controls.length ++ c :: l.controls.drop (l.controls.length + 1))
      = l.controls ++ [c] := by
    rw [List.take_length, List.drop_eq_nil_of_le (by omega)]
  cases slot with
  | none =>
      rw [place_none, hend]
      rfl
  | some p =>
      rw [impose]
      by_cases hlt : p < l.controls.length
      · rw [if_pos hlt, place_of_lt hlt, List.set_eq_take_append_cons_drop, if_pos hlt]
      · have hplace : l.place (some p) = l.controls.length := Nat.min_eq_right (by simpa using hlt)
        rw [if_neg hlt, hplace, hend]

theorem impose_snd (l : ControlList β) (slot : Option Nat) (c : Control β) :
    (l.impose slot c).2 = l.place slot := by
  rw [impose_eq]

/-- The control stands in its place, and every other place is as it was. -/
theorem impose_controls_getElem? (l : ControlList β) (slot : Option Nat) (c : Control β) (k : Nat) :
    (l.impose slot c).1.controls[k]? = if k = l.place slot then some c else l.controls[k]? := by
  have hle := l.place_le slot
  rw [impose_eq]
  show (l.controls.take (l.place slot) ++ c :: l.controls.drop (l.place slot + 1))[k]? = _
  rw [List.getElem?_append, List.length_take, Nat.min_eq_left hle]
  by_cases hk : k = l.place slot
  · rw [if_pos hk, if_neg (by omega), hk, Nat.sub_self]
    rfl
  · rw [if_neg hk]
    by_cases hlt : k < l.place slot
    · rw [if_pos hlt, List.getElem?_take_of_lt hlt]
    · obtain ⟨m, rfl⟩ : ∃ m, k = l.place slot + 1 + m := ⟨k - (l.place slot + 1), by omega⟩
      rw [if_neg hlt, show l.place slot + 1 + m - l.place slot = m + 1 by omega,
        List.getElem?_cons_succ, List.getElem?_drop]

/-- A list grows only when the control goes to its end. -/
theorem length_impose (l : ControlList β) (slot : Option Nat) (c : Control β) :
    (l.impose slot c).1.controls.length = max l.controls.length (l.place slot + 1) := by
  have hle := l.place_le slot
  rw [impose_eq]
  show (l.controls.take (l.place slot) ++ c :: l.controls.drop (l.place slot + 1)).length = _
  rw [List.length_append, List.length_take, List.length_cons, List.length_drop]
  omega

/-! ## Put and made active -/

/-- The list after a control was imposed and made active. -/
def put (l : ControlList β) (slot : Option Nat) (c : Control β) : ControlList β :=
  (l.impose slot c).1.select (l.impose slot c).2

section Put

variable (l : ControlList β) (slot : Option Nat) (c : Control β)

theorem put_eq : l.put slot c = { (l.impose slot c).1 with current := l.place slot } := by
  rw [put, impose_snd, select, if_pos]
  rw [length_impose]
  omega

@[simp] theorem put_current : (l.put slot c).current = l.place slot := by
  rw [put_eq]

@[simp] theorem put_isOpen : (l.put slot c).isOpen = l.isOpen := by
  rw [put_eq, impose_eq]

theorem put_controls_getElem? (k : Nat) :
    (l.put slot c).controls[k]? = if k = l.place slot then some c else l.controls[k]? := by
  rw [put_eq]
  exact l.impose_controls_getElem? slot c k

theorem length_put :
    (l.put slot c).controls.length = max l.controls.length (l.place slot + 1) := by
  rw [put_eq]
  exact l.length_impose slot c

theorem place_lt_length_put : l.place slot < (l.put slot c).controls.length := by
  rw [length_put]
  omega

/-- The place of a control that was put is its place from then on. -/
theorem place_put : (l.put slot c).place (some (l.place slot)) = l.place slot :=
  place_of_lt (l.place_lt_length_put slot c)

/-- Of two controls in the same place the second one remains. -/
theorem put_put (d : Control β) :
    (l.put slot c).put (some (l.place slot)) d = l.put slot d := by
  refine ControlList.ext (List.ext_getElem? fun k => ?_) ?_ ?_
  · simp only [put_controls_getElem?, place_put]
    by_cases hk : k = l.place slot
    · rw [if_pos hk, if_pos hk]
    · rw [if_neg hk, if_neg hk, if_neg hk]
  · simp only [put_current, place_put]
  · simp only [put_isOpen]

end Put

/-- A control with a place in the list does not move the place of another one. -/
theorem place_put_of_lt {l : ControlList β} {q : Nat} (hq : q < l.controls.length) (d : Control β)
    (slot : Option Nat) : (l.put (some q) d).place slot = l.place slot := by
  have hlen : (l.put (some q) d).controls.length = l.controls.length := by
    rw [length_put, place_of_lt hq]
    omega
  rw [place, place, hlen]

/-- A control keeps its place when another one is put after it. -/
theorem place_put_put (l : ControlList β) (q : Nat) (d : Control β) (slot : Option Nat)
    (c : Control β) :
    ((l.put slot c).put (some q) d).place (some (l.place slot)) = l.place slot := by
  have hlt : l.place slot < (l.put slot c).controls.length := l.place_lt_length_put slot c
  refine place_of_lt ?_
  rw [length_put]
  omega

/-- Putting a control after another one, which has a place in the list, comes to putting it on both
    sides of the other one. -/
theorem put_between {l : ControlList β} {q : Nat} (hq : q < l.controls.length) (d : Control β)
    (slot : Option Nat) (c : Control β) :
    (l.put (some q) d).put slot c
      = ((l.put slot c).put (some q) d).put (some (l.place slot)) c := by
  have hput : (l.put slot c).place (some q) = q := place_of_lt (by rw [length_put]; omega)
  have hplace := l.place_put_put q d slot c
  refine ControlList.ext (List.ext_getElem? fun k => ?_) ?_ ?_
  · simp only [put_controls_getElem?, place_put_of_lt hq, place_of_lt hq, hput, hplace]
    by_cases hk : k = l.place slot
    · rw [if_pos hk, if_pos hk]
    · rw [if_neg hk, if_neg hk, if_neg hk]
  · simp only [put_current, place_put_of_lt hq, hplace]
  · simp only [put_isOpen]

end ControlList

/-! ## What becomes of the node and of the entry -/

namespace Node

/-- The node with its group control at a place of the list. -/
def withSlot (n : Node α) (slot : Nat) : Node α :=
  n.modifyLink fun link => { link with groupSlot := some slot }

/-- The node under a group control at a place of the list. -/
def grouped (n : Node α) (slot : Nat) : Node α := { n.withSlot slot with individual := false }

theorem lasting_withSlot (n : Node α) (slot : Nat) : (n.withSlot slot).lasting = n.lasting :=
  n.lasting_modifyLink fun _ => rfl

theorem lasting_grouped (n : Node α) (slot : Nat) : (n.grouped slot).lasting = n.lasting :=
  n.lasting_withSlot slot

theorem specs_grouped (n : Node α) (slot : Nat) : (n.grouped slot).specs = n.specs := by
  cases hr : n.role with
  | group => simp [grouped, withSlot, modifyLink, hr]
  | well link => simp [grouped, withSlot, modifyLink, hr]

/-- A well that has an entry knows the place of its group control. -/
theorem groupSlot?_withSlot {n : Node α} {index : Nat} (h : n.tableIndex = .ok index) (slot : Nat) :
    (n.withSlot slot).groupSlot? = some slot := by
  obtain ⟨link, hl⟩ := link?_of_tableIndex h
  cases hr : n.role with
  | group => simp [link?, hr] at hl
  | well link => simp [withSlot, modifyLink, hr, groupSlot?, link?]

theorem groupSlot?_grouped {n : Node α} {index : Nat} (h : n.tableIndex = .ok index) (slot : Nat) :
    (n.grouped slot).groupSlot? = some slot := groupSlot?_withSlot h slot

end Node

namespace Site

/-- A well that takes a group control remembers its place, and the control is put there. -/
theorem installed_eq (s : Site α) (id : Nat) (n : Node α) (index : Nat) (w : Well α)
    (c : Control α) :
    s.installed id n index w c =
      { hierarchy := s.hierarchy.modify id (·.grouped (w.controls.place n.groupSlot?))
        wells := s.wells.setControls index (w.controls.put n.groupSlot? c) } := by
  rw [← w.controls.impose_snd n.groupSlot? c]
  rfl

/-- A well that is withdrawn and does not stop remembers the place of its group control, too, but
    the control is not made active. -/
theorem pinned_eq (s : Site α) (id index : Nat) (link : WellLink) (w : Well α) :
    s.pinned id index link w =
      { hierarchy := s.hierarchy.modify id (·.withSlot (w.controls.place link.groupSlot))
        wells := s.wells.setControls index
          (w.controls.impose link.groupSlot (.surfaceRate 0 (.const 1))).1.reopen } := by
  rw [← w.controls.impose_snd link.groupSlot (.surfaceRate 0 (.const 1))]
  rfl

end Site

end ReservoirWells
