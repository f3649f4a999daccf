import ReservoirWells.Group.Order
import ReservoirWells.Proofs.Fallible
import ReservoirWells.Proofs.Group.Lasting

/-! # Execution — what an order can do, and what a run of orders leaves alone

    An order is about at most one node and at most one entry of the well table.  This file says once
    what each order does to a site (`Site.install_eq_ok`, `Site.withdraw_cases`) and derives from it

    * what stays as it is: what lasts of the nodes (`Site.run_lasting`), the table entry that a well
      is attached to, the length of the table, and every node and entry that no order is about;
    * when a run goes through: every order that takes hold of a well finds it attached to an entry
      that exists (`Site.run_ok_iff`). -/

namespace ReservoirWells

variable {α : Type} [Scalar α]

/-! ## Looking up after a change -/

namespace Hierarchy

theorem node_modify_self {h : Hierarchy α} {id : Nat} {n : Node α} (hn : h.node id = .ok n)
    (f : Node α → Node α) : (h.modify id f).node id = .ok (f n) := by
  rw [node_eq_ok] at hn ⊢
  show (h.nodes.modify id f)[id]? = some (f n)
  rw [List.getElem?_modify_eq, hn]
  rfl

theorem node_modify_eq_ok {h : Hierarchy α} {id j : Nat} {f : Node α → Node α} {m : Node α} :
    (h.modify id f).node j = .ok m ↔ ∃ n, h.node j = .ok n ∧ m = if id = j then f n else n := by
  simp only [node_eq_ok]
  show (h.nodes.modify id f)[j]? = some m ↔ _
  rw [List.getElem?_modify]
  cases h.nodes[j]? with
  | none => simp
  | some n =>
      constructor
      · intro hm
        exact ⟨n, rfl, (Option.some.inj hm).symm⟩
      · rintro ⟨_, hn, rfl⟩
        cases hn
        rfl

/-- A node after a change is the changed one, or another one. -/
theorem node_of_modify {h : Hierarchy α} {id j : Nat} {n m : Node α} {f : Node α → Node α}
    (hn : h.node id = .ok n) (hm : (h.modify id f).node j = .ok m) :
    (j = id ∧ m = f n) ∨ (j ≠ id ∧ h.node j = .ok m) := by
  obtain ⟨k, hk, rfl⟩ := node_modify_eq_ok.mp hm
  split
  · next heq =>
      subst heq
      rw [hn] at hk
      cases hk
      exact Or.inl ⟨rfl, rfl⟩
  · next hne => exact Or.inr ⟨fun heq => hne heq.symm, hk⟩

theorem node_modify_of_ne (h : Hierarchy α) {id j : Nat} (hne : id ≠ j) (f : Node α → Node α) :
    (h.modify id f).node j = h.node j := by
  simp only [node, modify, List.getElem?_modify_ne f h.nodes hne]

end Hierarchy

namespace WellTable

variable {β : Type}

theorem well_eq_ok {t : WellTable β} {index : Nat} {w : Well β} :
    t.well index = .ok w ↔ t[index]? = some w := by
  cases hl : t[index]? with
  | none => simp [well, hl]
  | some v => simp [well, hl]

theorem exists_well {t : WellTable β} {index : Nat} (h : index < t.length) :
    ∃ w, t.well index = .ok w :=
  ⟨t[index], well_eq_ok.mpr (List.getElem?_eq_getElem h)⟩

theorem lt_length_of_well {t : WellTable β} {index : Nat} {w : Well β} (h : t.well index = .ok w) :
    index < t.length :=
  (List.getElem?_eq_some_iff.mp (well_eq_ok.mp h)).1

theorem well_setControls_self {t : WellTable β} {index : Nat} {w : Well β}
    (h : t.well index = .ok w) (l : ControlList β) :
    (t.setControls index l).well index = .ok { w with controls := l } := by
  rw [well_eq_ok] at h ⊢
  rw [setControls, List.getElem?_modify_eq, h]
  rfl

theorem well_modify_eq_ok {t : WellTable β} {index i : Nat} {f : Well β → Well β} {v : Well β} :
    WellTable.well (t.modify index f) i = .ok v ↔
      ∃ w, t.well i = .ok w ∧ v = if index = i then f w else w := by
  simp only [well_eq_ok, List.getElem?_modify]
  cases t[i]? with
  | none => simp
  | some w =>
      constructor
      · intro hv
        exact ⟨w, rfl, (Option.some.inj hv).symm⟩
      · rintro ⟨_, hw, rfl⟩
        cases hw
        rfl

theorem well_modify_of_ne (t : WellTable β) {index j : Nat} (hne : index ≠ j)
    (f : Well β → Well β) : WellTable.well (t.modify index f) j = t.well j := by
  have hj : (t.modify index f)[j]? = t[j]? := List.getElem?_modify_ne f t hne
  simp only [well, hj]

end WellTable

namespace Node

theorem tableIndex_eq_ok {n : Node α} {index : Nat} :
    n.tableIndex = .ok index ↔ n.attachment?.map (·.index) = some index := by
  rw [tableIndex]
  cases n.attachment? with
  | none => simp
  | some a => simp

theorem link?_of_tableIndex {n : Node α} {index : Nat} (h : n.tableIndex = .ok index) :
    ∃ link, n.link? = some link := by
  cases hl : n.link? with
  | some link => exact ⟨link, rfl⟩
  | none => simp [tableIndex, attachment?, hl] at h

end Node

/-! ## Single orders -/

namespace Site

/-- The node is a well that is attached to a table index. -/
def AttachedTo (s : Site α) (id index : Nat) : Prop :=
  ∃ n, s.hierarchy.node id = .ok n ∧ n.tableIndex = .ok index

/-- The site after a well took a group control. -/
def installed (s : Site α) (id : Nat) (n : Node α) (index : Nat) (w : Well α) (c : Control α) :
    Site α :=
  let slot := (w.controls.impose n.groupSlot? c).2
  { hierarchy := s.hierarchy.modify id fun n =>
      { n.modifyLink fun link => { link with groupSlot := some slot } with individual := false }
    wells := s.wells.setControls index ((w.controls.impose n.groupSlot? c).1.select slot) }

/-- A control is installed exactly when the well is attached to an entry of the table. -/
theorem install_eq_ok {s t : Site α} {id : Nat} {c : Control α} :
    s.install id c = .ok t ↔ ∃ n index w, s.hierarchy.node id = .ok n ∧ n.tableIndex = .ok index ∧
      s.wells.well index = .ok w ∧ t = s.installed id n index w c := by
  rw [install]
  constructor
  · intro h
    obtain ⟨n, hn, h⟩ := bind_eq_ok.mp h
    obtain ⟨index, hi, h⟩ := bind_eq_ok.mp h
    obtain ⟨w, hw, h⟩ := bind_eq_ok.mp h
    exact ⟨n, index, w, hn, hi, hw, (Except.ok.inj h).symm⟩
  · rintro ⟨n, index, w, hn, hi, hw, rfl⟩
    refine bind_eq_ok.mpr ⟨n, hn, ?_⟩
    refine bind_eq_ok.mpr ⟨index, hi, ?_⟩
    exact bind_eq_ok.mpr ⟨w, hw, rfl⟩

/-- The site after a node took a mode. -/
def adopted (s : Site α) (id : Nat) (mode : Mode) : Site α :=
  { s with hierarchy := s.hierarchy.modify id (·.adopt mode) }

/-- The site after a well that does not stop was withdrawn. -/
def pinned (s : Site α) (id index : Nat) (link : WellLink) (w : Well α) : Site α :=
  let (controls, slot) := w.controls.impose link.groupSlot (.surfaceRate 0 (.const 1))
  { hierarchy := s.hierarchy.modify id
      (·.modifyLink fun link => { link with groupSlot := some slot })
    wells := s.wells.setControls index controls.reopen }

/-- A well that is withdrawn is stopped, or it is opened with a group control of rate zero. -/
theorem withdraw_cases {s t : Site α} {id : Nat} (h : s.withdraw id = .ok t) :
    ∃ n index link w, s.hierarchy.node id = .ok n ∧ n.tableIndex = .ok index ∧
      n.link? = some link ∧ s.wells.well index = .ok w ∧
      ((link.stopsWhenWithdrawn = true ∧
          t = { s with wells := s.wells.setControls index w.controls.stop }) ∨
        (link.stopsWhenWithdrawn = false ∧ t = s.pinned id index link w)) := by
  rw [withdraw] at h
  obtain ⟨n, hn, h⟩ := bind_eq_ok.mp h
  obtain ⟨index, hi, h⟩ := bind_eq_ok.mp h
  obtain ⟨link, hl⟩ := Node.link?_of_tableIndex hi
  rw [hl] at h
  obtain ⟨w, hw, h⟩ := bind_eq_ok.mp h
  refine ⟨n, index, link, w, hn, hi, hl, hw, ?_⟩
  cases hs : link.stopsWhenWithdrawn with
  | true =>
      rw [if_pos hs] at h
      exact Or.inl ⟨rfl, (Except.ok.inj h).symm⟩
  | false =>
      rw [if_neg (by rw [hs]; exact Bool.false_ne_true)] at h
      exact Or.inr ⟨rfl, (Except.ok.inj h).symm⟩

/-- A well that is attached to an entry of the table can be withdrawn. -/
theorem withdraw_ok {s : Site α} {id index : Nat} (ha : s.AttachedTo id index)
    (hlt : index < s.wells.length) : ∃ t, s.withdraw id = .ok t := by
  obtain ⟨n, hn, hi⟩ := ha
  obtain ⟨link, hl⟩ := Node.link?_of_tableIndex hi
  obtain ⟨w, hw⟩ := WellTable.exists_well hlt
  rw [withdraw, hn]
  simp only [bind, Except.bind, hi, hl, hw]
  cases hs : link.stopsWhenWithdrawn with
  | true => exact ⟨_, if_pos rfl⟩
  | false => exact ⟨_, if_neg Bool.false_ne_true⟩

/-! ## What every order leaves alone -/

end Site

/-- The node that an order is about. -/
def Order.subject? : Order α → Option Nat
  | .install id _ => some id
  | .adopt id _ => some id
  | .refresh id => some id
  | .withdraw id => some id
  | .activate _ _ => none
  | .refuse _ => none

/-- The order takes hold of the table entry at an index. -/
def Order.Touches (s : Site α) (index : Nat) : Order α → Prop
  | .install id _ => s.AttachedTo id index
  | .withdraw id => s.AttachedTo id index
  | .activate i _ => i = index
  | .adopt _ _ => False
  | .refresh _ => False
  | .refuse _ => False

namespace Site

/-- What becomes of the nodes and of the table under an order: at most the subject changes, by a
    function that keeps what lasts, and at most one entry of the table changes, in place. -/
theorem obey_shape {s t : Site α} {o : Order α} (h : s.obey o = .ok t) :
    (t.hierarchy = s.hierarchy ∨ ∃ id f, o.subject? = some id ∧
      (∀ n : Node α, (f n).lasting = n.lasting) ∧ t.hierarchy = s.hierarchy.modify id f) ∧
    (t.wells = s.wells ∨ ∃ index f, o.Touches s index ∧ t.wells = s.wells.modify index f) := by
  cases o with
  | install id c =>
      obtain ⟨n, index, w, hn, hi, _, rfl⟩ := install_eq_ok.mp h
      refine ⟨Or.inr ⟨id, _, rfl, ?_, rfl⟩, Or.inr ⟨index, _, ⟨n, hn, hi⟩, rfl⟩⟩
      intro m
      exact Node.lasting_modifyLink m fun _ => rfl
  | adopt id mode =>
      cases h
      exact ⟨Or.inr ⟨id, (·.adopt mode), rfl, fun m => m.lasting_adopt mode, rfl⟩, Or.inl rfl⟩
  | refresh id =>
      cases h
      exact ⟨Or.inr ⟨id, (·.edit (.outdated false)), rfl, fun _ => rfl, rfl⟩, Or.inl rfl⟩
  | activate index place =>
      cases h
      exact ⟨Or.inl rfl, Or.inr ⟨index, _, rfl, rfl⟩⟩
  | withdraw id =>
      -- a well that stops keeps its node; otherwise a group slot may be new
      obtain ⟨n, index, link, w, hn, hi, _, _, ⟨_, rfl⟩ | ⟨_, rfl⟩⟩ := withdraw_cases h
      · exact ⟨Or.inl rfl, Or.inr ⟨index, _, ⟨n, hn, hi⟩, rfl⟩⟩
      · refine ⟨Or.inr ⟨id, _, rfl, ?_, rfl⟩, Or.inr ⟨index, _, ⟨n, hn, hi⟩, rfl⟩⟩
        intro m
        exact Node.lasting_modifyLink m fun _ => rfl
  | refuse e => cases h

/-- An order changes no node but its subject. -/
theorem obey_node_of_ne {s t : Site α} {o : Order α} (h : s.obey o = .ok t) {id : Nat}
    (hne : o.subject? ≠ some id) : t.hierarchy.node id = s.hierarchy.node id := by
  obtain ⟨hsame | ⟨j, f, hj, _, hmod⟩, _⟩ := obey_shape h
  · rw [hsame]
  · rw [hmod]
    exact s.hierarchy.node_modify_of_ne (fun heq : j = id => hne (heq ▸ hj)) f

/-- An order changes no entry of the table but the one it takes hold of. -/
theorem obey_well_of_not_touches {s t : Site α} {o : Order α} (h : s.obey o = .ok t) {index : Nat}
    (hnot : ¬ o.Touches s index) : t.wells.well index = s.wells.well index := by
  obtain ⟨_, hsame | ⟨i, f, hi, hmod⟩⟩ := obey_shape h
  · rw [hsame]
  · rw [hmod]
    exact WellTable.well_modify_of_ne s.wells (fun heq : i = index => hnot (heq ▸ hi)) f

/-- An order keeps what lasts of every node, and the active phases. -/
theorem obey_lasting {s t : Site α} {o : Order α} (h : s.obey o = .ok t) :
    t.hierarchy.nodes.map Node.lasting = s.hierarchy.nodes.map Node.lasting ∧
      t.hierarchy.phases = s.hierarchy.phases := by
  obtain ⟨hsame | ⟨id, f, _, hf, hmod⟩, _⟩ := obey_shape h
  · rw [hsame]
    exact ⟨rfl, rfl⟩
  · rw [hmod]
    exact ⟨Hierarchy.map_modify fun n _ => hf n, rfl⟩

theorem obey_wells_length {s t : Site α} {o : Order α} (h : s.obey o = .ok t) :
    t.wells.length = s.wells.length := by
  obtain ⟨_, hsame | ⟨i, f, _, hmod⟩⟩ := obey_shape h
  · rw [hsame]
  · rw [hmod]
    exact List.length_modify ..

/-- Which entries wells are attached to can be seen from anything that tells the attachments. -/
theorem attachedTo_of_map {β : Type} {g : Node α → β} {s t : Site α}
    (hg : ∀ n m : Node α, g n = g m → n.attachment? = m.attachment?)
    (hsame : t.hierarchy.nodes.map g = s.hierarchy.nodes.map g) (id index : Nat) :
    t.AttachedTo id index ↔ s.AttachedTo id index := by
  have hmove : ∀ {s t : Site α}, t.hierarchy.nodes.map g = s.hierarchy.nodes.map g →
      t.AttachedTo id index → s.AttachedTo id index := by
    rintro s t hsame ⟨n, hn, hi⟩
    obtain ⟨m, hm, hmn⟩ := Hierarchy.exists_node_of_map hsame hn
    refine ⟨m, hm, ?_⟩
    rw [Node.tableIndex_eq_ok, hg m n hmn]
    exact Node.tableIndex_eq_ok.mp hi
  exact ⟨hmove hsame, hmove hsame.symm⟩

/-- Wells stay attached to what they are attached to. -/
theorem obey_attachedTo {s t : Site α} {o : Order α} (h : s.obey o = .ok t) (id index : Nat) :
    t.AttachedTo id index ↔ s.AttachedTo id index :=
  attachedTo_of_map (fun _ _ => Node.attachment?_of_lasting) (obey_lasting h).1 id index

/-- What an order takes hold of does not change under another order. -/
theorem obey_touches {s t : Site α} {o : Order α} (h : s.obey o = .ok t) (o' : Order α)
    (index : Nat) : o'.Touches t index ↔ o'.Touches s index := by
  cases o' with
  | install id c => exact obey_attachedTo h id index
  | withdraw id => exact obey_attachedTo h id index
  | activate i place => exact Iff.rfl
  | adopt id mode => exact Iff.rfl
  | refresh id => exact Iff.rfl
  | refuse e => exact Iff.rfl

/-! ## Runs -/

/-- Orders after other orders. -/
theorem run_append (s : Site α) (l l' : List (Order α)) :
    s.run (l ++ l') = match s.run l with
      | (t, .ok ()) => t.run l'
      | (t, .error e) => (t, .error e) := by
  induction l generalizing s with
  | nil => rfl
  | cons o rest ih =>
      rw [List.cons_append, run, run]
      cases ho : s.obey o with
      | error e => rfl
      | ok t => exact ih t

theorem run_append_of_ok {s : Site α} {l : List (Order α)} (h : (s.run l).2 = .ok ())
    (l' : List (Order α)) : s.run (l ++ l') = (s.run l).1.run l' := by
  rw [run_append]
  generalize s.run l = done at h ⊢
  obtain ⟨t, _ | ⟨⟩⟩ := done
  · cases h
  · rfl

/-- A run leaves alone every node that no order is about. -/
theorem run_node_of_notMem {s : Site α} {l : List (Order α)} {id : Nat}
    (h : ∀ o ∈ l, o.subject? ≠ some id) :
    (s.run l).1.hierarchy.node id = s.hierarchy.node id := by
  induction l generalizing s with
  | nil => rfl
  | cons o rest ih =>
      rw [run]
      cases ho : s.obey o with
      | error e => rfl
      | ok t =>
          rw [← obey_node_of_ne ho (h o (List.mem_cons_self ..))]
          exact ih fun o' ho' => h o' (List.mem_cons_of_mem o ho')

/-- A run leaves alone every entry that no order takes hold of. -/
theorem run_well_of_notMem {s : Site α} {l : List (Order α)} {index : Nat}
    (h : ∀ o ∈ l, ¬ o.Touches s index) :
    (s.run l).1.wells.well index = s.wells.well index := by
  induction l generalizing s with
  | nil => rfl
  | cons o rest ih =>
      rw [run]
      cases ho : s.obey o with
      | error e => rfl
      | ok t =>
          rw [← obey_well_of_not_touches ho (h o (List.mem_cons_self ..))]
          exact ih fun o' ho' htouch =>
            h o' (List.mem_cons_of_mem o ho') ((obey_touches ho o' index).mp htouch)

/-- A run keeps what lasts of every node, and the active phases, also when it ends early. -/
theorem run_lasting (s : Site α) (l : List (Order α)) :
    (s.run l).1.hierarchy.nodes.map Node.lasting = s.hierarchy.nodes.map Node.lasting ∧
      (s.run l).1.hierarchy.phases = s.hierarchy.phases := by
  induction l generalizing s with
  | nil => exact ⟨rfl, rfl⟩
  | cons o rest ih =>
      rw [run]
      cases ho : s.obey o with
      | error e => exact ⟨rfl, rfl⟩
      | ok t =>
          obtain ⟨hnodes, hphases⟩ := obey_lasting ho
          obtain ⟨hrest, hrest'⟩ := ih t
          exact ⟨hrest.trans hnodes, hrest'.trans hphases⟩

/-- Wells stay attached to what they are attached to, also in a run that ends early. -/
theorem run_attachedTo (s : Site α) (l : List (Order α)) (id index : Nat) :
    (s.run l).1.AttachedTo id index ↔ s.AttachedTo id index := by
  induction l generalizing s with
  | nil => exact Iff.rfl
  | cons o rest ih =>
      rw [run]
      cases ho : s.obey o with
      | error e => exact Iff.rfl
      | ok t => exact (ih t).trans (obey_attachedTo ho id index)

theorem run_wells_length (s : Site α) (l : List (Order α)) :
    (s.run l).1.wells.length = s.wells.length := by
  induction l generalizing s with
  | nil => rfl
  | cons o rest ih =>
      rw [run]
      cases ho : s.obey o with
      | error e => rfl
      | ok t => exact (ih t).trans (obey_wells_length ho)

/-- The order can be carried out: it is not a refusal, and the well that it takes hold of is attached
    to an entry of the table. -/
def CanObey (s : Site α) : Order α → Prop
  | .install id _ => ∃ index, s.AttachedTo id index ∧ index < s.wells.length
  | .withdraw id => ∃ index, s.AttachedTo id index ∧ index < s.wells.length
  | .adopt _ _ => True
  | .refresh _ => True
  | .activate _ _ => True
  | .refuse _ => False

/-- An order that can be carried out is carried out. -/
theorem obey_ok {s : Site α} {o : Order α} (h : s.CanObey o) : ∃ t, s.obey o = .ok t := by
  cases o with
  | install id c =>
      obtain ⟨index, ⟨n, hn, hi⟩, hlt⟩ := h
      obtain ⟨w, hw⟩ := WellTable.exists_well hlt
      exact ⟨_, install_eq_ok.mpr ⟨n, index, w, hn, hi, hw, rfl⟩⟩
  | withdraw id =>
      obtain ⟨index, ha, hlt⟩ := h
      exact withdraw_ok ha hlt
  | adopt id mode => exact ⟨_, rfl⟩
  | refresh id => exact ⟨_, rfl⟩
  | activate index place => exact ⟨_, rfl⟩
  | refuse e => exact False.elim h

/-- Only what can be carried out is carried out. -/
theorem canObey_of_obey {s t : Site α} {o : Order α} (h : s.obey o = .ok t) : s.CanObey o := by
  cases o with
  | install id c =>
      obtain ⟨n, index, w, hn, hi, hw, _⟩ := install_eq_ok.mp h
      exact ⟨index, ⟨n, hn, hi⟩, WellTable.lt_length_of_well hw⟩
  | withdraw id =>
      obtain ⟨n, index, link, w, hn, hi, _, hw, _⟩ := withdraw_cases h
      exact ⟨index, ⟨n, hn, hi⟩, WellTable.lt_length_of_well hw⟩
  | adopt id mode => exact True.intro
  | refresh id => exact True.intro
  | activate index place => exact True.intro
  | refuse e => cases h

/-- What can be carried out does not change under an order. -/
theorem obey_canObey {s t : Site α} {o : Order α} (ho : s.obey o = .ok t) (o' : Order α) :
    t.CanObey o' ↔ s.CanObey o' := by
  have hhold : ∀ id, (∃ index, t.AttachedTo id index ∧ index < t.wells.length) ↔
      ∃ index, s.AttachedTo id index ∧ index < s.wells.length := by
    intro id
    rw [obey_wells_length ho]
    exact exists_congr fun index => and_congr_left' (obey_attachedTo ho id index)
  cases o' with
  | install id c => exact hhold id
  | withdraw id => exact hhold id
  | adopt id mode => exact Iff.rfl
  | refresh id => exact Iff.rfl
  | activate index place => exact Iff.rfl
  | refuse e => exact Iff.rfl

theorem run_canObey (s : Site α) (l : List (Order α)) (o : Order α) :
    (s.run l).1.CanObey o ↔ s.CanObey o := by
  induction l generalizing s with
  | nil => exact Iff.rfl
  | cons o' rest ih =>
      rw [run]
      cases ho : s.obey o' with
      | error e => exact Iff.rfl
      | ok t => exact (ih t).trans (obey_canObey ho o)

/-- A run goes through exactly when every single order can be carried out. -/
theorem run_ok_iff {s : Site α} {l : List (Order α)} :
    (s.run l).2 = .ok () ↔ ∀ o ∈ l, s.CanObey o := by
  induction l generalizing s with
  | nil => exact ⟨fun _ o ho => absurd ho List.not_mem_nil, fun _ => rfl⟩
  | cons o rest ih =>
      rw [run, List.forall_mem_cons]
      cases ho : s.obey o with
      | error e =>
          constructor
          · intro h
            cases h
          · rintro ⟨hcan, _⟩
            obtain ⟨t, ht⟩ := obey_ok hcan
            rw [ho] at ht
            cases ht
      | ok t =>
          show (t.run rest).2 = .ok () ↔ _
          rw [ih]
          simp only [obey_canObey ho, canObey_of_obey ho, true_and]

/-- Nothing is refused in a run that goes through. -/
theorem refuse_notMem_of_run {s : Site α} {l : List (Order α)} (h : (s.run l).2 = .ok ())
    (e : GroupError) : Order.refuse e ∉ l := by
  intro hmem
  exact run_ok_iff.mp h _ hmem

end Site

end ReservoirWells
