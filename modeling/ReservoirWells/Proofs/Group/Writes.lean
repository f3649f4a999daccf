import ReservoirWells.Proofs.Group.Slots

/-! # Writes — every group control that operations write

    A site does not remember which controls have been in a list.  `Site.record` does: it goes along
    with the calls and notes every control that is written into the place of a group control, with
    the entry, the place and the kind of the well, also when the control is written over later.

    * `Site.write?` — what one order writes, if it is carried out;
    * `Site.written_of_obey` — nothing else comes into a list under an order;
    * `Site.writes`, `Site.written_of_run` — a run;
    * `Site.record`, `Site.written_of_serve` — calls: whatever a list holds came with its entry or is
      on record. -/

namespace ReservoirWells

variable {α : Type} [Scalar α]

/-- A control that was written into the place of the group control of a well. -/
structure Write (α : Type) where
  /-- Whether the well produces or injects. -/
  kind : WellKind
  /-- The entry of the table that the well stands for. -/
  index : Nat
  /-- The place in the list of that entry. -/
  place : Nat
  /-- What was written. -/
  control : Control α
  deriving Repr, DecidableEq

/-- The control was written at a place of an entry. -/
def Write.IsAt (w : Write α) (index place : Nat) (c : Control α) : Prop :=
  w.index = index ∧ w.place = place ∧ w.control = c

omit [Scalar α] in
/-- A control that a list holds after a group control was imposed was there before, or it is the
    group control. -/
theorem ControlList.getElem?_of_impose {l : ControlList α} {slot : Option Nat} {c d : Control α} {k : Nat}
    (h : (l.impose slot c).1.controls[k]? = some d) :
    l.controls[k]? = some d ∨ (l.place slot = k ∧ c = d) := by
  rw [impose_controls_getElem?] at h
  split at h
  · next heq => exact Or.inr ⟨heq.symm, Option.some.inj h⟩
  · exact Or.inl h

namespace Site

variable {s t : Site α}

/-! ## Orders -/

/-- What is written when a well takes a group control. -/
def writeAt? (s : Site α) (id : Nat) (c : Control α) : Option (Write α) := do
  let n ← s.hierarchy.nodes[id]?
  let a ← n.attachment?
  let w ← s.wells[a.index]?
  return ⟨a.kind, a.index, w.controls.place n.groupSlot?, c⟩

/-- What an order writes when it is carried out. -/
def write? (s : Site α) : Order α → Option (Write α)
  | .install id c => s.writeAt? id c
  | .withdraw id => do
    let n ← s.hierarchy.nodes[id]?
    let link ← n.link?
    if link.stopsWhenWithdrawn then none else s.writeAt? id (.surfaceRate 0 (.const 1))
  | _ => none

/-- A well that is attached to an entry has its control written into that entry. -/
theorem writeAt?_eq {id index : Nat} {n : Node α} {w : Well α} (hn : s.hierarchy.node id = .ok n)
    (hi : n.tableIndex = .ok index) (hw : s.wells.well index = .ok w) (c : Control α) :
    ∃ kind, n.attachment? = some ⟨index, kind⟩ ∧
      s.writeAt? id c = some ⟨kind, index, w.controls.place n.groupSlot?, c⟩ := by
  rw [Node.tableIndex_eq_ok] at hi
  cases ha : n.attachment? with
  | none => rw [ha] at hi; cases hi
  | some a =>
      rw [ha] at hi
      cases hi
      refine ⟨a.kind, rfl, ?_⟩
      rw [writeAt?, Hierarchy.node_eq_ok.mp hn]
      simp only [Option.bind_eq_bind, Option.bind_some, ha, WellTable.well_eq_ok.mp hw]
      rfl

/-- What a list holds after an order it held before, or the order wrote it. -/
theorem written_of_obey {o : Order α} (h : s.obey o = .ok t) {index k : Nat} {v : Well α}
    {c : Control α} (hv : t.wells.well index = .ok v) (hc : v.controls.controls[k]? = some c) :
    (∃ w, s.wells.well index = .ok w ∧ w.controls.controls[k]? = some c) ∨
      ∃ w ∈ s.write? o, w.IsAt index k c := by
  -- an entry that is given another list was given it by the order
  have hset : ∀ {i : Nat} {w : Well α} {l : ControlList α} {o : Order α},
      s.wells.well i = .ok w → WellTable.well (s.wells.setControls i l) index = .ok v →
      (l.controls[k]? = some c →
        w.controls.controls[k]? = some c ∨ ∃ w ∈ s.write? o, w.IsAt i k c) →
      (∃ w, s.wells.well index = .ok w ∧ w.controls.controls[k]? = some c) ∨
        ∃ w ∈ s.write? o, w.IsAt index k c := by
    intro i w l o hw hv hl
    obtain ⟨u, hu, rfl⟩ := WellTable.well_modify_eq_ok.mp hv
    by_cases heq : i = index
    · subst heq
      rw [if_pos rfl] at hc
      exact (hl hc).imp_left fun hold => ⟨w, hw, hold⟩
    · rw [if_neg heq] at hc
      exact Or.inl ⟨u, hu, hc⟩
  cases o with
  | install id d =>
      obtain ⟨n, i, w, hn, hi, hw, rfl⟩ := install_eq_ok.mp h
      obtain ⟨kind, _, hwrite⟩ := writeAt?_eq hn hi hw d
      rw [installed_eq] at hv
      refine hset (o := .install id d) hw hv fun hput => ?_
      rw [ControlList.put_eq] at hput
      rcases ControlList.getElem?_of_impose hput with hold | ⟨hplace, hcontrol⟩
      · exact Or.inl hold
      · exact Or.inr ⟨_, hwrite, rfl, hplace, hcontrol⟩
  | adopt id mode =>
      cases h
      exact Or.inl ⟨v, hv, hc⟩
  | refresh id =>
      cases h
      exact Or.inl ⟨v, hv, hc⟩
  | activate i place =>
      cases h
      obtain ⟨u, hu, rfl⟩ := WellTable.well_modify_eq_ok.mp hv
      refine Or.inl ⟨u, hu, ?_⟩
      split at hc
      · rw [← u.controls.controls_select place]
        exact hc
      · exact hc
  | withdraw id =>
      obtain ⟨n, i, link, w, hn, hi, hl, hw, ⟨_, rfl⟩ | ⟨hstops, rfl⟩⟩ := withdraw_cases h
      · exact hset (o := .withdraw id) hw hv Or.inl
      · obtain ⟨kind, _, hwrite⟩ := writeAt?_eq hn hi hw (.surfaceRate 0 (.const 1))
        have hslot : link.groupSlot = n.groupSlot? := by rw [Node.groupSlot?, hl]; rfl
        rw [pinned_eq, hslot] at hv
        have hwithdraw : s.write? (.withdraw id) = s.writeAt? id (.surfaceRate 0 (.const 1)) := by
          rw [write?, Hierarchy.node_eq_ok.mp hn]
          simp only [Option.bind_eq_bind, Option.bind_some, hl, hstops, Bool.false_eq_true, if_false]
        refine hset (o := .withdraw id) hw hv fun himpose => ?_
        rcases ControlList.getElem?_of_impose himpose with hold | ⟨hplace, hcontrol⟩
        · exact Or.inl hold
        · exact Or.inr ⟨_, hwithdraw.trans hwrite, rfl, hplace, hcontrol⟩
  | refuse e => cases h

/-! ## Runs -/

/-- What a run of orders writes, up to the order that ends it. -/
def writes (s : Site α) : List (Order α) → List (Write α)
  | [] => []
  | o :: rest =>
    match s.obey o with
    | .ok t => (s.write? o).toList ++ t.writes rest
    | .error _ => []

/-- What a list holds after a run it held before, or the run wrote it, also when the run ends
    early. -/
theorem written_of_run {l : List (Order α)} {index k : Nat} {v : Well α} {c : Control α}
    (hv : (s.run l).1.wells.well index = .ok v) (hc : v.controls.controls[k]? = some c) :
    (∃ w, s.wells.well index = .ok w ∧ w.controls.controls[k]? = some c) ∨
      ∃ w ∈ s.writes l, w.IsAt index k c := by
  induction l generalizing s with
  | nil => exact Or.inl ⟨v, hv, hc⟩
  | cons o rest ih =>
      rw [run] at hv
      rw [writes]
      cases ho : s.obey o with
      | error e =>
          rw [ho] at hv
          exact Or.inl ⟨v, hv, hc⟩
      | ok t =>
          rw [ho] at hv
          rcases ih hv with ⟨u, hu, huc⟩ | ⟨w, hw, hat⟩
          · rcases written_of_obey ho hu huc with hold | ⟨w, hw, hat⟩
            · exact Or.inl hold
            · exact Or.inr ⟨w, List.mem_append.mpr (Or.inl (Option.mem_toList.mpr hw)), hat⟩
          · exact Or.inr ⟨w, List.mem_append.mpr (Or.inr hw), hat⟩

/-- A run that goes through writes every control that it installs. -/
theorem mem_writes_of_run {l : List (Order α)} {id : Nat} {n : Node α} {a : Attachment}
    {c : Control α} (hrun : (s.run l).2 = .ok ()) (hmem : .install id c ∈ l)
    (hn : s.hierarchy.node id = .ok n) (ha : n.attachment? = some a) :
    ∃ w ∈ s.writes l, w.kind = a.kind ∧ w.control = c := by
  induction l generalizing s n with
  | nil => cases hmem
  | cons o rest ih =>
      rw [run] at hrun
      rw [writes]
      cases ho : s.obey o with
      | error e => rw [ho] at hrun; cases hrun
      | ok t =>
          rw [ho] at hrun
          rcases List.mem_cons.mp hmem with rfl | hrest
          · obtain ⟨m, index, w, hm, hi, hw, _⟩ := install_eq_ok.mp ho
            rw [hn] at hm
            cases hm
            obtain ⟨kind, hattach, hwrite⟩ := writeAt?_eq hn hi hw c
            rw [ha] at hattach
            cases hattach
            exact ⟨_, List.mem_append.mpr (Or.inl (Option.mem_toList.mpr hwrite)), rfl, rfl⟩
          · obtain ⟨m, hm, hlasting⟩ := Hierarchy.exists_node_of_map (obey_lasting ho).1.symm hn
            obtain ⟨w, hw, hwrite⟩ := ih hrun hrest hm
              ((Node.attachment?_of_lasting hlasting).trans ha)
            exact ⟨w, List.mem_append.mpr (Or.inr hw), hwrite⟩

/-! ## Calls -/

/-- What a call writes. -/
def writesOf (s : Site α) (c : Call α) : List (Write α) :=
  match s.plan c with
  | .ok orders => s.writes orders
  | .error _ => []

/-- What a list of calls writes, one after the other. -/
def record (s : Site α) : List (Call α) → List (Write α)
  | [] => []
  | c :: rest => s.writesOf c ++ (s.call c).1.record rest

/-- What a list holds after a call it held before, or it came with its entry, or the call wrote it. -/
theorem written_of_call {c : Call α} (htable : c.table?.isNone = true) {index k : Nat} {v : Well α}
    {d : Control α} (hv : (s.call c).1.wells.well index = .ok v)
    (hd : v.controls.controls[k]? = some d) :
    (∃ w, s.wells.well index = .ok w ∧ w.controls.controls[k]? = some d) ∨
      (∃ l, c.enrolled? = some l ∧ index = s.wells.length ∧ l[k]? = some d) ∨
      ∃ w ∈ s.writesOf c, w.IsAt index k d := by
  have hsame : (s.call c).1.wells = s.wells →
      (∃ w, s.wells.well index = .ok w ∧ w.controls.controls[k]? = some d) := by
    intro hwells
    rw [hwells] at hv
    exact ⟨v, hv, hd⟩
  have hretouch : ∀ {i : Nat} {f : ControlList α → ControlList α},
      (∀ l, (f l).controls = l.controls) → s.call c = (s.retouch i f, .ok ()) →
      (∃ w, s.wells.well index = .ok w ∧ w.controls.controls[k]? = some d) := by
    intro i f hf hcall
    rw [hcall] at hv
    obtain ⟨w, hw, rfl⟩ := WellTable.well_modify_eq_ok.mp hv
    refine ⟨w, hw, ?_⟩
    split at hd
    · rw [← hf w.controls]
      exact hd
    · exact hd
  have hrun : c.operates = true →
      (∃ w, s.wells.well index = .ok w ∧ w.controls.controls[k]? = some d) ∨
        ∃ w ∈ s.writesOf c, w.IsAt index k d := by
    intro hop
    rw [s.call_eq_follow hop] at hv
    rw [writesOf]
    cases hplan : s.plan c with
    | error e =>
        rw [hplan] at hv
        exact Or.inl ⟨v, hv, hd⟩
    | ok orders =>
        rw [hplan] at hv
        exact written_of_run hv hd
  have hbuild : c.builds = true →
      (∃ w, s.wells.well index = .ok w ∧ w.controls.controls[k]? = some d) := by
    intro hbuilds
    refine hsame ?_
    obtain ⟨x, hx⟩ := s.call_eq_rebuild hbuilds
    rw [hx]
    cases x with
    | ok h => rfl
    | error e => rfl
  cases c with
  | enrol name kind controls =>
      have hget : (s.wells ++ [_])[index]? = some v := WellTable.well_eq_ok.mp hv
      rw [List.getElem?_append] at hget
      split at hget
      · exact Or.inl ⟨v, WellTable.well_eq_ok.mpr hget, hd⟩
      · next hge =>
          obtain ⟨hzero, rfl⟩ := List.getElem?_eq_some_iff.mp hget
          rw [List.getElem_singleton] at hd
          rw [List.length_singleton] at hzero
          exact Or.inr (Or.inl ⟨controls, rfl, by omega, hd⟩)
  | select i place => exact Or.inl (hretouch (fun l => l.controls_select place) rfl)
  | stop i => exact Or.inl (hretouch (f := (·.stop)) (fun _ => rfl) rfl)
  | reopen i => exact Or.inl (hretouch (f := (·.reopen)) (fun _ => rfl) rfl)
  | useTable wells => cases htable
  | ask id q => exact Or.inl (hsame rfl)
  | addGroup name parent efficiency specs => exact Or.inl (hbuild rfl)
  | addWell name parent efficiency specs => exact Or.inl (hbuild rfl)
  | attach id i => exact Or.inl (hbuild rfl)
  | edit id e => exact Or.inl (hbuild rfl)
  | _ => exact (hrun rfl).imp_right Or.inr

/-- A table grows only when an entry comes in. -/
theorem length_call {c : Call α} (htable : c.table?.isNone = true) :
    (s.call c).1.wells.length = s.wells.length + c.enrolled?.toList.length := by
  have hrun : c.operates = true → (s.call c).1.wells.length = s.wells.length := by
    intro hop
    obtain ⟨l, hl⟩ := s.call_eq_run hop
    rw [hl, run_wells_length]
  have hbuild : c.builds = true → (s.call c).1.wells.length = s.wells.length := by
    intro hbuilds
    obtain ⟨x, hx⟩ := s.call_eq_rebuild hbuilds
    rw [hx]
    cases x with
    | ok h => rfl
    | error e => rfl
  cases c with
  | enrol name kind controls => exact List.length_append
  | select i place => exact List.length_modify ..
  | stop i => exact List.length_modify ..
  | reopen i => exact List.length_modify ..
  | useTable wells => cases htable
  | ask id q => rfl
  | addGroup name parent efficiency specs => exact hbuild rfl
  | addWell name parent efficiency specs => exact hbuild rfl
  | attach id i => exact hbuild rfl
  | edit id e => exact hbuild rfl
  | _ => exact hrun rfl

/-- Whatever a list holds after some calls it held before, or it came with its entry, or it is on
    record. -/
theorem written_of_serve {calls : List (Call α)} (htable : ∀ c ∈ calls, c.table?.isNone = true)
    {index k : Nat} {v : Well α} {d : Control α} (hv : (s.serve calls).wells.well index = .ok v)
    (hd : v.controls.controls[k]? = some d) :
    (∃ w, s.wells.well index = .ok w ∧ w.controls.controls[k]? = some d) ∨
      (s.wells.length ≤ index ∧ ∃ l,
        (calls.filterMap Call.enrolled?)[index - s.wells.length]? = some l ∧ l[k]? = some d) ∨
      ∃ w ∈ s.record calls, w.IsAt index k d := by
  induction calls generalizing s with
  | nil => exact Or.inl ⟨v, hv, hd⟩
  | cons c rest ih =>
      have hfirst := htable c (List.mem_cons_self ..)
      have hlen := length_call (s := s) hfirst
      rw [filterMap_cons_toList]
      rcases ih (s := (s.call c).1) (fun c' hc' => htable c' (List.mem_cons_of_mem c hc')) hv with
        ⟨u, hu, hud⟩ | ⟨hle, l, hl, hld⟩ | ⟨w, hw, hat⟩
      · rcases written_of_call hfirst hu hud with hold | ⟨l, hl, rfl, hld⟩ | ⟨w, hw, hat⟩
        · exact Or.inl hold
        · refine Or.inr (Or.inl ⟨Nat.le_refl _, l, ?_, hld⟩)
          rw [hl, Nat.sub_self]
          rfl
        · exact Or.inr (Or.inr ⟨w, List.mem_append.mpr (Or.inl hw), hat⟩)
      · -- the lists that came later stand behind the one that came with the first call
        refine Or.inr (Or.inl ⟨by omega, l, ?_, hld⟩)
        rw [List.getElem?_append_right (by omega), Nat.sub_sub, ← hlen]
        exact hl
      · exact Or.inr (Or.inr ⟨w, List.mem_append.mpr (Or.inr hw), hat⟩)

end Site

end ReservoirWells
