import ReservoirWells.Proofs.Group.Slots

/-! # Ownership — the controls that a well brings along

    An entry comes into the table with controls of its own, and a group control is written behind
    them or over the group control before it.  Where it is written is remembered by the node, while
    the list belongs to the entry.  A well that is attached once more, to another entry, keeps the
    place that it remembers, and in a longer list that place may hold a control of the entry itself.

    The own controls stay in front as long as no well takes such a place along (`Site.Careful`):

    * `ControlList.prefix_impose` — one list and one group control;
    * `Site.Guarded` — what is true of all nodes and entries at any time;
    * `Site.obey_guarded`, `Site.call_guarded` — one order and one call, also one that fails
      half-way;
    * `Site.serve_keeps_own` — hence every site that careful calls lead to, and no other attachment
      would do. -/

namespace ReservoirWells

variable {α : Type} [Scalar α]

/-! ## One list -/

namespace ControlList

variable {β : Type} {own : List (Control β)} {l : ControlList β}

/-- A slot behind the first controls of a list leads to a place behind them, and so does none. -/
theorem le_place (hown : own <+: l.controls) {slot : Option Nat}
    (hslot : ∀ p ∈ slot, own.length ≤ p) : own.length ≤ l.place slot := by
  have hlen := hown.length_le
  cases slot with
  | none =>
      rw [place_none]
      exact hlen
  | some p => exact Nat.le_min.mpr ⟨hslot p rfl, hlen⟩

/-- A group control that is written behind the first controls of a list leaves them in front. -/
theorem prefix_impose (hown : own <+: l.controls) {slot : Option Nat}
    (hplace : own.length ≤ l.place slot) (c : Control β) :
    own <+: (l.impose slot c).1.controls := by
  rw [List.prefix_iff_getElem?] at hown ⊢
  intro k hk
  rw [impose_controls_getElem?, if_neg (Nat.ne_of_lt (Nat.lt_of_lt_of_le hk hplace))]
  exact hown k hk

/-- A group control that is written among the first controls of a list takes the place of one of
    them. -/
theorem exists_not_prefix_impose (hown : own <+: l.controls) {p : Nat} (hp : p < own.length) :
    ∃ c, ¬ own <+: (l.impose (some p) c).1.controls := by
  -- any control of another kind than the one that stands there shows the difference
  have hother : ∃ kind : ControlKind, kind ≠ own[p].kind := by
    cases own[p].kind with
    | bhp => exact ⟨.thp, by decide⟩
    | _ => exact ⟨.bhp, by decide⟩
  obtain ⟨kind, hkind⟩ := hother
  refine ⟨{ own[p] with kind := kind }, fun hprefix => hkind ?_⟩
  have hget := List.prefix_iff_getElem?.mp hprefix p hp
  rw [impose_controls_getElem?, place_of_lt (Nat.lt_of_lt_of_le hp hown.length_le),
    if_pos rfl] at hget
  exact congrArg Control.kind (Option.some.inj hget)

end ControlList

/-! ## All nodes and entries -/

/-- The entry of a node and the place of its group control. -/
def Node.binding (n : Node α) : Option Attachment × Option Nat := (n.attachment?, n.groupSlot?)

theorem Node.binding_edit (n : Node α) (e : Edit α) : (n.edit e).binding = n.binding := by
  cases e with
  | individual b => rfl
  | _ =>
      refine congrArg (fun seat => (seat.1, seat.2.1)) (n.seat_edit ?_)
      intro b heq
      cases heq

/-- The entries of the table came with the controls `own`, which no slot names. -/
structure Site.Guarded (own : List (List (Control α))) (s : Site α) : Prop where
  /-- As many entries came as there are. -/
  length : s.wells.length = own.length
  /-- The own controls of an entry stand in front. -/
  front : ∀ index w, s.wells.well index = .ok w →
    ∃ l, own[index]? = some l ∧ l <+: w.controls.controls
  /-- The slot of an attached well lies behind the own controls of its entry. -/
  behind : ∀ id n index, s.hierarchy.node id = .ok n → n.tableIndex = .ok index →
    ∃ l, own[index]? = some l ∧ ∀ slot ∈ n.groupSlot?, l.length ≤ slot

namespace Site

variable {own : List (List (Control α))} {s : Site α}

/-! ### Changes on one side -/

/-- Nodes may change in all but their entries and slots. -/
theorem Guarded.rebind (hs : s.Guarded own) {h : Hierarchy α}
    (hsame : h.nodes.map Node.binding = s.hierarchy.nodes.map Node.binding) :
    Guarded own { s with hierarchy := h } where
  length := hs.length
  front := hs.front
  behind := by
    intro id n index hn hi
    obtain ⟨m, hm, hmn⟩ := Hierarchy.exists_node_of_map hsame hn
    have hattach : m.attachment? = n.attachment? := congrArg Prod.fst hmn
    have hslot : m.groupSlot? = n.groupSlot? := congrArg Prod.snd hmn
    rw [← hslot]
    refine hs.behind id m index hm ?_
    rw [Node.tableIndex_eq_ok, hattach]
    exact Node.tableIndex_eq_ok.mp hi

/-- An entry may change as long as its own controls stay in front. -/
theorem Guarded.rewrite (hs : s.Guarded own) (index : Nat) {g : ControlList α → ControlList α}
    (hg : ∀ w l, s.wells.well index = .ok w → own[index]? = some l → l <+: w.controls.controls →
      l <+: (g w.controls).controls) :
    (s.retouch index g).Guarded own where
  length := (List.length_modify ..).trans hs.length
  front := by
    intro i v hv
    obtain ⟨w, hw, rfl⟩ := WellTable.well_modify_eq_ok.mp hv
    obtain ⟨l, hl, hfront⟩ := hs.front i w hw
    refine ⟨l, hl, ?_⟩
    split
    · next heq =>
        subst heq
        exact hg w l hw hl hfront
    · exact hfront
  behind := hs.behind

/-- In particular when its list stays. -/
theorem Guarded.retouch (hs : s.Guarded own) (index : Nat) {g : ControlList α → ControlList α}
    (hg : ∀ l, (g l).controls = l.controls) : (s.retouch index g).Guarded own :=
  hs.rewrite index fun w l _ _ hfront => by
    rw [hg]
    exact hfront

/-- A well may take another slot or another entry when its slot lies behind the own controls. -/
theorem Guarded.reslot (hs : s.Guarded own) {id : Nat} {n : Node α}
    (hn : s.hierarchy.node id = .ok n) {f : Node α → Node α}
    (hf : ∀ index, (f n).tableIndex = .ok index →
      ∃ l, own[index]? = some l ∧ ∀ slot ∈ (f n).groupSlot?, l.length ≤ slot) :
    Guarded own { s with hierarchy := s.hierarchy.modify id f } where
  length := hs.length
  front := hs.front
  behind := by
    intro j m index hm hi
    rcases Hierarchy.node_of_modify hn hm with ⟨_, rfl⟩ | ⟨_, hm⟩
    · exact hf index hi
    · exact hs.behind j m index hm hi

/-! ### A node and its entry -/

/-- A well may take a group control where its slot says, and remember the place. -/
theorem Guarded.impose (hs : s.Guarded own) {id index : Nat} {n : Node α} {w : Well α}
    (hn : s.hierarchy.node id = .ok n) (hi : n.tableIndex = .ok index)
    (hw : s.wells.well index = .ok w) {f : Node α → Node α}
    (hattach : (f n).attachment? = n.attachment?)
    (hslot : (f n).groupSlot? = some (w.controls.place n.groupSlot?)) {l : ControlList α}
    {c : Control α} (hl : l.controls = (w.controls.impose n.groupSlot? c).1.controls) :
    Guarded own ⟨s.hierarchy.modify id f, s.wells.setControls index l⟩ := by
  obtain ⟨controls, hown, hbehind⟩ := hs.behind id n index hn hi
  have hplace : controls.length ≤ w.controls.place n.groupSlot? := by
    obtain ⟨controls', hown', hfront⟩ := hs.front index w hw
    rw [hown] at hown'
    cases hown'
    exact ControlList.le_place hfront hbehind
  refine (hs.rewrite index (g := fun _ => l) ?_).reslot hn ?_
  · intro v controls' hv hown' hfront
    rw [hw] at hv
    cases hv
    rw [hown] at hown'
    cases hown'
    rw [hl]
    exact ControlList.prefix_impose hfront hplace c
  · intro i hfi
    have hindex : index = i := by
      rw [Node.tableIndex_eq_ok] at hi hfi
      rw [hattach, hi] at hfi
      exact Option.some.inj hfi
    subst hindex
    refine ⟨controls, hown, fun slot hmem => ?_⟩
    rw [hslot] at hmem
    cases hmem
    exact hplace

/-! ### More nodes and more entries -/

/-- A node without an attachment may come in. -/
theorem Guarded.concat (hs : s.Guarded own) {n : Node α} (hattach : n.attachment? = none) :
    Guarded own { s with hierarchy := s.hierarchy.concat n } where
  length := hs.length
  front := hs.front
  behind := by
    intro id m index hm hi
    rcases Hierarchy.node_concat.mp hm with hm | ⟨_, rfl⟩
    · exact hs.behind id m index hm hi
    · rw [Node.tableIndex_eq_ok, hattach] at hi
      cases hi

/-- An entry may come in at the end of the table, with controls of its own. -/
theorem Guarded.enrol (hs : s.Guarded own) (name : String) (kind : WellKind)
    (controls : List (Control α)) :
    Guarded (own ++ [controls]) { s with
      wells := s.wells ++ [.ofControls name kind controls] } := by
  have hlen := hs.length
  have hold : ∀ {index : Nat} {l : List (Control α)}, own[index]? = some l →
      (own ++ [controls])[index]? = some l := by
    intro index l hl
    rw [List.getElem?_append_left (List.getElem?_eq_some_iff.mp hl).1]
    exact hl
  constructor
  case length =>
    rw [List.length_append, List.length_append, hlen]
    rfl
  case front =>
    intro index w hw
    have hget : (s.wells ++ [_])[index]? = some w := WellTable.well_eq_ok.mp hw
    rw [List.getElem?_append] at hget
    split at hget
    · obtain ⟨l, hl, hfront⟩ := hs.front index w (WellTable.well_eq_ok.mpr hget)
      exact ⟨l, hold hl, hfront⟩
    · -- the new entry meets the new list
      next hge =>
        obtain ⟨hzero, rfl⟩ := List.getElem?_eq_some_iff.mp hget
        refine ⟨controls, ?_, ?_⟩
        · rw [List.getElem?_append_right (by omega), List.getElem?_singleton, if_pos]
          rw [List.length_singleton] at hzero
          omega
        · rw [List.getElem_singleton]
          exact List.prefix_refl _
  case behind =>
    intro id n index hn hi
    obtain ⟨l, hl, hslot⟩ := hs.behind id n index hn hi
    exact ⟨l, hold hl, hslot⟩

/-! ## Orders and runs -/

/-- The own controls stay in front under every order that can be carried out. -/
theorem obey_guarded (hs : s.Guarded own) {t : Site α} {o : Order α} (ho : s.obey o = .ok t) :
    t.Guarded own := by
  cases o with
  | install id c =>
      obtain ⟨n, index, w, hn, hi, hw, rfl⟩ := install_eq_ok.mp ho
      rw [installed_eq]
      refine hs.impose hn hi hw ?_ (Node.groupSlot?_grouped hi _) (c := c) ?_
      · exact Node.attachment?_of_lasting (n.lasting_grouped _)
      · rw [ControlList.put_eq]
  | adopt id mode =>
      cases ho
      refine hs.rebind (Hierarchy.map_modify fun m _ => ?_)
      cases mode <;> rfl
  | refresh id =>
      cases ho
      exact hs.rebind (Hierarchy.map_modify fun _ _ => rfl)
  | activate index place =>
      cases ho
      exact hs.retouch index fun l => l.controls_select place
  | withdraw id =>
      obtain ⟨n, index, link, w, hn, hi, hl, hw, ⟨_, rfl⟩ | ⟨_, rfl⟩⟩ := withdraw_cases ho
      · refine hs.rewrite index (g := fun _ => w.controls.stop) fun v l hv _ hfront => ?_
        rw [hw] at hv
        cases hv
        exact hfront
      · have hslot : link.groupSlot = n.groupSlot? := by rw [Node.groupSlot?, hl]; rfl
        rw [pinned_eq, hslot]
        refine hs.impose hn hi hw ?_ (Node.groupSlot?_withSlot hi _)
          (c := .surfaceRate 0 (.const 1)) rfl
        exact Node.attachment?_of_lasting (n.lasting_withSlot _)
  | refuse e => cases ho

/-- And under a run, also under one that ends early. -/
theorem run_guarded (hs : s.Guarded own) (l : List (Order α)) : (s.run l).1.Guarded own := by
  induction l generalizing s with
  | nil => exact hs
  | cons o rest ih =>
      rw [run]
      cases ho : s.obey o with
      | error e => exact hs
      | ok t => exact ih (obey_guarded hs ho)

end Site

/-! ## Calls -/

/-- The call keeps the table, and a well that it attaches does not take along a slot that names one
    of the controls with which the new entry came. -/
def Call.Careful (own : List (List (Control α))) (s : Site α) (c : Call α) : Prop :=
  c.table?.isNone = true ∧ ∀ p ∈ c.attached?, (s.call c).2 = .ok () →
    ∀ n ∈ s.hierarchy.nodes[p.1]?, ∀ slot ∈ n.groupSlot?, ∀ l ∈ own[p.2]?, l.length ≤ slot

instance (own : List (List (Control α))) (s : Site α) (c : Call α) : Decidable (c.Careful own s) :=
  inferInstanceAs (Decidable (_ ∧ _))

namespace Site

/-- Every call is careful when its turn comes. -/
def Careful (own : List (List (Control α))) (s : Site α) : List (Call α) → Prop
  | [] => True
  | c :: rest => c.Careful own s ∧ (s.call c).1.Careful (own ++ c.enrolled?.toList) rest

instance decidableCareful : (own : List (List (Control α))) → (s : Site α) →
    (calls : List (Call α)) → Decidable (s.Careful own calls)
  | _, _, [] => instDecidableTrue
  | own, s, c :: rest =>
    have := decidableCareful (own ++ c.enrolled?.toList) (s.call c).1 rest
    inferInstanceAs (Decidable (c.Careful own s ∧ _))

variable {own : List (List (Control α))} {s : Site α}

/-- A well may be attached to an entry whose own controls its slot leaves alone. -/
theorem Guarded.attach (hs : s.Guarded own) {id index : Nat} {n : Node α} {w : Well α}
    (hn : s.hierarchy.node id = .ok n) (hgroup : n.isGroup = false)
    (hw : s.wells.well index = .ok w)
    (hslot : ∀ slot ∈ n.groupSlot?, ∀ l ∈ own[index]?, l.length ≤ slot) (kind : WellKind) :
    Guarded own { s with hierarchy := s.hierarchy.modify id (·.joined ⟨index, kind⟩) } := by
  obtain ⟨hattached, hsame, _⟩ := Node.joined_well hgroup ⟨index, kind⟩
  refine hs.reslot hn fun i hi => ?_
  rw [Node.tableIndex_eq_ok, hattached] at hi
  cases hi
  obtain ⟨l, hl, _⟩ := hs.front index w hw
  refine ⟨l, hl, fun slot hmem => ?_⟩
  rw [hsame] at hmem
  exact hslot slot hmem l hl

/-- The own controls stay in front under a careful call, whatever comes of it. -/
theorem call_guarded (hs : s.Guarded own) {c : Call α} (hc : c.Careful own s) :
    (s.call c).1.Guarded (own ++ c.enrolled?.toList) := by
  have hnew : ∀ {n : Node α}, c.newNode? = some n → n.attachment? = none →
      (s.call c).1.Guarded own := by
    intro n hn hattach
    rcases call_newNode (s := s) hn with ⟨e, he⟩ | ⟨_, hok⟩
    · rw [he]
      exact hs
    · rw [hok]
      exact hs.concat hattach
  have hrun : c.operates = true → (s.call c).1.Guarded own := by
    intro hop
    obtain ⟨l, hl⟩ := s.call_eq_run hop
    rw [hl]
    exact run_guarded hs l
  have hsame : ∀ c : Call α, c.enrolled? = none → own ++ c.enrolled?.toList = own := by
    intro c hnone
    rw [hnone]
    exact List.append_nil _
  cases c with
  | enrol name kind controls => exact hs.enrol name kind controls
  | addGroup name parent efficiency specs =>
      rw [hsame _ rfl]
      exact hnew rfl rfl
  | addWell name parent efficiency specs =>
      rw [hsame _ rfl]
      exact hnew rfl rfl
  | attach id index =>
      rw [hsame _ rfl]
      obtain ⟨_, hbehind⟩ := hc
      replace hbehind := hbehind (id, index) rfl
      rw [call] at hbehind ⊢
      rcases s.hierarchy.attach_cases id index s.wells with ⟨e, he⟩ | ⟨n, w, hn, hgroup, hw, hok⟩
      · rw [he]
        exact hs
      · rw [hok] at hbehind ⊢
        exact hs.attach hn hgroup hw (hbehind rfl n (Hierarchy.node_eq_ok.mp hn)) w.kind
  | edit id e =>
      rw [hsame _ rfl, call]
      rcases s.hierarchy.edit_cases id e with ⟨e', he⟩ | hok
      · rw [he]
        exact hs
      · rw [hok]
        exact hs.rebind (Hierarchy.map_modify fun m _ => m.binding_edit e)
  | select index place =>
      rw [hsame _ rfl]
      exact hs.retouch index fun l => l.controls_select place
  | stop index =>
      rw [hsame _ rfl]
      exact hs.retouch index fun _ => rfl
  | reopen index =>
      rw [hsame _ rfl]
      exact hs.retouch index fun _ => rfl
  | useTable wells => cases hc.1
  | ask id q =>
      rw [hsame _ rfl]
      exact hs
  | _ =>
      rw [hsame _ rfl]
      exact hrun rfl

/-- And under a list of careful calls. -/
theorem serve_guarded (hs : s.Guarded own) {calls : List (Call α)} (hc : s.Careful own calls) :
    (s.serve calls).Guarded (own ++ calls.filterMap Call.enrolled?) := by
  induction calls generalizing s own with
  | nil =>
      rw [List.filterMap_nil, List.append_nil]
      exact hs
  | cons c rest ih =>
      have hstep := ih (call_guarded hs hc.1) hc.2
      rw [filterMap_cons_toList, ← List.append_assoc]
      exact hstep

theorem guarded_vacant (phases : ActivePhases) : (vacant phases : Site α).Guarded [] where
  length := rfl
  front index w hw := by cases hw
  behind id n index hn := by cases hn

/-- When a well that has a slot is attached to another entry, the own controls of that entry are safe
    from every group control exactly when the slot lies behind them. -/
theorem Guarded.attach_safe_iff (hs : s.Guarded own) {id index slot : Nat} {n : Node α}
    {l : List (Control α)} (hn : s.hierarchy.node id = .ok n) (hslot : n.groupSlot? = some slot)
    (hl : own[index]? = some l) (hok : (s.call (.attach id index)).2 = .ok ()) :
    (∀ c t, (s.call (.attach id index)).1.install id c = .ok t →
        ∀ w, t.wells.well index = .ok w → l <+: w.controls.controls) ↔ l.length ≤ slot := by
  rw [call] at hok ⊢
  rcases s.hierarchy.attach_cases id index s.wells with ⟨e, he⟩ | ⟨m, w, hm, hgroup, hw, hattach⟩
  · rw [he] at hok
    cases hok
  rw [hattach]
  rw [hn] at hm
  cases hm
  obtain ⟨hattached, hsame, _⟩ := Node.joined_well hgroup ⟨index, w.kind⟩
  constructor
  · intro hsafe
    obtain ⟨l', hl', hfront⟩ := hs.front index w hw
    rw [hl] at hl'
    cases hl'
    by_contra hlt
    obtain ⟨c, hc⟩ := ControlList.exists_not_prefix_impose hfront (Nat.lt_of_not_le hlt)
    refine hc ?_
    have hnode := Hierarchy.node_modify_self hn (·.joined ⟨index, w.kind⟩)
    have hindex : (n.joined ⟨index, w.kind⟩).tableIndex = .ok index := by
      rw [Node.tableIndex_eq_ok, hattached]
      rfl
    have hafter := hsafe c _ (install_eq_ok.mpr ⟨_, index, w, hnode, hindex, hw, rfl⟩) _
      (WellTable.well_setControls_self hw _)
    rw [ControlList.controls_select, hsame, hslot] at hafter
    exact hafter
  · intro hle c t ht v hv
    have hguarded := hs.attach hn hgroup hw (fun q hq k hk => by
      rw [hslot] at hq
      rw [hl] at hk
      cases hq
      cases hk
      exact hle) w.kind
    obtain ⟨l', hl', hfront⟩ := (obey_guarded (o := .install id c) hguarded ht).front index v hv
    rw [hl] at hl'
    cases hl'
    exact hfront

/-- In every site that careful calls lead to: the controls with which an entry came into the table
    stand in front of its list, and the slot of every well that is attached to it lies behind them.
    And whenever a well with a slot is attached to another entry, the call has to be careful: the
    controls of that entry are safe from every group control in no other case. -/
theorem serve_keeps_own {phases : ActivePhases} {calls : List (Call α)}
    (h : (vacant phases).Careful [] calls) :
    let own := calls.filterMap Call.enrolled?
    let s := (vacant phases).serve calls
    (∀ index w, s.wells.well index = .ok w →
      ∃ l, own[index]? = some l ∧ l <+: w.controls.controls) ∧
    (∀ id n index, s.hierarchy.node id = .ok n → n.tableIndex = .ok index →
      ∃ l, own[index]? = some l ∧ ∀ slot ∈ n.groupSlot?, l.length ≤ slot) ∧
    ∀ id n slot index l, s.hierarchy.node id = .ok n → n.groupSlot? = some slot →
      own[index]? = some l → (s.call (.attach id index)).2 = .ok () →
        ((∀ c t, (s.call (.attach id index)).1.install id c = .ok t →
            ∀ w, t.wells.well index = .ok w → l <+: w.controls.controls) ↔ l.length ≤ slot) := by
  intro own s
  have hs : s.Guarded own := serve_guarded (guarded_vacant phases) h
  exact ⟨hs.front, hs.behind, fun _ _ _ _ _ => hs.attach_safe_iff⟩

/-- A producer takes a group control, is attached to another entry, and takes a second one. -/
def movedCalls (first second : List (Control ℚ)) : List (Call ℚ) := [
  .enrol "P1" .producer first,
  .enrol "P2" .producer second,
  .addGroup "FIELD" none .one (.producer { ProductionSpec.default with mode := .orat }),
  .addWell "P1" (some 0) .one (.producer .default),
  .attach 1 0,
  .push 0 (.production .orat) 60 false,
  .attach 1 1,
  .push 0 (.production .orat) 60 false]

/-- A well may move from an entry with two controls to one with a single control. -/
theorem serve_keeps_own_movedCalls :
    let calls := movedCalls [.bhp 100, .surfaceRate (-7) ⟨0, 1, 0⟩] [.bhp 80]
    let s := (vacant ⟨true, true, false⟩).serve calls
    (vacant ⟨true, true, false⟩).Careful [] calls ∧
      (∀ index w, s.wells.well index = .ok w →
        ∃ l, [[.bhp 100, .surfaceRate (-7) ⟨0, 1, 0⟩], [.bhp 80]][index]? = some l ∧
          l <+: w.controls.controls) ∧
      s.wells.map (·.controls.controls) =
        [[.bhp 100, .surfaceRate (-7) ⟨0, 1, 0⟩, .surfaceRate (-60) ⟨0, 1, 0⟩],
          [.bhp 80, .surfaceRate (-60) ⟨0, 1, 0⟩]] := by
  have hcareful : (vacant ⟨true, true, false⟩).Careful []
      (movedCalls [.bhp 100, .surfaceRate (-7) ⟨0, 1, 0⟩] [.bhp 80]) := by decide +kernel
  exact ⟨hcareful, (serve_keeps_own hcareful).1, by decide +kernel⟩

/-- The other way round the second group control takes the place of a control of the entry, although
    no two wells are ever attached to the same entry. -/
theorem not_forall_serve_keeps_own :
    ¬ ∀ (phases : ActivePhases) (calls : List (Call ℚ)),
      (∀ c ∈ calls, c.table?.isNone = true) →
      (∀ front ∈ calls.inits, ((vacant phases).serve front).hierarchy.entries.Nodup) →
      ∀ l ∈ (calls.filterMap Call.enrolled?).zip ((vacant phases).serve calls).wells,
        l.1 <+: l.2.controls.controls := by
  intro hall
  have hkept := hall ⟨true, true, false⟩
    (movedCalls [.bhp 100] [.bhp 80, .surfaceRate (-7) ⟨0, 1, 0⟩, .surfaceRate (-9) ⟨1, 0, 0⟩])
    (by decide) (by decide +kernel)
  exact absurd hkept (by decide +kernel)

end Site

end ReservoirWells
