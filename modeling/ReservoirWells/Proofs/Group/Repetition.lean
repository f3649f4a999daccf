import Mathlib.Data.List.Forall2
import Mathlib.Data.List.Induction
import ReservoirWells.Proofs.Exact
import ReservoirWells.Proofs.Group.Placement
import ReservoirWells.Proofs.Group.Push

/-! # Repetition — the last push wins

    A push reads guide rates, efficiency factors, kinds and which groups are controlled, and none of
    these is changed by a push.  So a push after another one of the same direction has orders about
    the same nodes as the first, one by one (`Order.Twins`), and it remains to see that orders are
    forgotten when their twins come later:

    * `Site.obey_twin` — an order is forgotten when its twin comes next;
    * `Site.obey_between` — and also when orders come in between whose group controls have their
      places already;
    * `Site.run_twins` — hence a run is forgotten when the run of its twins comes next;
    * `Site.pushTarget_again` — so the second push alone decides, and repeating a push changes
      nothing. -/

namespace ReservoirWells

variable {α : Type} [Scalar α]

/-! ## Two changes of one thing -/

namespace Node

theorem grouped_grouped (n : Node α) (p q : Nat) : (n.grouped p).grouped q = n.grouped q := by
  cases hr : n.role with
  | group => simp [grouped, withSlot, modifyLink, hr]
  | well link => simp [grouped, withSlot, modifyLink, hr]

theorem adopt_grouped (n : Node α) (mode : Mode) (p : Nat) :
    (n.grouped p).adopt mode = (n.adopt mode).grouped p := by
  cases hr : n.role with
  | group => simp [grouped, withSlot, modifyLink, adopt, hr]
  | well link => simp [grouped, withSlot, modifyLink, adopt, hr]

theorem adopt_adopt (n : Node α) (mode : Mode) : (n.adopt mode).adopt mode = n.adopt mode := by
  cases mode <;> rfl

end Node

namespace Hierarchy

theorem modify_modify (h : Hierarchy α) (id : Nat) (f g : Node α → Node α) :
    (h.modify id f).modify id g = h.modify id (g ∘ f) :=
  congrArg (Hierarchy.mk h.phases) (List.modify_modify_eq f g id h.nodes)

theorem modify_comm (h : Hierarchy α) {i j : Nat} (hne : i ≠ j) (f g : Node α → Node α) :
    (h.modify i f).modify j g = (h.modify j g).modify i f :=
  congrArg (Hierarchy.mk h.phases) (List.modify_modify_ne f g h.nodes hne)

/-- A change that absorbs another one need not wait for it. -/
theorem modify_absorb (h : Hierarchy α) (id : Nat) {f g : Node α → Node α}
    (hfg : ∀ n, g (f n) = g n) : (h.modify id f).modify id g = h.modify id g := by
  rw [modify_modify, show g ∘ f = g from funext hfg]

/-- A change that absorbs itself may be made on both sides of a change of another node. -/
theorem modify_between (h : Hierarchy α) {i j : Nat} (hne : i ≠ j) (f : Node α → Node α)
    {g : Node α → Node α} (hg : ∀ n, g (g n) = g n) :
    ((h.modify j g).modify i f).modify j g = (h.modify i f).modify j g := by
  rw [h.modify_comm (Ne.symm hne), modify_absorb _ _ hg]

/-- Changes that may be exchanged at one node may be exchanged at any two. -/
theorem modify_swap (h : Hierarchy α) (i j : Nat) {f g : Node α → Node α}
    (hfg : ∀ n, g (f n) = f (g n)) :
    (h.modify i f).modify j g = (h.modify j g).modify i f := by
  by_cases hne : i = j
  · rw [hne, modify_modify, modify_modify, show g ∘ f = f ∘ g from funext hfg]
  · exact h.modify_comm hne f g

end Hierarchy

namespace WellTable

variable {β : Type}

theorem setControls_setControls (t : WellTable β) (index : Nat) (l l' : ControlList β) :
    (t.setControls index l).setControls index l' = t.setControls index l' :=
  List.modify_modify_eq _ _ index t

theorem setControls_comm (t : WellTable β) {i j : Nat} (hne : i ≠ j) (l l' : ControlList β) :
    (t.setControls i l).setControls j l' = (t.setControls j l').setControls i l :=
  List.modify_modify_ne _ _ t hne

theorem well_setControls_of_ne (t : WellTable β) {i j : Nat} (hne : i ≠ j) (l : ControlList β) :
    (t.setControls i l).well j = t.well j :=
  t.well_modify_of_ne hne _

end WellTable

/-! ## Controls that are put one after the other -/

namespace Site

section Install

variable {s t : Site α}

/-- What a well and its entry are after a group control was installed. -/
theorem lookup_of_install {id : Nat} {c : Control α} (h : s.install id c = .ok t) :
    ∃ n index w, s.hierarchy.node id = .ok n ∧ n.tableIndex = .ok index ∧
      s.wells.well index = .ok w ∧ t = s.installed id n index w c ∧
      t.hierarchy.node id = .ok (n.grouped (w.controls.place n.groupSlot?)) ∧
      t.wells.well index = .ok { w with controls := w.controls.put n.groupSlot? c } := by
  obtain ⟨n, index, w, hn, hi, hw, rfl⟩ := install_eq_ok.mp h
  refine ⟨n, index, w, hn, hi, hw, rfl, ?_, ?_⟩
  · rw [installed_eq]
    exact Hierarchy.node_modify_self hn _
  · rw [installed_eq]
    exact WellTable.well_setControls_self hw _

/-- A group control that is installed next takes the place of the one before. -/
theorem install_again {id : Nat} {c : Control α} (h : s.install id c = .ok t) (d : Control α) :
    t.install id d = s.install id d := by
  obtain ⟨n, index, w, hn, hi, hw, rfl, hn', hw'⟩ := lookup_of_install h
  have hi' : (n.grouped (w.controls.place n.groupSlot?)).tableIndex = .ok index :=
    (Node.tableIndex_of_lasting (n.lasting_grouped _)).trans hi
  rw [install_eq_ok.mpr ⟨_, index, _, hn', hi', hw', rfl⟩,
    install_eq_ok.mpr ⟨n, index, w, hn, hi, hw, rfl⟩]
  simp only [installed_eq, Node.groupSlot?_grouped hi, ControlList.place_put, ControlList.put_put,
    WellTable.setControls_setControls]
  rw [Hierarchy.modify_absorb _ _ fun m => m.grouped_grouped _ _]

theorem node_installed_of_ne (s : Site α) {i j : Nat} (hne : i ≠ j) (n : Node α) (index : Nat)
    (w : Well α) (c : Control α) :
    (s.installed i n index w c).hierarchy.node j = s.hierarchy.node j :=
  s.hierarchy.node_modify_of_ne hne _

theorem well_installed_of_ne (s : Site α) (i : Nat) (n : Node α) {index j : Nat}
    (hne : index ≠ j) (w : Well α) (c : Control α) :
    (s.installed i n index w c).wells.well j = s.wells.well j :=
  s.wells.well_setControls_of_ne hne _

/-- The group control of the well has a place in the list of its entry. -/
def HasSlot (s : Site α) (id : Nat) : Prop :=
  ∃ n index slot w, s.hierarchy.node id = .ok n ∧ n.tableIndex = .ok index ∧
    n.groupSlot? = some slot ∧ s.wells.well index = .ok w ∧ slot < w.controls.controls.length

theorem hasSlot_of_install {id : Nat} {c : Control α} (h : s.install id c = .ok t) :
    t.HasSlot id := by
  obtain ⟨n, index, w, hn, hi, hw, _, hn', hw'⟩ := lookup_of_install h
  exact ⟨_, index, w.controls.place n.groupSlot?, _, hn',
    (Node.tableIndex_of_lasting (n.lasting_grouped _)).trans hi, Node.groupSlot?_grouped hi _, hw',
    w.controls.place_lt_length_put _ c⟩

/-- A group control keeps its place when another one is installed. -/
theorem HasSlot.of_install {i j : Nat} {c : Control α} (h : s.install i c = .ok t)
    (hslot : s.HasSlot j) : t.HasSlot j := by
  by_cases hij : i = j
  · rw [← hij]
    exact hasSlot_of_install h
  · obtain ⟨n, index, slot, w, hn, hi, hs, hw, hlt⟩ := hslot
    obtain ⟨m, x, v, hm, hx, hv, rfl, _, hv'⟩ := lookup_of_install h
    have hn' : (s.installed i m x v c).hierarchy.node j = .ok n :=
      (s.node_installed_of_ne hij m x v c).trans hn
    by_cases hindex : x = index
    · -- the two wells share an entry, whose list has not become shorter
      subst hindex
      rw [hv] at hw
      cases hw
      refine ⟨n, x, slot, _, hn', hi, hs, hv', ?_⟩
      rw [ControlList.length_put]
      omega
    · refine ⟨n, index, slot, w, hn', hi, hs, ?_, hlt⟩
      rw [installed_eq]
      exact (s.wells.well_setControls_of_ne hindex _).trans hw

section Between

variable {i j x y slot : Nat} {n m : Node α} {w z : Well α} {c d : Control α}

/-- Two wells that share an entry: the last control in a place of its list remains. -/
theorem install_between_shared (hij : i ≠ j) (hs : n.groupSlot? = some slot) (hw : s.wells.well x = .ok w)
    (hlt : slot < w.controls.controls.length)
    (hm : s.hierarchy.node j = .ok m) (hx : m.tableIndex = .ok x) :
    (s.installed i n x w d).install j c
      = ((s.installed j m x w c).installed i n x
          { w with controls := w.controls.put m.groupSlot? c } d).install j c := by
  have hmt := (s.node_installed_of_ne hij n x w d).trans hm
  have hwt := WellTable.well_setControls_self hw (w.controls.put n.groupSlot? d)
  have hmu : (s.installed j m x w c).hierarchy.node j
      = .ok (m.grouped (w.controls.place m.groupSlot?)) := by
    rw [installed_eq]
    exact Hierarchy.node_modify_self hm _
  have hwu := WellTable.well_setControls_self hw (w.controls.put m.groupSlot? c)
  have hmv := ((s.installed j m x w c).node_installed_of_ne hij n x
    { w with controls := w.controls.put m.groupSlot? c } d).trans hmu
  have hwv := WellTable.well_setControls_self hwu
    ((w.controls.put m.groupSlot? c).put n.groupSlot? d)
  have hgrouped : (m.grouped (w.controls.place m.groupSlot?)).tableIndex = .ok x :=
    (Node.tableIndex_of_lasting (m.lasting_grouped _)).trans hx
  rw [install_eq_ok.mpr ⟨m, x, _, hmt, hx, hwt, rfl⟩,
    install_eq_ok.mpr ⟨_, x, _, hmv, hgrouped, hwv, rfl⟩]
  -- the list only grows, so the first control finds its place again behind the second one
  have hplace : (w.controls.put m.groupSlot? c).place (some slot) = slot :=
    ControlList.place_of_lt (by rw [ControlList.length_put]; omega)
  simp only [installed_eq, hs, Node.groupSlot?_grouped hx, WellTable.setControls_setControls,
    ControlList.place_put_of_lt hlt, ControlList.place_of_lt hlt, hplace,
    ControlList.put_between hlt d m.groupSlot? c, ControlList.place_put_put]
  rw [Hierarchy.modify_between _ hij _ fun k => k.grouped_grouped _ _]

/-- Two wells with entries of their own: neither order is in the way of the other. -/
theorem install_between_apart (hij : i ≠ j) (hxy : x ≠ y) (hm : s.hierarchy.node j = .ok m)
    (hy : m.tableIndex = .ok y) (hz : s.wells.well y = .ok z) :
    (s.installed i n x w d).install j c
      = ((s.installed j m y z c).installed i n x w d).install j c := by
  have hmt := (s.node_installed_of_ne hij n x w d).trans hm
  have hzt := (s.well_installed_of_ne i n hxy w d).trans hz
  have hmu : (s.installed j m y z c).hierarchy.node j
      = .ok (m.grouped (z.controls.place m.groupSlot?)) := by
    rw [installed_eq]
    exact Hierarchy.node_modify_self hm _
  have hzu := WellTable.well_setControls_self hz (z.controls.put m.groupSlot? c)
  have hmv := ((s.installed j m y z c).node_installed_of_ne hij n x w d).trans hmu
  have hzv := ((s.installed j m y z c).well_installed_of_ne i n hxy w d).trans hzu
  have hgrouped : (m.grouped (z.controls.place m.groupSlot?)).tableIndex = .ok y :=
    (Node.tableIndex_of_lasting (m.lasting_grouped _)).trans hy
  rw [install_eq_ok.mpr ⟨m, y, z, hmt, hy, hzt, rfl⟩,
    install_eq_ok.mpr ⟨_, y, _, hmv, hgrouped, hzv, rfl⟩]
  simp only [installed_eq, Node.groupSlot?_grouped hy, ControlList.place_put, ControlList.put_put]
  rw [Hierarchy.modify_between _ hij _ fun k => k.grouped_grouped _ _,
    WellTable.setControls_comm _ (Ne.symm hxy), WellTable.setControls_setControls]

end Between

/-- A group control that is installed after another one, which has its place already, may be
    installed on both sides of the other one. -/
theorem install_between {u v : Site α} {i j : Nat} {c d : Control α} (hslot : s.HasSlot i)
    (hi : s.install i d = .ok t) (hj : s.install j c = .ok u) (hv : u.install i d = .ok v) :
    t.install j c = v.install j c := by
  by_cases hij : i = j
  · subst hij
    rw [install_again hi, install_again hv, install_again hj]
  · obtain ⟨n, x, slot, w, hn, hx, hs, hw, hlt⟩ := hslot
    obtain ⟨m, y, z, hm, hy, hz, rfl, _, hzu⟩ := lookup_of_install hj
    -- nothing keeps two wells from sharing an entry, so its list may be written by both
    have hnu := (s.node_installed_of_ne (Ne.symm hij) m y z c).trans hn
    rw [install_eq_ok.mpr ⟨n, x, w, hn, hx, hw, rfl⟩] at hi
    cases hi
    by_cases hxy : x = y
    · subst hxy
      rw [hw] at hz
      cases hz
      rw [install_eq_ok.mpr ⟨n, x, _, hnu, hx, hzu, rfl⟩] at hv
      cases hv
      exact install_between_shared hij hs hw hlt hm hy
    · have hwu := (s.well_installed_of_ne j m (Ne.symm hxy) z c).trans hw
      rw [install_eq_ok.mpr ⟨n, x, w, hnu, hx, hwu, rfl⟩] at hv
      cases hv
      exact install_between_apart hij hxy hm hy hz

end Install

end Site

/-! ## Orders of a push -/

/-- The order could be part of a push in a direction. -/
def Order.Pushes (d : Direction) : Order α → Prop
  | .install _ _ => True
  | .adopt _ mode => mode = d.following
  | _ => False

/-- The order could be part of a push in a direction, and its group control has a place already. -/
def Order.Settled (d : Direction) (s : Site α) : Order α → Prop
  | .install id _ => s.HasSlot id
  | .adopt _ mode => mode = d.following
  | _ => False

/-- Two orders about the same node by which pushes of one direction differ at most: they install two
    controls, or both let a group follow, or one of them is refused. -/
inductive Order.Twins (d : Direction) : Order α → Order α → Prop
  | install (id : Nat) (c c' : Control α) : Twins d (.install id c) (.install id c')
  | adopt (id : Nat) : Twins d (.adopt id d.following) (.adopt id d.following)
  | refusedFirst (e : GroupError) (o : Order α) : Twins d (.refuse e) o
  | refusedSecond (o : Order α) (e : GroupError) : Twins d o (.refuse e)

namespace Site

theorem adopted_swap (s : Site α) (i j : Nat) (mode : Mode) :
    (s.adopted i mode).adopted j mode = (s.adopted j mode).adopted i mode := by
  show Site.mk _ _ = Site.mk _ _
  rw [adopted, adopted, s.hierarchy.modify_swap i j fun n => rfl]

/-- Taking a mode and taking a group control do not get in each other's way. -/
theorem install_adopted {s t : Site α} {i : Nat} {c : Control α} (h : s.install i c = .ok t)
    (j : Nat) (mode : Mode) : (s.adopted j mode).install i c = .ok (t.adopted j mode) := by
  obtain ⟨n, index, w, hn, hi, hw, rfl⟩ := install_eq_ok.mp h
  have hswap : ∀ slot, (s.hierarchy.modify j (·.adopt mode)).modify i (·.grouped slot)
      = (s.hierarchy.modify i (·.grouped slot)).modify j (·.adopt mode) := by
    intro slot
    exact s.hierarchy.modify_swap j i fun n => (n.adopt_grouped mode slot).symm
  by_cases hij : j = i
  · subst hij
    refine install_eq_ok.mpr ⟨n.adopt mode, index, w, Hierarchy.node_modify_self hn _, hi, hw, ?_⟩
    rw [installed_eq, installed_eq]
    show Site.mk _ _ = Site.mk _ _
    exact congrArg (Site.mk · _) (hswap _).symm
  · refine install_eq_ok.mpr ⟨n, index, w, (s.hierarchy.node_modify_of_ne hij _).trans hn, hi, hw, ?_⟩
    rw [installed_eq, installed_eq]
    show Site.mk _ _ = Site.mk _ _
    exact congrArg (Site.mk · _) (hswap _).symm

theorem HasSlot.of_adopted {s : Site α} {i : Nat} (h : s.HasSlot i) (j : Nat) (mode : Mode) :
    (s.adopted j mode).HasSlot i := by
  obtain ⟨n, index, slot, w, hn, hi, hs, hw, hlt⟩ := h
  by_cases hij : j = i
  · subst hij
    exact ⟨n.adopt mode, index, slot, w, Hierarchy.node_modify_self hn _, hi, hs, hw, hlt⟩
  · exact ⟨n, index, slot, w, (s.hierarchy.node_modify_of_ne hij _).trans hn, hi, hs, hw, hlt⟩

section Twins

variable {d : Direction} {s t u v : Site α} {a b o : Order α}

/-- An order is forgotten when its twin comes next. -/
theorem obey_twin (htwin : a.Twins d b) (ha : s.obey a = .ok t) (hb : s.CanObey b) :
    t.obey b = s.obey b := by
  cases htwin with
  | install id c c' => exact install_again ha c'
  | adopt id =>
      cases ha
      show Except.ok (Site.mk _ _) = Except.ok (Site.mk _ _)
      rw [Hierarchy.modify_absorb _ _ fun n => n.adopt_adopt d.following]
  | refusedFirst e => cases ha
  | refusedSecond _ e => exact False.elim hb

/-- The twin of an order that was carried out is settled. -/
theorem settled_of_twin (htwin : a.Twins d b) (ha : s.obey a = .ok t) (hb : s.CanObey b) :
    b.Settled d t := by
  cases htwin with
  | install id c c' => exact hasSlot_of_install ha
  | adopt id => rfl
  | refusedFirst e => cases ha
  | refusedSecond _ e => exact False.elim hb

theorem pushes_of_twins (htwin : a.Twins d b) (ha : s.CanObey a) (hb : s.CanObey b) :
    a.Pushes d ∧ b.Pushes d := by
  cases htwin with
  | install id c c' => exact ⟨True.intro, True.intro⟩
  | adopt id => exact ⟨rfl, rfl⟩
  | refusedFirst e => exact False.elim ha
  | refusedSecond _ e => exact False.elim hb

theorem pushes_of_settled (ho : o.Settled d s) : o.Pushes d := by
  cases o with
  | install id c => exact True.intro
  | adopt id mode => exact ho
  | _ => exact False.elim ho

theorem canObey_of_settled (ho : o.Settled d s) : s.CanObey o := by
  cases o with
  | install id c =>
      obtain ⟨n, index, _, w, hn, hi, _, hw, _⟩ := ho
      exact ⟨index, ⟨n, hn, hi⟩, WellTable.lt_length_of_well hw⟩
  | adopt id mode => exact True.intro
  | _ => exact False.elim ho

/-- What is settled stays settled in a push. -/
theorem settled_of_obey (ho : o.Settled d s) (ha : a.Pushes d) (hobey : s.obey a = .ok t) :
    o.Settled d t := by
  cases o with
  | install i c =>
      cases a with
      | install j c' => exact HasSlot.of_install hobey ho
      | adopt j mode =>
          cases hobey
          exact HasSlot.of_adopted ho j mode
      | _ => exact False.elim ha
  | adopt i mode => exact ho
  | _ => exact False.elim ho

/-- Sites that an order makes equal are still made equal by it after an order that is settled. -/
theorem obey_between {u' v' w : Site α} (hu : o.Settled d u) (hv : o.Settled d v)
    (hb : b.Pushes d) (hou : u.obey o = .ok u') (hov : v.obey o = .ok v')
    (hbu : u.obey b = .ok w) (hbv : v.obey b = .ok w) : u'.obey b = v'.obey b := by
  -- `o` could be carried out once more at `w`, which is the same site from both sides
  have hbo : w.CanObey o := (obey_canObey hbu o).mpr (canObey_of_settled hu)
  obtain ⟨x, hx⟩ := obey_ok hbo
  cases o with
  | install i c =>
      cases b with
      | install j c' => exact (install_between hu hou hbu hx).trans (install_between hv hov hbv hx).symm
      | adopt j mode =>
          cases hbu
          have huv : u.adopted j mode = v.adopted j mode := (Except.ok.inj hbv).symm
          have hu' := install_adopted hou j mode
          have hv' := install_adopted hov j mode
          rw [huv, hv'] at hu'
          exact hu'.symm
      | _ => exact False.elim hb
  | adopt i mode =>
      cases hou
      cases hov
      cases b with
      | install j c' =>
          exact (install_adopted hbu i mode).trans (install_adopted hbv i mode).symm
      | adopt j mode' =>
          have hmode : mode' = mode := Eq.trans hb (Eq.symm hu)
          subst hmode
          have huv : u.adopted j mode' = v.adopted j mode' :=
            (Except.ok.inj hbu).trans (Except.ok.inj hbv).symm
          show Except.ok ((u.adopted i mode').adopted j mode')
            = Except.ok ((v.adopted i mode').adopted j mode')
          rw [adopted_swap, huv, adopted_swap]
      | _ => exact False.elim hb
  | _ => exact False.elim hu

/-- Sites that an order makes equal are made equal by settled orders with this order after them. -/
theorem run_concat_congr {l : List (Order α)} (hb : b.Pushes d) :
    ∀ {u v w : Site α}, (∀ o ∈ l, o.Settled d u ∧ o.Settled d v) → u.obey b = .ok w →
      v.obey b = .ok w → u.run (l ++ [b]) = v.run (l ++ [b]) := by
  induction l with
  | nil =>
      intro u v w _ hbu hbv
      rw [List.nil_append, run, run, hbu, hbv]
  | cons o rest ih =>
      intro u v w hl hbu hbv
      obtain ⟨hu, hv⟩ := hl o (List.mem_cons_self ..)
      obtain ⟨u', hou⟩ := obey_ok (canObey_of_settled hu)
      obtain ⟨v', hov⟩ := obey_ok (canObey_of_settled hv)
      obtain ⟨w', hbu'⟩ := obey_ok ((obey_canObey hou b).mpr (canObey_of_obey hbu))
      have hbv' := (obey_between hu hv hb hou hov hbu hbv).symm.trans hbu'
      rw [List.cons_append, run, run, hou, hov]
      refine ih (fun o' ho' => ?_) hbu' hbv'
      obtain ⟨hu', hv'⟩ := hl o' (List.mem_cons_of_mem o ho')
      exact ⟨settled_of_obey hu' (pushes_of_settled hu) hou,
        settled_of_obey hv' (pushes_of_settled hv) hov⟩

/-- A run of orders is forgotten when the run of their twins comes next. The twins are settled after
    the first run. -/
theorem run_pairs (pairs : List (Order α × Order α))
    (hpairs : ∀ p ∈ pairs, p.1.Twins d p.2 ∧ s.CanObey p.1 ∧ s.CanObey p.2) :
    (∀ p ∈ pairs, p.2.Settled d (s.run (pairs.map (·.1))).1) ∧
      (s.run (pairs.map (·.1))).1.run (pairs.map (·.2)) = s.run (pairs.map (·.2)) := by
  -- by induction from the right: the last twin forgets the last order, and the settled twins in
  -- between do not hinder it
  induction pairs using List.reverseRecOn with
  | nil => exact ⟨fun p hp => absurd hp List.not_mem_nil, rfl⟩
  | append_singleton front p ih =>
      obtain ⟨a, b⟩ := p
      have hfront : ∀ p ∈ front, _ := fun p hp => hpairs p (List.mem_append.mpr (Or.inl hp))
      obtain ⟨htwin, hcana, hcanb⟩ := hpairs (a, b) (List.mem_append.mpr (Or.inr
        (List.mem_singleton.mpr rfl)))
      obtain ⟨hsettled, hforgotten⟩ := ih hfront
      have hok : (s.run (front.map (·.1))).2 = .ok () := by
        refine run_ok_iff.mpr fun o ho => ?_
        obtain ⟨p, hp, rfl⟩ := List.mem_map.mp ho
        exact (hfront p hp).2.1
      have hcanb' := (s.run_canObey (front.map (·.1)) b).mpr hcanb
      obtain ⟨t, ht⟩ := obey_ok ((s.run_canObey (front.map (·.1)) a).mpr hcana)
      rw [List.map_append, List.map_append, run_append]
      generalize s.run (front.map (·.1)) = done at hsettled hforgotten hok hcanb' ht ⊢
      obtain ⟨u, _ | ⟨⟩⟩ := done
      · cases hok
      have hlast : u.run [a] = (t, .ok ()) := by
        rw [run, ht]
        rfl
      simp only [List.map_cons, List.map_nil, hlast]
      obtain ⟨hpusha, hpushb⟩ := pushes_of_twins htwin hcana hcanb
      have hkept : ∀ p ∈ front, p.2.Settled d t := fun p hp =>
        settled_of_obey (hsettled p hp) hpusha ht
      have htwinb := settled_of_twin htwin ht hcanb'
      constructor
      · intro p hp
        rcases List.mem_append.mp hp with hin | heq
        · exact hkept p hin
        · rw [List.mem_singleton.mp heq]
          exact htwinb
      · obtain ⟨w, hw⟩ := obey_ok hcanb'
        have hw' : t.obey b = .ok w := (obey_twin htwin ht hcanb').trans hw
        have hboth : ∀ o ∈ front.map (·.2), o.Settled d t ∧ o.Settled d u := by
          intro o ho
          obtain ⟨p, hp, rfl⟩ := List.mem_map.mp ho
          exact ⟨hkept p hp, hsettled p hp⟩
        calc t.run (front.map (·.2) ++ [b])
            = u.run (front.map (·.2) ++ [b]) := run_concat_congr hpushb hboth hw' hw
          _ = s.run (front.map (·.2) ++ [b]) := by rw [run_append, hforgotten, ← run_append]

/-- A run of orders is forgotten when the run of their twins comes next. -/
theorem run_twins {l l' : List (Order α)} (htwins : List.Forall₂ (Order.Twins d) l l')
    (hl : (s.run l).2 = .ok ()) (hl' : ((s.run l).1.run l').2 = .ok ()) :
    (s.run l).1.run l' = s.run l' := by
  obtain ⟨hlen, hzip⟩ := List.forall₂_iff_zip.mp htwins
  have hfst : (l.zip l').map (·.1) = l := List.map_fst_zip (Nat.le_of_eq hlen)
  have hsnd : (l.zip l').map (·.2) = l' := List.map_snd_zip (Nat.le_of_eq hlen.symm)
  have hpairs : ∀ p ∈ l.zip l', p.1.Twins d p.2 ∧ s.CanObey p.1 ∧ s.CanObey p.2 := by
    rintro ⟨o, o'⟩ hp
    obtain ⟨ho, ho'⟩ := List.of_mem_zip hp
    exact ⟨hzip hp, run_ok_iff.mp hl o ho, (s.run_canObey l o').mp (run_ok_iff.mp hl' o' ho')⟩
  have hrun := (run_pairs (l.zip l') hpairs).2
  rw [hfst, hsnd] at hrun
  exact hrun

end Twins

end Site

/-! ## What a push reads -/

/-- What a push in a direction reads of a node: what lasts of it, and whether it is controlled. -/
def Node.seen (d : Direction) (n : Node α) : Node α :=
  n.lasting.adopt (if n.specs.mode d = d.uncontrolled then d.uncontrolled else d.following)

theorem Node.seen_isGroup (d : Direction) (n : Node α) : (n.seen d).isGroup = n.isGroup :=
  n.lasting_isGroup

/-- A group that is controlled looks the same once it follows. -/
theorem Node.seen_adopt {d : Direction} {n : Node α} (h : n.specs.mode d ≠ d.uncontrolled) :
    (n.adopt d.following).seen d = n.seen d := by
  have hfollows : (n.adopt d.following).specs.mode d ≠ d.uncontrolled := by
    cases d with
    | production => exact (by decide : Mode.production .fld ≠ .production .none)
    | injection => exact (by decide : Mode.injection .fld ≠ .injection .none)
  rw [seen, seen, if_neg h, if_neg hfollows, n.lasting_adopt]

/-- A node that lasts, with its mode in a direction, is seen as it was. -/
theorem Node.seen_of_lasting {d : Direction} {n m : Node α} (h : n.lasting = m.lasting)
    (hmode : n.specs.mode d = m.specs.mode d) : n.seen d = m.seen d := by
  rw [seen, seen, h, hmode]

theorem Node.seen_declines (d : Direction) (n : Node α) :
    (n.seen d).declines d false = n.declines d false := by
  by_cases h : n.specs.mode d = d.uncontrolled
  · rw [declines, declines, h, seen, if_pos h]
    cases d <;> rfl
  · rw [declines, declines, beq_false_of_ne h, seen, if_neg h]
    cases d <;> rfl

theorem Node.seen_share (d : Direction) (n : Node α) : (n.seen d).share d false = n.share d false := by
  cases d <;> (unfold seen; split <;> rfl)

theorem Node.seen_take {mode : Mode} (n : Node α) (id : Nat) (a : ActivePhases) (share : α) :
    (n.seen mode.direction).take id a mode false share = n.take id a mode false share := by
  have hkind : ∀ kind, (n.seen mode.direction).isKind kind = n.isKind kind := n.lasting_isKind
  rw [take, take, hkind]
  rfl

namespace Forest

theorem guideTotal_seen (d : Direction) (f : Forest α) (sum : α) :
    (f.map (Node.seen d)).guideTotal d false sum = f.guideTotal d false sum :=
  guideTotal_map (Node.seen_share d) (fun _ => rfl) f sum

/-- A push to everybody reads nothing but what it sees. -/
theorem push_seen (a : ActivePhases) (mode : Mode) (f : Forest α) (target : α → α) :
    (f.map (Node.seen mode.direction)).push a mode false false target
      = f.push a mode false false target := by
  induction f generalizing target with
  | nil => rfl
  | well id n next ih => rw [map, push, push, Node.seen_take, Node.seen_share, ih]
  | group id n below next ihb ihn =>
      have hdivisor : (below.map (Node.seen mode.direction)).divisor mode.direction false
          = below.divisor mode.direction false := by
        rw [divisor, divisor, Bool.and_false, guideTotal_seen]
      rw [map, push, push, Node.seen_declines, hdivisor, guideTotal_seen, ihb, ihn]
      rfl

end Forest

/-- A well takes a share of a target in either of two modes of one direction, or in none. -/
theorem Node.take_twins (n : Node α) (id : Nat) (a : ActivePhases) {mode mode' : Mode}
    (hd : mode'.direction = mode.direction) (share share' : α) :
    List.Forall₂ (Order.Twins mode.direction) (n.take id a mode false share)
      (n.take id a mode' false share') := by
  rw [take, take, hd]
  cases n.isKind mode.direction.wellKind with
  | false => exact List.Forall₂.nil
  | true =>
      simp only [Bool.not_true, Bool.false_and, Bool.false_eq_true, if_false]
      cases groupControl a mode (mode.direction.wellTarget share n.efficiency.val) with
      | error e =>
          cases groupControl a mode' (mode.direction.wellTarget share' n.efficiency.val) with
          | error e' => exact .cons (.refusedFirst e _) .nil
          | ok c' => exact .cons (.refusedFirst e _) .nil
      | ok c =>
          cases groupControl a mode' (mode.direction.wellTarget share' n.efficiency.val) with
          | error e' => exact .cons (.refusedSecond _ e') .nil
          | ok c' => exact .cons (.install id c c') .nil

/-- Two pushes of one direction down the same forest have twin orders. -/
theorem Forest.push_twins (a : ActivePhases) {mode mode' : Mode}
    (hd : mode'.direction = mode.direction) (f : Forest α) (target target' : α → α) :
    List.Forall₂ (Order.Twins mode.direction) (f.push a mode false false target)
      (f.push a mode' false false target') := by
  induction f generalizing target target' with
  | nil => exact List.Forall₂.nil
  | well id n next ih =>
      rw [push, push]
      exact List.rel_append (n.take_twins id a hd _ _) (ih _ _)
  | group id n below next ihb ihn =>
      rw [push, push]
      simp only [hd]
      refine List.rel_append ?_ (ihn _ _)
      cases n.declines mode.direction false || Scalar.isZero (below.divisor mode.direction false) with
      | true => exact List.Forall₂.nil
      | false => exact List.rel_append (ihb _ _) (.cons (.adopt id) .nil)

namespace Site

/-- A run leaves the nodes as they are seen by a push, when it lets only controlled groups follow. -/
theorem run_seen {d : Direction} {l : List (Order α)} :
    ∀ {s : Site α}, (∀ o ∈ l, o.Pushes d ∨ ∃ e, o = .refuse e) →
      (∀ id mode n, .adopt id mode ∈ l → s.hierarchy.node id = .ok n → n.declines d false = false) →
      (s.run l).1.hierarchy.nodes.map (Node.seen d) = s.hierarchy.nodes.map (Node.seen d) := by
  induction l with
  | nil => intro s _ _; rfl
  | cons o rest ih =>
      intro s hpush hadopt
      rw [run]
      cases ho : s.obey o with
      | error e => rfl
      | ok t =>
          have hseen : t.hierarchy.nodes.map (Node.seen d) = s.hierarchy.nodes.map (Node.seen d) := by
            rcases hpush o (List.mem_cons_self ..) with hp | ⟨e, rfl⟩
            · cases o with
              | install id c =>
                  obtain ⟨n, index, w, _, _, _, rfl⟩ := install_eq_ok.mp ho
                  rw [installed_eq]
                  refine Hierarchy.map_modify fun m _ => ?_
                  refine Node.seen_of_lasting (m.lasting_grouped _) ?_
                  rw [m.specs_grouped]
              | adopt id mode =>
                  cases ho
                  cases hp
                  refine Hierarchy.map_modify fun n hn => Node.seen_adopt ?_
                  exact Forest.mode_of_declines (hadopt id _ n (List.mem_cons_self ..) hn)
              | _ => exact False.elim hp
            · cases ho
          refine (ih (fun o' ho' => hpush o' (List.mem_cons_of_mem o ho')) ?_).trans hseen
          -- the groups that follow later are still controlled
          intro id mode n hmem hn
          have hnode := Hierarchy.node_eq_of_map hseen id
          rw [hn] at hnode
          cases hm : s.hierarchy.node id with
          | error e => rw [hm] at hnode; cases hnode
          | ok m =>
              rw [hm] at hnode
              rw [← n.seen_declines, Except.ok.inj hnode, m.seen_declines]
              exact hadopt id mode m (List.mem_cons_of_mem o hmem) hm

/-- A push leaves the nodes as they are seen by pushes of its direction. -/
theorem run_push_seen {s : Site α} {a : ActivePhases} {mode : Mode} {f : Forest α}
    (hf : f.IsPart s.hierarchy) (target : α → α) :
    (s.run (f.push a mode false false target)).1.hierarchy.nodes.map (Node.seen mode.direction)
      = s.hierarchy.nodes.map (Node.seen mode.direction) := by
  refine run_seen (fun o ho => ?_) fun id mode' n hmem hn => ?_
  · rcases f.mem_push ho with ⟨_, _, _, rfl⟩ | ⟨_, _, _, _, ⟨_, _, rfl⟩ | ⟨e, _, rfl⟩⟩
    · exact Or.inl rfl
    · exact Or.inl True.intro
    · exact Or.inr ⟨e, rfl⟩
  · rcases f.mem_push hmem with ⟨g, hg, hmode, heq⟩ | ⟨_, _, _, _, ⟨_, _, heq⟩ | ⟨_, _, heq⟩⟩
    · cases heq
      obtain ⟨hnode, _⟩ := hf.node_of_mem_groups hg
      rw [hn] at hnode
      cases hnode
      rw [Node.declines, Bool.false_and, Bool.or_false]
      exact beq_false_of_ne hmode
    · cases heq
    · cases heq

/-! ## The last push -/

/-- A push to everybody in the subtree of a node is a run of its orders. -/
theorem pushTarget_subtree {s : Site α} {id : Nat} {f : Forest α}
    (hf : s.hierarchy.subtree id = .ok f) (mode : Mode) (target : α) :
    s.pushTarget id mode target false
      = s.run (f.push s.hierarchy.phases mode false false fun _ => target) := by
  rw [pushTarget, hf]
  rfl

/-- A push has the same orders at any two sites that look the same to it. -/
theorem pushTarget_of_seen {s t : Site α} {id : Nat} {f : Forest α} {mode : Mode}
    (hf : s.hierarchy.subtree id = .ok f) (hphases : t.hierarchy.phases = s.hierarchy.phases)
    (hseen : t.hierarchy.nodes.map (Node.seen mode.direction)
      = s.hierarchy.nodes.map (Node.seen mode.direction)) (target : α) :
    t.pushTarget id mode target false
      = t.run (f.push s.hierarchy.phases mode false false fun _ => target) := by
  have hparent : ∀ n : Node α, (n.seen mode.direction).parent = n.parent := fun _ => rfl
  have hsubtree := Hierarchy.subtree_eq_of_map hparent (Node.seen_isGroup mode.direction) hseen id
  rw [hf] at hsubtree
  cases ht : t.hierarchy.subtree id with
  | error e => rw [ht] at hsubtree; cases hsubtree
  | ok f' =>
      rw [ht] at hsubtree
      have hsame : f'.map (Node.seen mode.direction) = f.map (Node.seen mode.direction) :=
        Except.ok.inj hsubtree
      rw [pushTarget_subtree ht, hphases, ← f'.push_seen, hsame, f.push_seen]

/-- After a push, another one of the same direction has the orders that it had before. -/
theorem pushTarget_after {s : Site α} {id : Nat} {f : Forest α} {mode mode' : Mode} {target : α}
    (hf : s.hierarchy.subtree id = .ok f) (hd : mode'.direction = mode.direction) (target' : α) :
    (s.pushTarget id mode target false).1.pushTarget id mode' target' false
      = (s.pushTarget id mode target false).1.run
          (f.push s.hierarchy.phases mode' false false fun _ => target') := by
  rw [pushTarget_subtree hf]
  refine pushTarget_of_seen hf (run_lasting _ _).2 ?_ target'
  rw [hd]
  exact run_push_seen (Hierarchy.subtree_isPart hf) fun _ => target

/-- When a push to everybody below a node went through, a second push of the same direction that goes
    through as well leads to the site to which it would have led by itself. Repeating the push
    changes nothing. -/
theorem pushTarget_again {s : Site α} {id : Nat} {mode : Mode} {target : α}
    (h : (s.pushTarget id mode target false).2 = .ok ()) :
    (∀ mode' target', mode'.direction = mode.direction →
      ((s.pushTarget id mode target false).1.pushTarget id mode' target' false).2 = .ok () →
        (s.pushTarget id mode target false).1.pushTarget id mode' target' false
          = s.pushTarget id mode' target' false) ∧
      (s.pushTarget id mode target false).1.pushTarget id mode target false
        = ((s.pushTarget id mode target false).1, .ok ()) := by
  obtain ⟨f, hf⟩ : ∃ f, s.hierarchy.subtree id = .ok f := by
    cases hf : s.hierarchy.subtree id with
    | ok f => exact ⟨f, rfl⟩
    | error e => rw [pushTarget, hf] at h; cases h
  have hlast : ∀ mode' target', mode'.direction = mode.direction →
      ((s.pushTarget id mode target false).1.pushTarget id mode' target' false).2 = .ok () →
        (s.pushTarget id mode target false).1.pushTarget id mode' target' false
          = s.pushTarget id mode' target' false := by
    intro mode' target' hd h'
    rw [pushTarget_after hf hd] at h' ⊢
    rw [pushTarget_subtree hf] at h h' ⊢
    rw [pushTarget_subtree hf]
    exact run_twins (f.push_twins s.hierarchy.phases hd _ _) h h'
  refine ⟨hlast, ?_⟩
  -- the same orders can be carried out once more
  have hrepeat : ((s.pushTarget id mode target false).1.pushTarget id mode target false).2
      = .ok () := by
    rw [pushTarget_after hf rfl]
    rw [pushTarget_subtree hf] at h ⊢
    exact run_ok_iff.mpr fun o ho => (s.run_canObey _ o).mpr (run_ok_iff.mp h o ho)
  rw [hlast mode target rfl hrepeat]
  exact Prod.ext rfl h

/-- A field with a group that is not controlled, a producer that was under a group control before and
    one that was not. -/
def mixedField : Site ℚ where
  hierarchy := {
    phases := ⟨true, true, false⟩
    nodes := [
      .make "FIELD" none .one (.producer { ProductionSpec.default with mode := .orat })
        .group,
      .make "NORTH" (some 0) .one .default .group,
      .make "P1" (some 1) .one (.producer .default) (.well ⟨some ⟨0, .producer⟩, none, true⟩),
      .make "P2" (some 0) .half (.producer .default)
        (.well ⟨some ⟨1, .producer⟩, some 1, true⟩),
      .make "P3" (some 0) .one (.producer .default)
        (.well ⟨some ⟨2, .producer⟩, none, true⟩)] }
  wells := [.ofControls "P1" .producer [.bhp 100],
    .ofControls "P2" .producer [.bhp 100, .surfaceRate (-7) ⟨0, 1, 0⟩],
    .ofControls "P3" .producer [.bhp 100]]

/-- A liquid target after an oil target leaves no trace of the oil target. -/
theorem pushTarget_again_mixedField :
    (mixedField.pushTarget 0 (.production .orat) 60 false).2 = .ok () ∧
      ((mixedField.pushTarget 0 (.production .orat) 60 false).1.pushTarget 0
        (.production .lrat) 30 false).2 = .ok () ∧
      (mixedField.pushTarget 0 (.production .orat) 60 false).1.pushTarget 0
          (.production .lrat) 30 false
        = mixedField.pushTarget 0 (.production .lrat) 30 false := by
  have horat : (mixedField.pushTarget 0 (.production .orat) 60 false).2 = .ok () := by
    decide +kernel
  have hlrat : ((mixedField.pushTarget 0 (.production .orat) 60 false).1.pushTarget 0
      (.production .lrat) 30 false).2 = .ok () := by
    decide +kernel
  exact ⟨horat, hlrat, (pushTarget_again horat).1 _ _ rfl hlrat⟩

end Site

end ReservoirWells
