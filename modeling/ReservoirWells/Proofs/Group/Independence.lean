import ReservoirWells.Proofs.Group.Directions

/-! # Independence — pushes that may be made in either order

    A push reads what lasts of the nodes and which groups are controlled in its direction.  A push
    of either direction leaves that as it is, so the orders of a second push do not depend on
    whether the first one was made (`Site.pushTarget_later`).  It remains to exchange the orders:

    * `Site.obey_comm` — two orders of pushes may be exchanged unless they hand group controls to
      the same well, provided that every well has an entry of its own;
    * `Site.run_comm` — so may two runs of such orders;
    * `Site.pushTarget_comm` — hence pushes of different directions may be exchanged, and pushes of
      one direction whose subtrees have no node in common. -/

namespace ReservoirWells

variable {α : Type} [Scalar α]

/-! ## What a push of the other direction leaves to be read -/

namespace Site

variable {s t : Site α}

/-- What every order of a list leaves as it is of the nodes, the run leaves as it is. -/
theorem run_map {β : Type} {g : Node α → β} {l : List (Order α)}
    (hl : ∀ o ∈ l, ∀ s t : Site α, s.obey o = .ok t →
      t.hierarchy.nodes.map g = s.hierarchy.nodes.map g) (s : Site α) :
    (s.run l).1.hierarchy.nodes.map g = s.hierarchy.nodes.map g := by
  induction l generalizing s with
  | nil => rfl
  | cons o rest ih =>
      rw [run]
      cases ho : s.obey o with
      | error e => rfl
      | ok t =>
          have hrest := ih (fun o' ho' => hl o' (List.mem_cons_of_mem o ho')) t
          exact hrest.trans (hl o (List.mem_cons_self ..) s t ho)

/-- A group that follows in one direction looks the same in the other. -/
theorem seen_adopt_of_ne {d d' : Direction} (hne : d' ≠ d) (n : Node α) :
    (n.adopt d'.following).seen d = n.seen d := by
  refine Node.seen_of_lasting (n.lasting_adopt _) ?_
  cases d with
  | production =>
      cases d' with
      | production => exact absurd rfl hne
      | injection => rfl
  | injection =>
      cases d' with
      | production => rfl
      | injection => exact absurd rfl hne

/-- The orders of a push leave the nodes as they are seen by pushes of the other direction. -/
theorem obey_seen_of_ne {d d' : Direction} (hne : d' ≠ d) {o : Order α} (ho : o.Pushes d')
    (hobey : s.obey o = .ok t) :
    t.hierarchy.nodes.map (Node.seen d) = s.hierarchy.nodes.map (Node.seen d) := by
  cases o with
  | install id c =>
      obtain ⟨n, index, w, _, _, _, rfl⟩ := install_eq_ok.mp hobey
      rw [installed_eq]
      refine Hierarchy.map_modify fun m _ => Node.seen_of_lasting (m.lasting_grouped _) ?_
      rw [m.specs_grouped]
  | adopt id mode =>
      cases hobey
      cases ho
      exact Hierarchy.map_modify fun n _ => seen_adopt_of_ne hne n
  | _ => exact False.elim ho

/-- The orders of a push that are not refusals. -/
theorem pushes_of_mem_push {a : ActivePhases} {mode : Mode} {f : Forest α} {target : α → α}
    {o : Order α} (ho : o ∈ f.push a mode false false target) (hcan : s.CanObey o) :
    o.Pushes mode.direction := by
  rcases f.mem_push ho with ⟨_, _, _, heq⟩ | ⟨_, _, _, _, ⟨_, _, heq⟩ | ⟨e, _, heq⟩⟩
  · rw [heq]
    rfl
  · rw [heq]
    exact True.intro
  · rw [heq] at hcan
    exact False.elim hcan

/-- A push that went through leaves the nodes as they are seen by pushes of either direction. -/
theorem run_push_keeps {a : ActivePhases} {mode : Mode} {f : Forest α} (hf : f.IsPart s.hierarchy)
    (target : α → α) (hok : (s.run (f.push a mode false false target)).2 = .ok ()) (d : Direction) :
    (s.run (f.push a mode false false target)).1.hierarchy.nodes.map (Node.seen d)
      = s.hierarchy.nodes.map (Node.seen d) := by
  by_cases hd : mode.direction = d
  · rw [← hd]
    exact run_push_seen hf target
  · refine run_map (fun o ho s' t' hobey => obey_seen_of_ne hd ?_ hobey) s
    exact pushes_of_mem_push ho (run_ok_iff.mp hok o ho)

/-- After a push that went through, any other push has the orders that it had before. -/
theorem pushTarget_later {i j : Nat} {f f' : Forest α} {mode mode' : Mode} {target : α}
    (hf : s.hierarchy.subtree i = .ok f) (hf' : s.hierarchy.subtree j = .ok f')
    (hok : (s.pushTarget i mode target false).2 = .ok ()) (target' : α) :
    (s.pushTarget i mode target false).1.pushTarget j mode' target' false
      = (s.pushTarget i mode target false).1.run
          (f'.push s.hierarchy.phases mode' false false fun _ => target') := by
  rw [pushTarget_subtree hf] at hok ⊢
  refine pushTarget_of_seen hf' (run_lasting _ _).2 ?_ target'
  exact run_push_keeps (Hierarchy.subtree_isPart hf) _ hok _

end Site

/-! ## Exchanging orders -/

/-- The two orders do not hand group controls to the same well. -/
def Order.Apart (a b : Order α) : Prop := ∀ id c c', a = .install id c → b ≠ .install id c'

namespace Site

variable {s t u : Site α} {d d' : Direction}

/-- Following in one direction and in another one, or in the same, may be exchanged. -/
theorem adopted_comm (s : Site α) (i j : Nat) (d d' : Direction) :
    (s.adopted i d.following).adopted j d'.following
      = (s.adopted j d'.following).adopted i d.following := by
  have hswap : ∀ n : Node α, (n.adopt d.following).adopt d'.following
      = (n.adopt d'.following).adopt d.following := by
    intro n
    cases d <;> cases d' <;> rfl
  show Site.mk _ _ = Site.mk _ _
  rw [adopted, adopted, s.hierarchy.modify_swap i j hswap]

/-- Two wells with entries of their own may take their group controls in either order. -/
theorem install_comm (hsep : s.Separate) {i j : Nat} (hij : i ≠ j) {c c' : Control α}
    (hi : s.install i c = .ok t) (hj : s.install j c' = .ok u) :
    ∃ v, t.install j c' = .ok v ∧ u.install i c = .ok v := by
  obtain ⟨n, x, w, hn, hx, hw, rfl⟩ := install_eq_ok.mp hi
  obtain ⟨m, y, z, hm, hy, hz, rfl⟩ := install_eq_ok.mp hj
  have hxy : x ≠ y := by
    intro heq
    exact hij (hsep i j x ⟨n, hn, hx⟩ ⟨m, hm, heq ▸ hy⟩)
  have hmt := (s.node_installed_of_ne hij n x w c).trans hm
  have hzt := (s.well_installed_of_ne i n hxy w c).trans hz
  have hnu := (s.node_installed_of_ne (Ne.symm hij) m y z c').trans hn
  have hwu := (s.well_installed_of_ne j m (Ne.symm hxy) z c').trans hw
  refine ⟨_, install_eq_ok.mpr ⟨m, y, z, hmt, hy, hzt, rfl⟩,
    install_eq_ok.mpr ⟨n, x, w, hnu, hx, hwu, ?_⟩⟩
  simp only [installed_eq]
  rw [s.hierarchy.modify_comm hij, s.wells.setControls_comm hxy]

/-- Orders of pushes may be exchanged unless they hand controls to the same well. -/
theorem obey_comm (hsep : s.Separate) {a b : Order α} (ha : a.Pushes d) (hb : b.Pushes d')
    (hapart : a.Apart b) (hat : s.obey a = .ok t) (hbu : s.obey b = .ok u) :
    ∃ v, t.obey b = .ok v ∧ u.obey a = .ok v := by
  cases a with
  | install i c =>
      cases b with
      | install j c' =>
          have hij : i ≠ j := by
            intro heq
            exact hapart i c c' rfl (heq ▸ rfl)
          exact install_comm hsep hij hat hbu
      | adopt j mode =>
          cases hbu
          exact ⟨t.adopted j mode, rfl, install_adopted hat j mode⟩
      | _ => exact False.elim hb
  | adopt i mode =>
      cases hat
      cases b with
      | install j c' => exact ⟨u.adopted i mode, install_adopted hbu i mode, rfl⟩
      | adopt j mode' =>
          cases hbu
          cases ha
          cases hb
          refine ⟨_, rfl, ?_⟩
          exact congrArg Except.ok (s.adopted_comm i j d d').symm
      | _ => exact False.elim hb
  | _ => exact False.elim ha

/-- An order may be carried out before a run from which it is apart, instead of after it. -/
theorem obey_run_comm {a : Order α} (ha : a.Pushes d) {l : List (Order α)} :
    ∀ {s t u : Site α}, s.Separate → (∀ b ∈ l, b.Pushes d' ∧ a.Apart b) → s.obey a = .ok t →
      s.run l = (u, .ok ()) → ∃ v, t.run l = (v, .ok ()) ∧ u.obey a = .ok v := by
  induction l with
  | nil =>
      intro s t u _ _ hat hlu
      cases hlu
      exact ⟨t, rfl, hat⟩
  | cons b rest ih =>
      intro s t u hsep hl hat hlu
      obtain ⟨hb, hapart⟩ := hl b (List.mem_cons_self ..)
      rw [run] at hlu
      cases hbs : s.obey b with
      | error e => rw [hbs] at hlu; cases hlu
      | ok s' =>
          rw [hbs] at hlu
          obtain ⟨t', hbt, has⟩ := obey_comm hsep ha hb hapart hat hbs
          obtain ⟨v, hrun, hav⟩ := ih (hsep.of_attachedTo (obey_attachedTo hbs))
            (fun b' hb' => hl b' (List.mem_cons_of_mem b hb')) has hlu
          refine ⟨v, ?_, hav⟩
          rw [run, hbt]
          exact hrun

/-- Two runs whose orders are apart from each other may be made in either order. -/
theorem run_comm {l l' : List (Order α)} :
    ∀ {s t u : Site α}, s.Separate → (∀ a ∈ l, a.Pushes d) → (∀ b ∈ l', b.Pushes d') →
      (∀ a ∈ l, ∀ b ∈ l', a.Apart b) → s.run l = (t, .ok ()) → s.run l' = (u, .ok ()) →
      ∃ v, t.run l' = (v, .ok ()) ∧ u.run l = (v, .ok ()) := by
  -- one order of the first run after the other goes past the second run
  induction l with
  | nil =>
      intro s t u _ _ _ _ hlt hlu
      cases hlt
      exact ⟨u, hlu, rfl⟩
  | cons a rest ih =>
      intro s t u hsep hl hl' hapart hlt hlu
      rw [run] at hlt
      cases has : s.obey a with
      | error e => rw [has] at hlt; cases hlt
      | ok s' =>
          rw [has] at hlt
          have ha := hl a (List.mem_cons_self ..)
          obtain ⟨u', hlu', hau⟩ := obey_run_comm ha hsep
            (fun b hb => ⟨hl' b hb, hapart a (List.mem_cons_self ..) b hb⟩) has hlu
          obtain ⟨v, hv, hv'⟩ := ih (hsep.of_attachedTo (obey_attachedTo has))
            (fun b hb => hl b (List.mem_cons_of_mem a hb)) hl'
            (fun b hb => hapart b (List.mem_cons_of_mem a hb)) hlt hlu'
          refine ⟨v, hv, ?_⟩
          rw [run, hau]
          exact hv'

end Site

/-! ## Pushes -/

/-- A well is of one kind. -/
theorem Node.eq_of_isKind {n : Node α} {kind kind' : WellKind} (h : n.isKind kind = true)
    (h' : n.isKind kind' = true) : kind = kind' := by
  cases ha : n.attachment? with
  | none => simp [isKind, ha] at h
  | some a =>
      simp only [isKind, ha, Option.map_some, beq_iff_eq, Option.some.injEq] at h h'
      exact h.symm.trans h'

/-- Subtrees of nodes of which neither lies under the other have no node in common. -/
theorem Hierarchy.not_isUnder_both {h : Hierarchy α} {i j k : Nat} (hij : ¬ h.IsUnder i j)
    (hji : ¬ h.IsUnder j i) (hi : h.IsUnder i k) : ¬ h.IsUnder j k := by
  intro hj
  rcases Relation.ReflTransGen.total_of_right_unique h.isChild_unique hi hj with hway | hway
  · exact hji hway
  · exact hij hway

/-- A node comes before the nodes that lie under it. -/
theorem Hierarchy.IsTree.le_of_isUnder {h : Hierarchy α} (htree : h.IsTree) {i j : Nat}
    (hway : h.IsUnder i j) : i ≤ j := by
  induction hway using Relation.ReflTransGen.head_induction_on with
  | refl => exact Nat.le_refl i
  | head hchild _ ih =>
      obtain ⟨n, hn, hp⟩ := hchild
      exact Nat.le_of_lt (Nat.lt_of_le_of_lt ih (htree.parents _ n _ hn hp).1)

/-- Orders within different directions, or within subtrees apart from each other, are apart. -/
theorem Order.Within.apart {h : Hierarchy α} {d d' : Direction} {i j : Nat} {a b : Order α}
    (hapart : d ≠ d' ∨ (¬ h.IsUnder i j ∧ ¬ h.IsUnder j i)) (ha : a.Within h d i)
    (hb : b.Within h d' j) : a.Apart b := by
  intro id c c' heq heq'
  rw [heq] at ha
  rw [heq'] at hb
  obtain ⟨hi, n, hn, hkind⟩ := ha
  obtain ⟨hj, m, hm, hkind'⟩ := hb
  rcases hapart with hd | ⟨hij, hji⟩
  · -- a well of both directions would be of both kinds
    rw [hn] at hm
    cases hm
    refine hd ?_
    have hsame := Node.eq_of_isKind hkind hkind'
    cases d <;> cases d' <;> first | rfl | cases hsame
  · exact Hierarchy.not_isUnder_both hij hji hi hj

namespace Site

variable {s : Site α}

/-- A push that went through started from a node of the hierarchy. -/
theorem exists_node_of_pushTarget {id : Nat} {mode : Mode} {target : α} {onlyGroup : Bool}
    (h : (s.pushTarget id mode target onlyGroup).2 = .ok ()) :
    ∃ n, s.hierarchy.node id = .ok n := by
  cases hn : s.hierarchy.node id with
  | ok n => exact ⟨n, rfl⟩
  | error e => rw [pushTarget, Hierarchy.subtree_error hn] at h; cases h

/-- The orders of a push to everybody are within its direction and its subtree. -/
theorem push_subtree_within {id : Nat} {f : Forest α} (hf : s.hierarchy.subtree id = .ok f)
    {mode : Mode} {target : α → α} :
    ∀ o ∈ f.push s.hierarchy.phases mode false false target,
      o.Within s.hierarchy mode.direction id :=
  Forest.push_within (Hierarchy.subtree_isPart hf) fun _ => Hierarchy.isUnder_of_mem_subtree hf

/-- Two pushes to everybody that go through one after the other go through in the other order, too,
    and lead to the same site, when they are pushes of different directions from any two nodes, or
    when neither node lies under the other. -/
theorem pushTarget_comm (hsep : s.Separate) {i j : Nat} {mode mode' : Mode} {target target' : α}
    (hapart : mode.direction ≠ mode'.direction ∨
      (¬ s.hierarchy.IsUnder i j ∧ ¬ s.hierarchy.IsUnder j i))
    (hfirst : (s.pushTarget i mode target false).2 = .ok ())
    (hsecond : ((s.pushTarget i mode target false).1.pushTarget j mode' target' false).2 = .ok ()) :
    (s.pushTarget j mode' target' false).2 = .ok () ∧
      (s.pushTarget j mode' target' false).1.pushTarget i mode target false
        = (s.pushTarget i mode target false).1.pushTarget j mode' target' false := by
  have hsubtree : ∀ {k : Nat} {n : Node α}, s.hierarchy.node k = .ok n →
      ∃ f, s.hierarchy.subtree k = .ok f := by
    intro k n hn
    rw [Hierarchy.subtree, hn]
    exact ⟨_, rfl⟩
  obtain ⟨n, hn⟩ := exists_node_of_pushTarget hfirst
  obtain ⟨f, hf⟩ := hsubtree hn
  have hlasting : (s.pushTarget i mode target false).1.hierarchy.nodes.map Node.lasting
      = s.hierarchy.nodes.map Node.lasting := by
    rw [pushTarget_subtree hf]
    exact (run_lasting _ _).1
  obtain ⟨m', hm'⟩ := exists_node_of_pushTarget hsecond
  obtain ⟨m, hm, _⟩ := Hierarchy.exists_node_of_map hlasting hm'
  obtain ⟨f', hf'⟩ := hsubtree hm
  -- the orders of either push are the same before and after the other one
  rw [pushTarget_later hf hf' hfirst] at hsecond ⊢
  rw [pushTarget_subtree hf] at hfirst hsecond ⊢
  have hcan := run_ok_iff.mp hfirst
  have hcan' := fun b hb => (s.run_canObey _ b).mp (run_ok_iff.mp hsecond b hb)
  have hother : (s.pushTarget j mode' target' false).2 = .ok () := by
    rw [pushTarget_subtree hf']
    exact run_ok_iff.mpr hcan'
  refine ⟨hother, ?_⟩
  rw [pushTarget_later hf' hf hother]
  rw [pushTarget_subtree hf'] at hother ⊢
  obtain ⟨v, hv, hv'⟩ := run_comm hsep (fun a ha => pushes_of_mem_push ha (hcan a ha))
    (fun b hb => pushes_of_mem_push hb (hcan' b hb))
    (fun a ha b hb => (push_subtree_within hf a ha).apart hapart (push_subtree_within hf' b hb))
    (Prod.ext rfl hfirst) (Prod.ext rfl hother)
  exact hv'.trans hv.symm

/-- A field with an injector and two groups, each with a producer. -/
def twinGroupsCalls : List (Call ℚ) := [
  .addGroup "FIELD" none .one
    ⟨{ ProductionSpec.default with mode := .orat }, { InjectionSpec.default with mode := .rate }⟩,
  .addGroup "NORTH" (some 0) .half (.producer { ProductionSpec.default with mode := .orat }),
  .addGroup "SOUTH" (some 0) .one (.producer { ProductionSpec.default with mode := .wrat }),
  .addWell "P1" (some 1) .one (.producer .default),
  .addWell "P2" (some 2) .half (.producer .default),
  .addWell "I1" (some 0) .one .default,
  .enrol "P1" .producer [.bhp 100],
  .enrol "P2" .producer [.bhp 100],
  .enrol "I1" .injector [.bhp 300],
  .attach 3 0,
  .attach 4 1,
  .attach 5 2]

def twinGroups : Site ℚ := (vacant ⟨true, true, false⟩).serve twinGroupsCalls

/-- The oil target of the north and the water target of the south may be pushed in either order, and
    so may an oil target and an injection target of the whole field. -/
theorem pushTarget_comm_twinGroups :
    twinGroups.Separate ∧
    (¬ twinGroups.hierarchy.IsUnder 1 2 ∧ ¬ twinGroups.hierarchy.IsUnder 2 1) ∧
    (twinGroups.pushTarget 1 (.production .orat) 60 false).2 = .ok () ∧
    ((twinGroups.pushTarget 1 (.production .orat) 60 false).1.pushTarget 2
      (.production .wrat) 20 false).2 = .ok () ∧
    (twinGroups.pushTarget 2 (.production .wrat) 20 false).1.pushTarget 1 (.production .orat) 60 false
      = (twinGroups.pushTarget 1 (.production .orat) 60 false).1.pushTarget 2
          (.production .wrat) 20 false ∧
    (twinGroups.pushTarget 0 (.production .orat) 60 false).2 = .ok () ∧
    ((twinGroups.pushTarget 0 (.production .orat) 60 false).1.pushTarget 0
      (.injection .rate) 90 false).2 = .ok () ∧
    (twinGroups.pushTarget 0 (.injection .rate) 90 false).1.pushTarget 0 (.production .orat) 60 false
      = (twinGroups.pushTarget 0 (.production .orat) 60 false).1.pushTarget 0
          (.injection .rate) 90 false := by
  have hsep : twinGroups.Separate := separate_of_nodup (by decide +kernel)
  have hapart : ¬ twinGroups.hierarchy.IsUnder 1 2 ∧ ¬ twinGroups.hierarchy.IsUnder 2 1 := by
    have htree : twinGroups.hierarchy.IsTree := serve_isTree _ _
    have hparent : (twinGroups.hierarchy.node 2).map (·.parent) = .ok (some 0) := by decide +kernel
    constructor
    · -- the way up from the south leads to the field
      intro hway
      rcases Relation.ReflTransGen.cases_head hway with heq | ⟨p, ⟨n, hn, hp⟩, hrest⟩
      · cases heq
      · rw [hn] at hparent
        obtain rfl : p = 0 := Option.some.inj (hp.symm.trans (Except.ok.inj hparent))
        exact absurd (htree.le_of_isUnder hrest) (by decide)
    · intro hway
      exact absurd (htree.le_of_isUnder hway) (by decide)
  have hnorth : (twinGroups.pushTarget 1 (.production .orat) 60 false).2 = .ok () := by
    decide +kernel
  have hsouth : ((twinGroups.pushTarget 1 (.production .orat) 60 false).1.pushTarget 2
      (.production .wrat) 20 false).2 = .ok () := by
    decide +kernel
  have hoil : (twinGroups.pushTarget 0 (.production .orat) 60 false).2 = .ok () := by
    decide +kernel
  have hflood : ((twinGroups.pushTarget 0 (.production .orat) 60 false).1.pushTarget 0
      (.injection .rate) 90 false).2 = .ok () := by
    decide +kernel
  exact ⟨hsep, hapart, hnorth, hsouth, (pushTarget_comm hsep (Or.inr hapart) hnorth hsouth).2,
    hoil, hflood, (pushTarget_comm hsep (Or.inl (by decide)) hoil hflood).2⟩

end Site

end ReservoirWells
