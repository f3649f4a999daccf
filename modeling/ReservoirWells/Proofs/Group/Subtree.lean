import ReservoirWells.Group.Forest

/-! # Subtrees — what a forest says about the hierarchy it was unfolded from

    `Forest.ofNodes` unfolds the node list of a hierarchy.  This file says what comes out of it, for
    any node list whatever:

    * `Forest.IsPart` — every entry of the forest is the node of the hierarchy at that place, and
      the forest under a group is all that lies below it (`Hierarchy.subtree_isPart`);
    * `Forest.postorder` — the places of a forest, each group after everything below it; no place
      comes twice (`Hierarchy.nodup_postorder_below`);
    * `Forest.wells` — the wells, in the order in which recursions over the forest meet them. -/

namespace ReservoirWells

variable {α : Type} [Scalar α]

namespace Forest

/-- The places of the nodes of a forest, each group after everything below it. -/
def postorder : Forest α → List Nat
  | .nil => []
  | .well id _ next => id :: next.postorder
  | .group id _ below next => below.postorder ++ id :: next.postorder

/-- The wells of a forest with their places, from left to right. -/
def wells : Forest α → List (Nat × Node α)
  | .nil => []
  | .well id n next => (id, n) :: next.wells
  | .group _ _ below next => below.wells ++ next.wells

/-- The groups of a forest with their places. -/
def groups : Forest α → List (Nat × Node α)
  | .nil => []
  | .well _ _ next => next.groups
  | .group id n below next => (id, n) :: (below.groups ++ next.groups)

/-- Every entry of a forest is the node of the hierarchy at its place, wells are wells and groups are
    groups, and the forest under a group is everything below that group. -/
def IsPart (h : Hierarchy α) : Forest α → Prop
  | .nil => True
  | .well id n next => h.node id = .ok n ∧ n.isGroup = false ∧ next.IsPart h
  | .group id n below next =>
    h.node id = .ok n ∧ n.isGroup = true ∧ below = h.below id ∧ below.IsPart h ∧ next.IsPart h

/-- The places of the wells are among the places of the forest, in the same order. -/
theorem wells_sublist_postorder (f : Forest α) : (f.wells.map (·.1)).Sublist f.postorder := by
  induction f with
  | nil => exact List.Sublist.slnil
  | well id n next ih => exact ih.cons_cons id
  | group id n below next ihb ihn =>
      show ((below.wells ++ next.wells).map (·.1)).Sublist (below.postorder ++ id :: next.postorder)
      rw [List.map_append]
      exact ihb.append (ihn.cons id)

/-- The place of a well is a place of the forest. -/
theorem mem_postorder_of_mem_wells {f : Forest α} {w : Nat × Node α} (hw : w ∈ f.wells) :
    w.1 ∈ f.postorder :=
  f.wells_sublist_postorder.subset (List.mem_map_of_mem hw)

/-- The wells of a part are wells of the hierarchy. -/
theorem IsPart.node_of_mem_wells {h : Hierarchy α} {f : Forest α} (hf : f.IsPart h)
    {w : Nat × Node α} (hw : w ∈ f.wells) : h.node w.1 = .ok w.2 ∧ w.2.isGroup = false := by
  induction f with
  | nil => cases hw
  | well id n next ih =>
      obtain ⟨hn, hwell, hnext⟩ := hf
      rcases List.mem_cons.mp hw with heq | hmem
      · rw [heq]
        exact ⟨hn, hwell⟩
      · exact ih hnext hmem
  | group id n below next ihb ihn =>
      obtain ⟨_, _, _, hbelow, hnext⟩ := hf
      rcases List.mem_append.mp hw with hmem | hmem
      · exact ihb hbelow hmem
      · exact ihn hnext hmem

/-- The groups of a part are groups of the hierarchy. -/
theorem IsPart.node_of_mem_groups {h : Hierarchy α} {f : Forest α} (hf : f.IsPart h)
    {g : Nat × Node α} (hg : g ∈ f.groups) : h.node g.1 = .ok g.2 ∧ g.2.isGroup = true := by
  induction f with
  | nil => cases hg
  | well id n next ih => exact ih hf.2.2 hg
  | group id n below next ihb ihn =>
      obtain ⟨hn, hgroup, _, hbelow, hnext⟩ := hf
      rcases List.mem_cons.mp hg with rfl | hmem
      · exact ⟨hn, hgroup⟩
      · rcases List.mem_append.mp hmem with hmem | hmem
        · exact ihb hbelow hmem
        · exact ihn hnext hmem

/-- Siblings are groups or wells of the forest. -/
theorem mem_of_mem_siblings {h : Hierarchy α} {f : Forest α} (hf : f.IsPart h)
    {entry : Nat × Node α} (he : entry ∈ f.siblings) :
    (entry.2.isGroup = true → entry ∈ f.groups) ∧ (entry.2.isGroup = false → entry ∈ f.wells) := by
  induction f with
  | nil => cases he
  | well id n next ih =>
      obtain ⟨_, hwell, hnext⟩ := hf
      rcases List.mem_cons.mp he with rfl | hin
      · refine ⟨fun hg => ?_, fun _ => List.mem_cons_self ..⟩
        rw [hwell] at hg
        cases hg
      · obtain ⟨hgroups, hwells⟩ := ih hnext hin
        exact ⟨hgroups, fun hg => List.mem_cons_of_mem _ (hwells hg)⟩
  | group id n below next ihb ihn =>
      obtain ⟨_, hgroup, _, _, hnext⟩ := hf
      rcases List.mem_cons.mp he with rfl | hin
      · refine ⟨fun _ => List.mem_cons_self .., fun hg => ?_⟩
        rw [hgroup] at hg
        cases hg
      · obtain ⟨hgroups, hwells⟩ := ihn hnext hin
        exact ⟨fun hg => List.mem_cons_of_mem _ (List.mem_append.mpr (Or.inr (hgroups hg))),
          fun hg => List.mem_append.mpr (Or.inr (hwells hg))⟩

/-- Siblings are nodes of the hierarchy. -/
theorem node_of_mem_siblings {h : Hierarchy α} {f : Forest α} (hf : f.IsPart h)
    {entry : Nat × Node α} (he : entry ∈ f.siblings) : h.node entry.1 = .ok entry.2 := by
  obtain ⟨hgroups, hwells⟩ := mem_of_mem_siblings hf he
  cases hg : entry.2.isGroup with
  | true => exact (hf.node_of_mem_groups (hgroups hg)).1
  | false => exact (hf.node_of_mem_wells (hwells hg)).1

end Forest

namespace Node

/-- A node that is a group has the role of one. -/
theorem isGroup_iff (n : Node α) : n.isGroup = true ↔ n.role = .group := by
  cases hr : n.role with
  | group => simp [isGroup, link?, hr]
  | well link => simp [isGroup, link?, hr]

/-- Any other node has the role of a well. -/
theorem role_of_well {n : Node α} (h : n.isGroup = false) : ∃ link, n.role = .well link := by
  cases hr : n.role with
  | group => rw [(Node.isGroup_iff n).mpr hr] at h; cases h
  | well link => exact ⟨link, rfl⟩

end Node

/-! ## Unfolding a node list -/

namespace Hierarchy

theorem node_eq_ok {h : Hierarchy α} {id : Nat} {n : Node α} :
    h.node id = .ok n ↔ h.nodes[id]? = some n := by
  cases hl : h.nodes[id]? with
  | none => simp [node, hl]
  | some m => simp [node, hl]

private theorem drop_eq_cons {l rest : List (Node α)} {id : Nat} {n : Node α}
    (h : n :: rest = l.drop id) : l[id]? = some n ∧ rest = l.drop (id + 1) := by
  constructor
  · rw [show l[id]? = (l.drop id)[0]? by rw [List.getElem?_drop, Nat.add_zero], ← h]
    rfl
  · rw [← List.tail_drop, ← h]
    rfl

/-- What is unfolded from the end of the node list is a part of the hierarchy. -/
theorem ofNodes_isPart (h : Hierarchy α) :
    ∀ (l : List (Node α)) (owner : Option Nat) (id : Nat), l = h.nodes.drop id →
      (Forest.ofNodes owner id l).IsPart h := by
  intro l
  induction l with
  | nil => intro owner id _; exact True.intro
  | cons n rest ih =>
      intro owner id hl
      obtain ⟨hn, hrest⟩ := drop_eq_cons hl
      have hnext := ih owner (id + 1) hrest
      rw [Forest.ofNodes]
      by_cases hp : (n.parent == owner) = true
      · rw [if_pos hp]
        cases hr : n.role with
        | well link =>
            exact ⟨node_eq_ok.mpr hn, by simp [Node.isGroup, Node.link?, hr], hnext⟩
        | group =>
            refine ⟨node_eq_ok.mpr hn, (Node.isGroup_iff n).mpr hr, ?_, ih _ _ hrest, hnext⟩
            rw [hrest]
            rfl
      · rw [if_neg hp]
        exact hnext

/-- What lies below a node is a part of the hierarchy. -/
theorem below_isPart (h : Hierarchy α) (id : Nat) : (h.below id).IsPart h :=
  ofNodes_isPart h _ _ _ rfl

/-- The subtree of a group is the group with everything below it. -/
theorem subtree_group {h : Hierarchy α} {id : Nat} {n : Node α} (hn : h.node id = .ok n)
    (hg : n.isGroup = true) : h.subtree id = .ok (.group id n (h.below id) .nil) := by
  simp only [subtree, hn, Except.map, (Node.isGroup_iff n).mp hg]

/-- The subtree of a well is that well. -/
theorem subtree_well {h : Hierarchy α} {id : Nat} {n : Node α} (hn : h.node id = .ok n)
    (hg : n.isGroup = false) : h.subtree id = .ok (.well id n .nil) := by
  obtain ⟨link, hr⟩ := Node.role_of_well hg
  simp only [subtree, hn, Except.map, hr]

theorem subtree_error {h : Hierarchy α} {id : Nat} {e : GroupError} (hn : h.node id = .error e) :
    h.subtree id = .error e := by
  rw [subtree, hn]
  rfl

/-- A subtree is a part of the hierarchy. -/
theorem subtree_isPart {h : Hierarchy α} {id : Nat} {f : Forest α} (hf : h.subtree id = .ok f) :
    f.IsPart h := by
  cases hn : h.node id with
  | error e => rw [subtree_error hn] at hf; cases hf
  | ok n =>
      cases hg : n.isGroup with
      | true =>
          rw [subtree_group hn hg] at hf
          cases hf
          exact ⟨hn, hg, rfl, below_isPart h id, True.intro⟩
      | false =>
          rw [subtree_well hn hg] at hf
          cases hf
          exact ⟨hn, hg, True.intro⟩

/-- The guide rate of a group is that of the forest below it. -/
theorem guideRate_group {h : Hierarchy α} {id : Nat} {n : Node α} (hn : h.node id = .ok n)
    (hg : n.isGroup = true) (d : Direction) (onlyGroup : Bool) :
    h.guideRate d id onlyGroup = .ok ((h.below id).guideTotal d onlyGroup 0) := by
  rw [guideRate, hn]
  simp only [Except.map, (Node.isGroup_iff n).mp hg]

/-- The guide rate of a well is its share. -/
theorem guideRate_well {h : Hierarchy α} {id : Nat} {n : Node α} (hn : h.node id = .ok n)
    (hwell : n.isGroup = false) (d : Direction) (onlyGroup : Bool) :
    h.guideRate d id onlyGroup = .ok (n.share d onlyGroup) := by
  obtain ⟨link, hr⟩ := Node.role_of_well hwell
  rw [guideRate, hn]
  simp only [Except.map, hr]

/-! ## No place comes twice -/

/-- A place in the forest of an owner lies behind its start, and the parent of the node there is the
    owner or an earlier place of the forest. -/
theorem parent_of_mem_ofNodes (h : Hierarchy α) :
    ∀ (l : List (Node α)) (owner : Option Nat) (id : Nat), l = h.nodes.drop id →
      ∀ j ∈ (Forest.ofNodes owner id l).postorder, id ≤ j ∧ ∃ n, h.nodes[j]? = some n ∧
        (n.parent = owner ∨
          ∃ k ∈ (Forest.ofNodes owner id l).postorder, k < j ∧ n.parent = some k) := by
  intro l
  induction l with
  | nil => intro owner id _ j hj; cases hj
  | cons n rest ih =>
      intro owner id hl j hj
      obtain ⟨hn, hrest⟩ := drop_eq_cons hl
      rw [Forest.ofNodes] at hj ⊢
      by_cases hp : (n.parent == owner) = true
      · rw [if_pos hp] at hj ⊢
        have hself : id ≤ id ∧ ∃ m, h.nodes[id]? = some m ∧ m.parent = owner :=
          ⟨Nat.le_refl id, n, hn, eq_of_beq hp⟩
        cases hr : n.role with
        | well link =>
            rw [hr] at hj
            rcases List.mem_cons.mp hj with heq | hmem
            · obtain ⟨hle, m, hm, hown⟩ := hself
              rw [heq]
              exact ⟨hle, m, hm, Or.inl hown⟩
            · obtain ⟨hle, m, hm, hpar⟩ := ih owner (id + 1) hrest j hmem
              refine ⟨by omega, m, hm, ?_⟩
              rcases hpar with hown | ⟨k, hk, hlt, hpk⟩
              · exact Or.inl hown
              · exact Or.inr ⟨k, List.mem_cons_of_mem id hk, hlt, hpk⟩
        | group =>
            rw [hr] at hj
            rcases List.mem_append.mp hj with hmem | hmem
            · obtain ⟨hle, m, hm, hpar⟩ := ih (some id) (id + 1) hrest j hmem
              refine ⟨by omega, m, hm, Or.inr ?_⟩
              rcases hpar with hown | ⟨k, hk, hlt, hpk⟩
              · exact ⟨id, List.mem_append.mpr (Or.inr (List.mem_cons_self ..)), by omega, hown⟩
              · exact ⟨k, List.mem_append.mpr (Or.inl hk), hlt, hpk⟩
            · rcases List.mem_cons.mp hmem with heq | hmem
              · obtain ⟨hle, m, hm, hown⟩ := hself
                rw [heq]
                exact ⟨hle, m, hm, Or.inl hown⟩
              · obtain ⟨hle, m, hm, hpar⟩ := ih owner (id + 1) hrest j hmem
                refine ⟨by omega, m, hm, ?_⟩
                rcases hpar with hown | ⟨k, hk, hlt, hpk⟩
                · exact Or.inl hown
                · exact Or.inr ⟨k, List.mem_append.mpr (Or.inr (List.mem_cons_of_mem id hk)), hlt,
                    hpk⟩
      · rw [if_neg hp] at hj ⊢
        obtain ⟨hle, hpar⟩ := ih owner (id + 1) hrest j hj
        exact ⟨by omega, hpar⟩

/-- The forest under a node and the forest of an earlier owner have no place in common. -/
theorem disjoint_ofNodes (h : Hierarchy α) {l : List (Node α)} {owner : Option Nat} {id : Nat}
    (hl : l = h.nodes.drop (id + 1)) (howner : ∀ o, owner = some o → o < id) :
    ∀ j ∈ (Forest.ofNodes (some id) (id + 1) l).postorder,
      j ∉ (Forest.ofNodes owner (id + 1) l).postorder := by
  intro j
  induction j using Nat.strongRecOn with
  | ind j ih =>
      intro hj hj'
      obtain ⟨_, n, hn, hpar⟩ := parent_of_mem_ofNodes h l (some id) (id + 1) hl j hj
      obtain ⟨_, n', hn', hpar'⟩ := parent_of_mem_ofNodes h l owner (id + 1) hl j hj'
      rw [hn] at hn'
      cases hn'
      -- the two parents agree, so either an owner lies in the wrong forest or an earlier place is
      -- common to both
      rcases hpar with hid | ⟨k, hk, hlt, hpk⟩
      · rcases hpar' with hown | ⟨k, hk, _, hpk⟩
        · have := howner id (hown.symm.trans hid)
          omega
        · have := (parent_of_mem_ofNodes h l owner (id + 1) hl k hk).1
          have := Option.some.inj (hpk.symm.trans hid)
          omega
      · have hle := (parent_of_mem_ofNodes h l (some id) (id + 1) hl k hk).1
        rcases hpar' with hown | ⟨k', hk', _, hpk'⟩
        · have := howner k (hown.symm.trans hpk)
          omega
        · rw [Option.some.inj (hpk'.symm.trans hpk)] at hk'
          exact ih k hlt hk hk'

/-- No place comes twice in what is unfolded for an owner that comes before the start. -/
theorem nodup_postorder_ofNodes (h : Hierarchy α) :
    ∀ (l : List (Node α)) (owner : Option Nat) (id : Nat), l = h.nodes.drop id →
      (∀ o, owner = some o → o < id) → (Forest.ofNodes owner id l).postorder.Nodup := by
  intro l
  induction l with
  | nil => intro owner id _ _; exact List.Pairwise.nil
  | cons n rest ih =>
      intro owner id hl howner
      obtain ⟨_, hrest⟩ := drop_eq_cons hl
      have hnext := ih owner (id + 1) hrest fun o ho => Nat.lt_succ_of_lt (howner o ho)
      have hid : id ∉ (Forest.ofNodes owner (id + 1) rest).postorder := by
        intro hmem
        have := (parent_of_mem_ofNodes h rest owner (id + 1) hrest id hmem).1
        omega
      rw [Forest.ofNodes]
      by_cases hp : (n.parent == owner) = true
      · rw [if_pos hp]
        cases hr : n.role with
        | well link => exact List.nodup_cons.mpr ⟨hid, hnext⟩
        | group =>
            have hbelow := ih (some id) (id + 1) hrest fun o ho => by cases ho; omega
            refine List.nodup_append.mpr ⟨hbelow, List.nodup_cons.mpr ⟨hid, hnext⟩, ?_⟩
            intro j hj k hk heq
            rcases List.mem_cons.mp hk with hkid | hknext
            · have := (parent_of_mem_ofNodes h rest (some id) (id + 1) hrest j hj).1
              omega
            · exact disjoint_ofNodes h hrest howner j hj (heq ▸ hknext)
      · rw [if_neg hp]
        exact hnext

/-- What lies below a node comes after it. -/
theorem lt_of_mem_below {h : Hierarchy α} {id j : Nat} (hj : j ∈ (h.below id).postorder) : id < j :=
  (parent_of_mem_ofNodes h _ _ _ rfl j hj).1

/-- No place comes twice below a node, and the node itself does not come at all. -/
theorem nodup_postorder_below (h : Hierarchy α) (id : Nat) :
    (h.below id).postorder.Nodup ∧ id ∉ (h.below id).postorder := by
  constructor
  · exact nodup_postorder_ofNodes h _ _ _ rfl fun o ho => by cases ho; omega
  · exact fun hmem => Nat.lt_irrefl id (lt_of_mem_below hmem)

/-- No place comes twice in the subtree of a group. -/
theorem nodup_postorder_group (h : Hierarchy α) (id : Nat) (n : Node α) :
    (Forest.group id n (h.below id) .nil).postorder.Nodup := by
  obtain ⟨hbelow, hid⟩ := nodup_postorder_below h id
  refine List.nodup_append.mpr ⟨hbelow, List.pairwise_singleton _ id, ?_⟩
  intro j hj k hk heq
  rw [heq, List.mem_singleton.mp hk] at hj
  exact hid hj

end Hierarchy

end ReservoirWells
