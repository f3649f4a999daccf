import Mathlib.Algebra.GroupWithZero.Nat
import Mathlib.Data.List.Nodup
import Mathlib.Data.List.Perm.Basic
import Mathlib.Data.List.Sort
import Mathlib.Logic.Relation
import ReservoirWells.Proofs.Group.Knowledge

/-! # Tree — the nodes of every site form trees

    A node comes after its parent, its parent is a group, and no name is given twice
    (`Hierarchy.IsTree`).  An insertion makes sure of all three before it adds anything, and nothing
    else changes the outline of a hierarchy, which is all that they are about.

    * `Hierarchy.childrenOf_concat` — an insertion puts the new node at the end of the children of
      its parent, and leaves all other children as they are;
    * `Hierarchy.IsTree.existsUnique_root` — every node has one root above it;
    * `Hierarchy.IsTree.sum_wellCount_roots` — the wells below the roots are all the wells. -/

namespace ReservoirWells

variable {α : Type} [Scalar α]

/-! ## Outlines -/

/-- What makes up the outline of a hierarchy: the name of a node, its parent and its role. -/
def Node.outline (n : Node α) : String × Option Nat × Bool := (n.name, n.parent, n.isGroup)

theorem Node.outline_modifyLink (n : Node α) (f : WellLink → WellLink) :
    (n.modifyLink f).outline = n.outline := by
  cases hr : n.role with
  | group => simp only [modifyLink, hr]
  | well link => simp [outline, modifyLink, isGroup, link?, hr]

theorem Node.outline_edit (n : Node α) (e : Edit α) : (n.edit e).outline = n.outline := by
  cases e with
  | stopsWhenWithdrawn value => exact n.outline_modifyLink _
  | _ => rfl

theorem Node.outline_lasting (n : Node α) : n.lasting.outline = n.outline := by
  rw [outline, n.lasting_isGroup]
  rfl

namespace Hierarchy

/-- The outlines of all nodes, in order. -/
def outline (h : Hierarchy α) : List (String × Option Nat × Bool) := h.nodes.map Node.outline

/-- No name comes twice, and a parent is a group that comes before its children. -/
structure IsTree (h : Hierarchy α) : Prop where
  names : (h.nodes.map (·.name)).Nodup
  parents : ∀ id n p, h.node id = .ok n → n.parent = some p →
    p < id ∧ ∃ g, h.node p = .ok g ∧ g.isGroup = true

section Outline

variable {h h' : Hierarchy α}

/-- Whether the nodes form a tree can be seen from the outline. -/
theorem IsTree.of_outline (htree : h.IsTree) (hsame : h'.outline = h.outline) : h'.IsTree := by
  constructor
  · have hnames : h'.nodes.map (·.name) = h.nodes.map (·.name) := by
      have hmap := congrArg (List.map Prod.fst) hsame
      rwa [outline, outline, List.map_map, List.map_map] at hmap
    rw [hnames]
    exact htree.names
  · intro id n p hn hp
    obtain ⟨m, hm, hmn⟩ := exists_node_of_map hsame hn
    have hmp : m.parent = some p := (congrArg (·.2.1) hmn).trans hp
    obtain ⟨hlt, g, hg, hgroup⟩ := htree.parents id m p hm hmp
    obtain ⟨g', hg', hgg⟩ := exists_node_of_map hsame.symm hg
    exact ⟨hlt, g', hg', (congrArg (·.2.2) hgg).trans hgroup⟩

/-- So can the children of every node. -/
theorem childrenOf_of_outline (hsame : h'.outline = h.outline) (owner : Option Nat) :
    h'.childrenOf owner = h.childrenOf owner := by
  have hall : ∀ k : Hierarchy α, k.childrenOf owner
      = ((k.outline.zipIdx.filter fun entry => entry.1.2.1 == owner).map (·.2)) := by
    intro k
    rw [childrenOf, outline, List.zipIdx_map, List.filter_map, List.map_map]
    rfl
  rw [hall, hall, hsame]

end Outline

/-! ## Children -/

/-- The children of a node are the nodes that name it as their parent. -/
theorem mem_childrenOf {h : Hierarchy α} {owner : Option Nat} {id : Nat} :
    id ∈ h.childrenOf owner ↔ ∃ n, h.node id = .ok n ∧ n.parent = owner := by
  rw [childrenOf, List.mem_map]
  constructor
  · rintro ⟨⟨n, j⟩, hmem, rfl⟩
    obtain ⟨hin, hp⟩ := List.mem_filter.mp hmem
    exact ⟨n, node_eq_ok.mpr (List.mem_zipIdx_iff_getElem?.mp hin), eq_of_beq hp⟩
  · rintro ⟨n, hn, hp⟩
    refine ⟨(n, id), List.mem_filter.mpr ⟨?_, beq_iff_eq.mpr hp⟩, rfl⟩
    exact List.mem_zipIdx_iff_getElem?.mpr (node_eq_ok.mp hn)

/-- Children are listed in the order in which they were added. -/
theorem pairwise_childrenOf (h : Hierarchy α) (owner : Option Nat) :
    (h.childrenOf owner).Pairwise (· < ·) := by
  have hplaces : (h.nodes.zipIdx.map (·.2)).Pairwise (· < ·) := by
    rw [List.zipIdx_map_snd]
    exact List.pairwise_lt_range'
  exact hplaces.sublist (List.filter_sublist.map _)

/-- A node is a child of its parent once, and of no other node. -/
theorem count_childrenOf {h : Hierarchy α} {id : Nat} {n : Node α} (hn : h.node id = .ok n)
    (owner : Option Nat) : (h.childrenOf owner).count id = if n.parent = owner then 1 else 0 := by
  have hnodup : (h.childrenOf owner).Nodup :=
    (h.pairwise_childrenOf owner).imp fun hlt => Nat.ne_of_lt hlt
  by_cases hp : n.parent = owner
  · rw [if_pos hp]
    exact List.count_eq_one_of_mem hnodup (mem_childrenOf.mpr ⟨n, hn, hp⟩)
  · rw [if_neg hp]
    refine List.count_eq_zero_of_not_mem fun hmem => hp ?_
    obtain ⟨m, hm, hmp⟩ := mem_childrenOf.mp hmem
    rw [hn] at hm
    cases hm
    exact hmp

/-- The hierarchy with one more node at the end. -/
def concat (h : Hierarchy α) (n : Node α) : Hierarchy α := { h with nodes := h.nodes ++ [n] }

/-- A new node goes to the end of the children of its parent, and changes no other children. -/
theorem childrenOf_concat (h : Hierarchy α) (n : Node α) (owner : Option Nat) :
    (h.concat n).childrenOf owner
      = h.childrenOf owner ++ if n.parent = owner then [h.nodes.length] else [] := by
  rw [concat, childrenOf, childrenOf, List.zipIdx_append, List.filter_append, List.map_append]
  congr 1
  by_cases hp : n.parent = owner
  · simp [hp]
  · simp [hp]

/-! ## Roots -/

/-- A node names another one as its parent. -/
def IsChild (h : Hierarchy α) (id p : Nat) : Prop := ∃ n, h.node id = .ok n ∧ n.parent = some p

/-- A node without parent to which the way up from a node leads. -/
def IsRootOf (h : Hierarchy α) (root id : Nat) : Prop :=
  Relation.ReflTransGen h.IsChild id root ∧ ∃ n, h.node root = .ok n ∧ n.parent = none

/-- The way up from a node ends at one root. -/
theorem IsTree.existsUnique_root {h : Hierarchy α} (htree : h.IsTree) {id : Nat} {n : Node α}
    (hn : h.node id = .ok n) : ∃! root, h.IsRootOf root id := by
  -- the parent of a node comes before it, so the way up is followed by induction on the place
  induction id using Nat.strongRecOn generalizing n with
  | ind id ih =>
      cases hp : n.parent with
      | none =>
          refine ⟨id, ⟨.refl, n, hn, hp⟩, ?_⟩
          rintro root ⟨hway, _⟩
          rcases Relation.ReflTransGen.cases_head hway with heq | ⟨p, ⟨m, hm, hmp⟩, _⟩
          · exact heq.symm
          · rw [hn] at hm
            cases hm
            rw [hp] at hmp
            cases hmp
      | some p =>
          obtain ⟨hlt, g, hg, _⟩ := htree.parents id n p hn hp
          obtain ⟨root, ⟨hway, hroot⟩, hunique⟩ := ih p hlt hg
          refine ⟨root, ⟨.head ⟨n, hn, hp⟩ hway, hroot⟩, ?_⟩
          rintro root' ⟨hway', m', hm', hmp'⟩
          rcases Relation.ReflTransGen.cases_head hway' with heq | ⟨q, ⟨m, hm, hmp⟩, hrest⟩
          · -- the node itself has a parent and is no root
            rw [← heq, hn] at hm'
            cases hm'
            rw [hp] at hmp'
            cases hmp'
          · rw [hn] at hm
            cases hm
            rw [hp] at hmp
            cases hmp
            exact hunique root' ⟨hrest, m', hm', hmp'⟩

end Hierarchy

/-! ## The wells below the roots -/

namespace Forest

/-- The number of wells is the length of their list. -/
theorem wellCount_eq (f : Forest α) : f.wellCount = f.wells.length := by
  induction f with
  | nil => rfl
  | well id n next ih => rw [wellCount, wells, List.length_cons, ih, Nat.add_comm]
  | group id n below next ihb ihn => rw [wellCount, wells, List.length_append, ihb, ihn]

/-- The siblings that are unfolded from a node list are the nodes of the owner. -/
theorem siblings_ofNodes (l : List (Node α)) (owner : Option Nat) :
    ∀ id, (ofNodes owner id l).siblings
      = ((l.zipIdx id).filter fun entry => entry.1.parent == owner).map Prod.swap := by
  induction l with
  | nil => intro id; rfl
  | cons n rest ih =>
      intro id
      rw [ofNodes, List.zipIdx_cons, List.filter_cons]
      by_cases hp : (n.parent == owner) = true
      · rw [if_pos hp, if_pos hp, List.map_cons, ← ih]
        cases n.role <;> rfl
      · rw [if_neg hp, if_neg hp, ih]

section IsPart

variable {h : Hierarchy α} {f : Forest α}

/-- With a group everything below it belongs to the forest. -/
theorem below_subset (hf : f.IsPart h) {p : Nat} {g : Node α} (hg : (p, g) ∈ f.groups) :
    (∀ w ∈ (h.below p).wells, w ∈ f.wells) ∧ ∀ k ∈ (h.below p).groups, k ∈ f.groups := by
  induction f with
  | nil => cases hg
  | well id n next ih =>
      obtain ⟨hwells, hgroups⟩ := ih hf.2.2 hg
      exact ⟨fun w hw => List.mem_cons_of_mem _ (hwells w hw), hgroups⟩
  | group id n below next ihb ihn =>
      obtain ⟨_, _, hbelow, hpart, hnext⟩ := hf
      rcases List.mem_cons.mp hg with heq | hin
      · cases heq
        rw [← hbelow]
        exact ⟨fun w hw => List.mem_append.mpr (Or.inl hw),
          fun k hk => List.mem_cons_of_mem _ (List.mem_append.mpr (Or.inl hk))⟩
      · rcases List.mem_append.mp hin with hin | hin
        · obtain ⟨hwells, hgroups⟩ := ihb hpart hin
          exact ⟨fun w hw => List.mem_append.mpr (Or.inl (hwells w hw)),
            fun k hk => List.mem_cons_of_mem _ (List.mem_append.mpr (Or.inl (hgroups k hk)))⟩
        · obtain ⟨hwells, hgroups⟩ := ihn hnext hin
          exact ⟨fun w hw => List.mem_append.mpr (Or.inr (hwells w hw)),
            fun k hk => List.mem_cons_of_mem _ (List.mem_append.mpr (Or.inr (hgroups k hk)))⟩

/-- The wells of a forest are those in the subtrees of its siblings. -/
theorem sum_wellCount_siblings (hf : f.IsPart h) :
    ∃ counts, (f.siblings.map (·.1)).mapM h.wellCount = .ok counts ∧ counts.sum = f.wellCount := by
  have hsubtree : ∀ {id t}, h.subtree id = .ok t → h.wellCount id = .ok t.wellCount := by
    intro id t ht
    rw [Hierarchy.wellCount, ht]
    rfl
  induction f with
  | nil => exact ⟨[], rfl, rfl⟩
  | well id n next ih =>
      obtain ⟨hn, hwell, hnext⟩ := hf
      obtain ⟨counts, hcounts, hsum⟩ := ih hnext
      refine ⟨1 :: counts, ?_, ?_⟩
      · rw [siblings, List.map_cons, List.mapM_cons, hsubtree (Hierarchy.subtree_well hn hwell),
          hcounts]
        rfl
      · rw [List.sum_cons, hsum, wellCount]
  | group id n below next ihb ihn =>
      obtain ⟨hn, hgroup, hbelow, _, hnext⟩ := hf
      obtain ⟨counts, hcounts, hsum⟩ := ihn hnext
      refine ⟨below.wellCount :: counts, ?_, ?_⟩
      · rw [siblings, List.map_cons, List.mapM_cons, hsubtree (Hierarchy.subtree_group hn hgroup),
          hcounts, ← hbelow]
        rfl
      · rw [List.sum_cons, hsum, wellCount]

end IsPart

end Forest

namespace Hierarchy

/-- The forest of all roots, with everything below them. -/
def all (h : Hierarchy α) : Forest α := .ofNodes none 0 h.nodes

theorem all_isPart (h : Hierarchy α) : h.all.IsPart h := h.ofNodes_isPart _ none 0 rfl

theorem mem_siblings_ofNodes {h : Hierarchy α} {owner : Option Nat} {start id : Nat} {n : Node α} :
    (id, n) ∈ (Forest.ofNodes owner start (h.nodes.drop start)).siblings ↔
      start ≤ id ∧ h.node id = .ok n ∧ n.parent = owner := by
  rw [Forest.siblings_ofNodes, List.mem_map]
  have hplace : start ≤ id → (h.nodes.drop start)[id - start]? = h.nodes[id]? := by
    intro hle
    rw [List.getElem?_drop, Nat.add_sub_cancel' hle]
  constructor
  · rintro ⟨⟨m, j⟩, hmem, heq⟩
    cases heq
    obtain ⟨hin, hp⟩ := List.mem_filter.mp hmem
    obtain ⟨hle, hget⟩ := List.mk_mem_zipIdx_iff_le_and_getElem?_sub.mp hin
    rw [hplace hle] at hget
    exact ⟨hle, node_eq_ok.mpr hget, eq_of_beq hp⟩
  · rintro ⟨hle, hn, hp⟩
    refine ⟨(n, id), List.mem_filter.mpr ⟨?_, beq_iff_eq.mpr hp⟩, rfl⟩
    refine List.mk_mem_zipIdx_iff_le_and_getElem?_sub.mpr ⟨hle, ?_⟩
    rw [hplace hle]
    exact node_eq_ok.mp hn

/-- The siblings of what lies below a node are the later nodes that name it as their parent. -/
theorem mem_siblings_below {h : Hierarchy α} {p id : Nat} {n : Node α} :
    (id, n) ∈ (h.below p).siblings ↔ p < id ∧ h.node id = .ok n ∧ n.parent = some p :=
  mem_siblings_ofNodes

/-- A node is below one other node at most. -/
theorem eq_of_mem_siblings_below {h : Hierarchy α} {p q : Nat} {c k : Nat × Node α}
    (hc : c ∈ (h.below p).siblings) (hk : k ∈ (h.below q).siblings) (heq : k.1 = c.1) :
    q = p ∧ k = c := by
  obtain ⟨id, n⟩ := c
  obtain ⟨id', m⟩ := k
  obtain rfl : id' = id := heq
  obtain ⟨_, hn, hparent⟩ := mem_siblings_below.mp hc
  obtain ⟨_, hm, hparent'⟩ := mem_siblings_below.mp hk
  obtain rfl : m = n := Except.ok.inj (hm.symm.trans hn)
  exact ⟨Option.some.inj (hparent'.symm.trans hparent), rfl⟩

/-- The roots are the siblings of the forest of all roots. -/
theorem siblings_all (h : Hierarchy α) : h.all.siblings.map (·.1) = h.roots := by
  rw [all, Forest.siblings_ofNodes, List.map_map]
  rfl

/-- The children of a node come after it, so they are the siblings of what lies below it. -/
theorem IsTree.siblings_below {h : Hierarchy α} (htree : h.IsTree) (p : Nat) :
    (h.below p).siblings.map (·.1) = h.childrenOf (some p) := by
  have hsorted : ((h.below p).siblings.map (·.1)).Pairwise (· < ·) := by
    rw [below, Forest.siblings_ofNodes, List.map_map]
    have hplaces : (((h.nodes.drop (p + 1)).zipIdx (p + 1)).map (·.2)).Pairwise (· < ·) := by
      rw [List.zipIdx_map_snd]
      exact List.pairwise_lt_range'
    exact hplaces.sublist (List.filter_sublist.map _)
  refine hsorted.eq_of_mem_iff (h.pairwise_childrenOf (some p)) fun id => ?_
  rw [List.mem_map, mem_childrenOf]
  constructor
  · rintro ⟨⟨j, n⟩, hmem, rfl⟩
    obtain ⟨_, hn, hp⟩ := mem_siblings_below.mp hmem
    exact ⟨n, hn, hp⟩
  · rintro ⟨n, hn, hp⟩
    exact ⟨(id, n), mem_siblings_below.mpr ⟨(htree.parents id n p hn hp).1, hn, hp⟩, rfl⟩

/-- Every node of a tree is in the forest of all roots. -/
theorem IsTree.mem_all {h : Hierarchy α} (htree : h.IsTree) {id : Nat} {n : Node α}
    (hn : h.node id = .ok n) :
    (n.isGroup = true → (id, n) ∈ h.all.groups) ∧
      (n.isGroup = false → (id, n) ∈ h.all.wells) := by
  induction id using Nat.strongRecOn generalizing n with
  | ind id ih =>
      cases hp : n.parent with
      | none =>
          have hroot : (id, n) ∈ h.all.siblings :=
            mem_siblings_ofNodes.mpr ⟨Nat.zero_le id, hn, hp⟩
          exact Forest.mem_of_mem_siblings h.all_isPart hroot
      | some p =>
          -- the parent is a group of the forest, and so is everything below it
          obtain ⟨hlt, g, hg, hgroup⟩ := htree.parents id n p hn hp
          have hparent := (ih p hlt hg).1 hgroup
          obtain ⟨hwells, hgroups⟩ := Forest.below_subset h.all_isPart hparent
          have hchild : (id, n) ∈ (h.below p).siblings := mem_siblings_below.mpr ⟨hlt, hn, hp⟩
          obtain ⟨hasGroup, hasWell⟩ := Forest.mem_of_mem_siblings (h.below_isPart p) hchild
          exact ⟨fun hkind => hgroups _ (hasGroup hkind), fun hkind => hwells _ (hasWell hkind)⟩

/-- The wells of the forest of all roots are all wells. -/
theorem IsTree.length_wells_all {h : Hierarchy α} (htree : h.IsTree) :
    h.all.wells.length = h.nodes.countP fun n => !n.isGroup := by
  have hnodup : h.all.wells.Nodup := by
    refine List.Nodup.of_map (·.1) (h.all.wells_sublist_postorder.nodup ?_)
    exact nodup_postorder_ofNodes h h.nodes none 0 rfl fun o ho => by cases ho
  have hplaces : (h.nodes.zipIdx.map Prod.swap).Nodup := by
    refine List.Nodup.of_map (·.1) ?_
    rw [List.map_map, show (Prod.fst ∘ Prod.swap : Node α × Nat → Nat) = Prod.snd from rfl,
      List.zipIdx_map_snd]
    exact List.nodup_range'
  -- both lists have no repetitions and the same wells, so they have the same length
  have hperm : h.all.wells.Perm ((h.nodes.zipIdx.map Prod.swap).filter fun w => !w.2.isGroup) := by
    rw [List.perm_ext_iff_of_nodup hnodup (hplaces.filter _)]
    rintro ⟨id, n⟩
    rw [List.mem_filter]
    have hmem : (id, n) ∈ h.nodes.zipIdx.map Prod.swap ↔ h.node id = .ok n := by
      rw [node_eq_ok, List.mem_map]
      constructor
      · rintro ⟨⟨m, j⟩, hin, heq⟩
        cases heq
        exact List.mk_mem_zipIdx_iff_getElem?.mp hin
      · intro hin
        exact ⟨(n, id), List.mk_mem_zipIdx_iff_getElem?.mpr hin, rfl⟩
    rw [hmem]
    constructor
    · intro hw
      obtain ⟨hn, hwell⟩ := h.all_isPart.node_of_mem_wells hw
      exact ⟨hn, by rw [hwell]; rfl⟩
    · rintro ⟨hn, hwell⟩
      exact (htree.mem_all hn).2 (Bool.not_eq_true' _ ▸ hwell)
  rw [hperm.length_eq, ← List.countP_eq_length_filter, List.countP_map]
  conv_rhs => rw [← List.zipIdx_map_fst 0 h.nodes, List.countP_map]
  rfl

/-- The numbers of wells in the subtrees of the roots add up to the number of all wells. -/
theorem IsTree.sum_wellCount_roots {h : Hierarchy α} (htree : h.IsTree) :
    ∃ counts, h.roots.mapM h.wellCount = .ok counts ∧
      counts.sum = h.nodes.countP fun n => !n.isGroup := by
  obtain ⟨counts, hcounts, hsum⟩ := Forest.sum_wellCount_siblings h.all_isPart
  rw [h.siblings_all] at hcounts
  exact ⟨counts, hcounts, by rw [hsum, Forest.wellCount_eq, htree.length_wells_all]⟩

/-! ## Insertions -/

/-- A node can be added below a parent that is there and is a group. -/
def Admits (h : Hierarchy α) (n : Node α) : Prop :=
  n.name ∉ h.nodes.map (·.name) ∧ ∀ p, n.parent = some p → ∃ g, h.node p = .ok g ∧ g.isGroup = true

/-- A node is refused, or it is admitted and comes to the end. -/
theorem insert_cases (h : Hierarchy α) (n : Node α) :
    (∃ e, h.insert n = .error e) ∨
      (h.Admits n ∧ h.insert n = .ok (h.concat n, h.nodes.length)) := by
  rw [insert]
  by_cases hname : h.nodes.any (·.name == n.name) = true
  · rw [if_pos hname]
    exact Or.inl ⟨_, rfl⟩
  · rw [if_neg hname]
    have hfresh : n.name ∉ h.nodes.map (·.name) := by
      intro hmem
      obtain ⟨m, hm, heq⟩ := List.mem_map.mp hmem
      exact hname (List.any_eq_true.mpr ⟨m, hm, beq_iff_eq.mpr heq⟩)
    cases hp : n.parent with
    | none => exact Or.inr ⟨⟨hfresh, fun p hq => by rw [hp] at hq; cases hq⟩, rfl⟩
    | some p =>
        rw [checkParent]
        cases hg : h.node p with
        | error e => exact Or.inl ⟨e, rfl⟩
        | ok g =>
            dsimp only
            cases hgroup : g.isGroup with
            | false => exact Or.inl ⟨_, rfl⟩
            | true =>
                refine Or.inr ⟨⟨hfresh, fun q hq => ?_⟩, rfl⟩
                rw [hp] at hq
                cases hq
                exact ⟨g, hg, hgroup⟩

/-- The nodes after one was added at the end. -/
theorem node_concat {h : Hierarchy α} {n m : Node α} {id : Nat} :
    (h.concat n).node id = .ok m ↔ h.node id = .ok m ∨ (id = h.nodes.length ∧ m = n) := by
  rw [node_eq_ok, node_eq_ok]
  show (h.nodes ++ [n])[id]? = some m ↔ _
  by_cases hlt : id < h.nodes.length
  · rw [List.getElem?_append_left hlt]
    exact ⟨Or.inl, fun hm => hm.resolve_right fun hend => absurd hend.1 (Nat.ne_of_lt hlt)⟩
  · have hnone : h.nodes[id]? = none := List.getElem?_eq_none (Nat.le_of_not_lt hlt)
    rw [List.getElem?_append_right (Nat.le_of_not_lt hlt), hnone, List.getElem?_singleton]
    by_cases hend : id = h.nodes.length
    · rw [if_pos (by omega)]
      simp [hend, eq_comm]
    · rw [if_neg (by omega)]
      simp [hend]

/-- An admitted node may be added to a tree. -/
theorem IsTree.concat {h : Hierarchy α} (htree : h.IsTree) {n : Node α} (hn : h.Admits n) :
    (h.concat n).IsTree := by
  constructor
  · show ((h.nodes ++ [n]).map (·.name)).Nodup
    rw [List.map_append, List.map_cons, List.map_nil, ← List.concat_eq_append]
    exact List.Nodup.concat hn.1 htree.names
  · intro id m p hm hp
    rcases node_concat.mp hm with hold | ⟨rfl, rfl⟩
    · obtain ⟨hlt, g, hg, hgroup⟩ := htree.parents id m p hold hp
      exact ⟨hlt, g, node_concat.mpr (Or.inl hg), hgroup⟩
    · -- the new node, whose parent was there before
      obtain ⟨g, hg, hgroup⟩ := hn.2 p hp
      obtain ⟨hlt, _⟩ := List.getElem?_eq_some_iff.mp (node_eq_ok.mp hg)
      exact ⟨hlt, g, node_concat.mpr (Or.inl hg), hgroup⟩

/-- The parents of a tree are there. -/
theorem IsTree.hasParents {h : Hierarchy α} (htree : h.IsTree) : h.HasParents := by
  intro id n hn p hp
  obtain ⟨_, g, hg, _⟩ := htree.parents id n p hn hp
  exact ⟨g, hg⟩

theorem isTree_empty (phases : ActivePhases) : (empty phases : Hierarchy α).IsTree :=
  ⟨List.nodup_nil, fun id n p hn => by cases hn⟩

/-! ## Attachments and edits -/

end Hierarchy

namespace Node

variable {n : Node α}

/-- The node with an entry of the table to stand for. -/
def joined (n : Node α) (a : Attachment) : Node α :=
  n.modifyLink fun link => { link with attachment := some a }

/-- A well that is joined to an entry stands for it, and is as before otherwise. -/
theorem joined_well (h : n.isGroup = false) (a : Attachment) :
    (n.joined a).attachment? = some a ∧ (n.joined a).groupSlot? = n.groupSlot? ∧
      (n.joined a).individual = n.individual := by
  cases hr : n.role with
  | group => simp [isGroup, link?, hr] at h
  | well link => simp [joined, modifyLink, attachment?, groupSlot?, link?, hr]

end Node

namespace Hierarchy

/-- An attachment is refused, or the node of a well remembers an entry that is there. -/
theorem attach_cases (h : Hierarchy α) (id index : Nat) (wells : WellTable α) :
    (∃ e, h.attach id index wells = .error e) ∨
      ∃ n w, h.node id = .ok n ∧ n.isGroup = false ∧ wells.well index = .ok w ∧
        h.attach id index wells = .ok (h.modify id (·.joined ⟨index, w.kind⟩)) := by
  rw [attach]
  cases hw : wells.well index with
  | error e => exact Or.inl ⟨e, rfl⟩
  | ok w =>
      cases hn : h.node id with
      | error e => exact Or.inl ⟨e, rfl⟩
      | ok n =>
          simp only [bind, Except.bind]
          cases hgroup : n.isGroup with
          | true => exact Or.inl ⟨_, rfl⟩
          | false => exact Or.inr ⟨n, w, rfl, hgroup, rfl, rfl⟩

/-- An edit is refused, or it changes its node. -/
theorem edit_cases (h : Hierarchy α) (id : Nat) (e : Edit α) :
    (∃ e', h.edit id e = .error e') ∨ h.edit id e = .ok (h.modify id (·.edit e)) := by
  rw [edit]
  cases h.node id with
  | error e' => exact Or.inl ⟨e', rfl⟩
  | ok n => exact Or.inr rfl

end Hierarchy

/-! ## Calls -/

namespace Site

variable {s : Site α}

/-- An insertion fails and changes nothing, or puts an admitted node at the end. -/
theorem call_newNode {c : Call α} {n : Node α} (hc : c.newNode? = some n) :
    (∃ e, s.call c = (s, .error e)) ∨ (s.hierarchy.Admits n ∧
      s.call c = ({ s with hierarchy := s.hierarchy.concat n }, .ok ())) := by
  rw [s.call_of_newNode? hc]
  rcases s.hierarchy.insert_cases n with ⟨e, he⟩ | ⟨hadmits, hok⟩
  · rw [he]
    exact Or.inl ⟨e, rfl⟩
  · rw [hok]
    exact Or.inr ⟨hadmits, rfl⟩

theorem outline_of_lasting {t : Site α}
    (h : t.hierarchy.nodes.map Node.lasting = s.hierarchy.nodes.map Node.lasting) :
    t.hierarchy.outline = s.hierarchy.outline := by
  have hread : ∀ k : Hierarchy α, k.outline = (k.nodes.map Node.lasting).map Node.outline := by
    intro k
    rw [List.map_map, Hierarchy.outline, show (Node.outline ∘ Node.lasting : Node α → _)
      = Node.outline from funext Node.outline_lasting]
  rw [hread, hread, h]

/-- A call that adds no node keeps the outline, whatever comes of it. -/
theorem call_outline {c : Call α} (hc : c.newNode? = none) :
    (s.call c).1.hierarchy.outline = s.hierarchy.outline := by
  have hrun : c.operates = true → (s.call c).1.hierarchy.outline = s.hierarchy.outline := by
    intro hop
    obtain ⟨l, hl⟩ := s.call_eq_run hop
    rw [hl]
    exact outline_of_lasting (s.run_lasting l).1
  cases c with
  | addGroup name parent efficiency specs => cases hc
  | addWell name parent efficiency specs => cases hc
  | attach id index =>
      rw [call]
      rcases s.hierarchy.attach_cases id index s.wells with ⟨e, he⟩ | ⟨n, w, _, _, _, hok⟩
      · rw [he]
        rfl
      · rw [hok]
        exact Hierarchy.map_modify fun m _ => m.outline_modifyLink _
  | edit id e =>
      rw [call]
      rcases s.hierarchy.edit_cases id e with ⟨e', he⟩ | hok
      · rw [he]
        rfl
      · rw [hok]
        exact Hierarchy.map_modify fun m _ => m.outline_edit e
  | check id rates => exact hrun rfl
  | push id mode target onlyGroup => exact hrun rfl
  | shareProduction id => exact hrun rfl
  | shareInjection id => exact hrun rfl
  | reinject id rates => exact hrun rfl
  | refreshProduction id flows => exact hrun rfl
  | refreshInjection id => exact hrun rfl
  | withdraw id => exact hrun rfl
  | _ => rfl

/-- A tree stays a tree under every call. -/
theorem call_isTree (c : Call α) (htree : s.hierarchy.IsTree) : (s.call c).1.hierarchy.IsTree := by
  cases hc : c.newNode? with
  | none => exact htree.of_outline (call_outline hc)
  | some n =>
      rcases call_newNode (s := s) hc with ⟨e, he⟩ | ⟨hadmits, hok⟩
      · rw [he]
        exact htree
      · rw [hok]
        exact htree.concat hadmits

/-- The nodes of every site form a tree. -/
theorem serve_isTree (phases : ActivePhases) (calls : List (Call α)) :
    ((vacant phases).serve calls).hierarchy.IsTree :=
  serve_induction (P := fun s => s.hierarchy.IsTree) (fun _ c => call_isTree c) calls
    (Hierarchy.isTree_empty phases)

end Site

end ReservoirWells
