import ReservoirWells.Proofs.Group.Directions
import ReservoirWells.Proofs.Group.Routes
import ReservoirWells.Proofs.Group.Tree

/-! # Lineage — what lies under a node, and the groups in between

    A node lies under another one when the way up from it leads there, parent by parent.  In a tree
    the forest that is unfolded below a node is just what lies under it:

    * `Hierarchy.IsTree.mem_below` — whatever lies under a node is found below it;
    * `Hierarchy.IsTree.mem_postorder_subtree`, `Hierarchy.IsTree.mem_wells_below` — and nothing else;
    * `Hierarchy.IsTree.mem_groups_route` — the groups on the way down to a well are those that lie
      under the top and that the well lies under. -/

namespace ReservoirWells

variable {α : Type} [Scalar α]

namespace Forest

variable {h : Hierarchy α} {f : Forest α}

/-- The groups on a way are groups of the forest, and the well at its end lies under all of them. -/
theorem mem_groups_of_route (hf : f.IsPart h) {r : Route α} (hr : r ∈ f.routes) {g : Nat × Node α}
    (hg : g ∈ r.groups) : g ∈ f.groups ∧ h.IsUnder g.1 r.id := by
  induction f generalizing r with
  | nil => cases hr
  | well id n next ih =>
      rcases List.mem_cons.mp hr with rfl | hin
      · cases hg
      · exact ih hf.2.2 hin hg
  | group id n below next ihb ihn =>
      obtain ⟨_, _, hbelow, hpart, hnext⟩ := hf
      rcases List.mem_append.mp hr with hin | hin
      · obtain ⟨r', hr', rfl⟩ := List.mem_map.mp hin
        rcases List.mem_cons.mp hg with rfl | hmem
        · refine ⟨List.mem_cons_self .., ?_⟩
          have hplace := mem_postorder_of_mem_wells (mem_wells_of_mem_routes hr')
          rw [hbelow] at hplace
          exact Hierarchy.isUnder_of_mem_below hplace
        · obtain ⟨hgroup, hunder⟩ := ihb hpart hr' hmem
          exact ⟨List.mem_cons_of_mem _ (List.mem_append.mpr (Or.inl hgroup)), hunder⟩
      · obtain ⟨hgroup, hunder⟩ := ihn hnext hin hg
        exact ⟨List.mem_cons_of_mem _ (List.mem_append.mpr (Or.inr hgroup)), hunder⟩

/-- A well below a group of the forest is at the end of a way through that group. -/
theorem exists_route_through (hf : f.IsPart h) {g w : Nat × Node α} (hg : g ∈ f.groups)
    (hw : w ∈ (h.below g.1).wells) : ∃ r ∈ f.routes, r.id = w.1 ∧ g ∈ r.groups := by
  induction f with
  | nil => cases hg
  | well id n next ih =>
      obtain ⟨r, hr, hrest⟩ := ih hf.2.2 hg
      exact ⟨r, List.mem_cons_of_mem _ hr, hrest⟩
  | group id n below next ihb ihn =>
      obtain ⟨_, _, hbelow, hpart, hnext⟩ := hf
      have hunder : ∀ r ∈ below.routes,
          r.under (id, n) ∈ (Forest.group id n below next).routes :=
        fun r hr => List.mem_append.mpr (Or.inl (List.mem_map_of_mem hr))
      rcases List.mem_cons.mp hg with rfl | hin
      · rw [← hbelow, ← below.routes_wells] at hw
        obtain ⟨r, hr, rfl⟩ := List.mem_map.mp hw
        exact ⟨r.under (id, n), hunder r hr, rfl, List.mem_cons_self ..⟩
      · rcases List.mem_append.mp hin with hin | hin
        · obtain ⟨r, hr, hid, hmem⟩ := ihb hpart hin
          exact ⟨r.under (id, n), hunder r hr, hid, List.mem_cons_of_mem _ hmem⟩
        · obtain ⟨r, hr, hrest⟩ := ihn hnext hin
          exact ⟨r, List.mem_append.mpr (Or.inr hr), hrest⟩

end Forest

namespace Hierarchy

variable {h : Hierarchy α} {id j : Nat} {n : Node α}

/-- Whatever lies under a node other than itself is found below it. -/
theorem IsTree.mem_below (htree : h.IsTree) (hunder : h.IsUnder id j) (hne : j ≠ id)
    (hn : h.node j = .ok n) :
    (n.isGroup = true → (j, n) ∈ (h.below id).groups) ∧
      (n.isGroup = false → (j, n) ∈ (h.below id).wells) := by
  -- along the way up: what is found below the parent is found below every group above it
  induction hunder using Relation.ReflTransGen.head_induction_on generalizing n with
  | refl => exact absurd rfl hne
  | @head j p hchild _ ih =>
      obtain ⟨m, hm, hp⟩ := hchild
      obtain rfl : n = m := Except.ok.inj (hn.symm.trans hm)
      obtain ⟨hlt, g, hg, hgroup⟩ := htree.parents j n p hn hp
      have hbelow := Forest.mem_of_mem_siblings (h.below_isPart p)
        (mem_siblings_below.mpr ⟨hlt, hn, hp⟩)
      by_cases htop : p = id
      · rw [← htop]
        exact hbelow
      · obtain ⟨hwells, hgroups⟩ := Forest.below_subset (h.below_isPart id) ((ih htop hg).1 hgroup)
        exact ⟨fun hkind => hgroups _ (hbelow.1 hkind), fun hkind => hwells _ (hbelow.2 hkind)⟩

/-- The wells below a node are the wells that lie under it, apart from itself. -/
theorem IsTree.mem_wells_below (htree : h.IsTree) :
    (j, n) ∈ (h.below id).wells ↔
      j ≠ id ∧ h.IsUnder id j ∧ h.node j = .ok n ∧ n.isGroup = false := by
  constructor
  · intro hw
    have hplace := Forest.mem_postorder_of_mem_wells hw
    obtain ⟨hn, hwell⟩ := (h.below_isPart id).node_of_mem_wells hw
    refine ⟨?_, isUnder_of_mem_below hplace, hn, hwell⟩
    rintro rfl
    exact (h.nodup_postorder_below _).2 hplace
  · rintro ⟨hne, hunder, hn, hwell⟩
    exact (htree.mem_below hunder hne hn).2 hwell

/-- The groups below a node are the groups that lie under it, apart from itself. -/
theorem IsTree.mem_groups_below (htree : h.IsTree) :
    (j, n) ∈ (h.below id).groups ↔
      j ≠ id ∧ h.IsUnder id j ∧ h.node j = .ok n ∧ n.isGroup = true := by
  constructor
  · intro hg
    have hplace := Forest.mem_postorder_of_mem_groups hg
    obtain ⟨hn, hgroup⟩ := (h.below_isPart id).node_of_mem_groups hg
    refine ⟨?_, isUnder_of_mem_below hplace, hn, hgroup⟩
    rintro rfl
    exact (h.nodup_postorder_below _).2 hplace
  · rintro ⟨hne, hunder, hn, hgroup⟩
    exact (htree.mem_below hunder hne hn).1 hgroup

/-- The groups on the way down to a well lie under the top, apart from itself, and have the well under
    them; there are no others. -/
theorem IsTree.mem_groups_route (htree : h.IsTree) {r : Route α} (hr : r ∈ (h.below id).routes) :
    (j, n) ∈ r.groups ↔ j ≠ id ∧ h.IsUnder id j ∧ h.IsUnder j r.id ∧ h.node j = .ok n ∧
      n.isGroup = true := by
  constructor
  · intro hg
    obtain ⟨hgroup, hunder⟩ := Forest.mem_groups_of_route (h.below_isPart id) hr hg
    obtain ⟨hne, htop, hn, hkind⟩ := htree.mem_groups_below.mp hgroup
    exact ⟨hne, htop, hunder, hn, hkind⟩
  · rintro ⟨hne, htop, hunder, hn, hkind⟩
    obtain ⟨_, _, hw, hwell⟩ := htree.mem_wells_below.mp (Forest.mem_wells_of_mem_routes hr)
    have hgroup : (j, n) ∈ (h.below id).groups := htree.mem_groups_below.mpr ⟨hne, htop, hn, hkind⟩
    have hend : r.id ≠ j := by
      rintro heq
      rw [heq, hn] at hw
      cases hw
      rw [hkind] at hwell
      cases hwell
    have hbelow : (r.id, r.node) ∈ (h.below j).wells :=
      htree.mem_wells_below.mpr ⟨hend, hunder, hw, hwell⟩
    -- there is a way to the well through the group, and there is only one way
    obtain ⟨r', hr', hid, hmem⟩ := Forest.exists_route_through (h.below_isPart id) hgroup hbelow
    rw [Forest.eq_of_mem_routes (h.nodup_postorder_below id).1 hr hr' hid.symm]
    exact hmem

/-- A node with something under it is a group. -/
theorem IsTree.isGroup_of_isUnder (htree : h.IsTree) (hunder : h.IsUnder id j) (hne : j ≠ id) :
    ∃ g, h.node id = .ok g ∧ g.isGroup = true := by
  rcases Relation.ReflTransGen.cases_tail hunder with heq | ⟨c, _, m, hm, hp⟩
  · exact absurd heq.symm hne
  · exact (htree.parents c m id hm hp).2

/-- The nodes of a subtree are those that lie under its top. -/
theorem IsTree.mem_postorder_subtree (htree : h.IsTree) {f : Forest α} (hf : h.subtree id = .ok f)
    (hn : h.node j = .ok n) : j ∈ f.postorder ↔ h.IsUnder id j := by
  refine ⟨isUnder_of_mem_subtree hf, fun hunder => ?_⟩
  by_cases hne : j = id
  · subst hne
    cases hg : n.isGroup with
    | true =>
        rw [subtree_group hn hg] at hf
        cases hf
        exact List.mem_append.mpr (Or.inr (List.mem_cons_self ..))
    | false =>
        rw [subtree_well hn hg] at hf
        cases hf
        exact List.mem_cons_self ..
  · obtain ⟨g, hg, hgroup⟩ := htree.isGroup_of_isUnder hunder hne
    rw [subtree_group hg hgroup] at hf
    cases hf
    refine List.mem_append.mpr (Or.inl ?_)
    obtain ⟨hasGroup, hasWell⟩ := htree.mem_below hunder hne hn
    cases hkind : n.isGroup with
    | true => exact Forest.mem_postorder_of_mem_groups (hasGroup hkind)
    | false => exact Forest.mem_postorder_of_mem_wells (hasWell hkind)

end Hierarchy

end ReservoirWells
