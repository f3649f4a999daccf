import Mathlib.Algebra.BigOperators.Group.List.Basic
import Mathlib.Algebra.Order.BigOperators.GroupWithZero.List
import ReservoirWells.Proofs.Group.Independence

/-! # Ancestry — the way from a node up to its root

    The path of a node is read off the node list in one pass towards the front, while the rule that
    it stands for goes from parent to parent and looks every one of them up.  In a tree both come to
    the same: parents stand in front of their children, so the walk ends, and it meets each node that
    the start lies under once.

    * `Hierarchy.Ascent` — the way up, parent by parent, with the places of the nodes;
    * `Hierarchy.ascend` — the walk that multiplies the efficiency factors on the way;
    * `Hierarchy.IsTree.ascend_eq` — it needs no more steps than there are nodes up to its start, and
      comes to what `Hierarchy.efficiency` is;
    * `Hierarchy.Ascent.mem_iff`, `Hierarchy.Ascent.nodup` — which nodes are on the way;
    * `Site.efficiency_serve` — so the accumulated factor of a node is a product over them. -/

namespace ReservoirWells

variable {α : Type}

namespace Hierarchy

section Paths

variable [Scalar α] {h : Hierarchy α} {id p : Nat} {n : Node α}

/-! ## The path in the node list -/

/-- Entries for other nodes are passed over. -/
theorem climb_append {wanted : Nat} {others : List (Node α × Nat)}
    (hothers : ∀ e ∈ others, e.2 ≠ wanted) (front : List (Node α × Nat)) :
    climb wanted (others ++ front) = climb wanted front := by
  induction others with
  | nil => rfl
  | cons e rest ih =>
      rw [List.forall_mem_cons] at hothers
      obtain ⟨n, id⟩ := e
      rw [List.cons_append, climb, beq_false_of_ne hothers.1, if_neg Bool.false_ne_true]
      exact ih hothers.2

/-- A path is found among the entries up to any later place. -/
theorem path_eq_climb_take {k : Nat} (hlt : id < k) :
    h.path id = climb id (h.nodes.take k).zipIdx.reverse := by
  have hsplit : h.nodes.zipIdx
      = (h.nodes.take k).zipIdx ++ (h.nodes.drop k).zipIdx (h.nodes.take k).length := by
    rw [← Nat.zero_add (h.nodes.take k).length, ← List.zipIdx_append, List.take_append_drop]
  rw [path, hsplit, List.reverse_append]
  refine climb_append ?_ _
  rintro ⟨n, j⟩ hmem rfl
  obtain ⟨hplace, hget⟩ := List.mk_mem_zipIdx_iff_le_and_getElem?_sub.mp (List.mem_reverse.mp hmem)
  rw [List.length_take] at hplace
  -- a place in front of `k` is no place behind the end of the list
  have hlength : h.nodes.length ≤ k := by omega
  rw [List.drop_eq_nil_of_le hlength] at hget
  cases hget

/-- A path starts with the node itself. -/
theorem path_eq (hn : h.node id = .ok n) : h.path id
    = match n.parent with
      | some p => n :: climb p (h.nodes.take id).zipIdx.reverse
      | none => [n] := by
  have hget := node_eq_ok.mp hn
  have hlength : (h.nodes.take id).length = id := by
    rw [List.length_take, Nat.min_eq_left (List.getElem?_eq_some_iff.mp hget).1.le]
  rw [path_eq_climb_take (Nat.lt_succ_self id), List.take_add_one, hget, Option.toList_some,
    List.zipIdx_append, List.reverse_append, hlength]
  show climb id ((n, 0 + id) :: (h.nodes.take id).zipIdx.reverse) = _
  cases hparent : n.parent <;>
    simp only [climb, Nat.zero_add, beq_self_eq_true, if_true, hparent]

theorem path_root (hn : h.node id = .ok n) (hp : n.parent = none) : h.path id = [n] := by
  rw [path_eq hn, hp]

/-- It goes on with the path of the parent. -/
theorem path_child (hn : h.node id = .ok n) (hp : n.parent = some p) (hlt : p < id) :
    h.path id = n :: h.path p := by
  rw [path_eq hn, hp, path_eq_climb_take hlt]

/-! ## The way up -/

/-- The nodes from a node up to its root with their places, parent by parent. -/
inductive Ascent (h : Hierarchy α) : Nat → List (Nat × Node α) → Prop
  | root {id : Nat} {n : Node α} (hn : h.node id = .ok n) (hp : n.parent = none) :
    Ascent h id [(id, n)]
  | child {id p : Nat} {n : Node α} {way : List (Nat × Node α)} (hn : h.node id = .ok n)
      (hp : n.parent = some p) (hway : Ascent h p way) : Ascent h id ((id, n) :: way)

theorem IsTree.exists_ascent (htree : h.IsTree) (hn : h.node id = .ok n) :
    ∃ way, h.Ascent id way := by
  induction id using Nat.strongRecOn generalizing n with
  | ind id ih =>
      cases hp : n.parent with
      | none => exact ⟨_, .root hn hp⟩
      | some p =>
          obtain ⟨hlt, g, hg, _⟩ := htree.parents id n p hn hp
          obtain ⟨way, hway⟩ := ih p hlt hg
          exact ⟨_, .child hn hp hway⟩

variable {way : List (Nat × Node α)}

/-- The nodes on the way are those of the path. -/
theorem Ascent.path_eq (hway : h.Ascent id way) (htree : h.IsTree) :
    h.path id = way.map (·.2) := by
  induction hway with
  | root hn hp => exact path_root hn hp
  | child hn hp _ ih => rw [path_child hn hp (htree.parents _ _ _ hn hp).1, ih, List.map_cons]

/-- They are the nodes that the start lies under. -/
theorem Ascent.mem_iff (hway : h.Ascent id way) {j : Nat} {m : Node α} :
    (j, m) ∈ way ↔ h.IsUnder j id ∧ h.node j = .ok m := by
  induction hway with
  | @root id n hn hp =>
      rw [List.mem_singleton]
      constructor
      · intro heq
        cases heq
        exact ⟨.refl, hn⟩
      · rintro ⟨hunder, hm⟩
        rcases Relation.ReflTransGen.cases_head hunder with rfl | ⟨p, ⟨n', hn', hp'⟩, _⟩
        · rw [Except.ok.inj (hm.symm.trans hn)]
        · rw [Except.ok.inj (hn'.symm.trans hn), hp] at hp'
          cases hp'
  | @child id p n way hn hp _ ih =>
      rw [List.mem_cons, ih]
      constructor
      · rintro (heq | ⟨hunder, hm⟩)
        · cases heq
          exact ⟨.refl, hn⟩
        · exact ⟨.head ⟨n, hn, hp⟩ hunder, hm⟩
      · rintro ⟨hunder, hm⟩
        rcases Relation.ReflTransGen.cases_head hunder with rfl | ⟨p', ⟨n', hn', hp'⟩, hrest⟩
        · rw [Except.ok.inj (hm.symm.trans hn)]
          exact Or.inl rfl
        · -- a node has one parent, and the rest of the way starts there
          rw [Except.ok.inj (hn'.symm.trans hn), hp] at hp'
          cases hp'
          exact Or.inr ⟨hrest, hm⟩

/-- No node is met twice: each comes before the one it was reached from. -/
theorem Ascent.nodup (hway : h.Ascent id way) (htree : h.IsTree) : (way.map (·.1)).Nodup := by
  induction hway with
  | root => exact List.nodup_singleton _
  | @child id p n way hn hp hway ih =>
      refine List.nodup_cons.mpr ⟨?_, ih⟩
      intro hmem
      obtain ⟨⟨j, m⟩, hj, rfl⟩ := List.mem_map.mp hmem
      have hle := htree.le_of_isUnder (hway.mem_iff.mp hj).1
      exact absurd (htree.parents j n p hn hp).1 (Nat.not_lt.mpr hle)

/-! ## The walk -/

/-- The product of the efficiency factors on the way up from a node, where `factor` has been gathered
    so far. Every parent is looked up. The walk is only followed for some steps, and has no result
    when it would go on. -/
def ascend (h : Hierarchy α) : (steps : Nat) → Node α → (factor : α) → Option (Except GroupError α)
  | 0, _, _ => none
  | steps + 1, n, factor =>
    match n.parent with
    | none => some (.ok factor)
    | some p =>
      match h.node p with
      | .error e => some (.error e)
      | .ok above => h.ascend steps above (factor * above.efficiency.val)

/-- The walk ends when it is followed for more steps than there are nodes before its start, and it
    has met the path of the start. -/
theorem IsTree.ascend_eq (htree : h.IsTree) {steps : Nat} (hsteps : id < steps)
    (hn : h.node id = .ok n) (factor : α) : h.ascend steps n factor
      = some (.ok ((h.path id).tail.foldl (fun f above => f * above.efficiency.val) factor)) := by
  induction steps generalizing id n factor with
  | zero => cases hsteps
  | succ steps ih =>
      rw [ascend]
      cases hp : n.parent with
      | none =>
          rw [path_root hn hp]
          rfl
      | some p =>
          obtain ⟨hlt, above, habove, _⟩ := htree.parents id n p hn hp
          have hstart : h.path p = above :: (h.path p).tail := by
            rw [Hierarchy.path_eq habove]
            cases above.parent <;> rfl
          rw [path_child hn hp hlt, List.tail_cons, hstart, List.foldl_cons]
          simp only [habove]
          exact ih (by omega) habove _

end Paths

/-! ## The product -/

section Products

variable [ExactScalar α] {h : Hierarchy α} {id : Nat} {n : Node α} {way : List (Nat × Node α)}

/-- The product of the efficiency factors of some nodes. -/
def efficiencyOf (way : List (Nat × Node α)) : α := (way.map fun stop => stop.2.efficiency.val).prod

theorem efficiencyOf_pos (way : List (Nat × Node α)) : 0 < efficiencyOf way := by
  refine List.prod_pos fun x hx => ?_
  obtain ⟨stop, _, rfl⟩ := List.mem_map.mp hx
  exact stop.2.efficiency.pos

/-- The accumulated factor of a node is the product over its way up. -/
theorem Ascent.efficiency_eq (hway : h.Ascent id way) (htree : h.IsTree) :
    h.efficiency id = .ok (efficiencyOf way) := by
  have hfold : ∀ (l : List (Nat × Node α)) (factor : α),
      (l.map (·.2)).foldl (fun f above => f * above.efficiency.val) factor
        = factor * efficiencyOf l := by
    intro l
    induction l with
    | nil => intro factor; exact (mul_one factor).symm
    | cons stop rest ih =>
        intro factor
        rw [List.map_cons, List.foldl_cons, ih, mul_assoc, efficiencyOf, efficiencyOf,
          List.map_cons, List.prod_cons]
  have hstart : ∃ n rest, h.node id = .ok n ∧ way = (id, n) :: rest := by
    cases hway with
    | root hn _ => exact ⟨_, _, hn, rfl⟩
    | child hn _ _ => exact ⟨_, _, hn, rfl⟩
  obtain ⟨n, rest, hn, rfl⟩ := hstart
  rw [efficiency, hn, hway.path_eq htree]
  exact congrArg Except.ok (hfold rest n.efficiency.val)

end Products

end Hierarchy

/-- In every site that calls lead to, the walk from a node up to its root ends without error, within
    as many steps as there are nodes up to its start. It gathers the efficiency factors of the nodes
    that the start lies under, itself included and each of them once. Their product is greater than
    zero; that of a child is the factor of the child times the product of its parent. -/
theorem Site.efficiency_serve [ExactScalar α] (phases : ActivePhases) (calls : List (Call α))
    {id : Nat} {n : Node α} (hn : ((vacant phases).serve calls).hierarchy.node id = .ok n) :
    let h := ((vacant phases).serve calls).hierarchy
    (∀ steps > id, h.ascend steps n n.efficiency.val = some (h.efficiency id)) ∧
    (∃ way, h.Ascent id way ∧ (way.map (·.1)).Nodup ∧
      (∀ j m, (j, m) ∈ way ↔ h.IsUnder j id ∧ h.node j = .ok m) ∧
      h.efficiency id = .ok ((way.map fun stop => stop.2.efficiency.val).prod)) ∧
    (∃ factor, h.efficiency id = .ok factor ∧ 0 < factor) ∧
    ∀ p, n.parent = some p →
      ∃ factor, h.efficiency p = .ok factor ∧ h.efficiency id = .ok (n.efficiency.val * factor) := by
  intro h
  have htree : h.IsTree := serve_isTree phases calls
  obtain ⟨way, hway⟩ := htree.exists_ascent hn
  refine ⟨fun steps hsteps => ?_, ⟨way, hway, hway.nodup htree, fun j m => hway.mem_iff,
    hway.efficiency_eq htree⟩, ⟨_, hway.efficiency_eq htree, Hierarchy.efficiencyOf_pos way⟩, ?_⟩
  · rw [htree.ascend_eq hsteps hn, Hierarchy.efficiency, hn]
    rfl
  · intro p hp
    obtain ⟨_, g, hg, _⟩ := htree.parents id n p hn hp
    obtain ⟨above, habove⟩ := htree.exists_ascent hg
    refine ⟨_, habove.efficiency_eq htree, ?_⟩
    rw [(Hierarchy.Ascent.child hn hp habove).efficiency_eq htree]
    exact congrArg Except.ok List.prod_cons

/-- A well three groups down, and another one beside the lowest group. The factor of the platform is
    changed at the end. -/
def Site.manifoldCalls : List (Call ℚ) := [
  .addGroup "FIELD" none ⟨9 / 10, by decide +kernel⟩ ⟨.default, .default⟩,
  .addGroup "PLAT" (some 0) ⟨4 / 5, by decide +kernel⟩ ⟨.default, .default⟩,
  .addGroup "MANI" (some 1) .half ⟨.default, .default⟩,
  .addWell "P2" (some 1) .half (.producer .default),
  .addWell "P1" (some 2) ⟨19 / 20, by decide +kernel⟩ (.producer .default),
  .edit 1 (.efficiency .half)]

/-- The hierarchy of that field. -/
def Site.manifold : Hierarchy ℚ := ((vacant ⟨true, true, true⟩).serve manifoldCalls).hierarchy

/-- The well three groups down. -/
def Site.manifoldWell : Node ℚ := manifold.nodes.get ⟨4, by decide +kernel⟩

/-- Its factor has the new one of the platform in it, and not that of the other well. -/
theorem Site.efficiency_serve_manifold : manifold.node 4 = .ok manifoldWell ∧
    (∃ way, manifold.Ascent 4 way ∧ (way.map (·.1)).Nodup ∧
      (∀ j m, (j, m) ∈ way ↔ manifold.IsUnder j 4 ∧ manifold.node j = .ok m)) ∧
    manifold.ascend 5 manifoldWell manifoldWell.efficiency.val = some (.ok (171 / 800)) := by
  have hn : manifold.node 4 = .ok manifoldWell :=
    Hierarchy.node_eq_ok.mpr (List.getElem?_eq_getElem _)
  obtain ⟨hwalk, ⟨way, hway, hnodup, hmem, _⟩, _⟩ :=
    efficiency_serve ⟨true, true, true⟩ manifoldCalls hn
  refine ⟨hn, ⟨way, hway, hnodup, hmem⟩, (hwalk 5 (by decide)).trans (congrArg some ?_)⟩
  decide +kernel

end ReservoirWells
