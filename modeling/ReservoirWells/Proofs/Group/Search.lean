import ReservoirWells.Proofs.Group.Independence
import ReservoirWells.Proofs.Group.Lineage

/-! # Search — nodes by name

    A search looks at a node, and then at what its children find, one child after the other, until
    something is found.  Nothing in that rule says that it ends; that it does is due to the tree:

    * `Hierarchy.search` — the search as a walk from nodes to their children, down to some depth;
    * `Hierarchy.IsTree.search_eq` — the walk never goes deeper than there are nodes, and comes to what
      `Hierarchy.find?` is;
    * `Hierarchy.IsTree.find?_eq_some` — it finds the node with the name, if the start has one under it;
    * `Site.search_serve` — all of it for every site, with the names that two nodes may both find. -/

namespace ReservoirWells

variable {α : Type} [Scalar α]

namespace Forest

variable {h : Hierarchy α} {f : Forest α} {name : String}

/-- What is found in a forest is a node of it with the name; if nothing is found, there is none. -/
theorem find?_cases (hf : f.IsPart h) (name : String) :
    (∃ j n, f.find? name = some j ∧ j ∈ f.postorder ∧ h.node j = .ok n ∧ n.name = name) ∨
      (f.find? name = none ∧ ∀ j ∈ f.postorder, ∀ n, h.node j = .ok n → n.name ≠ name) := by
  induction f with
  | nil =>
      refine Or.inr ⟨rfl, ?_⟩
      intro j hj
      cases hj
  | well id n next ih =>
      obtain ⟨hn, _, hnext⟩ := hf
      rw [find?]
      by_cases hname : n.name = name
      · rw [if_pos (beq_iff_eq.mpr hname)]
        exact Or.inl ⟨id, n, rfl, List.mem_cons_self .., hn, hname⟩
      · rw [if_neg fun heq => hname (eq_of_beq heq)]
        rcases ih hnext with ⟨j, m, hfound, hj, hm⟩ | ⟨hnone, hothers⟩
        · exact Or.inl ⟨j, m, hfound, List.mem_cons_of_mem id hj, hm⟩
        · refine Or.inr ⟨hnone, ?_⟩
          intro j hj m hm
          rcases List.mem_cons.mp hj with rfl | hj
          · rw [← Except.ok.inj (hn.symm.trans hm)]
            exact hname
          · exact hothers j hj m hm
  | group id n below next ihb ihn =>
      obtain ⟨hn, _, _, hbelow, hnext⟩ := hf
      rw [find?]
      by_cases hname : n.name = name
      · rw [if_pos (beq_iff_eq.mpr hname)]
        exact Or.inl ⟨id, n, rfl, List.mem_append.mpr (Or.inr (List.mem_cons_self ..)), hn, hname⟩
      · rw [if_neg fun heq => hname (eq_of_beq heq)]
        rcases ihb hbelow with ⟨j, m, hfound, hj, hm⟩ | ⟨hnone, hothers⟩
        · rw [hfound]
          exact Or.inl ⟨j, m, rfl, List.mem_append.mpr (Or.inl hj), hm⟩
        · rw [hnone]
          rcases ihn hnext with ⟨j, m, hfound, hj, hm⟩ | ⟨hnone', hothers'⟩
          · exact Or.inl ⟨j, m, hfound,
              List.mem_append.mpr (Or.inr (List.mem_cons_of_mem id hj)), hm⟩
          · refine Or.inr ⟨hnone', ?_⟩
            intro j hj m hm
            rcases List.mem_append.mp hj with hj | hj
            · exact hothers j hj m hm
            · rcases List.mem_cons.mp hj with rfl | hj
              · rw [← Except.ok.inj (hn.symm.trans hm)]
                exact hname
              · exact hothers' j hj m hm

end Forest

namespace Hierarchy

variable {h : Hierarchy α} {id : Nat} {n : Node α} {name : String}

theorem find?_of_subtree {f : Forest α} (hf : h.subtree id = .ok f) (name : String) :
    h.find? id name = f.find? name := by
  rw [find?, hf]

theorem find?_well (hn : h.node id = .ok n) (hwell : n.isGroup = false) :
    h.find? id name = if n.name == name then some id else none := by
  rw [find?_of_subtree (subtree_well hn hwell)]
  rfl

theorem find?_group (hn : h.node id = .ok n) (hgroup : n.isGroup = true) :
    h.find? id name = if n.name == name then some id else (h.below id).find? name := by
  rw [find?_of_subtree (subtree_group hn hgroup)]
  show (if n.name == name then some id else _) = _
  cases (h.below id).find? name with
  | none => rfl
  | some j => rfl

theorem find?_error {e : GroupError} (hn : h.node id = .error e) : h.find? id name = none := by
  rw [find?, subtree_error hn]

end Hierarchy

/-- What a forest finds is what the first of its siblings finds that finds anything. -/
theorem Forest.find?_eq_findSome? {h : Hierarchy α} {f : Forest α} (hf : f.IsPart h)
    (name : String) : f.find? name = (f.siblings.map (·.1)).findSome? (h.find? · name) := by
  induction f with
  | nil => rfl
  | well id n next ih =>
      obtain ⟨hn, hwell, hnext⟩ := hf
      rw [siblings, List.map_cons, List.findSome?_cons, Hierarchy.find?_well hn hwell, ← ih hnext,
        find?]
      cases n.name == name with
      | true => rfl
      | false => rfl
  | group id n below next ihb ihn =>
      obtain ⟨hn, hgroup, hbelow, _, hnext⟩ := hf
      rw [siblings, List.map_cons, List.findSome?_cons, Hierarchy.find?_group hn hgroup,
        ← ihn hnext, ← hbelow, find?]
      cases n.name == name with
      | true => rfl
      | false => cases below.find? name <;> rfl

namespace Hierarchy

variable {h : Hierarchy α} {id : Nat} {n : Node α} {name : String}

/-- A well has no children. -/
theorem IsTree.childrenOf_well (htree : h.IsTree) (hn : h.node id = .ok n)
    (hwell : n.isGroup = false) : h.childrenOf (some id) = [] := by
  refine List.eq_nil_iff_forall_not_mem.mpr fun c hc => ?_
  obtain ⟨m, hm, hp⟩ := mem_childrenOf.mp hc
  obtain ⟨_, g, hg, hgroup⟩ := htree.parents c m id hm hp
  rw [Except.ok.inj (hg.symm.trans hn), hwell] at hgroup
  cases hgroup

/-- A node finds itself, or else what its children find. -/
theorem IsTree.find?_eq (htree : h.IsTree) (hn : h.node id = .ok n) : h.find? id name
    = if n.name == name then some id else (h.childrenOf (some id)).findSome? (h.find? · name) := by
  cases hg : n.isGroup with
  | true =>
      rw [find?_group hn hg, Forest.find?_eq_findSome? (h.below_isPart id), htree.siblings_below]
  | false => rw [find?_well hn hg, htree.childrenOf_well hn hg, List.findSome?_nil]

/-! ## The walk -/

/-- The search as a walk from a node to its children. It is only followed down to some depth, and has
    no result when it would go deeper. -/
def search (h : Hierarchy α) (name : String) : (depth id : Nat) → Option (Option Nat)
  | 0, _ => none
  | depth + 1, id =>
    match h.node id with
    | .error _ => some none
    | .ok n =>
      if n.name == name then some (some id)
      else (h.childrenOf (some id)).findSomeM? (search h name depth)

/-- A walk that is followed deeper than there are nodes from its start on ends with what is found. -/
theorem IsTree.search_eq (htree : h.IsTree) (name : String) {depth id : Nat}
    (hdepth : h.nodes.length - id < depth) : h.search name depth id = some (h.find? id name) := by
  induction depth generalizing id with
  | zero => exact absurd hdepth (Nat.not_lt_zero _)
  | succ depth ih =>
      rw [search]
      cases hn : h.node id with
      | error e =>
          rw [find?_error hn]
      | ok n =>
          obtain ⟨hlt, _⟩ := List.getElem?_eq_some_iff.mp (node_eq_ok.mp hn)
          -- children come later, so there are fewer nodes from them on
          have hchildren : ∀ c ∈ h.childrenOf (some id),
              h.search name depth c = some (h.find? c name) := by
            intro c hc
            obtain ⟨m, hm, hp⟩ := mem_childrenOf.mp hc
            have hlater := (htree.parents c m id hm hp).1
            exact ih (by omega)
          rw [htree.find?_eq hn]
          show (if n.name == name then some (some id) else _) = _
          rw [findSomeM?_of_forall hchildren]
          exact (apply_ite some ..).symm

/-! ## What is found -/

/-- No two nodes of a tree have the same name. -/
theorem IsTree.eq_of_name (htree : h.IsTree) {j k : Nat} {m : Node α} (hn : h.node j = .ok n)
    (hm : h.node k = .ok m) (hname : n.name = m.name) : j = k := by
  obtain ⟨hj, _⟩ := List.getElem?_eq_some_iff.mp (node_eq_ok.mp hn)
  refine (List.getElem?_inj (by rwa [List.length_map]) htree.names).mp ?_
  rw [List.getElem?_map, List.getElem?_map, node_eq_ok.mp hn, node_eq_ok.mp hm, Option.map_some,
    Option.map_some, hname]

/-- A node is found from another one when it has the name and lies under that one. -/
theorem IsTree.find?_eq_some (htree : h.IsTree) {j : Nat} : h.find? id name = some j ↔
    (∃ m, h.node id = .ok m) ∧ h.IsUnder id j ∧ ∃ n, h.node j = .ok n ∧ n.name = name := by
  have hsubtree : ∀ {m}, h.node id = .ok m → ∃ f, h.subtree id = .ok f := by
    intro m hm
    rw [subtree, hm]
    exact ⟨_, rfl⟩
  constructor
  · intro hfound
    cases hm : h.node id with
    | error e =>
        rw [find?_error hm] at hfound
        cases hfound
    | ok m =>
        obtain ⟨f, hf⟩ := hsubtree hm
        rw [find?_of_subtree hf] at hfound
        rcases f.find?_cases (subtree_isPart hf) name with ⟨k, n, hk, hplace, hn⟩ | ⟨hnone, _⟩
        · obtain rfl : k = j := Option.some.inj (hk.symm.trans hfound)
          exact ⟨⟨m, rfl⟩, isUnder_of_mem_subtree hf hplace, n, hn⟩
        · rw [hnone] at hfound
          cases hfound
  · rintro ⟨⟨m, hm⟩, hunder, n, hn, hname⟩
    obtain ⟨f, hf⟩ := hsubtree hm
    rw [find?_of_subtree hf]
    have hplace := (htree.mem_postorder_subtree hf hn).mpr hunder
    rcases f.find?_cases (subtree_isPart hf) name with ⟨k, n', hk, _, hn', hname'⟩ | ⟨_, hothers⟩
    · rw [htree.eq_of_name hn hn' (hname.trans hname'.symm)]
      exact hk
    · exact absurd hname (hothers j hplace n hn)

end Hierarchy

/-- In every site that calls lead to, the search for a name ends, within as many steps down as there
    are nodes from its start on. It finds the one node with the name if that lies under the start, and
    nothing otherwise; two nodes of which neither lies under the other never both find a name. -/
theorem Site.search_serve (phases : ActivePhases) (calls : List (Call α)) (start : Nat)
    (name : String) :
    let h := ((vacant phases).serve calls).hierarchy
    (∀ depth > h.nodes.length - start, h.search name depth start = some (h.find? start name)) ∧
    (∀ j, h.find? start name = some j ↔ (∃ m, h.node start = .ok m) ∧ h.IsUnder start j ∧
      ∃ n, h.node j = .ok n ∧ n.name = name) ∧
    (∀ j k n m, h.node j = .ok n → h.node k = .ok m → n.name = name → m.name = name → j = k) ∧
    ∀ other, ¬ h.IsUnder start other → ¬ h.IsUnder other start →
      h.find? start name = none ∨ h.find? other name = none := by
  intro h
  have htree : h.IsTree := serve_isTree phases calls
  refine ⟨fun depth hdepth => htree.search_eq name hdepth, fun j => htree.find?_eq_some, ?_, ?_⟩
  · intro j k n m hn hm hname hname'
    exact htree.eq_of_name hn hm (hname.trans hname'.symm)
  · intro other hapart hapart'
    cases hfound : h.find? start name with
    | none => exact Or.inl rfl
    | some j =>
        cases hfound' : h.find? other name with
        | none => exact Or.inr rfl
        | some k =>
            -- both would have found the same node, which would lie under both
            obtain ⟨_, hunder, n, hn, hname⟩ := htree.find?_eq_some.mp hfound
            obtain ⟨_, hunder', m, hm, hname'⟩ := htree.find?_eq_some.mp hfound'
            obtain rfl := htree.eq_of_name hn hm (hname.trans hname'.symm)
            exact absurd hunder' (Hierarchy.not_isUnder_both hapart hapart' hunder)

end ReservoirWells
