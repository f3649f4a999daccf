import ReservoirWells.Proofs.Group.Subtree

/-! # Lasting — the part of a node that no order changes

    Orders change modes, flags and group slots, and nothing else.  A node without these is
    `Node.lasting`; its name, its parent, its guide rates, its efficiency factor and the entry that
    it stands for can all be read off there.

    A forest is unfolded from a node list by parents and roles alone, so rewriting every node by a
    function that keeps those rewrites the forest in place (`Forest.ofNodes_map`).  Two
    hierarchies with the same lasting nodes therefore have the same forests, up to modes, flags and
    slots. -/

namespace ReservoirWells

variable {α : Type} [Scalar α]

/-- The role without a group slot. -/
def NodeRole.lasting : NodeRole → NodeRole
  | .group => .group
  | .well link => .well { link with groupSlot := none }

namespace Node

/-- The node without modes, with the flags of a new node, and without a group slot. -/
def lasting (n : Node α) : Node α :=
  { n with
    specs := (n.specs.adopt (.production .none)).adopt (.injection .none)
    individual := true
    outdated := false
    role := n.role.lasting }

/-! ## What can be read off -/

section Lasting

variable (n : Node α)

theorem lasting_link? :
    n.lasting.link? = n.link?.map fun link => { link with groupSlot := none } := by
  rw [link?, link?, lasting]
  cases n.role <;> rfl

@[simp] theorem lasting_isGroup : n.lasting.isGroup = n.isGroup := by
  rw [isGroup, lasting_link?, isGroup]
  cases n.link? <;> rfl

@[simp] theorem lasting_attachment? : n.lasting.attachment? = n.attachment? := by
  rw [attachment?, lasting_link?, attachment?]
  cases n.link? <;> rfl

@[simp] theorem lasting_isKind (kind : WellKind) : n.lasting.isKind kind = n.isKind kind := by
  rw [isKind, lasting_attachment?, isKind]

@[simp] theorem lasting_tableIndex : n.lasting.tableIndex = n.tableIndex := by
  rw [tableIndex, lasting_attachment?, tableIndex]
  rfl

end Lasting

/-- Nodes that differ in modes, flags and slots only stand for the same entry. -/
theorem attachment?_of_lasting {n m : Node α} (h : n.lasting = m.lasting) :
    n.attachment? = m.attachment? := by
  rw [← n.lasting_attachment?, h, m.lasting_attachment?]

theorem tableIndex_of_lasting {n m : Node α} (h : n.lasting = m.lasting) :
    n.tableIndex = m.tableIndex := by
  rw [← n.lasting_tableIndex, h, m.lasting_tableIndex]

/-! ## What orders do to a node -/

/-- A change of the group slot does not last. -/
theorem lasting_modifyLink (n : Node α) {f : WellLink → WellLink}
    (hf : ∀ link, { f link with groupSlot := none } = { link with groupSlot := none }) :
    (n.modifyLink f).lasting = n.lasting := by
  cases hr : n.role with
  | group => simp only [modifyLink, hr]
  | well link => simp only [lasting, modifyLink, hr, NodeRole.lasting, hf]

@[simp] theorem lasting_adopt (n : Node α) (mode : Mode) : (n.adopt mode).lasting = n.lasting := by
  cases mode <;> rfl

end Node

/-! ## Rewriting the nodes of a forest -/

namespace Forest

/-- Rewrites every node of a forest. -/
def map (g : Node α → Node α) : Forest α → Forest α
  | .nil => .nil
  | .well id n next => .well id (g n) (next.map g)
  | .group id n below next => .group id (g n) (below.map g) (next.map g)

/-- A rewriting that keeps parents and roles goes through the unfolding of a node list. -/
theorem ofNodes_map {g : Node α → Node α} (hparent : ∀ n, (g n).parent = n.parent)
    (hrole : ∀ n, (g n).isGroup = n.isGroup) :
    ∀ (l : List (Node α)) (owner : Option Nat) (id : Nat),
      ofNodes owner id (l.map g) = (ofNodes owner id l).map g := by
  intro l
  induction l with
  | nil => intro owner id; rfl
  | cons n rest ih =>
      intro owner id
      rw [List.map_cons, ofNodes, ofNodes, hparent, ih, ih]
      by_cases hp : (n.parent == owner) = true
      · rw [if_pos hp, if_pos hp]
        have hsame := hrole n
        cases hr : n.role with
        | group =>
            cases hr' : (g n).role with
            | group => rfl
            | well link => simp [Node.isGroup, Node.link?, hr, hr'] at hsame
        | well link =>
            cases hr' : (g n).role with
            | group => simp [Node.isGroup, Node.link?, hr, hr'] at hsame
            | well link' => rfl
      · rw [if_neg hp, if_neg hp]

theorem wells_map (g : Node α → Node α) (f : Forest α) :
    (f.map g).wells = f.wells.map fun w => (w.1, g w.2) := by
  induction f with
  | nil => rfl
  | well id n next ih => rw [map, wells, wells, ih, List.map_cons]
  | group id n below next ihb ihn => rw [map, wells, wells, ihb, ihn, List.map_append]

theorem siblings_map (g : Node α → Node α) (f : Forest α) :
    (f.map g).siblings = f.siblings.map fun c => (c.1, g c.2) := by
  induction f with
  | nil => rfl
  | well id n next ih => rw [map, siblings, siblings, ih, List.map_cons]
  | group id n below next _ ihn => rw [map, siblings, siblings, ihn, List.map_cons]

/-- A rewriting that keeps shares keeps the guide rate of a forest, and with `onlyGroup` it has to keep
    the flags of the groups as well. -/
theorem guideTotal_map {g : Node α → Node α} {d : Direction} {onlyGroup : Bool}
    (hshare : ∀ n, (g n).share d onlyGroup = n.share d onlyGroup)
    (hflag : ∀ n, (onlyGroup && (g n).individual) = (onlyGroup && n.individual)) (f : Forest α)
    (sum : α) : (f.map g).guideTotal d onlyGroup sum = f.guideTotal d onlyGroup sum := by
  induction f generalizing sum with
  | nil => rfl
  | well id n next ih => rw [map, guideTotal, guideTotal, hshare, ih]
  | group id n below next ihb ihn =>
      rw [map, guideTotal, guideTotal, ihb, ihn, Bool.and_assoc, hflag, Bool.and_assoc]

end Forest

namespace Hierarchy

/-- A change of one node that cannot be seen in what is read of the nodes leaves that as it is. -/
theorem map_modify {β : Type} {g : Node α → β} {f : Node α → Node α} {h : Hierarchy α} {id : Nat}
    (hf : ∀ n, h.node id = .ok n → g (f n) = g n) :
    (h.modify id f).nodes.map g = h.nodes.map g := by
  show (h.nodes.modify id f).map g = h.nodes.map g
  refine List.ext_getElem? fun j => ?_
  rw [List.getElem?_map, List.getElem?_map, List.getElem?_modify]
  cases hn : h.nodes[j]? with
  | none => rfl
  | some n =>
      show some (g (if id = j then f n else n)) = some (g n)
      by_cases hj : id = j
      · rw [if_pos hj, hf n (node_eq_ok.mpr (hj ▸ hn))]
      · rw [if_neg hj]

/-- Hierarchies of which the same is read have nodes at the same places. -/
theorem node_eq_of_map {β : Type} {g : Node α → β} {h h' : Hierarchy α}
    (hsame : h.nodes.map g = h'.nodes.map g) (id : Nat) :
    (h.node id).map g = (h'.node id).map g := by
  have hget : (h.nodes[id]?).map g = (h'.nodes[id]?).map g := by
    rw [← List.getElem?_map, hsame, List.getElem?_map]
  rw [node, node]
  cases hn : h.nodes[id]? with
  | none =>
      cases hn' : h'.nodes[id]? with
      | none => rfl
      | some n' => rw [hn, hn'] at hget; cases hget
  | some n =>
      cases hn' : h'.nodes[id]? with
      | none => rw [hn, hn'] at hget; cases hget
      | some n' =>
          rw [hn, hn'] at hget
          exact congrArg Except.ok (Option.some.inj hget)

/-- A node of one hierarchy has a counterpart in every hierarchy of which the same is read. -/
theorem exists_node_of_map {β : Type} {g : Node α → β} {h h' : Hierarchy α}
    (hsame : h.nodes.map g = h'.nodes.map g) {id : Nat} {n : Node α} (hn : h.node id = .ok n) :
    ∃ m, h'.node id = .ok m ∧ g m = g n := by
  have hnode := node_eq_of_map hsame id
  cases hm : h'.node id with
  | error e => rw [hn, hm] at hnode; cases hnode
  | ok m =>
      rw [hn, hm] at hnode
      exact ⟨m, rfl, (Except.ok.inj hnode).symm⟩

section Map

variable {g : Node α → Node α} {h h' : Hierarchy α}

/-- Node lists that a rewriting makes equal have the same below a node, up to the rewriting. -/
theorem below_eq_of_map (hparent : ∀ n, (g n).parent = n.parent)
    (hrole : ∀ n, (g n).isGroup = n.isGroup) (hsame : h.nodes.map g = h'.nodes.map g) (id : Nat) :
    (h.below id).map g = (h'.below id).map g := by
  rw [below, below, ← Forest.ofNodes_map hparent hrole, ← Forest.ofNodes_map hparent hrole,
    List.map_drop, List.map_drop, hsame]

/-- And a node has the same subtree, up to the rewriting. -/
theorem subtree_eq_of_map (hparent : ∀ n, (g n).parent = n.parent)
    (hrole : ∀ n, (g n).isGroup = n.isGroup) (hsame : h.nodes.map g = h'.nodes.map g) (id : Nat) :
    (h.subtree id).map (·.map g) = (h'.subtree id).map (·.map g) := by
  have hnode := node_eq_of_map hsame id
  cases hn : h.node id with
  | error e =>
      cases hn' : h'.node id with
      | error e' =>
          rw [hn, hn'] at hnode
          rw [subtree_error hn, subtree_error hn']
          exact congrArg Except.error (Except.error.inj hnode)
      | ok n' => rw [hn, hn'] at hnode; cases hnode
  | ok n =>
      cases hn' : h'.node id with
      | error e' => rw [hn, hn'] at hnode; cases hnode
      | ok n' =>
          rw [hn, hn'] at hnode
          have hg : g n = g n' := Except.ok.inj hnode
          have hkind : n'.isGroup = n.isGroup := by rw [← hrole n', ← hg, hrole n]
          cases hgroup : n.isGroup with
          | true =>
              rw [subtree_group hn hgroup, subtree_group hn' (hkind.trans hgroup)]
              simp only [Except.map, Forest.map, hg, below_eq_of_map hparent hrole hsame id]
          | false =>
              rw [subtree_well hn hgroup, subtree_well hn' (hkind.trans hgroup)]
              simp only [Except.map, Forest.map, hg]

end Map

end Hierarchy

end ReservoirWells
