import ReservoirWells.Group.Node

/-!
# Hierarchies — groups and wells in the order in which they were added

A node names the node above it, which must be there already and must be a group.  So the nodes above
a node come before it in the list, and the path to the root is found in one pass from the node
towards the front (`Hierarchy.path`).

* **`Hierarchy.addGroup`**, **`addWell`** — a new node, or why it was refused.
* **`Hierarchy.attach`** — joins a well to an entry of the well table.
* **`Hierarchy.efficiency`** — the product of the efficiency factors on the path to the root.
-/

namespace ReservoirWells

/-- Groups and wells, addressed by their place in the list. -/
structure Hierarchy (α : Type) [Scalar α] where
  /-- The active phases. -/
  phases : ActivePhases
  /-- All nodes, in the order in which they were added. -/
  nodes : List (Node α)

variable {α : Type} [Scalar α]

namespace Hierarchy

/-- A hierarchy without nodes. -/
def empty (phases : ActivePhases) : Hierarchy α := ⟨phases, []⟩

/-- The node at a place. -/
def node (h : Hierarchy α) (id : Nat) : Except GroupError (Node α) :=
  match h.nodes[id]? with
  | some n => .ok n
  | none => .error (.unknownNode id)

/-- Changes the node at a place. -/
def modify (h : Hierarchy α) (id : Nat) (f : Node α → Node α) : Hierarchy α :=
  { h with nodes := h.nodes.modify id f }

/-- Makes one of the changes that callers may make. -/
def edit (h : Hierarchy α) (id : Nat) (e : Edit α) : Except GroupError (Hierarchy α) :=
  (h.node id).map fun _ => h.modify id (·.edit e)

/-! ## Building -/

/-- Refuses a parent that is not in the hierarchy or is a well. -/
def checkParent (h : Hierarchy α) : Option Nat → Except GroupError Unit
  | none => .ok ()
  | some id =>
    match h.node id with
    | .ok parent => if parent.isGroup then .ok () else .error (.notAGroup parent.name)
    | .error e => .error e

/-- Adds a node at the end; the second part is its place. -/
def insert (h : Hierarchy α) (n : Node α) : Except GroupError (Hierarchy α × Nat) :=
  if h.nodes.any (·.name == n.name) then .error (.duplicateName n.name)
  else (h.checkParent n.parent).map fun _ =>
    ({ h with nodes := h.nodes ++ [n] }, h.nodes.length)

/-- Adds a group. -/
def addGroup (h : Hierarchy α) (name : String) (parent : Option Nat) (efficiency : Positive α)
    (specs : Specs α) : Except GroupError (Hierarchy α × Nat) :=
  h.insert (.make name parent efficiency specs .group)

/-- Adds a well, which is not attached yet. -/
def addWell (h : Hierarchy α) (name : String) (parent : Option Nat) (efficiency : Positive α)
    (specs : Specs α) : Except GroupError (Hierarchy α × Nat) :=
  h.insert (.make name parent efficiency specs (.well .detached))

/-- Joins a well to an entry of the well table and remembers the kind of that entry. -/
def attach (h : Hierarchy α) (id index : Nat) (wells : WellTable α) :
    Except GroupError (Hierarchy α) := do
  let entry ← wells.well index
  let n ← h.node id
  if n.isGroup then .error (.notAWell n.name)
  else return h.modify id fun n =>
    n.modifyLink fun link => { link with attachment := some ⟨index, entry.kind⟩ }

/-! ## Looking around -/

/-- The places of the nodes directly below a node; for `none`, of the roots. -/
def childrenOf (h : Hierarchy α) (owner : Option Nat) : List Nat :=
  (h.nodes.zipIdx.filter fun (n, _) => n.parent == owner).map (·.2)

/-- The places of the nodes without a parent. -/
def roots (h : Hierarchy α) : List Nat := h.childrenOf none

/-- The path from a node to its root, read from a list that runs from the node to the front. Entries
    that are not the wanted node are passed over. -/
def climb (wanted : Nat) : List (Node α × Nat) → List (Node α)
  | [] => []
  | (n, id) :: front =>
    if id == wanted then
      match n.parent with
      | some parent => n :: climb parent front
      | none => [n]
    else climb wanted front

/-- The nodes from a node up to its root, both included. -/
def path (h : Hierarchy α) (id : Nat) : List (Node α) := climb id h.nodes.zipIdx.reverse

/-- The product of the efficiency factors from a node up to its root. -/
def efficiency (h : Hierarchy α) (id : Nat) : Except GroupError α :=
  (h.node id).map fun n =>
    (h.path id).tail.foldl (fun factor above => factor * above.efficiency.val) n.efficiency.val

end Hierarchy

end ReservoirWells
