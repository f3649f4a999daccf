import ReservoirWells.Group.Hierarchy

/-!
# Forests — a part of a hierarchy seen from above

A forest is a row of sibling nodes, each group with the forest of its children.  `Forest.ofNodes`
unfolds the node list of a hierarchy into forests: since a node comes after its parent, one pass
over the rest of the list finds all children, and the recursion is on that list.

`Hierarchy.subtree` is the forest of a single node.  All questions about the wells below a node are
recursions on it:

* **`Forest.find?`** — the first node with a name, depth first.
* **`Forest.wellCount`** — the number of wells.
* **`Forest.guideTotal`** — the guide rates added up, over all wells or over those that take
  part in group control.
-/

namespace ReservoirWells

/-- Sibling nodes in order, each group with the forest below it. -/
inductive Forest (α : Type) [Scalar α]
  /-- No more siblings. -/
  | nil
  /-- A well, then its later siblings. -/
  | well (id : Nat) (node : Node α) (next : Forest α)
  /-- A group, the forest below it, then its later siblings. -/
  | group (id : Nat) (node : Node α) (below next : Forest α)

variable {α : Type} [Scalar α]

namespace Forest

/-- The nodes of a list whose parent is `owner`, with everything below them. The list starts at
    place `id` of the hierarchy. -/
def ofNodes (owner : Option Nat) (id : Nat) : List (Node α) → Forest α
  | [] => .nil
  | n :: rest =>
    if n.parent == owner then
      match n.role with
      | .well _ => .well id n (ofNodes owner (id + 1) rest)
      | .group => .group id n (ofNodes (some id) (id + 1) rest) (ofNodes owner (id + 1) rest)
    else ofNodes owner (id + 1) rest

/-- The siblings themselves, without what is below them. -/
def siblings : Forest α → List (Nat × Node α)
  | .nil => []
  | .well id n next => (id, n) :: next.siblings
  | .group id n _ next => (id, n) :: next.siblings

/-- The first node with a name: a node comes before those below it, and these before its later
    siblings. -/
def find? (name : String) : Forest α → Option Nat
  | .nil => none
  | .well id n next => if n.name == name then some id else next.find? name
  | .group id n below next =>
    if n.name == name then some id
    else match below.find? name with
      | some found => some found
      | none => next.find? name

/-- The number of wells. -/
def wellCount : Forest α → Nat
  | .nil => 0
  | .well _ _ next => 1 + next.wellCount
  | .group _ _ below next => below.wellCount + next.wellCount

end Forest

/-- The guide rate that a well brings into a sharing: nothing when only wells under group control
    count and it is under individual control. -/
def Node.share (n : Node α) (d : Direction) (onlyGroup : Bool) : α :=
  if onlyGroup && n.individual then 0 else n.specs.guideRate d

namespace Forest

/-- The guide rates of the wells of a forest, added to `sum`. With `onlyGroup`, wells under
    individual control bring nothing, and for production a group under individual control
    brings nothing either. -/
def guideTotal (d : Direction) (onlyGroup : Bool) : α → Forest α → α
  | sum, .nil => sum
  | sum, .well _ n next => guideTotal d onlyGroup (sum + n.share d onlyGroup) next
  | sum, .group _ n below next =>
    guideTotal d onlyGroup
      (if d == .production && onlyGroup && n.individual then sum
        else sum + guideTotal d onlyGroup 0 below) next

end Forest

namespace Hierarchy

/-- The forest below a group; a well has nothing below it. -/
def below (h : Hierarchy α) (id : Nat) : Forest α :=
  .ofNodes (some id) (id + 1) (h.nodes.drop (id + 1))

/-- A node with everything below it, as a forest of one tree. -/
def subtree (h : Hierarchy α) (id : Nat) : Except GroupError (Forest α) :=
  (h.node id).map fun n =>
    match n.role with
    | .well _ => .well id n .nil
    | .group => .group id n (h.below id) .nil

/-- The first node with a name in the subtree of `start`; nothing when `start` is not in the
    hierarchy. -/
def find? (h : Hierarchy α) (start : Nat) (name : String) : Option Nat :=
  match h.subtree start with
  | .ok f => f.find? name
  | .error _ => none

/-- The number of wells in the subtree of a node. -/
def wellCount (h : Hierarchy α) (id : Nat) : Except GroupError Nat :=
  (h.subtree id).map (·.wellCount)

/-- The guide rate of a node: its own if it is a well, that of the wells below it if it is a
    group. The flag of the node itself counts only for a well. -/
def guideRate (h : Hierarchy α) (d : Direction) (id : Nat) (onlyGroup : Bool) :
    Except GroupError α :=
  (h.node id).map fun n =>
    match n.role with
    | .well _ => n.share d onlyGroup
    | .group => (h.below id).guideTotal d onlyGroup 0

end Hierarchy

end ReservoirWells
