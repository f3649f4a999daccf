import ReservoirWells.Group.Flow

/-!
# Networks — hierarchies that keep the children of every node

A hierarchy finds the children of a node by asking every other node for its parent.  A network
stores them: each member of a network is a node together with the places of the members directly
below it.  Parents and lists of children say the same twice over, and `Network.insert` keeps them in
step: it puts the place of the new member on the list of its parent, and then the member at the end.

A walk down a network follows the stored lists, as far down as the caller says (`Network.unfold`).
No way down is longer than the network has members.

* **`Network.addGroup`**, **`addWell`**, **`attach`**, **`edit`** — the changes, step by step.
* **`Network.below`**, **`subtree`** — what the lists lead to.
-/

namespace ReservoirWells

/-- Steps that change a state and may fail; what was changed before an error stays changed. -/
abbrev Steps (σ β : Type) := EStateM GroupError σ β

/-- Asks for a value, which changes nothing. -/
def Steps.ask {σ β : Type} (value : σ → Except GroupError β) : Steps σ β := fun s =>
  match value s with
  | .ok b => .ok b s
  | .error e => .error e s

/-- A node, and the places of the nodes directly below it; a well has none. -/
structure Member (α : Type) [Scalar α] where
  /-- The node. -/
  node : Node α
  /-- The places of its children, in the order in which they were added. -/
  children : List Nat

/-- Groups and wells with their children, addressed by their place in the list. -/
structure Network (α : Type) [Scalar α] where
  /-- The active phases. -/
  phases : ActivePhases
  /-- All members, in the order in which they were added. -/
  members : List (Member α)

variable {α : Type} [Scalar α]

namespace Network

open Steps

/-- A network without members. -/
def empty (phases : ActivePhases) : Network α := ⟨phases, []⟩

/-- The nodes without their lists of children. -/
def hierarchy (w : Network α) : Hierarchy α := ⟨w.phases, w.members.map (·.node)⟩

/-- The member at a place. -/
def member (w : Network α) (id : Nat) : Except GroupError (Member α) :=
  match w.members[id]? with
  | some m => .ok m
  | none => .error (.unknownNode id)

/-! ## Changing a network -/

/-- Puts a place on the list of a member. -/
def enlist (w : Network α) (parent id : Nat) : Network α :=
  { w with members := w.members.modify parent fun m => { m with children := m.children ++ [id] } }

/-- Puts a node without children at the end. -/
def append (w : Network α) (n : Node α) : Network α :=
  { w with members := w.members ++ [⟨n, []⟩] }

/-- Changes the node of a member. -/
def modifyNode (w : Network α) (id : Nat) (f : Node α → Node α) : Network α :=
  { w with members := w.members.modify id fun m => { m with node := f m.node } }

/-- Adds a node, and returns its place. -/
def insert (n : Node α) : Steps (Network α) Nat := do
  let w ← get
  if w.members.any (·.node.name == n.name) then throw (.duplicateName n.name)
  let id := w.members.length
  if let some parent := n.parent then
    let above ← ask (·.member parent)
    if !above.node.isGroup then throw (.notAGroup above.node.name)
    modify (·.enlist parent id)
  modify (·.append n)
  return id

/-- Adds a group. -/
def addGroup (name : String) (parent : Option Nat) (efficiency : Positive α) (specs : Specs α) :
    Steps (Network α) Nat :=
  insert (.make name parent efficiency specs .group)

/-- Adds a well, which is not attached yet. -/
def addWell (name : String) (parent : Option Nat) (efficiency : Positive α) (specs : Specs α) :
    Steps (Network α) Nat :=
  insert (.make name parent efficiency specs (.well .detached))

/-- Joins a well to an entry of the well table and remembers the kind of that entry. -/
def attach (id index : Nat) (wells : WellTable α) : Steps (Network α) Unit := do
  let entry ← ask fun _ => wells.well index
  let m ← ask (·.member id)
  if m.node.isGroup then throw (.notAWell m.node.name)
  modify (·.modifyNode id fun n =>
    n.modifyLink fun link => { link with attachment := some ⟨index, entry.kind⟩ })

/-- Makes one of the changes that callers may make. -/
def edit (id : Nat) (e : Edit α) : Steps (Network α) Unit := do
  let _ ← ask (·.member id)
  modify (·.modifyNode id (·.edit e))

/-! ## Following the lists -/

/-- The places of the nodes without a parent. -/
def roots (w : Network α) : List Nat :=
  (w.members.zipIdx.filter fun (m, _) => m.node.parent.isNone).map (·.2)

/-- The members of a list as siblings, each with the forest that `below` makes of its own list. -/
def row (w : Network α) (below : List Nat → Except GroupError (Forest α)) :
    List Nat → Except GroupError (Forest α)
  | [] => .ok .nil
  | id :: rest => do
    let m ← w.member id
    let under ← below m.children
    let next ← w.row below rest
    return match m.node.role with
      | .well _ => .well id m.node next
      | .group => .group id m.node under next

/-- The members of a list with everything below them, down to a depth. -/
def unfold (w : Network α) : (depth : Nat) → List Nat → Except GroupError (Forest α)
  | 0 => fun _ => .ok .nil
  | depth + 1 => w.row (w.unfold depth)

/-- The forest below a member. -/
def below (w : Network α) (id : Nat) : Except GroupError (Forest α) := do
  let m ← w.member id
  w.unfold w.members.length m.children

/-- A member with everything below it, as a forest of one tree. -/
def subtree (w : Network α) (id : Nat) : Except GroupError (Forest α) :=
  w.unfold (w.members.length + 1) [id]

/-- The first member with a name in the subtree of `start`. -/
def find? (w : Network α) (start : Nat) (name : String) : Option Nat :=
  match w.subtree start with
  | .ok f => f.find? name
  | .error _ => none

/-- The number of wells in the subtree of a member. -/
def wellCount (w : Network α) (id : Nat) : Except GroupError Nat :=
  (w.subtree id).map (·.wellCount)

/-- The guide rate of a member: its own if it is a well, that of the wells below it if it is a
    group. -/
def guideRate (w : Network α) (d : Direction) (id : Nat) (onlyGroup : Bool) :
    Except GroupError α := do
  let m ← w.member id
  match m.node.role with
  | .well _ => return m.node.share d onlyGroup
  | .group => (w.below id).map fun f => f.guideTotal d onlyGroup 0

/-- The production of a phase in the subtree of a member. The phase is looked at first. -/
def produced (w : Network α) (id : Nat) (flows : List α) (p : Phase) : Except GroupError α := do
  let place ← w.phases.position p
  let f ← w.subtree id
  f.producedAt w.phases.count place flows 0

/-- The well with the largest magnitude of rate in the subtree of a member. -/
def worst (w : Network α) (id : Nat) (rates : RateTable α) (mode : ProductionMode) :
    Except GroupError (Option (Nat × α)) := do
  let f ← w.subtree id
  f.worst w.phases rates mode none

end Network

end ReservoirWells
