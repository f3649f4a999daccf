import ReservoirWells.Control.Specs
import ReservoirWells.Control.WellTable

/-!
# Nodes — groups and wells

A node is a group or a well.  Both carry specifications for either direction, an efficiency factor
and two flags; a well also says which entry of the well table it stands for, and which place of
that entry's control list belongs to the group control.

A well produces or injects only once it is attached; before that it does neither.
-/

namespace ReservoirWells

/-- The table entry that a well stands for, and what that entry was when the well was attached. -/
structure Attachment where
  /-- Index in the well table. -/
  index : Nat
  /-- Whether the entry produces or injects. -/
  kind : WellKind
  deriving Repr, DecidableEq, Inhabited

/-- What only wells have. -/
structure WellLink where
  /-- The table entry, once attached. -/
  attachment : Option Attachment
  /-- The place of the group control in the control list, once there is one. -/
  groupSlot : Option Nat
  /-- Whether the well stops when it is withdrawn, or stays open at rate zero. -/
  stopsWhenWithdrawn : Bool
  deriving Repr, DecidableEq, Inhabited

/-- A well that is not attached yet. -/
def WellLink.detached : WellLink := ⟨none, none, true⟩

/-- A group, or a well. -/
inductive NodeRole
  | group
  | well (link : WellLink)
  deriving Repr, DecidableEq, Inhabited

/-- A node of a hierarchy. -/
structure Node (α : Type) [Scalar α] where
  /-- Its name, unique in the hierarchy. -/
  name : String
  /-- The node above; a root has none. -/
  parent : Option Nat
  /-- The fraction of time in which the node flows. -/
  efficiency : Positive α
  /-- What is asked of it. -/
  specs : Specs α
  /-- Whether the node is left out when group targets are shared. -/
  individual : Bool
  /-- Whether the targets of the node are out of date. -/
  outdated : Bool
  /-- Group or well. -/
  role : NodeRole

variable {α : Type} [Scalar α]

namespace Node

/-- A new node is under individual control and up to date. -/
def make (name : String) (parent : Option Nat) (efficiency : Positive α) (specs : Specs α)
    (role : NodeRole) : Node α :=
  { name, parent, efficiency, specs, individual := true, outdated := false, role }

/-- What only wells have. -/
def link? (n : Node α) : Option WellLink :=
  match n.role with
  | .well link => some link
  | .group => none

/-- Whether the node is a group. -/
def isGroup (n : Node α) : Bool := n.link?.isNone

/-- The table entry of an attached well. -/
def attachment? (n : Node α) : Option Attachment := n.link?.bind (·.attachment)

/-- The place of the group control of a well. -/
def groupSlot? (n : Node α) : Option Nat := n.link?.bind (·.groupSlot)

/-- Whether the node is an attached well of a kind. -/
def isKind (n : Node α) (kind : WellKind) : Bool := (n.attachment?.map (·.kind)) == some kind

/-- An attached producer. -/
def isProducer (n : Node α) : Bool := n.isKind .producer

/-- An attached injector. -/
def isInjector (n : Node α) : Bool := n.isKind .injector

/-- The table index of an attached well. -/
def tableIndex (n : Node α) : Except GroupError Nat :=
  match n.attachment? with
  | some a => .ok a.index
  | none => .error (.wellNotAttached n.name)

/-- Changes what only wells have; a group stays as it is. -/
def modifyLink (n : Node α) (f : WellLink → WellLink) : Node α :=
  match n.role with
  | .well link => { n with role := .well (f link) }
  | .group => n

/-- Puts a mode in force. -/
def adopt (n : Node α) (mode : Mode) : Node α := { n with specs := n.specs.adopt mode }

end Node

/-! ## Edits -/

/-- The changes that a caller may make to a node. None of them moves the node. -/
inductive Edit (α : Type) [Scalar α]
  | individual (value : Bool)
  | outdated (value : Bool)
  | efficiency (factor : Positive α)
  | production (spec : ProductionSpec α)
  | injection (spec : InjectionSpec α)
  | mode (mode : Mode)
  | stopsWhenWithdrawn (value : Bool)

/-- Makes one change. -/
def Node.edit (n : Node α) : Edit α → Node α
  | .individual b => { n with individual := b }
  | .outdated b => { n with outdated := b }
  | .efficiency e => { n with efficiency := e }
  | .production s => { n with specs := { n.specs with production := s } }
  | .injection s => { n with specs := { n.specs with injection := s } }
  | .mode m => n.adopt m
  | .stopsWhenWithdrawn b => n.modifyLink fun link => { link with stopsWhenWithdrawn := b }

end ReservoirWells
