import ReservoirWells.Control.Mode

/-!
# What can go wrong with groups

Each error is a cause; its wording is in `GroupError.message` alone.
-/

namespace ReservoirWells

/-- The operations that only some control modes support. -/
inductive Activity
  | productionRate
  | injectionRate
  | productionTarget
  | injectionTarget
  | wellControl
  | productionControls
  | injectionControls
  | productionUpdate
  | wellProductionRate
  deriving Repr, DecidableEq

/-- How messages describe an operation. -/
def Activity.name : Activity → String
  | .productionRate => "computing a production rate"
  | .injectionRate => "computing an injection rate"
  | .productionTarget => "querying a production target"
  | .injectionTarget => "querying an injection target"
  | .wellControl => "applying a group control to a well"
  | .productionControls => "applying group production controls"
  | .injectionControls => "applying group injection controls"
  | .productionUpdate => "updating well production targets"
  | .wellProductionRate => "computing a well production rate"

/-- What is not available. -/
inductive Missing
  | groupProductionRate
  | tubingHeadLimit
  deriving Repr, DecidableEq

/-- How messages describe what is not available. -/
def Missing.name : Missing → String
  | .groupProductionRate => "production rate of a group"
  | .tubingHeadLimit => "THP limit checking"

/-- The flat lists that hold a value per well, or per well and phase. -/
inductive RateKind
  | reservoir
  | surface
  | bottomHolePressure
  | phaseFlow
  deriving Repr, DecidableEq

/-- How messages describe a list of rates. -/
def RateKind.name : RateKind → String
  | .reservoir => "reservoir"
  | .surface => "surface"
  | .bottomHolePressure => "bottom-hole pressure"
  | .phaseFlow => "phase flow"

/-- An error of the group tree, the well table or the rates. -/
inductive GroupError
  /-- The mode means nothing to the operation. -/
  | unsupportedMode (mode : Mode) (activity : Activity)
  /-- The operation stops at something not available. -/
  | notImplemented (missing : Missing)
  /-- A target cannot be shared out when no child has a guide rate. -/
  | zeroGuideRate (group : String)
  /-- The group has no target in its mode. -/
  | undefinedTarget (group : String) (mode : Mode)
  /-- The phase is not active. -/
  | phaseNotActive (phase : Phase)
  /-- The node is not attached to a well. -/
  | wellNotAttached (name : String)
  /-- The well table has no such entry. -/
  | unknownWell (index : Nat)
  /-- A list of rates ends too early. -/
  | ratesTooShort (kind : RateKind) (length required : Nat)
  /-- The group follows its parent but has none. -/
  | missingParent (name : String)
  /-- The name is taken. -/
  | duplicateName (name : String)
  /-- Wells have no children. -/
  | notAGroup (name : String)
  /-- Groups are not attached to wells. -/
  | notAWell (name : String)
  /-- The tree has no such node. -/
  | unknownNode (id : Nat)
  deriving Repr, DecidableEq

/-- A name between the marks that messages put around names. -/
def GroupError.marked (name : String) : String := "`" ++ name ++ "`"

/-- The wording of each error. -/
def GroupError.message : GroupError → String
  | .unsupportedMode mode activity => mode.name ++ " is not supported when " ++ activity.name
  | .notImplemented missing => missing.name ++ " is not implemented"
  | .zeroGuideRate group => "sum of guide rates is zero for group " ++ GroupError.marked group
  | .undefinedTarget group mode =>
    "group " ++ GroupError.marked group ++ " has no defined " ++ mode.name ++ " target"
  | .phaseNotActive phase => phase.name ++ " phase is not active"
  | .wellNotAttached name =>
    "well " ++ GroupError.marked name ++ " is not attached to the well table"
  | .unknownWell index => "well table has no entry " ++ toString index
  | .ratesTooShort kind length required =>
    kind.name ++ " rates hold " ++ toString length ++ " entries, at least " ++ toString required
      ++ " are needed"
  | .missingParent name => "node " ++ GroupError.marked name ++ " has no parent"
  | .duplicateName name => "a node named " ++ GroupError.marked name ++ " already exists"
  | .notAGroup name => "node " ++ GroupError.marked name ++ " is a well and cannot have children"
  | .notAWell name => "node " ++ GroupError.marked name ++ " is a group, not a well"
  | .unknownNode id => "node NodeId(" ++ toString id ++ ") does not belong to this tree"

end ReservoirWells
