import ReservoirWells.Phase

/-!
# Control modes and their keywords

A well or a group is controlled on one quantity at a time.  The modes have fixed keywords, which is
how they are written in input decks and in messages; reading accepts exactly the keywords that
writing produces.  The phase of an injector is the exception: only its first letter counts.

* **`ProductionMode`**, **`InjectionMode`** — the modes of each direction.
* **`Mode`** — a mode of either direction, for places that take both.
* **`Procedure`** — how a group answers a broken production target.
-/

namespace ReservoirWells

/-- The families of keywords. -/
inductive KeywordKind
  | productionMode
  | injectionMode
  | procedure
  | injectedPhase
  deriving Repr, DecidableEq

/-- What a family is called in messages. -/
def KeywordKind.name : KeywordKind → String
  | .productionMode => "production control mode"
  | .injectionMode => "injection control mode"
  | .procedure => "violation procedure"
  | .injectedPhase => "injector type"

/-- A word that is no keyword of its family. -/
structure KeywordError where
  /-- The family that was asked for. -/
  kind : KeywordKind
  /-- The word as it was given. -/
  word : String
  deriving Repr, DecidableEq

/-- The wording of a refused keyword. -/
def KeywordError.message (e : KeywordError) : String :=
  "unknown " ++ e.kind.name ++ " keyword `" ++ e.word ++ "`"

/-- The value whose keyword is the given word. -/
def readKeyword {β : Type} (kind : KeywordKind) (keyword : β → String) (all : List β)
    (word : String) : Except KeywordError β :=
  match all.find? fun b => keyword b == word with
  | some b => .ok b
  | none => .error ⟨kind, word⟩

/-! ## Production -/

/-- What production is controlled on. -/
inductive ProductionMode
  /-- No control. -/
  | none
  /-- Oil rate. -/
  | orat
  /-- Water rate. -/
  | wrat
  /-- Gas rate. -/
  | grat
  /-- Liquid rate, oil and water together. -/
  | lrat
  /-- A combination of rates. -/
  | crat
  /-- Volume rate at reservoir conditions. -/
  | resv
  /-- Production balancing. -/
  | prbl
  /-- Bottom-hole pressure. -/
  | bhp
  /-- Tubing-head pressure. -/
  | thp
  /-- The group above. -/
  | grup
  /-- A share of the target of a group higher up. -/
  | fld
  deriving Repr, DecidableEq, Inhabited

namespace ProductionMode

/-- All production modes. -/
def all : List ProductionMode :=
  [.none, .orat, .wrat, .grat, .lrat, .crat, .resv, .prbl, .bhp, .thp, .grup, .fld]

/-- The keyword of a mode. -/
def keyword : ProductionMode → String
  | .none => "NONE"
  | .orat => "ORAT"
  | .wrat => "WRAT"
  | .grat => "GRAT"
  | .lrat => "LRAT"
  | .crat => "CRAT"
  | .resv => "RESV"
  | .prbl => "PRBL"
  | .bhp => "BHP"
  | .thp => "THP"
  | .grup => "GRUP"
  | .fld => "FLD"

/-- Reads a keyword. -/
def read (word : String) : Except KeywordError ProductionMode :=
  readKeyword .productionMode keyword all word

/-- The phases whose surface rates a mode adds up, in the order of addition; `none` for a mode that
    is not about surface rates. -/
def surfacePhases? : ProductionMode → Option (List Phase)
  | .orat => some [.oil]
  | .wrat => some [.water]
  | .grat => some [.gas]
  | .lrat => some [.oil, .water]
  | _ => Option.none

/-- The modes that bound a rate. -/
def isRate (m : ProductionMode) : Bool := m.surfacePhases?.isSome || m == .resv

end ProductionMode

/-! ## Injection -/

/-- What injection is controlled on. -/
inductive InjectionMode
  /-- No control. -/
  | none
  /-- Surface rate. -/
  | rate
  /-- Volume rate at reservoir conditions. -/
  | resv
  /-- Bottom-hole pressure. -/
  | bhp
  /-- Tubing-head pressure. -/
  | thp
  /-- A fraction of what is produced is injected again. -/
  | rein
  /-- A fraction of the produced volume is replaced. -/
  | vrep
  /-- The group above. -/
  | grup
  /-- A share of the target of a group higher up. -/
  | fld
  deriving Repr, DecidableEq, Inhabited

namespace InjectionMode

/-- All injection modes. -/
def all : List InjectionMode :=
  [.none, .rate, .resv, .bhp, .thp, .rein, .vrep, .grup, .fld]

/-- The keyword of a mode. -/
def keyword : InjectionMode → String
  | .none => "NONE"
  | .rate => "RATE"
  | .resv => "RESV"
  | .bhp => "BHP"
  | .thp => "THP"
  | .rein => "REIN"
  | .vrep => "VREP"
  | .grup => "GRUP"
  | .fld => "FLD"

/-- Reads a keyword. -/
def read (word : String) : Except KeywordError InjectionMode :=
  readKeyword .injectionMode keyword all word

end InjectionMode

/-! ## Either direction -/

/-- Out of the reservoir or into it. -/
inductive Direction
  | production
  | injection
  deriving Repr, DecidableEq, Inhabited

/-- A mode of either direction. -/
inductive Mode
  | production (mode : ProductionMode)
  | injection (mode : InjectionMode)
  deriving Repr, DecidableEq, Inhabited

namespace Mode

/-- The direction of a mode. -/
def direction : Mode → Direction
  | .production _ => .production
  | .injection _ => .injection

/-- The mode as messages spell it. -/
def name : Mode → String
  | .production m => "production " ++ m.keyword
  | .injection m => "injection " ++ m.keyword

end Mode

/-! ## Procedures and injected phases -/

/-- What a group does when one of its production targets is exceeded. -/
inductive Procedure
  /-- Nothing. -/
  | none
  /-- Take the well with the largest rate out of production. -/
  | well
  /-- Share the target out as group control. -/
  | rate
  deriving Repr, DecidableEq, Inhabited

namespace Procedure

/-- All procedures. -/
def all : List Procedure := [.none, .well, .rate]

/-- The keyword of a procedure. -/
def keyword : Procedure → String
  | .none => "NONE"
  | .well => "WELL"
  | .rate => "RATE"

/-- Reads a keyword. -/
def read (word : String) : Except KeywordError Procedure :=
  readKeyword .procedure keyword all word

end Procedure

/-- Reads the phase of an injector by its first letter. -/
def Phase.readInjected (word : String) : Except KeywordError Phase :=
  match word.toList with
  | 'W' :: _ => .ok .water
  | 'O' :: _ => .ok .oil
  | 'G' :: _ => .ok .gas
  | _ => .error ⟨.injectedPhase, word⟩

end ReservoirWells
