import ReservoirWells.Group.Limits

/-! # Calls — everything that a caller can do to a site

    A site starts empty and is changed by calls only: nodes and table entries are added, wells are
    attached, nodes are edited, controls of the table are selected, stopped and opened, and the
    operations of the group controls are carried out.  Calls come in any order and with any
    arguments, and a call that fails may leave part of its work behind.

    * `Site.call` — what becomes of the site under one call, and whether the call went through;
    * `Site.serve` — a list of calls, whatever comes of each of them;
    * `Site.plan`, `Site.call_eq_follow` — the orders that an operation works by;
    * `Site.call_eq_run` — so a call that does not build anything is a run of orders. -/

namespace ReservoirWells

variable {α : Type} [Scalar α]

/-- Questions about a node. -/
inductive Query (α : Type)
  | node
  | efficiency
  | wellCount
  | guideRate (d : Direction) (onlyGroup : Bool)
  | target (mode : Mode)
  | produced (flows : List α) (p : Phase)
  | productionRate (flows : List α) (mode : ProductionMode)
  | worst (rates : RateTable α) (mode : ProductionMode)

/-- Everything that a caller can do. -/
inductive Call (α : Type) [Scalar α]
  /-- A new group. -/
  | addGroup (name : String) (parent : Option Nat) (efficiency : Positive α) (specs : Specs α)
  /-- A new well. -/
  | addWell (name : String) (parent : Option Nat) (efficiency : Positive α) (specs : Specs α)
  /-- Joins a well to a table entry. -/
  | attach (id index : Nat)
  /-- Changes a public field of a node. -/
  | edit (id : Nat) (e : Edit α)
  /-- A new entry at the end of the table. -/
  | enrol (name : String) (kind : WellKind) (controls : List (Control α))
  /-- Makes another control of an entry active. -/
  | select (index place : Nat)
  /-- Stops the well of an entry. -/
  | stop (index : Nat)
  /-- Opens the well of an entry. -/
  | reopen (index : Nat)
  /-- Takes another table from now on. -/
  | useTable (wells : WellTable α)
  | check (id : Nat) (rates : RateTable α)
  | push (id : Nat) (mode : Mode) (target : α) (onlyGroup : Bool)
  | shareProduction (id : Nat)
  | shareInjection (id : Nat)
  | reinject (id : Nat) (rates : RateTable α)
  | refreshProduction (id : Nat) (flows : List α)
  | refreshInjection (id : Nat)
  | withdraw (id : Nat)
  /-- Asks a question and changes nothing. -/
  | ask (id : Nat) (q : Query α)

/-- The orders by which what was found is answered. -/
def Finding.repair : Finding α → List (Order α)
  | .met _ => []
  | .broken repair => repair

namespace Site

/-- An empty site. -/
def vacant (phases : ActivePhases) : Site α := ⟨.empty phases, []⟩

/-- The site with a new hierarchy, if there is one. -/
def rebuild (s : Site α) : Except GroupError (Hierarchy α) → Result α Unit
  | .ok h => ({ s with hierarchy := h }, .ok ())
  | .error e => (s, .error e)

/-- The site with other controls in one entry of the table. -/
def retouch (s : Site α) (index : Nat) (f : ControlList α → ControlList α) : Site α :=
  { s with wells := s.wells.modify index fun w => { w with controls := f w.controls } }

/-- Whether a question has an answer. -/
def ask (s : Site α) (id : Nat) : Query α → Except GroupError Unit
  | .node => (s.hierarchy.node id).map fun _ => ()
  | .efficiency => (s.hierarchy.efficiency id).map fun _ => ()
  | .wellCount => (s.hierarchy.wellCount id).map fun _ => ()
  | .guideRate d onlyGroup => (s.hierarchy.guideRate d id onlyGroup).map fun _ => ()
  | .target mode => (s.hierarchy.target id mode).map fun _ => ()
  | .produced flows p => (s.hierarchy.produced id flows p).map fun _ => ()
  | .productionRate flows mode => (s.hierarchy.productionRate id flows mode).map fun _ => ()
  | .worst rates mode => (s.hierarchy.worst id rates mode).map fun _ => ()

/-- What becomes of the site under a call, and whether the call went through. -/
def call (s : Site α) : Call α → Result α Unit
  | .addGroup name parent efficiency specs =>
    s.rebuild ((s.hierarchy.addGroup name parent efficiency specs).map (·.1))
  | .addWell name parent efficiency specs =>
    s.rebuild ((s.hierarchy.addWell name parent efficiency specs).map (·.1))
  | .attach id index => s.rebuild (s.hierarchy.attach id index s.wells)
  | .edit id e => s.rebuild (s.hierarchy.edit id e)
  | .enrol name kind controls =>
    ({ s with wells := s.wells ++ [.ofControls name kind controls] }, .ok ())
  | .select index place => (s.retouch index (·.select place), .ok ())
  | .stop index => (s.retouch index (·.stop), .ok ())
  | .reopen index => (s.retouch index (·.reopen), .ok ())
  | .useTable wells => ({ s with wells := wells }, .ok ())
  | .check id rates =>
    ((s.checkLimits id rates).1, (s.checkLimits id rates).2.map fun _ => ())
  | .push id mode target onlyGroup => s.pushTarget id mode target onlyGroup
  | .shareProduction id => s.shareProduction id
  | .shareInjection id => s.shareInjection id
  | .reinject id rates => s.reinject id rates
  | .refreshProduction id flows => s.refreshProduction id flows
  | .refreshInjection id => s.refreshInjection id
  | .withdraw id => s.withdrawWell id
  | .ask id q => (s, s.ask id q)

/-- The orders that an operation works by, decided on the site as it stands; a call that is no
    operation has none. -/
def plan (s : Site α) : Call α → Except GroupError (List (Order α))
  | .check id rates =>
    ((s.hierarchy.subtree id).bind
      (·.assess s.hierarchy.phases s.wells rates .zero)).map Finding.repair
  | .push id mode target onlyGroup =>
    (s.hierarchy.subtree id).map fun f =>
      f.push s.hierarchy.phases mode onlyGroup onlyGroup fun _ => target
  | .shareProduction id => (s.hierarchy.subtree id).map (·.ownProduction s.hierarchy.phases)
  | .shareInjection id => (s.hierarchy.subtree id).map (·.ownInjection s.hierarchy.phases)
  | .reinject id rates => s.hierarchy.reinjectionPlan id rates
  | .refreshProduction id flows => s.hierarchy.refreshPlan id flows
  | .refreshInjection id => (s.hierarchy.node id).map fun n =>
    if !n.isGroup then []
    else (s.hierarchy.below id).siblings.flatMap fun (child, c) =>
      if !c.individual && c.isInjector then [.refresh child] else []
  | .withdraw id => .ok [.withdraw id]
  | _ => .ok []

/-- The site after a list of calls, whether or not they went through. -/
def serve (s : Site α) (calls : List (Call α)) : Site α :=
  calls.foldl (fun s c => (s.call c).1) s

end Site

namespace Call

/-- The node that a call wants to add. -/
def newNode? : Call α → Option (Node α)
  | .addGroup name parent efficiency specs => some (.make name parent efficiency specs .group)
  | .addWell name parent efficiency specs =>
    some (.make name parent efficiency specs (.well .detached))
  | _ => none

/-- The call changes the hierarchy by itself, not by orders. -/
def builds : Call α → Bool
  | .addGroup .. => true
  | .addWell .. => true
  | .attach .. => true
  | .edit .. => true
  | _ => false

/-- The call is one of the operations that work by orders. -/
def operates : Call α → Bool
  | .check .. => true
  | .push .. => true
  | .shareProduction .. => true
  | .shareInjection .. => true
  | .reinject .. => true
  | .refreshProduction .. => true
  | .refreshInjection .. => true
  | .withdraw .. => true
  | _ => false

/-- The nodes that a call names. -/
def subjects : Call α → List Nat
  | .addGroup _ parent _ _ => parent.toList
  | .addWell _ parent _ _ => parent.toList
  | .attach id _ => [id]
  | .edit id _ => [id]
  | .enrol .. => []
  | .select .. => []
  | .stop .. => []
  | .reopen .. => []
  | .useTable .. => []
  | .check id _ => [id]
  | .push id _ _ _ => [id]
  | .shareProduction id => [id]
  | .shareInjection id => [id]
  | .reinject id _ => [id]
  | .refreshProduction id _ => [id]
  | .refreshInjection id => [id]
  | .withdraw id => [id]
  | .ask id _ => [id]

/-- The well and the entry that a call wants to join. -/
def attached? : Call α → Option (Nat × Nat)
  | .attach id index => some (id, index)
  | _ => none

/-- The controls of the entry that a call adds to the table. -/
def enrolled? : Call α → Option (List (Control α))
  | .enrol _ _ controls => some controls
  | _ => none

/-- The table that a call takes instead of the one before. -/
def table? : Call α → Option (WellTable α)
  | .useTable wells => some wells
  | _ => none

/-- The call changes by hand what is left to the operations: the table as a whole, or the flag of
    individual control. -/
def bypasses : Call α → Bool
  | .edit _ (.individual _) => true
  | .useTable _ => true
  | _ => false

end Call

namespace Site

/-- A new node is inserted. -/
theorem call_of_newNode? (s : Site α) {c : Call α} {n : Node α} (hc : c.newNode? = some n) :
    s.call c = s.rebuild ((s.hierarchy.insert n).map (·.1)) := by
  cases c with
  | addGroup name parent efficiency specs =>
      cases hc
      rfl
  | addWell name parent efficiency specs =>
      cases hc
      rfl
  | _ => cases hc

/-- A call that builds has a new hierarchy or none. -/
theorem call_eq_rebuild (s : Site α) {c : Call α} (hc : c.builds = true) :
    ∃ x, s.call c = s.rebuild x := by
  cases c with
  | addGroup name parent efficiency specs => exact ⟨_, rfl⟩
  | addWell name parent efficiency specs => exact ⟨_, rfl⟩
  | attach id index => exact ⟨_, rfl⟩
  | edit id e => exact ⟨_, rfl⟩
  | _ => cases hc

/-- A hierarchy that was not rebuilt leaves the site as it was. -/
theorem rebuild_of_error {s : Site α} {x : Except GroupError (Hierarchy α)} {e : GroupError}
    (h : (s.rebuild x).2 = .error e) : (s.rebuild x).1 = s := by
  cases x with
  | ok h' => cases h
  | error e' => rfl

/-- What every call keeps is kept by all calls. -/
theorem serve_induction {P : Site α → Prop} (hstep : ∀ s c, P s → P (s.call c).1)
    (calls : List (Call α)) : ∀ {s : Site α}, P s → P (s.serve calls) := by
  induction calls with
  | nil => intro s hs; exact hs
  | cons c rest ih => intro s hs; exact ih (hstep s c hs)

/-- A plan that is followed is a run. -/
theorem follow_eq_run (s : Site α) (plan : Except GroupError (List (Order α))) :
    ∃ l, (s.follow plan).1 = (s.run l).1 := by
  cases plan with
  | ok l => exact ⟨l, rfl⟩
  | error e => exact ⟨[], rfl⟩

/-- An operation follows its plan, also when it fails half-way. -/
theorem call_eq_follow (s : Site α) {c : Call α} (hc : c.operates = true) :
    (s.call c).1 = (s.follow (s.plan c)).1 := by
  cases c with
  | check id rates =>
      show (s.checkLimits id rates).1 = _
      rw [checkLimits, plan]
      cases (s.hierarchy.subtree id).bind
          (·.assess s.hierarchy.phases s.wells rates .zero) with
      | error e => rfl
      | ok found =>
          cases found with
          | met totals => rfl
          | broken repair => rfl
  | push id mode target onlyGroup => rfl
  | shareProduction id => rfl
  | shareInjection id => rfl
  | reinject id rates => rfl
  | refreshProduction id flows => rfl
  | refreshInjection id => rfl
  | withdraw id => rfl
  | _ => cases hc

/-- So an operation comes to a run of orders. -/
theorem call_eq_run (s : Site α) {c : Call α} (hc : c.operates = true) :
    ∃ l, (s.call c).1 = (s.run l).1 := by
  rw [s.call_eq_follow hc]
  exact s.follow_eq_run _

end Site

end ReservoirWells
