import ReservoirWells.Proofs.Segment.Runs
import ReservoirWells.Proofs.Segment.Steps

/-! # Sessions — assembly never uses a profile of other unknowns

    In a session with a well the unknowns are edited, profiles are computed for any fluid, the
    system and the record are replaced at will, and equations are assembled step by step by any of
    the routines, all in any order and whether or not they go through.  A session also notes which
    fluid the last successful computation was for and whether the unknowns were edited after it,
    which the well itself does not know.

    * `FluidLaw`, `Profile.computeBy` — profiles for fluids of which nothing is known;
    * `Routine.steps` — the routines by which the equation of a segment is assembled;
    * `Session.act`, `Session.acts` — a call, and a list of them;
    * `Session.Fresh`, `Session.Fresh.acts` — a profile that the well has is that of its present
      unknowns for the fluid of the last successful computation;
    * `Session.assembly_fresh` — hence an equation is assembled from that profile, or not at all. -/

namespace ReservoirWells

variable {α : Type}

/-! ## Any fluid -/

/-- What a fluid says about the phases at a pressure. -/
structure FluidLaw (α : Type) where
  density : Phase → Dual α → Except (PropertyError α) (Dual α)
  viscosity : Phase → Dual α → Except (PropertyError α) (Dual α)

section Law

variable [Scalar α] [Transcendental α]

/-- What one of the known fluids says. -/
def Fluid.law (f : Fluid α) : FluidLaw α := ⟨f.density, fun p _ => f.viscosity p⟩

end Law

section Computing

variable [Scalar α]

/-- The state of a segment that follows from its unknowns under a fluid law. -/
def FlowState.computeBy (law : FluidLaw α) (u : Unknowns α) (seg chosen : Nat) :
    Except (PropertyError α) (FlowState α) :=
  let x := u.seed seg chosen
  (u.layout.phases.toList.mapM fun p => do
    let density ← law.density p x.pressure
    let viscosity ← law.viscosity p x.pressure
    return (p, density, viscosity)).map (ofProperties x)

/-- The profile under a fluid law. -/
def Profile.computeBy (law : FluidLaw α) (t : SegmentTree α) (u : Unknowns α) :
    Except (PropertyError α) (Profile α) := do
  let slots ← (List.range u.layout.size).mapM fun chosen =>
    (List.range t.size).mapM fun seg => FlowState.computeBy law u seg chosen
  return { upwinds := (List.range t.size).map (upwindOf t u), slots }

/-- Computes the profile under a fluid law. If the fluid cannot be evaluated, the well stays as it
    is. -/
def SegmentedWell.computeBy (w : SegmentedWell α) (law : FluidLaw α) :
    Except (WellError α) (SegmentedWell α) :=
  match Profile.computeBy law w.tree w.unknowns with
  | .ok q => .ok { w with profile := some q }
  | .error e => .error (.property e)

/-- A profile has a list of states for each unknown. -/
theorem Profile.length_slots_of_computeBy {law : FluidLaw α} {t : SegmentTree α} {u : Unknowns α}
    {q : Profile α} (h : computeBy law t u = .ok q) : q.slots.length = u.layout.size := by
  obtain ⟨slots, hslots, hq⟩ := bind_eq_ok.mp h
  cases hq
  exact (mapM_range hslots).1

variable [Transcendental α]

/-- The known fluids are computed by their laws. -/
theorem Profile.computeBy_law (f : Fluid α) (t : SegmentTree α) (u : Unknowns α) :
    computeBy f.law t u = compute t u f := by
  have hstate : FlowState.computeBy f.law u = FlowState.compute f u := by
    funext seg chosen
    exact (FlowState.compute_eq f u seg chosen).symm
  rw [computeBy, compute, hstate]

theorem SegmentedWell.computeBy_law (w : SegmentedWell α) (f : Fluid α) :
    w.computeBy f.law = w.compute f := by
  have hprofile := Profile.computeBy_law f w.tree w.unknowns
  cases hq : Profile.compute w.tree w.unknowns f with
  | error e => simp only [computeBy, compute, hprofile, hq]
  | ok q => simp only [computeBy, compute, hprofile, hq]

end Computing

/-! ## The routines -/

/-- A routine by which the equation of a segment is assembled. -/
inductive Routine
  /-- The equation that fits the segment. -/
  | whole
  /-- The equation of a plain pipe. -/
  | pipe
  /-- The equation of a segment with a device. -/
  | device
  /-- The acceleration loss alone. -/
  | acceleration
  deriving Repr, DecidableEq

namespace Routine

variable [Scalar α] [Transcendental α]

/-- The steps of a routine. -/
def steps (r : Routine) (w : SegmentedWell α) (seg : Nat) : Stepwise α Unit :=
  match r with
  | whole => w.pressureSteps seg
  | pipe => w.pipeSteps seg
  | device => w.deviceSteps seg
  | acceleration => w.accelerationSteps seg

/-- The routine is one for the segment: that of a device is not for plain pipes. -/
def Suits (r : Routine) (segment : Segment α) : Prop :=
  r = device → segment.device.controlsInflow = true

variable {w : SegmentedWell α} {seg outlet : Nat} {segment : Segment α} {x : Assembly α}

/-- Without a profile, no routine assembles the equation of a segment through which something can
    flow, and none leaves anything behind. -/
theorem run_steps_stale {r : Routine} (hsuits : r.Suits segment)
    (hbelow : w.belowTop seg = .ok (segment, outlet)) (hopen : segment.device.isShut = false)
    (hq : w.profile = none) : (r.steps w seg).run x = .error .staleProfile x := by
  have hcurrent : w.current = .error .staleProfile := by rw [SegmentedWell.current, hq]
  have hacceleration : (w.accelerationSteps seg).run x = .error .staleProfile x := by
    rw [SegmentedWell.accelerationSteps, hbelow, hcurrent]
    rfl
  have hpipe : (w.pipeSteps seg).run x = .error .staleProfile x := by
    rw [SegmentedWell.pipeSteps, hbelow, hcurrent]
    rfl
  have hdevice : segment.device.controlsInflow = true →
      (w.deviceSteps seg).run x = .error .staleProfile x := by
    intro hd
    rw [SegmentedWell.deviceSteps, EStateM.run_bind, Stepwise.run_ask_ok hbelow]
    simp only [hd, hopen, hcurrent, Bool.not_true, Bool.false_eq_true, if_false]
    rfl
  cases r with
  | whole =>
      rw [steps, SegmentedWell.pressureSteps, EStateM.run_bind, Stepwise.run_ask_ok hbelow]
      dsimp only
      split
      · next hd => exact hdevice hd
      · exact hpipe
  | pipe => exact hpipe
  | device => exact hdevice (hsuits rfl)
  | acceleration => exact hacceleration

end Routine

/-! ## Sessions -/

/-- A well, the record that is in use, and what is known of their past. -/
structure Session (α : Type) where
  well : SegmentedWell α
  record : WellRecord α
  /-- The law of the last computation that succeeded. -/
  law : Option (FluidLaw α)
  /-- Whether the unknowns were edited after it, or before there was any. -/
  edited : Bool

/-- What can be done in a session. -/
inductive SessionCall (α : Type)
  /-- Other unknowns from a segment on; without rows, access to the unknowns alone. -/
  | edit (first : Nat) (rows : List (List α))
  | compute (law : FluidLaw α)
  /-- Any change of the system. -/
  | useSystem (system : BlockSystem α)
  /-- Another record from now on. -/
  | useRecord (record : WellRecord α)
  | assemble (r : Routine) (seg : Nat)
  | assembleAll
  | control (target : ControlTarget α)

namespace Session

variable [Scalar α]

/-- A session with a new well. -/
def start (name : String) (tree : SegmentTree α) (phases : ActivePhases) (settings : Settings α)
    (record : WellRecord α) : Session α :=
  ⟨.make name tree phases settings, record, none, false⟩

/-- What an assembly starts from. -/
def assembly (s : Session α) : Assembly α := ⟨s.well.system, s.record.drops⟩

/-- Takes over what an assembly has come to. -/
def store (s : Session α) (x : Assembly α) : Session α :=
  { s with
    well := { s.well with system := x.system }
    record := { s.record with drops := x.drops } }

/-- Takes over what steps have come to, also when they ended in an error. -/
def keep (s : Session α) : EStateM.Result (WellError α) (Assembly α) Unit → Session α
  | .ok _ x => s.store x
  | .error _ x => s.store x

variable [Transcendental α]

/-- What becomes of a session under a call. An edit that does not fit the well is none. -/
def act (s : Session α) : SessionCall α → Session α
  | .edit first rows =>
    match s.well.setUnknowns first rows with
    | some w => { s with well := w, edited := true }
    | none => s
  | .compute law =>
    match s.well.computeBy law with
    | .ok w => { s with well := w, law := some law, edited := false }
    | .error _ => s
  | .useSystem system => { s with well := { s.well with system } }
  | .useRecord record => { s with record }
  | .assemble r seg => s.keep ((r.steps s.well seg).run s.assembly)
  | .assembleAll => s.store (s.well.pressureEquations s.assembly).1
  | .control target => { s with well := s.well.controlEquation target }

/-- The same for a list of calls. -/
def acts (s : Session α) (calls : List (SessionCall α)) : Session α := calls.foldl act s

/-- Whatever every call preserves holds all along a session. -/
theorem acts_induction {P : Session α → Prop} (hact : ∀ s c, P s → P (s.act c))
    (calls : List (SessionCall α)) : ∀ {s : Session α}, P s → P (s.acts calls) := by
  induction calls with
  | nil => intro s hs; exact hs
  | cons c rest ih => intro s hs; exact ih (hact s c hs)

/-! ## What a session keeps -/

/-- The session is about a well with a tree and a layout; a profile of the well is that of its
    present unknowns for the noted fluid; and there is none when the unknowns were edited since. -/
structure Fresh (tree : SegmentTree α) (phases : ActivePhases) (s : Session α) : Prop where
  tree_eq : s.well.tree = tree
  layout_eq : s.well.layout = ⟨phases⟩
  profile_eq : ∀ q, s.well.profile = some q →
    ∃ law, s.law = some law ∧ Profile.computeBy law s.well.tree s.well.unknowns = .ok q
  edited_eq : s.edited = true → s.well.profile = none

variable {tree : SegmentTree α} {phases : ActivePhases} {s : Session α}

omit [Transcendental α] in
theorem fresh_start (name : String) (tree : SegmentTree α) (phases : ActivePhases)
    (settings : Settings α) (record : WellRecord α) :
    (start name tree phases settings record).Fresh tree phases where
  tree_eq := rfl
  layout_eq := rfl
  profile_eq := by
    intro q hq
    cases hq
  edited_eq := fun _ => rfl

omit [Transcendental α] in
/-- Another system and another record are of no consequence for the profile. -/
theorem Fresh.store (hs : s.Fresh tree phases) (x : Assembly α) : (s.store x).Fresh tree phases :=
  ⟨hs.tree_eq, hs.layout_eq, hs.profile_eq, hs.edited_eq⟩

theorem Fresh.act (hs : s.Fresh tree phases) (c : SessionCall α) :
    (s.act c).Fresh tree phases := by
  cases c with
  | edit first rows =>
      rw [Session.act, SegmentedWell.setUnknowns]
      cases hrows : s.well.unknowns.setRows? first rows with
      | none => exact hs
      | some u =>
          -- the new unknowns come without a profile
          refine ⟨hs.tree_eq, ?_, ?_, fun _ => rfl⟩
          · exact (Unknowns.layout_of_setRows? hrows).trans hs.layout_eq
          · intro q hq
            cases hq
  | compute law =>
      rw [Session.act, SegmentedWell.computeBy]
      cases hq : Profile.computeBy law s.well.tree s.well.unknowns with
      | error e => exact hs
      | ok q =>
          refine ⟨hs.tree_eq, hs.layout_eq, ?_, ?_⟩
          · intro q' hq'
            cases hq'
            exact ⟨law, rfl, hq⟩
          · intro hedited
            cases hedited
  | useSystem system => exact ⟨hs.tree_eq, hs.layout_eq, hs.profile_eq, hs.edited_eq⟩
  | useRecord record => exact ⟨hs.tree_eq, hs.layout_eq, hs.profile_eq, hs.edited_eq⟩
  | assemble r seg =>
      rw [Session.act]
      cases (r.steps s.well seg).run s.assembly with
      | ok _ x => exact hs.store x
      | error _ x => exact hs.store x
  | assembleAll => exact hs.store _
  | control target => exact ⟨hs.tree_eq, hs.layout_eq, hs.profile_eq, hs.edited_eq⟩

theorem Fresh.acts (hs : s.Fresh tree phases) (calls : List (SessionCall α)) :
    (s.acts calls).Fresh tree phases :=
  acts_induction (fun _ c h => h.act c) calls hs

omit [Transcendental α] in
/-- A profile has a place for each unknown. -/
theorem Fresh.length_slots (hs : s.Fresh tree phases) {q : Profile α}
    (hq : s.well.profile = some q) : q.slots.length = s.well.layout.size := by
  obtain ⟨law, _, hcompute⟩ := hs.profile_eq q hq
  exact Profile.length_slots_of_computeBy hcompute

/-- Take a new well and any session with it. When a routine that is one for the segment assembles
    the equation of a pipe or of an open device below the top, it does so from the profile of the
    present unknowns for the fluid of the last successful computation, and the unknowns were not
    edited since. When they were, the routine ends with a stale profile, and the session is as it
    was. -/
theorem assembly_fresh (name : String) (tree : SegmentTree α) (phases : ActivePhases)
    (settings : Settings α) (record : WellRecord α) (calls : List (SessionCall α)) {r : Routine}
    {seg outlet : Nat} {segment : Segment α} (hsegment : tree.segment? seg = some segment)
    (houtlet : tree.outlet? seg = some outlet) (hopen : segment.device.isShut = false)
    (hsuits : r.Suits segment) :
    let s := (start name tree phases settings record).acts calls
    (∀ x, (r.steps s.well seg).run s.assembly = .ok () x →
      s.edited = false ∧ ∃ law q, s.law = some law ∧ s.well.current = .ok q ∧
        Profile.computeBy law s.well.tree s.well.unknowns = .ok q) ∧
    (s.edited = true →
      (r.steps s.well seg).run s.assembly = .error .staleProfile s.assembly ∧
        s.act (.assemble r seg) = s) := by
  intro s
  have hs : s.Fresh tree phases := (fresh_start name tree phases settings record).acts calls
  have hbelow : s.well.belowTop seg = .ok (segment, outlet) := by
    rw [SegmentedWell.belowTop_eq_ok, hs.tree_eq]
    exact ⟨hsegment, houtlet⟩
  have hstale : s.well.profile = none →
      (r.steps s.well seg).run s.assembly = .error .staleProfile s.assembly :=
    fun hq => Routine.run_steps_stale hsuits hbelow hopen hq
  constructor
  · intro x hx
    cases hq : s.well.profile with
    | none =>
        rw [hstale hq] at hx
        cases hx
    | some q =>
        obtain ⟨law, hlaw, hcompute⟩ := hs.profile_eq q hq
        refine ⟨?_, law, q, hlaw, SegmentedWell.current_eq_ok.mpr hq, hcompute⟩
        cases hedited : s.edited with
        | false => rfl
        | true =>
            rw [hs.edited_eq hedited] at hq
            cases hq
  · intro hedited
    have hrun := hstale (hs.edited_eq hedited)
    refine ⟨hrun, ?_⟩
    rw [Session.act, hrun]
    rfl

/-- Production through a side branch, and a computation for a fluid of which nothing is known. -/
def failedComputation : List (SessionCall ℚ) :=
  [.edit 0 [[-3 / 100, 100000], [-1 / 100, 443500], [-2 / 100, 329000], [-1 / 100, 381500]],
    .compute WellCall.brine.law, .compute (Fluid.constant ⟨none, none, none⟩).law]

/-- The computation that failed leaves the profile that was there in use, until access to the
    unknowns is asked for. -/
theorem assembly_fresh_failedComputation :
    let s := (start "B" SegmentTree.sideBranch ⟨true, false, false⟩ ⟨true, true, 10⟩
      (.producer 4 .wrat)).acts failedComputation
    let s' := s.act (.edit 0 [])
    (∃ x law q, (s.well.pressureSteps 2).run s.assembly = .ok () x ∧ s.law = some law ∧
      s.well.current = .ok q ∧ Profile.computeBy law s.well.tree s.well.unknowns = .ok q) ∧
    (s'.well.pressureSteps 2).run s'.assembly = .error .staleProfile s'.assembly := by
  intro s s'
  have hsegment : SegmentTree.sideBranch.segment? 2
      = some (SegmentTree.sideBranch.pipe 2 (some 1) 1010 1020) := rfl
  have houtlet : SegmentTree.sideBranch.outlet? 2 = some 0 := rfl
  have hopen : (SegmentTree.sideBranch.pipe 2 (some 1) 1010 1020).device.isShut = false := rfl
  have hsuits : Routine.whole.Suits (SegmentTree.sideBranch.pipe 2 (some 1) 1010 1020) := by
    intro h
    cases h
  constructor
  · have hgoes : (s.well.pressureEquation 2 s.assembly).isOk = true := by decide +kernel
    cases hx : s.well.pressureEquation 2 s.assembly with
    | error e =>
        rw [hx] at hgoes
        cases hgoes
    | ok x =>
        have hrun : (s.well.pressureSteps 2).run s.assembly = .ok () x := by
          rw [SegmentedWell.run_pressureSteps (by decide +kernel), hx]
          rfl
        obtain ⟨_, law, q, hlaw, hq, hcompute⟩ := (assembly_fresh "B" SegmentTree.sideBranch
          ⟨true, false, false⟩ ⟨true, true, 10⟩ (.producer 4 .wrat) failedComputation hsegment
          houtlet hopen hsuits).1 x hrun
        exact ⟨x, law, q, hrun, hlaw, hq, hcompute⟩
  · exact ((assembly_fresh "B" SegmentTree.sideBranch ⟨true, false, false⟩ ⟨true, true, 10⟩
      (.producer 4 .wrat) (failedComputation ++ [.edit 0 []]) hsegment houtlet hopen hsuits).2
        rfl).1

end Session

end ReservoirWells
