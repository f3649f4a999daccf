import ReservoirWells.Segment.Tree

/-!
# Segment sets — the connections of a well, written down while they are checked

The connections of a `SegmentTree` are found again whenever they are asked for.  A segment set keeps
them: the index of every number, and for every index its outlet, its inlets and the two differences.
All of this is stored twice over, for an outlet says the same as an entry among the inlets of
another segment.

`SegmentSet.build` goes through the list twice.  The first pass notes the numbers.  The second
passes over the segments below the top; it finds the outlet of each, refuses it or enters it
everywhere.  Either stops at the first segment that is wrong.
-/

namespace ReservoirWells

/-- What is kept about the connections of `n` segments, by index. -/
structure Links (α : Type) (n : Nat) where
  /-- Index of the outlet of each segment; the top segment has none. -/
  outlets : Vector (Option (Fin n)) n
  /-- Indices of the segments that drain into each. -/
  inlets : Vector (List (Fin n)) n
  /-- Depth of each below its outlet, zero for the top segment. -/
  depths : Vector α n
  /-- Length of each beyond its outlet, zero for the top segment. -/
  lengths : Vector α n
  deriving Repr, DecidableEq

/-- The segments of a well with their connections. -/
structure SegmentSet (α : Type) (n : Nat) extends Links α n where
  /-- The segments, the top segment first. -/
  segments : Vector (Segment α) n
  /-- The index of every number. -/
  index : List (Nat × Fin n)
  deriving Repr, DecidableEq

namespace Links

variable {α : Type} {n : Nat}

/-- Nothing is connected. -/
def empty (α : Type) [Zero α] (n : Nat) : Links α n where
  outlets := .replicate n none
  inlets := .replicate n []
  depths := .replicate n 0
  lengths := .replicate n 0

/-- Enters that a segment drains into another. -/
def join (links : Links α n) (i outlet : Fin n) (depth length : α) : Links α n where
  outlets := links.outlets.set i (some outlet) i.isLt
  inlets := links.inlets.set outlet (links.inlets.get outlet ++ [i]) outlet.isLt
  depths := links.depths.set i depth i.isLt
  lengths := links.lengths.set i length i.isLt

end Links

namespace SegmentSet

variable {α : Type} {n : Nat}

/-- Notes the index of a segment's number. -/
def note (segments : Vector (Segment α) n) (index : List (Nat × Fin n)) (i : Fin n) :
    Except SegmentError (List (Nat × Fin n)) :=
  let number := (segments.get i).number
  if (index.lookup number).isSome then .error (.duplicateNumber number)
  else .ok ((number, i) :: index)

variable [Scalar α]

/-- Connects a segment below the top. -/
def connect (segments : Vector (Segment α) n) (index : List (Nat × Fin n)) (links : Links α n)
    (i : Fin n) : Except SegmentError (Links α n) :=
  let s := segments.get i
  match s.outlet with
  | none => .error (.missingOutlet s.number)
  | some number =>
    match index.lookup number with
    | none => .error (.unknownOutlet s.number number)
    | some outlet =>
      let length := s.length - (segments.get outlet).length
      if length ≤ 0 then .error (.notLonger s.number)
      else .ok (links.join i outlet (s.depth - (segments.get outlet).depth) length)

/-- Connects the segments of a list, or says what is wrong with the first that is. -/
def build (segments : Vector (Segment α) n) : Except SegmentError (SegmentSet α n) :=
  match segments[0]? with
  | none => .error .empty
  | some top =>
    if top.outlet.isSome then .error (.topHasOutlet top.number)
    else if top.device.controlsInflow then .error (.deviceOnTop top.number)
    else do
      let index ← (List.finRange n).foldlM (note segments) []
      let links ← (List.finRange n).tail.foldlM (connect segments index) (.empty α n)
      return { links with segments, index }

end SegmentSet

end ReservoirWells
