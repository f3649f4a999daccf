import ReservoirWells.Scalar
import ReservoirWells.Segment.Basic

/-!
# Segment trees — the connected segments of a well

The segments of a well drain towards the top segment, which comes first.  `SegmentTree.ofList` turns
a list of configured segments into a tree or says what is wrong with it: the checks run over the
whole list first, then over the segments below the top in order.

A segment whose length does not exceed that of its outlet is refused, so among lengths that are
numbers no outlets go round in a circle.

* **`SegmentTree.outlet?`** — the index of the segment that a segment drains into.
* **`SegmentTree.inlets`** — the indices of those that drain into it, in order.
-/

namespace ReservoirWells

/-- Why a list of segments is not a well. -/
inductive SegmentError
  | empty
  | topHasOutlet (number : Nat)
  | deviceOnTop (number : Nat)
  | missingOutlet (number : Nat)
  | unknownOutlet (number outlet : Nat)
  | duplicateNumber (number : Nat)
  | notLonger (number : Nat)
  deriving Repr, DecidableEq

/-- The wording of each error. -/
def SegmentError.message : SegmentError → String
  | .empty => "a multisegment well needs at least one segment"
  | .topHasOutlet n => "top segment " ++ toString n ++ " must not have an outlet"
  | .deviceOnTop n => "top segment " ++ toString n ++ " cannot carry a flow device"
  | .missingOutlet n => "segment " ++ toString n ++ " has no outlet"
  | .unknownOutlet n o => "segment " ++ toString n ++ " has unknown outlet " ++ toString o
  | .duplicateNumber n => "segment number " ++ toString n ++ " is used more than once"
  | .notLonger n => "segment " ++ toString n ++ " is not longer than its outlet"

/-- A segment below the top, with its outlet found. -/
structure Reach (α : Type) where
  /-- The segment. -/
  segment : Segment α
  /-- Index of the segment it drains into. -/
  outlet : Nat
  /-- Depth below the outlet. -/
  depth : α
  /-- Length beyond the outlet. -/
  length : α
  deriving Repr, DecidableEq, Inhabited

/-- The top segment and the segments below it; indices count from the top segment, which is zero. -/
structure SegmentTree (α : Type) where
  /-- The top segment. -/
  top : Segment α
  /-- All other segments, in order. -/
  reaches : List (Reach α)
  deriving Repr, DecidableEq, Inhabited

namespace SegmentTree

variable {α : Type}

/-- The segments in order, the top segment first. -/
def segments (t : SegmentTree α) : List (Segment α) := t.top :: t.reaches.map (·.segment)

/-- Number of segments. -/
def size (t : SegmentTree α) : Nat := t.reaches.length + 1

/-- The segment at an index. -/
def segment? (t : SegmentTree α) (i : Nat) : Option (Segment α) := t.segments[i]?

/-- The segment at an index below the top. -/
def reach? (t : SegmentTree α) : Nat → Option (Reach α)
  | 0 => none
  | i + 1 => t.reaches[i]?

/-- Index of the outlet of a segment. -/
def outlet? (t : SegmentTree α) (i : Nat) : Option Nat := (t.reach? i).map (·.outlet)

/-- Indices of the segments that drain into a segment. -/
def inlets (t : SegmentTree α) (i : Nat) : List Nat :=
  (List.range t.size).filter fun j => t.outlet? j == some i

/-- Index of the segment with a number. -/
def indexOf? (t : SegmentTree α) (number : Nat) : Option Nat :=
  t.segments.findIdx? (·.number == number)

/-! ## Building -/

/-- The first number that occurs a second time. -/
def duplicate? : (seen : List Nat) → List (Segment α) → Option Nat
  | _, [] => none
  | seen, s :: rest =>
    if seen.contains s.number then some s.number else duplicate? (s.number :: seen) rest

variable [Scalar α]

/-- Finds the outlet of a segment below the top. -/
def connect (all : List (Segment α)) (s : Segment α) : Except SegmentError (Reach α) :=
  match s.outlet with
  | none => .error (.missingOutlet s.number)
  | some number =>
    match all.zipIdx.find? fun (o, _) => o.number == number with
    | none => .error (.unknownOutlet s.number number)
    | some (o, outlet) =>
      let length := s.length - o.length
      if length ≤ 0 then .error (.notLonger s.number)
      else .ok { segment := s, outlet, depth := s.depth - o.depth, length }

/-- The tree of a list of segments, or the first thing that is wrong with the list. -/
def ofList (all : List (Segment α)) : Except SegmentError (SegmentTree α) :=
  match all with
  | [] => .error .empty
  | top :: below =>
    if top.outlet.isSome then .error (.topHasOutlet top.number)
    else if top.device.controlsInflow then .error (.deviceOnTop top.number)
    else
      match duplicate? [] all with
      | some number => .error (.duplicateNumber number)
      | none => (below.mapM (connect all)).map fun reaches => { top, reaches }

/-- Depth of a segment below its outlet, zero for the top segment. -/
def depthBelowOutlet (t : SegmentTree α) (i : Nat) : α := ((t.reach? i).map (·.depth)).getD 0

/-- Length of a segment beyond its outlet, zero for the top segment. -/
def lengthBeyondOutlet (t : SegmentTree α) (i : Nat) : α := ((t.reach? i).map (·.length)).getD 0

end SegmentTree

end ReservoirWells
