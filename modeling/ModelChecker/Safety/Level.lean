import ModelChecker.Trace.Parent

namespace ModelChecker

/-- Levels do not count further than this, two less than half the range of a 32-bit word. -/
def maxLevel : Nat := 2147483646

inductive Progress where
  | unseen
  | waiting (level : Nat)
  | expanded (level : Nat)
deriving DecidableEq, Repr, Inhabited

/-- The record of a state in a search by levels. Its level is the least number of context switches
with which it is known to be reached, and is final once the state is expanded. -/
structure LevelMark where
  progress : Progress := .unseen
  parent : Parent := .unset
  /-- The level that the edge from the parent implies. -/
  parentLevel : Option Nat := none
  /-- The state was expanded with its ample set. -/
  reduced : Bool := false
  /-- The state has to be expanded with all its successors. -/
  full : Bool := false
deriving DecidableEq, Repr, Inhabited

namespace LevelMark

def level? (m : LevelMark) : Option Nat :=
  match m.progress with
  | .unseen => none
  | .waiting l | .expanded l => some l

def isExpanded (m : LevelMark) : Bool :=
  match m.progress with
  | .expanded _ => true
  | _ => false

/-- Takes a parent whose edge implies a strictly lower level than the edge from the present one. -/
def offerParent (m : LevelMark) (level : Nat) (parent : Parent) : LevelMark :=
  if m.parentLevel.any (· ≤ level) then m
  else { m with parentLevel := some level, parent := parent.normal }

/-- An initial state waits at level 0, unless it is expanded. -/
def asInitial (m : LevelMark) : LevelMark :=
  let m := if m.isExpanded then m else { m with progress := .waiting 0 }
  m.offerParent 0 .root

/-- Lowers the level of a state that is not expanded to what an edge from a state at level
`source` implies. -/
def lower (m : LevelMark) (source : Nat) (switch : Bool) : LevelMark :=
  let proposed := min (source + switch.toNat) maxLevel
  match m.progress with
  | .unseen => { m with progress := .waiting proposed }
  | .waiting l => { m with progress := .waiting (min proposed l) }
  | .expanded _ => m

/-- Opens an expanded state again, to be expanded with all its successors. -/
def reopen (m : LevelMark) : LevelMark :=
  let m := { m with full := true, reduced := false }
  match m.progress with
  | .expanded l => { m with progress := .waiting l }
  | _ => m

end LevelMark

end ModelChecker
