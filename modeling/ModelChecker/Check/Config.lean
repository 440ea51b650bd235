namespace ModelChecker

inductive SearchOrder where
  | breadthFirst
  | depthFirst
deriving DecidableEq, Repr, Inhabited

inductive Property where
  /-- A state without successors is a violation. -/
  | deadlock
  /-- A goal state or an error edge is a violation. -/
  | goal
  /-- A cycle through an accepting state is a violation. -/
  | liveness
deriving DecidableEq, Repr, Inhabited

structure SearchConfig where
  workers : UInt64 := 1
  order : SearchOrder := .breadthFirst
  partitioned : Bool := false
  /-- Bounds the context switches of the paths that are searched. -/
  contextSwitchBound : Option UInt32 := none
  property : Property := .deadlock
  /-- Whether ample sets stand in for all successors where that is safe. -/
  reduction : Bool := false
  maxStates : Option UInt64 := none
deriving DecidableEq, Repr, Inhabited

namespace SearchConfig

/-- A search has at least one worker. -/
def workerCount (c : SearchConfig) : Nat := max c.workers.toNat 1

def stateLimit (c : SearchConfig) : Option Nat := c.maxStates.map (·.toNat)

end SearchConfig

end ModelChecker
