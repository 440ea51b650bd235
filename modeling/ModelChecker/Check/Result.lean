import ModelChecker.Check.Config

namespace ModelChecker

inductive Status where
  | pass
  | fail
  /-- The search stopped at its bound on context switches without a verdict. -/
  | inconclusive
  | outOfMemory
  | error
deriving DecidableEq, Repr

inductive ReasonKind where
  | invalidInput
  | internalError
  | outOfMemory
  | boundReached
  | noInitialStates
deriving DecidableEq, Repr

structure Reason where
  kind : ReasonKind
  message : Option String := none
deriving DecidableEq, Repr

inductive CounterexampleKind where
  | trace
  | deadlock
  | lasso
deriving DecidableEq, Repr

structure Counterexample where
  kind : CounterexampleKind
  /-- The states along the path. -/
  states : List String
  /-- The position in `states` where the cycle starts. -/
  cycleStart : Option UInt64 := none
  tags : List String
deriving DecidableEq, Repr

structure CheckStats where
  states : Option UInt64 := none
  transitions : Option UInt64 := none
  expanded : Option UInt64 := none
  deadlocks : Option UInt64 := none
deriving DecidableEq, Repr

structure CheckRequest where
  property : Property
  target : Option String := none
  config : SearchConfig
deriving DecidableEq, Repr

def CheckRequest.ofConfig (config : SearchConfig) : CheckRequest :=
  { property := config.property, config }

structure CheckResult where
  name : String
  property : Property
  target : Option String
  status : Status
  reason : Option Reason := none
  counterexample : Option Counterexample := none
  stats : Option CheckStats := none
deriving DecidableEq, Repr

end ModelChecker
