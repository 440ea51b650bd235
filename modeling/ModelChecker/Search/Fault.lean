import ModelChecker.Store.Handle

namespace ModelChecker

/-- A broken promise: of the caller, or of the bookkeeping of a search. -/
inductive Fault where
  | noListener
  | listenerCount
  | missingParent (h : Handle)
  | parentCycle
  | unleveledState
  | unleveledSource
  | foreignVertex (h : Handle)
  | negativeDegree (h : Handle)
  | innerStack
  | outerStack
  | closingState
deriving DecidableEq, Repr

def Fault.message : Fault → String
  | .noListener => "a search needs at least one listener"
  | .listenerCount => "one listener per partition"
  | .missingParent h => s!"parent {h.label} is not in the store"
  | .parentCycle => "parent pointers form a cycle"
  | .unleveledState => "expanding a state that has no level"
  | .unleveledSource => "expanded state has no level"
  | .foreignVertex h => s!"{h.label} is not owned by this partition"
  | .negativeDegree h => s!"{h.label} has no edges left to lose"
  | .innerStack => "inner stack out of sync"
  | .outerStack => "outer stack out of sync"
  | .closingState => "closing state is not on the outer stack"

/-- How a search fails. Its workers are always there: that a pool of threads cannot be set up is not
among the errors. -/
inductive SearchError where
  | outOfMemory (states : Nat)
  | fault (f : Fault)
  /-- The search was cut short by its allowance of steps. -/
  | unfinished
deriving DecidableEq, Repr

def SearchError.message : SearchError → String
  | .outOfMemory states => s!"out of memory: state store exhausted after {states} states"
  | .fault f => f.message
  | .unfinished => "the search was cut short"

end ModelChecker
