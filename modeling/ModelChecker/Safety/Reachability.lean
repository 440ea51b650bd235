import ModelChecker.Safety.Verdict
import ModelChecker.Search.Explore

namespace ModelChecker.Reachability

structure Observation (σ : Type) where
  parents : Parents := {}
  findings : Findings σ := {}

namespace Observation

variable {σ : Type}

/-- What a worker reports that ends the search. -/
def report (o : Observation σ) (worker : Nat) (x : Violation σ) : Observation σ :=
  { o with findings := o.findings.add worker x }

def found (o : Observation σ) : Option (Violation σ) := o.findings.first?

end Observation

variable {σ : Type}

def edge (sys : System σ) (property : Property) (worker : Nat) (source : Option (Vertex σ))
    (target : Vertex σ) (flags : EdgeFlags) (isNew : Bool) (o : Observation σ) :
    Action × Observation σ :=
  let parent := source.elim .root (.vertex ·.handle)
  let o := { o with parents := (o.parents.offer target.handle parent).2 }
  match violationOf sys property target.state flags source.isSome with
  | some .errorEdge => (.terminate, o.report worker ⟨.errorEdge, target, source⟩)
  | some kind =>
    if isNew then (.terminate, o.report worker ⟨kind, target, none⟩) else (.asNeeded, o)
  | none => (.asNeeded, o)

def listener (sys : System σ) (property : Property) : Listener σ (Observation σ) where
  edge := edge sys property
  deadlocked worker v o :=
    if property = .deadlock then (.terminate, o.report worker ⟨.deadlock, v, none⟩)
    else (.ignore, o)
  successors _ _ v o := (sys.successors v.state, o)

/-- The verdict of a search that ended. -/
def conclude (e : Exploration σ (Observation σ)) : Except Fault (Verdict σ) :=
  match e.observation.found with
  | some x => do
    let trace ← x.trace e.store e.observation.parents.get
    return .violated ⟨x.kind, trace⟩
  | none => return if e.store.isEmpty then .noStates else .holds

end ModelChecker.Reachability

namespace ModelChecker

/-- Searches all reachable states for a violation of the configured property. -/
def reachability {σ : Type} (sys : System σ) (config : SearchConfig)
    (schedule : Schedule := .inTurn config.workerCount) : Except SearchError (SafetyReport σ) := do
  let e ← (config.search sys (Reachability.listener sys config.property) .initials config.newStore
    {} schedule).mapError .fault
  let _ ← e.finished
  let verdict ← (Reachability.conclude e).mapError .fault
  return { verdict, stats := e.stats, stored := e.store.size }

end ModelChecker
