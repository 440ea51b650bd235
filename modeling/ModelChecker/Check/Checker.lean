import ModelChecker.Check.Result
import ModelChecker.Liveness.NestedSearch
import ModelChecker.Safety.Bounded
import ModelChecker.Safety.Reachability
import ModelChecker.StateSpace

namespace ModelChecker

namespace CheckRequest

def result (r : CheckRequest) (status : Status) : CheckResult :=
  { name := "check", property := r.property, target := r.target, status }

end CheckRequest

namespace CheckResult

def withReason (r : CheckResult) (kind : ReasonKind) (message : String) : CheckResult :=
  { r with reason := some { kind, message := some message } }

def withStats (r : CheckResult) (stored : Nat) (stats : SearchStats) : CheckResult :=
  { r with
    stats := some
      { states := some (.ofNat stored)
        transitions := some (.ofNat stats.edges)
        expanded := some (.ofNat stats.states)
        deadlocks := some (.ofNat stats.deadlocks) } }

end CheckResult

namespace CheckRequest

def failure (r : CheckRequest) (e : SearchError) : CheckResult :=
  match e with
  | .outOfMemory _ => (r.result .outOfMemory).withReason .outOfMemory e.message
  | _ => (r.result .error).withReason .internalError e.message

def noInitialStates (r : CheckRequest) : CheckResult :=
  (r.result .error).withReason .noInitialStates "no initial states"

end CheckRequest

namespace Check

variable {σ : Type} [ToString σ]

def exploration (sys : System σ) (request : CheckRequest) : CheckResult :=
  let result := match stateSpace sys request.config with
    | .error e => request.failure e
    | .ok report =>
      let result := if report.stored = 0 then request.noInitialStates else request.result .pass
      result.withStats report.stored report.stats
  { result with name := "explore" }

def traceCounterexample (w : Witness σ) : Counterexample :=
  let states := w.trace.map toString
  match w.kind with
  | .deadlock => { kind := .deadlock, states, tags := ["deadlock"] }
  | .goal => { kind := .trace, states, tags := ["goal"] }
  | .errorEdge => { kind := .trace, states, tags := ["error"] }

def safetyVerdict (request : CheckRequest) (bound : UInt32) : Verdict σ → CheckResult
  | .holds => request.result .pass
  | .noStates => request.noInitialStates
  | .boundExhausted =>
    (request.result .inconclusive).withReason .boundReached
      s!"states beyond {bound} context switches were not explored"
  | .violated w =>
    { request.result .fail with counterexample := some (traceCounterexample w) }

/-- Deadlocks and goals: with a bound on context switches if the request has one. -/
def safety (sys : System σ) (request : CheckRequest) : CheckResult :=
  if request.property = .liveness then
    (request.result .error).withReason .invalidInput "liveness is checked by the liveness checker"
  else
    let config := { request.config with property := request.property }
    let outcome := match config.contextSwitchBound with
      | some bound => boundedSearch sys config bound
      | none => reachability sys config
    match outcome with
    | .error e => request.failure e
    | .ok report =>
      (safetyVerdict request (config.contextSwitchBound.getD 0) report.verdict).withStats
        report.stored report.stats

def lassoCounterexample (l : Lasso σ) : Counterexample where
  kind := .lasso
  states := l.path.map toString
  cycleStart := some (.ofNat l.cycleStart)
  tags := ["accepting_cycle", "goal=" ++ toString l.goal]

def livenessVerdict (request : CheckRequest) : LivenessVerdict σ → CheckResult
  | .holds => request.result .pass
  | .noStates => request.noInitialStates
  | .violated l => { request.result .fail with counterexample := some (lassoCounterexample l) }

def liveness (sys : System σ) (request : CheckRequest) : CheckResult :=
  match nestedSearch sys request.config with
  | .error e => request.failure e
  | .ok report => (livenessVerdict request report.verdict).withStats report.stored report.stats

end Check

end ModelChecker
