import ModelChecker.Check.Result
import ModelChecker.Document.Config

namespace ModelChecker

open Json

namespace Status

def name : Status → String
  | .pass => "pass"
  | .fail => "fail"
  | .inconclusive => "inconclusive"
  | .outOfMemory => "out_of_memory"
  | .error => "error"

def names : List (String × Status) :=
  [.pass, .fail, .inconclusive, .outOfMemory, .error].map fun s => (s.name, s)

def toJson (s : Status) : Json := ofText s.name

def ofJson? : Json → Option Status := name? names

end Status

namespace ReasonKind

def name : ReasonKind → String
  | .invalidInput => "invalid_input"
  | .internalError => "internal_error"
  | .outOfMemory => "out_of_memory"
  | .boundReached => "bound_reached"
  | .noInitialStates => "no_initial_states"

def names : List (String × ReasonKind) :=
  [.invalidInput, .internalError, .outOfMemory, .boundReached, .noInitialStates].map
    fun k => (k.name, k)

def toJson (k : ReasonKind) : Json := ofText k.name

def ofJson? : Json → Option ReasonKind := name? names

end ReasonKind

namespace Reason

def toJson (r : Reason) : Json :=
  ofFields [("kind", some r.kind.toJson), ("message", r.message.map ofText)]

def ofJson? (j : Json) : Option Reason := do
  match ← fields? [⟨"kind", .required⟩, ⟨"message", .optional⟩] j with
  | [kind, message] =>
    return { kind := ← need? ReasonKind.ofJson? kind, message := ← allow? string? message }
  | _ => none

end Reason

namespace CounterexampleKind

def name : CounterexampleKind → String
  | .trace => "trace"
  | .deadlock => "deadlock"
  | .lasso => "lasso"

def names : List (String × CounterexampleKind) :=
  [.trace, .deadlock, .lasso].map fun k => (k.name, k)

def toJson (k : CounterexampleKind) : Json := ofText k.name

def ofJson? : Json → Option CounterexampleKind := name? names

end CounterexampleKind

namespace Counterexample

def toJson (c : Counterexample) : Json :=
  ofFields
    [("type", some c.kind.toJson), ("states", some (.array (c.states.map ofText))),
      ("cycle_start", c.cycleStart.map word64Json), ("tags", some (.array (c.tags.map ofText)))]

def ofJson? (j : Json) : Option Counterexample := do
  match ← fields? [⟨"type", .required⟩, ⟨"states", .required⟩, ⟨"cycle_start", .optional⟩,
      ⟨"tags", .required⟩] j with
  | [kind, states, cycleStart, tags] =>
    return { kind := ← need? CounterexampleKind.ofJson? kind
             states := ← need? (list? string?) states
             cycleStart := ← allow? word64? cycleStart
             tags := ← need? (list? string?) tags }
  | _ => none

end Counterexample

namespace CheckStats

def toJson (s : CheckStats) : Json :=
  ofFields
    [("states", some (ofOption word64Json s.states)),
      ("transitions", some (ofOption word64Json s.transitions)),
      ("expanded", some (ofOption word64Json s.expanded)),
      ("deadlocks", some (ofOption word64Json s.deadlocks))]

def ofJson? (j : Json) : Option CheckStats := do
  match ← fields? [⟨"states", .optional⟩, ⟨"transitions", .optional⟩, ⟨"expanded", .optional⟩,
      ⟨"deadlocks", .optional⟩] j with
  | [states, transitions, expanded, deadlocks] =>
    return { states := ← allow? word64? states
             transitions := ← allow? word64? transitions
             expanded := ← allow? word64? expanded
             deadlocks := ← allow? word64? deadlocks }
  | _ => none

end CheckStats

namespace CheckRequest

def toJson (r : CheckRequest) : Json :=
  ofFields
    [("property", some r.property.toJson), ("target", some (ofOption ofText r.target)),
      ("config", some r.config.toJson)]

def ofJson? (j : Json) : Option CheckRequest := do
  match ← fields? [⟨"property", .required⟩, ⟨"target", .optional⟩, ⟨"config", .required⟩] j with
  | [property, target, config] =>
    return { property := ← need? Property.ofJson? property
             target := ← allow? string? target
             config := ← need? SearchConfig.ofJson? config }
  | _ => none

end CheckRequest

namespace CheckResult

def toJson (r : CheckResult) : Json :=
  ofFields
    [("name", some (ofText r.name)), ("property", some r.property.toJson),
      ("target", some (ofOption ofText r.target)), ("status", some r.status.toJson),
      ("reason", r.reason.map Reason.toJson),
      ("counterexample", some (ofOption Counterexample.toJson r.counterexample)),
      ("stats", some (ofOption CheckStats.toJson r.stats))]

def ofJson? (j : Json) : Option CheckResult := do
  match ← fields? [⟨"name", .required⟩, ⟨"property", .required⟩, ⟨"target", .optional⟩,
      ⟨"status", .required⟩, ⟨"reason", .optional⟩, ⟨"counterexample", .optional⟩,
      ⟨"stats", .optional⟩] j with
  | [name, property, target, status, reason, counterexample, stats] =>
    return { name := ← need? string? name
             property := ← need? Property.ofJson? property
             target := ← allow? string? target
             status := ← need? Status.ofJson? status
             reason := ← allow? Reason.ofJson? reason
             counterexample := ← allow? Counterexample.ofJson? counterexample
             stats := ← allow? CheckStats.ofJson? stats }
  | _ => none

end CheckResult

end ModelChecker
