import ModelChecker.Check.Config
import ModelChecker.Json.Printer
import ModelChecker.Json.Reader
import ModelChecker.Json.Shape

namespace ModelChecker

open Json

namespace SearchOrder

def name : SearchOrder → String
  | .breadthFirst => "bfs"
  | .depthFirst => "dfs"

def names : List (String × SearchOrder) := [.breadthFirst, .depthFirst].map fun o => (o.name, o)

def toJson (o : SearchOrder) : Json := ofText o.name

def ofJson? : Json → Option SearchOrder := name? names

end SearchOrder

namespace Property

def name : Property → String
  | .deadlock => "deadlock"
  | .goal => "goal"
  | .liveness => "liveness"

def names : List (String × Property) := [.deadlock, .goal, .liveness].map fun p => (p.name, p)

def toJson (p : Property) : Json := ofText p.name

def ofJson? : Json → Option Property := name? names

end Property

def word32Json (n : UInt32) : Json := ofNat n.toNat

def word64Json (n : UInt64) : Json := ofNat n.toNat

namespace SearchConfig

def toJson (c : SearchConfig) : Json :=
  ofFields
    [("workers", some (word64Json c.workers)), ("order", some c.order.toJson),
      ("partitioned", some (.bool c.partitioned)),
      ("context_switch_bound", some (ofOption word32Json c.contextSwitchBound)),
      ("property", some c.property.toJson), ("por", some (.bool c.reduction)),
      ("max_states", some (ofOption word64Json c.maxStates))]

def ofJson? (j : Json) : Option SearchConfig := do
  match ← fields? [⟨"workers", .required⟩, ⟨"order", .required⟩, ⟨"partitioned", .required⟩,
      ⟨"context_switch_bound", .optional⟩, ⟨"property", .required⟩, ⟨"por", .required⟩,
      ⟨"max_states", .optional⟩] j with
  | [workers, order, partitioned, bound, property, reduction, maxStates] =>
    return { workers := ← need? word64? workers
             order := ← need? SearchOrder.ofJson? order
             partitioned := ← need? bool? partitioned
             contextSwitchBound := ← allow? word32? bound
             property := ← need? Property.ofJson? property
             reduction := ← need? bool? reduction
             maxStates := ← allow? word64? maxStates }
  | _ => none

end SearchConfig

end ModelChecker
