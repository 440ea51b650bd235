import ModelChecker.Graph.Basic
import ModelChecker.Json.Printer
import ModelChecker.Json.Reader
import ModelChecker.Json.Shape

namespace ModelChecker

open Json

namespace EdgeFlags

def toJson (f : EdgeFlags) : Json :=
  ofFields [("error", some (.bool f.error)), ("context_switch", some (.bool f.contextSwitch))]

def ofJson? (j : Json) : Option EdgeFlags := do
  match ← fields? [⟨"error", .defaulted⟩, ⟨"context_switch", .defaulted⟩] j with
  | [error, contextSwitch] =>
    return { error := ← orElse? false bool? error
             contextSwitch := ← orElse? false bool? contextSwitch }
  | _ => none

end EdgeFlags

def nodeJson (n : Node) : Json := ofNat n.toNat

def nodesJson (nodes : List Node) : Json := .array (nodes.map nodeJson)

namespace Edge

def toJson (e : Edge) : Json :=
  ofFields
    [("from", some (nodeJson e.source)), ("to", some (nodeJson e.target)),
      ("error", some (.bool e.flags.error)), ("context_switch", some (.bool e.flags.contextSwitch))]

def ofJson? (j : Json) : Option Edge := do
  match ← fields? [⟨"from", .required⟩, ⟨"to", .required⟩, ⟨"error", .defaulted⟩,
      ⟨"context_switch", .defaulted⟩] j with
  | [source, target, error, contextSwitch] =>
    return { source := ← need? word32? source
             target := ← need? word32? target
             flags :=
               { error := ← orElse? false bool? error
                 contextSwitch := ← orElse? false bool? contextSwitch } }
  | _ => none

end Edge

namespace AmpleSets

def toJson (a : AmpleSets) : Json :=
  .object (a.entries.map fun (node, targets) => (toString node.toNat, nodesJson targets))

/-- A node number as a key: digits without a leading zero, and no escapes. -/
def key? (spelling : String) : Option Node :=
  match spelling.toList with
  | '0' :: _ :: _ => none
  | _ => ((natural? spelling).filter (· < UInt32.size)).map .ofNat

/-- Of several entries with one key the last counts. -/
def ofJson? : Json → Option AmpleSets
  | .object members =>
    members.foldlM (fun a (spelling, value) => do
      let node ← key? spelling
      let targets ← list? word32? value
      return a.insert node targets) .empty
  | _ => none

end AmpleSets

namespace Graph

def toJson (g : Graph) : Json :=
  ofFields
    [("initial", some (nodesJson g.initial)), ("edges", some (.array (g.edges.map Edge.toJson))),
      ("accepting", some (nodesJson g.accepting)), ("goals", some (nodesJson g.goals)),
      ("ample", some g.ample.toJson)]

def ofJson? (j : Json) : Option Graph := do
  match ← fields? [⟨"initial", .required⟩, ⟨"edges", .required⟩, ⟨"accepting", .defaulted⟩,
      ⟨"goals", .defaulted⟩, ⟨"ample", .defaulted⟩] j with
  | [initial, edges, accepting, goals, ample] =>
    return { initial := ← need? (list? word32?) initial
             edges := ← need? (list? Edge.ofJson?) edges
             accepting := ← orElse? [] (list? word32?) accepting
             goals := ← orElse? [] (list? word32?) goals
             ample := ← orElse? .empty AmpleSets.ofJson? ample }
  | _ => none

end Graph

end ModelChecker
