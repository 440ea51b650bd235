import ModelChecker.Graph.Basic
import Std.Data.TreeMap
import Std.Data.TreeSet

namespace ModelChecker

inductive GraphError where
  | unknownAmpleSuccessor (node successor : Node)
deriving DecidableEq, Repr

def GraphError.message : GraphError → String
  | .unknownAmpleSuccessor node successor =>
    s!"ample set of node {node} names {successor}, which is not a successor"

structure IndexedGraph where
  initial : List Node
  successorMap : Std.TreeMap Node (List (Successor Node))
  ampleMap : Std.TreeMap Node (List (Successor Node))
  acceptingSet : Std.TreeSet Node
  goalSet : Std.TreeSet Node
  extent : Nat
  degree : Nat

namespace IndexedGraph

/-- The edges that leave `node`, in the order of the graph. -/
def successors (g : IndexedGraph) (node : Node) : List (Successor Node) :=
  g.successorMap.getD node []

def ample (g : IndexedGraph) (node : Node) : Option (List (Successor Node)) :=
  g.ampleMap[node]?

def accepting (g : IndexedGraph) (node : Node) : Bool :=
  g.acceptingSet.contains node

def goal (g : IndexedGraph) (node : Node) : Bool :=
  g.goalSet.contains node

end IndexedGraph

namespace Graph

def successorMap (edges : List Edge) : Std.TreeMap Node (List (Successor Node)) :=
  edges.foldr (fun e m => m.insert e.source ((e.target, e.flags) :: m.getD e.source [])) ∅

/-- Each target stands for all edges to it, in edge order. The first target without an edge is the
error. -/
def selectTargets (all : List (Successor Node)) : List Node → Except Node (List (Successor Node))
  | [] => .ok []
  | t :: rest =>
    match all.filter (·.1 == t) with
    | [] => .error t
    | e :: es => (selectTargets all rest).map ((e :: es) ++ ·)

def ampleMap (successors : Std.TreeMap Node (List (Successor Node))) :
    List (Node × List Node) → Except GraphError (Std.TreeMap Node (List (Successor Node)))
  | [] => .ok ∅
  | (node, targets) :: rest =>
    match selectTargets (successors.getD node []) targets with
    | .error t => .error (.unknownAmpleSuccessor node t)
    | .ok selected => (ampleMap successors rest).map (·.insert node selected)

def index (g : Graph) : Except GraphError IndexedGraph :=
  let successors := successorMap g.edges
  (ampleMap successors g.ample.entries).map fun ample =>
    { initial := g.initial
      successorMap := successors
      ampleMap := ample
      acceptingSet := .ofList g.accepting
      goalSet := .ofList g.goals
      extent := g.extent
      degree := g.degree }

end Graph

end ModelChecker
