import ModelChecker.System
import ModelChecker.Graph.Index
import ModelChecker.Graph.Mixing

namespace ModelChecker

/-- Node numbers are taken modulo `classes`, and the class is multiplied and reduced to give the
fingerprint. A zero leaves out its reduction. -/
structure ClassScheme where
  multiplier : UInt64 := 1
  modulus : UInt64 := 0
  classes : UInt64 := 0
deriving DecidableEq, Repr

namespace ClassScheme

def classOf (k : ClassScheme) (node : Node) : UInt64 :=
  if k.classes = 0 then node.toUInt64 else node.toUInt64 % k.classes

def fingerprint (k : ClassScheme) (node : Node) : UInt64 :=
  let product := k.classOf node * k.multiplier
  if k.modulus = 0 then product else product % k.modulus

end ClassScheme

namespace IndexedGraph

def system (g : IndexedGraph) : System Node where
  initials := g.initial
  successors := g.successors
  fingerprint node := mix64 node.toUInt64
  same a b := a == b
  ample := g.ample
  accepting := g.accepting
  goal := g.goal
  extent := g.extent
  degree := g.degree

def bareSystem (g : IndexedGraph) : System Node :=
  { g.system with
    successors := fun node => (g.successors node).map fun s => (s.1, {})
    ample := fun _ => none
    accepting := fun _ => false
    goal := fun _ => false }

def classSystem (g : IndexedGraph) (k : ClassScheme) : System Node :=
  { g.system with
    fingerprint := k.fingerprint
    same := fun a b => k.classOf a == k.classOf b }

end IndexedGraph

end ModelChecker
