import ModelChecker.Liveness.Lasso
import ModelChecker.Search.Explore

namespace ModelChecker.Nested

structure Mark where
  onStack : Bool := false
  /-- Some inner search has visited the state. -/
  visited : Bool := false
  /-- The outer search expanded the state with its ample set. -/
  reduced : Bool := false
deriving DecidableEq, Repr, Inhabited

abbrev Marks := Std.TreeMap Handle Mark

variable {σ : Type}

structure Inner (σ : Type) where
  marks : Marks
  /-- The states that are open, the latest first. -/
  stack : List (Vertex σ) := []
  closing : Option (Vertex σ) := none
  fault : Option Fault := none

namespace Inner

def edge (start : Handle) (source : Option (Vertex σ)) (target : Vertex σ) (o : Inner σ) :
    Action × Inner σ :=
  let m := o.marks.getD target.handle {}
  if source.isSome ∧ (target.handle = start ∨ m.onStack) then
    (.terminate, { o with closing := some target })
  else if m.visited then (.ignore, o)
  else (.process, { o with marks := o.marks.insert target.handle { m with visited := true } })

/-- The closed state is the latest open one. -/
def closed (v : Vertex σ) (o : Inner σ) : Action × Inner σ :=
  match o.stack with
  | [] => (.terminate, { o with fault := some .innerStack })
  | top :: rest =>
    if top.handle = v.handle then (.process, { o with stack := rest })
    else (.terminate, { o with stack := rest, fault := some .innerStack })

def successors (sys : System σ) (v : Vertex σ) (o : Inner σ) : List (Successor σ) × Inner σ :=
  if (o.marks.getD v.handle {}).reduced then
    ((sys.ample v.state).getD (sys.successors v.state), o)
  else (sys.successors v.state, o)

def listener (sys : System σ) (start : Handle) : Listener σ (Inner σ) where
  edge _ source target _ _ o := edge start source target o
  state _ v o := (.process, { o with stack := v :: o.stack })
  successors _ _ := successors sys
  closed _ v store o :=
    let (action, o) := closed v o
    (action, store, o)

end Inner

structure Outer (σ : Type) where
  marks : Marks := ∅
  /-- The states that are open, the latest first. -/
  stack : List (Vertex σ) := []
  lasso : Option (Lasso (Vertex σ)) := none
  innerStats : SearchStats := {}
  error : Option SearchError := none

namespace Outer

def mark (o : Outer σ) (h : Handle) : Mark := o.marks.getD h {}

def setMark (o : Outer σ) (h : Handle) (m : Mark) : Outer σ :=
  { o with marks := o.marks.insert h m }

def fail (o : Outer σ) (e : SearchError) : Action × Outer σ :=
  (.terminate, { o with error := some e })

def split? (o : Outer σ) (h : Handle) : Option (List (Vertex σ) × List (Vertex σ)) :=
  let path := o.stack.reverse
  (path.findIdx? (·.handle == h)).map path.splitAt

def edge (sys : System σ) (source : Option (Vertex σ)) (target : Vertex σ) (o : Outer σ) :
    Action × Outer σ :=
  if source.isSome && (o.mark target.handle).onStack && sys.accepting target.state then
    match o.split? target.handle with
    | none => o.fail (.fault .closingState)
    | some (tail, outer) => (.terminate, { o with lasso := some ⟨tail, outer, [], target⟩ })
  else (.asNeeded, o)

def isOnStack (sys : System σ) (store : Store σ) (o : Outer σ) (state : σ) : Bool :=
  (store.find? sys.same (sys.fingerprint state) state).any fun v => (o.mark v.handle).onStack

/-- The ample set if it has any successor and none of them is on the stack. -/
def successors (sys : System σ) (reduction : Bool) (store : Store σ) (v : Vertex σ) (o : Outer σ) :
    List (Successor σ) × Outer σ :=
  match if reduction then sys.ample v.state else none with
  | some (a :: rest) =>
    if (a :: rest).any fun s => isOnStack sys store o s.1 then (sys.successors v.state, o)
    else (a :: rest, o.setMark v.handle { o.mark v.handle with reduced := true })
  | _ => (sys.successors v.state, o)

/-- The inner search from `start`, the latest open state. -/
def searchFrom (sys : System σ) (start : Vertex σ) (store : Store σ) (o : Outer σ) :
    Store σ × Outer σ :=
  let e := DepthFirst.run sys (Inner.listener sys start.handle) sys.extent (.vertices [start]) store
    { marks := o.marks }
  let inner := e.observation
  let o := { o with marks := inner.marks }
  match inner.fault, e.finished with
  | some f, _ => (e.store, { o with error := some (.fault f) })
  | none, .error err => (e.store, { o with error := some err })
  | none, .ok _ =>
    let o := { o with innerStats := o.innerStats + e.stats }
    match inner.closing with
    | none => (e.store, o)
    | some closing =>
      match o.split? closing.handle with
      | none => (e.store, { o with error := some (.fault .closingState) })
      | some (tail, outer) =>
        (e.store, { o with lasso := some ⟨tail, outer.dropLast, inner.stack.reverse, start⟩ })

/-- Takes the closed state off the stack, of which it is the latest. -/
def leave (v : Vertex σ) (o : Outer σ) : Action × Outer σ :=
  let o := o.setMark v.handle { o.mark v.handle with onStack := false }
  match o.stack with
  | [] => o.fail (.fault .outerStack)
  | top :: rest =>
    if top.handle = v.handle then (.process, { o with stack := rest })
    else { o with stack := rest }.fail (.fault .outerStack)

def closed (sys : System σ) (v : Vertex σ) (store : Store σ) (o : Outer σ) :
    Action × Store σ × Outer σ :=
  let (store, o) := if sys.accepting v.state then searchFrom sys v store o else (store, o)
  if o.lasso.isSome || o.error.isSome then (.terminate, store, o)
  else
    let (action, o) := leave v o
    (action, store, o)

def listener (sys : System σ) (reduction : Bool) : Listener σ (Outer σ) where
  edge _ source target _ _ o := edge sys source target o
  state _ v o :=
    (.process,
      { o.setMark v.handle { o.mark v.handle with onStack := true } with stack := v :: o.stack })
  successors _ := successors sys reduction
  closed _ := closed sys

end Outer

/-- The outer search from the initial states, over an empty store. -/
def explore (sys : System σ) (config : SearchConfig) : Exploration σ (Outer σ) :=
  DepthFirst.run sys (Outer.listener sys config.reduction) sys.extent .initials
    (.ofShards Store.defaultShards config.stateLimit) {}

end ModelChecker.Nested

namespace ModelChecker

inductive LivenessVerdict (σ : Type) where
  | holds
  | violated (l : Lasso σ)
  | noStates
deriving DecidableEq, Repr

structure LivenessReport (σ : Type) where
  verdict : LivenessVerdict σ
  stats : SearchStats
  stored : Nat
deriving DecidableEq, Repr

namespace Nested

variable {σ : Type}

/-- The verdict of a search that ended without an error. -/
def conclude (e : Exploration σ (Outer σ)) : LivenessVerdict σ :=
  match e.observation.lasso with
  | some lasso => .violated (lasso.map (·.state))
  | none => if e.store.isEmpty then .noStates else .holds

end Nested

/-- Searches for an accepting cycle. There is always one worker, and the order is depth-first. -/
def nestedSearch {σ : Type} (sys : System σ) (config : SearchConfig) :
    Except SearchError (LivenessReport σ) := do
  let e := Nested.explore sys config
  match e.observation.error with
  | some err => throw err
  | none =>
    let _ ← e.finished
    return { verdict := Nested.conclude e
             stats := e.stats + e.observation.innerStats
             stored := e.store.size }

end ModelChecker
