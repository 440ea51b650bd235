import ModelChecker.System
import ModelChecker.Store.Basic

namespace ModelChecker

/-- What a search should do after a callback. -/
inductive Action where
  /-- On an edge: go on to its target, even if it was met before. On a state: expand it. -/
  | process
  /-- Do not act on this edge or state. -/
  | ignore
  /-- On an edge: go on to its target only if this edge met it first. -/
  | asNeeded
  /-- End the whole search. -/
  | terminate
deriving DecidableEq, Repr

/-- Steers a search. The first argument of a callback is the worker that makes it; the memory of the
listeners of all workers is one value. -/
structure Listener (σ ω : Type) where
  /-- An edge, after its target is stored. A seed of the search has no source. -/
  edge : Nat → Option (Vertex σ) → Vertex σ → EdgeFlags → Bool → ω → Action × ω :=
    fun _ _ _ _ _ o => (.asNeeded, o)
  /-- A state, right before it is set aside for expansion. -/
  state : Nat → Vertex σ → ω → Action × ω := fun _ _ o => (.process, o)
  /-- The expansion of a state gave no successors. -/
  deadlocked : Nat → Vertex σ → ω → Action × ω := fun _ _ o => (.ignore, o)
  /-- The successors that a state is expanded with. -/
  successors : Nat → Store σ → Vertex σ → ω → List (Successor σ) × ω
  /-- The last successor of a state has been dealt with. Only a depth-first search tells this; the
  listener may store more states. -/
  closed : Nat → Vertex σ → Store σ → ω → Action × Store σ × ω := fun _ _ s o => (.process, s, o)

/-- Accepts whatever a search proposes. -/
def Listener.exhaustive {σ : Type} (sys : System σ) : Listener σ Unit where
  successors _ _ v o := (sys.successors v.state, o)

/-- Counts of a search. `states` are the expanded ones. -/
structure SearchStats where
  states : Nat := 0
  edges : Nat := 0
  deadlocks : Nat := 0
deriving DecidableEq, Repr, Inhabited

instance : Add SearchStats :=
  ⟨fun a b => ⟨a.states + b.states, a.edges + b.edges, a.deadlocks + b.deadlocks⟩⟩

/-- How a search came to its end. -/
inductive Ending where
  /-- There was nothing left to do. -/
  | completed
  /-- The listener asked for it. -/
  | terminated
  /-- The store was full. -/
  | exhausted (e : Exhausted)
deriving DecidableEq, Repr

/-- What makes the workers of a search stop early. -/
structure Interrupt where
  raised : Bool := false
  failure : Option Exhausted := none
deriving DecidableEq, Repr

namespace Interrupt

/-- Tells all workers to stop. The first failure of the store is kept. -/
def raise (i : Interrupt) : Ending → Interrupt
  | .exhausted e => ⟨true, i.failure.or (some e)⟩
  | _ => { i with raised := true }

/-- How a search ends whose workers have all stopped. -/
def ending (i : Interrupt) : Ending :=
  match i.failure with
  | some e => .exhausted e
  | none => if i.raised then .terminated else .completed

end Interrupt

/-- A search that was run. It was cut short by its allowance if it has no ending. -/
structure Exploration (σ ω : Type) where
  store : Store σ
  observation : ω
  stats : SearchStats
  ending : Option Ending

/-- Where a search starts. -/
inductive Seeds (σ : Type) where
  | initials
  /-- Vertices of the store that the search runs on. -/
  | vertices (vs : List (Vertex σ))

/-- What an edge or a seed leads to. -/
inductive Step where
  | expand
  | skip
  | stop
deriving DecidableEq, Repr

namespace Listener

variable {σ ω : Type}

/-- Tells of an edge and then, if it is followed, of its target. -/
def follow (l : Listener σ ω) (worker : Nat) (source : Option (Vertex σ)) (target : Vertex σ)
    (flags : EdgeFlags) (isNew : Bool) (o : ω) : Step × ω :=
  match l.edge worker source target flags isNew o with
  | (.terminate, o) => (.stop, o)
  | (.ignore, o) => (.skip, o)
  | (action, o) =>
    if action = .asNeeded ∧ isNew = false then (.skip, o)
    else
      match l.state worker target o with
      | (.terminate, o) => (.stop, o)
      | (.ignore, o) => (.skip, o)
      | (_, o) => (.expand, o)

/-- The successors of a state, told as a deadlock if there are none. No successor list means that
the listener ended the search there. -/
def expand (l : Listener σ ω) (worker : Nat) (store : Store σ) (v : Vertex σ) (stats : SearchStats)
    (o : ω) : Option (List (Successor σ)) × SearchStats × ω :=
  match l.successors worker store v o with
  | ([], o) =>
    let stats := { stats with states := stats.states + 1, deadlocks := stats.deadlocks + 1 }
    match l.deadlocked worker v o with
    | (.terminate, o) => (none, stats, o)
    | (_, o) => (some [], stats, o)
  | (next, o) =>
    (some next, { stats with states := stats.states + 1, edges := stats.edges + next.length }, o)

end Listener

/-- Finds or stores a generated state. -/
def System.store {σ : Type} (sys : System σ) (s : Store σ) (state : σ) :
    Except Exhausted (Insertion σ (Store σ)) :=
  s.insert sys.same (sys.fingerprint state) state

/-- What became of an edge whose target was stored and told to the listener. -/
inductive Offer (σ ω : Type) where
  | expand (target : Vertex σ) (store : Store σ) (o : ω)
  | skip (store : Store σ) (o : ω)
  | halt (ending : Ending) (store : Store σ) (o : ω)

/-- Stores the target of an edge and follows the edge, as a worker does that has the target's part of
the store to itself. -/
def Listener.offer {σ ω : Type} (l : Listener σ ω) (sys : System σ) (worker : Nat)
    (source : Option (Vertex σ)) (next : Successor σ) (store : Store σ) (o : ω) : Offer σ ω :=
  match sys.store store next.1 with
  | .error e => .halt (.exhausted e) store o
  | .ok ⟨target, isNew, store⟩ =>
    match l.follow worker source target next.2 isNew o with
    | (.expand, o) => .expand target store o
    | (.skip, o) => .skip store o
    | (.stop, o) => .halt .terminated store o

/-- The seeds as vertices, all stored before the search starts, with whether each was new. -/
def System.resolve {σ : Type} (sys : System σ) :
    List σ → Store σ → Except (Exhausted × Store σ) (List (Vertex σ × Bool) × Store σ)
  | [], store => .ok ([], store)
  | s :: rest, store =>
    match sys.store store s with
    | .error e => .error (e, store)
    | .ok ⟨v, isNew, store⟩ =>
      (sys.resolve rest store).map fun (vs, store) => ((v, isNew) :: vs, store)

def Seeds.resolve {σ : Type} (seeds : Seeds σ) (sys : System σ) (store : Store σ) :
    Except (Exhausted × Store σ) (List (Vertex σ × Bool) × Store σ) :=
  match seeds with
  | .initials => sys.resolve sys.initials store
  | .vertices vs => .ok (vs.map (·, false), store)

end ModelChecker
