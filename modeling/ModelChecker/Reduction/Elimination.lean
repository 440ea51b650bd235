import ModelChecker.Search.Fault
import ModelChecker.Search.Schedule
import ModelChecker.Store.Basic

namespace ModelChecker.Elimination

/-- The vertices that one part owns. -/
structure Part where
  /-- The successors of each vertex, with the part that owns them. -/
  outgoing : Std.TreeMap Handle (List (Handle × Nat)) := ∅
  indegree : Std.TreeMap Handle Nat := ∅
  /-- Vertices without incoming edges that are not removed yet. -/
  ready : List Handle := []
  /-- Vertices that are to lose one incoming edge. -/
  inbox : List Handle := []
  /-- The successors of the vertex that is being removed that are still to be dealt with. -/
  current : Option (List (Handle × Nat)) := none
  /-- Work finished but not yet taken off the common count. -/
  finished : Nat := 0
  phase : Phase := .working
deriving Inhabited

structure State where
  parts : Array Part
  /-- Ready vertices, messages under way, vertices being removed, and finished work that is not yet
  taken off. -/
  outstanding : Nat := 0
  fault : Option Fault := none

def State.part (m : State) (i : Nat) : Part := m.parts[i]?.getD {}

def State.modifyPart (m : State) (i : Nat) (f : Part → Part) : State :=
  { m with parts := m.parts.modify i f }

/-- A part begins to remove one of its ready vertices, deals with the next successor of the vertex
that it is removing, or takes one message out of its inbox. -/
inductive Move where
  | remove (part position : Nat)
  | pass (part : Nat)
  | deliver (part position : Nat)
deriving DecidableEq, Repr

def State.addEdge {σ : Type} (m : State) (edge : Vertex σ × Vertex σ) : State :=
  let (source, target) := edge
  let sourceOwner := Store.owner m.parts.size source.fingerprint
  let targetOwner := Store.owner m.parts.size target.fingerprint
  let m := m.modifyPart sourceOwner fun p =>
    { p with
      indegree := p.indegree.insertIfNew source.handle 0
      outgoing := p.outgoing.insert source.handle
        (p.outgoing.getD source.handle [] ++ [(target.handle, targetOwner)]) }
  m.modifyPart targetOwner fun p =>
    { p with indegree := p.indegree.insert target.handle (p.indegree.getD target.handle 0 + 1) }

def Part.prepare (p : Part) : Part :=
  { p with ready := (p.indegree.toList.filter (·.2 == 0)).map (·.1) }

def State.prepare (m : State) : State :=
  let parts := m.parts.map Part.prepare
  { m with parts, outstanding := parts.foldl (fun n p => n + p.ready.length) 0 }

def State.ofEdges {σ : Type} (workers : Nat) (edges : List (Vertex σ × Vertex σ)) : State :=
  (edges.foldl State.addEdge { parts := .replicate (max workers 1) {} }).prepare

/-- Takes one incoming edge from a vertex of a part; the vertex is ready when none is left. -/
def State.decrement (m : State) (i : Nat) (target : Handle) : State :=
  match (m.part i).indegree[target]? with
  | none => { m with fault := m.fault.or (some (.foreignVertex target)) }
  | some 0 => { m with fault := m.fault.or (some (.negativeDegree target)) }
  | some (d + 1) =>
    { m with outstanding := if d = 0 then m.outstanding + 1 else m.outstanding }.modifyPart i
      fun p =>
        { p with
          indegree := p.indegree.insert target d
          ready := if d = 0 then target :: p.ready else p.ready }

def State.send (m : State) (i : Nat) (target : Handle) : State :=
  { m with outstanding := m.outstanding + 1 }.modifyPart i fun p =>
    { p with inbox := p.inbox ++ [target] }

/-- Makes a move; a move that finds nothing to do changes nothing. -/
def State.apply (m : State) : Move → State
  | .remove i position =>
    match (m.part i).current, (m.part i).ready[position]? with
    | none, some removed =>
      m.modifyPart i fun p =>
        { p with
          ready := p.ready.eraseIdx position
          current := some (p.outgoing.getD removed []) }
    | _, _ => m
  | .pass i =>
    match (m.part i).current with
    | none => m
    | some [] => m.modifyPart i fun p => { p with current := none, finished := p.finished + 1 }
    | some ((target, owner) :: rest) =>
      let m := m.modifyPart i fun p => { p with current := some rest }
      if owner = i then m.decrement i target else m.send owner target
  | .deliver i position =>
    match (m.part i).inbox[position]? with
    | none => m
    | some target =>
      (m.modifyPart i fun p =>
        { p with inbox := p.inbox.eraseIdx position, finished := p.finished + 1 }).decrement i target

/-- What a part does next: it goes on with its removal, takes its oldest message, or removes the
vertex that became ready last. -/
def Part.next (p : Part) (i : Nat) : Option Move :=
  if p.current.isSome then some (.pass i)
  else if !p.inbox.isEmpty then some (.deliver i 0)
  else if !p.ready.isEmpty then some (.remove i 0)
  else none

/-- One step of the worker of a part. It returns when it sees that the count is zero. -/
def step (i : Nat) (m : State) : State :=
  match m.parts[i]? with
  | none => m
  | some p =>
    match p.phase with
    | .working =>
      match p.next i with
      | some move => m.apply move
      | none => m.modifyPart i fun p => { p with phase := .settling }
    | .settling =>
      { m with outstanding := m.outstanding - p.finished }.modifyPart i
        fun p => { p with finished := 0, phase := .testing }
    | .testing =>
      m.modifyPart i
        fun p => { p with phase := if m.outstanding = 0 then .returned else .working }
    | .returned => m

/-- Lets the workers take their steps in the given order. -/
def runSchedule (schedule : List Nat) (m : State) : State :=
  schedule.foldl (fun m i => step i m) m

def State.isOver (m : State) : Bool :=
  m.parts.all (·.phase = .returned)

/-- Each vertex is removed once, in two moves and one for each of its edges, and each edge may need
another one for its message. While there is work, in three rounds a move is made; then the workers
settle and see that the count is zero. -/
def enough (edges : Nat) : Nat := 18 * edges + 6

/-- Whether a vertex has incoming edges left. -/
def State.remains (m : State) (h : Handle) : Bool :=
  m.parts.any fun p => p.indegree.getD h 0 != 0

def firstOccurrences {σ : Type} : List (Vertex σ) → List Handle → List (Vertex σ)
  | [], _ => []
  | v :: rest, seen =>
    if v.handle ∈ seen then firstOccurrences rest seen
    else v :: firstOccurrences rest (v.handle :: seen)

/-- The sources of the edges between remaining vertices that do not ascend. -/
def pick {σ : Type} (m : State) (edges : List (Vertex σ × Vertex σ)) : List (Vertex σ) :=
  let descending := edges.filter fun (source, target) =>
    m.remains source.handle && m.remains target.handle && decide (target.handle ≤ source.handle)
  firstOccurrences (descending.map (·.1)) []

/-- The vertices to be expanded fully, given the edges among reduced vertices. -/
def eliminate {σ : Type} (edges : List (Vertex σ × Vertex σ)) (workers : Nat)
    (schedule : Schedule := .inTurn (max workers 1)) : Except SearchError (List (Vertex σ)) :=
  if edges.isEmpty then .ok []
  else
    let m := schedule.rounds step State.isOver (enough edges.length) (.ofEdges workers edges)
    match m.fault with
    | some f => .error (.fault f)
    | none => if m.isOver then .ok (pick m edges) else .error .unfinished

end ModelChecker.Elimination
