import ModelChecker.Reduction.Elimination
import ModelChecker.Safety.Level
import ModelChecker.Safety.Verdict
import ModelChecker.Search.Explore

namespace ModelChecker.Bounded

/-- What one round of the search looks for. -/
structure Query where
  property : Property
  reduction : Bool
  bound : Nat
  level : Nat
deriving DecidableEq, Repr

structure Observation (σ : Type) where
  marks : Std.TreeMap Handle LevelMark := ∅
  findings : Findings σ := {}
  /-- Edges out of reduced states that the workers have taken in this round, each worker's newest
  first. -/
  taken : Std.TreeMap Nat (List (Vertex σ × Vertex σ)) := ∅
  /-- Such edges of earlier rounds. -/
  kept : List (Vertex σ × Vertex σ) := []
  fault : Option Fault := none

namespace Observation

variable {σ : Type}

def mark (o : Observation σ) (h : Handle) : LevelMark := o.marks.getD h {}

def setMark (o : Observation σ) (h : Handle) (m : LevelMark) : Observation σ :=
  { o with marks := o.marks.insert h m }

def found (o : Observation σ) : Option (Violation σ) := o.findings.first?

/-- Ends the search with a violation. -/
def report (o : Observation σ) (worker : Nat) (x : Violation σ) : Action × Observation σ :=
  (.terminate, { o with findings := o.findings.add worker x })

def fail (o : Observation σ) (f : Fault) : Action × Observation σ :=
  (.terminate, { o with fault := some f })

def take (o : Observation σ) (worker : Nat) (e : Vertex σ × Vertex σ) : Observation σ :=
  { o with taken := o.taken.insert worker (e :: o.taken.getD worker []) }

/-- The edges out of reduced states, those of this round one worker after the other. -/
def reducedEdges (o : Observation σ) : List (Vertex σ × Vertex σ) :=
  o.kept ++ o.taken.toList.flatMap fun x => x.2.reverse

/-- Ends a round: drops the edges whose source is reduced no more. -/
def retainReduced (o : Observation σ) : Observation σ :=
  { o with
    taken := ∅
    kept := o.reducedEdges.filter fun e => (o.mark e.1.handle).reduced }

def cyclicEdges (o : Observation σ) : List (Vertex σ × Vertex σ) :=
  o.reducedEdges.filter fun e => (o.mark e.2.handle).reduced

def reopen (o : Observation σ) (vs : List (Vertex σ)) : Observation σ :=
  vs.foldl (fun o v => o.setMark v.handle (o.mark v.handle).reopen) o

end Observation

variable {σ : Type}

def seed (sys : System σ) (q : Query) (worker : Nat) (target : Vertex σ) (o : Observation σ) :
    Action × Observation σ :=
  let o := if q.level = 0 then o.setMark target.handle (o.mark target.handle).asInitial else o
  if (violationOf sys q.property target.state {} false).isSome then
    o.report worker ⟨.goal, target, none⟩
  else (.process, o)

/-- Brings the level of an edge's target up to date, and goes on to the target if it belongs to the
level that is being explored. -/
def reach (sys : System σ) (q : Query) (worker : Nat) (source : Vertex σ) (sourceLevel : Nat)
    (target : Vertex σ) (flags : EdgeFlags) (o : Observation σ) : Action × Observation σ :=
  let m := o.mark target.handle
  if m.isExpanded then (.ignore, o)
  else
    let m := m.offerParent (sourceLevel + flags.contextSwitch.toNat) (.vertex source.handle)
    let m := m.lower sourceLevel flags.contextSwitch
    let o := o.setMark target.handle m
    if m.level?.any (q.level < ·) then (.ignore, o)
    else if (violationOf sys q.property target.state flags false).isSome then
      o.report worker ⟨.goal, target, none⟩
    else (.process, o)

def edge (sys : System σ) (q : Query) (worker : Nat) (source target : Vertex σ)
    (flags : EdgeFlags) (o : Observation σ) : Action × Observation σ :=
  let m := o.mark source.handle
  match m.level? with
  | none => o.fail .unleveledSource
  | some sourceLevel =>
    if sourceLevel + flags.contextSwitch.toNat ≤ q.bound
        ∧ violationOf sys q.property target.state flags true = some .errorEdge then
      o.report worker ⟨.errorEdge, target, some source⟩
    else
      let o := if q.reduction && m.reduced then o.take worker (source, target) else o
      reach sys q worker source sourceLevel target flags o

/-- A state is expanded once, unless it is opened again. -/
def expandState (v : Vertex σ) (o : Observation σ) : Action × Observation σ :=
  let m := o.mark v.handle
  match m.progress with
  | .unseen => o.fail .unleveledState
  | .waiting l => (.process, o.setMark v.handle { m with progress := .expanded l })
  | .expanded _ => (.ignore, o)

/-- The ample set if there is one with any successor, unless the state has to be expanded fully. -/
def successors (sys : System σ) (q : Query) (v : Vertex σ) (o : Observation σ) :
    List (Successor σ) × Observation σ :=
  let m := o.mark v.handle
  if q.reduction && !m.full then
    match sys.ample v.state with
    | some (a :: rest) => (a :: rest, o.setMark v.handle { m with reduced := true })
    | _ => (sys.successors v.state, o)
  else (sys.successors v.state, o)

def listener (sys : System σ) (q : Query) : Listener σ (Observation σ) where
  edge worker source target flags _ o :=
    match source with
    | none => seed sys q worker target o
    | some source => edge sys q worker source target flags o
  state _ := expandState
  deadlocked worker v o :=
    if q.property = .deadlock then o.report worker ⟨.deadlock, v, none⟩ else (.ignore, o)
  successors _ _ := successors sys q

structure State (σ : Type) where
  store : Store σ
  observation : Observation σ := {}
  stats : SearchStats := {}

/-- The schedules of the searches and of the eliminations, by their level and by the number of rounds
that the level may still take. -/
structure Timetable where
  search : Nat → Nat → Schedule
  elimination : Nat → Nat → Schedule

namespace Timetable

def inTurn (workers : Nat) : Timetable := ⟨fun _ _ => .inTurn workers, fun _ _ => .inTurn workers⟩

def Fair (t : Timetable) (workers : Nat) : Prop :=
  ∀ level n, (t.search level n).Fair workers ∧ (t.elimination level n).Fair workers

theorem fair_inTurn (workers : Nat) : (inTurn workers).Fair workers :=
  fun _ _ => ⟨Schedule.fair_inTurn workers, Schedule.fair_inTurn workers⟩

end Timetable

/-- One search from the given seeds at one level. -/
def round (sys : System σ) (config : SearchConfig) (q : Query) (schedule : Schedule)
    (seeds : Seeds σ) (m : State σ) : Except SearchError (State σ) := do
  let e ← (config.search sys (listener sys q) seeds m.store m.observation schedule).mapError .fault
  match e.observation.fault with
  | some f => throw (.fault f)
  | none =>
    let _ ← e.finished
    return ⟨e.store, e.observation, m.stats + e.stats⟩

/-- Searches one level, and again from the states on reduced cycles until there are none. Each
state is opened again at most once. -/
def exploreLevel (sys : System σ) (config : SearchConfig) (q : Query) (timetable : Timetable) :
    Nat → Seeds σ → State σ → Except SearchError (State σ)
  | 0, _, _ => throw .unfinished
  | n + 1, seeds, m => do
    let m ← round sys config q (timetable.search q.level n) seeds m
    if m.observation.found.isSome || !q.reduction then return m
    let o := m.observation.retainReduced
    let marked ← Elimination.eliminate o.cyclicEdges config.workerCount
      (timetable.elimination q.level n)
    if marked.isEmpty then return { m with observation := o }
    exploreLevel sys config q timetable n (.vertices marked)
      { m with observation := o.reopen marked }

def State.waitingAt (m : State σ) (level : Nat) : List (Vertex σ) :=
  m.store.vertices.filter fun v => (m.observation.mark v.handle).progress = .waiting level

/-- Explores level after level, up to the bound or until a level expands nothing; answers whether
it was for the latter that the search came to an end. -/
def exploreLevels (sys : System σ) (config : SearchConfig) (bound : Nat) (timetable : Timetable) :
    Nat → Nat → State σ → Except SearchError (Bool × State σ)
  | 0, _, _ => throw .unfinished
  | n + 1, level, m => do
    let seeds := if level = 0 then .initials else .vertices (m.waitingAt level)
    let next ← exploreLevel sys config ⟨config.property, config.reduction, bound, level⟩ timetable
      (sys.extent + 1) seeds m
    if next.observation.found.isSome then return (false, next)
    if next.stats.states = m.stats.states then return (true, next)
    if bound ≤ level then return (false, next)
    exploreLevels sys config bound timetable n (level + 1) next

/-- The whole search. Every level but the last expands a state, and a state is expanded at most
twice. -/
def explore (sys : System σ) (config : SearchConfig) (bound : Nat)
    (timetable : Timetable := .inTurn config.workerCount) : Except SearchError (Bool × State σ) :=
  exploreLevels sys config bound timetable (2 * sys.extent + 1) 0 { store := config.newStore }

def State.isBeyond (m : State σ) (bound : Nat) : Bool :=
  m.store.vertices.any fun v => (m.observation.mark v.handle).level?.any (bound < ·)

def conclude (bound : Nat) (allExplored : Bool) (m : State σ) : Except Fault (Verdict σ) :=
  match m.observation.found with
  | some x => do
    let trace ← x.trace m.store fun h => (m.observation.mark h).parent
    return .violated ⟨x.kind, trace⟩
  | none =>
    return if m.store.isEmpty then .noStates
      else if !allExplored && m.isBeyond bound then .boundExhausted
      else .holds

end ModelChecker.Bounded

namespace ModelChecker

/-- Searches for a violation of the configured property along paths with at most `bound` context
switches. -/
def boundedSearch {σ : Type} (sys : System σ) (config : SearchConfig) (bound : UInt32)
    (timetable : Bounded.Timetable := .inTurn config.workerCount) :
    Except SearchError (SafetyReport σ) := do
  let (allExplored, m) ← Bounded.explore sys config bound.toNat timetable
  let verdict ← (Bounded.conclude bound.toNat allExplored m).mapError .fault
  return { verdict, stats := m.stats, stored := m.store.size }

end ModelChecker
