import ModelChecker.Search.Listener
import ModelChecker.Search.Schedule
import ModelChecker.Queue.Chunked

namespace ModelChecker.BreadthFirst

/-- The stored target of an edge that the listener is still to be told of. -/
structure Meeting (σ : Type) where
  target : Vertex σ
  flags : EdgeFlags
  isNew : Bool

/-- A state that is being expanded. -/
structure Expansion (σ : Type) where
  source : Vertex σ
  met : Option (Meeting σ) := none
  /-- The edges whose targets are still to be stored. -/
  rest : List (Successor σ)

structure Worker (σ : Type) where
  buffer : QueueBuffer (Vertex σ) := {}
  current : Option (Expansion σ) := none
  stats : SearchStats := {}
  stopped : Bool := false
deriving Inhabited

structure State (σ ω : Type) where
  store : Store σ
  observation : ω
  queue : ChunkedQueue (Vertex σ)
  workers : Array (Worker σ)
  interrupt : Interrupt := {}

variable {σ ω : Type}

/-- A worker ends the search in the middle of an expansion. -/
def halt (ending : Ending) (w : Worker σ) (m : State σ ω) : State σ ω × Worker σ :=
  let view := (QueueView.mk m.queue w.buffer).markDone.flush
  ({ m with queue := view.queue, interrupt := m.interrupt.raise ending },
    { w with buffer := view.buffer, current := none, stopped := true })

/-- Stores the target of an edge. Other workers may find it there before the listener is told. -/
def meet (sys : System σ) (source : Vertex σ) (next : Successor σ) (rest : List (Successor σ))
    (w : Worker σ) (m : State σ ω) : State σ ω × Worker σ :=
  match sys.store m.store next.1 with
  | .error e => halt (.exhausted e) w m
  | .ok ⟨target, isNew, store⟩ =>
    ({ m with store }, { w with current := some ⟨source, some ⟨target, next.2, isNew⟩, rest⟩ })

/-- Tells of an edge whose target is stored, and queues the target if asked to. -/
def tell (l : Listener σ ω) (worker : Nat) (source : Vertex σ) (x : Meeting σ)
    (rest : List (Successor σ)) (w : Worker σ) (m : State σ ω) : State σ ω × Worker σ :=
  match l.follow worker (some source) x.target x.flags x.isNew m.observation with
  | (.expand, o) =>
    let view := (QueueView.mk m.queue w.buffer).push x.target
    ({ m with observation := o, queue := view.queue },
      { w with buffer := view.buffer, current := some ⟨source, none, rest⟩ })
  | (.skip, o) => ({ m with observation := o }, { w with current := some ⟨source, none, rest⟩ })
  | (.stop, o) => halt .terminated w { m with observation := o }

/-- Marks the state that was being expanded as finished. -/
def finish (w : Worker σ) (m : State σ ω) : State σ ω × Worker σ :=
  let view := (QueueView.mk m.queue w.buffer).markDone
  ({ m with queue := view.queue }, { w with buffer := view.buffer, current := none })

/-- Starts the expansion of a state that was taken off the queue. -/
def expand (l : Listener σ ω) (worker : Nat) (v : Vertex σ) (w : Worker σ) (m : State σ ω) :
    State σ ω × Worker σ :=
  match l.expand worker m.store v w.stats m.observation with
  | (none, stats, o) => halt .terminated { w with stats } { m with observation := o }
  | (some next, stats, o) =>
    ({ m with observation := o }, { w with stats, current := some ⟨v, none, next⟩ })

/-- A worker without a state looks for one. It stops on an interrupt, and when all work is
finished. -/
def take (l : Listener σ ω) (worker : Nat) (w : Worker σ) (m : State σ ω) :
    State σ ω × Worker σ :=
  if m.interrupt.raised then
    let view := (QueueView.mk m.queue w.buffer).flush
    ({ m with queue := view.queue }, { w with buffer := view.buffer, stopped := true })
  else
    match (QueueView.mk m.queue w.buffer).pop with
    | (some v, view) =>
      expand l worker v { w with buffer := view.buffer } { m with queue := view.queue }
    | (none, view) =>
      let (finished, view) := view.isFinished
      ({ m with queue := view.queue }, { w with buffer := view.buffer, stopped := finished })

def stepWorker (sys : System σ) (l : Listener σ ω) (worker : Nat) (w : Worker σ) (m : State σ ω) :
    State σ ω × Worker σ :=
  match w.current with
  | some ⟨v, some x, rest⟩ => tell l worker v x rest w m
  | some ⟨v, none, next :: rest⟩ => meet sys v next rest w m
  | some ⟨_, none, []⟩ => finish w m
  | none => take l worker w m

/-- One step of one worker. -/
def step (sys : System σ) (l : Listener σ ω) (worker : Nat) (m : State σ ω) : State σ ω :=
  match m.workers[worker]? with
  | none => m
  | some w =>
    if w.stopped then m
    else
      let (m, w) := stepWorker sys l worker w m
      { m with workers := m.workers.setIfInBounds worker w }

/-- Lets the workers take their steps in the given order. -/
def runSchedule (sys : System σ) (l : Listener σ ω) (schedule : List Nat) (m : State σ ω) :
    State σ ω :=
  schedule.foldl (fun m worker => step sys l worker m) m

def State.isOver (m : State σ ω) : Bool :=
  m.workers.all (·.stopped)

/-- Round after round of a schedule, until all workers have stopped. -/
def rounds (sys : System σ) (l : Listener σ ω) : Schedule → Nat → State σ ω → State σ ω :=
  Schedule.rounds (step sys l) State.isOver

/-- The seeds, dealt out to the listeners in turn; the answer tells whether one ended the search. -/
def plant (l : Listener σ ω) (workers : Nat) :
    Nat → List (Vertex σ × Bool) → ω → QueueView (Vertex σ) → Bool × ω × QueueView (Vertex σ)
  | _, [], o, view => (false, o, view)
  | i, (v, isNew) :: rest, o, view =>
    match l.follow (i % workers) none v {} isNew o with
    | (.expand, o) => plant l workers (i + 1) rest o (view.push v)
    | (.skip, o) => plant l workers (i + 1) rest o view
    | (.stop, o) => (true, o, view)

/-- The rounds of a search that expands at most `allowance` states. While there is work, every
round begins or ends an expansion, stores a target or tells of an edge; then come the round in which
all are idle and the one in which they notice. -/
def enough (sys : System σ) (allowance : Nat) : Nat :=
  allowance * (2 * sys.degree + 2) + 3

def State.toExploration (m : State σ ω) : Exploration σ ω where
  store := m.store
  observation := m.observation
  stats := m.workers.foldl (fun total w => total + w.stats) {}
  ending := if m.isOver then some m.interrupt.ending else none

/-- The state before the first step. -/
def start (workers : Nat) (queue : ChunkedQueue (Vertex σ)) (store : Store σ) (o : ω) :
    State σ ω :=
  { store, observation := o, queue, workers := .replicate workers {} }

def run (sys : System σ) (l : Listener σ ω) (workers allowance : Nat) (seeds : Seeds σ)
    (store : Store σ) (o : ω) (schedule : Schedule := .inTurn workers) : Exploration σ ω :=
  match seeds.resolve sys store with
  | .error (e, store) => ⟨store, o, {}, some (.exhausted e)⟩
  | .ok (vs, store) =>
    match plant l workers 0 vs o ⟨.ofChunkSize _ ChunkedQueue.defaultChunk, {}⟩ with
    | (true, o, _) => ⟨store, o, {}, some .terminated⟩
    | (false, o, view) =>
      (rounds sys l schedule (enough sys allowance)
        (start workers view.flush.queue store o)).toExploration

end ModelChecker.BreadthFirst
