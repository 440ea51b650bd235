import ModelChecker.Search.Listener
import ModelChecker.Search.Schedule
import ModelChecker.Queue.Fifo

namespace ModelChecker.Partitioned

/-- An edge whose target is not stored yet. A seed has no source. -/
structure Message (σ : Type) where
  source : Option (Vertex σ)
  next : Successor σ

structure Worker (σ : Type) where
  inbox : Fifo (Message σ) := {}
  queue : Fifo (Vertex σ) := {}
  /-- The state that is being expanded, with the edges that are still to be dealt with. -/
  current : Option (Vertex σ × List (Successor σ)) := none
  /-- Work finished but not yet taken off the common count. -/
  finished : Nat := 0
  stats : SearchStats := {}
  phase : Phase := .working
deriving Inhabited

/-- One worker for each shard of the store. It alone stores, tells of and expands the states of its
shard; an edge into another shard travels to its worker as a message. -/
structure State (σ ω : Type) where
  store : Store σ
  observation : ω
  workers : Array (Worker σ)
  /-- Queued vertices, messages under way, states being expanded, and finished work that is not yet
  taken off. -/
  outstanding : Nat := 0
  interrupt : Interrupt := {}

variable {σ ω : Type}

def State.modifyWorker (m : State σ ω) (worker : Nat) (f : Worker σ → Worker σ) : State σ ω :=
  { m with workers := m.workers.modify worker f }

/-- The worker that owns a state. -/
def State.owner (m : State σ ω) (sys : System σ) (s : σ) : Nat :=
  Store.owner m.workers.size (sys.fingerprint s)

/-- Counts a message and puts it into the inbox of the owner of its target. -/
def send (sys : System σ) (message : Message σ) (m : State σ ω) : State σ ω :=
  { m with outstanding := m.outstanding + 1 }.modifyWorker (m.owner sys message.next.1)
    fun w => { w with inbox := w.inbox.push message }

def halt (worker : Nat) (ending : Ending) (m : State σ ω) : State σ ω :=
  { m with interrupt := m.interrupt.raise ending }.modifyWorker worker
    fun w => { w with phase := .returned }

/-- Stores the target of an edge in the worker's own shard, and queues it if it is to be expanded. -/
def accept (sys : System σ) (l : Listener σ ω) (worker : Nat) (source : Option (Vertex σ))
    (next : Successor σ) (m : State σ ω) : State σ ω :=
  match l.offer sys worker source next m.store m.observation with
  | .expand v store o =>
    { m with store, observation := o, outstanding := m.outstanding + 1 }.modifyWorker worker
      fun w => { w with queue := w.queue.push v }
  | .skip store o => { m with store, observation := o }
  | .halt ending store o => halt worker ending { m with store, observation := o }

/-- Deals with an edge of the state that is being expanded: accepts it, or sends it to the owner of
its target. -/
def distribute (sys : System σ) (l : Listener σ ω) (worker : Nat) (source : Vertex σ)
    (next : Successor σ) (m : State σ ω) : State σ ω :=
  if m.owner sys next.1 = worker then accept sys l worker (some source) next m
  else send sys ⟨some source, next⟩ m

/-- Starts the expansion of a state. -/
def expand (l : Listener σ ω) (worker : Nat) (v : Vertex σ) (stats : SearchStats)
    (m : State σ ω) : State σ ω :=
  match l.expand worker m.store v stats m.observation with
  | (none, stats, o) =>
    halt worker .terminated
      ({ m with observation := o }.modifyWorker worker fun w => { w with stats })
  | (some next, stats, o) =>
    { m with observation := o }.modifyWorker worker
      fun w => { w with stats, current := some (v, next) }

/-- A worker that is not expanding a state receives a message, or else takes a state off its queue,
or else goes on to settle. -/
def take (sys : System σ) (l : Listener σ ω) (worker : Nat) (w : Worker σ) (m : State σ ω) :
    State σ ω :=
  match w.inbox.pop? with
  | some (message, inbox) =>
    accept sys l worker message.source message.next
      (m.modifyWorker worker fun w => { w with inbox, finished := w.finished + 1 })
  | none =>
    match w.queue.pop? with
    | some (v, queue) => expand l worker v w.stats (m.modifyWorker worker fun w => { w with queue })
    | none => m.modifyWorker worker fun w => { w with phase := .settling }

/-- A step of a worker that is working. An interrupt is heeded between expansions. -/
def work (sys : System σ) (l : Listener σ ω) (worker : Nat) (w : Worker σ) (m : State σ ω) :
    State σ ω :=
  match w.current with
  | some (v, next :: rest) =>
    distribute sys l worker v next
      (m.modifyWorker worker fun w => { w with current := some (v, rest) })
  | some (_, []) =>
    m.modifyWorker worker fun w => { w with current := none, finished := w.finished + 1 }
  | none =>
    if m.interrupt.raised then m.modifyWorker worker fun w => { w with phase := .returned }
    else take sys l worker w m

/-- One step of one worker. It returns when it sees that the count is zero. -/
def step (sys : System σ) (l : Listener σ ω) (worker : Nat) (m : State σ ω) : State σ ω :=
  match m.workers[worker]? with
  | none => m
  | some w =>
    match w.phase with
    | .working => work sys l worker w m
    | .settling =>
      { m with outstanding := m.outstanding - w.finished }.modifyWorker worker
        fun w => { w with finished := 0, phase := .testing }
    | .testing =>
      m.modifyWorker worker
        fun w => { w with phase := if m.outstanding = 0 then .returned else .working }
    | .returned => m

/-- Lets the workers take their steps in the given order. -/
def runSchedule (sys : System σ) (l : Listener σ ω) (schedule : List Nat) (m : State σ ω) :
    State σ ω :=
  schedule.foldl (fun m worker => step sys l worker m) m

def State.isOver (m : State σ ω) : Bool :=
  m.workers.all (·.phase = .returned)

/-- Round after round of a schedule, until all workers have returned. -/
def rounds (sys : System σ) (l : Listener σ ω) : Schedule → Nat → State σ ω → State σ ω :=
  Schedule.rounds (step sys l) State.isOver

/-- The rounds of a search that expands at most `allowance` states. While there is work, in three
rounds some worker receives a message, begins or ends an expansion, or deals with an edge; then the
workers settle and see that the count is zero. -/
def enough (sys : System σ) (allowance seeds : Nat) : Nat :=
  3 * (seeds + allowance * (2 * sys.degree + 2)) + 6

def State.toExploration (m : State σ ω) : Exploration σ ω where
  store := m.store
  observation := m.observation
  stats := m.workers.foldl (fun total w => total + w.stats) {}
  ending := if m.isOver then some m.interrupt.ending else none

def seedStates (sys : System σ) : Seeds σ → List σ
  | .initials => sys.initials
  | .vertices vs => vs.map (·.state)

/-- The state before the first step: every seed is a message to its owner. -/
def start (sys : System σ) (seeds : List σ) (store : Store σ) (o : ω) : State σ ω :=
  seeds.foldl (fun m s => send sys ⟨none, s, {}⟩ m)
    { store, observation := o, workers := .replicate store.shards.size {} }

def run (sys : System σ) (l : Listener σ ω) (allowance : Nat) (seeds : Seeds σ) (store : Store σ)
    (o : ω) (schedule : Schedule := .inTurn store.shards.size) : Exploration σ ω :=
  let states := seedStates sys seeds
  (rounds sys l schedule (enough sys allowance states.length)
    (start sys states store o)).toExploration

end ModelChecker.Partitioned
