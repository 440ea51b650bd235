import ModelChecker.Check.Config
import ModelChecker.Search.BreadthFirst
import ModelChecker.Search.DepthFirst
import ModelChecker.Search.Fault
import ModelChecker.Search.Partitioned

namespace ModelChecker

variable {σ ω : Type}

/-- Searches by one order with a number of workers. A depth-first search has a single worker,
whatever their number. -/
def explore (sys : System σ) (l : Listener σ ω) (order : SearchOrder) (workers allowance : Nat)
    (seeds : Seeds σ) (store : Store σ) (o : ω) (schedule : Schedule := .inTurn workers) :
    Except Fault (Exploration σ ω) :=
  if workers = 0 then .error .noListener
  else
    match order with
    | .breadthFirst => .ok (BreadthFirst.run sys l workers allowance seeds store o schedule)
    | .depthFirst => .ok (DepthFirst.run sys l allowance seeds store o)

/-- Searches with a worker for each shard of the store. -/
def explorePartitioned (sys : System σ) (l : Listener σ ω) (workers allowance : Nat)
    (seeds : Seeds σ) (store : Store σ) (o : ω) (schedule : Schedule := .inTurn workers) :
    Except Fault (Exploration σ ω) :=
  if workers = store.shards.size then
    .ok (Partitioned.run sys l allowance seeds store o schedule)
  else .error .listenerCount

namespace SearchConfig

def newStore (c : SearchConfig) : Store σ :=
  .ofShards (if c.partitioned then c.workerCount else Store.defaultShards) c.stateLimit

/-- The search that a configuration asks for, in which every state is expanded at most once. -/
def search (c : SearchConfig) (sys : System σ) (l : Listener σ ω) (seeds : Seeds σ)
    (store : Store σ) (o : ω) (schedule : Schedule := .inTurn c.workerCount) :
    Except Fault (Exploration σ ω) :=
  if c.partitioned then explorePartitioned sys l c.workerCount sys.extent seeds store o schedule
  else explore sys l c.order c.workerCount sys.extent seeds store o schedule

end SearchConfig

/-- A search that came to an end, with whether the listener ended it. -/
def Exploration.finished (e : Exploration σ ω) : Except SearchError Bool :=
  match e.ending with
  | some .completed => .ok false
  | some .terminated => .ok true
  | some (.exhausted x) => .error (.outOfMemory x.states)
  | none => .error .unfinished

end ModelChecker
