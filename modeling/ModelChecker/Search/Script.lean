import ModelChecker.Search.Explore

namespace ModelChecker.Script

inductive Event where
  | edge (source : Option Node) (target : Node) (flags : EdgeFlags) (isNew : Bool)
  | state (node : Node)
  | closed (node : Node)
  | deadlocked (node : Node)
deriving DecidableEq, Repr

inductive EventKind where
  | edge
  | state
  | closed
  | deadlocked
deriving DecidableEq, Repr

namespace Event

def kind : Event → EventKind
  | .edge .. => .edge
  | .state _ => .state
  | .closed _ => .closed
  | .deadlocked _ => .deadlocked

def source? : Event → Option Node
  | .edge source _ _ _ => source
  | _ => none

/-- The end of an edge, or the state that the event is about. -/
def target : Event → Node
  | .edge _ target _ _ => target
  | .state node | .closed node | .deadlocked node => node

def isNew? : Event → Option Bool
  | .edge _ _ _ isNew => some isNew
  | _ => none

end Event

inductive SourceTest where
  | seed
  | node (n : Node)
deriving DecidableEq, Repr

/-- An answer to the events that meet all conditions. A condition on what an event does not have is
not met. -/
structure Rule where
  on : EventKind
  action : Action
  source : Option SourceTest := none
  target : Option Node := none
  isNew : Option Bool := none
  sourceOdd : Option Bool := none
  targetOdd : Option Bool := none
  sourceAbove : Option Node := none
  targetAbove : Option Node := none
deriving DecidableEq, Repr

def isOdd (n : Node) : Bool := n % 2 == 1

def SourceTest.holds (t : SourceTest) (source : Option Node) : Bool :=
  match t with
  | .seed => source.isNone
  | .node n => source == some n

def Rule.matches (r : Rule) (e : Event) : Bool :=
  r.on == e.kind
    && r.source.all (·.holds e.source?)
    && r.target.all (· == e.target)
    && r.isNew.all (e.isNew? == some ·)
    && r.sourceOdd.all (fun odd => e.source?.any (isOdd · == odd))
    && r.targetOdd.all (· == isOdd e.target)
    && r.sourceAbove.all (fun n => e.source?.any (n < ·))
    && r.targetAbove.all (· < e.target)

def defaultAction : EventKind → Action
  | .edge => .asNeeded
  | .state => .process
  | .closed => .process
  | .deadlocked => .ignore

def answer (rules : List Rule) (e : Event) : Action :=
  match rules.find? (·.matches e) with
  | some r => r.action
  | none => defaultAction e.kind

end ModelChecker.Script

namespace ModelChecker

/-- What a scripted search does. -/
structure Script where
  rules : List Script.Rule := []
  /-- The number of events after which a worker ends the search. -/
  limit : Nat := 2000
  /-- Whether ample sets are taken where there are any. -/
  ample : Bool := false

namespace Script

abbrev Record := Array (Array Event)

/-- Records an event and answers it; with the limit reached, ends the search instead. -/
def tell (s : Script) (worker : Nat) (e : Event) (r : Record) : Action × Record :=
  if s.limit ≤ (r.getD worker #[]).size then (.terminate, r)
  else (answer s.rules e, r.modify worker (·.push e))

def listener (s : Script) (sys : System Node) : Listener Node Record where
  edge worker source target flags isNew :=
    s.tell worker (.edge (source.map (·.state)) target.state flags isNew)
  state worker v := s.tell worker (.state v.state)
  deadlocked worker v := s.tell worker (.deadlocked v.state)
  successors _ _ v r :=
    ((if s.ample then sys.ample v.state else none).getD (sys.successors v.state), r)
  closed worker v store r :=
    let (action, r) := s.tell worker (.closed v.state) r
    (action, store, r)

/-- How a scripted search goes about its work. -/
inductive Mode where
  | shared (order : SearchOrder)
  | partitioned
deriving DecidableEq, Repr

/-- Runs a script with a number of workers. Every expanded state was recorded as one. -/
def run (s : Script) (sys : System Node) (mode : Mode) (workers : Nat) (seeds : Seeds Node)
    (store : Store Node) (schedule : Schedule := .inTurn workers) :
    Except Fault (Exploration Node Record) :=
  let record : Record := .replicate workers #[]
  match mode with
  | .shared order =>
    explore sys (s.listener sys) order workers (workers * s.limit) seeds store record schedule
  | .partitioned =>
    explorePartitioned sys (s.listener sys) workers (workers * s.limit) seeds store record schedule

end Script

end ModelChecker
