import ModelChecker.Search.Listener

namespace ModelChecker.DepthFirst

inductive Task (σ : Type) where
  | seed (v : Vertex σ) (isNew : Bool)
  | edge (source : Vertex σ) (next : Successor σ)
  | close (v : Vertex σ)

/-- What is left to do is one agenda, so that all below an edge is done before the next edge. -/
structure State (σ ω : Type) where
  agenda : List (Task σ)
  store : Store σ
  observation : ω
  stats : SearchStats := {}
  ending : Option Ending := none

variable {σ ω : Type}

/-- Opens a state: its edges come first, then its closing, then the rest of the agenda. -/
def openVertex (l : Listener σ ω) (v : Vertex σ) (m : State σ ω) : State σ ω :=
  match l.expand 0 m.store v m.stats m.observation with
  | (none, stats, o) => { m with stats, observation := o, ending := some .terminated }
  | (some next, stats, o) =>
    { m with
      agenda := next.map (Task.edge v) ++ Task.close v :: m.agenda
      stats
      observation := o }

/-- Does the first task of the agenda. -/
def step (sys : System σ) (l : Listener σ ω) (m : State σ ω) : State σ ω :=
  match m.agenda with
  | [] => { m with ending := some .completed }
  | .seed v isNew :: rest =>
    match l.follow 0 none v {} isNew m.observation with
    | (.expand, o) => openVertex l v { m with agenda := rest, observation := o }
    | (.skip, o) => { m with agenda := rest, observation := o }
    | (.stop, o) => { m with agenda := rest, observation := o, ending := some .terminated }
  | .edge source next :: rest =>
    match l.offer sys 0 (some source) next m.store m.observation with
    | .expand v store o => openVertex l v { m with agenda := rest, store, observation := o }
    | .skip store o => { m with agenda := rest, store, observation := o }
    | .halt ending store o =>
      { m with agenda := rest, store, observation := o, ending := some ending }
  | .close v :: rest =>
    match l.closed 0 v m.store m.observation with
    | (.terminate, store, o) =>
      { m with agenda := rest, store, observation := o, ending := some .terminated }
    | (_, store, o) => { m with agenda := rest, store, observation := o }

def steps (sys : System σ) (l : Listener σ ω) : Nat → State σ ω → State σ ω
  | 0, m => m
  | n + 1, m => if m.ending.isSome then m else steps sys l n (step sys l m)

/-- The steps of a search that opens at most `allowance` states: a task for each seed, and for each
state its edges and its closing, and the step that finds the agenda empty. -/
def enough (sys : System σ) (allowance seeds : Nat) : Nat :=
  seeds + allowance * (sys.degree + 1) + 1

def State.toExploration (m : State σ ω) : Exploration σ ω :=
  ⟨m.store, m.observation, m.stats, m.ending⟩

def run (sys : System σ) (l : Listener σ ω) (allowance : Nat) (seeds : Seeds σ) (store : Store σ)
    (o : ω) : Exploration σ ω :=
  match seeds.resolve sys store with
  | .error (e, store) => ⟨store, o, {}, some (.exhausted e)⟩
  | .ok (vs, store) =>
    let agenda := vs.map fun (v, isNew) => Task.seed v isNew
    (steps sys l (enough sys allowance vs.length) { agenda, store, observation := o }).toExploration

end ModelChecker.DepthFirst
