import ModelChecker.Proofs.Events

namespace ModelChecker

variable {σ ω : Type}

/-- An edge or a seed that a listener was told of, with the worker that told it. -/
structure Telling (σ : Type) where
  worker : Nat
  source : Option (Vertex σ)
  target : Vertex σ
  flags : EdgeFlags
  /-- Whether the target was added to the store on this occasion. -/
  isNew : Bool

/-- What the listeners of a search were told, the latest first. -/
structure Journal (σ : Type) where
  tellings : List (Telling σ) := []
  /-- The states that were expanded, each with its worker. -/
  expansions : List (Nat × Vertex σ) := []

namespace Journal

def tell (j : Journal σ) (x : Telling σ) : Journal σ :=
  { j with tellings := x :: j.tellings }

def expand (j : Journal σ) (worker : Nat) (v : Vertex σ) : Journal σ :=
  { j with expansions := (worker, v) :: j.expansions }

/-- The seeds and edges that were told of. -/
def told (j : Journal σ) : Multiset (Option (Vertex σ) × Successor σ) :=
  ↑(j.tellings.map fun x => (x.source, x.target.state, x.flags))

/-- What was told of on the occasion on which its target was stored. -/
def discoveries (j : Journal σ) : List (Telling σ) := j.tellings.filter (·.isNew)

def expanded (j : Journal σ) : Multiset (Vertex σ) :=
  ↑(j.expansions.map (·.2))

def discovered (j : Journal σ) : Multiset (Vertex σ) := ↑(j.discoveries.map (·.target))

theorem discoveries_tell (j : Journal σ) (x : Telling σ) :
    (j.tell x).discoveries = if x.isNew then x :: j.discoveries else j.discoveries :=
  List.filter_cons

theorem mem_discoveries_tell {j : Journal σ} {y : Telling σ} (h : y ∈ j.discoveries)
    (x : Telling σ) : y ∈ (j.tell x).discoveries := by
  rw [discoveries_tell]
  split
  · exact List.mem_cons_of_mem x h
  · exact h

theorem discovered_tell (j : Journal σ) (x : Telling σ) :
    (j.tell x).discovered = (if x.isNew then {x.target} else 0) + j.discovered := by
  unfold discovered
  rw [discoveries_tell]
  cases x.isNew with
  | false => simp
  | true => simp

@[simp] theorem discoveries_expand (j : Journal σ) (worker : Nat) (v : Vertex σ) :
    (j.expand worker v).discoveries = j.discoveries := rfl

@[simp] theorem told_tell (j : Journal σ) (x : Telling σ) :
    (j.tell x).told = (x.source, x.target.state, x.flags) ::ₘ j.told := rfl

@[simp] theorem expanded_tell (j : Journal σ) (x : Telling σ) :
    (j.tell x).expanded = j.expanded := rfl

@[simp] theorem told_expand (j : Journal σ) (worker : Nat) (v : Vertex σ) :
    (j.expand worker v).told = j.told := rfl

@[simp] theorem expanded_expand (j : Journal σ) (worker : Nat) (v : Vertex σ) :
    (j.expand worker v).expanded = v ::ₘ j.expanded := rfl

end Journal

namespace Listener

/-- The same listener, with a record of the edges that it is told of and the states that it is asked
to expand. -/
def recorded (l : Listener σ ω) : Listener σ (ω × Journal σ) where
  edge worker source target flags isNew o :=
    let answer := l.edge worker source target flags isNew o.1
    (answer.1, answer.2, o.2.tell ⟨worker, source, target, flags, isNew⟩)
  state worker v o :=
    let answer := l.state worker v o.1
    (answer.1, answer.2, o.2)
  deadlocked worker v o :=
    let answer := l.deadlocked worker v o.1
    (answer.1, answer.2, o.2)
  successors worker store v o :=
    let answer := l.successors worker store v o.1
    (answer.1, answer.2, o.2.expand worker v)
  closed worker v store o :=
    let answer := l.closed worker v store o.1
    (answer.1, answer.2.1, answer.2.2, o.2)

theorem recorded_follow (l : Listener σ ω) (worker : Nat) (source : Option (Vertex σ))
    (target : Vertex σ) (flags : EdgeFlags) (isNew : Bool) (o : ω) (j : Journal σ) :
    l.recorded.follow worker source target flags isNew (o, j) =
      ((l.follow worker source target flags isNew o).1,
        (l.follow worker source target flags isNew o).2,
        j.tell ⟨worker, source, target, flags, isNew⟩) := by
  unfold follow recorded
  rcases he : l.edge worker source target flags isNew o with ⟨action, o'⟩
  rcases hs : l.state worker target o' with ⟨action', o''⟩
  cases action with
  | terminate => simp only [he]
  | ignore => simp only [he]
  | process => cases action' <;> simp [he, hs]
  | asNeeded => cases isNew <;> cases action' <;> simp [he, hs]

theorem recorded_expand (l : Listener σ ω) (worker : Nat) (store : Store σ) (v : Vertex σ)
    (stats : SearchStats) (o : ω) (j : Journal σ) :
    l.recorded.expand worker store v stats (o, j) =
      ((l.expand worker store v stats o).1, (l.expand worker store v stats o).2.1,
        (l.expand worker store v stats o).2.2, j.expand worker v) := by
  unfold expand recorded
  rcases hn : l.successors worker store v o with ⟨next, o'⟩
  rcases hd : l.deadlocked worker v o' with ⟨action, o''⟩
  cases next with
  | nil => cases action <;> simp [hn, hd]
  | cons n rest => simp only [hn]

end Listener

namespace Work

/-- The same work, with a record. -/
def record (w : Work σ ω) (j : Journal σ) : Work σ (ω × Journal σ) :=
  ⟨w.store, (w.observation, j), w.items, w.stats, w.interrupt⟩

theorem record_told (w : Work σ ω) (rest : Multiset (WorkItem σ)) (t : Vertex σ) (store : Store σ)
    (step : Step) (o : ω) (j j' : Journal σ) :
    (w.record j).offered rest (Listener.settle step t store (o, j')) =
      (w.offered rest (Listener.settle step t store o)).record j' := by
  cases step <;> rfl

theorem record_visited (w : Work σ ω) (v : Vertex σ) (rest : Multiset (WorkItem σ))
    (next : Option (List (Successor σ))) (stats : SearchStats) (o : ω) (j j' : Journal σ) :
    (w.record j).visited v rest (next, stats, o, j') =
      (w.visited v rest (next, stats, o)).record j' := by
  cases next <;> rfl

variable {sys : System σ} {l : Listener σ ω} {w w' : Work σ ω}

theorem Move.recorded (h : Move sys l w w') (j : Journal σ) :
    ∃ j', Move sys l.recorded (w.record j) (w'.record j') := by
  cases h with
  | store hi hs => exact ⟨j, .store (w := w.record j) hi hs⟩
  | @tell source t flags isNew rest worker hi =>
    have hm : Move sys l.recorded (w.record j) ((w.record j).offered rest (Listener.settle
        (l.recorded.follow worker source t flags isNew (w.observation, j)).1 t w.store
        (l.recorded.follow worker source t flags isNew (w.observation, j)).2)) := .tell worker hi
    rw [Listener.recorded_follow, record_told] at hm
    exact ⟨_, hm⟩
  | @arrival source next rest worker hi =>
    have hm : Move sys l.recorded (w.record j) ((w.record j).offered rest
        (l.recorded.offer sys worker source next w.store (w.observation, j))) := .arrival worker hi
    rw [Listener.offer_eq] at hm ⊢
    cases hs : sys.store w.store next.1 with
    | error e =>
      rw [hs] at hm
      exact ⟨j, hm⟩
    | ok i =>
      obtain ⟨t, isNew, store⟩ := i
      rw [hs] at hm
      simp only [Listener.recorded_follow, record_told] at hm
      exact ⟨_, hm⟩
  | @visit v rest worker hi =>
    have hm : Move sys l.recorded (w.record j) ((w.record j).visited v rest
        (l.recorded.expand worker w.store v {} (w.observation, j))) := .visit worker hi
    rw [Listener.recorded_expand, record_visited] at hm
    exact ⟨_, hm⟩
  | abandon hr hle => exact ⟨j, .abandon (w := w.record j) hr hle⟩

theorem Moves.recorded (h : Moves sys l w w') (j : Journal σ) :
    ∃ j', Moves sys l.recorded (w.record j) (w'.record j') := by
  induction h with
  | refl => exact ⟨j, .refl⟩
  | tail _ hm ih =>
    obtain ⟨j', ih⟩ := ih
    obtain ⟨j'', hm⟩ := hm.recorded j'
    exact ⟨j'', ih.tail hm⟩

end Work

end ModelChecker
