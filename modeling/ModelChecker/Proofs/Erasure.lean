import ModelChecker.Search.DepthFirst

namespace ModelChecker

variable {σ ω ω' : Type}

/-- Seen through `f`, the listener `l'` answers and remembers what `l` does. -/
structure Listener.Lifts (l' : Listener σ ω') (f : ω' → ω) (l : Listener σ ω) : Prop where
  edge : ∀ i source t flags isNew o,
    l.edge i source t flags isNew (f o) = (l'.edge i source t flags isNew o).map id f
  state : ∀ i v o, l.state i v (f o) = (l'.state i v o).map id f
  deadlocked : ∀ i v o, l.deadlocked i v (f o) = (l'.deadlocked i v o).map id f
  successors : ∀ i store v o,
    l.successors i store v (f o) = (l'.successors i store v o).map id f
  closed : ∀ i v store o,
    l.closed i v store (f o) = (l'.closed i v store o).map id (Prod.map id f)

def Offer.map (f : ω' → ω) : Offer σ ω' → Offer σ ω
  | .expand target store o => .expand target store (f o)
  | .skip store o => .skip store (f o)
  | .halt ending store o => .halt ending store (f o)

def Exploration.map (f : ω' → ω) (e : Exploration σ ω') : Exploration σ ω :=
  ⟨e.store, f e.observation, e.stats, e.ending⟩

namespace Listener.Lifts

variable {l' : Listener σ ω'} {f : ω' → ω} {l : Listener σ ω} (h : l'.Lifts f l)

include h

theorem follow (i : Nat) (source : Option (Vertex σ)) (t : Vertex σ) (flags : EdgeFlags)
    (isNew : Bool) (o : ω') :
    l.follow i source t flags isNew (f o) = (l'.follow i source t flags isNew o).map id f := by
  unfold Listener.follow
  rw [h.edge]
  rcases l'.edge i source t flags isNew o with ⟨action, o₁⟩
  rcases hstate : l'.state i t o₁ with ⟨answer, o₂⟩
  cases action <;> cases isNew <;> cases answer <;> simp [h.state, hstate]

theorem offer (sys : System σ) (i : Nat) (source : Option (Vertex σ)) (next : Successor σ)
    (store : Store σ) (o : ω') :
    l.offer sys i source next store (f o) = (l'.offer sys i source next store o).map f := by
  unfold Listener.offer
  cases sys.store store next.1 with
  | error e => rfl
  | ok inserted =>
    obtain ⟨t, isNew, after⟩ := inserted
    simp only [h.follow]
    rcases l'.follow i source t next.2 isNew o with ⟨step, o'⟩
    cases step <;> rfl

theorem expand (i : Nat) (store : Store σ) (v : Vertex σ) (stats : SearchStats) (o : ω') :
    l.expand i store v stats (f o) =
      (l'.expand i store v stats o).map id (Prod.map id f) := by
  unfold Listener.expand
  rw [h.successors]
  rcases l'.successors i store v o with ⟨_ | ⟨next, rest⟩, o'⟩
  · rcases hdead : l'.deadlocked i v o' with ⟨action, o''⟩
    cases action <;> simp [h.deadlocked, hdead]
  · rfl

end Listener.Lifts

namespace DepthFirst

def State.map (f : ω' → ω) (m : State σ ω') : State σ ω :=
  ⟨m.agenda, m.store, f m.observation, m.stats, m.ending⟩

variable {l' : Listener σ ω'} {f : ω' → ω} {l : Listener σ ω}

theorem openVertex_map (h : l'.Lifts f l) (v : Vertex σ) (m : State σ ω') :
    openVertex l v (m.map f) = (openVertex l' v m).map f := by
  unfold openVertex
  simp only [State.map, h.expand]
  rcases l'.expand 0 m.store v m.stats m.observation with ⟨_ | next, stats, o⟩ <;> rfl

theorem step_map (h : l'.Lifts f l) (sys : System σ) (m : State σ ω') :
    step sys l (m.map f) = (step sys l' m).map f := by
  obtain ⟨agenda, store, o, stats, ending⟩ := m
  match agenda with
  | [] => rfl
  | .seed v isNew :: rest =>
    simp only [step, State.map, h.follow]
    rcases l'.follow 0 none v {} isNew o with ⟨_ | _ | _, o'⟩
    · exact openVertex_map h v ⟨rest, store, o', stats, ending⟩
    · rfl
    · rfl
  | .edge source next :: rest =>
    simp only [step, State.map, h.offer]
    cases l'.offer sys 0 (some source) next store o with
    | expand v store' o' => exact openVertex_map h v ⟨rest, store', o', stats, ending⟩
    | skip store' o' => rfl
    | halt e store' o' => rfl
  | .close v :: rest =>
    simp only [step, State.map, h.closed]
    rcases l'.closed 0 v store o with ⟨action, store', o'⟩
    cases action <;> rfl

theorem steps_map (h : l'.Lifts f l) (sys : System σ) (n : Nat) (m : State σ ω') :
    steps sys l n (m.map f) = (steps sys l' n m).map f := by
  induction n generalizing m with
  | zero => rfl
  | succ n ih =>
    unfold steps
    rw [step_map h, ih, apply_ite (State.map f)]
    rfl

theorem run_map (h : l'.Lifts f l) (sys : System σ) (allowance : Nat) (seeds : Seeds σ)
    (store : Store σ) (o : ω') :
    run sys l allowance seeds store (f o) = (run sys l' allowance seeds store o).map f := by
  unfold run
  cases seeds.resolve sys store with
  | error e => rfl
  | ok r =>
    obtain ⟨vs, store'⟩ := r
    exact congrArg State.toExploration (steps_map h sys _ ⟨_, store', o, {}, none⟩)

end DepthFirst

end ModelChecker
