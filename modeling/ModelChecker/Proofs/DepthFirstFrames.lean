import ModelChecker.Proofs.DepthFirstRun

namespace ModelChecker.DepthFirst

/-- An open state and its edges that have yet to be followed. -/
structure Frame (σ : Type) where
  vertex : Vertex σ
  todo : List (Successor σ)

/-- Where a search stands. The latest open state comes first. -/
structure Position (σ ω : Type) where
  frames : List (Frame σ)
  seeds : List (Vertex σ × Bool)
  store : Store σ
  observation : ω
  stats : SearchStats := {}

variable {σ ω : Type}

def layout (frames : List (Frame σ)) (seeds : List (Vertex σ × Bool)) : List (Task σ) :=
  frames.flatMap (fun f => f.todo.map (Task.edge f.vertex) ++ [Task.close f.vertex]) ++
    seeds.map fun s => Task.seed s.1 s.2

def Position.toState (p : Position σ ω) : State σ ω where
  agenda := layout p.frames p.seeds
  store := p.store
  observation := p.observation
  stats := p.stats

/-- The open states, the latest first. -/
def Position.path (p : Position σ ω) : List (Vertex σ) :=
  p.frames.map (·.vertex)

/-- The frames that are there after a step and were not before: one if a state was opened. -/
def Position.opens (p p' : Position σ ω) : List (Frame σ) :=
  p'.frames.take (p'.stats.states - p.stats.states)

section opens

variable {frames frames' : List (Frame σ)} {f : Frame σ} {seeds seeds' : List (Vertex σ × Bool)}
  {store store' : Store σ} {o o' : ω} {stats stats' : SearchStats}

theorem Position.opens_eq_nil :
    Position.opens ⟨frames, seeds, store, o, stats⟩ ⟨frames', seeds', store', o', stats⟩ = [] := by
  rw [opens, Nat.sub_self, List.take_zero]

theorem Position.opens_eq_singleton (hs : stats'.states = stats.states + 1) :
    Position.opens ⟨frames, seeds, store, o, stats⟩ ⟨f :: frames', seeds', store', o', stats'⟩ =
      [f] := by
  rw [opens, hs, Nat.add_sub_cancel_left]
  rfl

end opens

section todo

variable {u v : Vertex σ} {m n : Successor σ} {todo : List (Successor σ)} {frames : List (Frame σ)}

theorem forall_todo_next {P : Vertex σ → Successor σ → Prop}
    (h : ∀ f ∈ (⟨v, n :: todo⟩ : Frame σ) :: frames, ∀ m ∈ f.todo, P f.vertex m) :
    ∀ f ∈ (⟨v, todo⟩ : Frame σ) :: frames, ∀ m ∈ f.todo, P f.vertex m := by
  intro f hf m hm
  rcases List.mem_cons.1 hf with rfl | hf
  · exact h _ List.mem_cons_self m (List.mem_cons_of_mem _ hm)
  · exact h f (List.mem_cons_of_mem _ hf) m hm

theorem exists_todo_next
    (h : ∃ f ∈ (⟨v, n :: todo⟩ : Frame σ) :: frames, f.vertex = u ∧ m ∈ f.todo) :
    m = n ∨ ∃ f ∈ (⟨v, todo⟩ : Frame σ) :: frames, f.vertex = u ∧ m ∈ f.todo := by
  obtain ⟨f, hf, hfu, hfm⟩ := h
  rcases List.mem_cons.1 hf with rfl | hf
  · exact (List.mem_cons.1 hfm).imp_right fun hfm => ⟨_, List.mem_cons_self, hfu, hfm⟩
  · exact .inr ⟨f, List.mem_cons_of_mem _ hf, hfu, hfm⟩

theorem exists_todo_closed
    (h : ∃ f ∈ (⟨v, []⟩ : Frame σ) :: frames, f.vertex = u ∧ m ∈ f.todo) :
    ∃ f ∈ frames, f.vertex = u ∧ m ∈ f.todo := by
  obtain ⟨f, hf, hfu, hfm⟩ := h
  rcases List.mem_cons.1 hf with rfl | hf
  · cases hfm
  · exact ⟨f, hf, hfu, hfm⟩

end todo

/-- A step after which the search goes on. -/
inductive Goes (sys : System σ) (l : Listener σ ω) : Position σ ω → Position σ ω → Prop where
  | skipSeed {v b seeds store o o' stats} (h : l.follow 0 none v {} b o = (.skip, o')) :
    Goes sys l ⟨[], (v, b) :: seeds, store, o, stats⟩ ⟨[], seeds, store, o', stats⟩
  | openSeed {v b seeds store o o' stats stats'} (h : l.follow 0 none v {} b o = (.expand, o'))
    (hs : stats'.states = stats.states + 1) :
    Goes sys l ⟨[], (v, b) :: seeds, store, o, stats⟩
      ⟨[⟨v, (l.successors 0 store v o').1⟩], seeds, store, (l.successors 0 store v o').2, stats'⟩
  | skipEdge {v n todo frames seeds store o t isNew store' o' stats}
    (hst : sys.store store n.1 = .ok ⟨t, isNew, store'⟩)
    (h : l.follow 0 (some v) t n.2 isNew o = (.skip, o')) :
    Goes sys l ⟨⟨v, n :: todo⟩ :: frames, seeds, store, o, stats⟩
      ⟨⟨v, todo⟩ :: frames, seeds, store', o', stats⟩
  | openEdge {v n todo frames seeds store o t isNew store' o' stats stats'}
    (hst : sys.store store n.1 = .ok ⟨t, isNew, store'⟩)
    (h : l.follow 0 (some v) t n.2 isNew o = (.expand, o'))
    (hs : stats'.states = stats.states + 1) :
    Goes sys l ⟨⟨v, n :: todo⟩ :: frames, seeds, store, o, stats⟩
      ⟨⟨t, (l.successors 0 store' t o').1⟩ :: ⟨v, todo⟩ :: frames, seeds, store',
        (l.successors 0 store' t o').2, stats'⟩
  | close {v frames seeds store o action store' o' stats}
    (h : l.closed 0 v store o = (action, store', o')) (ha : action ≠ .terminate) :
    Goes sys l ⟨⟨v, []⟩ :: frames, seeds, store, o, stats⟩ ⟨frames, seeds, store', o', stats⟩

/-- A step after which the search is over. -/
inductive Halts (sys : System σ) (l : Listener σ ω) : Position σ ω → Exploration σ ω → Prop where
  | completed {store o stats} :
    Halts sys l ⟨[], [], store, o, stats⟩ ⟨store, o, stats, some .completed⟩
  | stopSeed {v b seeds store o o' stats} (h : l.follow 0 none v {} b o = (.stop, o')) :
    Halts sys l ⟨[], (v, b) :: seeds, store, o, stats⟩ ⟨store, o', stats, some .terminated⟩
  | full {v n todo frames seeds store o e stats} (hst : sys.store store n.1 = .error e) :
    Halts sys l ⟨⟨v, n :: todo⟩ :: frames, seeds, store, o, stats⟩
      ⟨store, o, stats, some (.exhausted e)⟩
  | stopEdge {v n todo frames seeds store o t isNew store' o' stats}
    (hst : sys.store store n.1 = .ok ⟨t, isNew, store'⟩)
    (h : l.follow 0 (some v) t n.2 isNew o = (.stop, o')) :
    Halts sys l ⟨⟨v, n :: todo⟩ :: frames, seeds, store, o, stats⟩
      ⟨store', o', stats, some .terminated⟩
  | stopClose {v frames seeds store o store' o' stats}
    (h : l.closed 0 v store o = (.terminate, store', o')) :
    Halts sys l ⟨⟨v, []⟩ :: frames, seeds, store, o, stats⟩ ⟨store', o', stats, some .terminated⟩

variable {sys : System σ} {l : Listener σ ω}

theorem openVertex_eq (hq : ∀ v o, l.deadlocked 0 v o = (.ignore, o)) (v : Vertex σ)
    (m : State σ ω) :
    ∃ stats, stats.states = m.stats.states + 1 ∧ openVertex l v m =
      { m with
        agenda := (l.successors 0 m.store v m.observation).1.map (Task.edge v) ++
          Task.close v :: m.agenda
        observation := (l.successors 0 m.store v m.observation).2
        stats } := by
  unfold openVertex Listener.expand
  rcases l.successors 0 m.store v m.observation with ⟨next, o⟩
  cases next with
  | nil =>
    simp only [hq]
    exact ⟨_, rfl, rfl⟩
  | cons n rest => exact ⟨_, rfl, rfl⟩

theorem toState_of_opened (hq : ∀ v o, l.deadlocked 0 v o = (.ignore, o)) (v : Vertex σ)
    (p : Position σ ω) :
    ∃ stats, stats.states = p.stats.states + 1 ∧ openVertex l v p.toState =
      Position.toState ⟨⟨v, (l.successors 0 p.store v p.observation).1⟩ :: p.frames, p.seeds,
        p.store, (l.successors 0 p.store v p.observation).2, stats⟩ := by
  obtain ⟨stats, hs, ho⟩ := openVertex_eq hq v p.toState
  refine ⟨stats, hs, ho.trans ?_⟩
  simp [Position.toState, layout]

def Follows (sys : System σ) (l : Listener σ ω) (p : Position σ ω) (m : State σ ω) : Prop :=
  (∃ p', Goes sys l p p' ∧ m = p'.toState) ∨ Halts sys l p m.toExploration ∧ m.ending ≠ none

theorem step_closed (sys : System σ) {v : Vertex σ} {frames : List (Frame σ)}
    {seeds : List (Vertex σ × Bool)} {store store' : Store σ} {o o' : ω} (stats : SearchStats)
    {action : Action} (hc : l.closed 0 v store o = (action, store', o')) :
    step sys l (Position.toState ⟨⟨v, []⟩ :: frames, seeds, store, o, stats⟩) =
      ⟨layout frames seeds, store', o', stats,
        if action = .terminate then some .terminated else none⟩ := by
  change step sys l ⟨.close v :: layout frames seeds, store, o, stats, none⟩ = _
  simp only [step, hc]
  cases action <;> rfl

/-- A step goes on to another position, or the search is over. -/
theorem step_follows (sys : System σ) (hq : ∀ v o, l.deadlocked 0 v o = (.ignore, o))
    (p : Position σ ω) :
    Follows sys l p (step sys l p.toState) := by
  obtain ⟨frames, seeds, store, o, stats⟩ := p
  -- the first task of the agenda is a seed only when no frame is left
  cases frames with
  | nil =>
    cases seeds with
    | nil => exact .inr ⟨.completed, Option.some_ne_none _⟩
    | cons s seeds =>
      obtain ⟨v, b⟩ := s
      have hstep : step sys l (Position.toState ⟨[], (v, b) :: seeds, store, o, stats⟩) =
          proceed l (Position.toState ⟨[], (v, b) :: seeds, store, o, stats⟩) (layout [] seeds)
            (Listener.settle (l.follow 0 none v {} b o).1 v store (l.follow 0 none v {} b o).2) :=
        step_seed rfl
      rw [hstep]
      rcases hf : l.follow 0 none v {} b o with ⟨action, o'⟩
      cases action with
      | skip => exact .inl ⟨_, .skipSeed hf, rfl⟩
      | expand =>
        obtain ⟨stats', hs, ho⟩ := toState_of_opened hq v ⟨[], seeds, store, o', stats⟩
        exact .inl ⟨_, .openSeed hf hs, ho⟩
      | stop => exact .inr ⟨.stopSeed hf, Option.some_ne_none _⟩
  | cons frame frames =>
    obtain ⟨v, todo⟩ := frame
    cases todo with
    | cons n todo =>
      have hstep :
          step sys l (Position.toState ⟨⟨v, n :: todo⟩ :: frames, seeds, store, o, stats⟩) =
            proceed l (Position.toState ⟨⟨v, n :: todo⟩ :: frames, seeds, store, o, stats⟩)
              (layout (⟨v, todo⟩ :: frames) seeds) (l.offer sys 0 (some v) n store o) :=
        step_edge rfl
      rw [hstep, l.offer_eq]
      cases hst : sys.store store n.1 with
      | error e => exact .inr ⟨.full hst, Option.some_ne_none _⟩
      | ok i =>
        obtain ⟨t, isNew, store'⟩ := i
        rcases hf : l.follow 0 (some v) t n.2 isNew o with ⟨action, o'⟩
        simp only [hf]
        cases action with
        | skip => exact .inl ⟨_, .skipEdge hst hf, rfl⟩
        | expand =>
          obtain ⟨stats', hs, ho⟩ :=
            toState_of_opened hq t ⟨⟨v, todo⟩ :: frames, seeds, store', o', stats⟩
          exact .inl ⟨_, .openEdge hst hf hs, ho⟩
        | stop => exact .inr ⟨.stopEdge hst hf, Option.some_ne_none _⟩
    | nil =>
      rcases hc : l.closed 0 v store o with ⟨action, store', o'⟩
      rw [step_closed sys stats hc]
      by_cases hstop : action = .terminate
      · subst hstop
        exact .inr ⟨.stopClose hc, Option.some_ne_none _⟩
      · rw [if_neg hstop]
        exact .inl ⟨_, .close hc hstop, rfl⟩

theorem steps_halts {allowance : Nat} {P : Position σ ω → Prop}
    (hq : ∀ v o, l.deadlocked 0 v o = (.ignore, o))
    (hd : ∀ s v o, (l.successors 0 s v o).1.length ≤ sys.degree)
    (hgoes : ∀ p p', P p → Goes sys l p p' → P p')
    (hb : ∀ p, P p → p.stats.states ≤ allowance) (n : Nat) (p : Position σ ω) (hp : P p)
    (hn : p.toState.remaining sys.degree allowance < n) :
    ∃ p', P p' ∧ Halts sys l p' (steps sys l n p.toState).toExploration := by
  -- what remains to be done falls with every step, and never goes below the steps that are left
  induction n generalizing p with
  | zero => omega
  | succ n ih =>
    have hstep : steps sys l (n + 1) p.toState = steps sys l n (step sys l p.toState) := rfl
    rw [hstep]
    rcases step_follows sys hq p with ⟨p', hpp', hs⟩ | ⟨hh, he⟩
    · rw [hs]
      have hp' := hgoes p p' hp hpp'
      refine ih p' hp' ?_
      cases ha : p.toState.agenda with
      | nil =>
        have hend : (step sys l p.toState).ending = some .completed := by simp only [step, ha]
        rw [hs] at hend
        cases hend
      | cons task rest =>
        have hle : (step sys l p.toState).stats.states ≤ allowance := hs ▸ hb p' hp'
        have hlt := (step_remaining hd rfl ha hle).2 (hs ▸ rfl)
        rw [hs] at hlt
        omega
    · rw [steps_of_ending he]
      exact ⟨p, hp, hh⟩

theorem run_halts {allowance : Nat} {seeds : Seeds σ} {store store' : Store σ} {o : ω}
    {vs : List (Vertex σ × Bool)} {P : Position σ ω → Prop}
    (hr : seeds.resolve sys store = .ok (vs, store'))
    (hq : ∀ v o, l.deadlocked 0 v o = (.ignore, o))
    (hd : ∀ s v o, (l.successors 0 s v o).1.length ≤ sys.degree)
    (hstart : P ⟨[], vs, store', o, {}⟩) (hgoes : ∀ p p', P p → Goes sys l p p' → P p')
    (hb : ∀ p, P p → p.stats.states ≤ allowance) :
    ∃ p, P p ∧ Halts sys l p (run sys l allowance seeds store o) := by
  unfold run
  rw [hr]
  refine steps_halts hq hd hgoes hb _ ⟨[], vs, store', o, {}⟩ hstart ?_
  simp only [State.remaining, Position.toState, layout, enough, List.flatMap_nil, List.nil_append,
    List.length_map, Nat.sub_zero]
  omega

end ModelChecker.DepthFirst
