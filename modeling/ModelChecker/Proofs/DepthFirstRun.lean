import ModelChecker.Search.DepthFirst
import ModelChecker.Proofs.Work

namespace ModelChecker.DepthFirst

variable {σ ω : Type}

def Task.item? : Task σ → Option (WorkItem σ)
  | .seed v isNew => some (.met none v {} isNew)
  | .edge source next => some (.arrival (some source) next)
  | .close _ => none

/-- How the ending of a depth-first search shows as an interrupt. -/
def interruptOf : Option Ending → Interrupt
  | none => {}
  | some .completed => {}
  | some e => ({} : Interrupt).raise e

def State.work (m : State σ ω) : Work σ ω where
  store := m.store
  observation := m.observation
  items := ↑(m.agenda.filterMap Task.item?)
  stats := m.stats
  interrupt := interruptOf m.ending

/-- What is left of the allowance: each state that may still be opened brings its edges and its
closing. -/
def State.remaining (m : State σ ω) (degree allowance : Nat) : Nat :=
  (allowance - m.stats.states) * (degree + 1) + m.agenda.length

/-- What a step does with an edge or a seed that was told to the listener. -/
def proceed (l : Listener σ ω) (m : State σ ω) (rest : List (Task σ)) : Offer σ ω → State σ ω
  | .expand v store o => openVertex l v { m with agenda := rest, store, observation := o }
  | .skip store o => { m with agenda := rest, store, observation := o }
  | .halt ending store o =>
    { m with agenda := rest, store, observation := o, ending := some ending }

variable {sys : System σ} {l : Listener σ ω} {m : State σ ω}

theorem step_seed {v : Vertex σ} {isNew : Bool} {rest : List (Task σ)}
    (h : m.agenda = .seed v isNew :: rest) :
    step sys l m = proceed l m rest
      (Listener.settle (l.follow 0 none v {} isNew m.observation).1 v m.store
        (l.follow 0 none v {} isNew m.observation).2) := by
  simp only [step, h]
  rcases l.follow 0 none v {} isNew m.observation with ⟨s, o⟩
  cases s <;> rfl

theorem step_edge {source : Vertex σ} {next : Successor σ} {rest : List (Task σ)}
    (h : m.agenda = .edge source next :: rest) :
    step sys l m = proceed l m rest (l.offer sys 0 (some source) next m.store m.observation) := by
  simp only [step, h]
  cases l.offer sys 0 (some source) next m.store m.observation <;> rfl

theorem step_close (hclosed : ∀ v s o, l.closed 0 v s o = (.process, s, o)) {v : Vertex σ}
    {rest : List (Task σ)} (h : m.agenda = .close v :: rest) :
    step sys l m = { m with agenda := rest } := by
  simp only [step, h, hclosed]

theorem work_opened (v : Vertex σ) (next : List (Successor σ)) (agenda : List (Task σ)) :
    (next.map (Task.edge v) ++ Task.close v :: agenda).filterMap Task.item? =
      next.map (WorkItem.arrival (some v)) ++ agenda.filterMap Task.item? := by
  induction next with
  | nil => rfl
  | cons n rest ih => exact congrArg (WorkItem.arrival (some v) n :: ·) ih

theorem openVertex_work (v : Vertex σ) (hm : m.ending = none) :
    (openVertex l v m).work = { m.work with items := .visit v ::ₘ m.work.items }.visited v
      m.work.items (l.expand 0 m.store v {} m.observation) := by
  unfold openVertex
  rw [l.expand_stats]
  rcases l.expand 0 m.store v {} m.observation with ⟨next, stats, o⟩
  cases next with
  | none => simp [State.work, Work.visited, interruptOf, hm]
  | some next =>
    simp only [State.work, Work.visited, work_opened, ← Multiset.coe_add]

theorem proceed_turn (hm : m.ending = none) (rest : List (Task σ)) {x : Offer σ ω}
    (hx : ∀ store o, x ≠ .halt .completed store o) :
    Work.Turn sys l (m.work.offered ↑(rest.filterMap Task.item?) x) (proceed l m rest x).work := by
  cases x with
  | expand v store o =>
    have ho := openVertex_work (l := l) (m := { m with agenda := rest, store, observation := o })
      v hm
    apply Work.Turn.move
    change Work.Move sys l _ (openVertex l v { m with agenda := rest, store, observation := o }).work
    rw [ho]
    exact Work.Move.visit 0 rfl
  | skip store o => exact .rest _
  | halt ending store o =>
    have hw : (proceed l m rest (.halt ending store o)).work =
        m.work.offered ↑(rest.filterMap Task.item?) (.halt ending store o) := by
      cases ending with
      | completed => exact absurd rfl (hx store o)
      | terminated => simp [proceed, State.work, Work.offered, interruptOf, hm]
      | exhausted e => simp [proceed, State.work, Work.offered, interruptOf, hm]
    rw [hw]
    exact .rest _

theorem settle_ne_completed (step : Step) (target : Vertex σ) (s : Store σ) (o : ω) :
    ∀ store o', Listener.settle step target s o ≠ .halt .completed store o' := by
  intro store o'
  cases step <;> simp [Listener.settle]

theorem offer_ne_completed (source : Option (Vertex σ)) (next : Successor σ) (s : Store σ) (o : ω)
    (worker : Nat) :
    ∀ store o', l.offer sys worker source next s o ≠ .halt .completed store o' := by
  intro store o'
  rw [l.offer_eq]
  cases sys.store s next.1 with
  | error e => simp
  | ok i => exact settle_ne_completed _ _ _ _ store o'

/-- The work once the edge or the seed that comes first is followed. Its target is not open yet. -/
def State.followed? (sys : System σ) (l : Listener σ ω) (m : State σ ω) : Option (Work σ ω) :=
  match m.agenda with
  | .seed v isNew :: rest =>
    some (m.work.offered ↑(rest.filterMap Task.item?)
      (Listener.settle (l.follow 0 none v {} isNew m.observation).1 v m.store
        (l.follow 0 none v {} isNew m.observation).2))
  | .edge source next :: rest =>
    some (m.work.offered ↑(rest.filterMap Task.item?)
      (l.offer sys 0 (some source) next m.store m.observation))
  | _ => none

theorem followed_turn (hm : m.ending = none) {w : Work σ ω} (h : m.followed? sys l = some w) :
    Work.Move sys l m.work w ∧ Work.Turn sys l w (step sys l m).work := by
  have hitems : ∀ {task rest}, m.agenda = task :: rest → m.work.items =
      ↑((task :: rest).filterMap Task.item?) := fun ha => congrArg _ (congrArg _ ha)
  unfold State.followed? at h
  split at h
  · rename_i v isNew rest ha
    cases h
    rw [step_seed ha]
    exact ⟨.tell 0 (hitems ha), proceed_turn hm rest (settle_ne_completed _ _ _ _)⟩
  · rename_i source next rest ha
    cases h
    rw [step_edge ha]
    exact ⟨.arrival 0 (hitems ha), proceed_turn hm rest (offer_ne_completed _ _ _ _ _)⟩
  · cases h

theorem step_work (hclosed : ∀ v s o, l.closed 0 v s o = (.process, s, o))
    (hm : m.ending = none) (hf : m.followed? sys l = none) : (step sys l m).work = m.work := by
  cases ha : m.agenda with
  | nil => simp only [step, ha, State.work, hm, interruptOf]
  | cons task rest =>
    cases task with
    | seed | edge =>
      simp only [State.followed?, ha] at hf
      cases hf
    | close v =>
      rw [step_close hclosed ha, State.work, State.work, ha]
      rfl

theorem step_moves (hclosed : ∀ v s o, l.closed 0 v s o = (.process, s, o))
    (hm : m.ending = none) : Work.Moves sys l m.work (step sys l m).work := by
  cases hf : m.followed? sys l with
  | some w =>
    obtain ⟨hmove, hturn⟩ := followed_turn hm hf
    exact .head hmove hturn.moves
  | none => rw [step_work hclosed hm hf]

theorem openVertex_remaining {degree allowance : Nat} {v : Vertex σ} (hm : m.ending = none)
    (hd : (l.successors 0 m.store v m.observation).1.length ≤ degree)
    (ha : (openVertex l v m).stats.states ≤ allowance) :
    (openVertex l v m).ending ≠ some .completed ∧
    ((openVertex l v m).ending = none →
      (openVertex l v m).remaining degree allowance ≤ m.remaining degree allowance) := by
  obtain ⟨hone, hnext⟩ := l.expand_next 0 m.store v m.observation
  unfold openVertex at ha ⊢
  rw [l.expand_stats] at ha ⊢
  rcases hx : l.expand 0 m.store v {} m.observation with ⟨next, stats, o⟩
  rw [hx] at ha hone hnext
  cases next with
  | none => simp
  | some next =>
    refine ⟨by simp [hm], fun _ => ?_⟩
    have hlen : next.length ≤ degree := hnext next rfl ▸ hd
    have hs : m.stats.states + stats.states ≤ allowance := ha
    have hone : stats.states = 1 := hone
    simp only [State.remaining, SearchStats.add_states, List.length_append, List.length_map,
      List.length_cons, hone]
    -- one state less is allowed, which pays for its edges and its closing
    obtain ⟨k, hk⟩ := Nat.exists_eq_add_of_le hs
    have hsub : allowance - (m.stats.states + 1) = k := by omega
    have hsub' : allowance - m.stats.states = k + 1 := by omega
    rw [hsub, hsub', Nat.succ_mul]
    omega

/-- A step that does not end the search uses up some of the allowance. -/
theorem step_remaining {allowance : Nat}
    (hd : ∀ s v o, (l.successors 0 s v o).1.length ≤ sys.degree)
    (hm : m.ending = none) {task : Task σ} {rest : List (Task σ)} (ha : m.agenda = task :: rest)
    (hb : (step sys l m).stats.states ≤ allowance) :
    (step sys l m).ending ≠ some .completed ∧
    ((step sys l m).ending = none →
      (step sys l m).remaining sys.degree allowance < m.remaining sys.degree allowance) := by
  -- to take the task off the agenda is enough, unless a state is opened
  have hlt : ∀ (store : Store σ) (o : ω),
      ({ m with agenda := rest, store, observation := o } : State σ ω).remaining sys.degree allowance
        < m.remaining sys.degree allowance := by
    intro store o
    simp only [State.remaining, ha, List.length_cons]
    omega
  have hproceed : ∀ x : Offer σ ω, (∀ store o, x ≠ .halt .completed store o) →
      (proceed l m rest x).stats.states ≤ allowance →
      (proceed l m rest x).ending ≠ some .completed ∧
      ((proceed l m rest x).ending = none →
        (proceed l m rest x).remaining sys.degree allowance <
          m.remaining sys.degree allowance) := by
    intro x hx hb
    cases x with
    | expand v store o =>
      obtain ⟨h1, h2⟩ := openVertex_remaining (l := l) (v := v)
        (m := { m with agenda := rest, store, observation := o }) hm (hd _ _ _) hb
      exact ⟨h1, fun he => (h2 he).trans_lt (hlt store o)⟩
    | skip store o => exact ⟨by simp [proceed, hm], fun _ => hlt store o⟩
    | halt ending store o =>
      refine ⟨?_, fun he => by simp [proceed] at he⟩
      rintro he
      simp only [proceed, Option.some.injEq] at he
      exact hx store o (he ▸ rfl)
  cases task with
  | seed v isNew =>
    rw [step_seed ha] at hb ⊢
    exact hproceed _ (settle_ne_completed _ _ _ _) hb
  | edge source next =>
    rw [step_edge ha] at hb ⊢
    exact hproceed _ (offer_ne_completed _ _ _ _ _) hb
  | close v =>
    simp only [step, ha]
    rcases l.closed 0 v m.store m.observation with ⟨action, store, o⟩
    cases action with
    | terminate => exact ⟨by simp, fun he => by simp at he⟩
    | process => exact ⟨by simp [hm], fun _ => hlt store o⟩
    | ignore => exact ⟨by simp [hm], fun _ => hlt store o⟩
    | asNeeded => exact ⟨by simp [hm], fun _ => hlt store o⟩

theorem steps_of_ending {m : State σ ω} (h : m.ending ≠ none) (n : Nat) : steps sys l n m = m := by
  obtain ⟨e, he⟩ := Option.ne_none_iff_exists'.1 h
  cases n <;> simp [steps, he]

/-- With enough steps a search comes to its end, and it is left with work that moves lead to. -/
theorem steps_ends {allowance : Nat} {w : Work σ ω}
    (hclosed : ∀ v s o, l.closed 0 v s o = (.process, s, o))
    (hd : ∀ s v o, (l.successors 0 s v o).1.length ≤ sys.degree)
    (hb : ∀ w', Work.Moves sys l w w' → w'.stats.states ≤ allowance) (n : Nat) (m : State σ ω)
    (hw : Work.Moves sys l w m.work) (hm : m.ending = none)
    (hn : m.remaining sys.degree allowance < n) :
    ∃ w', Work.Moves sys l w w' ∧ w'.Ends (steps sys l n m).toExploration := by
  induction n generalizing m with
  | zero => omega
  | succ n ih =>
    have hstep : steps sys l (n + 1) m = steps sys l n (step sys l m) := by
      simp [steps, hm]
    rw [hstep]
    cases ha : m.agenda with
    | nil =>
      have hs : step sys l m = { m with ending := some .completed } := by
        simp only [step, ha]
      -- the step that finds the agenda empty is the last
      rw [hs, steps_of_ending (Option.some_ne_none _)]
      refine ⟨m.work, hw, rfl, rfl, rfl, ?_, fun _ => ?_⟩
      · simp [State.toExploration, State.work, interruptOf, hm, Interrupt.ending]
      · simp [State.work, ha]
    | cons task rest =>
      have hmoves := hw.trans (step_moves hclosed hm)
      have hbound : (step sys l m).stats.states ≤ allowance := hb _ hmoves
      obtain ⟨hne, hlt⟩ := step_remaining hd hm ha hbound
      cases he : (step sys l m).ending with
      | none => exact ih _ hmoves he (by have := hlt he; omega)
      | some e =>
        rw [steps_of_ending (he ▸ nofun)]
        refine ⟨_, hmoves, rfl, rfl, rfl, ?_, fun hr => ?_⟩
        · cases e with
          | completed => exact absurd he hne
          | terminated => simp [State.toExploration, State.work, interruptOf, he, Interrupt.ending,
              Interrupt.raise]
          | exhausted x => simp [State.toExploration, State.work, interruptOf, he, Interrupt.ending,
              Interrupt.raise]
        · cases e with
          | completed => exact absurd he hne
          | terminated => simp [State.work, interruptOf, he, Interrupt.raise] at hr
          | exhausted x => simp [State.work, interruptOf, he, Interrupt.raise] at hr

theorem work_seeds (vs : List (Vertex σ × Bool)) (store : Store σ) (o : ω) :
    State.work { agenda := vs.map fun s => Task.seed s.1 s.2, store, observation := o } =
      .ofSeeds vs store o := by
  have hitems : (vs.map fun s => Task.seed s.1 s.2).filterMap Task.item? =
      vs.map fun s => WorkItem.met none s.1 {} s.2 := by
    rw [List.filterMap_map]
    exact congrFun
      (List.filterMap_eq_map (f := fun s : Vertex σ × Bool => WorkItem.met none s.1 {} s.2)) vs
  simp only [Work.ofSeeds, State.work, hitems, interruptOf]

theorem run_ends {allowance : Nat} {seeds : Seeds σ} {store store' : Store σ} {o : ω}
    {vs : List (Vertex σ × Bool)} (hr : seeds.resolve sys store = .ok (vs, store'))
    (hclosed : ∀ v s o, l.closed 0 v s o = (.process, s, o))
    (hd : ∀ s v o, (l.successors 0 s v o).1.length ≤ sys.degree)
    (hb : ∀ w, Work.Moves sys l (.ofSeeds vs store' o) w → w.stats.states ≤ allowance) :
    ∃ w, Work.Moves sys l (.ofSeeds vs store' o) w ∧
      w.Ends (run sys l allowance seeds store o) := by
  unfold run
  rw [hr]
  refine steps_ends hclosed hd hb _ _ ?_ rfl ?_
  · rw [work_seeds]
  · simp only [State.remaining, enough, List.length_map, Nat.sub_zero]
    omega

end ModelChecker.DepthFirst
