import ModelChecker.Proofs.SingleWorker

namespace ModelChecker

variable {σ : Type}

namespace Lockstep

/-- Two workers have the same edges left of the state under expansion, and no target is met. -/
def Alongside : Option (BreadthFirst.Expansion σ) → Option (Vertex σ × List (Successor σ)) → Prop
  | none, none => True
  | some ⟨v, none, rest⟩, some (v', rest') => v.state = v'.state ∧ rest = rest'
  | _, _ => False

/-- A search with one worker and one of a single shard that are equally far. -/
structure Abreast (sys : System σ) (m : BreadthFirst.State σ (List (Callback σ)))
    (w : BreadthFirst.Worker σ) (p : Partitioned.State σ (List (Callback σ)))
    (u : Partitioned.Worker σ) : Prop where
  left : m.workers = #[w]
  right : p.workers = #[u]
  twins : Store.Twins sys m.store p.store
  observation : m.observation = p.observation
  interrupt : m.interrupt = p.interrupt
  stats : w.stats = u.stats

/-- Both searches go on. -/
structure Running (sys : System σ) (m : BreadthFirst.State σ (List (Callback σ)))
    (w : BreadthFirst.Worker σ) (p : Partitioned.State σ (List (Callback σ)))
    (u : Partitioned.Worker σ) : Prop extends Abreast sys m w p u where
  stopped : w.stopped = false
  phase : u.phase = .working
  calm : p.interrupt = {}
  inbox : u.inbox.toList = []
  dense : (BreadthFirst.view m w).Dense
  queue : (BreadthFirst.view m w).contents.map (·.state) = u.queue.toList.map (·.state)
  current : Alongside w.current u.current
  owed : (BreadthFirst.view m w).owed =
    .ofNat ((BreadthFirst.view m w).contents.length + w.current.toList.length)
  outstanding : p.outstanding = u.queue.toList.length + u.current.toList.length + u.finished

/-- The first search is over, and the other is or will be after two more steps. -/
structure Ended (sys : System σ) (m : BreadthFirst.State σ (List (Callback σ)))
    (w : BreadthFirst.Worker σ) (p : Partitioned.State σ (List (Callback σ)))
    (u : Partitioned.Worker σ) : Prop extends Abreast sys m w p u where
  stopped : w.stopped = true
  failure : p.interrupt.failure = none
  phase : u.phase = .returned ∨ (u.phase = .settling ∧ p.outstanding = u.finished) ∨
    (u.phase = .testing ∧ p.outstanding = 0)

def Matched (sys : System σ) (m : BreadthFirst.State σ (List (Callback σ)))
    (p : Partitioned.State σ (List (Callback σ))) : Prop :=
  ∃ w u, Running sys m w p u ∨ Ended sys m w p u

/-- Both searches are to take an edge from one state, and the first has stored its target. -/
structure Halfway (sys : System σ) (m : BreadthFirst.State σ (List (Callback σ)))
    (p : Partitioned.State σ (List (Callback σ))) (w : BreadthFirst.Worker σ)
    (u : Partitioned.Worker σ) (v v' : Vertex σ) (next : Successor σ)
    (rest : List (Successor σ)) : Prop extends Running sys m w p u where
  source : w.current = some ⟨v, none, next :: rest⟩
  source' : u.current = some (v', next :: rest)
  state : v.state = v'.state

section step
variable {sys : System σ} {m : BreadthFirst.State σ (List (Callback σ))} {w : BreadthFirst.Worker σ}
  {p : Partitioned.State σ (List (Callback σ))} {u : Partitioned.Worker σ} {s : Strategy σ}

theorem Ended.step (h : Ended sys m w p u) :
    Matched sys (BreadthFirst.step sys s.listener 0 m) (Partitioned.step sys s.listener 0 p) := by
  have hm : BreadthFirst.step sys s.listener 0 m = m := by
    simp [BreadthFirst.step, h.left, h.stopped]
  rw [hm]
  rcases h.phase with hp | ⟨hp, ho⟩ | ⟨hp, ho⟩
  · rw [Partitioned.step_returned h.right hp]
    exact ⟨w, u, .inr h⟩
  · rw [Partitioned.step_settling h.right hp]
    exact ⟨w, _, .inr ⟨⟨h.left, rfl, h.twins, h.observation, h.interrupt, h.stats⟩, h.stopped, h.failure,
      .inr (.inr ⟨rfl, Nat.sub_eq_zero_of_le ho.le⟩)⟩⟩
  · rw [Partitioned.step_testing h.right hp ho]
    exact ⟨w, _, .inr ⟨⟨h.left, rfl, h.twins, h.observation, h.interrupt, h.stats⟩, h.stopped, h.failure,
      .inl rfl⟩⟩

theorem Halfway.meet (hx : sys.Explicit) {v v' : Vertex σ} {next : Successor σ}
    {rest : List (Successor σ)} (h : Halfway sys m p w u v v' next rest) :
    ∃ x x' isNew t t', BreadthFirst.step sys s.listener 0 m =
        { m with
          store := t
          workers := #[{ w with current := some ⟨v, some ⟨x, next.2, isNew⟩, rest⟩ }] } ∧
      sys.store p.store next.1 = .ok ⟨x', isNew, t'⟩ ∧ x.state = x'.state ∧
      Store.Twins sys t t' := by
  obtain ⟨x, x', isNew, t, t', hstore, hstore', hxn, hxn', ht⟩ := h.twins.store hx next.1
  refine ⟨x, x', isNew, t, t', ?_, hstore', hxn.trans hxn'.symm, ht⟩
  rw [BreadthFirst.step_solo h.left h.stopped]
  simp only [BreadthFirst.stepWorker, h.source, BreadthFirst.meet, hstore]

theorem Halfway.step (hx : sys.Explicit) {v v' : Vertex σ} {next : Successor σ}
    {rest : List (Successor σ)} (h : Halfway sys m p w u v v' next rest) :
    Matched sys (BreadthFirst.step sys s.listener 0 (BreadthFirst.step sys s.listener 0 m))
      (Partitioned.step sys s.listener 0 p) := by
  obtain ⟨x, x', isNew, t, t', hmeet, hstore', hxx, ht⟩ := h.meet (s := s) hx
  have hfollow : s.listener.follow 0 (some v) x next.2 isNew m.observation =
      s.listener.follow 0 (some v') x' next.2 isNew p.observation := by
    have hsource : (some v).map (·.state) = (some v').map (·.state) := congrArg some h.state
    rw [h.observation]
    exact s.follow_congr hsource hxx 0 next.2 isNew p.observation
  have hwork : Partitioned.work sys s.listener 0 u p =
      Partitioned.accept sys s.listener 0 (some v') next
        { p with workers := #[{ u with current := some (v', rest) }] } := by
    simp only [Partitioned.work, h.source', Partitioned.modifyWorker_solo h.right,
      Partitioned.distribute]
    rw [if_pos (Partitioned.owner_solo rfl _)]
  have howed := h.owed
  have hout := h.outstanding
  rw [h.source] at howed
  rw [h.source'] at hout
  rw [hmeet,
    BreadthFirst.step_solo (w := { w with current := some ⟨v, some _, rest⟩ }) rfl h.stopped,
    Partitioned.step_solo h.right h.phase, hwork]
  simp only [BreadthFirst.stepWorker, BreadthFirst.tell, hfollow, Partitioned.accept,
    Listener.offer, hstore']
  rcases s.listener.follow 0 (some v') x' next.2 isNew p.observation with ⟨step, told⟩
  cases step with
  | expand =>
    refine ⟨_, { u with queue := u.queue.push x', current := some (v', rest) },
      .inl ⟨⟨rfl, rfl, ht, rfl, h.interrupt, h.stats⟩, h.stopped, h.phase, h.calm, h.inbox,
        h.dense.push x, ?_, ⟨h.state, rfl⟩, ?_, ?_⟩⟩
    · change ((BreadthFirst.view m w).push x).contents.map _ = (u.queue.push x').toList.map _
      simp [h.queue, hxx]
    · change ((BreadthFirst.view m w).push x).owed =
        .ofNat (((BreadthFirst.view m w).push x).contents.length + 1)
      simp [howed]
    · change p.outstanding + 1 = _
      simp [hout]
      omega
  | skip =>
    exact ⟨_, _, .inl ⟨⟨rfl, rfl, ht, rfl, h.interrupt, h.stats⟩, h.stopped, h.phase, h.calm,
      h.inbox, h.dense, h.queue, ⟨h.state, rfl⟩, howed, hout⟩⟩
  | stop =>
    refine ⟨_, _, .inr ⟨⟨rfl, rfl, ht, rfl, ?_, h.stats⟩, rfl, congrArg Interrupt.failure h.calm,
      .inl rfl⟩⟩
    exact congrArg (Interrupt.raise · .terminated) h.interrupt

theorem Running.finish (h : Running sys m w p u) {v v' : Vertex σ}
    (hw : w.current = some ⟨v, none, []⟩) (hu : u.current = some (v', [])) :
    Matched sys (BreadthFirst.step sys s.listener 0 m) (Partitioned.step sys s.listener 0 p) := by
  have howed := h.owed
  have hout := h.outstanding
  rw [hw] at howed
  rw [hu] at hout
  rw [BreadthFirst.step_solo h.left h.stopped, Partitioned.step_solo h.right h.phase]
  simp only [BreadthFirst.stepWorker, hw, BreadthFirst.finish, Partitioned.work, hu,
    Partitioned.modifyWorker_solo h.right]
  refine ⟨_, _, .inl ⟨⟨rfl, rfl, h.twins, h.observation, h.interrupt, h.stats⟩, h.stopped, h.phase,
    h.calm, h.inbox, h.dense.markDone, ?_, trivial, ?_, ?_⟩⟩
  · change (BreadthFirst.view m w).markDone.contents.map _ = _
    simpa using h.queue
  · change (BreadthFirst.view m w).markDone.owed =
      .ofNat ((BreadthFirst.view m w).markDone.contents.length + 0)
    simp [howed]
  · simp only [hout]
    simp
    omega

/-- With nothing left, the one worker stops and the other goes on to settle. -/
theorem Running.rest (h : Running sys m w p u) (hw : w.current = none) (hu : u.current = none)
    {view : QueueView (Vertex σ)} (hpop : (BreadthFirst.view m w).pop = (none, view)) :
    Matched sys (BreadthFirst.step sys s.listener 0 m) (Partitioned.step sys s.listener 0 p) := by
  have hcalm : m.interrupt.raised = false := by rw [h.interrupt, h.calm]
  obtain ⟨hnil, rfl⟩ := QueueView.of_pop_none h.dense hpop
  have hqueue : u.queue.toList = [] := by
    have hq := h.queue
    rw [hnil, List.map_nil, eq_comm, List.map_eq_nil_iff] at hq
    exact hq
  have hworker : BreadthFirst.stepWorker sys s.listener 0 w m =
      ({ m with queue := (BreadthFirst.view m w).publish.flush.queue },
        { w with
          buffer := (BreadthFirst.view m w).publish.flush.buffer
          stopped := (BreadthFirst.view m w).publish.isFinished.1 }) := by
    rw [BreadthFirst.view] at hpop ⊢
    simp only [BreadthFirst.stepWorker, hw, BreadthFirst.take, hcalm, hpop, Bool.false_eq_true,
      if_false, QueueView.isFinished]
  have hwork : Partitioned.work sys s.listener 0 u p =
      { p with workers := #[{ u with phase := .settling }] } := by
    simp only [Partitioned.work, hu, h.calm, Partitioned.take, (Fifo.pop?_eq_none_iff _).2 h.inbox,
      (Fifo.pop?_eq_none_iff _).2 hqueue, Partitioned.modifyWorker_solo h.right, Bool.false_eq_true,
      if_false]
  have hstopped : (BreadthFirst.view m w).publish.isFinished.1 = true := by
    obtain ⟨hin, -, -, hpending⟩ := (BreadthFirst.view m w).publish.flush_buffer
    have howed := h.owed
    rw [hnil, hw] at howed
    rw [QueueView.incoming_publish] at hin
    rw [QueueView.owed_publish, howed] at hpending
    simp only [QueueView.isFinished, hin, hpending]
    simp only [QueueView.contents, List.append_eq_nil_iff] at hnil
    simp [hnil]
  rw [BreadthFirst.step_solo h.left h.stopped, Partitioned.step_solo h.right h.phase, hworker, hwork]
  refine ⟨_, _, .inr ⟨⟨rfl, rfl, h.twins, h.observation, h.interrupt, h.stats⟩, hstopped,
    congrArg Interrupt.failure h.calm, .inr (.inl ⟨rfl, ?_⟩)⟩⟩
  have hout := h.outstanding
  simpa [hqueue, hu] using hout

theorem Running.expand (h : Running sys m w p u) (hw : w.current = none) (hu : u.current = none)
    {v : Vertex σ} {view : QueueView (Vertex σ)}
    (hpop : (BreadthFirst.view m w).pop = (some v, view)) :
    Matched sys (BreadthFirst.step sys s.listener 0 m) (Partitioned.step sys s.listener 0 p) := by
  have hcalm : m.interrupt.raised = false := by rw [h.interrupt, h.calm]
  have hcontents := QueueView.contents_of_pop hpop
  have hqueue := h.queue
  have howed := h.owed
  have hout := h.outstanding
  rw [hcontents, List.map_cons] at hqueue
  rw [hcontents, hw] at howed
  rw [hu] at hout
  cases hpop' : u.queue.pop? with
  | none =>
    rw [(Fifo.pop?_eq_none_iff _).1 hpop'] at hqueue
    cases hqueue
  | some r =>
    obtain ⟨v', queue⟩ := r
    have hlist := Fifo.toList_of_pop? hpop'
    rw [hlist, List.map_cons] at hqueue
    obtain ⟨hv, hrest⟩ := List.cons.inj hqueue
    have hworker : BreadthFirst.stepWorker sys s.listener 0 w m =
        BreadthFirst.expand s.listener 0 v { w with buffer := view.buffer }
          { m with queue := view.queue } := by
      rw [BreadthFirst.view] at hpop
      simp only [BreadthFirst.stepWorker, hw, BreadthFirst.take, hcalm, hpop, Bool.false_eq_true,
        if_false]
    have hwork : Partitioned.work sys s.listener 0 u p =
        Partitioned.expand s.listener 0 v' u.stats { p with workers := #[{ u with queue }] } := by
      simp only [Partitioned.work, hu, h.calm, Partitioned.take, (Fifo.pop?_eq_none_iff _).2 h.inbox,
        hpop', Partitioned.modifyWorker_solo h.right, Bool.false_eq_true, if_false]
    rw [BreadthFirst.step_solo h.left h.stopped, Partitioned.step_solo h.right h.phase, hworker, hwork]
    simp only [BreadthFirst.expand, Partitioned.expand,
      s.expand_congr hv 0 m.store p.store, h.stats, h.observation]
    rcases s.listener.expand 0 p.store v' u.stats p.observation with ⟨_ | next, stats, told⟩
    · refine ⟨_, _, .inr ⟨⟨rfl, rfl, h.twins, rfl, ?_, rfl⟩, rfl, congrArg Interrupt.failure h.calm,
        .inl rfl⟩⟩
      exact congrArg (Interrupt.raise · .terminated) h.interrupt
    · refine ⟨_, { u with queue, stats, current := some (v', next) }, .inl ⟨⟨rfl, rfl, h.twins, rfl, h.interrupt, rfl⟩,
        h.stopped, h.phase, h.calm, h.inbox, ?_, hrest, ⟨hv, rfl⟩, ?_, ?_⟩⟩
      · have hdense := h.dense.pop
        rw [hpop] at hdense
        exact hdense
      · have hsame := QueueView.owed_pop (BreadthFirst.view m w)
        rw [hpop, howed] at hsame
        exact hsame
      · change p.outstanding = _
        rw [hout, hlist]
        simp

theorem Running.step (h : Running sys m w p u) :
    Matched sys (BreadthFirst.step sys s.listener 0 m) (Partitioned.step sys s.listener 0 p) ∨
      ∃ v v' next rest, Halfway sys m p w u v v' next rest := by
  have hcurrent := h.current
  cases hw : w.current with
  | none =>
    cases hu : u.current with
    | some c => simp [hw, hu, Alongside] at hcurrent
    | none =>
      rcases hpop : (BreadthFirst.view m w).pop with ⟨_ | v, view⟩
      · exact .inl (h.rest hw hu hpop)
      · exact .inl (h.expand hw hu hpop)
  | some c =>
    obtain ⟨v, met, edges⟩ := c
    cases met with
    | some x => simp [hw, Alongside] at hcurrent
    | none =>
      cases hu : u.current with
      | none => simp [hw, hu, Alongside] at hcurrent
      | some c' =>
        obtain ⟨v', edges'⟩ := c'
        rw [hw, hu] at hcurrent
        obtain ⟨hv, rfl⟩ := hcurrent
        cases edges with
        | nil => exact .inl (h.finish hw hu)
        | cons next rest => exact .inr ⟨v, v', next, rest, h, hw, hu, hv⟩

/-- In `n` steps of the first search the other takes `k` steps, at least every other time. -/
def Follows (sys : System σ) (s : Strategy σ) (m : BreadthFirst.State σ (List (Callback σ)))
    (p : Partitioned.State σ (List (Callback σ))) (n k : Nat) : Prop :=
  n ≤ 2 * k ∧ Matched sys m p ∨ n ≤ 2 * k + 1 ∧
    ∃ m₀ w u v v' next rest, Halfway sys m₀ p w u v v' next rest ∧
      m = BreadthFirst.step sys s.listener 0 m₀

theorem Follows.step (hx : sys.Explicit) {n k : Nat} (h : Follows sys s m p n k) :
    Follows sys s (BreadthFirst.step sys s.listener 0 m) p (n + 1) k ∨
      Follows sys s (BreadthFirst.step sys s.listener 0 m) (Partitioned.step sys s.listener 0 p)
        (n + 1) (k + 1) := by
  rcases h with ⟨hle, w, u, h | h⟩ | ⟨hle, m₀, w, u, v, v', next, rest, h, rfl⟩
  · rcases h.step (s := s) with h | ⟨v, v', next, rest, h⟩
    · exact .inr (.inl ⟨by omega, h⟩)
    · exact .inl (.inr ⟨by omega, m, w, u, v, v', next, rest, h, rfl⟩)
  · exact .inr (.inl ⟨by omega, h.step⟩)
  · exact .inr (.inl ⟨by omega, h.step hx⟩)

theorem Matched.iterate (hx : sys.Explicit) (h : Matched sys m p) (n : Nat) :
    ∃ k ≤ n, Follows sys s ((BreadthFirst.step sys s.listener 0)^[n] m)
      ((Partitioned.step sys s.listener 0)^[k] p) n k := by
  induction n with
  | zero => exact ⟨0, Nat.le_refl 0, .inl ⟨Nat.le_refl 0, h⟩⟩
  | succ n ih =>
    obtain ⟨k, hk, hfollows⟩ := ih
    rw [Function.iterate_succ_apply']
    rcases hfollows.step hx with hfollows | hfollows
    · exact ⟨k, by omega, hfollows⟩
    · refine ⟨k + 1, by omega, ?_⟩
      rwa [Function.iterate_succ_apply']

end step

section seeds
variable {sys : System σ} {s : Strategy σ} {t : Store σ} {view : QueueView (Vertex σ)}
  {p : Partitioned.State σ (List (Callback σ))} {u : Partitioned.Worker σ} {states : List σ}

/-- The search of a single shard while its seeds are messages. `t` is the store of the other search,
and `view` the queue into which it has planted the seeds before. -/
structure Seeding (sys : System σ) (t : Store σ) (view : QueueView (Vertex σ))
    (p : Partitioned.State σ (List (Callback σ))) (u : Partitioned.Worker σ) (states : List σ) :
    Prop where
  right : p.workers = #[u]
  twins : Store.Twins sys t p.store
  calm : p.interrupt = {}
  phase : u.phase = .working
  stats : u.stats = {}
  current : u.current = none
  inbox : u.inbox.toList = states.map fun x => ⟨none, x, {}⟩
  queue : view.contents.map (·.state) = u.queue.toList.map (·.state)
  outstanding : p.outstanding = states.length + u.queue.toList.length + u.finished

theorem Seeding.receive {x : σ} (h : Seeding sys t view p u (x :: states)) :
    ∃ inbox, inbox.toList = states.map (fun x => ⟨none, x, {}⟩) ∧
      Partitioned.step sys s.listener 0 p = Partitioned.accept sys s.listener 0 none (x, {})
        { p with workers := #[{ u with inbox, finished := u.finished + 1 }] } := by
  cases hpop : u.inbox.pop? with
  | none =>
    have hnil := (Fifo.pop?_eq_none_iff _).1 hpop
    rw [h.inbox] at hnil
    cases hnil
  | some r =>
    obtain ⟨message, inbox⟩ := r
    have hlist := Fifo.toList_of_pop? hpop
    rw [h.inbox, List.map_cons] at hlist
    obtain ⟨rfl, hrest⟩ := List.cons.inj hlist
    refine ⟨inbox, hrest.symm, ?_⟩
    rw [Partitioned.step_solo h.right h.phase]
    simp only [Partitioned.work, h.current, h.calm, Bool.false_eq_true, if_false, Partitioned.take,
      hpop, Partitioned.modifyWorker_solo h.right]

/-- The search was ended by a seed. -/
structure Cut (told : List (Callback σ)) (p : Partitioned.State σ (List (Callback σ)))
    (u : Partitioned.Worker σ) : Prop where
  right : p.workers = #[u]
  phase : u.phase = .returned
  stats : u.stats = {}
  interrupt : p.interrupt = ⟨true, none⟩
  observation : p.observation = told

theorem Cut.isOver {told : List (Callback σ)} (h : Cut told p u) : p.isOver = true := by
  simp [Partitioned.State.isOver, h.right, h.phase]

/-- The one search stores all seeds and then tells of them, the other tells of each as it stores it. -/
theorem Seeding.plant (hx : sys.Explicit) (h : Seeding sys t view p u states)
    (hf : BreadthFirst.Fresh view) (i : Nat) :
    ∃ vs t', sys.resolve states t = .ok (vs, t') ∧
      match BreadthFirst.plant s.listener 1 i vs p.observation view with
      | (true, told, _) =>
        ∃ u', Cut told ((Partitioned.step sys s.listener 0)^[states.length] p) u'
      | (false, told, view') => BreadthFirst.Fresh view' ∧
        ((Partitioned.step sys s.listener 0)^[states.length] p).observation = told ∧
        ∃ u', Seeding sys t' view' ((Partitioned.step sys s.listener 0)^[states.length] p) u' [] := by
  induction states generalizing t view p u i with
  | nil => exact ⟨[], t, rfl, hf, rfl, u, h⟩
  | cons x states ih =>
    obtain ⟨inbox, hinbox, hstep⟩ := h.receive (s := s)
    obtain ⟨v, v', isNew, t₁, t₁', hstore, hstore', hv, hv', htwins⟩ := h.twins.store hx x
    have hfollow : s.listener.follow (i % 1) none v {} isNew p.observation =
        s.listener.follow 0 none v' {} isNew p.observation := by
      have hnone : (none : Option (Vertex σ)).map (·.state) = none := rfl
      exact s.follow_congr (hnone.trans hnone.symm) (hv.trans hv'.symm) 0 {} isNew p.observation
    rw [Partitioned.accept, Listener.offer, hstore'] at hstep
    rw [List.length_cons, Function.iterate_succ_apply, hstep]
    simp only [System.resolve, hstore]
    rcases hr : s.listener.follow 0 none v' {} isNew p.observation with ⟨step, told⟩
    rw [hr] at hfollow
    cases step with
    | expand =>
      have h₁ : Seeding sys t₁ (view.push v)
          { p with
            store := t₁', observation := told, outstanding := p.outstanding + 1
            workers := #[{ u with inbox, finished := u.finished + 1, queue := u.queue.push v' }] }
          { u with inbox, finished := u.finished + 1, queue := u.queue.push v' } states := by
        refine ⟨rfl, htwins, h.calm, h.phase, h.stats, h.current, hinbox, ?_, ?_⟩
        · simp [h.queue, hv, hv']
        · have hout := h.outstanding
          simp only [List.length_cons] at hout
          simp [hout]
          omega
      obtain ⟨vs, t', hres, hplant⟩ := ih h₁ (hf.push v) (i + 1)
      refine ⟨(v, isNew) :: vs, t', by rw [hres]; rfl, ?_⟩
      simp only [BreadthFirst.plant, hfollow]
      exact hplant
    | skip =>
      have h₁ : Seeding sys t₁ view
          { p with
            store := t₁', observation := told
            workers := #[{ u with inbox, finished := u.finished + 1 }] }
          { u with inbox, finished := u.finished + 1 } states := by
        refine ⟨rfl, htwins, h.calm, h.phase, h.stats, h.current, hinbox, h.queue, ?_⟩
        have hout := h.outstanding
        simp only [List.length_cons] at hout
        simp [hout]
        omega
      obtain ⟨vs, t', hres, hplant⟩ := ih h₁ hf (i + 1)
      refine ⟨(v, isNew) :: vs, t', by rw [hres]; rfl, ?_⟩
      simp only [BreadthFirst.plant, hfollow]
      exact hplant
    | stop =>
      obtain ⟨vs, t', hres⟩ := htwins.left.resolve_ok hx htwins.limit states
      refine ⟨(v, isNew) :: vs, t', by rw [hres]; rfl, ?_⟩
      simp only [BreadthFirst.plant, hfollow]
      have hcut : Cut told (Partitioned.halt 0 .terminated
          { p with
            store := t₁', observation := told
            workers := #[{ u with inbox, finished := u.finished + 1 }] })
          { u with inbox, finished := u.finished + 1, phase := .returned } :=
        ⟨rfl, rfl, h.stats, by simp [Partitioned.halt, Partitioned.State.modifyWorker, h.calm, Interrupt.raise], rfl⟩
      have hfixed : (Partitioned.step sys s.listener 0)^[states.length] _ = _ :=
        Function.iterate_fixed (Partitioned.step_of_isOver hcut.isOver 0) states.length
      exact ⟨_, hfixed ▸ hcut⟩

theorem Seeding.matched (h : Seeding sys t view p u []) (hf : BreadthFirst.Fresh view) :
    Matched sys (BreadthFirst.start 1 view.flush.queue t p.observation) p := by
  have hcontents : (BreadthFirst.view (BreadthFirst.start 1 view.flush.queue t p.observation)
      {}).contents = view.contents := by
    simp [BreadthFirst.view, BreadthFirst.start, QueueView.contents, hf.flatten]
  have howed : (BreadthFirst.view (BreadthFirst.start 1 view.flush.queue t p.observation)
      {}).owed = view.owed := by
    rw [← view.flush_buffer.2.2.2]
    simp [QueueView.owed, BreadthFirst.view, BreadthFirst.start]
  refine ⟨{}, u, .inl ⟨⟨rfl, h.right, h.twins, rfl, h.calm.symm, h.stats.symm⟩, rfl, h.phase, h.calm,
    by simpa using h.inbox, hf.dense.flush, ?_, ?_, ?_, ?_⟩⟩
  · rw [hcontents]
    exact h.queue
  · rw [h.current]
    trivial
  · rw [howed, hcontents, hf.owed]
    rfl
  · simpa [h.current] using h.outstanding

end seeds

/-- After `n` steps one search is as far as another that started `lead` steps before and has taken
`k` more, and which ends at most two steps later. -/
structure Level (lead : Nat) (a b : Nat → Exploration σ (List (Callback σ))) (n k : Nat) :
    Prop where
  le : k ≤ n
  pace : n ≤ 2 * k + 1
  observation : (a n).observation = (b (lead + k)).observation
  stats : (a n).stats = (b (lead + k)).stats
  ending : ∀ e, (a n).ending = some e → (b (lead + k + 2)).ending = some e
  closes : ∀ e, (b (lead + k)).ending = some e → (a n).ending ≠ none

/-- Two searches, by the number of their steps. -/
structure Alike (lead : Nat) (a b : Nat → Exploration σ (List (Callback σ))) : Prop where
  level : ∀ n, ∃ k, Level lead a b n k
  proper : ∀ n e, (a n).ending = some e → e = .completed ∨ e = .terminated
  stays : ∀ n e, (a n).ending = some e → a (n + 1) = a n
  stays' : ∀ n e, (b n).ending = some e → b (n + 1) = b n
  grows : ∀ n, (b n).observation <+: (b (n + 1)).observation

section alike
variable {lead : Nat} {a b : Nat → Exploration σ (List (Callback σ))}

theorem Alike.prefix_of_le (h : Alike lead a b) {n k : Nat} (hle : n ≤ k) :
    (b n).observation <+: (b k).observation := by
  induction k, hle using Nat.le_induction with
  | base => exact List.prefix_refl _
  | succ k _ ih => exact ih.trans (h.grows k)

theorem eq_of_stays {a : Nat → Exploration σ (List (Callback σ))}
    (h : ∀ n e, (a n).ending = some e → a (n + 1) = a n) {n k : Nat} {e : Ending}
    (he : (a n).ending = some e) (hle : n ≤ k) : a k = a n := by
  induction k, hle using Nat.le_induction with
  | base => rfl
  | succ k _ ih => rw [h k e (by rw [ih, he]), ih]

theorem Alike.ended (h : Alike lead a b) {n k : Nat} {e e' : Ending} (he : (a n).ending = some e)
    (he' : (b k).ending = some e') :
    e = e' ∧ (a n).observation = (b k).observation ∧ (a n).stats = (b k).stats := by
  -- both stand still from here on
  obtain ⟨j, hj⟩ := h.level (n + (2 * k + 1))
  have hpace := hj.pace
  have ha : a (n + (2 * k + 1)) = a n := eq_of_stays h.stays he (Nat.le_add_right _ _)
  have hb : b (lead + j) = b k := eq_of_stays h.stays' he' (by omega)
  have hb' : b (lead + j + 2) = b k := eq_of_stays h.stays' he' (by omega)
  have hend := hj.ending e (by rw [ha, he])
  have hobs := hj.observation
  have hstats := hj.stats
  rw [hb', he'] at hend
  rw [ha, hb] at hobs hstats
  exact ⟨(Option.some.inj hend).symm, hobs, hstats⟩

theorem Alike.comparable (h : Alike lead a b) (n k : Nat) :
    (a n).observation <+: (b k).observation ∨ (b k).observation <+: (a n).observation := by
  obtain ⟨j, hj⟩ := h.level n
  rw [hj.observation]
  rcases Nat.le_total (lead + j) k with hle | hle
  · exact .inl (h.prefix_of_le hle)
  · exact .inr (h.prefix_of_le hle)

end alike

section solo
variable {sys : System σ} {m : BreadthFirst.State σ (List (Callback σ))} {w : BreadthFirst.Worker σ}
  {p : Partitioned.State σ (List (Callback σ))} {u : Partitioned.Worker σ} {s : Strategy σ}

theorem Abreast.toExploration (h : Abreast sys m w p u) :
    m.toExploration.observation = p.toExploration.observation ∧
      m.toExploration.stats = p.toExploration.stats := by
  refine ⟨h.observation, ?_⟩
  simp only [BreadthFirst.State.toExploration, Partitioned.State.toExploration, h.left, h.right]
  simp [h.stats]

theorem Matched.isOver (h : Matched sys m p) (hp : p.isOver = true) : m.isOver = true := by
  obtain ⟨w, u, h | h⟩ := h
  · simp [Partitioned.State.isOver, h.right, h.phase] at hp
  · simp [BreadthFirst.State.isOver, h.left, h.stopped]

theorem Ended.over (h : Ended sys m w p u) :
    ((Partitioned.step sys s.listener 0)^[2] p).isOver = true ∧
      ((Partitioned.step sys s.listener 0)^[2] p).interrupt = p.interrupt := by
  have hover : ∀ (p : Partitioned.State σ (List (Callback σ))) (u : Partitioned.Worker σ),
      p.workers = #[u] → u.phase = .returned → p.isOver = true := by
    intro p u hu hphase
    simp [Partitioned.State.isOver, hu, hphase]
  rw [Function.iterate_succ_apply, Function.iterate_one]
  rcases h.phase with hp | ⟨hp, ho⟩ | ⟨hp, ho⟩
  · rw [Partitioned.step_returned h.right hp, Partitioned.step_returned h.right hp]
    exact ⟨hover p u h.right hp, rfl⟩
  · rw [Partitioned.step_settling h.right hp,
      Partitioned.step_testing rfl rfl (Nat.sub_eq_zero_of_le ho.le)]
    exact ⟨hover _ _ rfl rfl, rfl⟩
  · rw [Partitioned.step_testing h.right hp ho, Partitioned.step_returned rfl rfl]
    exact ⟨hover _ _ rfl rfl, rfl⟩

theorem Matched.over (h : Matched sys m p) (hm : m.isOver = true) :
    (m.interrupt.ending = .completed ∨ m.interrupt.ending = .terminated) ∧
    ((Partitioned.step sys s.listener 0)^[2] p).isOver = true ∧
      ((Partitioned.step sys s.listener 0)^[2] p).interrupt = m.interrupt := by
  obtain ⟨w, u, h | h⟩ := h
  · simp [BreadthFirst.State.isOver, h.left, h.stopped] at hm
  · refine ⟨?_, h.interrupt ▸ h.over⟩
    rw [h.interrupt, Interrupt.ending, h.failure]
    cases p.interrupt.raised <;> simp

theorem Follows.toExploration (hx : sys.Explicit) {n k : Nat} (h : Follows sys s m p n k) :
    n ≤ 2 * k + 1 ∧ m.toExploration.observation = p.toExploration.observation ∧
      m.toExploration.stats = p.toExploration.stats ∧ (p.isOver = true → m.isOver = true) ∧
      (m.isOver = true →
        (m.interrupt.ending = .completed ∨ m.interrupt.ending = .terminated) ∧
        ((Partitioned.step sys s.listener 0)^[2] p).isOver = true ∧
        ((Partitioned.step sys s.listener 0)^[2] p).interrupt = m.interrupt) := by
  rcases h with ⟨hle, h⟩ | ⟨hle, m₀, w, u, v, v', next, rest, h, rfl⟩
  · obtain ⟨w, u, habreast⟩ : ∃ w u, Abreast sys m w p u := by
      obtain ⟨w, u, h | h⟩ := h
      · exact ⟨w, u, h.toAbreast⟩
      · exact ⟨w, u, h.toAbreast⟩
    exact ⟨by omega, habreast.toExploration.1, habreast.toExploration.2, h.isOver, h.over⟩
  · -- storing the target shows neither in what is told nor in the counts
    obtain ⟨x, x', isNew, t, t', hmeet, -⟩ := h.meet (s := s) hx
    obtain ⟨hobs, hstats⟩ := h.toAbreast.toExploration
    have hcounts : (BreadthFirst.step sys s.listener 0 m₀).toExploration.stats =
        m₀.toExploration.stats := by
      rw [hmeet]
      simp only [BreadthFirst.State.toExploration, h.left]
      rfl
    refine ⟨hle, ?_, hcounts.trans hstats, fun hp => ?_, fun hm => ?_⟩
    · rw [hmeet]
      exact hobs
    · simp [Partitioned.State.isOver, h.right, h.phase] at hp
    · rw [hmeet] at hm
      simp [BreadthFirst.State.isOver, h.stopped] at hm

theorem Matched.alike (hx : sys.Explicit) {lead : Nat}
    (h : Matched sys m ((Partitioned.step sys s.listener 0)^[lead] p)) :
    Alike lead (fun n => ((BreadthFirst.step sys s.listener 0)^[n] m).toExploration)
      fun n => ((Partitioned.step sys s.listener 0)^[n] p).toExploration := by
  have hfollows : ∀ n, ∃ k ≤ n, Follows sys s ((BreadthFirst.step sys s.listener 0)^[n] m)
      ((Partitioned.step sys s.listener 0)^[lead + k] p) n k := by
    intro n
    obtain ⟨k, hk, hfollows⟩ := h.iterate (s := s) hx n
    refine ⟨k, hk, ?_⟩
    rwa [Nat.add_comm lead k, Function.iterate_add_apply]
  refine ⟨fun n => ?_, fun n e he => ?_, fun n e he => ?_, fun n e he => ?_,
    fun n => Partitioned.iterate_grows n p⟩
  · obtain ⟨k, hk, hfollows⟩ := hfollows n
    obtain ⟨hpace, hobs, hstats, hcloses, hover⟩ := hfollows.toExploration hx
    refine ⟨k, hk, hpace, hobs, hstats, fun e he => ?_, fun e he => ?_⟩
    · obtain ⟨hm, rfl⟩ := BreadthFirst.ending_eq_some.1 he
      obtain ⟨-, hp, hinterrupt⟩ := hover hm
      apply Partitioned.ending_eq_some.2
      rw [Nat.add_comm (lead + k) 2, Function.iterate_add_apply]
      exact ⟨hp, congrArg Interrupt.ending hinterrupt⟩
    · have hm := hcloses (Partitioned.ending_eq_some.1 he).1
      rw [BreadthFirst.ending_eq_some.2 ⟨hm, rfl⟩]
      exact Option.some_ne_none _
  · obtain ⟨k, -, hfollows⟩ := hfollows n
    obtain ⟨hm, rfl⟩ := BreadthFirst.ending_eq_some.1 he
    exact ((hfollows.toExploration hx).2.2.2.2 hm).1
  · exact congrArg BreadthFirst.State.toExploration (BreadthFirst.iterate_stays he)
  · exact congrArg Partitioned.State.toExploration (Partitioned.iterate_stays he)

theorem Cut.alike {lead : Nat} {told : List (Callback σ)} (t : Store σ)
    (h : Cut told ((Partitioned.step sys s.listener 0)^[lead] p) u) :
    Alike lead (fun _ => ⟨t, told, {}, some .terminated⟩)
      fun n => ((Partitioned.step sys s.listener 0)^[n] p).toExploration := by
  have hstill : ∀ n, (Partitioned.step sys s.listener 0)^[lead + n] p =
      (Partitioned.step sys s.listener 0)^[lead] p := by
    intro n
    rw [Nat.add_comm lead n, Function.iterate_add_apply]
    exact Function.iterate_fixed (Partitioned.step_of_isOver h.isOver 0) n
  refine ⟨fun n => ⟨n, Nat.le_refl n, by omega, ?_, ?_, fun e he => ?_,
    fun e he => Option.some_ne_none _⟩, fun n e he => .inr (Option.some.inj he).symm,
    fun n e he => rfl, fun n e he => ?_, fun n => Partitioned.iterate_grows n p⟩
  · rw [hstill]
    exact h.observation.symm
  · rw [hstill]
    simp [Partitioned.State.toExploration, h.right, h.stats]
    rfl
  · cases he
    rw [Nat.add_assoc, hstill]
    apply Partitioned.ending_eq_some.2
    rw [h.interrupt]
    exact ⟨h.isOver, rfl⟩
  · exact congrArg Partitioned.State.toExploration (Partitioned.iterate_stays he)

theorem seeding_start (sys : System σ) (shards : Nat) :
    let p := Partitioned.start sys sys.initials (.ofShards 1 none) ([] : List (Callback σ))
    p.observation = [] ∧ ∃ u, Seeding sys (.ofShards shards none)
      ⟨.ofChunkSize (Vertex σ) ChunkedQueue.defaultChunk, {}⟩ p u sys.initials := by
  have hworkers : (Array.replicate (Store.ofShards 1 none : Store σ).shards.size
      ({} : Partitioned.Worker σ)) = #[{}] := by
    rw [Store.ofShards, Array.size_ofFn]
    rfl
  obtain ⟨inbox, hp, hinbox⟩ := Partitioned.foldl_send_solo sys
    { store := .ofShards 1 none, observation := ([] : List (Callback σ))
      workers := .replicate (Store.ofShards 1 none : Store σ).shards.size {} } hworkers sys.initials
  rw [Partitioned.start, hp]
  exact ⟨rfl, _, rfl, Store.twins_ofShards sys shards 1, rfl, rfl, rfl, rfl, hinbox, rfl, Nat.zero_add _⟩

theorem alike_solo (hx : sys.Explicit) (s : Strategy σ) (shards : Nat) :
    ∃ lead a b, Alike lead a b ∧
      (∀ n, BreadthFirst.run sys s.listener 1 n .initials (.ofShards shards none) [] =
        a (BreadthFirst.enough sys n)) ∧
      ∀ n, Partitioned.run sys s.listener n .initials (.ofShards 1 none) [] =
        b (Partitioned.enough sys n sys.initials.length) := by
  have hfresh : BreadthFirst.Fresh
      (⟨.ofChunkSize (Vertex σ) ChunkedQueue.defaultChunk, {}⟩ : QueueView _) :=
    ⟨fun _ hc => absurd hc List.not_mem_nil, rfl, by change (0 : UInt64) - 0 = 0; decide⟩
  obtain ⟨hbegin, u, hseeding⟩ := seeding_start sys shards
  have hright := hseeding.right
  obtain ⟨vs, t, hres, hplant⟩ := hseeding.plant (s := s) hx hfresh 0
  have hrounds : ∀ n, Partitioned.run sys s.listener n .initials (.ofShards 1 none) [] =
      ((Partitioned.step sys s.listener 0)^[Partitioned.enough sys n sys.initials.length]
        (Partitioned.start sys sys.initials (.ofShards 1 none) [])).toExploration := by
    intro n
    rw [← Partitioned.rounds_solo _ (by rw [hright]; rfl)]
    have hsize : (Store.ofShards 1 none : Store σ).shards.size = 1 := by
      rw [Store.ofShards, Array.size_ofFn]
      rfl
    simp only [Partitioned.run, Partitioned.seedStates, hsize]
  rw [hbegin] at hplant
  split at hplant
  · rename_i told view hp
    obtain ⟨u', hcut⟩ := hplant
    refine ⟨_, _, _, hcut.alike t, fun n => ?_, hrounds⟩
    simp only [BreadthFirst.run, Seeds.resolve, hres, hp]
  · rename_i told view hp
    obtain ⟨hf, rfl, u', hready⟩ := hplant
    refine ⟨_, _, _, (hready.matched hf).alike hx, fun n => ?_, hrounds⟩
    simp only [BreadthFirst.run, Seeds.resolve, hres, hp]
    rw [BreadthFirst.rounds_solo]
    rfl

end solo

end Lockstep

namespace Graph

variable {g : Graph} {ig : IndexedGraph}

/-- A listener that goes by the states and by what it was told before is told the same by a
breadth-first search with one worker and by a partitioned search of one shard. If the one ends, so
does the other, and in the same way; otherwise, whatever the one tells in any number of steps, the
other tells sooner or later. -/
theorem breadthFirst_partitioned_agree (h : g.index = .ok ig) (s : Strategy Node) (shards : Nat) :
    let shared := fun n =>
      BreadthFirst.run ig.system s.listener 1 n .initials (.ofShards shards none) []
    let split := fun n => Partitioned.run ig.system s.listener n .initials (.ofShards 1 none) []
    (∀ n k, (shared n).observation <+: (split k).observation ∨
      (split k).observation <+: (shared n).observation) ∧
    (∀ n, ∃ k, (shared n).observation <+: (split k).observation) ∧
    (∀ k, ∃ n, (split k).observation <+: (shared n).observation) ∧
    ((∃ n e, (shared n).ending = some e) ↔ ∃ k e, (split k).ending = some e) ∧
    ∀ n k e e', (shared n).ending = some e → (split k).ending = some e' →
      e = e' ∧ (e = .completed ∨ e = .terminated) ∧
      (shared n).observation = (split k).observation ∧ (shared n).stats = (split k).stats := by
  obtain ⟨lead, a, b, hab, hshared, hsplit⟩ := Lockstep.alike_solo (index_explicit h) s shards
  have hmore : ∀ n, n ≤ BreadthFirst.enough ig.system n := BreadthFirst.le_enough ig.system
  have hmore' : ∀ n, n ≤ Partitioned.enough ig.system n ig.system.initials.length :=
    fun n => Partitioned.le_enough ig.system n _
  -- a search that takes enough steps gets as far as the other in any number of steps
  have hreach : ∀ k, ∃ n j, Lockstep.Level lead a b (BreadthFirst.enough ig.system n) j ∧
      k ≤ lead + j := by
    intro k
    have hn := hmore (2 * k + 1)
    obtain ⟨j, hj⟩ := hab.level (BreadthFirst.enough ig.system (2 * k + 1))
    have hpace := hj.pace
    exact ⟨2 * k + 1, j, hj, by omega⟩
  simp only [hshared, hsplit]
  refine ⟨fun n k => hab.comparable _ _, fun n => ?_, fun k => ?_, ⟨?_, ?_⟩, ?_⟩
  · obtain ⟨j, hj⟩ := hab.level (BreadthFirst.enough ig.system n)
    refine ⟨lead + j, ?_⟩
    rw [hj.observation]
    exact hab.prefix_of_le (hmore' _)
  · obtain ⟨n, j, hj, hle⟩ := hreach (Partitioned.enough ig.system k ig.system.initials.length)
    refine ⟨n, ?_⟩
    rw [hj.observation]
    exact hab.prefix_of_le hle
  · rintro ⟨n, e, he⟩
    obtain ⟨j, hj⟩ := hab.level (BreadthFirst.enough ig.system n)
    refine ⟨lead + j + 2, e, ?_⟩
    have hend := hj.ending e he
    rwa [Lockstep.eq_of_stays hab.stays' hend (hmore' _)]
  · rintro ⟨k, e, he⟩
    obtain ⟨n, j, hj, hle⟩ := hreach (Partitioned.enough ig.system k ig.system.initials.length)
    have hstill := Lockstep.eq_of_stays hab.stays' he hle
    exact ⟨n, Option.ne_none_iff_exists'.1 (hj.closes e (hstill ▸ he))⟩
  · intro n k e e' he he'
    obtain ⟨heq, hobs, hstats⟩ := hab.ended he he'
    exact ⟨heq, hab.proper _ e he, hobs, hstats⟩

/-- Two states that lead to each other, one of them listed twice as initial. -/
def pingPong : Graph where
  initial := [0, 0]
  edges := [{ source := 0, target := 1 }, { source := 1, target := 0 }]

def restless (sys : System Node) (limit : Nat) : Strategy Node where
  answer told _ := if told.length < limit then .process else .terminate
  successors _ := sys.successors

/-- A listener that expands both states again and again, in either search. -/
theorem breadthFirst_partitioned_agree_pingPong :
    ∃ ig, pingPong.index = .ok ig ∧
      let shared := BreadthFirst.run ig.system (restless ig.system 12).listener 1 9 .initials
        (.ofShards 64 none) []
      let split := Partitioned.run ig.system (restless ig.system 12).listener 9 .initials
        (.ofShards 1 none) []
      shared.ending = some .terminated ∧ split.ending = some .terminated ∧
        shared.observation = split.observation ∧ shared.observation.length = 13 ∧
        shared.stats = split.stats ∧ split.stats.states = 3 := by
  refine ⟨_, rfl, ?_⟩
  intro shared split
  have hshared : shared.ending = some .terminated := by decide +kernel
  have hsplit : split.ending = some .terminated := by decide +kernel
  obtain ⟨-, -, -, -, hagree⟩ := breadthFirst_partitioned_agree (g := pingPong) rfl (restless _ 12) 64
  obtain ⟨-, -, hobs, hstats⟩ := hagree 9 9 _ _ hshared hsplit
  exact ⟨hshared, hsplit, hobs, by decide +kernel, hstats, by decide +kernel⟩

end Graph

end ModelChecker
