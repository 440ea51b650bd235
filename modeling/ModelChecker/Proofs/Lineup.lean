import ModelChecker.Proofs.Events
import ModelChecker.Proofs.SingleWorker

namespace ModelChecker

/-- Work with its items in the order in which they are done. -/
structure Lineup (σ ω : Type) where
  store : Store σ
  observation : ω
  line : List (WorkItem σ)
  stats : SearchStats := {}
  interrupt : Interrupt := {}

namespace Lineup

variable {σ ω : Type} {sys : System σ} {l : Listener σ ω} {q q' : Lineup σ ω}

/-- The same work in no particular order. -/
def work (q : Lineup σ ω) : Work σ ω where
  store := q.store
  observation := q.observation
  items := ↑q.line
  stats := q.stats
  interrupt := q.interrupt

def offered (q : Lineup σ ω) (rest : List (WorkItem σ)) : Offer σ ω → Lineup σ ω
  | .expand target store o => { q with store, observation := o, line := rest ++ [.visit target] }
  | .skip store o => { q with store, observation := o, line := rest }
  | .halt ending store o =>
    { q with store, observation := o, line := rest, interrupt := q.interrupt.raise ending }

def visited (q : Lineup σ ω) (v : Vertex σ) (rest : List (WorkItem σ)) :
    Option (List (Successor σ)) × SearchStats × ω → Lineup σ ω
  | (none, stats, o) =>
    { q with
      observation := o
      line := rest
      stats := q.stats + stats
      interrupt := q.interrupt.raise .terminated }
  | (some next, stats, o) =>
    { q with
      observation := o
      line := next.map (WorkItem.arrival (some v)) ++ rest
      stats := q.stats + stats }

theorem work_offered (q : Lineup σ ω) (rest : List (WorkItem σ)) (r : Offer σ ω) :
    (q.offered rest r).work = q.work.offered ↑rest r := by
  cases r with
  | expand target store o =>
    have hitems : (↑(rest ++ [WorkItem.visit target]) : Multiset (WorkItem σ)) =
        .visit target ::ₘ ↑rest := Multiset.coe_eq_coe.2 (List.perm_append_singleton _ _)
    simp only [offered, work, Work.offered, hitems]
  | skip => rfl
  | halt => rfl

theorem work_visited (q : Lineup σ ω) (v : Vertex σ) (rest : List (WorkItem σ))
    (r : Option (List (Successor σ)) × SearchStats × ω) :
    (q.visited v rest r).work = q.work.visited v ↑rest r := by
  obtain ⟨_ | next, stats, o⟩ := r
  · rfl
  · rfl

/-- The first item in line is done. There are no more turns after an interrupt. -/
inductive Turn (sys : System σ) (l : Listener σ ω) (q : Lineup σ ω) : Lineup σ ω → Prop where
  | seed {v isNew rest} (hi : q.interrupt.raised = false)
    (h : q.line = .met none v {} isNew :: rest) :
    Turn sys l q (q.offered rest
      (Listener.settle (l.follow 0 none v {} isNew q.observation).1 v q.store
        (l.follow 0 none v {} isNew q.observation).2))
  | arrival {source next rest} (hi : q.interrupt.raised = false)
    (h : q.line = .arrival source next :: rest) :
    Turn sys l q (q.offered rest (l.offer sys 0 source next q.store q.observation))
  | visit {v rest} (hi : q.interrupt.raised = false) (h : q.line = .visit v :: rest) :
    Turn sys l q (q.visited v rest (l.expand 0 q.store v {} q.observation))

abbrev Turns (sys : System σ) (l : Listener σ ω) : Lineup σ ω → Lineup σ ω → Prop :=
  Relation.ReflTransGen (Turn sys l)

theorem Turn.move (h : Turn sys l q q') : Work.Move sys l q.work q'.work := by
  have hitems : ∀ {x rest}, q.line = x :: rest → q.work.items = x ::ₘ ↑rest :=
    fun h => congrArg _ h
  cases h with
  | seed _ h =>
    rw [work_offered]
    exact .tell 0 (hitems h)
  | arrival _ h =>
    rw [work_offered]
    exact .arrival 0 (hitems h)
  | visit _ h =>
    rw [work_visited]
    exact .visit 0 (hitems h)

theorem Turn.raised (h : Turn sys l q q') : q.interrupt.raised = false := by
  cases h <;> assumption

/-- The line-up after the listener has answered for the target of the first item. -/
def told (q : Lineup σ ω) (rest : List (WorkItem σ)) (target : Vertex σ) (store : Store σ)
    (r : Step × ω) : Lineup σ ω :=
  q.offered rest (Listener.settle r.1 target store r.2)

section fields
variable (q : Lineup σ ω) (rest : List (WorkItem σ)) (t v : Vertex σ) (store : Store σ)

@[simp] theorem told_store (r : Step × ω) : (q.told rest t store r).store = store := by
  rcases r with ⟨step, o⟩
  cases step <;> rfl

@[simp] theorem told_observation (r : Step × ω) : (q.told rest t store r).observation = r.2 := by
  rcases r with ⟨step, o⟩
  cases step <;> rfl

@[simp] theorem told_line (r : Step × ω) : (q.told rest t store r).line =
    if r.1 = .expand then rest ++ [.visit t] else rest := by
  rcases r with ⟨step, o⟩
  cases step <;> rfl

@[simp] theorem told_raised (r : Step × ω) : (q.told rest t store r).interrupt.raised =
    (q.interrupt.raised || decide (r.1 = .stop)) := by
  rcases r with ⟨step, o⟩
  cases step <;> simp [told, offered, Listener.settle, Interrupt.raise]

variable (r : Option (List (Successor σ)) × SearchStats × ω)

@[simp] theorem visited_store : (q.visited v rest r).store = q.store := by
  obtain ⟨_ | next, stats, o⟩ := r <;> rfl

@[simp] theorem visited_observation : (q.visited v rest r).observation = r.2.2 := by
  obtain ⟨_ | next, stats, o⟩ := r <;> rfl

@[simp] theorem visited_line : (q.visited v rest r).line =
    (r.1.getD []).map (WorkItem.arrival (some v)) ++ rest := by
  obtain ⟨_ | next, stats, o⟩ := r <;> rfl

@[simp] theorem visited_raised : (q.visited v rest r).interrupt.raised =
    (q.interrupt.raised || r.1.isNone) := by
  obtain ⟨_ | next, stats, o⟩ := r <;> simp [visited, Interrupt.raise]

end fields

/-- What the listener is told when the first item in line is done, and the store by then. -/
inductive Tells (sys : System σ) (store : Store σ) :
    WorkItem σ → Option (Vertex σ) → Vertex σ → EdgeFlags → Bool → Store σ → Prop where
  | seed (t : Vertex σ) (isNew : Bool) :
    Tells sys store (.met none t {} isNew) none t {} isNew store
  | arrival {source : Option (Vertex σ)} {next : Successor σ} {t : Vertex σ} {isNew : Bool}
    {store' : Store σ} (h : Store.Stored sys store next.1 t isNew store') :
    Tells sys store (.arrival source next) source t next.2 isNew store'

section tells
variable {x : WorkItem σ} {source : Option (Vertex σ)} {t v : Vertex σ} {flags : EdgeFlags}
  {isNew : Bool} {store' : Store σ}

theorem Tells.mem_of_ne {store : Store σ} (h : Tells sys store x source t flags isNew store')
    (hv : v ∈ store'.vertices) (hnew : ¬ (v = t ∧ isNew = true)) : v ∈ store.vertices := by
  cases h with
  | seed => exact hv
  | arrival hs => exact hs.mem_of_ne hv hnew

theorem Tells.handle_ne {store : Store σ} (h : Tells sys store x source t flags isNew store')
    (hnew : isNew = true) : source = none ∨ ∀ u ∈ store.vertices, u.handle ≠ t.handle := by
  cases h with
  | seed => exact .inl rfl
  | arrival hs => exact .inr fun u hu => (hs.added hnew).handle_ne hs.canonical hu

theorem Tells.grows {store : Store σ} (h : Tells sys store x source t flags isNew store') :
    ∀ v ∈ store.vertices, v ∈ store'.vertices := by
  cases h with
  | seed => exact fun _ hv => hv
  | arrival hs => exact hs.grows

/-- Before the listener is told, the target is stored. -/
theorem Tells.placed {w : Work σ ω} {rest : Multiset (WorkItem σ)}
    (h : Tells sys w.store x source t flags isNew store') (hi : w.items = x ::ₘ rest) :
    Work.Events sys l w
      { w with store := store', items := .met source t flags isNew ::ₘ rest } := by
  cases h with
  | seed => rw [← hi]
  | arrival hs => exact .single (.stored hi hs)

end tells

/-- What a turn comes to when states are told apart by equality. -/
inductive Event (sys : System σ) (l : Listener σ ω) (q : Lineup σ ω) : Lineup σ ω → Prop where
  | told {x : WorkItem σ} {rest source t flags isNew store'} (h : q.line = x :: rest)
    (ht : Tells sys q.store x source t flags isNew store') :
    Event sys l q (q.told rest t store' (l.follow 0 source t flags isNew q.observation))
  | full {rest e} : Event sys l q { q with
      line := rest
      interrupt := q.interrupt.raise (.exhausted e) }
  | visit {v rest} (h : q.line = .visit v :: rest) :
    Event sys l q (q.visited v rest (l.expand 0 q.store v {} q.observation))

theorem Turn.event (h : Turn sys l q q') (hc : q.store.Canonical sys) (hx : sys.Explicit) :
    Event sys l q q' := by
  cases h with
  | @seed v isNew rest _ h => exact .told h (.seed v isNew)
  | @arrival source next rest _ h =>
    rw [Listener.offer_eq]
    cases hstore : sys.store q.store next.1 with
    | error e => exact .full
    | ok i =>
      obtain ⟨t, isNew, store'⟩ := i
      exact .told h (.arrival (hc.stored hx hstore))
  | visit _ h => exact .visit h

/-- The edges that are left of a state under expansion. -/
def edges : Option (Vertex σ × List (Successor σ)) → List (WorkItem σ)
  | some (v, rest) => rest.map (WorkItem.arrival (some v))
  | none => []

end Lineup

open Lineup (Turns)

variable {σ ω : Type} {sys : System σ} {l : Listener σ ω}

namespace BreadthFirst

variable {m : State σ ω} {w : Worker σ} {q : Lineup σ ω}

/-- The search is as far as the line-up. What is left in line counts while the worker goes on. -/
structure AtPace (m : State σ ω) (w : Worker σ) (q : Lineup σ ω) : Prop where
  workers : m.workers = #[w]
  store : q.store = m.store
  observation : q.observation = m.observation
  told : ∀ x, w.current = some x → x.met = none
  calm : w.stopped = false → m.interrupt.raised = false ∧ q.interrupt.raised = false
  dense : w.stopped = false → (view m w).Dense
  line : w.stopped = false → q.line =
    Lineup.edges (w.current.map fun x => (x.source, x.rest)) ++
      (view m w).contents.map WorkItem.visit

/-- The target of the first item in line is stored already. -/
inductive Ahead (sys : System σ) (q : Lineup σ ω) : State σ ω → Prop where
  | mk {m : State σ ω} {w v next rest t isNew store'} (h : AtPace m w q)
    (hst : w.stopped = false) (hcur : w.current = some ⟨v, none, next :: rest⟩)
    (hs : sys.store m.store next.1 = .ok ⟨t, isNew, store'⟩) :
    Ahead sys q { m with
      store := store'
      workers := #[{ w with current := some ⟨v, some ⟨t, next.2, isNew⟩, rest⟩ }] }

/-- The search is as far as the line-up, or has stored one more target. -/
def Abreast (sys : System σ) (q : Lineup σ ω) (m : State σ ω) : Prop :=
  (∃ w, AtPace m w q) ∨ Ahead sys q m

def Reaches (sys : System σ) (l : Listener σ ω) (q : Lineup σ ω) (p : State σ ω × Worker σ) :
    Prop :=
  ∃ q', Turns sys l q q' ∧ Abreast sys q' { p.1 with workers := #[p.2] }

theorem AtPace.expand (sys : System σ) (l : Listener σ ω) (h : AtPace m w q)
    (hst : w.stopped = false) (hcur : w.current = none) {v : Vertex σ}
    {rest : QueueView (Vertex σ)} (hpop : (view m w).contents = v :: rest.contents)
    (hdense : rest.Dense) :
    Reaches sys l q
      (expand l 0 v { w with buffer := rest.buffer } { m with queue := rest.queue }) := by
  have hline := h.line hst
  rw [hcur, hpop] at hline
  have hturn : Lineup.Turn sys l q _ := .visit (h.calm hst).2 hline
  rw [h.store, h.observation] at hturn
  have hstats := l.expand_stats 0 m.store v w.stats m.observation
  simp only [BreadthFirst.expand, hstats]
  generalize l.expand 0 m.store v {} m.observation = r at hturn ⊢
  obtain ⟨_ | next, stats, o⟩ := r
  · exact ⟨_, .single hturn, .inl ⟨_, rfl, h.store, rfl, nofun, nofun, nofun, nofun⟩⟩
  · refine ⟨_, .single hturn, .inl ⟨_, rfl, h.store, rfl, fun x hx => ?_, fun _ => h.calm hst,
      fun _ => hdense, fun _ => rfl⟩⟩
    cases hx
    rfl

theorem AtPace.take (sys : System σ) (l : Listener σ ω) (h : AtPace m w q)
    (hst : w.stopped = false) (hcur : w.current = none) : Reaches sys l q (take l 0 w m) := by
  have hdense := h.dense hst
  simp only [BreadthFirst.take, (h.calm hst).1, Bool.false_eq_true, if_false]
  rcases hpop : (QueueView.mk m.queue w.buffer).pop with ⟨_ | v, rest⟩
  · obtain ⟨-, rfl⟩ := QueueView.of_pop_none hdense hpop
    have hsame : (view m w).publish.flush.contents = (view m w).contents := by
      rw [QueueView.contents_flush, QueueView.contents_publish]
    refine ⟨q, .refl, .inl ⟨_, rfl, h.store, h.observation, h.told, fun _ => h.calm hst,
      fun _ => hdense.publish.flush, fun _ => ?_⟩⟩
    rw [h.line hst, ← hsame]
    rfl
  · have hrest := hdense.pop
    change (QueueView.mk m.queue w.buffer).pop.2.Dense at hrest
    rw [hpop] at hrest
    exact h.expand sys l hst hcur (QueueView.contents_of_pop hpop) hrest

theorem AtPace.finish (sys : System σ) (l : Listener σ ω) (h : AtPace m w q)
    (hst : w.stopped = false) {v : Vertex σ} (hcur : w.current = some ⟨v, none, []⟩) :
    Reaches sys l q (finish w m) := by
  refine ⟨q, .refl, .inl ⟨_, rfl, h.store, h.observation, nofun, fun _ => h.calm hst,
    fun _ => (h.dense hst).markDone, fun _ => ?_⟩⟩
  rw [h.line hst, hcur]
  exact congrArg (List.map _) (QueueView.contents_markDone _).symm

theorem AtPace.meet (sys : System σ) (l : Listener σ ω) (h : AtPace m w q)
    (hst : w.stopped = false) {v : Vertex σ} {next : Successor σ} {rest : List (Successor σ)}
    (hcur : w.current = some ⟨v, none, next :: rest⟩) :
    Reaches sys l q (meet sys v next rest w m) := by
  unfold BreadthFirst.meet
  cases hs : sys.store m.store next.1 with
  | error e =>
    have hline := h.line hst
    rw [hcur] at hline
    have hturn : Lineup.Turn sys l q _ := .arrival (h.calm hst).2 hline
    rw [Listener.offer_eq, h.store, hs] at hturn
    exact ⟨_, .single hturn, .inl ⟨_, rfl, rfl, h.observation, nofun, nofun, nofun, nofun⟩⟩
  | ok i =>
    obtain ⟨t, isNew, store'⟩ := i
    have hahead : Ahead sys q _ := .mk h hst hcur hs
    exact ⟨q, .refl, .inr hahead⟩

theorem Ahead.step (sys : System σ) (l : Listener σ ω) (h : Ahead sys q m) :
    ∃ q', Turns sys l q q' ∧ Abreast sys q' (step sys l 0 m) := by
  obtain @⟨m, w, v, next, rest, t, isNew, store', h, hst, hcur, hs⟩ := h
  have hline := h.line hst
  rw [hcur] at hline
  have hturn : Lineup.Turn sys l q _ := .arrival (h.calm hst).2 hline
  rw [Listener.offer_eq, h.store, hs, h.observation] at hturn
  rw [step_solo (w := { w with current := some ⟨v, some ⟨t, next.2, isNew⟩, rest⟩ }) rfl hst]
  simp only [stepWorker, tell] at hturn ⊢
  generalize l.follow 0 (some v) t next.2 isNew m.observation = r at hturn ⊢
  have htold : ∀ x, some (⟨v, none, rest⟩ : Expansion σ) = some x → x.met = none := by
    rintro x ⟨⟩
    rfl
  obtain ⟨_ | _ | _, o⟩ := r <;> simp only [Listener.settle] at hturn ⊢
  · refine ⟨_, .single hturn, .inl ⟨_, rfl, rfl, rfl, htold, fun _ => h.calm hst,
      fun _ => (h.dense hst).push t, fun _ => ?_⟩⟩
    change _ = _ ++ List.map _ ((view m w).push t).contents
    rw [QueueView.contents_push, List.map_append, ← List.append_assoc]
    rfl
  · exact ⟨_, .single hturn, .inl ⟨_, rfl, rfl, rfl, htold, fun _ => h.calm hst,
      fun _ => h.dense hst, fun _ => rfl⟩⟩
  · refine ⟨_, .single hturn, .inl ⟨_, rfl, rfl, rfl, fun x hx => ?_, fun hx => ?_, fun hx => ?_,
      fun hx => ?_⟩⟩
    all_goals cases hx

theorem AtPace.step (sys : System σ) (l : Listener σ ω) (h : AtPace m w q) :
    ∃ q', Turns sys l q q' ∧ Abreast sys q' (step sys l 0 m) := by
  cases hst : w.stopped with
  | true =>
    have hstep : BreadthFirst.step sys l 0 m = m := by simp [BreadthFirst.step, h.workers, hst]
    rw [hstep]
    exact ⟨q, .refl, .inl ⟨w, h⟩⟩
  | false =>
    rw [step_solo h.workers hst]
    unfold stepWorker
    split
    · cases h.told _ ‹_›
    · exact h.meet sys l hst ‹_›
    · exact h.finish sys l hst ‹_›
    · exact h.take sys l hst ‹_›

theorem Ahead.workers (h : Ahead sys q m) : m.workers.size = 1 := by
  cases h
  rfl

theorem Abreast.runSchedule (sys : System σ) (l : Listener σ ω) (schedule : List Nat)
    (h : Abreast sys q m) :
    ∃ q', Turns sys l q q' ∧ Abreast sys q' (runSchedule sys l schedule m) := by
  induction schedule generalizing m q with
  | nil => exact ⟨q, .refl, h⟩
  | cons i rest ih =>
    cases i with
    | zero =>
      obtain ⟨q₁, hturns, h₁⟩ : ∃ q', Turns sys l q q' ∧ Abreast sys q' (step sys l 0 m) := by
        rcases h with ⟨w, h⟩ | h
        · exact h.step sys l
        · exact h.step sys l
      obtain ⟨q₂, hturns₂, h₂⟩ := ih h₁
      exact ⟨q₂, hturns.trans hturns₂, h₂⟩
    | succ i =>
      -- there is no such worker
      have hsize : m.workers.size = 1 := by
        rcases h with ⟨w, h⟩ | h
        · rw [h.workers]
          rfl
        · exact h.workers
      have hstep : BreadthFirst.step sys l (i + 1) m = m := by
        simp [BreadthFirst.step, hsize]
      obtain ⟨q', hturns, h'⟩ := ih h
      exact ⟨q', hturns, by rwa [BreadthFirst.runSchedule, List.foldl_cons, hstep]⟩

/-- At most one target more is stored than by the line-up. -/
theorem Abreast.work (l : Listener σ ω) (h : Abreast sys q m) :
    ∃ w : Work σ ω, Relation.ReflGen (Work.Move sys l) q.work w ∧ w.store = m.store ∧
      w.observation = m.observation ∧ w.observation = q.observation := by
  rcases h with ⟨w, h⟩ | @⟨m, w, v, next, rest, t, isNew, store', h, hst, hcur, hs⟩
  · exact ⟨q.work, .refl, h.store, h.observation, rfl⟩
  · have hline := h.line hst
    rw [hcur] at hline
    have hitems : q.work.items = .arrival (some v) next ::ₘ
        ↑(rest.map (WorkItem.arrival (some v)) ++ (view m w).contents.map WorkItem.visit) :=
      congrArg Multiset.ofList hline
    have hmove : Work.Move sys l q.work _ :=
      .store hitems ((congrArg (sys.store · next.1) h.store).trans hs)
    exact ⟨_, .single hmove, rfl, h.observation, rfl⟩

/-- The seeds are dealt with one after the other, and those that are accepted wait in the queue. -/
theorem plant_turns (sys : System σ) (l : Listener σ ω) (store : Store σ) (i : Nat)
    (vs : List (Vertex σ × Bool)) (o : ω) (view : QueueView (Vertex σ))
    (hi : q.interrupt.raised = false) (hq : q.store = store) (ho : q.observation = o)
    (hline : q.line =
      vs.map (fun s => WorkItem.met none s.1 {} s.2) ++ view.contents.map WorkItem.visit)
    (hf : Fresh view) :
    ∃ q', Turns sys l q q' ∧ q'.store = store ∧
      q'.observation = (plant l 1 i vs o view).2.1 ∧
      ((plant l 1 i vs o view).1 = false → q'.interrupt.raised = false ∧
        Fresh (plant l 1 i vs o view).2.2 ∧
        q'.line = (plant l 1 i vs o view).2.2.contents.map WorkItem.visit) := by
  induction vs generalizing i o view q with
  | nil => exact ⟨q, .refl, hq, ho, fun _ => ⟨hi, hf, hline⟩⟩
  | cons s rest ih =>
    obtain ⟨v, isNew⟩ := s
    have hturn : Lineup.Turn sys l q _ := .seed hi hline
    rw [hq, ho] at hturn
    simp only [plant, Nat.mod_one]
    generalize l.follow 0 none v {} isNew o = r at hturn ⊢
    obtain ⟨step, o'⟩ := r
    cases step with
    | expand =>
      obtain ⟨q', hturns, hstore, hobs, hend⟩ := ih
        (q := q.offered (rest.map (fun s => WorkItem.met none s.1 {} s.2) ++
          view.contents.map WorkItem.visit) (.expand v store o')) (i + 1) o' (view.push v) hi rfl
        rfl (by
          rw [QueueView.contents_push, List.map_append, ← List.append_assoc]
          rfl) (hf.push v)
      exact ⟨q', .head hturn hturns, hstore, hobs, hend⟩
    | skip =>
      obtain ⟨q', hturns, hstore, hobs, hend⟩ := ih
        (q := q.offered (rest.map (fun s => WorkItem.met none s.1 {} s.2) ++
          view.contents.map WorkItem.visit) (.skip store o')) (i + 1) o' view hi rfl rfl rfl hf
      exact ⟨q', .head hturn hturns, hstore, hobs, hend⟩
    | stop => exact ⟨_, .single hturn, rfl, rfl, fun hno => absurd hno.symm Bool.false_ne_true⟩

theorem run_turns (l : Listener σ ω) (allowance : Nat) {seeds : Seeds σ} {store store' : Store σ}
    (o : ω) {vs : List (Vertex σ × Bool)} (hr : seeds.resolve sys store = .ok (vs, store'))
    (schedule : Schedule) :
    ∃ q w, Turns sys l ⟨store', o, vs.map fun s => WorkItem.met none s.1 {} s.2, {}, {}⟩ q ∧
      Relation.ReflGen (Work.Move sys l) q.work w ∧
      w.store = (run sys l 1 allowance seeds store o schedule).store ∧
      w.observation = (run sys l 1 allowance seeds store o schedule).observation ∧
      w.observation = q.observation := by
  have hfresh : Fresh (⟨.ofChunkSize (Vertex σ) ChunkedQueue.defaultChunk, {}⟩ : QueueView _) :=
    ⟨fun _ hc => absurd hc List.not_mem_nil, rfl, by change (0 : UInt64) - 0 = 0; decide⟩
  obtain ⟨q, hturns, hstore, hobs, hend⟩ := plant_turns sys l
    (q := ⟨store', o, vs.map fun s => WorkItem.met none s.1 {} s.2, {}, {}⟩) store' 0 vs o _ rfl rfl
    rfl (List.append_nil _).symm hfresh
  unfold run
  rw [hr]
  simp only
  rcases hplant : plant l 1 0 vs o ⟨.ofChunkSize (Vertex σ) ChunkedQueue.defaultChunk, {}⟩ with
    ⟨_ | _, o', view'⟩
  · rw [hplant] at hobs hend
    obtain ⟨hi, hf, hline⟩ := hend rfl
    have hpace : AtPace (start 1 view'.flush.queue store' o') {} q := by
      refine ⟨rfl, hstore, hobs, nofun, fun _ => ⟨rfl, hi⟩, fun _ => hf.dense.flush, fun _ => ?_⟩
      rw [hline]
      refine congrArg (List.map _) ?_
      simp [view, start, QueueView.contents, hf.flatten]
    obtain ⟨steps, hsteps⟩ := rounds_eq_runSchedule sys l schedule (enough sys allowance)
      (start 1 view'.flush.queue store' o')
    obtain ⟨q', hturns', habreast⟩ := Abreast.runSchedule sys l steps (.inl ⟨_, hpace⟩)
    rw [← hsteps] at habreast
    obtain ⟨w, hw, hstore', hobs', hsame⟩ := habreast.work l
    exact ⟨q', w, hturns.trans hturns', hw, hstore', hobs', hsame⟩
  · rw [hplant] at hobs
    exact ⟨q, q.work, hturns, .refl, hstore, hobs, rfl⟩

end BreadthFirst

namespace Partitioned

variable {m : State σ ω} {w : Worker σ} {q : Lineup σ ω}

/-- The search of a single shard is as far as the line-up. -/
structure AtPace (m : State σ ω) (w : Worker σ) (q : Lineup σ ω) : Prop where
  workers : m.workers = #[w]
  store : q.store = m.store
  observation : q.observation = m.observation
  calm : w.phase ≠ .returned → q.interrupt.raised = false
  line : w.phase ≠ .returned → q.line = Lineup.edges w.current ++
    (w.inbox.toList.map Message.item ++ w.queue.toList.map WorkItem.visit)

/-- What is accepted of the first item goes to the end of the line. -/
theorem AtPace.accept {source : Option (Vertex σ)} {next : Successor σ}
    {rest : List (WorkItem σ)} (hw : m.workers = #[w]) (hstore : q.store = m.store)
    (hobs : q.observation = m.observation) (hi : q.interrupt.raised = false)
    (hline : q.line = .arrival source next :: rest)
    (hrest : rest = Lineup.edges w.current ++
      (w.inbox.toList.map Message.item ++ w.queue.toList.map WorkItem.visit)) :
    ∃ w' q', Turns sys l q q' ∧ AtPace (accept sys l 0 source next m) w' q' := by
  have hturn : Lineup.Turn sys l q _ := .arrival hi hline
  rw [hstore, hobs] at hturn
  unfold Partitioned.accept
  generalize l.offer sys 0 source next m.store m.observation = r at hturn ⊢
  cases r with
  | expand t store o =>
    refine ⟨{ w with queue := w.queue.push t }, _, .single hturn, ?_, rfl, rfl, fun _ => hi,
      fun _ => ?_⟩
    · simp only [State.modifyWorker, hw]
      rfl
    · simp only [Lineup.offered, hrest, Fifo.toList_push, List.map_append, List.append_assoc]
      rfl
  | skip store o => exact ⟨w, _, .single hturn, hw, rfl, rfl, fun _ => hi, fun _ => hrest⟩
  | halt ending store o =>
    refine ⟨{ w with phase := .returned }, _, .single hturn, ?_, rfl, rfl, fun h => absurd rfl h,
      fun h => absurd rfl h⟩
    simp only [halt, State.modifyWorker, hw]
    rfl

theorem AtPace.expand (hw : m.workers = #[w]) (hstore : q.store = m.store)
    (hobs : q.observation = m.observation) (hi : q.interrupt.raised = false) {v : Vertex σ}
    (hline : q.line = .visit v :: w.queue.toList.map WorkItem.visit)
    (hinbox : w.inbox.toList = []) :
    ∃ w' q', Turns sys l q q' ∧ AtPace (expand l 0 v w.stats m) w' q' := by
  have hturn : Lineup.Turn sys l q _ := .visit hi hline
  rw [hstore, hobs] at hturn
  have hstats := l.expand_stats 0 m.store v w.stats m.observation
  simp only [Partitioned.expand, hstats]
  generalize l.expand 0 m.store v {} m.observation = r at hturn ⊢
  obtain ⟨_ | next, stats, o⟩ := r
  · refine ⟨{ w with stats := w.stats + stats, phase := .returned }, _, .single hturn, ?_, hstore,
      rfl, fun hx => absurd rfl hx, fun hx => absurd rfl hx⟩
    simp only [halt, State.modifyWorker, hw]
    rfl
  · refine ⟨{ w with stats := w.stats + stats, current := some (v, next) }, _, .single hturn, ?_,
      hstore, rfl, fun _ => hi, fun _ => ?_⟩
    · simp only [State.modifyWorker, hw]
      rfl
    · simp only [Lineup.visited, hinbox]
      rfl

/-- A worker takes its messages before the states in its queue. -/
theorem AtPace.take (sys : System σ) (l : Listener σ ω) (h : AtPace m w q)
    (hne : w.phase ≠ .returned) (hcur : w.current = none) :
    ∃ w' q', Turns sys l q q' ∧ AtPace (take sys l 0 w m) w' q' := by
  have hi := h.calm hne
  have hline := h.line hne
  rw [hcur] at hline
  unfold Partitioned.take
  cases hpop : w.inbox.pop? with
  | some r =>
    obtain ⟨message, inbox⟩ := r
    rw [Fifo.toList_of_pop? hpop] at hline
    simp only [modifyWorker_solo h.workers]
    exact AtPace.accept (w := { w with inbox, finished := w.finished + 1 }) rfl h.store
      h.observation hi hline (by simp only [hcur]; rfl)
  | none =>
    have hinbox := (Fifo.pop?_eq_none_iff _).1 hpop
    simp only
    cases hqueue : w.queue.pop? with
    | none =>
      simp only [modifyWorker_solo h.workers]
      exact ⟨_, q, .refl, rfl, h.store, h.observation, fun _ => hi, fun _ => h.line hne⟩
    | some r =>
      obtain ⟨v, queue⟩ := r
      rw [hinbox, Fifo.toList_of_pop? hqueue] at hline
      simp only [modifyWorker_solo h.workers]
      exact AtPace.expand (m := { m with workers := #[{ w with queue }] }) (w := { w with queue })
        rfl h.store h.observation hi hline hinbox

theorem AtPace.work (sys : System σ) (l : Listener σ ω) (h : AtPace m w q)
    (hne : w.phase ≠ .returned) :
    ∃ w' q', Turns sys l q q' ∧ AtPace (work sys l 0 w m) w' q' := by
  unfold Partitioned.work
  cases hcur : w.current with
  | none =>
    simp only
    split
    · rw [modifyWorker_solo h.workers]
      exact ⟨_, q, .refl, rfl, h.store, h.observation, fun hx => absurd rfl hx,
        fun hx => absurd rfl hx⟩
    · exact h.take sys l hne hcur
  | some c =>
    have hi := h.calm hne
    have hline := h.line hne
    obtain ⟨v, edges⟩ := c
    rw [hcur] at hline
    cases edges with
    | nil =>
      simp only [modifyWorker_solo h.workers]
      exact ⟨_, q, .refl, rfl, h.store, h.observation, fun _ => hi, fun _ => hline⟩
    | cons next rest =>
      simp only [modifyWorker_solo h.workers, distribute]
      rw [if_pos (owner_solo rfl _)]
      exact AtPace.accept (w := { w with current := some (v, rest) }) rfl h.store h.observation hi
        hline rfl

theorem AtPace.step (sys : System σ) (l : Listener σ ω) (h : AtPace m w q) :
    ∃ w' q', Turns sys l q q' ∧ AtPace (step sys l 0 m) w' q' := by
  cases hphase : w.phase with
  | returned =>
    rw [step_returned h.workers hphase]
    exact ⟨w, q, .refl, h⟩
  | settling =>
    have hne : w.phase ≠ .returned := by simp [hphase]
    rw [step_settling h.workers hphase]
    exact ⟨_, q, .refl, rfl, h.store, h.observation, fun _ => h.calm hne, fun _ => h.line hne⟩
  | testing =>
    have hne : w.phase ≠ .returned := by simp [hphase]
    have hstep : Partitioned.step sys l 0 m = { m with
        workers := #[{ w with phase := if m.outstanding = 0 then .returned else .working }] } := by
      simp [Partitioned.step, h.workers, hphase, State.modifyWorker]
    rw [hstep]
    exact ⟨_, q, .refl, rfl, h.store, h.observation, fun _ => h.calm hne, fun _ => h.line hne⟩
  | working =>
    rw [step_solo h.workers hphase]
    exact h.work sys l (by simp [hphase])

theorem AtPace.runSchedule (sys : System σ) (l : Listener σ ω) (schedule : List Nat)
    (h : AtPace m w q) :
    ∃ w' q', Turns sys l q q' ∧ AtPace (runSchedule sys l schedule m) w' q' := by
  induction schedule generalizing m w q with
  | nil => exact ⟨w, q, .refl, h⟩
  | cons i rest ih =>
    cases i with
    | zero =>
      obtain ⟨w₁, q₁, hturns, h₁⟩ := h.step sys l
      obtain ⟨w₂, q₂, hturns₂, h₂⟩ := ih h₁
      exact ⟨w₂, q₂, hturns.trans hturns₂, h₂⟩
    | succ i =>
      -- there is no such worker
      have hstep : Partitioned.step sys l (i + 1) m = m := by
        simp [Partitioned.step, h.workers]
      obtain ⟨w', q', hturns, h'⟩ := ih h
      exact ⟨w', q', hturns, by rwa [Partitioned.runSchedule, List.foldl_cons, hstep]⟩

theorem run_turns (sys : System σ) (l : Listener σ ω) (allowance : Nat) (seeds : Seeds σ)
    {store : Store σ} (o : ω) (hsize : store.shards.size = 1) (schedule : Schedule) :
    ∃ q, Turns sys l ⟨store, o, (seedStates sys seeds).map fun s => WorkItem.arrival none (s, {}),
        {}, {}⟩ q ∧
      q.store = (run sys l allowance seeds store o schedule).store ∧
      q.observation = (run sys l allowance seeds store o schedule).observation := by
  obtain ⟨inbox, hstart, hinbox⟩ := foldl_send_solo sys
    ({ store, observation := o, workers := #[{}] } : State σ ω) rfl (seedStates sys seeds)
  have hpace : AtPace (start sys (seedStates sys seeds) store o) { ({} : Worker σ) with inbox }
      ⟨store, o, (seedStates sys seeds).map fun s => WorkItem.arrival none (s, {}), {}, {}⟩ := by
    unfold start
    rw [hsize, show (Array.replicate 1 ({} : Worker σ)) = #[{}] from rfl, hstart]
    refine ⟨rfl, rfl, rfl, fun _ => rfl, fun _ => ?_⟩
    dsimp only
    rw [hinbox]
    simp [Lineup.edges, Function.comp_def, Message.item]
  obtain ⟨steps, hsteps⟩ := rounds_eq_runSchedule sys l schedule
    (enough sys allowance (seedStates sys seeds).length)
    (start sys (seedStates sys seeds) store o)
  obtain ⟨w', q, hturns, hq⟩ := hpace.runSchedule sys l steps
  rw [← hsteps] at hq
  exact ⟨q, hturns, hq.store, hq.observation⟩

end Partitioned

/-- A single worker that does not search depth-first does its work in line, unless the seeds cannot
all be stored. It may be about to tell of the first item when it runs out of steps. -/
theorem SearchConfig.search_turns {c : SearchConfig} (sys : System σ) (l : Listener σ ω)
    (seeds : Seeds σ) {store : Store σ} (o : ω) (schedule : Schedule) (hone : c.workerCount = 1)
    (horder : c.partitioned = true ∨ c.order = .breadthFirst)
    (hsize : c.partitioned = true → store.shards.size = c.workerCount) :
    ∃ e, c.search sys l seeds store o schedule = .ok e ∧
      ((∃ x s', e = ⟨s', o, {}, some (.exhausted x)⟩) ∨
        ∃ (q₀ q : Lineup σ ω) (w : Work σ ω), c.Begins sys seeds store o q₀.work ∧
          Turns sys l q₀ q ∧ Relation.ReflGen (Work.Move sys l) q.work w ∧ w.store = e.store ∧
          w.observation = e.observation ∧ w.observation = q.observation) := by
  unfold SearchConfig.search
  cases hp : c.partitioned with
  | true =>
    rw [if_pos rfl, explorePartitioned, if_pos (hsize hp).symm]
    obtain ⟨q, hturns, hstore, hobs⟩ := Partitioned.run_turns sys l sys.extent seeds o
      ((hsize hp).trans hone) schedule
    exact ⟨_, rfl, .inr ⟨_, q, q.work, .sent hp, hturns, .refl, hstore, hobs, rfl⟩⟩
  | false =>
    rw [if_neg Bool.false_ne_true]
    unfold explore
    rw [if_neg c.workerCount_pos.ne', horder.resolve_left (by rw [hp]; exact Bool.false_ne_true),
      hone]
    refine ⟨_, rfl, ?_⟩
    cases hr : seeds.resolve sys store with
    | error p =>
      obtain ⟨x, s'⟩ := p
      exact .inl ⟨x, s', by simp only [BreadthFirst.run, hr]⟩
    | ok r =>
      obtain ⟨vs, store'⟩ := r
      obtain ⟨q, w, hturns, hrest⟩ := BreadthFirst.run_turns l sys.extent o hr schedule
      exact .inr ⟨_, q, w, .stored hp hr, hturns, hrest⟩

end ModelChecker
