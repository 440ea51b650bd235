import Mathlib.Algebra.BigOperators.Group.List.Basic
import Mathlib.Tactic.Abel
import ModelChecker.Search.Partitioned
import ModelChecker.Proofs.Work
import ModelChecker.Proofs.CommonCount

namespace ModelChecker.Partitioned

variable {σ ω : Type}

def Message.item (x : Message σ) : WorkItem σ := .arrival x.source x.next

def Worker.edges (w : Worker σ) : Multiset (WorkItem σ) :=
  match w.current with
  | some (v, rest) => ↑(rest.map (WorkItem.arrival (some v)))
  | none => 0

def Worker.items (w : Worker σ) : Multiset (WorkItem σ) :=
  ↑(w.inbox.toList.map Message.item) + (↑(w.queue.toList.map WorkItem.visit) + w.edges)

/-- The work that a worker has at hand. -/
def Worker.held (w : Worker σ) : Nat :=
  w.inbox.toList.length + w.queue.toList.length +
    match w.current with
    | some _ => 1
    | none => 0

def Worker.duty (w : Worker σ) : Duty := ⟨w.phase, w.held, w.finished⟩

/-- The steps that messages and an expansion take. An edge counts twice, since it may become a
message. -/
def Worker.cost (w : Worker σ) : Nat :=
  w.inbox.toList.length +
    match w.current with
    | some (_, rest) => 2 * rest.length + 1
    | none => 0

namespace State

def sum {M : Type} [AddCommMonoid M] (m : State σ ω) (f : Worker σ → M) : M :=
  (m.workers.toList.map f).sum

def work (m : State σ ω) : Work σ ω where
  store := m.store
  observation := m.observation
  items := m.sum Worker.items
  stats := m.sum Worker.stats
  interrupt := m.interrupt

def crew (m : State σ ω) : Crew where
  raised := m.interrupt.raised
  count := m.outstanding
  duties := m.workers.toList.map Worker.duty

/-- What is left of the allowance: beginning and ending an expansion, and twice its edges. -/
def potential (m : State σ ω) (degree allowance : Nat) : Nat :=
  (allowance - (m.sum Worker.stats).states) * (2 * degree + 2) + m.sum Worker.cost

end State

variable {sys : System σ} {l : Listener σ ω} {m m' : State σ ω} {w : Worker σ} {i : Nat}

theorem toList_modifyWorker (hw : m.workers[i]? = some w) (g : Worker σ → Worker σ) :
    (m.modifyWorker i g).workers.toList = m.workers.toList.set i (g w) := by
  obtain ⟨hi, hget⟩ := Array.getElem?_eq_some_iff.1 hw
  rw [State.modifyWorker, Array.toList_modify, List.modify_eq_set_getElem?]
  simp [hi, ← hget]

theorem sum_modify {M : Type} [AddCommMonoid M] (f : Worker σ → M) (hw : m.workers[i]? = some w) :
    ∃ r, m.sum f = f w + r ∧ ∀ g, (m.modifyWorker i g).sum f = f (g w) + r := by
  obtain ⟨r, h1, h2⟩ := exists_sum_set f ((Array.getElem?_toList ..).trans hw)
  refine ⟨r, h1, fun g => ?_⟩
  rw [State.sum, toList_modifyWorker hw]
  exact h2 (g w)

theorem getElem?_modifyWorker (hw : m.workers[i]? = some w) (g : Worker σ → Worker σ) :
    (m.modifyWorker i g).workers[i]? = some (g w) := by
  rw [State.modifyWorker, Array.getElem?_modify, if_pos rfl, hw]
  rfl

theorem mem_modifyWorker {g : Worker σ → Worker σ} {x : Worker σ} (hw : m.workers[i]? = some w)
    (hx : x ∈ (m.modifyWorker i g).workers) : x = g w ∨ x ∈ m.workers := by
  rw [← Array.mem_toList_iff, toList_modifyWorker hw] at hx
  exact (List.mem_or_eq_of_mem_set hx).symm.imp_right Array.mem_toList_iff.1

theorem getElem?_duties (hw : m.workers[i]? = some w) : m.crew.duties[i]? = some w.duty := by
  rw [State.crew, List.getElem?_map, Array.getElem?_toList, hw]
  rfl

theorem crew_modifyWorker (hw : m.workers[i]? = some w) (g : Worker σ → Worker σ) :
    (m.modifyWorker i g).crew =
      ⟨m.crew.raised, m.crew.count, m.crew.duties.set i (g w).duty⟩ := by
  simp only [State.crew, toList_modifyWorker hw, List.map_set]
  rfl

theorem modifyWorker_turned {g : Worker σ → Worker σ} (hw : m.workers[i]? = some w) {n : Nat}
    {store : Store σ} {o : ω} (hp : (g w).phase = w.phase)
    (hf : (g w).finished = w.finished ∨ w.phase = .working)
    (hdue : (g w).duty.due = w.duty.due + n) :
    m.crew.Turned (State.modifyWorker
      { m with store, observation := o, outstanding := m.outstanding + n } i g).crew := by
  rw [crew_modifyWorker (m := { m with store, observation := o, outstanding := m.outstanding + n })
    hw g]
  exact Crew.turned_set (getElem?_duties hw) hp hf hdue

theorem modifyWorker_items_cons {g : Worker σ → Worker σ} (hw : m.workers[i]? = some w)
    {x : WorkItem σ} (hi : (g w).items = x ::ₘ w.items) :
    (m.modifyWorker i g).sum Worker.items = x ::ₘ m.sum Worker.items := by
  obtain ⟨r, h1, h2⟩ := sum_modify Worker.items hw
  rw [h1, h2, hi, Multiset.cons_add]

theorem items_eq_cons {g : Worker σ → Worker σ} (hw : m.workers[i]? = some w)
    {x : WorkItem σ} (hi : w.items = x ::ₘ (g w).items) :
    m.sum Worker.items = x ::ₘ (m.modifyWorker i g).sum Worker.items := by
  obtain ⟨r, h1, h2⟩ := sum_modify Worker.items hw
  rw [h1, h2, hi, Multiset.cons_add]

theorem modifyWorker_sum {M : Type} [AddCommMonoid M] {f : Worker σ → M} {g : Worker σ → Worker σ}
    (hw : m.workers[i]? = some w) (hf : f (g w) = f w) : (m.modifyWorker i g).sum f = m.sum f := by
  obtain ⟨r, h1, h2⟩ := sum_modify f hw
  rw [h1, h2, hf]

theorem potential_congr (hs : m'.sum Worker.stats = m.sum Worker.stats)
    (hc : m'.sum Worker.cost = m.sum Worker.cost) (degree allowance : Nat) :
    m'.potential degree allowance = m.potential degree allowance := by
  unfold State.potential
  rw [hs, hc]

theorem halt_turned (hw : m'.workers[i]? = some w)
    (hset : ∀ x, m'.workers.toList.set i x = m.workers.toList.set i x) (e : Ending) :
    m.crew.Turned (halt i e m').crew := by
  have hr : (m'.interrupt.raise e).raised = true := by
    cases e <;> rfl
  have hcrew : (halt i e m').crew = ⟨true, m'.outstanding,
      m.crew.duties.set i (Worker.duty { w with phase := .returned })⟩ := by
    have hlist := toList_modifyWorker (m := { m' with interrupt := m'.interrupt.raise e }) hw
      fun w => { w with phase := .returned }
    rw [halt, State.crew, hlist, hset]
    exact congrArg₂ (Crew.mk · m'.outstanding ·) hr List.map_set
  rw [hcrew]
  exact Crew.turned_halt m.crew i _ rfl

theorem halt_sum {M : Type} [AddCommMonoid M] (f : Worker σ → M) (hw : m.workers[i]? = some w)
    (hf : f { w with phase := .returned } = f w) (e : Ending) : (halt i e m).sum f = m.sum f := by
  obtain ⟨r, h1, h2⟩ := sum_modify f hw
  rw [h1, ← hf]
  exact h2 _

theorem halt_work (hw : m.workers[i]? = some w) (e : Ending) :
    (halt i e m).work = { m.work with interrupt := m.interrupt.raise e } := by
  simp only [State.work, halt_sum Worker.items hw rfl, halt_sum Worker.stats hw rfl]
  rfl

theorem push_items (w : Worker σ) (v : Vertex σ) :
    Worker.items { w with queue := w.queue.push v } = .visit v ::ₘ w.items := by
  simp only [Worker.items, Fifo.toList_push, List.map_append, ← Multiset.coe_add,
    ← Multiset.singleton_add]
  have h : (↑([v].map WorkItem.visit) : Multiset (WorkItem σ)) = {WorkItem.visit v} := rfl
  rw [h]
  abel

theorem receive_items (w : Worker σ) (x : Message σ) :
    Worker.items { w with inbox := w.inbox.push x } = x.item ::ₘ w.items := by
  simp only [Worker.items, Fifo.toList_push, List.map_append, ← Multiset.coe_add,
    ← Multiset.singleton_add]
  have h : (↑([x].map Message.item) : Multiset (WorkItem σ)) = {x.item} := rfl
  rw [h]
  abel

theorem accept_move (hw : m.workers[i]? = some w) (source : Option (Vertex σ))
    (next : Successor σ) :
    Work.Move sys l { m.work with items := .arrival source next ::ₘ m.work.items }
      (accept sys l i source next m).work := by
  have hmove : Work.Move sys l { m.work with items := .arrival source next ::ₘ m.work.items }
      (m.work.offered m.work.items (l.offer sys i source next m.store m.observation)) :=
    .arrival i rfl
  refine hmove.trans_eq ?_
  unfold accept
  cases l.offer sys i source next m.store m.observation with
  | expand v store o =>
    have hi := modifyWorker_items_cons (g := fun w => { w with queue := w.queue.push v }) hw
      (push_items w v)
    have hs : (m.modifyWorker i fun w => { w with queue := w.queue.push v }).sum Worker.stats =
        m.sum Worker.stats := modifyWorker_sum hw rfl
    exact congrArg₂ (Work.mk store o · · m.interrupt) hi hs
  | skip store o => rfl
  | halt e store o => exact halt_work (m := { m with store, observation := o }) hw e

theorem accept_turned (hw : m.workers[i]? = some w) (source : Option (Vertex σ))
    (next : Successor σ) : m.crew.Turned (accept sys l i source next m).crew := by
  unfold accept
  cases l.offer sys i source next m.store m.observation with
  | expand v store o =>
    refine modifyWorker_turned hw rfl (.inl rfl) ?_
    simp only [Duty.due, Worker.duty, Worker.held, Fifo.toList_push, List.length_append, List.length_singleton]
    omega
  | skip store o => exact .refl m.crew
  | halt e store o =>
    have hw' : ({ m with store, observation := o } : State σ ω).workers[i]? = some w := hw
    exact halt_turned hw' (fun _ => rfl) e

theorem accept_potential (hw : m.workers[i]? = some w) (source : Option (Vertex σ))
    (next : Successor σ) (degree allowance : Nat) :
    (accept sys l i source next m).potential degree allowance = m.potential degree allowance := by
  unfold accept
  cases l.offer sys i source next m.store m.observation with
  | expand v store o =>
    exact potential_congr
      (modifyWorker_sum (g := fun w => { w with queue := w.queue.push v }) hw rfl)
      (modifyWorker_sum (g := fun w => { w with queue := w.queue.push v }) hw rfl) _ _
  | skip store o => rfl
  | halt e store o =>
    exact potential_congr (m := m)
      (halt_sum (m := { m with store, observation := o }) Worker.stats hw rfl e)
      (halt_sum (m := { m with store, observation := o }) Worker.cost hw rfl e) _ _

theorem exists_owner (sys : System σ) (hpos : 0 < m.workers.size) (s : σ) :
    ∃ w, m.workers[m.owner sys s]? = some w :=
  ⟨_, Array.getElem?_eq_getElem (Nat.mod_lt _ hpos)⟩

theorem send_turned (hpos : 0 < m.workers.size) (x : Message σ) :
    m.crew.Turned (send sys x m).crew := by
  obtain ⟨w, hw⟩ := exists_owner sys hpos x.next.1
  refine modifyWorker_turned hw rfl (.inl rfl) ?_
  simp only [Duty.due, Worker.duty, Worker.held, Fifo.toList_push, List.length_append, List.length_singleton]
  omega

theorem send_work (hpos : 0 < m.workers.size) (x : Message σ) :
    (send sys x m).work = { m.work with items := x.item ::ₘ m.work.items } := by
  obtain ⟨w, hw⟩ := exists_owner sys hpos x.next.1
  have hi := modifyWorker_items_cons (g := fun w => { w with inbox := w.inbox.push x }) hw
    (receive_items w x)
  have hs : (m.modifyWorker (m.owner sys x.next.1)
      fun w => { w with inbox := w.inbox.push x }).sum Worker.stats = m.sum Worker.stats :=
    modifyWorker_sum hw rfl
  exact congrArg₂ (Work.mk m.store m.observation · · m.interrupt) hi hs

theorem send_potential (hpos : 0 < m.workers.size) (x : Message σ) (degree allowance : Nat) :
    (send sys x m).potential degree allowance = m.potential degree allowance + 1 := by
  obtain ⟨w, hw⟩ := exists_owner sys hpos x.next.1
  have hs : (send sys x m).sum Worker.stats = m.sum Worker.stats := by
    rw [← modifyWorker_sum (g := fun w => { w with inbox := w.inbox.push x }) hw rfl]
    rfl
  obtain ⟨r, h1, h2⟩ := sum_modify Worker.cost hw
  have h2 : (send sys x m).sum Worker.cost = _ := h2 fun w => { w with inbox := w.inbox.push x }
  unfold State.potential
  rw [hs, h1, h2]
  simp only [Worker.cost, Fifo.toList_push, List.length_append, List.length_singleton]
  omega

/-- A step that does some of the work. -/
structure Productive (sys : System σ) (l : Listener σ ω) (allowance : Nat) (m m' : State σ ω) :
    Prop where
  turn : Work.Turn sys l m.work m'.work
  turned : m.crew.Turned m'.crew
  held : 0 < m.crew.sum Duty.held
  potential : m'.work.stats.states ≤ allowance →
    m'.potential sys.degree allowance < m.potential sys.degree allowance

theorem held_le_sum (hw : m.workers[i]? = some w) : w.held ≤ m.crew.sum Duty.held :=
  Crew.le_sum Duty.held (List.mem_of_getElem? (getElem?_duties hw))

theorem work_eq_cons {g : Worker σ → Worker σ} (hw : m.workers[i]? = some w) {x : WorkItem σ}
    (hi : w.items = x ::ₘ (g w).items) (hs : (g w).stats = w.stats) :
    m.work = { (m.modifyWorker i g).work with
      items := x ::ₘ (m.modifyWorker i g).work.items } := by
  have hs : (m.modifyWorker i g).sum Worker.stats = m.sum Worker.stats := modifyWorker_sum hw hs
  exact congrArg₂ (Work.mk m.store m.observation · · m.interrupt) (items_eq_cons hw hi) hs.symm

theorem modifyWorker_potential {g : Worker σ → Worker σ} {n : Nat} (hw : m.workers[i]? = some w)
    (hs : (g w).stats = w.stats) (hc : w.cost = (g w).cost + n) (degree allowance : Nat) :
    m.potential degree allowance = (m.modifyWorker i g).potential degree allowance + n := by
  have hs : (m.modifyWorker i g).sum Worker.stats = m.sum Worker.stats := modifyWorker_sum hw hs
  obtain ⟨r, h1, h2⟩ := sum_modify Worker.cost hw
  unfold State.potential
  rw [hs, h1, h2, hc]
  omega

section
variable {v : Vertex σ} {rest : List (Successor σ)}

theorem edges_some (h : w.current = some (v, rest)) :
    w.edges = ↑(rest.map (WorkItem.arrival (some v))) := by
  simp only [Worker.edges, h]

theorem held_some (h : w.current = some (v, rest)) :
    w.held = w.inbox.toList.length + w.queue.toList.length + 1 := by
  simp only [Worker.held, h]

theorem cost_some (h : w.current = some (v, rest)) :
    w.cost = w.inbox.toList.length + (2 * rest.length + 1) := by
  simp only [Worker.cost, h]

end

/-- A worker deals with an edge of the state that it expands. -/
theorem distribute_productive {allowance : Nat} {v : Vertex σ} {next : Successor σ}
    {rest : List (Successor σ)} (hw : m.workers[i]? = some w)
    (hc : w.current = some (v, next :: rest)) :
    Productive sys l allowance m (distribute sys l i v next
      (m.modifyWorker i fun w => { w with current := some (v, rest) })) := by
  have hw' := getElem?_modifyWorker hw fun w => { w with current := some (v, rest) }
  have hsize : 0 < (m.modifyWorker i fun w => { w with current := some (v, rest) }).workers.size :=
    Nat.zero_lt_of_lt (Array.getElem?_eq_some_iff.1 hw').1
  have hdue : (Worker.duty { w with current := some (v, rest) }).due = w.duty.due := by
    rw [Duty.due, Duty.due, Worker.duty, Worker.duty, held_some hc, held_some rfl]
  have hturned : m.crew.Turned
      (m.modifyWorker i fun w => { w with current := some (v, rest) }).crew :=
    modifyWorker_turned (n := 0) hw rfl (.inl rfl) hdue
  have hheld : 0 < m.crew.sum Duty.held := by
    have h := held_le_sum hw
    rw [held_some hc] at h
    omega
  -- an edge costs two steps, as its message may have to be received by another worker
  have hcost : w.cost = Worker.cost { w with current := some (v, rest) } + 2 := by
    simp only [Worker.cost, hc, List.length_cons]
    omega
  have hpot := modifyWorker_potential (n := 2) (g := fun w => { w with current := some (v, rest) })
    hw rfl hcost sys.degree allowance
  have hitems : w.items = .arrival (some v) next ::ₘ
      Worker.items { w with current := some (v, rest) } := by
    rw [Worker.items, Worker.items, edges_some hc, edges_some rfl, List.map_cons,
      ← Multiset.cons_coe, Multiset.add_cons, Multiset.add_cons]
  have hwork := work_eq_cons (g := fun w => { w with current := some (v, rest) }) hw hitems rfl
  unfold distribute
  split
  · refine ⟨.move ?_, hturned.trans (accept_turned hw' _ _), hheld, fun _ => ?_⟩
    · rw [hwork]
      exact accept_move hw' _ _
    · rw [accept_potential hw', hpot]
      omega
  · refine ⟨?_, hturned.trans (send_turned hsize _), hheld, fun _ => ?_⟩
    · rw [send_work hsize, hwork]
      exact .rest _
    · rw [send_potential hsize, hpot]
      omega

theorem finish_productive {allowance : Nat} {v : Vertex σ} (hw : m.workers[i]? = some w)
    (hc : w.current = some (v, [])) (hp : w.phase = .working) :
    Productive sys l allowance m
      (m.modifyWorker i fun w => { w with current := none, finished := w.finished + 1 }) := by
  refine ⟨?_, ?_, ?_, fun _ => ?_⟩
  · have hi : (m.modifyWorker i fun w => { w with current := none, finished := w.finished + 1 }).sum
        Worker.items = m.sum Worker.items := by
      refine modifyWorker_sum hw ?_
      rw [Worker.items, Worker.items, edges_some hc]
      rfl
    have hs : (m.modifyWorker i fun w => { w with current := none, finished := w.finished + 1 }).sum
        Worker.stats = m.sum Worker.stats := modifyWorker_sum hw rfl
    rw [State.work, State.work, hi, hs]
    exact .rest _
  · refine modifyWorker_turned (n := 0) hw rfl (.inr hp) ?_
    rw [Duty.due, Duty.due, Worker.duty, Worker.duty, held_some hc]
    simp only [Worker.held]
    omega
  · have h := held_le_sum hw
    rw [held_some hc] at h
    omega
  · rw [modifyWorker_potential (n := 1)
      (g := fun w => { w with current := none, finished := w.finished + 1 }) hw rfl
      (by rw [cost_some hc]; simp only [Worker.cost]; rfl)]
    omega

theorem receive_productive {allowance : Nat} {x : Message σ} {inbox : Fifo (Message σ)}
    (hw : m.workers[i]? = some w) (hx : w.inbox.pop? = some (x, inbox)) (hp : w.phase = .working) :
    Productive sys l allowance m (accept sys l i x.source x.next
      (m.modifyWorker i fun w => { w with inbox, finished := w.finished + 1 })) := by
  have hlist := Fifo.toList_of_pop? hx
  have hw' := getElem?_modifyWorker hw fun w => { w with inbox, finished := w.finished + 1 }
  have hturned : m.crew.Turned
      (m.modifyWorker i fun w => { w with inbox, finished := w.finished + 1 }).crew := by
    refine modifyWorker_turned (n := 0) hw rfl (.inr hp) ?_
    simp only [Duty.due, Worker.duty, Worker.held, hlist, List.length_cons]
    omega
  -- a message is an item from when it is sent; taking it out makes the move
  have hitems : w.items = x.item ::ₘ
      Worker.items { w with inbox, finished := w.finished + 1 } := by
    simp only [Worker.items, hlist, List.map_cons, ← Multiset.cons_coe, Multiset.cons_add]
    rfl
  refine ⟨.move ?_, hturned.trans (accept_turned hw' _ _), ?_, fun _ => ?_⟩
  · rw [work_eq_cons (g := fun w => { w with inbox, finished := w.finished + 1 }) hw hitems rfl]
    exact accept_move hw' _ _
  · have h := held_le_sum hw
    rw [Worker.held, hlist, List.length_cons] at h
    omega
  · rw [accept_potential hw', modifyWorker_potential (n := 1)
      (g := fun w => { w with inbox, finished := w.finished + 1 }) hw rfl
      (by simp only [Worker.cost, hlist, List.length_cons]; omega)]
    omega

theorem modify_modify {α : Type} (xs : Array α) (i : Nat) (f g : α → α) :
    (xs.modify i f).modify i g = xs.modify i fun a => g (f a) := by
  apply Array.toList_inj.1
  simp only [Array.toList_modify, List.modify_modify_eq]
  rfl

theorem begin_potential {g : Worker σ → Worker σ} {degree allowance : Nat}
    (hw : m.workers[i]? = some w) (hs : (g w).stats.states = w.stats.states + 1)
    (hc : (g w).cost ≤ w.cost + (2 * degree + 1))
    (ha : ((m.modifyWorker i g).sum Worker.stats).states ≤ allowance) :
    (m.modifyWorker i g).potential degree allowance < m.potential degree allowance := by
  obtain ⟨r, h1, h2⟩ := sum_modify Worker.stats hw
  obtain ⟨r', h1', h2'⟩ := sum_modify Worker.cost hw
  unfold State.potential
  rw [h2, SearchStats.add_states, hs] at ha
  rw [h1, h2, h1', h2', SearchStats.add_states, SearchStats.add_states, hs]
  -- the state that is used up pays for all its edges and for its end
  obtain ⟨k, hk⟩ := Nat.exists_eq_add_of_le ha
  have e1 : allowance - (w.stats.states + 1 + r.states) = k := by omega
  have e2 : allowance - (w.stats.states + r.states) = k + 1 := by omega
  rw [e1, e2, Nat.add_one_mul k]
  omega

theorem expand_eq (l : Listener σ ω) (i : Nat) (v : Vertex σ) (queue : Fifo (Vertex σ))
    (stats : SearchStats) (m : State σ ω) :
    expand l i v stats (m.modifyWorker i fun w => { w with queue }) =
      match l.expand i m.store v {} m.observation with
      | (none, more, o) => halt i .terminated (State.modifyWorker { m with observation := o } i
          fun w => { w with queue, stats := stats + more })
      | (some next, more, o) => State.modifyWorker { m with observation := o } i
          fun w => { w with queue, stats := stats + more, current := some (v, next) } := by
  have hexp := l.expand_stats i m.store v stats m.observation
  change l.expand i (m.modifyWorker i fun w => { w with queue }).store v stats
    (m.modifyWorker i fun w => { w with queue }).observation = _ at hexp
  unfold expand
  rw [hexp]
  rcases l.expand i m.store v {} m.observation with ⟨next, more, o⟩
  cases next with
  | none => simp only [State.modifyWorker, modify_modify]
  | some next => simp only [State.modifyWorker, modify_modify]

/-- A worker takes a state off its queue and begins its expansion. -/
theorem expand_productive {allowance : Nat} {v : Vertex σ} {queue : Fifo (Vertex σ)}
    (hd : ∀ s v o, (l.successors i s v o).1.length ≤ sys.degree)
    (hw : m.workers[i]? = some w) (hx : w.queue.pop? = some (v, queue)) (hc : w.current = none) :
    Productive sys l allowance m
      (expand l i v w.stats (m.modifyWorker i fun w => { w with queue })) := by
  have hlist := Fifo.toList_of_pop? hx
  have hheld : 0 < m.crew.sum Duty.held := by
    have h := held_le_sum hw
    rw [Worker.held, hlist, List.length_cons] at h
    omega
  have hitems : w.items = .visit v ::ₘ Worker.items { w with queue } := by
    simp only [Worker.items, hlist, List.map_cons, ← Multiset.cons_coe, Multiset.cons_add,
      Multiset.add_cons]
    rfl
  have hmove : Work.Move sys l m.work (m.work.visited v
      ((m.modifyWorker i fun w => { w with queue }).sum Worker.items)
      (l.expand i m.store v {} m.observation)) :=
    .visit i (items_eq_cons (g := fun w => { w with queue }) hw hitems)
  obtain ⟨hone, hnext⟩ := l.expand_next i m.store v m.observation
  rw [expand_eq]
  rcases hexp : l.expand i m.store v {} m.observation with ⟨next, stats, o⟩
  rw [hexp] at hmove hone hnext
  have hone : stats.states = 1 := hone
  obtain ⟨ri, -, hi⟩ := sum_modify Worker.items hw
  obtain ⟨rs, hs, hs'⟩ := sum_modify Worker.stats hw
  cases next with
  | none =>
    have hw' := getElem?_modifyWorker (m := { m with observation := o }) hw
      fun x => { x with queue, stats := w.stats + stats }
    refine ⟨.move (hmove.trans_eq ?_), ?_, hheld, fun ha => ?_⟩
    · rw [halt_work hw']
      refine congrArg₂ (Work.mk m.store o · · (m.interrupt.raise .terminated)) ?_ ?_
      · exact (hi fun x => { x with queue, stats := w.stats + stats }).trans
          (hi fun x => { x with queue }).symm
      · refine (hs' fun x => { x with queue, stats := w.stats + stats }).trans ?_
        rw [add_right_comm, ← hs]
        rfl
    · refine halt_turned hw' (fun x => ?_) _
      rw [toList_modifyWorker (m := { m with observation := o }) hw, List.set_set]
    · rw [potential_congr (halt_sum Worker.stats hw' rfl _) (halt_sum Worker.cost hw' rfl _)]
      rw [halt_work hw'] at ha
      refine begin_potential (m := m) (g := fun x => { x with queue, stats := w.stats + stats }) hw
        (congrArg (w.stats.states + ·) hone) ?_ ha
      exact Nat.le_add_right _ _
  | some next =>
    refine ⟨.move (hmove.trans_eq ?_), ?_, hheld, fun ha => ?_⟩
    · refine congrArg₂ (Work.mk m.store o · · m.interrupt) ?_ ?_
      · rw [hi fun x => { x with queue }]
        refine (hi fun x =>
          { x with queue, stats := w.stats + stats, current := some (v, next) }).trans ?_
        simp only [Worker.items, Worker.edges, hc]
        abel
      · refine (hs' fun x =>
          { x with queue, stats := w.stats + stats, current := some (v, next) }).trans ?_
        rw [add_right_comm, ← hs]
        rfl
    · refine modifyWorker_turned (n := 0) hw rfl (.inl rfl) ?_
      simp only [Duty.due, Worker.duty, Worker.held, hc, hlist, List.length_cons]
      omega
    · refine begin_potential (m := m)
        (g := fun x => { x with queue, stats := w.stats + stats, current := some (v, next) }) hw
        (congrArg (w.stats.states + ·) hone) ?_ ha
      have hlen : next.length ≤ sys.degree := by
        rw [hnext next rfl]
        exact hd _ _ _
      simp only [Worker.cost, hc]
      omega

end ModelChecker.Partitioned
