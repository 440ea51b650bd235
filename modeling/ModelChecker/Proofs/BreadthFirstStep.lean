import Mathlib.Algebra.BigOperators.Group.List.Basic
import Mathlib.Tactic.Abel
import ModelChecker.Search.BreadthFirst
import ModelChecker.Proofs.ChunkedQueue
import ModelChecker.Proofs.Work

namespace ModelChecker.BreadthFirst

variable {σ ω : Type}

/-- The edges of a state that is being expanded. -/
def Expansion.items (x : Expansion σ) : Multiset (WorkItem σ) :=
  ↑(x.met.toList.map fun y => WorkItem.met (some x.source) y.target y.flags y.isNew) +
    ↑(x.rest.map (WorkItem.arrival (some x.source)))

theorem Expansion.items_met (v : Vertex σ) (y : Meeting σ) (rest : List (Successor σ)) :
    (⟨v, some y, rest⟩ : Expansion σ).items =
      .met (some v) y.target y.flags y.isNew ::ₘ (⟨v, none, rest⟩ : Expansion σ).items := rfl

theorem Expansion.items_arrival (v : Vertex σ) (next : Successor σ) (rest : List (Successor σ)) :
    (⟨v, none, next :: rest⟩ : Expansion σ).items =
      .arrival (some v) next ::ₘ (⟨v, none, rest⟩ : Expansion σ).items := rfl

def Worker.edges (w : Worker σ) : Multiset (WorkItem σ) :=
  match w.current with
  | some x => x.items
  | none => 0

/-- One while a state is being expanded. -/
def Worker.busy (w : Worker σ) : Nat :=
  match w.current with
  | some _ => 1
  | none => 0

def Worker.items (w : Worker σ) : Multiset (WorkItem σ) :=
  ↑((w.buffer.incoming ++ w.buffer.outgoing).map WorkItem.visit) + w.edges

def Worker.due (w : Worker σ) : Nat :=
  w.buffer.incoming.length + w.buffer.outgoing.length + w.busy + w.buffer.finished

/-- The steps that end an expansion: two for each edge. -/
def Expansion.cost (x : Expansion σ) : Nat :=
  2 * x.rest.length + x.met.toList.length + 1

def Worker.cost (w : Worker σ) : Nat :=
  match w.current with
  | some x => x.cost
  | none => 0

def view (m : State σ ω) (w : Worker σ) : QueueView (Vertex σ) := ⟨m.queue, w.buffer⟩

/-- The work of a search whose workers are those listed, in any order. -/
def workOf (m : State σ ω) (ws : List (Worker σ)) : Work σ ω where
  store := m.store
  observation := m.observation
  items := ↑(m.queue.chunks.flatten.map WorkItem.visit) + (ws.map Worker.items).sum
  stats := (ws.map Worker.stats).sum
  interrupt := m.interrupt

/-- All that the pending count has to cover. -/
def totalOf (m : State σ ω) (ws : List (Worker σ)) : Nat :=
  m.queue.chunks.flatten.length + (ws.map Worker.due).sum

/-- What is left of the allowance: beginning and ending an expansion, and its edges. -/
def potential (degree allowance : Nat) (ws : List (Worker σ)) : Nat :=
  (allowance - (ws.map Worker.stats).sum.states) * (2 * degree + 2) + (ws.map Worker.cost).sum

variable {sys : System σ} {l : Listener σ ω} {m m' : State σ ω} {w w' : Worker σ}
  {others : List (Worker σ)}

theorem workOf_perm {ws ws' : List (Worker σ)} (h : ws.Perm ws') :
    workOf m ws = workOf m ws' := by
  unfold workOf
  rw [(h.map Worker.items).sum_eq, (h.map Worker.stats).sum_eq]

theorem totalOf_perm {ws ws' : List (Worker σ)} (h : ws.Perm ws') :
    totalOf m ws = totalOf m ws' := by
  unfold totalOf
  rw [(h.map Worker.due).sum_eq]

theorem potential_perm {degree allowance : Nat} {ws ws' : List (Worker σ)} (h : ws.Perm ws') :
    potential degree allowance ws = potential degree allowance ws' := by
  unfold potential
  rw [(h.map Worker.stats).sum_eq, (h.map Worker.cost).sum_eq]

theorem workOf_items (m : State σ ω) (w : Worker σ) (others : List (Worker σ)) :
    (workOf m (w :: others)).items =
      ↑((view m w).contents.map WorkItem.visit) + (w.edges + (others.map Worker.items).sum) := by
  simp only [workOf, List.map_cons, List.sum_cons, Worker.items, view, QueueView.contents,
    List.map_append, ← Multiset.coe_add]
  abel

theorem totalOf_cons (m : State σ ω) (w : Worker σ) (others : List (Worker σ)) :
    totalOf m (w :: others) =
      (view m w).contents.length + w.busy + (others.map Worker.due).sum + w.buffer.finished := by
  simp only [totalOf, List.map_cons, List.sum_cons, Worker.due, view, QueueView.contents,
    List.length_append]
  omega

/-- The pending count covers the items that there are and the expansions that go on, where the
worker counts as expanding `busy` states. -/
def Balanced (busy : Nat) (m : State σ ω) (w : Worker σ) (others : List (Worker σ)) : Prop :=
  (view m w).owed = .ofNat ((view m w).contents.length + busy + (others.map Worker.due).sum)

theorem balanced_iff :
    Balanced w.busy m w others ↔ m.queue.pending = .ofNat (totalOf m (w :: others)) := by
  have h : ∀ x y z : UInt64, x - z = y ↔ x = y + z := by
    intro x y z
    constructor
    · intro hx; grind
    · intro hx; grind
  rw [totalOf_cons, UInt64.ofNat_add]
  exact h _ _ _

theorem owed_sub_one {x : UInt64} {a b : Nat} (h : x = .ofNat (a + 1 + b)) :
    x - 1 = .ofNat (a + 0 + b) := by
  have hx : ∀ y z : UInt64, y + 1 + z - 1 = y + z := by grind
  rw [h, Nat.add_zero, UInt64.ofNat_add, UInt64.ofNat_add, UInt64.ofNat_add]
  exact hx _ _

/-- What holds between the steps of the workers. -/
structure Tidy (m : State σ ω) (ws : List (Worker σ)) : Prop where
  dense : ∀ c ∈ m.queue.chunks, c ≠ []
  pending : m.queue.pending = .ofNat (totalOf m ws)
  idle : ∀ w ∈ ws, w.stopped = true → w.current = none
  noticed : ∀ w ∈ ws, w.stopped = true → m.interrupt.raised = true ∨ totalOf m ws = 0
  counted : ∀ w ∈ ws, w.busy + w.buffer.finished ≤ w.stats.states

theorem Tidy.perm {ws ws' : List (Worker σ)} (h : Tidy m ws) (hp : ws.Perm ws') : Tidy m ws' where
  dense := h.dense
  pending := totalOf_perm hp ▸ h.pending
  idle w hw := h.idle w (hp.mem_iff.2 hw)
  noticed w hw := totalOf_perm hp ▸ h.noticed w (hp.mem_iff.2 hw)
  counted w hw := h.counted w (hp.mem_iff.2 hw)

/-- A step of one worker that does some of the work. -/
structure Productive (sys : System σ) (l : Listener σ ω) (allowance : Nat)
    (others : List (Worker σ)) (m : State σ ω) (w : Worker σ) (r : State σ ω × Worker σ) :
    Prop where
  turn : Work.Turn sys l (workOf m (w :: others)) (workOf r.1 (r.2 :: others))
  pos : 0 < totalOf m (w :: others)
  dense : (view r.1 r.2).Dense
  balanced : Balanced r.2.busy r.1 r.2 others
  raised : m.interrupt.raised = true → r.1.interrupt.raised = true
  stopped : r.2.stopped = true → r.2.current = none ∧ r.1.interrupt.raised = true
  counted : w.busy + w.buffer.finished ≤ w.stats.states →
    r.2.busy + r.2.buffer.finished ≤ r.2.stats.states
  potential : (workOf r.1 (r.2 :: others)).stats.states ≤ allowance →
    potential sys.degree allowance (r.2 :: others) < potential sys.degree allowance (w :: others)

theorem raise_raised (i : Interrupt) (e : Ending) : (i.raise e).raised = true := by
  cases e <;> rfl

theorem halt_view (e : Ending) (w : Worker σ) (m : State σ ω) :
    view (halt e w m).1 (halt e w m).2 = (view m w).markDone.flush := rfl

theorem halt_balanced (e : Ending) (h : Balanced 1 m w others) :
    Balanced 0 (halt e w m).1 (halt e w m).2 others := by
  unfold Balanced
  rw [halt_view, QueueView.contents_flush, QueueView.contents_markDone, QueueView.owed_flush,
    QueueView.owed_markDone]
  exact owed_sub_one h

theorem workOf_eq {x : Work σ ω} (hs : m.store = x.store) (ho : m.observation = x.observation)
    (hi : ↑((view m w).contents.map WorkItem.visit) + (w.edges + (others.map Worker.items).sum) =
      x.items)
    (hst : w.stats + (others.map Worker.stats).sum = x.stats) (hint : m.interrupt = x.interrupt) :
    workOf m (w :: others) = x := by
  obtain ⟨store, o, items, stats, interrupt⟩ := x
  have hitems := (workOf_items m w others).trans hi
  unfold workOf at hitems ⊢
  simp only [List.map_cons, List.sum_cons] at hitems hst ⊢
  rw [hitems, hs, ho, hst, hint]

theorem halt_work (e : Ending) (w : Worker σ) (m : State σ ω) (others : List (Worker σ)) :
    workOf (halt e w m).1 ((halt e w m).2 :: others) =
      { workOf m (w :: others) with
        items := ↑((view m w).contents.map WorkItem.visit) + (others.map Worker.items).sum
        interrupt := m.interrupt.raise e } := by
  refine workOf_eq rfl rfl ?_ ?_ rfl
  · have he : (halt e w m).2.edges = 0 := rfl
    rw [halt_view, QueueView.contents_flush, QueueView.contents_markDone, he, zero_add]
  · simp [workOf, halt]

theorem halt_cost (e : Ending) (w : Worker σ) (m : State σ ω) : (halt e w m).2.cost = 0 := rfl

theorem edges_some {x : Expansion σ} (h : w.current = some x) : w.edges = x.items := by
  simp only [Worker.edges, h]

theorem busy_some {x : Expansion σ} (h : w.current = some x) : w.busy = 1 := by
  simp only [Worker.busy, h]

theorem cost_some {x : Expansion σ} (h : w.current = some x) : w.cost = x.cost := by
  simp only [Worker.cost, h]

theorem workOf_items_cons {x : Expansion σ} {y : WorkItem σ} {rest : Multiset (WorkItem σ)}
    (hc : w.current = some x) (hx : x.items = y ::ₘ rest) :
    (workOf m (w :: others)).items = y ::ₘ
      (↑((view m w).contents.map WorkItem.visit) + (rest + (others.map Worker.items).sum)) := by
  rw [workOf_items, edges_some hc, hx, Multiset.cons_add, Multiset.add_cons]

theorem totalOf_pos (h : 0 < (view m w).contents.length + w.busy) :
    0 < totalOf m (w :: others) := by
  rw [totalOf_cons]
  omega

theorem potential_lt {degree allowance : Nat} (hs : w'.stats = w.stats) (hc : w'.cost < w.cost) :
    potential degree allowance (w' :: others) < potential degree allowance (w :: others) := by
  simp only [potential, List.map_cons, List.sum_cons, hs]
  omega

/-- A worker that halts drops the edges that are left of its state. -/
theorem halt_productive {allowance : Nat} {x : Expansion σ} {rest : Multiset (WorkItem σ)}
    {e : Ending} {o : ω} (hc : w.current = some x) (hd : (view m w).Dense)
    (hb : Balanced 1 m w others)
    (hmove : Work.Move sys l (workOf m (w :: others)) { workOf m (w :: others) with
      observation := o
      items := ↑((view m w).contents.map WorkItem.visit) + (rest + (others.map Worker.items).sum)
      interrupt := m.interrupt.raise e }) :
    Productive sys l allowance others m w (halt e w { m with observation := o }) := by
  refine ⟨?_, totalOf_pos (by rw [busy_some hc]; omega), hd.markDone.flush, halt_balanced e hb,
    fun _ => raise_raised _ _, fun _ => ⟨rfl, raise_raised _ _⟩, fun _ => Nat.zero_le _,
    fun _ => potential_lt rfl (by rw [halt_cost, cost_some hc]; exact Nat.succ_pos _)⟩
  rw [halt_work]
  exact .halt hmove (raise_raised _ _) (add_le_add_right (Multiset.le_add_left _ _) _)

theorem meet_productive {allowance : Nat} {v : Vertex σ} {next : Successor σ}
    {rest : List (Successor σ)} (hc : w.current = some ⟨v, none, next :: rest⟩)
    (hst : w.stopped = false) (hd : (view m w).Dense) (hb : Balanced 1 m w others) :
    Productive sys l allowance others m w (meet sys v next rest w m) := by
  have hitems : (workOf m (w :: others)).items = _ ::ₘ _ :=
    workOf_items_cons hc (Expansion.items_arrival v next rest)
  unfold meet
  cases hs : sys.store m.store next.1 with
  | error e =>
    have hmove : Work.Move sys l _ _ := .arrival 0 hitems
    rw [Listener.offer_eq, show sys.store (workOf m (w :: others)).store next.1 = .error e from hs]
      at hmove
    exact halt_productive hc hd hb hmove
  | ok i =>
    obtain ⟨t, isNew, store⟩ := i
    have hmove : Work.Move sys l _ _ := .store hitems hs
    refine ⟨.move (hmove.trans_eq (workOf_eq rfl rfl ?_ rfl rfl)),
      totalOf_pos (by rw [busy_some hc]; omega), hd, hb, id,
      fun h => absurd (hst.symm.trans h) nofun, fun h => by rw [busy_some hc] at h; exact h,
      fun _ => potential_lt rfl ?_⟩
    · change ↑((view m w).contents.map WorkItem.visit) + (Expansion.items ⟨v, some _, rest⟩ + _) = _
      rw [Expansion.items_met, Multiset.cons_add, Multiset.add_cons]
    · rw [cost_some hc]
      exact Nat.lt_succ_self _

/-- A worker that tells of an edge does the work of that edge. -/
theorem tell_productive {allowance worker : Nat} {v : Vertex σ} {x : Meeting σ}
    {rest : List (Successor σ)} (hc : w.current = some ⟨v, some x, rest⟩)
    (hst : w.stopped = false) (hd : (view m w).Dense) (hb : Balanced 1 m w others) :
    Productive sys l allowance others m w (tell l worker v x rest w m) := by
  have hpos : 0 < totalOf m (w :: others) := totalOf_pos (by rw [busy_some hc]; omega)
  have hcost : w.cost = (⟨v, none, rest⟩ : Expansion σ).cost + 1 := cost_some hc
  have hmove : Work.Move sys l (workOf m (w :: others)) _ :=
    .tell worker (workOf_items_cons hc (Expansion.items_met v x rest))
  unfold tell
  rcases hf : l.follow worker (some v) x.target x.flags x.isNew m.observation with ⟨s, o⟩
  rw [show l.follow worker (some v) x.target x.flags x.isNew (workOf m (w :: others)).observation =
    _ from hf] at hmove
  cases s with
  | expand =>
    refine ⟨.move ?_, hpos, hd.push x.target, ?_, id, fun h => absurd (hst.symm.trans h) nofun,
      fun h => ?_, fun _ => potential_lt rfl ?_⟩
    · refine hmove.trans_eq (workOf_eq rfl rfl ?_ rfl rfl)
      change (↑(((view m w).push x.target).contents.map WorkItem.visit) :
        Multiset (WorkItem σ)) + _ = _
      rw [QueueView.contents_push, List.map_append, ← Multiset.coe_add, add_right_comm]
      exact (add_comm _ _).trans (Multiset.singleton_add _ _)
    · change ((view m w).push x.target).owed =
        .ofNat (((view m w).push x.target).contents.length + 1 + _)
      rw [QueueView.contents_push, QueueView.owed_push, hb, List.length_append,
        List.length_singleton, ← UInt64.ofNat_one, ← UInt64.ofNat_add]
      congr 1
      omega
    · change 1 + ((view m w).push x.target).buffer.finished ≤ _
      rw [QueueView.finished_push]
      exact busy_some hc ▸ h
    · rw [hcost]
      exact Nat.lt_succ_self _
  | skip =>
    refine ⟨.move (hmove.trans_eq (workOf_eq rfl rfl rfl rfl rfl)), hpos, hd, hb, id,
      fun h => absurd (hst.symm.trans h) nofun, fun h => by rw [busy_some hc] at h; exact h,
      fun _ => potential_lt rfl ?_⟩
    rw [hcost]
    exact Nat.lt_succ_self _
  | stop => exact halt_productive hc hd hb hmove

theorem finish_productive {allowance : Nat} {v : Vertex σ}
    (hc : w.current = some ⟨v, none, []⟩) (hst : w.stopped = false) (hd : (view m w).Dense)
    (hb : Balanced 1 m w others) :
    Productive sys l allowance others m w (finish w m) := by
  have hv : view (finish w m).1 (finish w m).2 = (view m w).markDone := rfl
  refine ⟨?_, totalOf_pos (by rw [busy_some hc]; omega), hd.markDone, ?_, id,
    fun h => absurd (hst.symm.trans h) nofun, fun h => ?_,
    fun _ => potential_lt rfl (by rw [cost_some hc]; exact Nat.zero_lt_one)⟩
  · -- the work is the same: a state counts as expanded from when it is taken
    have hw : workOf (finish w m).1 ((finish w m).2 :: others) = workOf m (w :: others) := by
      refine workOf_eq rfl rfl ?_ rfl rfl
      rw [workOf_items, hv, QueueView.contents_markDone, edges_some hc]
      rfl
    rw [hw]
    exact .rest _
  · change Balanced 0 _ _ _
    unfold Balanced
    rw [hv, QueueView.contents_markDone, QueueView.owed_markDone]
    exact owed_sub_one hb
  · rw [busy_some hc] at h
    have hf := (view m w).finished_markDone_le
    change 0 + (view m w).markDone.buffer.finished ≤ _
    exact (Nat.zero_add _).trans_le (hf.trans ((Nat.add_comm _ _).trans_le h))

theorem potential_begin {degree allowance : Nat}
    (hs : w'.stats.states = w.stats.states + 1) (hc : w'.cost ≤ 2 * degree + 1)
    (ha : (workOf m (w' :: others)).stats.states ≤ allowance) :
    potential degree allowance (w' :: others) < potential degree allowance (w :: others) := by
  simp only [workOf, List.map_cons, List.sum_cons, SearchStats.add_states, hs] at ha
  obtain ⟨k, hk⟩ := Nat.exists_eq_add_of_le ha
  simp only [potential, List.map_cons, List.sum_cons, SearchStats.add_states, hs]
  have h1 : allowance - (w.stats.states + 1 + (others.map Worker.stats).sum.states) = k := by omega
  have h2 : allowance - (w.stats.states + (others.map Worker.stats).sum.states) = k + 1 := by omega
  rw [h1, h2, Nat.add_mul, Nat.one_mul]
  omega

/-- A worker that takes a state off the queue begins its expansion. -/
theorem expand_productive {allowance worker : Nat} {v : Vertex σ} {q : QueueView (Vertex σ)}
    (hd : ∀ s v o, (l.successors worker s v o).1.length ≤ sys.degree)
    (hp : (view m w).pop = (some v, q)) (hc : w.current = none) (hst : w.stopped = false)
    (hdense : (view m w).Dense) (hb : Balanced 0 m w others) :
    Productive sys l allowance others m w
      (expand l worker v { w with buffer := q.buffer } { m with queue := q.queue }) := by
  have hcont := QueueView.contents_of_pop hp
  have hqd : q.Dense := by
    have h := hdense.pop
    rwa [hp] at h
  -- the state leaves the queue but is not done, so the count stands
  have hq : Balanced 1 { m with queue := q.queue } { w with buffer := q.buffer } others := by
    have h := QueueView.owed_pop (view m w)
    rw [hp, hb, hcont] at h
    unfold Balanced
    refine h.trans (congrArg UInt64.ofNat ?_)
    rw [List.length_cons]
    exact Nat.add_right_cancel_iff.2 rfl
  have hpos : 0 < totalOf m (w :: others) :=
    totalOf_pos (by rw [hcont, List.length_cons]; omega)
  have hmove : Work.Move sys l (workOf m (w :: others)) ((workOf m (w :: others)).visited v
      (↑(q.contents.map WorkItem.visit) + (others.map Worker.items).sum)
      (l.expand worker m.store v {} m.observation)) := by
    refine .visit worker ?_
    rw [workOf_items, hcont, Worker.edges, hc]
    simp only [List.map_cons, zero_add, ← Multiset.cons_coe, Multiset.cons_add]
  obtain ⟨hone, hnext⟩ := l.expand_next worker m.store v m.observation
  unfold expand
  rw [l.expand_stats]
  rcases hx : l.expand worker m.store v {} m.observation with ⟨next, stats, o⟩
  rw [hx] at hmove hone hnext
  cases next with
  | none =>
    refine ⟨.move ?_, hpos, hqd.markDone.flush, halt_balanced .terminated hq,
      fun _ => raise_raised _ _, fun _ => ⟨rfl, raise_raised _ _⟩, fun _ => Nat.zero_le _,
      fun ha => ?_⟩
    · refine hmove.trans_eq ?_
      change workOf (halt .terminated { w with buffer := q.buffer, stats := w.stats + stats }
        { m with queue := q.queue, observation := o }).1 _ = _
      rw [halt_work]
      simp only [Work.visited, workOf, List.map_cons, List.sum_cons]
      rw [add_right_comm]
      rfl
    · exact potential_begin (congrArg (w.stats.states + ·) hone) (by rw [halt_cost]; omega) ha
  | some next =>
    refine ⟨.move (hmove.trans_eq (workOf_eq rfl rfl ?_ ?_ rfl)), hpos, hqd, hq, id,
      fun h => absurd (hst.symm.trans h) nofun, fun h => ?_, fun ha => ?_⟩
    · exact add_left_comm _ _ _
    · exact add_right_comm _ _ _
    · have hf := QueueView.finished_pop (view m w)
      rw [hp] at hf
      change 1 + q.buffer.finished ≤ w.stats.states + stats.states
      have hone : stats.states = 1 := hone
      have hf : q.buffer.finished = w.buffer.finished := hf
      omega
    · refine potential_begin (congrArg (w.stats.states + ·) hone) ?_ ha
      change 2 * next.length + 1 ≤ _
      rw [hnext next rfl]
      exact Nat.succ_le_succ (Nat.mul_le_mul_left 2 (hd _ _ _))

/-- A step of one worker that finds nothing to do. -/
structure Idle (others : List (Worker σ)) (m : State σ ω) (w : Worker σ)
    (r : State σ ω × Worker σ) : Prop where
  work : workOf r.1 (r.2 :: others) = workOf m (w :: others)
  dense : (view r.1 r.2).Dense
  balanced : Balanced r.2.busy r.1 r.2 others
  contents : (view r.1 r.2).contents = (view m w).contents
  current : w.current = none ∧ r.2.current = none
  stats : r.2.stats = w.stats
  finished : r.2.buffer.finished = 0
  raised : m.interrupt.raised = true → r.2.stopped = true
  empty : m.interrupt.raised = false → (view m w).contents = []
  stopped : m.interrupt.raised = false → (r.2.stopped = true ↔ r.1.queue.pending = 0)

theorem flush_idle {q : QueueView (Vertex σ)} {stopped : Bool} (hc : w.current = none)
    (hd : q.Dense) (hcont : q.contents = (view m w).contents) (ho : q.owed = (view m w).owed)
    (hb : Balanced 0 m w others) (hr : m.interrupt.raised = true → stopped = true)
    (he : m.interrupt.raised = false → (view m w).contents = [])
    (hs : m.interrupt.raised = false → (stopped = true ↔ q.owed = 0)) :
    Idle others m w
      ({ m with queue := q.flush.queue }, { w with buffer := q.flush.buffer, stopped }) := by
  obtain ⟨-, -, hfin, hpend⟩ := q.flush_buffer
  have hv : view { m with queue := q.flush.queue } { w with buffer := q.flush.buffer, stopped } =
      q.flush := rfl
  have hbusy : Worker.busy { w with buffer := q.flush.buffer, stopped } = 0 := by
    simp only [Worker.busy, hc]
  refine ⟨workOf_eq rfl rfl ?_ rfl rfl, hd.flush, ?_,
    (QueueView.contents_flush q).trans hcont, ⟨hc, hc⟩, rfl, hfin, hr, he, ?_⟩
  · rw [workOf_items, hv, QueueView.contents_flush, hcont]
    rfl
  · rw [hbusy, Balanced, hv, QueueView.contents_flush, QueueView.owed_flush, hcont, ho]
    exact hb
  · intro h
    rw [hs h]
    exact (congrArg (· = 0) hpend).symm.to_iff

theorem take_cases {allowance worker : Nat}
    (hd : ∀ s v o, (l.successors worker s v o).1.length ≤ sys.degree) (hc : w.current = none)
    (hst : w.stopped = false) (hdense : (view m w).Dense) (hb : Balanced 0 m w others) :
    Productive sys l allowance others m w (take l worker w m) ∨
      Idle others m w (take l worker w m) := by
  unfold take
  split
  · rename_i hr
    exact .inr (flush_idle hc hdense rfl rfl hb (fun _ => rfl) (by simp [hr]) (by simp [hr]))
  · rename_i hr
    -- the queue fails to give a state only if neither it nor the buffer holds one
    rcases hp : (view m w).pop with ⟨_ | v, q⟩
    · obtain ⟨hnil, hq⟩ := QueueView.of_pop_none hdense hp
      change (view m w).pop = _ at hp
      simp only [view] at hp
      simp only [hp, QueueView.isFinished]
      have hin : q.flush.buffer.incoming = [] := by
        rw [q.flush_buffer.1, hq, QueueView.incoming_publish]
        exact (List.append_eq_nil_iff.1 (List.append_eq_nil_iff.1 hnil).1).1
      refine .inr (flush_idle hc ?_ ?_ ?_ hb (fun h => absurd h hr) (fun _ => hnil) ?_)
      · rw [hq]; exact hdense.publish
      · rw [hq]; exact QueueView.contents_publish _
      · rw [hq]; exact QueueView.owed_publish _
      · intro _
        rw [hin, q.flush_buffer.2.2.2]
        simp
    · have h : Productive sys l allowance others m w
          (expand l worker v { w with buffer := q.buffer } { m with queue := q.queue }) :=
        expand_productive hd hp hc hst hdense hb
      simp only [view] at hp
      simp only [hp]
      exact .inl h

theorem stepWorker_cases (allowance : Nat) {worker : Nat}
    (hd : ∀ s v o, (l.successors worker s v o).1.length ≤ sys.degree) (hst : w.stopped = false)
    (h : Tidy m (w :: others)) :
    Productive sys l allowance others m w (stepWorker sys l worker w m) ∨
      Idle others m w (stepWorker sys l worker w m) := by
  have hb := balanced_iff.2 h.pending
  unfold stepWorker
  split
  · rename_i v x rest hc
    rw [busy_some hc] at hb
    exact .inl (tell_productive hc hst h.dense hb)
  · rename_i v next rest hc
    rw [busy_some hc] at hb
    exact .inl (meet_productive hc hst h.dense hb)
  · rename_i v hc
    rw [busy_some hc] at hb
    exact .inl (finish_productive hc hst h.dense hb)
  · rename_i hc
    rw [Worker.busy, hc] at hb
    exact take_cases hd hc hst h.dense hb

theorem Tidy.totalOf_le {ws : List (Worker σ)} (h : Tidy m ws) :
    totalOf m ws ≤ (workOf m ws).admitted := by
  have harr : ∀ w : Worker σ, w.edges.countP (·.isVisit) = 0 := by
    intro w
    cases hc : w.current with
    | none => simp only [Worker.edges, hc, Multiset.countP_zero]
    | some c =>
      rw [edges_some hc, Expansion.items, Multiset.countP_add, Work.countP_arrivals,
        Work.countP_map_eq_zero _ fun _ => rfl]
  -- states that are being expanded, or were and are not yet told, are among the counted ones
  have hsum : ∀ ws : List (Worker σ), (∀ w ∈ ws, w.busy + w.buffer.finished ≤ w.stats.states) →
      (ws.map Worker.due).sum ≤
        (ws.map Worker.stats).sum.states + (ws.map Worker.items).sum.countP (·.isVisit) := by
    intro ws hws
    induction ws with
    | nil => exact Nat.le_refl _
    | cons w rest ih =>
      have hw := hws w List.mem_cons_self
      have hr := ih fun w hm => hws w (List.mem_cons_of_mem _ hm)
      simp only [List.map_cons, List.sum_cons, SearchStats.add_states, Multiset.countP_add,
        Worker.items, Work.countP_visits, harr, List.length_append, Worker.due]
      omega
  have hw := hsum ws h.counted
  simp only [totalOf, Work.admitted, workOf, Multiset.countP_add, Work.countP_visits]
  omega

theorem Productive.tidy {allowance : Nat} {r : State σ ω × Worker σ}
    (hr : Productive sys l allowance others m w r) (h : Tidy m (w :: others)) :
    Tidy r.1 (r.2 :: others) where
  dense := hr.dense
  pending := balanced_iff.1 hr.balanced
  idle x hx := by
    rcases List.mem_cons.1 hx with rfl | hx
    · exact fun hs => (hr.stopped hs).1
    · exact h.idle x (List.mem_cons_of_mem _ hx)
  noticed x hx hs := by
    rcases List.mem_cons.1 hx with rfl | hx
    · exact .inl (hr.stopped hs).2
    · rcases h.noticed x (List.mem_cons_of_mem _ hx) hs with h | h
      · exact .inl (hr.raised h)
      · exact absurd h hr.pos.ne'
  counted x hx := by
    rcases List.mem_cons.1 hx with rfl | hx
    · exact hr.counted (h.counted w List.mem_cons_self)
    · exact h.counted x (List.mem_cons_of_mem _ hx)

theorem Idle.busy {r : State σ ω × Worker σ} (hr : Idle others m w r) :
    w.busy = 0 ∧ r.2.busy = 0 := by
  simp only [Worker.busy, hr.current.1, hr.current.2, and_self]

theorem Idle.totalOf_le {r : State σ ω × Worker σ} (hr : Idle others m w r) :
    totalOf r.1 (r.2 :: others) ≤ totalOf m (w :: others) := by
  rw [totalOf_cons, totalOf_cons, hr.contents, hr.busy.1, hr.busy.2, hr.finished]
  omega

theorem Idle.stopped_iff {r : State σ ω × Worker σ} (hr : Idle others m w r)
    (hi : m.interrupt.raised = false)
    (hlt : totalOf r.1 (r.2 :: others) < UInt64.size) :
    r.2.stopped = true ↔ totalOf r.1 (r.2 :: others) = 0 := by
  rw [hr.stopped hi, balanced_iff.1 hr.balanced]
  constructor
  · intro h
    have h := congrArg UInt64.toNat h
    rwa [UInt64.toNat_ofNat_of_lt' hlt] at h
  · intro h
    rw [h]
    rfl

theorem Idle.tidy {r : State σ ω × Worker σ} (hr : Idle others m w r) (h : Tidy m (w :: others))
    (hlt : (workOf m (w :: others)).admitted < UInt64.size) : Tidy r.1 (r.2 :: others) where
  dense := hr.dense
  pending := balanced_iff.1 hr.balanced
  idle x hx := by
    rcases List.mem_cons.1 hx with rfl | hx
    · exact fun _ => hr.current.2
    · exact h.idle x (List.mem_cons_of_mem _ hx)
  noticed x hx hs := by
    have hint : r.1.interrupt = m.interrupt := congrArg Work.interrupt hr.work
    rw [hint]
    rcases List.mem_cons.1 hx with rfl | hx
    · cases hi : m.interrupt.raised with
      | true => exact .inl rfl
      | false =>
        have hle := hr.totalOf_le.trans h.totalOf_le
        exact .inr ((hr.stopped_iff hi (hle.trans_lt hlt)).1 hs)
    · refine (h.noticed x (List.mem_cons_of_mem _ hx) hs).imp_right fun h => ?_
      exact Nat.le_zero.1 (h ▸ hr.totalOf_le)
  counted x hx := by
    rcases List.mem_cons.1 hx with rfl | hx
    · rw [hr.busy.2, hr.finished]
      exact Nat.zero_le _
    · exact h.counted x (List.mem_cons_of_mem _ hx)

end ModelChecker.BreadthFirst
