import ModelChecker.Proofs.StateSpace

namespace ModelChecker

namespace Partitioned

variable {σ ω : Type} {sys : System σ} {l : Listener σ ω} {m : State σ ω}

section record

/-- The same state, with a record of what was told. -/
def State.record (m : State σ ω) (j : Journal σ) : State σ (ω × Journal σ) :=
  ⟨m.store, (m.observation, j), m.workers, m.outstanding, m.interrupt⟩

variable (j : Journal σ)

theorem accept_record (i : Nat) (source : Option (Vertex σ)) (next : Successor σ) (m : State σ ω) :
    ∃ j', accept sys l.recorded i source next (m.record j) =
      (accept sys l i source next m).record j' := by
  rcases m with ⟨store, o, workers, outstanding, interrupt⟩
  unfold accept
  rw [Listener.offer_eq, Listener.offer_eq]
  dsimp only [State.record]
  cases sys.store store next.1 with
  | error e => exact ⟨j, rfl⟩
  | ok x =>
    obtain ⟨t, isNew, after⟩ := x
    simp only [Listener.recorded_follow]
    cases (l.follow i source t next.2 isNew o).1 with
    | expand => exact ⟨_, rfl⟩
    | skip => exact ⟨_, rfl⟩
    | stop => exact ⟨_, rfl⟩

theorem distribute_record (i : Nat) (source : Vertex σ) (next : Successor σ) (m : State σ ω) :
    ∃ j', distribute sys l.recorded i source next (m.record j) =
      (distribute sys l i source next m).record j' := by
  unfold distribute
  by_cases ho : m.owner sys next.1 = i
  · rw [if_pos ho, if_pos (show (m.record j).owner sys next.1 = i from ho)]
    exact accept_record j i (some source) next m
  · rw [if_neg ho, if_neg (show ¬ (m.record j).owner sys next.1 = i from ho)]
    exact ⟨j, rfl⟩

theorem expand_record (i : Nat) (v : Vertex σ) (stats : SearchStats) (m : State σ ω) :
    ∃ j', expand l.recorded i v stats (m.record j) = (expand l i v stats m).record j' := by
  rcases m with ⟨store, o, workers, outstanding, interrupt⟩
  unfold expand
  dsimp only [State.record]
  rw [Listener.recorded_expand]
  rcases l.expand i store v stats o with ⟨next, stats', o'⟩
  cases next with
  | none => exact ⟨_, rfl⟩
  | some next => exact ⟨_, rfl⟩

theorem work_record (i : Nat) (w : Worker σ) (m : State σ ω) :
    ∃ j', Partitioned.work sys l.recorded i w (m.record j) =
      (Partitioned.work sys l i w m).record j' := by
  unfold Partitioned.work take
  cases w.current with
  | some c =>
    obtain ⟨v, edges⟩ := c
    cases edges with
    | nil => exact ⟨j, rfl⟩
    | cons next rest =>
      exact distribute_record j i v next
        (m.modifyWorker i fun w => { w with current := some (v, rest) })
  | none =>
    cases hr : m.interrupt.raised with
    | true => exact ⟨j, by simp only [State.record, hr, if_true]; rfl⟩
    | false =>
      simp only [State.record, hr, Bool.false_eq_true, if_false]
      cases w.inbox.pop? with
      | some x =>
        obtain ⟨message, inbox⟩ := x
        exact accept_record j i message.source message.next
          (m.modifyWorker i fun w => { w with inbox, finished := w.finished + 1 })
      | none =>
        cases w.queue.pop? with
        | some x =>
          obtain ⟨v, queue⟩ := x
          exact expand_record j i v w.stats (m.modifyWorker i fun w => { w with queue })
        | none => exact ⟨j, rfl⟩

theorem step_record (i : Nat) (m : State σ ω) :
    ∃ j', step sys l.recorded i (m.record j) = (step sys l i m).record j' := by
  unfold step
  cases hw : m.workers[i]? with
  | none => exact ⟨j, by simp only [State.record, hw]⟩
  | some w =>
    simp only [show (m.record j).workers[i]? = some w from hw]
    cases w.phase with
    | working => exact work_record j i w m
    | settling => exact ⟨j, rfl⟩
    | testing => exact ⟨j, rfl⟩
    | returned => exact ⟨j, rfl⟩

theorem runSchedule_record (schedule : List Nat) (m : State σ ω) :
    ∃ j', runSchedule sys l.recorded schedule (m.record j) =
      (runSchedule sys l schedule m).record j' := by
  induction schedule generalizing j m with
  | nil => exact ⟨j, rfl⟩
  | cons i rest ih =>
    obtain ⟨j', hstep⟩ : ∃ j', step sys l.recorded i (m.record j) = (step sys l i m).record j' :=
      step_record j i m
    obtain ⟨j'', hrest⟩ := ih j' (step sys l i m)
    refine ⟨j'', ?_⟩
    rw [runSchedule, List.foldl_cons, hstep]
    exact hrest

theorem start_record (seeds : List σ) (store : Store σ) (o : ω) :
    start sys seeds store (o, j) = (start sys seeds store o).record j := by
  have hsends : ∀ m : State σ ω, seeds.foldl (fun m s => send sys ⟨none, s, {}⟩ m) (m.record j) =
      (seeds.foldl (fun m s => send sys ⟨none, s, {}⟩ m) m).record j := by
    induction seeds with
    | nil => exact fun m => rfl
    | cons s rest ih => exact fun m => ih (send sys ⟨none, s, {}⟩ m)
  exact hsends { store, observation := o, workers := .replicate store.shards.size {} }

end record

section owned

variable {n i : Nat} {mr : State σ (ω × Journal σ)} {next : Successor σ}

/-- A worker has messages and states of its own shard only. -/
structure Worker.Owns (sys : System σ) (n i : Nat) (w : Worker σ) : Prop where
  inbox : ∀ x ∈ w.inbox.toList, Store.owner n (sys.fingerprint x.next.1) = i
  queue : ∀ v ∈ w.queue.toList, Store.owner n (sys.fingerprint v.state) = i

/-- Each of `n` workers has told of edges into its own shard only, and expanded only states of it. -/
structure Owned (sys : System σ) (n : Nat) (mr : State σ (ω × Journal σ)) : Prop where
  size : mr.workers.size = n
  distinct : mr.store.Distinct sys
  owns : ∀ (i : Nat) w, mr.workers[i]? = some w → w.Owns sys n i
  told : ∀ x ∈ mr.observation.2.tellings,
    x.worker = Store.owner n (sys.fingerprint x.target.state)
  expanded : ∀ x ∈ mr.observation.2.expansions, x.1 = Store.owner n (sys.fingerprint x.2.state)

theorem Owned.modify {g : Worker σ → Worker σ} (h : Owned sys n mr)
    (hg : ∀ w, mr.workers[i]? = some w → w.Owns sys n i → (g w).Owns sys n i) :
    Owned sys n (mr.modifyWorker i g) := by
  refine ⟨Array.size_modify.trans h.size, h.distinct, fun k w hw => ?_, h.told, h.expanded⟩
  rw [State.modifyWorker, Array.getElem?_modify] at hw
  split at hw
  · rename_i hik
    subst hik
    obtain ⟨w₀, hw₀, rfl⟩ := Option.map_eq_some_iff.1 hw
    exact hg w₀ hw₀ (h.owns i w₀ hw₀)
  · exact h.owns k w hw

theorem Owned.send (h : Owned sys n mr) (x : Message σ) : Owned sys n (send sys x mr) := by
  have hcount : Owned sys n { mr with outstanding := mr.outstanding + 1 } :=
    ⟨h.size, h.distinct, h.owns, h.told, h.expanded⟩
  refine hcount.modify fun w _ hw => ⟨fun y hy => ?_, hw.queue⟩
  rw [Fifo.toList_push, List.mem_append] at hy
  rcases hy with hy | hy
  · exact hw.inbox y hy
  · rw [List.mem_singleton.1 hy, ← h.size]
    rfl

theorem Owned.halt (h : Owned sys n mr) (ending : Ending) : Owned sys n (halt i ending mr) := by
  have hraise : Owned sys n { mr with interrupt := mr.interrupt.raise ending } :=
    ⟨h.size, h.distinct, h.owns, h.told, h.expanded⟩
  exact hraise.modify fun w _ hw => ⟨hw.inbox, hw.queue⟩

/-- The owner of a state tells of an edge into it. -/
theorem Owned.accept (hx : sys.Explicit) (h : Owned sys n mr)
    (ho : Store.owner n (sys.fingerprint next.1) = i) (source : Option (Vertex σ)) :
    Owned sys n (accept sys l.recorded i source next mr) := by
  have hstored : (∃ t isNew after, sys.store mr.store next.1 = .ok ⟨t, isNew, after⟩ ∧
      t.state = next.1 ∧ after.Distinct sys) ∨ ∃ e, sys.store mr.store next.1 = .error e := by
    rcases h.distinct.store_cases hx next.1 with ⟨t, -, ht, hs⟩ | ⟨t, after, hs, ht, -, -, hd⟩ |
      ⟨-, -, -, hs⟩
    · exact .inl ⟨t, false, _, hs, ht, h.distinct⟩
    · exact .inl ⟨t, true, _, hs, ht, hd⟩
    · exact .inr ⟨_, hs⟩
  unfold Partitioned.accept
  rw [Listener.offer_eq]
  rcases mr with ⟨store, ⟨o, j⟩, workers, outstanding, interrupt⟩
  rcases hstored with ⟨t, isNew, after, hs, ht, hd⟩ | ⟨e, hs⟩
  · have htold : ∀ (o' : ω) (count : Nat),
        Owned sys n ⟨after, (o', j.tell ⟨i, source, t, next.2, isNew⟩), workers, count, interrupt⟩ := by
      refine fun o' count => ⟨h.size, hd, h.owns, fun x hx => ?_, h.expanded⟩
      rcases List.mem_cons.1 hx with rfl | hx
      · exact (ht ▸ ho).symm
      · exact h.told x hx
    simp only [hs, Listener.recorded_follow]
    cases (l.follow i source t next.2 isNew o).1 with
    | expand =>
      refine (htold _ _).modify fun w _ hw => ⟨hw.inbox, fun v hv => ?_⟩
      rw [Fifo.toList_push, List.mem_append] at hv
      rcases hv with hv | hv
      · exact hw.queue v hv
      · rw [List.mem_singleton.1 hv, ht, ho]
    | skip => exact htold _ _
    | stop => exact (htold _ _).halt _
  · simp only [hs]
    exact h.halt _

theorem Owned.distribute (hx : sys.Explicit) (h : Owned sys n mr) (source : Vertex σ)
    (next : Successor σ) : Owned sys n (distribute sys l.recorded i source next mr) := by
  unfold Partitioned.distribute
  split
  · rename_i ho
    exact h.accept hx (by rw [← ho, ← h.size]; rfl) (some source)
  · exact h.send _

theorem Owned.expand (h : Owned sys n mr) {v : Vertex σ}
    (ho : Store.owner n (sys.fingerprint v.state) = i) (stats : SearchStats) :
    Owned sys n (expand l.recorded i v stats mr) := by
  rcases mr with ⟨store, ⟨o, j⟩, workers, outstanding, interrupt⟩
  have hexpanded : ∀ o' : ω,
      Owned sys n ⟨store, (o', j.expand i v), workers, outstanding, interrupt⟩ := by
    refine fun o' => ⟨h.size, h.distinct, h.owns, h.told, fun x hx => ?_⟩
    rcases List.mem_cons.1 hx with rfl | hx
    · exact ho.symm
    · exact h.expanded x hx
  unfold Partitioned.expand
  simp only [Listener.recorded_expand]
  rcases l.expand i store v stats o with ⟨next, stats', o'⟩
  cases next with
  | none =>
    refine Owned.halt ?_ _
    exact (hexpanded o').modify fun w _ hw => ⟨hw.inbox, hw.queue⟩
  | some next => exact (hexpanded o').modify fun w _ hw => ⟨hw.inbox, hw.queue⟩

theorem Owned.work {w : Worker σ} (hx : sys.Explicit) (h : Owned sys n mr)
    (hw : mr.workers[i]? = some w) : Owned sys n (Partitioned.work sys l.recorded i w mr) := by
  unfold Partitioned.work
  split
  · rename_i v next rest hc
    refine Owned.distribute hx ?_ v next
    exact h.modify fun w _ hw => ⟨hw.inbox, hw.queue⟩
  · exact h.modify fun w _ hw => ⟨hw.inbox, hw.queue⟩
  · split
    · exact h.modify fun w _ hw => ⟨hw.inbox, hw.queue⟩
    · unfold take
      split
      · rename_i x inbox hpop
        have hin := (h.owns i w hw).inbox
        rw [Fifo.toList_of_pop? hpop] at hin
        have hrest := h.modify (i := i)
          (g := fun w => { w with inbox, finished := w.finished + 1 }) fun w _ hw =>
            ⟨fun y hy => hin y (List.mem_cons_of_mem _ hy), hw.queue⟩
        exact hrest.accept hx (hin x List.mem_cons_self) x.source
      · split
        · rename_i v queue hpop
          have hqueue := (h.owns i w hw).queue
          rw [Fifo.toList_of_pop? hpop] at hqueue
          have hrest := h.modify (i := i) (g := fun w => { w with queue }) fun w _ hw =>
            ⟨hw.inbox, fun y hy => hqueue y (List.mem_cons_of_mem _ hy)⟩
          exact hrest.expand (hqueue v List.mem_cons_self) w.stats
        · exact h.modify fun w _ hw => ⟨hw.inbox, hw.queue⟩

theorem Owned.step (hx : sys.Explicit) (h : Owned sys n mr) (i : Nat) :
    Owned sys n (step sys l.recorded i mr) := by
  unfold Partitioned.step
  split
  · exact h
  · rename_i w hw
    split
    · exact h.work hx hw
    · have hcount : Owned sys n { mr with outstanding := mr.outstanding - w.finished } :=
        ⟨h.size, h.distinct, h.owns, h.told, h.expanded⟩
      exact hcount.modify fun w _ hw => ⟨hw.inbox, hw.queue⟩
    · exact h.modify fun w _ hw => ⟨hw.inbox, hw.queue⟩
    · exact h

theorem Owned.runSchedule (hx : sys.Explicit) (h : Owned sys n mr) (schedule : List Nat) :
    Owned sys n (runSchedule sys l.recorded schedule mr) := by
  induction schedule generalizing mr with
  | nil => exact h
  | cons i rest ih => exact ih (h.step hx i)

theorem owned_start (seeds : List σ) {store : Store σ} (hd : store.Distinct sys) (o : ω) :
    Owned sys store.shards.size (start sys seeds store (o, {})) := by
  have hsends : ∀ mr : State σ (ω × Journal σ), Owned sys store.shards.size mr →
      Owned sys store.shards.size (seeds.foldl (fun m s => send sys ⟨none, s, {}⟩ m) mr) := by
    induction seeds with
    | nil => exact fun mr h => h
    | cons s rest ih => exact fun mr h => ih _ (h.send _)
  refine hsends _ ⟨Array.size_replicate, hd, fun i w hw => ?_, nofun, nofun⟩
  obtain ⟨-, rfl⟩ := Array.mem_replicate.1 (Array.mem_of_getElem? hw)
  exact ⟨nofun, nofun⟩

end owned

/-- A search of all states by `n` workers, between two steps. -/
structure Surveys (sys : System σ) (n : Nat) (m : State σ (Unit × Journal σ)) : Prop where
  tidy : m.crew.Tidy
  balanced : Work.Balanced sys (.ofShards n none) m.work
  owned : Owned sys (max n 1) m

section surveys

variable {n : Nat} {mr : State σ (Unit × Journal σ)}

theorem size_ofShards (n : Nat) (limit : Option Nat) :
    (Store.ofShards n limit : Store σ).shards.size = max n 1 :=
  Array.size_ofFn

theorem runSchedule_surveys (hx : sys.Explicit) (n : Nat) (schedule : List Nat) :
    Surveys sys n (runSchedule sys (Listener.exhaustive sys).recorded schedule
      (start sys sys.initials (.ofShards n none) ((), {}))) := by
  have hd : (Store.ofShards n none : Store σ).Distinct sys := Store.distinct_ofShards sys n none
  obtain ⟨hready, -, hwork, -⟩ :=
    start_ready sys sys.initials (.ofShards n none) (((), {}) : Unit × Journal σ) 0
  obtain ⟨htidy, hmoves⟩ := runSchedule_tidy (l := (Listener.exhaustive sys).recorded)
    (fun _ _ v _ => hx.length_successors_le v.state) schedule hready.tidy
  rw [hwork] at hmoves
  have hbal := Work.balanced_ofStates hd (Store.vertices_ofShards n none)
  have howned : Owned sys (max n 1)
      (start sys sys.initials (.ofShards n none) (((), {}) : Unit × Journal σ)) :=
    size_ofShards (σ := σ) n none ▸ owned_start sys.initials hd ()
  exact ⟨htidy, hbal.moves hx hmoves, howned.runSchedule hx schedule⟩

namespace Surveys

theorem not_raised (h : Surveys sys n mr) : mr.interrupt.raised = false := by
  cases hr : mr.interrupt.raised with
  | false => rfl
  | true =>
    -- only a full store raises an interrupt, and the store has no limit
    obtain ⟨k, hk, -⟩ := h.balanced.failure hr
    cases hk

theorem size_pos (h : Surveys sys n mr) : 0 < mr.workers.size := by
  rw [h.owned.size]
  exact Nat.le_max_right n 1

theorem exists_isOver (h : Surveys sys n mr) (hx : sys.Explicit) :
    ∃ rest, (runSchedule sys (Listener.exhaustive sys).recorded rest mr).isOver = true := by
  have hb : ∀ w, Work.Moves sys (Listener.exhaustive sys).recorded mr.work w →
      w.stats.states ≤ sys.extent := fun w hm => ((h.balanced.moves hx hm).bounded hx).1
  obtain ⟨hover, -⟩ := rounds_isOver (fun _ _ v _ => hx.length_successors_le v.state) hb
    (.inTurn mr.workers.size) (3 * mr.potential sys.degree sys.extent + 5) mr
    (Schedule.fair_inTurn _) h.tidy .refl (h.tidy.within (Nat.le_refl _))
  obtain ⟨rest, hrest⟩ : ∃ rest, _ = runSchedule sys (Listener.exhaustive sys).recorded rest mr :=
    rounds_eq_runSchedule sys _ _ (3 * mr.potential sys.degree sys.extent + 5) mr
  exact ⟨rest, hrest ▸ hover⟩

theorem items_eq (h : Surveys sys n mr) (ho : mr.isOver = true) : mr.work.items = 0 :=
  (ends_of_isOver h.tidy ho h.size_pos).done h.not_raised

end Surveys

end surveys

end Partitioned

theorem Store.Distinct.mem_shard_iff {σ : Type} {sys : System σ} {s : Store σ} (h : s.Distinct sys)
    {i : Nat} {x : σ} :
    (∃ shard, s.shards[i]? = some shard ∧ x ∈ shard.vertices.toList.map (·.state)) ↔
      x ∈ s.vertices.map (·.state) ∧ owner s.shards.size (sys.fingerprint x) = i := by
  constructor
  · rintro ⟨shard, hs, hx⟩
    obtain ⟨v, hv, rfl⟩ := List.mem_map.1 hx
    have hmem : v ∈ s.vertices := mem_vertices.2 ⟨i, shard, hs, hv⟩
    refine ⟨List.mem_map_of_mem hmem, ?_⟩
    rw [← h.fingerprint v hmem]
    exact h.filed.owned i shard hs v hv
  · rintro ⟨hx, rfl⟩
    obtain ⟨v, hmem, rfl⟩ := List.mem_map.1 hx
    obtain ⟨k, shard, hs, hv⟩ := mem_vertices.1 hmem
    have hk := h.filed.owned k shard hs v hv
    rw [h.fingerprint v hmem] at hk
    exact ⟨shard, hk ▸ hs, List.mem_map_of_mem hv⟩

namespace Journal

/-- The edge that was told of, unless it was a seed. -/
def edge? (x : Option (Vertex Node) × Successor Node) : Option Edge :=
  x.1.map fun v => ⟨v.state, x.2.1, x.2.2⟩

/-- The edges that the listeners were told of. -/
def edges (j : Journal Node) : List Edge :=
  j.tellings.filterMap fun x => edge? (x.source, x.target.state, x.flags)

theorem coe_edges (j : Journal Node) : (↑j.edges : Multiset Edge) = j.told.filterMap edge? := by
  rw [told, Multiset.filterMap_coe, List.filterMap_map]
  rfl

theorem filterMap_seedings (states : List Node) :
    (Work.seedings states).filterMap edge? = 0 := by
  rw [Work.seedings, Multiset.filterMap_coe, List.filterMap_map, Multiset.coe_eq_zero,
    List.filterMap_eq_nil_iff]
  exact fun s _ => rfl

end Journal

namespace Graph

variable {g : Graph} {ig : IndexedGraph}

theorem filterMap_edgesFrom (h : g.index = .ok ig) (v : Vertex Node) :
    (Work.edgesFrom ig.system v).filterMap Journal.edge? =
      ↑(g.edges.filter (·.source == v.state)) := by
  rw [Work.edgesFrom, index_successors h, List.map_map, Multiset.filterMap_coe, List.filterMap_map]
  congr 1
  refine Eq.trans (List.filterMap_congr fun e he => ?_) List.filterMap_some
  have hsource : e.source = v.state := by simpa using List.of_mem_filter he
  exact congrArg (fun s => some { e with source := s }) hsource.symm

theorem edges_perm_of_told (h : g.index = .ok ig) {j : Journal Node} {vs : List (Vertex Node)}
    (hnodup : (vs.map (·.state)).Nodup)
    (htold : j.told = Work.seedings g.initial +
      (↑vs : Multiset (Vertex Node)).bind (Work.edgesFrom ig.system)) :
    j.edges.Perm (g.edges.filter fun e => decide (e.source ∈ vs.map (·.state))) := by
  have hedges : (↑j.edges : Multiset Edge) =
      ↑((vs.map (·.state)).flatMap fun s => g.edges.filter (·.source == s)) := by
    rw [Journal.coe_edges, htold, Multiset.filterMap_add, Journal.filterMap_seedings, zero_add,
      Multiset.filterMap_bind, List.flatMap_map, ← Multiset.coe_bind]
    simp only [filterMap_edgesFrom h]
  exact (Multiset.coe_eq_coe.1 hedges).trans (flatMap_filter_source_perm g.edges hnodup)

open Classical in
theorem edges_perm (h : g.index = .ok ig) {j : Journal Node} {vs : List (Vertex Node)}
    (hnodup : (vs.map (·.state)).Nodup) (hreach : ∀ s, s ∈ vs.map (·.state) ↔ g.Reachable s)
    (htold : j.told = Work.seedings g.initial +
      (↑vs : Multiset (Vertex Node)).bind (Work.edgesFrom ig.system)) :
    j.edges.Perm (g.edges.filter fun e => g.Reachable e.source) := by
  refine (edges_perm_of_told h hnodup htold).trans ?_
  simp only [hreach]
  exact .refl _

open Partitioned

open Classical in
/-- A search of all states by `n` workers, after any schedule of their steps. The count is that of
the queued states, the messages under way and the work taken up but not yet taken off, so the first
worker that returns leaves nothing behind, and the workers can always go on until all have returned.
Then each shard holds the reachable states that it owns, each of them was expanded once, and each
edge out of them was told of once, by the owner of its target. -/
theorem runSchedule_exhaustive (h : g.index = .ok ig) (n : Nat) (schedule : List Nat)
    {m : Partitioned.State Node Unit}
    (hm : runSchedule ig.system (.exhaustive ig.system) schedule
      (start ig.system g.initial (.ofShards n none) ()) = m) :
    m.workers.size = max n 1 ∧ m.store.shards.size = max n 1 ∧
    m.outstanding = (m.workers.toList.map fun w => w.queue.toList.length + w.inbox.toList.length +
      (w.current.toList.length + w.finished)).sum ∧
    (∀ w ∈ m.workers, w.phase = .returned → ∀ x ∈ m.workers,
      x.inbox.toList = [] ∧ x.queue.toList = [] ∧ x.current = none) ∧
    (∃ rest, (runSchedule ig.system (.exhaustive ig.system) rest m).isOver = true) ∧
    ∃ j, runSchedule ig.system (Listener.exhaustive ig.system).recorded schedule
        (start ig.system g.initial (.ofShards n none) ((), {})) = m.record j ∧
      (∀ x ∈ j.tellings, x.worker = Store.owner (max n 1) (ig.system.fingerprint x.target.state)) ∧
      (∀ x ∈ j.expansions, x.1 = Store.owner (max n 1) (ig.system.fingerprint x.2.state)) ∧
      (m.isOver = true →
        (∀ i s, (∃ shard, m.store.shards[i]? = some shard ∧
          s ∈ shard.vertices.toList.map (·.state)) ↔
            g.Reachable s ∧ Store.owner (max n 1) (ig.system.fingerprint s) = i) ∧
        (m.store.vertices.map (·.state)).Nodup ∧
        (j.expansions.map (·.2.state)).Nodup ∧
        (∀ s, s ∈ j.expansions.map (·.2.state) ↔ g.Reachable s) ∧
        j.edges.Perm (g.edges.filter fun e => g.Reachable e.source)) := by
  have hx := index_explicit h
  obtain ⟨j, hj⟩ : ∃ j, runSchedule ig.system (Listener.exhaustive ig.system).recorded schedule
      (start ig.system g.initial (.ofShards n none) ((), {})) = m.record j := by
    rw [start_record, ← hm]
    exact runSchedule_record {} schedule _
  have hs : Surveys ig.system n (m.record j) := by
    rw [← hj, ← index_initials h]
    exact runSchedule_surveys hx n schedule
  have hshards : m.store.shards.size = max n 1 := hs.balanced.shards.trans (size_ofShards n none)
  refine ⟨hs.owned.size, hshards, ?_, fun w hw hp x hx => idle_of_returned hs.tidy hs.not_raised hw hp hx, ?_,
    j, hj, hs.owned.told, hs.owned.expanded, fun ho => ?_⟩
  · refine (hs.tidy.count hs.not_raised).trans ?_
    rw [Crew.sum, State.crew, List.map_map]
    refine congrArg List.sum (List.map_congr_left fun w _ => ?_)
    rw [Function.comp_apply, Duty.due, Worker.duty, Worker.held]
    cases w.current <;> simp <;> omega
  · obtain ⟨rest, hrest⟩ := hs.exists_isOver hx
    obtain ⟨j', hj'⟩ : ∃ j', runSchedule ig.system (Listener.exhaustive ig.system).recorded rest
        (m.record j) = (runSchedule ig.system (.exhaustive ig.system) rest m).record j' :=
      runSchedule_record j rest m
    rw [hj'] at hrest
    exact ⟨rest, hrest⟩
  · obtain ⟨hexpanded, htold, hreach⟩ := hs.balanced.complete (hs.items_eq ho) hs.not_raised
    have hreach : ∀ s, s ∈ m.store.vertices.map (·.state) ↔ g.Reachable s :=
      fun s => (hreach s).trans (reachable_iff h)
    have hdistinct : m.store.Distinct ig.system := hs.balanced.distinct
    have hperm : (j.expansions.map (·.2.state)).Perm (m.store.vertices.map (·.state)) := by
      have hvertices := (Multiset.coe_eq_coe.1 hexpanded).map (·.state)
      rwa [List.map_map] at hvertices
    refine ⟨fun i s => ?_, hdistinct.nodup, hperm.nodup_iff.2 hdistinct.nodup,
      fun s => hperm.mem_iff.trans (hreach s), ?_⟩
    · rw [hdistinct.mem_shard_iff, hreach, hshards]
    · rw [index_initials h] at htold
      exact edges_perm h hdistinct.nodup hreach htold

/-- Three workers, of which some schedule makes all return. -/
theorem runSchedule_exhaustive_doubleLoop :
    ∃ ig schedule m j, doubleLoop.index = .ok ig ∧
      runSchedule ig.system (.exhaustive ig.system) schedule
        (start ig.system doubleLoop.initial (.ofShards 3 none) ()) = m ∧
      runSchedule ig.system (Listener.exhaustive ig.system).recorded schedule
        (start ig.system doubleLoop.initial (.ofShards 3 none) ((), {})) = m.record j ∧
      m.workers.size = 3 ∧ m.isOver = true ∧
      (j.expansions.map (·.2.state)).Perm [0, 1, 2] ∧
      j.edges.Perm [⟨0, 1, {}⟩, ⟨0, 1, {}⟩, ⟨1, 0, {}⟩, ⟨1, 2, {}⟩] := by
  obtain ⟨ig, h⟩ : ∃ ig, doubleLoop.index = .ok ig := ⟨_, rfl⟩
  obtain ⟨-, -, -, -, ⟨schedule, hover⟩, -⟩ := runSchedule_exhaustive h 3 [] rfl
  obtain ⟨hsize, -, -, -, -, j, hj, -, -, hdone⟩ := runSchedule_exhaustive h 3 schedule rfl
  obtain ⟨-, -, hnodup, hmem, hedges⟩ := hdone hover
  refine ⟨ig, schedule, _, j, h, rfl, hj, hsize, hover, ?_, ?_⟩
  · refine (List.perm_ext_iff_of_nodup hnodup (by decide)).2 fun s => ?_
    rw [hmem, doubleLoop_reachable]
  · refine hedges.trans (.of_eq ?_)
    simp only [doubleLoop_reachable]
    simp [doubleLoop]

end Graph

end ModelChecker
