import ModelChecker.Liveness.NestedSearch
import ModelChecker.Safety.Reachability
import ModelChecker.StateSpace
import ModelChecker.Proofs.BoundedHistory
import ModelChecker.Proofs.Fingerprints
import ModelChecker.Proofs.StoreGrowth

namespace ModelChecker

variable {σ ω : Type}

/-- The stores that a search passes through, as a depth-first one, with workers that share a queue or
with workers that share nothing. The workers may take their steps in any order. -/
inductive Passes (sys : System σ) (l : Listener σ ω) (store : Store σ) (o : ω) :
    Seeds σ → Store σ → Prop where
  | start {seeds} : Passes sys l store o seeds store
  | seeding {vs s} (n : Nat) (h : sys.resolve (sys.initials.take n) store = .ok (vs, s)) :
    Passes sys l store o .initials s
  | depthFirst {seeds vs s} (h : Seeds.resolve seeds sys store = .ok (vs, s)) (n : Nat) :
    Passes sys l store o seeds (DepthFirst.steps sys l n
      { agenda := vs.map fun (v, isNew) => .seed v isNew, store := s, observation := o }).store
  | breadthFirst {seeds vs s workers o' view} (h : Seeds.resolve seeds sys store = .ok (vs, s))
    (hplant : BreadthFirst.plant l workers 0 vs o ⟨.ofChunkSize _ ChunkedQueue.defaultChunk, {}⟩ =
      (false, o', view)) (schedule : List Nat) :
    Passes sys l store o seeds (BreadthFirst.runSchedule sys l schedule
      (BreadthFirst.start workers view.flush.queue s o')).store
  | partitioned {seeds} (schedule : List Nat) :
    Passes sys l store o seeds (Partitioned.runSchedule sys l schedule
      (Partitioned.start sys (Partitioned.seedStates sys seeds) store o)).store

variable {sys : System σ} {l : Listener σ ω} {seeds : Seeds σ} {store s : Store σ} {o : ω}
  {c : SearchConfig}

theorem Seeds.resolve_grows {vs : List (Vertex σ × Bool)}
    (h : seeds.resolve sys store = .ok (vs, s)) : sys.Grows store s := by
  cases seeds with
  | initials => exact sys.resolve_grows h
  | vertices vs =>
    cases h
    exact .refl

theorem Passes.grows (h : Passes sys l store o seeds s)
    (hclosed : ∀ v s o, sys.Grows s (l.closed 0 v s o).2.1) : sys.Grows store s := by
  cases h with
  | start => exact .refl
  | seeding n h => exact sys.resolve_grows h
  | depthFirst h n =>
    refine (Seeds.resolve_grows h).trans ?_
    exact DepthFirst.steps_grows hclosed n
      { agenda := _, store := _, observation := o }
  | breadthFirst h _ schedule =>
    refine (Seeds.resolve_grows h).trans ?_
    exact BreadthFirst.runSchedule_grows schedule (BreadthFirst.start _ _ _ _)
  | partitioned schedule =>
    have hgrows : sys.Grows _ (Partitioned.runSchedule sys l schedule
        (Partitioned.start sys (Partitioned.seedStates sys seeds) store o)).store :=
      Partitioned.runSchedule_grows schedule _
    rwa [Partitioned.start_store] at hgrows

theorem Passes.of_resolve_error {e : Exhausted} (h : seeds.resolve sys store = .error (e, s)) :
    Passes sys l store o seeds s := by
  cases seeds with
  | initials =>
    obtain ⟨n, vs, hn⟩ := sys.resolve_error h
    exact .seeding n hn
  | vertices vs => cases h

theorem Passes.of_resolve {vs : List (Vertex σ × Bool)}
    (h : seeds.resolve sys store = .ok (vs, s)) : Passes sys l store o seeds s :=
  .depthFirst h 0

theorem Passes.of_depthFirst (allowance : Nat) :
    Passes sys l store o seeds (DepthFirst.run sys l allowance seeds store o).store := by
  unfold DepthFirst.run
  split
  · exact .of_resolve_error ‹_›
  · exact .depthFirst ‹_› _

theorem SearchConfig.search_passes {e : Exploration σ ω} {schedule : Schedule}
    (h : c.search sys l seeds store o schedule = .ok e) : Passes sys l store o seeds e.store := by
  unfold SearchConfig.search at h
  split at h
  · unfold explorePartitioned at h
    split at h
    · cases h
      obtain ⟨steps, hs⟩ := Partitioned.rounds_eq_runSchedule sys l schedule
        (Partitioned.enough sys sys.extent (Partitioned.seedStates sys seeds).length)
        (Partitioned.start sys (Partitioned.seedStates sys seeds) store o)
      change Passes sys l store o seeds (Partitioned.rounds sys l _ _ _).store
      rw [hs]
      exact .partitioned steps
    · cases h
  · unfold explore at h
    split at h
    · cases h
    · split at h
      · cases h
        unfold BreadthFirst.run
        split
        · exact .of_resolve_error ‹_›
        · split
          · exact .of_resolve ‹_›
          · rename_i hres _ o' view hplant
            obtain ⟨steps, hs⟩ := BreadthFirst.rounds_eq_runSchedule sys l schedule
              (BreadthFirst.enough sys sys.extent)
              (BreadthFirst.start c.workerCount view.flush.queue _ o')
            change Passes sys l store o seeds (BreadthFirst.rounds sys l _ _ _).store
            rw [hs]
            exact .breadthFirst hres hplant steps
      · cases h
        exact .of_depthFirst _

theorem Store.Raised.grows (h : store.Raised sys) (hx : sys.Explicit) (hgrows : sys.Grows store s) :
    s.Raised sys := by
  induction hgrows with
  | refl => exact h
  | tail _ hstep ih =>
    obtain ⟨x, v, isNew, hs⟩ := hstep
    exact ih.store hx hs

namespace Bounded

theorem Round.Leaves.passes {r : Round σ} {m : State σ} (h : r.Leaves sys c m) :
    Passes sys (listener sys r.query) r.before.store r.before.observation r.seeds m.store := by
  obtain ⟨e, b, hsearch, -, hstore, -⟩ := round_eq_ok h.run
  rw [hstore]
  exact SearchConfig.search_passes hsearch

theorem Round.Follows.grows {timetable : Timetable} {r r' : Round σ}
    (h : r.Follows sys c timetable r') :
    sys.Grows r.before.store r'.before.store := by
  cases h with
  | again _ h => exact h.passes.grows fun _ _ _ => .refl
  | deeper _ h => exact h.passes.grows fun _ _ _ => .refl

theorem searchRounds_grows {bound n level : Nat} {timetable : Timetable} {m : State σ} :
    ∀ r ∈ searchRounds sys c bound timetable n level m, sys.Grows m.store r.before.store := by
  apply searchRounds_chain.induction (fun r => sys.Grows m.store r.before.store)
  · intro r r' hfollows h
    exact h.trans hfollows.grows
  · intro hne
    obtain ⟨k, hk⟩ := head?_searchRounds (List.head_mem_head? hne)
    rw [hk]
    exact .refl

end Bounded

namespace Nested

/-- The stores that a nested search passes through: those of the outer search, and those of an inner
search from an accepting state that the outer one is about to close. -/
inductive Passes (sys : System σ) (reduction : Bool) (store : Store σ) : Store σ → Prop where
  | outer {s : Store σ} (h : ModelChecker.Passes sys (Outer.listener sys reduction) store {} .initials s) :
    Passes sys reduction store s
  | inner {vs : List (Vertex σ × Bool)} {after s : Store σ} {m : DepthFirst.State σ (Outer σ)}
    {v : Vertex σ} {rest : List (DepthFirst.Task σ)}
    (h : Seeds.resolve .initials sys store = .ok (vs, after)) (n : Nat)
    (hm : m = DepthFirst.steps sys (Outer.listener sys reduction) n
      { agenda := vs.map fun (v, isNew) => .seed v isNew, store := after, observation := {} })
    (hagenda : m.agenda = .close v :: rest) (hacc : sys.accepting v.state = true)
    (hs : ModelChecker.Passes sys (Inner.listener sys v.handle) m.store
      { marks := m.observation.marks } (.vertices [v]) s) :
    Passes sys reduction store s

theorem Inner.passes_grows {start : Handle} {o : Inner σ}
    (h : ModelChecker.Passes sys (Inner.listener sys start) store o seeds s) : sys.Grows store s :=
  h.grows fun _ _ _ => .refl

theorem Outer.searchFrom_store (start : Vertex σ) (o : Outer σ) :
    (searchFrom sys start store o).1 = (DepthFirst.run sys (Inner.listener sys start.handle)
      sys.extent (.vertices [start]) store { marks := o.marks }).store := by
  unfold searchFrom
  dsimp only
  split
  · rfl
  · rfl
  · split
    · rfl
    · split <;> rfl

theorem Outer.closed_grows (v : Vertex σ) (o : Outer σ) :
    sys.Grows store (closed sys v store o).2.1 := by
  have hinner : sys.Grows store (if sys.accepting v.state then searchFrom sys v store o
      else (store, o)).1 := by
    split
    · rw [searchFrom_store]
      exact Inner.passes_grows (.of_depthFirst sys.extent)
    · exact .refl
  unfold closed
  generalize (if sys.accepting v.state then searchFrom sys v store o else (store, o)) = r at hinner ⊢
  obtain ⟨after, o'⟩ := r
  dsimp only
  split <;> exact hinner

theorem Passes.grows {reduction : Bool} (h : Passes sys reduction store s) : sys.Grows store s := by
  have hclosed : ∀ v s o, sys.Grows s ((Outer.listener sys reduction).closed 0 v s o).2.1 :=
    fun v _ o => Outer.closed_grows v o
  cases h with
  | outer h => exact h.grows hclosed
  | @inner vs after _ m v rest h n hm hagenda hacc hs =>
    have hpasses : ModelChecker.Passes sys (Outer.listener sys reduction) store {} .initials
        m.store := by
      rw [hm]
      exact .depthFirst h n
    exact (hpasses.grows hclosed).trans (Inner.passes_grows hs)

end Nested

namespace Graph

variable {g : Graph} {ig : IndexedGraph} {count : Nat} {limit : Option Nat}

theorem collisions_of_grows (h : g.index = .ok ig) {s : Store Node}
    (hgrows : ig.system.Grows (.ofShards count limit) s) : s.collisions = 0 :=
  ((Store.raised_ofShards count limit).grows (index_explicit h) hgrows).collisions_eq_zero
    ig.fingerprint_injective

/-- No two words mix to the same one. For that reason no search of an explicit graph meets a
collision, at any point and with any number of shards: the walk over all states, the search for a
violation, every round of the search by levels, and the nested search with its inner ones. -/
theorem searches_collision_free (h : g.index = .ok ig) (count : Nat) (limit : Option Nat) :
    Function.Injective mix64 ∧
      (∀ s, Passes ig.system (.exhaustive ig.system) (.ofShards count limit) () .initials s →
        s.collisions = 0) ∧
      (∀ property s, Passes ig.system (Reachability.listener ig.system property)
        (.ofShards count limit) {} .initials s → s.collisions = 0) ∧
      (∀ c bound timetable n, ∀ r ∈ Bounded.searchRounds ig.system c bound timetable n 0
          { store := .ofShards count limit }, ∀ s,
        Passes ig.system (Bounded.listener ig.system r.query) r.before.store r.before.observation
          r.seeds s → s.collisions = 0) ∧
      ∀ reduction s, Nested.Passes ig.system reduction (.ofShards count limit) s →
        s.collisions = 0 := by
  refine ⟨mix64_injective, fun s hs => ?_, fun property s hs => ?_,
    fun c bound timetable n r hr s hs => ?_, fun reduction s hs => ?_⟩
  · exact collisions_of_grows h (hs.grows fun _ _ _ => .refl)
  · exact collisions_of_grows h (hs.grows fun _ _ _ => .refl)
  · have hbefore := Bounded.searchRounds_grows r hr
    exact collisions_of_grows h (hbefore.trans (hs.grows fun _ _ _ => .refl))
  · exact collisions_of_grows h hs.grows

/-- Three states behind one another. -/
def relay : Graph where
  initial := [0]
  edges := [{ source := 0, target := 1 }, { source := 1, target := 2 }]

/-- Two workers that share nothing take their steps in turn. -/
def relayStore (ig : IndexedGraph) : Store Node :=
  (Partitioned.runSchedule ig.system (.exhaustive ig.system) (List.replicate 8 [0, 1]).flatten
    (Partitioned.start ig.system (Partitioned.seedStates ig.system .initials) (.ofShards 2 none)
      ())).store

/-- The states of the relay are spread over both shards. -/
theorem searches_collision_free_relay :
    ∃ ig, relay.index = .ok ig ∧
      Passes ig.system (.exhaustive ig.system) (.ofShards 2 none) () .initials (relayStore ig) ∧
      (relayStore ig).shards.toList.map (·.vertices.size) = [1, 2] ∧
      (relayStore ig).collisions = 0 := by
  obtain ⟨ig, h⟩ : ∃ ig, relay.index = .ok ig := ⟨_, rfl⟩
  have hsizes : relay.index.toOption.map (fun ig => (relayStore ig).shards.toList.map
      (·.vertices.size)) = some [1, 2] := by decide +kernel
  rw [h] at hsizes
  have hpasses : Passes ig.system (.exhaustive ig.system) (.ofShards 2 none) () .initials
      (relayStore ig) := .partitioned _
  exact ⟨ig, h, hpasses, Option.some.inj hsizes,
    (searches_collision_free h 2 none).2.1 _ hpasses⟩

end Graph

end ModelChecker
