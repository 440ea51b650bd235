import ModelChecker.StateSpace
import ModelChecker.Proofs.Exhaustive
import ModelChecker.Proofs.ReachabilityVerdict

namespace ModelChecker

variable {σ : Type} {sys : System σ} {c : SearchConfig}

theorem SearchConfig.distinct_newStore (c : SearchConfig) (sys : System σ) :
    (c.newStore : Store σ).Distinct sys :=
  Store.distinct_ofShards sys _ _

theorem SearchConfig.Begins.balanced_of_nil {store : Store σ} {w : Work σ (Unit × Journal σ)}
    (hx : sys.Explicit) (hd : store.Distinct sys)
    (hcan : c.partitioned = false → store.Canonical sys) (hnil : store.vertices = [])
    (h : c.Begins sys .initials store ((), {}) w) : Work.Balanced sys store w := by
  cases h with
  | @stored vs store' hc hres =>
    have hperm := (hcan hc).resolve_perm hx hres
    rw [hnil, List.append_nil] at hperm
    have hsize : store.size = 0 := by rw [hd.size_eq, hnil, List.length_nil]
    rcases (hcan hc).resolve_cases hx sys.initials with ⟨vs', s', hr, hres'⟩ | ⟨n, e, s', -, hr⟩
    · cases hr.symm.trans hres
      exact Work.balanced_ofSeeds hres' hperm hsize
    · cases hr.symm.trans hres
  | sent => exact Work.balanced_ofStates hd hnil

theorem SearchConfig.Begins.balanced {w : Work σ Unit} (hx : sys.Explicit)
    (h : c.Begins sys .initials c.newStore () w) :
    Work.Balanced sys c.newStore (w.record {}) := by
  have hrecord : c.Begins sys .initials c.newStore ((), {}) (w.record {}) := by
    cases h with
    | stored hc hres => exact .stored hc hres
    | sent hc => exact .sent hc
  refine hrecord.balanced_of_nil hx (c.distinct_newStore sys) (fun hc => ?_) c.vertices_newStore
  exact c.canonical_newStore sys fun hp => absurd (hc.symm.trans hp) nofun

theorem SearchStats.sum_ofSuccessors (f : σ → List (Successor σ)) (l : List σ) :
    (l.map fun s => SearchStats.ofSuccessors (f s)).sum =
      ⟨l.length, (l.map fun s => (f s).length).sum, l.countP fun s => (f s).isEmpty⟩ := by
  induction l with
  | nil => rfl
  | cons s rest ih =>
    rw [List.map_cons, List.sum_cons, ih, List.length_cons, List.map_cons, List.sum_cons,
      List.countP_cons]
    change SearchStats.mk _ _ _ = SearchStats.mk _ _ _
    congr 1
    · exact Nat.add_comm _ _
    · exact Nat.add_comm _ _

/-- Whatever the kind of search, the limit is exceeded or the counts are those of the reachable
states. -/
theorem stateSpace_cases (hx : sys.Explicit) (c : SearchConfig) {schedule : Schedule}
    (hfair : schedule.Fair c.workerCount) :
    (∃ n, c.stateLimit = some n ∧ sys.Exceeds c.stateLimit ∧
      stateSpace sys c schedule = .error (.outOfMemory n)) ∨
    ∃ l : List σ, l.Nodup ∧ (∀ s, s ∈ l ↔ sys.Reachable s) ∧
      (∀ n, c.stateLimit = some n → l.length ≤ n) ∧
      stateSpace sys c schedule =
        .ok ⟨l.length, (l.map fun s => SearchStats.ofSuccessors (sys.successors s)).sum⟩ := by
  have hbalanced : ∀ {w₀ w}, c.Begins sys .initials c.newStore () w₀ →
      Work.Moves sys (.exhaustive sys) w₀ w → ∃ j, Work.Balanced sys c.newStore (w.record j) := by
    intro w₀ w hb hm
    obtain ⟨j, hrec⟩ := hm.recorded {}
    exact ⟨j, (hb.balanced hx).moves hx hrec⟩
  have hbound : ∀ w₀ w, c.Begins sys .initials c.newStore () w₀ →
      Work.Moves sys (.exhaustive sys) w₀ w →
      w.stats.states ≤ sys.extent ∧ w.admitted < UInt64.size := by
    intro w₀ w hb hm
    obtain ⟨j, hw⟩ := hbalanced hb hm
    exact hw.bounded hx
  rcases c.search_cases hfair (fun _ _ _ => rfl) (fun _ _ v _ => hx.length_successors_le v.state)
    c.size_newStore hbound with ⟨e, w₀, w, hsearch, hb, hm, hends⟩ | ⟨x, s', hres, hsearch⟩
  · obtain ⟨j, hw⟩ := hbalanced hb hm
    cases hr : w.interrupt.raised with
    | true =>
      obtain ⟨n, hn, hf, hex⟩ := hw.failure hr
      refine .inl ⟨n, hn, hex, ?_⟩
      have hending : e.ending = some (.exhausted ⟨n⟩) := by
        rw [hends.ending, Interrupt.ending, show w.interrupt.failure = _ from hf]
      unfold stateSpace
      simp only [hsearch, Except.mapError, bind, Except.bind, Exploration.finished, hending]
    | false =>
      obtain ⟨hexpanded, -, hreach⟩ := hw.complete (hends.done hr) hr
      have hlength : w.store.size = w.store.vertices.length := hw.distinct.size_eq
      refine .inr ⟨w.store.vertices.map (·.state), hw.distinct.nodup, hreach, fun n hn => ?_, ?_⟩
      · rw [List.length_map, ← hlength]
        exact hw.size_le n hn
      · obtain ⟨b, hfin⟩ := Exploration.finished_ok hends.ending (hw.calm hr)
        have hstats : e.stats = ((w.store.vertices.map (·.state)).map fun s =>
            SearchStats.ofSuccessors (sys.successors s)).sum := by
          rw [hends.stats, show w.stats = _ from hw.stats, hexpanded, Multiset.map_coe,
            Multiset.sum_coe, List.map_map]
          rfl
        have hsize : e.store.size = (w.store.vertices.map (·.state)).length := by
          rw [hends.store, List.length_map, hlength]
        unfold stateSpace
        simp only [hsearch, hfin, Except.mapError, bind, Except.bind, pure, Except.pure, hstats,
          hsize]
  · have hnil : (c.newStore : Store σ).vertices = [] := c.vertices_newStore
    obtain ⟨hex, hcount⟩ := (c.distinct_newStore sys).resolve_error hx
      (fun v hv => by rw [hnil] at hv; cases hv) (fun s hs => ⟨s, hs, .refl⟩) hres
    refine .inl ⟨x.states, hcount fun n _ => Nat.zero_le n, hex, ?_⟩
    unfold stateSpace
    simp only [hsearch, Except.mapError, bind, Except.bind, Exploration.finished]

namespace Graph

variable {g : Graph} {ig : IndexedGraph}

theorem flatMap_filter_source_perm (edges : List Edge) {l : List Node} (hl : l.Nodup) :
    (l.flatMap fun s => edges.filter (·.source == s)).Perm
      (edges.filter fun e => decide (e.source ∈ l)) := by
  induction l with
  | nil => simp
  | cons s rest ih =>
    obtain ⟨hs, hrest⟩ := List.nodup_cons.1 hl
    rw [List.flatMap_cons]
    refine ((ih hrest).append_left _).trans ?_
    refine .trans (.of_eq ?_) (List.filter_append_perm (·.source == s) _)
    rw [List.filter_filter, List.filter_filter]
    congr 1
    · refine List.filter_congr fun e _ => ?_
      by_cases he : e.source = s <;> simp [he]
    · refine List.filter_congr fun e _ => ?_
      by_cases he : e.source = s
      · simp [he, hs]
      · simp [he]

open Classical in
theorem sum_ofSuccessors_of_reachable (h : g.index = .ok ig) {l : List Node} (hl : l.Nodup)
    (hreach : ∀ s, s ∈ l ↔ g.Reachable s) :
    (l.map fun s => SearchStats.ofSuccessors (ig.system.successors s)).sum = {
      states := {s | g.Reachable s}.ncard
      edges := (g.edges.filter fun e => g.Reachable e.source).length
      deadlocks := {s | g.Reachable s ∧ ∀ e ∈ g.edges, e.source ≠ s}.ncard } := by
  have hedges : (l.map fun s => (ig.system.successors s).length).sum =
      (g.edges.filter fun e => g.Reachable e.source).length := by
    have hlength := (flatMap_filter_source_perm g.edges hl).length_eq
    rw [List.length_flatMap] at hlength
    simp only [index_successors h, List.length_map, hlength, hreach]
  have hdeadlocks : l.countP (fun s => (ig.system.successors s).isEmpty) =
      {s | g.Reachable s ∧ ∀ e ∈ g.edges, e.source ≠ s}.ncard := by
    rw [List.countP_eq_length_filter]
    refine (ncard_of_mem_iff (hl.filter _) fun s => ?_).symm
    rw [List.mem_filter, hreach, List.isEmpty_iff, successors_eq_nil_iff h]
  rw [SearchStats.sum_ofSuccessors, hedges, hdeadlocks, ← ncard_of_mem_iff hl hreach]

open Classical in
/-- Every kind of search, with any number of workers in any order of their steps, tells the size of
the state space: the number of reachable states, of the edges out of them and of those among them
that have none. It fails if and only if there are more reachable states than its limit, and a single
worker tells the limit then. -/
theorem stateSpace_exact (h : g.index = .ok ig) (c : SearchConfig) (schedule : Schedule)
    (hfair : schedule.Fair c.workerCount) :
    ((∃ n, stateSpace ig.system c schedule = .error (.outOfMemory n)) ↔
      ∃ limit, c.maxStates = some limit ∧ limit.toNat < {s | g.Reachable s}.ncard) ∧
    (c.workerCount = 1 ∨ c.partitioned = false ∧ c.order = .depthFirst →
      ∀ n, stateSpace ig.system c schedule = .error (.outOfMemory n) →
        c.maxStates.map (·.toNat) = some n) ∧
    ((∀ limit, c.maxStates = some limit → {s | g.Reachable s}.ncard ≤ limit.toNat) →
      stateSpace ig.system c schedule = .ok {
        stored := {s | g.Reachable s}.ncard
        stats := {
          states := {s | g.Reachable s}.ncard
          edges := (g.edges.filter fun e => g.Reachable e.source).length
          deadlocks := {s | g.Reachable s ∧ ∀ e ∈ g.edges, e.source ≠ s}.ncard } }) := by
  rcases stateSpace_cases (index_explicit h) c hfair with
    ⟨n, hn, hex, hrun⟩ | ⟨l, hl, hreach, hle, hrun⟩
  · obtain ⟨k, hk, hlt⟩ := ncard_of_exceeds h hex
    cases hn.symm.trans hk
    obtain ⟨limit, hlimit, rfl⟩ := Option.map_eq_some_iff.1 hn
    refine ⟨iff_of_true ⟨_, hrun⟩ ⟨limit, hlimit, hlt⟩, fun _ n hr => ?_, fun hfits => ?_⟩
    · cases hrun.symm.trans hr
      exact hn
    · exact absurd (hfits limit hlimit) (Nat.not_le.2 hlt)
  · have hreach : ∀ s, s ∈ l ↔ g.Reachable s := fun s => (hreach s).trans (reachable_iff h)
    have hcard : {s | g.Reachable s}.ncard = l.length := ncard_of_mem_iff hl hreach
    refine ⟨iff_of_false ?_ ?_, fun _ n hr => ?_, fun _ => ?_⟩
    · rintro ⟨n, hr⟩
      cases hrun.symm.trans hr
    · rintro ⟨limit, hlimit, hlt⟩
      have hfits := hle limit.toNat (Option.map_eq_some_iff.2 ⟨limit, hlimit, rfl⟩)
      omega
    · cases hrun.symm.trans hr
    · rw [hrun, sum_ofSuccessors_of_reachable h hl hreach, hcard]

/-- Two initial states that reach each other, one of them listed twice, with two edges between them
in one direction, and a state without edges. -/
def doubleLoop : Graph where
  initial := [1, 0, 1]
  edges := [{ source := 0, target := 1 }, { source := 0, target := 1 }, { source := 1, target := 0 },
    { source := 1, target := 2 }, { source := 3, target := 0 }]

theorem doubleLoop_reachable (s : Node) : doubleLoop.Reachable s ↔ s ∈ [0, 1, 2] := by
  constructor
  · rintro ⟨i, hi, hpath⟩
    induction hpath with
    | refl =>
      have hinit : doubleLoop.initial ⊆ [0, 1, 2] := by decide
      exact hinit hi
    | tail _ hjoin ih =>
      obtain ⟨e, he, rfl, rfl⟩ := hjoin
      have hclosed : ∀ e ∈ doubleLoop.edges, e.source ∈ [0, 1, 2] → e.target ∈ [0, 1, 2] := by decide
      exact hclosed e he ih
  · have hjoins : doubleLoop.Joins 1 2 := ⟨{ source := 1, target := 2 }, by decide, rfl, rfl⟩
    intro hs
    have hcases : s = 0 ∨ s = 1 ∨ s = 2 := by simpa using hs
    rcases hcases with rfl | rfl | rfl
    · exact ⟨0, by decide, .refl⟩
    · exact ⟨1, by decide, .refl⟩
    · exact ⟨1, by decide, .single hjoins⟩

/-- A limit of two states does not suffice, one of three does, whatever the kind of search. -/
theorem stateSpace_exact_doubleLoop :
    ∃ ig, doubleLoop.index = .ok ig ∧
      (∃ n, stateSpace ig.system { workers := 3, partitioned := true, maxStates := some 2 } =
        .error (.outOfMemory n)) ∧
      stateSpace ig.system { order := .depthFirst, maxStates := some 3 } =
        .ok ⟨3, { states := 3, edges := 4, deadlocks := 1 }⟩ := by
  obtain ⟨ig, h⟩ : ∃ ig, doubleLoop.index = .ok ig := ⟨_, rfl⟩
  have hcard : {s | doubleLoop.Reachable s}.ncard = 3 :=
    ncard_of_mem_iff (l := [0, 1, 2]) (by decide) fun s => (doubleLoop_reachable s).symm
  have hdead : {s | doubleLoop.Reachable s ∧ ∀ e ∈ doubleLoop.edges, e.source ≠ s}.ncard = 1 := by
    refine ncard_of_mem_iff (l := [2]) (by decide) fun s => ?_
    rw [doubleLoop_reachable]
    constructor
    · rintro hs
      obtain rfl := List.mem_singleton.1 hs
      decide
    · rintro ⟨hs, hno⟩
      have hcases : s = 0 ∨ s = 1 ∨ s = 2 := by simpa using hs
      rcases hcases with rfl | rfl | rfl
      · exact absurd rfl (hno { source := 0, target := 1 } (by decide))
      · exact absurd rfl (hno { source := 1, target := 0 } (by decide))
      · exact List.mem_singleton_self 2
  have hfair := Schedule.fair_inTurn
  refine ⟨ig, h, (stateSpace_exact h _ _ (hfair _)).1.2 ⟨2, rfl, by rw [hcard]; decide⟩, ?_⟩
  rw [(stateSpace_exact h _ _ (hfair _)).2.2 fun limit hl => ?_, hcard, hdead]
  · simp only [doubleLoop_reachable]
    simp [doubleLoop]
  · cases hl
    exact hcard.le

end Graph

end ModelChecker
