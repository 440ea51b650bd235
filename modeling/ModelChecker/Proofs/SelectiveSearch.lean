import Mathlib.Data.List.Find
import ModelChecker.Proofs.Descent

namespace ModelChecker

/-- A search from the initial states, on an empty store, that ignores some edges. -/
def IndexedGraph.siftedSearch (ig : IndexedGraph) (ignored : Edge → Bool) (c : SearchConfig)
    (shards : Nat) (limit : Option Nat) (schedule : Schedule := .inTurn c.workerCount) :
    Except Fault (Exploration Node (Unit × Journal Node)) :=
  c.search ig.system (Listener.sifting ig.system fun s n => ignored ⟨s, n.1, n.2⟩).recorded
    .initials (.ofShards shards limit) ((), {}) schedule

namespace Graph

/-- The graph without some of its edges. -/
def without (g : Graph) (p : Edge → Bool) : Graph :=
  { g with edges := g.edges.filter fun e => !p e }

/-- The edge is ignored, and a search can meet its target by it first although kept edges lead there
too: they lead to its source without passing the target. -/
structure Hides (g : Graph) (ignored : Edge → Bool) (e : Edge) : Prop where
  mem : e ∈ g.edges
  out : ignored e = true
  target : e.target ∉ g.initial
  reached : (g.without ignored).Reachable e.target
  source : (g.without fun d => ignored d || d.target == e.target).Reachable e.source

variable {g : Graph} {ig : IndexedGraph} {ignored : Edge → Bool}

theorem mem_without {p : Edge → Bool} {e : Edge} :
    e ∈ (g.without p).edges ↔ e ∈ g.edges ∧ p e = false := by
  simp [without]

theorem via_iff (h : g.index = .ok ig) {p : Node → Prop} {out : Edge → Bool}
    (hinit : ∀ s ∈ g.initial, p s) (hout : ∀ e, out e = false ↔ ignored e = false ∧ p e.target)
    {s : Node} :
    ig.system.Via (fun a n => ignored ⟨a, n.1, n.2⟩) p s ↔ (g.without out).Reachable s := by
  constructor
  · intro hvia
    induction hvia with
    | initial hs => exact ⟨_, index_initials h ▸ hs, .refl⟩
    | @step a n _ hn hk hp ih =>
      obtain ⟨i, hi, hpath⟩ := ih
      obtain ⟨e, he, rfl, rfl⟩ := (mem_index_successors h).1 hn
      exact ⟨i, hi, hpath.tail ⟨e, mem_without.2 ⟨he, (hout e).2 ⟨hk, hp⟩⟩, rfl, rfl⟩⟩
  · rintro ⟨i, hi, hpath⟩
    induction hpath with
    | refl => exact .initial ((index_initials h).symm ▸ hi) (hinit i hi)
    | tail _ hjoin ih =>
      obtain ⟨e, he, rfl, rfl⟩ := hjoin
      obtain ⟨hmem, hkept⟩ := mem_without.1 he
      obtain ⟨hk, hp⟩ := (hout e).1 hkept
      have hn := (mem_index_successors h).2 ⟨e, hmem, rfl, rfl⟩
      exact .step (n := (e.target, e.flags)) ih hn hk hp

theorem via_true_iff (h : g.index = .ok ig) {s : Node} :
    ig.system.Via (fun a n => ignored ⟨a, n.1, n.2⟩) (fun _ => True) s ↔
      (g.without ignored).Reachable s :=
  via_iff h (fun _ _ => trivial) fun e => by simp

theorem via_ne_iff (h : g.index = .ok ig) {x s : Node} (hx : x ∉ g.initial) :
    ig.system.Via (fun a n => ignored ⟨a, n.1, n.2⟩) (· ≠ x) s ↔
      (g.without fun d => ignored d || d.target == x).Reachable s :=
  via_iff (p := (· ≠ x)) h (fun _ hi => ne_of_mem_of_not_mem hi hx) fun e => by simp

theorem exists_hides (h : g.index = .ok ig) {s : Node} (hs : (g.without ignored).Reachable s)
    (hinit : s ∉ g.initial)
    (hhides : ig.system.Hides (fun a n => ignored ⟨a, n.1, n.2⟩) s) : ∃ e, g.Hides ignored e := by
  obtain ⟨a, n, hn, rfl, hout, hvia⟩ := hhides
  obtain ⟨e, he, rfl, rfl⟩ := (mem_index_successors h).1 hn
  exact ⟨e, he, hout, hinit, hs, (via_ne_iff h hinit).1 hvia⟩

end Graph

namespace Journal

/-- The edges that were told of on the occasion on which their target was stored. -/
def newEdges (j : Journal Node) : List Edge :=
  j.discoveries.filterMap fun x => edge? (x.source, x.target.state, x.flags)

theorem mem_newEdges {j : Journal Node} {d : Edge} :
    d ∈ j.newEdges ↔ ∃ y ∈ j.discoveries, ∃ u, y.source = some u ∧
      d = ⟨u.state, y.target.state, y.flags⟩ := by
  simp [newEdges, edge?, eq_comm]

theorem mem_edges {j : Journal Node} {d : Edge} :
    d ∈ j.edges ↔ ∃ x ∈ j.tellings, ∃ u, x.source = some u ∧
      d = ⟨u.state, x.target.state, x.flags⟩ := by
  simp [edges, edge?, eq_comm]

end Journal

namespace Graph

variable {g : Graph} {ig : IndexedGraph} {ignored : Edge → Bool}

theorem mem_initial_of_told (h : g.index = .ok ig) {j : Journal Node}
    (hj : j.Sifted ig.system fun a n => ignored ⟨a, n.1, n.2⟩) {x : Telling Node}
    (hx : x ∈ j.tellings) (hsource : x.source = none) : x.target.state ∈ g.initial := by
  have hmem : (none, x.target.state, x.flags) ∈ j.told :=
    Multiset.mem_coe.2 (List.mem_map.2 ⟨x, hx, by rw [hsource]⟩)
  rw [hj.told, index_initials h] at hmem
  rcases Multiset.mem_add.1 hmem with hmem | hmem
  · obtain ⟨s, hs, he⟩ := List.mem_map.1 (Multiset.mem_coe.1 hmem)
    have hstate : s = x.target.state := congrArg (·.2.1) he
    exact hstate ▸ hs
  · obtain ⟨v, -, hedge⟩ := Multiset.mem_bind.1 hmem
    obtain ⟨n, -, he⟩ := List.mem_map.1 (Multiset.mem_coe.1 hedge)
    cases he

section sifted
variable {j : Journal Node} (h : g.index = .ok ig)
  (hj : j.Sifted ig.system fun a n => ignored ⟨a, n.1, n.2⟩)
include hj

omit h in
theorem discovery_unique {y z : Telling Node} (hy : y ∈ j.discoveries) (hz : z ∈ j.discoveries)
    (he : y.target.state = z.target.state) : y = z :=
  List.inj_on_of_nodup_map hj.once hy hz he

omit h in
theorem nodup_newEdges : (j.newEdges.map (·.target)).Nodup := by
  have hsub : (j.newEdges.map (·.target)).Sublist (j.discoveries.map (·.target.state)) := by
    unfold Journal.newEdges
    induction j.discoveries with
    | nil => exact .slnil
    | cons x rest ih =>
      cases hx : x.source with
      | none => simpa [Journal.edge?, hx] using ih.cons _
      | some u => simpa [Journal.edge?, hx] using ih
  exact hj.once.sublist hsub

include h

theorem mem_targets_iff {s : Node} :
    s ∈ j.newEdges.map (·.target) ↔ s ∉ g.initial ∧ s ∈ j.edges.map (·.target) := by
  simp only [List.mem_map, Journal.mem_newEdges, Journal.mem_edges]
  constructor
  · rintro ⟨-, ⟨y, hy, u, hu, rfl⟩, rfl⟩
    refine ⟨fun hinit => ?_, _, ⟨y, List.mem_of_mem_filter hy, u, hu, rfl⟩, rfl⟩
    obtain ⟨z, hz, hzy, hnone⟩ := hj.seeds _ ((index_initials h).symm ▸ hinit)
    rw [discovery_unique hj hz hy hzy, hu] at hnone
    cases hnone
  · rintro ⟨hinit, -, ⟨x, hx, u, hu, rfl⟩, rfl⟩
    obtain ⟨y, hy, hyx⟩ := hj.discovered x hx
    cases hsource : y.source with
    | none =>
      have hmem := mem_initial_of_told h hj (List.mem_of_mem_filter hy) hsource
      exact absurd (hyx ▸ hmem) hinit
    | some u' => exact ⟨_, ⟨y, hy, u', hsource, rfl⟩, congrArg (·.state) hyx⟩

theorem mem_states_iff_newEdge {s : Node} :
    s ∈ j.states ↔ s ∈ g.initial ∨ ∃ d ∈ j.newEdges, d.target = s ∧ ignored d = false := by
  rw [hj.taken, ← index_initials h]
  constructor
  · rintro ⟨y, hy, rfl, hk⟩
    cases hsource : y.source with
    | none =>
      have hmem := mem_initial_of_told h hj (List.mem_of_mem_filter hy) hsource
      exact .inl ((index_initials h).symm ▸ hmem)
    | some u =>
      refine .inr ⟨_, Journal.mem_newEdges.2 ⟨y, hy, u, hsource, rfl⟩, rfl, ?_⟩
      simpa [Telling.kept, hsource] using hk
  · rintro (hs | ⟨d, hd, rfl, hk⟩)
    · obtain ⟨y, hy, hys, hnone⟩ := hj.seeds s hs
      exact ⟨y, hy, hys, by rw [Telling.kept, hnone]; rfl⟩
    · obtain ⟨y, hy, u, hu, rfl⟩ := Journal.mem_newEdges.1 hd
      exact ⟨y, hy, rfl, by simpa [Telling.kept, hu] using hk⟩

end sifted

theorem siftedSearch_completes (h : g.index = .ok ig) {c : SearchConfig} {shards : Nat}
    {limit : Option Nat} {schedule : Schedule} (hfair : schedule.Fair c.workerCount)
    (hsize : c.partitioned = true → shards = c.workerCount) (hshards : shards ≤ UInt32.size)
    (hfits : ∀ n, limit = some n → {s | g.Reachable s}.ncard ≤ n) :
    ∃ e, ig.siftedSearch ignored c shards limit schedule = .ok e ∧ e.ending = some .completed ∧
      e.observation.2.Sifted ig.system fun a n => ignored ⟨a, n.1, n.2⟩ := by
  refine c.search_sifting (index_explicit h)
    (Store.canonical_ofShards ig.system shards limit hshards) (Store.vertices_ofShards shards limit)
    (fun hc => ?_) hfair fun hex => ?_
  · rw [Partitioned.size_ofShards, hsize hc]
    exact max_eq_left c.workerCount_pos
  · obtain ⟨n, hn, hlt⟩ := ncard_of_exceeds h hex
    exact absurd (hfits n hn) (Nat.not_le.2 hlt)

/-- Edges, the latest first, that lead from an initial state without a loop and enter no other
initial state. -/
inductive Trail (g : Graph) (i : Node) : List Edge → Node → Prop where
  | start (hi : i ∈ g.initial) : Trail g i [] i
  | step {ds a d} (h : Trail g i ds a) (hd : d ∈ g.edges) (hs : d.source = a)
    (hnew : d.target ∉ a :: ds.map (·.source)) (hinit : d.target ∉ g.initial) :
    Trail g i (d :: ds) d.target

namespace Trail

variable {i a : Node} {ds : List Edge}

theorem cut (h : g.Trail i ds a) {b : Node} (hb : b ∈ a :: ds.map (·.source)) :
    ∃ ds', g.Trail i ds' b := by
  induction h with
  | start hi =>
    obtain rfl := List.mem_singleton.1 hb
    exact ⟨[], .start hi⟩
  | @step ds a d h hd hs hnew hinit ih =>
    rcases List.mem_cons.1 hb with rfl | hb
    · exact ⟨d :: ds, h.step hd hs hnew hinit⟩
    · rw [List.map_cons, hs] at hb
      exact ih hb

theorem initial (h : g.Trail i ds a) : i ∈ g.initial := by
  induction h with
  | start hi => exact hi
  | step _ _ _ _ _ ih => exact ih

theorem mem_edges (h : g.Trail i ds a) : ∀ d ∈ ds, d ∈ g.edges := by
  induction h with
  | start => exact nofun
  | step _ hd _ _ _ ih => exact List.forall_mem_cons.2 ⟨hd, ih⟩

theorem nodup (h : g.Trail i ds a) : (a :: ds.map (·.source)).Nodup := by
  induction h with
  | start => exact List.nodup_singleton _
  | step _ _ hs hnew _ ih =>
    rw [List.map_cons, hs]
    exact List.nodup_cons.2 ⟨hnew, ih⟩

theorem ne_of_mem (h : g.Trail i ds a) {x : Node} (hx : ∀ d ∈ g.edges, d.target ≠ x)
    (hi : x ∉ g.initial) : x ∉ a :: ds.map (·.source) := by
  induction h with
  | start hinit =>
    intro hmem
    exact hi (List.mem_singleton.1 hmem ▸ hinit)
  | step _ hd hs _ _ ih =>
    rw [List.map_cons, hs, List.mem_cons, not_or]
    exact ⟨(hx _ hd).symm, ih⟩

end Trail

theorem exists_trail {s : Node} (h : g.Reachable s) : ∃ i ds, g.Trail i ds s := by
  obtain ⟨i, hi, hpath⟩ := h
  induction hpath with
  | refl => exact ⟨i, [], .start hi⟩
  | @tail a b _ hjoin ih =>
    obtain ⟨j, ds, htrail⟩ := ih
    obtain ⟨d, hd, hs, rfl⟩ := hjoin
    by_cases hinit : d.target ∈ g.initial
    · exact ⟨d.target, [], .start hinit⟩
    by_cases hnew : d.target ∈ a :: ds.map (·.source)
    · obtain ⟨ds', h'⟩ := htrail.cut hnew
      exact ⟨j, ds', h'⟩
    · exact ⟨j, d :: ds, htrail.step hd hs hnew hinit⟩

/-- The same graph with some edges listed before all others, and an initial state before the other
ones. -/
def relist (g : Graph) (i : Node) (front : List Edge) : Graph :=
  { g with
    initial := i :: g.initial.erase i
    edges := g.edges.filter (· ∈ front) ++ g.edges.filter (· ∉ front) }

theorem relist_edges_perm (g : Graph) (i : Node) (front : List Edge) :
    (g.relist i front).edges.Perm g.edges := by
  have hperm := List.filter_append_perm (fun e => decide (e ∈ front)) g.edges
  simpa only [relist, decide_not] using hperm

theorem relist_initial_perm {i : Node} (hi : i ∈ g.initial) (front : List Edge) :
    (g.relist i front).initial.Perm g.initial :=
  (List.perm_cons_erase hi).symm

theorem relist_successors {i : Node} {front : List Edge}
    (hindex : (g.relist i front).index = .ok ig) (hnodup : (front.map (·.source)).Nodup) {d : Edge}
    (hd : d ∈ g.edges) (hfront : d ∈ front) :
    ∃ more, ig.system.successors d.source = (d.target, d.flags) :: more := by
  rw [index_successors hindex, relist, List.filter_append]
  have hmem : d ∈ (g.edges.filter (· ∈ front)).filter (·.source == d.source) := by
    simp [hd, hfront]
  have honly : ∀ e ∈ (g.edges.filter (· ∈ front)).filter (·.source == d.source), e = d := by
    intro e he
    obtain ⟨-, hs, hin⟩ : e ∈ g.edges ∧ e.source = d.source ∧ e ∈ front := by simpa using he
    exact List.inj_on_of_nodup_map hnodup hin hfront hs
  cases hlist : (g.edges.filter (· ∈ front)).filter (·.source == d.source) with
  | nil =>
    rw [hlist] at hmem
    cases hmem
  | cons e rest =>
    rw [hlist] at honly
    obtain rfl := honly e List.mem_cons_self
    exact ⟨_, rfl⟩

theorem exists_index_relist (h : g.index = .ok ig) (i : Node) (front : List Edge) :
    ∃ ig', (g.relist i front).index = .ok ig' := by
  refine exists_index_iff.2 fun e he t ht => ?_
  obtain ⟨d, hd, hjoins⟩ := exists_index_iff.1 ⟨ig, h⟩ e he t ht
  exact ⟨d, (g.relist_edges_perm i front).mem_iff.2 hd, hjoins⟩

theorem Trail.ahead {i a x : Node} {ds : List Edge} (h : g.Trail i ds a)
    (hinit : ∀ s ∈ ig.system.initials, s ∈ g.initial) (hk : ∀ d ∈ ds, ignored d = false)
    (hfirst : ∀ d ∈ ds, ∃ more, ig.system.successors d.source = (d.target, d.flags) :: more)
    (ha : ig.system.Ahead (fun a n => ignored ⟨a, n.1, n.2⟩) x (ds.map (·.source)) a) :
    ig.system.Ahead (fun a n => ignored ⟨a, n.1, n.2⟩) x [] i := by
  induction h with
  | start => exact ha
  | @step ds a d _ _ hs hnew hd ih =>
    subst hs
    obtain ⟨hkd, hk⟩ := List.forall_mem_cons.1 hk
    obtain ⟨⟨more, hmore⟩, hfirst⟩ := List.forall_mem_cons.1 hfirst
    exact ih hk hfirst (.step hmore hkd hnew (fun hmem => hd (hinit _ hmem)) ha)

/-- An edge that hides its target does so in a depth-first search of some listing of the graph. -/
theorem Hides.missed (h : g.index = .ok ig) {e : Edge} (he : g.Hides ignored e) :
    ∃ initial edges ig', initial.Perm g.initial ∧ edges.Perm g.edges ∧
      ({ g with initial, edges } : Graph).index = .ok ig' ∧
      ∀ shards ≤ UInt32.size, ∃ r,
        ig'.siftedSearch ignored { order := .depthFirst } shards none = .ok r ∧
          r.ending = some .completed ∧ e.target ∉ r.observation.2.states := by
  obtain ⟨i, ds, htrail⟩ := exists_trail he.source
  obtain ⟨ig', hindex⟩ := exists_index_relist h i (e :: ds)
  have hperm : (g.relist i (e :: ds)).initial.Perm g.initial :=
    relist_initial_perm htrail.initial (e :: ds)
  have hinit : ig'.system.initials = (g.relist i (e :: ds)).initial := index_initials hindex
  have hmem : ∀ d ∈ ds, d ∈ g.edges ∧ ignored d = false ∧ d.target ≠ e.target := by
    intro d hd
    obtain ⟨hd, hout⟩ := mem_without.1 (htrail.mem_edges d hd)
    exact ⟨hd, by simpa using hout⟩
  have hfirst : ∀ d ∈ e :: ds, ∃ more,
      ig'.system.successors d.source = (d.target, d.flags) :: more := by
    intro d hd
    refine relist_successors hindex htrail.nodup ?_ hd
    rcases List.mem_cons.1 hd with rfl | hd
    · exact he.mem
    · exact (hmem d hd).1
  obtain ⟨⟨more, hmore⟩, hfirst⟩ := List.forall_mem_cons.1 hfirst
  have htarget : e.target ∉ ig'.system.initials := fun hmem =>
    he.target (hperm.mem_iff.1 (hinit ▸ hmem))
  have hahead : ig'.system.Ahead (fun a n => ignored ⟨a, n.1, n.2⟩) e.target [] i := by
    refine htrail.ahead (fun s hs => hperm.mem_iff.1 (hinit ▸ hs)) (fun d hd => (hmem d hd).2.1)
      hfirst (.last hmore rfl he.out (htrail.ne_of_mem (fun d hd => ?_) he.target))
    have hout := (mem_without.1 hd).2
    simp only [Bool.or_eq_false_iff, beq_eq_false_iff_ne] at hout
    exact hout.2
  refine ⟨_, _, ig', hperm, g.relist_edges_perm i (e :: ds), hindex, fun shards hshards => ?_⟩
  obtain ⟨r, hr, hend, hj⟩ : ∃ r,
      ig'.siftedSearch ignored { order := .depthFirst } shards none = .ok r ∧ _ :=
    siftedSearch_completes hindex (Schedule.fair_inTurn _) nofun hshards nofun
  refine ⟨r, hr, hend, fun hs => ?_⟩
  cases hr
  obtain ⟨y, hy, hye, hk⟩ := DepthFirst.run_misses (index_explicit hindex)
    (Store.canonical_ofShards ig'.system shards none hshards) (Store.vertices_ofShards shards none)
    hinit htarget hahead hend
  obtain ⟨z, hz, hze, hkz⟩ := (hj.taken _).1 hs
  rw [discovery_unique hj hy hz (hye.trans hze.symm), hkz] at hk
  cases hk

/-- A search that ignores some edges completes, whatever its kind, the number of its workers and the
order of their steps. It expands no state twice, and is told of the edges out of the expanded states.
Into each of their targets that is not initial just one edge is told of as new. A state is expanded
if and only if it is initial or that edge is kept, so only states that kept edges lead to are. If no
edge hides its target, these are all that kept edges lead to; and an edge that does hides it from a
depth-first search of some listing of the graph. -/
theorem siftedSearch_exact (h : g.index = .ok ig) (ignored : Edge → Bool) :
    (∀ (c : SearchConfig) (shards : Nat) (limit : Option Nat) (schedule : Schedule),
      schedule.Fair c.workerCount →
      (c.partitioned = true → shards = c.workerCount) → shards ≤ UInt32.size →
      (∀ n, limit = some n → {s | g.Reachable s}.ncard ≤ n) →
      ∃ r, ig.siftedSearch ignored c shards limit schedule = .ok r ∧ r.ending = some .completed ∧
        r.observation.2.states.Nodup ∧
        r.observation.2.edges.Perm
          (g.edges.filter fun e => decide (e.source ∈ r.observation.2.states)) ∧
        (r.observation.2.newEdges.map (·.target)).Nodup ∧
        (∀ s, s ∈ r.observation.2.newEdges.map (·.target) ↔
          s ∉ g.initial ∧ s ∈ r.observation.2.edges.map (·.target)) ∧
        (∀ s, s ∈ r.observation.2.states ↔ s ∈ g.initial ∨
          ∃ d ∈ r.observation.2.newEdges, d.target = s ∧ ignored d = false) ∧
        (∀ s ∈ r.observation.2.states, (g.without ignored).Reachable s) ∧
        ((∀ e, ¬ g.Hides ignored e) →
          ∀ s, s ∈ r.observation.2.states ↔ (g.without ignored).Reachable s)) ∧
    ∀ e, g.Hides ignored e → ∃ initial edges ig', initial.Perm g.initial ∧ edges.Perm g.edges ∧
      ({ g with initial, edges } : Graph).index = .ok ig' ∧
      ∀ shards ≤ UInt32.size, ∃ r,
        ig'.siftedSearch ignored { order := .depthFirst } shards none = .ok r ∧
          r.ending = some .completed ∧ e.target ∉ r.observation.2.states := by
  refine ⟨fun c shards limit schedule hfair hsize hshards hfits => ?_, fun e he => he.missed h⟩
  obtain ⟨r, hr, hend, hj⟩ : ∃ r, ig.siftedSearch ignored c shards limit schedule = .ok r ∧ _ :=
    siftedSearch_completes h hfair hsize hshards hfits
  have hreach : ∀ s ∈ r.observation.2.states, (g.without ignored).Reachable s := fun s hs =>
    (via_true_iff h).1 (hj.via s hs)
  refine ⟨r, hr, hend, hj.nodup, ?_, nodup_newEdges hj, fun s => mem_targets_iff h hj,
    fun s => mem_states_iff_newEdge h hj, hreach, fun hfree s => ⟨hreach s, fun hs => ?_⟩⟩
  · have htold := hj.told
    rw [index_initials h] at htold
    have hstates : (r.observation.2.expansions.map (·.2)).map (·.state) = r.observation.2.states :=
      List.map_map
    rw [← hstates]
    exact edges_perm_of_told h (hstates ▸ hj.nodup) htold
  · refine hj.all (fun t ht hinit hhides => ?_) s ((via_true_iff h).2 hs)
    rw [index_initials h] at hinit
    obtain ⟨e, he⟩ := exists_hides h ((via_true_iff h).1 ht) hinit hhides
    exact hfree e he

/-- An edge to the state 1, and a way round to it by the state 2. -/
def detour : Graph where
  initial := [0]
  edges := [⟨0, 2, {}⟩, ⟨0, 1, {}⟩, ⟨2, 1, {}⟩]

theorem mem_of_reachable {l : List Node} (hinit : g.initial ⊆ l)
    (hstep : ∀ e ∈ g.edges, e.source ∈ l → e.target ∈ l) {s : Node} (h : g.Reachable s) :
    s ∈ l := by
  obtain ⟨i, hi, hpath⟩ := h
  induction hpath with
  | refl => exact hinit hi
  | tail _ hjoin ih =>
    obtain ⟨e, he, rfl, rfl⟩ := hjoin
    exact hstep e he ih

theorem detour_reachable : (detour.without (· == ⟨0, 1, {}⟩)).Reachable 1 := by
  refine ⟨0, by decide, .tail (.single (b := 2) ?_) ?_⟩
  · exact ⟨⟨0, 2, {}⟩, by decide, rfl, rfl⟩
  · exact ⟨⟨2, 1, {}⟩, by decide, rfl, rfl⟩

/-- Without its way round the state 1 is found by two workers; without the direct edge it is missed
by a depth-first search that takes this edge first. -/
theorem siftedSearch_exact_detour :
    ∃ ig, detour.index = .ok ig ∧
      (∃ r, ig.siftedSearch (· == ⟨0, 2, {}⟩) { workers := 2, partitioned := true } 2 none = .ok r ∧
        ∀ s, s ∈ r.observation.2.states ↔ (detour.without (· == ⟨0, 2, {}⟩)).Reachable s) ∧
      ∃ initial edges ig', initial.Perm detour.initial ∧ edges.Perm detour.edges ∧
        ({ detour with initial, edges } : Graph).index = .ok ig' ∧ ∃ r,
          ig'.siftedSearch (· == ⟨0, 1, {}⟩) { order := .depthFirst } 1 none = .ok r ∧
            1 ∉ r.observation.2.states := by
  obtain ⟨ig, h⟩ : ∃ ig, detour.index = .ok ig := ⟨_, rfl⟩
  refine ⟨ig, h, ?_, ?_⟩
  · obtain ⟨r, hr, -, -, -, -, -, -, -, hall⟩ := (siftedSearch_exact h (· == ⟨0, 2, {}⟩)).1
      { workers := 2, partitioned := true } 2 none _ (Schedule.fair_inTurn _) (fun _ => by decide)
      (by decide) nofun
    refine ⟨r, hr, hall fun e he => ?_⟩
    have hedge : e = ⟨0, 2, {}⟩ := beq_iff_eq.1 he.out
    have hmem : e.target ∈ [0, 1] := mem_of_reachable (by decide) (by decide) he.reached
    rw [hedge] at hmem
    exact absurd hmem (by decide)
  · have hides : detour.Hides (· == ⟨0, 1, {}⟩) ⟨0, 1, {}⟩ :=
      ⟨by decide, by decide, by decide, detour_reachable, 0, by decide, .refl⟩
    obtain ⟨initial, edges, ig', hinitial, hedges, hindex, hmiss⟩ :=
      (siftedSearch_exact h (· == ⟨0, 1, {}⟩)).2 _ hides
    obtain ⟨r, hr, -, hno⟩ := hmiss 1 (by decide)
    exact ⟨initial, edges, ig', hinitial, hedges, hindex, r, hr, hno⟩

/-- Kept edges lead to all three states. A depth-first search expands them all, and a breadth-first
or a partitioned search leaves out the state that the ignored edge meets first. -/
theorem siftedSearch_detour_ne :
    ∃ ig breadthFirst depthFirst partitioned, detour.index = .ok ig ∧
      ig.siftedSearch (· == ⟨0, 1, {}⟩) {} 64 none = .ok breadthFirst ∧
      ig.siftedSearch (· == ⟨0, 1, {}⟩) { order := .depthFirst } 64 none = .ok depthFirst ∧
      ig.siftedSearch (· == ⟨0, 1, {}⟩) { partitioned := true } 1 none = .ok partitioned ∧
      breadthFirst.observation.2.states = [2, 0] ∧ depthFirst.observation.2.states = [1, 2, 0] ∧
      partitioned.observation.2.states = [2, 0] ∧
      (detour.without (· == ⟨0, 1, {}⟩)).Reachable 1 := by
  refine ⟨_, _, _, _, rfl, rfl, rfl, rfl, ?_, ?_, ?_, detour_reachable⟩
  · decide +kernel
  · decide +kernel
  · decide +kernel

end Graph

end ModelChecker
