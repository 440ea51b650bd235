import Mathlib.Logic.Relation
import ModelChecker.Proofs.NestedRun

namespace ModelChecker

open Relation

variable {σ : Type}

/-- The initial state `b` can be met too early: when those in `pre` are done, it is still to be
opened, but an accepting state leads to it that lies on a path from `pre` past all such states. -/
def MetEarly (joins : σ → σ → Prop) (initials : List σ) (accepting : σ → Prop) (b : σ) : Prop :=
  ∃ pre post, initials = pre ++ post ∧ b ∈ post ∧ b ∉ pre ∧ ∃ i ∈ pre, ∃ a, accepting a ∧
    ReflTransGen (fun x y => joins x y ∧ (y ∈ post → y ∈ pre)) i a ∧ ReflTransGen joins a b

theorem MetEarly.mem {joins : σ → σ → Prop} {initials : List σ} {accepting : σ → Prop} {b : σ}
    (h : MetEarly joins initials accepting b) : b ∈ initials := by
  obtain ⟨pre, post, rfl, hpost, -⟩ := h
  exact List.mem_append_right _ hpost

def SearchesAhead (joins : σ → σ → Prop) (initials : List σ) (accepting : σ → Prop) : Prop :=
  ∃ b, MetEarly joins initials accepting b

theorem not_searchesAhead_of_pairwise {joins : σ → σ → Prop} {initials : List σ}
    {accepting : σ → Prop} (h : initials.Pairwise fun a b => a ≠ b → ¬ ReflTransGen joins a b) :
    ¬ SearchesAhead joins initials accepting := by
  rintro ⟨b, pre, post, hinit, hb, hnot, i, hi, a, -, hia, hab⟩
  rw [hinit, List.pairwise_append] at h
  have hne : i ≠ b := fun hib => hnot (hib ▸ hi)
  exact h.2.2 i hi b hb hne ((ReflTransGen.mono (fun _ _ hxy => hxy.1) _ _ hia).trans hab)

theorem Linked.reflTransGen {sys : System σ} {path : List (Vertex σ)} {R : σ → σ → Prop}
    (h : Linked sys path) (hR : ∀ a, ∀ w ∈ path, sys.Joins a w.state → R a w.state) {u v : Vertex σ}
    (hv : path.head? = some v) (hu : path.getLast? = some u) : ReflTransGen R u.state v.state := by
  induction h generalizing v with
  | nil => cases hv
  | root =>
    cases hv
    cases hu
    exact .refl
  | @cons x w rest h n hn hw ih =>
    cases hv
    have hx : ReflTransGen R u.state x.state :=
      ih (fun a y hy => hR a y (List.mem_cons_of_mem _ hy)) rfl hu
    exact hx.tail (hR _ w List.mem_cons_self ⟨n, hn, hw⟩)

namespace Nested

open DepthFirst

variable {sys : System σ}

/-- The edges that the outer search takes: the ample ones out of a state that it opened with its
ample set, and all edges out of any other. -/
def Expands (sys : System σ) (store : Store σ) (o : Outer σ) (a b : σ) : Prop :=
  sys.Joins a b ∧ ((∃ v ∈ store.vertices, v.state = a ∧ (o.mark v.handle).reduced = true) →
    ∃ n ∈ (sys.ample a).getD (sys.successors a), n.1 = b)

theorem expands_iff {store : Store σ} {o : Outer σ} {v : Vertex σ} {b : σ} (hx : sys.Explicit)
    (hc : store.Canonical sys) (hv : v ∈ store.vertices) :
    Expands sys store o v.state b ↔ ∃ n ∈ edgesOf sys (o.mark v.handle) v, n.1 = b := by
  constructor
  · rintro ⟨hj, ha⟩
    unfold edgesOf
    split
    · rename_i hr
      exact ha ⟨v, hv, rfl, hr⟩
    · exact hj
  · rintro ⟨n, hn, hnb⟩
    refine ⟨⟨n, mem_successors_of_mem_edgesOf hx hn, hnb⟩, fun ⟨w, hw, hwv, hr⟩ => ⟨n, ?_, hnb⟩⟩
    obtain rfl := hc.eq_of_state hw hv hwv
    rwa [edgesOf, if_pos hr] at hn

namespace Outer

variable {reduction : Bool} {limit : Option Nat} {vs : List (Vertex σ × Bool)}
  {opened opened' : List (Vertex σ)} {p p' : Position σ (Outer σ)}

/-- What no step takes back. -/
structure Grows (opened : List (Vertex σ)) (p p' : Position σ (Outer σ)) : Prop where
  store : ∀ v ∈ p.store.vertices, v ∈ p'.store.vertices
  reduced : ∀ v ∈ opened, (p'.observation.mark v.handle).reduced =
    (p.observation.mark v.handle).reduced
  visited : ∀ a, (p.observation.mark a).visited = true → (p'.observation.mark a).visited = true

theorem Grows.edges (h : Grows opened p p') {v : Vertex σ} (hv : v ∈ opened) :
    edgesOf sys (p'.observation.mark v.handle) v = edgesOf sys (p.observation.mark v.handle) v :=
  edgesOf_congr (h.reduced v hv) v

theorem Inv.grows (h : Inv sys reduction limit vs opened [] p)
    (ht : Turn sys reduction opened p opened' p') : Grows opened p p' := by
  cases ht with
  | skipSeed => exact ⟨fun _ hv => hv, fun _ _ => rfl, fun _ hv => hv⟩
  | @openSeed v seeds store o o' r stats stats' hr he hs =>
    have hv : v ∈ store.vertices := h.seed_mem List.mem_cons_self
    have hno : v ∉ opened := h.fresh v List.mem_cons_self
    exact ⟨fun _ hw => hw, fun w hw => congrArg Mark.reduced (he.mark_eq h.canonical hv
      (h.opened_mem w hw) fun hwv => hno (hwv ▸ hw)), fun a ha => (he.visited a).trans ha⟩
  | skipEdge => exact ⟨fun _ hv => hv, fun _ _ => rfl, fun _ hv => hv⟩
  | @openEdge u n todo frames seeds store o o' t r store' stats stats' hst hr he hs =>
    exact ⟨hst.grows, fun w hw => congrArg Mark.reduced (he.mark_eq hst.canonical hst.mem
      (hst.grows w (h.opened_mem w hw)) (hst.ne_of_mem (h.opened_mem w hw))),
      fun a ha => (he.visited a).trans ha⟩
  | @close v frames seeds store o stats ha =>
    exact ⟨fun _ hw => hw, fun w _ => mark_left_reduced v o _,
      fun a hv => (mark_left_visited v o a).trans hv⟩
  | @sweep v frames seeds store o fresh store' inner stats stats' ha hi =>
    have hs := h.swept hi
    exact ⟨hs.grows, fun w _ => (mark_left_reduced v _ _).trans (hs.reduced _),
      fun a hv => (mark_left_visited v _ a).trans (hs.kept a hv)⟩

/-- A seed that is still to be opened comes after those that are done, and is none of them. -/
theorem Inv.pending (h : Inv sys reduction limit vs opened [] p) (hseed : Seeded sys vs)
    {done : List (Vertex σ × Bool)} (hvs : vs = done ++ p.seeds) {v : Vertex σ}
    (hv : v ∈ p.store.vertices) :
    (v, true) ∈ p.seeds ↔ v.state ∈ p.seeds.map (·.1.state) ∧ v.state ∉ done.map (·.1.state) := by
  constructor
  · intro hm
    refine ⟨List.mem_map.2 ⟨_, hm, rfl⟩, fun hd => ?_⟩
    obtain ⟨before, rest, hsplit⟩ := List.append_of_mem hm
    obtain ⟨s, hs, hsv⟩ := List.mem_map.1 hd
    have hfirst := (hseed.isNew_iff (done ++ before) v true rest
      (by rw [hvs, hsplit, List.append_assoc])).1 rfl
    exact hfirst s (List.mem_append_left _ hs) hsv
  · rintro ⟨hm, hd⟩
    have hinit : v.state ∈ sys.initials := by
      rw [← hseed.states_eq, hvs, List.map_append]
      exact List.mem_append_right _ hm
    have hmem := hseed.mem_of_mem h.canonical h.seeds_mem hv hinit
    rw [hvs] at hmem
    exact (List.mem_append.1 hmem).resolve_left fun hx => hd (List.mem_map.2 ⟨_, hx, rfl⟩)

theorem Inv.searchesAhead (h : Inv sys reduction limit vs opened [] p) (hseed : Seeded sys vs)
    {v b : Vertex σ} (hv : p.path.head? = some v) (ha : sys.accepting v.state = true)
    (hb : (b, true) ∈ p.seeds) (hr : ReflTransGen sys.Joins v.state b.state) :
    SearchesAhead sys.Joins sys.initials (sys.accepting · = true) := by
  obtain ⟨done, hvs, hbase⟩ := h.seeds
  obtain ⟨u, hu⟩ : ∃ u, p.path.getLast? = some u := by
    cases hp : p.path with
    | nil =>
      rw [hp] at hv
      cases hv
    | cons x rest => exact ⟨_, List.getLast?_cons⟩
  obtain ⟨hpost, hpre⟩ := (h.pending hseed hvs (h.seed_mem hb)).1 hb
  refine ⟨b.state, done.map (·.1.state), p.seeds.map (·.1.state), ?_, hpost, hpre, u.state,
    hbase u hu, v.state, ha, ?_, hr⟩
  · rw [← hseed.states_eq, hvs, List.map_append]
  · -- the states on the path are open, so none of them is still to be opened
    refine h.linked.reflTransGen (fun a w hw hj => ⟨hj, fun hm => ?_⟩) hv hu
    have hopened := h.path_sub w hw
    refine not_not.1 fun hd => ?_
    exact h.fresh w ((h.pending hseed hvs (h.opened_mem w hopened)).2 ⟨hm, hd⟩) hopened

/-- What holds besides where no inner search runs ahead of the outer one. -/
structure Strict (sys : System σ) (opened : List (Vertex σ)) (p : Position σ (Outer σ)) : Prop where
  closed : ∀ v ∈ p.store.vertices, (p.observation.mark v.handle).visited = true →
    v ∈ opened ∧ v ∉ p.path
  acyclic : ∀ v ∈ opened, v ∉ p.path → sys.accepting v.state = true →
    ¬ TransGen (Expands sys p.store p.observation) v.state v.state

section sweep
variable {v : Vertex σ} {frames : List (Frame σ)} {seeds : List (Vertex σ × Bool)}
  {store store' : Store σ} {o : Outer σ} {stats stats' : SearchStats} {fresh : List (Vertex σ)}
  {inner : Inner σ}

theorem Inv.closed_of_fresh
    (h : Inv sys reduction limit vs opened [] ⟨⟨v, []⟩ :: frames, seeds, store, o, stats⟩)
    (hx : sys.Explicit) (hseed : Seeded sys vs)
    (hno : ¬ SearchesAhead sys.Joins sys.initials (sys.accepting · = true))
    (ha : sys.accepting v.state = true)
    (hi : Inner.Inv sys (entry v frames store o) fresh ⟨[], [], store', inner, stats'⟩) :
    ∀ w ∈ fresh, w ∈ opened ∧ w ∉ frames.map (·.vertex) := by
  have hstart : v ∉ frames.map (·.vertex) := (List.nodup_cons.1 h.nodup).1
  -- the set that the search stays inside: what is closed, or is the start, and reached from it
  have hinside := hi.inside
    (fun w => (w ∈ opened ∧ w ∉ frames.map (·.vertex)) ∧ ReflTransGen sys.Joins v.state w.state)
    ⟨⟨h.path_sub v List.mem_cons_self, hstart⟩, .refl⟩ ?_
  · exact fun w hw => (hinside w hw).1
  · rintro u ⟨⟨huo, hup⟩, hur⟩ n hn
    obtain ⟨t, ht, htn⟩ := h.exists_target huo hup hn
    have hreach : ReflTransGen sys.Joins v.state t.state :=
      hur.tail ⟨n, mem_successors_of_mem_edgesOf hx hn, htn.symm⟩
    refine ⟨t, ht, htn, ?_⟩
    -- a seed that has yet to be opened would be met too early
    rcases h.covered t ht with hto | hto | hto | hto
    · by_cases hpath : t ∈ v :: frames.map (·.vertex)
      · exact .inl ((h.onStack t ht).2 hpath)
      · exact .inr (.inr ⟨⟨hto, fun hm => hpath (List.mem_cons_of_mem _ hm)⟩, hreach⟩)
    · cases hto
    · exact absurd (h.searchesAhead hseed rfl ha hto hreach) hno
    · exact .inr (.inl hto)

/-- The start of an inner search that finds no cycle is on none. -/
theorem Inv.acyclic_start
    (h : Inv sys reduction limit vs opened [] ⟨⟨v, []⟩ :: frames, seeds, store, o, stats⟩)
    (hx : sys.Explicit) (hs : Strict sys opened ⟨⟨v, []⟩ :: frames, seeds, store, o, stats⟩)
    (hi : Inner.Inv sys (entry v frames store o) fresh ⟨[], [], store', inner, stats'⟩) :
    ¬ TransGen (Expands sys store' ((o.absorb inner stats').left v)) v.state v.state := by
  have hsw := h.swept hi
  have hv : v ∈ store.vertices := h.opened_mem v (h.path_sub v List.mem_cons_self)
  have hon : (o.mark v.handle).onStack = true := (h.onStack v hv).2 List.mem_cons_self
  -- what is visited, by this search or before, leads to visited states off the stack only
  have hstep : ∀ u ∈ store'.vertices, ((o.absorb inner stats').mark u.handle).visited = true →
      ∀ b, Expands sys store' ((o.absorb inner stats').left v) u.state b →
      ∃ t ∈ store'.vertices, t.state = b ∧ ((o.absorb inner stats').mark t.handle).visited = true ∧
        (o.mark t.handle).onStack = false := by
    intro u hu huv b hb
    obtain ⟨n, hn, rfl⟩ := (expands_iff hx hsw.canonical hu).1 hb
    have hn : n ∈ edgesOf sys (o.mark u.handle) u := by
      rwa [edgesOf_congr ((mark_left_reduced v _ _).trans (hsw.reduced _))] at hn
    rcases (hi.visited_iff hu).1 huv with hold | hnew
    · have hu : u ∈ store.vertices := h.placed.mem_of_visited hsw.canonical hsw.grows hu hold
      obtain ⟨t, ht, htn, htv⟩ := h.visited u hu hold n hn
      refine ⟨t, hsw.grows t ht, htn, hsw.kept _ htv, Bool.eq_false_iff.2 fun hts => ?_⟩
      exact (hs.closed t ht htv).2 ((h.onStack t ht).1 hts)
    · obtain ⟨t, ht, htn, hp⟩ := (hi.edges u hnew n hn).resolve_left fun ⟨f, hf, _⟩ => nomatch hf
      exact ⟨t, ht, htn, (hi.visited_iff ht).2 hp.visited, hp.off⟩
  have hvisited : ((o.absorb inner stats').mark v.handle).visited = true :=
    (hi.visited_iff (hsw.grows v hv)).2 (hi.seeds.resolve_left fun hx => nomatch hx.1).2
  have hall : ∀ b, TransGen (Expands sys store' ((o.absorb inner stats').left v)) v.state b →
      ∃ t ∈ store'.vertices, t.state = b ∧ ((o.absorb inner stats').mark t.handle).visited = true ∧
        (o.mark t.handle).onStack = false := by
    intro b hb
    induction hb with
    | single hb => exact hstep v (hsw.grows v hv) hvisited _ hb
    | tail _ hb ih =>
      obtain ⟨u, hu, rfl, huv, -⟩ := ih
      exact hstep u hu huv _ hb
  intro hcycle
  obtain ⟨t, ht, htv, -, hoff⟩ := hall _ hcycle
  obtain rfl := hsw.canonical.eq_of_state ht (hsw.grows v hv) htv
  rw [hon] at hoff
  cases hoff

end sweep

theorem Grows.transGen (h : Inv sys reduction limit vs opened [] p) (hx : sys.Explicit)
    (hs : Strict sys opened p) (hg : Grows opened p p') (hc : p'.store.Canonical sys)
    {v : Vertex σ} (hv : v ∈ p.store.vertices)
    (hvis : (p.observation.mark v.handle).visited = true) {b : σ}
    (hb : TransGen (Expands sys p'.store p'.observation) v.state b) :
    TransGen (Expands sys p.store p.observation) v.state b := by
  have hstep : ∀ u ∈ p.store.vertices, (p.observation.mark u.handle).visited = true → ∀ b,
      Expands sys p'.store p'.observation u.state b → Expands sys p.store p.observation u.state b ∧
        ∃ t ∈ p.store.vertices, t.state = b ∧ (p.observation.mark t.handle).visited = true := by
    intro u hu huv b hb
    rw [expands_iff hx hc (hg.store u hu), hg.edges (hs.closed u hu huv).1] at hb
    refine ⟨(expands_iff hx h.canonical hu).2 hb, ?_⟩
    obtain ⟨n, hn, rfl⟩ := hb
    exact h.visited u hu huv n hn
  -- induct on the path with its end visited, so that the next edge can be traced back
  suffices hboth : TransGen (Expands sys p.store p.observation) v.state b ∧
      ∃ t ∈ p.store.vertices, t.state = b ∧ (p.observation.mark t.handle).visited = true from hboth.1
  induction hb with
  | single hb =>
    obtain ⟨he, ht⟩ := hstep v hv hvis _ hb
    exact ⟨.single he, ht⟩
  | tail _ hb ih =>
    obtain ⟨hpath, u, hu, rfl, huv⟩ := ih
    obtain ⟨he, ht⟩ := hstep u hu huv _ hb
    exact ⟨hpath.tail he, ht⟩

theorem Strict.turn (hs : Strict sys opened p) (h : Inv sys reduction limit vs opened [] p)
    (hx : sys.Explicit) (hseed : Seeded sys vs)
    (hno : ¬ SearchesAhead sys.Joins sys.initials (sys.accepting · = true))
    (ht : Turn sys reduction opened p opened' p') : Strict sys opened' p' := by
  have hc : p'.store.Canonical sys := (h.turn hx hseed ht).canonical
  -- what was closed before the step and accepts is visited, and stays on no cycle
  have hold : ∀ v ∈ opened, v ∉ p.path → sys.accepting v.state = true →
      ¬ TransGen (Expands sys p'.store p'.observation) v.state v.state := fun v hv hp ha hcycle =>
    hs.acyclic v hv hp ha
      ((h.grows ht).transGen h hx hs hc (h.opened_mem v hv) (h.accepted v hv hp ha) hcycle)
  cases ht with
  | skipSeed => exact ⟨hs.closed, hold⟩
  | @openSeed v seeds store o o' r stats stats' hr he hst =>
    have hfresh : v ∉ opened := h.fresh v List.mem_cons_self
    refine ⟨fun w hw hwv => ?_, fun w hw hp ha => ?_⟩
    · obtain ⟨hwo, -⟩ := hs.closed w hw ((he.visited _).symm.trans hwv)
      refine ⟨List.mem_cons_of_mem _ hwo, fun hp => ?_⟩
      obtain rfl : w = v := List.mem_singleton.1 hp
      exact hfresh hwo
    · exact hold w ((List.mem_cons.1 hw).resolve_left fun hwv => hp (hwv ▸ List.mem_cons_self))
        nofun ha
  | skipEdge => exact ⟨hs.closed, hold⟩
  | @openEdge u n todo frames seeds store o o' t r store' stats stats' hst hr he hstats =>
    refine ⟨fun w hw hwv => ?_, fun w hw hp ha => ?_⟩
    · have hwv : (o.mark w.handle).visited = true := (he.visited _).symm.trans hwv
      have hw : w ∈ store.vertices := h.placed.mem_of_visited hst.canonical hst.grows hw hwv
      obtain ⟨hwo, hwp⟩ := hs.closed w hw hwv
      refine ⟨List.mem_cons_of_mem _ hwo, fun hp => ?_⟩
      exact (List.mem_cons.1 hp).elim (hst.ne_of_mem hw) hwp
    · exact hold w ((List.mem_cons.1 hw).resolve_left fun hwt => hp (hwt ▸ List.mem_cons_self))
        (fun hm => hp (List.mem_cons_of_mem _ hm)) ha
  | @close v frames seeds store o stats hacc =>
    refine ⟨fun w hw hwv => ?_, fun w hw hp ha => ?_⟩
    · obtain ⟨hwo, hwp⟩ := hs.closed w hw ((mark_left_visited v o _).symm.trans hwv)
      exact ⟨hwo, fun hm => hwp (List.mem_cons_of_mem _ hm)⟩
    · refine hold w hw (fun hm => ?_) ha
      rcases List.mem_cons.1 hm with rfl | hm
      · rw [hacc] at ha
        cases ha
      · exact hp hm
  | @sweep v frames seeds store o fresh store' inner stats stats' hacc hi =>
    refine ⟨fun w hw hwv => ?_, fun w hw hp ha => ?_⟩
    · rcases (hi.visited_iff hw).1 ((mark_left_visited v _ _).symm.trans hwv) with hv | hv
      · have hw : w ∈ store.vertices := h.placed.mem_of_visited hi.canonical hi.grows hw hv
        obtain ⟨hwo, hwp⟩ := hs.closed w hw hv
        exact ⟨hwo, fun hm => hwp (List.mem_cons_of_mem _ hm)⟩
      · exact h.closed_of_fresh hx hseed hno hacc hi w hv
    · by_cases hwv : w = v
      · subst hwv
        exact h.acyclic_start hx hs hi
      · refine hold w hw (fun hm => ?_) ha
        exact hp ((List.mem_cons.1 hm).resolve_left hwv)

theorem strict_start {store : Store σ} : Strict sys [] ⟨[], vs, store, {}, {}⟩ := by
  refine ⟨fun v _ hv => ?_, nofun⟩
  rw [show ({} : Outer σ).mark v.handle = {} from Std.TreeMap.getD_emptyc] at hv
  cases hv

section finish
variable {store : Store σ} {o : Outer σ} {stats : SearchStats}

theorem Inv.stored_initial (h : Inv sys reduction limit vs opened [] p) (hseed : Seeded sys vs)
    {s : σ} (hs : s ∈ sys.initials) : ∃ v ∈ p.store.vertices, v.state = s := by
  rw [← hseed.states_eq] at hs
  obtain ⟨x, hx, rfl⟩ := List.mem_map.1 hs
  exact ⟨x.1, h.seeds_mem x hx, rfl⟩

theorem Strict.opened_of_mem (hs : Strict sys opened ⟨[], [], store, o, stats⟩)
    (h : Inv sys reduction limit vs opened [] ⟨[], [], store, o, stats⟩) {v : Vertex σ}
    (hv : v ∈ store.vertices) : v ∈ opened := by
  -- nothing is due or waiting, and what is visited was opened
  rcases h.covered v hv with hm | hm | hm | hm
  · exact hm
  · cases hm
  · cases hm
  · exact (hs.closed v hv hm).1

theorem Strict.stored (hs : Strict sys opened ⟨[], [], store, o, stats⟩)
    (h : Inv sys reduction limit vs opened [] ⟨[], [], store, o, stats⟩) (hx : sys.Explicit)
    (hseed : Seeded sys vs) {s a : σ} (hi : s ∈ sys.initials)
    (hr : ReflTransGen (Expands sys store o) s a) : ∃ v ∈ store.vertices, v.state = a := by
  induction hr with
  | refl => exact h.stored_initial hseed hi
  | tail _ hb ih =>
    obtain ⟨v, hv, rfl⟩ := ih
    obtain ⟨n, hn, rfl⟩ := (expands_iff hx h.canonical hv).1 hb
    exact (h.edges v (hs.opened_of_mem h hv) n hn).resolve_left fun ⟨f, hf, _⟩ => nomatch hf

theorem Strict.finish (hs : Strict sys opened ⟨[], [], store, o, stats⟩)
    (h : Inv sys reduction limit vs opened [] ⟨[], [], store, o, stats⟩) (hx : sys.Explicit)
    (hseed : Seeded sys vs) {s a : σ} (hi : s ∈ sys.initials)
    (hr : ReflTransGen (Expands sys store o) s a) :
    sys.accepting a = true → ¬ TransGen (Expands sys store o) a a := by
  obtain ⟨v, hv, rfl⟩ := hs.stored h hx hseed hi hr
  exact hs.acyclic v (hs.opened_of_mem h hv) nofun

end finish

end Outer

end Nested

end ModelChecker
