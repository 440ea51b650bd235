import Mathlib.Data.List.Sort
import Mathlib.Order.Extension.Linear
import ModelChecker.Proofs.NestedVerdict

namespace ModelChecker

open Relation

namespace Nested.Outer

open DepthFirst

variable {σ : Type} {sys : System σ} {limit : Option Nat} {vs : List (Vertex σ × Bool)}
  {opened opened' : List (Vertex σ)} {p p' : Position σ (Outer σ)}

/-- `c` was not opened, and it is visited once `b` is no longer waiting to be opened. -/
structure Missed (b c : σ) (opened : List (Vertex σ)) (p : Position σ (Outer σ)) : Prop where
  unopened : ∀ v ∈ opened, v.state ≠ c
  early : (∃ v, (v, true) ∈ p.seeds ∧ v.state = b) ∨
    ∃ v ∈ p.store.vertices, v.state = c ∧ (p.observation.mark v.handle).visited = true

theorem Inv.edgesOf_eq (h : Inv sys false limit vs opened [] p) (v : Vertex σ) :
    edgesOf sys (p.observation.mark v.handle) v = sys.successors v.state := by
  rw [edgesOf, h.full rfl, if_neg Bool.false_ne_true]

theorem Inv.visited_of_joins (h : Inv sys false limit vs opened [] p) {v : Vertex σ} {b : σ}
    (hv : v ∈ p.store.vertices) (hvis : (p.observation.mark v.handle).visited = true)
    (hb : ReflTransGen sys.Joins v.state b) :
    ∃ t ∈ p.store.vertices, t.state = b ∧ (p.observation.mark t.handle).visited = true := by
  induction hb with
  | refl => exact ⟨v, hv, rfl, hvis⟩
  | tail _ hb ih =>
    obtain ⟨u, hu, rfl, huv⟩ := ih
    obtain ⟨n, hn, rfl⟩ := hb
    exact h.visited u hu huv n ((h.edgesOf_eq u).symm ▸ hn)

/-- While no state is open, all that the seeds that are done lead to, past the others, is opened or
visited. -/
theorem Inv.met (h : Inv sys false limit vs opened [] p) (hseed : Seeded sys vs)
    (hframes : p.frames = []) {done : List (Vertex σ × Bool)} (hvs : vs = done ++ p.seeds) {i a : σ}
    (hi : i ∈ done.map (·.1.state))
    (ha : ReflTransGen (fun x y => sys.Joins x y ∧
      (y ∈ p.seeds.map (·.1.state) → y ∈ done.map (·.1.state))) i a) :
    ∃ v ∈ p.store.vertices, v.state = a ∧
      (v ∈ opened ∨ (p.observation.mark v.handle).visited = true) := by
  -- a state of the store that is none of the waiting seeds was dealt with
  have hcovered : ∀ v ∈ p.store.vertices, (v.state ∈ p.seeds.map (·.1.state) →
      v.state ∈ done.map (·.1.state)) →
      v ∈ opened ∨ (p.observation.mark v.handle).visited = true := by
    intro v hv hpast
    rcases h.covered v hv with hm | hm | hm | hm
    · exact .inl hm
    · cases hm
    · obtain ⟨hpost, hpre⟩ := (h.pending hseed hvs hv).1 hm
      exact absurd (hpast hpost) hpre
    · exact .inr hm
  induction ha with
  | refl =>
    obtain ⟨s, hs, rfl⟩ := List.mem_map.1 hi
    have hv := h.seeds_mem s (hvs ▸ List.mem_append_left _ hs)
    exact ⟨s.1, hv, rfl, hcovered s.1 hv fun _ => hi⟩
  | tail _ hb ih =>
    obtain ⟨u, hu, rfl, hmet⟩ := ih
    obtain ⟨⟨n, hn, rfl⟩, hpast⟩ := hb
    rw [← h.edgesOf_eq u] at hn
    rcases hmet with hopen | hvis
    · obtain ⟨t, ht, hts⟩ := (h.edges u hopen n hn).resolve_left fun ⟨f, hf, _⟩ => by
        rw [hframes] at hf
        cases hf
      exact ⟨t, ht, hts, hcovered t ht (hts ▸ hpast)⟩
    · obtain ⟨t, ht, hts, htv⟩ := h.visited u hu hvis n hn
      exact ⟨t, ht, hts, .inr htv⟩

/-- When a state that can be met too early is about to be opened, it is visited already. -/
theorem Inv.visited_of_metEarly {v : Vertex σ} {seeds : List (Vertex σ × Bool)} {store : Store σ}
    {o : Outer σ} {stats : SearchStats}
    (h : Inv sys false limit vs opened [] ⟨[], (v, true) :: seeds, store, o, stats⟩)
    (hseed : Seeded sys vs)
    (hearly : MetEarly sys.Joins sys.initials (sys.accepting · = true) v.state) :
    (o.mark v.handle).visited = true := by
  obtain ⟨done, hvs, -⟩ := h.seeds
  have hv : v ∈ store.vertices := h.seed_mem List.mem_cons_self
  obtain ⟨pre, post, hinit, -, hnot, i, hi, a, ha, hia, hab⟩ := hearly
  -- all of `pre` is done, and what is not done is in the rest of the list
  obtain ⟨between, hdone, hpost⟩ : ∃ between, done.map (·.1.state) = pre ++ between ∧
      post = between ++ ((v, true) :: seeds).map (·.1.state) := by
    rw [← hseed.states_eq, hvs, List.map_append, eq_comm, List.append_eq_append_iff] at hinit
    rcases hinit with hinit | ⟨between, hpre, hrest⟩
    · exact hinit
    · cases between with
      | nil => exact ⟨[], by rw [hpre, List.append_nil, List.append_nil], hrest.symm⟩
      | cons x rest =>
        have hx : v.state = x := (List.cons.inj hrest).1
        exact absurd (hpre ▸ List.mem_append_right _ (hx ▸ List.mem_cons_self)) hnot
  have hpast : ReflTransGen (fun x y => sys.Joins x y ∧
      (y ∈ ((v, true) :: seeds).map (·.1.state) → y ∈ done.map (·.1.state))) i a := by
    refine ReflTransGen.mono (fun x y hxy => ⟨hxy.1, fun hy => ?_⟩) _ _ hia
    exact hdone ▸ List.mem_append_left _ (hxy.2 (hpost ▸ List.mem_append_right _ hy))
  obtain ⟨w, hw, rfl, hmet⟩ :=
    h.met hseed rfl hvs (hdone ▸ List.mem_append_left _ hi) hpast
  -- the accepting state is closed, so its inner search has visited it, or an earlier one has
  have hvisited : (o.mark w.handle).visited = true := by
    rcases hmet with hopen | hvis
    · exact h.accepted w hopen nofun ha
    · exact hvis
  obtain ⟨t, ht, hts, htv⟩ := h.visited_of_joins hw hvisited hab
  obtain rfl : t = v := h.canonical.eq_of_state ht hv hts
  exact htv

/-- `c` is no initial state, and is entered from `b` alone. -/
structure Behind (sys : System σ) (b c : σ) : Prop where
  joins : sys.Joins b c
  only : ∀ a, sys.Joins a c → a = b ∨ a = c
  notMem : c ∉ sys.initials

section missed
variable {b c : σ}

theorem missed_start {store : Store σ}
    (h : Inv sys false limit vs [] [] ⟨[], vs, store, {}, {}⟩) (hseed : Seeded sys vs)
    (hb : b ∈ sys.initials) : Missed b c [] ⟨[], vs, store, {}, {}⟩ := by
  obtain ⟨v, hv, rfl⟩ := h.stored_initial hseed hb
  exact ⟨nofun, .inl ⟨v, hseed.mem_of_mem h.canonical h.seeds_mem hv hb, rfl⟩⟩

theorem Missed.turn (hm : Missed b c opened p) (h : Inv sys false limit vs opened [] p)
    (hx : sys.Explicit) (hseed : Seeded sys vs)
    (hearly : MetEarly sys.Joins sys.initials (sys.accepting · = true) b) (hb : Behind sys b c)
    (ht : Turn sys false opened p opened' p') : Missed b c opened' p' := by
  have hgrows := h.grows ht
  have hvisited : (∃ v ∈ p.store.vertices, v.state = c ∧
        (p.observation.mark v.handle).visited = true) →
      ∃ v ∈ p'.store.vertices, v.state = c ∧ (p'.observation.mark v.handle).visited = true :=
    fun ⟨v, hv, hvc, hvv⟩ => ⟨v, hgrows.store v hv, hvc, hgrows.visited _ hvv⟩
  cases ht with
  | skipSeed =>
    refine ⟨hm.unopened, hm.early.imp_left ?_⟩
    rintro ⟨w, hw, hwb⟩
    exact ⟨w, (List.mem_cons.1 hw).resolve_left (fun he => nomatch he), hwb⟩
  | @openSeed v seeds store o o' r stats stats' hr he hs =>
    have hinit : v.state ∈ sys.initials := h.seed_initial hseed List.mem_cons_self
    refine ⟨List.forall_mem_cons.2 ⟨fun hvc => hb.notMem (hvc ▸ hinit), hm.unopened⟩, ?_⟩
    rcases hm.early with ⟨w, hw, rfl⟩ | hc
    · rcases List.mem_cons.1 hw with heq | hw
      · -- the state that was met too early is opened now
        cases heq
        have hvis := h.visited_of_metEarly hseed hearly
        exact .inr (hvisited (h.visited_of_joins (h.seed_mem List.mem_cons_self) hvis
          (.single hb.joins)))
      · exact .inl ⟨w, hw, rfl⟩
    · exact .inr (hvisited hc)
  | skipEdge => exact ⟨hm.unopened, hm.early⟩
  | @openEdge u n todo frames seeds store o o' t r store' stats stats' hst hr he hs =>
    have hopen : u ∈ opened := h.path_sub u List.mem_cons_self
    have hn := mem_successors_of_mem_edgesOf hx (h.todo _ List.mem_cons_self n List.mem_cons_self)
    refine ⟨List.forall_mem_cons.2 ⟨fun htc => ?_, hm.unopened⟩, hm.early.imp_right hvisited⟩
    rcases hm.early with ⟨w, hw, rfl⟩ | ⟨w, hw, hwc, -⟩
    · -- only the waiting state and the target itself lead there, and neither is open
      rcases hb.only u.state ⟨n, hn, hst.state.symm.trans htc⟩ with hub | huc
      · obtain rfl := h.canonical.eq_of_state (h.opened_mem u hopen) (h.seed_mem hw) hub
        exact h.fresh u hw hopen
      · exact hm.unopened u hopen huc
    · obtain rfl := hst.canonical.eq_of_state (hst.grows w hw) hst.mem (hwc.trans htc.symm)
      exact hst.ne_of_mem hw rfl
  | close => exact ⟨hm.unopened, hm.early.imp_right hvisited⟩
  | sweep => exact ⟨hm.unopened, hm.early.imp_right hvisited⟩

end missed

end Nested.Outer

namespace Graph

variable {g : Graph} {ig : IndexedGraph} {config : SearchConfig} {b c : Node}

/-- The graph with an accepting self-loop at `c` that is entered from `b`. -/
def withLoop (g : Graph) (b c : Node) : Graph :=
  (g.addPlainEdges [(b, c), (c, c)]).addAccepting [c]

/-- `c` is no initial state and on no edge. -/
def Isolated (g : Graph) (c : Node) : Prop :=
  c ∉ g.initial ∧ ∀ e ∈ g.edges, e.source ≠ c ∧ e.target ≠ c

theorem joins_withLoop {x y : Node} :
    (g.withLoop b c).Joins x y ↔ g.Joins x y ∨ (x = b ∨ x = c) ∧ y = c := by
  constructor
  · rintro ⟨e, he, rfl, rfl⟩
    rcases List.mem_append.1 he with he | he
    · exact .inl ⟨e, he, rfl, rfl⟩
    · simp only [List.map_cons, List.map_nil, List.mem_cons, List.not_mem_nil, or_false] at he
      rcases he with rfl | rfl
      · exact .inr ⟨.inl rfl, rfl⟩
      · exact .inr ⟨.inr rfl, rfl⟩
  · rintro (⟨e, he, hs, ht⟩ | ⟨rfl | rfl, rfl⟩)
    · exact ⟨e, List.mem_append_left _ he, hs, ht⟩
    · exact ⟨_, List.mem_append_right _ List.mem_cons_self, rfl, rfl⟩
    · exact ⟨_, List.mem_append_right _ (List.mem_cons_of_mem _ List.mem_cons_self), rfl, rfl⟩

theorem Isolated.joins_of_ne (hc : g.Isolated c) {x y : Node} (hxy : (g.withLoop b c).Joins x y)
    (hy : y ≠ c) : g.Joins x y ∧ x ≠ c := by
  obtain ⟨e, he, rfl, rfl⟩ := (joins_withLoop.1 hxy).resolve_right fun hr => hy hr.2
  exact ⟨⟨e, he, rfl, rfl⟩, (hc.2 e he).1⟩

theorem reflTransGen_of_ne {R R' : Node → Node → Prop}
    (hstep : ∀ x y, R' x y → y ≠ c → R x y ∧ x ≠ c) {x y : Node} (h : ReflTransGen R' x y)
    (hy : y ≠ c) : ReflTransGen R x y ∧ x ≠ c := by
  induction h with
  | refl => exact ⟨.refl, hy⟩
  | tail _ hlast ih =>
    obtain ⟨hr, hne⟩ := hstep _ _ hlast hy
    exact ⟨(ih hne).1.tail hr, (ih hne).2⟩

theorem Isolated.metEarly_iff (hc : g.Isolated c) {x : Node} (hx : x ≠ c) :
    MetEarly (g.withLoop b c).Joins g.initial (· ∈ (g.withLoop b c).accepting) x ↔
      MetEarly g.Joins g.initial (· ∈ g.accepting) x := by
  constructor
  · rintro ⟨pre, post, hinit, hpost, hpre, i, hi, a, ha, hia, hax⟩
    obtain ⟨hax, hne⟩ := reflTransGen_of_ne (fun _ _ => hc.joins_of_ne) hax hx
    obtain ⟨hia, -⟩ := reflTransGen_of_ne (R := fun x y => g.Joins x y ∧ (y ∈ post → y ∈ pre))
      (fun _ _ hxy hy => ⟨⟨(hc.joins_of_ne hxy.1 hy).1, hxy.2⟩, (hc.joins_of_ne hxy.1 hy).2⟩)
      hia hne
    have ha : a ∈ g.accepting := (List.mem_append.1 ha).resolve_right fun hm =>
      hne (List.mem_singleton.1 hm)
    exact ⟨pre, post, hinit, hpost, hpre, i, hi, a, ha, hia, hax⟩
  · rintro ⟨pre, post, hinit, hpost, hpre, i, hi, a, ha, hia, hax⟩
    exact ⟨pre, post, hinit, hpost, hpre, i, hi, a, List.mem_append_left _ ha,
      ReflTransGen.mono (fun _ _ hxy => ⟨joins_withLoop.2 (.inl hxy.1), hxy.2⟩) _ _ hia,
      ReflTransGen.mono (fun _ _ hxy => joins_withLoop.2 (.inl hxy)) _ _ hax⟩

theorem Isolated.searchesAhead_iff (hc : g.Isolated c) :
    (g.withLoop b c).SearchesAhead ↔ g.SearchesAhead := by
  refine exists_congr fun x => ?_
  by_cases hx : x = c
  · -- the loop is no initial state
    subst hx
    exact iff_of_false (fun h => hc.1 h.mem) fun h => hc.1 h.mem
  · exact hc.metEarly_iff hx

theorem Isolated.hasAcceptingCycle (hc : g.Isolated c) {a : Node} (hne : a ≠ c)
    (ha : a ∈ (g.withLoop b c).accepting) (hr : (g.withLoop b c).Reachable a)
    (hcycle : TransGen (g.withLoop b c).Joins a a) : g.HasAcceptingCycle := by
  have hstep : ∀ x y, (g.withLoop b c).Joins x y → y ≠ c → g.Joins x y ∧ x ≠ c :=
    fun _ _ => hc.joins_of_ne
  obtain ⟨s, hs, hsa⟩ := hr
  obtain ⟨m, ham, hma⟩ := TransGen.tail'_iff.1 hcycle
  obtain ⟨hma, hm⟩ := hstep m a hma hne
  refine ⟨a, (List.mem_append.1 ha).resolve_right fun hx => hne (List.mem_singleton.1 hx),
    ⟨s, hs, (reflTransGen_of_ne hstep hsa hne).1⟩, .tail' (reflTransGen_of_ne hstep ham hm).1 hma⟩

theorem hasAcceptingCycle_withLoop (hb : b ∈ g.initial) : (g.withLoop b c).HasAcceptingCycle :=
  ⟨c, List.mem_append_right _ List.mem_cons_self,
    ⟨b, hb, .single (joins_withLoop.2 (.inr ⟨.inl rfl, rfl⟩))⟩,
    .single (joins_withLoop.2 (.inr ⟨.inr rfl, rfl⟩))⟩

theorem exists_index_withLoop (h : g.index = .ok ig) (initial : List Node) :
    ∃ ig', index { g.withLoop b c with initial } = .ok ig' := by
  refine exists_index_iff.2 fun e he t ht => joins_withLoop.2 (.inl ?_)
  exact exists_index_iff.1 ⟨ig, h⟩ e he t ht

/-- A search that meets `b` too early clears the graph with a loop behind `b`, if there is no other
accepting cycle. -/
theorem clears_of_metEarly (h : (g.withLoop b c).index = .ok ig) (hred : config.reduction = false)
    (hl : config.maxStates = none) (hno : ¬ g.HasAcceptingCycle) (hc : g.Isolated c)
    (hearly : MetEarly g.Joins g.initial (· ∈ g.accepting) b) :
    (g.withLoop b c).Clears config := by
  have hx := index_explicit h
  have hinit : ig.system.initials = (g.withLoop b c).initial := index_initials h
  have hb := hearly.mem
  have hbc : b ≠ c := fun he => hc.1 (he ▸ hb)
  have hjoins := index_joins h
  have hmet : MetEarly ig.system.Joins ig.system.initials (ig.system.accepting · = true) b := by
    have hacc : (fun a => ig.system.accepting a = true) = (· ∈ (g.withLoop b c).accepting) :=
      funext fun a => propext (index_accepting h a)
    rw [hjoins, hinit, hacc]
    exact (hc.metEarly_iff hbc).2 hearly
  have hbehind : Nested.Outer.Behind ig.system b c := by
    refine ⟨hjoins ▸ joins_withLoop.2 (.inr ⟨.inl rfl, rfl⟩), fun a ha => ?_, hinit ▸ hc.1⟩
    rw [hjoins] at ha
    rcases joins_withLoop.1 ha with ⟨e, he, -, het⟩ | ⟨hor, -⟩
    · exact absurd het (hc.2 e he).2
    · exact hor
  have hkept : Nested.Kept ig.system config fun _ opened p => Nested.Outer.Missed b c opened p := by
    refine ⟨fun vs store hseed hi => ?_, fun vs opened p opened' p' hr ht => ?_⟩
    · rw [hred] at hi
      exact Nested.Outer.missed_start hi hseed (hinit ▸ hb)
    · have hinv := hr.inv
      rw [hred] at hinv ht
      exact hr.holds.turn hinv hx hr.seeded hmet hbehind ht
  have hout := Nested.nestedSearch_outcome hx hkept
  generalize hr : nestedSearch ig.system config = r at hout
  cases hout with
  | full hlimit => exact absurd hl hlimit
  | @violated vs opened p l stats stored hend hlasso hgoal =>
    -- the goal was opened, so that the cycle is not the loop
    have hlasso := isLasso_map h hlasso
    obtain ⟨hreach, hcycle⟩ := hlasso.goal_cycle
    have hfound :=
      hc.hasAcceptingCycle (hend.holds.unopened _ hgoal) hlasso.accepting hreach hcycle
    exact absurd hfound hno
  | @cleared vs opened store o stats stats' hend he =>
    refine ⟨ig, _, h, hr, if_neg fun hempty => ?_⟩
    have hnil := hend.inv.initials_eq_nil hend.seeded hempty
    rw [hinit] at hnil
    exact List.ne_nil_of_mem hb hnil

/-- `y` is `x` or should be listed before it: from the initial state `x` an accepting state is
reached that leads to `y`. -/
def Precedes (g : Graph) (y x : Node) : Prop :=
  y = x ∨ x ∈ g.initial ∧ ∃ a ∈ g.accepting, ReflTransGen g.Joins x a ∧ ReflTransGen g.Joins a y

theorem isPartialOrder_precedes (hno : ¬ g.HasAcceptingCycle) : IsPartialOrder Node g.Precedes where
  refl _ := .inl rfl
  trans z y x hzy hyx := by
    rcases hzy with rfl | ⟨hy, a', ha', hya', haz⟩
    · exact hyx
    · rcases hyx with rfl | ⟨hx, a, -, hxa, hay⟩
      · exact .inr ⟨hy, a', ha', hya', haz⟩
      · exact .inr ⟨hx, a', ha', (hxa.trans hay).trans hya', haz⟩
  antisymm y x hyx hxy := by
    rcases hyx with rfl | ⟨hx, a, ha, hxa, hay⟩
    · rfl
    · rcases hxy with rfl | ⟨-, a', -, hya', hax⟩
      · rfl
      · -- the two paths together lead from `a` back to it
        by_contra hne
        have hyx : TransGen g.Joins y x :=
          (reflTransGen_iff_eq_or_transGen.1 (hya'.trans hax)).resolve_left fun he => hne he.symm
        exact hno ⟨a, ha, ⟨x, hx, hxa⟩, (TransGen.trans_right hay hyx).trans_left hxa⟩

theorem exists_perm_not_searchesAhead (hno : ¬ g.HasAcceptingCycle) :
    ∃ initial, initial.Perm g.initial ∧ ¬ SearchesAhead { g with initial } := by
  classical
  have := isPartialOrder_precedes hno
  -- sort by a linear order that extends the precedence
  obtain ⟨s, hs, hle⟩ := extend_partialOrder g.Precedes
  refine ⟨g.initial.insertionSort s, List.perm_insertionSort s _, ?_⟩
  rintro ⟨b, pre, post, hinit, hpost, hpre, i, hi, a, ha, hia, hab⟩
  have hinit : g.initial.insertionSort s = pre ++ post := hinit
  have hsorted := List.pairwise_insertionSort s g.initial
  rw [hinit, List.pairwise_append] at hsorted
  have hmem : i ∈ g.initial := by
    rw [← List.mem_insertionSort s, hinit]
    exact List.mem_append_left _ hi
  have hbi : s b i := hle b i
    (.inr ⟨hmem, a, ha, ReflTransGen.mono (fun _ _ hxy => hxy.1) _ _ hia, hab⟩)
  have heq : i = b := hs.antisymm i b (hsorted.2.2 i hi b hpost) hbi
  exact hpre (heq ▸ hi)

theorem searchesAhead_iff_exists_missed (h : g.index = .ok ig) (hred : config.reduction = false)
    (hl : config.maxStates = none) (hno : ¬ g.HasAcceptingCycle) (hc : g.Isolated c) :
    g.SearchesAhead ↔ ∃ b ∈ g.initial, ∃ initial, initial.Perm g.initial ∧
      (g.withLoop b c).Clears config ∧ Finds { g.withLoop b c with initial } config := by
  constructor
  · rintro ⟨b, hearly⟩
    have hb := hearly.mem
    obtain ⟨initial, hperm, hahead⟩ := exists_perm_not_searchesAhead hno
    obtain ⟨ig₁, h₁⟩ := exists_index_withLoop (b := b) (c := c) h g.initial
    obtain ⟨ig₂, h₂⟩ := exists_index_withLoop (b := b) (c := c) h initial
    refine ⟨b, hb, initial, hperm, clears_of_metEarly h₁ hred hl hno hc hearly, ?_⟩
    have hc₂ : Isolated { g with initial } c := ⟨fun hm => hc.1 (hperm.mem_iff.1 hm), hc.2⟩
    have hcycle : HasAcceptingCycle { g.withLoop b c with initial } :=
      hasAcceptingCycle_withLoop (g := { g with initial }) (hperm.mem_iff.2 hb)
    exact hcycle.finds h₂ hred hl (mt hc₂.searchesAhead_iff.1 hahead)
  · rintro ⟨b, hb, initial, -, hclears, -⟩
    by_contra hahead
    obtain ⟨ig₁, h₁⟩ := exists_index_withLoop (b := b) (c := c) h g.initial
    refine (clears_iff h₁ hl (List.ne_nil_of_mem hb)).1 hclears ?_
    exact (hasAcceptingCycle_withLoop hb).finds h₁ hred hl (mt hc.searchesAhead_iff.1 hahead)

/-- `initial` has the initial states in some order, and with them only states that they reach. -/
def Relists (g : Graph) (initial : List Node) : Prop :=
  ∃ extra, initial.Perm (extra ++ g.initial) ∧ ∀ s ∈ extra, g.Reachable s

theorem Relists.reachable_iff {initial : List Node} (h : g.Relists initial) {a : Node} :
    Reachable { g with initial } a ↔ g.Reachable a := by
  obtain ⟨extra, hperm, hextra⟩ := h
  constructor
  · rintro ⟨s, hs, hsa⟩
    rcases List.mem_append.1 (hperm.mem_iff.1 hs) with hs | hs
    · obtain ⟨i, hi, his⟩ := hextra s hs
      exact ⟨i, hi, his.trans hsa⟩
    · exact ⟨s, hs, hsa⟩
  · rintro ⟨s, hs, hsa⟩
    exact ⟨s, hperm.mem_iff.2 (List.mem_append_right _ hs), hsa⟩

theorem Relists.hasAcceptingCycle_iff {initial : List Node} (h : g.Relists initial) :
    HasAcceptingCycle { g with initial } ↔ g.HasAcceptingCycle :=
  exists_congr fun _ => and_congr_right fun _ => and_congr_left fun _ => h.reachable_iff

theorem Relists.ne_nil {initial : List Node} (h : g.Relists initial) (hne : g.initial ≠ []) :
    initial ≠ [] := by
  obtain ⟨extra, hperm, -⟩ := h
  rintro rfl
  exact hne (List.append_eq_nil_iff.1 hperm.nil_eq.symm).2

/-- Listing the initial states anew does not change what a nested search finds, as long as no list
lets one be met too early: such a list finds whatever any other finds. This condition is exact. With
a list that does let one be met too early, some loop is missed that a permutation of the list
finds. -/
theorem nestedSearch_relist (h : g.index = .ok ig) (config : SearchConfig)
    (hred : config.reduction = false) (hl : config.maxStates = none) (hne : g.initial ≠ []) :
    (∀ initial, g.Relists initial →
      (g.Clears config ↔ ¬ g.Finds config) ∧
      (Clears { g with initial } config ↔ ¬ Finds { g with initial } config) ∧
      (¬ g.SearchesAhead → Finds { g with initial } config → g.Finds config) ∧
      (¬ SearchesAhead { g with initial } → g.Finds config → Finds { g with initial } config)) ∧
    ∀ c, g.Isolated c → ¬ g.HasAcceptingCycle →
      (g.SearchesAhead ↔ ∃ b ∈ g.initial, ∃ initial, initial.Perm g.initial ∧
        (g.withLoop b c).Clears config ∧ Finds { g.withLoop b c with initial } config) := by
  refine ⟨fun initial hre => ?_, fun c hc hno => searchesAhead_iff_exists_missed h hred hl hno hc⟩
  have hample := exists_index_iff.1 ⟨ig, h⟩
  obtain ⟨ig', h'⟩ : ∃ ig', index { g with initial } = .ok ig' := exists_index_iff.2 hample
  refine ⟨clears_iff h hl hne, clears_iff h' hl (hre.ne_nil hne), fun hno hf => ?_,
    fun hno hf => ?_⟩
  · exact (hre.hasAcceptingCycle_iff.1 hf.hasAcceptingCycle).finds h hred hl hno
  · exact (hre.hasAcceptingCycle_iff.2 hf.hasAcceptingCycle).finds h' hred hl hno

/-- A chain from an accepting state into an accepting self-loop. -/
def chainToLoop : Graph where
  initial := [0]
  edges := [{ source := 0, target := 1 }, { source := 1, target := 2 }, { source := 2, target := 2 }]
  accepting := [0, 2]

theorem chainToLoop_reachable_one : chainToLoop.Reachable 1 :=
  ⟨0, List.mem_cons_self, .single ⟨{ source := 0, target := 1 }, List.mem_cons_self, rfl, rfl⟩⟩

theorem chainToLoop_not_searchesAhead : ¬ SearchesAhead { chainToLoop with initial := [1, 0] } := by
  have hfrom : ∀ {a}, ReflTransGen chainToLoop.Joins a 0 → a = 0 := by
    intro a ha
    rcases ha.cases_tail with heq | ⟨c, -, e, he, -, ht⟩
    · exact heq.symm
    · have hno : ∀ e ∈ chainToLoop.edges, e.target ≠ 0 := by decide
      exact absurd ht (hno e he)
  rintro ⟨b, pre, post, hinit, hb, hnot, i, hi, a, -, hia, hab⟩
  have hinit : [1, 0] = pre ++ post := hinit
  have hmem : b ∈ [(1 : Node), 0] := hinit ▸ List.mem_append_right _ hb
  rcases List.mem_cons.1 hmem with rfl | hmem
  · -- the first state of the list is in `pre` if any is
    cases pre with
    | nil => cases hi
    | cons x rest =>
      have hx : 1 = x := (List.cons.inj hinit).1
      exact hnot (hx ▸ List.mem_cons_self)
  · obtain rfl := List.mem_singleton.1 hmem
    obtain rfl := hfrom hab
    obtain rfl := hfrom (ReflTransGen.mono (fun _ _ hxy => hxy.1) _ _ hia)
    exact hnot hi

def acceptingPair : Graph where
  initial := [0, 1]
  edges := [{ source := 0, target := 1 }]
  accepting := [0]

theorem acceptingPair_searchesAhead : acceptingPair.SearchesAhead :=
  ⟨1, [0], [1], rfl, by decide, by decide, 0, by decide, 0, by decide, .refl,
    .single ⟨{ source := 0, target := 1 }, List.mem_cons_self, rfl, rfl⟩⟩

theorem acceptingPair_not_hasAcceptingCycle : ¬ acceptingPair.HasAcceptingCycle := by
  rintro ⟨a, ha, -, hcycle⟩
  obtain rfl := List.mem_singleton.1 ha
  obtain ⟨m, -, e, he, -, ht⟩ := TransGen.tail'_iff.1 hcycle
  have hno : ∀ e ∈ acceptingPair.edges, e.target ≠ 0 := by decide
  exact hno e he ht

theorem nestedSearch_relist_chainToLoop :
    (chainToLoop.Finds {} ∧ Finds { chainToLoop with initial := [1, 0] } {}) ∧
      ∃ b ∈ acceptingPair.initial, ∃ initial, initial.Perm acceptingPair.initial ∧
        (acceptingPair.withLoop b 2).Clears {} ∧
        Finds { acceptingPair.withLoop b 2 with initial } {} := by
  have hfinds : chainToLoop.Finds {} :=
    ⟨_, ⟨.violated ⟨[0, 1], [2], [], 2⟩, { states := 3, edges := 3 }, 3⟩, _, rfl, by decide +kernel,
      rfl⟩
  have hrelists : chainToLoop.Relists [1, 0] :=
    ⟨[1], .refl _, fun s hs => List.mem_singleton.1 hs ▸ chainToLoop_reachable_one⟩
  have hchain := nestedSearch_relist (g := chainToLoop) rfl {} rfl rfl (by decide)
  have hpair := nestedSearch_relist (g := acceptingPair) rfl {} rfl rfl (by decide)
  exact ⟨⟨hfinds, (hchain.1 _ hrelists).2.2.2 chainToLoop_not_searchesAhead hfinds⟩,
    (hpair.2 2 ⟨by decide, by decide⟩ acceptingPair_not_hasAcceptingCycle).1
      acceptingPair_searchesAhead⟩

/-- With the second state of the chain listed after the first, the inner search of the first one
meets it too early and hides the loop behind it. -/
theorem clears_of_relist_chainToLoop :
    ∃ ig ig' report report', chainToLoop.index = .ok ig ∧
      index { chainToLoop with initial := [0, 1] } = .ok ig' ∧ chainToLoop.Reachable 1 ∧
      nestedSearch ig.system {} = .ok report ∧ report.verdict = .violated ⟨[0, 1], [2], [], 2⟩ ∧
      nestedSearch ig'.system {} = .ok report' ∧ report'.verdict = .holds :=
  ⟨_, _, ⟨.violated ⟨[0, 1], [2], [], 2⟩, { states := 3, edges := 3 }, 3⟩,
    ⟨.holds, { states := 5, edges := 5 }, 3⟩, rfl, rfl, chainToLoop_reachable_one,
    by decide +kernel, rfl, by decide +kernel, rfl⟩

end Graph

end ModelChecker
