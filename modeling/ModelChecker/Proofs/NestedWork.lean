import ModelChecker.Proofs.NestedRun
import ModelChecker.Proofs.Tally

namespace ModelChecker

@[simp] theorem SearchStats.add_edges (a b : SearchStats) :
    (a + b).edges = a.edges + b.edges := rfl

namespace Nested

open DepthFirst

variable {σ : Type} {sys : System σ}

/-- The inner search from `v`, with a tally. -/
def innerSearch (sys : System σ) (v : Vertex σ) (store : Store σ) (marks : Marks) :
    Exploration σ (Inner σ × Tally σ) :=
  run sys (Inner.listener sys v.handle).tallied sys.extent (.vertices [v]) store ({ marks }, [])

namespace Inner

variable {en : Entry σ}

/-- What an inner search has expanded in the end, and what it leaves. -/
structure Expanded (sys : System σ) (en : Entry σ) (e : Exploration σ (Inner σ × Tally σ)) :
    Prop where
  canonical : e.store.Canonical sys
  grows : ∀ v ∈ en.store.vertices, v ∈ e.store.vertices
  nodup : (e.observation.2.map (·.1)).Nodup
  fresh : ∀ x ∈ e.observation.2, (en.mark x.1).visited = false
  stored : ∀ x ∈ e.observation.2, x.1 ∈ e.store.vertices
  visited : ∀ x ∈ e.observation.2, (e.observation.1.marks.getD x.1.handle {}).visited = true
  kept : ∀ a, (en.marks.getD a {}).visited = true →
    (e.observation.1.marks.getD a {}).visited = true
  edges : ∀ x ∈ e.observation.2, x.2 = edgesOf sys (en.mark x.1) x.1

/-- The tally tells which states are opened, and with which edges. -/
structure Tallied (sys : System σ) (en : Entry σ) (p : Position σ (Inner σ × Tally σ)) : Prop where
  inv : Inv sys en (p.observation.2.map (·.1)) (p.map Prod.fst)
  edges : ∀ x ∈ p.observation.2, x.2 = edgesOf sys (en.mark x.1) x.1

theorem Tallied.step {p p' : Position σ (Inner σ × Tally σ)} (hx : sys.Explicit)
    (hen : en.Ok sys) (h : Tallied sys en p)
    (hg : Goes sys (listener sys en.start.handle).tallied p p') : Tallied sys en p' := by
  have hgoes := hg.map (Listener.tallied_lifts _)
  have hinv := h.inv.step hx hen hgoes
  have hopened : p'.observation.2.map (·.1) =
      (p.opens p').map (·.vertex) ++ p.observation.2.map (·.1) := by
    rw [hg.tally, List.map_append, List.map_map]
    rfl
  refine ⟨hopened ▸ hinv, fun x hx => ?_⟩
  rw [hg.tally] at hx
  rcases List.mem_append.1 hx with hx | hx
  · obtain ⟨f, hf, rfl⟩ := List.mem_map.1 hx
    obtain ⟨o, ho⟩ := hgoes.opens_eq f hf
    rw [listener_successors] at ho
    obtain ⟨htodo, rfl⟩ := Prod.mk.inj ho
    have hmark := hinv.visited f.vertex (List.mem_append_left _ (List.mem_map_of_mem hf))
    rw [hmark] at htodo
    exact htodo.symm
  · exact h.edges x hx

theorem Inv.halts_marks {opened : List (Vertex σ)} {p : Position σ (Inner σ)}
    {e : Exploration σ (Inner σ)} (h : Inv sys en opened p) (hx : sys.Explicit)
    (hh : Halts sys (listener sys en.start.handle) p e) :
    e.store.Canonical sys ∧ (∀ v ∈ p.store.vertices, v ∈ e.store.vertices) ∧
      e.observation.marks = p.observation.marks := by
  cases hh with
  | completed => exact ⟨h.canonical, fun _ hv => hv, rfl⟩
  | stopSeed hf =>
    rw [follow_seed] at hf
    split at hf <;> cases hf
  | full => exact ⟨h.canonical, fun _ hv => hv, rfl⟩
  | stopEdge hst hf =>
    have hst := h.canonical.stored hx hst
    rw [follow_edge] at hf
    split at hf
    · cases hf
      exact ⟨hst.canonical, hst.grows, rfl⟩
    · split at hf <;> cases hf
  | @stopClose v frames seeds store o store' o' stats hc =>
    change ((closed v o).1, store, (closed v o).2) = _ at hc
    rw [closed_top h.stack] at hc
    cases hc

theorem Tallied.halts {p : Position σ (Inner σ × Tally σ)} {e : Exploration σ (Inner σ × Tally σ)}
    (h : Tallied sys en p) (hx : sys.Explicit)
    (hh : Halts sys (listener sys en.start.handle).tallied p e) : Expanded sys en e := by
  obtain ⟨hcanonical, hgrows, hmarks⟩ := h.inv.halts_marks hx (hh.map (Listener.tallied_lifts _))
  have hmarks : e.observation.1.marks = p.observation.1.marks := hmarks
  have hopened : ∀ x ∈ p.observation.2, x.1 ∈ p.observation.2.map (·.1) :=
    fun x hm => List.mem_map_of_mem hm
  refine ⟨hcanonical, fun v hv => hgrows v (h.inv.grows v hv), ?_, ?_, ?_, ?_, ?_, ?_⟩ <;>
    simp only [hh.tally, hmarks]
  · exact h.inv.opened_nodup
  · exact fun x hm => (h.inv.opened_mem x.1 (hopened x hm)).2
  · exact fun x hm => hgrows x.1 (h.inv.opened_mem x.1 (hopened x hm)).1
  · intro x hm
    rw [show p.observation.1.marks.getD x.1.handle {} = _ from h.inv.visited x.1 (hopened x hm)]
  · exact fun a => (Outer.mark_flags h.inv a).2.2
  · exact h.edges

theorem innerSearch_expanded (hx : sys.Explicit) (hen : en.Ok sys) :
    Expanded sys en (innerSearch sys en.start en.store en.marks) := by
  have hseeds : (Seeds.vertices [en.start]).resolve sys en.store =
      .ok ([(en.start, false)], en.store) := rfl
  obtain ⟨p, hp, hh⟩ := run_halts (P := Tallied sys en) hseeds (o := ({ marks := en.marks }, []))
    (l := (listener sys en.start.handle).tallied) (fun _ _ => rfl)
    (fun s v o => length_successors_le hx en.start.handle s v o.1) ⟨inv_start hen, nofun⟩
    (fun p p' h hg => h.step hx hen hg) (fun p h => h.inv.states_le hx)
  exact hp.halts hx hh

end Inner

namespace Outer

/-- The listener of the outer search, with a tally of the inner searches. -/
def tracking (sys : System σ) (reduction : Bool) : Listener σ (Outer σ × Tally σ) where
  edge worker source t flags isNew o :=
    let answer := (listener sys reduction).edge worker source t flags isNew o.1
    (answer.1, answer.2, o.2)
  state worker v o :=
    let answer := (listener sys reduction).state worker v o.1
    (answer.1, answer.2, o.2)
  successors worker store v o :=
    let answer := (listener sys reduction).successors worker store v o.1
    (answer.1, answer.2, o.2)
  closed worker v store o :=
    let answer := (listener sys reduction).closed worker v store o.1
    let inner := if sys.accepting v.state then (innerSearch sys v store o.1.marks).observation.2 else []
    (answer.1, answer.2.1, answer.2.2, inner ++ o.2)

theorem tracking_lifts (sys : System σ) (reduction : Bool) :
    (tracking sys reduction).Lifts Prod.fst (listener sys reduction) :=
  ⟨fun _ _ _ _ _ _ => rfl, fun _ _ _ => rfl, fun _ _ _ => rfl, fun _ _ _ _ => rfl,
    fun _ _ _ _ => rfl⟩

/-- Nothing that an inner search leaves is changed. -/
structure Quiet (o o' : Outer σ) : Prop where
  visited : ∀ a, (o'.mark a).visited = (o.mark a).visited
  innerStats : o'.innerStats = o.innerStats
  error : o'.error = none → o.error = none

namespace Quiet

variable {o o' o'' : Outer σ}

theorem refl (o : Outer σ) : Quiet o o := ⟨fun _ => rfl, rfl, id⟩

theorem trans (h : Quiet o o') (h' : Quiet o' o'') : Quiet o o'' :=
  ⟨fun a => (h'.visited a).trans (h.visited a), h'.innerStats.trans h.innerStats,
    fun he => h.error (h'.error he)⟩

theorem setMark (o : Outer σ) {a : Handle} {m : Mark} (hm : m.visited = (o.mark a).visited) :
    Quiet o (o.setMark a m) := by
  refine ⟨fun b => ?_, rfl, id⟩
  rw [mark_setMark]
  split
  · rename_i hb
    rw [hm, hb]
  · rfl

theorem enter (v : Vertex σ) (o : Outer σ) : Quiet o (o.enter v) :=
  have h := setMark o (m := { o.mark v.handle with onStack := true }) rfl
  ⟨h.visited, h.innerStats, h.error⟩

theorem follow (sys : System σ) (reduction : Bool) (source : Option (Vertex σ)) (t : Vertex σ)
    (flags : EdgeFlags) (isNew : Bool) (o : Outer σ) :
    Quiet o ((listener sys reduction).follow 0 source t flags isNew o).2 := by
  cases source with
  | none =>
    rw [follow_seed]
    split
    · exact enter t o
    · exact refl o
  | some u =>
    rw [follow_edge]
    split
    · split
      · exact ⟨fun _ => rfl, rfl, nofun⟩
      · exact ⟨fun _ => rfl, rfl, id⟩
    · split
      · exact enter t o
      · exact refl o

theorem successors (sys : System σ) (reduction : Bool) (store : Store σ) (v : Vertex σ)
    (o : Outer σ) : Quiet o ((listener sys reduction).successors 0 store v o).2 := by
  change Quiet o (Outer.successors sys reduction store v o).2
  unfold Outer.successors
  split
  · split
    · exact refl o
    · exact setMark o rfl
  · exact refl o

theorem leave (v : Vertex σ) (o : Outer σ) : Quiet o (Outer.leave v o).2 := by
  have h := setMark o (m := { o.mark v.handle with onStack := false }) rfl
  unfold Outer.leave
  simp only
  split
  · exact ⟨h.visited, h.innerStats, nofun⟩
  · split
    · exact ⟨h.visited, h.innerStats, h.error⟩
    · exact ⟨h.visited, h.innerStats, nofun⟩

end Quiet

/-- What the inner searches so far have expanded, all together. -/
structure Tracked (sys : System σ) (reduction : Bool) (store : Store σ) (o : Outer σ)
    (inner : Tally σ) : Prop where
  nodup : (inner.map (·.1)).Nodup
  stored : ∀ x ∈ inner, x.1 ∈ store.vertices
  visited : ∀ x ∈ inner, (o.mark x.1.handle).visited = true
  /-- An inner search starts from an accepting state only. -/
  started : inner ≠ [] ∨ (∃ a, (o.mark a).visited = true) →
    ∃ v ∈ store.vertices, sys.accepting v.state = true
  states : o.error = none → o.innerStats.states = inner.length
  edges : o.error = none → o.innerStats.edges = edgeCount inner
  full : reduction = false → ∀ x ∈ inner, x.2 = sys.successors x.1.state

section tracked

variable {reduction : Bool} {store store' : Store σ} {o o' : Outer σ} {inner : Tally σ}
  {v : Vertex σ}

theorem Tracked.quiet (h : Tracked sys reduction store o inner) (hq : Quiet o o')
    (hgrows : ∀ w ∈ store.vertices, w ∈ store'.vertices) :
    Tracked sys reduction store' o' inner where
  nodup := h.nodup
  stored x hx := hgrows _ (h.stored x hx)
  visited x hx := (hq.visited _).trans (h.visited x hx)
  started hs := by
    simp only [hq.visited] at hs
    obtain ⟨w, hw, ha⟩ := h.started hs
    exact ⟨w, hgrows w hw, ha⟩
  states he := by
    rw [hq.innerStats]
    exact h.states (hq.error he)
  edges he := by
    rw [hq.innerStats]
    exact h.edges (hq.error he)
  full := h.full

theorem searchFrom_eq (sys : System σ) (v : Vertex σ) (store : Store σ) (o : Outer σ) :
    (searchFrom sys v store o).1 = (innerSearch sys v store o.marks).store ∧
      (searchFrom sys v store o).2.marks = (innerSearch sys v store o.marks).observation.1.marks ∧
      ((searchFrom sys v store o).2.error = none → o.error = none ∧
        (searchFrom sys v store o).2.innerStats =
          o.innerStats + (innerSearch sys v store o.marks).stats) := by
  have hrun : run sys (Inner.listener sys v.handle) sys.extent (.vertices [v]) store
      { marks := o.marks } = (innerSearch sys v store o.marks).map Prod.fst :=
    run_map (Listener.tallied_lifts _) sys sys.extent (.vertices [v]) store
      (({ marks := o.marks } : Inner σ), [])
  unfold searchFrom
  rw [hrun]
  simp only [Exploration.map]
  split
  · exact ⟨rfl, rfl, fun he => absurd he (Option.some_ne_none _)⟩
  · exact ⟨rfl, rfl, fun he => absurd he (Option.some_ne_none _)⟩
  · split
    · exact ⟨rfl, rfl, fun he => ⟨he, rfl⟩⟩
    · split
      · exact ⟨rfl, rfl, fun he => absurd he (Option.some_ne_none _)⟩
      · exact ⟨rfl, rfl, fun he => ⟨he, rfl⟩⟩

/-- What an inner search expands is new to all inner searches before it. -/
theorem Tracked.search (h : Tracked sys reduction store o inner) (hx : sys.Explicit)
    {below : List (Vertex σ)} (hen : Entry.Ok sys ⟨store, o.marks, v, below⟩)
    (hfull : reduction = false → ∀ a, (o.mark a).reduced = false)
    (ha : sys.accepting v.state = true) :
    Tracked sys reduction (searchFrom sys v store o).1 (searchFrom sys v store o).2
      ((innerSearch sys v store o.marks).observation.2 ++ inner) := by
  obtain ⟨hstore, hmarks, hstats⟩ := searchFrom_eq sys v store o
  have he : Inner.Expanded sys ⟨store, o.marks, v, below⟩ (innerSearch sys v store o.marks) :=
    Inner.innerSearch_expanded hx hen
  obtain ⟨hstates, hedges⟩ := run_tally (fun a b => (hx.same_iff a b).1)
    (Inner.listener sys v.handle) sys.extent (.vertices [v]) store { marks := o.marks }
  have hmark : ∀ a, (searchFrom sys v store o).2.mark a =
      (innerSearch sys v store o.marks).observation.1.marks.getD a {} := by
    intro a
    rw [mark, hmarks]
  rw [hstore]
  refine ⟨?_, ?_, ?_, ?_, ?_, ?_, ?_⟩
  · rw [List.map_append]
    refine he.nodup.append h.nodup fun w hw hw' => ?_
    -- the states of earlier searches are visited, and those of this one are not
    obtain ⟨x, hx, rfl⟩ := List.mem_map.1 hw
    obtain ⟨y, hy, hyx⟩ := List.mem_map.1 hw'
    have hvisited := h.visited y hy
    rw [hyx] at hvisited
    exact Bool.false_ne_true ((he.fresh x hx).symm.trans hvisited)
  · intro x hx
    rcases List.mem_append.1 hx with hx | hx
    · exact he.stored x hx
    · exact he.grows _ (h.stored x hx)
  · intro x hx
    rw [hmark]
    rcases List.mem_append.1 hx with hx | hx
    · exact he.visited x hx
    · exact he.kept _ (h.visited x hx)
  · exact fun _ => ⟨v, he.grows v (hen.mem v List.mem_cons_self), ha⟩
  · intro herr
    rw [(hstats herr).2, SearchStats.add_states, h.states (hstats herr).1, List.length_append,
      Nat.add_comm]
    exact congrArg (· + _) hstates
  · intro herr
    rw [(hstats herr).2, SearchStats.add_edges, h.edges (hstats herr).1, edgeCount_append,
      Nat.add_comm]
    exact congrArg (· + _) hedges
  · intro hred x hx
    rcases List.mem_append.1 hx with hx | hx
    · rw [he.edges x hx, edgesOf, if_neg]
      exact Bool.eq_false_iff.1 (hfull hred x.1.handle)
    · exact h.full hred x hx

theorem closed_quiet (sys : System σ) (v : Vertex σ) (store : Store σ) (o : Outer σ) :
    (closed sys v store o).2.1 =
        (if sys.accepting v.state then searchFrom sys v store o else (store, o)).1 ∧
      Quiet (if sys.accepting v.state then searchFrom sys v store o else (store, o)).2
        (closed sys v store o).2.2 := by
  unfold closed
  generalize (if sys.accepting v.state then searchFrom sys v store o else (store, o)) = searched
  obtain ⟨store', o'⟩ := searched
  simp only
  split
  · exact ⟨rfl, .refl o'⟩
  · exact ⟨rfl, .leave v o'⟩

theorem closed_store (hx : sys.Explicit) {below : List (Vertex σ)}
    (hen : Entry.Ok sys ⟨store, o.marks, v, below⟩) :
    (closed sys v store o).2.1.Canonical sys ∧
      ∀ w ∈ store.vertices, w ∈ (closed sys v store o).2.1.vertices := by
  rw [(closed_quiet sys v store o).1]
  split
  · have he := Inner.innerSearch_expanded hx hen
    rw [(searchFrom_eq sys v store o).1]
    exact ⟨he.canonical, he.grows⟩
  · exact ⟨hen.canonical, fun _ hw => hw⟩

theorem Tracked.closed (h : Tracked sys reduction store o inner) (hx : sys.Explicit)
    {below : List (Vertex σ)} (hen : Entry.Ok sys ⟨store, o.marks, v, below⟩)
    (hfull : reduction = false → ∀ a, (o.mark a).reduced = false) :
    Tracked sys reduction (Outer.closed sys v store o).2.1 (Outer.closed sys v store o).2.2
      ((if sys.accepting v.state then (innerSearch sys v store o.marks).observation.2 else []) ++
        inner) := by
  obtain ⟨hstore, hquiet⟩ := closed_quiet sys v store o
  rw [hstore]
  cases ha : sys.accepting v.state with
  | true =>
    simp only [ha, if_true] at hquiet ⊢
    exact (h.search hx hen hfull ha).quiet hquiet fun _ hw => hw
  | false =>
    simp only [ha] at hquiet ⊢
    exact h.quiet hquiet fun _ hw => hw

end tracked

section step

variable {reduction : Bool} {limit : Option Nat} {vs : List (Vertex σ × Bool)}
  {opened opened' : List (Vertex σ)} {p p' : Position σ (Outer σ × Tally σ)}

theorem tracking_follow {source : Option (Vertex σ)} {t : Vertex σ} {flags : EdgeFlags}
    {isNew : Bool} {o o' : Outer σ × Tally σ} {step : Step}
    (h : (tracking sys reduction).follow 0 source t flags isNew o = (step, o')) :
    o'.2 = o.2 ∧ Quiet o.1 o'.1 := by
  constructor
  · have hf := (tracking sys reduction).follow_observation 0 t o source flags isNew
    rw [h] at hf
    rcases hf with hf | hf <;> exact (congrArg Prod.snd hf :)
  · have hq := Quiet.follow sys reduction source t flags isNew o.1
    rw [(tracking_lifts sys reduction).follow, h] at hq
    exact hq

theorem Turn.opened_eq {p p' : Position σ (Outer σ)}
    (h : Turn sys reduction opened p opened' p') :
    opened' = (p.opens p').map (·.vertex) ++ opened := by
  cases h with
  | skipSeed => rw [Position.opens_eq_nil]; rfl
  | openSeed hr he hs => rw [Position.opens_eq_singleton hs]; rfl
  | skipEdge => rw [Position.opens_eq_nil]; rfl
  | openEdge hst hr he hs => rw [Position.opens_eq_singleton hs]; rfl
  | close => rw [Position.opens_eq_nil]; rfl
  | sweep => rw [Position.opens_eq_nil]; rfl

theorem Tracked.goes (h : Tracked sys reduction p.store p.observation.1 p.observation.2)
    (hinv : Inv sys reduction limit vs opened [] (p.map Prod.fst)) (hx : sys.Explicit)
    (hg : Goes sys (tracking sys reduction) p p') :
    Tracked sys reduction p'.store p'.observation.1 p'.observation.2 := by
  cases hg with
  | skipSeed hf =>
    obtain ⟨htally, hq⟩ := tracking_follow hf
    exact htally ▸ h.quiet hq fun _ hw => hw
  | @openSeed v b seeds store o o' stats stats' hf hs =>
    obtain ⟨htally, hq⟩ := tracking_follow hf
    have hq := hq.trans (.successors sys reduction store v o'.1)
    exact htally ▸ h.quiet hq fun _ hw => hw
  | skipEdge hst hf =>
    obtain ⟨htally, hq⟩ := tracking_follow hf
    exact htally ▸ h.quiet hq (hinv.canonical.stored hx hst).grows
  | @openEdge v n todo frames seeds store o t isNew store' o' stats stats' hst hf hs =>
    obtain ⟨htally, hq⟩ := tracking_follow hf
    have hq := hq.trans (.successors sys reduction store' t o'.1)
    exact htally ▸ h.quiet hq (hinv.canonical.stored hx hst).grows
  | close hc ha =>
    cases hc
    exact h.closed hx hinv.entry_ok hinv.full

theorem Tracked.halts {e : Exploration σ (Outer σ × Tally σ)}
    (h : Tracked sys reduction p.store p.observation.1 p.observation.2)
    (hinv : Inv sys reduction limit vs opened [] (p.map Prod.fst)) (hx : sys.Explicit)
    (hh : Halts sys (tracking sys reduction) p e) :
    Tracked sys reduction e.store e.observation.1 e.observation.2 ∧ e.store.Canonical sys ∧
      ∀ w ∈ p.store.vertices, w ∈ e.store.vertices := by
  cases hh with
  | completed => exact ⟨h, hinv.canonical, fun _ hw => hw⟩
  | stopSeed hf =>
    obtain ⟨htally, hq⟩ := tracking_follow hf
    exact ⟨htally ▸ h.quiet hq fun _ hw => hw, hinv.canonical, fun _ hw => hw⟩
  | full hst => exact ⟨h, hinv.canonical, fun _ hw => hw⟩
  | stopEdge hst hf =>
    obtain ⟨htally, hq⟩ := tracking_follow hf
    have hst := hinv.canonical.stored hx hst
    exact ⟨htally ▸ h.quiet hq hst.grows, hst.canonical, hst.grows⟩
  | stopClose hc =>
    obtain ⟨rfl, rfl⟩ := Prod.mk.inj (Prod.mk.inj hc).2
    exact ⟨h.closed hx hinv.entry_ok hinv.full, closed_store hx hinv.entry_ok⟩

end step

end Outer

section run

variable {config : SearchConfig} {vs : List (Vertex σ × Bool)}

/-- The outer search, with the tallies of the inner searches and of its own. -/
def track (sys : System σ) (config : SearchConfig) :
    Exploration σ ((Outer σ × Tally σ) × Tally σ) :=
  run sys (Outer.tracking sys config.reduction).tallied sys.extent .initials
    (.ofShards Store.defaultShards config.stateLimit) (({}, []), [])

theorem tracking_tallied_lifts (sys : System σ) (reduction : Bool) :
    (Outer.tracking sys reduction).tallied.Lifts (·.1.1) (Outer.listener sys reduction) :=
  ⟨fun _ _ _ _ _ _ => rfl, fun _ _ _ => rfl, fun _ _ _ => rfl, fun _ _ _ _ => rfl,
    fun _ _ _ _ => rfl⟩

theorem track_map (sys : System σ) (config : SearchConfig) :
    (track sys config).map (·.1.1) = explore sys config :=
  (run_map (tracking_tallied_lifts sys config.reduction) sys sys.extent .initials
    (.ofShards Store.defaultShards config.stateLimit) (({}, []), [])).symm

/-- Where a nested search with tallies can be. -/
structure Tracking (sys : System σ) (config : SearchConfig) (vs : List (Vertex σ × Bool))
    (p : Position σ ((Outer σ × Tally σ) × Tally σ)) : Prop where
  inv : Outer.Inv sys config.reduction config.stateLimit vs (p.observation.2.map (·.1)) []
    (p.map (·.1.1))
  tracked : Outer.Tracked sys config.reduction p.store p.observation.1.1 p.observation.1.2
  full : config.reduction = false → ∀ x ∈ p.observation.2, x.2 = sys.successors x.1.state

theorem Tracking.step {p p' : Position σ ((Outer σ × Tally σ) × Tally σ)}
    (h : Tracking sys config vs p) (hx : sys.Explicit) (hseed : Seeded sys vs)
    (hg : Goes sys (Outer.tracking sys config.reduction).tallied p p') :
    Tracking sys config vs p' := by
  have hgoes := hg.map (tracking_tallied_lifts sys config.reduction)
  obtain ⟨opened', hturn⟩ := h.inv.turn_of_goes hx hgoes
  have hopened : opened' = p'.observation.2.map (·.1) := by
    rw [hturn.opened_eq, hg.tally, List.map_append, List.map_map]
    rfl
  refine ⟨hopened ▸ h.inv.turn hx hseed hturn,
    h.tracked.goes h.inv hx (hg.map (Listener.tallied_lifts _)), fun hred x hm => ?_⟩
  rw [hg.tally] at hm
  rcases List.mem_append.1 hm with hm | hm
  · -- without reduction a state is opened with all its successors
    obtain ⟨f, hf, rfl⟩ := List.mem_map.1 hm
    obtain ⟨o, ho⟩ := hgoes.opens_eq f hf
    rw [hred] at ho
    exact (congrArg Prod.fst ho).symm
  · exact h.full hred x hm

/-- What a nested search has expanded in the end. -/
structure Expanded (sys : System σ) (config : SearchConfig)
    (e : Exploration σ ((Outer σ × Tally σ) × Tally σ)) : Prop where
  canonical : e.store.Canonical sys
  nodup : (e.observation.2.map (·.1)).Nodup
  stored : ∀ x ∈ e.observation.2, x.1 ∈ e.store.vertices
  full : config.reduction = false → ∀ x ∈ e.observation.2, x.2 = sys.successors x.1.state
  inner : Outer.Tracked sys config.reduction e.store e.observation.1.1 e.observation.1.2
  covered : e.ending = some .completed → ∀ v ∈ e.store.vertices,
    v ∈ e.observation.2.map (·.1) ∨ (e.observation.1.1.mark v.handle).visited = true

theorem Tracking.halts {p : Position σ ((Outer σ × Tally σ) × Tally σ)}
    {e : Exploration σ ((Outer σ × Tally σ) × Tally σ)} (h : Tracking sys config vs p)
    (hx : sys.Explicit) (hh : Halts sys (Outer.tracking sys config.reduction).tallied p e) :
    Expanded sys config e := by
  obtain ⟨hinner, hcanonical, hgrows⟩ :=
    h.tracked.halts h.inv hx (hh.map (Listener.tallied_lifts _))
  have htally := hh.tally
  refine ⟨hcanonical, ?_, ?_, ?_, hinner, ?_⟩
  · rw [htally]
    exact h.inv.opened_nodup
  · rw [htally]
    exact fun x hm => hgrows x.1 (h.inv.opened_mem x.1 (List.mem_map_of_mem hm))
  · rw [htally]
    exact h.full
  · intro hend v hv
    cases hh with
    | completed =>
      rcases h.inv.covered v hv with hm | hm | hm | hm
      · exact .inl hm
      · cases hm
      · cases hm
      · exact .inr hm
    | stopSeed | full | stopEdge | stopClose => cases hend

theorem track_expanded (hx : sys.Explicit) (config : SearchConfig) :
    (∃ e, (track sys config).ending = some (.exhausted e)) ∨ Expanded sys config (track sys config) := by
  have hc : (Store.ofShards Store.defaultShards config.stateLimit : Store σ).Canonical sys :=
    Store.canonical_ofShards sys _ _ (by decide)
  rcases hc.resolve_cases hx sys.initials with ⟨vs, store, hr, hres⟩ | ⟨n, e, store, hn, hr⟩
  · obtain ⟨hseed, hinv⟩ := Outer.inv_start config.reduction hres
    have hmark : ∀ a, ({} : Outer σ).mark a = {} := fun a => Std.TreeMap.getD_emptyc
    have htracked : Outer.Tracked sys config.reduction store {} [] :=
      ⟨.nil, nofun, nofun, by simp [hmark], fun _ => rfl, fun _ => rfl, nofun⟩
    have hr : Seeds.initials.resolve sys (.ofShards Store.defaultShards config.stateLimit) =
        .ok (vs, store) := hr
    obtain ⟨p, hp, hh⟩ := run_halts (P := Tracking sys config vs) hr (o := (({}, []), []))
      (l := (Outer.tracking sys config.reduction).tallied) (fun _ _ => rfl)
      (fun s v o => Outer.length_successors_le hx config.reduction s v o.1.1)
      ⟨hinv, htracked, nofun⟩ (fun p p' h hg => h.step hx hseed hg) (fun p h => h.inv.states_le hx)
    exact .inr (hp.halts hx hh)
  · refine .inl ⟨e, ?_⟩
    unfold track run
    simp only [Seeds.resolve, hr]

theorem nodup_states {store : Store σ} (hc : store.Canonical sys) {tally : Tally σ}
    (hn : (tally.map (·.1)).Nodup) (hs : ∀ x ∈ tally, x.1 ∈ store.vertices) :
    (tally.map (·.1.state)).Nodup ∧ (∀ x ∈ tally, x.1.state ∈ store.vertices.map (·.state)) ∧
      tally.length ≤ store.size := by
  have hmem : ∀ v ∈ tally.map (·.1), v ∈ store.vertices := by
    intro v hv
    obtain ⟨x, hx, rfl⟩ := List.mem_map.1 hv
    exact hs x hx
  refine ⟨?_, fun x hx => List.mem_map_of_mem (hs x hx), ?_⟩
  · have hstates : (tally.map (·.1)).map (·.state) = tally.map (·.1.state) := List.map_map
    rw [← hstates]
    exact hn.map_on fun v hv w hw he => hc.eq_of_state (hmem v hv) (hmem w hw) he
  · rw [hc.size_eq]
    simpa using (List.subperm_of_subset hn hmem).length_le

/-- Without a stored accepting state no inner search is started, and a search that is completed has
expanded every stored state. -/
theorem Expanded.length_eq {e : Exploration σ ((Outer σ × Tally σ) × Tally σ)}
    (h : Expanded sys config e) (hend : e.ending = some .completed)
    (hno : ∀ v ∈ e.store.vertices, sys.accepting v.state = false) :
    e.observation.2.length = e.store.size ∧ e.observation.1.2 = [] := by
  have hidle : ¬ (e.observation.1.2 ≠ [] ∨ ∃ a, (e.observation.1.1.mark a).visited = true) := by
    intro hs
    obtain ⟨v, hv, ha⟩ := h.inner.started hs
    exact Bool.false_ne_true ((hno v hv).symm.trans ha)
  refine ⟨Nat.le_antisymm (nodup_states h.canonical h.nodup h.stored).2.2 ?_,
    not_not.1 fun hs => hidle (.inl hs)⟩
  have hopened : e.store.vertices ⊆ e.observation.2.map (·.1) := fun v hv =>
    (h.covered hend v hv).resolve_right fun ha => hidle (.inr ⟨_, ha⟩)
  have hsub := List.subperm_of_subset (h.canonical.nodup.of_map _) hopened
  rw [h.canonical.size_eq]
  simpa using hsub.length_le

theorem of_nestedSearch {report : LivenessReport σ} (h : nestedSearch sys config = .ok report) :
    (explore sys config).observation.error = none ∧
      (∀ e, (explore sys config).ending ≠ some (.exhausted e)) ∧
      report.stats = (explore sys config).stats + (explore sys config).observation.innerStats ∧
      report.stored = (explore sys config).store.size := by
  unfold nestedSearch at h
  cases herr : (explore sys config).observation.error with
  | some err => simp [herr] at h
  | none =>
    simp only [herr] at h
    cases hf : (explore sys config).finished with
    | error e =>
      rw [hf] at h
      cases h
    | ok b =>
      rw [hf] at h
      cases h
      refine ⟨rfl, fun e he => ?_, rfl, rfl⟩
      rw [Exploration.finished, he] at hf
      cases hf

end run

end Nested

namespace Graph

variable {g : Graph} {ig : IndexedGraph}

theorem sum_length_successors (h : g.index = .ok ig) {nodes : List Node} (hn : nodes.Nodup) :
    (nodes.map fun n => (ig.system.successors n).length).sum =
      g.edges.countP fun e => decide (e.source ∈ nodes) := by
  induction nodes with
  | nil => simp
  | cons n nodes ih =>
    obtain ⟨hno, hn⟩ := List.nodup_cons.1 hn
    have hsplit : ∀ edges : List Edge, edges.countP (fun e => decide (e.source ∈ n :: nodes)) =
        edges.countP (fun e => e.source == n) + edges.countP fun e => decide (e.source ∈ nodes) := by
      intro edges
      induction edges with
      | nil => rfl
      | cons e rest ih =>
        simp only [List.countP_cons, ih]
        by_cases he : e.source = n
        · simp [he, hno]
          omega
        · simp [he]
          omega
    rw [List.map_cons, List.sum_cons, ih hn, hsplit, index_successors h, List.length_map,
      ← List.countP_eq_length_filter]

theorem edgeCount_le (h : g.index = .ok ig) {tally : Tally Node} {stored : List Node}
    (hn : (tally.map (·.1.state)).Nodup) (hs : ∀ x ∈ tally, x.1.state ∈ stored)
    (hfull : ∀ x ∈ tally, x.2 = ig.system.successors x.1.state) :
    DepthFirst.edgeCount tally ≤ g.edges.countP fun e => decide (e.source ∈ stored) := by
  have hcount : DepthFirst.edgeCount tally =
      ((tally.map (·.1.state)).map fun n => (ig.system.successors n).length).sum := by
    rw [DepthFirst.edgeCount, List.map_map]
    exact congrArg List.sum (List.map_congr_left fun x hx => congrArg List.length (hfull x hx))
  rw [hcount, sum_length_successors h hn]
  refine List.countP_mono_left fun e _ he => ?_
  obtain ⟨x, hx, hxe⟩ := List.mem_map.1 (of_decide_eq_true he)
  exact decide_eq_true (hxe ▸ hs x hx)

/-- If a nested search returns a report, then the outer search has expanded each stored state once
at most, and so have all inner searches together. The counts of the report are those of the
expansions, and so at most twice what is stored; without reduction the edges are at most twice
those that leave stored states. Where no stored state accepts and the property holds, every stored
state is expanded just once. -/
theorem nestedSearch_linear (h : g.index = .ok ig) (config : SearchConfig)
    {report : LivenessReport Node} (hr : nestedSearch ig.system config = .ok report) :
    let e := Nested.track ig.system config
    let outer := e.observation.2
    let inner := e.observation.1.2
    let stored := e.store.vertices.map (·.state)
    e.map (·.1.1) = Nested.explore ig.system config ∧
    (∀ v store marks, (Nested.innerSearch ig.system v store marks).map Prod.fst =
      DepthFirst.run ig.system (Nested.Inner.listener ig.system v.handle) ig.system.extent
        (.vertices [v]) store { marks }) ∧
    stored.Nodup ∧ report.stored = stored.length ∧
    (outer.map (·.1.state)).Nodup ∧ (∀ x ∈ outer, x.1.state ∈ stored) ∧
    (inner.map (·.1.state)).Nodup ∧ (∀ x ∈ inner, x.1.state ∈ stored) ∧
    report.stats.states = outer.length + inner.length ∧
    report.stats.edges = DepthFirst.edgeCount outer + DepthFirst.edgeCount inner ∧
    report.stats.states ≤ 2 * report.stored ∧
    (config.reduction = false →
      report.stats.edges ≤ 2 * g.edges.countP fun e => decide (e.source ∈ stored)) ∧
    (report.verdict = .holds → (∀ s ∈ stored, s ∉ g.accepting) →
      report.stats.states = report.stored) := by
  intro e outer inner stored
  have hx := index_explicit h
  have hmap : e.map (·.1.1) = Nested.explore ig.system config := Nested.track_map ig.system config
  obtain ⟨herr, hend, hstats, hsize⟩ := Nested.of_nestedSearch hr
  rw [← hmap] at herr hend hstats hsize
  have hexp : Nested.Expanded ig.system config e :=
    (Nested.track_expanded hx config).resolve_left fun ⟨x, he⟩ => hend x he
  obtain ⟨hstates, hedges⟩ := DepthFirst.run_tally (fun a b => (hx.same_iff a b).1)
    (Nested.Outer.tracking ig.system config.reduction) ig.system.extent .initials
    (.ofShards Store.defaultShards config.stateLimit) ({}, [])
  obtain ⟨houter, houter', hle⟩ := Nested.nodup_states hexp.canonical hexp.nodup hexp.stored
  obtain ⟨hinner, hinner', hle'⟩ :=
    Nested.nodup_states hexp.canonical hexp.inner.nodup hexp.inner.stored
  have hsum : report.stats.states = outer.length + inner.length := by
    rw [hstats, SearchStats.add_states]
    exact congrArg₂ (· + ·) hstates (hexp.inner.states herr)
  have hsum' : report.stats.edges = DepthFirst.edgeCount outer + DepthFirst.edgeCount inner := by
    rw [hstats, SearchStats.add_edges]
    exact congrArg₂ (· + ·) hedges (hexp.inner.edges herr)
  have hsize : report.stored = e.store.size := hsize
  have hlength : report.stored = stored.length := by
    rw [hsize, hexp.canonical.size_eq, List.length_map]
  refine ⟨hmap, fun v store marks => ?_, hexp.canonical.nodup, hlength, houter, houter', hinner,
    hinner', hsum, hsum', ?_, ?_, ?_⟩
  · exact (DepthFirst.run_map (Listener.tallied_lifts _) ig.system _ (.vertices [v]) store
      (({ marks } : Nested.Inner Node), [])).symm
  · rw [hsum, hsize, Nat.two_mul]
    exact Nat.add_le_add hle hle'
  · intro hred
    rw [hsum', Nat.two_mul]
    exact Nat.add_le_add (edgeCount_le h houter houter' (hexp.full hred))
      (edgeCount_le h hinner hinner' (hexp.inner.full hred))
  · intro hv hno
    -- a search that finds the property to hold has come to its end
    have hdone : e.ending = some .completed := by
      have hout := Nested.nestedSearch_outcome hx (Nested.kept_true ig.system config)
      rw [hr] at hout
      cases hout with
      | violated => cases hv
      | cleared hreached he =>
        rw [← hmap] at he
        exact congrArg Exploration.ending he
    obtain ⟨hall, hnone⟩ := hexp.length_eq hdone fun v hv =>
      Bool.eq_false_iff.2 fun ha =>
        hno v.state (List.mem_map_of_mem hv) ((index_accepting h v.state).1 ha)
    rw [hsum, hsize]
    exact congrArg₂ (· + ·) hall (congrArg List.length hnone)

/-- A diamond behind its first state. -/
def diamond (accepting : List Node) : Graph where
  initial := [0]
  edges := [{ source := 0, target := 1 }, { source := 0, target := 2 }, { source := 1, target := 3 },
    { source := 2, target := 3 }]
  accepting

/-- If the first state accepts, every state and every edge is taken twice; if none does, once. -/
theorem nestedSearch_linear_diamond :
    (∃ ig report, (diamond [0]).index = .ok ig ∧ nestedSearch ig.system {} = .ok report ∧
      report.stored = 4 ∧ report.stats.states = 8 ∧ report.stats.states ≤ 2 * report.stored ∧
      report.stats.edges = 8 ∧ report.stats.edges ≤ 2 * (diamond [0]).edges.countP fun e =>
        decide (e.source ∈ (Nested.track ig.system {}).store.vertices.map (·.state))) ∧
    ∃ ig report, (diamond []).index = .ok ig ∧ nestedSearch ig.system {} = .ok report ∧
      report.verdict = .holds ∧ report.stats.states = report.stored := by
  constructor
  · obtain ⟨ig, h, hr⟩ : ∃ ig, (diamond [0]).index = .ok ig ∧ nestedSearch ig.system {} =
        .ok ⟨.holds, { states := 8, edges := 8, deadlocks := 2 }, 4⟩ := ⟨_, rfl, by decide +kernel⟩
    obtain ⟨-, -, -, -, -, -, -, -, -, -, hstates, hedges, -⟩ := nestedSearch_linear h {} hr
    exact ⟨ig, _, h, hr, rfl, rfl, hstates, rfl, hedges rfl⟩
  · obtain ⟨ig, h, hr⟩ : ∃ ig, (diamond []).index = .ok ig ∧ nestedSearch ig.system {} =
        .ok ⟨.holds, { states := 4, edges := 4, deadlocks := 1 }, 4⟩ := ⟨_, rfl, by decide +kernel⟩
    obtain ⟨-, -, -, -, -, -, -, -, -, -, -, -, hsame⟩ := nestedSearch_linear h {} hr
    exact ⟨ig, _, h, hr, rfl, hsame rfl fun _ _ => List.not_mem_nil⟩

end Graph

end ModelChecker
