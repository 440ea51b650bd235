import ModelChecker.Proofs.SeedsFirst

namespace ModelChecker

variable {σ : Type} {sys : System σ} {ignored : σ → Successor σ → Bool} {c : SearchConfig}
  {store : Store σ} {w : Work σ (Unit × Journal σ)}

namespace SearchConfig

theorem Begins.exists_seed (hx : sys.Explicit) (hcan : store.Canonical sys)
    (hc : c.partitioned = false) (h : c.Begins sys .initials store ((), {}) w) {s : σ}
    (hs : s ∈ sys.initials) : ∃ v ∈ w.store.vertices, v.state = s := by
  cases h with
  | @stored vs store' _ hres =>
    rcases hcan.resolve_cases hx sys.initials with ⟨vs', s', hr, hd⟩ | ⟨n, e, s', -, hr⟩
    · cases hr.symm.trans hres
      rw [← hd.states_eq] at hs
      obtain ⟨v, hv, rfl⟩ := List.mem_map.1 hs
      exact ⟨v.1, hd.mem v hv, rfl⟩
    · cases hr.symm.trans hres
  | sent hp => exact absurd (hp.symm.trans hc) nofun

theorem Begins.initial_of_mem (hx : sys.Explicit) (hcan : store.Canonical sys)
    (hnil : store.vertices = []) (h : c.Begins sys .initials store ((), {}) w) :
    ∀ v ∈ w.store.vertices, v.state ∈ sys.initials := by
  intro v hv
  refine ((h.starts hcan hx nofun).origin v hv).resolve_left fun hv => ?_
  rw [hnil] at hv
  cases hv

end SearchConfig

/-- A seed that is stored is bound to be expanded if it is new. -/
theorem Work.IsSeed.bound {states : List σ} {x : WorkItem σ} (h : Work.IsSeed states store x)
    (ignored : σ → Successor σ → Bool) : x.bound ignored = x.waiting ∧ x.fresh = x.waiting := by
  cases x with
  | met source v flags isNew =>
    cases source with
    | none => cases isNew <;> exact ⟨rfl, rfl⟩
    | some u => exact h.elim
  | visit v => exact h.elim
  | arrival source n => exact ⟨rfl, rfl⟩

section start
variable (hx : sys.Explicit) (hcan : store.Canonical sys) (hnil : store.vertices = [])
  (h : c.Begins sys .initials store ((), {}) w)
include hx hcan hnil h

/-- At its start a search has chosen the seeds that are stored, and told of none. -/
theorem SearchConfig.Begins.chosen_eq (ignored : σ → Successor σ → Bool) :
    w.chosen ignored = ↑w.store.vertices ∧ w.fresh = ↑w.store.vertices := by
  have hstart := h.starts hcan hx nofun
  have hbal := h.balanced_of_nil hx hcan.toDistinct (fun _ => hcan) hnil
  have hvertices := hbal.vertices (by rw [hstart.interrupt])
  have hbound : w.items.bind (WorkItem.bound ignored) = w.waiting :=
    Multiset.bind_congr fun x hx => ((hstart.items x hx).bound ignored).1
  have hfresh : w.fresh = w.waiting :=
    Multiset.bind_congr fun x hx => ((hstart.items x hx).bound ignored).2
  have hexpanded : w.observation.2.expanded = 0 := by
    rw [hstart.observation]
    rfl
  refine ⟨by rw [Work.chosen, hbound, hvertices], ?_⟩
  rw [hfresh, ← hvertices, hexpanded, zero_add]

theorem SearchConfig.Begins.tracked : Work.Tracked sys ignored w.store.vertices w := by
  have hstart := h.starts hcan hx nofun
  have hbal := h.balanced_of_nil hx hcan.toDistinct (fun _ => hcan) hnil
  obtain ⟨hchosen, hfresh⟩ := h.chosen_eq hx hcan hnil ignored
  have htold : w.observation.2 = {} := by rw [hstart.observation]
  have hnone : ∀ {y}, y ∉ w.observation.2.discoveries := by
    rw [htold]
    exact List.not_mem_nil
  refine ⟨fun v hv => hv, fun y hy => ?_, fun x hx => ?_, hbal.edges (by rw [hstart.interrupt]),
    fun v hv => ?_, ?_, fun y hy => absurd hy hnone, fun y hy => absurd hy hnone,
    fun source v flags hm => ?_, fun v => iff_of_false ?_ ?_⟩
  · rw [htold] at hy
    cases hy
  · have hseed := hstart.items x hx
    cases x with
    | met => trivial
    | visit v => trivial
    | arrival source n =>
      cases source with
      | none => exact hseed
      | some u => exact hseed.elim
  · rw [hchosen] at hv
    exact .initial (h.initial_of_mem hx hcan hnil v (Multiset.mem_coe.1 hv))
      ⟨v, Multiset.mem_coe.1 hv, rfl⟩
  · rw [htold, hfresh]
    exact zero_add _
  · obtain ⟨rfl, -⟩ := hstart.awaited ⟨_, hm, rfl⟩
    refine ⟨fun _ => rfl, fun hk => ?_⟩
    cases hk
  · rw [htold]
    rintro (hv | hv)
    · cases hv
    · exact hstart.items _ hv
  · rintro ⟨y, hy, -⟩
    exact hnone hy

theorem SearchConfig.Begins.sifts : Work.Sifts sys ignored store w.store.vertices w := by
  have hstart := h.starts hcan hx nofun
  have hbal := h.balanced_of_nil hx hcan.toDistinct (fun _ => hcan) hnil
  refine ⟨hstart.grounded (fun v hv => ?_) fun s hs => ⟨s, hs, .refl⟩,
    ⟨(h.chosen_eq hx hcan hnil ignored).1.le, hbal.states_eq, fun hr => ?_⟩,
    fun _ => h.tracked hx hcan hnil⟩
  · rw [hnil] at hv
    cases hv
  · rw [hstart.interrupt] at hr
    cases hr

end start

/-- The record of a search that ignores some edges. -/
structure Journal.Sifted (sys : System σ) (ignored : σ → Successor σ → Bool) (j : Journal σ) :
    Prop where
  nodup : j.states.Nodup
  via : ∀ s ∈ j.states, sys.Via ignored (fun _ => True) s
  /-- No state is told of as new twice. -/
  once : (j.discoveries.map (·.target.state)).Nodup
  discovered : ∀ x ∈ j.tellings, ∃ y ∈ j.discoveries, y.target = x.target
  seeds : ∀ s ∈ sys.initials, ∃ y ∈ j.discoveries, y.target.state = s ∧ y.source = none
  taken : ∀ s, s ∈ j.states ↔ ∃ y ∈ j.discoveries, y.target.state = s ∧ y.kept ignored = true
  told : j.told = Work.seedings sys.initials + j.expanded.bind (Work.edgesFrom sys)
  all : (∀ s, sys.Via ignored (fun _ => True) s → s ∉ sys.initials → ¬ sys.Hides ignored s) →
    ∀ s, sys.Via ignored (fun _ => True) s → s ∈ j.states

theorem Work.Sifts.exists_discovery_of_initial {s₀ : Store σ} {base : List (Vertex σ)}
    (h : Work.Sifts sys ignored s₀ base w) (hitems : w.items = 0)
    (hr : w.interrupt.raised = false) {s : σ} (hs : s ∈ sys.initials) :
    ∃ y ∈ w.observation.2.discoveries, y.target.state = s := by
  have htold : (none, s, {}) ∈ w.observation.2.told := by
    rw [h.told_eq hitems hr]
    exact Multiset.mem_add.2 (.inl (Multiset.mem_coe.2 (List.mem_map_of_mem hs)))
  obtain ⟨x, hx, hxs⟩ := List.mem_map.1 (Multiset.mem_coe.1 htold)
  obtain ⟨y, hy, hyx⟩ := h.exists_discovery hitems hr ((h.tracked hr).told x hx)
  exact ⟨y, hy, hyx ▸ congrArg (·.2.1) hxs⟩

theorem Work.Sifts.not_raised {s₀ : Store σ} {base : List (Vertex σ)}
    (h : Work.Sifts sys ignored s₀ base w) (hfits : ¬ sys.Exceeds s₀.budget.limit) :
    w.interrupt.raised = false ∧ w.interrupt.failure = none := by
  have hfail : w.interrupt.failure.isSome ≠ true := fun hf => hfits (h.grounded.failure hf).2
  constructor
  · exact Bool.eq_false_iff.2 fun hr => hfail (h.counted.calm hr)
  · exact Option.not_isSome_iff_eq_none.1 hfail

/-- A search of an empty store that has room for all reachable states completes. -/
theorem SearchConfig.search_sifting (hx : sys.Explicit) (hcan : store.Canonical sys)
    (hnil : store.vertices = [])
    (hsize : c.partitioned = true → store.shards.size = c.workerCount) {schedule : Schedule}
    (hfair : schedule.Fair c.workerCount) (hfits : ¬ sys.Exceeds store.budget.limit) :
    ∃ e, c.search sys (Listener.sifting sys ignored).recorded .initials store ((), {}) schedule =
        .ok e ∧ e.ending = some .completed ∧ e.observation.2.Sifted sys ignored := by
  have hsifts : ∀ {w₀ w}, c.Begins sys .initials store ((), {}) w₀ →
      Work.Moves sys (Listener.sifting sys ignored).recorded w₀ w →
      Work.Sifts sys ignored store w₀.store.vertices w :=
    fun hb hm => (hb.sifts hx hcan hnil).moves hx hm
  rcases c.search_cases hfair (fun _ _ _ => rfl) (fun _ _ v _ => hx.length_successors_le v.state) hsize
    fun w₀ w hb hm => (hsifts hb hm).counted.bounded (hsifts hb hm).grounded hx with
    ⟨e, w₀, w, hsearch, hb, hm, hends⟩ | ⟨x, s', hres, -⟩
  · have h := hsifts hb hm
    obtain ⟨hr, hfail⟩ := h.not_raised hfits
    have hending : e.ending = some .completed := by
      rw [hends.ending, Interrupt.ending, hfail, hr]
      rfl
    have hitems := hends.done hr
    have hseeds : ∀ s ∈ sys.initials, ∃ y ∈ w.observation.2.discoveries,
        y.target.state = s ∧ y.source = none := by
      intro s hs
      cases hc : c.partitioned with
      | false =>
        obtain ⟨v, hv, rfl⟩ := hb.exists_seed hx hcan hc hs
        have ht := h.tracked hr
        obtain ⟨y, hy, rfl⟩ := h.exists_discovery hitems hr (ht.sub v hv)
        exact ⟨y, hy, rfl, ht.seeds y hy hv⟩
      | true =>
        rw [SearchConfig.search, if_pos hc, explorePartitioned, if_pos (hsize hc).symm] at hsearch
        cases hsearch
        have hpos : 0 < store.shards.size := hsize hc ▸ c.workerCount_pos
        have hsource := Partitioned.run_seeds hx hcan.toDistinct hpos hending s hs
        rw [hends.observation] at hsource
        obtain ⟨y, hy, hys⟩ := h.exists_discovery_of_initial hitems hr hs
        exact ⟨y, hy, hys, hsource y hy hys⟩
    have hinit : ∀ s ∈ sys.initials, s ∈ w.observation.2.states := by
      intro s hs
      obtain ⟨y, hy, hys, hnone⟩ := hseeds s hs
      exact (h.mem_states_iff_discovery hitems hr).2
        ⟨y, hy, hys, by rw [Telling.kept, hnone]; rfl⟩
    refine ⟨e, hsearch, hending, ?_⟩
    rw [hends.observation]
    exact ⟨h.nodup_states, fun s => h.via_of_mem hr, h.nodup_discoveries hitems hr,
      fun x hx => h.exists_discovery hitems hr ((h.tracked hr).told x hx), hseeds,
      fun s => h.mem_states_iff_discovery hitems hr, h.told_eq hitems hr,
      fun hfree s => h.mem_of_via hitems hr hinit hfree⟩
  · have hnone : ∀ v ∈ store.vertices, sys.Reachable v.state := fun v hv => by
      rw [hnil] at hv
      cases hv
    exact absurd (hcan.resolve_error hx hnone (fun s hs => ⟨s, hs, .refl⟩) hres).1 hfits

end ModelChecker
