import ModelChecker.Proofs.BoundedLevels
import ModelChecker.Proofs.BoundedTrace
import ModelChecker.Proofs.CycleCut

namespace ModelChecker

theorem LevelMark.reopen_idem (m : LevelMark) : m.reopen.reopen = m.reopen := by
  unfold LevelMark.reopen
  cases m.progress <;> rfl

theorem LevelMark.reopen_isExpanded (m : LevelMark) : m.reopen.isExpanded = false := by
  unfold LevelMark.reopen LevelMark.isExpanded
  cases m.progress <;> rfl

theorem LevelMark.reopen_flags (m : LevelMark) :
    m.reopen.full = true ∧ m.reopen.reduced = false := by
  unfold LevelMark.reopen
  cases m.progress <;> exact ⟨rfl, rfl⟩

namespace Bounded

variable {σ : Type} {sys : System σ} {c : SearchConfig} {q : Query} {m m' : State σ}
  {seeds : Seeds σ} {store store' : Store σ} {o : Observation σ} {w w' : Work σ (Observation σ)}
  {vs : List (Vertex σ)}

theorem Keeps.reopen (m : LevelMark) : Keeps m m.reopen := by
  unfold LevelMark.reopen
  refine ⟨?_, ?_, ?_⟩
  · unfold LevelMark.level?
    cases m.progress <;> rfl
  · cases m.progress <;> rfl
  · cases m.progress <;> rfl

theorem mark_reopen (o : Observation σ) (vs : List (Vertex σ)) (a : Handle) :
    (o.reopen vs).mark a =
      if a ∈ vs.map (·.handle) then (o.mark a).reopen else o.mark a := by
  induction vs generalizing o with
  | nil => rfl
  | cons v rest ih =>
    change ((o.setMark v.handle (o.mark v.handle).reopen).reopen rest).mark a = _
    rw [ih, mark_setMark, List.map_cons]
    by_cases ha : a = v.handle
    · subst ha
      rw [if_pos rfl, if_pos List.mem_cons_self, LevelMark.reopen_idem, ite_self]
    · rw [if_neg ha]
      refine if_congr ?_ rfl rfl
      rw [List.mem_cons]
      exact (or_iff_right ha).symm

theorem reopen_fields (o : Observation σ) (vs : List (Vertex σ)) :
    (o.reopen vs).fault = o.fault ∧ (o.reopen vs).found = o.found ∧
      (o.reopen vs).reducedEdges = o.reducedEdges := by
  induction vs generalizing o with
  | nil => exact ⟨rfl, rfl, rfl⟩
  | cons v rest ih => exact ih (o.setMark v.handle (o.mark v.handle).reopen)

theorem keeps_reopen (o : Observation σ) (vs : List (Vertex σ)) (a : Handle) :
    Keeps (o.mark a) ((o.reopen vs).mark a) := by
  rw [mark_reopen]
  split
  · exact .reopen _
  · exact .refl _

/-- What every move of a round keeps. -/
structure Maintained (sys : System σ) (q : Query) (m : State σ) (w : Work σ (Observation σ)) :
    Prop where
  tracked : Tracked sys q m w
  traced : q.bound + 1 ≤ maxLevel → Traced sys q w.store w.observation
  covered : w.interrupt.raised = false → Covered sys w

section maintained
variable (hx : sys.Explicit) (hspread : sys.Spread) (hb : q.level ≤ q.bound)
include hx hspread hb

theorem Maintained.event (h : Maintained sys q m w)
    (he : Work.Event sys (listener sys q) w w') : Maintained sys q m w' := by
  refine ⟨h.tracked.event hx he, fun hmax => ?_, .event h.covered h.tracked he⟩
  exact (h.traced hmax).event hx hspread hb (by omega) h.tracked he

theorem Maintained.moves (h : Maintained sys q m w)
    (hm : Work.Moves sys (listener sys q) w w') : Maintained sys q m w' :=
  (hm.events h.tracked.grounded.canonical hx).preserve
    (fun _ _ hw he => hw.event hx hspread hb he) h

theorem Maintained.evolves (h : Maintained sys q m w)
    (hm : Work.Moves sys (listener sys q) w w') (a : Handle) :
    LevelMark.Evolves (w.observation.mark a) (w'.observation.mark a) := by
  have hboth : Maintained sys q m w' ∧
      LevelMark.Evolves (w.observation.mark a) (w'.observation.mark a) := by
    refine (hm.events h.tracked.grounded.canonical hx).preserve
      (P := fun w' => Maintained sys q m w' ∧
        LevelMark.Evolves (w.observation.mark a) (w'.observation.mark a))
      (fun w₁ w₂ hw he => ?_) ⟨h, .refl _⟩
    exact ⟨hw.1.event hx hspread hb he, hw.2.trans (hw.1.tracked.evolves he a)⟩
  exact hboth.2

end maintained

/-- What is true of a search between two rounds, while nothing was found. -/
structure Between (sys : System σ) (c : SearchConfig) (q : Query) (m : State σ) : Prop where
  canonical : m.store.Canonical sys
  limit : m.store.budget.limit = c.stateLimit
  shards : c.partitioned = true → m.store.shards.size = c.workerCount
  reachable : ∀ v ∈ m.store.vertices, sys.Reachable v.state
  regular : Regular sys q m.store m.observation
  found : m.observation.found = none
  traced : q.bound + 1 ≤ maxLevel → Traced sys q m.store m.observation
  covered : ∀ v ∈ m.store.vertices, (m.observation.mark v.handle).isExpanded = true →
    ∀ n ∈ expansion sys (m.observation.mark v.handle) v.state, Met m.store m.observation v n
  counted : m.stats.states ≤
    expandedCount m.store m.observation + fullCount m.store m.observation

theorem Between.length_le (h : Between sys c q m) (hx : sys.Explicit) :
    m.store.vertices.length ≤ sys.extent :=
  Store.Within.length_le (fun v hv => (h.reachable v hv).within) h.canonical.toDistinct hx

/-- The seeds of a round are initial states, or stored states of the levels so far. -/
def Sown (q : Query) (m : State σ) : Seeds σ → Prop
  | .initials => q.level = 0
  | .vertices vs => ∀ v ∈ vs, v ∈ m.store.vertices ∧
    ∃ l ≤ q.level, (m.observation.mark v.handle).level? = some l

theorem tally_sub {f : LevelMark → Nat} (hc : store.Canonical sys)
    (hsub : ∀ v ∈ store.vertices, v ∈ store'.vertices) :
    tally f store o ≤ tally f store' o := by
  have hnodup : store.vertices.Nodup := .of_map _ hc.nodup
  obtain ⟨l, hperm, hsubl⟩ := List.subperm_of_subset hnodup hsub
  unfold tally
  rw [← (hperm.map fun v => f (o.mark v.handle)).sum_eq]
  exact (hsubl.map _).sum_le_sum fun _ _ => Nat.zero_le _

theorem Sown.reachable (h : Sown q m seeds) (hm : ∀ v ∈ m.store.vertices, sys.Reachable v.state) :
    ∀ s ∈ Partitioned.seedStates sys seeds, sys.Reachable s := by
  intro s hs
  cases seeds with
  | initials => exact ⟨s, hs, .refl⟩
  | vertices vs =>
    obtain ⟨v, hv, rfl⟩ := List.mem_map.1 hs
    exact hm v (h v hv).1

theorem Sown.seedable (h : Sown q m seeds)
    (hw : Work.Starts sys (Partitioned.seedStates sys seeds) m.store m.observation w)
    {v : Vertex σ} (hv : v ∈ w.store.vertices)
    (hs : v.state ∈ Partitioned.seedStates sys seeds) : Seedable sys q m.observation v := by
  cases seeds with
  | initials => exact .inl ⟨h, hs⟩
  | vertices vs =>
    obtain ⟨u, hu, huv⟩ := List.mem_map.1 hs
    obtain ⟨hum, hlevel⟩ := h u hu
    obtain rfl := hw.canonical.eq_of_state (hw.sub u hum) hv huv
    exact .inr hlevel

theorem Sown.admissible (h : Sown q m seeds)
    (hw : Work.Starts sys (Partitioned.seedStates sys seeds) m.store m.observation w)
    {x : WorkItem σ} (hx : x ∈ w.items) : Admissible sys q w.store m.observation x := by
  have hseed := hw.items x hx
  cases x with
  | met source v flags b =>
    cases source with
    | none => exact h.seedable hw hseed.1 hseed.2
    | some u => exact hseed.elim
  | visit v => exact hseed.elim
  | arrival source n =>
    cases source with
    | some u => exact hseed.elim
    | none =>
      cases seeds with
      | initials => exact .inl ⟨h, hseed⟩
      | vertices vs =>
        obtain ⟨u, hu, hun⟩ := List.mem_map.1 hseed
        obtain ⟨hum, hlevel⟩ := h u hu
        exact .inr ⟨u, hw.sub u hum, hun, .inr hlevel⟩

theorem Between.fresh (h : Between sys c q m) {states : List σ}
    (hw : Work.Starts sys states m.store m.observation w) {v : Vertex σ}
    (hv : v ∈ w.store.vertices) :
    m.observation.mark v.handle = {} ∨ v ∈ m.store.vertices := by
  refine (h.regular.unmarked v.handle).imp_right ?_
  rintro ⟨u, hu, huv⟩
  exact hw.canonical.eq_of_handle (hw.sub u hu) hv huv ▸ hu

/-- However the seeds are handed over, a round starts in order. -/
theorem Between.maintained (h : Between sys c q m) (hseeds : Sown q m seeds) (hx : sys.Explicit)
    (hw : c.Begins sys seeds m.store m.observation w) : Maintained sys q m w := by
  have hmem : ∀ vs, seeds = .vertices vs → ∀ v ∈ vs, v ∈ m.store.vertices := by
    rintro vs rfl v hv
    exact (hseeds v hv).1
  have hstart := hw.starts h.canonical hx hmem
  have hground := hstart.grounded h.reachable (hseeds.reachable h.reachable)
  have hobs := hstart.observation
  have hfresh : ∀ v ∈ w.store.vertices, m.observation.mark v.handle = {} ∨
      v ∈ m.store.vertices := fun v hv => h.fresh hstart hv
  refine ⟨⟨hground, ?_, fun x hxi => ?_, ?_, ?_, ?_⟩, fun hmax => ?_, fun _ v hv he => .inr ?_⟩
  · rw [hobs]
    exact h.regular.grow hstart.sub hfresh
  · rw [hobs]
    exact hseeds.admissible hstart hxi
  · rw [hstart.interrupt, hobs, h.found]
    rfl
  · rw [hstart.admitted, hobs, Nat.add_zero]
    exact tally_sub h.canonical hstart.sub
  · rw [hobs]
    exact tally_sub h.canonical hstart.sub
  · rw [hobs]
    exact (h.traced hmax).grow hstart.sub hfresh
  · rw [hobs] at he ⊢
    have hvm : v ∈ m.store.vertices := by
      refine (hfresh v hv).resolve_left fun hm => ?_
      rw [hm] at he
      cases he
    intro n hn
    exact .inr ((h.covered v hvm he n hn).mono hstart.sub (fun _ => .refl _) rfl fun _ hx => hx)

/-- The search ended with a violation. -/
structure Halts (sys : System σ) (q : Query) (m : State σ) : Prop where
  canonical : m.store.Canonical sys
  found : m.observation.found.isSome = true
  traced : q.bound + 1 ≤ maxLevel → Traced sys q m.store m.observation

theorem Maintained.between (h : Maintained sys q m w) (hm : Between sys c q m)
    (hraised : w.interrupt.raised = false) (hdone : w.items = 0) :
    Between sys c q ⟨w.store, w.observation, m.stats + w.stats⟩ := by
  have hno : ∀ x, x ∉ w.items := fun x => hdone ▸ Multiset.notMem_zero x
  have hground := h.tracked.grounded
  have hfound : w.observation.found.isSome = false := by
    have hr := h.tracked.raised
    rw [hraised] at hr
    exact (Bool.or_eq_false_iff.1 hr.symm).1
  refine ⟨hground.canonical, hground.limit.trans hm.limit,
    fun hp => hground.shards.trans (hm.shards hp), hground.reachable, h.tracked.regular,
    Option.not_isSome_iff_eq_none.1 (Bool.eq_false_iff.1 hfound), h.traced,
    fun v hv he n hn => ?_, ?_⟩
  · refine ((h.covered hraised v hv he).resolve_left (hno _) n hn).resolve_left ?_
    rw [hdone]
    exact Work.not_awaited_zero
  · have hcount := hm.counted
    have hexp := h.tracked.expanded
    have hfull := h.tracked.full
    have hstates : w.stats.states ≤ w.admitted := Nat.le_add_right _ _
    change m.stats.states + w.stats.states ≤
      expandedCount w.store w.observation + fullCount w.store w.observation
    omega

section round
variable {schedule : Schedule} (hx : sys.Explicit) (hspread : sys.Spread)
  (hfair : schedule.Fair c.workerCount) (hb : q.level ≤ q.bound)
include hx hspread hfair hb

/-- A round is work that is done by moves, unless the reachable states exceed the limit. -/
theorem round_moves (h : Between sys c q m) (hseeds : Sown q m seeds) :
    (∃ n, round sys c q schedule seeds m = .error (.outOfMemory n) ∧ sys.Exceeds c.stateLimit) ∨
    ∃ w₀ w, c.Begins sys seeds m.store m.observation w₀ ∧
      Work.Moves sys (listener sys q) w₀ w ∧ Maintained sys q m w ∧
      (w.interrupt.raised = false → w.items = 0) ∧ w.interrupt.failure = none ∧
      round sys c q schedule seeds m = .ok ⟨w.store, w.observation, m.stats + w.stats⟩ := by
  have hinv : ∀ w₀ w, c.Begins sys seeds m.store m.observation w₀ →
      Work.Moves sys (listener sys q) w₀ w → Maintained sys q m w :=
    fun w₀ w hw₀ hw => (h.maintained hseeds hx hw₀).moves hx hspread hb hw
  rcases c.search_cases (l := listener sys q) hfair (fun _ _ _ => rfl)
    (listener_length_successors hx) h.shards (fun w₀ w hw₀ hw => (hinv w₀ w hw₀ hw).tracked.bounded hx) with
    ⟨e, w₀, w, hsearch, hbegin, hmoves, hends⟩ | ⟨x, s', hres, hsearch⟩
  · have hw := hinv w₀ w hbegin hmoves
    have hfault : e.observation.fault = none := hends.observation ▸ hw.tracked.regular.fault
    cases hfail : w.interrupt.failure with
    | some x =>
      left
      refine ⟨x.states, ?_, ?_⟩
      · have hending : e.ending = some (.exhausted x) := by
          rw [hends.ending, Interrupt.ending, hfail]
        unfold round
        rw [hsearch]
        simp only [Except.mapError, bind, Except.bind, hfault, Exploration.finished, hending]
      · exact h.limit ▸ (hw.tracked.grounded.failure (by rw [hfail]; rfl)).2
    | none =>
      obtain ⟨b, hfin⟩ := Exploration.finished_ok hends.ending hfail
      refine .inr ⟨w₀, w, hbegin, hmoves, hw, hends.done, hfail, ?_⟩
      unfold round
      rw [hsearch]
      simp only [Except.mapError, bind, Except.bind, pure, Except.pure, hfault, hfin]
      rw [hends.store, hends.observation, hends.stats]
  · left
    refine ⟨x.states, ?_, ?_⟩
    · unfold round
      rw [hsearch]
      simp only [Except.mapError, bind, Except.bind, h.regular.fault, Exploration.finished]
    · cases seeds with
      | vertices vs => cases hres
      | initials =>
        refine h.limit ▸ (h.canonical.resolve_error hx h.reachable (fun s hs => ?_) hres).1
        exact ⟨s, hs, .refl⟩

theorem round_cases (h : Between sys c q m) (hseeds : Sown q m seeds) :
    (∃ n, round sys c q schedule seeds m = .error (.outOfMemory n) ∧ sys.Exceeds c.stateLimit) ∨
    ∃ m', round sys c q schedule seeds m = .ok m' ∧ m.stats.states ≤ m'.stats.states ∧
      fullCount m.store m.observation ≤ fullCount m'.store m'.observation ∧
      (Halts sys q m' ∨ Between sys c q m') := by
  refine (round_moves hx hspread hfair hb h hseeds).imp_right ?_
  rintro ⟨w₀, w, -, -, hw, hdone, hfail, hround⟩
  refine ⟨_, hround, Nat.le_add_right _ _, hw.tracked.full, ?_⟩
  -- the interrupt is raised exactly if a violation was found
  cases hraised : w.interrupt.raised with
  | false => exact .inr (hw.between h hraised (hdone hraised))
  | true =>
    refine .inl ⟨hw.tracked.grounded.canonical, ?_, hw.traced⟩
    have hr := hw.tracked.raised
    rw [hraised, hfail] at hr
    exact (hr.trans (Bool.or_false _)).symm

end round

theorem mem_retainReduced {e : Vertex σ × Vertex σ} :
    e ∈ o.retainReduced.reducedEdges ↔
      e ∈ o.reducedEdges ∧ (o.mark e.1.handle).reduced = true := by
  have hkept : o.retainReduced.reducedEdges =
      o.reducedEdges.filter fun e => (o.mark e.1.handle).reduced := List.append_nil _
  rw [hkept, List.mem_filter]

theorem Between.retain (h : Between sys c q m) :
    Between sys c q { m with observation := m.observation.retainReduced } where
  canonical := h.canonical
  limit := h.limit
  shards := h.shards
  reachable := h.reachable
  regular := ⟨h.regular.unmarked, h.regular.fault, h.regular.expanded_le, h.regular.reducible,
    fun e he => h.regular.edges e (mem_retainReduced.1 he).1⟩
  found := h.found
  traced hmax := by
    refine (h.traced hmax).keep (fun a => .refl _) fun x hf => ?_
    rw [show m.observation.retainReduced.found = m.observation.found from rfl, h.found] at hf
    cases hf
  covered v hv he n hn := by
    obtain ⟨t, ht, htn, hl, hnote⟩ := h.covered v hv he n hn
    refine ⟨t, ht, htn, hl, fun hr => ?_⟩
    exact mem_retainReduced.2 ⟨hnote hr, hr⟩
  counted := h.counted

theorem mark_reopen_of_flag {a : Handle}
    (ha : ((o.reopen vs).mark a).isExpanded = true ∨ ((o.reopen vs).mark a).reduced = true) :
    (o.reopen vs).mark a = o.mark a := by
  rw [mark_reopen] at ha ⊢
  by_cases hmem : a ∈ vs.map (·.handle)
  · rw [if_pos hmem, LevelMark.reopen_isExpanded, (LevelMark.reopen_flags _).2] at ha
    rcases ha with ha | ha <;> cases ha
  · exact if_neg hmem

theorem Regular.reopen (h : Regular sys q store o) (hvs : ∀ v ∈ vs, v ∈ store.vertices) :
    Regular sys q store (o.reopen vs) := by
  obtain ⟨hfault, -, hedges⟩ := reopen_fields o vs
  refine ⟨fun a => ?_, hfault.trans h.fault, fun v hv l hl => ?_, fun v hv hr => ?_,
    hedges ▸ h.edges⟩
  · rw [mark_reopen]
    split
    · rename_i ha
      obtain ⟨v, hv, rfl⟩ := List.mem_map.1 ha
      exact .inr ⟨v, hvs v hv, rfl⟩
    · exact h.unmarked a
  · rw [mark_reopen_of_flag (.inl (LevelMark.isExpanded_iff.2 ⟨l, hl⟩))] at hl
    exact h.expanded_le v hv l hl
  · have hsame := mark_reopen_of_flag (.inr hr)
    rw [hsame] at hr ⊢
    exact h.reducible v hv hr

theorem Regular.counts_reopen (h : Regular sys q store o)
    (hvs : ∀ v ∈ vs, (o.mark v.handle).reduced = true) :
    expandedCount store o + fullCount store o ≤
      expandedCount store (o.reopen vs) + fullCount store (o.reopen vs) := by
  unfold expandedCount fullCount tally
  rw [← List.sum_map_add, ← List.sum_map_add]
  refine List.sum_le_sum fun v hv => ?_
  dsimp only
  rw [mark_reopen]
  split
  · rename_i ha
    obtain ⟨u, hu, huv⟩ := List.mem_map.1 ha
    obtain ⟨he, -, hf, -⟩ := h.reducible v hv (huv ▸ hvs u hu)
    rw [he, hf, LevelMark.reopen_isExpanded, (LevelMark.reopen_flags _).1]
    exact Nat.le_refl 1
  · exact Nat.le_refl _

theorem Between.reopen (h : Between sys c q m)
    (hvs : ∀ v ∈ vs, v ∈ m.store.vertices ∧ (m.observation.mark v.handle).reduced = true) :
    Between sys c q { m with observation := m.observation.reopen vs } := by
  obtain ⟨-, hfound, hedges⟩ := reopen_fields m.observation vs
  have hkeep := keeps_reopen m.observation vs
  refine ⟨h.canonical, h.limit, h.shards, h.reachable, h.regular.reopen fun v hv => (hvs v hv).1,
    hfound.trans h.found, fun hmax => ?_, fun v hv he n hn => ?_,
    h.counted.trans (h.regular.counts_reopen fun v hv => (hvs v hv).2)⟩
  · refine (h.traced hmax).keep hkeep fun x hf => ?_
    rw [hfound, h.found] at hf
    cases hf
  · have hsame := mark_reopen_of_flag (.inl he)
    rw [hsame] at he hn
    obtain ⟨t, ht, htn, ⟨l, hl⟩, hnote⟩ := h.covered v hv he n hn
    refine ⟨t, ht, htn, ⟨l, (hkeep _).level.trans hl⟩, fun hr => ?_⟩
    rw [hedges]
    exact hnote (mark_reopen_of_flag (.inr hr) ▸ hr)

theorem fullCount_reopen (h : Between sys c q m) (hne : vs ≠ [])
    (hvs : ∀ v ∈ vs, v ∈ m.store.vertices ∧ (m.observation.mark v.handle).reduced = true) :
    fullCount m.store m.observation < fullCount m.store (m.observation.reopen vs) := by
  obtain ⟨v, hv⟩ := List.exists_mem_of_ne_nil vs hne
  refine tally_lt (fun u _ => ?_) (hvs v hv).1 ?_
  · rw [mark_reopen]
    split
    · rw [(LevelMark.reopen_flags _).1]
      exact Bool.toNat_le _
    · exact Nat.le_refl _
  · obtain ⟨-, -, hf, -⟩ := h.regular.reducible v (hvs v hv).1 (hvs v hv).2
    rw [mark_reopen, if_pos (List.mem_map_of_mem hv), hf, (LevelMark.reopen_flags _).1]
    exact Nat.zero_lt_one

def Acyclic (o : Observation σ) : Prop :=
  ∀ a, ¬ Relation.TransGen (fun a b => (a, b) ∈ Elimination.byHandle o.cyclicEdges) a a

theorem mem_cyclicEdges {e : Vertex σ × Vertex σ} :
    e ∈ o.cyclicEdges ↔ e ∈ o.reducedEdges ∧ (o.mark e.2.handle).reduced = true := by
  unfold Observation.cyclicEdges
  rw [List.mem_filter]

/-- After a round the states on cycles of reduced states are found. If there are none, no such
cycle is left; otherwise they can be opened again, and then more states are full than before. -/
theorem Between.eliminate (h : Between sys c q m) {schedule : Schedule}
    (hfair : schedule.Fair c.workerCount) :
    ∃ marked, Elimination.eliminate m.observation.retainReduced.cyclicEdges c.workerCount
        schedule = .ok marked ∧
      (marked = [] → Acyclic m.observation.retainReduced) ∧
      (marked ≠ [] →
        Between sys c q { m with observation := m.observation.retainReduced.reopen marked } ∧
        Sown q { m with observation := m.observation.retainReduced.reopen marked }
          (.vertices marked) ∧
        fullCount m.store m.observation <
          fullCount m.store (m.observation.retainReduced.reopen marked)) := by
  have hretain := h.retain
  have hone : max c.workerCount 1 = c.workerCount := Nat.max_eq_left (Nat.le_max_right _ _)
  obtain ⟨marked, helim, hsource, hacyclic⟩ := Elimination.eliminate_cases h.canonical.sound
    (fun e (he : e ∈ m.observation.retainReduced.cyclicEdges) =>
      hretain.regular.edges e (mem_cyclicEdges.1 he).1) c.workerCount (hone.symm ▸ hfair)
  have hmarked : ∀ v ∈ marked, v ∈ m.store.vertices ∧
      (m.observation.retainReduced.mark v.handle).reduced = true := by
    intro v hv
    obtain ⟨t, ht⟩ := hsource v hv
    obtain ⟨he, -⟩ := mem_cyclicEdges.1 ht
    exact ⟨(hretain.regular.edges _ he).1, (mem_retainReduced.1 he).2⟩
  refine ⟨marked, helim, hacyclic, fun hne => ⟨hretain.reopen hmarked, fun v hv => ?_,
    fullCount_reopen hretain hne hmarked⟩⟩
  -- a reduced state is expanded, and it keeps its level
  obtain ⟨hvs, hred⟩ := hmarked v hv
  obtain ⟨he, -⟩ := hretain.regular.reducible v hvs hred
  obtain ⟨l, hl⟩ := LevelMark.isExpanded_iff.1 he
  refine ⟨hvs, l, hretain.regular.expanded_le v hvs l hl, ?_⟩
  exact (keeps_reopen _ _ _).level.trans (LevelMark.level?_eq_of_expanded hl)

section levels
variable {timetable : Timetable} (hx : sys.Explicit) (hspread : sys.Spread)
  (hfair : timetable.Fair c.workerCount)
include hx hspread hfair

/-- The rounds of a level end: each opens some state again, which is then full for good. -/
theorem exploreLevel_cases (hb : q.level ≤ q.bound) {n : Nat} (h : Between sys c q m)
    (hseeds : Sown q m seeds) (hn : sys.extent < n + fullCount m.store m.observation) :
    (∃ k, exploreLevel sys c q timetable n seeds m = .error (.outOfMemory k) ∧
      sys.Exceeds c.stateLimit) ∨
    ∃ m', exploreLevel sys c q timetable n seeds m = .ok m' ∧ m.stats.states ≤ m'.stats.states ∧
      (Halts sys q m' ∨
        Between sys c q m' ∧ (q.reduction = true → Acyclic m'.observation)) := by
  induction n generalizing seeds m with
  | zero =>
    have hfull : fullCount m.store m.observation ≤ m.store.vertices.length :=
      tally_le_length fun m => Bool.toNat_le m.full
    have hlen := h.length_le hx
    omega
  | succ n ih =>
    unfold exploreLevel
    rcases round_cases hx hspread (hfair q.level n).1 hb h hseeds with ⟨k, hround, hex⟩ |
      ⟨m₁, hround, hstats, hfull, hcase⟩
    · left
      rw [hround]
      exact ⟨k, rfl, hex⟩
    · rw [hround]
      simp only [bind, Except.bind]
      rcases hcase with hhalt | hbetween
      · right
        rw [hhalt.found, Bool.true_or, if_pos rfl]
        exact ⟨m₁, rfl, hstats, .inl hhalt⟩
      · rw [hbetween.found, Option.isSome_none, Bool.false_or]
        by_cases hr : q.reduction = true
        · rw [if_neg (by rw [hr]; exact Bool.false_ne_true)]
          obtain ⟨marked, helim, hacyclic, hreopen⟩ := hbetween.eliminate (hfair q.level n).2
          rw [helim]
          cases marked with
          | nil => exact .inr ⟨_, rfl, hstats, .inr ⟨hbetween.retain, fun _ => hacyclic rfl⟩⟩
          | cons v rest =>
            obtain ⟨hnext, hsown, hlt⟩ := hreopen (List.cons_ne_nil v rest)
            refine (ih hnext hsown ?_).imp_right ?_
            · dsimp only
              omega
            · rintro ⟨m', hrun, hle, hend⟩
              exact ⟨m', hrun, hstats.trans hle, hend⟩
        · right
          rw [if_pos (by rw [Bool.eq_false_iff.2 hr]; rfl)]
          exact ⟨m₁, rfl, hstats, .inr ⟨hbetween, fun hq => absurd hq hr⟩⟩

omit hx hspread hfair in
theorem Between.next {bound level : Nat} (h : Between sys c (levelQuery c bound level) m) :
    Between sys c (levelQuery c bound (level + 1)) m :=
  ⟨h.canonical, h.limit, h.shards, h.reachable,
    ⟨h.regular.unmarked, h.regular.fault,
      fun v hv l hl => (h.regular.expanded_le v hv l hl).trans (Nat.le_succ level),
      h.regular.reducible, h.regular.edges⟩,
    h.found, fun hmax => ⟨(h.traced hmax).parentLevel, (h.traced hmax).accounts,
      (h.traced hmax).rooted, (h.traced hmax).unset, (h.traced hmax).found⟩, h.covered, h.counted⟩

omit hx hspread hfair in
theorem sown_levelSeeds (m : State σ) (bound level : Nat) :
    Sown (levelQuery c bound level) m (levelSeeds m level) := by
  unfold levelSeeds
  split
  · rename_i h0
    exact h0
  · intro v hv
    obtain ⟨hv, hp⟩ := List.mem_filter.1 hv
    exact ⟨hv, level, Nat.le_refl _, LevelMark.level?_eq_some.2 (.inl (of_decide_eq_true hp))⟩

/-- The levels end: each but the last expands a state, and a state is expanded twice at most. -/
theorem exploreLevels_cases {bound n level : Nat} (hb : level ≤ bound)
    (h : Between sys c (levelQuery c bound level) m)
    (hn : 2 * sys.extent < n + m.stats.states) :
    (∃ k, exploreLevels sys c bound timetable n level m = .error (.outOfMemory k) ∧
      sys.Exceeds c.stateLimit) ∨
    ∃ all m', exploreLevels sys c bound timetable n level m = .ok (all, m') ∧ ∃ last,
      (Halts sys (levelQuery c bound last) m' ∨
        Between sys c (levelQuery c bound last) m' ∧
          (c.reduction = true → Acyclic m'.observation)) := by
  induction n generalizing level m with
  | zero =>
    have hexp : expandedCount m.store m.observation ≤ m.store.vertices.length :=
      tally_le_length fun m => Bool.toNat_le m.isExpanded
    have hfull : fullCount m.store m.observation ≤ m.store.vertices.length :=
      tally_le_length fun m => Bool.toNat_le m.full
    have hlen := h.length_le hx
    have hcount := h.counted
    omega
  | succ n ih =>
    rcases exploreLevel_cases (n := sys.extent + 1) hx hspread hfair hb h
      (sown_levelSeeds m bound level) (by omega) with ⟨k, hrun, hex⟩ | ⟨m', hrun, hstats, hcase⟩
    · left
      refine ⟨k, ?_, hex⟩
      change (exploreLevel sys c (levelQuery c bound level) timetable (sys.extent + 1)
        (levelSeeds m level) m >>= _) = _
      rw [hrun]
      rfl
    · rw [exploreLevels_succ hrun]
      rcases hcase with hhalt | ⟨hbetween, hacyclic⟩
      · rw [if_pos hhalt.found]
        exact .inr ⟨_, _, rfl, level, .inl hhalt⟩
      · rw [hbetween.found, Option.isSome_none, if_neg Bool.false_ne_true]
        by_cases hsame : m'.stats.states = m.stats.states
        · rw [if_pos hsame]
          exact .inr ⟨_, _, rfl, level, .inr ⟨hbetween, hacyclic⟩⟩
        · rw [if_neg hsame]
          by_cases hlast : bound ≤ level
          · rw [if_pos hlast]
            exact .inr ⟨_, _, rfl, level, .inr ⟨hbetween, hacyclic⟩⟩
          · rw [if_neg hlast]
            exact ih (by omega) hbetween.next (by omega)

omit hx hspread hfair in
theorem between_start (c : SearchConfig) (bound : Nat)
    (hw : c.partitioned = true → c.workerCount ≤ UInt32.size) :
    Between sys c (levelQuery c bound 0) { store := c.newStore } := by
  have hno : ∀ v, v ∉ (c.newStore : Store σ).vertices :=
    fun v => c.vertices_newStore (σ := σ) ▸ List.not_mem_nil
  exact ⟨c.canonical_newStore sys hw, rfl, c.size_newStore, fun v hv => absurd hv (hno v),
    ⟨fun a => .inl (mark_empty a), rfl, fun v hv => absurd hv (hno v),
      fun v hv => absurd hv (hno v), nofun⟩, rfl,
    fun _ => ⟨fun v hv => absurd hv (hno v), fun v hv => absurd hv (hno v),
      fun v hv => absurd hv (hno v), fun v hv => absurd hv (hno v), nofun⟩,
    fun v hv => absurd hv (hno v), Nat.zero_le _⟩

theorem explore_cases (bound : Nat) (hw : c.partitioned = true → c.workerCount ≤ UInt32.size) :
    (∃ k, explore sys c bound timetable = .error (.outOfMemory k) ∧ sys.Exceeds c.stateLimit) ∨
    ∃ all m, explore sys c bound timetable = .ok (all, m) ∧ ∃ last,
      (Halts sys (levelQuery c bound last) m ∨
        Between sys c (levelQuery c bound last) m ∧
          (c.reduction = true → Acyclic m.observation)) :=
  exploreLevels_cases hx hspread hfair (Nat.zero_le bound) (between_start c bound hw) (by omega)

end levels

end Bounded

end ModelChecker
