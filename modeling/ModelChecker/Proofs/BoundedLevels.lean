import ModelChecker.Proofs.BoundedRound
import ModelChecker.Proofs.SearchRun

namespace ModelChecker.Bounded

variable {σ : Type} {sys : System σ} {q : Query} {m : State σ} {c : SearchConfig}
  {seeds : Seeds σ}

/-- All states up to the level are expanded and show no violation. -/
structure Explored (sys : System σ) (q : Query) (m : State σ) : Prop where
  reached : Reached sys q m.store m.observation
  order : ∃ order, Ordered m.store m.observation order ∧ order.length = m.stats.states
  found : m.observation.found = none
  initial : ∀ s ∈ sys.initials, ∃ v ∈ m.store.vertices, v.state = s ∧
    (m.observation.mark v.handle).progress = .expanded 0
  waiting : ∀ v ∈ m.store.vertices, (m.observation.mark v.handle).isExpanded = true ∨
    (m.observation.mark v.handle).progress = .waiting (q.level + 1)
  edges : ∀ v ∈ m.store.vertices, ∀ l, (m.observation.mark v.handle).progress = .expanded l →
    (q.property = .deadlock → sys.successors v.state ≠ []) ∧
      ∀ n ∈ sys.successors v.state, Relaxed sys q m.store m.observation l n
  goal : ∀ v ∈ m.store.vertices, (m.observation.mark v.handle).isExpanded = true →
    q.property = .goal → sys.goal v.state = false

/-- What a round may start from: nothing at all, or the states that the level before left. -/
inductive Ready (sys : System σ) (q : Query) (m : State σ) : Seeds σ → Prop where
  | first (hlevel : q.level = 0) (hc : m.store.Canonical sys) (hnil : m.store.vertices = [])
    (hlimit : m.store.budget.limit = none) (ho : m.observation = {}) (hs : m.stats.states = 0) :
    Ready sys q m .initials
  | next {l : Nat} (hlevel : q.level = l + 1) (h : Explored sys { q with level := l } m) :
    Ready sys q m (.vertices (m.waitingAt q.level))

theorem mark_empty (a : Handle) : ({} : Observation σ).mark a = {} :=
  Std.TreeMap.getD_emptyc

theorem ordered_empty (store : Store σ) : Ordered store {} [] where
  nodup := .nil
  mem_iff v := by
    rw [mark_empty]
    exact ⟨nofun, fun hv => nomatch hv.2⟩
  lineage := .nil
  parent v _ a ha := by
    rw [mark_empty] at ha
    cases ha

theorem Ready.order (h : Ready sys q m seeds) :
    ∃ old, Ordered m.store m.observation old ∧ old.length = m.stats.states := by
  cases h with
  | first _ _ _ _ ho hs => exact ⟨[], ho ▸ ordered_empty m.store, hs.symm⟩
  | next _ h => exact h.order

theorem Ordered.length_eq {store : Store σ} {o : Observation σ} {a b : List (Vertex σ)}
    (ha : Ordered store o a) (hb : Ordered store o b) : a.length = b.length := by
  refine ((List.perm_ext_iff_of_nodup ha.nodup hb.nodup).2 fun v => ?_).length_eq
  rw [ha.mem_iff, hb.mem_iff]

section start
variable {store : Store σ} {items : Multiset (WorkItem σ)}
  (hno : items.countP (·.isVisit) = 0)
include hno

theorem holds_first (hlevel : q.level = 0) (hnil : m.store.vertices = []) (ho : m.observation = {})
    (hc : store.Canonical sys) (hlimit : store.budget.limit = none)
    (hshards : store.shards.size = m.store.shards.size)
    (hinit : ∀ v ∈ store.vertices, v.state ∈ sys.initials)
    (hitems : ∀ x ∈ items, ItemOk sys q store {} x)
    (hpend : ∀ s ∈ sys.initials, Pending items s) :
    Holds sys q m { store, observation := {}, items } := by
  -- no state has a mark, so all that is said of marked states is void
  have hnone : ∀ a l, (({} : Observation σ).mark a).level? ≠ some l := by
    intro a l hl
    rw [mark_empty] at hl
    cases hl
  have hexp : ∀ a l, (({} : Observation σ).mark a).progress ≠ .expanded l :=
    fun a l hl => hnone a l (LevelMark.level?_eq_some.2 (.inr hl))
  have hadm : ({ store, observation := {}, items } : Work σ (Observation σ)).admitted = 0 :=
    (Nat.zero_add _).trans hno
  refine ⟨⟨⟨hc, hlimit, fun a => .inl (mark_empty a), fun v _ l hl => ?_, fun v _ l hl => ?_,
      fun v _ l hl => ?_, fun v hv => .inl (hinit v hv), rfl, nofun⟩,
    ⟨fun v hv => ?_, fun a ha => ?_, fun a l hl => ?_, hshards⟩,
    ⟨[], [], ho ▸ ordered_empty m.store, ordered_empty store, hadm.le, fun _ => hadm.symm⟩, hitems,
      rfl, rfl⟩,
    fun _ => ⟨fun s hs => .inl ⟨hlevel, hpend s hs⟩, fun v hv => .inl ⟨none, hpend _ (hinit v hv)⟩,
      fun v _ l hl => absurd hl (hexp _ l), fun v _ he => ?_⟩⟩
  · exact absurd hl (hnone _ l)
  · exact absurd hl (hexp _ l)
  · exact absurd (LevelMark.level?_eq_some.2 (.inl hl)) (hnone _ l)
  · rw [hnil] at hv
    cases hv
  · rw [ho]
  · exact absurd (ho ▸ hl) (hnone a l)
  · obtain ⟨l, hl⟩ := LevelMark.isExpanded_iff.1 he
    exact absurd hl (hexp _ l)

theorem holds_next {l : Nat} (hlevel : q.level = l + 1) (h : Explored sys { q with level := l } m)
    (hitems : ∀ x ∈ items, ItemOk sys q m.store m.observation x)
    (hpend : ∀ v ∈ m.waitingAt q.level, Pending items v.state) :
    Holds sys q m { store := m.store, observation := m.observation, items } := by
  obtain ⟨old, ho, -⟩ := h.order
  have hadm : ({ store := m.store, observation := m.observation, items } :
      Work σ (Observation σ)).admitted = 0 := (Nat.zero_add _).trans hno
  have hr := h.reached
  refine ⟨⟨⟨hr.canonical, hr.unlimited, hr.unmarked, hr.level, fun v hv k hk => ?_,
      fun v hv k hk => ?_, hr.origin, hr.fault, fun x hx => ?_⟩, Advance.refl _ _,
    ⟨[], old, ho, ho, hadm.le, fun _ => hadm.symm⟩, hitems, ?_, rfl⟩,
    fun _ => ⟨fun s hs => .inr (h.initial s hs), fun v hv => ?_, fun v hv k hk => .inr ?_, h.goal⟩⟩
  · exact (hr.expanded_le v hv k hk).trans (by rw [hlevel]; exact Nat.le_succ l)
  · -- what waits after level `l` waits at `l + 1`
    have hw := h.waiting v hv
    rw [LevelMark.isExpanded, hk] at hw
    cases hw.resolve_left Bool.false_ne_true
    change q.level ≤ l + 1 ∧ l + 1 ≤ q.level + 1
    omega
  · rw [h.found] at hx
    cases hx
  · change false = m.observation.found.isSome
    rw [h.found]
    rfl
  · rcases h.waiting v hv with he | hw
    · exact .inr (.inl he)
    · refine .inl ⟨none, hpend v (List.mem_filter.2 ⟨hv, decide_eq_true ?_⟩)⟩
      rw [hw, hlevel]
  · obtain ⟨hd, hall⟩ := h.edges v hv k hk
    exact ⟨hd, fun n hn => .inr ⟨(hall n hn).target, (hall n hn).fine⟩⟩

end start

theorem pending_ofSeeds {vs : List (Vertex σ × Bool)} {s : σ} (h : s ∈ vs.map (·.1.state)) :
    Pending ↑(vs.map fun s => WorkItem.met none s.1 {} s.2) s := by
  obtain ⟨v, hv, rfl⟩ := List.mem_map.1 h
  exact ⟨{}, _, Multiset.mem_coe.2 (List.mem_map_of_mem hv), rfl⟩

theorem pending_ofStates {states : List σ} {s : σ} (h : s ∈ states) :
    Pending ↑(states.map fun s => WorkItem.arrival none (s, {})) s :=
  ⟨{}, _, Multiset.mem_coe.2 (List.mem_map_of_mem h), rfl⟩

theorem resolve_initials {store : Store σ} (hx : sys.Explicit) (hc : store.Canonical sys)
    (hlimit : store.budget.limit = none) :
    ∃ vs s', sys.resolve sys.initials store = .ok (vs, s') ∧
      Store.Resolved sys sys.initials store vs s' := by
  refine (hc.resolve_cases hx sys.initials).resolve_right ?_
  rintro ⟨n, e, s', hn, -⟩
  rw [hlimit] at hn
  cases hn

theorem Ready.resolve (h : Ready sys q m seeds) (hx : sys.Explicit) :
    ∃ r, seeds.resolve sys m.store = .ok r := by
  cases h with
  | first hlevel hc hnil hlimit ho hs =>
    obtain ⟨vs, s', hres, -⟩ := resolve_initials hx hc hlimit
    exact ⟨_, hres⟩
  | next => exact ⟨_, rfl⟩

/-- However the seeds are handed over, a round starts well. -/
theorem Ready.holds (h : Ready sys q m seeds) (hx : sys.Explicit) {w : Work σ (Observation σ)}
    (hw : c.Begins sys seeds m.store m.observation w) : Holds sys q m w := by
  cases h with
  | first hlevel hc hnil hlimit ho hs =>
    rw [ho] at hw
    have hok : ∀ {store s}, s ∈ sys.initials → SeedOk sys q store {} s :=
      fun hs => by rwa [SeedOk, if_pos hlevel]
    cases hw with
    | @stored vs store' _ hres =>
      obtain ⟨vs', s', hres', hr⟩ := resolve_initials hx hc hlimit
      cases hres.symm.trans hres'
      refine holds_first (Work.countP_map_eq_zero _ fun _ => rfl) hlevel hnil ho hr.canonical
        (hr.limit.trans hlimit) hr.size_shards (fun v hv => ?_) (fun x hx => ?_)
        fun s hs => pending_ofSeeds ?_
      · refine (hr.origin v hv).resolve_left fun hv => ?_
        rw [hnil] at hv
        cases hv
      · obtain ⟨v, hv, rfl⟩ := List.mem_map.1 (Multiset.mem_coe.1 hx)
        exact ⟨hr.mem v hv, hok (hr.states_eq ▸ List.mem_map_of_mem hv)⟩
      · rw [hr.states_eq]
        exact hs
    | sent =>
      refine holds_first (Work.countP_map_eq_zero _ fun _ => rfl) hlevel hnil ho hc hlimit rfl
        (fun v hv => ?_) (fun x hx => ?_) fun s hs => pending_ofStates hs
      · rw [hnil] at hv
        cases hv
      · obtain ⟨s, hs, rfl⟩ := List.mem_map.1 (Multiset.mem_coe.1 hx)
        exact hok hs
  | @next l hlevel h =>
    have hok : ∀ v ∈ m.waitingAt q.level,
        v ∈ m.store.vertices ∧ SeedOk sys q m.store m.observation v.state := by
      intro v hv
      obtain ⟨hv, hp⟩ := List.mem_filter.1 hv
      refine ⟨hv, ?_⟩
      rw [SeedOk, if_neg (by omega)]
      exact ⟨v, hv, rfl, q.level, Nat.le_refl _,
        LevelMark.level?_eq_some.2 (.inl (of_decide_eq_true hp))⟩
    cases hw with
    | stored _ hres =>
      cases hres
      refine holds_next (Work.countP_map_eq_zero _ fun _ => rfl) hlevel h (fun x hx => ?_)
        fun v hv => pending_ofSeeds ?_
      · obtain ⟨y, hy, rfl⟩ := List.mem_map.1 (Multiset.mem_coe.1 hx)
        obtain ⟨v, hv, rfl⟩ := List.mem_map.1 hy
        exact hok v hv
      · rw [List.map_map]
        exact List.mem_map_of_mem hv
    | sent =>
      refine holds_next (Work.countP_map_eq_zero _ fun _ => rfl) hlevel h (fun x hx => ?_)
        fun v hv => pending_ofStates (List.mem_map_of_mem hv)
      obtain ⟨s, hs, rfl⟩ := List.mem_map.1 (Multiset.mem_coe.1 hx)
      obtain ⟨v, hv, rfl⟩ := List.mem_map.1 hs
      exact (hok v hv).2

theorem Ordered.length_le {store : Store σ} {o : Observation σ} {order : List (Vertex σ)}
    (h : Ordered store o order) : order.length ≤ store.vertices.length :=
  (List.subperm_of_subset h.nodup fun v hv => ((h.mem_iff v).1 hv).1).length_le

theorem Reached.length_le {store : Store σ} {o : Observation σ} (h : Reached sys q store o)
    (hx : sys.Explicit) : store.vertices.length ≤ sys.extent := by
  refine Store.Within.length_le (fun v hv => ?_) h.canonical.toDistinct hx
  exact (h.origin v hv).imp_right fun ⟨u, _, _, hn⟩ => ⟨u.state, hn⟩

theorem Sound.length_le {w : Work σ (Observation σ)} (h : Sound sys q m w) (hx : sys.Explicit) :
    w.admitted ≤ sys.extent ∧ w.admitted ≤ UInt32.size := by
  obtain ⟨new, old, -, ho, hle, -⟩ := h.order
  have hlen := ho.length_le
  rw [List.length_append] at hlen
  have hext := h.reached.length_le hx
  have hword := h.reached.canonical.length_lt_word hx
  omega

/-- The search ended with a violation. -/
structure Stopped (sys : System σ) (q : Query) (m : State σ) : Prop where
  reached : Reached sys q m.store m.observation
  order : ∃ order, Ordered m.store m.observation order
  found : m.observation.found.isSome = true

theorem Holds.explored {w : Work σ (Observation σ)} (h : Holds sys q m w)
    (hord : ∃ old, Ordered m.store m.observation old ∧ old.length = m.stats.states)
    (hraised : w.interrupt.raised = false) (hitems : w.items = 0) :
    Explored sys q ⟨w.store, w.observation, m.stats + w.stats⟩ := by
  have hno : ∀ x, x ∉ w.items := fun x => hitems ▸ Multiset.notMem_zero x
  -- with no item left, each alternative that names one is void
  have hawaited : ∀ {source n}, ¬ Work.Awaited w.items source n :=
    hitems ▸ Work.not_awaited_zero
  have hc := h.complete hraised
  refine ⟨h.sound.reached, ?_, ?_, fun s hs => ?_, fun v hv => ?_, fun v hv l hl => ?_, hc.goal⟩
  · obtain ⟨new, old, hold, ho, -, heq⟩ := h.sound.order
    obtain ⟨old', hold', hlen⟩ := hord
    refine ⟨new ++ old, ho, ?_⟩
    have hadm : w.admitted = w.stats.states := by
      rw [Work.admitted, hitems, Multiset.countP_zero]
      rfl
    change _ = m.stats.states + w.stats.states
    rw [List.length_append, heq hraised, hadm, hold.length_eq hold', hlen, Nat.add_comm]
  · have hf := h.sound.raised
    rw [hraised] at hf
    exact Option.not_isSome_iff_eq_none.1 (by rw [← hf]; exact Bool.false_ne_true)
  · refine (hc.initial s hs).resolve_left ?_
    rintro ⟨_, _, hx⟩
    exact hawaited hx
  · rcases hc.waiting v hv with ⟨_, _, hx⟩ | hexp | ⟨l, hl, hlt⟩
    · exact absurd hx hawaited
    · exact .inl hexp
    refine .inr ?_
    -- an edge adds at most one switch, so what waits does so at the next level
    have hle := (h.sound.reached.waiting v hv l hl).2
    obtain rfl : l = q.level + 1 := by omega
    exact hl
  · obtain ⟨hd, hall⟩ := (hc.edges v hv l hl).resolve_left (hno _)
    exact ⟨hd, fun n hn => (hall n hn).resolve_left hawaited⟩

/-- A round that expands no state leaves no state waiting. -/
theorem Holds.closed {w : Work σ (Observation σ)} (h : Holds sys q m w) (hm : Ready sys q m seeds)
    (he : Explored sys q ⟨w.store, w.observation, m.stats + w.stats⟩)
    (hraised : w.interrupt.raised = false) (hadm : w.admitted = 0) :
    ∀ v ∈ w.store.vertices, (w.observation.mark v.handle).isExpanded = true := by
  intro v hv
  rcases h.sound.reached.origin v hv with hi | ⟨u, hu, hue, n, hn, hnv⟩
  · obtain ⟨t, ht, hts, hte⟩ := he.initial _ hi
    obtain rfl := h.sound.reached.canonical.eq_of_state ht hv hts
    exact LevelMark.isExpanded_iff.2 ⟨0, hte⟩
  · -- the source was expanded before the round, so the round has dealt with the target
    obtain ⟨new, old, hold, ho, -, heq⟩ := h.sound.order
    obtain rfl := List.eq_nil_of_length_eq_zero ((heq hraised).trans hadm)
    obtain ⟨hum, hume⟩ := (hold.mem_iff u).1 ((ho.mem_iff u).2 ⟨hu, hue⟩)
    cases hm with
    | first _ _ hnil =>
      rw [hnil] at hum
      cases hum
    | @next l hlevel hm =>
      obtain ⟨k, hk⟩ := LevelMark.isExpanded_iff.1 hume
      obtain ⟨t, ht, hts, -⟩ := ((hm.edges u hum k hk).2 n hn).target
      have htw := h.sound.since.sub t ht
      obtain rfl := h.sound.reached.canonical.eq_of_state htw hv (hts.trans hnv)
      rcases hm.waiting t ht with hte | htl
      · exact h.sound.since.isExpanded hte
      · obtain ⟨k', hk', hle⟩ :=
          h.sound.since.lowers _ (l + 1) (LevelMark.level?_eq_some.2 (.inl htl))
        refine (he.waiting t htw).resolve_right fun hlater => ?_
        cases hk'.symm.trans (LevelMark.level?_eq_some.2 (.inl hlater))
        omega

section round
variable {schedule : Schedule} (hx : sys.Explicit) (hr : q.reduction = false)
  (hb : q.level ≤ q.bound) (hmax : q.level + 1 ≤ maxLevel)
  (hshards : c.partitioned = true → m.store.shards.size = c.workerCount)
  (hfair : schedule.Fair c.workerCount)
include hx hr hb hmax hshards hfair

/-- A round ends, with a violation or with its level explored. -/
theorem round_ends (h : Ready sys q m seeds) :
    ∃ m', round sys c q schedule seeds m = .ok m' ∧ m'.store.shards.size = m.store.shards.size ∧
      (Stopped sys q m' ∨ Explored sys q m' ∧ m.stats.states ≤ m'.stats.states ∧
        (m'.stats.states = m.stats.states →
          ∀ v ∈ m'.store.vertices, (m'.observation.mark v.handle).isExpanded = true)) := by
  have hinv : ∀ w₀ w, c.Begins sys seeds m.store m.observation w₀ →
      Work.Moves sys (listener sys q) w₀ w → Holds sys q m w :=
    fun w₀ w hw₀ hw => (h.holds hx hw₀).moves hr hb hmax hx hw
  have hdegree : ∀ i s v o, ((listener sys q).successors i s v o).1.length ≤ sys.degree := by
    intro i s v o
    rw [listener_successors hr]
    exact hx.length_successors_le _
  -- as many states as are expanded have a vertex, which bounds the round
  have hbound : ∀ w₀ w, c.Begins sys seeds m.store m.observation w₀ →
      Work.Moves sys (listener sys q) w₀ w →
      w.stats.states ≤ sys.extent ∧ w.admitted < UInt64.size := by
    intro w₀ w hw₀ hw
    have hlen := (hinv w₀ w hw₀ hw).sound.length_le hx
    exact ⟨le_trans (Nat.le_add_right _ _) hlen.1, lt_of_le_of_lt hlen.2 (by decide)⟩
  obtain ⟨e, w₀, w, hsearch, hbegin, hmoves, hends⟩ := c.search_ends hfair (fun _ _ _ => rfl)
    hdegree hshards (fun _ => h.resolve hx) hbound
  have hw := hinv w₀ w hbegin hmoves
  obtain ⟨b, hfin⟩ := Exploration.finished_ok hends.ending hw.sound.failure
  refine ⟨⟨w.store, w.observation, m.stats + w.stats⟩, ?_, hw.sound.since.shards, ?_⟩
  · have hfault : e.observation.fault = none := hends.observation ▸ hw.sound.reached.fault
    unfold round
    rw [hsearch]
    simp only [Except.mapError, bind, Except.bind, pure, Except.pure, hfault, hfin]
    rw [hends.store, hends.observation, hends.stats]
  · -- the interrupt is raised exactly if a violation was found
    cases hraised : w.interrupt.raised with
    | true =>
      obtain ⟨new, old, -, ho, -, -⟩ := hw.sound.order
      exact .inl ⟨hw.sound.reached, ⟨_, ho⟩, hw.sound.raised.symm.trans hraised⟩
    | false =>
      have hitems := hends.done hraised
      have he := hw.explored h.order hraised hitems
      refine .inr ⟨he, Nat.le_add_right _ _, fun hsame => hw.closed h he hraised ?_⟩
      rw [Work.admitted, hitems, Multiset.countP_zero]
      have hsame : m.stats.states + w.stats.states = m.stats.states := hsame
      omega

end round

theorem exploreLevel_eq (timetable : Timetable) (hr : q.reduction = false) (n : Nat) :
    exploreLevel sys c q timetable (n + 1) seeds m =
      round sys c q (timetable.search q.level n) seeds m := by
  unfold exploreLevel
  rw [hr]
  cases round sys c q (timetable.search q.level n) seeds m with
  | error e => rfl
  | ok m' =>
    simp only [bind, Except.bind, Bool.not_false, Bool.or_true, if_true]
    rfl

/-- All states within the bound are expanded. If `all` is set, no other state was met. -/
structure Finished (sys : System σ) (q : Query) (all : Bool) (m : State σ) : Prop where
  explored : Explored sys q m
  beyond : ∀ v ∈ m.store.vertices, ∀ l, (m.observation.mark v.handle).progress = .waiting l →
    q.bound < l
  closed : all = true → ∀ v ∈ m.store.vertices,
    (m.observation.mark v.handle).isExpanded = true

abbrev levelQuery (c : SearchConfig) (bound level : Nat) : Query :=
  ⟨c.property, c.reduction, bound, level⟩

abbrev levelSeeds (m : State σ) (level : Nat) : Seeds σ :=
  if level = 0 then .initials else .vertices (m.waitingAt level)

section deepen
variable {timetable : Timetable} {bound n level : Nat}

theorem exploreLevels_succ {m' : State σ}
    (h : exploreLevel sys c (levelQuery c bound level) timetable (sys.extent + 1)
      (levelSeeds m level) m = .ok m') :
    exploreLevels sys c bound timetable (n + 1) level m =
      if m'.observation.found.isSome then .ok (false, m')
      else if m'.stats.states = m.stats.states then .ok (true, m')
      else if bound ≤ level then .ok (false, m')
      else exploreLevels sys c bound timetable n (level + 1) m' := by
  change (exploreLevel sys c (levelQuery c bound level) timetable (sys.extent + 1)
    (levelSeeds m level) m >>= _) = _
  rw [h]
  rfl

/-- What a level that leaves `next` leads to, in a search that has a result. -/
inductive Deepens (sys : System σ) (c : SearchConfig) (bound : Nat) (timetable : Timetable)
    (n level : Nat) (m next : State σ) : Bool × State σ → Prop where
  | found (hf : next.observation.found.isSome = true) :
    Deepens sys c bound timetable n level m next (false, next)
  | closed (hf : next.observation.found = none) (hs : next.stats.states = m.stats.states) :
    Deepens sys c bound timetable n level m next (true, next)
  | bounded (hf : next.observation.found = none) (hs : next.stats.states ≠ m.stats.states)
    (hb : bound ≤ level) : Deepens sys c bound timetable n level m next (false, next)
  | deeper {r : Bool × State σ} (hf : next.observation.found = none)
    (hs : next.stats.states ≠ m.stats.states) (hb : level < bound)
    (hrun : exploreLevels sys c bound timetable n (level + 1) next = .ok r) :
    Deepens sys c bound timetable n level m next r

theorem exploreLevels_eq_ok {r : Bool × State σ}
    (h : exploreLevels sys c bound timetable (n + 1) level m = .ok r) :
    ∃ next, exploreLevel sys c (levelQuery c bound level) timetable (sys.extent + 1)
      (levelSeeds m level) m = .ok next ∧ Deepens sys c bound timetable n level m next r := by
  cases hlevel : exploreLevel sys c (levelQuery c bound level) timetable (sys.extent + 1)
      (levelSeeds m level) m with
  | error e =>
    change (exploreLevel sys c (levelQuery c bound level) timetable (sys.extent + 1)
      (levelSeeds m level) m >>= _) = _ at h
    rw [hlevel] at h
    cases h
  | ok next =>
    rw [exploreLevels_succ hlevel] at h
    refine ⟨next, rfl, ?_⟩
    by_cases hf : next.observation.found.isSome = true
    · rw [if_pos hf] at h
      cases h
      exact .found hf
    · have hnone := Option.not_isSome_iff_eq_none.1 hf
      rw [if_neg hf] at h
      by_cases hs : next.stats.states = m.stats.states
      · rw [if_pos hs] at h
        cases h
        exact .closed hnone hs
      · rw [if_neg hs] at h
        by_cases hb : bound ≤ level
        · rw [if_pos hb] at h
          cases h
          exact .bounded hnone hs hb
        · rw [if_neg hb] at h
          exact .deeper hnone hs (Nat.lt_of_not_le hb) h

end deepen

theorem Ready.states_le (h : Ready sys q m seeds) (hx : sys.Explicit) :
    m.stats.states ≤ sys.extent := by
  cases h with
  | first _ _ _ _ _ hs => exact hs ▸ Nat.zero_le _
  | next _ h =>
    obtain ⟨order, ho, hlen⟩ := h.order
    exact hlen ▸ ho.length_le.trans (h.reached.length_le hx)

section levels
variable {bound : Nat} {timetable : Timetable} (hx : sys.Explicit) (hr : c.reduction = false)
  (hmax : bound + 1 ≤ maxLevel) (hfair : timetable.Fair c.workerCount)
include hx hr hmax hfair

/-- The levels come to an end: every level but the last expands a state. -/
theorem exploreLevels_ends (n : Nat) {level : Nat} (hlevel : level ≤ bound)
    (hshards : c.partitioned = true → m.store.shards.size = c.workerCount)
    (h : Ready sys (levelQuery c bound level) m (levelSeeds m level))
    (hfuel : sys.extent < n + m.stats.states) :
    ∃ all m' l, l ≤ bound ∧ exploreLevels sys c bound timetable n level m = .ok (all, m') ∧
      (Stopped sys (levelQuery c bound l) m' ∨ Finished sys (levelQuery c bound l) all m') := by
  -- the fuel and the expanded states together exceed the extent, of which there are no more states
  induction n generalizing level m with
  | zero =>
    have hle := h.states_le hx
    omega
  | succ n ih =>
    have hlimit : level + 1 ≤ maxLevel := (Nat.succ_le_succ hlevel).trans hmax
    obtain ⟨m', hround, hsize, hcase⟩ := round_ends (c := c) hx hr hlevel hlimit hshards
      (hfair level sys.extent).1 h
    rw [exploreLevels_succ ((exploreLevel_eq timetable hr _).trans hround)]
    rcases hcase with hstop | ⟨hexp, hle, hclosed⟩
    · rw [if_pos hstop.found]
      exact ⟨false, m', level, hlevel, rfl, .inl hstop⟩
    · have hnone : ¬ m'.observation.found.isSome = true := by
        rw [hexp.found]
        exact Bool.false_ne_true
      rw [if_neg hnone]
      by_cases hsame : m'.stats.states = m.stats.states
      · rw [if_pos hsame]
        have hall := hclosed hsame
        refine ⟨true, m', level, hlevel, rfl, .inr ⟨hexp, fun v hv l hl => ?_, fun _ => hall⟩⟩
        have he := hall v hv
        rw [LevelMark.isExpanded, hl] at he
        cases he
      · rw [if_neg hsame]
        by_cases hlast : bound ≤ level
        · rw [if_pos hlast]
          refine ⟨false, m', level, hlevel, rfl, .inr ⟨hexp, fun v hv l hl => ?_,
            fun hno => absurd hno Bool.false_ne_true⟩⟩
          have hw := hexp.waiting v hv
          rw [LevelMark.isExpanded, hl] at hw
          cases hw.resolve_left Bool.false_ne_true
          exact Nat.lt_succ_of_le hlast
        · rw [if_neg hlast]
          -- the level has expanded a state, which makes up for the fuel that it took
          exact ih (Nat.lt_of_not_le hlast) (fun hp => hsize.trans (hshards hp)) (.next rfl hexp)
            (by omega)

theorem explore_ends (hword : c.partitioned = true → c.workerCount ≤ UInt32.size)
    (hlimit : c.maxStates = none) :
    ∃ all m l, l ≤ bound ∧ explore sys c bound timetable = .ok (all, m) ∧
      (Stopped sys (levelQuery c bound l) m ∨ Finished sys (levelQuery c bound l) all m) := by
  refine exploreLevels_ends hx hr hmax hfair _ (Nat.zero_le bound) c.size_newStore
    (.first rfl (c.canonical_newStore sys hword) c.vertices_newStore ?_ rfl rfl) (by omega)
  change c.maxStates.map _ = none
  rw [hlimit]
  rfl

end levels

end ModelChecker.Bounded
