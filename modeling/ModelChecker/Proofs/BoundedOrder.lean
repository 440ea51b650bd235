import ModelChecker.Proofs.BoundedReport
import ModelChecker.Proofs.BoundedSettle
import ModelChecker.Proofs.BoundedVerdict

namespace ModelChecker

theorem System.Shows.switches {σ : Type} {sys : System σ} {property : Property} {k : Nat}
    {x : Violation σ} (h : sys.Shows property k x) : k ≤ 1 ∧ (x.kind ≠ .errorEdge → k = 0) := by
  cases h with
  | goal => exact ⟨Nat.zero_le 1, fun _ => rfl⟩
  | errorEdge => exact ⟨Bool.toNat_le _, fun hkind => absurd rfl hkind⟩
  | deadlock => exact ⟨Nat.zero_le 1, fun _ => rfl⟩

namespace Bounded

variable {σ : Type} {sys : System σ} {c : SearchConfig} {q : Query} {m m' m₀ : State σ}
  {seeds : Seeds σ} {o : Observation σ} {store' : Store σ} {w w' : Work σ (Observation σ)}
  {x : WorkItem σ} {rest : Multiset (WorkItem σ)} {source : Option (Vertex σ)} {t u v : Vertex σ}
  {flags : EdgeFlags} {isNew : Bool} {k : Nat} {base : Nat}

def Harmless (q : Query) (k : Nat) (n : Successor σ) : Prop :=
  q.property = .goal → k + n.2.contextSwitch.toNat ≤ q.bound → n.2.error = false

theorem harmless_of_follow {worker : Nat} (hk : (o.mark u.handle).level? = some k)
    (hgo : ((listener sys q).follow worker (some u) t flags isNew o).1 ≠ .stop) :
    Harmless q k (t.state, flags) := by
  intro hp hle
  by_contra herr
  apply hgo
  have hcall : (listener sys q).edge worker (some u) t flags isNew o =
      o.report worker ⟨.errorEdge, t, some u⟩ := by
    simp only [listener, edge, hk]
    apply if_pos
    exact ⟨hle, (violationOf_errorEdge t.state flags).2 ⟨hp, eq_true_of_ne_false herr⟩⟩
  rw [follow_terminate hcall]

/-- While nothing is found: no state was opened again, and neither an expanded state that was visited
nor an edge out of it that was told is a violation. -/
structure Blameless (sys : System σ) (q : Query) (w : Work σ (Observation σ)) : Prop where
  full : ∀ a, (w.observation.mark a).full = false
  edges : ∀ v ∈ w.store.vertices, ∀ k, (w.observation.mark v.handle).progress = .expanded k →
    .visit v ∈ w.items ∨ (q.property = .deadlock → sys.successors v.state ≠ []) ∧
      ∀ n ∈ sys.successors v.state, Work.Awaited w.items (some v) n ∨ Harmless q k n

theorem Blameless.told {r : Step × Observation σ} (h : Blameless sys q w)
    (hw : Tracked sys q m₀ w) (hi : w.items = .met source t flags isNew ::ₘ rest)
    (hr : Reply sys q source t flags w.observation r) (hgo : r.1 ≠ .stop)
    (hfine : ∀ u k, source = some u → (w.observation.mark u.handle).progress = .expanded k →
      Harmless q k (t.state, flags)) : Blameless sys q (w.told rest t r) := by
  refine ⟨fun a => ?_, fun v hv k hk => ?_⟩
  all_goals simp only [Work.told_store, Work.told_observation] at *
  · exact ((hw.moved hi hr).full a).trans (h.full a)
  rcases hw.expanded_cases hi hr hgo hv hk with ⟨rfl, hstep, -⟩ | hold
  · left
    rw [Work.told_items, if_pos hstep]
    exact Multiset.mem_cons_self _ rest
  · refine (h.edges v hv k hold).imp (Work.visit_mem_told hi · r) fun hall => ?_
    refine ⟨hall.1, fun n hn => ?_⟩
    rcases hall.2 n hn with hawaited | hfree
    · refine (Work.awaited_told hi hawaited r).imp_right ?_
      rintro ⟨hs, rfl⟩
      exact hfine v k hs hold
    · exact .inr hfree

theorem Blameless.placed (h : Blameless sys q w) (hw : Tracked sys q m₀ w) {next : Successor σ}
    (hi : w.items = .arrival source next ::ₘ rest)
    (hs : Store.Stored sys w.store next.1 t isNew store') :
    Blameless sys q { w with store := store', items := .met source t next.2 isNew ::ₘ rest } := by
  refine ⟨h.full, fun v hv k hk => ?_⟩
  have hvs : v ∈ w.store.vertices := by
    refine (hw.fresh hs v hv).resolve_left fun hnone => ?_
    rw [hnone] at hk
    cases hk
  refine (h.edges v hvs k hk).imp (Work.visit_mem_stored hi).2 fun hall => ⟨hall.1, fun n hn => ?_⟩
  exact (hall.2 n hn).imp_left (Work.awaited_stored hi hs).2

/-- Without reduction a state is visited with all its edges, and its mark stays as it is. -/
theorem Blameless.visited (h : Blameless sys q w) (hw : Tracked sys q m₀ w)
    (hi : w.items = .visit v ::ₘ rest) {r : Option (List (Successor σ)) × SearchStats × Observation σ}
    (hlive : q.property = .deadlock → sys.successors v.state ≠ [])
    (hnext : r.1 = some (sys.successors v.state)) (hobs : r.2.2 = w.observation) :
    Blameless sys q (w.visited v rest r) := by
  have hv : Work.Rests sys w.store (.visit v) :=
    hw.grounded.items _ (hi ▸ Multiset.mem_cons_self _ rest)
  have hkeep : ∀ y ∈ w.items, y ≠ .visit v → y ∈ (w.visited v rest r).items :=
    fun y hy hne => Work.mem_visited_items hi hy hne r
  refine ⟨fun a => ?_, fun u hu k hk => ?_⟩
  · rw [Work.visited_observation, hobs]
    exact h.full a
  · rw [Work.visited_store] at hu
    rw [Work.visited_observation, hobs] at hk
    by_cases huv : u.handle = v.handle
    · obtain rfl := hw.grounded.canonical.eq_of_handle hu hv huv
      exact .inr ⟨hlive, fun n hn => .inl (Work.awaited_of_mem hnext hn w)⟩
    · refine (h.edges u hu k hk).imp (fun hvisit => hkeep _ hvisit ?_) fun hall => ?_
      · rintro ⟨⟩
        exact huv rfl
      · refine ⟨hall.1, fun n hn => ?_⟩
        exact (hall.2 n hn).imp_left fun hn => Work.awaited_visited (hi ▸ hn) w r

def Timely (q : Query) (o : Observation σ) : Prop :=
  ∀ y, o.found = some y → ∃ l ≤ q.level, (o.mark y.last.handle).level? = some l

theorem Timely.told {r : Step × Observation σ} (h : Timely q w.observation)
    (hw : Tracked sys q m₀ w) (hi : w.items = .met source t flags isNew ::ₘ rest)
    (hr : Reply sys q source t flags w.observation r) : Timely q r.2 := by
  have hmoved := hw.moved hi hr
  -- levels only fall, so what was found before stays within the levels so far
  have hold : ∀ y, w.observation.found = some y →
      ∃ l ≤ q.level, (r.2.mark y.last.handle).level? = some l := by
    intro y hy
    obtain ⟨l, hle, hl⟩ := h y hy
    obtain ⟨j, hj, hjl⟩ := hmoved.lowers _ l hl
    exact ⟨j, hj.trans hle, hjl⟩
  cases hr with
  | @error worker u l hs hl =>
    subst hs
    intro y hy
    obtain rfl | hy := (Observation.reports_report rfl worker _).eq_or hy
    swap
    · exact hold y hy
    -- the source of an error edge is expanded, hence of a level so far
    obtain ⟨hu, hue, -⟩ := hw.leads (hi ▸ Multiset.mem_cons_self _ rest)
    obtain ⟨j, hj⟩ := LevelMark.isExpanded_iff.1 hue
    exact ⟨j, hw.regular.expanded_le u hu j hj, LevelMark.level?_eq_of_expanded hj⟩
  | @goal m l o' _ ho hl hle _ _ hf =>
    intro y hy
    obtain rfl | hy := hf.eq_or hy
    swap
    · exact hold y hy
    refine ⟨l, hle, ?_⟩
    change (o'.mark t.handle).level? = some l
    rw [ho.self]
    exact hl
  | expand _ _ _ _ hf => exact fun y hy => hold y (hf ▸ hy)
  | skip _ _ _ hf => exact fun y hy => hold y (hf ▸ hy)

/-- What every move of a round without reduction keeps. -/
structure Orderly (sys : System σ) (q : Query) (w : Work σ (Observation σ)) : Prop where
  timely : Timely q w.observation
  blameless : w.interrupt.raised = false → Blameless sys q w

theorem Orderly.event (hr : q.reduction = false) (h : Orderly sys q w) (hw : Tracked sys q m₀ w)
    (he : Work.Event sys (listener sys q) w w') : Orderly sys q w' := by
  cases he with
  | stored hi hs => exact ⟨h.timely, fun hraised => (h.blameless hraised).placed hw hi hs⟩
  | @told source t flags isNew rest worker hi =>
    have hreply := hw.reply (hi ▸ Multiset.mem_cons_self _ rest) worker
    refine ⟨Work.told_observation .. ▸ h.timely.told hw hi hreply, fun hraised => ?_⟩
    rw [Work.told_raised, Bool.or_eq_false_iff, decide_eq_false_iff_not] at hraised
    refine (h.blameless hraised.1).told hw hi hreply hraised.2 fun u k hs hk => ?_
    subst hs
    exact harmless_of_follow (LevelMark.level?_eq_of_expanded hk) hraised.2
  | @visit v rest worker hi =>
    have hxi : .visit v ∈ w.items := hi ▸ Multiset.mem_cons_self _ rest
    obtain ⟨-, ⟨-, -, hnext, hobs⟩ | ⟨hlive, hnext, hobs⟩⟩ :=
      listener_expand sys hr worker w.store v w.observation
    · refine ⟨?_, fun hraised => ?_⟩
      · rw [Work.visited_observation, hobs]
        intro y hy
        obtain rfl | hy := (Observation.reports_report rfl worker _).eq_or hy
        swap
        · exact h.timely y hy
        obtain ⟨l, hl⟩ := LevelMark.isExpanded_iff.1 (hw.items _ hxi)
        exact ⟨l, hw.regular.expanded_le v (hw.grounded.items _ hxi) l hl,
          LevelMark.level?_eq_of_expanded hl⟩
      · rw [Work.visited_raised, hnext, Bool.or_eq_false_iff] at hraised
        cases hraised.2
    · refine ⟨?_, fun hraised => ?_⟩
      · rw [Work.visited_observation, hobs]
        exact h.timely
      · rw [Work.visited_raised, Bool.or_eq_false_iff] at hraised
        exact (h.blameless hraised.1).visited hw hi hlive hnext hobs
  | full => exact ⟨h.timely, nofun⟩
  | abandon hraised => exact ⟨h.timely, fun hno => nomatch hraised.symm.trans hno⟩

theorem Orderly.moves (hr : q.reduction = false) (hx : sys.Explicit) (hspread : sys.Spread)
    (hb : q.level ≤ q.bound) (h : Orderly sys q w) (hw : Maintained sys q m₀ w)
    (hm : Work.Moves sys (listener sys q) w w') : Orderly sys q w' := by
  have hboth : Maintained sys q m₀ w' ∧ Orderly sys q w' := by
    refine (hm.events hw.tracked.grounded.canonical hx).preserve
      (P := fun w => Maintained sys q m₀ w ∧ Orderly sys q w) (fun w₁ w₂ hw₁ he => ?_) ⟨hw, h⟩
    exact ⟨hw₁.1.event hx hspread hb he, hw₁.2.event hr hw₁.1.tracked he⟩
  exact hboth.2

/-- Between two rounds no expanded state, and no edge out of one, is a violation within the bound. -/
structure Clean (sys : System σ) (q : Query) (m : State σ) : Prop where
  full : ∀ a, (m.observation.mark a).full = false
  edges : ∀ v ∈ m.store.vertices, ∀ k, (m.observation.mark v.handle).progress = .expanded k →
    (q.property = .deadlock → sys.successors v.state ≠ []) ∧
      ∀ n ∈ sys.successors v.state, Harmless q k n

theorem Clean.not_follows (h : Clean sys q m) (s : σ) : ¬ Follows sys m.store m.observation s := by
  rintro ⟨u, -, hf, -⟩
  rw [h.full] at hf
  cases hf

theorem Clean.orderly (h : Clean sys q m) (hm : Between sys c q m) {states : List σ}
    (hw : Work.Starts sys states m.store m.observation w) : Orderly sys q w := by
  refine ⟨fun y hy => ?_, fun _ => ⟨fun a => ?_, fun v hv k hk => .inr ?_⟩⟩
  · rw [hw.observation, hm.found] at hy
    cases hy
  · rw [hw.observation]
    exact h.full a
  · rw [hw.observation] at hk
    have hvm : v ∈ m.store.vertices := by
      refine (hm.fresh hw hv).resolve_left fun hnone => ?_
      rw [hnone] at hk
      cases hk
    exact ⟨(h.edges v hvm k hk).1, fun n hn => .inr ((h.edges v hvm k hk).2 n hn)⟩

/-- Without reduction, the states that take fewer switches than the level have levels that are no
higher than that, and are expanded. -/
theorem Rested.expanded_of_reachesWith {seeds : List σ} (h : Rested sys q base seeds m)
    (hc : Clean sys q m) (hreg : Regular sys q m.store m.observation) (hr : q.reduction = false)
    {n : Nat} {s : σ} (hs : sys.ReachesWith n s) (hn : n < q.level) :
    ∃ v ∈ m.store.vertices, v.state = s ∧
      ∃ l ≤ n, (m.observation.mark v.handle).progress = .expanded l := by
  -- what waits at a lower level would follow a state that was opened again
  have hexpanded : ∀ v ∈ m.store.vertices, ∀ l, (m.observation.mark v.handle).level? = some l →
      l < q.level → (m.observation.mark v.handle).progress = .expanded l := by
    intro v hv l hl hlt
    refine (LevelMark.level?_eq_some.1 hl).resolve_left fun hwait => ?_
    exact hc.not_follows _ (h.behind v hv l hwait hlt)
  induction hs with
  | initial hi =>
    rcases h.initial _ hi with ⟨h0, -⟩ | ⟨v, hv, hvs, hl⟩
    · omega
    · exact ⟨v, hv, hvs, 0, Nat.le_refl 0, hexpanded v hv 0 hl hn⟩
  | @step i s y _ hy ih =>
    obtain ⟨v, hv, rfl, l, hl, he⟩ := ih (by omega)
    have hall : expansion sys (m.observation.mark v.handle) v.state = sys.successors v.state := by
      apply if_neg
      intro hred
      have hq := (hreg.reducible v hv hred).2.1
      rw [hr] at hq
      cases hq
    obtain ⟨t, ht, hts, j, hj, hcase⟩ := h.edges v hv l he y (hall ▸ hy)
    have hle : j ≤ l + y.2.contextSwitch.toNat :=
      Nat.le_of_not_lt fun hlt => hc.not_follows _ (hcase hlt)
    exact ⟨t, ht, hts, j, by omega, hexpanded t ht j hj (by omega)⟩

theorem Rested.not_violatedWithin {seeds : List σ} (h : Rested sys q base seeds m)
    (hc : Clean sys q m) (hreg : Regular sys q m.store m.observation) (hr : q.reduction = false)
    (hb : q.level ≤ q.bound) {n : Nat} (hn : n < q.level) :
    ¬ sys.ViolatedWithin n q.property := by
  have hexp : ∀ k s, sys.ReachesWith k s → k ≤ n → ∃ v ∈ m.store.vertices, v.state = s ∧
      ∃ l ≤ k, (m.observation.mark v.handle).progress = .expanded l :=
    fun k s hs hk => h.expanded_of_reachesWith hc hreg hr hs (by omega)
  intro hv
  cases hp : q.property with
  | goal =>
    rw [hp] at hv
    rcases hv with ⟨s, k, hs, hk, hg⟩ | ⟨s, k, hs, y, hy, hk, herr⟩
    · obtain ⟨v, hv, rfl, l, -, hl⟩ := hexp k s hs hk
      have hgoal := h.goal v hv (LevelMark.isExpanded_iff.2 ⟨l, hl⟩) hp
      rw [hg] at hgoal
      cases hgoal
    · obtain ⟨v, hv, rfl, l, hlk, hl⟩ := hexp k s hs (by omega)
      have hfree := (hc.edges v hv l hl).2 y hy hp (by omega)
      rw [herr] at hfree
      cases hfree
  | deadlock =>
    rw [hp] at hv
    obtain ⟨s, k, hs, hk, hnil⟩ := hv
    obtain ⟨v, hv, rfl, l, -, hl⟩ := hexp k s hs hk
    exact (hc.edges v hv l hl).1 hp hnil
  | liveness =>
    rw [hp] at hv
    exact hv

section levels
variable (hx : sys.Explicit) (hspread : sys.Spread)
include hx hspread

theorem round_orderly {schedule : Schedule} (hfair : schedule.Fair c.workerCount)
    (hr : q.reduction = false) (hb : q.level ≤ q.bound) (h : Between sys c q m)
    (hseeds : Sown q m seeds) (hc : Clean sys q m)
    (hrun : round sys c q schedule seeds m = .ok m') :
    Timely q m'.observation ∧ (m'.observation.found = none → Clean sys q m') := by
  rcases round_moves hx hspread hfair hb h hseeds with ⟨n, hround, -⟩ |
    ⟨w₀, w, hbegin, hmoves, hw, hdone, hfail, hround⟩
  · cases hround.symm.trans hrun
  · cases hround.symm.trans hrun
    have hmem : ∀ vs, seeds = .vertices vs → ∀ v ∈ vs, v ∈ m.store.vertices := by
      rintro vs rfl v hv
      exact (hseeds v hv).1
    have hstart := hc.orderly h (hbegin.starts h.canonical hx hmem)
    have horder := hstart.moves hr hx hspread hb (h.maintained hseeds hx hbegin) hmoves
    refine ⟨horder.timely, fun hfound => ?_⟩
    have hraised : w.interrupt.raised = false := by
      rw [hw.tracked.raised, hfail, show w.observation.found = none from hfound]
      rfl
    have hno : ∀ y, y ∉ w.items := fun y => hdone hraised ▸ Multiset.notMem_zero y
    obtain ⟨hfull, hedges⟩ := horder.blameless hraised
    refine ⟨hfull, fun v hv k hk => ?_⟩
    obtain ⟨hlive, hall⟩ := (hedges v hv k hk).resolve_left (hno _)
    exact ⟨hlive, fun n hn => (hall n hn).resolve_left (hdone hraised ▸ Work.not_awaited_zero)⟩

variable {timetable : Timetable} (hfair : timetable.Fair c.workerCount)
include hfair

theorem exploreLevels_first {bound n level : Nat} {all : Bool} (hr : c.reduction = false)
    (hb : level ≤ bound) (hmax : bound < maxLevel) (h : Between sys c (levelQuery c bound level) m)
    (hrest : Rested sys (levelQuery c bound level) m.stats.states
      (Partitioned.seedStates sys (levelSeeds m level)) m)
    (hc : Clean sys (levelQuery c bound level) m)
    (hrun : exploreLevels sys c bound timetable n level m = .ok (all, m'))
    (hfound : m'.observation.found.isSome = true) :
    ∃ last, (∀ k < last, ¬ sys.ViolatedWithin k c.property) ∧
      Halts sys (levelQuery c bound last) m' ∧ Timely (levelQuery c bound last) m'.observation := by
  induction n generalizing level m with
  | zero => cases hrun
  | succ n ih =>
    obtain ⟨m₁, hlevel, hd⟩ := exploreLevels_eq_ok hrun
    have hround := (exploreLevel_eq timetable hr _).symm.trans hlevel
    have hnow := (hfair level sys.extent).1
    have hsown := sown_levelSeeds (c := c) m bound level
    obtain ⟨htimely, hclean⟩ := round_orderly hx hspread hnow hr hb h hsown hc hround
    -- only a level that finds something ends the search with it
    have hnot : m₁.observation.found = none → ¬ m₁.observation.found.isSome = true :=
      Option.not_isSome_iff_eq_none.2
    cases hd with
    | found =>
      refine ⟨level, fun k hk => hrest.not_violatedWithin hc h.regular hr hb hk, ?_, htimely⟩
      rcases round_cases hx hspread hnow hb h hsown with ⟨k, herr, -⟩ | ⟨m₂, hok, -, -, hcase⟩
      · cases herr.symm.trans hround
      · cases hok.symm.trans hround
        exact hcase.resolve_right fun hbetween => hnot hbetween.found hfound
    | closed hf => exact absurd hfound (hnot hf)
    | bounded hf => exact absurd hfound (hnot hf)
    | deeper hf _ hlt hrun =>
      obtain ⟨hbetween, hrested⟩ := round_rested hx hspread hnow hb (hb.trans_lt hmax) h hsown hrest
        hround hf
      exact ih hlt hbetween.next hrested.succ ⟨(hclean hf).full, (hclean hf).edges⟩ hrun

theorem explore_first {bound : Nat} {all : Bool} (hr : c.reduction = false)
    (hmax : bound < maxLevel) (hw : c.partitioned = true → c.workerCount ≤ UInt32.size)
    (hrun : explore sys c bound timetable = .ok (all, m)) (hfound : m.observation.found.isSome = true) :
    ∃ last, (∀ k < last, ¬ sys.ViolatedWithin k c.property) ∧
      Halts sys (levelQuery c bound last) m ∧ Timely (levelQuery c bound last) m.observation := by
  have hno : ∀ v, v ∉ (c.newStore : Store σ).vertices :=
    fun v => c.vertices_newStore (σ := σ) ▸ List.not_mem_nil
  refine exploreLevels_first hx hspread hfair hr (Nat.zero_le bound) hmax (between_start c bound hw)
    (rested_start c bound) ⟨fun a => ?_, fun v hv => absurd hv (hno v)⟩ hrun hfound
  rw [mark_empty]

end levels

theorem found_of_conclude {bound : Nat} {all : Bool} {y : Witness σ}
    (h : conclude bound all m = .ok (.violated y)) :
    ∃ x, m.observation.found = some x ∧ y.kind = x.kind ∧
      x.trace m.store (fun a => (m.observation.mark a).parent) = .ok y.trace := by
  unfold conclude at h
  cases hf : m.observation.found with
  | none =>
    simp only [hf, pure, Except.pure, Except.ok.injEq] at h
    split at h
    · cases h
    · split at h <;> cases h
  | some x =>
    simp only [hf, bind, Except.bind, pure, Except.pure] at h
    cases htrace : x.trace m.store fun a => (m.observation.mark a).parent with
    | error e =>
      rw [htrace] at h
      cases h
    | ok trace =>
      rw [htrace] at h
      cases h
      exact ⟨x, rfl, rfl, htrace⟩

end Bounded

namespace Graph

variable {g : Graph} {ig : IndexedGraph} {property : Property} {n : Nat} {w : Witness Node}

theorem TakenWith.reachesWith {path : List Node} {s : Node} (h : g.TakenWith n path)
    (hs : path.getLast? = some s) : g.ReachesWith n s := by
  induction h generalizing s with
  | initial ha =>
    cases hs
    exact .initial ha
  | @step n path e _ he ih =>
    obtain rfl : e.target = s := by simpa using hs
    exact .step (ih List.getLast?_concat) he

theorem Exhibits.violatedAt (h : g.Exhibits property n w) :
    ∃ cost ≤ (n : ℕ∞), g.ViolatedAt property cost := by
  cases h with
  | goal h hs =>
    exact ⟨_, switchDistance_le_iff.2 ⟨n, Nat.le_refl n, h.reachesWith List.getLast?_concat⟩,
      .goal hs⟩
  | @errorEdge n path e h he herr =>
    exact ⟨_, switchDistance_add_le_iff.2 ⟨n, Nat.le_refl _, h.reachesWith List.getLast?_concat⟩,
      .errorEdge he herr⟩
  | deadlock h hs =>
    exact ⟨_, switchDistance_le_iff.2 ⟨n, Nat.le_refl n, h.reachesWith List.getLast?_concat⟩,
      .deadlock hs⟩

theorem Exhibits.retaken {k : Nat} (h : g.Exhibits property n w) (hkind : w.kind ≠ .errorEdge)
    (ht : g.TakenWith k w.trace) : g.Exhibits property k w := by
  cases h with
  | goal _ hs => exact .goal ht hs
  | errorEdge => exact absurd rfl hkind
  | deadlock _ hs => exact .deadlock ht hs

theorem exhibits_of_timely (h : g.index = .ok ig) {q : Bounded.Query} {m : Bounded.State Node}
    (hm : Bounded.Halts ig.system q m) (hmax : q.bound + 1 ≤ maxLevel)
    (ht : Bounded.Timely q m.observation) {x : Violation Node} (hf : m.observation.found = some x)
    {trace : List Node}
    (htrace : x.trace m.store (fun a => (m.observation.mark a).parent) = .ok trace) :
    ∃ n k, n ≤ q.level ∧ k ≤ 1 ∧ (x.kind ≠ .errorEdge → k = 0) ∧
      g.Exhibits q.property (n + k) ⟨x.kind, trace⟩ := by
  have htraced := hm.traced hmax
  obtain ⟨k, hshows, hlast, -⟩ := htraced.found x hf
  obtain ⟨l, hle, hl⟩ := ht x hf
  obtain ⟨path, hpath⟩ := htraced.rooted _ hlast l hl
  obtain ⟨n, hnl, htaken⟩ := takenWith_of_traced h hm.canonical.sound htraced hpath hlast hl
  obtain ⟨trace', htrace', hex⟩ := exhibits_trace h hm.canonical.sound hshows hlast hpath htaken
  cases htrace.symm.trans htrace'
  exact ⟨n, k, hnl.trans hle, hshows.switches.1, hshows.switches.2, hex⟩

theorem explore_of_violated {c : SearchConfig} {bound : UInt32} {timetable : Bounded.Timetable}
    {report : SafetyReport Node} (hrun : boundedSearch ig.system c bound timetable = .ok report)
    (hv : report.verdict = .violated w) :
    ∃ all m, Bounded.explore ig.system c bound.toNat timetable = .ok (all, m) ∧
      Bounded.conclude bound.toNat all m = .ok (.violated w) := by
  unfold boundedSearch at hrun
  cases hexplore : Bounded.explore ig.system c bound.toNat timetable with
  | error e =>
    rw [hexplore] at hrun
    cases hrun
  | ok r =>
    obtain ⟨all, m⟩ := r
    rw [hexplore] at hrun
    simp only [bind, Except.bind] at hrun
    cases hcon : Bounded.conclude bound.toNat all m with
    | error e =>
      rw [hcon] at hrun
      cases hrun
    | ok verdict =>
      rw [hcon] at hrun
      cases hrun
      cases hv
      exact ⟨all, m, rfl, hcon⟩

/-- Without reduction, violations are found in the order of the context switches that they take. The
trace of a goal or a deadlock can be taken with as few switches as any violation needs, and not with
fewer; the trace of an error edge can be taken with at most one more. If the store is partitioned,
it has at most 2^32 partitions, as many as handles can tell apart. -/
theorem boundedSearch_fewest (h : g.index = .ok ig) (c : SearchConfig) (bound : UInt32)
    (timetable : Bounded.Timetable) (hfair : timetable.Fair c.workerCount)
    (hr : c.reduction = false) (hw : c.partitioned = true → c.workerCount ≤ UInt32.size)
    (hb : bound.toNat ≤ 2 ^ 31 - 3) {report : SafetyReport Node} {w : Witness Node}
    (hrun : boundedSearch ig.system c bound timetable = .ok report)
    (hv : report.verdict = .violated w) :
    ∃ least : Nat, IsLeast {cost | g.ViolatedAt c.property cost} (least : ℕ∞) ∧
      (w.kind ≠ .errorEdge →
        g.Exhibits c.property least w ∧ ∀ n, g.TakenWith n w.trace → least ≤ n) ∧
      (w.kind = .errorEdge → ∃ n ≤ least + 1, g.Exhibits c.property n w) := by
  have hmax : bound.toNat + 1 ≤ maxLevel := by
    unfold maxLevel
    omega
  obtain ⟨all, m, hexplore, hcon⟩ := explore_of_violated hrun hv
  obtain ⟨x, hf, hkind, htrace⟩ := Bounded.found_of_conclude hcon
  obtain ⟨last, hfirst, hhalt, htimely⟩ := Bounded.explore_first (index_explicit h)
    (index_spread h) hfair hr hmax hw hexplore (by rw [hf]; rfl)
  obtain ⟨n, k, hn, hk, hzero, hex⟩ := exhibits_of_timely h hhalt hmax htimely hf htrace
  have hex : g.Exhibits c.property (n + k) w := by
    obtain ⟨kind, trace⟩ := w
    cases hkind
    exact hex
  obtain ⟨cost, hcost, hat⟩ := hex.violatedAt
  have hleast : IsLeast {cost | g.ViolatedAt c.property cost}
      (sInf {cost | g.ViolatedAt c.property cost}) := isLeast_csInf ⟨cost, hat⟩
  obtain ⟨least, hsInf⟩ := ENat.ne_top_iff_exists.1
    (ne_top_of_le_ne_top (ENat.natCast_ne_top _) ((hleast.2 hat).trans hcost))
  rw [← hsInf] at hleast
  -- a trace that exhibits a violation takes no fewer switches than the least
  have hbelow : ∀ {i}, g.Exhibits c.property i w → least ≤ i := by
    intro i hi
    obtain ⟨cost, hle, hat⟩ := hi.violatedAt
    exact ENat.natCast_le_natCast.1 ((hleast.2 hat).trans hle)
  have hlast : last ≤ least := by
    by_contra hlt
    exact hfirst least (Nat.lt_of_not_le hlt) ((violatedWithin_iff h).2 ⟨_, le_rfl, hleast.1⟩)
  change n ≤ last at hn
  refine ⟨least, hleast, fun hgoal => ⟨?_, fun i hi => hbelow (hex.retaken hgoal hi)⟩,
    fun herr => ⟨n + k, by omega, hex⟩⟩
  have hle := hbelow hex
  have hk0 := hzero (hkind ▸ hgoal)
  obtain rfl : least = n + k := by omega
  exact hex

/-- A goal two switches away, and one switch away on a longer path. -/
def detourGoal : Graph where
  initial := [0]
  edges := [{ source := 0, target := 1, flags := { contextSwitch := true } },
    { source := 1, target := 2, flags := { contextSwitch := true } },
    { source := 0, target := 3 }, { source := 3, target := 4 },
    { source := 4, target := 2, flags := { contextSwitch := true } }]
  goals := [2]

/-- The longer path is reported. -/
theorem boundedSearch_fewest_detourGoal :
    ∃ ig report, detourGoal.index = .ok ig ∧
      boundedSearch ig.system { order := .depthFirst, property := .goal, maxStates := some 5 } 2 =
        .ok report ∧
      report.verdict = .violated ⟨.goal, [0, 3, 4, 2]⟩ ∧
      ∃ least : Nat, IsLeast {cost | detourGoal.ViolatedAt .goal cost} (least : ℕ∞) ∧
        detourGoal.Exhibits .goal least ⟨.goal, [0, 3, 4, 2]⟩ ∧
        ∀ n, detourGoal.TakenWith n [0, 3, 4, 2] → least ≤ n := by
  obtain ⟨ig, h⟩ : ∃ ig, detourGoal.index = .ok ig := ⟨_, rfl⟩
  have hrun : detourGoal.index.toOption.map (fun ig => boundedSearch ig.system
      { order := .depthFirst, property := .goal, maxStates := some 5 } 2) =
      some (.ok ⟨.violated ⟨.goal, [0, 3, 4, 2]⟩, { states := 4, edges := 5 }, 5⟩) := by
    decide +kernel
  rw [h] at hrun
  have hrun := Option.some.inj hrun
  obtain ⟨least, hleast, hgoal, -⟩ := boundedSearch_fewest h
    { order := .depthFirst, property := .goal, maxStates := some 5 } 2 _
    (Bounded.Timetable.fair_inTurn _) rfl nofun (by decide) hrun rfl
  exact ⟨ig, _, h, hrun, rfl, least, hleast, hgoal nofun⟩

end Graph

end ModelChecker
