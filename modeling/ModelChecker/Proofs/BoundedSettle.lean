import ModelChecker.Proofs.BoundedRoutes

namespace ModelChecker.Bounded

variable {σ : Type} {sys : System σ} {c : SearchConfig} {q : Query} {m m' m₀ : State σ}
  {seeds : Seeds σ} {store store' : Store σ} {o o' : Observation σ}
  {w w' : Work σ (Observation σ)} {x : WorkItem σ} {rest : Multiset (WorkItem σ)}
  {source : Option (Vertex σ)} {t u v : Vertex σ} {flags : EdgeFlags} {isNew : Bool} {s : σ}
  {begun : Prop}

def Follows (sys : System σ) (store : Store σ) (o : Observation σ) (s : σ) : Prop :=
  ∃ u ∈ store.vertices, (o.mark u.handle).full = true ∧ Relation.ReflTransGen sys.Joins u.state s

theorem Follows.mono (h : Follows sys store o s) (hsub : ∀ v ∈ store.vertices, v ∈ store'.vertices)
    (hfull : ∀ a, (o.mark a).full = true → (o'.mark a).full = true) : Follows sys store' o' s := by
  obtain ⟨u, hu, hf, hpath⟩ := h
  exact ⟨u, hsub u hu, hfull _ hf, hpath⟩

theorem Follows.successor (h : Follows sys store o s) {n : Successor σ}
    (hn : n ∈ sys.successors s) : Follows sys store o n.1 := by
  obtain ⟨u, hu, hf, hpath⟩ := h
  exact ⟨u, hu, hf, hpath.tail ⟨n, hn, rfl⟩⟩

/-- The edge `n` out of `v` was taken when `v` was at level `k`. Its target has a level, which is not
above what the edge implies unless `v` follows a state that was opened again. -/
def Crossed (sys : System σ) (store : Store σ) (o : Observation σ) (v : Vertex σ) (k : Nat)
    (n : Successor σ) : Prop :=
  ∃ t ∈ store.vertices, t.state = n.1 ∧ ∃ l, (o.mark t.handle).level? = some l ∧
    (k + n.2.contextSwitch.toNat < l → Follows sys store o v.state)

theorem Crossed.mono {k : Nat} {n : Successor σ} (h : Crossed sys store o v k n)
    (hsub : ∀ v ∈ store.vertices, v ∈ store'.vertices)
    (hlow : ∀ a k, (o.mark a).level? = some k → ∃ l ≤ k, (o'.mark a).level? = some l)
    (hfull : ∀ a, (o.mark a).full = true → (o'.mark a).full = true) :
    Crossed sys store' o' v k n := by
  obtain ⟨t, ht, htn, l, hl, hcase⟩ := h
  obtain ⟨j, hj, hjl⟩ := hlow _ l hl
  exact ⟨t, hsub t ht, htn, j, hjl, fun hlt => (hcase (hlt.trans_le hj)).mono hsub hfull⟩

/-- What is true of a round while nothing is found; `begun` tells whether a state of the level was
expanded in an earlier round. -/
structure Settled (sys : System σ) (q : Query) (begun : Prop) (w : Work σ (Observation σ)) :
    Prop where
  initial : ∀ s ∈ sys.initials, q.level = 0 ∧ Pending w.items s ∨
    ∃ v ∈ w.store.vertices, v.state = s ∧ (w.observation.mark v.handle).level? = some 0
  pending : ∀ v ∈ w.store.vertices, ∀ l, (w.observation.mark v.handle).progress = .waiting l →
    l ≤ q.level → Pending w.items v.state
  behind : ∀ v ∈ w.store.vertices, ∀ l, (w.observation.mark v.handle).progress = .waiting l →
    l < q.level → Follows sys w.store w.observation v.state
  next : ∀ v ∈ w.store.vertices, ∀ l, (w.observation.mark v.handle).progress = .waiting l →
    q.level < l → l = q.level + 1 ∧ (begun ∨ 0 < w.stats.states)
  edges : ∀ v ∈ w.store.vertices, ∀ k, (w.observation.mark v.handle).progress = .expanded k →
    .visit v ∈ w.items ∨ ∀ n ∈ expansion sys (w.observation.mark v.handle) v.state,
      Work.Awaited w.items (some v) n ∨ Crossed sys w.store w.observation v k n
  goal : ∀ v ∈ w.store.vertices, (w.observation.mark v.handle).isExpanded = true →
    q.property = .goal → sys.goal v.state = false
  visits : ∀ v, .visit v ∈ w.items → ∀ k, (w.observation.mark v.handle).progress = .expanded k →
    k < q.level → Follows sys w.store w.observation v.state
  arrivals : ∀ v n, Work.Awaited w.items (some v) n → (begun ∨ 0 < w.stats.states) ∧
    ∀ k, (w.observation.mark v.handle).progress = .expanded k →
      k < q.level → Follows sys w.store w.observation v.state
  attained : Attained sys q w.items w.store w.observation

theorem pending_told {ω : Type} {w : Work σ ω}
    (hi : w.items = .met source t flags isNew ::ₘ rest) (hp : Pending w.items s) (r : Step × ω) :
    Pending (w.told rest t r).items s ∨ source = none ∧ t.state = s := by
  obtain ⟨f, hf⟩ := hp
  refine (Work.awaited_told hi hf r).imp (fun hf => ⟨f, hf⟩) fun ⟨hs, hn⟩ => ⟨hs, ?_⟩
  exact congrArg Prod.fst hn

section told
variable {r : Step × Observation σ} (h : Settled sys q begun w) (hw : Tracked sys q m₀ w)
  (hi : w.items = .met source t flags isNew ::ₘ rest)
  (hr : Reply sys q source t flags w.observation r) (hgo : r.1 ≠ .stop)

include hw hi hr hgo in
theorem Tracked.waiting_cases {l : Nat} (hv : v ∈ w.store.vertices)
    (hl : (r.2.mark v.handle).progress = .waiting l) :
    v ≠ t ∧ (w.observation.mark v.handle).progress = .waiting l ∨
      v = t ∧ q.level < l ∧
        Offered q w.observation t flags.contextSwitch source (r.2.mark t.handle) := by
  by_cases hvt : v = t
  · subst hvt
    rcases hr.target_cases hgo with ⟨-, m, k, -, -, -, hp, -⟩ | ⟨-, ⟨he, hp⟩ | ⟨k, hm, hk, hlt⟩⟩
    · cases hp.symm.trans hl
    · rw [LevelMark.isExpanded, ← hp, hl] at he
      cases he
    · cases hk.symm.trans hl
      exact .inr ⟨rfl, hlt, hm⟩
  · exact .inl ⟨hvt, (hw.moved hi hr).other v hv hvt ▸ hl⟩

include hw hi hr hgo in
theorem Tracked.expanded_cases {k : Nat} (hv : v ∈ w.store.vertices)
    (hk : (r.2.mark v.handle).progress = .expanded k) :
    v = t ∧ r.1 = .expand ∧ (q.property = .goal → sys.goal t.state = false) ∨
      (w.observation.mark v.handle).progress = .expanded k := by
  by_cases hvt : v = t
  · subst hvt
    rcases hr.target_cases hgo with ⟨hstep, -, -, -, -, -, -, hg⟩ | ⟨-, ⟨-, hp⟩ | ⟨l, -, hl, -⟩⟩
    · exact .inl ⟨rfl, hstep, hg⟩
    · exact .inr (hp ▸ hk)
    · cases hl.symm.trans hk
  · exact .inr ((hw.moved hi hr).other v hv hvt ▸ hk)

include h hw hi hr hgo

theorem Settled.crossed {k : Nat} (hs : source = some u)
    (hk : (w.observation.mark u.handle).progress = .expanded k) :
    Crossed sys w.store r.2 u k (t.state, flags) := by
  have hxi : .met source t flags isNew ∈ w.items := hi ▸ Multiset.mem_cons_self _ rest
  have hmem := hw.grounded.target hxi
  have hmoved := hw.moved hi hr
  -- where the edge gives the target its level, the level is not above what the edge implies
  have hoffered : ∀ {m l}, Offered q w.observation t flags.contextSwitch source m →
      m.progress = .waiting l → l ≤ k + flags.contextSwitch.toNat := by
    intro m l hm hl
    rcases hm.waiting_cases hl with ⟨hnone, -⟩ | ⟨u', k', hu', hk', hle, -⟩
    · cases hs.symm.trans hnone
    · cases hs.symm.trans hu'
      cases hk'.symm.trans (LevelMark.level?_eq_of_expanded hk)
      exact hle
  rcases hr.target_cases hgo with ⟨-, m, l, hm, hl, -, hp, -⟩ | ⟨-, ⟨he, hp⟩ | ⟨l, hm, hl, -⟩⟩
  · refine ⟨t, hmem, rfl, l, LevelMark.level?_eq_of_expanded hp, fun hlt => ?_⟩
    exact absurd (hoffered hm hl) (Nat.not_le.2 hlt)
  · obtain ⟨l, hl⟩ := LevelMark.isExpanded_iff.1 he
    have hle : l ≤ q.level := hw.regular.expanded_le t hmem l hl
    refine ⟨t, hmem, rfl, l, LevelMark.level?_eq_of_expanded (hp.trans hl), fun hlt => ?_⟩
    subst hs
    have hbehind := (h.arrivals u _ ⟨_, hxi, rfl⟩).2 k hk
    dsimp only at hlt
    exact (hbehind (by omega)).mono (fun _ hv => hv) fun a => (hmoved.full a).trans
  · refine ⟨t, hmem, rfl, l, LevelMark.level?_eq_some.2 (.inl hl), fun hlt => ?_⟩
    exact absurd (hoffered hm hl) (Nat.not_le.2 hlt)

theorem Settled.entered (hmax : q.level < maxLevel) {l : Nat} (hstep : r.1 = .expand)
    (hl : (r.2.mark t.handle).progress = .expanded l) (hlt : l < q.level) :
    Follows sys w.store r.2 t.state := by
  have hxi : .met source t flags isNew ∈ w.items := hi ▸ Multiset.mem_cons_self _ rest
  have hmoved := hw.moved hi hr
  have hwaited : (w.observation.mark t.handle).progress = .waiting l →
      Follows sys w.store r.2 t.state := by
    intro hp
    exact (h.behind t (hw.grounded.target hxi) l hp hlt).mono (fun _ hv => hv)
      fun a => (hmoved.full a).trans
  rcases hr.target_cases hgo with ⟨-, m, l', hm, hl', -, hp, -⟩ | ⟨hskip, -⟩
  · cases hp.symm.trans hl
    rcases hm.waiting_cases hl' with ⟨-, ⟨h0, -⟩ | ⟨-, hold⟩⟩ | ⟨u, k, hs, hk, hle, hold | hnew⟩
    · omega
    · exact hwaited hold
    · exact hwaited hold
    · obtain ⟨-, hue, hn⟩ : Leads sys q w.store w.observation t flags (some u) :=
        hs ▸ hw.leads hxi
      obtain ⟨j, hj⟩ := LevelMark.isExpanded_iff.1 hue
      cases hk.symm.trans (LevelMark.level?_eq_of_expanded hj)
      subst hs
      have hbehind := (h.arrivals u _ ⟨_, hxi, rfl⟩).2 k hj (by omega)
      exact Follows.successor (hbehind.mono (fun _ hv => hv) fun a => (hmoved.full a).trans) hn
  · cases hstep.symm.trans hskip

theorem Settled.told_initial {s : σ} (hs : s ∈ sys.initials) :
    q.level = 0 ∧ Pending (w.told rest t r).items s ∨
      ∃ v ∈ w.store.vertices, v.state = s ∧ (r.2.mark v.handle).level? = some 0 := by
  have hxi : .met source t flags isNew ∈ w.items := hi ▸ Multiset.mem_cons_self _ rest
  have hmoved := hw.moved hi hr
  rcases h.initial s hs with ⟨h0, hp⟩ | ⟨v, hv, hvs, hl⟩
  · rcases pending_told hi hp r with hp | ⟨hs, hts⟩
    · exact .inl ⟨h0, hp⟩
    · have hmem := hw.grounded.target hxi
      refine .inr ⟨t, hmem, hts, ?_⟩
      have hzero : ∀ {m l}, Offered q w.observation t flags.contextSwitch source m →
          m.progress = .waiting l → l = 0 := by
        intro m l hm hl
        rcases hm.waiting_cases hl with ⟨-, ⟨-, hz⟩ | ⟨hne, -⟩⟩ | ⟨u, k, hu, -⟩
        · exact hz
        · exact absurd h0 hne
        · cases hs.symm.trans hu
      rcases hr.target_cases hgo with ⟨-, m, l, hm, hl, -, hp, -⟩ | ⟨-, ⟨he, hp⟩ | ⟨l, hm, hl, hlt⟩⟩
      · cases hzero hm hl
        exact LevelMark.level?_eq_of_expanded hp
      · obtain ⟨l, hl⟩ := LevelMark.isExpanded_iff.1 he
        obtain rfl := Nat.le_zero.1 (h0 ▸ hw.regular.expanded_le t hmem l hl)
        exact LevelMark.level?_eq_of_expanded (hp.trans hl)
      · have hz := hzero hm hl
        omega
  · obtain ⟨l, hle, hl'⟩ := hmoved.lowers _ 0 hl
    obtain rfl := Nat.le_zero.1 hle
    exact .inr ⟨v, hv, hvs, hl'⟩

omit hr hgo in
theorem Settled.told_next {l : Nat} (hl : (r.2.mark t.handle).progress = .waiting l)
    (hlt : q.level < l)
    (hm : Offered q w.observation t flags.contextSwitch source (r.2.mark t.handle)) :
    l = q.level + 1 ∧ (begun ∨ 0 < w.stats.states) := by
  have hxi : .met source t flags isNew ∈ w.items := hi ▸ Multiset.mem_cons_self _ rest
  have hleads := hw.leads hxi
  rcases hm.waiting_cases hl with ⟨rfl, ⟨-, h0⟩ | ⟨hne, hold⟩⟩ | ⟨u, k, rfl, hk, hle, -⟩
  · omega
  · obtain ⟨j, hj, hjt⟩ := hleads.resolve_left fun hx => hne hx.1
    cases hjt.symm.trans (LevelMark.level?_eq_some.2 (.inl hold))
    omega
  · obtain ⟨hu, hue, -⟩ := hleads
    obtain ⟨j, hj⟩ := LevelMark.isExpanded_iff.1 hue
    cases hk.symm.trans (LevelMark.level?_eq_of_expanded hj)
    have hkq := hw.regular.expanded_le u hu k hj
    have hsw := Bool.toNat_le flags.contextSwitch
    exact ⟨by omega, (h.arrivals u _ ⟨_, hxi, rfl⟩).1⟩

theorem Settled.told (hmax : q.level < maxLevel) : Settled sys q begun (w.told rest t r) := by
  have hmem := hw.grounded.target (hi ▸ Multiset.mem_cons_self _ rest)
  have hmoved := hw.moved hi hr
  have hwaits {v l} := hw.waiting_cases (v := v) (l := l) hi hr hgo
  have hexpanded {v k} := hw.expanded_cases (v := v) (k := k) hi hr hgo
  have hlater : ∀ {s}, Follows sys w.store w.observation s → Follows sys w.store r.2 s :=
    fun hf => hf.mono (fun _ hv => hv) fun a => (hmoved.full a).trans
  have hbefore : ∀ {a k}, (w.observation.mark a).isExpanded = true →
      (r.2.mark a).progress = .expanded k → (w.observation.mark a).progress = .expanded k :=
    fun he hk => (hmoved.keeps _ he).symm.trans hk
  have hattained := h.attained.told hw hi hr hgo hmax
  refine ⟨fun s hs => ?_, fun v hv l hl hle => ?_, fun v hv l hl hlt => ?_, fun v hv l hl hlt => ?_,
    fun v hv k hk => ?_, fun v hv he hp => ?_, fun v hv k hk hlt => ?_, fun v n hn => ?_, ?_⟩
  all_goals simp only [Work.told_store, Work.told_observation, Work.told_stats] at *
  · exact h.told_initial hw hi hr hgo hs
  · rcases hwaits hv hl with ⟨hvt, hl⟩ | ⟨-, hlt, -⟩
    · rcases pending_told hi (h.pending v hv l hl hle) r with hp | ⟨-, hts⟩
      · exact hp
      · exact absurd (hw.grounded.canonical.eq_of_state hmem hv hts).symm hvt
    · omega
  · rcases hwaits hv hl with ⟨-, hl⟩ | ⟨-, hlt', -⟩
    · exact hlater (h.behind v hv l hl hlt)
    · omega
  · rcases hwaits hv hl with ⟨-, hl⟩ | ⟨rfl, -, hm⟩
    · exact h.next v hv l hl hlt
    · exact h.told_next hw hi hl hlt hm
  · rcases hexpanded hv hk with ⟨rfl, hstep, -⟩ | hold
    · left
      rw [Work.told_items, if_pos hstep]
      exact Multiset.mem_cons_self _ rest
    · rw [expansion_congr (hmoved.reduced v.handle)]
      refine (h.edges v hv k hold).imp (Work.visit_mem_told hi · r) fun hedges n hn => ?_
      rcases hedges n hn with hawaited | hcross
      · refine (Work.awaited_told hi hawaited r).imp_right ?_
        rintro ⟨rfl, rfl⟩
        exact h.crossed hw hi hr hgo rfl hold
      · exact .inr (hcross.mono (fun _ hv => hv) hmoved.lowers fun a => (hmoved.full a).trans)
  · obtain ⟨k, hk⟩ := LevelMark.isExpanded_iff.1 he
    rcases hexpanded hv hk with ⟨rfl, -, hg⟩ | hold
    · exact hg hp
    · exact h.goal v hv (LevelMark.isExpanded_iff.2 ⟨k, hold⟩) hp
  · rcases Work.mem_of_mem_told hi hv with ⟨hvt, hstep⟩ | hv
    · cases hvt
      exact h.entered hw hi hr hgo hmax hstep hk hlt
    · exact hlater (h.visits v hv k (hbefore (hw.items _ hv) hk) hlt)
  · have hn := hn.of_told hi
    obtain ⟨hbegun, hbehind⟩ := h.arrivals v n hn
    exact ⟨hbegun, fun k hk hlt => hlater (hbehind k (hbefore (hw.awaited hn) hk) hlt)⟩
  · exact hattained

end told

theorem Settled.placed (h : Settled sys q begun w) (hw : Tracked sys q m₀ w) {next : Successor σ}
    (hi : w.items = .arrival source next ::ₘ rest)
    (hs : Store.Stored sys w.store next.1 t isNew store') :
    Settled sys q begun
      { w with store := store', items := .met source t next.2 isNew ::ₘ rest } := by
  have hold : ∀ v ∈ store'.vertices, (w.observation.mark v.handle).progress ≠ .unseen →
      v ∈ w.store.vertices := by
    intro v hv hp
    refine (hw.fresh hs v hv).resolve_left fun hnone => hp ?_
    rw [hnone]
  have hlater : ∀ {s}, Follows sys w.store w.observation s → Follows sys store' w.observation s :=
    fun hf => hf.mono hs.grows fun _ ha => ha
  have hawaited : ∀ {u n}, Work.Awaited (.met source t next.2 isNew ::ₘ rest) u n ↔
      Work.Awaited w.items u n := Work.awaited_stored hi hs
  refine ⟨fun s hs' => ?_, fun v hv l hl hle => ?_, fun v hv l hl hlt => ?_,
    fun v hv l hl => h.next v (hold v hv (by rw [hl]; exact nofun)) l hl, fun v hv k hk => ?_,
    fun v hv he => ?_, fun v hv k hk hlt => ?_, fun v n hn => ?_, h.attained.placed hw hi hs⟩
  · refine (h.initial s hs').imp (fun ⟨h0, f, hf⟩ => ⟨h0, f, hawaited.2 hf⟩) ?_
    rintro ⟨v, hv, hvs⟩
    exact ⟨v, hs.grows v hv, hvs⟩
  · obtain ⟨f, hf⟩ := h.pending v (hold v hv (by rw [hl]; exact nofun)) l hl hle
    exact ⟨f, hawaited.2 hf⟩
  · exact hlater (h.behind v (hold v hv (by rw [hl]; exact nofun)) l hl hlt)
  · refine (h.edges v (hold v hv (by rw [hk]; exact nofun)) k hk).imp
      (Work.visit_mem_stored hi).2 fun hedges n hn => (hedges n hn).imp hawaited.2 fun hcross => ?_
    exact hcross.mono hs.grows (fun a k hk => ⟨k, Nat.le_refl k, hk⟩) fun _ ha => ha
  · obtain ⟨k, hk⟩ := LevelMark.isExpanded_iff.1 he
    exact h.goal v (hold v hv (by rw [hk]; exact nofun)) he
  · exact hlater (h.visits v ((Work.visit_mem_stored hi).1 hv) k hk hlt)
  · obtain ⟨hbegun, hbehind⟩ := h.arrivals v n (hawaited.1 hn)
    exact ⟨hbegun, fun k hk hlt => hlater (hbehind k hk hlt)⟩

theorem Settled.visited {mark : LevelMark} (h : Settled sys q begun w) (hw : Tracked sys q m₀ w)
    (hi : w.items = .visit v ::ₘ rest) {p : List (Successor σ) × Observation σ}
    (hm : Unfolds sys q v w.observation mark p)
    {r : Option (List (Successor σ)) × SearchStats × Observation σ} (hone : r.2.1.states = 1)
    (hnext : r.1 = some p.1) (hobs : r.2.2 = p.2) : Settled sys q begun (w.visited v rest r) := by
  have hvi : .visit v ∈ w.items := hi ▸ Multiset.mem_cons_self _ rest
  have hv : Work.Rests sys w.store (.visit v) := hw.grounded.items _ hvi
  have hall := hm.toMarked.evolves hm.evolves
  -- an expansion changes no level
  have hsame : ∀ a, (p.2.mark a).progress = (w.observation.mark a).progress := by
    intro a
    by_cases ha : a = v.handle
    · rw [ha, hm.self, hm.progress]
    · rw [hm.other ha]
  have hlevel := fun a => LevelMark.level?_congr (hsame a)
  have hexpanded := fun a => LevelMark.isExpanded_congr (hsame a)
  have hkeep : ∀ y ∈ w.items, y ≠ .visit v → y ∈ (w.visited v rest r).items :=
    fun y hy hne => Work.mem_visited_items hi hy hne r
  have hpend : ∀ {s}, Pending w.items s → Pending (w.visited v rest r).items s :=
    fun ⟨f, hf⟩ => ⟨f, Work.awaited_visited (hi ▸ hf) w r⟩
  have hlater : ∀ {s}, Follows sys w.store w.observation s → Follows sys w.store p.2 s :=
    fun hf => hf.mono (fun _ hu => hu) fun a ha => (hall a).full.trans ha
  have hstats : 0 < (w.visited v rest r).stats.states := by
    rw [Work.visited_stats, SearchStats.add_states, hone]
    exact Nat.succ_pos _
  have hattained := h.attained.visited hw hi hm hnext
  refine ⟨fun s hs => ?_, fun u hu l hl hle => ?_, fun u hu l hl hlt => ?_, fun u hu l hl hlt => ?_,
    fun u hu k hk => ?_, fun u hu he => ?_, fun u hu k hk hlt => ?_, fun u n hn => ⟨.inr hstats, ?_⟩,
    ?_⟩
  all_goals simp only [Work.visited_store, Work.visited_observation, hobs, hsame, hlevel,
    hexpanded] at *
  · exact (h.initial s hs).imp_left fun hx => ⟨hx.1, hpend hx.2⟩
  · exact hpend (h.pending u hu l hl hle)
  · exact hlater (h.behind u hu l hl hlt)
  · exact ⟨(h.next u hu l hl hlt).1, .inr hstats⟩
  · by_cases huv : u.handle = v.handle
    · obtain rfl := hw.grounded.canonical.eq_of_handle hu hv huv
      refine .inr fun n hn => .inl (Work.awaited_of_mem hnext ?_ w)
      rwa [hm.self, ← hm.next] at hn
    · rw [hm.other huv]
      refine (h.edges u hu k hk).imp (fun hvisit => hkeep _ hvisit ?_) fun hedges n hn => ?_
      · rintro ⟨⟩
        exact huv rfl
      · refine (hedges n hn).imp (fun hn => Work.awaited_visited (hi ▸ hn) w r) fun hcross => ?_
        exact hcross.mono (fun _ hx => hx) (fun a => (hall a).lowers)
          fun a ha => (hall a).full.trans ha
  · exact h.goal u hu he
  · rcases Work.mem_of_mem_visited hi hu with ⟨n, -, hx⟩ | hu
    · cases hx
    · exact hlater (h.visits u hu k hk hlt)
  · intro k hk hlt
    rcases hn.of_visited hi with ⟨hu, -⟩ | hn
    · cases hu
      exact hlater (h.visits v hvi k hk hlt)
    · exact hlater ((h.arrivals u n hn).2 k hk hlt)
  · exact hattained

theorem Settled.event (hmax : q.level < maxLevel)
    (h : w.interrupt.raised = false → Settled sys q begun w) (hw : Tracked sys q m₀ w)
    (he : Work.Event sys (listener sys q) w w') (hraised : w'.interrupt.raised = false) :
    Settled sys q begun w' := by
  cases he with
  | stored hi hs => exact (h hraised).placed hw hi hs
  | told worker hi =>
    rw [Work.told_raised, Bool.or_eq_false_iff, decide_eq_false_iff_not] at hraised
    exact (h hraised.1).told hw hi (hw.reply (hi ▸ Multiset.mem_cons_self _ _) worker) hraised.2
      hmax
  | full => cases hraised
  | @visit v rest worker hi =>
    rw [Work.visited_raised, Bool.or_eq_false_iff] at hraised
    have hxi : .visit v ∈ w.items := hi ▸ Multiset.mem_cons_self _ rest
    have hone := ((listener sys q).expand_next worker w.store v w.observation).1
    obtain ⟨mark, p, hm, ⟨-, -, hnext, -⟩ | ⟨hnext, hobs⟩⟩ := expand_cases
      (hw.regular.reducible v (hw.grounded.items _ hxi)) (hw.items _ hxi) worker w.store
    · rw [hnext] at hraised
      cases hraised.2
    · exact (h hraised.1).visited hw hi hm hone hnext hobs
  | abandon hr => cases hr.symm.trans hraised

theorem Settled.moves (hmax : q.level < maxLevel) (hx : sys.Explicit) (hspread : sys.Spread)
    (hb : q.level ≤ q.bound) (h : Settled sys q begun w) (hw : Maintained sys q m₀ w)
    (hm : Work.Moves sys (listener sys q) w w') (hraised : w'.interrupt.raised = false) :
    Settled sys q begun w' := by
  have hboth : Maintained sys q m₀ w' ∧ (w'.interrupt.raised = false → Settled sys q begun w') := by
    refine (hm.events hw.tracked.grounded.canonical hx).preserve (P := fun w =>
      Maintained sys q m₀ w ∧ (w.interrupt.raised = false → Settled sys q begun w))
      (fun w₁ w₂ hw₁ he => ?_) ⟨hw, fun _ => h⟩
    exact ⟨hw₁.1.event hx hspread hb he, fun hr => .event hmax hw₁.2 hw₁.1.tracked he hr⟩
  exact hboth.2 hraised

/-- What is true between two rounds, while nothing was found. The next round starts from `seeds`, and
`base` states had been expanded when the level was begun. -/
structure Rested (sys : System σ) (q : Query) (base : Nat) (seeds : List σ) (m : State σ) :
    Prop where
  base_le : base ≤ m.stats.states
  initial : ∀ s ∈ sys.initials, q.level = 0 ∧ s ∈ seeds ∨
    ∃ v ∈ m.store.vertices, v.state = s ∧ (m.observation.mark v.handle).level? = some 0
  pending : ∀ v ∈ m.store.vertices, ∀ l, (m.observation.mark v.handle).progress = .waiting l →
    l ≤ q.level → v.state ∈ seeds
  behind : ∀ v ∈ m.store.vertices, ∀ l, (m.observation.mark v.handle).progress = .waiting l →
    l < q.level → Follows sys m.store m.observation v.state
  next : ∀ v ∈ m.store.vertices, ∀ l, (m.observation.mark v.handle).progress = .waiting l →
    q.level < l → l = q.level + 1 ∧ base < m.stats.states
  edges : ∀ v ∈ m.store.vertices, ∀ k, (m.observation.mark v.handle).progress = .expanded k →
    ∀ n ∈ expansion sys (m.observation.mark v.handle) v.state,
      Crossed sys m.store m.observation v k n
  goal : ∀ v ∈ m.store.vertices, (m.observation.mark v.handle).isExpanded = true →
    q.property = .goal → sys.goal v.state = false
  attained : Attained sys q 0 m.store m.observation

section rounds
variable {base : Nat}

theorem Rested.initial_level (h : Rested sys q base [] m) (hs : s ∈ sys.initials) :
    ∃ v ∈ m.store.vertices, v.state = s ∧ (m.observation.mark v.handle).level? = some 0 :=
  (h.initial s hs).resolve_left fun hx => List.not_mem_nil hx.2

theorem pending_begins (h : c.Begins sys seeds m.store m.observation w)
    (hc : m.store.Canonical sys) (hx : sys.Explicit) :
    ∀ s ∈ Partitioned.seedStates sys seeds, Pending w.items s := by
  intro s hs
  cases h with
  | sent => exact pending_ofStates hs
  | @stored vs store' _ hres =>
    refine pending_ofSeeds ?_
    cases seeds with
    | vertices us =>
      cases hres
      rw [List.map_map]
      exact hs
    | initials =>
      rcases hc.resolve_cases hx sys.initials with ⟨vs', s', hr, hd⟩ | ⟨n, e, s', -, hr⟩
      · cases hr.symm.trans hres
        rw [hd.states_eq]
        exact hs
      · cases hr.symm.trans hres

theorem Rested.settled (h : Rested sys q base (Partitioned.seedStates sys seeds) m)
    (hm : Between sys c q m) (hseeds : Sown q m seeds) (hx : sys.Explicit)
    (hw : c.Begins sys seeds m.store m.observation w) :
    Settled sys q (base < m.stats.states) w := by
  have hmem : ∀ vs, seeds = .vertices vs → ∀ v ∈ vs, v ∈ m.store.vertices := by
    rintro vs rfl v hv
    exact (hseeds v hv).1
  have hstart := hw.starts hm.canonical hx hmem
  have hpend := pending_begins hw hm.canonical hx
  have hobs := hstart.observation
  have hold : ∀ v ∈ w.store.vertices, (m.observation.mark v.handle).progress ≠ .unseen →
      v ∈ m.store.vertices := by
    intro v hv hp
    refine (hm.fresh hstart hv).resolve_left fun hnone => hp ?_
    rw [hnone]
  have hlater : ∀ {s}, Follows sys m.store m.observation s →
      Follows sys w.store m.observation s := fun hf => hf.mono hstart.sub fun _ ha => ha
  refine ⟨fun s hs => ?_, fun v hv l hl hle => ?_, fun v hv l hl hlt => ?_, fun v hv l hl hlt => ?_,
    fun v hv k hk => .inr fun n hn => .inr ?_, fun v hv he => ?_, fun v hv => ?_, fun v n hn => ?_,
    h.attained.begins hm hstart⟩
  all_goals simp only [hobs] at *
  · refine (h.initial s hs).imp (fun hx => ⟨hx.1, hpend s hx.2⟩) ?_
    rintro ⟨v, hv, hvs⟩
    exact ⟨v, hstart.sub v hv, hvs⟩
  · exact hpend _ (h.pending v (hold v hv (by rw [hl]; exact nofun)) l hl hle)
  · exact hlater (h.behind v (hold v hv (by rw [hl]; exact nofun)) l hl hlt)
  · obtain ⟨hnext, hbase⟩ := h.next v (hold v hv (by rw [hl]; exact nofun)) l hl hlt
    exact ⟨hnext, .inl hbase⟩
  · have hcross := h.edges v (hold v hv (by rw [hk]; exact nofun)) k hk n hn
    exact hcross.mono hstart.sub (fun a k hk => ⟨k, Nat.le_refl k, hk⟩) fun _ ha => ha
  · obtain ⟨k, hk⟩ := LevelMark.isExpanded_iff.1 he
    exact h.goal v (hold v hv (by rw [hk]; exact nofun)) he
  · exact (hstart.items _ hv).elim
  · cases (hstart.awaited hn).1

theorem Settled.rested (h : Settled sys q (base < m.stats.states) w)
    (hbase : base ≤ m.stats.states) (hdone : w.items = 0) :
    Rested sys q base [] ⟨w.store, w.observation, m.stats + w.stats⟩ := by
  have hno : ∀ x, x ∉ w.items := fun x => hdone ▸ Multiset.notMem_zero x
  have hawaited : ∀ {source n}, ¬ Work.Awaited w.items source n :=
    hdone ▸ Work.not_awaited_zero
  refine ⟨hbase.trans (Nat.le_add_right _ _), fun s hs => ?_, fun v hv l hl hle => ?_, h.behind,
    fun v hv l hl hlt => ?_, fun v hv k hk n hn => ?_, h.goal, hdone ▸ h.attained⟩
  · exact .inr ((h.initial s hs).resolve_left fun ⟨_, _, hx⟩ => hawaited hx)
  · obtain ⟨f, hf⟩ := h.pending v hv l hl hle
    exact absurd hf hawaited
  · obtain ⟨hnext, hbegun⟩ := h.next v hv l hl hlt
    refine ⟨hnext, ?_⟩
    change base < m.stats.states + w.stats.states
    omega
  · exact ((h.edges v hv k hk).resolve_left (hno _) n hn).resolve_left hawaited

theorem Rested.retain {states : List σ} (h : Rested sys q base states m) :
    Rested sys q base states { m with observation := m.observation.retainReduced } :=
  ⟨h.base_le, h.initial, h.pending, h.behind, h.next, h.edges, h.goal, h.attained.retain⟩

/-- States that are opened again are those that the next round starts from. -/
theorem Rested.reopen {vs : List (Vertex σ)} (hx : sys.Explicit) (h : Rested sys q base [] m)
    (hc : m.store.Canonical sys)
    (hvs : Sown q { m with observation := m.observation.reopen vs } (.vertices vs)) :
    Rested sys q base (vs.map (·.state)) { m with observation := m.observation.reopen vs } := by
  have hkeep := keeps_reopen m.observation vs
  have hfull : ∀ a, (m.observation.mark a).full = true →
      ((m.observation.reopen vs).mark a).full = true := by
    intro a ha
    rw [mark_reopen]
    split
    · exact (LevelMark.reopen_flags _).1
    · exact ha
  have hlater : ∀ {s}, Follows sys m.store m.observation s →
      Follows sys m.store (m.observation.reopen vs) s := fun hf => hf.mono (fun _ hu => hu) hfull
  -- a state that waits waited before, or was opened again
  have hwaits : ∀ v ∈ m.store.vertices, ∀ l,
      ((m.observation.reopen vs).mark v.handle).progress = .waiting l →
      v ∈ vs ∧ l ≤ q.level ∧ ((m.observation.reopen vs).mark v.handle).full = true ∨
        (m.observation.mark v.handle).progress = .waiting l := by
    intro v hv l hl
    by_cases hmem : v.handle ∈ vs.map (·.handle)
    · obtain ⟨u, hu, huv⟩ := List.mem_map.1 hmem
      obtain ⟨hus, k, hk, huk⟩ := hvs u hu
      obtain rfl := hc.eq_of_handle hus hv huv
      cases huk.symm.trans (LevelMark.level?_eq_some.2 (.inl hl))
      refine .inl ⟨hu, hk, ?_⟩
      rw [mark_reopen, if_pos hmem]
      exact (LevelMark.reopen_flags _).1
    · rw [mark_reopen, if_neg hmem] at hl
      exact .inr hl
  refine ⟨h.base_le, fun s hs => ?_, fun v hv l hl hle => ?_, fun v hv l hl hlt => ?_,
    fun v hv l hl hlt => ?_, fun v hv k hk n hn => ?_, fun v hv he => ?_,
    h.attained.reopen hx hc hvs⟩
  · obtain ⟨v, hv, hvs, hl⟩ := h.initial_level hs
    exact .inr ⟨v, hv, hvs, (hkeep _).level.trans hl⟩
  · rcases hwaits v hv l hl with ⟨hmem, -⟩ | hold
    · exact List.mem_map_of_mem hmem
    · exact absurd (h.pending v hv l hold hle) List.not_mem_nil
  · rcases hwaits v hv l hl with ⟨-, -, hf⟩ | hold
    · exact ⟨v, hv, hf, .refl⟩
    · exact hlater (h.behind v hv l hold hlt)
  · rcases hwaits v hv l hl with ⟨-, hle, -⟩ | hold
    · omega
    · exact h.next v hv l hold hlt
  · have hsame := mark_reopen_of_flag (.inl (LevelMark.isExpanded_iff.2 ⟨k, hk⟩))
    rw [hsame] at hk hn
    refine (h.edges v hv k hk n hn).mono (fun _ hu => hu) (fun a k hk => ?_) hfull
    exact ⟨k, Nat.le_refl k, (hkeep a).level.trans hk⟩
  · have hsame := mark_reopen_of_flag (.inl he)
    rw [hsame] at he
    exact h.goal v hv he

theorem Rested.level_lt (h : Rested sys q base [] m) {v : Vertex σ} (hv : v ∈ m.store.vertices)
    {l : Nat} (hl : (m.observation.mark v.handle).progress = .waiting l) : q.level < l :=
  Nat.lt_of_not_le fun hle => List.not_mem_nil (h.pending v hv l hl hle)

theorem Rested.succ {bound level : Nat} (h : Rested sys (levelQuery c bound level) base [] m) :
    Rested sys (levelQuery c bound (level + 1)) m.stats.states
      (Partitioned.seedStates sys (levelSeeds m (level + 1))) m := by
  have hwaits : ∀ v ∈ m.store.vertices, ∀ l,
      (m.observation.mark v.handle).progress = .waiting l → l = level + 1 := by
    intro v hv l hl
    exact (h.next v hv l hl (h.level_lt hv hl)).1
  refine ⟨Nat.le_refl _, fun s hs => ?_, fun v hv l hl _ => ?_, fun v hv l hl hlt => ?_,
    fun v hv l hl hlt => ?_, h.edges, h.goal, h.attained.succ⟩
  · exact .inr (h.initial_level hs)
  · obtain rfl := hwaits v hv l hl
    exact List.mem_map_of_mem (List.mem_filter.2 ⟨hv, decide_eq_true hl⟩)
  · have heq := hwaits v hv l hl
    change l < level + 1 at hlt
    omega
  · have heq := hwaits v hv l hl
    change level + 1 < l at hlt
    omega

section levels
variable {timetable : Timetable} (hx : sys.Explicit) (hspread : sys.Spread)
include hx hspread

theorem round_rested {schedule : Schedule} (hfair : schedule.Fair c.workerCount)
    (hb : q.level ≤ q.bound) (hmax : q.level < maxLevel) (h : Between sys c q m)
    (hseeds : Sown q m seeds) (hr : Rested sys q base (Partitioned.seedStates sys seeds) m)
    (hrun : round sys c q schedule seeds m = .ok m') (hfound : m'.observation.found = none) :
    Between sys c q m' ∧ Rested sys q base [] m' := by
  rcases round_moves hx hspread hfair hb h hseeds with ⟨n, hround, -⟩ |
    ⟨w₀, w, hbegin, hmoves, hw, hdone, hfail, hround⟩
  · cases hround.symm.trans hrun
  · cases hround.symm.trans hrun
    have hraised : w.interrupt.raised = false := by
      rw [hw.tracked.raised, hfail, show w.observation.found = none from hfound]
      rfl
    have hstart := hr.settled h hseeds hx hbegin
    have hsettled := hstart.moves hmax hx hspread hb (h.maintained hseeds hx hbegin) hmoves hraised
    exact ⟨hw.between h hraised (hdone hraised), hsettled.rested hr.base_le (hdone hraised)⟩

variable (hfair : timetable.Fair c.workerCount)
include hfair

theorem exploreLevel_rested (hq : q.reduction = true) (hb : q.level ≤ q.bound)
    (hmax : q.level < maxLevel) {n : Nat} (h : Between sys c q m) (hseeds : Sown q m seeds)
    (hr : Rested sys q base (Partitioned.seedStates sys seeds) m)
    (hrun : exploreLevel sys c q timetable n seeds m = .ok m') (hfound : m'.observation.found = none) :
    Between sys c q m' ∧ Rested sys q base [] m' := by
  induction n generalizing seeds m with
  | zero => cases hrun
  | succ n ih =>
    unfold exploreLevel at hrun
    cases hround : round sys c q (timetable.search q.level n) seeds m with
    | error e =>
      rw [hround] at hrun
      cases hrun
    | ok m₁ =>
      rw [hround] at hrun
      simp only [bind, Except.bind, hq, Bool.not_true, Bool.or_false] at hrun
      cases hf : m₁.observation.found with
      | some y =>
        rw [hf, Option.isSome_some, if_pos rfl] at hrun
        cases hrun
        cases hf.symm.trans hfound
      | none =>
        rw [hf, Option.isSome_none, if_neg Bool.false_ne_true] at hrun
        obtain ⟨hbetween, hrested⟩ := round_rested hx hspread (hfair q.level n).1 hb hmax h hseeds
          hr hround hf
        obtain ⟨marked, helim, -, hreopen⟩ := hbetween.eliminate (hfair q.level n).2
        rw [helim] at hrun
        cases marked with
        | nil =>
          cases hrun
          exact ⟨hbetween.retain, hrested.retain⟩
        | cons v rest =>
          obtain ⟨hnext, hsown, -⟩ := hreopen (List.cons_ne_nil v rest)
          exact ih hnext hsown (hrested.retain.reopen hx hbetween.canonical hsown) hrun

/-- When the levels end, nothing is left waiting within the bound, nor at all if a level has expanded
no state. -/
theorem exploreLevels_rested {bound n level : Nat} {all : Bool} (hq : c.reduction = true)
    (hb : level ≤ bound) (hmax : bound < maxLevel) (h : Between sys c (levelQuery c bound level) m)
    (hr : Rested sys (levelQuery c bound level) m.stats.states
      (Partitioned.seedStates sys (levelSeeds m level)) m)
    (hrun : exploreLevels sys c bound timetable n level m = .ok (all, m'))
    (hfound : m'.observation.found = none) :
    ∃ last base, Between sys c (levelQuery c bound last) m' ∧
      Rested sys (levelQuery c bound last) base [] m' ∧
      ∀ v ∈ m'.store.vertices, ∀ l, (m'.observation.mark v.handle).progress = .waiting l →
        all = false ∧ bound < l := by
  induction n generalizing level m with
  | zero => cases hrun
  | succ n ih =>
    obtain ⟨m₁, hlevel, hd⟩ := exploreLevels_eq_ok hrun
    have hrested : m₁.observation.found = none → Between sys c (levelQuery c bound level) m₁ ∧
        Rested sys (levelQuery c bound level) m.stats.states [] m₁ :=
      exploreLevel_rested hx hspread hfair hq hb (hb.trans_lt hmax) h
        (sown_levelSeeds m bound level) hr hlevel
    cases hd with
    | found hf =>
      rw [hfound] at hf
      cases hf
    | closed hf hs =>
      obtain ⟨hbetween, hrest⟩ := hrested hf
      refine ⟨level, _, hbetween, hrest, fun v hv l hl => ?_⟩
      have hbase := (hrest.next v hv l hl (hrest.level_lt hv hl)).2
      omega
    | bounded hf _ hlast =>
      obtain ⟨hbetween, hrest⟩ := hrested hf
      exact ⟨level, _, hbetween, hrest, fun v hv l hl => ⟨rfl, hlast.trans_lt (hrest.level_lt hv hl)⟩⟩
    | deeper hf _ hlt hrun =>
      obtain ⟨hbetween, hrest⟩ := hrested hf
      exact ih hlt hbetween.next hrest.succ hrun

omit hx hspread hfair in
theorem rested_start (c : SearchConfig) (bound : Nat) :
    Rested sys (levelQuery c bound 0) 0 sys.initials { store := c.newStore } := by
  have hno : ∀ v, v ∉ (c.newStore : Store σ).vertices :=
    fun v => c.vertices_newStore (σ := σ) ▸ List.not_mem_nil
  exact ⟨Nat.le_refl _, fun s hs => .inl ⟨rfl, hs⟩, fun v hv => absurd hv (hno v),
    fun v hv => absurd hv (hno v), fun v hv => absurd hv (hno v), fun v hv => absurd hv (hno v),
    fun v hv => absurd hv (hno v), ⟨fun v hv => absurd hv (hno v), fun v hv => absurd hv (hno v),
      fun u n hn => absurd hn Work.not_awaited_zero⟩⟩

theorem explore_rested {bound : Nat} {all : Bool} (hq : c.reduction = true)
    (hmax : bound < maxLevel) (hw : c.partitioned = true → c.workerCount ≤ UInt32.size)
    (hrun : explore sys c bound timetable = .ok (all, m)) (hfound : m.observation.found = none) :
    ∃ last base, Between sys c (levelQuery c bound last) m ∧
      Rested sys (levelQuery c bound last) base [] m ∧
      ∀ v ∈ m.store.vertices, ∀ l, (m.observation.mark v.handle).progress = .waiting l →
        all = false ∧ bound < l :=
  exploreLevels_rested hx hspread hfair hq (Nat.zero_le bound) hmax (between_start c bound hw)
    (rested_start c bound) hrun hfound

end levels

end rounds

end ModelChecker.Bounded
