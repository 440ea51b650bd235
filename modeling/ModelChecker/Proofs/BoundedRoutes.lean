import ModelChecker.Proofs.BoundedReopen

namespace ModelChecker.Bounded

variable {σ : Type} {sys : System σ} {c : SearchConfig} {q : Query} {m m₀ : State σ}
  {store store' : Store σ} {o o' : Observation σ} {w : Work σ (Observation σ)} {x : WorkItem σ}
  {rest : Multiset (WorkItem σ)} {source : Option (Vertex σ)} {t u v : Vertex σ}
  {flags : EdgeFlags} {isNew : Bool} {s : σ}

theorem Offered.waiting_cases {switch : Bool} {m : LevelMark} {l : Nat}
    (h : Offered q o t switch source m) (hw : m.progress = .waiting l) :
    source = none ∧ (q.level = 0 ∧ l = 0 ∨
      q.level ≠ 0 ∧ (o.mark t.handle).progress = .waiting l) ∨
    ∃ u k, source = some u ∧ (o.mark u.handle).level? = some k ∧ l ≤ k + switch.toNat ∧
      ((o.mark t.handle).progress = .waiting l ∨ l = min (k + switch.toNat) maxLevel) := by
  cases h with
  | seed h0 => exact .inl ⟨rfl, .inr ⟨h0, hw⟩⟩
  | initial h0 =>
    refine .inl ⟨rfl, .inl ⟨h0, ?_⟩⟩
    rw [asInitial_progress] at hw
    split at hw
    · rename_i he
      rw [LevelMark.isExpanded, hw] at he
      cases he
    · cases hw
      rfl
  | expanded he =>
    rw [LevelMark.isExpanded, hw] at he
    cases he
  | @edge u k hk he => exact .inr ⟨u, k, rfl, hk, LevelMark.relaxed_cases hw⟩

theorem Reply.target_cases {r : Step × Observation σ} (h : Reply sys q source t flags o r)
    (hgo : r.1 ≠ .stop) :
    (r.1 = .expand ∧ ∃ m l, Offered q o t flags.contextSwitch source m ∧ m.progress = .waiting l ∧
      l ≤ q.level ∧ (r.2.mark t.handle).progress = .expanded l ∧
      (q.property = .goal → sys.goal t.state = false)) ∨
    r.1 = .skip ∧ ((o.mark t.handle).isExpanded = true ∧
        (r.2.mark t.handle).progress = (o.mark t.handle).progress ∨
      ∃ l, Offered q o t flags.contextSwitch source (r.2.mark t.handle) ∧
        (r.2.mark t.handle).progress = .waiting l ∧ q.level < l) := by
  cases h with
  | error => exact absurd rfl hgo
  | goal => exact absurd rfl hgo
  | expand hm hw hle ho hf hg =>
    exact .inl ⟨rfl, _, _, hm, hw, hle, by rw [ho.self], hg⟩
  | skip hm ho hs =>
    refine .inr ⟨rfl, ?_⟩
    rw [ho.self]
    rcases hs with he | ⟨l, hl, hlt⟩
    · have hold := hm.isExpanded.symm.trans he
      exact .inl ⟨hold, hm.evolves.keeps hold⟩
    · exact .inr ⟨l, hm, hl, hlt⟩

/-- The state was visited: it has to be expanded fully, or was expanded with its ample set if it has
one. From then on the successors that it is expanded with do not become fewer. -/
def Resolved (sys : System σ) (reduction : Bool) (m : LevelMark) (s : σ) : Prop :=
  m.full = true ∨ m.isExpanded = true ∧
    (reduction = true → m.reduced = false → ∀ a rest, sys.ample s ≠ some (a :: rest))

/-- The states that are reached along edges that were taken, with the switches on the way. -/
inductive Route (sys : System σ) (reduction : Bool) (store : Store σ) (o : Observation σ) :
    Nat → σ → Prop where
  | initial {s : σ} (h : s ∈ sys.initials) : Route sys reduction store o 0 s
  | step {n : Nat} {u : Vertex σ} {e : Successor σ} (h : Route sys reduction store o n u.state)
    (hu : u ∈ store.vertices) (hr : Resolved sys reduction (o.mark u.handle) u.state)
    (he : e ∈ expansion sys (o.mark u.handle) u.state) :
    Route sys reduction store o (n + e.2.contextSwitch.toNat) e.1

/-- The levels are those of routes, or higher. The edges that are pending are taken, and a state that
has to be expanded fully belongs to the levels so far. -/
structure Attained (sys : System σ) (q : Query) (items : Multiset (WorkItem σ)) (store : Store σ)
    (o : Observation σ) : Prop where
  levels : ∀ v ∈ store.vertices, ∀ l, (o.mark v.handle).level? = some l →
    ∃ n ≤ l, Route sys q.reduction store o n v.state
  full : ∀ v ∈ store.vertices, (o.mark v.handle).full = true →
    ∃ l ≤ q.level, (o.mark v.handle).level? = some l
  taken : ∀ u n, Work.Awaited items (some u) n →
    Resolved sys q.reduction (o.mark u.handle) u.state ∧
      n ∈ expansion sys (o.mark u.handle) u.state

section marks
variable {reduction : Bool} {old mark : LevelMark}

theorem Resolved.congr (h : Resolved sys reduction old s) (hfull : mark.full = old.full)
    (hexp : old.isExpanded = true → mark.isExpanded = true) (hred : mark.reduced = old.reduced) :
    Resolved sys reduction mark s := by
  refine h.imp hfull.trans (And.imp hexp fun hno hq hr => hno hq ?_)
  exact hred.symm.trans hr

theorem Resolved.reduced_eq (h : Resolved sys q.reduction old s)
    (hev : LevelMark.Evolves old mark) (hmark : Reducible sys q s mark) :
    mark.reduced = old.reduced := by
  cases hm : mark.reduced with
  | false =>
    cases ho : old.reduced with
    | false => rfl
    | true => exact hm.symm.trans (hev.reduced ho)
  | true =>
    obtain ⟨-, hq, hfull, a, rest, ha⟩ := hmark hm
    rcases h with hf | ⟨-, hno⟩
    · cases hfull.symm.trans (hev.full.trans hf)
    · cases ho : old.reduced with
      | false => exact absurd ha (hno hq ho a rest)
      | true => rfl

theorem Route.mono {n : Nat} (h : Route sys reduction store o n s)
    (hstep : ∀ u ∈ store.vertices, Resolved sys reduction (o.mark u.handle) u.state →
      u ∈ store'.vertices ∧ Resolved sys reduction (o'.mark u.handle) u.state ∧
        ∀ e ∈ expansion sys (o.mark u.handle) u.state,
          e ∈ expansion sys (o'.mark u.handle) u.state) :
    Route sys reduction store' o' n s := by
  induction h with
  | initial hs => exact .initial hs
  | step _ hu hr he ih =>
    obtain ⟨hu', hr', hsub⟩ := hstep _ hu hr
    exact .step ih hu' hr' (hsub _ he)

end marks

/-- What an answer leaves as it was, or changes in one direction only. -/
structure Moved (t : Vertex σ) (store : Store σ) (o o' : Observation σ) : Prop where
  full : ∀ a, (o'.mark a).full = (o.mark a).full
  lowers : ∀ a k, (o.mark a).level? = some k → ∃ l ≤ k, (o'.mark a).level? = some l
  reduced : ∀ a, (o'.mark a).reduced = (o.mark a).reduced
  keeps : ∀ a, (o.mark a).isExpanded = true → (o'.mark a).progress = (o.mark a).progress
  other : ∀ v ∈ store.vertices, v ≠ t → o'.mark v.handle = o.mark v.handle

section told
variable {r : Step × Observation σ} (hw : Tracked sys q m₀ w)
  (hi : w.items = .met source t flags isNew ::ₘ rest)
  (hr : Reply sys q source t flags w.observation r)
include hw hi hr

theorem Tracked.moved : Moved t w.store w.observation r.2 := by
  have hmem := hw.grounded.target (hi ▸ Multiset.mem_cons_self _ rest)
  obtain ⟨m, hmark, hev, hred, -⟩ := hr.marks (hw.regular.expanded_le t hmem)
  have hall := hmark.evolves hev
  refine ⟨fun a => (hall a).full, fun a => (hall a).lowers, fun a => ?_, fun a => (hall a).keeps,
    fun v hv hvt => hmark.other fun ha => ?_⟩
  · by_cases ha : a = t.handle
    · rw [ha, hmark.self, hred]
    · rw [hmark.other ha]
  · exact hvt (hw.grounded.canonical.eq_of_handle hv hmem ha)

omit hr in
/-- A level that is offered is that of a route. -/
theorem Attained.offered (h : Attained sys q w.items w.store w.observation)
    (hmax : q.level < maxLevel) {mark : LevelMark} {l : Nat}
    (hm : Offered q w.observation t flags.contextSwitch source mark)
    (hl : mark.progress = .waiting l) :
    ∃ n ≤ l, Route sys q.reduction w.store w.observation n t.state := by
  have hxi : .met source t flags isNew ∈ w.items := hi ▸ Multiset.mem_cons_self _ rest
  have hleads := hw.leads hxi
  have hold : (w.observation.mark t.handle).level? = some l →
      ∃ n ≤ l, Route sys q.reduction w.store w.observation n t.state :=
    h.levels t (hw.grounded.target hxi) l
  rcases hm.waiting_cases hl with ⟨rfl, ⟨h0, rfl⟩ | ⟨-, hp⟩⟩ | ⟨u, k, rfl, hk, -, hp | rfl⟩
  · rcases hleads with ⟨-, hinit⟩ | ⟨k, hk, hkt⟩
    · exact ⟨0, Nat.le_refl 0, .initial hinit⟩
    · obtain rfl : k = 0 := by omega
      exact hold hkt
  · exact hold (LevelMark.level?_eq_some.2 (.inl hp))
  · exact hold (LevelMark.level?_eq_some.2 (.inl hp))
  · have hawaited : Work.Awaited w.items (some u) (t.state, flags) := ⟨_, hxi, rfl⟩
    obtain ⟨hres, he⟩ := h.taken u _ hawaited
    obtain ⟨j, hj⟩ := LevelMark.isExpanded_iff.1 (hw.awaited hawaited)
    cases hk.symm.trans (LevelMark.level?_eq_of_expanded hj)
    have hu := (hw.grounded.awaited hawaited).1
    have hle := hw.regular.expanded_le u hu k hj
    obtain ⟨n, hn, hroute⟩ := h.levels u hu k hk
    have hswitch := Bool.toNat_le flags.contextSwitch
    refine ⟨n + flags.contextSwitch.toNat, ?_, .step hroute hu hres he⟩
    rw [Nat.min_eq_left (by omega)]
    omega

variable (hgo : r.1 ≠ .stop)
include hgo

theorem Attained.told (h : Attained sys q w.items w.store w.observation)
    (hmax : q.level < maxLevel) :
    Attained sys q (w.told rest t r).items w.store r.2 := by
  have hmoved := hw.moved hi hr
  have hres : ∀ u : Vertex σ, Resolved sys q.reduction (w.observation.mark u.handle) u.state →
      Resolved sys q.reduction (r.2.mark u.handle) u.state := fun u hu =>
    hu.congr (hmoved.full _) (fun he => (LevelMark.isExpanded_congr (hmoved.keeps _ he)).trans he)
      (hmoved.reduced _)
  have hexp : ∀ u : Vertex σ, expansion sys (r.2.mark u.handle) u.state =
      expansion sys (w.observation.mark u.handle) u.state :=
    fun u => expansion_congr (hmoved.reduced _) _
  have hroute : ∀ {l s}, (∃ n ≤ l, Route sys q.reduction w.store w.observation n s) →
      ∃ n ≤ l, Route sys q.reduction w.store r.2 n s := by
    rintro l s ⟨n, hn, hs⟩
    exact ⟨n, hn, hs.mono fun u hu hu' => ⟨hu, hres u hu', fun e he => hexp u ▸ he⟩⟩
  refine ⟨fun v hv l hl => hroute ?_, fun v hv hf => ?_, fun u n hn => ?_⟩
  · by_cases hvt : v = t
    · subst hvt
      rcases hr.target_cases hgo with ⟨-, mark, k, hm, hk, -, hp, -⟩ | ⟨-, ⟨-, hp⟩ | ⟨k, hm, hk, -⟩⟩
      · cases hl.symm.trans (LevelMark.level?_eq_of_expanded hp)
        exact h.offered hw hi hmax hm hk
      · rw [LevelMark.level?_congr hp] at hl
        exact h.levels v hv l hl
      · cases hl.symm.trans (LevelMark.level?_eq_some.2 (.inl hk))
        exact h.offered hw hi hmax hm hk
    · exact h.levels v hv l (hmoved.other v hv hvt ▸ hl)
  · obtain ⟨k, hk, hkv⟩ := h.full v hv ((hmoved.full _).symm.trans hf)
    obtain ⟨l, hl, hlv⟩ := hmoved.lowers _ k hkv
    exact ⟨l, hl.trans hk, hlv⟩
  · obtain ⟨hu, he⟩ := h.taken u n (hn.of_told hi)
    exact ⟨hres u hu, hexp u ▸ he⟩

end told

theorem Attained.placed {next : Successor σ} (h : Attained sys q w.items w.store w.observation)
    (hw : Tracked sys q m₀ w) (hi : w.items = .arrival source next ::ₘ rest)
    (hs : Store.Stored sys w.store next.1 t isNew store') :
    Attained sys q (.met source t next.2 isNew ::ₘ rest) store' w.observation := by
  refine ⟨fun v hv l hl => ?_, fun v hv hf => ?_,
    fun u n hn => h.taken u n ((Work.awaited_stored hi hs).1 hn)⟩
  · have hvs : v ∈ w.store.vertices := (hw.fresh hs v hv).resolve_left fun hx => by
      rw [hx] at hl
      cases hl
    obtain ⟨n, hn, hroute⟩ := h.levels v hvs l hl
    exact ⟨n, hn, hroute.mono fun u hu hres => ⟨hs.grows u hu, hres, fun _ he => he⟩⟩
  · refine h.full v ((hw.fresh hs v hv).resolve_left fun hx => ?_) hf
    rw [hx] at hf
    cases hf

theorem Attained.visited {mark : LevelMark} (h : Attained sys q w.items w.store w.observation)
    (hw : Tracked sys q m₀ w) (hi : w.items = .visit v ::ₘ rest)
    {p : List (Successor σ) × Observation σ} (hm : Unfolds sys q v w.observation mark p)
    {r : Option (List (Successor σ)) × SearchStats × Observation σ} (hnext : r.1 = some p.1) :
    Attained sys q (w.visited v rest r).items w.store p.2 := by
  have hvi : .visit v ∈ w.items := hi ▸ Multiset.mem_cons_self _ rest
  have hv : Work.Rests sys w.store (.visit v) := hw.grounded.items _ hvi
  have hall := hm.toMarked.evolves hm.evolves
  -- a state that was visited before keeps its successors
  have hsame : ∀ u ∈ w.store.vertices,
      Resolved sys q.reduction (w.observation.mark u.handle) u.state →
      (p.2.mark u.handle).reduced = (w.observation.mark u.handle).reduced := by
    intro u hu hres
    by_cases huv : u.handle = v.handle
    · obtain rfl := hw.grounded.canonical.eq_of_handle hu hv huv
      rw [hm.self]
      exact hres.reduced_eq hm.evolves hm.reducible
    · rw [hm.other huv]
  have hkeep : ∀ u ∈ w.store.vertices,
      Resolved sys q.reduction (w.observation.mark u.handle) u.state →
      Resolved sys q.reduction (p.2.mark u.handle) u.state ∧
        ∀ e ∈ expansion sys (w.observation.mark u.handle) u.state,
          e ∈ expansion sys (p.2.mark u.handle) u.state := by
    intro u hu hres
    refine ⟨hres.congr (hall _).full (hall _).isExpanded (hsame u hu hres), fun e he => ?_⟩
    rwa [expansion_congr (hsame u hu hres)]
  have hlevel : ∀ a, (p.2.mark a).level? = (w.observation.mark a).level? := by
    intro a
    by_cases ha : a = v.handle
    · rw [ha, hm.self]
      exact LevelMark.level?_congr hm.progress
    · rw [hm.other ha]
  refine ⟨fun u hu l hl => ?_, fun u hu hf => ?_, fun u n hn => ?_⟩
  · rw [hlevel] at hl
    obtain ⟨n, hn, hroute⟩ := h.levels u hu l hl
    exact ⟨n, hn, hroute.mono fun u hu hres => ⟨hu, hkeep u hu hres⟩⟩
  · rw [hlevel]
    exact h.full u hu ((hall _).full.symm.trans hf)
  · rcases hn.of_visited hi with ⟨hu, he⟩ | hn
    · cases hu
      rw [hnext] at he
      rw [hm.self]
      refine ⟨?_, hm.next ▸ he⟩
      cases hf : mark.full with
      | true => exact .inl hf
      | false =>
        refine .inr ⟨?_, fun hq => hm.reduces hq hf⟩
        exact (LevelMark.isExpanded_congr hm.progress).trans (hw.items _ hvi)
    · obtain ⟨hres, he⟩ := h.taken u n hn
      obtain ⟨hres', hsub⟩ := hkeep u (hw.grounded.awaited hn).1 hres
      exact ⟨hres', hsub n he⟩

theorem Attained.begins (h : Attained sys q 0 m.store m.observation) (hm : Between sys c q m)
    {states : List σ} (hw : Work.Starts sys states m.store m.observation w) :
    Attained sys q w.items w.store w.observation := by
  rw [hw.observation]
  refine ⟨fun v hv l hl => ?_, fun v hv hf => ?_, fun u n hn => ?_⟩
  · have hvm : v ∈ m.store.vertices := (hm.fresh hw hv).resolve_left fun hx => by
      rw [hx] at hl
      cases hl
    obtain ⟨n, hn, hroute⟩ := h.levels v hvm l hl
    exact ⟨n, hn, hroute.mono fun u hu hres => ⟨hw.sub u hu, hres, fun _ he => he⟩⟩
  · refine h.full v ((hm.fresh hw hv).resolve_left fun hx => ?_) hf
    rw [hx] at hf
    cases hf
  · cases (hw.awaited hn).1

theorem mem_successors_of_mem_expansion (hx : sys.Explicit) {mark : LevelMark} {e : Successor σ}
    (he : e ∈ expansion sys mark s) : e ∈ sys.successors s := by
  unfold expansion at he
  split at he
  · cases ha : sys.ample s with
    | none =>
      rw [ha] at he
      cases he
    | some l =>
      rw [ha] at he
      exact hx.mem_of_mem_ample s l ha e he
  · exact he

theorem Attained.reopen {vs : List (Vertex σ)} (hx : sys.Explicit)
    (h : Attained sys q 0 m.store m.observation) (hc : m.store.Canonical sys)
    (hvs : Sown q { m with observation := m.observation.reopen vs } (.vertices vs)) :
    Attained sys q 0 m.store (m.observation.reopen vs) := by
  have hlevel := fun a => (keeps_reopen m.observation vs a).level
  refine ⟨fun v hv l hl => ?_, fun v hv hf => ?_, fun u n hn => absurd hn Work.not_awaited_zero⟩
  · obtain ⟨n, hn, hroute⟩ := h.levels v hv l ((hlevel _).symm.trans hl)
    refine ⟨n, hn, hroute.mono fun u hu hres => ⟨hu, ?_⟩⟩
    rw [mark_reopen]
    split
    · obtain ⟨hfull, hred⟩ := LevelMark.reopen_flags (m.observation.mark u.handle)
      refine ⟨.inl hfull, fun e he => ?_⟩
      rw [expansion, hred, if_neg Bool.false_ne_true]
      exact mem_successors_of_mem_expansion hx he
    · exact ⟨hres, fun _ he => he⟩
  · by_cases hmem : v.handle ∈ vs.map (·.handle)
    · obtain ⟨u, hu, huv⟩ := List.mem_map.1 hmem
      obtain ⟨hus, hle⟩ := hvs u hu
      obtain rfl := hc.eq_of_handle hus hv huv
      exact hle
    · rw [mark_reopen, if_neg hmem] at hf ⊢
      exact h.full v hv hf

theorem Attained.retain (h : Attained sys q 0 store o) : Attained sys q 0 store o.retainReduced := by
  refine ⟨fun v hv l hl => ?_, h.full, h.taken⟩
  obtain ⟨n, hn, hroute⟩ := h.levels v hv l hl
  exact ⟨n, hn, hroute.mono fun u hu hres => ⟨hu, hres, fun _ he => he⟩⟩

theorem Attained.succ {bound level : Nat}
    (h : Attained sys (levelQuery c bound level) 0 m.store m.observation) :
    Attained sys (levelQuery c bound (level + 1)) 0 m.store m.observation := by
  refine ⟨h.levels, fun v hv hf => ?_, h.taken⟩
  obtain ⟨l, hl, hlv⟩ := h.full v hv hf
  exact ⟨l, Nat.le_succ_of_le hl, hlv⟩

end ModelChecker.Bounded
