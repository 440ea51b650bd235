import ModelChecker.Proofs.BoundedListener
import ModelChecker.Proofs.Work

namespace ModelChecker.Bounded

variable {σ : Type} {sys : System σ} {q : Query} {store store' : Store σ} {o o' : Observation σ}
  {t : Vertex σ} {m₀ : State σ} {w w' : Work σ (Observation σ)} {x : WorkItem σ}
  {rest : Multiset (WorkItem σ)}

/-- Nothing is lost: states stay stored, expanded states stay expanded, levels only fall. -/
structure Advance (store store' : Store σ) (o o' : Observation σ) : Prop where
  sub : ∀ v ∈ store.vertices, v ∈ store'.vertices
  keeps : ∀ a, (o.mark a).isExpanded = true → (o'.mark a).progress = (o.mark a).progress
  lowers : ∀ a l, (o.mark a).level? = some l → ∃ l', (o'.mark a).level? = some l' ∧ l' ≤ l
  shards : store'.shards.size = store.shards.size

theorem Advance.refl (store : Store σ) (o : Observation σ) : Advance store store o o :=
  ⟨fun _ hv => hv, fun _ _ => rfl, fun _ l hl => ⟨l, hl, Nat.le_refl l⟩, rfl⟩

theorem Advance.isExpanded (h : Advance store store' o o') {a : Handle}
    (ha : (o.mark a).isExpanded = true) : (o'.mark a).isExpanded = true := by
  obtain ⟨l, hl⟩ := LevelMark.isExpanded_iff.1 ha
  exact LevelMark.isExpanded_iff.2 ⟨l, (h.keeps a ha).trans hl⟩

theorem Advance.expanded (h : Advance store store' o o') {a : Handle} {l : Nat}
    (ha : (o.mark a).progress = .expanded l) : (o'.mark a).progress = .expanded l :=
  (h.keeps a (LevelMark.isExpanded_iff.2 ⟨l, ha⟩)).trans ha

theorem Advance.touch {m : LevelMark} {o₁ : Observation σ} (h : Advance store store' o o₁)
    (hm : Touch sys q store' o₁ t m) (ho : Marked t m o₁ o') : Advance store store' o o' where
  sub := h.sub
  keeps a ha := (ho.keeps hm (h.isExpanded ha)).trans (h.keeps a ha)
  lowers a l hl := by
    obtain ⟨l₁, hl₁, hle₁⟩ := h.lowers a l hl
    obtain ⟨l₂, hl₂, hle₂⟩ := ho.lowers hm hl₁
    exact ⟨l₂, hl₂, hle₂.trans hle₁⟩
  shards := h.shards

theorem Advance.grow {store₁ : Store σ} (h : Advance store store₁ o o')
    (hsub : ∀ v ∈ store₁.vertices, v ∈ store'.vertices)
    (hshards : store'.shards.size = store₁.shards.size) : Advance store store' o o' :=
  ⟨fun v hv => hsub v (h.sub v hv), h.keeps, h.lowers, hshards.trans h.shards⟩

/-- An edge that may be told of, or a seed if there is no source. -/
def EdgeOk (sys : System σ) (q : Query) (store : Store σ) (o : Observation σ) (n : Successor σ) :
    Option (Vertex σ) → Prop
  | none => SeedOk sys q store o n.1
  | some v => v ∈ store.vertices ∧ (o.mark v.handle).progress = .expanded q.level ∧
    n ∈ sys.successors v.state

/-- What an item of the work may refer to. -/
def ItemOk (sys : System σ) (q : Query) (store : Store σ) (o : Observation σ) : WorkItem σ → Prop
  | .met source v flags _ => v ∈ store.vertices ∧ EdgeOk sys q store o (v.state, flags) source
  | .arrival source n => EdgeOk sys q store o n source
  | .visit v => v ∈ store.vertices ∧ (o.mark v.handle).progress = .expanded q.level

theorem SeedOk.advance {s : σ} (h : SeedOk sys q store o s) (ha : Advance store store' o o') :
    SeedOk sys q store' o' s := by
  unfold SeedOk at h ⊢
  split
  · rename_i h0
    rwa [if_pos h0] at h
  · rename_i h0
    rw [if_neg h0] at h
    obtain ⟨v, hv, hs, l, hl, hlevel⟩ := h
    obtain ⟨l', hl', hle⟩ := ha.lowers _ l hlevel
    exact ⟨v, ha.sub v hv, hs, l', hle.trans hl, hl'⟩

theorem EdgeOk.advance {n : Successor σ} {source : Option (Vertex σ)}
    (h : EdgeOk sys q store o n source) (ha : Advance store store' o o') :
    EdgeOk sys q store' o' n source := by
  cases source with
  | none => exact SeedOk.advance h ha
  | some v => exact ⟨ha.sub v h.1, ha.expanded h.2.1, h.2.2⟩

theorem ItemOk.advance (h : ItemOk sys q store o x) (ha : Advance store store' o o') :
    ItemOk sys q store' o' x := by
  cases x with
  | met source v flags b => exact ⟨ha.sub v h.1, h.2.advance ha⟩
  | visit v => exact ⟨ha.sub v h.1, ha.expanded h.2⟩
  | arrival source n => exact EdgeOk.advance h ha

/-- What is true of the work throughout a round that started from `m₀`. -/
structure Sound (sys : System σ) (q : Query) (m₀ : State σ) (w : Work σ (Observation σ)) :
    Prop where
  reached : Reached sys q w.store w.observation
  since : Advance m₀.store w.store m₀.observation w.observation
  order : ∃ new old, Ordered m₀.store m₀.observation old ∧
    Ordered w.store w.observation (new ++ old) ∧ w.admitted ≤ new.length ∧
    (w.interrupt.raised = false → new.length = w.admitted)
  items : ∀ x ∈ w.items, ItemOk sys q w.store w.observation x
  raised : w.interrupt.raised = w.observation.found.isSome
  failure : w.interrupt.failure = none

/-- The target `t` is stored, and at most `t` is new to the store. -/
structure Placed (sys : System σ) (q : Query) (store : Store σ) (o : Observation σ) (t : Vertex σ)
    (store' : Store σ) : Prop where
  mem : t ∈ store'.vertices
  sub : ∀ v ∈ store.vertices, v ∈ store'.vertices
  new : ∀ v ∈ store'.vertices, v = t ∨ v ∈ store.vertices
  shards : store'.shards.size = store.shards.size
  reached : Reached sys q store' o
  order : ∀ order, Ordered store o order → Ordered store' o order

theorem Sound.store_target (h : Sound sys q m₀ w) (hx : sys.Explicit) {source : Option (Vertex σ)}
    {n : Successor σ} (hitem : .arrival source n ∈ w.items) :
    ∃ t isNew store', sys.store w.store n.1 = .ok ⟨t, isNew, store'⟩ ∧ t.state = n.1 ∧
      Placed sys q w.store w.observation t store' := by
  rcases h.reached.canonical.store_cases hx n.1 with ⟨t, ht, hs, hstore⟩ |
    ⟨t, store', hstore, hs, hnew, hadd, hc⟩ | ⟨limit, hlimit, -⟩
  · exact ⟨t, false, w.store, hstore, hs, ht, fun _ hv => hv, fun _ hv => .inr hv, rfl, h.reached,
      fun _ ho => ho⟩
  · refine ⟨t, true, store', hstore, hs, hadd.mem_iff.2 (.inl rfl),
      fun v hv => hadd.mem_iff.2 (.inr hv), fun v hv => hadd.mem_iff.1 hv, hadd.size_shards,
      h.reached.grow hadd hc ?_,
      fun order ho => ho.grow hadd (h.reached.mark_added hadd hc)⟩
    -- a later level seeds stored states only, so a new one is initial or the target of an edge
    have hok := h.items _ hitem
    cases source with
    | none =>
      left
      by_cases h0 : q.level = 0
      · rwa [ItemOk, EdgeOk, SeedOk, if_pos h0, ← hs] at hok
      · rw [ItemOk, EdgeOk, SeedOk, if_neg h0] at hok
        obtain ⟨v, hv, hvs, -⟩ := hok
        exact absurd hvs (hnew v hv)
    | some u =>
      obtain ⟨hu, hexp, hn⟩ := hok
      exact .inr ⟨u, hu, LevelMark.isExpanded_iff.2 ⟨_, hexp⟩, n, hn, hs.symm⟩
  · rw [h.reached.unlimited] at hlimit
    cases hlimit

/-- A target that is stored keeps what is true. -/
theorem Sound.stored (h : Sound sys q m₀ w) {source : Option (Vertex σ)} {n : Successor σ}
    {isNew : Bool} (hi : w.items = .arrival source n ::ₘ rest) (hts : t.state = n.1)
    (hp : Placed sys q w.store w.observation t store') :
    Sound sys q m₀ { w with store := store', items := .met source t n.2 isNew ::ₘ rest } := by
  obtain ⟨new, old, hold₀, ho, hle, heq⟩ := h.order
  have hplace := (Advance.refl w.store w.observation).grow hp.sub hp.shards
  have hadm := Work.admitted_stored (t := t) hi store' isNew
  refine ⟨hp.reached, h.since.grow hp.sub hp.shards,
    ⟨new, old, hold₀, hp.order _ ho, hadm.trans_le hle, fun hr => (heq hr).trans hadm.symm⟩,
    fun y hy => ?_, h.raised, h.failure⟩
  have hitems : ∀ z ∈ w.items, ItemOk sys q store' w.observation z :=
    fun z hz => (h.items z hz).advance hplace
  rw [hi] at hitems
  rcases Multiset.mem_cons.1 hy with rfl | hy
  · refine ⟨hp.mem, ?_⟩
    rw [hts]
    exact hitems _ (Multiset.mem_cons_self _ _)
  · exact hitems y (Multiset.mem_cons_of_mem hy)

/-- A seed or an edge that is told of keeps what is true. -/
theorem Sound.offered (h : Sound sys q m₀ w) (hi : w.items = x ::ₘ rest) (hx : x.isVisit = false)
    (ht : t ∈ w.store.vertices) {r : Step × Observation σ}
    (hout : Outcome sys q w.store w.observation t r) :
    Sound sys q m₀ (w.offered rest (Listener.settle r.1 t w.store r.2)) := by
  obtain ⟨new, old, hold₀, ho, hle, heq⟩ := h.order
  have hreach := h.reached
  have hadm := Work.admitted_of_cons hi hx
  have hplace := Advance.refl w.store w.observation
  have hrest : ∀ {o'}, Advance w.store w.store w.observation o' →
      ∀ y ∈ rest, ItemOk sys q w.store o' y := by
    intro o' ha y hy
    exact (h.items y (hi ▸ Multiset.mem_cons_of_mem hy)).advance ha
  -- only an expansion admits a state, and it puts the target first in the order
  cases hout with
  | skip hm hmk hf he hs =>
    rw [hadm] at hle heq
    refine ⟨hreach.touch ht hm hmk fun y hy => hreach.found y (hf ▸ hy), h.since.touch hm hmk,
      ⟨new, old, hold₀, ho.touch hreach.canonical ht hm hmk he, ?_, fun hr => ?_⟩,
      hrest (hplace.touch hm hmk), ?_, h.failure⟩
    · exact hle
    · exact heq hr
    · exact h.raised.trans (by rw [← hf]; rfl)
  | @expand m o' hm hmk hf hold hnew hg =>
    have hexp := LevelMark.isExpanded_iff.2 ⟨_, hnew⟩
    have hcount : (w.offered rest (Listener.settle .expand t w.store o')).admitted =
        w.admitted + 1 := by
      rw [hadm]
      exact congrArg (w.stats.states + ·)
        (Multiset.countP_cons_of_pos (p := fun y : WorkItem σ => y.isVisit = true) rest rfl)
    refine ⟨hreach.touch ht hm hmk fun y hy => hreach.found y (hf ▸ hy), h.since.touch hm hmk,
      ⟨t :: new, old, hold₀, ho.expand hreach.canonical ht hm hmk hold hexp, ?_, fun hr => ?_⟩,
      fun y hy => ?_, ?_, h.failure⟩
    · rw [hcount, List.length_cons]
      omega
    · have := heq hr
      rw [hcount, List.length_cons]
      omega
    · rcases Multiset.mem_cons.1 hy with rfl | hy
      · refine ⟨ht, ?_⟩
        change (o'.mark t.handle).progress = _
        rw [hmk.self, hnew]
      · exact hrest (hplace.touch hm hmk) y hy
    · exact h.raised.trans (by rw [← hf]; rfl)
  | @stop _ o' y hm hmk he hf hv =>
    rw [hadm] at hle
    refine ⟨hreach.touch ht hm hmk fun z hz => ?_, h.since.touch hm hmk,
      ⟨new, old, hold₀, ho.touch hreach.canonical ht hm hmk he, hle, fun hr => nomatch hr⟩,
      hrest (hplace.touch hm hmk), ?_, h.failure⟩
    · rcases hf.eq_or hz with rfl | hz
      · exact hv
      · exact hreach.found z hz
    · exact hf.isSome.symm

/-- The state is a seed that has yet to be told of. -/
def Pending (items : Multiset (WorkItem σ)) (s : σ) : Prop :=
  ∃ flags, Work.Awaited items none (s, flags)

/-- The state is a seed, or the target of an edge, that has yet to be told of. -/
def Sought (items : Multiset (WorkItem σ)) (s : σ) : Prop :=
  ∃ source flags, Work.Awaited items source (s, flags)

/-- An edge out of a state at level `l` has brought its target up to date, and is no error within
the bound. -/
structure Relaxed (sys : System σ) (q : Query) (store : Store σ) (o : Observation σ) (l : Nat)
    (n : Successor σ) : Prop where
  target : ∃ t ∈ store.vertices, t.state = n.1 ∧
    ∃ l', (o.mark t.handle).level? = some l' ∧ l' ≤ l + n.2.contextSwitch.toNat
  fine : ¬ (q.property = .goal ∧ n.2.error = true ∧ l + n.2.contextSwitch.toNat ≤ q.bound)

theorem Relaxed.advance {l : Nat} {n : Successor σ} (h : Relaxed sys q store o l n)
    (ha : Advance store store' o o') : Relaxed sys q store' o' l n := by
  obtain ⟨⟨t, ht, hs, l', hl', hle⟩, hfine⟩ := h
  obtain ⟨l'', hl'', hle'⟩ := ha.lowers _ l' hl'
  exact ⟨⟨t, ha.sub t ht, hs, l'', hl'', hle'.trans hle⟩, hfine⟩

/-- Nothing was left out so far. -/
structure Complete (sys : System σ) (q : Query) (w : Work σ (Observation σ)) : Prop where
  initial : ∀ s ∈ sys.initials, q.level = 0 ∧ Pending w.items s ∨ ∃ v ∈ w.store.vertices,
    v.state = s ∧ (w.observation.mark v.handle).progress = .expanded 0
  waiting : ∀ v ∈ w.store.vertices, Sought w.items v.state ∨
    (w.observation.mark v.handle).isExpanded = true ∨
      ∃ l, (w.observation.mark v.handle).progress = .waiting l ∧ q.level < l
  edges : ∀ v ∈ w.store.vertices, ∀ l, (w.observation.mark v.handle).progress = .expanded l →
    WorkItem.visit v ∈ w.items ∨ (q.property = .deadlock → sys.successors v.state ≠ []) ∧
      ∀ n ∈ sys.successors v.state, Work.Awaited w.items (some v) n ∨
        Relaxed sys q w.store w.observation l n
  goal : ∀ v ∈ w.store.vertices, (w.observation.mark v.handle).isExpanded = true →
    q.property = .goal → sys.goal v.state = false

theorem Outcome.goes_on {r : Step × Observation σ} (h : Outcome sys q store o t r)
    (hgo : r.1 ≠ .stop) :
    ∃ m, Touch sys q store o t m ∧ Marked t m o r.2 ∧
      (m.isExpanded = true ∨ ∃ l, m.progress = .waiting l ∧ q.level < l) ∧
      (m.isExpanded = (o.mark t.handle).isExpanded ∨
        r.1 = .expand ∧ (q.property = .goal → sys.goal t.state = false)) := by
  cases h with
  | skip hm ho hf he hs => exact ⟨_, hm, ho, hs, .inl he⟩
  | expand hm ho hf hold hnew hg =>
    exact ⟨_, hm, ho, .inl (LevelMark.isExpanded_iff.2 ⟨_, hnew⟩), .inr ⟨rfl, hg⟩⟩
  | stop => exact absurd rfl hgo

theorem settle_items (w : Work σ (Observation σ)) (rest : Multiset (WorkItem σ)) (t : Vertex σ)
    (store' : Store σ) (r : Step × Observation σ) :
    (∀ y ∈ rest, y ∈ (w.offered rest (Listener.settle r.1 t store' r.2)).items) ∧
      (r.1 = .expand →
        WorkItem.visit t ∈ (w.offered rest (Listener.settle r.1 t store' r.2)).items) ∧
      (w.offered rest (Listener.settle r.1 t store' r.2)).store = store' ∧
      (w.offered rest (Listener.settle r.1 t store' r.2)).observation = r.2 := by
  obtain ⟨step, o'⟩ := r
  cases step with
  | expand => exact ⟨fun y hy => Multiset.mem_cons_of_mem hy, fun _ => Multiset.mem_cons_self _ _,
      rfl, rfl⟩
  | skip => exact ⟨fun y hy => hy, nofun, rfl, rfl⟩
  | stop => exact ⟨fun y hy => hy, nofun, rfl, rfl⟩

/-- What it means to be done with an edge to `t`, or with the seed `t`. -/
def Dealt (sys : System σ) (q : Query) (o : Observation σ) (store : Store σ) (o' : Observation σ)
    (t : Vertex σ) (flags : EdgeFlags) : Option (Vertex σ) → Prop
  | none => (o'.mark t.handle).isExpanded = true
  | some v =>
    ∀ l, (o.mark v.handle).progress = .expanded l → Relaxed sys q store o' l (t.state, flags)

/-- A target that is stored leaves nothing out. -/
theorem Complete.stored (h : Complete sys q w) (hr : Reached sys q w.store w.observation)
    {source : Option (Vertex σ)} {n : Successor σ} {isNew : Bool}
    (hi : w.items = .arrival source n ::ₘ rest) (hts : t.state = n.1)
    (hp : Placed sys q w.store w.observation t store') :
    Complete sys q { w with store := store', items := .met source t n.2 isNew ::ₘ rest } := by
  have ha := (Advance.refl w.store w.observation).grow hp.sub hp.shards
  have hawaited : ∀ {s k}, Work.Awaited w.items s k →
      Work.Awaited (.met source t n.2 isNew ::ₘ rest) s k :=
    fun hk => (Work.awaited_met hts).2 (hi ▸ hk)
  -- a state that is expanded was stored before
  have hold : ∀ v ∈ store'.vertices, (w.observation.mark v.handle).isExpanded = true →
      v ∈ w.store.vertices := by
    intro v hv he
    rcases hr.unmarked v.handle with hx | ⟨u, hu, huv⟩
    · rw [hx] at he
      cases he
    · exact hp.reached.canonical.eq_of_handle (hp.sub u hu) hv huv ▸ hu
  refine ⟨fun s hs => ?_, fun v hv => ?_, fun v hv l hl => ?_,
    fun v hv he => h.goal v (hold v hv he) he⟩
  · refine (h.initial s hs).imp (fun ⟨h0, f, hf⟩ => ⟨h0, f, hawaited hf⟩) ?_
    rintro ⟨v, hv, hvs, he⟩
    exact ⟨v, hp.sub v hv, hvs, he⟩
  · rcases hp.new v hv with rfl | hv
    · exact .inl ⟨source, n.2, Work.awaited_cons.2 (.inl rfl)⟩
    · exact (h.waiting v hv).imp_left fun ⟨s, f, hf⟩ => ⟨s, f, hawaited hf⟩
  · have hv' := hold v hv (LevelMark.isExpanded_iff.2 ⟨l, hl⟩)
    refine (h.edges v hv' l hl).imp (fun hx => ?_) ?_
    · rw [hi] at hx
      exact Multiset.mem_cons_of_mem ((Multiset.mem_cons.1 hx).resolve_left nofun)
    · rintro ⟨hdead, hall⟩
      exact ⟨hdead, fun k hk => (hall k hk).imp hawaited fun hx => hx.advance ha⟩

/-- A seed or an edge that is told of leaves nothing out, unless it ends the search. -/
theorem Complete.offered (h : Complete sys q w) (hr : Reached sys q w.store w.observation)
    {source : Option (Vertex σ)} {flags : EdgeFlags} {isNew : Bool}
    (hi : w.items = .met source t flags isNew ::ₘ rest) (ht : t ∈ w.store.vertices)
    {r : Step × Observation σ} (hout : Outcome sys q w.store w.observation t r)
    (hgo : r.1 ≠ .stop) (hd : Dealt sys q w.observation w.store r.2 t flags source) :
    Complete sys q (w.offered rest (Listener.settle r.1 t w.store r.2)) := by
  obtain ⟨m, hm, ho, hsettled, hcase⟩ := hout.goes_on hgo
  have hc := hr.canonical
  have ha := (Advance.refl w.store w.observation).touch hm ho
  obtain ⟨hrest, hvisits, hstore, hobs⟩ := settle_items w rest t w.store r
  have hne : ∀ v ∈ w.store.vertices, v ≠ t → v.handle ≠ t.handle :=
    fun v hv hvt he => hvt (hc.eq_of_handle hv ht he)
  have hawaited : ∀ {s k}, Work.Awaited w.items s k →
      Work.Awaited (w.offered rest (Listener.settle r.1 t w.store r.2)).items s k ∨
        source = s ∧ (t.state, flags) = k := by
    intro s k hk
    rw [hi] at hk
    refine (Work.awaited_offered hk w _).symm.imp_right fun he => ?_
    cases he
    exact ⟨rfl, rfl⟩
  -- the target has a new mark and all other states keep theirs, so each field is split on it
  refine ⟨fun s hs => ?_, fun v hv => ?_, fun v hv l hl => ?_, fun v hv he hp => ?_⟩
  all_goals simp only [hstore, hobs] at *
  · rcases h.initial s hs with ⟨h0, f, hf⟩ | ⟨v, hv, hvs, he⟩
    · refine (hawaited hf).imp (fun hf => ⟨h0, f, hf⟩) ?_
      rintro ⟨rfl, hts⟩
      refine ⟨t, ht, congrArg Prod.fst hts, ?_⟩
      obtain ⟨l, hl⟩ := LevelMark.isExpanded_iff.1 hd
      rw [ho.self] at hl ⊢
      obtain rfl := Nat.le_zero.1 (h0 ▸ hm.expanded_le l hl)
      exact hl
    · exact .inr ⟨v, hv, hvs, ha.expanded he⟩
  · by_cases hvt : v = t
    · subst hvt
      rw [ho.self]
      exact .inr hsettled
    · rw [ho.other (hne v hv hvt)]
      refine (h.waiting v hv).imp_left fun ⟨s, f, hf⟩ => ?_
      rcases hawaited hf with hf | ⟨-, hts⟩
      · exact ⟨s, f, hf⟩
      · exact absurd (hc.eq_of_state ht hv (congrArg Prod.fst hts)).symm hvt
  · by_cases hvisit' : v = t ∧ r.1 = .expand
    · obtain ⟨rfl, hx⟩ := hvisit'
      exact .inl (hvisits hx)
    · have hprog : (w.observation.mark v.handle).progress = .expanded l := by
        by_cases hvt : v = t
        · subst hvt
          have hsame := hcase.resolve_right fun hx => hvisit' ⟨rfl, hx.1⟩
          rw [ho.self] at hl
          rw [← hm.keeps (hsame ▸ LevelMark.isExpanded_iff.2 ⟨l, hl⟩), hl]
        · rwa [ho.other (hne v hv hvt)] at hl
      refine (h.edges v hv l hprog).imp (fun hx => ?_) ?_
      · rw [hi] at hx
        exact hrest _ ((Multiset.mem_cons.1 hx).resolve_left nofun)
      · rintro ⟨hdead, hall⟩
        refine ⟨hdead, fun n hn => ?_⟩
        rcases hall n hn with hx | hx
        · refine (hawaited hx).imp_right ?_
          rintro ⟨rfl, rfl⟩
          exact hd l hprog
        · exact .inr (hx.advance ha)
  · by_cases hvt : v = t
    · subst hvt
      rcases hcase with hsame | ⟨-, hg⟩
      · rw [ho.self, hsame] at he
        exact h.goal v hv he hp
      · exact hg hp
    · rw [ho.other (hne v hv hvt)] at he
      exact h.goal v hv he hp

theorem listener_successors (hr : q.reduction = false) (worker : Nat) (v : Vertex σ) :
    (listener sys q).successors worker store v o = (sys.successors v.state, o) := by
  simp only [listener, successors, hr, Bool.false_and, Bool.false_eq_true, if_false]

theorem listener_expand (sys : System σ) (hr : q.reduction = false) (worker : Nat)
    (store : Store σ) (v : Vertex σ) (o : Observation σ) :
    ((listener sys q).expand worker store v {} o).2.1.states = 1 ∧
    ((q.property = .deadlock ∧ sys.successors v.state = [] ∧
        ((listener sys q).expand worker store v {} o).1 = none ∧
        ((listener sys q).expand worker store v {} o).2.2 =
          (o.report worker ⟨.deadlock, v, none⟩).2) ∨
      (q.property = .deadlock → sys.successors v.state ≠ []) ∧
        ((listener sys q).expand worker store v {} o).1 = some (sys.successors v.state) ∧
        ((listener sys q).expand worker store v {} o).2.2 = o) := by
  unfold Listener.expand
  rw [listener_successors hr]
  cases hs : sys.successors v.state with
  | nil =>
    by_cases hp : q.property = .deadlock
    · simp [listener, hp, Observation.report]
    · simp [listener, hp]
  | cons n rest => simp

theorem admitted_of_visit {v : Vertex σ} (hi : w.items = .visit v ::ₘ rest) :
    w.admitted = w.stats.states + 1 + rest.countP (·.isVisit) := by
  rw [Work.admitted, hi, Multiset.countP_cons_of_pos (p := fun y : WorkItem σ => y.isVisit = true)
    rest rfl]
  omega

/-- An expansion keeps what is true. -/
theorem Sound.visited (h : Sound sys q m₀ w) (hr : q.reduction = false) (hb : q.level ≤ q.bound)
    {v : Vertex σ} (hi : w.items = .visit v ::ₘ rest) (worker : Nat) :
    Sound sys q m₀
      (w.visited v rest ((listener sys q).expand worker w.store v {} w.observation)) := by
  obtain ⟨hv, hexp⟩ : ItemOk sys q w.store w.observation (.visit v) :=
    h.items _ (hi ▸ Multiset.mem_cons_self _ _)
  obtain ⟨new, old, hold₀, ho, hle, heq⟩ := h.order
  have hadm := admitted_of_visit hi
  have hrest : ∀ y ∈ rest, ItemOk sys q w.store w.observation y :=
    fun y hy => h.items y (hi ▸ Multiset.mem_cons_of_mem hy)
  obtain ⟨hone, hcase⟩ := listener_expand sys hr worker w.store v w.observation
  generalize (listener sys q).expand worker w.store v {} w.observation = r at hone hcase ⊢
  obtain ⟨next, stats, o'⟩ := r
  have hone : stats.states = 1 := hone
  -- the expansion reports a deadlock, or turns the visit into the arrivals at the successors
  rcases hcase with ⟨hp, hnil, hnext, hobs⟩ | ⟨-, hnext, hobs⟩
  · obtain rfl : next = none := hnext
    obtain rfl : o' = _ := hobs
    have hadm' : (w.visited v rest (none, stats,
        (w.observation.report worker ⟨.deadlock, v, none⟩).2)).admitted = w.admitted := by
      rw [hadm, ← hone]
      rfl
    have hreport := Observation.reports_report (o := w.observation) rfl worker ⟨.deadlock, v, none⟩
    refine ⟨?_, ⟨h.since.sub, h.since.keeps, h.since.lowers, h.since.shards⟩,
      ⟨new, old, hold₀, ⟨ho.nodup, ho.mem_iff, ho.lineage, ho.parent⟩, ?_, fun hx => nomatch hx⟩,
      hrest, hreport.isSome.symm, h.failure⟩
    · refine h.reached.touch hv (Touch.refl h.reached hv)
        ⟨(Marked.refl w.observation v).mark, rfl⟩ ?_
      intro y hy
      rcases hreport.eq_or hy with rfl | hy
      swap
      · exact h.reached.found y hy
      refine ⟨hv, fun u hu => (nomatch hu), ?_⟩
      rw [hp]
      exact ⟨v.state, q.level, h.reached.level v hv q.level (LevelMark.level?_eq_of_expanded hexp),
        hb, hnil⟩
    · rw [hadm']
      exact hle
  · obtain rfl : next = some (sys.successors v.state) := hnext
    obtain rfl : o' = w.observation := hobs
    have hadm' : (w.visited v rest (some (sys.successors v.state), stats,
        w.observation)).admitted = w.admitted := by
      rw [hadm, ← hone, Work.admitted, Work.visited, Multiset.countP_add, Work.countP_arrivals,
        Nat.zero_add]
      rfl
    refine ⟨h.reached, h.since, ⟨new, old, hold₀, ho, ?_, fun hx => ?_⟩, fun y hy => ?_, h.raised,
      h.failure⟩
    · rw [hadm']
      exact hle
    · rw [hadm']
      exact heq hx
    · rcases Multiset.mem_add.1 hy with hy | hy
      · obtain ⟨n, hn, rfl⟩ := List.mem_map.1 (Multiset.mem_coe.1 hy)
        exact ⟨hv, hexp, hn⟩
      · exact hrest y hy

/-- An expansion leaves nothing out. -/
theorem Complete.visited (h : Complete sys q w) (hr : q.reduction = false) {v : Vertex σ}
    (hi : w.items = .visit v ::ₘ rest) (worker : Nat)
    (hgo : ((listener sys q).expand worker w.store v {} w.observation).1 ≠ none) :
    Complete sys q
      (w.visited v rest ((listener sys q).expand worker w.store v {} w.observation)) := by
  obtain ⟨-, hcase⟩ := listener_expand sys hr worker w.store v w.observation
  generalize (listener sys q).expand worker w.store v {} w.observation = r at hgo hcase ⊢
  obtain ⟨next, stats, o'⟩ := r
  obtain ⟨hdead, hnext, hobs⟩ := hcase.resolve_left fun hx => hgo hx.2.2.1
  obtain rfl : next = some (sys.successors v.state) := hnext
  obtain rfl : o' = w.observation := hobs
  have hsub : ∀ y ∈ w.items, y ≠ .visit v → y ∈ (w.visited v rest
      (some (sys.successors v.state), stats, w.observation)).items := by
    intro y hy hne
    rw [hi] at hy
    exact Multiset.mem_add.2 (.inr ((Multiset.mem_cons.1 hy).resolve_left hne))
  have hawaited : ∀ {s n}, Work.Awaited w.items s n → Work.Awaited (w.visited v rest
      (some (sys.successors v.state), stats, w.observation)).items s n :=
    fun hn => Work.awaited_visited (hi ▸ hn) w _
  refine ⟨fun s hs => (h.initial s hs).imp_left fun ⟨h0, f, hf⟩ => ⟨h0, f, hawaited hf⟩,
    fun u hu => (h.waiting u hu).imp_left fun ⟨s, f, hf⟩ => ⟨s, f, hawaited hf⟩,
    fun u hu l hl => ?_, h.goal⟩
  -- the visit of `v` is gone, but all its successors are about to arrive
  by_cases huv : u = v
  · subst huv
    exact .inr ⟨hdead, fun n hn => .inl (Work.awaited_of_mem rfl hn w)⟩
  · refine (h.edges u hu l hl).imp (fun hx => hsub _ hx fun he => huv (by cases he; rfl)) ?_
    rintro ⟨hd, hall⟩
    exact ⟨hd, fun n hn => (hall n hn).imp_left hawaited⟩

/-- What every move of a round keeps. -/
structure Holds (sys : System σ) (q : Query) (m₀ : State σ) (w : Work σ (Observation σ)) :
    Prop where
  sound : Sound sys q m₀ w
  complete : w.interrupt.raised = false → Complete sys q w

theorem Holds.stored (h : Holds sys q m₀ w) {source : Option (Vertex σ)} {n : Successor σ}
    {isNew : Bool} (hi : w.items = .arrival source n ::ₘ rest) (hts : t.state = n.1)
    (hp : Placed sys q w.store w.observation t store') :
    Holds sys q m₀ { w with store := store', items := .met source t n.2 isNew ::ₘ rest } :=
  ⟨h.sound.stored hi hts hp, fun hr => (h.complete hr).stored h.sound.reached hi hts hp⟩

section move
variable (hr : q.reduction = false) (hb : q.level ≤ q.bound) (hmax : q.level + 1 ≤ maxLevel)
include hr hb hmax

theorem Holds.told (h : Holds sys q m₀ w) {source : Option (Vertex σ)} {flags : EdgeFlags}
    {isNew : Bool} (hi : w.items = .met source t flags isNew ::ₘ rest) (worker : Nat) :
    Holds sys q m₀ (w.offered rest (Listener.settle
      ((listener sys q).follow worker source t flags isNew w.observation).1 t w.store
      ((listener sys q).follow worker source t flags isNew w.observation).2)) := by
  have hreach := h.sound.reached
  obtain ⟨ht, hok⟩ : ItemOk sys q w.store w.observation (.met source t flags isNew) :=
    h.sound.items _ (hi ▸ Multiset.mem_cons_self _ _)
  obtain ⟨hout, hd⟩ : Outcome sys q w.store w.observation t
        ((listener sys q).follow worker source t flags isNew w.observation) ∧
      (((listener sys q).follow worker source t flags isNew w.observation).1 ≠ .stop →
        Dealt sys q w.observation w.store
          ((listener sys q).follow worker source t flags isNew w.observation).2 t flags
          source) := by
    cases source with
    | none => exact seed_outcome hreach hb ht hok worker flags isNew
    | some u =>
      obtain ⟨hu, hexp, hn⟩ := hok
      have hout := edge_outcome hreach hu hexp hn ht hmax hr hb worker isNew
      refine ⟨hout.1, fun hgo l hl => ?_⟩
      obtain ⟨⟨l', hl', hle⟩, hfine⟩ := hout.2 hgo
      cases hexp.symm.trans hl
      exact ⟨⟨t, ht, rfl, l', hl', hle⟩, hfine⟩
  generalize (listener sys q).follow worker source t flags isNew w.observation = r at hout hd ⊢
  refine ⟨h.sound.offered hi rfl ht hout, fun hraised => ?_⟩
  have hgo : r.1 ≠ .stop ∧ w.interrupt.raised = false := by
    rcases r with ⟨step, o'⟩
    cases step with
    | stop => cases hraised
    | expand => exact ⟨nofun, hraised⟩
    | skip => exact ⟨nofun, hraised⟩
  exact (h.complete hgo.2).offered hreach hi ht hout hgo.1 (hd hgo.1)

variable (hx : sys.Explicit)
include hx

/-- Every move of a round keeps what is true and leaves nothing out. -/
theorem Holds.move (h : Holds sys q m₀ w) (hm : Work.Move sys (listener sys q) w w') :
    Holds sys q m₀ w' := by
  cases hm with
  | @store source n t isNew store' rest hi hs =>
    obtain ⟨t', isNew', s', hstore, hts, hp⟩ :=
      h.sound.store_target hx (hi ▸ Multiset.mem_cons_self _ _)
    cases hs.symm.trans hstore
    exact h.stored hi hts hp
  | tell worker hi => exact h.told hr hb hmax hi worker
  | @arrival source n rest worker hi =>
    obtain ⟨t, isNew, store', hstore, hts, hp⟩ :=
      h.sound.store_target hx (hi ▸ Multiset.mem_cons_self _ _)
    have hstored : Holds sys q m₀
        { w with store := store', items := .met source t n.2 isNew ::ₘ rest } :=
      h.stored hi hts hp
    have htold := hstored.told hr hb hmax rfl worker
    rw [Work.offered_stored] at htold
    rw [Listener.offer_eq, hstore]
    exact htold
  | @visit v rest worker hi =>
    refine ⟨h.sound.visited hr hb hi worker, fun hraised => ?_⟩
    have hgo : ((listener sys q).expand worker w.store v {} w.observation).1 ≠ none ∧
        w.interrupt.raised = false := by
      generalize (listener sys q).expand worker w.store v {} w.observation = r at hraised ⊢
      obtain ⟨next, stats, o'⟩ := r
      cases next with
      | none => cases hraised
      | some next => exact ⟨nofun, hraised⟩
    exact (h.complete hgo.2).visited hr hi worker hgo.1
  | @abandon rest hraised hsub =>
    -- once interrupted, the search may drop items, so fewer states are admitted than expanded
    obtain ⟨new, old, hold₀, ho, hle, -⟩ := h.sound.order
    refine ⟨⟨h.sound.reached, h.sound.since,
      ⟨new, old, hold₀, ho, le_trans ?_ hle, fun hx => ?_⟩,
      fun y hy => h.sound.items y (Multiset.mem_of_le hsub hy), h.sound.raised, h.sound.failure⟩,
      fun hx => ?_⟩
    · exact Nat.add_le_add_left (Multiset.countP_le_of_le _ hsub) _
    · cases hraised.symm.trans hx
    · cases hraised.symm.trans hx

theorem Holds.moves (h : Holds sys q m₀ w) (hm : Work.Moves sys (listener sys q) w w') :
    Holds sys q m₀ w' :=
  hm.preserve (fun _ _ hw => hw.move hr hb hmax hx) h

end move

end ModelChecker.Bounded
