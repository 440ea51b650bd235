import ModelChecker.Proofs.BoundedMarks

namespace ModelChecker.Bounded

variable {σ : Type} {sys : System σ} {q : Query} {store : Store σ} {o o₁ : Observation σ}
  {t u : Vertex σ} {m : LevelMark}

/-- What becomes of the target of a seed or an edge. -/
inductive Outcome (sys : System σ) (q : Query) (store : Store σ) (o : Observation σ)
    (t : Vertex σ) : Step × Observation σ → Prop where
  | skip {m o'} (hm : Touch sys q store o t m) (ho : Marked t m o o') (hf : o'.found = o.found)
    (he : m.isExpanded = (o.mark t.handle).isExpanded)
    (hs : m.isExpanded = true ∨ ∃ l, m.progress = .waiting l ∧ q.level < l) :
    Outcome sys q store o t (.skip, o')
  | expand {m o'} (hm : Touch sys q store o t m) (ho : Marked t m o o') (hf : o'.found = o.found)
    (hold : (o.mark t.handle).isExpanded = false) (hnew : m.progress = .expanded q.level)
    (hg : q.property = .goal → sys.goal t.state = false) : Outcome sys q store o t (.expand, o')
  | stop {m o' x} (hm : Touch sys q store o t m) (ho : Marked t m o o')
    (he : m.isExpanded = (o.mark t.handle).isExpanded) (hf : o.Reports x o')
    (hx : Genuine sys q store x) : Outcome sys q store o t (.stop, o')

section follow
variable {worker : Nat} {source : Option (Vertex σ)} {flags : EdgeFlags} {isNew : Bool}

theorem follow_terminate
    (h : (listener sys q).edge worker source t flags isNew o = (.terminate, o₁)) :
    (listener sys q).follow worker source t flags isNew o = (.stop, o₁) := by
  simp only [Listener.follow, h]

theorem follow_ignore
    (h : (listener sys q).edge worker source t flags isNew o = (.ignore, o₁)) :
    (listener sys q).follow worker source t flags isNew o = (.skip, o₁) := by
  simp only [Listener.follow, h]

theorem follow_process
    (h : (listener sys q).edge worker source t flags isNew o = (.process, o₁)) :
    (listener sys q).follow worker source t flags isNew o =
      match expandState t o₁ with
      | (.terminate, o) => (.stop, o)
      | (.ignore, o) => (.skip, o)
      | (_, o) => (.expand, o) := by
  simp only [Listener.follow, h]
  rw [if_neg fun hx => nomatch hx.1]
  rw [show (listener sys q).state worker t o₁ = expandState t o₁ from rfl]
  rcases expandState t o₁ with ⟨action, o₂⟩
  cases action <;> rfl

end follow

theorem violationOf_isSome (s : σ) (flags : EdgeFlags) :
    (violationOf sys q.property s flags false).isSome = true ↔
      q.property = .goal ∧ sys.goal s = true := by
  unfold violationOf
  by_cases hp : q.property = .goal
  · cases sys.goal s <;> simp [hp]
  · simp [hp]

theorem violationOf_errorEdge (s : σ) (flags : EdgeFlags) :
    violationOf sys q.property s flags true = some .errorEdge ↔
      q.property = .goal ∧ flags.error = true := by
  unfold violationOf
  by_cases hp : q.property = .goal
  · cases flags.error <;> cases sys.goal s <;> simp [hp]
  · simp [hp]

theorem Touch.expanded (hm : Touch sys q store o t m) (hl : m.progress = .waiting q.level) :
    Touch sys q store o t { m with progress := .expanded q.level } where
  level k hk := by
    cases hk
    exact hm.level q.level (LevelMark.level?_eq_some.2 (.inl hl))
  expanded_le k hk := by
    cases hk
    exact Nat.le_refl _
  waiting k hk := by cases hk
  keeps he := by
    obtain ⟨k, hk⟩ := LevelMark.isExpanded_iff.1 he
    have h := hm.keeps he
    rw [hl, hk] at h
    cases h
  lowers k hk := by
    obtain ⟨l', hl', hle'⟩ := hm.lowers k hk
    rw [LevelMark.level?_eq_some.2 (.inl hl)] at hl'
    cases hl'
    exact ⟨q.level, rfl, hle'⟩
  parent := hm.parent

theorem Marked.expanded (ho : Marked t m o o₁) (l : Nat) :
    Marked t { m with progress := .expanded l } o
      (o₁.setMark t.handle { o₁.mark t.handle with progress := .expanded l }) where
  mark a := by
    rw [mark_setMark, ho.self]
    by_cases ha : a = t.handle
    · rw [if_pos ha, if_pos ha]
    · rw [if_neg ha, if_neg ha, ho.other ha]
  fault := ho.fault

section entry
variable {worker : Nat} {source : Option (Vertex σ)} {flags : EdgeFlags} {isNew : Bool}
  (hb : q.level ≤ q.bound) (ht : t ∈ store.vertices) (hm : Touch sys q store o t m)
  (ho : Marked t m o o₁) (hf : o₁.found = o.found)
  (he : m.isExpanded = (o.mark t.handle).isExpanded) {l : Nat} (hl : m.level? = some l)
  (hle : l ≤ q.level)
include hb ht hm ho hf he hl hle

/-- A state that belongs to the level at hand ends the search if it is a goal, and is expanded
otherwise. -/
theorem entry_outcome (flags' : EdgeFlags)
    (h : (listener sys q).edge worker source t flags isNew o =
      if (violationOf sys q.property t.state flags' false).isSome then
        o₁.report worker ⟨.goal, t, none⟩
      else (.process, o₁)) :
    Outcome sys q store o t ((listener sys q).follow worker source t flags isNew o) ∧
      (((listener sys q).follow worker source t flags isNew o).1 ≠ .stop →
        ∃ k ≤ q.level,
          (((listener sys q).follow worker source t flags isNew o).2.mark t.handle).progress =
            .expanded k) := by
  by_cases hv : (violationOf sys q.property t.state flags' false).isSome = true
  · rw [if_pos hv] at h
    rw [follow_terminate h]
    obtain ⟨hp, hg⟩ := (violationOf_isSome t.state flags').1 hv
    refine ⟨.stop hm ⟨ho.mark, ho.fault⟩ he (Observation.reports_report hf worker _)
      ⟨ht, fun u hu => (nomatch hu), ?_⟩, fun hne => absurd rfl hne⟩
    rw [hp]
    exact .inl ⟨t.state, l, hm.level l hl, hle.trans hb, hg⟩
  · rw [if_neg hv] at h
    rw [follow_process h, expandState]
    simp only [ho.self]
    -- a state may be a seed twice; the second time it is expanded already
    rcases LevelMark.level?_eq_some.1 hl with hw | hx
    · obtain rfl : l = q.level := Nat.le_antisymm hle (hm.waiting l hw).1
      simp only [hw]
      have hold : (o.mark t.handle).isExpanded = false := by
        rw [← he, LevelMark.isExpanded, hw]
      refine ⟨.expand (hm.expanded hw) (ho.self ▸ ho.expanded q.level) hf hold rfl fun hp => ?_,
        fun _ => ⟨q.level, Nat.le_refl _, ?_⟩⟩
      · by_contra hg
        exact hv ((violationOf_isSome t.state flags').2 ⟨hp, by simpa using hg⟩)
      · rw [mark_setMark, if_pos rfl]
    · simp only [hx]
      have hnew : m.isExpanded = true := LevelMark.isExpanded_iff.2 ⟨l, hx⟩
      exact ⟨.skip hm ho hf he (.inl hnew), fun _ => ⟨l, hle, by rw [ho.self, hx]⟩⟩

end entry

/-- The states that a level may be seeded with. -/
def SeedOk (sys : System σ) (q : Query) (store : Store σ) (o : Observation σ) (s : σ) : Prop :=
  if q.level = 0 then s ∈ sys.initials
  else ∃ v ∈ store.vertices, v.state = s ∧ ∃ l ≤ q.level, (o.mark v.handle).level? = some l

theorem Touch.refl (h : Reached sys q store o) (ht : t ∈ store.vertices) :
    Touch sys q store o t (o.mark t.handle) where
  level := h.level t ht
  expanded_le := h.expanded_le t ht
  waiting := h.waiting t ht
  keeps _ := rfl
  lowers l hl := ⟨l, hl, Nat.le_refl l⟩
  parent _ hp := .inl hp

theorem Marked.refl (o : Observation σ) (t : Vertex σ) : Marked t (o.mark t.handle) o o where
  mark a := by
    by_cases h : a = t.handle
    · rw [if_pos h, h]
    · rw [if_neg h]
  fault := rfl

theorem offerParent_parent {level : Nat} {p : Parent} {a : Handle}
    (h : (m.offerParent level p).parent = .vertex a) :
    m.parent = .vertex a ∨ p = .vertex a := by
  unfold LevelMark.offerParent at h
  split at h
  · exact .inl h
  · right
    cases p with
    | unset => cases h
    | root => cases h
    | vertex b =>
      change Parent.ofHandle b = _ at h
      unfold Parent.ofHandle at h
      split at h
      · cases h
      · split at h
        · cases h
        · exact h

theorem offerParent_progress (m : LevelMark) (level : Nat) (p : Parent) :
    (m.offerParent level p).progress = m.progress := by
  unfold LevelMark.offerParent
  split <;> rfl

theorem asInitial_progress (m : LevelMark) :
    m.asInitial.progress = if m.isExpanded then m.progress else .waiting 0 := by
  unfold LevelMark.asInitial
  rw [offerParent_progress]
  split <;> rfl

theorem Touch.asInitial (h : Reached sys q store o) (h0 : q.level = 0) (ht : t ∈ store.vertices)
    (hi : t.state ∈ sys.initials) : Touch sys q store o t (o.mark t.handle).asInitial := by
  have hp := asInitial_progress (o.mark t.handle)
  have hparent : ∀ a, (o.mark t.handle).asInitial.parent = .vertex a →
      (o.mark t.handle).parent = .vertex a := by
    intro a ha
    rcases offerParent_parent ha with ha | ha
    · split at ha <;> exact ha
    · cases ha
  -- a state that is expanded is left as it is
  cases he : (o.mark t.handle).isExpanded with
  | true =>
    rw [he, if_pos rfl] at hp
    have hl : (o.mark t.handle).asInitial.level? = (o.mark t.handle).level? := by
      rw [LevelMark.level?, LevelMark.level?, hp]
    exact ⟨fun l h' => h.level t ht l (hl ▸ h'), fun l h' => h.expanded_le t ht l (hp ▸ h'),
      fun l h' => h.waiting t ht l (hp ▸ h'), fun _ => hp,
      fun l h' => ⟨l, hl.trans h', Nat.le_refl l⟩, fun a ha => .inl (hparent a ha)⟩
  | false =>
    rw [he, if_neg Bool.false_ne_true] at hp
    have hl : (o.mark t.handle).asInitial.level? = some 0 :=
      LevelMark.level?_eq_some.2 (.inl hp)
    refine ⟨fun l h' => ?_, fun l h' => ?_, fun l h' => ?_, fun h' => ?_,
      fun l h' => ⟨0, hl, Nat.zero_le l⟩, fun a ha => .inl (hparent a ha)⟩
    · cases hl.symm.trans h'
      exact .initial hi
    · cases hp.symm.trans h'
    · cases hp.symm.trans h'
      exact ⟨h0.le, Nat.zero_le _⟩
    · rw [he] at h'
      cases h'

/-- A seed is expanded, unless it is a goal. -/
theorem seed_outcome (h : Reached sys q store o) (hb : q.level ≤ q.bound)
    (ht : t ∈ store.vertices) (hs : SeedOk sys q store o t.state) (worker : Nat)
    (flags : EdgeFlags) (isNew : Bool) :
    Outcome sys q store o t ((listener sys q).follow worker none t flags isNew o) ∧
      (((listener sys q).follow worker none t flags isNew o).1 ≠ .stop →
        (((listener sys q).follow worker none t flags isNew o).2.mark t.handle).isExpanded =
          true) := by
  by_cases h0 : q.level = 0
  · rw [SeedOk, if_pos h0] at hs
    have hp := asInitial_progress (o.mark t.handle)
    have hmarked : Marked t (o.mark t.handle).asInitial o
        (o.setMark t.handle (o.mark t.handle).asInitial) :=
      ⟨fun a => mark_setMark o _ _ _, rfl⟩
    have hsame : (o.mark t.handle).asInitial.isExpanded = (o.mark t.handle).isExpanded := by
      cases he : (o.mark t.handle).isExpanded with
      | true =>
        rw [he, if_pos rfl] at hp
        rw [← he, LevelMark.isExpanded, LevelMark.isExpanded, hp]
      | false =>
        rw [he, if_neg Bool.false_ne_true] at hp
        rw [LevelMark.isExpanded, hp]
    have hlevel : ∃ l ≤ q.level, (o.mark t.handle).asInitial.level? = some l := by
      cases he : (o.mark t.handle).isExpanded with
      | true =>
        obtain ⟨l, hl⟩ := LevelMark.isExpanded_iff.1 he
        rw [he, if_pos rfl, hl] at hp
        exact ⟨l, h.expanded_le t ht l hl, LevelMark.level?_eq_some.2 (.inr hp)⟩
      | false =>
        rw [he, if_neg Bool.false_ne_true] at hp
        exact ⟨0, Nat.zero_le _, LevelMark.level?_eq_some.2 (.inl hp)⟩
    obtain ⟨l, hle, hl⟩ := hlevel
    -- the first level marks its seeds as initial, the later levels find the marks there
    have hcall : (listener sys q).edge worker none t flags isNew o =
        if (violationOf sys q.property t.state {} false).isSome then
          (o.setMark t.handle (o.mark t.handle).asInitial).report worker ⟨.goal, t, none⟩
        else (.process, o.setMark t.handle (o.mark t.handle).asInitial) := by
      simp only [listener, seed, if_pos h0]
    have hentry :=
      entry_outcome hb ht (Touch.asInitial h h0 ht hs) hmarked rfl hsame hl hle {} hcall
    refine ⟨hentry.1, fun hne => ?_⟩
    obtain ⟨k, -, hk⟩ := hentry.2 hne
    exact LevelMark.isExpanded_iff.2 ⟨k, hk⟩
  · rw [SeedOk, if_neg h0] at hs
    obtain ⟨v, hv, hvt, l, hle, hl⟩ := hs
    obtain rfl := h.canonical.eq_of_state hv ht hvt
    have hcall : (listener sys q).edge worker none v flags isNew o =
        if (violationOf sys q.property v.state {} false).isSome then
          o.report worker ⟨.goal, v, none⟩
        else (.process, o) := by
      simp only [listener, seed, if_neg h0]
    have hentry := entry_outcome hb ht (Touch.refl h ht) (Marked.refl o v) rfl rfl hl hle {} hcall
    refine ⟨hentry.1, fun hne => ?_⟩
    obtain ⟨k, -, hk⟩ := hentry.2 hne
    exact LevelMark.isExpanded_iff.2 ⟨k, hk⟩

theorem lower_level {level : Nat} (he : m.isExpanded = false) (hmax : level + 1 ≤ maxLevel)
    (p : Parent) (switch : Bool) :
    ∃ l, ((m.offerParent (level + switch.toNat) p).lower level switch).progress = .waiting l ∧
      l ≤ level + switch.toNat ∧ (l = level + switch.toNat ∨ m.progress = .waiting l) ∧
      ∀ k, m.level? = some k → l ≤ k := by
  -- the level does not reach the largest one that a mark can hold
  have hmin : min (level + switch.toNat) maxLevel = level + switch.toNat := by
    refine Nat.min_eq_left (le_trans ?_ hmax)
    cases switch <;> simp
  have hp := offerParent_progress m (level + switch.toNat) p
  unfold LevelMark.lower
  simp only [hmin]
  cases hm : m.progress with
  | unseen =>
    rw [hm] at hp
    simp only [hp]
    refine ⟨_, rfl, Nat.le_refl _, .inl rfl, fun k hk => ?_⟩
    rw [LevelMark.level?, hm] at hk
    cases hk
  | waiting k =>
    rw [hm] at hp
    simp only [hp]
    refine ⟨_, rfl, Nat.min_le_left _ _, ?_, fun j hj => ?_⟩
    · rcases Nat.le_total (level + switch.toNat) k with h | h
      · exact .inl (Nat.min_eq_left h)
      · exact .inr (by rw [Nat.min_eq_right h])
    · rw [LevelMark.level?_eq_some.2 (.inl hm)] at hj
      cases hj
      exact Nat.min_le_right _ _
  | expanded k =>
    rw [LevelMark.isExpanded, hm] at he
    cases he

theorem lower_parent {m : LevelMark} (level : Nat) (switch : Bool) :
    (m.lower level switch).parent = m.parent := by
  unfold LevelMark.lower
  simp only
  split <;> rfl

section edge
variable (h : Reached sys q store o) (hu : u ∈ store.vertices)
  (hlevel : (o.mark u.handle).progress = .expanded q.level) {flags : EdgeFlags}
  (hx : (t.state, flags) ∈ sys.successors u.state) (ht : t ∈ store.vertices)
  (hmax : q.level + 1 ≤ maxLevel)
include h hu hlevel hx ht hmax

theorem Touch.reach (he : (o.mark t.handle).isExpanded = false) :
    Touch sys q store o t (((o.mark t.handle).offerParent (q.level + flags.contextSwitch.toNat)
      (.vertex u.handle)).lower q.level flags.contextSwitch) := by
  obtain ⟨l, hp, hll, hcase, hlow⟩ := lower_level he hmax (.vertex u.handle) flags.contextSwitch
  have hl := LevelMark.level?_eq_some.2 (.inl hp)
  have hsw : flags.contextSwitch.toNat ≤ 1 := by cases flags.contextSwitch <;> simp
  refine ⟨fun k hk => ?_, fun k hk => ?_, fun k hk => ?_, fun hx => ?_,
    fun k hk => ⟨l, hl, hlow k hk⟩, fun a ha => ?_⟩
  · cases hl.symm.trans hk
    rcases hcase with rfl | hw
    · exact .step (h.level u hu q.level (LevelMark.level?_eq_of_expanded hlevel)) hx
    · exact h.level t ht l (LevelMark.level?_eq_some.2 (.inl hw))
  · cases hp.symm.trans hk
  · cases hp.symm.trans hk
    refine ⟨?_, by omega⟩
    rcases hcase with rfl | hw
    · exact Nat.le_add_right _ _
    · exact (h.waiting t ht l hw).1
  · rw [he] at hx
    cases hx
  · rw [lower_parent] at ha
    refine (offerParent_parent ha).imp_right fun hpa => ?_
    cases hpa
    exact ⟨he, u, hu, rfl, LevelMark.isExpanded_iff.2 ⟨q.level, hlevel⟩⟩

/-- An edge brings its target up to date, and shows no error within the bound unless it ends the
search. -/
theorem edge_outcome (hr : q.reduction = false) (hb : q.level ≤ q.bound) (worker : Nat)
    (isNew : Bool) :
    Outcome sys q store o t ((listener sys q).follow worker (some u) t flags isNew o) ∧
      (((listener sys q).follow worker (some u) t flags isNew o).1 ≠ .stop →
        (∃ l, (((listener sys q).follow worker (some u) t flags isNew o).2.mark t.handle).level? =
          some l ∧ l ≤ q.level + flags.contextSwitch.toNat) ∧
        ¬ (q.property = .goal ∧ flags.error = true ∧
          q.level + flags.contextSwitch.toNat ≤ q.bound)) := by
  have hlv : (o.mark u.handle).level? = some q.level := LevelMark.level?_eq_of_expanded hlevel
  have hcall : (listener sys q).edge worker (some u) t flags isNew o =
      if q.level + flags.contextSwitch.toNat ≤ q.bound ∧
        violationOf sys q.property t.state flags true = some .errorEdge then
        o.report worker ⟨.errorEdge, t, some u⟩
      else Bounded.reach sys q worker u q.level t flags o := by
    simp only [listener, edge, hlv, hr, Bool.false_and, Bool.false_eq_true, if_false]
  by_cases herr : q.level + flags.contextSwitch.toNat ≤ q.bound ∧
      violationOf sys q.property t.state flags true = some .errorEdge
  · rw [if_pos herr] at hcall
    rw [follow_terminate hcall]
    obtain ⟨hp, hflag⟩ := (violationOf_errorEdge t.state flags).1 herr.2
    refine ⟨.stop (Touch.refl h ht) ⟨(Marked.refl o t).mark, rfl⟩ rfl
      (Observation.reports_report rfl worker _) ⟨ht, ?_, ?_⟩, fun hne => absurd rfl hne⟩
    · rintro v hv
      cases hv
      exact hu
    · rw [hp]
      exact .inr ⟨u.state, q.level, h.level u hu q.level hlv, _, hx, herr.1, hflag⟩
  · rw [if_neg herr, reach] at hcall
    have hok : ¬ (q.property = .goal ∧ flags.error = true ∧
        q.level + flags.contextSwitch.toNat ≤ q.bound) := fun ⟨hp, hflag, hle⟩ =>
      herr ⟨hle, (violationOf_errorEdge t.state flags).2 ⟨hp, hflag⟩⟩
    cases he : (o.mark t.handle).isExpanded with
    | true =>
      simp only [he, if_true] at hcall
      rw [follow_ignore hcall]
      refine ⟨.skip (Touch.refl h ht) (Marked.refl o t) rfl rfl (.inl he), fun _ => ⟨?_, hok⟩⟩
      -- nothing is expanded beyond the level at hand
      obtain ⟨l, hl⟩ := LevelMark.isExpanded_iff.1 he
      exact ⟨l, LevelMark.level?_eq_of_expanded hl,
        (h.expanded_le t ht l hl).trans (Nat.le_add_right _ _)⟩
    | false =>
      simp only [he, Bool.false_eq_true, if_false] at hcall
      have htouch := Touch.reach h hu hlevel hx ht hmax he
      obtain ⟨l, hp, hll, -, -⟩ := lower_level he hmax (.vertex u.handle) flags.contextSwitch
      generalize ((o.mark t.handle).offerParent (q.level + flags.contextSwitch.toNat)
        (.vertex u.handle)).lower q.level flags.contextSwitch = m at *
      have hmarked : Marked t m o (o.setMark t.handle m) := ⟨fun a => mark_setMark o _ _ _, rfl⟩
      have hl := LevelMark.level?_eq_some.2 (.inl hp)
      have hsame : m.isExpanded = (o.mark t.handle).isExpanded := by
        rw [he, LevelMark.isExpanded, hp]
      simp only [hl, Option.any_some, decide_eq_true_eq] at hcall
      by_cases hlt : q.level < l
      · rw [if_pos hlt] at hcall
        rw [follow_ignore hcall]
        refine ⟨.skip htouch hmarked rfl hsame (.inr ⟨l, hp, hlt⟩), fun _ => ⟨⟨l, ?_, hll⟩, hok⟩⟩
        rw [hmarked.self, hl]
      · rw [if_neg hlt] at hcall
        have hentry :=
          entry_outcome hb ht htouch hmarked rfl hsame hl (Nat.le_of_not_lt hlt) flags hcall
        refine ⟨hentry.1, fun hne => ⟨?_, hok⟩⟩
        obtain ⟨k, hk, hprog⟩ := hentry.2 hne
        exact ⟨k, LevelMark.level?_eq_of_expanded hprog, hk.trans (Nat.le_add_right _ _)⟩

end edge

end ModelChecker.Bounded
