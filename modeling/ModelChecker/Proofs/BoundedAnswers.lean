import ModelChecker.Proofs.BoundedListener

namespace ModelChecker

namespace LevelMark

def relaxed (m : LevelMark) (level : Nat) (switch : Bool) (source : Handle) : LevelMark :=
  (m.offerParent (level + switch.toNat) (.vertex source)).lower level switch

/-- The mark `m` may stand in place of `old` later in the same round. -/
structure Evolves (old m : LevelMark) : Prop where
  full : m.full = old.full
  reduced : old.reduced = true → m.reduced = true
  keeps : old.isExpanded = true → m.progress = old.progress
  lowers : ∀ k, old.level? = some k → ∃ l ≤ k, m.level? = some l

variable {old m m' : LevelMark}

theorem Evolves.refl (m : LevelMark) : Evolves m m :=
  ⟨rfl, id, fun _ => rfl, fun k hk => ⟨k, Nat.le_refl k, hk⟩⟩

theorem isExpanded_congr (h : m.progress = old.progress) : m.isExpanded = old.isExpanded := by
  unfold isExpanded
  rw [h]

theorem level?_congr (h : m.progress = old.progress) : m.level? = old.level? := by
  unfold level?
  rw [h]

theorem Evolves.isExpanded (h : Evolves old m) (he : old.isExpanded = true) :
    m.isExpanded = true :=
  (isExpanded_congr (h.keeps he)).trans he

theorem Evolves.trans (h : Evolves old m) (h' : Evolves m m') : Evolves old m' where
  full := h'.full.trans h.full
  reduced hr := h'.reduced (h.reduced hr)
  keeps he := (h'.keeps (h.isExpanded he)).trans (h.keeps he)
  lowers k hk := by
    obtain ⟨l, hl, hm⟩ := h.lowers k hk
    obtain ⟨l', hl', hm'⟩ := h'.lowers l hm
    exact ⟨l', hl'.trans hl, hm'⟩

theorem Evolves.toNat_le (h : Evolves old m) : old.isExpanded.toNat ≤ m.isExpanded.toNat := by
  cases he : old.isExpanded with
  | false => exact Nat.zero_le _
  | true => rw [h.isExpanded he]

theorem isExpanded_eq_false_of_waiting {l : Nat} (h : m.progress = .waiting l) :
    m.isExpanded = false := by
  unfold LevelMark.isExpanded
  rw [h]

theorem evolves_of_waiting {l : Nat} (hfull : m.full = old.full) (hred : m.reduced = old.reduced)
    (he : old.isExpanded = false) (hl : m.level? = some l)
    (hle : ∀ k, old.level? = some k → l ≤ k) : Evolves old m := by
  refine ⟨hfull, fun hr => hred.trans hr, fun hx => ?_, fun k hk => ⟨l, hle k hk, hl⟩⟩
  rw [he] at hx
  cases hx

theorem offerParent_flags (m : LevelMark) (level : Nat) (p : Parent) :
    (m.offerParent level p).full = m.full ∧ (m.offerParent level p).reduced = m.reduced := by
  unfold offerParent
  split <;> exact ⟨rfl, rfl⟩

theorem lower_flags (m : LevelMark) (level : Nat) (switch : Bool) :
    (m.lower level switch).full = m.full ∧ (m.lower level switch).reduced = m.reduced := by
  unfold lower
  dsimp only
  split <;> exact ⟨rfl, rfl⟩

theorem asInitial_flags (m : LevelMark) :
    m.asInitial.full = m.full ∧ m.asInitial.reduced = m.reduced := by
  unfold asInitial
  obtain ⟨hfull, hred⟩ := offerParent_flags
    (if m.isExpanded then m else { m with progress := .waiting 0 }) 0 .root
  refine ⟨hfull.trans ?_, hred.trans ?_⟩
  · split <;> rfl
  · split <;> rfl

theorem relaxed_flags (m : LevelMark) (level : Nat) (switch : Bool) (source : Handle) :
    (m.relaxed level switch source).full = m.full ∧
      (m.relaxed level switch source).reduced = m.reduced := by
  obtain ⟨hfull, hred⟩ := offerParent_flags m (level + switch.toNat) (.vertex source)
  obtain ⟨hfull', hred'⟩ := lower_flags (m.offerParent (level + switch.toNat) (.vertex source))
    level switch
  exact ⟨hfull'.trans hfull, hred'.trans hred⟩

theorem relaxed_progress (he : m.isExpanded = false) (level : Nat) (switch : Bool)
    (source : Handle) :
    ∃ l, (m.relaxed level switch source).progress = .waiting l ∧
      ∀ k, m.level? = some k → l ≤ k := by
  have hp := Bounded.offerParent_progress m (level + switch.toNat) (.vertex source)
  unfold relaxed lower
  dsimp only
  cases hm : m.progress with
  | unseen =>
    rw [hm] at hp
    simp only [hp]
    refine ⟨_, rfl, fun k hk => ?_⟩
    rw [level?, hm] at hk
    cases hk
  | waiting j =>
    rw [hm] at hp
    simp only [hp]
    refine ⟨_, rfl, fun k hk => ?_⟩
    rw [level?, hm] at hk
    cases hk
    exact Nat.min_le_right _ _
  | expanded j =>
    rw [LevelMark.isExpanded, hm] at he
    cases he

theorem relaxed_cases {level l : Nat} {switch : Bool} {source : Handle}
    (h : (m.relaxed level switch source).progress = .waiting l) :
    l ≤ level + switch.toNat ∧
      (m.progress = .waiting l ∨ l = min (level + switch.toNat) maxLevel) := by
  have hp := Bounded.offerParent_progress m (level + switch.toNat) (.vertex source)
  unfold relaxed lower at h
  dsimp only at h
  rw [hp] at h
  cases hm : m.progress with
  | unseen =>
    rw [hm] at h
    cases h
    exact ⟨Nat.min_le_left _ _, .inr rfl⟩
  | waiting j =>
    rw [hm] at h
    cases h
    refine ⟨(Nat.min_le_left _ _).trans (Nat.min_le_left _ _), ?_⟩
    rcases Nat.le_total j (min (level + switch.toNat) maxLevel) with hle | hle
    · exact .inl (by rw [Nat.min_eq_right hle])
    · exact .inr (Nat.min_eq_left hle)
  | expanded j =>
    simp only [hm, hp] at h
    cases h

end LevelMark

namespace Bounded

variable {σ : Type} {sys : System σ} {q : Query} {o o₁ : Observation σ}
  {t v : Vertex σ} {m : LevelMark} {switch : Bool} {source : Option (Vertex σ)}

/-- The mark that a seed or an edge leaves its target with, before the target is expanded. -/
inductive Offered (q : Query) (o : Observation σ) (t : Vertex σ) (switch : Bool) :
    Option (Vertex σ) → LevelMark → Prop where
  | seed (h : q.level ≠ 0) : Offered q o t switch none (o.mark t.handle)
  | initial (h : q.level = 0) : Offered q o t switch none (o.mark t.handle).asInitial
  | expanded {u : Vertex σ} (h : (o.mark t.handle).isExpanded = true) :
    Offered q o t switch (some u) (o.mark t.handle)
  | edge {u : Vertex σ} {l : Nat} (hl : (o.mark u.handle).level? = some l)
    (h : (o.mark t.handle).isExpanded = false) :
    Offered q o t switch (some u) ((o.mark t.handle).relaxed l switch u.handle)

theorem Offered.reduced (h : Offered q o t switch source m) :
    m.reduced = (o.mark t.handle).reduced := by
  cases h with
  | seed => rfl
  | initial => exact (LevelMark.asInitial_flags _).2
  | expanded => rfl
  | edge => exact (LevelMark.relaxed_flags _ _ _ _).2

theorem Offered.evolves (h : Offered q o t switch source m) :
    LevelMark.Evolves (o.mark t.handle) m := by
  cases h with
  | seed => exact .refl _
  | expanded => exact .refl _
  | edge hl he =>
    obtain ⟨l, hp, hle⟩ := LevelMark.relaxed_progress he _ _ _
    exact LevelMark.evolves_of_waiting (LevelMark.relaxed_flags _ _ _ _).1
      (LevelMark.relaxed_flags _ _ _ _).2 he (LevelMark.level?_eq_some.2 (.inl hp)) hle
  | initial h0 =>
    have hp := asInitial_progress (o.mark t.handle)
    cases he : (o.mark t.handle).isExpanded with
    | true =>
      rw [he, if_pos rfl] at hp
      exact ⟨(LevelMark.asInitial_flags _).1, fun hr => (LevelMark.asInitial_flags _).2.trans hr,
        fun _ => hp, fun k hk => ⟨k, Nat.le_refl k, (LevelMark.level?_congr hp).trans hk⟩⟩
    | false =>
      rw [he, if_neg Bool.false_ne_true] at hp
      exact LevelMark.evolves_of_waiting (LevelMark.asInitial_flags _).1
        (LevelMark.asInitial_flags _).2 he (LevelMark.level?_eq_some.2 (.inl hp))
        fun k _ => Nat.zero_le k

theorem Offered.isExpanded (h : Offered q o t switch source m) :
    m.isExpanded = (o.mark t.handle).isExpanded := by
  cases h with
  | seed => rfl
  | expanded => rfl
  | edge _ he =>
    obtain ⟨l, hp, -⟩ := LevelMark.relaxed_progress he _ _ _
    rw [he]
    exact LevelMark.isExpanded_eq_false_of_waiting hp
  | initial =>
    have hp := asInitial_progress (o.mark t.handle)
    cases he : (o.mark t.handle).isExpanded with
    | true =>
      rw [he, if_pos rfl] at hp
      exact (LevelMark.isExpanded_congr hp).trans he
    | false =>
      rw [he, if_neg Bool.false_ne_true] at hp
      exact LevelMark.isExpanded_eq_false_of_waiting hp

/-- The edges out of reduced states, with the one from `source` to `t` that is told. -/
def Observation.noting (o : Observation σ) (q : Query) (t : Vertex σ) :
    Option (Vertex σ) → List (Vertex σ × Vertex σ)
  | none => o.reducedEdges
  | some u =>
    if q.reduction && (o.mark u.handle).reduced then (u, t) :: o.reducedEdges else o.reducedEdges

theorem Observation.mem_reducedEdges {e : Vertex σ × Vertex σ} :
    e ∈ o.reducedEdges ↔ e ∈ o.kept ∨ ∃ worker, e ∈ o.taken.getD worker [] := by
  unfold Observation.reducedEdges
  rw [List.mem_append, List.mem_flatMap]
  refine or_congr_right ⟨?_, ?_⟩
  · rintro ⟨⟨worker, es⟩, hes, he⟩
    refine ⟨worker, ?_⟩
    rw [Std.TreeMap.getD_eq_getD_getElem?,
      Std.TreeMap.mem_toList_iff_getElem?_eq_some.1 hes]
    exact List.mem_reverse.1 he
  · rintro ⟨worker, he⟩
    rw [Std.TreeMap.getD_eq_getD_getElem?] at he
    cases hes : o.taken[worker]? with
    | none =>
      rw [hes] at he
      cases he
    | some es =>
      rw [hes] at he
      exact ⟨(worker, es), Std.TreeMap.mem_toList_iff_getElem?_eq_some.2 hes, List.mem_reverse.2 he⟩

theorem Observation.mem_reducedEdges_take {worker : Nat} {x e : Vertex σ × Vertex σ} :
    e ∈ (o.take worker x).reducedEdges ↔ e = x ∨ e ∈ o.reducedEdges := by
  have htake : ∀ i, (o.take worker x).taken.getD i [] =
      if worker = i then x :: o.taken.getD worker [] else o.taken.getD i [] := by
    intro i
    refine Std.TreeMap.getD_insert.trans ?_
    simp only [compare_eq_iff_eq]
  rw [mem_reducedEdges, mem_reducedEdges, ← or_assoc, or_comm (a := e = x), or_assoc]
  refine or_congr_right ⟨?_, ?_⟩
  · rintro ⟨i, he⟩
    rw [htake] at he
    split at he
    · exact (List.mem_cons.1 he).imp_right fun he => ⟨worker, he⟩
    · exact .inr ⟨i, he⟩
  · rintro (rfl | ⟨i, he⟩)
    · refine ⟨worker, ?_⟩
      rw [htake, if_pos rfl]
      exact List.mem_cons_self
    · refine ⟨i, ?_⟩
      rw [htake]
      split
      · rename_i hi
        exact List.mem_cons_of_mem _ (hi.symm ▸ he)
      · exact he

def Observation.note (o : Observation σ) (q : Query) (worker : Nat) (u t : Vertex σ) :
    Observation σ :=
  if q.reduction && (o.mark u.handle).reduced then o.take worker (u, t) else o

theorem Observation.note_spec (o : Observation σ) (q : Query) (worker : Nat) (u t : Vertex σ) :
    (∀ a, (o.note q worker u t).mark a = o.mark a) ∧ (o.note q worker u t).fault = o.fault ∧
      (o.note q worker u t).found = o.found ∧
      ∀ e, e ∈ (o.note q worker u t).reducedEdges ↔ e ∈ o.noting q t (some u) := by
  simp only [note, noting]
  split
  · exact ⟨fun _ => rfl, rfl, rfl, fun _ => mem_reducedEdges_take.trans List.mem_cons.symm⟩
  · exact ⟨fun _ => rfl, rfl, rfl, fun _ => Iff.rfl⟩

/-- The mark of `t` is `m` now, and the edge from `source` is noted if need be. -/
structure Noted (q : Query) (source : Option (Vertex σ)) (t : Vertex σ) (m : LevelMark)
    (o o' : Observation σ) : Prop extends Marked t m o o' where
  edges : ∀ e, e ∈ o'.reducedEdges ↔ e ∈ o.noting q t source

/-- What the listener answers for a seed or an edge. -/
inductive Reply (sys : System σ) (q : Query) (source : Option (Vertex σ)) (t : Vertex σ)
    (flags : EdgeFlags) (o : Observation σ) : Step × Observation σ → Prop where
  | error {worker : Nat} {u : Vertex σ} {l : Nat} (hs : source = some u)
    (hl : (o.mark u.handle).level? = some l) (hb : l + flags.contextSwitch.toNat ≤ q.bound)
    (hp : q.property = .goal) (herr : flags.error = true) :
    Reply sys q source t flags o (.stop, (o.report worker ⟨.errorEdge, t, some u⟩).2)
  | goal {m : LevelMark} {l : Nat} {o' : Observation σ}
    (hm : Offered q o t flags.contextSwitch source m) (ho : Noted q source t m o o')
    (hl : m.level? = some l) (hle : l ≤ q.level) (hp : q.property = .goal)
    (hg : sys.goal t.state = true) (hf : o.Reports ⟨.goal, t, none⟩ o') :
    Reply sys q source t flags o (.stop, o')
  | expand {m : LevelMark} {l : Nat} {o' : Observation σ}
    (hm : Offered q o t flags.contextSwitch source m) (hw : m.progress = .waiting l)
    (hle : l ≤ q.level) (ho : Noted q source t { m with progress := .expanded l } o o')
    (hf : o'.found = o.found) (hg : q.property = .goal → sys.goal t.state = false) :
    Reply sys q source t flags o (.expand, o')
  | skip {m : LevelMark} {o' : Observation σ}
    (hm : Offered q o t flags.contextSwitch source m) (ho : Noted q source t m o o')
    (hs : m.isExpanded = true ∨ ∃ l, m.progress = .waiting l ∧ q.level < l)
    (hf : o'.found = o.found) : Reply sys q source t flags o (.skip, o')

section reply
variable {flags : EdgeFlags} {worker : Nat} {isNew : Bool} {r : Step × Observation σ}

theorem entry_reply (hm : Offered q o t flags.contextSwitch source m)
    (ho : Noted q source t m o o₁) (hf : o₁.found = o.found) {l : Nat} (hl : m.level? = some l)
    (hle : l ≤ q.level) (flags' : EdgeFlags)
    (h : (listener sys q).edge worker source t flags isNew o =
      if (violationOf sys q.property t.state flags' false).isSome then
        o₁.report worker ⟨.goal, t, none⟩
      else (.process, o₁)) :
    Reply sys q source t flags o ((listener sys q).follow worker source t flags isNew o) := by
  by_cases hv : (violationOf sys q.property t.state flags' false).isSome = true
  · rw [if_pos hv] at h
    rw [follow_terminate h]
    obtain ⟨hp, hg⟩ := (violationOf_isSome t.state flags').1 hv
    exact .goal hm ⟨⟨ho.mark, ho.fault⟩, ho.edges⟩ hl hle hp hg
      (Observation.reports_report hf worker _)
  · rw [if_neg hv] at h
    rw [follow_process h, expandState]
    simp only [ho.self]
    rcases LevelMark.level?_eq_some.1 hl with hw | hx
    · simp only [hw]
      exact .expand hm hw hle ⟨ho.self ▸ ho.toMarked.expanded l, ho.edges⟩ hf fun hp =>
        Bool.eq_false_iff.2 fun hg => hv ((violationOf_isSome t.state flags').2 ⟨hp, hg⟩)
    · simp only [hx]
      exact .skip hm ho (.inl (LevelMark.isExpanded_iff.2 ⟨l, hx⟩)) hf

/-- A state that a round may be seeded with: an initial one, or one of the levels so far. -/
def Seedable (sys : System σ) (q : Query) (o : Observation σ) (t : Vertex σ) : Prop :=
  q.level = 0 ∧ t.state ∈ sys.initials ∨ ∃ l ≤ q.level, (o.mark t.handle).level? = some l

theorem seed_reply (hs : Seedable sys q o t)
    (hexp : ∀ l, (o.mark t.handle).progress = .expanded l → l ≤ q.level) :
    Reply sys q none t flags o ((listener sys q).follow worker none t flags isNew o) := by
  by_cases h0 : q.level = 0
  · have hnoted : Noted q none t (o.mark t.handle).asInitial o
        (o.setMark t.handle (o.mark t.handle).asInitial) :=
      ⟨⟨fun a => mark_setMark o _ _ _, rfl⟩, fun _ => Iff.rfl⟩
    have hlevel : ∃ l ≤ q.level, (o.mark t.handle).asInitial.level? = some l := by
      have hp := asInitial_progress (o.mark t.handle)
      cases he : (o.mark t.handle).isExpanded with
      | true =>
        obtain ⟨l, hl⟩ := LevelMark.isExpanded_iff.1 he
        rw [he, if_pos rfl, hl] at hp
        exact ⟨l, hexp l hl, LevelMark.level?_eq_some.2 (.inr hp)⟩
      | false =>
        rw [he, if_neg Bool.false_ne_true] at hp
        exact ⟨0, Nat.zero_le _, LevelMark.level?_eq_some.2 (.inl hp)⟩
    obtain ⟨l, hle, hl⟩ := hlevel
    refine entry_reply (.initial h0) hnoted rfl hl hle {} ?_
    simp only [listener, seed, if_pos h0]
  · obtain ⟨l, hle, hl⟩ := hs.resolve_left fun hx => h0 hx.1
    refine entry_reply (.seed h0) ⟨Marked.refl o t, fun _ => Iff.rfl⟩ rfl hl hle {} ?_
    simp only [listener, seed, if_neg h0]

theorem edge_reply {u : Vertex σ} {l : Nat} (hl : (o.mark u.handle).level? = some l) :
    Reply sys q (some u) t flags o ((listener sys q).follow worker (some u) t flags isNew o) := by
  have hcall : (listener sys q).edge worker (some u) t flags isNew o =
      if l + flags.contextSwitch.toNat ≤ q.bound ∧
        violationOf sys q.property t.state flags true = some .errorEdge then
        o.report worker ⟨.errorEdge, t, some u⟩
      else reach sys q worker u l t flags (o.note q worker u t) := by
    simp only [listener, edge, hl, Observation.note]
  by_cases herr : l + flags.contextSwitch.toNat ≤ q.bound ∧
      violationOf sys q.property t.state flags true = some .errorEdge
  · rw [if_pos herr] at hcall
    rw [follow_terminate hcall]
    obtain ⟨hp, hflag⟩ := (violationOf_errorEdge t.state flags).1 herr.2
    exact .error rfl hl herr.1 hp hflag
  · rw [if_neg herr, reach] at hcall
    -- the edge is noted before the marks are looked at, and changes none of them
    obtain ⟨hmark, hfault, hfound, hedges⟩ := o.note_spec q worker u t
    rw [hmark] at hcall
    generalize o.note q worker u t = o₁ at *
    cases he : (o.mark t.handle).isExpanded with
    | true =>
      simp only [he, if_true] at hcall
      rw [follow_ignore hcall]
      refine .skip (.expanded he) ⟨⟨fun a => ?_, hfault⟩, hedges⟩ (.inl he) hfound
      rw [hmark]
      exact (Marked.refl o t).mark a
    | false =>
      have hoffer : Offered q o t flags.contextSwitch (some u)
          ((o.mark t.handle).relaxed l flags.contextSwitch u.handle) := .edge hl he
      obtain ⟨k, hp, -⟩ :=
        LevelMark.relaxed_progress he l flags.contextSwitch u.handle
      simp only [he, Bool.false_eq_true, if_false] at hcall
      change _ = if ((o.mark t.handle).relaxed l flags.contextSwitch u.handle).level?.any _ then
        (_, Observation.setMark _ _ ((o.mark t.handle).relaxed l flags.contextSwitch u.handle))
        else if _ then Observation.report (Observation.setMark _ _
          ((o.mark t.handle).relaxed l flags.contextSwitch u.handle)) _ _ else
          (_, Observation.setMark _ _
            ((o.mark t.handle).relaxed l flags.contextSwitch u.handle)) at hcall
      generalize (o.mark t.handle).relaxed l flags.contextSwitch u.handle = m at *
      have hnoted : Noted q (some u) t m o (o₁.setMark t.handle m) := by
        refine ⟨⟨fun a => ?_, hfault⟩, hedges⟩
        rw [mark_setMark, hmark]
      have hlevel := LevelMark.level?_eq_some.2 (.inl hp)
      simp only [hlevel, Option.any_some, decide_eq_true_eq] at hcall
      by_cases hlt : q.level < k
      · rw [if_pos hlt] at hcall
        rw [follow_ignore hcall]
        exact .skip hoffer hnoted (.inr ⟨k, hp, hlt⟩) hfound
      · rw [if_neg hlt] at hcall
        exact entry_reply hoffer hnoted hfound hlevel (Nat.le_of_not_lt hlt) flags hcall

/-- What an answer does to the mark of the target. -/
theorem Reply.marks (h : Reply sys q source t flags o r)
    (hexp : ∀ l, (o.mark t.handle).progress = .expanded l → l ≤ q.level) :
    ∃ m, Marked t m o r.2 ∧ LevelMark.Evolves (o.mark t.handle) m ∧
      m.reduced = (o.mark t.handle).reduced ∧ (∀ l, m.progress = .expanded l → l ≤ q.level) ∧
      (r.1 = .expand ∧ (o.mark t.handle).isExpanded = false ∧ m.isExpanded = true ∨
        r.1 ≠ .expand ∧ m.isExpanded = (o.mark t.handle).isExpanded) := by
  -- an offer leaves an expanded state at its level
  have hlevel : ∀ {m}, Offered q o t flags.contextSwitch source m →
      ∀ l, m.progress = .expanded l → l ≤ q.level := by
    intro m hm l hl
    have he := hm.isExpanded.symm.trans (LevelMark.isExpanded_iff.2 ⟨l, hl⟩)
    exact hexp l ((hm.evolves.keeps he).symm.trans hl)
  cases h with
  | error =>
    exact ⟨_, ⟨(Marked.refl o t).mark, rfl⟩, .refl _, rfl, hexp, .inr ⟨nofun, rfl⟩⟩
  | goal hm ho =>
    exact ⟨_, ho.toMarked, hm.evolves, hm.reduced, hlevel hm, .inr ⟨nofun, hm.isExpanded⟩⟩
  | skip hm ho =>
    exact ⟨_, ho.toMarked, hm.evolves, hm.reduced, hlevel hm, .inr ⟨nofun, hm.isExpanded⟩⟩
  | @expand m l o' hm hw hle ho =>
    have he : (o.mark t.handle).isExpanded = false :=
      hm.isExpanded.symm.trans (LevelMark.isExpanded_eq_false_of_waiting hw)
    refine ⟨_, ho.toMarked, ?_, hm.reduced, fun k hk => ?_, .inl ⟨rfl, he, rfl⟩⟩
    · refine LevelMark.evolves_of_waiting hm.evolves.full hm.reduced he rfl fun k hk => ?_
      obtain ⟨j, hj, hmj⟩ := hm.evolves.lowers k hk
      cases hmj.symm.trans (LevelMark.level?_eq_some.2 (.inl hw))
      exact hj
    · cases hk
      exact hle

theorem Reply.noted (h : Reply sys q source t flags o r) (hgo : r.1 ≠ .stop) :
    (∀ e, e ∈ r.2.reducedEdges ↔ e ∈ o.noting q t source) ∧ ∃ l, (r.2.mark t.handle).level? = some l := by
  cases h with
  | error => exact absurd rfl hgo
  | goal => exact absurd rfl hgo
  | expand _ _ _ ho => exact ⟨ho.edges, _, by rw [ho.self]; rfl⟩
  | skip _ ho hs =>
    refine ⟨ho.edges, ?_⟩
    rw [ho.self]
    rcases hs with he | ⟨l, hl, -⟩
    · obtain ⟨l, hl⟩ := LevelMark.isExpanded_iff.1 he
      exact ⟨l, LevelMark.level?_eq_some.2 (.inr hl)⟩
    · exact ⟨l, LevelMark.level?_eq_some.2 (.inl hl)⟩

theorem mem_noting {e : Vertex σ × Vertex σ} (h : e ∈ o.noting q t source) :
    e ∈ o.reducedEdges ∨ ∃ u, source = some u ∧ e = (u, t) := by
  cases source with
  | none => exact .inl h
  | some u =>
    simp only [Observation.noting] at h
    split at h
    · exact (List.mem_cons.1 h).symm.imp_right fun he => ⟨u, rfl, he⟩
    · exact .inl h

theorem Reply.mem_edges (h : Reply sys q source t flags o r) {e : Vertex σ × Vertex σ}
    (he : e ∈ r.2.reducedEdges) : e ∈ o.reducedEdges ∨ ∃ u, source = some u ∧ e = (u, t) := by
  cases h with
  | error => exact .inl he
  | goal _ ho => exact mem_noting ((ho.edges e).1 he)
  | expand _ _ _ ho => exact mem_noting ((ho.edges e).1 he)
  | skip _ ho => exact mem_noting ((ho.edges e).1 he)

theorem Reply.found_isSome (h : Reply sys q source t flags o r) :
    r.2.found.isSome = (o.found.isSome || decide (r.1 = .stop)) := by
  cases h with
  | error =>
    rw [(Observation.reports_report rfl _ _).isSome]
    exact (Bool.or_true _).symm
  | goal _ _ _ _ _ _ hf =>
    rw [hf.isSome]
    exact (Bool.or_true _).symm
  | expand _ _ _ _ hf =>
    rw [hf]
    exact (Bool.or_false _).symm
  | skip _ _ _ hf =>
    rw [hf]
    exact (Bool.or_false _).symm

end reply

/-- The successors that a state with the mark `m` was expanded with. -/
def expansion (sys : System σ) (m : LevelMark) (s : σ) : List (Successor σ) :=
  if m.reduced then (sys.ample s).getD [] else sys.successors s

/-- A state is reduced only if there is an ample set and it does not have to be expanded fully. -/
def Reducible (sys : System σ) (q : Query) (s : σ) (m : LevelMark) : Prop :=
  m.reduced = true → m.isExpanded = true ∧ q.reduction = true ∧ m.full = false ∧
    ∃ a rest, sys.ample s = some (a :: rest)

theorem listener_mem_successors (hx : sys.Explicit) (i : Nat) (s : Store σ) (v : Vertex σ)
    (o : Observation σ) :
    ∀ n ∈ ((listener sys q).successors i s v o).1, n ∈ sys.successors v.state := by
  intro n hn
  change n ∈ (successors sys q v o).1 at hn
  unfold successors at hn
  dsimp only at hn
  split at hn
  · split at hn
    · rename_i ha
      exact hx.mem_of_mem_ample _ _ ha n hn
    · exact hn
  · exact hn

theorem listener_length_successors (hx : sys.Explicit) (i : Nat) (s : Store σ) (v : Vertex σ)
    (o : Observation σ) : ((listener sys q).successors i s v o).1.length ≤ sys.degree := by
  change (successors sys q v o).1.length ≤ _
  unfold successors
  dsimp only
  split
  · split
    · rename_i ha
      exact hx.length_ample_le _ _ ha
    · exact hx.length_successors_le _
  · exact hx.length_successors_le _

/-- A state gets the mark `m` when it is expanded, which tells what with. -/
structure Unfolds (sys : System σ) (q : Query) (v : Vertex σ) (o : Observation σ) (m : LevelMark)
    (r : List (Successor σ) × Observation σ) : Prop extends Marked v m o r.2 where
  next : r.1 = expansion sys m v.state
  found : r.2.found = o.found
  edges : r.2.reducedEdges = o.reducedEdges
  evolves : LevelMark.Evolves (o.mark v.handle) m
  progress : m.progress = (o.mark v.handle).progress
  parent : m.parent = (o.mark v.handle).parent
  parentLevel : m.parentLevel = (o.mark v.handle).parentLevel
  reducible : Reducible sys q v.state m
  reduces : q.reduction = true → m.full = false → m.reduced = false →
    ∀ a rest, sys.ample v.state ≠ some (a :: rest)

/-- A state is expanded with its ample set, and reduced from then on, or with all its
successors. -/
theorem successors_unfolds (hr : Reducible sys q v.state (o.mark v.handle))
    (he : (o.mark v.handle).isExpanded = true) :
    ∃ m, Unfolds sys q v o m (successors sys q v o) := by
  -- where the ample set is not taken, the state is not reduced
  have hsame : (o.mark v.handle).reduced = false →
      (q.reduction = true → (o.mark v.handle).full = false →
        ∀ a rest, sys.ample v.state ≠ some (a :: rest)) →
      Unfolds sys q v o (o.mark v.handle) (sys.successors v.state, o) := by
    intro hnot hno
    refine ⟨Marked.refl o v, ?_, rfl, rfl, .refl _, rfl, rfl, rfl, hr, fun hq hf _ => hno hq hf⟩
    rw [expansion, hnot, if_neg Bool.false_ne_true]
  unfold successors
  dsimp only
  split
  · rename_i hq
    obtain ⟨hq, hf⟩ := Bool.and_eq_true_iff.1 hq
    rw [Bool.not_eq_true'] at hf
    split
    · rename_i a rest ha
      refine ⟨{ o.mark v.handle with reduced := true }, ⟨fun b => mark_setMark o _ _ _, rfl⟩, ?_,
        rfl, rfl, ⟨rfl, fun _ => rfl, fun _ => rfl, fun k hk => ⟨k, Nat.le_refl k, hk⟩⟩, rfl, rfl,
        rfl, fun _ => ⟨he, hq, hf, a, rest, ha⟩, nofun⟩
      rw [expansion, if_pos rfl, ha, Option.getD_some]
    · rename_i hno
      refine ⟨_, hsame (Bool.eq_false_iff.2 fun hx => ?_) fun _ _ => hno⟩
      obtain ⟨-, -, -, a, rest, ha⟩ := hr hx
      exact hno a rest ha
  · rename_i hq
    have hnot : q.reduction = true → (o.mark v.handle).full = false → False := by
      intro hr hf
      rw [hr, hf] at hq
      exact hq rfl
    refine ⟨_, hsame (Bool.eq_false_iff.2 fun hx => ?_) fun hr hf => (hnot hr hf).elim⟩
    obtain ⟨-, hr, hf, -⟩ := hr hx
    exact hnot hr hf

theorem Unfolds.successors_eq_nil {r : List (Successor σ) × Observation σ}
    (h : Unfolds sys q v o m r) (hnil : r.1 = []) : sys.successors v.state = [] := by
  have hnext := h.next
  rw [hnil, expansion] at hnext
  split at hnext
  · rename_i hred
    obtain ⟨-, -, -, a, rest, ha⟩ := h.reducible hred
    rw [ha] at hnext
    cases hnext
  · exact hnext.symm

theorem expand_cases (hr : Reducible sys q v.state (o.mark v.handle))
    (he : (o.mark v.handle).isExpanded = true) (worker : Nat) (store : Store σ) :
    ∃ m r, Unfolds sys q v o m r ∧
      (q.property = .deadlock ∧ sys.successors v.state = [] ∧
        ((listener sys q).expand worker store v {} o).1 = none ∧
        ((listener sys q).expand worker store v {} o).2.2 =
          (r.2.report worker ⟨.deadlock, v, none⟩).2 ∨
      ((listener sys q).expand worker store v {} o).1 = some r.1 ∧
        ((listener sys q).expand worker store v {} o).2.2 = r.2) := by
  obtain ⟨m, hm⟩ := successors_unfolds hr he
  refine ⟨m, _, hm, ?_⟩
  unfold Listener.expand
  rw [show (listener sys q).successors worker store v o = successors sys q v o from rfl]
  have hdead := hm.successors_eq_nil
  generalize successors sys q v o = r at *
  obtain ⟨next, o'⟩ := r
  cases next with
  | nil =>
    by_cases hp : q.property = .deadlock
    · simp [listener, hp, hdead rfl, Observation.report]
    · simp [listener, hp]
  | cons n rest => simp

end Bounded

end ModelChecker
