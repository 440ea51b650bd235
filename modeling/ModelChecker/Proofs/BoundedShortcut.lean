import ModelChecker.Proofs.BoundedReport
import ModelChecker.Proofs.BoundedSettle

namespace ModelChecker

namespace Graph

variable {g : Graph} {ig : IndexedGraph} {m : Bounded.State Node}

/-- The nodes that can be reached along edges of some kind, with the context switches on the way. -/
inductive Along (g : Graph) (P : Edge → Prop) : Nat → Node → Prop where
  | initial {s : Node} (h : s ∈ g.initial) : Along g P 0 s
  | step {n : Nat} {e : Edge} (h : Along g P n e.source) (he : P e) :
    Along g P (n + e.flags.contextSwitch.toNat) e.target

theorem Along.mono {P Q : Edge → Prop} {n : Nat} {s : Node} (h : g.Along P n s)
    (himp : ∀ e, P e → Q e) : g.Along Q n s := by
  induction h with
  | initial hs => exact .initial hs
  | step _ he ih => exact .step ih (himp _ he)

/-- The search that ended in `m` took this edge when it last expanded its source: the source is not
reduced, or its ample set names the target. -/
def TakesEdge (g : Graph) (m : Bounded.State Node) (e : Edge) : Prop :=
  e ∈ g.edges ∧ ∃ v ∈ m.store.vertices, v.state = e.source ∧
    (m.observation.mark v.handle).isExpanded = true ∧
    ((m.observation.mark v.handle).reduced = true →
      ∃ targets, (e.source, targets) ∈ g.ample.entries ∧ e.target ∈ targets)

/-- The target of the edge has a higher level than the edge implies. -/
def Shortcut (m : Bounded.State Node) (e : Edge) : Prop :=
  ∃ u ∈ m.store.vertices, u.state = e.source ∧ ∃ t ∈ m.store.vertices, t.state = e.target ∧
    ∃ k l, (m.observation.mark u.handle).level? = some k ∧
      (m.observation.mark t.handle).level? = some l ∧ k + e.flags.contextSwitch.toNat < l

theorem mem_expansion (h : g.index = .ok ig) {mark : LevelMark} {s : Node} {n : Successor Node} :
    n ∈ Bounded.expansion ig.system mark s ↔
      ∃ e ∈ g.edges, e.source = s ∧ (e.target, e.flags) = n ∧ (mark.reduced = true →
        ∃ targets, (e.source, targets) ∈ g.ample.entries ∧ e.target ∈ targets) := by
  unfold Bounded.expansion
  cases mark.reduced with
  | true =>
    rw [if_pos rfl, mem_index_ample h, mem_index_successors h]
    constructor
    · rintro ⟨⟨e, he, rfl, rfl⟩, hample⟩
      exact ⟨e, he, rfl, rfl, fun _ => hample⟩
    · rintro ⟨e, he, rfl, rfl, hample⟩
      exact ⟨⟨e, he, rfl, rfl⟩, hample rfl⟩
  | false =>
    rw [if_neg Bool.false_ne_true, mem_index_successors h]
    constructor
    · rintro ⟨e, he, hs, hn⟩
      exact ⟨e, he, hs, hn, nofun⟩
    · rintro ⟨e, he, hs, hn, -⟩
      exact ⟨e, he, hs, hn⟩

theorem TakesEdge.expansion (h : g.index = .ok ig) {e : Edge} (ht : g.TakesEdge m e) :
    ∃ v ∈ m.store.vertices, v.state = e.source ∧
      (m.observation.mark v.handle).isExpanded = true ∧
      (e.target, e.flags) ∈ Bounded.expansion ig.system (m.observation.mark v.handle) v.state := by
  obtain ⟨he, v, hv, hvs, hexp, hample⟩ := ht
  exact ⟨v, hv, hvs, hexp, (mem_expansion h).2 ⟨e, he, hvs.symm, rfl, hample⟩⟩

section rested
variable {q : Bounded.Query} {base : Nat} (h : g.index = .ok ig)
  (hr : Bounded.Rested ig.system q base [] m)
include h hr

theorem level_of_along {n : Nat} {s : Node} (hs : g.Along (g.TakesEdge m) n s) :
    ∃ v ∈ m.store.vertices, v.state = s ∧ ∃ l, (m.observation.mark v.handle).level? = some l := by
  cases hs with
  | initial hs =>
    rw [← index_initials h] at hs
    obtain ⟨v, hv, hvs, hl⟩ := hr.initial_level hs
    exact ⟨v, hv, hvs, 0, hl⟩
  | step _ he =>
    obtain ⟨v, hv, -, hexp, hn⟩ := he.expansion h
    obtain ⟨k, hk⟩ := LevelMark.isExpanded_iff.1 hexp
    obtain ⟨t, ht, hts, l, hl, -⟩ := hr.edges v hv k hk _ hn
    exact ⟨t, ht, hts, l, hl⟩

theorem not_goal_of_level (hp : q.property = .goal) {v : Vertex Node} (hv : v ∈ m.store.vertices)
    {l : Nat} (hl : (m.observation.mark v.handle).level? = some l)
    (hno : ∀ k, (m.observation.mark v.handle).progress ≠ .waiting k) : v.state ∉ g.goals := by
  intro hmem
  have hexp : (m.observation.mark v.handle).isExpanded = true :=
    LevelMark.isExpanded_iff.2 ⟨l, (LevelMark.level?_eq_some.1 hl).resolve_left (hno l)⟩
  have hfalse := hr.goal v hv hexp hp
  rw [(index_goal h _).2 hmem] at hfalse
  cases hfalse

theorem along_of_route {n : Nat} {s : Node}
    (hs : Bounded.Route ig.system q.reduction m.store m.observation n s) :
    g.Along (g.TakesEdge m) n s := by
  induction hs with
  | initial hs => exact .initial (index_initials h ▸ hs)
  | @step n u e _ hu hres he ih =>
    have hexp : (m.observation.mark u.handle).isExpanded = true := by
      rcases hres with hfull | ⟨hexp, -⟩
      · obtain ⟨l, hl, hlevel⟩ := hr.attained.full u hu hfull
        rcases LevelMark.level?_eq_some.1 hlevel with hw | hx
        · exact absurd (hr.pending u hu l hw hl) List.not_mem_nil
        · exact LevelMark.isExpanded_iff.2 ⟨l, hx⟩
      · exact hexp
    obtain ⟨d, hd, hds, rfl, hample⟩ := (mem_expansion h).1 he
    exact .step (hds ▸ ih) ⟨hd, u, hu, hds.symm, hexp, hample⟩

variable (hc : m.store.Canonical ig.system)
include hc

theorem level_le_of_along {n : Nat} {s : Node}
    (hs : g.Along (fun e => g.TakesEdge m e ∧ ¬ Shortcut m e) n s) :
    ∃ v ∈ m.store.vertices, v.state = s ∧
      ∃ l ≤ n, (m.observation.mark v.handle).level? = some l := by
  induction hs with
  | initial hs =>
    rw [← index_initials h] at hs
    obtain ⟨v, hv, hvs, hl⟩ := hr.initial_level hs
    exact ⟨v, hv, hvs, 0, Nat.le_refl 0, hl⟩
  | @step n e _ he ih =>
    obtain ⟨u, hu, hus, k, hk, huk⟩ := ih
    obtain ⟨v, hv, hvs, hexp, hn⟩ := he.1.expansion h
    obtain rfl := hc.eq_of_state hv hu (hvs.trans hus.symm)
    obtain ⟨j, hj⟩ := LevelMark.isExpanded_iff.1 hexp
    cases huk.symm.trans (LevelMark.level?_eq_of_expanded hj)
    obtain ⟨t, ht, hts, l, hl, -⟩ := hr.edges v hv k hj _ hn
    refine ⟨t, ht, hts, l, ?_, hl⟩
    have hle : l ≤ k + e.flags.contextSwitch.toNat := Nat.le_of_not_lt fun hlt =>
      he.2 ⟨v, hv, hvs, t, ht, hts, k, l, huk, hl, hlt⟩
    omega

theorem Shortcut.follows {e : Edge} (hs : Shortcut m e) (he : g.TakesEdge m e) :
    ∃ w ∈ m.store.vertices, (m.observation.mark w.handle).full = true ∧
      Relation.ReflTransGen g.Joins w.state e.source := by
  obtain ⟨u, hu, hus, t, ht, hts, k, l, hk, hl, hlt⟩ := hs
  obtain ⟨v, hv, hvs, hexp, hn⟩ := he.expansion h
  obtain rfl := hc.eq_of_state hv hu (hvs.trans hus.symm)
  obtain ⟨j, hj⟩ := LevelMark.isExpanded_iff.1 hexp
  cases hk.symm.trans (LevelMark.level?_eq_of_expanded hj)
  obtain ⟨t', ht', hts', l', hl', hfollows⟩ := hr.edges v hv k hj _ hn
  obtain rfl := hc.eq_of_state ht' ht (hts'.trans hts.symm)
  cases hl.symm.trans hl'
  obtain ⟨w, hw, hfull, hpath⟩ := hfollows hlt
  rw [index_joins h, hvs] at hpath
  exact ⟨w, hw, hfull, hpath⟩

theorem isLeast_level_iff :
    (∀ e, g.TakesEdge m e → ¬ Shortcut m e) ↔
      ∀ v ∈ m.store.vertices, ∀ l, (m.observation.mark v.handle).level? = some l →
        IsLeast {n | g.Along (g.TakesEdge m) n v.state} l := by
  constructor
  · intro hno v hv l hl
    have hle : ∀ n, g.Along (g.TakesEdge m) n v.state → l ≤ n := by
      intro n hn
      obtain ⟨u, hu, huv, k, hk, huk⟩ := level_le_of_along h hr hc
        (hn.mono fun e he => ⟨he, hno e he⟩)
      obtain rfl := hc.eq_of_state hu hv huv
      cases hl.symm.trans huk
      exact hk
    obtain ⟨n, hn, hroute⟩ := hr.attained.levels v hv l hl
    have halong := along_of_route h hr hroute
    exact ⟨(Nat.le_antisymm hn (hle n halong)) ▸ halong, hle⟩
  · rintro hleast e he ⟨u, hu, hus, t, ht, hts, k, l, hk, hl, hlt⟩
    have hsource : g.Along (g.TakesEdge m) k e.source := hus ▸ (hleast u hu k hk).1
    have htarget : g.Along (g.TakesEdge m) (k + e.flags.contextSwitch.toNat) t.state :=
      hts ▸ .step hsource he
    exact Nat.not_le.2 hlt ((hleast t ht l hl).2 htarget)

end rested

/-- What a report without a violation tells of the state in which the search ended. -/
theorem explore_of_verdict {σ : Type} {sys : System σ} {c : SearchConfig} {bound : UInt32}
    {timetable : Bounded.Timetable} {report : SafetyReport σ}
    (hrun : boundedSearch sys c bound timetable = .ok report)
    (hv : report.verdict = .holds ∨ report.verdict = .boundExhausted) :
    ∃ all m, Bounded.explore sys c bound.toNat timetable = .ok (all, m) ∧
      m.observation.found = none ∧
      (report.verdict = .holds → all = true ∨ m.isBeyond bound.toNat = false) := by
  unfold boundedSearch at hrun
  cases hexplore : Bounded.explore sys c bound.toNat timetable with
  | error e =>
    rw [hexplore] at hrun
    cases hrun
  | ok p =>
    obtain ⟨all, m⟩ := p
    refine ⟨all, m, rfl, ?_⟩
    rw [hexplore] at hrun
    simp only [bind, Except.bind, Bounded.conclude] at hrun
    cases hf : m.observation.found with
    | some x =>
      simp only [hf] at hrun
      cases htrace : x.trace m.store fun a => (m.observation.mark a).parent with
      | error e =>
        rw [htrace] at hrun
        cases hrun
      | ok trace =>
        rw [htrace] at hrun
        cases hrun
        rcases hv with hv | hv <;> cases hv
    | none =>
      simp only [hf] at hrun
      cases hrun
      refine ⟨rfl, fun hholds => ?_⟩
      dsimp only at hholds
      cases all with
      | true => exact .inl rfl
      | false =>
        refine .inr (Bool.eq_false_iff.2 fun hbeyond => ?_)
        rw [hbeyond] at hholds
        split at hholds <;> cases hholds

/-- If a search with reduction reports no violation, no goal is reached within the bound along edges
that it took and that are no shortcuts, and none along any edges that it took if it reports that the
property holds. A shortcut starts at a state that was opened again, or at one that can be reached
from such a state. The levels are the least numbers of switches along the edges taken if and only if
none of these edges is a shortcut. If the store is partitioned, it has at most 2^32 partitions, as
many as handles can tell apart. -/
theorem boundedSearch_taken (h : g.index = .ok ig) (c : SearchConfig) (bound : UInt32)
    (timetable : Bounded.Timetable) (hfair : timetable.Fair c.workerCount)
    (hp : c.property = .goal) (hq : c.reduction = true)
    (hw : c.partitioned = true → c.workerCount ≤ UInt32.size) (hb : bound.toNat ≤ 2 ^ 31 - 3)
    {report : SafetyReport Node} (hrun : boundedSearch ig.system c bound timetable = .ok report)
    (hv : report.verdict = .holds ∨ report.verdict = .boundExhausted) :
    ∃ all m, Bounded.explore ig.system c bound.toNat timetable = .ok (all, m) ∧
      (∀ n ≤ bound.toNat, ∀ s, g.Along (fun e => g.TakesEdge m e ∧ ¬ Shortcut m e) n s →
        s ∉ g.goals) ∧
      (report.verdict = .holds → ∀ n s, g.Along (g.TakesEdge m) n s → s ∉ g.goals) ∧
      (∀ e, g.TakesEdge m e → Shortcut m e →
        ∃ w ∈ m.store.vertices, (m.observation.mark w.handle).full = true ∧
          Relation.ReflTransGen g.Joins w.state e.source) ∧
      ((∀ e, g.TakesEdge m e → ¬ Shortcut m e) ↔
        ∀ v ∈ m.store.vertices, ∀ l, (m.observation.mark v.handle).level? = some l →
          IsLeast {n | g.Along (g.TakesEdge m) n v.state} l) := by
  have hmax : bound.toNat < maxLevel := by
    unfold maxLevel
    omega
  obtain ⟨all, m, hexplore, hfound, hholds⟩ := explore_of_verdict hrun hv
  obtain ⟨last, base, hbetween, hrested, hwaits⟩ := Bounded.explore_rested (index_explicit h)
    (index_spread h) hfair hq hmax hw hexplore hfound
  refine ⟨all, m, hexplore, fun n hn s hs => ?_, fun hverdict n s hs => ?_,
    fun e he hs => hs.follows h hrested hbetween.canonical he,
    isLeast_level_iff h hrested hbetween.canonical⟩
  · obtain ⟨v, hv, rfl, l, hl, hlevel⟩ := level_le_of_along h hrested hbetween.canonical hs
    refine not_goal_of_level h hrested hp hv hlevel fun k hk => ?_
    cases hlevel.symm.trans (LevelMark.level?_eq_some.2 (.inl hk))
    have := (hwaits v hv l hk).2
    omega
  · obtain ⟨v, hv, rfl, l, hl⟩ := level_of_along h hrested hs
    refine not_goal_of_level h hrested hp hv hl fun k hk => ?_
    obtain ⟨hall, hlt⟩ := hwaits v hv k hk
    rcases hholds hverdict with ht | hbeyond
    · cases hall.symm.trans ht
    · have hany : m.isBeyond bound.toNat = true := by
        refine List.any_eq_true.2 ⟨v, hv, ?_⟩
        rw [LevelMark.level?_eq_some.2 (.inl hk)]
        exact decide_eq_true hlt
      cases hbeyond.symm.trans hany

/-- The ample sets close the loop of 0 and 1 while level 1 is explored, so 0 is opened again, and its
edge to 2 finds 2 expanded at level 1. -/
def shortcutLoop : Graph :=
  { initial := [0],
    edges := [{ source := 0, target := 1, flags := { contextSwitch := true } },
      { source := 0, target := 2 }, { source := 1, target := 0 }, { source := 1, target := 2 },
      { source := 2, target := 3, flags := { contextSwitch := true } }],
    goals := [3],
    ample := (AmpleSets.empty.insert 0 [1]).insert 1 [0, 2] }

/-- The search of `shortcutLoop` up to level 1 takes the edges on the way to 3, one by a shortcut. -/
theorem shortcutLoop_explore :
    ∃ ig all m report, shortcutLoop.index = .ok ig ∧
      Bounded.explore ig.system { property := .goal, reduction := true } 1 = .ok (all, m) ∧
      boundedSearch ig.system { property := .goal, reduction := true } 1 = .ok report ∧
      report.verdict = .boundExhausted ∧
      shortcutLoop.TakesEdge m { source := 0, target := 2 } ∧
      shortcutLoop.TakesEdge m { source := 2, target := 3, flags := { contextSwitch := true } } ∧
      Shortcut m { source := 0, target := 2 } := by
  obtain ⟨ig, h⟩ : ∃ ig, shortcutLoop.index = .ok ig := ⟨_, rfl⟩
  have hrun : shortcutLoop.index.toOption.map (fun ig =>
      boundedSearch ig.system { property := .goal, reduction := true } 1) =
      some (.ok ⟨.boundExhausted, { states := 4, edges := 6 }, 4⟩) := by decide +kernel
  have hmarks : shortcutLoop.index.toOption.any (fun ig =>
      (Bounded.explore ig.system { property := .goal, reduction := true } 1).toOption.any fun p =>
        (∃ v ∈ p.2.store.vertices, v.state = 0 ∧ (p.2.observation.mark v.handle).reduced = false ∧
          (p.2.observation.mark v.handle).progress = .expanded 0) ∧
        ∃ v ∈ p.2.store.vertices, v.state = 2 ∧ (p.2.observation.mark v.handle).reduced = false ∧
          (p.2.observation.mark v.handle).progress = .expanded 1) = true := by decide +kernel
  rw [h] at hrun hmarks
  change (Bounded.explore ig.system { property := .goal, reduction := true } 1).toOption.any _ = true
    at hmarks
  cases hexplore : Bounded.explore ig.system { property := .goal, reduction := true } 1 with
  | error e =>
    rw [hexplore] at hmarks
    cases hmarks
  | ok p =>
    rw [hexplore] at hmarks
    obtain ⟨⟨u, hu, hu0, hur, hue⟩, v, hv, hv2, hvr, hve⟩ := of_decide_eq_true hmarks
    refine ⟨ig, p.1, p.2, _, h, hexplore, Option.some.inj hrun, rfl, ?_, ?_, ?_⟩
    · refine ⟨by decide, u, hu, hu0, LevelMark.isExpanded_iff.2 ⟨0, hue⟩, fun hred => ?_⟩
      cases hur.symm.trans hred
    · refine ⟨by decide, v, hv, hv2, LevelMark.isExpanded_iff.2 ⟨1, hve⟩, fun hred => ?_⟩
      cases hvr.symm.trans hred
    · exact ⟨u, hu, hu0, v, hv, hv2, 0, 1, LevelMark.level?_eq_of_expanded hue,
        LevelMark.level?_eq_of_expanded hve, by decide⟩

/-- The goal 3 lies behind the edges from 0 to 2 and from 2 to 3, which are taken and have one switch
between them, and the search up to level 1 does not find it. -/
theorem goal_along_shortcutLoop :
    ∃ ig all m report, shortcutLoop.index = .ok ig ∧
      Bounded.explore ig.system { property := .goal, reduction := true } 1 = .ok (all, m) ∧
      boundedSearch ig.system { property := .goal, reduction := true } 1 = .ok report ∧
      report.verdict = .boundExhausted ∧
      3 ∈ shortcutLoop.goals ∧ shortcutLoop.Along (shortcutLoop.TakesEdge m) 1 3 := by
  obtain ⟨ig, all, m, report, h, hexplore, hrun, hverdict, hfirst, hsecond, -⟩ :=
    shortcutLoop_explore
  have hzero : shortcutLoop.Along (shortcutLoop.TakesEdge m) 0 0 := .initial (by decide)
  have htwo : shortcutLoop.Along (shortcutLoop.TakesEdge m) 0 2 := .step hzero hfirst
  exact ⟨ig, all, m, report, h, hexplore, hrun, hverdict, by decide, .step htwo hsecond⟩

/-- The edge from 0 to 2 is a shortcut, and 0 is reached from a state that was opened again. Not all
levels are the least numbers of switches. -/
theorem boundedSearch_taken_shortcutLoop :
    ∃ ig all m report, shortcutLoop.index = .ok ig ∧
      Bounded.explore ig.system { property := .goal, reduction := true } 1 = .ok (all, m) ∧
      boundedSearch ig.system { property := .goal, reduction := true } 1 = .ok report ∧
      report.verdict = .boundExhausted ∧
      (∀ n ≤ 1, ∀ s, shortcutLoop.Along
        (fun e => shortcutLoop.TakesEdge m e ∧ ¬ Shortcut m e) n s → s ∉ shortcutLoop.goals) ∧
      Shortcut m { source := 0, target := 2 } ∧
      (∃ w ∈ m.store.vertices, (m.observation.mark w.handle).full = true ∧
        Relation.ReflTransGen shortcutLoop.Joins w.state 0) ∧
      ¬ ∀ v ∈ m.store.vertices, ∀ l, (m.observation.mark v.handle).level? = some l →
        IsLeast {n | shortcutLoop.Along (shortcutLoop.TakesEdge m) n v.state} l := by
  obtain ⟨ig, all, m, report, h, hexplore, hrun, hverdict, htaken, -, hs⟩ := shortcutLoop_explore
  obtain ⟨all', m', hexplore', hgoal, -, hshort, hleast⟩ := boundedSearch_taken h
    { property := .goal, reduction := true } 1 _ (Bounded.Timetable.fair_inTurn _) rfl rfl nofun
    (by decide) hrun (.inr hverdict)
  cases hexplore.symm.trans hexplore'
  exact ⟨ig, all, m, report, h, hexplore, hrun, hverdict, hgoal, hs, hshort _ htaken hs,
    fun hx => hleast.2 hx _ htaken hs⟩

end Graph

end ModelChecker
