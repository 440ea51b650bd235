import ModelChecker.Proofs.BoundedReopen
import ModelChecker.Proofs.ReachabilityVerdict

namespace ModelChecker

namespace Bounded

variable {σ : Type} {sys : System σ} {c : SearchConfig} {q : Query} {m : State σ}

/-- The state was expanded with all its successors. -/
def State.ExpandsFully (m : State σ) (a : σ) : Prop :=
  ∃ v ∈ m.store.vertices, v.state = a ∧ (m.observation.mark v.handle).isExpanded = true ∧
    (m.observation.mark v.handle).reduced = false

/-- The state was expanded, and `b` is a successor that it was last expanded with. -/
def State.Expands (sys : System σ) (m : State σ) (a b : σ) : Prop :=
  ∃ v ∈ m.store.vertices, v.state = a ∧ (m.observation.mark v.handle).isExpanded = true ∧
    ∃ n ∈ expansion sys (m.observation.mark v.handle) a, n.1 = b

theorem Between.link (h : Between sys c q m) {u t : Vertex σ} (hu : u ∈ m.store.vertices)
    (ht : t ∈ m.store.vertices) (hur : (m.observation.mark u.handle).reduced = true)
    (htr : (m.observation.mark t.handle).reduced = true) {n : Successor σ}
    (hn : n ∈ expansion sys (m.observation.mark u.handle) u.state) (hnt : n.1 = t.state) :
    (u.handle, t.handle) ∈ Elimination.byHandle m.observation.cyclicEdges := by
  obtain ⟨he, -⟩ := h.regular.reducible u hu hur
  obtain ⟨t', ht', htn, -, hnote⟩ := h.covered u hu he n hn
  obtain rfl := h.canonical.eq_of_state ht' ht (htn.trans hnt)
  exact List.mem_map.2 ⟨(u, t'), mem_cyclicEdges.2 ⟨hnote hur, htr⟩, rfl⟩

theorem State.Expands.reduced {a b : σ} (h : m.Expands sys a b) (ha : ¬ m.ExpandsFully a) :
    ∃ v ∈ m.store.vertices, v.state = a ∧ (m.observation.mark v.handle).reduced = true ∧
      ∃ n ∈ expansion sys (m.observation.mark v.handle) v.state, n.1 = b := by
  obtain ⟨v, hv, rfl, he, hn⟩ := h
  refine ⟨v, hv, rfl, ?_, hn⟩
  by_contra hred
  exact ha ⟨v, hv, rfl, he, Bool.eq_false_iff.2 hred⟩

theorem Between.walk (h : Between sys c q m) {a b : σ} {path : List σ}
    (hpath : List.IsChain (m.Expands sys) (a :: (path ++ [b])))
    (hred : ∀ s ∈ a :: path, ¬ m.ExpandsFully s) {t : Vertex σ} (ht : t ∈ m.store.vertices)
    (htb : t.state = b) (htr : (m.observation.mark t.handle).reduced = true) :
    ∃ u ∈ m.store.vertices, u.state = a ∧ (m.observation.mark u.handle).reduced = true ∧
      Relation.TransGen (fun a b => (a, b) ∈ Elimination.byHandle m.observation.cyclicEdges)
        u.handle t.handle := by
  induction path generalizing a with
  | nil =>
    obtain ⟨hstep, -⟩ := List.isChain_cons_cons.1 hpath
    obtain ⟨u, hu, hua, hur, n, hn, hnb⟩ := hstep.reduced (hred a List.mem_cons_self)
    exact ⟨u, hu, hua, hur, .single (h.link hu ht hur htr hn (hnb.trans htb.symm))⟩
  | cons s rest ih =>
    obtain ⟨hstep, hrest⟩ := List.isChain_cons_cons.1 hpath
    obtain ⟨v, hv, hvs, hvr, hwalk⟩ := ih hrest fun s hs => hred s (List.mem_cons_of_mem _ hs)
    obtain ⟨u, hu, hua, hur, n, hn, hns⟩ := hstep.reduced (hred a List.mem_cons_self)
    exact ⟨u, hu, hua, hur, .head (h.link hu hv hur hvr hn (hns.trans hvs.symm)) hwalk⟩

theorem Between.cycle_full (h : Between sys c q m) (hacyclic : Acyclic m.observation) {a : σ}
    {path : List σ} (hcycle : List.IsChain (m.Expands sys) (a :: (path ++ [a]))) :
    ∃ s ∈ a :: path, m.ExpandsFully s := by
  by_contra hno
  have hred : ∀ s ∈ a :: path, ¬ m.ExpandsFully s := fun s hs hx => hno ⟨s, hs, hx⟩
  obtain ⟨b, hstep⟩ : ∃ b, m.Expands sys a b := by
    cases path with
    | nil => exact ⟨a, (List.isChain_cons_cons.1 hcycle).1⟩
    | cons s rest => exact ⟨s, (List.isChain_cons_cons.1 hcycle).1⟩
  obtain ⟨t, ht, hta, htr, -⟩ := hstep.reduced (hred a List.mem_cons_self)
  obtain ⟨u, hu, hua, -, hwalk⟩ := h.walk hcycle hred ht hta htr
  obtain rfl := h.canonical.eq_of_state hu ht (hua.trans hta.symm)
  exact hacyclic u.handle hwalk

end Bounded

namespace Graph

variable {g : Graph} {ig : IndexedGraph}

section trace
variable {q : Bounded.Query} {store : Store Node} {o : Bounded.Observation Node}

/-- Parents lead back along a path with no more switches than the level of its last state. -/
theorem takenWith_of_traced (h : g.index = .ok ig) (hs : store.Sound)
    (ht : Bounded.Traced ig.system q store o) {v : Vertex Node} {path : List (Vertex Node)}
    {l : Nat} (ha : Ancestry store (fun a => (o.mark a).parent) v path) (hv : v ∈ store.vertices)
    (hl : (o.mark v.handle).level? = some l) :
    ∃ n ≤ l, g.TakenWith n (path.reverse.map (·.state) ++ [v.state]) := by
  have hlevel : ∀ u ∈ store.vertices, (o.mark u.handle).parent ≠ .unset →
      ∃ k, (o.mark u.handle).level? = some k := by
    intro u hu hp
    cases hk : (o.mark u.handle).level? with
    | none => exact absurd (ht.unset u hu hk) hp
    | some k => exact ⟨k, rfl⟩
  have hroot : ∀ u ∈ store.vertices, (o.mark u.handle).parent = .root →
      u.state ∈ ig.system.initials ∧ ∃ k, (o.mark u.handle).level? = some k ∧ 0 ≤ k := by
    intro u hu hp
    obtain ⟨k, hk⟩ := hlevel u hu (by rw [hp]; exact nofun)
    rcases ht.accounts u hu k hk with ⟨-, hi⟩ | ⟨p, -, hp', -⟩
    · exact ⟨hi, k, hk, Nat.zero_le k⟩
    · cases hp.symm.trans hp'
  have hstep : ∀ u ∈ store.vertices, ∀ p ∈ store.vertices,
      (o.mark u.handle).parent = .vertex p.handle → ∃ x ∈ ig.system.successors p.state,
        x.1 = u.state ∧ ∀ n, (∃ k, (o.mark p.handle).level? = some k ∧ n ≤ k) →
          ∃ k, (o.mark u.handle).level? = some k ∧ n + x.2.contextSwitch.toNat ≤ k := by
    intro u hu p hpm hp
    obtain ⟨k, hk⟩ := hlevel u hu (by rw [hp]; exact nofun)
    rcases ht.accounts u hu k hk with ⟨hp', -⟩ | ⟨p', hpm', hp', j, hj, x, hx, hxu, hle⟩
    · cases hp.symm.trans hp'
    · obtain rfl := hs.eq_of_handle hpm hpm' (Parent.vertex.inj (hp.symm.trans hp'))
      refine ⟨x, hx, hxu, ?_⟩
      rintro n ⟨i, hi, hni⟩
      cases hj.symm.trans hi
      exact ⟨k, hk, (Nat.add_le_add_right hni _).trans hle⟩
  obtain ⟨n, ⟨k, hk, hnk⟩, hpath⟩ := takenWith_of_ancestry h
    (fun n v => ∃ k, (o.mark v.handle).level? = some k ∧ n ≤ k) hroot hstep ha hv
  cases hl.symm.trans hk
  exact ⟨n, hnk, hpath⟩

theorem exhibits_of_traced (h : g.index = .ok ig) (hs : store.Sound)
    (ht : Bounded.Traced ig.system q store o) {x : Violation Node} (hf : o.found = some x) :
    ∃ trace, x.trace store (fun a => (o.mark a).parent) = .ok trace ∧
      ∃ n ≤ q.bound, g.Exhibits q.property n ⟨x.kind, trace⟩ := by
  obtain ⟨k, hshows, hlast, l, hl, hle⟩ := ht.found x hf
  obtain ⟨path, hpath⟩ := ht.rooted _ hlast l hl
  obtain ⟨n, hnl, htaken⟩ := takenWith_of_traced h hs ht hpath hlast hl
  obtain ⟨trace, htrace, hex⟩ := exhibits_trace h hs hshows hlast hpath htaken
  exact ⟨trace, htrace, n + k, (Nat.add_le_add_right hnl k).trans hle, hex⟩

end trace

/-- A search by levels returns a report, unless the reachable states exceed its limit. A violation
that it reports is exhibited by its trace, with no more context switches than the bound. If the
store is partitioned, it has at most 2^32 partitions, as many as handles can tell apart. -/
theorem boundedSearch_exhibits (h : g.index = .ok ig) (c : SearchConfig) (bound : UInt32)
    (timetable : Bounded.Timetable) (hfair : timetable.Fair c.workerCount)
    (hw : c.partitioned = true → c.workerCount ≤ UInt32.size) (hb : bound.toNat ≤ 2 ^ 31 - 3) :
    (∃ report, boundedSearch ig.system c bound timetable = .ok report ∧
      ∀ w, report.verdict = .violated w →
        ∃ n ≤ bound.toNat, g.Exhibits c.property n w) ∨
    ∃ n limit, boundedSearch ig.system c bound timetable = .error (.outOfMemory n) ∧
      c.stateLimit = some limit ∧ limit < {s | g.Reachable s}.ncard := by
  have hmax : bound.toNat + 1 ≤ maxLevel := by
    unfold maxLevel
    omega
  rcases Bounded.explore_cases (index_explicit h) (index_spread h) hfair bound.toNat hw with
    ⟨k, hexplore, hex⟩ | ⟨all, m, hexplore, last, hcase⟩
  · obtain ⟨limit, hlimit, hlt⟩ := ncard_of_exceeds h hex
    refine .inr ⟨k, limit, ?_, hlimit, hlt⟩
    unfold boundedSearch
    rw [hexplore]
    rfl
  · left
    have hrun : ∀ {v}, Bounded.conclude bound.toNat all m = .ok v →
        boundedSearch ig.system c bound timetable = .ok ⟨v, m.stats, m.store.size⟩ := by
      intro v hv
      unfold boundedSearch
      simp only [hexplore, hv, bind, Except.bind, Except.mapError, pure, Except.pure]
    rcases hcase with hhalt | ⟨hbetween, -⟩
    · obtain ⟨x, hf⟩ := Option.isSome_iff_exists.1 hhalt.found
      obtain ⟨trace, htrace, n, hn, hexh⟩ :=
        exhibits_of_traced h hhalt.canonical.sound (hhalt.traced hmax) hf
      refine ⟨_, hrun (v := .violated ⟨x.kind, trace⟩) ?_, fun w hv => ?_⟩
      · unfold Bounded.conclude
        rw [hf]
        simp only [htrace, bind, Except.bind, pure, Except.pure]
      · cases hv
        exact ⟨n, hn, hexh⟩
    · have hcon : Bounded.conclude bound.toNat all m = .ok
          (if m.store.isEmpty then .noStates
            else if !all && m.isBeyond bound.toNat then .boundExhausted else .holds) := by
        unfold Bounded.conclude
        rw [hbetween.found]
        rfl
      refine ⟨_, hrun hcon, fun w hv => ?_⟩
      dsimp only at hv
      split at hv
      · cases hv
      · split at hv <;> cases hv

/-- Two states whose ample sets lead to each other. The goal is found once one of them is opened
again. -/
def hiddenGoal : Graph where
  initial := [0]
  edges := [{ source := 0, target := 1, flags := { contextSwitch := true } },
    { source := 0, target := 2 }, { source := 2, target := 0 }, { source := 2, target := 1 },
    { source := 1, target := 3 }]
  goals := [3]
  ample := (AmpleSets.empty.insert 0 [2]).insert 2 [0]

theorem boundedSearch_exhibits_hiddenGoal :
    ∃ ig report w, hiddenGoal.index = .ok ig ∧
      boundedSearch ig.system { reduction := true, property := .goal } 1 = .ok report ∧
      report.verdict = .violated w ∧
      ∃ n ≤ (1 : UInt32).toNat, hiddenGoal.Exhibits .goal n w := by
  obtain ⟨ig, h⟩ : ∃ ig, hiddenGoal.index = .ok ig := ⟨_, rfl⟩
  have hrun : hiddenGoal.index.toOption.map (fun ig =>
      boundedSearch ig.system { reduction := true, property := .goal } 1) =
      some (.ok ⟨.violated ⟨.goal, [0, 1, 3]⟩, { states := 4, edges := 5 }, 4⟩) := by
    decide +kernel
  rw [h] at hrun
  have hrun := Option.some.inj hrun
  rcases boundedSearch_exhibits h { reduction := true, property := .goal } 1 _
    (Bounded.Timetable.fair_inTurn _) nofun (by decide) with ⟨report, hreport, hw⟩ | ⟨n, limit, herr, -⟩
  · cases hrun.symm.trans hreport
    exact ⟨ig, _, _, h, hrun, rfl, hw _ rfl⟩
  · cases hrun.symm.trans herr

/-- The edge from `a` to `b` was taken when `a` was last expanded, in a search that ended in `m`.
A state that is still reduced took the edges to its ample set only. -/
def TakenIn (g : Graph) (m : Bounded.State Node) (a b : Node) : Prop :=
  ∃ v ∈ m.store.vertices, v.state = a ∧ (m.observation.mark v.handle).isExpanded = true ∧
    if (m.observation.mark v.handle).reduced then
      ∃ targets, (a, targets) ∈ g.ample.entries ∧ b ∈ targets
    else g.Joins a b

theorem TakenIn.expands (h : g.index = .ok ig) {m : Bounded.State Node} {a b : Node}
    (ht : g.TakenIn m a b) : m.Expands ig.system a b := by
  obtain ⟨v, hv, hva, he, hcase⟩ := ht
  refine ⟨v, hv, hva, he, ?_⟩
  unfold Bounded.expansion
  split at hcase
  · rename_i hred
    obtain ⟨targets, hmem, hb⟩ := hcase
    obtain ⟨l, hl, n, hn, hnb⟩ := index_ample_of_mem h hmem hb
    rw [if_pos hred, hl]
    exact ⟨n, hn, hnb⟩
  · rename_i hred
    rw [if_neg hred]
    rw [← index_joins h] at hcase
    exact hcase

/-- With reduction, the rounds of each level and the levels end, unless the reachable states exceed
the limit. If no violation is reported, every edge that was taken leads to a state that is stored
with a level, and every cycle of such edges has a state that was expanded fully. If the store is
partitioned, it has at most 2^32 partitions, as many as handles can tell apart. -/
theorem boundedSearch_cycle_full (h : g.index = .ok ig) (c : SearchConfig) (bound : UInt32)
    (timetable : Bounded.Timetable) (hfair : timetable.Fair c.workerCount)
    (hr : c.reduction = true) (hw : c.partitioned = true → c.workerCount ≤ UInt32.size) :
    (∃ all m, Bounded.explore ig.system c bound.toNat timetable = .ok (all, m) ∧
      ∀ report, boundedSearch ig.system c bound timetable = .ok report →
        report.verdict = .holds ∨ report.verdict = .boundExhausted →
        (∀ a b, g.TakenIn m a b → ∃ t ∈ m.store.vertices, t.state = b ∧
          ∃ l, (m.observation.mark t.handle).level? = some l) ∧
        ∀ a path, List.IsChain (g.TakenIn m) (a :: (path ++ [a])) →
          ∃ s ∈ a :: path, m.ExpandsFully s) ∨
    ∃ n limit, Bounded.explore ig.system c bound.toNat timetable = .error (.outOfMemory n) ∧
      c.stateLimit = some limit ∧ limit < {s | g.Reachable s}.ncard := by
  rcases Bounded.explore_cases (index_explicit h) (index_spread h) hfair bound.toNat hw with
    ⟨k, hexplore, hex⟩ | ⟨all, m, hexplore, last, hcase⟩
  · obtain ⟨limit, hlimit, hlt⟩ := ncard_of_exceeds h hex
    exact .inr ⟨k, limit, hexplore, hlimit, hlt⟩
  · refine .inl ⟨all, m, hexplore, fun report hrun hverdict => ?_⟩
    rcases hcase with hhalt | ⟨hbetween, hacyclic⟩
    · -- what was found is reported as a violation, or not at all
      obtain ⟨x, hf⟩ := Option.isSome_iff_exists.1 hhalt.found
      unfold boundedSearch at hrun
      simp only [hexplore, bind, Except.bind, Bounded.conclude, hf, pure, Except.pure] at hrun
      cases htrace : x.trace m.store fun a => (m.observation.mark a).parent with
      | error e =>
        rw [htrace] at hrun
        cases hrun
      | ok trace =>
        rw [htrace] at hrun
        cases hrun
        rcases hverdict with hv | hv
        · cases hv
        · cases hv
    · refine ⟨fun a b hab => ?_, fun a path hcycle => ?_⟩
      · obtain ⟨v, hv, rfl, he, n, hn, hnb⟩ := hab.expands h
        obtain ⟨t, ht, htn, hl, -⟩ := hbetween.covered v hv he n hn
        exact ⟨t, ht, htn.trans hnb, hl⟩
      · exact hbetween.cycle_full (hacyclic hr) (hcycle.imp fun a b hab => hab.expands h)

/-- Two states whose ample sets lead to each other, at different levels. -/
def levelLoop : Graph where
  initial := [0]
  edges := [{ source := 0, target := 1, flags := { contextSwitch := true } },
    { source := 0, target := 2 }, { source := 1, target := 0 },
    { source := 1, target := 2, flags := { contextSwitch := true } }, { source := 2, target := 2 }]
  ample := (AmpleSets.empty.insert 0 [1]).insert 1 [0]

/-- The state at level 0 is opened again while level 1 is explored. -/
theorem boundedSearch_cycle_full_levelLoop :
    ∃ ig all m report, levelLoop.index = .ok ig ∧
      Bounded.explore ig.system { reduction := true } 1 = .ok (all, m) ∧
      boundedSearch ig.system { reduction := true } 1 = .ok report ∧ report.verdict = .holds ∧
      List.IsChain (levelLoop.TakenIn m) [0, 1, 0] ∧ ∃ s ∈ [0, 1], m.ExpandsFully s := by
  obtain ⟨ig, h⟩ : ∃ ig, levelLoop.index = .ok ig := ⟨_, rfl⟩
  have hrun : levelLoop.index.toOption.map (fun ig =>
      boundedSearch ig.system { reduction := true } 1) =
      some (.ok ⟨.holds, { states := 4, edges := 5 }, 3⟩) := by decide +kernel
  have hmarks : levelLoop.index.toOption.any (fun ig =>
      (Bounded.explore ig.system { reduction := true } 1).toOption.any fun p =>
        (∃ v ∈ p.2.store.vertices, v.state = 0 ∧
          (p.2.observation.mark v.handle).isExpanded = true ∧
          (p.2.observation.mark v.handle).reduced = false) ∧
        ∃ v ∈ p.2.store.vertices, v.state = 1 ∧
          (p.2.observation.mark v.handle).isExpanded = true ∧
          (p.2.observation.mark v.handle).reduced = true) = true := by decide +kernel
  rw [h] at hrun hmarks
  have hrun := Option.some.inj hrun
  rcases boundedSearch_cycle_full h { reduction := true } 1 _ (Bounded.Timetable.fair_inTurn _) rfl
    nofun with
    ⟨all, m, hexplore, hrest⟩ | ⟨n, limit, -, hlimit, -⟩
  · change Bounded.explore _ _ 1 = _ at hexplore
    change (Bounded.explore ig.system { reduction := true } 1).toOption.any _ = true at hmarks
    rw [hexplore] at hmarks
    obtain ⟨⟨u, hu, hu0, hue, hur⟩, v, hv, hv1, hve, hvr⟩ := of_decide_eq_true hmarks
    have hchain : List.IsChain (levelLoop.TakenIn m) [0, 1, 0] := by
      refine .cons_cons ⟨u, hu, hu0, hue, ?_⟩ (.cons_cons ⟨v, hv, hv1, hve, ?_⟩ (.singleton 0))
      · rw [hur]
        exact ⟨{ source := 0, target := 1, flags := { contextSwitch := true } }, by decide, rfl,
          rfl⟩
      · rw [hvr]
        exact ⟨[0], by decide, by decide⟩
    exact ⟨ig, all, m, _, h, hexplore, hrun, rfl, hchain,
      (hrest _ hrun (.inl rfl)).2 0 [1] hchain⟩
  · cases hlimit

end Graph

end ModelChecker
