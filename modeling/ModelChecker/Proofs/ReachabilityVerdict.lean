import ModelChecker.Proofs.BoundedVerdict
import ModelChecker.Proofs.ReachabilityRun

namespace ModelChecker

namespace Reachability

variable {σ : Type} {sys : System σ} {property : Property} {c : SearchConfig} {s₀ : Store σ}
  {w : Work σ (Observation σ)}

theorem get_empty (a : Handle) : ({} : Observation σ).parents.get a = .unset :=
  Std.TreeMap.getD_emptyc

theorem claimed_start (hb : c.Begins sys .initials s₀ {} w) (hc : s₀.Canonical sys)
    (hx : sys.Explicit) (hnil : s₀.vertices = []) : claimed w ≤ w.store.vertices.length := by
  cases hb with
  | @stored vs store' _ hres =>
    have hlen := (hc.resolve_perm hx hres).length_eq
    rw [hnil, List.append_nil, List.length_map, ← List.countP_eq_length_filter] at hlen
    change 0 + (↑(vs.map fun s => WorkItem.met none s.1 {} s.2) : Multiset (WorkItem σ)).countP
      (isClaim ·) ≤ store'.vertices.length
    rw [Multiset.coe_countP, List.countP_map, hlen, Nat.zero_add]
    refine (List.countP_congr fun s _ => ?_).le
    exact decide_eq_true_iff
  | sent =>
    change 0 + (↑(sys.initials.map fun s => WorkItem.arrival none (s, {})) :
      Multiset (WorkItem σ)).countP (isClaim ·) ≤ _
    rw [Multiset.coe_countP, List.countP_map, Nat.zero_add]
    refine le_of_eq_of_le (List.countP_eq_zero.2 fun s _ hs => ?_) (Nat.zero_le _)
    exact Bool.false_ne_true (of_decide_eq_true hs)

theorem seeds_start (hb : c.Begins sys .initials s₀ {} w) (hc : s₀.Canonical sys)
    (hx : sys.Explicit) (hnil : s₀.vertices = []) :
    ∀ v ∈ w.store.vertices, .met none v {} true ∈ w.items := by
  intro v hv
  cases hb with
  | @stored vs store' _ hres =>
    have hperm := hc.resolve_perm hx hres
    rw [hnil, List.append_nil] at hperm
    obtain ⟨⟨u, b⟩, hp, rfl⟩ := List.mem_map.1 (hperm.mem_iff.1 hv)
    obtain ⟨hp, rfl⟩ := List.mem_filter.1 hp
    exact Multiset.mem_coe.2
      (List.mem_map_of_mem (f := fun s => WorkItem.met none s.1 {} s.2) hp)
  | sent =>
    change v ∈ s₀.vertices at hv
    rw [hnil] at hv
    cases hv

/-- A search begins with its initial states as seeds, and nothing left out. -/
theorem holds_start (hb : c.Begins sys .initials s₀ {} w) (hc : s₀.Canonical sys)
    (hx : sys.Explicit) (hnil : s₀.vertices = []) : Holds sys property s₀ w := by
  have hstart := hb.starts hc hx nofun
  have hground : w.Grounded sys s₀ := by
    refine hstart.grounded (fun v hv => ?_) fun s hs => ⟨s, hs, .refl⟩
    rw [hnil] at hv
    cases hv
  have hobs := hstart.observation
  refine ⟨⟨hground, ⟨fun a => ?_, fun v _ hp => ?_, fun v _ u _ hp => ?_, fun v _ hp => ?_⟩,
    fun x hxi => ?_, fun x hf => ?_, ?_, claimed_start hb hc hx hnil⟩, fun _ => ?_⟩
  · rw [hobs]
    exact .inl (get_empty a)
  · rw [hobs, get_empty] at hp
    cases hp
  · rw [hobs, get_empty] at hp
    cases hp
  · rw [hobs, get_empty] at hp
    exact absurd rfl hp
  · have hseed := hstart.items x hxi
    cases x with
    | met source v flags b =>
      cases source with
      | none => exact hseed.2
      | some u => exact hseed.elim
    | visit v => exact hseed.elim
    | arrival source n =>
      cases source with
      | none => exact hseed
      | some u => exact hseed.elim
  · rw [hobs] at hf
    cases hf
  · rw [hstart.interrupt, hobs]
    rfl
  · refine ⟨fun s hs => ?_, fun v hv => .inl ⟨none, {}, seeds_start hb hc hx hnil v hv⟩⟩
    cases hb with
    | @stored vs store' _ hres =>
      rcases hc.resolve_cases hx sys.initials with ⟨vs', s', hr, hd⟩ | ⟨n, e, s', -, hr⟩
      · cases hr.symm.trans hres
        rw [← hd.states_eq] at hs
        obtain ⟨p, hp, rfl⟩ := List.mem_map.1 hs
        exact .inr ⟨p.1, hd.mem p hp, rfl⟩
      · cases hr.symm.trans hres
    | sent =>
      exact .inl ⟨(s, {}), Multiset.mem_coe.2
        (List.mem_map_of_mem (f := fun s => WorkItem.arrival none (s, {})) hs), rfl⟩

theorem Sound.bounded (h : Sound sys property s₀ w) (hx : sys.Explicit) :
    w.stats.states ≤ sys.extent ∧ w.admitted < UInt64.size := by
  have hadm : w.admitted ≤ claimed w := by
    refine Nat.add_le_add_left ?_ _
    rw [Multiset.countP_eq_card_filter, Multiset.countP_eq_card_filter]
    refine Multiset.card_le_card (Multiset.monotone_filter_right _ fun x hv => ?_)
    cases x with
    | visit v => rfl
    | met source v flags b => cases hv
    | arrival source n => cases hv
  exact h.grounded.bounded hx (hadm.trans h.counted)

theorem search_cases (c : SearchConfig) {schedule : Schedule}
    (hfair : schedule.Fair c.workerCount) (hx : sys.Explicit) (hspread : sys.Spread)
    (hword : c.partitioned = true → c.workerCount ≤ UInt32.size) :
    (∃ e w, c.search sys (listener sys c.property) .initials c.newStore {} schedule = .ok e ∧
      Holds sys c.property c.newStore w ∧ w.Ends e) ∨
    ∃ x s', c.search sys (listener sys c.property) .initials c.newStore {} schedule =
      .ok ⟨s', {}, {}, some (.exhausted x)⟩ ∧ sys.Exceeds c.stateLimit := by
  have hc := c.canonical_newStore sys hword
  have hnil : (c.newStore : Store σ).vertices = [] := c.vertices_newStore
  have hinv : ∀ w₀ w, c.Begins sys .initials c.newStore {} w₀ →
      Work.Moves sys (listener sys c.property) w₀ w → Holds sys c.property c.newStore w :=
    fun w₀ w hb hm => (holds_start hb hc hx hnil).moves hx hspread hm
  rcases c.search_cases (l := listener sys c.property) hfair (fun _ _ _ => rfl)
    (fun _ _ v _ => hx.length_successors_le v.state) c.size_newStore
    (fun w₀ w hb hm => (hinv w₀ w hb hm).sound.bounded hx) with
    ⟨e, w₀, w, hs, hb, hm, he⟩ | ⟨x, s', hres, hs⟩
  · exact .inl ⟨e, w, hs, hinv w₀ w hb hm, he⟩
  · refine .inr ⟨x, s', hs, (hc.resolve_error hx (fun v hv => ?_) (fun s hs => ?_) hres).1⟩
    · rw [hnil] at hv
      cases hv
    · exact ⟨s, hs, .refl⟩

theorem Complete.treated (h : Complete sys property w) (hdone : w.items = 0) {s : σ}
    (hs : sys.Reachable s) :
    ∃ v ∈ w.store.vertices, v.state = s ∧ (property = .goal → sys.goal s = false) ∧
      (property = .deadlock → sys.successors s ≠ []) ∧
      ∀ n ∈ sys.successors s, Clear property w.store n := by
  have hno : ∀ x, x ∉ w.items := fun x => hdone ▸ Multiset.notMem_zero x
  have htreat : ∀ v ∈ w.store.vertices, (property = .goal → sys.goal v.state = false) ∧
      (property = .deadlock → sys.successors v.state ≠ []) ∧
      ∀ n ∈ sys.successors v.state, Clear property w.store n := by
    intro v hv
    have ht := (h.stored v hv).resolve_left fun ⟨_, _, hm⟩ => hno _ hm
    obtain ⟨hdead, hall⟩ := ht.edges.resolve_left (hno _)
    exact ⟨ht.goal, hdead, fun n hn => (hall n hn).resolve_left (hdone ▸ Work.not_awaited_zero)⟩
  obtain ⟨i, hi, hpath⟩ := hs
  -- along the path: the target of each edge out of a stored state is stored
  induction hpath with
  | refl =>
    rcases h.initial i hi with ⟨n, hn, -⟩ | ⟨v, hv, rfl⟩
    · exact absurd hn (hno _)
    · exact ⟨v, hv, rfl, htreat v hv⟩
  | tail _ hjoin ih =>
    obtain ⟨v, hv, rfl, -, -, hclear⟩ := ih
    obtain ⟨n, hn, rfl⟩ := hjoin
    obtain ⟨t, ht, htn⟩ := (hclear n hn).1
    exact ⟨t, ht, htn, htn ▸ htreat t ht⟩

end Reachability

namespace Graph

/-- Some reachable state or edge violates the property. -/
inductive Violates (g : Graph) : Property → Prop where
  | goal {s : Node} (h : g.Reachable s) (hs : s ∈ g.goals) : Violates g .goal
  | errorEdge {e : Edge} (h : g.Reachable e.source) (he : e ∈ g.edges)
    (herr : e.flags.error = true) : Violates g .goal
  | deadlock {s : Node} (h : g.Reachable s) (hs : ∀ e ∈ g.edges, e.source ≠ s) :
    Violates g .deadlock

variable {g : Graph} {ig : IndexedGraph}

theorem TakenWith.reachable {n : Nat} {path : List Node} {s : Node} (h : g.TakenWith n path)
    (hs : path.getLast? = some s) : g.Reachable s := by
  induction h generalizing s with
  | @initial a ha =>
    cases hs
    exact ⟨a, ha, .refl⟩
  | @step n path e _ he ih =>
    obtain ⟨i, hi, hpath⟩ := ih List.getLast?_concat
    obtain rfl : e.target = s := by simpa using hs
    exact ⟨i, hi, hpath.tail ⟨e, he, rfl, rfl⟩⟩

theorem Exhibits.violates {property : Property} {n : Nat} {w : Witness Node}
    (h : g.Exhibits property n w) : g.Violates property := by
  cases h with
  | goal h hs => exact .goal (h.reachable List.getLast?_concat) hs
  | errorEdge h he herr => exact .errorEdge (h.reachable List.getLast?_concat) he herr
  | deadlock h hs => exact .deadlock (h.reachable List.getLast?_concat) hs

theorem ncard_of_exceeds (h : g.index = .ok ig) {limit : Option Nat}
    (hx : ig.system.Exceeds limit) :
    ∃ n, limit = some n ∧ n < {s | g.Reachable s}.ncard := by
  obtain ⟨n, hn, l, hnodup, hreach, hlt⟩ := hx
  refine ⟨n, hn, hlt.trans_le ?_⟩
  rw [← List.toFinset_card_of_nodup hnodup, ← Set.ncard_coe_finset]
  obtain ⟨u, -, hinit, hsucc⟩ := (index_explicit h).listed
  refine Set.ncard_le_ncard (fun s hs => ?_) ((List.finite_toSet u).subset fun s hs => ?_)
  · exact (reachable_iff h).1 (hreach s (List.mem_toFinset.1 hs))
  · rcases ((reachable_iff h).2 hs).within with hi | ⟨a, n, hn, rfl⟩
    · exact hinit s hi
    · exact hsucc a n hn

theorem exhibits_of_found (h : g.index = .ok ig) {property : Property} {s₀ : Store Node}
    {w : Work Node (Reachability.Observation Node)}
    (hw : Reachability.Sound ig.system property s₀ w) {x : Violation Node}
    (hf : w.observation.found = some x) :
    ∃ trace n, x.trace w.store w.observation.parents.get = .ok trace ∧
      g.Exhibits property n ⟨x.kind, trace⟩ := by
  have hx := hw.found x hf
  obtain ⟨k, hshows⟩ := hx.shows
  obtain ⟨path, hpath⟩ := hw.rooted.ancestry _ hx.last hx.parent
  obtain ⟨n, -, htaken⟩ := takenWith_of_ancestry h (fun _ _ => True)
    (fun v hv hp => ⟨hw.rooted.root v hv hp, trivial⟩)
    (fun v hv u hu hp => by
      obtain ⟨y, hy, hyv⟩ := hw.rooted.edge v hv u hu hp
      exact ⟨y, hy, hyv, fun _ _ => trivial⟩) hpath hx.last
  obtain ⟨trace, ht, hex⟩ :=
    exhibits_trace h hw.grounded.canonical.sound hshows hx.last hpath htaken
  exact ⟨trace, n + k, ht, hex⟩

theorem not_violates (h : g.index = .ok ig) {property : Property}
    {w : Work Node (Reachability.Observation Node)}
    (hw : Reachability.Complete ig.system property w) (hdone : w.items = 0) :
    ¬ g.Violates property := by
  intro hv
  cases hv with
  | goal hs hg =>
    obtain ⟨v, -, -, hgoal, -⟩ := hw.treated hdone ((reachable_iff h).2 hs)
    have hno := hgoal rfl
    rw [(index_goal h _).2 hg] at hno
    cases hno
  | @errorEdge e hs he herr =>
    obtain ⟨v, -, -, -, -, hclear⟩ := hw.treated hdone ((reachable_iff h).2 hs)
    have hedge := (mem_index_successors h).2 ⟨e, he, rfl, rfl⟩
    exact (hclear _ hedge).2 ⟨rfl, herr⟩
  | deadlock hs hnone =>
    obtain ⟨v, -, -, -, hdead, -⟩ := hw.treated hdone ((reachable_iff h).2 hs)
    exact hdead rfl ((successors_eq_nil_iff h).2 hnone)

theorem isEmpty_iff (h : g.index = .ok ig) {property : Property} {s₀ : Store Node}
    {w : Work Node (Reachability.Observation Node)}
    (hw : Reachability.Holds ig.system property s₀ w) (hraised : w.interrupt.raised = false)
    (hdone : w.items = 0) : w.store.isEmpty = true ↔ g.initial = [] := by
  have hground := hw.sound.grounded
  rw [Store.isEmpty, beq_iff_eq, hground.canonical.size_eq, List.length_eq_zero_iff,
    ← index_initials h]
  constructor
  · intro hnil
    refine List.eq_nil_iff_forall_not_mem.2 fun s hs => ?_
    obtain ⟨v, hv, -⟩ := (hw.complete hraised).treated hdone ⟨s, hs, .refl⟩
    rw [hnil] at hv
    cases hv
  · intro hnil
    refine List.eq_nil_iff_forall_not_mem.2 fun v hv => ?_
    obtain ⟨i, hi, -⟩ := hground.reachable v hv
    rw [hnil] at hi
    cases hi

/-- A search of all states reports a violation with a trace, or that there is none, unless it runs
out of memory. -/
theorem reachability_cases (h : g.index = .ok ig) (c : SearchConfig) {schedule : Schedule}
    (hfair : schedule.Fair c.workerCount)
    (hw : c.partitioned = true → c.workerCount ≤ UInt32.size) :
    (∃ report, reachability ig.system c schedule = .ok report ∧
      ((∃ w n, report.verdict = .violated w ∧ g.Exhibits c.property n w) ∨
        ¬ g.Violates c.property ∧
          report.verdict = if g.initial = [] then .noStates else .holds)) ∨
    ∃ n, reachability ig.system c schedule = .error (.outOfMemory n) ∧
      ∃ limit, c.stateLimit = some limit ∧ limit < {s | g.Reachable s}.ncard := by
  rcases Reachability.search_cases c hfair (index_explicit h) (index_spread h) hw with
    ⟨e, w, hsearch, hholds, hends⟩ | ⟨x, s', hsearch, hex⟩
  · cases hfail : w.interrupt.failure with
    | some x =>
      refine .inr ⟨x.states, ?_, ncard_of_exceeds h ?_⟩
      · have hending : e.ending = some (.exhausted x) := by
          rw [hends.ending, Interrupt.ending, hfail]
        unfold reachability
        simp only [hsearch, Except.mapError, bind, Except.bind, Exploration.finished, hending]
      · exact (hholds.sound.grounded.failure (by rw [hfail]; rfl)).2
    | none =>
      obtain ⟨b, hfin⟩ := Exploration.finished_ok hends.ending hfail
      have hrun : ∀ {v}, Reachability.conclude e = .ok v →
          reachability ig.system c schedule = .ok ⟨v, e.stats, e.store.size⟩ := by
        intro v hv
        unfold reachability
        simp only [hsearch, hfin, hv, Except.mapError, bind, Except.bind, pure, Except.pure]
      cases hf : w.observation.found with
      | some x =>
        obtain ⟨trace, n, ht, hex⟩ := exhibits_of_found h hholds.sound hf
        refine .inl ⟨_, hrun (v := .violated ⟨x.kind, trace⟩) ?_, .inl ⟨_, n, rfl, hex⟩⟩
        unfold Reachability.conclude
        rw [hends.observation, hf, hends.store]
        simp only [ht, bind, Except.bind, pure, Except.pure]
      | none =>
        have hraised : w.interrupt.raised = false := by
          rw [hholds.sound.raised, hf, hfail]
          rfl
        have hdone := hends.done hraised
        have hnot := not_violates h (hholds.complete hraised) hdone
        refine .inl ⟨_, hrun (v := if g.initial = [] then .noStates else .holds) ?_,
          .inr ⟨hnot, rfl⟩⟩
        unfold Reachability.conclude
        rw [hends.observation, hf, hends.store]
        simp only [isEmpty_iff h hholds hraised hdone, pure, Except.pure]
  · refine .inr ⟨x.states, ?_, ncard_of_exceeds h hex⟩
    unfold reachability
    simp only [hsearch, Except.mapError, bind, Except.bind, Exploration.finished]

/-- A search of all states returns a report, unless the reachable states exceed its limit. The
report is a violation if and only if some reachable state or edge is one, and its trace exhibits it;
otherwise it tells whether there are any states. This holds for every number of workers and every
fair schedule. If the store is partitioned, it has at most 2^32 partitions, as many as handles can
tell apart. -/
theorem reachability_exact (h : g.index = .ok ig) (c : SearchConfig) (schedule : Schedule)
    (hfair : schedule.Fair c.workerCount)
    (hw : c.partitioned = true → c.workerCount ≤ UInt32.size) :
    (∃ report, reachability ig.system c schedule = .ok report ∧
      ((∃ w, report.verdict = .violated w) ↔ g.Violates c.property) ∧
      (∀ w, report.verdict = .violated w → ∃ n, g.Exhibits c.property n w) ∧
      (¬ g.Violates c.property → (report.verdict = .noStates ↔ g.initial = []) ∧
        (report.verdict = .holds ↔ g.initial ≠ []))) ∨
    ∃ n limit, reachability ig.system c schedule = .error (.outOfMemory n) ∧
      c.stateLimit = some limit ∧ limit < {s | g.Reachable s}.ncard := by
  rcases reachability_cases h c hfair hw with ⟨report, hrun, hcase⟩ | ⟨n, hrun, limit, hlimit, hlt⟩
  · refine .inl ⟨report, hrun, ?_⟩
    rcases hcase with ⟨w, n, hv, hex⟩ | ⟨hnot, hv⟩
    · refine ⟨iff_of_true ⟨w, hv⟩ hex.violates, fun w' hv' => ?_, fun hno => ?_⟩
      · obtain rfl := Verdict.violated.inj (hv.symm.trans hv')
        exact ⟨n, hex⟩
      · exact absurd hex.violates hno
    · by_cases hnil : g.initial = []
      · rw [hv, if_pos hnil]
        exact ⟨iff_of_false nofun hnot, nofun, fun _ => by simp [hnil]⟩
      · rw [hv, if_neg hnil]
        exact ⟨iff_of_false nofun hnot, nofun, fun _ => by simp [hnil]⟩
  · exact .inr ⟨n, limit, hrun, hlimit, hlt⟩

/-- Two initial states that lead to each other, and an error edge out of the second. -/
def mutualSeeds : Graph where
  initial := [0, 1]
  edges := [{ source := 0, target := 1 }, { source := 1, target := 0 },
    { source := 1, target := 2, flags := { error := true } }]

theorem reachability_exact_mutualSeeds :
    ∃ ig, mutualSeeds.index = .ok ig ∧
      ((∃ report, reachability ig.system
          { workers := 2, partitioned := true, property := .goal, maxStates := some 2 } =
            .ok report ∧
        ((∃ w, report.verdict = .violated w) ↔ mutualSeeds.Violates .goal) ∧
        (∀ w, report.verdict = .violated w → ∃ n, mutualSeeds.Exhibits .goal n w) ∧
        (¬ mutualSeeds.Violates .goal →
          (report.verdict = .noStates ↔ mutualSeeds.initial = []) ∧
          (report.verdict = .holds ↔ mutualSeeds.initial ≠ []))) ∨
      ∃ n limit, reachability ig.system
          { workers := 2, partitioned := true, property := .goal, maxStates := some 2 } =
            .error (.outOfMemory n) ∧
        (some (2 : UInt64)).map (·.toNat) = some limit ∧
          limit < {s | mutualSeeds.Reachable s}.ncard) :=
  ⟨_, rfl, reachability_exact rfl
    { workers := 2, partitioned := true, property := .goal, maxStates := some 2 } _
    (Schedule.fair_inTurn _) fun _ => by decide⟩

theorem exists_reachesWith_iff_reachable {s : Node} :
    (∃ n, g.ReachesWith n s) ↔ g.Reachable s := by
  constructor
  · rintro ⟨n, hs⟩
    induction hs with
    | initial hi => exact ⟨_, hi, .refl⟩
    | @step n e _ he ih =>
      obtain ⟨i, hi, hpath⟩ := ih
      exact ⟨i, hi, hpath.tail ⟨e, he, rfl, rfl⟩⟩
  · rintro ⟨i, hi, hpath⟩
    induction hpath with
    | refl => exact ⟨0, .initial hi⟩
    | tail _ hjoin ih =>
      obtain ⟨n, hn⟩ := ih
      obtain ⟨e, he, rfl, rfl⟩ := hjoin
      exact ⟨_, .step hn he⟩

theorem switchDistance_ne_top_iff {s : Node} : g.switchDistance s ≠ ⊤ ↔ g.Reachable s := by
  rw [← exists_reachesWith_iff_reachable]
  constructor
  · intro hne
    obtain ⟨d, hd⟩ := ENat.ne_top_iff_exists.1 hne
    obtain ⟨n, -, hs⟩ := switchDistance_le_iff.1 hd.ge
    exact ⟨n, hs⟩
  · rintro ⟨n, hs⟩
    exact ne_top_of_le_ne_top (ENat.natCast_ne_top n)
      (switchDistance_le_iff.2 ⟨n, Nat.le_refl n, hs⟩)

theorem violates_iff {property : Property} :
    g.Violates property ↔ ∃ cost, cost ≠ ⊤ ∧ g.ViolatedAt property cost := by
  constructor
  · intro hv
    cases hv with
    | goal hs hg => exact ⟨_, switchDistance_ne_top_iff.2 hs, .goal hg⟩
    | @errorEdge e hs he herr =>
      refine ⟨_, ?_, .errorEdge he herr⟩
      exact WithTop.add_ne_top.2 ⟨switchDistance_ne_top_iff.2 hs, ENat.natCast_ne_top _⟩
    | deadlock hs hnone => exact ⟨_, switchDistance_ne_top_iff.2 hs, .deadlock hnone⟩
  · rintro ⟨cost, hne, hv⟩
    cases hv with
    | goal hg => exact .goal (switchDistance_ne_top_iff.1 hne) hg
    | errorEdge he herr =>
      exact .errorEdge (switchDistance_ne_top_iff.1 (WithTop.add_ne_top.1 hne).1) he herr
    | deadlock hnone => exact .deadlock (switchDistance_ne_top_iff.1 hne) hnone

/-- An error edge leaves a state at the bound with a context switch of its own. -/
def ErrsBeyond (g : Graph) (property : Property) (bound : Nat) : Prop :=
  property = .goal ∧ ∃ e ∈ g.edges, e.flags.error = true ∧ e.flags.contextSwitch = true ∧
    g.switchDistance e.source = bound

/-- Where all states lie within the bound, an error edge that leaves it is the only violation that
can lie beyond it. -/
theorem violates_iff_errsBeyond {property : Property} {bound : Nat}
    (hall : ∀ s, g.switchDistance s ≠ ⊤ → g.switchDistance s ≤ bound)
    (hno : ¬ ∃ cost ≤ (bound : ℕ∞), g.ViolatedAt property cost) :
    g.Violates property ↔ g.ErrsBeyond property bound := by
  rw [violates_iff]
  constructor
  · rintro ⟨cost, hne, hv⟩
    cases hv with
    | goal hg => exact absurd ⟨_, hall _ hne, .goal hg⟩ hno
    | deadlock hnone => exact absurd ⟨_, hall _ hne, .deadlock hnone⟩ hno
    | @errorEdge e he herr =>
      have hle := hall e.source (WithTop.add_ne_top.1 hne).1
      have hover : ¬ g.switchDistance e.source + (e.flags.contextSwitch.toNat : ℕ∞) ≤ bound :=
        fun hx => hno ⟨_, hx, .errorEdge he herr⟩
      obtain ⟨d, hd⟩ := ENat.ne_top_iff_exists.1 (WithTop.add_ne_top.1 hne).1
      rw [← hd] at hle hover
      have hdb : d ≤ bound := by exact_mod_cast hle
      have hover : ¬ d + e.flags.contextSwitch.toNat ≤ bound := by exact_mod_cast hover
      cases hsw : e.flags.contextSwitch with
      | false =>
        rw [hsw] at hover
        exact absurd hdb hover
      | true =>
        rw [hsw, Bool.toNat_true] at hover
        obtain rfl : d = bound := by omega
        exact ⟨rfl, e, he, herr, hsw, hd.symm⟩
  · rintro ⟨rfl, e, he, herr, -, hd⟩
    refine ⟨_, WithTop.add_ne_top.2 ⟨?_, ENat.natCast_ne_top _⟩, .errorEdge he herr⟩
    rw [hd]
    exact ENat.natCast_ne_top bound

theorem of_boundedSearch_holds (h : g.index = .ok ig) {c : SearchConfig} {bound : UInt32}
    {timetable : Bounded.Timetable} (hfair : timetable.Fair c.workerCount)
    (hr : c.reduction = false) (hl : c.maxStates = none)
    (hw : c.partitioned = true → c.workerCount ≤ UInt32.size) (hb : bound.toNat ≤ 2 ^ 31 - 3)
    {report : SafetyReport Node} (hrun : boundedSearch ig.system c bound timetable = .ok report)
    (hholds : report.verdict = .holds) :
    g.initial ≠ [] ∧ (∀ s, g.switchDistance s ≠ ⊤ → g.switchDistance s ≤ bound.toNat) ∧
      ¬ ∃ cost ≤ (bound.toNat : ℕ∞), g.ViolatedAt c.property cost := by
  have hmax : bound.toNat + 1 ≤ maxLevel := by
    unfold maxLevel
    omega
  obtain ⟨all, m, l, hle, hexplore, hcase⟩ :=
    Bounded.explore_ends (index_explicit h) hr hmax hfair hw hl
  have hcon : ∀ {v}, Bounded.conclude bound.toNat all m = .ok v →
      report = ⟨v, m.stats, m.store.size⟩ := by
    intro v hv
    unfold boundedSearch at hrun
    simp only [hexplore, hv, bind, Except.bind, Except.mapError, pure, Except.pure] at hrun
    exact (Except.ok.inj hrun).symm
  rcases hcase with hstop | hdone
  · obtain ⟨w, hv⟩ := hstop.conclude bound.toNat all
    rw [hcon hv] at hholds
    cases hholds
  · have hclear := cleared h hdone hle hdone.conclude
    rw [← hcon hdone.conclude] at hclear
    obtain ⟨hne, hall⟩ := hclear.holds.1 hholds
    exact ⟨hne, hall, (violatedWithin_iff h).not.1 hdone.not_violatedWithin⟩

/-- Where a bounded search without reduction passes, a search of all states passes too, unless an
error edge leaves a state at the bound with a context switch of its own; then it finds a violation.
If the store is partitioned, it has at most 2^32 partitions, as many as handles can tell apart. -/
theorem reachability_of_boundedSearch_holds (h : g.index = .ok ig) (c c' : SearchConfig)
    (timetable : Bounded.Timetable) (hfair : timetable.Fair c.workerCount)
    (schedule : Schedule) (hfair' : schedule.Fair c'.workerCount)
    (bound : UInt32) (hp : c'.property = c.property) (hr : c.reduction = false)
    (hl : c.maxStates = none) (hl' : c'.maxStates = none)
    (hw : c.partitioned = true → c.workerCount ≤ UInt32.size)
    (hw' : c'.partitioned = true → c'.workerCount ≤ UInt32.size)
    (hb : bound.toNat ≤ 2 ^ 31 - 3) {report : SafetyReport Node}
    (hrun : boundedSearch ig.system c bound timetable = .ok report)
    (hholds : report.verdict = .holds) :
    ∃ report', reachability ig.system c' schedule = .ok report' ∧
      (report'.verdict = .holds ↔ ¬ g.ErrsBeyond c.property bound.toNat) ∧
      ((∃ w, report'.verdict = .violated w) ↔ g.ErrsBeyond c.property bound.toNat) := by
  obtain ⟨hne, hall, hno⟩ := of_boundedSearch_holds h hfair hr hl hw hb hrun hholds
  have hiff := violates_iff_errsBeyond hall hno
  rcases reachability_cases h c' hfair' hw' with ⟨report', hrun', hcase⟩ | ⟨n, -, limit, hlimit, -⟩
  · refine ⟨report', hrun', ?_⟩
    rw [← hiff, ← hp]
    rcases hcase with ⟨w, n, hv, hex⟩ | ⟨hnot, hv⟩
    · rw [hv]
      exact ⟨iff_of_false nofun fun hx => hx hex.violates, iff_of_true ⟨w, rfl⟩ hex.violates⟩
    · rw [hv, if_neg hne]
      exact ⟨iff_of_true rfl hnot, iff_of_false nofun hnot⟩
  · rw [SearchConfig.stateLimit, hl'] at hlimit
    cases hlimit

/-- An error edge back to the initial state, which switches the context. -/
def errorBack : Graph where
  initial := [0]
  edges := [{ source := 0, target := 1 },
    { source := 1, target := 0, flags := { error := true, contextSwitch := true } }]

theorem reachability_of_boundedSearch_holds_errorBack :
    ∃ ig report, errorBack.index = .ok ig ∧
      boundedSearch ig.system { property := .goal } 0 = .ok report ∧ report.verdict = .holds ∧
      ∃ report', reachability ig.system { workers := 2, property := .goal } = .ok report' ∧
        (report'.verdict = .holds ↔ ¬ errorBack.ErrsBeyond .goal (0 : UInt32).toNat) ∧
        ((∃ w, report'.verdict = .violated w) ↔
          errorBack.ErrsBeyond .goal (0 : UInt32).toNat) :=
  have hrun : boundedSearch (IndexedGraph.system _) { property := .goal } 0 =
      .ok ⟨.holds, { states := 2, edges := 2 }, 2⟩ := by decide +kernel
  ⟨_, _, rfl, hrun, rfl, reachability_of_boundedSearch_holds rfl { property := .goal }
    { workers := 2, property := .goal } _ (Bounded.Timetable.fair_inTurn _) _
    (Schedule.fair_inTurn _) 0 rfl rfl rfl rfl nofun nofun (by decide) hrun rfl⟩

/-- Both states lie within the bound and the error edge between them does not: the bounded search
passes, and the search of all states finds the edge. -/
theorem boundedSearch_holds_errorBack :
    ∃ ig report report', errorBack.index = .ok ig ∧
      boundedSearch ig.system { property := .goal } 0 = .ok report ∧ report.verdict = .holds ∧
      reachability ig.system { property := .goal } = .ok report' ∧
      report'.verdict = .violated ⟨.errorEdge, [0, 1, 0]⟩ :=
  ⟨_, ⟨.holds, { states := 2, edges := 2 }, 2⟩,
    ⟨.violated ⟨.errorEdge, [0, 1, 0]⟩, { states := 2, edges := 2 }, 2⟩, rfl,
    by decide +kernel, rfl, by decide +kernel, rfl⟩

end Graph

end ModelChecker
