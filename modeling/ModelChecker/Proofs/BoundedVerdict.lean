import Mathlib.Data.ENat.Lattice
import Mathlib.Data.Set.Card
import ModelChecker.Proofs.BoundedLevels

namespace ModelChecker

theorem System.ReachesWith.initials_ne_nil {σ : Type} {sys : System σ} {n : Nat} {s : σ}
    (h : sys.ReachesWith n s) : sys.initials ≠ [] := by
  induction h with
  | initial h => exact List.ne_nil_of_mem h
  | step _ _ ih => exact ih

namespace Bounded

variable {σ : Type} {sys : System σ} {q : Query} {m : State σ} {all : Bool}

theorem Explored.expanded_of_reachesWith (h : Explored sys q m) {limit : Nat}
    (hw : ∀ v ∈ m.store.vertices, ∀ l, (m.observation.mark v.handle).progress = .waiting l →
      limit < l) {n : Nat} {s : σ} (hs : sys.ReachesWith n s) (hn : n ≤ limit) :
    ∃ v ∈ m.store.vertices, v.state = s ∧
      ∃ l ≤ n, (m.observation.mark v.handle).progress = .expanded l := by
  -- along the path: the edges of an expanded state have brought their targets up to date
  induction hs with
  | initial hi =>
    obtain ⟨v, hv, hvs, he⟩ := h.initial _ hi
    exact ⟨v, hv, hvs, 0, Nat.le_refl 0, he⟩
  | @step k s x _ hx ih =>
    obtain ⟨v, hv, rfl, l, hl, he⟩ := ih ((Nat.le_add_right _ _).trans hn)
    obtain ⟨t, ht, hts, l', hl', hle⟩ := ((h.edges v hv l he).2 x hx).target
    rcases LevelMark.level?_eq_some.1 hl' with hwait | hexp
    · have hlt := hw t ht l' hwait
      omega
    · exact ⟨t, ht, hts, l', hle.trans (Nat.add_le_add_right hl _), hexp⟩

theorem Finished.isExpanded_iff (h : Finished sys q all m) (hb : q.level ≤ q.bound) {v : Vertex σ}
    (hv : v ∈ m.store.vertices) :
    (m.observation.mark v.handle).isExpanded = true ↔
      ∃ n ≤ q.bound, sys.ReachesWith n v.state := by
  constructor
  · intro he
    obtain ⟨l, hl⟩ := LevelMark.isExpanded_iff.1 he
    exact ⟨l, (h.explored.reached.expanded_le v hv l hl).trans hb,
      h.explored.reached.level v hv l (LevelMark.level?_eq_of_expanded hl)⟩
  · rintro ⟨n, hn, hs⟩
    obtain ⟨u, hu, hus, l, -, hl⟩ := h.explored.expanded_of_reachesWith h.beyond hs hn
    obtain rfl := h.explored.reached.canonical.eq_of_state hu hv hus
    exact LevelMark.isExpanded_iff.2 ⟨l, hl⟩

theorem Finished.not_violatedWithin (h : Finished sys q all m) :
    ¬ sys.ViolatedWithin q.bound q.property := by
  have hexp := fun n s (hs : sys.ReachesWith n s) => h.explored.expanded_of_reachesWith h.beyond hs
  intro hv
  cases hp : q.property with
  | goal =>
    rw [hp] at hv
    rcases hv with ⟨s, n, hs, hn, hg⟩ | ⟨s, n, hs, x, hx, hn, herr⟩
    · obtain ⟨v, hv, rfl, l, -, hl⟩ := hexp n s hs hn
      have hgoal := h.explored.goal v hv (LevelMark.isExpanded_iff.2 ⟨l, hl⟩) hp
      rw [hg] at hgoal
      cases hgoal
    · obtain ⟨v, hv, rfl, l, hln, hl⟩ := hexp n s hs (by omega)
      exact ((h.explored.edges v hv l hl).2 x hx).fine ⟨hp, herr, by omega⟩
  | deadlock =>
    rw [hp] at hv
    obtain ⟨s, n, hs, hn, hnil⟩ := hv
    obtain ⟨v, hv, rfl, l, -, hl⟩ := hexp n s hs hn
    exact (h.explored.edges v hv l hl).1 hp hnil
  | liveness =>
    rw [hp] at hv
    exact hv

theorem Finished.waiting_iff (h : Finished sys q all m) (hb : q.level ≤ q.bound) :
    (∃ v ∈ m.store.vertices, (m.observation.mark v.handle).isExpanded = false) ↔
      (∃ n s, sys.ReachesWith n s ∧ ∀ k, sys.ReachesWith k s → q.bound < k) := by
  constructor
  · rintro ⟨v, hv, he⟩
    have hw := (h.explored.waiting v hv).resolve_left (by rw [he]; exact Bool.false_ne_true)
    refine ⟨_, v.state, h.explored.reached.level v hv _ (LevelMark.level?_eq_some.2 (.inl hw)), ?_⟩
    intro k hk
    by_contra hle
    rw [(h.isExpanded_iff hb hv).2 ⟨k, Nat.le_of_not_lt hle, hk⟩] at he
    cases he
  · rintro ⟨n, s, hs, hfar⟩
    -- with nothing left waiting the whole path is expanded, hence within the bound
    by_contra hall
    have hnone : ∀ v ∈ m.store.vertices, ∀ l, (m.observation.mark v.handle).progress = .waiting l →
        n < l := by
      intro v hv l hl
      exact absurd ⟨v, hv, by rw [LevelMark.isExpanded, hl]⟩ hall
    obtain ⟨v, hv, rfl, l, -, hl⟩ := h.explored.expanded_of_reachesWith hnone hs (Nat.le_refl n)
    have hlt := hfar l (h.explored.reached.level v hv l (LevelMark.level?_eq_of_expanded hl))
    have hle := h.explored.reached.expanded_le v hv l hl
    omega

theorem Finished.mem_states_iff (h : Finished sys q all m) (hb : q.level ≤ q.bound) {s : σ} :
    s ∈ m.store.vertices.map (·.state) ↔ s ∈ sys.initials ∨
      ∃ u, (∃ n ≤ q.bound, sys.ReachesWith n u) ∧ ∃ x ∈ sys.successors u, x.1 = s := by
  constructor
  · intro hs
    obtain ⟨v, hv, rfl⟩ := List.mem_map.1 hs
    refine (h.explored.reached.origin v hv).imp_right fun ⟨u, hu, he, hx⟩ => ?_
    exact ⟨u.state, (h.isExpanded_iff hb hu).1 he, hx⟩
  · rintro (hi | ⟨u, ⟨n, hn, hu⟩, x, hx, rfl⟩)
    · obtain ⟨v, hv, rfl, -⟩ := h.explored.initial s hi
      exact List.mem_map_of_mem hv
    · obtain ⟨v, hv, rfl, l, -, hl⟩ := h.explored.expanded_of_reachesWith h.beyond hu hn
      obtain ⟨t, ht, hts, -⟩ := ((h.explored.edges v hv l hl).2 x hx).target
      exact hts ▸ List.mem_map_of_mem ht

theorem Stopped.conclude (h : Stopped sys q m) (bound : Nat) (all : Bool) :
    ∃ w, conclude bound all m = .ok (.violated w) := by
  obtain ⟨x, hx⟩ := Option.isSome_iff_exists.1 h.found
  obtain ⟨order, ho⟩ := h.order
  have hg := h.reached.found x hx
  -- a parent is older in the order than its child, so the walk back to a root ends
  have hpath : ∀ v ∈ m.store.vertices,
      ∃ path, pathTo m.store (fun a => (m.observation.mark a).parent) v = .ok path :=
    fun v hv => pathTo_ok h.reached.canonical.sound ho.lineage ho.nodup
      (fun p hp => ((ho.mem_iff p).1 hp).1) hv (ho.parent v hv)
  have htrace : ∃ trace, x.trace m.store (fun a => (m.observation.mark a).parent) = .ok trace := by
    unfold Violation.trace
    cases hvia : x.via with
    | some u =>
      obtain ⟨path, hp⟩ := hpath u (hg.via u hvia)
      exact ⟨_, by simp only [hp]; rfl⟩
    | none =>
      obtain ⟨path, hp⟩ := hpath x.vertex hg.vertex
      exact ⟨_, by simp only [hp]; rfl⟩
  obtain ⟨trace, ht⟩ := htrace
  refine ⟨⟨x.kind, trace⟩, ?_⟩
  unfold Bounded.conclude
  rw [hx]
  simp only [ht]
  rfl

theorem Finished.isEmpty_iff (h : Finished sys q all m) :
    m.store.isEmpty = true ↔ sys.initials = [] := by
  rw [Store.isEmpty, beq_iff_eq, h.explored.reached.canonical.size_eq, List.length_eq_zero_iff]
  constructor
  · intro hnil
    refine List.eq_nil_iff_forall_not_mem.2 fun s hs => ?_
    obtain ⟨v, hv, -⟩ := h.explored.initial s hs
    rw [hnil] at hv
    cases hv
  · intro hnil
    refine List.eq_nil_iff_forall_not_mem.2 fun v hv => ?_
    rcases h.explored.reached.origin v hv with hi | ⟨u, hu, he, -⟩
    · rw [hnil] at hi
      cases hi
    · obtain ⟨l, hl⟩ := LevelMark.isExpanded_iff.1 he
      have hreach := h.explored.reached.level u hu l (LevelMark.level?_eq_of_expanded hl)
      exact hreach.initials_ne_nil hnil

theorem Finished.isBeyond_iff (h : Finished sys q all m) (hb : q.level ≤ q.bound) :
    (!all && m.isBeyond q.bound) = true ↔
      ∃ v ∈ m.store.vertices, (m.observation.mark v.handle).isExpanded = false := by
  rw [Bool.and_eq_true, Bool.not_eq_true', State.isBeyond, List.any_eq_true]
  constructor
  · rintro ⟨-, v, hv, hlevel⟩
    refine ⟨v, hv, Bool.eq_false_iff.2 fun he => ?_⟩
    obtain ⟨l, hl⟩ := LevelMark.isExpanded_iff.1 he
    have hle := h.explored.reached.expanded_le v hv l hl
    rw [LevelMark.level?_eq_of_expanded hl] at hlevel
    have hlt : q.bound < l := of_decide_eq_true hlevel
    omega
  · rintro ⟨v, hv, he⟩
    refine ⟨Bool.eq_false_iff.2 fun hall => ?_, v, hv, ?_⟩
    · rw [h.closed hall v hv] at he
      cases he
    · have hw := (h.explored.waiting v hv).resolve_left (by rw [he]; exact Bool.false_ne_true)
      rw [LevelMark.level?_eq_some.2 (.inl hw)]
      exact decide_eq_true (h.beyond v hv _ hw)

theorem verdict_cases (empty beyond : Bool) :
    let v : Verdict σ := if empty then .noStates else if beyond then .boundExhausted else .holds
    (v = .noStates ↔ empty = true) ∧ (v = .boundExhausted ↔ empty = false ∧ beyond = true) ∧
      (v = .holds ↔ empty = false ∧ beyond = false) := by
  cases empty <;> cases beyond <;> simp

theorem Finished.conclude (h : Finished sys q all m) :
    conclude q.bound all m = .ok (if m.store.isEmpty then .noStates
      else if !all && m.isBeyond q.bound then .boundExhausted else .holds) := by
  unfold Bounded.conclude
  rw [h.explored.found]
  rfl

theorem Finished.states_eq (h : Finished sys q all m) (hb : q.level ≤ q.bound) :
    ∃ l : List σ, l.Nodup ∧ (∀ s, s ∈ l ↔ ∃ n ≤ q.bound, sys.ReachesWith n s) ∧
      l.length = m.stats.states := by
  obtain ⟨order, ho, hlen⟩ := h.explored.order
  refine ⟨order.map (·.state), ho.nodup.map_on fun u hu v hv he => ?_, fun s => ?_, ?_⟩
  · have hu := ((ho.mem_iff u).1 hu).1
    have hv := ((ho.mem_iff v).1 hv).1
    exact h.explored.reached.canonical.eq_of_state hu hv he
  · constructor
    · intro hs
      obtain ⟨v, hv, rfl⟩ := List.mem_map.1 hs
      obtain ⟨hvs, he⟩ := (ho.mem_iff v).1 hv
      exact (h.isExpanded_iff hb hvs).1 he
    · rintro ⟨n, hn, hs⟩
      obtain ⟨v, hv, rfl, l, -, hl⟩ := h.explored.expanded_of_reachesWith h.beyond hs hn
      exact List.mem_map_of_mem ((ho.mem_iff v).2 ⟨hv, LevelMark.isExpanded_iff.2 ⟨l, hl⟩⟩)
  · rw [List.length_map, hlen]

end Bounded

namespace Graph

/-- Some path from an initial state to `s` makes `n` context switches. -/
inductive ReachesWith (g : Graph) : Nat → Node → Prop where
  | initial {s : Node} (h : s ∈ g.initial) : ReachesWith g 0 s
  | step {n : Nat} {e : Edge} (h : ReachesWith g n e.source) (he : e ∈ g.edges) :
    ReachesWith g (n + e.flags.contextSwitch.toNat) e.target

/-- The least number of context switches on a path from an initial state to `s`. -/
noncomputable def switchDistance (g : Graph) (s : Node) : ℕ∞ :=
  ⨅ (n : Nat) (_ : g.ReachesWith n s), (n : ℕ∞)

/-- A violation of the property, with the number of context switches that it takes. The switch of
an error edge counts. -/
inductive ViolatedAt (g : Graph) : Property → ℕ∞ → Prop where
  | goal {s : Node} (h : s ∈ g.goals) : ViolatedAt g .goal (g.switchDistance s)
  | errorEdge {e : Edge} (he : e ∈ g.edges) (h : e.flags.error = true) :
    ViolatedAt g .goal (g.switchDistance e.source + e.flags.contextSwitch.toNat)
  | deadlock {s : Node} (h : ∀ e ∈ g.edges, e.source ≠ s) :
    ViolatedAt g .deadlock (g.switchDistance s)

variable {g : Graph} {ig : IndexedGraph} {s : Node}

theorem switchDistance_le_iff {k : Nat} :
    g.switchDistance s ≤ k ↔ ∃ n ≤ k, g.ReachesWith n s := by
  rw [← ENat.lt_add_one_iff (ENat.natCast_ne_top k), switchDistance, iInf_lt_iff]
  refine exists_congr fun n => ?_
  rw [iInf_lt_iff, ENat.lt_add_one_iff (ENat.natCast_ne_top k)]
  constructor
  · rintro ⟨hn, hle⟩
    exact ⟨ENat.natCast_le_natCast.1 hle, hn⟩
  · rintro ⟨hle, hn⟩
    exact ⟨hn, ENat.natCast_le_natCast.2 hle⟩

theorem switchDistance_add_le_iff {a k : Nat} :
    g.switchDistance s + a ≤ k ↔ ∃ n, n + a ≤ k ∧ g.ReachesWith n s := by
  constructor
  · intro h
    obtain ⟨d, hd⟩ := ENat.ne_top_iff_exists.1
      (ne_top_of_le_ne_top (ENat.natCast_ne_top k) (le_self_add.trans h))
    obtain ⟨n, hn, hs⟩ := switchDistance_le_iff.1 hd.ge
    rw [← hd] at h
    have hle : d + a ≤ k := by exact_mod_cast h
    exact ⟨n, by omega, hs⟩
  · rintro ⟨n, hn, hs⟩
    have hle := switchDistance_le_iff.2 ⟨n, Nat.le_refl n, hs⟩
    calc g.switchDistance s + a
      _ ≤ n + a := by gcongr
      _ ≤ k := by exact_mod_cast hn

theorem reachesWith_iff (h : g.index = .ok ig) {n : Nat} :
    ig.system.ReachesWith n s ↔ g.ReachesWith n s := by
  constructor
  · intro hs
    induction hs with
    | initial hi => exact .initial (index_initials h ▸ hi)
    | step _ hx ih =>
      obtain ⟨e, he, rfl, rfl⟩ := (mem_index_successors h).1 hx
      exact .step ih he
  · intro hs
    induction hs with
    | initial hi => exact .initial ((index_initials h).symm ▸ hi)
    | @step n e _ he ih => exact .step ih ((mem_index_successors h).2 ⟨e, he, rfl, rfl⟩)

theorem violatedWithin_iff (h : g.index = .ok ig) {bound : Nat} {property : Property} :
    ig.system.ViolatedWithin bound property ↔
      ∃ cost ≤ (bound : ℕ∞), g.ViolatedAt property cost := by
  cases property with
  | goal =>
    constructor
    · rintro (⟨s, n, hs, hn, hg⟩ | ⟨s, n, hs, x, hx, hn, herr⟩)
      · exact ⟨_, switchDistance_le_iff.2 ⟨n, hn, (reachesWith_iff h).1 hs⟩,
          .goal ((index_goal h s).1 hg)⟩
      · obtain ⟨e, he, rfl, rfl⟩ := (mem_index_successors h).1 hx
        exact ⟨_, switchDistance_add_le_iff.2 ⟨n, hn, (reachesWith_iff h).1 hs⟩,
          .errorEdge he herr⟩
    · rintro ⟨cost, hle, hv⟩
      cases hv with
      | @goal s hg =>
        obtain ⟨n, hn, hs⟩ := switchDistance_le_iff.1 hle
        exact .inl ⟨s, n, (reachesWith_iff h).2 hs, hn, (index_goal h s).2 hg⟩
      | @errorEdge e he herr =>
        obtain ⟨n, hn, hs⟩ := switchDistance_add_le_iff.1 hle
        exact .inr ⟨e.source, n, (reachesWith_iff h).2 hs, (e.target, e.flags),
          (mem_index_successors h).2 ⟨e, he, rfl, rfl⟩, hn, herr⟩
  | deadlock =>
    constructor
    · rintro ⟨s, n, hs, hn, hnil⟩
      exact ⟨_, switchDistance_le_iff.2 ⟨n, hn, (reachesWith_iff h).1 hs⟩,
        .deadlock ((successors_eq_nil_iff h).1 hnil)⟩
    · rintro ⟨cost, hle, hv⟩
      cases hv with
      | @deadlock s hs =>
        obtain ⟨n, hn, hr⟩ := switchDistance_le_iff.1 hle
        exact ⟨s, n, (reachesWith_iff h).2 hr, hn, (successors_eq_nil_iff h).2 hs⟩
  | liveness =>
    constructor
    · rintro ⟨⟩
    · rintro ⟨cost, -, ⟨⟩⟩

theorem ncard_of_mem_iff {l : List Node} {p : Node → Prop} (hl : l.Nodup)
    (h : ∀ s, s ∈ l ↔ p s) : {s | p s}.ncard = l.length := by
  have hset : {s | p s} = ↑l.toFinset := by
    ext s
    rw [Set.mem_ofPred_eq, Finset.mem_coe, List.mem_toFinset, h]
  rw [hset, Set.ncard_coe_finset, List.toFinset_card_of_nodup hl]

theorem exists_lt_switchDistance_iff (h : g.index = .ok ig) {k : Nat} :
    (∃ n s, ig.system.ReachesWith n s ∧ ∀ j, ig.system.ReachesWith j s → k < j) ↔
      ∃ s, (k : ℕ∞) < g.switchDistance s ∧ g.switchDistance s ≠ ⊤ := by
  rw [exists_comm]
  refine exists_congr fun s => ?_
  have hfar : (∀ j, ig.system.ReachesWith j s → k < j) ↔ (k : ℕ∞) < g.switchDistance s := by
    rw [← not_le, switchDistance_le_iff]
    push Not
    refine forall_congr' fun j => ⟨fun hj hle hs => ?_, fun hj hs => ?_⟩
    · have hlt := hj ((reachesWith_iff h).2 hs)
      omega
    · exact Nat.lt_of_not_le fun hle => hj hle ((reachesWith_iff h).1 hs)
  constructor
  · rintro ⟨n, hs, hj⟩
    refine ⟨hfar.1 hj, ne_top_of_le_ne_top (ENat.natCast_ne_top n) ?_⟩
    exact switchDistance_le_iff.2 ⟨n, Nat.le_refl n, (reachesWith_iff h).1 hs⟩
  · rintro ⟨hlt, hne⟩
    obtain ⟨d, hd⟩ := ENat.ne_top_iff_exists.1 hne
    obtain ⟨n, -, hs⟩ := switchDistance_le_iff.1 hd.ge
    exact ⟨n, (reachesWith_iff h).2 hs, hfar.2 hlt⟩

/-- What a bounded search reports that finds no violation. -/
structure Cleared (g : Graph) (bound : Nat) (report : SafetyReport Node) : Prop where
  noStates : report.verdict = .noStates ↔ g.initial = []
  boundExhausted : report.verdict = .boundExhausted ↔
    ∃ s, (bound : ℕ∞) < g.switchDistance s ∧ g.switchDistance s ≠ ⊤
  holds : report.verdict = .holds ↔
    g.initial ≠ [] ∧ ∀ s, g.switchDistance s ≠ ⊤ → g.switchDistance s ≤ bound
  expanded : report.stats.states = {s | g.switchDistance s ≤ bound}.ncard
  stored : report.stored = {s | s ∈ g.initial ∨
    ∃ e ∈ g.edges, g.switchDistance e.source ≤ bound ∧ e.target = s}.ncard

theorem exists_reachesWith_iff (h : g.index = .ok ig) {k : Nat} :
    (∃ n ≤ k, ig.system.ReachesWith n s) ↔ g.switchDistance s ≤ k := by
  rw [switchDistance_le_iff]
  exact exists_congr fun n => and_congr_right fun _ => reachesWith_iff h

theorem cleared (h : g.index = .ok ig) {q : Bounded.Query} {all : Bool} {m : Bounded.State Node}
    (hf : Bounded.Finished ig.system q all m) (hb : q.level ≤ q.bound) {v : Verdict Node}
    (hv : Bounded.conclude q.bound all m = .ok v) :
    g.Cleared q.bound ⟨v, m.stats, m.store.size⟩ := by
  have hempty := hf.isEmpty_iff
  have hbeyond := (hf.isBeyond_iff hb).trans
    ((hf.waiting_iff hb).trans (exists_lt_switchDistance_iff h))
  rw [index_initials h] at hempty
  have hreach : (∃ s, (q.bound : ℕ∞) < g.switchDistance s ∧ g.switchDistance s ≠ ⊤) →
      g.initial ≠ [] := by
    intro hs
    obtain ⟨n, s, hs, -⟩ := (exists_lt_switchDistance_iff h).2 hs
    exact index_initials h ▸ hs.initials_ne_nil
  have hall : (∀ s, g.switchDistance s ≠ ⊤ → g.switchDistance s ≤ q.bound) ↔
      ¬ ∃ s, (q.bound : ℕ∞) < g.switchDistance s ∧ g.switchDistance s ≠ ⊤ := by
    push Not
    exact forall_congr' fun s => ⟨fun hs hlt => not_not.1 fun hne => absurd (hs hne) (not_le.2 hlt),
      fun hs hne => le_of_not_gt fun hlt => hne (hs hlt)⟩
  obtain rfl := Except.ok.inj (hf.conclude.symm.trans hv)
  obtain ⟨hno, hex, hho⟩ :=
    Bounded.verdict_cases (σ := Node) m.store.isEmpty (!all && m.isBeyond q.bound)
  refine ⟨hno.trans hempty, hex.trans ?_, hho.trans ?_, ?_, ?_⟩
  · rw [hbeyond, ← Bool.not_eq_true, hempty]
    exact and_iff_right_of_imp hreach
  · rw [← Bool.not_eq_true, ← Bool.not_eq_true, hempty, hbeyond, hall]
  · obtain ⟨l, hl, hmem, hlen⟩ := hf.states_eq hb
    rw [ncard_of_mem_iff hl fun s => (hmem s).trans (exists_reachesWith_iff h), hlen]
  · have hcan := hf.explored.reached.canonical
    rw [ncard_of_mem_iff hcan.nodup fun s => ?_, List.length_map, hcan.size_eq]
    rw [hf.mem_states_iff hb, index_initials h]
    refine or_congr_right ⟨?_, ?_⟩
    · rintro ⟨u, hu, x, hx, rfl⟩
      obtain ⟨e, he, rfl, rfl⟩ := (mem_index_successors h).1 hx
      exact ⟨e, he, (exists_reachesWith_iff h).1 hu, rfl⟩
    · rintro ⟨e, he, hle, rfl⟩
      exact ⟨e.source, (exists_reachesWith_iff h).2 hle, (e.target, e.flags),
        (mem_index_successors h).2 ⟨e, he, rfl, rfl⟩, rfl⟩

/-- A bounded search without reduction returns a report. It is a violation if and only if one lies
within the bound; otherwise it tells whether all reachable states do, and it has expanded each state
within the bound once. This holds for every number of workers and every fair timetable. If the store
is partitioned, it has at most 2^32 partitions, as many as handles can tell apart. -/
theorem boundedSearch_exact (h : g.index = .ok ig) (c : SearchConfig) (bound : UInt32)
    (timetable : Bounded.Timetable) (hfair : timetable.Fair c.workerCount)
    (hr : c.reduction = false) (hl : c.maxStates = none)
    (hw : c.partitioned = true → c.workerCount ≤ UInt32.size) (hb : bound.toNat ≤ 2 ^ 31 - 3) :
    ∃ report, boundedSearch ig.system c bound timetable = .ok report ∧
      ((∃ w, report.verdict = .violated w) ↔
        ∃ cost ≤ (bound.toNat : ℕ∞), g.ViolatedAt c.property cost) ∧
      ((¬ ∃ w, report.verdict = .violated w) → g.Cleared bound.toNat report) := by
  have hmax : bound.toNat + 1 ≤ maxLevel := by
    unfold maxLevel
    omega
  obtain ⟨all, m, l, hle, hexplore, hcase⟩ :=
    Bounded.explore_ends (index_explicit h) hr hmax hfair hw hl
  have hrun : ∀ {v}, Bounded.conclude bound.toNat all m = .ok v →
      boundedSearch ig.system c bound timetable = .ok ⟨v, m.stats, m.store.size⟩ := by
    intro v hv
    unfold boundedSearch
    simp only [hexplore, hv, bind, Except.bind, Except.mapError, pure, Except.pure]
  rcases hcase with hstop | hdone
  · obtain ⟨w, hcon⟩ := hstop.conclude bound.toNat all
    obtain ⟨x, hx⟩ := Option.isSome_iff_exists.1 hstop.found
    have hwithin := (hstop.reached.found x hx).within
    exact ⟨_, hrun hcon, iff_of_true ⟨w, rfl⟩ ((violatedWithin_iff h).1 hwithin),
      fun hno => absurd ⟨w, rfl⟩ hno⟩
  · have hnot := hdone.not_violatedWithin
    refine ⟨_, hrun hdone.conclude, iff_of_false ?_ ((violatedWithin_iff h).not.1 hnot),
      fun _ => cleared h hdone hle hdone.conclude⟩
    rintro ⟨w, hv⟩
    dsimp only at hv
    split at hv
    · cases hv
    · split at hv <;> cases hv

/-- A switch to a state that goes on without one. -/
def switchChain : Graph where
  initial := [0]
  edges := [{ source := 0, target := 1, flags := { contextSwitch := true } },
    { source := 1, target := 2 }]

theorem boundedSearch_exact_switchChain :
    ∃ ig, switchChain.index = .ok ig ∧
      ∃ report, boundedSearch ig.system { workers := 2, partitioned := true } 1 = .ok report ∧
        ((∃ w, report.verdict = .violated w) ↔
          ∃ cost ≤ ((1 : UInt32).toNat : ℕ∞), switchChain.ViolatedAt .deadlock cost) ∧
        ((¬ ∃ w, report.verdict = .violated w) →
          switchChain.Cleared (1 : UInt32).toNat report) :=
  ⟨_, rfl, boundedSearch_exact rfl { workers := 2, partitioned := true } 1 _
    (Bounded.Timetable.fair_inTurn _) rfl rfl (fun _ => by decide) (by decide)⟩

/-- A state beyond the bound is stored if an edge from a state within the bound leads to it. That
another state is but one switch further than the bound does not suffice. -/
theorem stored_ne_ncard_succ_bound :
    ∃ ig report, switchChain.index = .ok ig ∧
      boundedSearch ig.system { property := .goal } 0 = .ok report ∧
      report.verdict = .boundExhausted ∧ report.stored = 2 ∧
      {s | switchChain.switchDistance s ≤ (1 : Nat)}.ncard = 3 := by
  refine ⟨_, ⟨.boundExhausted, { states := 1, edges := 1 }, 2⟩, rfl, by decide +kernel, rfl, rfl,
    ?_⟩
  refine ncard_of_mem_iff (l := [0, 1, 2]) (by decide) fun s => ?_
  rw [switchDistance_le_iff]
  constructor
  · have h0 : switchChain.ReachesWith 0 0 := .initial (by decide)
    have h1 : switchChain.ReachesWith 1 1 :=
      .step (e := { source := 0, target := 1, flags := { contextSwitch := true } }) h0 (by decide)
    have h2 : switchChain.ReachesWith 1 2 :=
      .step (e := { source := 1, target := 2 }) h1 (by decide)
    intro hs
    simp only [List.mem_cons, List.not_mem_nil, or_false] at hs
    rcases hs with rfl | rfl | rfl
    · exact ⟨0, by decide, h0⟩
    · exact ⟨1, by decide, h1⟩
    · exact ⟨1, by decide, h2⟩
  · rintro ⟨n, -, hs⟩
    cases hs with
    | initial hi =>
      obtain rfl := List.mem_singleton.1 hi
      decide
    | step _ he =>
      simp only [switchChain, List.mem_cons, List.not_mem_nil, or_false] at he
      rcases he with rfl | rfl
      · decide
      · decide

end Graph

end ModelChecker
