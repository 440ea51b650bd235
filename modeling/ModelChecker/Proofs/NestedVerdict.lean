import ModelChecker.Proofs.NestedComplete
import ModelChecker.Proofs.NestedLasso

namespace ModelChecker

open Relation

namespace Nested

variable {σ : Type} {sys : System σ} {config : SearchConfig}

theorem explore_of_initials_eq_nil (h : sys.initials = []) :
    explore sys config =
      ⟨.ofShards Store.defaultShards config.stateLimit, {}, {}, some .completed⟩ := by
  unfold explore DepthFirst.run DepthFirst.enough
  simp only [Seeds.resolve, h, System.resolve]
  generalize sys.extent * (sys.degree + 1) = n
  cases n <;> rfl

theorem kept_strict (hx : sys.Explicit) (config : SearchConfig)
    (hno : ¬ SearchesAhead sys.Joins sys.initials (sys.accepting · = true)) :
    Kept sys config fun _ opened p => Outer.Strict sys opened p where
  start _ _ _ _ := Outer.strict_start
  turn _ _ _ _ _ h ht := h.holds.turn h.inv hx h.seeded hno ht

theorem Outer.Inv.initials_eq_nil {reduction : Bool} {limit : Option Nat}
    {vs : List (Vertex σ × Bool)} {opened : List (Vertex σ)} {p : DepthFirst.Position σ (Outer σ)}
    (h : Inv sys reduction limit vs opened [] p) (hseed : Seeded sys vs)
    (hempty : p.store.isEmpty = true) : sys.initials = [] := by
  rw [Store.isEmpty, beq_iff_eq, h.canonical.size_eq, List.length_eq_zero_iff] at hempty
  refine List.eq_nil_iff_forall_not_mem.2 fun s hs => ?_
  obtain ⟨v, hv, -⟩ := h.stored_initial hseed hs
  rw [hempty] at hv
  cases hv

theorem nestedSearch_of_initials_eq_nil (h : sys.initials = []) :
    nestedSearch sys config = .ok ⟨.noStates, {}, 0⟩ := by
  unfold nestedSearch
  rw [explore_of_initials_eq_nil h]
  rfl

end Nested

namespace Graph

variable {g : Graph} {ig : IndexedGraph} {config : SearchConfig}

/-- Some accepting state can be reached and leads back to itself. -/
def HasAcceptingCycle (g : Graph) : Prop :=
  ∃ a ∈ g.accepting, g.Reachable a ∧ TransGen g.Joins a a

/-- Some initial state can be met by the inner search of an accepting state while it waits to be
opened. -/
def SearchesAhead (g : Graph) : Prop :=
  ModelChecker.SearchesAhead g.Joins g.initial (· ∈ g.accepting)

theorem index_searchesAhead (h : g.index = .ok ig) :
    ModelChecker.SearchesAhead ig.system.Joins ig.system.initials (ig.system.accepting · = true) ↔
      g.SearchesAhead := by
  have hacc : (fun a => ig.system.accepting a = true) = (· ∈ g.accepting) := by
    funext a
    exact propext (index_accepting h a)
  rw [index_joins h, index_initials h, hacc]
  rfl

theorem reflTransGen_of_head? {l : List Node} (hl : l.IsChain g.Joins) {a b : Node}
    (ha : l.head? = some a) (hb : b ∈ l) : ReflTransGen g.Joins a b := by
  obtain ⟨rest, rfl⟩ := List.head?_eq_some_iff.1 ha
  have hleads := (hl.imp fun _ _ => ReflTransGen.single).pairwise
  rcases List.mem_cons.1 hb with rfl | hb
  · exact .refl
  · exact (List.pairwise_cons.1 hleads).1 b hb

theorem reflTransGen_of_getLast? {l : List Node} (hl : l.IsChain g.Joins) {a b : Node}
    (ha : a ∈ l) (hb : l.getLast? = some b) : ReflTransGen g.Joins a b := by
  obtain ⟨front, rfl⟩ := List.getLast?_eq_some_iff.1 hb
  have hleads := (hl.imp fun _ _ => ReflTransGen.single).pairwise
  rcases List.mem_append.1 ha with ha | ha
  · exact (List.pairwise_append.1 hleads).2.2 a ha b List.mem_cons_self
  · obtain rfl := List.mem_singleton.1 ha
    exact .refl

theorem IsLasso.goal_cycle {l : Lasso Node} (h : g.IsLasso l) :
    g.Reachable l.goal ∧ TransGen g.Joins l.goal l.goal := by
  have hpath : l.path = l.tail ++ l.cycle := List.append_assoc _ _ _
  have hgoal : l.goal ∈ l.path := hpath ▸ List.mem_append_right _ h.goal
  obtain ⟨s, hs, hhead⟩ := h.initial
  obtain ⟨a, b, ha, hb, hab⟩ := h.back
  have hcycle : l.cycle.IsChain g.Joins := (hpath ▸ h.joined).right_of_append
  have hfirst : l.cycle.head? = some b := by
    rw [hpath, Lasso.cycleStart, List.getElem?_append_right (Nat.le_refl _), Nat.sub_self] at hb
    rw [List.head?_eq_getElem?, hb]
  -- from the goal to the last state, back to the start of the cycle and on to the goal
  have hround : TransGen g.Joins l.goal l.goal :=
    .trans_left (.tail' (reflTransGen_of_getLast? h.joined hgoal ha) hab)
      (reflTransGen_of_head? hcycle hfirst h.goal)
  exact ⟨⟨s, hs, reflTransGen_of_head? h.joined hhead hgoal⟩, hround⟩

theorem IsLasso.hasAcceptingCycle {l : Lasso Node} (h : g.IsLasso l) : g.HasAcceptingCycle :=
  ⟨l.goal, h.accepting, h.goal_cycle⟩

/-- The edges that the outer search takes: to the ample set of a state that it marked as reduced,
and all edges out of any other state. -/
def Expands (g : Graph) (e : Exploration Node (Nested.Outer Node)) (a b : Node) : Prop :=
  g.Joins a b ∧
    ((∃ v ∈ e.store.vertices, v.state = a ∧ (e.observation.mark v.handle).reduced = true) →
      ∃ targets, (a, targets) ∈ g.ample.entries ∧ b ∈ targets)

theorem Expands.index (h : g.index = .ok ig) {e : Exploration Node (Nested.Outer Node)} {a b : Node}
    (hab : g.Expands e a b) : Nested.Expands ig.system e.store e.observation a b := by
  refine ⟨(joins_iff h).1 hab.1, fun hr => ?_⟩
  obtain ⟨targets, hm, hb⟩ := hab.2 hr
  obtain ⟨l, hl, hn⟩ := index_ample_of_mem h hm hb
  rw [hl]
  exact hn

theorem not_cycle_of_holds (h : g.index = .ok ig) (hno : ¬ g.SearchesAhead)
    {report : LivenessReport Node} (hr : nestedSearch ig.system config = .ok report)
    (hv : report.verdict = .holds) {s a : Node} (hs : s ∈ g.initial) (ha : a ∈ g.accepting)
    (hsa : ReflTransGen (g.Expands (Nested.explore ig.system config)) s a) :
    ¬ TransGen (g.Expands (Nested.explore ig.system config)) a a := by
  have hx := index_explicit h
  have hout := Nested.nestedSearch_outcome hx
    (Nested.kept_strict hx config (mt (index_searchesAhead h).1 hno))
  rw [hr] at hout
  cases hout with
  | violated => cases hv
  | @cleared vs opened store o stats stats' hend he =>
    rw [he] at hsa ⊢
    refine fun hcycle => hend.holds.finish hend.inv hx hend.seeded (index_initials h ▸ hs)
      (ReflTransGen.mono (fun _ _ => Expands.index h) _ _ hsa) ((index_accepting h a).2 ha) ?_
    exact TransGen.mono (fun _ _ => Expands.index h) _ _ hcycle

theorem expands_eq_joins (h : g.index = .ok ig) (hred : config.reduction = false)
    {report : LivenessReport Node} (hr : nestedSearch ig.system config = .ok report)
    (hv : report.verdict = .holds) : g.Expands (Nested.explore ig.system config) = g.Joins := by
  have hout := Nested.nestedSearch_outcome (index_explicit h) (Nested.kept_true _ config)
  rw [hr] at hout
  cases hout with
  | violated => cases hv
  | @cleared vs opened store o stats stats' hend he =>
    funext a b
    refine propext (and_iff_left_of_imp ?_)
    rintro - ⟨v, -, -, hm⟩
    have hfull : ∀ a, (o.mark a).reduced = false := hend.inv.full hred
    rw [he, hfull] at hm
    cases hm

theorem noStates_iff (h : g.index = .ok ig) :
    (∃ report, nestedSearch ig.system config = .ok report ∧ report.verdict = .noStates) ↔
      g.initial = [] := by
  have hout := Nested.nestedSearch_outcome (index_explicit h) (Nested.kept_true _ config)
  rw [← index_initials h]
  constructor
  · rintro ⟨report, hr, hv⟩
    rw [hr] at hout
    cases hout with
    | violated => cases hv
    | @cleared vs opened store o stats stats' hend he =>
      refine hend.inv.initials_eq_nil hend.seeded ?_
      by_contra hne
      simp only [hne, if_false, reduceCtorEq] at hv
  · intro hnil
    exact ⟨_, Nested.nestedSearch_of_initials_eq_nil hnil, rfl⟩

/-- If no initial state is reached from a different one that is listed before it, a nested search
leaves no accepting cycle among the edges that it took when it finds that the property holds. -/
theorem nestedSearch_complete (h : g.index = .ok ig) (config : SearchConfig)
    (hfirst : g.initial.Pairwise fun a b => a ≠ b → ¬ ReflTransGen g.Joins a b) :
    ((∃ report, nestedSearch ig.system config = .ok report ∧ report.verdict = .noStates) ↔
      g.initial = []) ∧
    ∀ report, nestedSearch ig.system config = .ok report → report.verdict = .holds →
      (config.reduction = false → g.Expands (Nested.explore ig.system config) = g.Joins) ∧
      ∀ s ∈ g.initial, ∀ a ∈ g.accepting,
        ReflTransGen (g.Expands (Nested.explore ig.system config)) s a →
        ¬ TransGen (g.Expands (Nested.explore ig.system config)) a a :=
  ⟨noStates_iff h, fun _ hr hv => ⟨fun hred => expands_eq_joins h hred hr hv, fun _ hs _ ha hsa =>
    not_cycle_of_holds h (not_searchesAhead_of_pairwise hfirst) hr hv hs ha hsa⟩⟩

/-- Two states that do not meet. The ample set of the first leaves out an accepting self-loop. -/
def reducedFork : Graph where
  initial := [0, 3]
  edges := [{ source := 0, target := 1 }, { source := 0, target := 2 }, { source := 2, target := 2 }]
  accepting := [1, 2]
  ample := AmpleSets.empty.insert 0 [1]

theorem nestedSearch_complete_reducedFork :
    ∃ ig report, reducedFork.index = .ok ig ∧
      nestedSearch ig.system { reduction := true } = .ok report ∧ report.verdict = .holds ∧
      ∀ s ∈ reducedFork.initial, ∀ a ∈ reducedFork.accepting,
        ReflTransGen (reducedFork.Expands (Nested.explore ig.system { reduction := true })) s a →
        ¬ TransGen (reducedFork.Expands (Nested.explore ig.system { reduction := true })) a a := by
  have hrun : ∃ ig, reducedFork.index = .ok ig ∧ nestedSearch ig.system { reduction := true } =
      .ok ⟨.holds, { states := 4, edges := 1, deadlocks := 3 }, 3⟩ := ⟨_, rfl, by decide +kernel⟩
  obtain ⟨ig, hi, hr⟩ := hrun
  -- no edge leads to the second initial state
  have hfirst : reducedFork.initial.Pairwise
      fun a b => a ≠ b → ¬ ReflTransGen reducedFork.Joins a b := by
    refine List.pairwise_pair.2 fun hne hr => ?_
    rcases hr.cases_tail with heq | ⟨c, -, e, he, -, ht⟩
    · exact hne heq.symm
    · have hno : ∀ e ∈ reducedFork.edges, e.target ≠ 3 := by decide
      exact hno e he ht
  exact ⟨ig, _, hi, hr, rfl, ((nestedSearch_complete hi _ hfirst).2 _ hr rfl).2⟩

/-- A nested search of the graph reports a lasso. -/
def Finds (g : Graph) (config : SearchConfig) : Prop :=
  ∃ ig report l, g.index = .ok ig ∧ nestedSearch ig.system config = .ok report ∧
    report.verdict = .violated l

/-- A nested search of the graph reports that the property holds. -/
def Clears (g : Graph) (config : SearchConfig) : Prop :=
  ∃ ig report, g.index = .ok ig ∧ nestedSearch ig.system config = .ok report ∧
    report.verdict = .holds

theorem clears_iff (h : g.index = .ok ig) (hl : config.maxStates = none) (hne : g.initial ≠ []) :
    g.Clears config ↔ ¬ g.Finds config := by
  have huniq : ∀ {ig'}, g.index = .ok ig' → ig' = ig := fun h' => Except.ok.inj (h'.symm.trans h)
  constructor
  · rintro ⟨ig₁, report₁, h₁, hr₁, hv₁⟩ ⟨ig₂, report₂, l, h₂, hr₂, hv₂⟩
    obtain rfl := huniq h₁
    obtain rfl := huniq h₂
    obtain rfl := Except.ok.inj (hr₁.symm.trans hr₂)
    cases hv₁.symm.trans hv₂
  · intro hnot
    cases hr : nestedSearch ig.system config with
    | error e => exact absurd hl (maxStates_of_error h hr).1
    | ok report =>
      refine ⟨ig, report, h, hr, ?_⟩
      cases hv : report.verdict with
      | noStates => exact absurd ((noStates_iff h).1 ⟨report, hr, hv⟩) hne
      | holds => rfl
      | violated l => exact absurd ⟨ig, report, l, h, hr, hv⟩ hnot

theorem Finds.hasAcceptingCycle (hf : g.Finds config) : g.HasAcceptingCycle := by
  obtain ⟨ig, report, l, h, hr, hv⟩ := hf
  exact (isLasso_of_violated h hr hv).hasAcceptingCycle

theorem HasAcceptingCycle.finds (hcycle : g.HasAcceptingCycle) (h : g.index = .ok ig)
    (hred : config.reduction = false) (hl : config.maxStates = none) (hno : ¬ g.SearchesAhead) :
    g.Finds config := by
  obtain ⟨a, ha, ⟨s, hs, hsa⟩, hcycle⟩ := hcycle
  by_contra hnot
  obtain ⟨ig', report, h', hr, hv⟩ := (clears_iff h hl (List.ne_nil_of_mem hs)).2 hnot
  have heq := expands_eq_joins h' hred hr hv
  exact not_cycle_of_holds h' hno hr hv hs ha (heq ▸ hsa) (heq ▸ hcycle)

end Graph

end ModelChecker
