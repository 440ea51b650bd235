import Mathlib.Data.List.Chain
import ModelChecker.Proofs.Explicit
import ModelChecker.Proofs.NestedRun

namespace ModelChecker

theorem Linked.head_mem_initials {σ : Type} {sys : System σ} {path : List (Vertex σ)}
    (h : Linked sys path) (hne : path ≠ []) :
    ∃ v, path.getLast? = some v ∧ v.state ∈ sys.initials := by
  induction h with
  | nil => exact absurd rfl hne
  | @root v h => exact ⟨v, rfl, h⟩
  | cons _ _ _ ih =>
    obtain ⟨v, hv, hi⟩ := ih (List.cons_ne_nil _ _)
    exact ⟨v, hv, hi⟩

theorem Linked.isChain {σ : Type} {sys : System σ} {path : List (Vertex σ)} (h : Linked sys path) :
    path.IsChain fun w v => ∃ n ∈ sys.successors v.state, n.1 = w.state := by
  induction h with
  | nil => exact .nil
  | root => exact .singleton _
  | @cons v w rest h n hn hw ih => exact ih.cons_cons ⟨n, hn, hw⟩

namespace Graph

variable {g : Graph} {ig : IndexedGraph}

/-- A path from an initial state that visits no state twice and whose last state leads back to where
the cycle starts. The goal is an accepting state on the cycle. -/
structure IsLasso (g : Graph) (l : Lasso Node) : Prop where
  initial : ∃ s ∈ g.initial, l.path.head? = some s
  joined : l.path.IsChain g.Joins
  back : ∃ a b, l.path.getLast? = some a ∧ l.path[l.cycleStart]? = some b ∧ g.Joins a b
  nodup : l.path.Nodup
  accepting : l.goal ∈ g.accepting
  goal : l.goal ∈ l.cycle

theorem isLasso_map (h : g.index = .ok ig) {l : Lasso (Vertex Node)}
    (hl : Nested.IsLasso ig.system l) : g.IsLasso (l.map (·.state)) := by
  have hpath : (l.map (·.state)).path = l.path.map (·.state) := by
    simp only [Lasso.map, Lasso.path, List.map_append]
  have hcycle : (l.map (·.state)).cycle = l.cycle.map (·.state) := (List.map_append ..).symm
  have hstart : (l.map (·.state)).cycleStart = l.cycleStart := List.length_map _
  obtain ⟨v, t, hv, ht, n, hn, hnt⟩ := hl.back
  refine ⟨?_, ?_, ⟨v.state, t.state, ?_, ?_, (joins_iff h).2 ⟨n, hn, hnt⟩⟩, hpath ▸ hl.nodup,
    (index_accepting h _).1 hl.accepting, hcycle ▸ List.mem_map_of_mem hl.goal⟩
  · have hne : l.path.reverse ≠ [] := by
      rw [Ne, List.reverse_eq_nil_iff]
      rintro hnil
      rw [hnil] at hv
      cases hv
    obtain ⟨s, hs, hi⟩ := hl.linked.head_mem_initials hne
    rw [List.getLast?_reverse] at hs
    refine ⟨s.state, index_initials h ▸ hi, ?_⟩
    rw [hpath, List.head?_map, hs]
    rfl
  · rw [hpath, List.isChain_map]
    refine (List.isChain_reverse.1 hl.linked.isChain).imp fun a b hab => ?_
    exact (joins_iff h).2 hab
  · rw [hpath, List.getLast?_map, hv]
    rfl
  · rw [hpath, hstart, List.getElem?_map, ht]
    rfl

theorem maxStates_of_error (h : g.index = .ok ig) {config : SearchConfig} {e : SearchError}
    (he : nestedSearch ig.system config = .error e) :
    config.maxStates ≠ none ∧ ∃ n, e = .outOfMemory n := by
  have hout := Nested.nestedSearch_outcome (index_explicit h) (Nested.kept_true _ config)
  rw [he] at hout
  cases hout with
  | full hl => exact ⟨hl, _, rfl⟩

theorem isLasso_of_violated (h : g.index = .ok ig) {config : SearchConfig}
    {report : LivenessReport Node} {l : Lasso Node}
    (hr : nestedSearch ig.system config = .ok report) (hv : report.verdict = .violated l) :
    g.IsLasso l := by
  have hout := Nested.nestedSearch_outcome (index_explicit h) (Nested.kept_true _ config)
  rw [hr] at hout
  cases hout with
  | violated _ hl _ =>
    cases hv
    exact isLasso_map h hl
  | @cleared vs opened store o stats stats' _ _ =>
    cases hs : store.isEmpty with
    | true => simp only [hs, if_true, reduceCtorEq] at hv
    | false => simp only [hs, Bool.false_eq_true, if_false, reduceCtorEq] at hv

/-- The only error of a nested search is that it met the limit, and a violation that it reports is a
lasso of the graph. -/
theorem nestedSearch_lasso (h : g.index = .ok ig) (config : SearchConfig) :
    (∀ e, nestedSearch ig.system config = .error e →
      config.maxStates ≠ none ∧ ∃ n, e = .outOfMemory n) ∧
    ∀ report l, nestedSearch ig.system config = .ok report → report.verdict = .violated l →
      g.IsLasso l :=
  ⟨fun _ he => maxStates_of_error h he, fun _ _ hr hv => isLasso_of_violated h hr hv⟩

/-- A cycle through an accepting state that is entered elsewhere; its start is listed twice. -/
def enteredCycle : Graph where
  initial := [0, 0]
  edges := [{ source := 0, target := 1 }, { source := 1, target := 2 }, { source := 2, target := 1 }]
  accepting := [2]

theorem nestedSearch_lasso_enteredCycle :
    ∃ ig report, enteredCycle.index = .ok ig ∧
      nestedSearch ig.system { reduction := true, maxStates := some 3 } = .ok report ∧
      report.verdict = .violated ⟨[0], [1], [2], 2⟩ ∧ enteredCycle.IsLasso ⟨[0], [1], [2], 2⟩ := by
  have hrun : ∃ ig, enteredCycle.index = .ok ig ∧
      nestedSearch ig.system { reduction := true, maxStates := some 3 } =
        .ok ⟨.violated ⟨[0], [1], [2], 2⟩, { states := 4, edges := 4 }, 3⟩ :=
    ⟨_, rfl, by decide +kernel⟩
  obtain ⟨ig, hi, hr⟩ := hrun
  exact ⟨ig, _, hi, hr, rfl, (nestedSearch_lasso hi _).2 _ _ hr rfl⟩

end Graph

end ModelChecker
