import ModelChecker.Proofs.Explicit

namespace ModelChecker

def FirstFailing {α : Type} (ok : α → Prop) (l : List α) (x : α) : Prop :=
  ∃ before after, l = before ++ x :: after ∧ (∀ y ∈ before, ok y) ∧ ¬ok x

theorem not_firstFailing_nil {α : Type} {ok : α → Prop} {x : α} : ¬FirstFailing ok [] x := by
  rintro ⟨before, after, heq, -⟩
  cases before <;> cases heq

theorem firstFailing_cons_of_not {α : Type} {ok : α → Prop} {y : α} {l : List α} {x : α}
    (hy : ¬ok y) : FirstFailing ok (y :: l) x ↔ x = y := by
  constructor
  · rintro ⟨before, after, heq, hbefore, -⟩
    cases before with
    | nil => exact (List.cons.inj heq).1.symm
    | cons z before =>
      cases heq
      exact absurd (hbefore _ List.mem_cons_self) hy
  · rintro rfl
    exact ⟨[], l, rfl, nofun, hy⟩

theorem firstFailing_cons_of_ok {α : Type} {ok : α → Prop} {y : α} {l : List α} {x : α}
    (hy : ok y) : FirstFailing ok (y :: l) x ↔ FirstFailing ok l x := by
  constructor
  · rintro ⟨before, after, heq, hbefore, hx⟩
    cases before with
    | nil => exact absurd ((List.cons.inj heq).1 ▸ hy) hx
    | cons z before =>
      cases heq
      exact ⟨before, after, rfl, (List.forall_mem_cons.1 hbefore).2, hx⟩
  · rintro ⟨before, after, rfl, hbefore, hx⟩
    exact ⟨y :: before, after, rfl, List.forall_mem_cons.2 ⟨hy, hbefore⟩, hx⟩

namespace Graph

theorem joins_iff_mem_successorMap {g : Graph} {a b : Node} :
    g.Joins a b ↔ ∃ n ∈ (successorMap g.edges).getD a [], n.1 = b := by
  rw [successorMap_getD]
  constructor
  · rintro ⟨e, he, hs, ht⟩
    exact ⟨_, List.mem_map_of_mem (List.mem_filter.2 ⟨he, beq_iff_eq.2 hs⟩), ht⟩
  · rintro ⟨n, hn, hb⟩
    obtain ⟨e, he, rfl⟩ := List.mem_map.1 hn
    obtain ⟨he, hs⟩ := List.mem_filter.1 he
    exact ⟨e, he, beq_iff_eq.1 hs, hb⟩

variable {all : List (Successor Node)} {targets : List Node}

theorem selectTargets_eq_flatMap {l : List (Successor Node)} (h : selectTargets all targets = .ok l) :
    l = targets.flatMap fun t => all.filter (·.1 == t) := by
  induction targets generalizing l with
  | nil =>
    cases h
    rfl
  | cons t rest ih =>
    obtain ⟨-, r, hr, rfl⟩ := selectTargets_cons h
    rw [List.flatMap_cons, ih hr]

theorem selectTargets_eq_error_iff {t : Node} : selectTargets all targets = .error t ↔
    FirstFailing (fun t => ∃ n ∈ all, n.1 = t) targets t := by
  induction targets with
  | nil => exact iff_of_false nofun not_firstFailing_nil
  | cons x rest ih =>
    rw [selectTargets]
    split
    · rename_i hnil
      rw [firstFailing_cons_of_not]
      · exact ⟨fun h => (Except.error.inj h).symm, fun h => h ▸ rfl⟩
      · rintro ⟨n, hn, rfl⟩
        exact List.filter_eq_nil_iff.1 hnil n hn (beq_self_eq_true _)
    · rename_i e es hcons
      obtain ⟨he, hx⟩ := List.mem_filter.1 (hcons ▸ List.mem_cons_self : e ∈ all.filter (·.1 == x))
      rw [firstFailing_cons_of_ok ⟨e, he, beq_iff_eq.1 hx⟩, ← ih]
      cases selectTargets all rest <;> simp [Except.map]

def NamesSuccessors (succ : Std.TreeMap Node (List (Successor Node))) (e : Node × List Node) : Prop :=
  ∀ t ∈ e.2, ∃ n ∈ succ.getD e.1 [], n.1 = t

theorem ampleMap_eq_error_iff {succ : Std.TreeMap Node (List (Successor Node))}
    {entries : List (Node × List Node)} {node t : Node} :
    ampleMap succ entries = .error (.unknownAmpleSuccessor node t) ↔ ∃ targets,
      FirstFailing (NamesSuccessors succ) entries (node, targets) ∧
      selectTargets (succ.getD node []) targets = .error t := by
  induction entries with
  | nil => exact iff_of_false nofun fun ⟨_, h, _⟩ => not_firstFailing_nil h
  | cons e rest ih =>
    rw [ampleMap]
    split
    · rename_i x hx
      obtain ⟨before, after, htargets, -, hstray⟩ := selectTargets_eq_error_iff.1 hx
      have hfail : ¬NamesSuccessors succ e := fun hall =>
        hstray (hall x (htargets ▸ List.mem_append_right _ List.mem_cons_self))
      simp only [firstFailing_cons_of_not hfail]
      constructor
      · intro h
        cases h
        exact ⟨e.2, rfl, hx⟩
      · rintro ⟨targets, rfl, ht⟩
        rw [hx] at ht
        cases ht
        rfl
    · rename_i selected hs
      have hok : NamesSuccessors succ e := by
        intro x hx
        obtain ⟨n, hn, hnx⟩ := exists_of_selectTargets hs hx
        exact ⟨n, (mem_of_selectTargets hs).1 n hn, hnx⟩
      simp only [firstFailing_cons_of_ok hok, ← ih]
      cases ampleMap succ rest <;> simp [Except.map]

theorem firstFailing_entries_iff {ok : Node × List Node → Prop} {ample : AmpleSets} {node : Node}
    {targets : List Node} : FirstFailing ok ample.entries (node, targets) ↔
      (node, targets) ∈ ample.entries ∧ (∀ e ∈ ample.entries, e.1 < node → ok e) ∧
        ¬ok (node, targets) := by
  have hasc := ample.ascending
  constructor
  · rintro ⟨before, after, heq, hbefore, hfail⟩
    rw [heq] at hasc ⊢
    refine ⟨List.mem_append_right _ List.mem_cons_self, fun e he hlt => ?_, hfail⟩
    rcases List.mem_append.1 he with he | he
    · exact hbefore e he
    · rcases List.mem_cons.1 he with rfl | he
      · exact absurd hlt (UInt32.lt_irrefl _)
      · have hgt := List.rel_of_pairwise_cons (List.pairwise_append.1 hasc).2.1 he
        exact absurd hlt (UInt32.lt_asymm hgt)
  · rintro ⟨hmem, hbefore, hfail⟩
    obtain ⟨before, after, heq⟩ := List.append_of_mem hmem
    refine ⟨before, after, heq, fun e he => hbefore e ?_ ?_, hfail⟩
    · exact heq ▸ List.mem_append_left _ he
    · rw [heq] at hasc
      exact (List.pairwise_append.1 hasc).2.2 e he _ List.mem_cons_self

variable {g : Graph} {ig : IndexedGraph}

theorem namesSuccessors_iff {e : Node × List Node} :
    NamesSuccessors (successorMap g.edges) e ↔ ∀ t ∈ e.2, g.Joins e.1 t :=
  forall₂_congr fun _ _ => joins_iff_mem_successorMap.symm

theorem index_eq_error_iff {node target : Node} :
    g.index = .error (.unknownAmpleSuccessor node target) ↔
      (∀ e ∈ g.ample.entries, e.1 < node → ∀ t ∈ e.2, g.Joins e.1 t) ∧
      ∃ before after, (node, before ++ target :: after) ∈ g.ample.entries ∧
        (∀ t ∈ before, g.Joins node t) ∧ ¬g.Joins node target := by
  have hindex : g.index = .error (.unknownAmpleSuccessor node target) ↔
      ampleMap (successorMap g.edges) g.ample.entries =
        .error (.unknownAmpleSuccessor node target) := by
    rw [index]
    cases ampleMap (successorMap g.edges) g.ample.entries <;> simp [Except.map]
  simp only [hindex, ampleMap_eq_error_iff, firstFailing_entries_iff, namesSuccessors_iff,
    selectTargets_eq_error_iff, ← joins_iff_mem_successorMap]
  constructor
  · rintro ⟨targets, ⟨hmem, hless, -⟩, before, after, rfl, hbefore, hstray⟩
    exact ⟨hless, before, after, hmem, hbefore, hstray⟩
  · rintro ⟨hless, before, after, hmem, hbefore, hstray⟩
    refine ⟨_, ⟨hmem, hless, fun hall => ?_⟩, before, after, rfl, hbefore, hstray⟩
    exact hstray (hall target (List.mem_append_right _ List.mem_cons_self))

theorem index_ample_eq_some_iff (h : g.index = .ok ig) {node : Node} {l : List (Successor Node)} :
    ig.system.ample node = some l ↔ ∃ targets, (node, targets) ∈ g.ample.entries ∧
      l = targets.flatMap fun t => (ig.system.successors node).filter (·.1 == t) := by
  obtain ⟨ample, ha, rfl⟩ := index_eq h
  constructor
  · intro hl
    obtain ⟨targets, hmem, hs⟩ := selected_of_ampleMap ha hl
    exact ⟨targets, hmem, selectTargets_eq_flatMap hs⟩
  · rintro ⟨targets, hmem, rfl⟩
    obtain ⟨l, hl, hs⟩ := ampleMap_getElem? ha g.ample.ascending hmem
    exact hl.trans (congrArg some (selectTargets_eq_flatMap hs))

/-- What indexing does with a graph. It fails if an ample set names a target that no edge of its node
leads to. It reports the first such target, by ascending node and then in the order of the ample set.
Otherwise a node has its edges with their flags, in the order of the graph, and the ample set of a
node is made of the edges to its targets, target by target. -/
theorem index_exact (g : Graph) :
    ((∃ err, g.index = .error err) ↔ ∃ e ∈ g.ample.entries, ∃ t ∈ e.2, ¬g.Joins e.1 t) ∧
    (∀ node target, g.index = .error (.unknownAmpleSuccessor node target) ↔
      (∀ e ∈ g.ample.entries, e.1 < node → ∀ t ∈ e.2, g.Joins e.1 t) ∧
      ∃ before after, (node, before ++ target :: after) ∈ g.ample.entries ∧
        (∀ t ∈ before, g.Joins node t) ∧ ¬g.Joins node target) ∧
    ∀ ig, g.index = .ok ig → ∀ node,
      ig.system.successors node =
        ((g.edges.filter (·.source == node)).map fun e => (e.target, e.flags)) ∧
      (∀ l, ig.system.ample node = some l ↔ ∃ targets, (node, targets) ∈ g.ample.entries ∧
        l = targets.flatMap fun t => (ig.system.successors node).filter (·.1 == t)) ∧
      ∀ l, ig.system.ample node = some l → l ⊆ ig.system.successors node := by
  refine ⟨?_, fun node target => index_eq_error_iff, fun ig h node => ⟨index_successors h node,
    fun l => index_ample_eq_some_iff h, fun l hl => (index_ample h hl).1⟩⟩
  have hfail : (∃ err, g.index = .error err) ↔ ¬∃ ig, g.index = .ok ig := by
    cases g.index <;> simp
  rw [hfail, exists_index_iff]
  push Not
  rfl

/-- Node 0 has two edges to node 1, and its ample set names node 1 twice. In a graph with one more
ample set the least node that names a stray target is node 2, and 5 is the first that it names. -/
theorem index_exact_parallel :
    let g : Graph :=
      { initial := [0]
        edges := [⟨0, 1, {}⟩, ⟨0, 2, ⟨false, true⟩⟩, ⟨0, 1, ⟨true, false⟩⟩, ⟨2, 0, {}⟩]
        ample := AmpleSets.empty.insert 0 [1, 2, 1] }
    (∃ ig, g.index = .ok ig ∧ ig.system.ample 0 = some [(1, {}), (1, ⟨true, false⟩),
      (2, ⟨false, true⟩), (1, {}), (1, ⟨true, false⟩)]) ∧
    { g with ample := (g.ample.insert 3 [4]).insert 2 [0, 5, 6] }.index =
      .error (.unknownAmpleSuccessor 2 5) := by
  intro g
  constructor
  · obtain ⟨ig, h⟩ : ∃ ig, g.index = .ok ig := exists_index_iff.2 <| by
      simp [Joins, g, AmpleSets.insert, AmpleSets.place, AmpleSets.empty]
    obtain ⟨-, -, hok⟩ := index_exact g
    obtain ⟨hedges, hample, -⟩ := hok ig h 0
    refine ⟨ig, h, (hample _).2 ⟨[1, 2, 1], by decide, ?_⟩⟩
    rw [hedges]
    decide
  · obtain ⟨-, hfirst, -⟩ :=
      index_exact { g with ample := (g.ample.insert 3 [4]).insert 2 [0, 5, 6] }
    refine (hfirst 2 5).2 ⟨?_, [0], [6], by decide, ?_, ?_⟩
    all_goals simp [Joins, g, AmpleSets.insert, AmpleSets.place, AmpleSets.empty]

end Graph

end ModelChecker
