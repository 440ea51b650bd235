import Mathlib.Data.List.Perm.Subperm
import Mathlib.Data.List.Nodup
import Mathlib.Logic.Relation
import Mathlib.Order.Lattice
import ModelChecker.Graph.Systems

namespace ModelChecker

/-- What the system of an explicit graph has beyond an arbitrary one: states are told apart by
equality and are words of 32 bits, and the states and edges that can be met are listed. -/
structure System.Explicit {σ : Type} (sys : System σ) : Prop where
  same_iff : ∀ a b, sys.same a b = true ↔ a = b
  length_successors_le : ∀ a, (sys.successors a).length ≤ sys.degree
  length_ample_le : ∀ a l, sys.ample a = some l → l.length ≤ sys.degree
  mem_of_mem_ample : ∀ a l, sys.ample a = some l → ∀ n ∈ l, n ∈ sys.successors a
  listed : ∃ u : List σ, u.length = sys.extent ∧ (∀ s ∈ sys.initials, s ∈ u) ∧
    ∀ a, ∀ n ∈ sys.successors a, n.1 ∈ u
  word : ∀ l : List σ, l.Nodup → l.length ≤ UInt32.size

def System.Joins {σ : Type} (sys : System σ) (a b : σ) : Prop := ∃ n ∈ sys.successors a, n.1 = b

/-- A state on some path from an initial one. -/
def System.Reachable {σ : Type} (sys : System σ) (a : σ) : Prop :=
  ∃ s ∈ sys.initials, Relation.ReflTransGen sys.Joins s a

namespace Graph

/-- Some edge leads from `a` to `b`. -/
def Joins (g : Graph) (a b : Node) : Prop :=
  ∃ e ∈ g.edges, e.source = a ∧ e.target = b

/-- A state on some path from an initial one. -/
def Reachable (g : Graph) (a : Node) : Prop :=
  ∃ s ∈ g.initial, Relation.ReflTransGen g.Joins s a

theorem successorMap_getD (edges : List Edge) (node : Node) :
    (successorMap edges).getD node [] =
      (edges.filter (·.source == node)).map fun e => (e.target, e.flags) := by
  induction edges with
  | nil => exact Std.TreeMap.getD_emptyc
  | cons e rest ih =>
    change ((successorMap rest).insert e.source
      ((e.target, e.flags) :: (successorMap rest).getD e.source [])).getD node [] = _
    rw [Std.TreeMap.getD_insert, ih, List.filter_cons]
    by_cases h : e.source = node
    · subst h
      rw [if_pos Std.ReflCmp.compare_self, if_pos (beq_self_eq_true _), List.map_cons, ih]
    · have hc : compare e.source node ≠ .eq := fun hc => h (Std.LawfulEqCmp.eq_of_compare hc)
      rw [if_neg hc, if_neg (by simpa using h)]

theorem selectTargets_cons {all : List (Successor Node)} {t : Node} {rest : List Node}
    {l : List (Successor Node)} (h : selectTargets all (t :: rest) = .ok l) :
    all.filter (·.1 == t) ≠ [] ∧
      ∃ r, selectTargets all rest = .ok r ∧ l = all.filter (·.1 == t) ++ r := by
  unfold selectTargets at h
  split at h
  · cases h
  · rename_i e es he
    cases hr : selectTargets all rest with
    | error x =>
      rw [hr] at h
      cases h
    | ok r =>
      rw [hr] at h
      cases h
      exact ⟨he ▸ List.cons_ne_nil e es, r, rfl, by rw [he]⟩

theorem ampleMap_cons {succ : Std.TreeMap Node (List (Successor Node))} {node : Node}
    {targets : List Node} {rest : List (Node × List Node)}
    {m : Std.TreeMap Node (List (Successor Node))}
    (h : ampleMap succ ((node, targets) :: rest) = .ok m) :
    ∃ selected r, selectTargets (succ.getD node []) targets = .ok selected ∧
      ampleMap succ rest = .ok r ∧ m = r.insert node selected := by
  unfold ampleMap at h
  split at h
  · cases h
  · rename_i selected hs
    cases hr : ampleMap succ rest with
    | error x =>
      rw [hr] at h
      cases h
    | ok r =>
      rw [hr] at h
      cases h
      exact ⟨selected, r, hs, rfl, rfl⟩

theorem mem_of_selectTargets {all : List (Successor Node)} {targets : List Node}
    {l : List (Successor Node)} (h : selectTargets all targets = .ok l) :
    (∀ n ∈ l, n ∈ all) ∧ l.length ≤ targets.length * all.length := by
  induction targets generalizing l with
  | nil =>
    cases h
    exact ⟨fun n hn => absurd hn List.not_mem_nil, Nat.zero_le _⟩
  | cons t rest ih =>
    obtain ⟨-, r, hr, rfl⟩ := selectTargets_cons h
    obtain ⟨hm, hl⟩ := ih hr
    refine ⟨fun n hn => ?_, ?_⟩
    · rcases List.mem_append.1 hn with hn | hn
      · exact List.mem_of_mem_filter hn
      · exact hm n hn
    · have hf := List.length_filter_le (·.1 == t) all
      rw [List.length_append, List.length_cons, Nat.succ_mul]
      omega

theorem exists_of_selectTargets {all : List (Successor Node)} {targets : List Node}
    {l : List (Successor Node)} (h : selectTargets all targets = .ok l) {b : Node}
    (hb : b ∈ targets) : ∃ n ∈ l, n.1 = b := by
  induction targets generalizing l with
  | nil => cases hb
  | cons t rest ih =>
    obtain ⟨hne, r, hr, rfl⟩ := selectTargets_cons h
    rcases List.mem_cons.1 hb with rfl | hb
    · obtain ⟨n, hn⟩ := List.exists_mem_of_ne_nil _ hne
      exact ⟨n, List.mem_append_left _ hn, beq_iff_eq.1 (List.mem_filter.1 hn).2⟩
    · obtain ⟨n, hn, hnb⟩ := ih hr hb
      exact ⟨n, List.mem_append_right _ hn, hnb⟩

theorem mem_selectTargets {all : List (Successor Node)} {targets : List Node}
    {l : List (Successor Node)} (h : selectTargets all targets = .ok l) {n : Successor Node} :
    n ∈ l ↔ n ∈ all ∧ n.1 ∈ targets := by
  induction targets generalizing l with
  | nil =>
    cases h
    simp
  | cons t rest ih =>
    obtain ⟨-, r, hr, rfl⟩ := selectTargets_cons h
    rw [List.mem_append, List.mem_filter, beq_iff_eq, ih hr, List.mem_cons, and_or_left]

theorem selected_of_ampleMap {succ : Std.TreeMap Node (List (Successor Node))}
    {entries : List (Node × List Node)} {m : Std.TreeMap Node (List (Successor Node))}
    (h : ampleMap succ entries = .ok m) {node : Node} {l : List (Successor Node)}
    (hl : m[node]? = some l) :
    ∃ targets, (node, targets) ∈ entries ∧ selectTargets (succ.getD node []) targets = .ok l := by
  induction entries generalizing m with
  | nil =>
    cases h
    rw [Std.TreeMap.getElem?_emptyc] at hl
    cases hl
  | cons e rest ih =>
    obtain ⟨selected, r, hs, hr, rfl⟩ := ampleMap_cons h
    rw [Std.TreeMap.getElem?_insert] at hl
    by_cases hc : compare e.1 node = .eq
    · rw [if_pos hc] at hl
      cases hl
      obtain rfl := Std.LawfulEqCmp.eq_of_compare hc
      exact ⟨e.2, List.mem_cons_self, hs⟩
    · rw [if_neg hc] at hl
      obtain ⟨ts, hm, hts⟩ := ih hr hl
      exact ⟨ts, List.mem_cons_of_mem _ hm, hts⟩

theorem ampleMap_getElem? {succ : Std.TreeMap Node (List (Successor Node))}
    {entries : List (Node × List Node)} {m : Std.TreeMap Node (List (Successor Node))}
    (h : ampleMap succ entries = .ok m) (hasc : entries.Pairwise fun a b => a.1 < b.1) {node : Node}
    {targets : List Node} (hm : (node, targets) ∈ entries) :
    ∃ l, m[node]? = some l ∧ selectTargets (succ.getD node []) targets = .ok l := by
  induction entries generalizing m with
  | nil => cases hm
  | cons e rest ih =>
    obtain ⟨selected, r, hs, hr, rfl⟩ := ampleMap_cons h
    obtain ⟨hfirst, hrest⟩ := List.pairwise_cons.1 hasc
    rw [Std.TreeMap.getElem?_insert]
    rcases List.mem_cons.1 hm with rfl | hm
    · rw [if_pos Std.ReflCmp.compare_self]
      exact ⟨selected, rfl, hs⟩
    · have hne : compare e.1 node ≠ .eq := by
        intro hc
        obtain rfl := Std.LawfulEqCmp.eq_of_compare hc
        exact absurd (hfirst _ hm) (UInt32.lt_irrefl _)
      rw [if_neg hne]
      exact ih hr hrest hm

theorem le_foldl_max (entries : List (Node × List Node)) (d : Nat) :
    d ≤ entries.foldl (fun d e => max d e.2.length) d ∧
      ∀ e ∈ entries, e.2.length ≤ entries.foldl (fun d e => max d e.2.length) d := by
  induction entries generalizing d with
  | nil => exact ⟨le_rfl, fun e he => absurd he List.not_mem_nil⟩
  | cons e rest ih =>
    obtain ⟨hd, hr⟩ := ih (max d e.2.length)
    refine ⟨(le_max_left _ _).trans hd, fun x hx => ?_⟩
    rcases List.mem_cons.1 hx with rfl | hx
    · exact (le_max_right _ _).trans hd
    · exact hr x hx

variable {g : Graph} {ig : IndexedGraph}

theorem index_eq (h : g.index = .ok ig) :
    ∃ ample, ampleMap (successorMap g.edges) g.ample.entries = .ok ample ∧
      ig = { initial := g.initial, successorMap := successorMap g.edges, ampleMap := ample
             acceptingSet := .ofList g.accepting, goalSet := .ofList g.goals
             extent := g.extent, degree := g.degree } := by
  simp only [index] at h
  cases ha : ampleMap (successorMap g.edges) g.ample.entries with
  | error x => rw [ha] at h; cases h
  | ok ample =>
    rw [ha] at h
    cases h
    exact ⟨ample, rfl, rfl⟩

theorem index_initials (h : g.index = .ok ig) : ig.system.initials = g.initial := by
  obtain ⟨ample, -, rfl⟩ := index_eq h
  rfl

theorem index_successors (h : g.index = .ok ig) (node : Node) :
    ig.system.successors node =
      (g.edges.filter (·.source == node)).map fun e => (e.target, e.flags) := by
  obtain ⟨ample, -, rfl⟩ := index_eq h
  exact successorMap_getD g.edges node

theorem mem_index_successors (h : g.index = .ok ig) {node : Node} {n : Successor Node} :
    n ∈ ig.system.successors node ↔ ∃ e ∈ g.edges, e.source = node ∧ (e.target, e.flags) = n := by
  rw [index_successors h, List.mem_map]
  refine exists_congr fun e => ?_
  rw [List.mem_filter, beq_iff_eq, and_assoc]

theorem successors_eq_nil_iff (h : g.index = .ok ig) {s : Node} :
    ig.system.successors s = [] ↔ ∀ e ∈ g.edges, e.source ≠ s := by
  rw [index_successors h, List.map_eq_nil_iff, List.filter_eq_nil_iff]
  refine forall₂_congr fun e _ => ?_
  rw [beq_iff_eq]

theorem joins_iff (h : g.index = .ok ig) {a b : Node} :
    g.Joins a b ↔ ∃ n ∈ ig.system.successors a, n.1 = b := by
  constructor
  · rintro ⟨e, he, hs, ht⟩
    exact ⟨(e.target, e.flags), (mem_index_successors h).2 ⟨e, he, hs, rfl⟩, ht⟩
  · rintro ⟨n, hn, hb⟩
    obtain ⟨e, he, hs, rfl⟩ := (mem_index_successors h).1 hn
    exact ⟨e, he, hs, hb⟩

theorem index_joins (h : g.index = .ok ig) : ig.system.Joins = g.Joins := by
  funext a b
  exact propext (joins_iff h).symm

theorem reachable_iff (h : g.index = .ok ig) {a : Node} :
    ig.system.Reachable a ↔ g.Reachable a := by
  unfold System.Reachable Reachable
  rw [index_joins h, index_initials h]

theorem index_accepting (h : g.index = .ok ig) (node : Node) :
    ig.system.accepting node = true ↔ node ∈ g.accepting := by
  obtain ⟨ample, -, rfl⟩ := index_eq h
  change (Std.TreeSet.ofList g.accepting).contains node = true ↔ _
  rw [Std.TreeSet.contains_ofList, List.contains_iff_mem]

theorem index_goal (h : g.index = .ok ig) (node : Node) :
    ig.system.goal node = true ↔ node ∈ g.goals := by
  obtain ⟨ample, -, rfl⟩ := index_eq h
  change (Std.TreeSet.ofList g.goals).contains node = true ↔ _
  rw [Std.TreeSet.contains_ofList, List.contains_iff_mem]

theorem index_ample (h : g.index = .ok ig) {node : Node} {l : List (Successor Node)}
    (hl : ig.system.ample node = some l) :
    (∀ n ∈ l, n ∈ ig.system.successors node) ∧ l.length ≤ g.degree := by
  have hsucc := index_successors h node
  obtain ⟨ample, ha, rfl⟩ := index_eq h
  obtain ⟨targets, hm, hs⟩ := selected_of_ampleMap ha hl
  obtain ⟨hmem, hlen⟩ := mem_of_selectTargets hs
  refine ⟨hmem, hlen.trans ?_⟩
  have hall : ((successorMap g.edges).getD node []).length ≤ g.edges.length := by
    rw [successorMap_getD, List.length_map]
    exact List.length_filter_le _ _
  have hmax := (le_foldl_max g.ample.entries 1).2 _ hm
  rw [Nat.mul_comm]
  exact Nat.mul_le_mul hall hmax

theorem index_ample_of_mem (h : g.index = .ok ig) {node b : Node} {targets : List Node}
    (hm : (node, targets) ∈ g.ample.entries) (hb : b ∈ targets) :
    ∃ l, ig.system.ample node = some l ∧ ∃ n ∈ l, n.1 = b := by
  obtain ⟨ample, ha, rfl⟩ := index_eq h
  obtain ⟨l, hl, hs⟩ := ampleMap_getElem? ha g.ample.ascending hm
  exact ⟨l, hl, exists_of_selectTargets hs hb⟩

theorem mem_index_ample (h : g.index = .ok ig) {node : Node} {n : Successor Node} :
    n ∈ (ig.system.ample node).getD [] ↔ n ∈ ig.system.successors node ∧
      ∃ targets, (node, targets) ∈ g.ample.entries ∧ n.1 ∈ targets := by
  obtain ⟨ample, ha, rfl⟩ := index_eq h
  change n ∈ ample[node]?.getD [] ↔ _
  constructor
  · intro hn
    cases hl : ample[node]? with
    | none =>
      rw [hl] at hn
      cases hn
    | some l =>
      rw [hl] at hn
      obtain ⟨targets, hm, hs⟩ := selected_of_ampleMap ha hl
      obtain ⟨hall, ht⟩ := (mem_selectTargets hs).1 hn
      exact ⟨hall, targets, hm, ht⟩
  · rintro ⟨hn, targets, hm, ht⟩
    obtain ⟨l, hl, hs⟩ := ampleMap_getElem? ha g.ample.ascending hm
    rw [hl]
    exact (mem_selectTargets hs).2 ⟨hn, ht⟩

theorem exists_selectTargets {all : List (Successor Node)} {targets : List Node}
    (h : ∀ t ∈ targets, ∃ n ∈ all, n.1 = t) : ∃ l, selectTargets all targets = .ok l := by
  induction targets with
  | nil => exact ⟨[], rfl⟩
  | cons t rest ih =>
    obtain ⟨l, hl⟩ := ih fun x hx => h x (List.mem_cons_of_mem _ hx)
    obtain ⟨n, hn, hnt⟩ := h t List.mem_cons_self
    have hmem : n ∈ all.filter (·.1 == t) := List.mem_filter.2 ⟨hn, beq_iff_eq.2 hnt⟩
    unfold selectTargets
    split
    · rename_i hnil
      rw [hnil] at hmem
      cases hmem
    · exact ⟨_, by rw [hl]; rfl⟩

theorem exists_ampleMap {succ : Std.TreeMap Node (List (Successor Node))}
    {entries : List (Node × List Node)}
    (h : ∀ e ∈ entries, ∀ t ∈ e.2, ∃ n ∈ succ.getD e.1 [], n.1 = t) :
    ∃ m, ampleMap succ entries = .ok m := by
  induction entries with
  | nil => exact ⟨∅, rfl⟩
  | cons e rest ih =>
    obtain ⟨m, hm⟩ := ih fun x hx => h x (List.mem_cons_of_mem _ hx)
    obtain ⟨l, hl⟩ := exists_selectTargets (h e List.mem_cons_self)
    exact ⟨m.insert e.1 l, by simp only [ampleMap, hl, hm, Except.map]⟩

theorem exists_index_iff :
    (∃ ig, g.index = .ok ig) ↔ ∀ e ∈ g.ample.entries, ∀ t ∈ e.2, g.Joins e.1 t := by
  constructor
  · rintro ⟨ig, h⟩ ⟨node, targets⟩ he t ht
    obtain ⟨l, hl, n, hn, hnt⟩ := index_ample_of_mem h he ht
    exact (joins_iff h).2 ⟨n, (index_ample h hl).1 n hn, hnt⟩
  · intro hjoins
    have hmap : ∃ m, ampleMap (successorMap g.edges) g.ample.entries = .ok m := by
      refine exists_ampleMap fun e he t ht => ?_
      obtain ⟨d, hd, hs, htarget⟩ := hjoins e he t ht
      rw [successorMap_getD]
      exact ⟨_, List.mem_map_of_mem (List.mem_filter.2 ⟨hd, beq_iff_eq.2 hs⟩), htarget⟩
    obtain ⟨m, hm⟩ := hmap
    exact ⟨_, by rw [index, hm]; rfl⟩

theorem nodes_length_le (l : List Node) (h : l.Nodup) : l.length ≤ UInt32.size := by
  have hn : (l.map UInt32.toNat).Nodup := h.map fun a b hab => UInt32.toNat_inj.1 hab
  have hs : l.map UInt32.toNat ⊆ List.range UInt32.size := by
    intro n hm
    obtain ⟨a, -, rfl⟩ := List.mem_map.1 hm
    exact List.mem_range.2 a.toNat_lt
  simpa using (List.subperm_of_subset hn hs).length_le

/-- The bounds that a graph states for its searches are right. -/
theorem index_explicit (h : g.index = .ok ig) : ig.system.Explicit where
  same_iff a b := by
    obtain ⟨ample, -, rfl⟩ := index_eq h
    exact beq_iff_eq
  length_successors_le a := by
    have hd : ig.system.degree = g.degree := by
      obtain ⟨ample, -, rfl⟩ := index_eq h
      rfl
    rw [index_successors h, List.length_map, hd]
    have hone := (le_foldl_max g.ample.entries 1).1
    calc (g.edges.filter (·.source == a)).length
      _ ≤ g.edges.length := List.length_filter_le _ _
      _ ≤ g.degree := Nat.le_mul_of_pos_right _ hone
  length_ample_le a l hl := by
    have hd : ig.system.degree = g.degree := by
      obtain ⟨ample, -, rfl⟩ := index_eq h
      rfl
    exact hd ▸ (index_ample h hl).2
  mem_of_mem_ample a l hl := (index_ample h hl).1
  listed := by
    refine ⟨g.initial ++ g.edges.map (·.target), ?_, ?_, ?_⟩
    · obtain ⟨ample, -, rfl⟩ := index_eq h
      rw [List.length_append, List.length_map]
      rfl
    · intro s hs
      rw [index_initials h] at hs
      exact List.mem_append_left _ hs
    · intro a n hn
      obtain ⟨e, he, -, rfl⟩ := (mem_index_successors h).1 hn
      exact List.mem_append_right _ (List.mem_map_of_mem he)
  word := nodes_length_le

end Graph

end ModelChecker
