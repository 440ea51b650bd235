import ModelChecker.Trace.Parent
import ModelChecker.Proofs.Dictionary

namespace ModelChecker

variable {σ : Type}

section

variable (store : Store σ) (parentOf : Handle → Parent)

def storedParent (v : Vertex σ) : Option (Vertex σ) :=
  match parentOf v.handle with
  | .unset | .root => none
  | .vertex h => store.get? h

def forebear (v : Vertex σ) : Nat → Option (Vertex σ)
  | 0 => some v
  | n + 1 => (forebear v n).bind (storedParent store parentOf)

/-- What comes of a walk along parents from `v`, in front of `below`. It may be given up as a cycle
if `cyclic` holds. -/
inductive Walk (v : Vertex σ) (below : List (Vertex σ)) (cyclic : Prop) :
    Except Fault (List (Vertex σ)) → Prop where
  | top {n : Nat} {t : Vertex σ} {path : List (Vertex σ)} (ht : forebear store parentOf v n = some t)
    (hstop : parentOf t.handle = .root ∨ parentOf t.handle = .unset)
    (hpath : path.reverse.map some = (List.range (n + 1)).map (forebear store parentOf v)) :
    Walk v below cyclic (.ok (path ++ below))
  | missing {n : Nat} {t : Vertex σ} {a : Handle} (ht : forebear store parentOf v n = some t)
    (hslot : parentOf t.handle = .vertex a) (hnone : store.get? a = none) :
    Walk v below cyclic (.error (.missingParent a))
  | cycle (h : cyclic) : Walk v below cyclic (.error .parentCycle)

end

variable {store : Store σ} {parentOf : Handle → Parent} {v t t' : Vertex σ} {m n k : Nat}

theorem storedParent_of_top (h : parentOf v.handle = .root ∨ parentOf v.handle = .unset) :
    storedParent store parentOf v = none := by
  unfold storedParent
  rcases h with h | h <;> rw [h]

theorem storedParent_of_vertex {a : Handle} (h : parentOf v.handle = .vertex a) :
    storedParent store parentOf v = store.get? a := by
  rw [storedParent, h]

theorem forebear_add (v : Vertex σ) (m n : Nat) :
    forebear store parentOf v (m + n) =
      (forebear store parentOf v m).bind (forebear store parentOf · n) := by
  induction n with
  | zero =>
    cases forebear store parentOf v m <;> rfl
  | succ n ih =>
    rw [← Nat.add_assoc, forebear, ih, Option.bind_assoc]
    rfl

theorem forebear_one_add {p : Vertex σ} (h : storedParent store parentOf v = some p) (n : Nat) :
    forebear store parentOf v (n + 1) = forebear store parentOf p n := by
  rw [Nat.add_comm, forebear_add]
  change Option.bind (storedParent store parentOf v) _ = _
  rw [h, Option.bind_some]

theorem forebear_eq_none_of_le (h : forebear store parentOf v m = none) (hmn : m ≤ n) :
    forebear store parentOf v n = none := by
  obtain ⟨k, rfl⟩ := Nat.exists_eq_add_of_le hmn
  rw [forebear_add, h, Option.bind_none]

theorem forebear_succ_eq_none (ht : forebear store parentOf v n = some t)
    (hend : storedParent store parentOf t = none) : forebear store parentOf v (n + 1) = none := by
  rw [forebear, ht, Option.bind_some, hend]

theorem forebear_last_unique (ht : forebear store parentOf v n = some t)
    (hend : storedParent store parentOf t = none) (ht' : forebear store parentOf v k = some t')
    (hend' : storedParent store parentOf t' = none) : n = k ∧ t = t' := by
  have hnk : n = k := by
    rcases Nat.lt_trichotomy n k with hlt | heq | hlt
    · rw [forebear_eq_none_of_le (forebear_succ_eq_none ht hend) hlt] at ht'
      cases ht'
    · exact heq
    · rw [forebear_eq_none_of_le (forebear_succ_eq_none ht' hend') hlt] at ht
      cases ht
  subst hnk
  exact ⟨rfl, Option.some.inj (ht.symm.trans ht')⟩

theorem climb_walk_of_last (h : storedParent store parentOf v = none) (n : Nat)
    (below : List (Vertex σ)) (cyclic : Prop) :
    Walk store parentOf v below cyclic (climb store parentOf n v below) := by
  have htop : (parentOf v.handle = .root ∨ parentOf v.handle = .unset) →
      Walk store parentOf v below cyclic (.ok ([v] ++ below)) :=
    fun hstop => .top (n := 0) rfl hstop rfl
  unfold climb
  split
  · exact htop (.inr ‹_›)
  · exact htop (.inl ‹_›)
  · rename_i a ha
    rw [storedParent_of_vertex ha] at h
    rw [h]
    exact .missing (n := 0) rfl ha h

theorem climb_of_parent {p : Vertex σ} (h : storedParent store parentOf v = some p)
    (below : List (Vertex σ)) : climb store parentOf 0 v below = .error .parentCycle ∧
      ∀ n, climb store parentOf (n + 1) v below = climb store parentOf n p (v :: below) := by
  unfold storedParent at h
  split at h
  · cases h
  · cases h
  · rename_i a ha
    constructor
    · rw [climb]
      simp only [ha, h]
    · intro n
      rw [climb]
      simp only [ha, h]

theorem climb_walk (store : Store σ) (parentOf : Handle → Parent) (n : Nat) (v : Vertex σ)
    (below : List (Vertex σ)) :
    Walk store parentOf v below (forebear store parentOf v (n + 1)).isSome
      (climb store parentOf n v below) := by
  induction n generalizing v below with
  | zero =>
    cases hp : storedParent store parentOf v with
    | none => exact climb_walk_of_last hp ..
    | some p =>
      rw [(climb_of_parent hp below).1, forebear_one_add hp]
      exact .cycle rfl
  | succ n ih =>
    cases hp : storedParent store parentOf v with
    | none => exact climb_walk_of_last hp ..
    | some p =>
      rw [(climb_of_parent hp below).2]
      have hrest := ih p (v :: below)
      generalize climb store parentOf n p (v :: below) = r at hrest
      -- the walk from the parent is the walk from the vertex without its first step
      have hstep := forebear_one_add hp
      cases hrest with
      | @top k t path ht hstop hpath =>
        rw [List.append_cons]
        refine .top ((hstep k).trans ht) hstop ?_
        rw [List.reverse_append, List.map_append, hpath, List.range_succ_eq_map (n := k + 1),
          List.map_cons, List.map_map, show forebear store parentOf v ∘ Nat.succ = _ from funext hstep]
        simp [forebear]
      | missing ht hslot hnone => exact .missing ((hstep _).trans ht) hslot hnone
      | cycle h => exact .cycle ((hstep (n + 1)).symm ▸ h)

theorem forebear_isSome_of_return (hmn : m < n)
    (heq : forebear store parentOf v m = forebear store parentOf v n)
    (hm : (forebear store parentOf v m).isSome) (k : Nat) :
    (forebear store parentOf v k).isSome := by
  obtain ⟨t, ht⟩ := Option.isSome_iff_exists.1 hm
  obtain ⟨d, rfl⟩ := Nat.exists_eq_add_of_lt hmn
  -- a whole number of rounds leads from `t` to itself
  have hround : ∀ r, forebear store parentOf v (m + r * (d + 1)) = some t := by
    intro r
    induction r with
    | zero => simpa using ht
    | succ r ih =>
      have hback : forebear store parentOf t (d + 1) = some t := by
        have := heq.symm.trans ht
        rwa [Nat.add_assoc, forebear_add, ht] at this
      rw [Nat.succ_mul, ← Nat.add_assoc, forebear_add, ih]
      exact hback
  rw [Option.isSome_iff_ne_none]
  intro hnone
  have hle : k ≤ m + k * (d + 1) := by
    have := Nat.le_mul_of_pos_right k (Nat.zero_lt_succ d)
    rw [Nat.succ_eq_add_one] at this
    omega
  have hsome := hround k
  rw [forebear_eq_none_of_le hnone hle] at hsome
  cases hsome

theorem Store.Filed.storedParent_mem {p : Vertex σ} (hs : store.Filed)
    (h : storedParent store parentOf v = some p) : p ∈ store.vertices := by
  unfold storedParent at h
  split at h
  · cases h
  · cases h
  · exact (hs.of_get? h).1

theorem Store.Filed.forebear_mem (hs : store.Filed) (hv : v ∈ store.vertices)
    (h : forebear store parentOf v n = some t) : t ∈ store.vertices := by
  cases n with
  | zero => exact Option.some.inj h ▸ hv
  | succ n =>
    obtain ⟨u, -, hu⟩ := Option.bind_eq_some_iff.1 h
    exact hs.storedParent_mem hu

theorem Store.Filed.forebear_return (hs : store.Filed) (hv : v ∈ store.vertices)
    (h : (forebear store parentOf v store.size).isSome) :
    ∃ m n, m < n ∧ forebear store parentOf v m = forebear store parentOf v n ∧
      (forebear store parentOf v m).isSome := by
  let walk := (List.range (store.size + 1)).map (forebear store parentOf v)
  have hsome : ∀ k, k ≤ store.size → (forebear store parentOf v k).isSome := by
    intro k hk
    rw [Option.isSome_iff_ne_none] at h ⊢
    exact fun hnone => h (forebear_eq_none_of_le hnone hk)
  have hsub : walk ⊆ store.vertices.map some := by
    intro o ho
    obtain ⟨k, hk, rfl⟩ := List.mem_map.1 ho
    obtain ⟨t, ht⟩ := Option.isSome_iff_exists.1 (hsome k (Nat.le_of_lt_succ (List.mem_range.1 hk)))
    exact ht ▸ List.mem_map_of_mem (hs.forebear_mem hv ht)
  have hdup : ¬walk.Nodup := by
    intro hnodup
    have hle := (List.subperm_of_subset hnodup hsub).length_le
    rw [List.length_map, List.length_map, List.length_range, ← hs.used] at hle
    exact Nat.not_succ_le_self _ hle
  rw [List.nodup_iff_pairwise_ne, List.pairwise_map] at hdup
  by_contra hno
  refine hdup (List.pairwise_lt_range.imp_of_mem fun {m n} hm _ hlt heq => hno ?_)
  exact ⟨m, n, hlt, heq, hsome m (Nat.le_of_lt_succ (List.mem_range.1 hm))⟩

theorem Store.Filed.size_pos (hs : store.Filed) (hv : v ∈ store.vertices) : 0 < store.size := by
  rw [Store.size, hs.used]
  exact List.length_pos_of_mem hv

theorem Store.Filed.forall_forebear_iff (hs : store.Filed) (hv : v ∈ store.vertices) :
    (∀ n, (forebear store parentOf v n).isSome) ↔
      ∃ m n, m < n ∧ forebear store parentOf v m = forebear store parentOf v n ∧
        (forebear store parentOf v m).isSome :=
  ⟨fun h => hs.forebear_return hv (h _),
    fun ⟨_, _, hmn, heq, hm⟩ k => forebear_isSome_of_return hmn heq hm k⟩

theorem Store.Filed.pathTo_walk (hs : store.Filed) (parentOf : Handle → Parent)
    (hv : v ∈ store.vertices) :
    Walk store parentOf v [] (∀ n, (forebear store parentOf v n).isSome)
      (pathTo store parentOf v) := by
  have hwalk := climb_walk store parentOf (store.size - 1) v []
  rw [pathTo]
  generalize climb store parentOf (store.size - 1) v [] = r at hwalk
  cases hwalk with
  | top ht hstop hpath => exact .top ht hstop hpath
  | missing ht hslot hnone => exact .missing ht hslot hnone
  | cycle h =>
    rw [Nat.sub_add_cancel (hs.size_pos hv)] at h
    exact .cycle ((hs.forall_forebear_iff hv).2 (hs.forebear_return hv h))

theorem not_forall_forebear (ht : forebear store parentOf v n = some t)
    (hend : storedParent store parentOf t = none) :
    ¬∀ n, (forebear store parentOf v n).isSome := by
  intro hall
  have hnext := hall (n + 1)
  rw [forebear_succ_eq_none ht hend] at hnext
  cases hnext

theorem Walk.unique {below : List (Vertex σ)} {r r' : Except Fault (List (Vertex σ))}
    (h : Walk store parentOf v below (∀ n, (forebear store parentOf v n).isSome) r)
    (h' : Walk store parentOf v below (∀ n, (forebear store parentOf v n).isSome) r') : r = r' := by
  cases h with
  | top ht hstop hpath =>
    have hend : storedParent store parentOf _ = none := storedParent_of_top hstop
    cases h' with
    | top ht' hstop' hpath' =>
      obtain ⟨rfl, -⟩ := forebear_last_unique ht hend ht' (storedParent_of_top hstop')
      have heq := List.map_injective_iff.2 (Option.some_injective _) (hpath.trans hpath'.symm)
      rw [List.reverse_injective heq]
    | missing ht' hslot' hnone' =>
      obtain ⟨-, rfl⟩ := forebear_last_unique ht hend ht'
        ((storedParent_of_vertex hslot').trans hnone')
      simp [hslot'] at hstop
    | cycle hall => exact absurd hall (not_forall_forebear ht hend)
  | missing ht hslot hnone =>
    have hend := (storedParent_of_vertex hslot).trans hnone
    cases h' with
    | top ht' hstop' _ =>
      obtain ⟨-, rfl⟩ := forebear_last_unique ht hend ht' (storedParent_of_top hstop')
      simp [hslot] at hstop'
    | missing ht' hslot' hnone' =>
      obtain ⟨-, rfl⟩ := forebear_last_unique ht hend ht'
        ((storedParent_of_vertex hslot').trans hnone')
      rw [Parent.vertex.inj (hslot.symm.trans hslot')]
    | cycle hall => exact absurd hall (not_forall_forebear ht hend)
  | cycle hall =>
    cases h' with
    | top ht' hstop' _ => exact absurd hall (not_forall_forebear ht' (storedParent_of_top hstop'))
    | missing ht' hslot' hnone' =>
      exact absurd hall (not_forall_forebear ht' ((storedParent_of_vertex hslot').trans hnone'))
    | cycle => rfl

/-- The path to a stored vertex, for all parents that the vertices may have. It is the walk along
parents, its last vertex first, if that walk comes to a vertex without a parent. If the walk comes to
a parent that is not stored, that parent is reported. A cycle is reported if the walk has no end,
which is if it comes back to a vertex. -/
theorem Store.pathTo_exact {same : σ → σ → Bool} {calls : List (UInt64 × σ)} {count : Nat}
    {limit : Option Nat} {answers : List (Except Exhausted (Vertex σ × Bool))} {s : Store σ}
    {last : Vertex σ} (h : replay same calls (ofShards count limit) = (answers, s))
    (hlast : last ∈ s.vertices) (parentOf : Handle → Parent) :
    let back := forebear s parentOf last
    (∀ path, pathTo s parentOf last = .ok path ↔
      ∃ n top, back n = some top ∧
        (parentOf top.handle = .root ∨ parentOf top.handle = .unset) ∧
        path.reverse.map some = (List.range (n + 1)).map back) ∧
    (∀ fault, pathTo s parentOf last = .error fault ↔
      (∃ n v a, back n = some v ∧ parentOf v.handle = .vertex a ∧ s.get? a = none ∧
        fault = .missingParent a ∧ fault.message = s!"parent {a.label} is not in the store") ∨
      (∀ n, (back n).isSome) ∧ fault = .parentCycle ∧
        fault.message = "parent pointers form a cycle") ∧
    ((∀ n, (back n).isSome) ↔ ∃ m n, m < n ∧ back m = back n ∧ (back m).isSome) := by
  intro back
  have hfiled : s.Filed := by
    have hr := (replayed_ofShards count limit).replay same calls
    rw [h] at hr
    exact hr.holds.filed
  have hwalk := hfiled.pathTo_walk parentOf hlast
  refine ⟨fun path => ⟨fun heq => ?_, ?_⟩, fun fault => ⟨fun heq => ?_, ?_⟩,
    hfiled.forall_forebear_iff hlast⟩
  · rw [heq, ← List.append_nil path] at hwalk
    generalize hr : (Except.ok (path ++ []) : Except Fault (List (Vertex σ))) = r at hwalk
    cases hwalk with
    | top ht hstop hpath =>
      cases List.append_cancel_right (Except.ok.inj hr)
      exact ⟨_, _, ht, hstop, hpath⟩
    | missing | cycle => cases hr
  · rintro ⟨n, top, htop, hstop, hpath⟩
    have heq := hwalk.unique (.top htop hstop hpath)
    rwa [List.append_nil] at heq
  · rw [heq] at hwalk
    cases hwalk with
    | missing ht hslot hnone => exact .inl ⟨_, _, _, ht, hslot, hnone, rfl, rfl⟩
    | cycle hall => exact .inr ⟨hall, rfl, rfl⟩
  · rintro (⟨n, v, a, hv, hslot, hnone, rfl, -⟩ | ⟨hall, rfl, -⟩)
    · exact hwalk.unique (.missing hv hslot hnone)
    · exact hwalk.unique (.cycle hall)

/-- Of six states in two shards, the third comes from the second and that from the first, which is a
root and refuses another parent. The fourth and the fifth are parents of each other. The parent of
the sixth is not stored. -/
theorem Store.pathTo_exact_three_ends :
    let r := replay (fun a b : Nat => a == b) [(1, 1), (2, 2), (3, 3), (4, 4), (5, 5), (6, 6)]
      (ofShards 2 none)
    let offered := [(⟨1, 0⟩, .root), (⟨0, 0⟩, .vertex ⟨1, 0⟩), (⟨1, 1⟩, .vertex ⟨0, 0⟩),
      (⟨1, 0⟩, .vertex ⟨1, 1⟩), (⟨0, 1⟩, .vertex ⟨1, 2⟩)].foldl
      (fun p (a, parent) => (p.offer a parent).2) ({} : Parents)
    let parents := (offered.set ⟨1, 2⟩ (.vertex ⟨0, 1⟩)).set ⟨0, 2⟩ (.vertex ⟨7, 7⟩)
    ∃ third ∈ r.2.vertices, ∃ fourth ∈ r.2.vertices, ∃ sixth ∈ r.2.vertices,
      (∃ path n, pathTo r.2 parents.get third = .ok path ∧ path.map (·.state) = [1, 2, 3] ∧
        path.reverse.map some = (List.range (n + 1)).map (forebear r.2 parents.get third)) ∧
      (∀ n, (forebear r.2 parents.get fourth n).isSome) ∧
      ∃ n v, forebear r.2 parents.get sixth n = some v ∧ parents.get v.handle = .vertex ⟨7, 7⟩ := by
  intro r offered parents
  have hr : replay (fun a b : Nat => a == b) [(1, 1), (2, 2), (3, 3), (4, 4), (5, 5), (6, 6)]
      (ofShards 2 none) = (r.1, r.2) := Prod.mk.eta.symm
  let outcome := fun v => (pathTo r.2 parents.get v).map (·.map (·.state))
  have houtcomes : [.ok [1, 2, 3], .error .parentCycle, .error (.missingParent ⟨7, 7⟩)] ⊆
      r.2.vertices.map outcome := by decide +kernel
  have hfault : ∀ {v f}, outcome v = .error f → pathTo r.2 parents.get v = .error f := by
    intro v f h
    cases hp : pathTo r.2 parents.get v with
    | ok => simp [outcome, hp, Except.map] at h
    | error => simpa [outcome, hp, Except.map] using h
  obtain ⟨third, hthird, hpath⟩ := List.mem_map.1 (houtcomes (.head _))
  obtain ⟨fourth, hfourth, hcycle⟩ := List.mem_map.1 (houtcomes (.tail _ (.head _)))
  obtain ⟨sixth, hsixth, hmissing⟩ := List.mem_map.1 (houtcomes (.tail _ (.tail _ (.head _))))
  refine ⟨third, hthird, fourth, hfourth, sixth, hsixth, ?_, ?_, ?_⟩
  · cases hp : pathTo r.2 parents.get third with
    | error => simp [outcome, hp, Except.map] at hpath
    | ok path =>
      obtain ⟨n, -, -, -, hback⟩ := ((pathTo_exact hr hthird parents.get).1 path).1 hp
      exact ⟨path, n, rfl, by simpa [outcome, hp, Except.map] using hpath, hback⟩
  · have hend := ((pathTo_exact hr hfourth parents.get).2.1 .parentCycle).1 (hfault hcycle)
    obtain ⟨_, _, _, _, _, _, h, _⟩ | h := hend
    · cases h
    · exact h.1
  · have hend := ((pathTo_exact hr hsixth parents.get).2.1 _).1 (hfault hmissing)
    obtain ⟨n, v, a, hv, hslot, -, ha, -⟩ | h := hend
    · exact ⟨n, v, hv, Fault.missingParent.inj ha ▸ hslot⟩
    · cases h.2.1

end ModelChecker
