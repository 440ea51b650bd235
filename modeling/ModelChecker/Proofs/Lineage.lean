import ModelChecker.Trace.Parent
import ModelChecker.Proofs.Store

namespace ModelChecker

variable {σ : Type} {parentOf : Handle → Parent} {store : Store σ}

/-- The parent of every vertex stands further down the list. -/
inductive Lineage (parentOf : Handle → Parent) : List (Vertex σ) → Prop where
  | nil : Lineage parentOf []
  | cons {v : Vertex σ} {rest : List (Vertex σ)} (h : Lineage parentOf rest)
    (hv : ∀ a, parentOf v.handle = .vertex a → ∃ p ∈ rest, p.handle = a) :
    Lineage parentOf (v :: rest)

theorem Lineage.of_append {before rest : List (Vertex σ)} (h : Lineage parentOf (before ++ rest)) :
    Lineage parentOf rest := by
  induction before with
  | nil => exact h
  | cons v before ih =>
    cases h with
    | cons h _ => exact ih h

theorem Lineage.congr {parentOf' : Handle → Parent} {order : List (Vertex σ)}
    (h : Lineage parentOf order)
    (hp : ∀ v ∈ order, ∀ a, parentOf' v.handle = .vertex a → parentOf v.handle = .vertex a) :
    Lineage parentOf' order := by
  induction h with
  | nil => exact .nil
  | cons h hv ih =>
    exact .cons (ih fun v hm => hp v (List.mem_cons_of_mem _ hm))
      fun a ha => hv a (hp _ List.mem_cons_self a ha)

theorem climb_ok (hs : store.Sound) (n : Nat) {order : List (Vertex σ)} {v : Vertex σ}
    {path : List (Vertex σ)} (ho : Lineage parentOf order) (hn : order.length ≤ n)
    (hmem : ∀ p ∈ order, p ∈ store.vertices)
    (hv : ∀ a, parentOf v.handle = .vertex a → ∃ p ∈ order, p.handle = a) :
    ∃ r, climb store parentOf n v path = .ok r := by
  -- the fuel bounds the older vertices, of which each step up leaves fewer
  induction n generalizing order v path with
  | zero =>
    unfold climb
    split
    · exact ⟨_, rfl⟩
    · exact ⟨_, rfl⟩
    · rename_i a ha
      obtain ⟨p, hp, -⟩ := hv a ha
      rw [List.eq_nil_of_length_eq_zero (Nat.le_zero.1 hn)] at hp
      cases hp
  | succ n ih =>
    unfold climb
    split
    · exact ⟨_, rfl⟩
    · exact ⟨_, rfl⟩
    · rename_i a ha
      obtain ⟨p, hp, hpa⟩ := hv a ha
      obtain ⟨before, rest, rfl⟩ := List.append_of_mem hp
      rw [hs.get?_eq_some.2 ⟨hmem p hp, hpa⟩]
      cases ho.of_append with
      | cons hrest hparent =>
        refine ih hrest ?_ (fun q hq => hmem q ?_) hparent
        · rw [List.length_append, List.length_cons] at hn
          omega
        · exact List.mem_append_right _ (List.mem_cons_of_mem _ hq)

theorem pathTo_ok (hs : store.Sound) {order : List (Vertex σ)} {v : Vertex σ}
    (ho : Lineage parentOf order) (hnodup : order.Nodup) (hmem : ∀ p ∈ order, p ∈ store.vertices)
    (hvm : v ∈ store.vertices)
    (hv : ∀ a, parentOf v.handle = .vertex a → ∃ p ∈ order, p.handle = a) :
    ∃ r, pathTo store parentOf v = .ok r := by
  have hlen : ∀ l : List (Vertex σ), l.Nodup → (∀ p ∈ l, p ∈ store.vertices) →
      l.length ≤ store.size := by
    intro l hl hsub
    rw [Store.size, hs.used]
    exact (List.subperm_of_subset hl hsub).length_le
  by_cases hvo : v ∈ order
  · -- the parents of `v` are among the older vertices
    obtain ⟨before, rest, rfl⟩ := List.append_of_mem hvo
    have hle := hlen _ hnodup hmem
    rw [List.length_append, List.length_cons] at hle
    cases ho.of_append with
    | cons hrest hparent =>
      refine climb_ok hs _ hrest (by omega) (fun p hp => hmem p ?_) hparent
      exact List.mem_append_right _ (List.mem_cons_of_mem _ hp)
  · have hle := hlen (v :: order) (List.nodup_cons.2 ⟨hvo, hnodup⟩) (by
      intro p hp
      rcases List.mem_cons.1 hp with rfl | hp
      · exact hvm
      · exact hmem p hp)
    rw [List.length_cons] at hle
    exact climb_ok hs _ ho (by omega) hmem hv

end ModelChecker
