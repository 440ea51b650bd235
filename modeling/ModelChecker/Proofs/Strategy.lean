import ModelChecker.Proofs.Store

namespace ModelChecker

variable {σ : Type}

namespace Listener

variable {ω : Type} (l : Listener σ ω) (i : Nat) (v : Vertex σ) (o : ω)

theorem follow_observation (source : Option (Vertex σ)) (flags : EdgeFlags) (isNew : Bool) :
    (l.follow i source v flags isNew o).2 = (l.edge i source v flags isNew o).2 ∨
      (l.follow i source v flags isNew o).2 =
        (l.state i v (l.edge i source v flags isNew o).2).2 := by
  unfold follow
  rcases l.edge i source v flags isNew o with ⟨action, o'⟩
  rcases hstate : l.state i v o' with ⟨answer, o''⟩
  by_cases hskip : action = .asNeeded ∧ isNew = false
  · rw [hskip.1]
    simp [hskip.2]
  · cases action <;> cases answer <;> simp_all

theorem expand_observation (store : Store σ) (stats : SearchStats) :
    (l.expand i store v stats o).2.2 = (l.successors i store v o).2 ∨
      (l.expand i store v stats o).2.2 = (l.deadlocked i v (l.successors i store v o).2).2 := by
  unfold expand
  rcases l.successors i store v o with ⟨_ | ⟨next, rest⟩, o'⟩
  · right
    rcases hdead : l.deadlocked i v o' with ⟨action, o''⟩
    cases action <;> simp [hdead]
  · exact .inl rfl

end Listener

def Offer.observation {ω : Type} : Offer σ ω → ω
  | .expand _ _ o | .skip _ o | .halt _ _ o => o

/-- What a listener is told, or asked for the successors of a state. -/
inductive Callback (σ : Type) where
  | edge (source : Option σ) (target : σ) (flags : EdgeFlags) (isNew : Bool)
  | state (state : σ)
  | deadlocked (state : σ)
  | successors (state : σ)

/-- The answers of a listener that knows the states, and all that it was told before. -/
structure Strategy (σ : Type) where
  answer : List (Callback σ) → Callback σ → Action
  successors : List (Callback σ) → σ → List (Successor σ)

namespace Strategy

def tell (s : Strategy σ) (c : Callback σ) (told : List (Callback σ)) :
    Action × List (Callback σ) :=
  (s.answer told c, told ++ [c])

/-- The listener that answers by a strategy and remembers what it was told. -/
def listener (s : Strategy σ) : Listener σ (List (Callback σ)) where
  edge _ source target flags isNew :=
    s.tell (.edge (source.map (·.state)) target.state flags isNew)
  state _ v := s.tell (.state v.state)
  deadlocked _ v := s.tell (.deadlocked v.state)
  successors _ _ v told := (s.successors told v.state, told ++ [.successors v.state])

variable (s : Strategy σ) {source source' : Option (Vertex σ)} {v v' : Vertex σ}

theorem follow_congr (hs : source.map (·.state) = source'.map (·.state)) (hv : v.state = v'.state)
    (i : Nat) (flags : EdgeFlags) (isNew : Bool) (told : List (Callback σ)) :
    s.listener.follow i source v flags isNew told = s.listener.follow i source' v' flags isNew told := by
  simp only [Listener.follow, listener, hs, hv]

theorem expand_congr (hv : v.state = v'.state) (i : Nat) (t t' : Store σ) (stats : SearchStats)
    (told : List (Callback σ)) :
    s.listener.expand i t v stats told = s.listener.expand i t' v' stats told := by
  simp only [Listener.expand, listener, hv]

theorem prefix_follow (source : Option (Vertex σ)) (v : Vertex σ) (i : Nat) (flags : EdgeFlags)
    (isNew : Bool) (told : List (Callback σ)) :
    told <+: (s.listener.follow i source v flags isNew told).2 := by
  rcases s.listener.follow_observation i v told source flags isNew with h | h <;> rw [h]
  · exact List.prefix_append _ _
  · exact (List.prefix_append _ _).trans (List.prefix_append _ _)

theorem prefix_offer (sys : System σ) (i : Nat) (source : Option (Vertex σ)) (next : Successor σ)
    (t : Store σ) (told : List (Callback σ)) :
    told <+: (s.listener.offer sys i source next t told).observation := by
  unfold Listener.offer
  split
  · exact List.prefix_refl _
  · rename_i v isNew t' _
    have h := s.prefix_follow source v i next.2 isNew told
    rcases hfollow : s.listener.follow i source v next.2 isNew told with ⟨step, told'⟩
    rw [hfollow] at h
    cases step <;> exact h

theorem prefix_expand (i : Nat) (t : Store σ) (stats : SearchStats) (told : List (Callback σ)) :
    told <+: (s.listener.expand i t v stats told).2.2 := by
  rcases s.listener.expand_observation i v told t stats with h | h <;> rw [h]
  · exact List.prefix_append _ _
  · exact (List.prefix_append _ _).trans (List.prefix_append _ _)

end Strategy

namespace Store

/-- Two stores without a limit that hold the same states. -/
structure Twins (sys : System σ) (s s' : Store σ) : Prop where
  left : s.Distinct sys
  right : s'.Distinct sys
  limit : s.budget.limit = none
  limit' : s'.budget.limit = none
  states : ∀ x, (∃ v ∈ s.vertices, v.state = x) ↔ ∃ v ∈ s'.vertices, v.state = x

variable {sys : System σ} {s s' : Store σ}

theorem Distinct.resolve_ok (h : s.Distinct sys) (hx : sys.Explicit) (hlimit : s.budget.limit = none)
    (states : List σ) : ∃ vs t, sys.resolve states s = .ok (vs, t) := by
  induction states generalizing s with
  | nil => exact ⟨[], s, rfl⟩
  | cons x rest ih =>
    rcases h.store_cases hx x with ⟨v, -, -, hs⟩ | ⟨v, after, hs, -, -, ha, hd⟩ | ⟨n, hn, -⟩
    · obtain ⟨vs, t, hr⟩ := ih h hlimit
      exact ⟨(v, false) :: vs, t, by simp only [System.resolve, hs, hr, Except.map]⟩
    · obtain ⟨vs, t, hr⟩ := ih hd (ha.limit.trans hlimit)
      exact ⟨(v, true) :: vs, t, by simp only [System.resolve, hs, hr, Except.map]⟩
    · rw [hlimit] at hn
      cases hn

theorem Twins.store (h : Twins sys s s') (hx : sys.Explicit) (x : σ) :
    ∃ v v' isNew t t', sys.store s x = .ok ⟨v, isNew, t⟩ ∧ sys.store s' x = .ok ⟨v', isNew, t'⟩ ∧
      v.state = x ∧ v'.state = x ∧ Twins sys t t' := by
  rcases h.left.store_cases hx x with ⟨v, hv, rfl, hs⟩ | ⟨v, t, hs, rfl, hnew, ha, hd⟩ | ⟨n, hn, -⟩
  · rcases h.right.store_cases hx v.state with ⟨v', hv', hvx, hs'⟩ | ⟨v', t', hs', -, hnew, -⟩ | ⟨n, hn, -⟩
    · exact ⟨v, v', false, s, s', hs, hs', rfl, hvx, h⟩
    · obtain ⟨w, hw, hwx⟩ := (h.states v.state).1 ⟨v, hv, rfl⟩
      exact absurd hwx (hnew w hw)
    · rw [h.limit'] at hn
      cases hn
  · rcases h.right.store_cases hx v.state with ⟨v', hv', hvx, -⟩ | ⟨v', t', hs', hvx, -, ha', hd'⟩ | ⟨n, hn, -⟩
    · obtain ⟨w, hw, hwx⟩ := (h.states v.state).2 ⟨v', hv', hvx⟩
      exact absurd hwx (hnew w hw)
    · refine ⟨v, v', true, t, t', hs, hs', rfl, hvx, hd, hd', ha.limit.trans h.limit,
        ha'.limit.trans h.limit', fun x => ?_⟩
      have hstates := h.states x
      simp only [ha.mem_iff, ha'.mem_iff, or_and_right, exists_or, exists_eq_left, hvx, hstates]
    · rw [h.limit'] at hn
      cases hn
  · rw [h.limit] at hn
    cases hn

theorem twins_ofShards (sys : System σ) (count count' : Nat) :
    Twins sys (.ofShards count none) (.ofShards count' none) := by
  refine ⟨distinct_ofShards sys count none, distinct_ofShards sys count' none, rfl, rfl,
    fun x => ?_⟩
  rw [vertices_ofShards, vertices_ofShards]

end Store

namespace Strategy

variable {sys : System σ} (s : Strategy σ)

end Strategy

end ModelChecker
