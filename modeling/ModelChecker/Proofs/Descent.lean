import ModelChecker.Proofs.DepthFirstFrames
import ModelChecker.Proofs.SiftedSearch

namespace ModelChecker

variable {σ : Type}

/-- First edges that are kept lead on from `a` to a first edge that is ignored and leads to `x`.
They enter no initial state and none that was passed before. -/
inductive System.Ahead (sys : System σ) (ignored : σ → Successor σ → Bool) (x : σ) :
    List σ → σ → Prop where
  | last {past a n more} (hs : sys.successors a = n :: more) (hn : n.1 = x)
    (hi : ignored a n = true) (hx : x ∉ a :: past) : Ahead sys ignored x past a
  | step {past a n more} (hs : sys.successors a = n :: more) (hk : ignored a n = false)
    (hnew : n.1 ∉ a :: past) (hinit : n.1 ∉ sys.initials)
    (h : Ahead sys ignored x (a :: past) n.1) : Ahead sys ignored x past a

namespace DepthFirst

section halted
variable {ω : Type} {sys : System σ} {l : Listener σ ω} {P : Position σ ω → Prop}

theorem steps_halted (hq : ∀ v o, l.deadlocked 0 v o = (.ignore, o))
    (hgoes : ∀ p p', P p → Goes sys l p p' → P p') (n : Nat) (p : Position σ ω) (hp : P p)
    (he : (steps sys l n p.toState).ending ≠ none) :
    ∃ p', P p' ∧ Halts sys l p' (steps sys l n p.toState).toExploration := by
  induction n generalizing p with
  | zero => exact absurd rfl he
  | succ n ih =>
    have hstep : steps sys l (n + 1) p.toState = steps sys l n (step sys l p.toState) := rfl
    rw [hstep] at he ⊢
    rcases step_follows sys hq p with ⟨p', hpp', hs⟩ | ⟨hh, hend⟩
    · rw [hs] at he ⊢
      exact ih p' (hgoes p p' hp hpp') he
    · rw [steps_of_ending hend]
      exact ⟨p, hp, hh⟩

theorem run_halted {allowance : Nat} {seeds : Seeds σ} {store store' : Store σ} {o : ω}
    {vs : List (Vertex σ × Bool)} (hr : seeds.resolve sys store = .ok (vs, store'))
    (hq : ∀ v o, l.deadlocked 0 v o = (.ignore, o))
    (hgoes : ∀ p p', P p → Goes sys l p p' → P p') (hstart : P ⟨[], vs, store', o, {}⟩)
    (he : (run sys l allowance seeds store o).ending ≠ none) :
    ∃ p, P p ∧ Halts sys l p (run sys l allowance seeds store o) := by
  unfold run at he ⊢
  rw [hr] at he ⊢
  exact steps_halted hq hgoes _ ⟨[], vs, store', o, {}⟩ hstart he

end halted

/-- The states on the way down to `a` are all that is stored beside the initial ones. -/
structure Opened (sys : System σ) (past : List σ) (a : σ) (p : Position σ (Unit × Journal σ)) :
    Prop where
  frame : ∃ v frames, v.state = a ∧ p.frames = ⟨v, sys.successors a⟩ :: frames
  canonical : p.store.Canonical sys
  stored : ∀ v ∈ p.store.vertices, v.state ∈ sys.initials ∨ v.state ∈ a :: past
  told : ∀ y ∈ p.observation.2.tellings, y.target ∈ p.store.vertices

/-- The search is on its way down to the ignored edge, or that edge has told of `x` as new. -/
inductive Descends (sys : System σ) (ignored : σ → Successor σ → Bool) (x : σ) :
    Position σ (Unit × Journal σ) → Prop where
  | start {v seeds store stats} (hcan : store.Canonical sys) (hv : v ∈ store.vertices)
    (hstored : ∀ v ∈ store.vertices, v.state ∈ sys.initials)
    (ha : sys.Ahead ignored x [] v.state) :
    Descends sys ignored x ⟨[], (v, true) :: seeds, store, ((), {}), stats⟩
  | opened {p past a} (h : Opened sys past a p) (ha : sys.Ahead ignored x past a) :
    Descends sys ignored x p
  | missed {p y} (h : y ∈ p.observation.2.discoveries) (ht : y.target.state = x)
    (hk : y.kept ignored = false) : Descends sys ignored x p

variable {sys : System σ} {ignored : σ → Successor σ → Bool} {past : List σ} {a x : σ}
  {p p' : Position σ (Unit × Journal σ)}

theorem Opened.store (hx : sys.Explicit) (h : Opened sys past a p) {n : Successor σ}
    (hnew : n.1 ∉ a :: past) (hinit : n.1 ∉ sys.initials) {t : Vertex σ} {isNew : Bool}
    {store' : Store σ} (hst : sys.store p.store n.1 = .ok ⟨t, isNew, store'⟩) :
    isNew = true ∧ t.state = n.1 ∧ store'.Canonical sys ∧ t ∈ store'.vertices ∧ (∀ v ∈ p.store.vertices, v ∈ store'.vertices) ∧
      ∀ v ∈ store'.vertices, v.state ∈ sys.initials ∨ v.state ∈ n.1 :: a :: past := by
  have hs := h.canonical.stored hx hst
  have hno : ∀ v ∈ p.store.vertices, v.state ≠ n.1 := by
    intro v hv he
    rcases h.stored v hv with hv | hv
    · exact hinit (he ▸ hv)
    · exact hnew (he ▸ hv)
  refine ⟨?_, hs.state, hs.canonical, hs.mem, hs.grows, fun v hv => ?_⟩
  · cases isNew with
    | true => rfl
    | false => exact absurd hs.state (hno t (hs.found rfl ▸ hs.mem))
  · rcases hs.origin v hv with rfl | hv
    · exact .inr (hs.state ▸ List.mem_cons_self)
    · exact (h.stored v hv).imp_right (List.mem_cons_of_mem _)

/-- The first edge of an open state is taken. -/
theorem Opened.goes (hx : sys.Explicit) (hxi : x ∉ sys.initials) (h : Opened sys past a p)
    (ha : sys.Ahead ignored x past a)
    (hg : Goes sys (Listener.sifting sys ignored).recorded p p') : Descends sys ignored x p' := by
  obtain ⟨v, frames, rfl, hframes⟩ := h.frame
  cases ha with
  | @last _ _ n more hs hn hi hnew =>
    subst hn
    rw [hs] at hframes
    cases hg with
    | @skipEdge _ _ _ _ _ _ o t _ _ _ _ hst hf =>
      cases hframes
      obtain ⟨rfl, ht, -⟩ := h.store hx hnew hxi hst
      rw [Listener.recorded_sifting_follow] at hf
      cases (Prod.ext_iff.1 hf).2
      refine .missed (y := ⟨0, some v, t, n.2, true⟩) List.mem_cons_self ht ?_
      simp [Telling.kept, ht, hi]
    | @openEdge _ _ _ _ _ _ _ t _ _ _ _ _ hst hf =>
      cases hframes
      obtain ⟨-, ht, -⟩ := h.store hx hnew hxi hst
      rw [Listener.recorded_sifting_follow] at hf
      simp [Telling.kept, ht, hi] at hf
    | skipSeed | openSeed | close => cases hframes
  | @step _ _ n more hs hk hnew hinit hahead =>
    rw [hs] at hframes
    cases hg with
    | skipEdge hst hf =>
      cases hframes
      obtain ⟨rfl, ht, -⟩ := h.store hx hnew hinit hst
      rw [Listener.recorded_sifting_follow] at hf
      simp [Telling.kept, ht, hk] at hf
    | @openEdge _ _ _ _ _ _ _ t _ _ _ _ _ hst hf =>
      cases hframes
      obtain ⟨-, ht, hcan, hmem, hgrows, hstored⟩ := h.store hx hnew hinit hst
      rw [Listener.recorded_sifting_follow] at hf
      cases (Prod.ext_iff.1 hf).2
      refine .opened ⟨⟨t, _, ht, by rw [← ht]; rfl⟩, hcan, hstored, fun y hy => ?_⟩ hahead
      rcases List.mem_cons.1 hy with rfl | hy
      · exact hmem
      · exact hgrows _ (h.told y hy)
    | skipSeed | openSeed | close => cases hframes

theorem Descends.goes (hx : sys.Explicit) (hxi : x ∉ sys.initials) (h : Descends sys ignored x p)
    (hg : Goes sys (Listener.sifting sys ignored).recorded p p') : Descends sys ignored x p' := by
  cases h with
  | @start v seeds store stats hcan hv hstored ha =>
    cases hg with
    | skipSeed h => rw [Listener.recorded_sifting_follow] at h; cases h
    | openSeed h =>
      rw [Listener.recorded_sifting_follow] at h
      cases h
      refine .opened ⟨⟨v, [], rfl, rfl⟩, hcan, fun u hu => .inl (hstored u hu), fun y hy => ?_⟩ ha
      obtain rfl := List.mem_singleton.1 hy
      exact hv
  | opened h ha => exact h.goes hx hxi ha hg
  | @missed _ y h ht hk =>
    -- what was told stays told
    refine .missed ?_ ht hk
    cases hg with
    | skipSeed hf | openSeed hf | skipEdge _ hf | openEdge _ hf =>
      rw [Listener.recorded_sifting_follow] at hf
      cases (Prod.ext_iff.1 hf).2
      exact Journal.mem_discoveries_tell h _
    | close hc =>
      cases hc
      exact h

/-- A state that is not initial is missed if the first edges lead down to an ignored edge to it. -/
theorem run_misses {allowance : Nat} {store : Store σ} {i : σ} {rest : List σ} (hx : sys.Explicit)
    (hcan : store.Canonical sys) (hnil : store.vertices = []) (hi : sys.initials = i :: rest)
    (hxi : x ∉ sys.initials) (ha : sys.Ahead ignored x [] i)
    (he : (run sys (Listener.sifting sys ignored).recorded allowance .initials store
      ((), {})).ending = some .completed) :
    ∃ y ∈ (run sys (Listener.sifting sys ignored).recorded allowance .initials store
      ((), {})).observation.2.discoveries, y.target.state = x ∧ y.kept ignored = false := by
  have hres : ∃ vs store', Seeds.resolve .initials sys store = .ok (vs, store') ∧
      Store.Resolved sys sys.initials store vs store' := by
    rcases hcan.resolve_cases hx sys.initials with ⟨vs, s', hr, hd⟩ | ⟨n, e, s', -, hr⟩
    · exact ⟨vs, s', hr, hd⟩
    · have hno : run sys (Listener.sifting sys ignored).recorded allowance .initials store
          ((), {}) = ⟨s', ((), {}), {}, some (.exhausted e)⟩ := by
        simp only [run, Seeds.resolve, hr]
      rw [hno] at he
      cases he
  obtain ⟨vs, store', hr, hd⟩ := hres
  have hstates := hd.states_eq
  rw [hi] at hstates
  cases vs with
  | nil => cases hstates
  | cons v seeds =>
    obtain ⟨v, isNew⟩ := v
    obtain rfl : v.state = i := (List.cons.inj hstates).1
    have hnew : isNew = true := by
      refine (hd.isNew_iff [] v isNew seeds rfl).2 ⟨fun u hu => ?_, fun u hu => ?_⟩
      · rw [hnil] at hu
        cases hu
      · cases hu
    subst hnew
    have hinit : ∀ u ∈ store'.vertices, u.state ∈ sys.initials := by
      intro u hu
      refine (hd.origin u hu).resolve_left fun hu => ?_
      rw [hnil] at hu
      cases hu
    obtain ⟨p, hp, hhalt⟩ := run_halted (P := Descends sys ignored x) hr (fun _ _ => rfl)
      (fun p p' h hg => h.goes hx hxi hg)
      (.start hd.canonical (hd.mem (v, true) List.mem_cons_self) hinit ha)
      (by rw [he]; exact Option.some_ne_none _)
    generalize run sys (Listener.sifting sys ignored).recorded allowance .initials store
      ((), {}) = e at he hhalt
    cases hhalt with
    | completed =>
      cases hp with
      | opened h =>
        obtain ⟨u, frames, -, hframes⟩ := h.frame
        cases hframes
      | missed h ht hk => exact ⟨_, h, ht, hk⟩
    | stopSeed | full | stopEdge | stopClose => cases he

end DepthFirst

end ModelChecker
