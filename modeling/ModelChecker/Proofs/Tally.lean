import ModelChecker.Proofs.Bracketing
import ModelChecker.Proofs.DepthFirstFrames
import ModelChecker.Proofs.Strategy

namespace ModelChecker

variable {σ ω ω' : Type}

/-- The vertices that were expanded, each with its successors, the latest first. -/
abbrev Tally (σ : Type) := List (Vertex σ × List (Successor σ))

namespace Listener

/-- The same listener, with a tally of the expansions. -/
def tallied (l : Listener σ ω) : Listener σ (ω × Tally σ) where
  edge worker source t flags isNew o :=
    let answer := l.edge worker source t flags isNew o.1
    (answer.1, answer.2, o.2)
  state worker v o :=
    let answer := l.state worker v o.1
    (answer.1, answer.2, o.2)
  deadlocked worker v o :=
    let answer := l.deadlocked worker v o.1
    (answer.1, answer.2, o.2)
  successors worker store v o :=
    let answer := l.successors worker store v o.1
    (answer.1, answer.2, (v, answer.1) :: o.2)
  closed worker v store o :=
    let answer := l.closed worker v store o.1
    (answer.1, answer.2.1, answer.2.2, o.2)

theorem tallied_lifts (l : Listener σ ω) : l.tallied.Lifts Prod.fst l :=
  ⟨fun _ _ _ _ _ _ => rfl, fun _ _ _ => rfl, fun _ _ _ => rfl, fun _ _ _ _ => rfl,
    fun _ _ _ _ => rfl⟩

theorem chronicled_lifts_tallied (l : Listener σ ω) :
    (DepthFirst.chronicled l).Lifts (Prod.map id fun calls => (DepthFirst.expansions calls).reverse)
      l.tallied where
  edge _ _ _ _ _ _ := by simp [DepthFirst.chronicled, tallied]
  state _ _ _ := by simp [DepthFirst.chronicled, tallied]
  deadlocked _ _ _ := by simp [DepthFirst.chronicled, tallied]
  successors _ _ _ _ := by simp [DepthFirst.chronicled, tallied]
  closed _ _ _ _ := by simp [DepthFirst.chronicled, tallied]

theorem follow_tally (l : Listener σ ω) (i : Nat) (source : Option (Vertex σ)) (t : Vertex σ)
    (flags : EdgeFlags) (isNew : Bool) (o : ω × Tally σ) :
    (l.tallied.follow i source t flags isNew o).2.2 = o.2 := by
  rcases l.tallied.follow_observation i t o source flags isNew with h | h
  · rw [h]
    rfl
  · rw [h]
    rfl

end Listener

namespace DepthFirst

theorem run_tally {sys : System σ} (hsame : ∀ a b, sys.same a b = true → a = b) (l : Listener σ ω)
    (allowance : Nat) (seeds : Seeds σ) (store : Store σ) (o : ω) :
    (run sys l.tallied allowance seeds store (o, [])).stats.states =
        (run sys l.tallied allowance seeds store (o, [])).observation.2.length ∧
      (run sys l.tallied allowance seeds store (o, [])).stats.edges =
        edgeCount (run sys l.tallied allowance seeds store (o, [])).observation.2 := by
  have hmap : run sys l.tallied allowance seeds store (o, []) = _ :=
    run_map (Listener.chronicled_lifts_tallied l) sys allowance seeds store (o, [])
  rw [hmap]
  unfold run
  cases seeds.resolve sys store with
  | error e => exact ⟨rfl, rfl⟩
  | ok r =>
    obtain ⟨vs, after⟩ := r
    obtain ⟨calls, h⟩ := steps_tells hsame l (enough sys allowance vs.length)
      (m := start vs after (o, [])) rfl
    have hcalls : (steps sys (chronicled l) (enough sys allowance vs.length)
        (start vs after (o, []))).observation.2 = calls := h.recorded
    refine ⟨h.states.trans ?_, h.edges.trans ?_⟩
    · rw [← hcalls]
      simp [start, Exploration.map, State.toExploration]
    · rw [← hcalls]
      simp [start, Exploration.map, State.toExploration]

def Position.map (f : ω' → ω) (p : Position σ ω') : Position σ ω :=
  ⟨p.frames, p.seeds, p.store, f p.observation, p.stats⟩

section lift

variable {sys : System σ} {l' : Listener σ ω'} {f : ω' → ω} {l : Listener σ ω}
  {p p' : Position σ ω'}

theorem Goes.map (hl : l'.Lifts f l) (h : Goes sys l' p p') : Goes sys l (p.map f) (p'.map f) := by
  cases h with
  | skipSeed h => exact .skipSeed (by rw [hl.follow, h]; rfl)
  | @openSeed v b seeds store o o' stats stats' h hs =>
    have hf : l.follow 0 none v {} b (f o) = (.expand, f o') := by rw [hl.follow, h]; rfl
    have hgoes : Goes sys l ⟨[], (v, b) :: seeds, store, f o, stats⟩ _ := .openSeed hf hs
    rw [hl.successors] at hgoes
    exact hgoes
  | skipEdge hst h => exact .skipEdge hst (by rw [hl.follow, h]; rfl)
  | @openEdge v n todo frames seeds store o t isNew store' o' stats stats' hst h hs =>
    have hf : l.follow 0 (some v) t n.2 isNew (f o) = (.expand, f o') := by rw [hl.follow, h]; rfl
    have hgoes : Goes sys l ⟨⟨v, n :: todo⟩ :: frames, seeds, store, f o, stats⟩ _ :=
      .openEdge hst hf hs
    rw [hl.successors] at hgoes
    exact hgoes
  | close h ha => exact .close (by rw [hl.closed, h]; rfl) ha

theorem Halts.map (hl : l'.Lifts f l) {e : Exploration σ ω'} (h : Halts sys l' p e) :
    Halts sys l (p.map f) (e.map f) := by
  cases h with
  | completed => exact .completed
  | stopSeed h => exact .stopSeed (by rw [hl.follow, h]; rfl)
  | full hst => exact .full hst
  | stopEdge hst h => exact .stopEdge hst (by rw [hl.follow, h]; rfl)
  | stopClose h => exact .stopClose (by rw [hl.closed, h]; rfl)

end lift

section tally

variable {sys : System σ} {l : Listener σ ω}

theorem Goes.opens_eq {p p' : Position σ ω} (h : Goes sys l p p') :
    ∀ f ∈ p.opens p', ∃ o, l.successors 0 p'.store f.vertex o = (f.todo, p'.observation) := by
  intro f hf
  cases h with
  | skipSeed => rw [Position.opens_eq_nil] at hf; cases hf
  | openSeed h hs =>
    rw [Position.opens_eq_singleton hs, List.mem_singleton] at hf
    subst hf
    exact ⟨_, rfl⟩
  | skipEdge => rw [Position.opens_eq_nil] at hf; cases hf
  | openEdge hst h hs =>
    rw [Position.opens_eq_singleton hs, List.mem_singleton] at hf
    subst hf
    exact ⟨_, rfl⟩
  | close => rw [Position.opens_eq_nil] at hf; cases hf

theorem tally_of_follow {i : Nat} {source : Option (Vertex σ)} {t : Vertex σ} {flags : EdgeFlags}
    {isNew : Bool} {o o' : ω × Tally σ} {step : Step}
    (h : l.tallied.follow i source t flags isNew o = (step, o')) : o'.2 = o.2 := by
  have htally := l.follow_tally i source t flags isNew o
  rw [h] at htally
  exact htally

theorem tally_of_closed {i : Nat} {v : Vertex σ} {store store' : Store σ} {o o' : ω × Tally σ}
    {action : Action} (h : l.tallied.closed i v store o = (action, store', o')) : o'.2 = o.2 := by
  cases h
  rfl

theorem Goes.tally {p p' : Position σ (ω × Tally σ)} (h : Goes sys l.tallied p p') :
    p'.observation.2 = (p.opens p').map (fun f => (f.vertex, f.todo)) ++ p.observation.2 := by
  cases h with
  | skipSeed h =>
    rw [Position.opens_eq_nil]
    exact tally_of_follow h
  | openSeed h hs =>
    rw [Position.opens_eq_singleton hs]
    exact congrArg (_ :: ·) (tally_of_follow h)
  | skipEdge hst h =>
    rw [Position.opens_eq_nil]
    exact tally_of_follow h
  | openEdge hst h hs =>
    rw [Position.opens_eq_singleton hs]
    exact congrArg (_ :: ·) (tally_of_follow h)
  | close h ha =>
    rw [Position.opens_eq_nil]
    exact tally_of_closed h

theorem Halts.tally {p : Position σ (ω × Tally σ)} {e : Exploration σ (ω × Tally σ)}
    (h : Halts sys l.tallied p e) : e.observation.2 = p.observation.2 := by
  cases h with
  | completed => rfl
  | stopSeed h => exact tally_of_follow h
  | full hst => rfl
  | stopEdge hst h => exact tally_of_follow h
  | stopClose h => exact tally_of_closed h

end tally

end DepthFirst

end ModelChecker
