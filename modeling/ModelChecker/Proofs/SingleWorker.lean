import Mathlib.Logic.Function.Iterate
import ModelChecker.Proofs.BreadthFirstRun
import ModelChecker.Proofs.PartitionedRun
import ModelChecker.Proofs.Strategy

namespace ModelChecker

variable {σ : Type}

namespace BreadthFirst

variable {ω : Type} {sys : System σ} {l : Listener σ ω} {m : State σ ω} {w : Worker σ}

theorem step_solo (hw : m.workers = #[w]) (hstopped : w.stopped = false) :
    step sys l 0 m = { (stepWorker sys l 0 w m).1 with workers := #[(stepWorker sys l 0 w m).2] } := by
  rw [step_eq (w := w) (by rw [hw]; rfl) hstopped, hw]
  rfl

theorem size_step (i : Nat) (m : State σ ω) : (step sys l i m).workers.size = m.workers.size := by
  unfold step
  split
  · rfl
  · split
    · rfl
    · simp [stepWorker_workers]

theorem le_enough (sys : System σ) (n : Nat) : n ≤ enough sys n := by
  have hmul : n ≤ n * (2 * sys.degree + 2) := Nat.le_mul_of_pos_right n (by omega)
  simp only [enough]
  omega

theorem step_of_isOver (h : m.isOver = true) (i : Nat) : step sys l i m = m := by
  unfold step
  split
  · rfl
  · rename_i w hw
    have hstopped := isOver_iff.1 h w (Array.mem_toList_iff.2 (Array.mem_of_getElem? hw))
    rw [if_pos hstopped]

theorem ending_eq_some {e : Ending} :
    m.toExploration.ending = some e ↔ m.isOver = true ∧ m.interrupt.ending = e := by
  simp [State.toExploration]

theorem iterate_stays {n : Nat} {e : Ending}
    (h : ((step sys l 0)^[n] m).toExploration.ending = some e) :
    (step sys l 0)^[n + 1] m = (step sys l 0)^[n] m := by
  rw [Function.iterate_succ_apply', step_of_isOver (ending_eq_some.1 h).1]

theorem rounds_solo (n : Nat) (h : m.workers.size = 1) :
    rounds sys l (.inTurn 1) n m = (step sys l 0)^[n] m := by
  induction n generalizing m with
  | zero => rfl
  | succ n ih =>
    cases hover : m.isOver with
    | true => rw [rounds_of_isOver hover, Function.iterate_fixed (step_of_isOver hover 0)]
    | false =>
      have hround : runSchedule sys l (Schedule.inTurn 1 0) m = step sys l 0 m := rfl
      rw [rounds_succ hover, hround]
      exact (ih ((size_step 0 m).trans h)).trans (Function.iterate_succ_apply _ _ _).symm

end BreadthFirst

namespace Partitioned

section step
variable {ω : Type} {sys : System σ} {l : Listener σ ω} {p : State σ ω} {u : Worker σ}

theorem step_solo (hu : p.workers = #[u]) (hphase : u.phase = .working) :
    step sys l 0 p = work sys l 0 u p := by
  simp [step, hu, hphase]

theorem step_settling (hu : p.workers = #[u]) (hphase : u.phase = .settling) :
    step sys l 0 p = { p with
      outstanding := p.outstanding - u.finished
      workers := #[{ u with finished := 0, phase := .testing }] } := by
  simp [step, hu, hphase, State.modifyWorker]

theorem step_testing (hu : p.workers = #[u]) (hphase : u.phase = .testing) (h : p.outstanding = 0) :
    step sys l 0 p = { p with workers := #[{ u with phase := .returned }] } := by
  simp [step, hu, hphase, h, State.modifyWorker]

theorem step_returned (hu : p.workers = #[u]) (hphase : u.phase = .returned) :
    step sys l 0 p = p := by
  simp [step, hu, hphase]

theorem modifyWorker_solo (hu : p.workers = #[u]) (f : Worker σ → Worker σ) :
    p.modifyWorker 0 f = { p with workers := #[f u] } := by
  rw [State.modifyWorker, hu]
  rfl

theorem owner_solo (hu : p.workers = #[u]) (x : σ) : p.owner sys x = 0 := by
  rw [State.owner, hu]
  exact Nat.mod_one _

theorem foldl_send_solo (sys : System σ) (p : State σ ω) (hu : p.workers = #[u])
    (seeds : List σ) :
    ∃ inbox, seeds.foldl (fun p x => send sys ⟨none, x, {}⟩ p) p =
        { p with workers := #[{ u with inbox }], outstanding := p.outstanding + seeds.length } ∧
      inbox.toList = u.inbox.toList ++ seeds.map fun x => ⟨none, x, {}⟩ := by
  induction seeds generalizing p u with
  | nil => exact ⟨u.inbox, by rw [← hu]; rfl, by simp⟩
  | cons x rest ih =>
    have hsend : send sys ⟨none, x, {}⟩ p =
        { p with
          workers := #[{ u with inbox := u.inbox.push ⟨none, x, {}⟩ }]
          outstanding := p.outstanding + 1 } := by
      rw [send, owner_solo hu, State.modifyWorker, hu]
      rfl
    obtain ⟨inbox, hfold, hinbox⟩ := ih (send sys ⟨none, x, {}⟩ p) (by rw [hsend])
    refine ⟨inbox, ?_, by simpa using hinbox⟩
    rw [List.foldl_cons, hfold, hsend, List.length_cons]
    simp only [State.mk.injEq, true_and, and_true]
    omega

end step

variable {sys : System σ} {s : Strategy σ} {p p' p'' : State σ (List (Callback σ))}

def Extends (p p' : State σ (List (Callback σ))) : Prop :=
  p'.workers.size = p.workers.size ∧ p.observation <+: p'.observation

theorem Extends.trans (h : Extends p p') (h' : Extends p' p'') : Extends p p'' :=
  ⟨h'.1.trans h.1, h.2.trans h'.2⟩

theorem extends_refl (p : State σ (List (Callback σ))) : Extends p p := ⟨rfl, List.prefix_refl _⟩

theorem extends_modifyWorker (i : Nat) (f : Worker σ → Worker σ) (p : State σ (List (Callback σ))) :
    Extends p (p.modifyWorker i f) :=
  ⟨Array.size_modify, List.prefix_refl _⟩

theorem extends_accept (i : Nat) (source : Option (Vertex σ)) (next : Successor σ)
    (p : State σ (List (Callback σ))) : Extends p (accept sys s.listener i source next p) := by
  have h := s.prefix_offer sys i source next p.store p.observation
  unfold accept
  cases hoffer : s.listener.offer sys i source next p.store p.observation <;> rw [hoffer] at h
  · exact ⟨Array.size_modify, h⟩
  · exact ⟨rfl, h⟩
  · exact ⟨Array.size_modify, h⟩

theorem extends_expand (i : Nat) (v : Vertex σ) (stats : SearchStats)
    (p : State σ (List (Callback σ))) : Extends p (expand s.listener i v stats p) := by
  have h := s.prefix_expand (v := v) i p.store stats p.observation
  unfold expand
  rcases hexpand : s.listener.expand i p.store v stats p.observation with ⟨_ | next, stats, told⟩ <;>
    rw [hexpand] at h
  · exact ⟨Array.size_modify.trans Array.size_modify, h⟩
  · exact ⟨Array.size_modify, h⟩

theorem extends_work (i : Nat) (u : Worker σ) (p : State σ (List (Callback σ))) :
    Extends p (work sys s.listener i u p) := by
  unfold work
  split
  · rename_i v next rest _
    have hmodify := extends_modifyWorker i (fun w => { w with current := some (v, rest) }) p
    apply hmodify.trans
    unfold distribute
    split
    · exact extends_accept i _ _ _
    · exact ⟨Array.size_modify, List.prefix_refl _⟩
  · exact extends_modifyWorker i _ p
  · split
    · exact extends_modifyWorker i _ p
    · unfold take
      split
      · rename_i message inbox _
        have hmodify := extends_modifyWorker i
          (fun w => { w with inbox, finished := w.finished + 1 }) p
        exact hmodify.trans (extends_accept i _ _ _)
      · split
        · rename_i v queue _
          have hmodify := extends_modifyWorker i (fun w => { w with queue }) p
          exact hmodify.trans (extends_expand i v u.stats _)
        · exact extends_modifyWorker i _ p

theorem extends_step (i : Nat) (p : State σ (List (Callback σ))) :
    Extends p (step sys s.listener i p) := by
  unfold step
  split
  · exact extends_refl p
  · split
    · exact extends_work i _ p
    · exact ⟨Array.size_modify, List.prefix_refl _⟩
    · exact extends_modifyWorker i _ p
    · exact extends_refl p

theorem le_enough (sys : System σ) (n seeds : Nat) : n ≤ enough sys n seeds := by
  have hmul : n ≤ n * (2 * sys.degree + 2) := Nat.le_mul_of_pos_right n (by omega)
  simp only [enough]
  omega

theorem step_of_isOver (h : p.isOver = true) (i : Nat) : step sys s.listener i p = p := by
  unfold step
  split
  · rfl
  · rename_i u hu
    rw [isOver_iff.1 h u (Array.mem_of_getElem? hu)]

theorem ending_eq_some {e : Ending} :
    p.toExploration.ending = some e ↔ p.isOver = true ∧ p.interrupt.ending = e := by
  simp [State.toExploration]

theorem iterate_stays {n : Nat} {e : Ending}
    (h : ((step sys s.listener 0)^[n] p).toExploration.ending = some e) :
    (step sys s.listener 0)^[n + 1] p = (step sys s.listener 0)^[n] p := by
  rw [Function.iterate_succ_apply', step_of_isOver (ending_eq_some.1 h).1]

theorem iterate_grows (n : Nat) (p : State σ (List (Callback σ))) :
    ((step sys s.listener 0)^[n] p).observation <+:
      ((step sys s.listener 0)^[n + 1] p).observation := by
  rw [Function.iterate_succ_apply']
  exact (extends_step 0 _).2

theorem rounds_solo (n : Nat) (h : p.workers.size = 1) :
    rounds sys s.listener (.inTurn 1) n p = (step sys s.listener 0)^[n] p := by
  induction n generalizing p with
  | zero => rfl
  | succ n ih =>
    cases hover : p.isOver with
    | true => rw [rounds_of_isOver hover, Function.iterate_fixed (step_of_isOver hover 0)]
    | false =>
      have hround : runSchedule sys s.listener (Schedule.inTurn 1 0) p =
          step sys s.listener 0 p := rfl
      rw [rounds_succ hover, hround]
      exact (ih ((extends_step 0 p).1.trans h)).trans (Function.iterate_succ_apply _ _ _).symm

end Partitioned

end ModelChecker
