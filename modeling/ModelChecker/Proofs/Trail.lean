import Mathlib.Data.List.Chain
import ModelChecker.Proofs.Work
import ModelChecker.Search.Schedule

namespace ModelChecker

variable {σ ω : Type}

/-- The moments of a trail begin with the first work and end with the last. -/
inductive Work.Trail (sys : System σ) (l : Listener σ ω) :
    Work σ ω → List (Work σ ω) → Work σ ω → Prop where
  | single (w : Work σ ω) : Trail sys l w [w] w
  | cons {w w₁ w' : Work σ ω} {ms : List (Work σ ω)} (ht : Turn sys l w w₁)
    (h : Trail sys l w₁ ms w') : Trail sys l w (w :: ms) w'

namespace Work.Trail

variable {sys : System σ} {l : Listener σ ω} {w w₁ w₂ w' : Work σ ω} {ms ms' : List (Work σ ω)}

theorem trans (h : Trail sys l w ms w₁) (ht : Turn sys l w₁ w₂) (h' : Trail sys l w₂ ms' w') :
    Trail sys l w (ms ++ ms') w' := by
  induction h with
  | single => exact .cons ht h'
  | cons hfirst _ ih => exact .cons hfirst (ih ht)

theorem head?_eq (h : Trail sys l w ms w') : ms.head? = some w := by
  cases h <;> rfl

theorem getLast?_eq (h : Trail sys l w ms w') : ms.getLast? = some w' := by
  induction h with
  | single => rfl
  | cons _ h ih =>
    cases h with
    | single => exact ih
    | cons => exact ih

theorem isChain (h : Trail sys l w ms w') : ms.IsChain (Turn sys l) := by
  induction h with
  | single => exact .singleton _
  | cons ht h ih =>
    refine List.isChain_cons.2 ⟨fun x hx => ?_, ih⟩
    cases h.head?_eq.symm.trans hx
    exact ht

theorem moves_of_mem (h : Trail sys l w ms w') : ∀ x ∈ ms, Moves sys l w x := by
  induction h with
  | single => exact fun x hx => List.mem_singleton.1 hx ▸ .refl
  | cons ht _ ih =>
    exact List.forall_mem_cons.2 ⟨.refl, fun x hx => ht.moves.trans (ih x hx)⟩

theorem moves (h : Trail sys l w ms w') : Moves sys l w w' :=
  h.moves_of_mem w' (List.mem_of_getLast? h.getLast?_eq)

end Work.Trail

/-- The work of a search whose workers take their steps by a schedule, before and after each step. -/
def roundMoments {τ : Type} (step : τ → Nat → τ) (isOver : τ → Bool) (work : τ → Work σ ω) :
    Schedule → Nat → τ → List (Work σ ω)
  | _, 0, m => [work m]
  | schedule, n + 1, m =>
    if isOver m then [work m]
    else (List.scanl step m (schedule 0)).map work ++
      roundMoments step isOver work schedule.tail n ((schedule 0).foldl step m)

section turns
variable {τ : Type} {step : τ → Nat → τ} {work : τ → Work σ ω} {sys : System σ}
  {l : Listener σ ω} {P : τ → Prop}
  (hstep : ∀ m i, P m → P (step m i) ∧ Work.Turn sys l (work m) (work (step m i)))
include hstep

theorem scanl_trail (schedule : List Nat) {m : τ} (hm : P m) :
    P (schedule.foldl step m) ∧
      Work.Trail sys l (work m) ((schedule.scanl step m).map work)
        (work (schedule.foldl step m)) := by
  induction schedule generalizing m with
  | nil => exact ⟨hm, .single _⟩
  | cons i rest ih =>
    obtain ⟨hnext, hturn⟩ := hstep m i hm
    obtain ⟨hlast, htrail⟩ := ih hnext
    rw [List.scanl_cons]
    exact ⟨hlast, .cons hturn htrail⟩

theorem roundMoments_trail {isOver : τ → Bool} {rounds : Schedule → Nat → τ → τ}
    (hzero : ∀ schedule m, rounds schedule 0 m = m)
    (hsucc : ∀ schedule n m, rounds schedule (n + 1) m =
      if isOver m then m else rounds schedule.tail n ((schedule 0).foldl step m))
    (schedule : Schedule) (n : Nat) {m : τ} (hm : P m) :
    Work.Trail sys l (work m) (roundMoments step isOver work schedule n m)
      (work (rounds schedule n m)) := by
  induction n generalizing schedule m with
  | zero =>
    rw [hzero]
    exact .single _
  | succ n ih =>
    rw [hsucc]
    unfold roundMoments
    split
    · exact .single _
    · obtain ⟨hlast, htrail⟩ := scanl_trail hstep (schedule 0) hm
      exact htrail.trans (.rest _) (ih schedule.tail hlast)

end turns

end ModelChecker
