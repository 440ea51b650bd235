namespace ModelChecker

/-- What a worker does next that shares a count of the work with others: work, take the work that it
has finished off the count, or see whether any work is left at all. -/
inductive Phase where
  | working
  | settling
  | testing
  | returned
deriving DecidableEq, Repr, Inhabited

/-- The order in which workers take their steps, divided into rounds. A round may be of any length,
and a worker may have several steps in it. -/
def Schedule : Type := Nat → List Nat

namespace Schedule

/-- In every round the workers take one step each, the first worker first. -/
def inTurn (workers : Nat) : Schedule := fun _ => List.range workers

def tail (s : Schedule) : Schedule := fun n => s (n + 1)

/-- Each worker has a step in every round. -/
def Fair (s : Schedule) (workers : Nat) : Prop := ∀ n, ∀ i < workers, i ∈ s n

variable {τ : Type}

def rounds (step : Nat → τ → τ) (isOver : τ → Bool) : Schedule → Nat → τ → τ
  | _, 0, m => m
  | s, n + 1, m =>
    if isOver m then m else rounds step isOver s.tail n ((s 0).foldl (fun m i => step i m) m)

variable {s : Schedule} {workers : Nat} {step : Nat → τ → τ} {isOver : τ → Bool} {m : τ}

theorem fair_inTurn (workers : Nat) : (inTurn workers).Fair workers :=
  fun _ _ hi => List.mem_range.2 hi

theorem Fair.tail (h : s.Fair workers) : s.tail.Fair workers := fun n => h (n + 1)

theorem rounds_of_isOver (h : isOver m = true) (s : Schedule) (n : Nat) :
    s.rounds step isOver n m = m := by
  cases n with
  | zero => rfl
  | succ n => simp only [rounds, h, if_true]

theorem rounds_succ (h : isOver m = false) (s : Schedule) (n : Nat) :
    s.rounds step isOver (n + 1) m =
      s.tail.rounds step isOver n ((s 0).foldl (fun m i => step i m) m) := by
  simp only [rounds, h, Bool.false_eq_true, if_false]

theorem exists_steps (step : Nat → τ → τ) (isOver : τ → Bool) (s : Schedule) (n : Nat) (m : τ) :
    ∃ steps : List Nat, s.rounds step isOver n m = steps.foldl (fun m i => step i m) m := by
  induction n generalizing s m with
  | zero => exact ⟨[], rfl⟩
  | succ n ih =>
    cases h : isOver m with
    | true => exact ⟨[], rounds_of_isOver h s _⟩
    | false =>
      obtain ⟨steps, hs⟩ := ih s.tail ((s 0).foldl (fun m i => step i m) m)
      refine ⟨s 0 ++ steps, ?_⟩
      rw [rounds_succ h, hs, List.foldl_append]

end Schedule

end ModelChecker
