namespace ModelChecker

/-- A path from an initial state whose last state has an edge back to where the cycle starts. The
cycle has a part on the stack of the outer search and a part on the stack of the inner one; `goal`
is an accepting state on it. -/
structure Lasso (σ : Type) where
  tail : List σ
  outer : List σ
  inner : List σ
  goal : σ
deriving DecidableEq, Repr

namespace Lasso

variable {σ : Type}

def cycle (l : Lasso σ) : List σ := l.outer ++ l.inner

def path (l : Lasso σ) : List σ := l.tail ++ l.outer ++ l.inner

def cycleStart (l : Lasso σ) : Nat := l.tail.length

def map {τ : Type} (f : σ → τ) (l : Lasso σ) : Lasso τ :=
  ⟨l.tail.map f, l.outer.map f, l.inner.map f, f l.goal⟩

def describe (show1 : σ → String) (l : Lasso σ) : String :=
  let many (xs : List σ) := "[" ++ ", ".intercalate (xs.map show1) ++ "]"
  "Lasso \x7b tail: " ++ many l.tail ++ ", outer: " ++ many l.outer ++ ", inner: " ++ many l.inner ++
    ", goal: " ++ show1 l.goal ++ " \x7d"

end Lasso

end ModelChecker
