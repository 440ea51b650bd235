import ModelChecker.Graph.Basic

namespace ModelChecker

/-- What a search knows of the system it explores. States are generated on demand, and the store
tells them apart only by `fingerprint` and `same`. -/
structure System (σ : Type) where
  initials : List σ
  successors : σ → List (Successor σ)
  fingerprint : σ → UInt64
  /-- Whether two states count as one. States that do must have one fingerprint. -/
  same : σ → σ → Bool
  /-- A reduced selection of the successors, or `none` where every successor has to be taken. -/
  ample : σ → Option (List (Successor σ))
  accepting : σ → Bool
  goal : σ → Bool
  /-- A bound on the number of states that can be met. -/
  extent : Nat
  /-- A bound on the number of successors of a state, and on the size of an ample set. -/
  degree : Nat

end ModelChecker
