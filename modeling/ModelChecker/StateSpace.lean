import ModelChecker.Search.Explore

namespace ModelChecker

structure StateSpaceReport where
  stored : Nat
  stats : SearchStats
deriving DecidableEq, Repr

/-- Expands every reachable state. -/
def stateSpace {σ : Type} (sys : System σ) (config : SearchConfig)
    (schedule : Schedule := .inTurn config.workerCount) : Except SearchError StateSpaceReport := do
  let e ← (config.search sys (.exhaustive sys) .initials config.newStore ()
    schedule).mapError .fault
  let _ ← e.finished
  return { stored := e.store.size, stats := e.stats }

end ModelChecker
