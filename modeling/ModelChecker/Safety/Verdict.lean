import ModelChecker.Check.Config
import ModelChecker.Search.Listener
import ModelChecker.Trace.Parent

namespace ModelChecker

inductive ViolationKind where
  | goal
  | errorEdge
  | deadlock
deriving DecidableEq, Repr

/-- Where a safety search stopped. For an error edge `via` is its source. -/
structure Violation (σ : Type) where
  kind : ViolationKind
  vertex : Vertex σ
  via : Option (Vertex σ) := none

/-- The path from a seed to the violating state. -/
def Violation.trace {σ : Type} (x : Violation σ) (store : Store σ) (parentOf : Handle → Parent) :
    Except Fault (List σ) :=
  match x.via with
  | some source => do
    let path ← pathTo store parentOf source
    return path.map (·.state) ++ [x.vertex.state]
  | none => do
    let path ← pathTo store parentOf x.vertex
    return path.map (·.state)

/-- What the workers of a search have found. Each keeps what it found last. -/
structure Findings (σ : Type) where
  byWorker : Std.TreeMap Nat (Violation σ) := ∅

namespace Findings

variable {σ : Type}

def add (r : Findings σ) (worker : Nat) (x : Violation σ) : Findings σ :=
  ⟨r.byWorker.insert worker x⟩

def first? (r : Findings σ) : Option (Violation σ) :=
  r.byWorker.toList.head?.map (·.2)

theorem first?_eq (r : Findings σ) : r.first? = r.byWorker.minKey?.bind (r.byWorker[·]?) := by
  rw [first?, Std.TreeMap.minKey?_eq_head?_keys, ← Std.TreeMap.map_fst_toList_eq_keys,
    List.head?_map]
  cases hl : r.byWorker.toList with
  | nil => rfl
  | cons y rest =>
    have hy : y ∈ r.byWorker.toList := hl ▸ List.mem_cons_self
    exact (Std.TreeMap.mem_toList_iff_getElem?_eq_some.1 hy).symm

theorem first?_add (r : Findings σ) (worker : Nat) (x : Violation σ) :
    (r.add worker x).first? = some x ∨
      (r.add worker x).first? = r.first? ∧ r.first?.isSome = true := by
  rw [first?_eq, first?_eq, add, Std.TreeMap.minKey?_insert]
  cases hmin : r.byWorker.minKey? with
  | none => exact .inl Std.TreeMap.getElem?_insert_self
  | some k =>
    simp only [Option.elim_some, Option.bind_some]
    split
    · exact .inl Std.TreeMap.getElem?_insert_self
    · rename_i hk
      have hne : compare worker k ≠ .eq := fun h => hk (by rw [h]; rfl)
      rw [Std.TreeMap.getElem?_insert, if_neg hne]
      refine .inr ⟨rfl, ?_⟩
      rw [Std.TreeMap.isSome_getElem?_eq_contains]
      exact Std.TreeMap.contains_minKey? hmin

end Findings

/-- A violation and a path to it. -/
structure Witness (σ : Type) where
  kind : ViolationKind
  trace : List σ
deriving DecidableEq, Repr

inductive Verdict (σ : Type) where
  | holds
  | violated (w : Witness σ)
  /-- Some state lies beyond the bound on context switches. -/
  | boundExhausted
  | noStates
deriving DecidableEq, Repr

structure SafetyReport (σ : Type) where
  verdict : Verdict σ
  stats : SearchStats
  stored : Nat
deriving DecidableEq, Repr

/-- The violation that an edge shows, if any: its own error, or else a goal state at its end. A
seed is reached by no edge. -/
def violationOf {σ : Type} (sys : System σ) (property : Property) (target : σ) (flags : EdgeFlags)
    (hasSource : Bool) : Option ViolationKind :=
  if property ≠ .goal then none
  else if hasSource && flags.error then some .errorEdge
  else if sys.goal target then some .goal
  else none

end ModelChecker
