import ModelChecker.Search.Fault
import ModelChecker.Store.Basic

namespace ModelChecker

inductive Parent where
  | unset
  /-- The vertex was reached as a seed. -/
  | root
  | vertex (h : Handle)
deriving DecidableEq, Repr, Inhabited

namespace Parent

/-- The pointer to a handle. It is kept as one word, and the two largest words stand for no
parent. -/
def ofHandle (h : Handle) : Parent :=
  if h = ⟨0xffffffff, 0xffffffff⟩ then .unset
  else if h = ⟨0xffffffff, 0xfffffffe⟩ then .root
  else .vertex h

def normal : Parent → Parent
  | .vertex h => ofHandle h
  | p => p

def fill (current offered : Parent) : Bool × Parent :=
  if current = .unset then (true, offered.normal) else (false, current)

end Parent

structure Parents where
  slots : Std.TreeMap Handle Parent := ∅

namespace Parents

def get (p : Parents) (h : Handle) : Parent := p.slots.getD h .unset

/-- Offers a parent to a vertex. The first one stays. -/
def offer (p : Parents) (h : Handle) (parent : Parent) : Bool × Parents :=
  let (taken, kept) := (p.get h).fill parent
  (taken, ⟨p.slots.insert h kept⟩)

/-- Gives a vertex a parent in place of the one it has. -/
def set (p : Parents) (h : Handle) (parent : Parent) : Parents :=
  ⟨p.slots.insert h parent.normal⟩

end Parents

/-- Follows parents from the first vertex of `path` and puts them in front of it. A path longer
than the store is on a cycle; the number of steps is bounded by the size of the store. -/
def climb {σ : Type} (store : Store σ) (parentOf : Handle → Parent) :
    Nat → Vertex σ → List (Vertex σ) → Except Fault (List (Vertex σ))
  | steps, v, path =>
    match parentOf v.handle with
    | .unset | .root => .ok (v :: path)
    | .vertex h =>
      match store.get? h with
      | none => .error (.missingParent h)
      | some p =>
        match steps with
        | 0 => .error .parentCycle
        | n + 1 => climb store parentOf n p (v :: path)

def pathTo {σ : Type} (store : Store σ) (parentOf : Handle → Parent) (last : Vertex σ) :
    Except Fault (List (Vertex σ)) :=
  climb store parentOf (store.size - 1) last []

end ModelChecker
