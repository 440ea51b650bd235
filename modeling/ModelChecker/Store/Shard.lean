import ModelChecker.Store.Handle
import Std.Data.TreeMap

namespace ModelChecker

/-- A stored state. -/
structure Vertex (σ : Type) where
  handle : Handle
  fingerprint : UInt64
  state : σ
deriving Repr

/-- The store was full when it held this many states. -/
structure Exhausted where
  states : Nat
deriving DecidableEq, Repr

def Exhausted.message (e : Exhausted) : String :=
  s!"state store exhausted after {e.states} states"

structure Budget where
  used : Nat := 0
  limit : Option Nat := none
deriving DecidableEq, Repr

namespace Budget

def release (b : Budget) : Budget := { b with used := b.used - 1 }

/-- Charges one state. If the limit was reached before, the charge is taken back, and no other worker
sees it in between: then it could be told of more states than the limit. -/
def acquire (b : Budget) : Except Exhausted Unit × Budget :=
  let charged := { b with used := b.used + 1 }
  if b.limit.any (· ≤ b.used) then (.error ⟨b.used⟩, charged.release) else (.ok (), charged)

end Budget

/-- The slots of the vertices with one fingerprint, oldest first. -/
inductive Bucket where
  | one (slot : UInt32)
  | many (slots : Array UInt32)
deriving Repr

namespace Bucket

def slots : Bucket → List UInt32
  | one slot => [slot]
  | many slots => slots.toList

def push : Bucket → UInt32 → Bucket
  | one first, slot => many #[first, slot]
  | many slots, slot => many (slots.push slot)

end Bucket

structure Shard (σ : Type) where
  id : UInt32
  vertices : Array (Vertex σ) := #[]
  index : Std.TreeMap UInt64 Bucket := ∅
  collisions : Nat := 0

/-- The vertex that a state is stored as, whether it was stored just now, and what holds it. -/
structure Insertion (σ : Type) (α : Type) where
  vertex : Vertex σ
  isNew : Bool
  after : α

namespace Shard

variable {σ : Type}

def get? (s : Shard σ) (h : Handle) : Option (Vertex σ) :=
  if h.shard = s.id then s.vertices[h.slot.toNat]? else none

def slots (s : Shard σ) (fingerprint : UInt64) : List UInt32 :=
  s.index[fingerprint]?.elim [] Bucket.slots

/-- The oldest vertex with this fingerprint whose state is the same as `state`. -/
def find? (s : Shard σ) (same : σ → σ → Bool) (fingerprint : UInt64) (state : σ) :
    Option (Vertex σ) :=
  (s.slots fingerprint).findSome? fun slot =>
    s.vertices[slot.toNat]?.filter fun v => same v.state state

/-- Appends a vertex. A fingerprint that is in use already counts as a collision. -/
def append (s : Shard σ) (v : Vertex σ) : Shard σ :=
  let bucket := s.index[v.fingerprint]?
  { s with
    vertices := s.vertices.push v
    index := s.index.insert v.fingerprint (bucket.elim (.one v.handle.slot) (·.push v.handle.slot))
    collisions := if bucket.isSome then s.collisions + 1 else s.collisions }

/-- Finds the vertex of a state, or makes a new one that has yet to be appended, if the budget and
the slots allow it. -/
def propose (s : Shard σ) (budget : Budget) (same : σ → σ → Bool) (fingerprint : UInt64)
    (state : σ) : Except Exhausted (Vertex σ × Bool) × Budget :=
  match s.find? same fingerprint state with
  | some v => (.ok (v, false), budget)
  | none =>
    match budget.acquire with
    | (.error e, budget) => (.error e, budget)
    | (.ok (), budget) =>
      if s.vertices.size < UInt32.size then
        (.ok (⟨⟨s.id, .ofNat s.vertices.size⟩, fingerprint, state⟩, true), budget)
      else (.error ⟨budget.used⟩, budget.release)

/-- Finds the vertex of a state, or stores the state as a new one. -/
def insert (s : Shard σ) (budget : Budget) (same : σ → σ → Bool) (fingerprint : UInt64)
    (state : σ) : Except Exhausted (Insertion σ (Shard σ × Budget)) :=
  match s.propose budget same fingerprint state with
  | (.error e, _) => .error e
  | (.ok (v, false), budget) => .ok ⟨v, false, s, budget⟩
  | (.ok (v, true), budget) => .ok ⟨v, true, s.append v, budget⟩

end Shard

end ModelChecker
