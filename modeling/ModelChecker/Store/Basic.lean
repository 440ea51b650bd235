import ModelChecker.Store.Shard

namespace ModelChecker

structure Store (σ : Type) where
  shards : Array (Shard σ)
  budget : Budget := {}
  nonempty : 0 < shards.size

namespace Store

variable {σ : Type}

/-- The number of shards of a store that is not divided among workers. -/
def defaultShards : Nat := 64

/-- An empty store. It has one shard if none is asked for. -/
def ofShards (count : Nat) (limit : Option Nat) : Store σ where
  shards := Array.ofFn fun i : Fin (max count 1) => { id := .ofNat i }
  budget := { limit }
  nonempty := by
    rw [Array.size_ofFn]
    exact Nat.lt_of_lt_of_le Nat.zero_lt_one (Nat.le_max_right count 1)

def size (s : Store σ) : Nat := s.budget.used

def isEmpty (s : Store σ) : Bool := s.size == 0

/-- The shard that a fingerprint belongs to, out of `count`. -/
def owner (count : Nat) (fingerprint : UInt64) : Nat := fingerprint.toNat % count

def shardOf (s : Store σ) (fingerprint : UInt64) : Fin s.shards.size :=
  ⟨owner s.shards.size fingerprint, Nat.mod_lt _ s.nonempty⟩

def shard (s : Store σ) : Fin s.shards.size → Shard σ
  | ⟨i, _⟩ => s.shards[i]

def get? (s : Store σ) (h : Handle) : Option (Vertex σ) :=
  s.shards[h.shard.toNat]?.bind (·.get? h)

def find? (s : Store σ) (same : σ → σ → Bool) (fingerprint : UInt64) (state : σ) :
    Option (Vertex σ) :=
  (s.shard (s.shardOf fingerprint)).find? same fingerprint state

/-- Finds or stores a state in a given shard, and gives the store as it is then, also if it was full. -/
def adoptAt (s : Store σ) (i : Fin s.shards.size) (same : σ → σ → Bool) (fingerprint : UInt64)
    (state : σ) : Except Exhausted (Vertex σ × Bool) × Store σ :=
  match (s.shard i).propose s.budget same fingerprint state with
  | (.error e, budget) => (.error e, { s with budget })
  | (.ok (v, false), budget) => (.ok (v, false), { s with budget })
  | (.ok (v, true), budget) =>
    (.ok (v, true),
      { shards := s.shards.modify i (·.append v)
        budget
        nonempty := by rw [Array.size_modify]; exact s.nonempty })

/-- Finds or stores a state in the shard that its fingerprint belongs to. -/
def adopt (s : Store σ) (same : σ → σ → Bool) (fingerprint : UInt64) (state : σ) :
    Except Exhausted (Vertex σ × Bool) × Store σ :=
  s.adoptAt (s.shardOf fingerprint) same fingerprint state

def insertAt (s : Store σ) (i : Fin s.shards.size) (same : σ → σ → Bool) (fingerprint : UInt64)
    (state : σ) : Except Exhausted (Insertion σ (Store σ)) :=
  match s.adoptAt i same fingerprint state with
  | (.error e, _) => .error e
  | (.ok (v, isNew), after) => .ok ⟨v, isNew, after⟩

/-- Finds or stores a state in the shard that its fingerprint belongs to. -/
def insert (s : Store σ) (same : σ → σ → Bool) (fingerprint : UInt64) (state : σ) :
    Except Exhausted (Insertion σ (Store σ)) :=
  s.insertAt (s.shardOf fingerprint) same fingerprint state

/-- All vertices, by shard and then by slot. -/
def vertices (s : Store σ) : List (Vertex σ) :=
  s.shards.toList.flatMap (·.vertices.toList)

def collisions (s : Store σ) : Nat :=
  s.shards.foldl (fun n shard => n + shard.collisions) 0

end Store

end ModelChecker
