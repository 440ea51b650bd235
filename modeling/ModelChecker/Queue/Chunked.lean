namespace ModelChecker

/-- The shared part of the queue. -/
structure ChunkedQueue (α : Type) where
  chunkSize : Nat
  chunks : List (List α) := []
  /-- A machine word: it wraps if more is finished than was pushed. -/
  pending : UInt64 := 0
deriving Repr

/-- What one worker holds of the queue. -/
structure QueueBuffer (α : Type) where
  incoming : List α := []
  outgoing : List α := []
  /-- Items finished since `pending` was last lowered by this worker. -/
  finished : Nat := 0
deriving Repr, Inhabited

/-- A worker's access to the queue: the shared part and its own buffer. -/
structure QueueView (α : Type) where
  queue : ChunkedQueue α
  buffer : QueueBuffer α
deriving Repr

def ChunkedQueue.defaultChunk : Nat := 64

/-- An empty queue. A chunk holds at least one item. -/
def ChunkedQueue.ofChunkSize (α : Type) (size : Nat) : ChunkedQueue α :=
  { chunkSize := max size 1 }

namespace QueueView

variable {α : Type}

/-- Publishes the outgoing buffer as a chunk, unless it is empty. -/
def publish (v : QueueView α) : QueueView α :=
  if v.buffer.outgoing.isEmpty then v
  else
    { queue := { v.queue with chunks := v.queue.chunks ++ [v.buffer.outgoing] }
      buffer := { v.buffer with outgoing := [] } }

def settle (v : QueueView α) : QueueView α :=
  { queue := { v.queue with pending := v.queue.pending - .ofNat v.buffer.finished }
    buffer := { v.buffer with finished := 0 } }

def flush (v : QueueView α) : QueueView α :=
  v.publish.settle

def push (v : QueueView α) (a : α) : QueueView α :=
  let v : QueueView α :=
    { queue := { v.queue with pending := v.queue.pending + 1 }
      buffer := { v.buffer with outgoing := v.buffer.outgoing ++ [a] } }
  if v.queue.chunkSize ≤ v.buffer.outgoing.length then v.publish else v

/-- Takes the next incoming item. When there is none, the outgoing buffer is published first and
the oldest chunk becomes the incoming buffer. -/
def pop (v : QueueView α) : Option α × QueueView α :=
  match v.buffer.incoming with
  | a :: rest => (some a, { v with buffer := { v.buffer with incoming := rest } })
  | [] =>
    let v := v.publish
    match v.queue.chunks with
    | [] => (none, v)
    | chunk :: chunks =>
      (chunk.head?,
        { queue := { v.queue with chunks }
          buffer := { v.buffer with incoming := chunk.tail } })

def markDone (v : QueueView α) : QueueView α :=
  let v := { v with buffer := { v.buffer with finished := v.buffer.finished + 1 } }
  if v.queue.chunkSize ≤ v.buffer.finished then v.settle else v

/-- Whether no item is left anywhere, after a flush of the worker's own buffer. -/
def isFinished (v : QueueView α) : Bool × QueueView α :=
  let v := v.flush
  (v.buffer.incoming.isEmpty && v.queue.pending == 0, v)

/-- Whether this worker sees no item, in its buffer or in the shared part. -/
def isEmpty (v : QueueView α) : Bool :=
  v.buffer.incoming.isEmpty && v.buffer.outgoing.isEmpty && v.queue.chunks.isEmpty

end QueueView

end ModelChecker
