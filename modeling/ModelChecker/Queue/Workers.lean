import ModelChecker.Queue.Chunked

namespace ModelChecker

structure WorkQueue (α : Type) where
  queue : ChunkedQueue α
  buffers : Array (QueueBuffer α)
deriving Repr

inductive QueueCall (α : Type) where
  | push (a : α)
  | pop
  | markDone
  | flush
  | isFinished
  | isEmpty
deriving DecidableEq, Repr

inductive QueueAnswer (α : Type) where
  | nothing
  | item (a : Option α)
  | verdict (b : Bool)
deriving DecidableEq, Repr

namespace WorkQueue

variable {α : Type}

def ofChunkSize (size workers : Nat) : WorkQueue α :=
  ⟨.ofChunkSize α size, .replicate workers {}⟩

/-- The effect of a call on what one worker sees. -/
def answer (v : QueueView α) : QueueCall α → QueueAnswer α × QueueView α
  | .push a => (.nothing, v.push a)
  | .pop => let (a, v) := v.pop; (.item a, v)
  | .markDone => (.nothing, v.markDone)
  | .flush => (.nothing, v.flush)
  | .isFinished => let (b, v) := v.isFinished; (.verdict b, v)
  | .isEmpty => (.verdict v.isEmpty, v)

/-- A call of one worker; there is no answer for one that does not exist. -/
def call (q : WorkQueue α) (worker : Nat) (c : QueueCall α) :
    Option (QueueAnswer α × WorkQueue α) :=
  q.buffers[worker]?.map fun buffer =>
    let (a, v) := answer ⟨q.queue, buffer⟩ c
    (a, ⟨v.queue, q.buffers.setIfInBounds worker v.buffer⟩)

end WorkQueue

end ModelChecker
