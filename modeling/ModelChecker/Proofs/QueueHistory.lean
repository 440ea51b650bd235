import Mathlib.Algebra.BigOperators.Group.Finset.Piecewise
import Mathlib.Algebra.GroupWithZero.Nat
import Mathlib.Algebra.Order.BigOperators.Group.Finset
import ModelChecker.Queue.Workers
import ModelChecker.Proofs.ChunkedQueue

namespace ModelChecker

variable {α β : Type}

section map
variable (f : α → β)

def QueueCall.map : QueueCall α → QueueCall β
  | .push a => .push (f a)
  | .pop => .pop
  | .markDone => .markDone
  | .flush => .flush
  | .isFinished => .isFinished
  | .isEmpty => .isEmpty

def QueueAnswer.map : QueueAnswer α → QueueAnswer β
  | .nothing => .nothing
  | .item a => .item (a.map f)
  | .verdict b => .verdict b

def ChunkedQueue.map (q : ChunkedQueue α) : ChunkedQueue β :=
  ⟨q.chunkSize, q.chunks.map (·.map f), q.pending⟩

def QueueBuffer.map (b : QueueBuffer α) : QueueBuffer β :=
  ⟨b.incoming.map f, b.outgoing.map f, b.finished⟩

def QueueView.map (v : QueueView α) : QueueView β :=
  ⟨v.queue.map f, v.buffer.map f⟩

def WorkQueue.map (q : WorkQueue α) : WorkQueue β :=
  ⟨q.queue.map f, q.buffers.map (·.map f)⟩

end map

namespace QueueView

variable (f : α → β) (v : QueueView α)

theorem map_publish : (v.map f).publish = v.publish.map f := by
  unfold publish
  have h : (v.map f).buffer.outgoing.isEmpty = v.buffer.outgoing.isEmpty := by
    simp [QueueView.map, QueueBuffer.map]
  rw [h]
  split
  · rfl
  · simp [QueueView.map, QueueBuffer.map, ChunkedQueue.map]

theorem map_push (a : α) : (v.map f).push (f a) = (v.push a).map f := by
  have h : QueueView.mk { (v.map f).queue with pending := (v.map f).queue.pending + 1 }
      { (v.map f).buffer with outgoing := (v.map f).buffer.outgoing ++ [f a] } =
      QueueView.map f ⟨{ v.queue with pending := v.queue.pending + 1 },
        { v.buffer with outgoing := v.buffer.outgoing ++ [a] }⟩ := by
    simp [QueueView.map, QueueBuffer.map, ChunkedQueue.map]
  have hlen : (v.buffer.outgoing ++ [a]).length = (v.buffer.outgoing.map f ++ [f a]).length := by
    simp
  simp only [push, h, map_publish, apply_ite (QueueView.map f), hlen]
  simp [QueueView.map, QueueBuffer.map, ChunkedQueue.map]

theorem map_pop : (v.map f).pop = (v.pop.1.map f, v.pop.2.map f) := by
  have hin : (v.map f).buffer.incoming = v.buffer.incoming.map f := rfl
  simp only [pop, hin, map_publish]
  cases v.buffer.incoming with
  | cons a rest => rfl
  | nil =>
    have hc : (v.publish.map f).queue.chunks = v.publish.queue.chunks.map (·.map f) := rfl
    simp only [List.map_nil, hc]
    cases v.publish.queue.chunks with
    | nil => rfl
    | cons chunk chunks =>
      simp [QueueView.map, QueueBuffer.map, ChunkedQueue.map, List.head?_map, List.map_tail]

theorem map_flush : (v.map f).flush = v.flush.map f := by
  unfold flush
  rw [map_publish]
  rfl

theorem map_markDone : (v.map f).markDone = v.markDone.map f := by
  unfold markDone
  simp only [apply_ite (QueueView.map f)]
  rfl

end QueueView

/-- A call that a worker made, and its answer. -/
structure QueueEntry (α : Type) where
  worker : Nat
  call : QueueCall α
  answer : QueueAnswer α

namespace WorkQueue

theorem answer_map (f : α → β) (v : QueueView α) (c : QueueCall α) :
    answer (v.map f) (c.map f) = ((answer v c).1.map f, (answer v c).2.map f) := by
  cases c with
  | push a => simp only [answer, QueueCall.map, QueueView.map_push, QueueAnswer.map]
  | pop => simp only [answer, QueueCall.map, QueueView.map_pop, QueueAnswer.map]
  | markDone => simp only [answer, QueueCall.map, QueueView.map_markDone, QueueAnswer.map]
  | flush => simp only [answer, QueueCall.map, QueueView.map_flush, QueueAnswer.map]
  | isFinished =>
    simp only [answer, QueueCall.map, QueueView.isFinished, QueueView.map_flush, QueueAnswer.map]
    simp [QueueView.map, QueueBuffer.map, ChunkedQueue.map]
  | isEmpty =>
    simp [answer, QueueCall.map, QueueView.isEmpty, QueueAnswer.map, QueueView.map,
      QueueBuffer.map, ChunkedQueue.map]

/-- What a worker holds. One that does not exist holds nothing. -/
def buffer (q : WorkQueue α) (i : Nat) : QueueBuffer α := q.buffers.getD i {}

def view (q : WorkQueue α) (i : Nat) : QueueView α := ⟨q.queue, q.buffer i⟩

/-- The queue after a worker has changed what it sees. -/
def replace (q : WorkQueue α) (i : Nat) (v : QueueView α) : WorkQueue α :=
  ⟨v.queue, q.buffers.setIfInBounds i v.buffer⟩

def entry (q : WorkQueue α) (i : Nat) (c : QueueCall α) : QueueEntry α :=
  ⟨i, c, (answer (q.view i) c).1⟩

@[simp] theorem entry_worker (q : WorkQueue α) (i : Nat) (c : QueueCall α) :
    (q.entry i c).worker = i := rfl

@[simp] theorem entry_call (q : WorkQueue α) (i : Nat) (c : QueueCall α) :
    (q.entry i c).call = c := rfl

/-- The queue after a call. -/
def after (q : WorkQueue α) (i : Nat) (c : QueueCall α) : WorkQueue α :=
  q.replace i (answer (q.view i) c).2

variable {q : WorkQueue α} {i : Nat}

theorem call_eq (h : i < q.buffers.size) (c : QueueCall α) :
    q.call i c = some ((q.entry i c).answer, q.after i c) := by
  have hb : q.buffers[i]? = some (q.buffer i) := by simp [buffer, h]
  simp only [call, hb, Option.map_some]
  rfl

theorem lt_of_call {c : QueueCall α} {r : QueueAnswer α × WorkQueue α} (h : q.call i c = some r) :
    i < q.buffers.size := by
  obtain ⟨b, hb, -⟩ := Option.map_eq_some_iff.1 h
  exact (Array.getElem?_eq_some_iff.1 hb).1

theorem buffer_replace (h : i < q.buffers.size) (v : QueueView α) (j : Nat) :
    (q.replace i v).buffer j = if j = i then v.buffer else q.buffer j := by
  by_cases hj : j = i
  · subst hj
    simp [buffer, replace, h]
  · simp [buffer, replace, Array.getElem?_setIfInBounds_ne (Ne.symm hj), hj]

theorem size_replace (v : QueueView α) : (q.replace i v).buffers.size = q.buffers.size :=
  Array.size_setIfInBounds

/-- The items that nobody has taken: those in chunks and those in the buffers of the workers. -/
def sitting (q : WorkQueue α) : List α :=
  q.queue.chunks.flatten ++ q.buffers.toList.flatMap fun b => b.incoming ++ b.outgoing

/-- The marks that were made but not yet taken off the pending count. -/
def unflushed (q : WorkQueue α) : Nat := (q.buffers.toList.map (·.finished)).sum

theorem exists_rest (h : i < q.buffers.size) : ∃ (rest : List α) (m : Nat), ∀ v : QueueView α,
    (q.replace i v).sitting.Perm (v.contents ++ rest) ∧
      (q.replace i v).unflushed = v.buffer.finished + m := by
  refine ⟨(q.buffers.toList.eraseIdx i).flatMap fun b => b.incoming ++ b.outgoing,
    ((q.buffers.toList.eraseIdx i).map (·.finished)).sum, fun v => ⟨?_, ?_⟩⟩
  · have hp := (List.set_perm_cons_eraseIdx (l := q.buffers.toList) h v.buffer).flatMap_right
      fun b => b.incoming ++ b.outgoing
    rw [sitting, replace, Array.toList_setIfInBounds, QueueView.contents]
    refine (hp.append_left _).trans ?_
    rw [List.flatMap_cons, ← List.append_assoc, ← List.append_assoc]
    exact (List.perm_append_comm.append_right _).append_right _
  · have hp := (List.set_perm_cons_eraseIdx (l := q.buffers.toList) h v.buffer).map (·.finished)
    rw [unflushed, replace, Array.toList_setIfInBounds, hp.sum_eq, List.map_cons, List.sum_cons]

theorem replace_self (h : i < q.buffers.size) : q.replace i (q.view i) = q := by
  have hb : q.buffers.setIfInBounds i (q.buffer i) = q.buffers := by
    apply Array.ext_getElem?
    intro k
    by_cases hk : i = k
    · subst hk
      simp [buffer, h]
    · rw [Array.getElem?_setIfInBounds_ne hk]
  rw [replace, view, hb]

theorem call_map (f : α → β) (q : WorkQueue α) (i : Nat) (c : QueueCall α) :
    (q.map f).call i (c.map f) = (q.call i c).map fun r => (r.1.map f, r.2.map f) := by
  by_cases h : i < q.buffers.size
  · have h' : i < (q.map f).buffers.size := by simpa [WorkQueue.map] using h
    have hv : (q.map f).view i = (q.view i).map f := by
      simp [view, buffer, WorkQueue.map, QueueView.map, h]
    rw [call_eq h, call_eq h', entry, entry, after, after, hv, answer_map, Option.map_some]
    simp [replace, WorkQueue.map, QueueView.map, Array.map_setIfInBounds]
  · simp [call, WorkQueue.map, Nat.not_lt.1 h]

end WorkQueue

namespace QueueCall

def pushed : QueueCall α → List α
  | .push a => [a]
  | _ => []

def marks : QueueCall α → Nat
  | .markDone => 1
  | _ => 0

end QueueCall

def QueueAnswer.popped : QueueAnswer α → List α
  | .item (some a) => [a]
  | _ => []

/-- The calls on a queue, the earliest first. -/
abbrev QueueLog (α : Type) := List (QueueEntry α)

namespace QueueLog

def pushed (log : QueueLog α) : List α := log.flatMap (·.call.pushed)

def popped (log : QueueLog α) : List α := log.flatMap (·.answer.popped)

/-- The number of items that were marked as finished. -/
def marks (log : QueueLog α) : Nat := (log.map (·.call.marks)).sum

/-- The calls of one worker. -/
def ofWorker (log : QueueLog α) (i : Nat) : QueueLog α := log.filter (·.worker == i)

section append
variable (log : QueueLog α) (e : QueueEntry α) (i : Nat)

@[simp] theorem pushed_append : pushed (log ++ [e]) = log.pushed ++ e.call.pushed := by
  simp [pushed]

@[simp] theorem popped_append : popped (log ++ [e]) = log.popped ++ e.answer.popped := by
  simp [popped]

@[simp] theorem marks_append : marks (log ++ [e]) = log.marks + e.call.marks := by
  simp [marks]

theorem ofWorker_append :
    ofWorker (log ++ [e]) i = log.ofWorker i ++ if e.worker = i then [e] else [] := by
  by_cases h : e.worker = i <;> simp [ofWorker, h]

end append

theorem sum_ofWorker {log : QueueLog α} {n : Nat} (h : ∀ e ∈ log, e.worker < n)
    (f : QueueEntry α → Nat) :
    ∑ j ∈ Finset.range n, ((log.ofWorker j).map f).sum = (log.map f).sum := by
  induction log with
  | nil => simp [ofWorker]
  | cons e rest ih =>
    obtain ⟨he, hrest⟩ := List.forall_mem_cons.1 h
    have hcons : ∀ j, ((ofWorker (e :: rest) j).map f).sum =
        (if e.worker = j then f e else 0) + ((ofWorker rest j).map f).sum := by
      intro j
      by_cases hj : e.worker = j <;> simp [ofWorker, hj]
    simp only [hcons, Finset.sum_add_distrib, ih hrest, List.map_cons, List.sum_cons]
    simp [he]

theorem marks_eq_of_le {log : QueueLog α} {n : Nat} (hn : ∀ e ∈ log, e.worker < n)
    (hle : ∀ j, (log.ofWorker j).marks ≤ (log.ofWorker j).popped.length)
    (h : log.popped.length ≤ log.marks) (j : Nat) :
    (log.ofWorker j).marks = (log.ofWorker j).popped.length := by
  have hpopped := sum_ofWorker hn fun e => e.answer.popped.length
  have hmarks := sum_ofWorker hn fun e => e.call.marks
  simp only [popped, List.length_flatMap, marks] at hle h ⊢
  by_cases hj : j < n
  · have hsum := Finset.sum_le_sum fun k (_ : k ∈ Finset.range n) => hle k
    have heq := (Finset.sum_eq_sum_iff_of_le fun k (_ : k ∈ Finset.range n) => hle k).1
      (by omega)
    exact heq j (Finset.mem_range.2 hj)
  · have hnil : log.ofWorker j = [] := by
      apply List.filter_eq_nil_iff.2
      intro e he
      have hlt := hn e he
      simp only [beq_iff_eq]
      omega
    simp [hnil]

end QueueLog

namespace QueueView

/-- Between two views of a worker the items of `new` went in and those of `out` came out. On the way
they pass from the outgoing buffer to the chunks and from the chunks to the incoming buffer. -/
def Flow (new out : List α) (v v' : QueueView α) : Prop :=
  ∃ published taken,
    v.buffer.outgoing ++ new = published ++ v'.buffer.outgoing ∧
    v.queue.chunks.flatten ++ published = taken ++ v'.queue.chunks.flatten ∧
    v.buffer.incoming ++ taken = out ++ v'.buffer.incoming

variable {v v' : QueueView α}

theorem Flow.contents {new out : List α} (h : Flow new out v v') :
    v.contents ++ new = out ++ v'.contents := by
  obtain ⟨published, taken, hout, hchunks, hin⟩ := h
  calc v.contents ++ new
      = v.buffer.incoming ++ (v.queue.chunks.flatten ++ (v.buffer.outgoing ++ new)) := by
        simp [QueueView.contents]
    _ = v.buffer.incoming ++ taken ++ v'.queue.chunks.flatten ++ v'.buffer.outgoing := by
        rw [hout, ← List.append_assoc v.queue.chunks.flatten, hchunks]
        simp
    _ = out ++ v'.contents := by simp [hin, QueueView.contents]

theorem flow_publish (v : QueueView α) : Flow [] [] v v.publish := by
  refine ⟨v.buffer.outgoing, [], ?_, ?_, ?_⟩
  · rw [outgoing_publish]
  · unfold publish
    split
    · rename_i h
      simp [List.isEmpty_iff.1 h]
    · simp
  · rw [incoming_publish]
    simp

theorem flow_push (v : QueueView α) (a : α) : Flow [a] [] v (v.push a) := by
  simp only [push]
  split
  · refine ⟨v.buffer.outgoing ++ [a], [], ?_, ?_, ?_⟩
    · rw [outgoing_publish, List.append_nil]
    · simp [publish]
    · rw [incoming_publish]
      simp
  · exact ⟨[], [], by simp, by simp, by simp⟩

theorem flow_pop (v : QueueView α) : Flow [] v.pop.1.toList v v.pop.2 := by
  unfold pop
  split
  · rename_i a rest ha
    exact ⟨[], [], by simp, by simp, by simp [ha]⟩
  · rename_i hin
    obtain ⟨published, taken, hout, hchunks, hin'⟩ := flow_publish v
    -- nothing was taken yet, as the incoming buffer is empty
    simp only [hin, incoming_publish, List.nil_append] at hin'
    subst hin'
    dsimp only
    split
    · rename_i hnil
      exact ⟨published, [], hout, hchunks, by simp [hin, incoming_publish]⟩
    · rename_i chunk chunks hcons
      refine ⟨published, chunk, hout, ?_, ?_⟩
      · rw [hchunks, hcons]
        simp
      · cases chunk <;> simp [hin]

theorem flow_flush (v : QueueView α) : Flow [] [] v v.flush := v.flow_publish

theorem flow_markDone (v : QueueView α) : Flow [] [] v v.markDone := by
  simp only [markDone]
  split <;> exact ⟨[], [], by simp [settle], by simp [settle], by simp [settle]⟩

end QueueView

namespace WorkQueue

theorem answer_flow (v : QueueView α) (c : QueueCall α) :
    QueueView.Flow c.pushed (answer v c).1.popped v (answer v c).2 := by
  cases c with
  | push a => exact v.flow_push a
  | pop =>
    have h : (QueueAnswer.item v.pop.1).popped = v.pop.1.toList := by cases v.pop.1 <;> rfl
    simp only [answer, h]
    exact v.flow_pop
  | markDone => exact v.flow_markDone
  | flush => exact v.flow_flush
  | isFinished => exact v.flow_flush
  | isEmpty => exact ⟨[], [], by simp [answer, QueueCall.pushed], by simp [answer],
      by simp [answer, QueueAnswer.popped]⟩

theorem call_flow {q : WorkQueue α} {i : Nat} (hi : i < q.buffers.size) (c : QueueCall α) :
    ∃ published taken,
      (q.buffer i).outgoing ++ c.pushed = published ++ ((q.after i c).buffer i).outgoing ∧
      q.queue.chunks.flatten ++ published = taken ++ (q.after i c).queue.chunks.flatten ∧
      (q.buffer i).incoming ++ taken =
        (q.entry i c).answer.popped ++ ((q.after i c).buffer i).incoming := by
  rw [after, buffer_replace hi, if_pos rfl]
  exact answer_flow (q.view i) c

theorem buffer_after_ne {q : WorkQueue α} {i j : Nat} (hi : i < q.buffers.size) (hj : j ≠ i)
    (c : QueueCall α) : (q.after i c).buffer j = q.buffer j := by
  rw [after, buffer_replace hi, if_neg hj]

theorem answer_owed (v : QueueView α) (c : QueueCall α) :
    (answer v c).2.owed = v.owed + .ofNat c.pushed.length - .ofNat c.marks := by
  cases c with
  | push a => simp [answer, QueueCall.pushed, QueueCall.marks]
  | pop => simp [answer, QueueCall.pushed, QueueCall.marks, QueueView.owed_pop]
  | markDone => simp [answer, QueueCall.pushed, QueueCall.marks]
  | flush => simp [answer, QueueCall.pushed, QueueCall.marks]
  | isFinished => simp [answer, QueueCall.pushed, QueueCall.marks, QueueView.isFinished]
  | isEmpty => simp [answer, QueueCall.pushed, QueueCall.marks]

theorem answer_finished_le (v : QueueView α) (c : QueueCall α) :
    (answer v c).2.buffer.finished ≤ v.buffer.finished + c.marks := by
  cases c with
  | push a => exact (v.finished_push a).le
  | pop => exact v.finished_pop.le
  | markDone => exact v.finished_markDone_le
  | flush => exact Nat.zero_le _
  | isFinished => exact Nat.zero_le _
  | isEmpty => exact Nat.le_refl _

/-- The calls that the workers of a queue have made so far, in any order. No worker marks more items
as finished than it has taken. -/
inductive History (size workers : Nat) : QueueLog α → WorkQueue α → Prop where
  | start : History size workers [] (.ofChunkSize size workers)
  | call {log q i c a q'} (h : History size workers log q) (hc : q.call i c = some (a, q'))
    (hd : c = .markDone → (log.ofWorker i).marks < (log.ofWorker i).popped.length) :
    History size workers (log ++ [⟨i, c, a⟩]) q'

/-- What the log of a queue tells of it. -/
structure Counted (workers : Nat) (log : QueueLog α) (q : WorkQueue α) : Prop where
  size : q.buffers.size = workers
  worker : ∀ e ∈ log, e.worker < workers
  perm : (log.popped ++ q.sitting).Perm log.pushed
  pending : q.queue.pending - .ofNat q.unflushed = .ofNat log.pushed.length - .ofNat log.marks
  unflushed_le : q.unflushed ≤ log.marks
  marks_le : ∀ j, (log.ofWorker j).marks ≤ (log.ofWorker j).popped.length

theorem counted_start (size workers : Nat) :
    Counted workers [] (ofChunkSize size workers : WorkQueue α) where
  size := Array.size_replicate
  worker := by simp
  perm := by simp [QueueLog.popped, QueueLog.pushed, sitting, ofChunkSize, ChunkedQueue.ofChunkSize]
  pending := by
    simp [QueueLog.pushed, QueueLog.marks, unflushed, ofChunkSize, ChunkedQueue.ofChunkSize]
  unflushed_le := by simp [unflushed, ofChunkSize]
  marks_le := by simp [QueueLog.ofWorker, QueueLog.marks]

variable {workers i : Nat} {log : QueueLog α} {q : WorkQueue α}

open scoped List in
theorem Counted.call (h : Counted workers log q) (hi : i < workers) (c : QueueCall α)
    (hd : c = .markDone → (log.ofWorker i).marks < (log.ofWorker i).popped.length) :
    Counted workers (log ++ [q.entry i c]) (q.after i c) := by
  have hi' : i < q.buffers.size := h.size ▸ hi
  obtain ⟨rest, m, hrest⟩ := exists_rest hi'
  obtain ⟨hsit, hun⟩ := hrest (q.view i)
  obtain ⟨hsit', hun'⟩ := hrest (answer (q.view i) c).2
  rw [replace_self hi'] at hsit hun
  refine ⟨(size_replace _).trans h.size, ?_, ?_, ?_, ?_, ?_⟩
  · intro e he
    rcases List.mem_append.1 he with he | he
    · exact h.worker e he
    · rw [List.mem_singleton.1 he]
      exact hi
  · -- what the worker saw and what it pushed is what it took and what it sees now
    have hflow := (answer_flow (q.view i) c).contents
    simp only [QueueLog.popped_append, QueueLog.pushed_append]
    calc log.popped ++ (q.entry i c).answer.popped ++ (q.after i c).sitting
        ~ log.popped ++ ((q.entry i c).answer.popped ++
            ((answer (q.view i) c).2.contents ++ rest)) := by
          rw [List.append_assoc]
          exact (hsit'.append_left _).append_left _
      _ = log.popped ++ ((q.view i).contents ++ c.pushed ++ rest) := by
          rw [entry, ← List.append_assoc _ _ rest, ← hflow]
      _ ~ log.popped ++ ((q.view i).contents ++ rest ++ c.pushed) := by
          have hswap : c.pushed ++ rest ~ rest ++ c.pushed := List.perm_append_comm
          apply List.Perm.append_left
          simpa using hswap.append_left _
      _ ~ log.popped ++ (q.sitting ++ c.pushed) := (hsit.symm.append_right _).append_left _
      _ ~ log.pushed ++ c.pushed := by
          rw [← List.append_assoc]
          exact h.perm.append_right _
  · have hword : ∀ p p' f f' r n k a b : UInt64, p' - f' = p - f + n - k → p - (f + r) = a - b →
        p' - (f' + r) = a + n - (b + k) := by
      intro p p' f f' r n k a b
      grind
    have hpending := h.pending
    rw [hun, UInt64.ofNat_add] at hpending
    rw [QueueLog.pushed_append, QueueLog.marks_append, List.length_append, after, hun',
      UInt64.ofNat_add, UInt64.ofNat_add, UInt64.ofNat_add]
    exact hword _ _ _ _ _ _ _ _ _ (answer_owed (q.view i) c) hpending
  · have hle := answer_finished_le (q.view i) c
    have hlog := h.unflushed_le
    rw [QueueLog.marks_append, after, hun', entry_call]
    omega
  · intro j
    have hj := h.marks_le j
    rw [QueueLog.ofWorker_append, entry_worker]
    by_cases hij : i = j
    · subst hij
      rw [if_pos rfl]
      have hmark : c.marks = 0 ∨ c = .markDone := by cases c <;> simp [QueueCall.marks]
      simp only [QueueLog.marks_append, QueueLog.popped_append, List.length_append, entry_call]
      rcases hmark with hc | rfl
      · omega
      · have hlt := hd rfl
        simp only [QueueCall.marks]
        omega
    · simpa [hij] using hj

theorem History.counted {size : Nat} (h : History size workers log q) : Counted workers log q := by
  induction h with
  | start => exact counted_start size workers
  | call h hc hd ih =>
    have hi := lt_of_call hc
    rw [call_eq hi] at hc
    cases hc
    exact ih.call (ih.size ▸ hi) _ hd

/-- The items that nobody has taken, those that were taken but not marked, and the marks that are
not yet taken off the pending count. -/
def outstanding (q : WorkQueue α) (log : QueueLog α) : Nat :=
  q.sitting.length + (log.popped.length - log.marks + q.unflushed)

theorem Counted.marks_le_popped (h : Counted workers log q) : log.marks ≤ log.popped.length := by
  have hpopped := QueueLog.sum_ofWorker h.worker fun e => e.answer.popped.length
  have hmarks := QueueLog.sum_ofWorker h.worker fun e => e.call.marks
  have hle := h.marks_le
  simp only [QueueLog.popped, List.length_flatMap, QueueLog.marks] at hle ⊢
  have hsum := Finset.sum_le_sum fun k (_ : k ∈ Finset.range workers) => hle k
  omega

theorem Counted.pending_eq (h : Counted workers log q) :
    q.queue.pending = .ofNat (q.outstanding log) := by
  have hmarks := h.marks_le_popped
  have hlength := h.perm.length_eq
  have hpending := h.pending
  have hcount : log.pushed.length + q.unflushed = q.outstanding log + log.marks := by
    simp only [outstanding]
    rw [List.length_append] at hlength
    omega
  have hword := congrArg UInt64.ofNat hcount
  rw [UInt64.ofNat_add, UInt64.ofNat_add] at hword
  grind

end WorkQueue

/-- An item with the worker that pushed it, and the place of that push among all calls. -/
structure Stamped (α : Type) where
  worker : Nat
  number : Nat
  item : α

def QueueEntry.map (f : α → β) (e : QueueEntry α) : QueueEntry β :=
  ⟨e.worker, e.call.map f, e.answer.map f⟩

def QueueCall.stamp (worker number : Nat) (c : QueueCall α) : QueueCall (Stamped α) :=
  c.map (⟨worker, number, ·⟩)

theorem QueueCall.map_stamp (worker number : Nat) (c : QueueCall α) :
    (c.stamp worker number).map Stamped.item = c := by
  cases c <;> rfl

theorem QueueCall.mem_pushed_stamp {worker number : Nat} {c : QueueCall α} {x : Stamped α}
    (h : x ∈ (c.stamp worker number).pushed) : x.worker = worker ∧ x.number = number := by
  cases c with
  | push a =>
    rw [List.mem_singleton.1 h]
    exact ⟨rfl, rfl⟩
  | _ => cases h

namespace QueueLog

section map
variable (f : α → β) (log : QueueLog α)

theorem length_popped_map : (popped (log.map (·.map f))).length = log.popped.length := by
  have h : ∀ a : QueueAnswer α, (a.map f).popped.length = a.popped.length := by
    intro a
    cases a with
    | nothing => rfl
    | verdict b => rfl
    | item a => cases a <;> rfl
  simp [popped, List.length_flatMap, Function.comp_def, QueueEntry.map, h]

theorem marks_map : marks (log.map (·.map f)) = log.marks := by
  have h : ∀ c : QueueCall α, (c.map f).marks = c.marks := by
    intro c
    cases c <;> rfl
  simp [marks, Function.comp_def, QueueEntry.map, h]

theorem ofWorker_map (i : Nat) :
    ofWorker (log.map (·.map f)) i = (log.ofWorker i).map (·.map f) := by
  simp [ofWorker, List.filter_map, Function.comp_def, QueueEntry.map]

end map

end QueueLog

namespace WorkQueue

variable {workers i : Nat} {log : QueueLog (Stamped α)} {q : WorkQueue (Stamped α)}

/-- The items on their way from worker `i` to worker `j`, those that came first in front. -/
def line (log : QueueLog (Stamped α)) (q : WorkQueue (Stamped α)) (i j : Nat) : List (Stamped α) :=
  (log.ofWorker j).popped ++ (q.buffer j).incoming ++ q.queue.chunks.flatten ++ (q.buffer i).outgoing

/-- The items are stamped as they were pushed, and none has overtaken another. -/
structure InLine (log : QueueLog (Stamped α)) (q : WorkQueue (Stamped α)) : Prop where
  stamps : ∀ (k : Nat) e x, log[k]? = some e → e.call = .push x → x.worker = e.worker ∧ x.number = k
  pushed : log.pushed.Pairwise (·.number < ·.number)
  below : ∀ x ∈ log.pushed, x.number < log.length
  outgoing : ∀ i, ∀ x ∈ (q.buffer i).outgoing, x.worker = i
  ordered : ∀ i j, ((line log q i j).filter (·.worker == i)).Pairwise (·.number < ·.number)

theorem mem_sitting {α : Type} {q : WorkQueue α} {i : Nat} {x : α}
    (hx : x ∈ (q.buffer i).incoming ++ (q.buffer i).outgoing) : x ∈ q.sitting := by
  by_cases hi : i < q.buffers.size
  · apply List.mem_append_right
    apply List.mem_flatMap.2
    refine ⟨q.buffer i, ?_, hx⟩
    simp [buffer, hi]
  · simp [buffer, hi] at hx

theorem Counted.mem_pushed (h : Counted workers log q) {i j : Nat} {x : Stamped α}
    (hx : x ∈ line log q i j) : x ∈ log.pushed := by
  apply h.perm.mem_iff.1
  apply List.mem_append.2
  simp only [line, List.mem_append] at hx
  rcases hx with ((hx | hx) | hx) | hx
  · obtain ⟨e, he, hxe⟩ := List.mem_flatMap.1 hx
    exact .inl (List.mem_flatMap.2 ⟨e, List.mem_of_mem_filter he, hxe⟩)
  · exact .inr (mem_sitting (List.mem_append_left _ hx))
  · exact .inr (List.mem_append_left _ hx)
  · exact .inr (mem_sitting (List.mem_append_right _ hx))

/-- After a call, a line holds the items that it held and the one that was pushed, in this order.
Some may have gone to another worker. -/
theorem InLine.line_sublist (h : InLine log q) (hi : i < q.buffers.size)
    {c : QueueCall (Stamped α)} (hc : ∀ x ∈ c.pushed, x.worker = i) (k j : Nat) :
    ((line (log ++ [q.entry i c]) (q.after i c) k j).filter (·.worker == k)).Sublist
      ((line log q k j ++ c.pushed).filter (·.worker == k)) := by
  obtain ⟨published, taken, hout, hchunks, hin⟩ := call_flow hi c
  -- what `j` has and the chunks hold is what was there, up to what another worker took
  have hfront : ((QueueLog.ofWorker (log ++ [q.entry i c]) j).popped ++
      ((q.after i c).buffer j).incoming ++ (q.after i c).queue.chunks.flatten).Sublist
      ((log.ofWorker j).popped ++ (q.buffer j).incoming ++ q.queue.chunks.flatten ++ published) := by
    rw [List.append_assoc _ _ published, hchunks, QueueLog.ofWorker_append, entry_worker]
    by_cases hj : i = j
    · subst hj
      rw [if_pos rfl, QueueLog.popped_append, List.append_assoc (log.ofWorker i).popped, ← hin]
      simp
    · rw [if_neg hj, List.append_nil, buffer_after_ne hi (Ne.symm hj)]
      apply List.Sublist.append_left
      exact List.sublist_append_right taken _
  -- only `i` publishes, and only what it has pushed
  have hback : ((published ++ ((q.after i c).buffer k).outgoing).filter (·.worker == k)).Sublist
      (((q.buffer k).outgoing ++ c.pushed).filter (·.worker == k)) := by
    by_cases hk : k = i
    · subst hk
      rw [← hout]
    · have hnone : published.filter (·.worker == k) = [] := by
        apply List.filter_eq_nil_iff.2
        intro x hx
        have hmem : x ∈ (q.buffer i).outgoing ++ c.pushed := hout ▸ List.mem_append_left _ hx
        have hworker : x.worker = i := (List.mem_append.1 hmem).elim (h.outgoing i x) (hc x)
        simp [hworker, Ne.symm hk]
      rw [buffer_after_ne hi hk, List.filter_append, hnone, List.filter_append]
      exact List.sublist_append_left _ _
  rw [line, List.filter_append]
  refine ((hfront.filter _).append_right _).trans ?_
  rw [List.filter_append, List.append_assoc, ← List.filter_append published, line,
    List.append_assoc _ _ c.pushed, List.filter_append _ (_ ++ c.pushed)]
  exact hback.append_left _

theorem inLine_start (size workers : Nat) :
    InLine [] (ofChunkSize size workers : WorkQueue (Stamped α)) := by
  have hbuffer : ∀ i, (ofChunkSize size workers : WorkQueue (Stamped α)).buffer i = {} := by
    intro i
    by_cases hi : i < workers <;> simp [buffer, ofChunkSize, hi]
  refine ⟨by simp, by simp [QueueLog.pushed], by simp [QueueLog.pushed], ?_, ?_⟩
  · simp [hbuffer]
  · intro i j
    rw [line, hbuffer, hbuffer]
    simp [QueueLog.ofWorker, QueueLog.popped, ofChunkSize, ChunkedQueue.ofChunkSize]

theorem InLine.call (h : InLine log q) (hq : Counted workers log q) (hi : i < workers)
    (c : QueueCall α) :
    InLine (log ++ [q.entry i (c.stamp i log.length)]) (q.after i (c.stamp i log.length)) := by
  have hi' : i < q.buffers.size := hq.size ▸ hi
  have hstamp : ∀ x ∈ (c.stamp i log.length).pushed, x.worker = i ∧ x.number = log.length :=
    fun x hx => QueueCall.mem_pushed_stamp hx
  have hnew : (c.stamp i log.length).pushed.Pairwise (·.number < ·.number) := by
    cases c <;> simp [QueueCall.stamp, QueueCall.map, QueueCall.pushed]
  refine ⟨fun k e x he hx => ?_, ?_, fun x hx => ?_, fun k x hx => ?_, fun k j => ?_⟩
  · rw [List.getElem?_append] at he
    split at he
    · exact h.stamps k e x he hx
    · rename_i hk
      have hk' : k = log.length ∧ e = q.entry i (c.stamp i log.length) := by
        rw [List.getElem?_singleton] at he
        split at he
        · exact ⟨by omega, (Option.some.inj he).symm⟩
        · cases he
      obtain ⟨rfl, rfl⟩ := hk'
      apply hstamp
      rw [show c.stamp i log.length = .push x from hx]
      exact List.mem_singleton_self x
  · rw [QueueLog.pushed_append]
    apply List.pairwise_append.2
    refine ⟨h.pushed, hnew, fun x hx y hy => ?_⟩
    rw [(hstamp y hy).2]
    exact h.below x hx
  · rw [QueueLog.pushed_append] at hx
    rw [List.length_append, List.length_singleton]
    rcases List.mem_append.1 hx with hx | hx
    · have hlt := h.below x hx
      omega
    · rw [(hstamp x hx).2]
      omega
  · by_cases hk : k = i
    · subst hk
      obtain ⟨published, taken, hout, -⟩ := call_flow hi' (c.stamp k log.length)
      have hmem := List.mem_append_right published hx
      rw [← hout] at hmem
      exact (List.mem_append.1 hmem).elim (h.outgoing k x) fun hx => (hstamp x hx).1
    · rw [buffer_after_ne hi' hk] at hx
      exact h.outgoing k x hx
  · refine List.Pairwise.sublist (h.line_sublist hi' (fun x hx => (hstamp x hx).1) k j) ?_
    rw [List.filter_append]
    apply List.pairwise_append.2
    refine ⟨h.ordered k j, hnew.filter _, fun x hx y hy => ?_⟩
    rw [(hstamp y (List.mem_of_mem_filter hy)).2]
    exact h.below x (hq.mem_pushed (List.mem_of_mem_filter hx))

theorem History.stamped {α : Type} {size workers : Nat} {log : QueueLog α} {q : WorkQueue α}
    (h : History size workers log q) :
    ∃ (log' : QueueLog (Stamped α)) (q' : WorkQueue (Stamped α)), History size workers log' q' ∧
      log'.map (·.map Stamped.item) = log ∧ q'.map Stamped.item = q ∧ InLine log' q' := by
  induction h with
  | start =>
    refine ⟨[], ofChunkSize size workers, .start, rfl, ?_, inLine_start size workers⟩
    simp [WorkQueue.map, ofChunkSize, ChunkedQueue.map, ChunkedQueue.ofChunkSize, QueueBuffer.map]
  | @call log q i c a q₁ h hc hd ih =>
    obtain ⟨log', q', h', rfl, rfl, hline⟩ := ih
    have hi := lt_of_call hc
    have hi' : i < q'.buffers.size := by simpa [WorkQueue.map] using hi
    have hcall := call_map Stamped.item q' i (c.stamp i log'.length)
    rw [QueueCall.map_stamp, hc, call_eq hi'] at hcall
    obtain ⟨rfl, rfl⟩ := Prod.mk.inj (Option.some.inj hcall)
    refine ⟨_, _, h'.call (call_eq hi' (c.stamp i log'.length)) fun hm => ?_, ?_, rfl,
      hline.call h'.counted (h'.counted.size ▸ hi') c⟩
    · have hlt := hd (by rw [← QueueCall.map_stamp i log'.length c, hm]; rfl)
      rwa [QueueLog.ofWorker_map, QueueLog.marks_map, QueueLog.length_popped_map] at hlt
    · simp [QueueEntry.map, QueueCall.map_stamp]

section finish
variable {α : Type} {workers i : Nat} {log : QueueLog α} {q : WorkQueue α}

/-- To ask whether all is finished pushes, pops and marks nothing. -/
theorem Counted.isFinished (h : Counted workers log q) (hi : i < workers) :
    Counted workers log (q.after i .isFinished) ∧
      (q.after i .isFinished).outstanding log ≤ q.outstanding log := by
  have hi' : i < q.buffers.size := h.size ▸ hi
  have h' := h.call hi .isFinished nofun
  have hpopped : (q.entry i .isFinished).answer.popped = [] := rfl
  have hpushed : (QueueCall.isFinished : QueueCall α).pushed = [] := rfl
  have hmarks : (QueueCall.isFinished : QueueCall α).marks = 0 := rfl
  have hperm := h'.perm
  have hpending := h'.pending
  simp only [QueueLog.popped_append, QueueLog.pushed_append, QueueLog.marks_append, entry_call,
    hpopped, hpushed, hmarks, List.append_nil, Nat.add_zero] at hperm hpending
  obtain ⟨rest, m, hrest⟩ := exists_rest hi'
  have hun := (hrest (q.view i)).2
  have hun' : (q.after i .isFinished).unflushed = 0 + m := (hrest _).2
  rw [replace_self hi'] at hun
  have hle : (q.after i .isFinished).unflushed ≤ q.unflushed := by omega
  refine ⟨⟨h'.size, h.worker, hperm, hpending, hle.trans h.unflushed_le, h.marks_le⟩, ?_⟩
  have hlength := h.perm.length_eq
  have hlength' := hperm.length_eq
  simp only [List.length_append] at hlength hlength'
  simp only [outstanding]
  omega

theorem Counted.outstanding_eq_zero (h : Counted workers log q) : q.outstanding log = 0 ↔
    log.popped.Perm log.pushed ∧ (∀ j, (log.ofWorker j).marks = (log.ofWorker j).popped.length) ∧
      ∀ b ∈ q.buffers, b.finished = 0 := by
  have hzero : q.unflushed = 0 ↔ ∀ b ∈ q.buffers, b.finished = 0 := by
    simp [unflushed, List.sum_eq_zero_iff]
  have hpopped := QueueLog.sum_ofWorker h.worker fun e => e.answer.popped.length
  have hmarks := QueueLog.sum_ofWorker h.worker fun e => e.call.marks
  rw [← hzero]
  simp only [outstanding]
  constructor
  · intro h0
    have hsit : q.sitting = [] := List.eq_nil_of_length_eq_zero (by omega)
    refine ⟨?_, QueueLog.marks_eq_of_le h.worker h.marks_le (by omega), by omega⟩
    simpa [hsit] using h.perm
  · rintro ⟨hperm, hdone, hun⟩
    have hlength := h.perm.length_eq
    have hall : log.marks = log.popped.length := by
      simp only [QueueLog.popped, List.length_flatMap, QueueLog.marks] at hdone ⊢
      rw [← hpopped, ← hmarks]
      exact Finset.sum_congr rfl fun j _ => hdone j
    rw [List.length_append, ← hperm.length_eq] at hlength
    omega

theorem Counted.finished_iff (h : Counted workers log q) (hi : i < workers)
    (hword : q.outstanding log < UInt64.size) :
    (q.entry i .isFinished).answer = .verdict true ↔
      (q.after i .isFinished).outstanding log = 0 := by
  obtain ⟨h', hle⟩ := h.isFinished hi
  have hi' : i < q.buffers.size := h.size ▸ hi
  have hanswer : (q.entry i .isFinished).answer =
      .verdict (((q.after i .isFinished).buffer i).incoming.isEmpty &&
        (q.after i .isFinished).queue.pending == 0) := by
    rw [after, buffer_replace hi', if_pos rfl]
    rfl
  have hpending : (q.after i .isFinished).queue.pending = 0 ↔
      (q.after i .isFinished).outstanding log = 0 := by
    rw [h'.pending_eq, ← UInt64.toNat_inj, UInt64.toNat_ofNat_of_lt' (hle.trans_lt hword)]
    rfl
  rw [hanswer, ← hpending]
  simp only [QueueAnswer.verdict.injEq, Bool.and_eq_true, List.isEmpty_iff, beq_iff_eq]
  refine ⟨And.right, fun h0 => ⟨?_, h0⟩⟩
  -- what the worker has taken but not handed out would be counted
  apply List.eq_nil_iff_forall_not_mem.2
  intro x hx
  have hsit : x ∈ (q.after i .isFinished).sitting := mem_sitting (List.mem_append_left _ hx)
  have hpos := List.length_pos_of_mem hsit
  have hcount := hpending.1 h0
  simp only [outstanding] at hcount
  omega

end finish

/-- Workers that share a queue, after any calls in any order. Every call is answered. An item is
taken at most once, and until then it is in one chunk or one buffer; of the items that one worker
pushed, another takes those that it gets in the order in which they were pushed. The pending count is
that of the items that are not taken, or taken without a mark that was taken off the count. As long
as a word can count them, a worker that asks is told that all is finished if and only if, once its own
buffer is flushed, all items are taken and marked and all marks are taken off. -/
theorem history_conserves {α : Type} {size workers : Nat} {log : QueueLog α} {q : WorkQueue α}
    (h : History size workers log q) :
    (∀ i < workers, ∀ c, ∃ r, q.call i c = some r) ∧
    (∃ (log' : QueueLog (Stamped α)) (q' : WorkQueue (Stamped α)), History size workers log' q' ∧
      log'.map (·.map Stamped.item) = log ∧ q'.map Stamped.item = q ∧
      (∀ (k : Nat) e x, log'[k]? = some e → e.call = .push x → x.worker = e.worker ∧ x.number = k) ∧
      (log'.popped ++ q'.sitting).Perm log'.pushed ∧ (log'.popped ++ q'.sitting).Nodup ∧
      ∀ i j, ((log'.ofWorker j).popped.filter (·.worker == i)).Pairwise (·.number < ·.number)) ∧
    q.queue.pending = .ofNat (q.outstanding log) ∧
    q.unflushed ≤ log.marks ∧ log.marks ≤ log.popped.length ∧
    (q.outstanding log < UInt64.size →
      q.queue.pending.toNat = q.outstanding log ∧
      ∀ i < workers, ∃ b q', q.call i .flush = some (.nothing, q') ∧
        q.call i .isFinished = some (.verdict b, q') ∧
        (b = true ↔ log.popped.Perm log.pushed ∧
          (∀ j, (log.ofWorker j).marks = (log.ofWorker j).popped.length) ∧
          ∀ b ∈ q'.buffers, b.finished = 0)) := by
  have hc := h.counted
  refine ⟨fun i hi c => ⟨_, call_eq (hc.size ▸ hi) c⟩, ?_, hc.pending_eq, hc.unflushed_le,
    hc.marks_le_popped, fun hword => ⟨?_, fun i hi => ?_⟩⟩
  · obtain ⟨log', q', h', hlog, hq, hline⟩ := h.stamped
    have hperm := h'.counted.perm
    refine ⟨log', q', h', hlog, hq, hline.stamps, hperm, hperm.nodup_iff.2 ?_, fun i j => ?_⟩
    · exact hline.pushed.imp fun hlt heq => by simp [heq] at hlt
    · refine List.Pairwise.sublist (List.Sublist.filter _ ?_) (hline.ordered i j)
      simp [line]
  · rw [hc.pending_eq, UInt64.toNat_ofNat_of_lt' hword]
  · have hi' : i < q.buffers.size := hc.size ▸ hi
    refine ⟨_, q.after i .isFinished, call_eq hi' .flush, call_eq hi' .isFinished, ?_⟩
    rw [← (hc.isFinished hi).1.outstanding_eq_zero, ← hc.finished_iff hi hword]
    exact ⟨fun hb => congrArg QueueAnswer.verdict hb, QueueAnswer.verdict.inj⟩

/-- One worker pushes an item twice and then another; a second worker takes the first two and marks
one of them. -/
theorem history_conserves_twoWorkers : ∃ (log : QueueLog Nat) (q : WorkQueue Nat),
    History 2 2 log q ∧ log.pushed = [5, 5, 7] ∧ log.popped = [5, 5] ∧ log.marks = 1 ∧
      q.queue.pending.toNat = 3 ∧
      ∃ q', q.call 0 .isFinished = some (.verdict false, q') := by
  have h₀ : History 2 2 [] (ofChunkSize 2 2 : WorkQueue Nat) := .start
  have h₁ := h₀.call (i := 0) (c := .push 5) rfl nofun
  have h₂ := h₁.call (i := 0) (c := .push 5) rfl nofun
  have h₃ := h₂.call (i := 0) (c := .push 7) rfl nofun
  have h₄ := h₃.call (i := 1) (c := .pop) rfl nofun
  have h₅ := h₄.call (i := 1) (c := .pop) rfl nofun
  have h₆ := h₅.call (i := 1) (c := .markDone) rfl (by decide)
  obtain ⟨-, -, -, -, -, hcount⟩ := history_conserves h₆
  obtain ⟨hpending, hfinished⟩ := hcount (by decide)
  obtain ⟨b, q', -, hcall, hb⟩ := hfinished 0 (by decide)
  refine ⟨_, _, h₆, rfl, rfl, rfl, hpending, q', ?_⟩
  cases b with
  | false => exact hcall
  | true => exact absurd (hb.1 rfl).1 (by decide)

end WorkQueue

end ModelChecker
