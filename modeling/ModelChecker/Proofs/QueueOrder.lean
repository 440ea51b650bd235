import ModelChecker.Queue.Fifo
import ModelChecker.Proofs.QueueHistory

namespace ModelChecker

variable {α : Type}

/-- The queue after a call. Only pushes and pops make a difference. -/
def Fifo.heed (f : Fifo α) : QueueCall α → Fifo α
  | .push a => f.push a
  | .pop => (f.pop?.map (·.2)).getD f
  | _ => f

theorem Fifo.pop?_eq_of_toList {f : Fifo α} {a : α} {rest : List α} (h : f.toList = a :: rest) :
    ∃ g, f.pop? = some (a, g) ∧ g.toList = rest := by
  cases hp : f.pop? with
  | none =>
    rw [f.pop?_eq_none_iff, h] at hp
    cases hp
  | some r =>
    obtain ⟨b, g⟩ := r
    have hf := Fifo.toList_of_pop? hp
    rw [h] at hf
    obtain ⟨rfl, hg⟩ := List.cons.inj hf
    exact ⟨g, rfl, hg.symm⟩

namespace QueueView

variable {v : QueueView α}

theorem isEmpty_iff (hd : v.Dense) : v.isEmpty = true ↔ v.contents = [] := by
  have hchunks : v.queue.chunks = [] ↔ v.queue.chunks.flatten = [] :=
    ⟨fun h => h ▸ rfl, chunks_eq_nil hd⟩
  simp only [isEmpty, contents, Bool.and_eq_true, List.isEmpty_iff, List.append_eq_nil_iff, hchunks]
  exact and_right_comm

/-- The view holds the items of `f`. -/
structure Mirrors (v : QueueView α) (f : Fifo α) : Prop where
  dense : v.Dense
  contents : v.contents = f.toList

variable {f : Fifo α}

theorem Mirrors.pop (h : Mirrors v f) :
    v.pop.1 = f.pop?.map (·.1) ∧ Mirrors v.pop.2 (f.heed .pop) := by
  cases hp : v.pop with
  | mk a v' =>
    have hd : v'.Dense := by
      rw [show v' = v.pop.2 by rw [hp]]
      exact h.dense.pop
    cases a with
    | none =>
      obtain ⟨hnil, rfl⟩ := of_pop_none h.dense hp
      have hf : f.pop? = none := f.pop?_eq_none_iff.2 (h.contents ▸ hnil)
      refine ⟨by rw [hf]; rfl, hd, ?_⟩
      rw [contents_publish, h.contents, Fifo.heed, hf]
      rfl
    | some a =>
      obtain ⟨g, hg, hrest⟩ := Fifo.pop?_eq_of_toList (h.contents.symm.trans (contents_of_pop hp))
      refine ⟨by rw [hg]; rfl, hd, ?_⟩
      rw [Fifo.heed, hg]
      exact hrest.symm

theorem Mirrors.isEmpty (h : Mirrors v f) : v.isEmpty = f.isEmpty := by
  rw [Bool.eq_iff_iff, isEmpty_iff h.dense, f.isEmpty_iff, h.contents]

theorem Mirrors.answer (h : Mirrors v f) (c : QueueCall α) :
    Mirrors (WorkQueue.answer v c).2 (f.heed c) := by
  cases c with
  | push a =>
    refine ⟨h.dense.push a, ?_⟩
    change (v.push a).contents = (f.push a).toList
    rw [contents_push, f.toList_push, h.contents]
  | pop => exact h.pop.2
  | markDone => exact ⟨h.dense.markDone, v.contents_markDone.trans h.contents⟩
  | flush => exact ⟨h.dense.flush, v.contents_flush.trans h.contents⟩
  | isFinished => exact ⟨h.dense.flush, v.contents_flush.trans h.contents⟩
  | isEmpty => exact h

end QueueView

namespace WorkQueue

/-- The calls of one worker, one after another, with their answers. -/
def calls (q : WorkQueue α) (i : Nat) :
    List (QueueCall α) → Option (List (QueueAnswer α) × WorkQueue α)
  | [] => some ([], q)
  | c :: rest => do
    let (a, q) ← q.call i c
    let (as, q) ← q.calls i rest
    return (a :: as, q)

variable {q : WorkQueue α} {i : Nat} {f : Fifo α}

theorem view_after (hi : i < q.buffers.size) (c : QueueCall α) :
    (q.after i c).view i = (answer (q.view i) c).2 := by
  rw [view, after, buffer_replace hi, if_pos rfl]
  rfl

theorem view_ofChunkSize (size workers i : Nat) :
    (ofChunkSize size workers : WorkQueue α).view i = ⟨.ofChunkSize α size, {}⟩ := by
  by_cases hi : i < workers <;> simp [view, buffer, ofChunkSize, hi]

/-- What `f` says of the answers to calls: a pop gives its oldest item, if it has one, and the queue
is said to be empty if it has none. -/
def Foretells (f : Fifo α) (cs : List (QueueCall α)) (answers : List (QueueAnswer α)) : Prop :=
  ∀ k : Nat,
    (cs[k]? = some .pop →
      answers[k]? = some (.item (((cs.take k).foldl Fifo.heed f).pop?.map (·.1)))) ∧
    (cs[k]? = some .isEmpty →
      answers[k]? = some (.verdict ((cs.take k).foldl Fifo.heed f).isEmpty))

theorem Foretells.cons {c : QueueCall α} {cs : List (QueueCall α)}
    {answers : List (QueueAnswer α)} (hm : QueueView.Mirrors (q.view i) f)
    (h : Foretells (f.heed c) cs answers) :
    Foretells f (c :: cs) ((q.entry i c).answer :: answers) := by
  intro k
  cases k with
  | zero =>
    simp only [List.getElem?_cons_zero, Option.some.injEq, List.take_zero, List.foldl_nil]
    constructor
    · rintro rfl
      exact congrArg QueueAnswer.item hm.pop.1
    · rintro rfl
      exact congrArg QueueAnswer.verdict hm.isEmpty
  | succ k => exact h k

theorem calls_of_mirrors (hi : i < q.buffers.size) (hm : QueueView.Mirrors (q.view i) f)
    (cs : List (QueueCall α)) :
    ∃ answers q', q.calls i cs = some (answers, q') ∧ answers.length = cs.length ∧
      Foretells f cs answers ∧ (q'.view i).contents = (cs.foldl Fifo.heed f).toList := by
  induction cs generalizing q f with
  | nil => exact ⟨[], q, rfl, rfl, fun k => ⟨nofun, nofun⟩, hm.contents⟩
  | cons c rest ih =>
    have hsize : i < (q.after i c).buffers.size := (size_replace _).symm ▸ hi
    have hm' : QueueView.Mirrors ((q.after i c).view i) (f.heed c) :=
      view_after hi c ▸ hm.answer c
    obtain ⟨answers, q', hcalls, hlength, hanswers, hcontents⟩ := ih hsize hm'
    refine ⟨(q.entry i c).answer :: answers, q', ?_, congrArg (· + 1) hlength, hanswers.cons hm,
      hcontents⟩
    simp only [calls, call_eq hi c, Option.bind_eq_bind, Option.bind_some, hcalls]
    rfl

/-- A shared queue that only one worker calls, with chunks of any size. Every call is answered. Each
pop gives what a first-in first-out queue gives after the same pushes and pops, an item or nothing,
and the queue is said to be empty when and only when that one is; the other calls may come anywhere
between and change nothing of it. What is left at the end is the same too. -/
theorem calls_fifo (size : Nat) {workers i : Nat} (hi : i < workers) (cs : List (QueueCall α)) :
    ∃ answers q, (ofChunkSize size workers : WorkQueue α).calls i cs = some (answers, q) ∧
      answers.length = cs.length ∧
      (∀ k : Nat, cs[k]? = some .pop →
        answers[k]? = some (.item (((cs.take k).foldl Fifo.heed {}).pop?.map (·.1)))) ∧
      (∀ k : Nat, cs[k]? = some .isEmpty →
        answers[k]? = some (.verdict ((cs.take k).foldl Fifo.heed {}).isEmpty)) ∧
      (q.view i).contents = (cs.foldl Fifo.heed {}).toList := by
  have hm : QueueView.Mirrors ((ofChunkSize size workers : WorkQueue α).view i) {} := by
    rw [view_ofChunkSize]
    exact ⟨nofun, rfl⟩
  have hsize : i < (ofChunkSize size workers : WorkQueue α).buffers.size := by
    simpa [ofChunkSize] using hi
  obtain ⟨answers, q, hcalls, hlength, hanswers, hcontents⟩ := calls_of_mirrors hsize hm cs
  exact ⟨answers, q, hcalls, hlength, fun k => (hanswers k).1, fun k => (hanswers k).2, hcontents⟩

/-- Two items go through chunks of two and a third one past them, with a flush and other calls
between. -/
def threeItems : List (QueueCall Nat) :=
  [.push 5, .push 6, .isFinished, .pop, .push 7, .flush, .pop, .isEmpty, .markDone, .pop, .pop,
    .isEmpty]

theorem calls_fifo_threeItems : 0 < 1 ∧
    ∃ answers q, (ofChunkSize 2 1 : WorkQueue Nat).calls 0 threeItems = some (answers, q) ∧
      answers[3]? = some (.item (some 5)) ∧ answers[6]? = some (.item (some 6)) ∧
      answers[7]? = some (.verdict false) ∧ answers[9]? = some (.item (some 7)) ∧
      answers[10]? = some (.item none) ∧ answers[11]? = some (.verdict true) := by
  obtain ⟨answers, q, hcalls, -, hpop, hempty, -⟩ := calls_fifo 2 Nat.zero_lt_one threeItems
  exact ⟨Nat.zero_lt_one, answers, q, hcalls, hpop 3 rfl, hpop 6 rfl, hempty 7 rfl, hpop 9 rfl,
    hpop 10 rfl, hempty 11 rfl⟩

end WorkQueue

end ModelChecker
