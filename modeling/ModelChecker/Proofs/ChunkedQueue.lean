import Mathlib.Logic.Basic
import ModelChecker.Queue.Chunked

namespace ModelChecker.QueueView

variable {α : Type}

/-- The items that the worker can take, oldest first. -/
def contents (v : QueueView α) : List α :=
  v.buffer.incoming ++ v.queue.chunks.flatten ++ v.buffer.outgoing

/-- The pending count as it stands once the worker has settled. -/
def owed (v : QueueView α) : UInt64 :=
  v.queue.pending - .ofNat v.buffer.finished

/-- No chunk is empty. -/
def Dense (v : QueueView α) : Prop :=
  ∀ c ∈ v.queue.chunks, c ≠ []

theorem chunks_eq_nil {chunks : List (List α)} (hd : ∀ c ∈ chunks, c ≠ [])
    (hn : chunks.flatten = []) : chunks = [] := by
  cases chunks with
  | nil => rfl
  | cons c rest => exact absurd (List.append_eq_nil_iff.1 hn).1 (hd c List.mem_cons_self)

variable {v : QueueView α}

@[simp] theorem contents_publish (v : QueueView α) : v.publish.contents = v.contents := by
  unfold publish
  split
  · rfl
  · simp [contents]

@[simp] theorem owed_publish (v : QueueView α) : v.publish.owed = v.owed := by
  unfold publish
  split <;> rfl

theorem finished_publish (v : QueueView α) :
    v.publish.buffer.finished = v.buffer.finished := by
  unfold publish
  split <;> rfl

theorem outgoing_publish (v : QueueView α) : v.publish.buffer.outgoing = [] := by
  unfold publish
  split
  · rename_i h
    exact List.isEmpty_iff.1 h
  · rfl

theorem incoming_publish (v : QueueView α) :
    v.publish.buffer.incoming = v.buffer.incoming := by
  unfold publish
  split <;> rfl

theorem Dense.publish (h : v.Dense) : v.publish.Dense := by
  unfold QueueView.publish
  split
  · exact h
  · rename_i hne
    intro c hc
    rcases List.mem_append.1 hc with hc | hc
    · exact h c hc
    · rintro rfl
      rw [List.mem_singleton] at hc
      exact hne (List.isEmpty_iff.2 hc.symm)

@[simp] theorem contents_settle (v : QueueView α) : v.settle.contents = v.contents := rfl

@[simp] theorem owed_settle (v : QueueView α) : v.settle.owed = v.owed := by
  simp [owed, settle]

theorem Dense.settle (h : v.Dense) : v.settle.Dense := h

@[simp] theorem contents_flush (v : QueueView α) : v.flush.contents = v.contents := by
  simp [flush]

@[simp] theorem owed_flush (v : QueueView α) : v.flush.owed = v.owed := by
  simp [flush]

theorem Dense.flush (h : v.Dense) : v.flush.Dense := h.publish.settle

theorem flush_buffer (v : QueueView α) :
    v.flush.buffer.incoming = v.buffer.incoming ∧ v.flush.buffer.outgoing = [] ∧
      v.flush.buffer.finished = 0 ∧ v.flush.queue.pending = v.owed := by
  refine ⟨v.incoming_publish, v.outgoing_publish, rfl, ?_⟩
  change v.publish.owed = v.owed
  exact v.owed_publish

@[simp] theorem contents_push (v : QueueView α) (a : α) :
    (v.push a).contents = v.contents ++ [a] := by
  simp only [push]
  split
  · rw [contents_publish]
    simp [contents]
  · simp [contents]

@[simp] theorem owed_push (v : QueueView α) (a : α) : (v.push a).owed = v.owed + 1 := by
  have h : ∀ x y : UInt64, x + 1 - y = x - y + 1 := by grind
  simp only [push]
  split
  · rw [owed_publish]
    exact h _ _
  · exact h _ _

theorem finished_push (v : QueueView α) (a : α) :
    (v.push a).buffer.finished = v.buffer.finished := by
  simp only [push]
  split
  · exact finished_publish _
  · rfl

theorem Dense.push (h : v.Dense) (a : α) : (v.push a).Dense := by
  simp only [QueueView.push]
  split
  · exact Dense.publish (v := ⟨_, _⟩) h
  · exact h

@[simp] theorem contents_markDone (v : QueueView α) : v.markDone.contents = v.contents := by
  simp only [markDone]
  split <;> rfl

@[simp] theorem owed_markDone (v : QueueView α) : v.markDone.owed = v.owed - 1 := by
  have h : v.queue.pending - .ofNat (v.buffer.finished + 1) = v.owed - 1 := by
    have hx : ∀ x y : UInt64, x - (y + 1) = x - y - 1 := by grind
    rw [UInt64.ofNat_add]
    exact hx _ _
  simp only [markDone]
  split
  · rw [owed_settle]
    exact h
  · exact h

theorem finished_markDone_le (v : QueueView α) :
    v.markDone.buffer.finished ≤ v.buffer.finished + 1 := by
  simp only [markDone]
  split
  · exact Nat.zero_le _
  · exact Nat.le_refl _

theorem Dense.markDone (h : v.Dense) : v.markDone.Dense := by
  simp only [QueueView.markDone]
  split <;> exact h

theorem contents_of_pop {a : α} {v' : QueueView α} (h : v.pop = (some a, v')) :
    v.contents = a :: v'.contents := by
  simp only [pop] at h
  split at h
  · rename_i b rest hb
    cases h
    simp [contents, hb]
  · rename_i hb
    rw [← contents_publish v]
    split at h
    · cases h
    · rename_i chunk chunks hc
      cases chunk with
      | nil => cases h
      | cons b rest =>
        cases h
        simp [contents, hc, incoming_publish, hb]

theorem of_pop_none (hd : v.Dense) {v' : QueueView α} (h : v.pop = (none, v')) :
    v.contents = [] ∧ v' = v.publish := by
  simp only [pop] at h
  split at h
  · cases h
  · rename_i hb
    split at h
    · rename_i hc
      cases h
      refine ⟨?_, rfl⟩
      rw [← contents_publish, contents, hc, outgoing_publish, incoming_publish, hb]
      rfl
    · rename_i chunk chunks hc
      exfalso
      have hne := hd.publish chunk (hc ▸ List.mem_cons_self)
      cases chunk with
      | nil => exact hne rfl
      | cons b rest => cases h

theorem owed_pop (v : QueueView α) : v.pop.2.owed = v.owed := by
  simp only [pop]
  split
  · rfl
  · rw [← owed_publish v]
    split <;> rfl

theorem finished_pop (v : QueueView α) : v.pop.2.buffer.finished = v.buffer.finished := by
  simp only [pop]
  split
  · rfl
  · rw [← finished_publish v]
    split <;> rfl

theorem Dense.pop (h : v.Dense) : v.pop.2.Dense := by
  simp only [QueueView.pop]
  split
  · exact h
  · have hp := h.publish
    split
    · exact hp
    · rename_i chunk chunks hc
      intro c hm
      exact hp c (hc ▸ List.mem_cons_of_mem _ hm)

end ModelChecker.QueueView
