import Mathlib.Data.List.Induction
import ModelChecker.Proofs.BreadthFirstStep
import ModelChecker.Proofs.Trail

namespace ModelChecker.BreadthFirst

variable {σ ω : Type}

def State.work (m : State σ ω) : Work σ ω := workOf m m.workers.toList

def State.total (m : State σ ω) : Nat := totalOf m m.workers.toList

def State.potential (m : State σ ω) (degree allowance : Nat) : Nat :=
  BreadthFirst.potential degree allowance m.workers.toList

variable {sys : System σ} {l : Listener σ ω} {m m' : State σ ω}

theorem stepWorker_workers (worker : Nat) (w : Worker σ) (m : State σ ω) :
    (stepWorker sys l worker w m).1.workers = m.workers := by
  unfold stepWorker
  split
  · unfold tell
    split <;> rfl
  · unfold meet
    split <;> rfl
  · rfl
  · unfold take
    split
    · rfl
    · split
      · unfold expand
        split <;> rfl
      · rfl

theorem workers_perm {ws : Array (Worker σ)} {i : Nat} {w : Worker σ} (h : ws[i]? = some w) :
    ∃ others, ws.toList.Perm (w :: others) ∧
      ∀ w', (ws.setIfInBounds i w').toList.Perm (w' :: others) := by
  obtain ⟨hi, hw⟩ := Array.getElem?_eq_some_iff.1 h
  refine ⟨ws.toList.eraseIdx i, ?_, fun w' => ?_⟩
  · rw [← hw]
    exact (List.getElem_cons_eraseIdx_perm hi).symm
  · rw [Array.toList_setIfInBounds]
    exact List.set_perm_cons_eraseIdx hi w'

/-- What a step leaves behind that uses up nothing of the allowance. -/
structure Quiet (i : Nat) (m m' : State σ ω) : Prop where
  work : m'.work = m.work
  total_le : m'.total ≤ m.total
  others : ∀ j, j ≠ i → m'.workers[j]? = m.workers[j]?
  chunks : m.interrupt.raised = false → m.queue.chunks = [] → m'.queue.chunks = []
  stopped : ∀ w, m'.workers[i]? = some w → m.interrupt.raised = true ∨ m.total = 0 →
    w.stopped = true
  empty : ∀ w, m'.workers[i]? = some w → m.interrupt.raised = false →
    m'.queue.chunks = [] ∧ w.due = 0

theorem of_total_eq_zero {i : Nat} {w : Worker σ} (h : m.total = 0) (hw : m.workers[i]? = some w) :
    m.queue.chunks.flatten = [] ∧ w.due = 0 := by
  obtain ⟨others, hp, -⟩ := workers_perm hw
  have h : totalOf m (w :: others) = 0 := (totalOf_perm hp).symm.trans h
  simp only [totalOf, List.map_cons, List.sum_cons] at h
  exact ⟨List.eq_nil_of_length_eq_zero (by omega), by omega⟩

theorem Tidy.withWorkers {ws : List (Worker σ)} (h : Tidy m ws) (workers : Array (Worker σ)) :
    Tidy { m with workers } ws :=
  ⟨h.dense, h.pending, h.idle, h.noticed, h.counted⟩

theorem quiet_refl {i : Nat} (h : Tidy m m.workers.toList)
    (hs : ∀ w, m.workers[i]? = some w → w.stopped = true) : Quiet i m m where
  work := rfl
  total_le := Nat.le_refl _
  others _ _ := rfl
  chunks _ hc := hc
  stopped w hw _ := hs w hw
  empty w hw hr := by
    have hm : w ∈ m.workers.toList := Array.mem_toList_iff.2 (Array.mem_of_getElem? hw)
    rcases h.noticed w hm (hs w hw) with hx | hx
    · exact absurd (hr.symm.trans hx) nofun
    · obtain ⟨hf, hd⟩ := of_total_eq_zero hx hw
      exact ⟨QueueView.chunks_eq_nil h.dense hf, hd⟩

theorem step_eq {i : Nat} {w : Worker σ} (hw : m.workers[i]? = some w) (hst : w.stopped = false) :
    step sys l i m = { (stepWorker sys l i w m).1 with
      workers := m.workers.setIfInBounds i (stepWorker sys l i w m).2 } := by
  simp only [step, hw, hst, Bool.false_eq_true, if_false, stepWorker_workers]

theorem Idle.quiet {i : Nat} {w : Worker σ} {others : List (Worker σ)} {r : State σ ω × Worker σ}
    (hr : Idle others m w r) (hw : m.workers[i]? = some w)
    (hp : m.workers.toList.Perm (w :: others))
    (hp' : (m.workers.setIfInBounds i r.2).toList.Perm (r.2 :: others))
    (hlt : m.total < UInt64.size) :
    Quiet i m { r.1 with workers := m.workers.setIfInBounds i r.2 } := by
  have hi := (Array.getElem?_eq_some_iff.1 hw).1
  have hget : (m.workers.setIfInBounds i r.2)[i]? = some r.2 := by
    rw [Array.getElem?_setIfInBounds_self_of_lt hi]
  have hm : m.total = totalOf m (w :: others) := totalOf_perm hp
  have hm' : State.total { r.1 with workers := m.workers.setIfInBounds i r.2 } =
      totalOf r.1 (r.2 :: others) := totalOf_perm hp'
  -- a worker that finds nothing has published its buffer, so nothing at all is left with it
  have hempty : m.interrupt.raised = false → r.1.queue.chunks = [] ∧ r.2.due = 0 := by
    intro hi
    have hc : (view r.1 r.2).contents = [] := hr.contents.trans (hr.empty hi)
    obtain ⟨h, ho⟩ := List.append_eq_nil_iff.1 hc
    obtain ⟨hin, hf⟩ := List.append_eq_nil_iff.1 h
    have hin : r.2.buffer.incoming = [] := hin
    have ho : r.2.buffer.outgoing = [] := ho
    refine ⟨?_, ?_⟩
    · exact QueueView.chunks_eq_nil hr.dense hf
    · rw [Worker.due, hin, ho, hr.busy.2, hr.finished]
      rfl
  refine ⟨?_, ?_, ?_, fun hi _ => (hempty hi).1, ?_, ?_⟩
  · exact (workOf_perm hp').trans (hr.work.trans (workOf_perm hp).symm)
  · rw [hm', hm]
    exact hr.totalOf_le
  · intro j hj
    exact Array.getElem?_setIfInBounds_ne hj.symm
  · intro x hx h
    cases hget.symm.trans hx
    cases hi : m.interrupt.raised with
    | true => exact hr.raised hi
    | false =>
      -- the pending count is a word, which the number of items does not exceed
      have h0 : m.total = 0 := h.resolve_left (by simp [hi])
      have hle := hr.totalOf_le
      rw [hm] at h0 hlt
      exact (hr.stopped_iff hi (hle.trans_lt hlt)).2 (Nat.le_zero.1 (h0 ▸ hle))
  · intro x hx hi
    cases hget.symm.trans hx
    exact hempty hi

/-- A step of any worker keeps the search tidy. It uses up some of the allowance or is quiet. -/
theorem step_cases {allowance i : Nat}
    (hd : ∀ s v o, (l.successors i s v o).1.length ≤ sys.degree)
    (h : Tidy m m.workers.toList) (hlt : m.work.admitted < UInt64.size)
    (hb : ∀ w', Work.Moves sys l m.work w' → w'.stats.states ≤ allowance) :
    Tidy (step sys l i m) (step sys l i m).workers.toList ∧
    Work.Turn sys l m.work (step sys l i m).work ∧
    (step sys l i m).workers.size = m.workers.size ∧
    ((step sys l i m).potential sys.degree allowance < m.potential sys.degree allowance ∧
        0 < m.total ∨
      (step sys l i m).potential sys.degree allowance = m.potential sys.degree allowance ∧
        Quiet i m (step sys l i m)) := by
  cases hw : m.workers[i]? with
  | none =>
    have hs : step sys l i m = m := by simp only [step, hw]
    rw [hs]
    exact ⟨h, .rest m.work, rfl, .inr ⟨rfl, quiet_refl h (by simp [hw])⟩⟩
  | some w =>
    cases hst : w.stopped with
    | true =>
      have hs : step sys l i m = m := by simp only [step, hw, hst, if_true]
      rw [hs]
      refine ⟨h, .rest m.work, rfl, .inr ⟨rfl, quiet_refl h fun x hx => ?_⟩⟩
      cases hw.symm.trans hx
      exact hst
    | false =>
      obtain ⟨others, hp, hp'⟩ := workers_perm hw
      have hp' := hp' (stepWorker sys l i w m).2
      have htidy := h.perm hp
      have hwork : m.work = workOf m (w :: others) := workOf_perm hp
      have hpot : m.potential sys.degree allowance =
          potential sys.degree allowance (w :: others) := potential_perm hp
      rw [step_eq hw hst]
      -- the step of one worker is a step of all, whichever place it has in the array
      rcases stepWorker_cases allowance hd hst htidy with hr | hr
      · have hturn := hr.turn
        rw [← hwork] at hturn
        refine ⟨((hr.tidy htidy).perm hp'.symm).withWorkers _, ?_, ?_, .inl ⟨?_, ?_⟩⟩
        · exact hturn.trans_eq (workOf_perm hp')
        · exact Array.size_setIfInBounds
        · rw [hpot]
          exact (potential_perm hp').trans_lt (hr.potential (hb _ hturn.moves))
        · exact hr.pos.trans_eq (totalOf_perm hp).symm
      · rw [hwork] at hlt
        have hq := hr.quiet hw hp hp'
          ((totalOf_perm hp).trans_lt (htidy.totalOf_le.trans_lt hlt))
        refine ⟨((hr.tidy htidy hlt).perm hp'.symm).withWorkers _, ?_, ?_, .inr ⟨?_, hq⟩⟩
        · rw [hq.work]
          exact .rest m.work
        · exact Array.size_setIfInBounds
        · rw [hpot]
          refine (potential_perm hp').trans ?_
          simp only [potential, List.map_cons, List.sum_cons, hr.stats, Worker.cost,
            hr.current.1, hr.current.2]

/-- After a schedule that used up nothing, its workers have stopped or have seen that there is
nothing to take. -/
structure Rested (schedule : List Nat) (m m' : State σ ω) : Prop where
  work : m'.work = m.work
  total_le : m'.total ≤ m.total
  stopped : ∀ i ∈ schedule, ∀ w, m'.workers[i]? = some w →
    m.interrupt.raised = true ∨ m.total = 0 → w.stopped = true
  empty : ∀ i ∈ schedule, ∀ w, m'.workers[i]? = some w → m.interrupt.raised = false →
    m'.queue.chunks = [] ∧ w.due = 0

theorem Rested.step {schedule : List Nat} {i : Nat} {m₀ : State σ ω} (h : Rested schedule m₀ m)
    (hq : Quiet i m m') : Rested (schedule ++ [i]) m₀ m' where
  work := hq.work.trans h.work
  total_le := hq.total_le.trans h.total_le
  stopped j hj w hw hstop := by
    have hint : m.interrupt = m₀.interrupt := congrArg Work.interrupt h.work
    rcases eq_or_ne j i with rfl | hne
    · have hle := h.total_le
      rw [← hint] at hstop
      exact hq.stopped w hw (hstop.imp_right fun h0 => by omega)
    · have hj := (List.mem_append.1 hj).resolve_right (by simpa using hne)
      exact h.stopped j hj w (hq.others j hne ▸ hw) hstop
  empty j hj w hw hr := by
    have hint : m.interrupt = m₀.interrupt := congrArg Work.interrupt h.work
    rcases eq_or_ne j i with rfl | hne
    · exact hq.empty w hw (hint ▸ hr)
    · have hj := (List.mem_append.1 hj).resolve_right (by simpa using hne)
      obtain ⟨hc, hd⟩ := h.empty j hj w (hq.others j hne ▸ hw) hr
      exact ⟨hq.chunks (hint ▸ hr) hc, hd⟩

section
variable {allowance : Nat} {start : Work σ ω}
  (hd : ∀ i s v o, (l.successors i s v o).1.length ≤ sys.degree)
  (hb : ∀ w, Work.Moves sys l start w → w.stats.states ≤ allowance)
  (hword : ∀ w, Work.Moves sys l start w → w.admitted < UInt64.size)
include hd hb hword

theorem runSchedule_cases (schedule : List Nat) (h : Tidy m m.workers.toList)
    (hm : Work.Moves sys l start m.work) :
    Tidy (runSchedule sys l schedule m) (runSchedule sys l schedule m).workers.toList ∧
    Work.Moves sys l m.work (runSchedule sys l schedule m).work ∧
    (runSchedule sys l schedule m).workers.size = m.workers.size ∧
    ((runSchedule sys l schedule m).potential sys.degree allowance <
        m.potential sys.degree allowance ∧ 0 < m.total ∨
      (runSchedule sys l schedule m).potential sys.degree allowance =
        m.potential sys.degree allowance ∧ Rested schedule m (runSchedule sys l schedule m)) := by
  -- from the end, as a worker may undo what an earlier one has seen
  induction schedule using List.reverseRecOn with
  | nil => exact ⟨h, .refl, rfl, .inr ⟨rfl, rfl, Nat.le_refl _, by simp, by simp⟩⟩
  | append_singleton rest i ih =>
    obtain ⟨ht, hmoves, hsize, hcase⟩ := ih
    have hstep : runSchedule sys l (rest ++ [i]) m = step sys l i (runSchedule sys l rest m) := by
      simp only [runSchedule, List.foldl_append, List.foldl_cons, List.foldl_nil]
    rw [hstep]
    have hall := hm.trans hmoves
    obtain ⟨ht', hturn, hsize', hcase'⟩ := step_cases (hd i) ht (hword _ hall)
      (fun w' hw' => hb w' (hall.trans hw'))
    refine ⟨ht', hmoves.trans hturn.moves, hsize'.trans hsize, ?_⟩
    rcases hcase with ⟨hlt, hpos⟩ | ⟨heq, hrest⟩
    · rcases hcase' with ⟨hlt', -⟩ | ⟨heq', -⟩
      · exact .inl ⟨hlt'.trans hlt, hpos⟩
      · exact .inl ⟨heq'.trans_lt hlt, hpos⟩
    · rcases hcase' with ⟨hlt', hpos⟩ | ⟨heq', hquiet⟩
      · exact .inl ⟨hlt'.trans_eq heq, hpos.trans_le hrest.total_le⟩
      · exact .inr ⟨heq'.trans heq, hrest.step hquiet⟩

end

theorem isOver_iff {m : State σ ω} :
    m.isOver = true ↔ ∀ w ∈ m.workers.toList, w.stopped = true := by
  rw [State.isOver, ← Array.all_toList, List.all_eq_true]

section
variable {schedule : List Nat} (h : Rested schedule m m')
  (hall : ∀ i < m.workers.size, i ∈ schedule) (hsize : m'.workers.size = m.workers.size)
include h hall hsize

theorem Rested.isOver (hs : m.interrupt.raised = true ∨ m.total = 0) : m'.isOver = true := by
  rw [isOver_iff]
  intro w hw
  obtain ⟨i, hi, hget⟩ := Array.mem_iff_getElem.1 (Array.mem_toList_iff.1 hw)
  exact h.stopped i (hall i (hsize ▸ hi)) w (Array.getElem?_eq_some_iff.2 ⟨hi, hget⟩) hs

theorem Rested.total_eq_zero (hr : m.interrupt.raised = false) (hover : m'.isOver = false) :
    m'.total = 0 := by
  have hnone : ∀ w ∈ m'.workers.toList, m'.queue.chunks = [] ∧ w.due = 0 := by
    intro w hw
    obtain ⟨i, hi, hget⟩ := Array.mem_iff_getElem.1 (Array.mem_toList_iff.1 hw)
    exact h.empty i (hall i (hsize ▸ hi)) w (Array.getElem?_eq_some_iff.2 ⟨hi, hget⟩) hr
  have hsum : (m'.workers.toList.map Worker.due).sum = 0 :=
    List.sum_eq_zero (by simpa using fun w hw => (hnone w (by simpa using hw)).2)
  have hex : ∃ w, w ∈ m'.workers.toList := by
    by_contra hno
    have := isOver_iff.2 fun w hw => absurd ⟨w, hw⟩ hno
    simp [this] at hover
  obtain ⟨w, hw⟩ := hex
  rw [State.total, totalOf, hsum, (hnone w hw).1]
  rfl

end

theorem rounds_of_isOver (h : m.isOver = true) (schedule : Schedule) (n : Nat) :
    rounds sys l schedule n m = m :=
  Schedule.rounds_of_isOver h schedule n

theorem rounds_succ (h : m.isOver = false) (schedule : Schedule) (n : Nat) :
    rounds sys l schedule (n + 1) m =
      rounds sys l schedule.tail n (runSchedule sys l (schedule 0) m) :=
  Schedule.rounds_succ h schedule n

theorem rounds_eq_runSchedule (sys : System σ) (l : Listener σ ω) (schedule : Schedule) (n : Nat)
    (m : State σ ω) : ∃ steps, rounds sys l schedule n m = runSchedule sys l steps m :=
  Schedule.exists_steps (step sys l) State.isOver schedule n m

section
variable {allowance : Nat} {start : Work σ ω}
  (hd : ∀ i s v o, (l.successors i s v o).1.length ≤ sys.degree)
  (hb : ∀ w, Work.Moves sys l start w → w.stats.states ≤ allowance)
  (hword : ∀ w, Work.Moves sys l start w → w.admitted < UInt64.size)
include hd hb hword

theorem runSchedule_isOver {schedule : List Nat} (hall : ∀ i < m.workers.size, i ∈ schedule)
    (h : Tidy m m.workers.toList) (hm : Work.Moves sys l start m.work) (h0 : m.total = 0) :
    (runSchedule sys l schedule m).isOver = true := by
  obtain ⟨-, -, hsize, hcase⟩ := runSchedule_cases hd hb hword schedule h hm
  rcases hcase with ⟨-, hpos⟩ | ⟨-, hrest⟩
  · omega
  · exact hrest.isOver hall hsize (.inr h0)

/-- All workers stop in time. -/
theorem rounds_isOver (schedule : Schedule) (n : Nat) (m : State σ ω)
    (hfair : schedule.Fair m.workers.size) (h : Tidy m m.workers.toList)
    (hm : Work.Moves sys l start m.work) (hn : m.potential sys.degree allowance + 2 ≤ n) :
    (rounds sys l schedule n m).isOver = true ∧
      (rounds sys l schedule n m).workers.size = m.workers.size ∧
      Tidy (rounds sys l schedule n m) (rounds sys l schedule n m).workers.toList ∧
      Work.Moves sys l start (rounds sys l schedule n m).work := by
  -- a round uses up some of the potential, or it is quiet; then nothing is left, and the round that
  -- follows lets the workers stop
  induction n generalizing schedule m with
  | zero => omega
  | succ n ih =>
    cases hover : m.isOver with
    | true =>
      rw [rounds_of_isOver hover]
      exact ⟨hover, rfl, h, hm⟩
    | false =>
      rw [rounds_succ hover]
      obtain ⟨ht, hmoves, hsize, hcase⟩ := runSchedule_cases hd hb hword (schedule 0) h hm
      have hm' := hm.trans hmoves
      have hfair' : schedule.tail.Fair (runSchedule sys l (schedule 0) m).workers.size :=
        hsize ▸ hfair.tail
      rcases hcase with ⟨hlt, -⟩ | ⟨-, hrest⟩
      · obtain ⟨hover', hsize', hrun⟩ := ih schedule.tail _ hfair' ht hm' (by omega)
        exact ⟨hover', hsize'.trans hsize, hrun⟩
      cases hover' : (runSchedule sys l (schedule 0) m).isOver with
      | true =>
        rw [rounds_of_isOver hover']
        exact ⟨hover', hsize, ht, hm'⟩
      | false =>
        have hr : m.interrupt.raised = false := by
          by_contra hr
          rw [hrest.isOver (hfair 0) hsize (.inl (by simpa using hr))] at hover'
          cases hover'
        have h0 := hrest.total_eq_zero (hfair 0) hsize hr hover'
        obtain ⟨k, rfl⟩ : ∃ k, n = k + 1 := ⟨n - 1, by omega⟩
        have hover'' := runSchedule_isOver hd hb hword (hfair' 0) ht hm' h0
        obtain ⟨ht'', hmoves'', hsize'', -⟩ :=
          runSchedule_cases hd hb hword (schedule.tail 0) ht hm'
        rw [rounds_succ hover', rounds_of_isOver hover'']
        exact ⟨hover'', hsize''.trans hsize, ht'', hm'.trans hmoves''⟩

end

/-- The seeds that were accepted wait in the queue. -/
def planted (vs : List (Vertex σ × Bool)) (store : Store σ) (o : ω)
    (view : QueueView (Vertex σ)) : Work σ ω where
  store
  observation := o
  items := ↑(vs.map fun s => WorkItem.met none s.1 {} s.2) + ↑(view.contents.map WorkItem.visit)

/-- A queue that only seeds were put into. -/
structure Fresh (view : QueueView (Vertex σ)) : Prop where
  dense : view.Dense
  incoming : view.buffer.incoming = []
  owed : view.owed = .ofNat view.contents.length

theorem fresh_empty :
    Fresh (⟨.ofChunkSize (Vertex σ) ChunkedQueue.defaultChunk, {}⟩ : QueueView _) :=
  ⟨fun _ hc => absurd hc List.not_mem_nil, rfl, by change (0 : UInt64) - 0 = 0; decide⟩

theorem planted_empty (vs : List (Vertex σ × Bool)) (store : Store σ) (o : ω) :
    planted vs store o ⟨.ofChunkSize (Vertex σ) ChunkedQueue.defaultChunk, {}⟩ =
      .ofSeeds vs store o := by
  simp only [planted, Work.ofSeeds]
  exact congrArg (Work.mk store o · {} {}) (add_zero _)

theorem Fresh.push {view : QueueView (Vertex σ)} (h : Fresh view) (v : Vertex σ) :
    Fresh (view.push v) where
  dense := h.dense.push v
  incoming := by
    simp only [QueueView.push]
    split
    · rw [QueueView.incoming_publish]
      exact h.incoming
    · exact h.incoming
  owed := by
    rw [QueueView.owed_push, h.owed, QueueView.contents_push, List.length_append]
    exact (UInt64.ofNat_add _ _).symm

def planting (l : Listener σ ω) (worker : Nat) (v : Vertex σ) (isNew : Bool)
    (rest : List (Vertex σ × Bool)) (store : Store σ) (o : ω) (view : QueueView (Vertex σ)) :
    Work σ ω :=
  match l.follow worker none v {} isNew o with
  | (.expand, o) => planted rest store o (view.push v)
  | (.skip, o) => planted rest store o view
  | (.stop, o) => { planted rest store o view with interrupt := ⟨true, none⟩ }

theorem planting_move (sys : System σ) (l : Listener σ ω) (worker : Nat) (v : Vertex σ)
    (isNew : Bool) (rest : List (Vertex σ × Bool)) (store : Store σ) (o : ω)
    (view : QueueView (Vertex σ)) :
    Work.Move sys l (planted ((v, isNew) :: rest) store o view)
      (planting l worker v isNew rest store o view) := by
  have hmove : Work.Move sys l (planted ((v, isNew) :: rest) store o view)
      ((planted ((v, isNew) :: rest) store o view).offered (planted rest store o view).items
        (Listener.settle (l.follow worker none v {} isNew o).1 v store
          (l.follow worker none v {} isNew o).2)) :=
    .tell worker (by simp only [planted, List.map_cons, ← Multiset.cons_coe, Multiset.cons_add])
  refine hmove.trans_eq ?_
  unfold planting
  rcases l.follow worker none v {} isNew o with ⟨s, o'⟩
  cases s with
  | expand =>
    simp only [planted, Work.offered, Listener.settle, QueueView.contents_push,
      List.map_append, ← Multiset.coe_add, ← Multiset.singleton_add]
    congr 1
    rw [← add_assoc]
    exact add_comm _ _
  | skip | stop => rfl

/-- The work while the seeds are planted, before and after each of them. -/
def plantMoments (l : Listener σ ω) (workers : Nat) (store : Store σ) :
    Nat → List (Vertex σ × Bool) → ω → QueueView (Vertex σ) → List (Work σ ω)
  | _, [], o, view => [planted [] store o view]
  | i, (v, isNew) :: rest, o, view =>
    planted ((v, isNew) :: rest) store o view ::
      match l.follow (i % workers) none v {} isNew o with
      | (.expand, o) => plantMoments l workers store (i + 1) rest o (view.push v)
      | (.skip, o) => plantMoments l workers store (i + 1) rest o view
      | (.stop, o) => [{ planted rest store o view with interrupt := ⟨true, none⟩ }]

theorem plant_trail (sys : System σ) (l : Listener σ ω) (workers : Nat) (store : Store σ) (i : Nat)
    (vs : List (Vertex σ × Bool)) (o : ω) (view : QueueView (Vertex σ)) (h : Fresh view) :
    match plant l workers i vs o view with
    | (false, o', view') =>
      Work.Trail sys l (planted vs store o view) (plantMoments l workers store i vs o view)
        (planted [] store o' view') ∧ Fresh view'
    | (true, o', _) =>
      ∃ rest view', Work.Trail sys l (planted vs store o view)
        (plantMoments l workers store i vs o view)
        { planted rest store o' view' with interrupt := ⟨true, none⟩ } := by
  -- the queue stays fresh, as a seed is only ever pushed
  induction vs generalizing i o view with
  | nil => exact ⟨.single _, h⟩
  | cons v rest ih =>
    obtain ⟨v, isNew⟩ := v
    have hmove := planting_move sys l (i % workers) v isNew rest store o view
    unfold plant plantMoments
    unfold planting at hmove
    rcases hf : l.follow (i % workers) none v {} isNew o with ⟨s, o'⟩
    rw [hf] at hmove
    cases s with
    | expand =>
      have hih := ih (i + 1) o' (view.push v) (h.push v)
      simp only
      split at hih
      · exact ⟨.cons (.move hmove) hih.1, hih.2⟩
      · obtain ⟨left, view', htrail⟩ := hih
        exact ⟨left, view', .cons (.move hmove) htrail⟩
    | skip =>
      have hih := ih (i + 1) o' view h
      simp only
      split at hih
      · exact ⟨.cons (.move hmove) hih.1, hih.2⟩
      · obtain ⟨left, view', htrail⟩ := hih
        exact ⟨left, view', .cons (.move hmove) htrail⟩
    | stop => exact ⟨rest, view, .cons (.move hmove) (.single _)⟩

section
variable {view : QueueView (Vertex σ)} (h : Fresh view) (workers : Nat) (store : Store σ) (o : ω)
include h

theorem Fresh.flatten : view.flush.queue.chunks.flatten = view.contents := by
  obtain ⟨hin, hout, -, -⟩ := view.flush_buffer
  rw [← QueueView.contents_flush, QueueView.contents, hin, hout, h.incoming, List.nil_append,
    List.append_nil]

theorem Fresh.start_work :
    (start workers view.flush.queue store o).work = planted [] store o view := by
  have hitems : (List.replicate workers ({} : Worker σ)).map Worker.items =
      List.replicate workers 0 := List.map_replicate
  have hstats : (List.replicate workers ({} : Worker σ)).map Worker.stats =
      List.replicate workers 0 := List.map_replicate
  simp only [State.work, workOf, start, planted, Array.toList_replicate, hitems, hstats,
    List.sum_replicate, nsmul_zero, h.flatten, add_zero]
  exact congrArg (Work.mk store o · 0 {}) (zero_add _).symm

theorem Fresh.start_tidy : Tidy (start workers view.flush.queue store o)
    (start workers view.flush.queue store o).workers.toList := by
  have hw : ∀ w ∈ (start workers view.flush.queue store o).workers.toList, w = {} := by
    intro w hw
    simp only [start, Array.toList_replicate] at hw
    exact List.eq_of_mem_replicate hw
  have hdue : (List.replicate workers ({} : Worker σ)).map Worker.due =
      List.replicate workers 0 := List.map_replicate
  refine ⟨h.dense.flush, ?_, ?_, ?_, ?_⟩
  · simp only [totalOf, start, Array.toList_replicate, hdue, List.sum_replicate, nsmul_zero,
      h.flatten, add_zero]
    rw [view.flush_buffer.2.2.2, h.owed]
  · intro w hm hs
    rw [hw w hm] at hs
    cases hs
  · intro w hm hs
    rw [hw w hm] at hs
    cases hs
  · intro w hm
    rw [hw w hm]
    exact Nat.le_refl _

end

theorem start_potential (degree allowance workers : Nat) (queue : ChunkedQueue (Vertex σ))
    (store : Store σ) (o : ω) :
    (start workers queue store o).potential degree allowance = allowance * (2 * degree + 2) := by
  have hcost : (List.replicate workers ({} : Worker σ)).map Worker.cost =
      List.replicate workers 0 := List.map_replicate
  have hstats : (List.replicate workers ({} : Worker σ)).map Worker.stats =
      List.replicate workers 0 := List.map_replicate
  simp only [State.potential, potential, start, Array.toList_replicate, hcost, hstats,
    List.sum_replicate, nsmul_zero, SearchStats.zero_states, Nat.sub_zero, add_zero]

/-- A search whose workers have all stopped ends, with all its work done unless it was
interrupted. -/
theorem Tidy.ends (h : Tidy m m.workers.toList) (ho : m.isOver = true)
    (hpos : 0 < m.workers.size) : m.work.Ends m.toExploration := by
  refine ⟨rfl, rfl, ?_, ?_, fun hr => ?_⟩
  · exact (Array.foldl_toList _).symm.trans (SearchStats.foldl_eq Worker.stats _)
  · simp only [State.toExploration, ho, if_true]
    rfl
  · -- a worker that stopped has seen an interrupt or that nothing is left
    obtain ⟨w, hw⟩ := List.exists_mem_of_length_pos (l := m.workers.toList) hpos
    have h0 : m.total = 0 :=
      (h.noticed w hw (isOver_iff.1 ho w hw)).resolve_left fun hx => absurd (hr.symm.trans hx) nofun
    have hitems : ∀ w ∈ m.workers.toList, w.items = 0 := by
      intro w hw
      obtain ⟨i, hi, hget⟩ := Array.mem_iff_getElem.1 (Array.mem_toList_iff.1 hw)
      have hdue := (of_total_eq_zero h0 (Array.getElem?_eq_some_iff.2 ⟨hi, hget⟩)).2
      have hcur := h.idle w hw (isOver_iff.1 ho w hw)
      have hin : w.buffer.incoming = [] := List.eq_nil_of_length_eq_zero (by
        rw [Worker.due] at hdue; omega)
      have hout : w.buffer.outgoing = [] := List.eq_nil_of_length_eq_zero (by
        rw [Worker.due] at hdue; omega)
      simp only [Worker.items, Worker.edges, hin, hout, hcur, add_zero]
      rfl
    obtain ⟨i, hi, hget⟩ := Array.mem_iff_getElem.1 (Array.mem_toList_iff.1 hw)
    have hflat := (of_total_eq_zero h0 (Array.getElem?_eq_some_iff.2 ⟨hi, hget⟩)).1
    have hsum : (m.workers.toList.map Worker.items).sum = 0 :=
      List.sum_eq_zero (by simpa using fun w hw => hitems w (by simpa using hw))
    change (↑(m.queue.chunks.flatten.map WorkItem.visit) : Multiset (WorkItem σ)) + _ = 0
    rw [hflat, hsum]
    rfl

/-- A breadth-first search ends, and does its work by moves, provided that no more states are
expanded than allowed and that a word can count the states. -/
theorem run_ends {workers allowance : Nat} {seeds : Seeds σ} {store store' : Store σ} {o : ω}
    {vs : List (Vertex σ × Bool)} {schedule : Schedule} (hpos : 0 < workers)
    (hfair : schedule.Fair workers) (hr : seeds.resolve sys store = .ok (vs, store'))
    (hd : ∀ i s v o, (l.successors i s v o).1.length ≤ sys.degree)
    (hb : ∀ w, Work.Moves sys l (.ofSeeds vs store' o) w → w.stats.states ≤ allowance)
    (hword : ∀ w, Work.Moves sys l (.ofSeeds vs store' o) w → w.admitted < UInt64.size) :
    ∃ w, Work.Moves sys l (.ofSeeds vs store' o) w ∧
      w.Ends (run sys l workers allowance seeds store o schedule) := by
  have hplant := plant_trail sys l workers store' 0 vs o _ fresh_empty
  rw [planted_empty] at hplant
  unfold run
  rw [hr]
  simp only
  split at hplant
  · rename_i o' view heq
    obtain ⟨htrail, hf⟩ := hplant
    simp only [heq]
    obtain ⟨hover, hsize, htidy, hm⟩ := rounds_isOver hd hb hword schedule (enough sys allowance)
      (start workers view.flush.queue store' o') (by simpa [start] using hfair)
      (hf.start_tidy workers store' o') (hf.start_work workers store' o' ▸ htrail.moves)
      (by rw [start_potential, enough]; omega)
    exact ⟨_, hm, htidy.ends hover (by rw [hsize]; simpa [start] using hpos)⟩
  · rename_i o' view heq
    obtain ⟨rest, view', htrail⟩ := hplant
    simp only [heq]
    -- the seeds that were not told are given up
    exact ⟨_, htrail.moves.tail (.abandon rfl (Multiset.zero_le _)), rfl, rfl, rfl, rfl,
      fun _ => rfl⟩

end ModelChecker.BreadthFirst
