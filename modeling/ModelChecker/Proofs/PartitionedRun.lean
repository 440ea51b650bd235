import ModelChecker.Proofs.PartitionedStep

namespace ModelChecker.Partitioned

variable {σ ω : Type}

variable {sys : System σ} {l : Listener σ ω} {m m' : State σ ω} {w : Worker σ} {i : Nat}

/-- A step that does no work: its worker goes on to its next phase. -/
structure Paused (i : Nat) (m m' : State σ ω) : Prop where
  work : m'.work = m.work
  cost : m'.sum Worker.cost = m.sum Worker.cost
  quiet : Crew.Quiet [i] m.crew m'.crew
  tidy : m'.crew.Tidy

theorem paused_modifyWorker {g : Worker σ → Worker σ} {n : Nat} (hw : m.workers[i]? = some w)
    (hg : g w = { w with finished := (g w).finished, phase := (g w).phase })
    (h : ∀ c', c' = (⟨m.crew.raised, n, m.crew.duties.set i (g w).duty⟩ : Crew) →
      Crew.Quiet [i] m.crew c' ∧ c'.Tidy) :
    Paused i m (State.modifyWorker { m with outstanding := n } i g) := by
  obtain ⟨hquiet, htidy⟩ := h _ (crew_modifyWorker (m := { m with outstanding := n }) hw g)
  refine ⟨?_, ?_, hquiet, htidy⟩
  · have hi : (m.modifyWorker i g).sum Worker.items = m.sum Worker.items :=
      modifyWorker_sum hw (by rw [hg]; rfl)
    have hs : (m.modifyWorker i g).sum Worker.stats = m.sum Worker.stats :=
      modifyWorker_sum hw (by rw [hg])
    exact congrArg₂ (Work.mk m.store m.observation · · m.interrupt) hi hs
  · exact modifyWorker_sum (m := m) hw (by rw [hg]; rfl)

theorem paused_refl (h : m.crew.Tidy) (hs : ∀ w, m.workers[i]? = some w → w.phase = .returned) :
    Paused i m m := by
  refine ⟨rfl, rfl, Crew.quiet_refl fun d hd => ?_, h⟩
  rw [State.crew, List.getElem?_map, Option.map_eq_some_iff] at hd
  obtain ⟨w, hw, rfl⟩ := hd
  exact hs w ((Array.getElem?_toList ..).symm.trans hw)

theorem work_cases {allowance : Nat} (hd : ∀ s v o, (l.successors i s v o).1.length ≤ sys.degree)
    (h : m.crew.Tidy) (hw : m.workers[i]? = some w) (hp : w.phase = .working) :
    Productive sys l allowance m (Partitioned.work sys l i w m) ∨
      Paused i m (Partitioned.work sys l i w m) := by
  have hduty := getElem?_duties hw
  unfold Partitioned.work
  split
  · rename_i v next rest hc
    exact .inl (distribute_productive hw hc)
  · rename_i v hc
    exact .inl (finish_productive hw hc hp)
  · rename_i hc
    split
    · rename_i hr
      exact .inr (paused_modifyWorker hw rfl fun c' hc' => h.leave hduty hp hr hc')
    · rename_i hr
      unfold take
      split
      · rename_i x inbox hx
        exact .inl (receive_productive hw hx hp)
      · rename_i hinbox
        split
        · rename_i v queue hx
          exact .inl (expand_productive hd hw hx hc)
        · rename_i hqueue
          have hheld : w.held = 0 := by
            simp only [Worker.held, hc, (Fifo.pop?_eq_none_iff _).1 hinbox,
              (Fifo.pop?_eq_none_iff _).1 hqueue, List.length_nil]
          have hlow : m.interrupt.raised = false := by simpa using hr
          exact .inr (paused_modifyWorker hw rfl fun c' hc' => h.rest hduty hp hlow hheld hc')

theorem step_cases (allowance : Nat) (hd : ∀ s v o, (l.successors i s v o).1.length ≤ sys.degree)
    (h : m.crew.Tidy) :
    Productive sys l allowance m (step sys l i m) ∨ Paused i m (step sys l i m) := by
  by_cases hi : i < m.workers.size
  case neg =>
    have hw : m.workers[i]? = none := Array.getElem?_eq_none (Nat.not_lt.1 hi)
    have hs : step sys l i m = m := by simp only [step, hw]
    rw [hs]
    exact .inr (paused_refl h fun x hx => by simp [hw] at hx)
  have hw : m.workers[i]? = some m.workers[i] := Array.getElem?_eq_getElem hi
  generalize m.workers[i] = w at hw
  have hduty := getElem?_duties hw
  cases hp : w.phase with
  | working =>
    have hs : step sys l i m = Partitioned.work sys l i w m := by simp only [step, hw, hp]
    rw [hs]
    exact work_cases hd h hw hp
  | settling =>
    have hs : step sys l i m = State.modifyWorker
        { m with outstanding := m.outstanding - w.finished } i
        fun w => { w with finished := 0, phase := .testing } := by simp only [step, hw, hp]
    rw [hs]
    exact .inr (paused_modifyWorker hw rfl fun c' hc' => h.settle hduty hp hc')
  | testing =>
    have hs : step sys l i m = State.modifyWorker m i
        fun w => { w with phase := if m.outstanding = 0 then .returned else .working } := by
      simp only [step, hw, hp]
    rw [hs]
    exact .inr (paused_modifyWorker hw rfl fun c' hc' => h.test hduty hp hc')
  | returned =>
    have hs : step sys l i m = m := by simp only [step, hw, hp]
    rw [hs]
    refine .inr (paused_refl h fun x hx => ?_)
    cases hw.symm.trans hx
    exact hp

theorem Productive.tidy {allowance : Nat} (hp : Productive sys l allowance m m')
    (h : m.crew.Tidy) : m'.crew.Tidy := by
  refine hp.turned.tidy h ?_
  have := hp.held
  rw [Crew.sum_due]
  omega

theorem step_tidy (hd : ∀ s v o, (l.successors i s v o).1.length ≤ sys.degree)
    (h : m.crew.Tidy) :
    (step sys l i m).crew.Tidy ∧ Work.Turn sys l m.work (step sys l i m).work := by
  rcases step_cases 0 hd h with hp | hq
  · exact ⟨hp.tidy h, hp.turn⟩
  · exact ⟨hq.tidy, hq.work ▸ .rest _⟩

theorem runSchedule_tidy (hd : ∀ i s v o, (l.successors i s v o).1.length ≤ sys.degree)
    (schedule : List Nat) (h : m.crew.Tidy) :
    (runSchedule sys l schedule m).crew.Tidy ∧
    Work.Moves sys l m.work (runSchedule sys l schedule m).work := by
  induction schedule generalizing m with
  | nil => exact ⟨h, .refl⟩
  | cons i rest ih =>
    obtain ⟨htidy, hturn⟩ := step_tidy (hd i) h
    obtain ⟨htidy', hmoves⟩ := ih htidy
    exact ⟨htidy', hturn.moves.trans hmoves⟩

theorem isOver_iff : m.isOver = true ↔ ∀ w ∈ m.workers, w.phase = .returned := by
  rw [State.isOver, Array.all_eq_true_iff_forall_mem]
  exact forall₂_congr fun w _ => decide_eq_true_iff

theorem isOver_crew (m : State σ ω) : m.isOver = m.crew.isOver := by
  rw [Bool.eq_iff_iff, isOver_iff, Crew.isOver_iff]
  simp only [State.crew, List.forall_mem_map, Array.mem_toList_iff]
  rfl

theorem length_duties (m : State σ ω) : m.crew.duties.length = m.workers.size := by
  rw [State.crew, List.length_map, Array.length_toList]

theorem rounds_of_isOver (h : m.isOver = true) (schedule : Schedule) (n : Nat) :
    rounds sys l schedule n m = m :=
  Schedule.rounds_of_isOver h schedule n

theorem rounds_succ (h : m.isOver = false) (schedule : Schedule) (n : Nat) :
    rounds sys l schedule (n + 1) m =
      rounds sys l schedule.tail n (runSchedule sys l (schedule 0) m) :=
  Schedule.rounds_succ h schedule n

theorem rounds_eq_runSchedule (sys : System σ) (l : Listener σ ω) (schedule : Schedule) (n : Nat)
    (m : State σ ω) : ∃ steps, rounds sys l schedule n m = runSchedule sys l steps m :=
  Schedule.exists_steps (step sys l) State.isOver schedule n m

theorem rounds_isOver {allowance : Nat} {start : Work σ ω}
    (hd : ∀ i s v o, (l.successors i s v o).1.length ≤ sys.degree)
    (hb : ∀ w, Work.Moves sys l start w → w.stats.states ≤ allowance) (schedule : Schedule)
    (n : Nat) (m : State σ ω) (hfair : schedule.Fair m.workers.size) (h : m.crew.Tidy)
    (hm : Work.Moves sys l start m.work)
    (hn : Crew.Within (m.potential sys.degree allowance) n m.crew) :
    (rounds sys l schedule n m).isOver = true ∧
      (rounds sys l schedule n m).workers.size = m.workers.size ∧
      (rounds sys l schedule n m).crew.Tidy ∧
      Work.Moves sys l start (rounds sys l schedule n m).work := by
  have hstep : ∀ (p : Nat) (m : State σ ω) (i : Nat),
      p = m.potential sys.degree allowance ∧ Work.Moves sys l start m.work → m.crew.Tidy →
      ∃ p', (p' = (step sys l i m).potential sys.degree allowance ∧
          Work.Moves sys l start (step sys l i m).work) ∧
        Crew.Step i p p' m.crew (step sys l i m).crew := by
    rintro p m i ⟨rfl, hm⟩ ht
    rcases step_cases allowance (hd i) ht with hp | hq
    · have hnext := hm.trans hp.turn.moves
      exact ⟨_, ⟨rfl, hnext⟩, .work hp.turned hp.held (hp.potential (hb _ hnext))⟩
    · exact ⟨_, ⟨rfl, hm.trans_eq hq.work⟩, .pause hq.quiet hq.tidy
        (potential_congr (congrArg Work.stats hq.work) hq.cost _ _)⟩
  obtain ⟨hover, hsize, htidy, _, -, hmoves⟩ := Crew.rounds_isOver hstep isOver_crew schedule n
    (by rwa [length_duties]) ⟨rfl, hm⟩ h hn
  rw [length_duties, length_duties] at hsize
  exact ⟨hover, hsize, htidy, hmoves⟩

/-- Before the first step every worker is at work and only seeds were sent. -/
structure Ready (m : State σ ω) : Prop where
  working : ∀ w ∈ m.workers, w.phase = .working
  count : m.outstanding = m.crew.sum Duty.due

theorem mem_duties {d : Duty} : d ∈ m.crew.duties ↔ ∃ w ∈ m.workers, w.duty = d := by
  simp only [State.crew, List.mem_map, Array.mem_toList_iff]

theorem Ready.tidy (h : Ready m) : m.crew.Tidy := by
  have hworking : ∀ d ∈ m.crew.duties, d.phase = .working := by
    intro d hd
    obtain ⟨w, hw, rfl⟩ := mem_duties.1 hd
    exact h.working w hw
  refine ⟨fun _ => h.count, fun d hd hp => ?_, fun d hd hp => ?_⟩
  all_goals
    rw [hworking d hd] at hp
    cases hp

theorem Ready.send (h : Ready m) (hr : m.interrupt.raised = false) (hpos : 0 < m.workers.size)
    (x : Message σ) : Ready (send sys x m) := by
  have ht : m.crew.Turned (Partitioned.send sys x m).crew := send_turned hpos x
  refine ⟨fun w hw => ?_, ?_⟩
  · rcases ht.duties w.duty (mem_duties.2 ⟨w, hw, rfl⟩) with ⟨-, hx⟩ | ⟨d₀, hd₀, hp, -⟩
    · cases hr.symm.trans hx
    · obtain ⟨w₀, hw₀, rfl⟩ := mem_duties.1 hd₀
      exact hp.trans (h.working w₀ hw₀)
  · have hc : (Partitioned.send sys x m).outstanding + m.crew.sum Duty.due =
        m.outstanding + (Partitioned.send sys x m).crew.sum Duty.due := ht.count hr
    have := h.count
    omega

theorem sends_ready (seeds : List σ) (hr : m.interrupt.raised = false) (hpos : 0 < m.workers.size)
    (h : Ready m) (degree allowance : Nat) :
    Ready (seeds.foldl (fun m s => send sys ⟨none, s, {}⟩ m) m) ∧
    (seeds.foldl (fun m s => send sys ⟨none, s, {}⟩ m) m).workers.size = m.workers.size ∧
    (seeds.foldl (fun m s => send sys ⟨none, s, {}⟩ m) m).work = { m.work with
      items := ↑(seeds.map fun s => WorkItem.arrival none (s, {})) + m.work.items } ∧
    (seeds.foldl (fun m s => send sys ⟨none, s, {}⟩ m) m).potential degree allowance =
      m.potential degree allowance + seeds.length := by
  induction seeds generalizing m with
  | nil => exact ⟨h, rfl, congrArg (fun items => { m.work with items }) (zero_add _).symm, rfl⟩
  | cons s rest ih =>
    have hsize : (send sys ⟨none, s, {}⟩ m).workers.size = m.workers.size := Array.size_modify
    obtain ⟨h1, h2, h3, h4⟩ := ih (m := send sys ⟨none, s, {}⟩ m) hr (hsize ▸ hpos)
      (h.send hr hpos ⟨none, s, {}⟩)
    refine ⟨h1, h2.trans hsize, h3.trans ?_, h4.trans ?_⟩
    · rw [send_work hpos]
      simp only [List.map_cons, ← Multiset.cons_coe, Multiset.cons_add, Multiset.add_cons]
      rfl
    · rw [send_potential hpos, List.length_cons]
      omega

theorem sum_replicate {M : Type} [AddCommMonoid M] (f : Worker σ → M) (hf : f {} = 0) (n : Nat)
    (store : Store σ) (o : ω) :
    ({ store, observation := o, workers := .replicate n {} } : State σ ω).sum f = 0 := by
  rw [State.sum, Array.toList_replicate, List.map_replicate, hf, List.sum_replicate, nsmul_zero]

theorem idle_of_returned (h : m.crew.Tidy) (hr : m.interrupt.raised = false) {x : Worker σ}
    (hx : x ∈ m.workers) (hp : x.phase = .returned) (hw : w ∈ m.workers) :
    w.inbox.toList = [] ∧ w.queue.toList = [] ∧ w.current = none := by
  have hz : w.held = 0 := h.held_eq_zero hr (mem_duties.2 ⟨x, hx, rfl⟩) hp
    (mem_duties.2 ⟨w, hw, rfl⟩)
  rw [Worker.held] at hz
  refine ⟨List.eq_nil_of_length_eq_zero (by omega), List.eq_nil_of_length_eq_zero (by omega), ?_⟩
  cases hc : w.current with
  | some c => rw [hc] at hz; simp at hz
  | none => rfl

theorem ends_of_isOver (h : m.crew.Tidy) (ho : m.isOver = true) (hpos : 0 < m.workers.size) :
    m.work.Ends m.toExploration := by
  refine ⟨rfl, rfl, ?_, ?_, fun hr => ?_⟩
  · exact (Array.foldl_toList _).symm.trans (SearchStats.foldl_eq Worker.stats _)
  · simp only [State.toExploration, ho, if_true]
    rfl
  · refine List.sum_eq_zero fun x hx => ?_
    obtain ⟨w, hw, rfl⟩ := List.mem_map.1 hx
    obtain ⟨hin, hqueue, hc⟩ := idle_of_returned h hr (Array.getElem_mem hpos)
      (isOver_iff.1 ho _ (Array.getElem_mem hpos)) (Array.mem_toList_iff.1 hw)
    simp only [Worker.items, Worker.edges, hin, hqueue, hc, List.map_nil, Multiset.coe_nil,
      add_zero]

theorem start_ready (sys : System σ) (seeds : List σ) (store : Store σ) (o : ω) (allowance : Nat) :
    Ready (start sys seeds store o) ∧
    (start sys seeds store o).workers.size = store.shards.size ∧
    (start sys seeds store o).work = .ofStates seeds store o ∧
    (start sys seeds store o).potential sys.degree allowance =
      allowance * (2 * sys.degree + 2) + seeds.length := by
  have hsize : 0 < (Array.replicate store.shards.size ({} : Worker σ)).size := by
    rw [Array.size_replicate]
    exact store.nonempty
  have hready : Ready
      ({ store, observation := o, workers := .replicate store.shards.size {} } : State σ ω) := by
    refine ⟨fun w hw => ?_, ?_⟩
    · rw [(Array.mem_replicate.1 hw).2]
    · refine (List.sum_eq_zero fun x hx => ?_).symm
      rw [State.crew, Array.toList_replicate, List.map_replicate, List.map_replicate] at hx
      exact List.eq_of_mem_replicate hx
  obtain ⟨h1, h2, h3, h4⟩ := @sends_ready σ ω sys _ seeds rfl hsize hready sys.degree allowance
  refine ⟨h1, h2.trans Array.size_replicate, h3.trans ?_, h4.trans ?_⟩
  · simp only [State.work, sum_replicate Worker.items rfl, sum_replicate Worker.stats rfl, add_zero]
    rfl
  · simp only [State.potential, sum_replicate Worker.cost rfl, sum_replicate Worker.stats rfl,
      SearchStats.zero_states, Nat.sub_zero, add_zero]

theorem run_ends {allowance : Nat} {seeds : Seeds σ} {store : Store σ} {o : ω}
    {schedule : Schedule} (hfair : schedule.Fair store.shards.size)
    (hd : ∀ i s v o, (l.successors i s v o).1.length ≤ sys.degree)
    (hb : ∀ w, Work.Moves sys l (.ofStates (seedStates sys seeds) store o) w →
      w.stats.states ≤ allowance) :
    ∃ w, Work.Moves sys l (.ofStates (seedStates sys seeds) store o) w ∧
      w.Ends (run sys l allowance seeds store o schedule) := by
  obtain ⟨hready, hsize, hwork, hpot⟩ := start_ready sys (seedStates sys seeds) store o allowance
  obtain ⟨hover, hs, ht, hm⟩ := rounds_isOver hd hb schedule
    (enough sys allowance (seedStates sys seeds).length)
    (start sys (seedStates sys seeds) store o) (hsize ▸ hfair) hready.tidy (hwork ▸ .refl)
    (hready.tidy.within (by rw [hpot, enough]; omega))
  exact ⟨_, hm, ends_of_isOver ht hover (by rw [hs, hsize]; exact store.nonempty)⟩

end ModelChecker.Partitioned
