import ModelChecker.Proofs.Events

namespace ModelChecker

variable {σ ω : Type}

namespace DepthFirst

def moments (sys : System σ) (l : Listener σ ω) : Nat → State σ ω → List (Work σ ω)
  | 0, m => [m.work]
  | n + 1, m =>
    if m.ending.isSome then [m.work]
    else m.work :: ((m.followed? sys l).toList ++ moments sys l n (step sys l m))

variable {l : Listener σ ω}

theorem moments_trail (sys : System σ) (hclosed : ∀ v s o, l.closed 0 v s o = (.process, s, o))
    (n : Nat) (m : State σ ω) : Work.Trail sys l m.work (moments sys l n m) (steps sys l n m).work := by
  induction n generalizing m with
  | zero => exact .single _
  | succ n ih =>
    unfold moments steps
    cases hm : m.ending with
    | some e => exact .single _
    | none =>
      have htrail := ih (step sys l m)
      cases hf : m.followed? sys l with
      | some w =>
        obtain ⟨hmove, hturn⟩ := followed_turn hm hf
        exact .cons (.move hmove) (.cons hturn htrail)
      | none =>
        refine .cons ?_ htrail
        rw [step_work hclosed hm hf]
        exact .rest m.work

end DepthFirst

namespace BreadthFirst

def moments (sys : System σ) (l : Listener σ ω) : Schedule → Nat → State σ ω → List (Work σ ω) :=
  roundMoments (fun m i => step sys l i m) State.isOver State.work

/-- The moments while the seeds are planted, and those of the search from what was planted. -/
def seededMoments (sys : System σ) (l : Listener σ ω) (workers allowance : Nat)
    (vs : List (Vertex σ × Bool)) (store : Store σ) (o : ω) (schedule : Schedule) :
    List (Work σ ω) :=
  let empty : QueueView (Vertex σ) := ⟨.ofChunkSize _ ChunkedQueue.defaultChunk, {}⟩
  plantMoments l workers store 0 vs o empty ++
    match plant l workers 0 vs o empty with
    | (true, _, _) => []
    | (false, o, view) =>
      moments sys l schedule (enough sys allowance) (start workers view.flush.queue store o)

variable {sys : System σ} {l : Listener σ ω}

section
variable {start : Work σ ω} {allowance : Nat}
  (hd : ∀ i s v o, (l.successors i s v o).1.length ≤ sys.degree)
  (hb : ∀ w, Work.Moves sys l start w → w.stats.states ≤ allowance)
  (hword : ∀ w, Work.Moves sys l start w → w.admitted < UInt64.size)
include hd hb hword

theorem moments_trail {m : State σ ω} (h : Tidy m m.workers.toList)
    (hm : Work.Moves sys l start m.work) (schedule : Schedule) (n : Nat) :
    Work.Trail sys l m.work (moments sys l schedule n m) (rounds sys l schedule n m).work := by
  refine roundMoments_trail (P := fun m => Tidy m m.workers.toList ∧
    Work.Moves sys l start m.work) (fun m i hm => ?_) (fun _ _ => rfl) (fun _ _ _ => rfl) schedule n
    ⟨h, hm⟩
  obtain ⟨htidy, hturn, -⟩ := step_cases (hd i) hm.1 (hword _ hm.2)
    fun w hw => hb w (hm.2.trans hw)
  exact ⟨⟨htidy, hm.2.trans hturn.moves⟩, hturn⟩

end

theorem seededMoments_trail {allowance : Nat} {seeds : Seeds σ} {store store' : Store σ} {o : ω}
    {vs : List (Vertex σ × Bool)} (workers : Nat) (schedule : Schedule)
    (hr : seeds.resolve sys store = .ok (vs, store'))
    (hd : ∀ i s v o, (l.successors i s v o).1.length ≤ sys.degree)
    (hb : ∀ w, Work.Moves sys l (.ofSeeds vs store' o) w → w.stats.states ≤ allowance)
    (hword : ∀ w, Work.Moves sys l (.ofSeeds vs store' o) w → w.admitted < UInt64.size) :
    ∃ w, Work.Trail sys l (.ofSeeds vs store' o)
        (seededMoments sys l workers allowance vs store' o schedule) w ∧
      (run sys l workers allowance seeds store o schedule).store = w.store ∧
      (run sys l workers allowance seeds store o schedule).observation = w.observation := by
  have hplant := plant_trail sys l workers store' 0 vs o _ fresh_empty
  rw [planted_empty] at hplant
  unfold run seededMoments
  rw [hr]
  dsimp only
  split at hplant
  · rename_i o' view heq
    obtain ⟨htrail, hfresh⟩ := hplant
    rw [heq]
    have hwork := hfresh.start_work workers store' o'
    have hrun := moments_trail hd hb hword (hfresh.start_tidy workers store' o')
      (hwork ▸ htrail.moves) schedule (enough sys allowance)
    rw [hwork] at hrun
    exact ⟨_, htrail.trans (.rest _) hrun, rfl, rfl⟩
  · rename_i o' view heq
    obtain ⟨rest, view', htrail⟩ := hplant
    rw [heq, List.append_nil]
    exact ⟨_, htrail, rfl, rfl⟩

end BreadthFirst

namespace Partitioned

def moments (sys : System σ) (l : Listener σ ω) : Schedule → Nat → State σ ω → List (Work σ ω) :=
  roundMoments (fun m i => step sys l i m) State.isOver State.work

theorem moments_trail {sys : System σ} {l : Listener σ ω}
    (hd : ∀ i s v o, (l.successors i s v o).1.length ≤ sys.degree) {m : State σ ω}
    (h : m.crew.Tidy) (schedule : Schedule) (n : Nat) :
    Work.Trail sys l m.work (moments sys l schedule n m) (rounds sys l schedule n m).work := by
  refine roundMoments_trail (P := fun m => m.crew.Tidy) (fun m i hm => ?_) (fun _ _ => rfl) (fun _ _ _ => rfl)
    schedule n h
  exact step_tidy (hd i) hm

end Partitioned

namespace SearchConfig

/-- The moments of the search that a configuration asks for. There are none if its seeds cannot all
be stored beforehand. -/
def moments (c : SearchConfig) (sys : System σ) (l : Listener σ ω) (seeds : Seeds σ)
    (store : Store σ) (o : ω) (schedule : Schedule) : List (Work σ ω) :=
  if c.partitioned then
    if c.workerCount = store.shards.size then
      let states := Partitioned.seedStates sys seeds
      Partitioned.moments sys l schedule (Partitioned.enough sys sys.extent states.length)
        (Partitioned.start sys states store o)
    else []
  else
    match seeds.resolve sys store with
    | .error _ => []
    | .ok (vs, store) =>
      match c.order with
      | .breadthFirst =>
        BreadthFirst.seededMoments sys l c.workerCount sys.extent vs store o schedule
      | .depthFirst =>
        DepthFirst.moments sys l (DepthFirst.enough sys sys.extent vs.length)
          { agenda := vs.map fun (v, isNew) => .seed v isNew, store, observation := o }

variable {c : SearchConfig} {sys : System σ} {l : Listener σ ω} {seeds : Seeds σ}
  {store : Store σ} {o : ω}

/-- The moments lead from the start of a search to its result. -/
theorem moments_cases (schedule : Schedule)
    (hclosed : ∀ v s o, l.closed 0 v s o = (.process, s, o))
    (hd : ∀ i s v o, (l.successors i s v o).1.length ≤ sys.degree)
    (hsize : c.partitioned = true → store.shards.size = c.workerCount)
    (hb : ∀ w₀ w, c.Begins sys seeds store o w₀ → Work.Moves sys l w₀ w →
      w.stats.states ≤ sys.extent ∧ w.admitted < UInt64.size) :
    (∃ e w₀ w, c.search sys l seeds store o schedule = .ok e ∧ c.Begins sys seeds store o w₀ ∧
      Work.Trail sys l w₀ (c.moments sys l seeds store o schedule) w ∧
      e.store = w.store ∧ e.observation = w.observation) ∨
    c.moments sys l seeds store o schedule = [] ∧ ∃ x s',
      c.search sys l seeds store o schedule = .ok ⟨s', o, {}, some (.exhausted x)⟩ := by
  unfold SearchConfig.search moments
  cases hc : c.partitioned with
  | true =>
    obtain ⟨hready, -, hwork, -⟩ := Partitioned.start_ready sys (Partitioned.seedStates sys seeds)
      store o sys.extent
    have htrail := Partitioned.moments_trail hd hready.tidy schedule
      (Partitioned.enough sys sys.extent (Partitioned.seedStates sys seeds).length)
    rw [hwork] at htrail
    rw [if_pos rfl, if_pos rfl, explorePartitioned, if_pos (hsize hc).symm, if_pos (hsize hc).symm]
    exact .inl ⟨_, _, _, rfl, .sent hc, htrail, rfl, rfl⟩
  | false =>
    rw [if_neg Bool.false_ne_true, if_neg Bool.false_ne_true]
    unfold explore
    rw [if_neg c.workerCount_pos.ne']
    cases hr : seeds.resolve sys store with
    | error p =>
      obtain ⟨x, s'⟩ := p
      refine .inr ⟨rfl, x, s', ?_⟩
      cases c.order with
      | breadthFirst => simp only [BreadthFirst.run, hr]
      | depthFirst => simp only [DepthFirst.run, hr]
    | ok p =>
      obtain ⟨vs, store'⟩ := p
      have hb := fun w hw => hb _ w (.stored hc hr) hw
      left
      cases c.order with
      | breadthFirst =>
        obtain ⟨w, htrail, hstore, hobs⟩ := BreadthFirst.seededMoments_trail c.workerCount
          schedule hr hd (fun w hw => (hb w hw).1) fun w hw => (hb w hw).2
        exact ⟨_, _, w, rfl, .stored hc hr, htrail, hstore, hobs⟩
      | depthFirst =>
        have htrail := DepthFirst.moments_trail sys hclosed
          (DepthFirst.enough sys sys.extent vs.length)
          { agenda := vs.map fun s => .seed s.1 s.2, store := store', observation := o }
        rw [DepthFirst.work_seeds] at htrail
        refine ⟨_, _, _, rfl, .stored hc hr, htrail, ?_, ?_⟩
        · simp only [DepthFirst.run, hr]
          rfl
        · simp only [DepthFirst.run, hr]
          rfl

end SearchConfig

end ModelChecker
