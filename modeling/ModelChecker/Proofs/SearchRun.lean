import ModelChecker.Search.Explore
import ModelChecker.Proofs.BreadthFirstRun
import ModelChecker.Proofs.DepthFirstRun
import ModelChecker.Proofs.PartitionedRun
import ModelChecker.Proofs.Store

namespace ModelChecker

variable {σ ω : Type} {sys : System σ} {l : Listener σ ω} {c : SearchConfig} {seeds : Seeds σ}
  {store : Store σ} {o : ω}

/-- The work that a search starts with. Its seeds are stored beforehand, unless the store is
divided among the workers. -/
inductive SearchConfig.Begins (c : SearchConfig) (sys : System σ) (seeds : Seeds σ)
    (store : Store σ) (o : ω) : Work σ ω → Prop where
  | stored {vs store'} (hc : c.partitioned = false)
    (h : seeds.resolve sys store = .ok (vs, store')) :
    Begins c sys seeds store o (.ofSeeds vs store' o)
  | sent (hc : c.partitioned = true) :
    Begins c sys seeds store o (.ofStates (Partitioned.seedStates sys seeds) store o)

theorem SearchConfig.workerCount_pos (c : SearchConfig) : 0 < c.workerCount :=
  Nat.lt_of_lt_of_le Nat.zero_lt_one (Nat.le_max_right _ _)

section newStore
variable (c : SearchConfig)

theorem SearchConfig.canonical_newStore (sys : System σ)
    (hw : c.partitioned = true → c.workerCount ≤ UInt32.size) :
    (c.newStore : Store σ).Canonical sys := by
  refine Store.canonical_ofShards sys _ _ ?_
  split
  · exact hw ‹_›
  · decide

theorem SearchConfig.vertices_newStore : (c.newStore : Store σ).vertices = [] :=
  Store.vertices_ofShards _ _

theorem SearchConfig.size_newStore (hp : c.partitioned = true) :
    (c.newStore : Store σ).shards.size = c.workerCount := by
  rw [SearchConfig.newStore, if_pos hp, Store.ofShards, Array.size_ofFn]
  exact max_eq_left c.workerCount_pos

end newStore

/-- A search ends if its schedule is fair, provided that it expands no more states than the extent of
the system. -/
theorem SearchConfig.search_ends {schedule : Schedule} (hfair : schedule.Fair c.workerCount)
    (hclosed : ∀ v s o, l.closed 0 v s o = (.process, s, o))
    (hd : ∀ i s v o, (l.successors i s v o).1.length ≤ sys.degree)
    (hsize : c.partitioned = true → store.shards.size = c.workerCount)
    (hres : c.partitioned = false → ∃ r, seeds.resolve sys store = .ok r)
    (hb : ∀ w₀ w, c.Begins sys seeds store o w₀ → Work.Moves sys l w₀ w →
      w.stats.states ≤ sys.extent ∧ w.admitted < UInt64.size) :
    ∃ e w₀ w, c.search sys l seeds store o schedule = .ok e ∧ c.Begins sys seeds store o w₀ ∧
      Work.Moves sys l w₀ w ∧ w.Ends e := by
  unfold SearchConfig.search
  cases hc : c.partitioned with
  | true =>
    have hfair' : schedule.Fair store.shards.size := by rwa [hsize hc]
    obtain ⟨w, hm, he⟩ := Partitioned.run_ends hfair' hd fun w hw => (hb _ w (.sent hc) hw).1
    refine ⟨_, _, w, ?_, .sent hc, hm, he⟩
    rw [if_pos rfl, explorePartitioned, if_pos (hsize hc).symm]
  | false =>
    obtain ⟨⟨vs, store'⟩, hr⟩ := hres hc
    have hb' := fun w hw => hb _ w (.stored hc hr) hw
    rw [if_neg Bool.false_ne_true]
    unfold explore
    rw [if_neg c.workerCount_pos.ne']
    cases c.order with
    | breadthFirst =>
      obtain ⟨w, hm, he⟩ := BreadthFirst.run_ends c.workerCount_pos hfair hr hd
        (fun w hw => (hb' w hw).1) fun w hw => (hb' w hw).2
      exact ⟨_, _, w, rfl, .stored hc hr, hm, he⟩
    | depthFirst =>
      obtain ⟨w, hm, he⟩ := DepthFirst.run_ends hr hclosed (hd 0) fun w hw => (hb' w hw).1
      exact ⟨_, _, w, rfl, .stored hc hr, hm, he⟩

theorem Exploration.finished_ok {e : Exploration σ ω} {i : Interrupt}
    (he : e.ending = some i.ending) (hi : i.failure = none) : ∃ b, e.finished = .ok b := by
  unfold Exploration.finished
  rw [he, Interrupt.ending, hi]
  cases i.raised with
  | true => exact ⟨true, rfl⟩
  | false => exact ⟨false, rfl⟩

end ModelChecker
