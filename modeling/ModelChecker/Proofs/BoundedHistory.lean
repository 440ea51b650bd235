import Mathlib.Data.List.Chain
import ModelChecker.Proofs.BoundedLevels

namespace ModelChecker.Bounded

variable {σ : Type}

/-- A round: what it looks for, its schedule and seeds, and what the rounds before it left. -/
structure Round (σ : Type) where
  query : Query
  schedule : Schedule
  seeds : Seeds σ
  before : State σ

/-- The rounds of one level. -/
def levelRounds (sys : System σ) (c : SearchConfig) (q : Query) (timetable : Timetable) :
    Nat → Seeds σ → State σ → List (Round σ)
  | 0, _, _ => []
  | n + 1, seeds, m => ⟨q, timetable.search q.level n, seeds, m⟩ ::
    match round sys c q (timetable.search q.level n) seeds m with
    | .error _ => []
    | .ok m =>
      if m.observation.found.isSome || !q.reduction then []
      else
        let o := m.observation.retainReduced
        match Elimination.eliminate o.cyclicEdges c.workerCount
            (timetable.elimination q.level n) with
        | .error _ => []
        | .ok marked =>
          if marked.isEmpty then []
          else
            levelRounds sys c q timetable n (.vertices marked)
              { m with observation := o.reopen marked }

/-- The rounds of all levels from the given one on. -/
def searchRounds (sys : System σ) (c : SearchConfig) (bound : Nat) (timetable : Timetable) :
    Nat → Nat → State σ → List (Round σ)
  | 0, _, _ => []
  | n + 1, level, m =>
    let q := levelQuery c bound level
    levelRounds sys c q timetable (sys.extent + 1) (levelSeeds m level) m ++
      match exploreLevel sys c q timetable (sys.extent + 1) (levelSeeds m level) m with
      | .error _ => []
      | .ok next =>
        if next.observation.found.isSome || next.stats.states = m.stats.states || bound ≤ level then []
        else searchRounds sys c bound timetable n (level + 1) next

def Round.run (sys : System σ) (c : SearchConfig) (r : Round σ) : Except SearchError (State σ) :=
  round sys c r.query r.schedule r.seeds r.before

/-- The round `r` ended with `m`, without a violation. -/
structure Round.Leaves (sys : System σ) (c : SearchConfig) (r : Round σ) (m : State σ) : Prop where
  run : r.run sys c = .ok m
  found : m.observation.found = none

abbrev State.reopened (m : State σ) (marked : List (Vertex σ)) : State σ :=
  { m with observation := m.observation.retainReduced.reopen marked }

/-- How one round follows from another. -/
inductive Round.Follows (sys : System σ) (c : SearchConfig) (timetable : Timetable) (r : Round σ) :
    Round σ → Prop where
  | again {m : State σ} {marked : List (Vertex σ)} {k : Nat} (n : Nat) (h : r.Leaves sys c m)
    (helim : Elimination.eliminate m.observation.retainReduced.cyclicEdges c.workerCount
      (timetable.elimination r.query.level k) = .ok marked) (hne : marked ≠ []) :
    Follows sys c timetable r
      ⟨r.query, timetable.search r.query.level n, .vertices marked, m.reopened marked⟩
  | deeper {m : State σ} {o : Observation σ} (n : Nat) (h : r.Leaves sys c m)
    (ho : o = m.observation ∨ o = m.observation.retainReduced)
    (hlevel : r.query.level < r.query.bound) :
    Follows sys c timetable r ⟨{ r.query with level := r.query.level + 1 },
      timetable.search (r.query.level + 1) n,
      .vertices (State.waitingAt { m with observation := o } (r.query.level + 1)),
      { m with observation := o }⟩

variable {sys : System σ} {c : SearchConfig} {q : Query} {seeds : Seeds σ} {m next : State σ}
  {bound n level : Nat} {timetable : Timetable}

theorem round_eq_ok {schedule : Schedule} {m' : State σ}
    (h : round sys c q schedule seeds m = .ok m') :
    ∃ e b, c.search sys (listener sys q) seeds m.store m.observation schedule = .ok e ∧
      e.finished = .ok b ∧ m'.store = e.store ∧ m'.observation = e.observation := by
  unfold round at h
  simp only [bind, Except.bind] at h
  cases hsearch : c.search sys (listener sys q) seeds m.store m.observation schedule with
  | error f =>
    rw [hsearch] at h
    cases h
  | ok e =>
    rw [hsearch] at h
    dsimp only [Except.mapError] at h
    split at h
    · cases h
    · split at h
      · cases h
      · rename_i b hfin
        cases h
        exact ⟨e, b, rfl, hfin, rfl, rfl⟩

theorem head?_levelRounds {r : Round σ} (h : r ∈ (levelRounds sys c q timetable n seeds m).head?) :
    ∃ k, r = ⟨q, timetable.search q.level k, seeds, m⟩ := by
  cases n with
  | zero => cases h
  | succ n => exact ⟨n, (Option.some.inj h).symm⟩

/-- What the first round of a level leads to: the rounds after it, and the result of the level. -/
inductive LevelStep (sys : System σ) (c : SearchConfig) (timetable : Timetable) (n : Nat)
    (r : Round σ) : List (Round σ) → Except SearchError (State σ) → Prop where
  | failed {e : SearchError} : LevelStep sys c timetable n r [] (.error e)
  | finished {m : State σ} {o : Observation σ} (hrun : r.run sys c = .ok m)
    (ho : o = m.observation ∨ o = m.observation.retainReduced) :
    LevelStep sys c timetable n r [] (.ok { m with observation := o })
  | again {m : State σ} {marked : List (Vertex σ)} (h : r.Leaves sys c m)
    (helim : Elimination.eliminate m.observation.retainReduced.cyclicEdges c.workerCount
      (timetable.elimination r.query.level n) = .ok marked) (hne : marked ≠ []) :
    LevelStep sys c timetable n r
      (levelRounds sys c r.query timetable n (.vertices marked) (m.reopened marked))
      (exploreLevel sys c r.query timetable n (.vertices marked) (m.reopened marked))

theorem levelRounds_succ (sys : System σ) (c : SearchConfig) (q : Query) (timetable : Timetable)
    (n : Nat) (seeds : Seeds σ) (m : State σ) :
    ∃ rest, levelRounds sys c q timetable (n + 1) seeds m =
        ⟨q, timetable.search q.level n, seeds, m⟩ :: rest ∧
      LevelStep sys c timetable n ⟨q, timetable.search q.level n, seeds, m⟩ rest
        (exploreLevel sys c q timetable (n + 1) seeds m) := by
  refine ⟨_, rfl, ?_⟩
  unfold exploreLevel
  simp only [bind, Except.bind]
  cases hrun : round sys c q (timetable.search q.level n) seeds m with
  | error e => exact .failed
  | ok m' =>
    dsimp only
    split
    · exact .finished hrun (.inl rfl)
    · rename_i hgo
      have hfound : m'.observation.found = none := by
        simp only [Bool.or_eq_true, not_or, Bool.not_eq_true] at hgo
        exact Option.not_isSome_iff_eq_none.1 (Bool.eq_false_iff.1 hgo.1)
      cases helim : Elimination.eliminate m'.observation.retainReduced.cyclicEdges c.workerCount
          (timetable.elimination q.level n) with
      | error f => exact .failed
      | ok marked =>
        dsimp only
        split
        · exact .finished hrun (.inr rfl)
        · rename_i hne
          exact .again ⟨hrun, hfound⟩ helim (by simpa using hne)

theorem levelRounds_chain :
    (levelRounds sys c q timetable n seeds m).IsChain (Round.Follows sys c timetable) := by
  induction n generalizing seeds m with
  | zero => exact .nil
  | succ n ih =>
    obtain ⟨rest, heq, hstep⟩ := levelRounds_succ sys c q timetable n seeds m
    rw [heq]
    generalize exploreLevel sys c q timetable (n + 1) seeds m = result at hstep
    cases hstep with
    | failed => exact .singleton _
    | finished => exact .singleton _
    | again h helim hne =>
      refine List.isChain_cons.2 ⟨fun r hr => ?_, ih⟩
      obtain ⟨k, rfl⟩ := head?_levelRounds hr
      exact .again k h helim hne

theorem getLast?_levelRounds (h : exploreLevel sys c q timetable n seeds m = .ok next)
    {r : Round σ} (hr : r ∈ (levelRounds sys c q timetable n seeds m).getLast?) : r.query = q ∧
      ∃ m o, r.run sys c = .ok m ∧ next = { m with observation := o } ∧
        (o = m.observation ∨ o = m.observation.retainReduced) := by
  induction n generalizing seeds m with
  | zero => cases h
  | succ n ih =>
    obtain ⟨rest, heq, hstep⟩ := levelRounds_succ sys c q timetable n seeds m
    rw [heq] at hr
    rw [h] at hstep
    generalize hnext : (Except.ok next : Except SearchError (State σ)) = result at hstep
    cases hstep with
    | failed => cases hnext
    | finished hrun ho =>
      cases hnext
      cases hr
      exact ⟨rfl, _, _, hrun, rfl, ho⟩
    | again =>
      cases n with
      | zero => cases hnext
      | succ n =>
        refine ih hnext.symm ?_
        obtain ⟨rest', heq', -⟩ := levelRounds_succ sys c q timetable n _ _
        rw [heq'] at hr ⊢
        exact hr

theorem head?_searchRounds {r : Round σ}
    (h : r ∈ (searchRounds sys c bound timetable n level m).head?) :
    ∃ k, r = ⟨levelQuery c bound level, timetable.search level k, levelSeeds m level, m⟩ := by
  cases n with
  | zero => cases h
  | succ n => exact ⟨sys.extent, (Option.some.inj h).symm⟩

theorem searchRounds_chain :
    (searchRounds sys c bound timetable n level m).IsChain (Round.Follows sys c timetable) := by
  induction n generalizing level m with
  | zero => exact .nil
  | succ n ih =>
    unfold searchRounds
    dsimp only
    split
    · rw [List.append_nil]
      exact levelRounds_chain
    · rename_i next hlevel
      split
      · rw [List.append_nil]
        exact levelRounds_chain
      · rename_i hgo
        refine List.isChain_append.2 ⟨levelRounds_chain, ih, fun r hr r' hr' => ?_⟩
        obtain ⟨hq, m', o, hrun, rfl, ho⟩ := getLast?_levelRounds hlevel hr
        simp only [Bool.or_eq_true, decide_eq_true_eq, not_or, Nat.not_le] at hgo
        have hfound : m'.observation.found = none := by
          rcases ho with rfl | rfl <;> exact Option.not_isSome_iff_eq_none.1 hgo.1.1
        obtain ⟨k, rfl⟩ := head?_searchRounds hr'
        obtain ⟨q, schedule, seeds, before⟩ := r
        cases hq
        exact .deeper k ⟨hrun, hfound⟩ ho hgo.2

theorem getLast?_searchRounds {all : Bool} {m' : State σ}
    (h : exploreLevels sys c bound timetable n level m = .ok (all, m')) :
    ∃ r, (searchRounds sys c bound timetable n level m).getLast? = some r ∧
      ∃ m o, r.run sys c = .ok m ∧ m' = { m with observation := o } ∧
        (o = m.observation ∨ o = m.observation.retainReduced) := by
  induction n generalizing level m with
  | zero => cases h
  | succ n ih =>
    obtain ⟨next, hlevel, hd⟩ := exploreLevels_eq_ok h
    unfold searchRounds
    simp only [hlevel]
    -- the last round of this level leaves what the level does
    have hlast : ∃ r, (levelRounds sys c (levelQuery c bound level) timetable (sys.extent + 1)
        (levelSeeds m level) m).getLast? = some r ∧ ∃ m o,
          r.run sys c = .ok m ∧ next = { m with observation := o } ∧
            (o = m.observation ∨ o = m.observation.retainReduced) := by
      obtain ⟨rest, heq, -⟩ := levelRounds_succ sys c (levelQuery c bound level) timetable sys.extent
        (levelSeeds m level) m
      have hlast := List.getLast?_eq_some_getLast (heq ▸ List.cons_ne_nil _ rest)
      exact ⟨_, hlast, (getLast?_levelRounds hlevel hlast).2⟩
    cases hd with
    | found hf =>
      rw [if_pos (by simp [hf]), List.append_nil]
      exact hlast
    | closed _ hs =>
      rw [if_pos (by simp [hs]), List.append_nil]
      exact hlast
    | bounded _ _ hb =>
      rw [if_pos (by simp [hb]), List.append_nil]
      exact hlast
    | deeper hf hs hb hrun =>
      obtain ⟨r, hr, hleft⟩ := ih hrun
      refine ⟨r, ?_, hleft⟩
      rw [if_neg (by simp [hf, hs, hb]), List.getLast?_append, hr]
      rfl

end ModelChecker.Bounded
