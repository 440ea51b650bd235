import ModelChecker.Proofs.Erasure
import ModelChecker.Proofs.Tour
import ModelChecker.Proofs.Store
import ModelChecker.Proofs.DepthFirstRun

namespace ModelChecker

theorem System.store_state {σ : Type} {sys : System σ} (hsame : ∀ a b, sys.same a b = true → a = b)
    {s s' : Store σ} {x : σ} {t : Vertex σ} {isNew : Bool}
    (h : sys.store s x = .ok ⟨t, isNew, s'⟩) : t.state = x := by
  have hadopts := s.adopts sys.same (sys.fingerprint x) x
  unfold Store.adopt at hadopts
  unfold System.store Store.insert Store.insertAt at h
  generalize s.adoptAt (s.shardOf (sys.fingerprint x)) sys.same (sys.fingerprint x) x = r at h hadopts
  cases hadopts with
  | found hfind =>
    cases h
    obtain ⟨slot, -, hslot⟩ := List.exists_of_findSome?_eq_some hfind
    exact hsame _ _ (Option.filter_eq_some_iff.1 hslot).2
  | exhausted => cases h
  | crowded => cases h
  | added hfind hroom hfit hv =>
    cases h
    rw [hv]

def Action.toStep : Action → Step
  | .terminate => .stop
  | .ignore => .skip
  | .process | .asNeeded => .expand

namespace Listener

variable {σ ω : Type} (l : Listener σ ω) (i : Nat) (source : Option (Vertex σ)) (t : Vertex σ)
  (flags : EdgeFlags) (isNew : Bool) (o : ω)

theorem follow_of_follows (h : (l.edge i source t flags isNew o).1.follows isNew = true) :
    l.follow i source t flags isNew o =
      ((l.state i t (l.edge i source t flags isNew o).2).1.toStep,
        (l.state i t (l.edge i source t flags isNew o).2).2) := by
  unfold follow
  generalize l.edge i source t flags isNew o = told at h ⊢
  obtain ⟨action, o₁⟩ := told
  rcases hstate : l.state i t o₁ with ⟨answer, o₂⟩
  cases action <;> cases isNew <;> cases answer <;>
    simp_all [Action.follows, Action.toStep]

theorem follow_of_not_follows (h : (l.edge i source t flags isNew o).1.follows isNew = false) :
    l.follow i source t flags isNew o =
      (if (l.edge i source t flags isNew o).1 = .terminate then .stop else .skip,
        (l.edge i source t flags isNew o).2) := by
  unfold follow
  generalize l.edge i source t flags isNew o = told at h ⊢
  obtain ⟨action, o₁⟩ := told
  cases action <;> cases isNew <;> simp_all [Action.follows]

end Listener

namespace DepthFirst

variable {σ ω : Type}

/-- The same listener, with a record of all that it is told or asked for. -/
def chronicled (l : Listener σ ω) : Listener σ (ω × List (Call σ)) where
  edge worker source t flags isNew o :=
    let answer := l.edge worker source t flags isNew o.1
    (answer.1, answer.2, o.2 ++ [.edge source t flags isNew answer.1])
  state worker v o :=
    let answer := l.state worker v o.1
    (answer.1, answer.2, o.2 ++ [.state v answer.1])
  deadlocked worker v o :=
    let answer := l.deadlocked worker v o.1
    (answer.1, answer.2, o.2 ++ [.deadlocked v answer.1])
  successors worker store v o :=
    let answer := l.successors worker store v o.1
    (answer.1, answer.2, o.2 ++ [.successors v answer.1])
  closed worker v store o :=
    let answer := l.closed worker v store o.1
    (answer.1, answer.2.1, answer.2.2, o.2 ++ [.closed v answer.1])

theorem chronicled_lifts (l : Listener σ ω) : (chronicled l).Lifts Prod.fst l :=
  ⟨fun _ _ _ _ _ _ => rfl, fun _ _ _ => rfl, fun _ _ _ => rfl, fun _ _ _ _ => rfl,
    fun _ _ _ _ => rfl⟩

/-- The calls that tell of an edge and perhaps of its target, by what they lead to. -/
inductive Told (source : Option (Vertex σ)) (t : Vertex σ) (flags : EdgeFlags) (isNew : Bool) :
    Step → List (Call σ) → Prop where
  | pass {answer} (hf : answer.follows isNew = false) (hn : answer ≠ .terminate) :
    Told source t flags isNew .skip [.edge source t flags isNew answer]
  | stop : Told source t flags isNew .stop [.edge source t flags isNew .terminate]
  | decline {answer} (hf : answer.follows isNew = true) :
    Told source t flags isNew .skip [.edge source t flags isNew answer, .state t .ignore]
  | stopState {answer} (hf : answer.follows isNew = true) :
    Told source t flags isNew .stop [.edge source t flags isNew answer, .state t .terminate]
  | enter {answer answer'} (hf : answer.follows isNew = true) (ha : answer'.accepts = true) :
    Told source t flags isNew .expand [.edge source t flags isNew answer, .state t answer']

theorem follow_told (l : Listener σ ω) (i : Nat) (source : Option (Vertex σ)) (t : Vertex σ)
    (flags : EdgeFlags) (isNew : Bool) (o : ω × List (Call σ)) :
    ∃ calls, ((chronicled l).follow i source t flags isNew o).2.2 = o.2 ++ calls ∧
      Told source t flags isNew ((chronicled l).follow i source t flags isNew o).1 calls := by
  cases hf : ((chronicled l).edge i source t flags isNew o).1.follows isNew with
  | true =>
    refine ⟨[.edge source t flags isNew (l.edge i source t flags isNew o.1).1,
      .state t (l.state i t (l.edge i source t flags isNew o.1).2).1], ?_⟩
    rw [Listener.follow_of_follows _ _ _ _ _ _ _ hf]
    refine ⟨List.append_assoc .., ?_⟩
    change Told source t flags isNew (l.state i t (l.edge i source t flags isNew o.1).2).1.toStep _
    cases (l.state i t (l.edge i source t flags isNew o.1).2).1 with
    | process => exact .enter hf rfl
    | ignore => exact .decline hf
    | asNeeded => exact .enter hf rfl
    | terminate => exact .stopState hf
  | false =>
    refine ⟨[.edge source t flags isNew (l.edge i source t flags isNew o.1).1], ?_⟩
    rw [Listener.follow_of_not_follows _ _ _ _ _ _ _ hf]
    refine ⟨rfl, ?_⟩
    change Told source t flags isNew
      (if (l.edge i source t flags isNew o.1).1 = .terminate then .stop else .skip) _
    by_cases ht : (l.edge i source t flags isNew o.1).1 = .terminate
    · rw [if_pos ht, ht]
      exact .stop
    · rw [if_neg ht]
      exact .pass hf ht

theorem expand_told (l : Listener σ ω) (i : Nat) (store : Store σ) (v : Vertex σ)
    (stats : SearchStats) (o : ω × List (Call σ)) :
    ∃ next d, ((chronicled l).expand i store v stats o).2.2.2 =
        o.2 ++ (.successors v next :: deadlockCalls v next d) ∧
      ((chronicled l).expand i store v stats o).2.1.states = stats.states + 1 ∧
      ((chronicled l).expand i store v stats o).2.1.edges = stats.edges + next.length ∧
      ((chronicled l).expand i store v stats o).1 =
        if (deadlockCalls v next d).any Call.halts then none else some next := by
  obtain ⟨o, w⟩ := o
  rcases hnext : l.successors i store v o with ⟨_ | ⟨n, rest⟩, o₁⟩
  · rcases hdead : l.deadlocked i v o₁ with ⟨d, o₂⟩
    refine ⟨[], d, ?_⟩
    cases d <;>
      simp [Listener.expand, chronicled, hnext, hdead, deadlockCalls, Call.halts]
  · exact ⟨n :: rest, .ignore, by simp [Listener.expand, chronicled, hnext, deadlockCalls]⟩

namespace Told

variable {source : Option (Vertex σ)} {t : Vertex σ} {flags : EdgeFlags} {isNew : Bool}
  {step : Step} {calls : List (Call σ)}

theorem tour (h : Told source t flags isNew step calls) (hs : step ≠ .expand) :
    Tour source [(t.state, flags)] calls := by
  cases h with
  | pass hf => exact .pass hf .nil
  | stop => exact .pass rfl .nil
  | decline hf => exact .decline hf rfl .nil
  | stopState hf => exact .decline hf rfl .nil
  | enter => exact absurd rfl hs

theorem expansions_eq (h : Told source t flags isNew step calls) : expansions calls = [] := by
  cases h <;> rfl

theorem any_halts (h : Told source t flags isNew step calls) :
    calls.any Call.halts = decide (step = .stop) := by
  have hne : ∀ answer : Action, answer.follows isNew = true → answer ≠ .terminate := by
    rintro _ hf rfl
    cases hf
  cases h with
  | pass hf hn => simp [Call.halts, hn]
  | stop => simp [Call.halts]
  | decline hf => simp [Call.halts, hne _ hf]
  | stopState hf => simp [Call.halts]
  | @enter answer answer' hf ha =>
    have ha : answer' ≠ .terminate := by
      rintro rfl
      cases ha
    simp [Call.halts, hne _ hf, ha]

end Told

def Task.arrival? : Task σ → Option (Option (Vertex σ) × Successor σ)
  | .seed v _ => some (none, v.state, {})
  | .edge source next => some (some source, next)
  | .close _ => none

/-- Calls that see an agenda through to its end. -/
inductive Performs : List (Task σ) → List (Call σ) → Prop where
  | nil : Performs [] []
  | arrival {task source next rest w w'} (ht : Task.arrival? task = some (source, next))
    (hw : Tour source [next] w) (hr : Performs rest w') : Performs (task :: rest) (w ++ w')
  | close {v answer rest w} (hr : Performs rest w) :
    Performs (.close v :: rest) (.closed v answer :: w)

theorem exists_performs (agenda : List (Task σ)) : ∃ w, Performs agenda w := by
  induction agenda with
  | nil => exact ⟨[], .nil⟩
  | cons task rest ih =>
    obtain ⟨w, hw⟩ := ih
    have hpass : ∀ source flags (t : Vertex σ),
        Tour source [(t.state, flags)] [.edge source t flags false .ignore] :=
      fun _ _ _ => .pass rfl .nil
    cases task with
    | seed v isNew => exact ⟨_, .arrival rfl (hpass none {} v) hw⟩
    | edge source next => exact ⟨_, .arrival rfl (hpass (some source) next.2 ⟨default, 0, next.1⟩) hw⟩
    | close v => exact ⟨.closed v .ignore :: w, .close hw⟩

/-- To see through the agenda of an opened vertex is to tour its successors, to close it, and to see
through the rest. -/
theorem Performs.opened {v : Vertex σ} {next : List (Successor σ)} {rest : List (Task σ)}
    {w : List (Call σ)} (h : Performs (next.map (Task.edge v) ++ .close v :: rest) w) :
    ∃ inside c w', w = inside ++ .closed v c :: w' ∧ Tour (some v) next inside ∧
      Performs rest w' := by
  induction next generalizing w with
  | nil =>
    cases h with
    | arrival ht => cases ht
    | close hr => exact ⟨[], _, _, rfl, .nil, hr⟩
  | cons n next ih =>
    cases h with
    | @arrival _ _ _ _ w₁ w₂ ht hw hr =>
      cases ht
      obtain ⟨inside, c, w', rfl, htour, hrest⟩ := ih hr
      exact ⟨w₁ ++ inside, c, w', by simp, hw.append htour, hrest⟩

theorem Performs.tour {vs : List (Vertex σ × Bool)} {w : List (Call σ)}
    (h : Performs (vs.map fun s => Task.seed s.1 s.2) w) :
    Tour none (vs.map fun s => (s.1.state, {})) w := by
  induction vs generalizing w with
  | nil =>
    cases h
    exact .nil
  | cons s vs ih =>
    cases h with
    | arrival ht hw hr =>
      cases ht
      exact hw.append (ih hr)

/-- What a search tells on the way from one state to another. -/
structure Tells (m m' : State σ (ω × List (Call σ))) (calls : List (Call σ)) : Prop where
  recorded : m'.observation.2 = m.observation.2 ++ calls
  begun : ∃ w, Performs m.agenda (calls ++ w)
  going : m'.ending = none → ∀ w, Performs m'.agenda w → Performs m.agenda (calls ++ w)
  completed : m'.ending = some .completed → Performs m.agenda calls
  halts_iff : calls.any Call.halts = true ↔ m'.ending = some .terminated
  states : m'.stats.states = m.stats.states + (expansions calls).length
  edges : m'.stats.edges = m.stats.edges + edgeCount (expansions calls)

namespace Tells

variable {m m' m'' : State σ (ω × List (Call σ))} {calls calls' : List (Call σ)}

theorem refl (hm : m.ending = none) : Tells m m [] where
  recorded := (List.append_nil _).symm
  begun := exists_performs m.agenda
  going _ _ hw := hw
  completed h := by
    rw [hm] at h
    cases h
  halts_iff := by simp [hm]
  states := rfl
  edges := rfl

theorem trans (h : Tells m m' calls) (hm : m'.ending = none) (h' : Tells m' m'' calls') :
    Tells m m'' (calls ++ calls') where
  recorded := by rw [h'.recorded, h.recorded, List.append_assoc]
  begun := by
    obtain ⟨w, hw⟩ := h'.begun
    exact ⟨w, by simpa using h.going hm _ hw⟩
  going hn w hw := by simpa using h.going hm _ (h'.going hn w hw)
  completed hc := h.going hm _ (h'.completed hc)
  halts_iff := by
    have hnone : calls.any Call.halts = false := by
      rw [← Bool.not_eq_true, h.halts_iff, hm]
      nofun
    rw [List.any_append, hnone, Bool.false_or, h'.halts_iff]
  states := by simp [h'.states, h.states, Nat.add_assoc]
  edges := by simp [h'.edges, h.edges, Nat.add_assoc]

theorem of_performs {rest : List (Task σ)}
    (h : ∀ w, Performs rest w → Performs m.agenda (calls ++ w)) (he : expansions calls = [])
    (hr : m'.observation.2 = m.observation.2 ++ calls) (hrest : m'.agenda = rest)
    (hstats : m'.stats = m.stats)
    (hend : m'.ending = if calls.any Call.halts then some .terminated else none) :
    Tells m m' calls := by
  refine ⟨hr, (exists_performs rest).imp h, fun _ => hrest ▸ h, ?_, ?_, ?_, ?_⟩
  · intro hc
    rw [hend] at hc
    split at hc <;> cases hc
  · rw [hend]
    cases calls.any Call.halts <;> simp
  · simp [hstats, he]
  · simp [hstats, he, edgeCount]

end Tells

section arrival

variable {l : Listener σ ω} {m : State σ (ω × List (Call σ))} {task : Task σ}
  {rest : List (Task σ)} {source : Option (Vertex σ)} {t : Vertex σ} {flags : EdgeFlags}
  {isNew : Bool} {calls : List (Call σ)}

/-- An accepted target is opened: its successors and its closing are put in front of the rest. -/
theorem opened_tells (ha : m.agenda = task :: rest) (hm : m.ending = none)
    (ht : task.arrival? = some (source, t.state, flags))
    (h : Told source t flags isNew .expand calls) (store : Store σ) {o : ω × List (Call σ)}
    (ho : o.2 = m.observation.2 ++ calls) :
    ∃ calls', Tells m
      (openVertex (chronicled l) t { m with agenda := rest, store, observation := o }) calls' := by
  obtain ⟨next, d, hrec, hstates, hedges, hnext⟩ := expand_told l 0 store t m.stats o
  have hperforms : ∀ w, Performs (next.map (Task.edge t) ++ .close t :: rest) w →
      Performs m.agenda (calls ++ (.successors t next :: deadlockCalls t next d) ++ w) := by
    intro w hw
    obtain ⟨inside, c, w', rfl, htour, hrest⟩ := hw.opened
    cases h with
    | enter hf hacc =>
      rw [ha]
      simpa using Performs.arrival ht (.enter hf hacc htour .nil) hrest
  have hbegun : ∃ w, Performs m.agenda
      (calls ++ (.successors t next :: deadlockCalls t next d) ++ w) := by
    obtain ⟨w, hw⟩ := exists_performs (next.map (Task.edge t) ++ .close t :: rest)
    exact ⟨w, hperforms w hw⟩
  have hquiet : calls.any Call.halts = false := h.any_halts
  refine ⟨calls ++ (.successors t next :: deadlockCalls t next d), ?_⟩
  unfold openVertex
  rcases hx : (chronicled l).expand 0 store t m.stats o with ⟨expanded, stats, o'⟩
  rw [hx] at hrec hstates hedges hnext
  simp only at hrec hstates hedges hnext
  -- the listener may end the search at a deadlock, which leaves the vertex open
  cases hh : (deadlockCalls t next d).any Call.halts with
  | true =>
    rw [hh, if_pos rfl] at hnext
    subst hnext
    refine ⟨by simp [hrec, ho], hbegun, fun hno => ?_, fun hno => ?_, ?_, ?_, ?_⟩
    · cases hno
    · cases hno
    · simp [List.any_append, hquiet, Call.halts, hh]
    · simp [hstates, h.expansions_eq]
    · simp [hedges, h.expansions_eq, edgeCount]
  | false =>
    rw [hh, if_neg Bool.false_ne_true] at hnext
    subst hnext
    refine ⟨by simp [hrec, ho], hbegun, fun _ => hperforms, ?_, ?_, ?_, ?_⟩
    · intro hc
      cases hm.symm.trans hc
    · simp [List.any_append, hquiet, Call.halts, hh, hm]
    · simp [hstates, h.expansions_eq]
    · simp [hedges, h.expansions_eq, edgeCount]

theorem proceed_tells (ha : m.agenda = task :: rest) (hm : m.ending = none)
    (ht : task.arrival? = some (source, t.state, flags)) {step : Step}
    (h : Told source t flags isNew step calls) (store : Store σ) {o : ω × List (Call σ)}
    (ho : o.2 = m.observation.2 ++ calls) :
    ∃ calls', Tells m (proceed (chronicled l) m rest (Listener.settle step t store o)) calls' := by
  have hpassed : step ≠ .expand → ∀ w, Performs rest w → Performs m.agenda (calls ++ w) :=
    fun hs w hw => ha ▸ .arrival ht (h.tour hs) hw
  have hhalts := h.any_halts
  cases step with
  | skip =>
    exact ⟨calls, .of_performs (hpassed nofun) h.expansions_eq ho rfl rfl (by rw [hhalts]; exact hm)⟩
  | stop =>
    exact ⟨calls, .of_performs (hpassed nofun) h.expansions_eq ho rfl rfl (by rw [hhalts]; rfl)⟩
  | expand => exact opened_tells ha hm ht h store ho

end arrival

variable {sys : System σ}

/-- A step of a search tells its part of a tour. -/
theorem step_tells (hsame : ∀ a b, sys.same a b = true → a = b) (l : Listener σ ω)
    {m : State σ (ω × List (Call σ))} (hm : m.ending = none) :
    ∃ calls, Tells m (step sys (chronicled l) m) calls := by
  cases ha : m.agenda with
  | nil =>
    have hstep : step sys (chronicled l) m = { m with ending := some .completed } := by
      simp only [step, ha]
    rw [hstep]
    refine ⟨[], (List.append_nil _).symm, exists_performs _, fun hno => ?_, fun _ => ?_, ?_, rfl, rfl⟩
    · cases hno
    · rw [ha]
      exact .nil
    · simp
  | cons task rest =>
    cases task with
    | seed v isNew =>
      rw [step_seed ha]
      obtain ⟨calls, hrec, htold⟩ := follow_told l 0 none v {} isNew m.observation
      exact proceed_tells ha hm rfl htold m.store hrec
    | edge source next =>
      rw [step_edge ha, Listener.offer_eq]
      cases hst : sys.store m.store next.1 with
      | error e =>
        -- the edge is not told of, so that nothing but the ending has changed
        refine ⟨[], (List.append_nil _).symm, exists_performs _, fun hno => ?_, fun hno => ?_, ?_,
          rfl, rfl⟩
        · cases hno
        · cases hno
        · simp [proceed]
      | ok inserted =>
        obtain ⟨t, isNew, after⟩ := inserted
        obtain ⟨calls, hrec, htold⟩ := follow_told l 0 (some source) t next.2 isNew m.observation
        have ht : (Task.edge source next).arrival? = some (some source, t.state, next.2) := by
          rw [System.store_state hsame hst]
          rfl
        exact proceed_tells ha hm ht htold after hrec
    | close v =>
      have hperforms : ∀ answer w, Performs rest w → Performs m.agenda ([.closed v answer] ++ w) :=
        fun _ w hw => ha ▸ .close hw
      simp only [step, ha, chronicled]
      rcases l.closed 0 v m.store m.observation.1 with ⟨action, store, o⟩
      refine ⟨[.closed v action], ?_⟩
      cases action with
      | terminate => exact .of_performs (hperforms _) rfl rfl rfl rfl rfl
      | process => exact .of_performs (hperforms _) rfl rfl rfl rfl hm
      | ignore => exact .of_performs (hperforms _) rfl rfl rfl rfl hm
      | asNeeded => exact .of_performs (hperforms _) rfl rfl rfl rfl hm

theorem steps_tells (hsame : ∀ a b, sys.same a b = true → a = b) (l : Listener σ ω) (n : Nat)
    {m : State σ (ω × List (Call σ))} (hm : m.ending = none) :
    ∃ calls, Tells m (steps sys (chronicled l) n m) calls := by
  induction n generalizing m with
  | zero => exact ⟨[], .refl hm⟩
  | succ n ih =>
    have hsteps : steps sys (chronicled l) (n + 1) m =
        steps sys (chronicled l) n (step sys (chronicled l) m) := by
      simp [steps, hm]
    rw [hsteps]
    obtain ⟨calls, h⟩ := step_tells hsame l hm
    cases he : (step sys (chronicled l) m).ending with
    | none =>
      obtain ⟨calls', h'⟩ := ih he
      exact ⟨calls ++ calls', h.trans he h'⟩
    | some e =>
      rw [steps_of_ending (he ▸ Option.some_ne_none e)]
      exact ⟨calls, h⟩

/-- A search of these seeds before its first step. -/
def start (vs : List (Vertex σ × Bool)) (store : Store σ) (o : ω) : State σ ω where
  agenda := vs.map fun s => Task.seed s.1 s.2
  store
  observation := o

end DepthFirst

namespace Graph

open DepthFirst

variable {ω : Type} {g : Graph} {ig : IndexedGraph}

/-- In a depth-first search with any listener, what was told after any number of steps is the
beginning of a tour of the seeds. It can be read call by call, and an edge leads to each open vertex
from the one below it. A search that ends of itself has made the whole tour, has closed whatever it
opened, and has counted the openings and the edges. -/
theorem depthFirst_bracketed (hg : g.index = .ok ig) (l : Listener Node ω) (seeds : Seeds Node)
    (store : Store Node) (o : ω) :
    (∀ allowance e after, seeds.resolve ig.system store = .error (e, after) →
      run ig.system (chronicled l) allowance seeds store (o, []) =
        ⟨after, (o, []), {}, some (.exhausted e)⟩) ∧
    ∀ vs after, seeds.resolve ig.system store = .ok (vs, after) →
      (∀ allowance, run ig.system l allowance seeds store o =
        (steps ig.system l (enough ig.system allowance vs.length)
          (start vs after o)).toExploration) ∧
      ∀ n, let m := steps ig.system (chronicled l) n (start vs after (o, []))
        let calls := m.observation.2
        m.map Prod.fst = steps ig.system l n (start vs after o) ∧
        (∃ rest, Tour none (vs.map fun s => (s.1.state, {})) (calls ++ rest)) ∧
        (∃ r, calls.foldlM Reading.read {} = some r ∧ r.opened.IsChain (Leads calls)) ∧
        (calls.any Call.halts = true ↔ m.ending = some .terminated) ∧
        (m.ending = some .completed →
          Tour none (vs.map fun s => (s.1.state, {})) calls ∧
          calls.foldlM Reading.read {} = some {} ∧
          m.stats.states = calls.countP Call.isOpening ∧
          m.stats.edges = calls.countP Call.isEdge) := by
  have hsame : ∀ a b, ig.system.same a b = true → a = b :=
    fun a b => ((index_explicit hg).same_iff a b).1
  refine ⟨fun allowance e after hr => by rw [run, hr], fun vs after hr => ⟨fun allowance => ?_, ?_⟩⟩
  · rw [run, hr]
    rfl
  intro n m calls
  obtain ⟨calls', h⟩ := steps_tells hsame l n (m := start vs after (o, [])) rfl
  have hcalls : calls = calls' := h.recorded
  rw [← hcalls] at h
  have hread : ∃ r, calls.foldlM Reading.read {} = some r := by
    obtain ⟨rest, hrest⟩ := h.begun
    have hall := hrest.tour.read [] rfl
    rw [List.foldlM_append] at hall
    obtain ⟨r, hr, -⟩ := Option.bind_eq_some_iff.1 hall
    exact ⟨r, hr⟩
  refine ⟨(steps_map (chronicled_lifts l) ig.system n (start vs after (o, []))).symm,
    h.begun.imp fun _ hw => hw.tour, hread.imp fun r hr => ⟨hr, (isChain_of_read hr).1⟩,
    h.halts_iff, fun hc => ?_⟩
  have htour := (h.completed hc).tour
  refine ⟨htour, htour.read [] rfl, ?_, ?_⟩
  · rw [htour.countP_isOpening]
    exact h.states.trans (Nat.zero_add _)
  · rw [htour.countP_isEdge]
    exact h.edges

/-- Two states that lead to each other, and a way out. -/
def ringAndExit : Graph where
  initial := [0]
  edges := [{ source := 0, target := 1 }, { source := 1, target := 0 }, { source := 0, target := 2 }]

/-- Follows every edge, to known states as well, until four states were opened. -/
def reopening (sys : System Node) : Listener Node Nat where
  edge _ _ _ _ _ opened := (if opened < 4 then .process else .asNeeded, opened)
  state _ _ opened := (.process, opened + 1)
  successors _ _ v opened := (sys.successors v.state, opened)

/-- The states of the ring are opened twice, one inside the other. -/
theorem depthFirst_bracketed_ringAndExit :
    ∃ ig vs after, ringAndExit.index = .ok ig ∧
      Seeds.initials.resolve ig.system (.ofShards 1 none) = .ok (vs, after) ∧
      ∃ m, steps ig.system (chronicled (reopening ig.system)) 20 (start vs after (0, [])) = m ∧
        m.ending = some .completed ∧
        (expansions m.observation.2).map (·.1.state) = [0, 1, 0, 1, 2] ∧
        m.observation.2.foldlM Reading.read {} = some {} ∧
        m.stats.states = m.observation.2.countP Call.isOpening ∧
        m.stats.edges = m.observation.2.countP Call.isEdge := by
  obtain ⟨ig, vs, after, hg, hr, hend, hopened⟩ : ∃ ig vs after, ringAndExit.index = .ok ig ∧
      Seeds.initials.resolve ig.system (.ofShards 1 none) = .ok (vs, after) ∧
      (steps ig.system (chronicled (reopening ig.system)) 20
        (start vs after (0, []))).ending = some .completed ∧
      (expansions (steps ig.system (chronicled (reopening ig.system)) 20
        (start vs after (0, []))).observation.2).map (·.1.state) = [0, 1, 0, 1, 2] :=
    ⟨_, _, _, rfl, rfl, by decide +kernel, by decide +kernel⟩
  obtain ⟨-, h⟩ := depthFirst_bracketed hg (reopening ig.system) .initials (.ofShards 1 none) 0
  obtain ⟨-, -, -, -, hclosed⟩ := (h vs after hr).2 20
  exact ⟨ig, vs, after, hg, hr, _, rfl, hend, hopened, (hclosed hend).2⟩

end Graph

end ModelChecker
