import ModelChecker.Proofs.BoundedHistory
import ModelChecker.Proofs.BoundedSettle
import ModelChecker.Proofs.Moments

namespace ModelChecker

theorem isChain_flatMap {α β : Type} {f : α → List β} {R : β → β → Prop} {l : List α}
    (hin : ∀ a ∈ l, (f a).IsChain R)
    (hjoin : l.IsChain fun a b => f a ≠ [] ∧ ∀ x ∈ (f a).getLast?, ∀ y ∈ (f b).head?, R x y) :
    (l.flatMap f).IsChain R := by
  induction l with
  | nil => exact .nil
  | cons a rest ih =>
    have htail := ih (fun b hb => hin b (List.mem_cons_of_mem a hb)) hjoin.tail
    rw [List.flatMap_cons]
    refine List.isChain_append.2 ⟨hin a List.mem_cons_self, htail, fun x hx y hy => ?_⟩
    cases rest with
    | nil => cases hy
    | cons b rest =>
      obtain ⟨⟨-, hab⟩, hrest⟩ := List.isChain_cons_cons.1 hjoin
      refine hab x hx y ?_
      rw [List.flatMap_cons, List.head?_append] at hy
      cases hb : f b with
      | cons z zs =>
        rw [hb] at hy
        exact hy
      | nil =>
        -- only the last list may be empty
        cases rest with
        | nil =>
          rw [hb] at hy
          exact hy
        | cons => exact absurd hb (List.isChain_cons_cons.1 hrest).1.1

/-- No seed is added while a search goes on. -/
theorem Work.Event.awaited {σ ω : Type} {sys : System σ} {l : Listener σ ω} {w w' : Work σ ω}
    (he : Work.Event sys l w w') {n : Successor σ} (h : Work.Awaited w'.items none n) :
    Work.Awaited w.items none n := by
  cases he with
  | stored hi hs => exact (Work.awaited_stored hi hs).1 h
  | told worker hi => exact h.of_told hi
  | full hi =>
    rw [hi]
    exact h.mono fun y hy => Multiset.mem_cons_of_mem hy
  | visit worker hi =>
    rcases h.of_visited hi with ⟨hno, -⟩ | h
    · cases hno
    · exact h
  | abandon _ hle => exact h.mono fun y hy => Multiset.mem_of_le hle hy

namespace Bounded

variable {σ : Type}

/-- A moment of a search by levels: the round that is under way, and what is left to do in it. -/
structure Moment (σ : Type) where
  round : Round σ
  work : Work σ (Observation σ)

abbrev Moment.mark (p : Moment σ) (a : Handle) : LevelMark := p.work.observation.mark a

def Round.moments (sys : System σ) (c : SearchConfig) (r : Round σ) :
    List (Work σ (Observation σ)) :=
  c.moments sys (listener sys r.query) r.seeds r.before.store r.before.observation r.schedule

/-- The moments of all rounds, one after the other. -/
def history (sys : System σ) (c : SearchConfig) (bound : Nat)
    (timetable : Timetable := .inTurn c.workerCount) : List (Moment σ) :=
  (searchRounds sys c bound timetable (2 * sys.extent + 1) 0 { store := c.newStore }).flatMap
    fun r => (r.moments sys c).map (Moment.mk r)

/-- What the marks of a moment say of the levels and parents; `joins` tells of the edges. -/
structure Moment.Consistent (sys : System σ) (joins : σ → σ → Prop) (p : Moment σ) : Prop where
  parentLevel : ∀ v ∈ p.work.store.vertices,
    (p.mark v.handle).parentLevel = (p.mark v.handle).level?
  parent : ∀ v ∈ p.work.store.vertices, ∀ l, (p.mark v.handle).level? = some l →
    ∀ a, (p.mark v.handle).parent = .vertex a →
      ∃ u ∈ p.work.store.vertices, u.handle = a ∧ joins u.state v.state ∧
        ∃ k ≤ l, (p.mark a).level? = some k
  rooted : ∀ v ∈ p.work.store.vertices, ∀ l, (p.mark v.handle).level? = some l →
    ∃ path, Ancestry p.work.store (fun a => (p.mark a).parent) v path ∧
      path.length < p.work.store.size
  ahead : p.work.interrupt.raised = false → ∀ v ∈ p.work.store.vertices,
    ∀ l, (p.mark v.handle).level? = some l → (p.mark v.handle).isExpanded = false →
      p.round.query.level < l ∨
        v.state ∈ Partitioned.seedStates sys p.round.seeds ∧ Pending p.work.items v.state

/-- How one moment follows from another. In the same round at most one move is made in between, and the
next round begins with what the round before it left. -/
inductive Moment.Next (sys : System σ) (c : SearchConfig)
    (timetable : Timetable := .inTurn c.workerCount) : Moment σ → Moment σ → Prop where
  | turn {r : Round σ} {w w' : Work σ (Observation σ)}
    (h : Work.Turn sys (listener sys r.query) w w') : Next sys c timetable ⟨r, w⟩ ⟨r, w'⟩
  | round {r r' : Round σ} {w w' : Work σ (Observation σ)} (hf : r.Follows sys c timetable r')
    (hleft : ∀ m, r.run sys c = .ok m → m.store = w.store ∧ m.observation = w.observation)
    (hbegin : c.Begins sys r'.seeds r'.before.store r'.before.observation w') :
    Next sys c timetable ⟨r, w⟩ ⟨r', w'⟩

def Lowers (o o' : Observation σ) : Prop :=
  ∀ a l, (o.mark a).level? = some l → ∃ k ≤ l, (o'.mark a).level? = some k

instance : Trans (α := Observation σ) Lowers Lowers Lowers where
  trans h h' a l hl := by
    obtain ⟨k, hk, hmark⟩ := h a l hl
    obtain ⟨j, hj, hmark'⟩ := h' a k hmark
    exact ⟨j, hj.trans hk, hmark'⟩

/-- Levels only fall, and those of expanded states stay. -/
structure Sinks (o o' : Observation σ) : Prop where
  lowers : Lowers o o'
  keeps : ∀ a, (o.mark a).isExpanded = true → (o'.mark a).level? = (o.mark a).level?

theorem sinks_of_evolves {o o' : Observation σ}
    (h : ∀ a, LevelMark.Evolves (o.mark a) (o'.mark a)) : Sinks o o' :=
  ⟨fun a => (h a).lowers, fun a he => LevelMark.level?_congr ((h a).keeps he)⟩

theorem sinks_of_level {o o' : Observation σ}
    (h : ∀ a, (o'.mark a).level? = (o.mark a).level?) : Sinks o o' :=
  ⟨fun a l hl => ⟨l, Nat.le_refl l, (h a).trans hl⟩, fun a _ => h a⟩

/-- What is true of every round of a search by levels. -/
structure Round.Prepared (sys : System σ) (c : SearchConfig) (bound : Nat) (r : Round σ) :
    Prop where
  fair : r.schedule.Fair c.workerCount
  query : r.query = levelQuery c bound r.query.level
  level_le : r.query.level ≤ bound
  between : Between sys c r.query r.before
  sown : Sown r.query r.before r.seeds
  rested : ∃ base, Rested sys r.query base (Partitioned.seedStates sys r.seeds) r.before

variable {sys : System σ} {c : SearchConfig} {bound : Nat} {timetable : Timetable} {r r' : Round σ}
  {s : σ} {w w₀ : Work σ (Observation σ)}

theorem prepared_first {schedule : Schedule} (hfair : schedule.Fair c.workerCount)
    (hw : c.partitioned = true → c.workerCount ≤ UInt32.size) :
    Round.Prepared sys c bound
      ⟨levelQuery c bound 0, schedule, .initials, { store := c.newStore }⟩ :=
  ⟨hfair, rfl, Nat.zero_le bound, between_start c bound hw, rfl, 0, rested_start c bound⟩

theorem Round.Prepared.level_le_bound (h : r.Prepared sys c bound) :
    r.query.level ≤ r.query.bound := by
  rw [h.query]
  exact h.level_le

theorem Round.Prepared.starts (hx : sys.Explicit) (h : r.Prepared sys c bound)
    (hbegin : c.Begins sys r.seeds r.before.store r.before.observation w₀) :
    Work.Starts sys (Partitioned.seedStates sys r.seeds) r.before.store r.before.observation w₀ := by
  refine hbegin.starts h.between.canonical hx fun vs hvs v hv => ?_
  have hsown := h.sown
  rw [hvs] at hsown
  exact (hsown v hv).1

theorem Round.Follows.level?_eq (hf : r.Follows sys c timetable r') : ∃ m, r.Leaves sys c m ∧
    ∀ a, (r'.before.observation.mark a).level? = (m.observation.mark a).level? := by
  cases hf with
  | @again m marked _ _ hm =>
    exact ⟨m, hm, fun a => (keeps_reopen m.observation.retainReduced marked a).level⟩
  | deeper _ hm ho =>
    refine ⟨_, hm, fun a => ?_⟩
    rcases ho with rfl | rfl <;> rfl

section
variable (hx : sys.Explicit) (hspread : sys.Spread) (hmax : bound + 1 ≤ maxLevel)
  (hfair : timetable.Fair c.workerCount)
include hx hspread hmax hfair

theorem Round.Follows.prepared (hf : r.Follows sys c timetable r') (h : r.Prepared sys c bound) :
    r'.Prepared sys c bound := by
  have hlevel : r.query.level < maxLevel := h.level_le.trans_lt hmax
  obtain ⟨base, hrested⟩ := h.rested
  have hround : ∀ {m}, r.Leaves sys c m → Between sys c r.query m ∧ Rested sys r.query base [] m :=
    fun hm => round_rested hx hspread h.fair h.level_le_bound hlevel h.between h.sown hrested hm.run
      hm.found
  cases hf with
  | @again m marked k n hm helim hne =>
    obtain ⟨hbetween, hrest⟩ := hround hm
    obtain ⟨marked', helim', -, hreopen⟩ := hbetween.eliminate (hfair r.query.level k).2
    cases helim.symm.trans helim'
    obtain ⟨hnext, hsown, -⟩ := hreopen hne
    exact ⟨(hfair _ n).1, h.query, h.level_le, hnext, hsown, base,
      hrest.retain.reopen hx hbetween.canonical hsown⟩
  | @deeper m o n hm ho hlt =>
    obtain ⟨hbetween, hrest⟩ : Between sys c r.query { m with observation := o } ∧
        Rested sys r.query base [] { m with observation := o } := by
      obtain ⟨hbetween, hrest⟩ := hround hm
      rcases ho with rfl | rfl
      · exact ⟨hbetween, hrest⟩
      · exact ⟨hbetween.retain, hrest.retain⟩
    obtain ⟨q, schedule, seeds, before⟩ := r
    obtain ⟨property, reduction, bound', level⟩ := q
    cases h.query
    have hsown := sown_levelSeeds (c := c) { m with observation := o } bound (level + 1)
    rw [levelSeeds, if_neg (Nat.succ_ne_zero level)] at hsown
    exact ⟨(hfair _ n).1, rfl, hlt, hbetween.next, hsown, _, hrest.succ⟩

theorem searchRounds_prepared (hw : c.partitioned = true → c.workerCount ≤ UInt32.size)
    {n : Nat} : ∀ r ∈ searchRounds sys c bound timetable n 0 { store := c.newStore },
      r.Prepared sys c bound := by
  apply searchRounds_chain.induction (Round.Prepared sys c bound)
  · intro r r' hf h
    exact hf.prepared hx hspread hmax hfair h
  · intro hne
    obtain ⟨k, hk⟩ := head?_searchRounds (List.head_mem_head? hne)
    rw [hk]
    exact prepared_first (hfair 0 k).1 hw

end

section
variable (hx : sys.Explicit) (hspread : sys.Spread) (h : r.Prepared sys c bound)
include hx hspread h

theorem Round.Prepared.maintained
    (hbegin : c.Begins sys r.seeds r.before.store r.before.observation w₀)
    (hm : Work.Moves sys (listener sys r.query) w₀ w) : Maintained sys r.query r.before w :=
  (h.between.maintained h.sown hx hbegin).moves hx hspread h.level_le_bound hm

theorem mem_seedStates_of_pending
    (hbegin : c.Begins sys r.seeds r.before.store r.before.observation w₀)
    (hm : Work.Moves sys (listener sys r.query) w₀ w) (hs : Pending w.items s) :
    s ∈ Partitioned.seedStates sys r.seeds := by
  obtain ⟨f, hf⟩ := hs
  have hground := (h.maintained hx hspread hbegin .refl).tracked.grounded
  have hevents := hm.events hground.canonical hx
  clear hm
  induction hevents with
  | refl => exact ((h.starts hx hbegin).awaited hf).2
  | tail _ he ih => exact ih (he.awaited hf)

theorem Round.Prepared.moments_cases :
    (∃ w₀ w, c.Begins sys r.seeds r.before.store r.before.observation w₀ ∧
      Work.Trail sys (listener sys r.query) w₀ (r.moments sys c) w ∧
      ∀ m, r.run sys c = .ok m → m.store = w.store ∧ m.observation = w.observation) ∨
    r.moments sys c = [] ∧ ∀ m, r.run sys c ≠ .ok m := by
  have hb : ∀ w₀ w, c.Begins sys r.seeds r.before.store r.before.observation w₀ →
      Work.Moves sys (listener sys r.query) w₀ w →
      w.stats.states ≤ sys.extent ∧ w.admitted < UInt64.size :=
    fun w₀ w hbegin hm => (h.maintained hx hspread hbegin hm).tracked.bounded hx
  rcases SearchConfig.moments_cases r.schedule (fun _ _ _ => rfl) (listener_length_successors hx)
    h.between.shards hb with ⟨e, w₀, w, hsearch, hbegin, htrail, hstore, hobs⟩ |
      ⟨hnone, x, s, hsearch⟩
  · refine .inl ⟨w₀, w, hbegin, htrail, fun m hm => ?_⟩
    obtain ⟨e', b, hsearch', -, hstore', hobs'⟩ := round_eq_ok hm
    cases hsearch.symm.trans hsearch'
    exact ⟨hstore'.trans hstore, hobs'.trans hobs⟩
  · refine .inr ⟨hnone, fun m hm => ?_⟩
    obtain ⟨e, b, hsearch', hfin, -, -⟩ := round_eq_ok hm
    cases hsearch.symm.trans hsearch'
    cases hfin

theorem Round.Prepared.consistent (hmax : bound + 1 ≤ maxLevel)
    (hbegin : c.Begins sys r.seeds r.before.store r.before.observation w₀)
    (hm : Work.Moves sys (listener sys r.query) w₀ w) :
    Moment.Consistent sys sys.Joins ⟨r, w⟩ := by
  have hw := h.maintained hx hspread hbegin hm
  have htraced := hw.traced (by rw [h.query]; exact hmax)
  refine ⟨htraced.parentLevel, fun v hv l hl a ha => ?_, fun v hv l hl => ?_,
    fun hraised v hv l hl he => ?_⟩
  · rcases htraced.accounts v hv l hl with ⟨hroot, -⟩ | ⟨u, hu, hp, k, hk, n, hn, hnv, hle⟩
    · cases hroot.symm.trans ha
    · cases hp.symm.trans ha
      exact ⟨u, hu, rfl, ⟨n, hn, hnv⟩, k, (Nat.le_add_right k _).trans hle, hk⟩
  · obtain ⟨path, hpath⟩ := htraced.rooted v hv l hl
    exact ⟨path, hpath, hpath.length_lt hw.tracked.grounded.canonical.sound hv⟩
  · obtain ⟨base, hrested⟩ := h.rested
    have hlevel : r.query.level < maxLevel := h.level_le.trans_lt hmax
    have hsettled := (hrested.settled h.between h.sown hx hbegin).moves hlevel hx hspread
      h.level_le_bound (h.between.maintained h.sown hx hbegin) hm hraised
    have hwait : (w.observation.mark v.handle).progress = .waiting l := by
      refine (LevelMark.level?_eq_some.1 hl).resolve_right fun hexp => ?_
      rw [LevelMark.isExpanded, hexp] at he
      cases he
    refine (Nat.lt_or_ge r.query.level l).imp_right fun hle => ?_
    have hpending := hsettled.pending v hv l hwait hle
    exact ⟨mem_seedStates_of_pending hx hspread h hbegin hm hpending, hpending⟩

end

section
variable (hx : sys.Explicit) (hspread : sys.Spread) (hmax : bound + 1 ≤ maxLevel)
  (hfair : timetable.Fair c.workerCount) (hw : c.partitioned = true → c.workerCount ≤ UInt32.size)
include hx hspread hmax hfair hw

theorem of_mem_history {p : Moment σ} (hp : p ∈ history sys c bound timetable) :
    p.round.Prepared sys c bound ∧ ∃ w₀,
      c.Begins sys p.round.seeds p.round.before.store p.round.before.observation w₀ ∧
      Work.Moves sys (listener sys p.round.query) w₀ p.work := by
  obtain ⟨r, hr, hp⟩ := List.mem_flatMap.1 hp
  obtain ⟨w, hmem, rfl⟩ := List.mem_map.1 hp
  have hprep := searchRounds_prepared hx hspread hmax hfair hw r hr
  rcases hprep.moments_cases hx hspread with ⟨w₀, w', hbegin, htrail, -⟩ | ⟨hnone, -⟩
  · exact ⟨hprep, w₀, hbegin, htrail.moves_of_mem w hmem⟩
  · rw [hnone] at hmem
    cases hmem

theorem history_chain :
    (history sys c bound timetable).IsChain (Moment.Next sys c timetable) := by
  have hprep := searchRounds_prepared (n := 2 * sys.extent + 1) hx hspread hmax hfair hw
  refine isChain_flatMap (fun r hr => (List.isChain_map _).2 ?_)
    (searchRounds_chain.imp_of_mem_imp fun r r' hr hr' hf => ?_)
  · rcases (hprep r hr).moments_cases hx hspread with ⟨w₀, w, -, htrail, -⟩ | ⟨hnone, -⟩
    · exact htrail.isChain.imp fun _ _ => .turn
    · rw [hnone]
      exact .nil
  · rcases (hprep r hr).moments_cases hx hspread with ⟨w₀, w, -, htrail, hleft⟩ | ⟨-, hno⟩
    · rw [List.getLast?_map, htrail.getLast?_eq]
      refine ⟨?_, fun p hp p' hp' => ?_⟩
      · intro hnil
        cases (List.map_eq_nil_iff.1 hnil) ▸ htrail
      · cases hp
        rcases (hprep r' hr').moments_cases hx hspread with ⟨w₁, w', hbegin, htrail', -⟩ | ⟨hnone, -⟩
        · rw [List.head?_map, htrail'.head?_eq] at hp'
          cases hp'
          exact .round hf hleft hbegin
        · rw [hnone] at hp'
          cases hp'
    · obtain ⟨m, hm, -⟩ := hf.level?_eq
      exact absurd hm.run (hno m)

theorem history_sinks : (history sys c bound timetable).IsChain fun p p' =>
    Sinks p.work.observation p'.work.observation := by
  refine (history_chain hx hspread hmax hfair hw).imp_of_mem_imp fun p p' hp hp' hnext => ?_
  obtain ⟨hprep, w₀, hbegin, hm⟩ := of_mem_history hx hspread hmax hfair hw hp
  have hprep' := (of_mem_history hx hspread hmax hfair hw hp').1
  cases hnext with
  | turn h =>
    exact sinks_of_evolves ((hprep.maintained hx hspread hbegin hm).evolves hx hspread
      hprep.level_le_bound h.moves)
  | round hf hleft hbegin' =>
    obtain ⟨m, hm, hlevel⟩ := hf.level?_eq
    refine sinks_of_level fun a => ?_
    rw [(hprep'.starts hx hbegin').observation, ← (hleft m hm.run).2]
    exact hlevel a

theorem getLast?_history {all : Bool} {m : State σ}
    (h : Bounded.explore sys c bound timetable = .ok (all, m)) :
    ∃ p, (history sys c bound timetable).getLast? = some p ∧ p.work.store = m.store ∧
      ∀ a, p.mark a = m.observation.mark a := by
  obtain ⟨r, hr, m', o, hrun, rfl, ho⟩ := getLast?_searchRounds h
  have hprep := searchRounds_prepared hx hspread hmax hfair hw r (List.mem_of_getLast? hr)
  rcases hprep.moments_cases hx hspread with ⟨w₀, w, -, htrail, hleft⟩ | ⟨-, hno⟩
  · obtain ⟨hstore, hobs⟩ := hleft m' hrun
    refine ⟨⟨r, w⟩, ?_, hstore.symm, fun a => ?_⟩
    · obtain ⟨front, hfront⟩ := List.getLast?_eq_some_iff.1 hr
      rw [history, hfront, List.flatMap_append, List.flatMap_singleton, List.getLast?_append,
        List.getLast?_map, htrail.getLast?_eq]
      rfl
    · rw [Moment.mark, ← hobs]
      rcases ho with rfl | rfl <;> rfl
  · exact absurd hrun (hno m')

end

end Bounded

namespace Graph

variable {g : Graph} {ig : IndexedGraph}

/-- Levels and parents are in order at every moment of a search by levels. No level rises, and the
level of a state does not change while it is expanded. The moments follow each other one move at a
time, and the last one has the levels and parents of the result. If the store is partitioned, it has
at most 2^32 partitions, as many as handles can tell apart. -/
theorem history_consistent (h : g.index = .ok ig) (c : SearchConfig) (bound : Nat)
    (timetable : Bounded.Timetable) (hfair : timetable.Fair c.workerCount)
    (hbound : bound ≤ 2 ^ 31 - 3) (hw : c.partitioned = true → c.workerCount ≤ UInt32.size) :
    let moments := Bounded.history ig.system c bound timetable
    (∀ p ∈ moments, p.Consistent ig.system g.Joins) ∧
    moments.Pairwise (fun p p' =>
      ∀ a l, (p.mark a).level? = some l → ∃ k ≤ l, (p'.mark a).level? = some k) ∧
    moments.IsChain (fun p p' =>
      ∀ a, (p.mark a).isExpanded = true → (p'.mark a).level? = (p.mark a).level?) ∧
    moments.IsChain (Bounded.Moment.Next ig.system c timetable) ∧
    ∀ all m, Bounded.explore ig.system c bound timetable = .ok (all, m) →
      ∃ p, moments.getLast? = some p ∧ p.work.store = m.store ∧
        ∀ a, p.mark a = m.observation.mark a := by
  have hx := index_explicit h
  have hspread := index_spread h
  have hmax : bound + 1 ≤ maxLevel := by
    unfold maxLevel
    omega
  have hsinks := Bounded.history_sinks hx hspread hmax hfair hw
  refine ⟨fun p hp => ?_, ?_, hsinks.imp fun p p' hs => hs.keeps,
    Bounded.history_chain hx hspread hmax hfair hw,
    fun all m hm => Bounded.getLast?_history hx hspread hmax hfair hw hm⟩
  · obtain ⟨hprep, w₀, hbegin, hm⟩ := Bounded.of_mem_history hx hspread hmax hfair hw hp
    rw [← index_joins h]
    exact hprep.consistent hx hspread hmax hbegin hm
  · have hlowers := (List.isChain_map fun p : Bounded.Moment Node => p.work.observation).2
      (hsinks.imp fun p p' hs => hs.lowers)
    exact List.pairwise_map.1 hlowers.pairwise

/-- Ample sets that lead round in a loop. State 2 is met by a context switch before it is met without
one. -/
def fallingLoop : Graph where
  initial := [0]
  edges := [{ source := 0, target := 2, flags := { contextSwitch := true } },
    { source := 0, target := 1 }, { source := 0, target := 3 }, { source := 1, target := 2 },
    { source := 1, target := 3 }, { source := 2, target := 0 }, { source := 2, target := 3 },
    { source := 3, target := 3 }]
  ample := ((AmpleSets.empty.insert 0 [1, 2]).insert 1 [2]).insert 2 [0]

/-- The level of state 2 falls from 1 to 0, and state 0 is opened again. -/
theorem history_consistent_fallingLoop :
    ∃ ig moments all m, fallingLoop.index = .ok ig ∧
      Bounded.history ig.system { reduction := true } 1 = moments ∧
      Bounded.explore ig.system { reduction := true } 1 = .ok (all, m) ∧
      (∃ p ∈ moments, ∃ v ∈ p.work.store.vertices,
        v.state = 2 ∧ (p.mark v.handle).level? = some 1) ∧
      (∃ p ∈ moments, ∃ v ∈ p.work.store.vertices,
        v.state = 2 ∧ (p.mark v.handle).level? = some 0) ∧
      (∃ p ∈ moments, ∃ v ∈ p.work.store.vertices, v.state = 0 ∧
        (p.mark v.handle).level? = some 0 ∧ Bounded.Pending p.work.items v.state) ∧
      (∀ p ∈ moments, p.Consistent ig.system fallingLoop.Joins) ∧
      moments.Pairwise (fun p p' =>
        ∀ a l, (p.mark a).level? = some l → ∃ k ≤ l, (p'.mark a).level? = some k) ∧
      moments.IsChain (fun p p' =>
        ∀ a, (p.mark a).isExpanded = true → (p'.mark a).level? = (p.mark a).level?) ∧
      moments.IsChain (Bounded.Moment.Next ig.system { reduction := true }) ∧
      ∃ p, moments.getLast? = some p ∧ p.work.store = m.store ∧
        ∀ a, p.mark a = m.observation.mark a := by
  obtain ⟨ig, h⟩ : ∃ ig, fallingLoop.index = .ok ig := ⟨_, rfl⟩
  have hrun : fallingLoop.index.toOption.any (fun ig =>
      (Bounded.explore ig.system { reduction := true } 1).toOption.isSome) = true := by
    decide +kernel
  have hfalls : fallingLoop.index.toOption.any (fun ig : IndexedGraph => decide (
      (∃ p ∈ Bounded.history ig.system { reduction := true } 1, ∃ v ∈ p.work.store.vertices,
        v.state = 2 ∧ (p.mark v.handle).level? = some 1) ∧
      ∃ p ∈ Bounded.history ig.system { reduction := true } 1, ∃ v ∈ p.work.store.vertices,
        v.state = 2 ∧ (p.mark v.handle).level? = some 0)) = true := by decide +kernel
  have hopened : fallingLoop.index.toOption.any (fun ig : IndexedGraph => decide (
      ∃ p ∈ Bounded.history ig.system { reduction := true } 1, p.work.interrupt.raised = false ∧
        p.round.query.level = 0 ∧ ∃ v ∈ p.work.store.vertices, v.state = 0 ∧
          (p.mark v.handle).level? = some 0 ∧ (p.mark v.handle).isExpanded = false)) = true := by
    decide +kernel
  rw [h] at hrun hfalls hopened
  obtain ⟨⟨all, m⟩, hexplore⟩ : ∃ r, Bounded.explore ig.system { reduction := true } 1 = .ok r := by
    change (Bounded.explore ig.system { reduction := true } 1).toOption.isSome = true at hrun
    cases hr : Bounded.explore ig.system { reduction := true } 1 with
    | error e =>
      rw [hr] at hrun
      cases hrun
    | ok r => exact ⟨r, rfl⟩
  obtain ⟨p, hp, hraised, hlevel, v, hv, hv0, hl, he⟩ := of_decide_eq_true hopened
  obtain ⟨hconsistent, hlowers, hkeeps, hnext, hlast⟩ := history_consistent h { reduction := true } 1
    _ (Bounded.Timetable.fair_inTurn _) (by decide) nofun
  obtain ⟨hhigh, hlow⟩ := of_decide_eq_true hfalls
  refine ⟨ig, _, all, m, h, rfl, hexplore, hhigh, hlow, ⟨p, hp, v, hv, hv0, hl, ?_⟩, hconsistent,
    hlowers, hkeeps, hnext, hlast all m hexplore⟩
  have hahead := (hconsistent p hp).ahead hraised v hv 0 hl he
  rw [hlevel] at hahead
  exact (hahead.resolve_left (Nat.lt_irrefl 0)).2

end Graph

end ModelChecker
