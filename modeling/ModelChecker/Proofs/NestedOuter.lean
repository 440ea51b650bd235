import ModelChecker.Proofs.NestedInner

namespace ModelChecker.Nested

open DepthFirst

variable {σ : Type} {sys : System σ}

/-- The seeds of the outer search, each with whether no earlier one has its state. -/
structure Seeded (sys : System σ) (vs : List (Vertex σ × Bool)) : Prop where
  states_eq : vs.map (·.1.state) = sys.initials
  isNew_iff : ∀ before v b rest, vs = before ++ (v, b) :: rest →
    (b = true ↔ ∀ s ∈ before, s.1.state ≠ v.state)

theorem Seeded.notMem {v : Vertex σ} {vs done seeds : List (Vertex σ × Bool)} {b : Bool}
    (h : Seeded sys vs) (hvs : vs = done ++ (v, b) :: seeds) : (v, true) ∉ seeds := by
  intro hm
  obtain ⟨before, rest, rfl⟩ := List.append_of_mem hm
  have hsplit : vs = (done ++ (v, b) :: before) ++ (v, true) :: rest := by
    rw [hvs, List.append_assoc]
    rfl
  exact (h.isNew_iff _ v true rest hsplit).1 rfl (v, b)
    (List.mem_append_right _ List.mem_cons_self) rfl

theorem Seeded.mem_of_mem {vs : List (Vertex σ × Bool)} {store : Store σ} {v : Vertex σ}
    (h : Seeded sys vs) (hc : store.Canonical sys) (hvs : ∀ s ∈ vs, s.1 ∈ store.vertices)
    (hv : v ∈ store.vertices) (hi : v.state ∈ sys.initials) : (v, true) ∈ vs := by
  rw [← h.states_eq] at hi
  obtain ⟨_, _, hsplit, hfirst⟩ := List.eq_append_cons_of_mem hi
  obtain ⟨before, _, rfl, rfl, hrest⟩ := List.map_eq_append_iff.1 hsplit
  obtain ⟨⟨w, b⟩, rest, rfl, hw, -⟩ := List.map_eq_cons_iff.1 hrest
  have hmem : (w, b) ∈ before ++ (w, b) :: rest := List.mem_append_right _ List.mem_cons_self
  obtain rfl : w = v := hc.eq_of_state (hvs _ hmem) hv hw
  have hb : b = true := (h.isNew_iff before w b rest rfl).2 fun s hs he =>
    hfirst (List.mem_map.2 ⟨s, hs, he⟩)
  exact hb ▸ hmem

namespace Outer

/-- `o'` is `o` after `v` was opened, with its ample set if `r` is set. -/
structure Entered (o o' : Outer σ) (v : Vertex σ) (r : Bool) : Prop where
  marks : ∀ a, o'.mark a =
    if a = v.handle then { o.mark v.handle with onStack := true, reduced := r } else o.mark a
  stack : o'.stack = v :: o.stack
  lasso : o'.lasso = o.lasso
  error : o'.error = o.error

theorem Entered.mark_self {o o' : Outer σ} {v : Vertex σ} {r : Bool} (h : Entered o o' v r) :
    o'.mark v.handle = { o.mark v.handle with onStack := true, reduced := r } := by
  rw [h.marks, if_pos rfl]

theorem Entered.mark_eq {o o' : Outer σ} {v w : Vertex σ} {r : Bool} {store : Store σ}
    (he : Entered o o' v r) (hc : store.Canonical sys) (hv : v ∈ store.vertices)
    (hw : w ∈ store.vertices) (hne : w ≠ v) : o'.mark w.handle = o.mark w.handle := by
  rw [he.marks, if_neg fun ha => hne (hc.eq_of_handle hw hv ha)]

theorem Entered.visited {o o' : Outer σ} {v : Vertex σ} {r : Bool} (h : Entered o o' v r)
    (a : Handle) : (o'.mark a).visited = (o.mark a).visited := by
  rw [h.marks]
  split
  · rename_i ha
    rw [ha]
  · rfl

def enter (v : Vertex σ) (o : Outer σ) : Outer σ :=
  { o.setMark v.handle { o.mark v.handle with onStack := true } with stack := v :: o.stack }

theorem mark_setMark (o : Outer σ) (a b : Handle) (m : Mark) :
    (o.setMark a m).mark b = if b = a then m else o.mark b :=
  Handle.getD_insert o.marks a b m {}

theorem follow_seed (reduction : Bool) (v : Vertex σ) (flags : EdgeFlags) (isNew : Bool)
    (o : Outer σ) :
    (listener sys reduction).follow 0 none v flags isNew o =
      if isNew then (.expand, o.enter v) else (.skip, o) := by
  cases isNew <;> rfl

theorem follow_edge (reduction : Bool) (u t : Vertex σ) (flags : EdgeFlags) (isNew : Bool)
    (o : Outer σ) :
    (listener sys reduction).follow 0 (some u) t flags isNew o =
      if (o.mark t.handle).onStack = true ∧ sys.accepting t.state = true then
        match o.split? t.handle with
        | none => (.stop, { o with error := some (.fault .closingState) })
        | some (tail, outer) => (.stop, { o with lasso := some ⟨tail, outer, [], t⟩ })
      else if isNew then (.expand, o.enter t) else (.skip, o) := by
  unfold Listener.follow
  simp only [listener, edge, Option.isSome_some, Bool.and_eq_true, true_and]
  by_cases h : (o.mark t.handle).onStack = true ∧ sys.accepting t.state = true
  · simp only [if_pos h]
    cases o.split? t.handle <;> rfl
  · simp only [if_neg h]
    cases isNew <;> rfl

/-- The states that the edges of `v` lead to are off the stack, if `v` was opened with its ample
set. -/
def Proviso (sys : System σ) (store : Store σ) (o : Outer σ) (v : Vertex σ) : Prop :=
  (o.mark v.handle).reduced = true → ∀ n ∈ edgesOf sys (o.mark v.handle) v,
    isOnStack sys store o n.1 = false

/-- A state is opened with the edges that its mark tells from then on. -/
theorem successors_enter (sys : System σ) (reduction : Bool) (store : Store σ) (v : Vertex σ)
    (o : Outer σ) (hr : (o.mark v.handle).reduced = false) :
    ∃ r, (reduction = false → r = false) ∧
      Entered o ((listener sys reduction).successors 0 store v (o.enter v)).2 v r ∧
      ((listener sys reduction).successors 0 store v (o.enter v)).1 =
        edgesOf sys { o.mark v.handle with onStack := true, reduced := r } v ∧
      Proviso sys store ((listener sys reduction).successors 0 store v (o.enter v)).2 v := by
  have henter : Entered o (o.enter v) v false := by
    refine ⟨fun a => ?_, rfl, rfl, rfl⟩
    change (o.setMark _ _).mark a = _
    rw [mark_setMark, ← hr]
  have hfull : Proviso sys store (o.enter v) v := by
    intro hx
    rw [henter.marks, if_pos rfl] at hx
    cases hx
  change ∃ r, _ ∧ Entered o (successors sys reduction store v (o.enter v)).2 v r ∧
    (successors sys reduction store v (o.enter v)).1 = _ ∧
    Proviso sys store (successors sys reduction store v (o.enter v)).2 v
  unfold successors
  split
  · rename_i a rest ha
    split
    · exact ⟨false, fun _ => rfl, henter, rfl, hfull⟩
    · rename_i hoff
      -- the ample set is taken, so the mark says so from now on
      cases reduction with
      | false => cases ha
      | true =>
        have ha : sys.ample v.state = some (a :: rest) := ha
        have hset : ∀ b, ((o.enter v).setMark v.handle
            { (o.enter v).mark v.handle with reduced := true }).mark b =
            if b = v.handle then { o.mark v.handle with onStack := true, reduced := true }
            else o.mark b := by
          intro b
          rw [mark_setMark, henter.marks, henter.marks, if_pos rfl]
          split <;> rfl
        refine ⟨true, nofun, ⟨hset, rfl, rfl, rfl⟩, ?_, fun _ n hn => ?_⟩
        · rw [edgesOf, if_pos rfl, ha]
          rfl
        · have hn : n ∈ a :: rest := by
            rwa [hset, if_pos rfl, edgesOf, if_pos rfl, ha] at hn
          have hnot : isOnStack sys store (o.enter v) n.1 = false :=
            Bool.eq_false_iff.2 fun hx => hoff (List.any_eq_true.2 ⟨n, hn, hx⟩)
          -- the mark that is set last leaves the flags of the stack
          refine Eq.trans ?_ hnot
          refine congrArg (fun f => Option.any f _) (funext fun w => ?_)
          rw [hset, henter.marks]
          split <;> rfl
  · exact ⟨false, fun _ => rfl, henter, rfl, hfull⟩

/-- What is true throughout the outer search, from the seeds `vs` on, when it has opened the given
states and is about to open those that are due. -/
structure Inv (sys : System σ) (reduction : Bool) (limit : Option Nat) (vs : List (Vertex σ × Bool))
    (opened due : List (Vertex σ)) (p : Position σ (Outer σ)) : Prop where
  canonical : p.store.Canonical sys
  limit_eq : p.store.budget.limit = limit
  within : p.store.Within sys
  placed : Placed p.store p.observation.marks
  stack : p.observation.stack = p.path
  linked : Linked sys p.path
  nodup : p.path.Nodup
  onStack : ∀ v ∈ p.store.vertices, (p.observation.mark v.handle).onStack = true ↔ v ∈ p.path
  path_sub : ∀ v ∈ p.path, v ∈ opened
  opened_mem : ∀ v ∈ opened, v ∈ p.store.vertices
  opened_nodup : opened.Nodup
  count : p.stats.states = opened.length
  reduced : ∀ v ∈ p.store.vertices, v ∉ opened → (p.observation.mark v.handle).reduced = false
  full : reduction = false → ∀ a, (p.observation.mark a).reduced = false
  seeds : ∃ done, vs = done ++ p.seeds ∧ ∀ v ∈ p.path.getLast?, v.state ∈ done.map (·.1.state)
  seeds_mem : ∀ s ∈ vs, s.1 ∈ p.store.vertices
  fresh : ∀ v, (v, true) ∈ p.seeds → v ∉ opened
  todo : ∀ f ∈ p.frames, ∀ n ∈ f.todo, n ∈ edgesOf sys (p.observation.mark f.vertex.handle) f.vertex
  edges : ∀ v ∈ opened, ∀ n ∈ edgesOf sys (p.observation.mark v.handle) v,
    (∃ f ∈ p.frames, f.vertex = v ∧ n ∈ f.todo) ∨ ∃ t ∈ p.store.vertices, t.state = n.1
  covered : ∀ v ∈ p.store.vertices, v ∈ opened ∨ v ∈ due ∨ (v, true) ∈ p.seeds ∨
    (p.observation.mark v.handle).visited = true
  visited : ∀ v ∈ p.store.vertices, (p.observation.mark v.handle).visited = true →
    ∀ n ∈ edgesOf sys (p.observation.mark v.handle) v, ∃ t ∈ p.store.vertices, t.state = n.1 ∧
      (p.observation.mark t.handle).visited = true
  accepted : ∀ v ∈ opened, v ∉ p.path → sys.accepting v.state = true →
    (p.observation.mark v.handle).visited = true
  lasso : p.observation.lasso = none
  error : p.observation.error = none

section step
variable {reduction : Bool} {limit : Option Nat} {vs : List (Vertex σ × Bool)}
  {opened due : List (Vertex σ)} {u v t : Vertex σ} {n : Successor σ} {todo : List (Successor σ)}
  {frames : List (Frame σ)} {seeds : List (Vertex σ × Bool)} {store store' : Store σ}
  {o o' : Outer σ} {stats stats' : SearchStats} {isNew b r : Bool}

theorem Inv.seed_mem {p : Position σ (Outer σ)} (h : Inv sys reduction limit vs opened due p)
    {x : Vertex σ × Bool} (hx : x ∈ p.seeds) : x.1 ∈ p.store.vertices := by
  obtain ⟨done, hvs, -⟩ := h.seeds
  exact h.seeds_mem x (hvs ▸ List.mem_append_right _ hx)

theorem Inv.seed_initial {p : Position σ (Outer σ)} (h : Inv sys reduction limit vs opened due p)
    (hseed : Seeded sys vs) {x : Vertex σ × Bool} (hx : x ∈ p.seeds) :
    x.1.state ∈ sys.initials := by
  obtain ⟨done, hvs, -⟩ := h.seeds
  rw [← hseed.states_eq, hvs]
  exact List.mem_map.2 ⟨x, List.mem_append_right _ hx, rfl⟩

theorem Inv.popSeed
    (h : Inv sys reduction limit vs opened [] ⟨[], (v, b) :: seeds, store, o, stats⟩) :
    Inv sys reduction limit vs opened (if b then [v] else []) ⟨[], seeds, store, o, stats⟩ := by
  obtain ⟨done, hvs, -⟩ := h.seeds
  refine { h with
    seeds := ⟨done ++ [(v, b)], by rw [hvs, List.append_assoc]; rfl, nofun⟩
    fresh := fun w hw => h.fresh w (List.mem_cons_of_mem _ hw)
    covered := fun w hw => ?_ }
  rcases h.covered w hw with hx | hx | hx | hx
  · exact .inl hx
  · cases hx
  · rcases List.mem_cons.1 hx with hx | hx
    · cases hx
      exact .inr (.inl List.mem_cons_self)
    · exact .inr (.inr (.inl hx))
  · exact .inr (.inr (.inr hx))

/-- An edge is followed: its target is stored, and is due if it is new. -/
theorem Inv.popEdge
    (h : Inv sys reduction limit vs opened [] ⟨⟨u, n :: todo⟩ :: frames, seeds, store, o, stats⟩)
    (hx : sys.Explicit) (hst : Store.Stored sys store n.1 t isNew store') :
    Inv sys reduction limit vs opened (if isNew then [t] else [])
      ⟨⟨u, todo⟩ :: frames, seeds, store', o, stats⟩ := by
  have hn : n ∈ sys.successors u.state :=
    mem_successors_of_mem_edgesOf hx (h.todo _ List.mem_cons_self n List.mem_cons_self)
  -- a vertex of the new store is an old one or has no mark
  have hcase : ∀ w ∈ store'.vertices, w ∈ store.vertices ∨
      w = t ∧ isNew = true ∧ w ∉ store.vertices ∧ o.mark w.handle = {} :=
    fun w hw => h.placed.mem_cases hst hw
  refine { h with
    canonical := hst.canonical
    limit_eq := hst.limit.trans h.limit_eq
    within := hst.within h.within hn
    placed := h.placed.mono hst.grows
    onStack := ?onStack
    opened_mem := fun w hw => hst.grows w (h.opened_mem w hw)
    reduced := ?reduced
    seeds_mem := fun s hs => hst.grows _ (h.seeds_mem s hs)
    todo := forall_todo_next (P := fun w m => m ∈ edgesOf sys (o.mark w.handle) w) h.todo
    edges := ?edges
    covered := ?covered
    visited := ?visited }
  case onStack =>
    intro w hw
    rcases hcase w hw with hw | ⟨-, -, hno, hm⟩
    · exact h.onStack w hw
    · refine iff_of_false ?_ fun hp => hno (h.opened_mem w (h.path_sub w hp))
      change ¬ (o.mark w.handle).onStack = true
      rw [hm]
      exact Bool.false_ne_true
  case reduced =>
    intro w hw hno
    rcases hcase w hw with hw | ⟨-, -, -, hm⟩
    · exact h.reduced w hw hno
    · change (o.mark w.handle).reduced = false
      rw [hm]
  case edges =>
    intro w hw m hm
    rcases h.edges w hw m hm with hleft | ⟨x, hx, hxs⟩
    · rcases exists_todo_next hleft with rfl | hleft
      · exact .inr ⟨t, hst.mem, hst.state⟩
      · exact .inl hleft
    · exact .inr ⟨x, hst.grows x hx, hxs⟩
  case covered =>
    intro w hw
    rcases hcase w hw with hw | ⟨rfl, hnew, -, -⟩
    · rcases h.covered w hw with hx | hx | hx
      · exact .inl hx
      · cases hx
      · exact .inr (.inr hx)
    · exact .inr (.inl (by rw [hnew]; exact List.mem_cons_self))
  case visited =>
    intro w hw hvis m hm
    have hw : w ∈ store.vertices := h.placed.mem_of_visited hst.canonical hst.grows hw hvis
    obtain ⟨x, hx, hxs, hxv⟩ := h.visited w hw hvis m hm
    exact ⟨x, hst.grows x hx, hxs, hxv⟩

/-- The state that is due is opened. -/
theorem Inv.enter (h : Inv sys reduction limit vs opened [v] ⟨frames, seeds, store, o, stats⟩)
    (hx : sys.Explicit) (hv : v ∈ store.vertices) (hno : v ∉ opened)
    (hseed : (v, true) ∉ seeds) (hlinked : Linked sys (v :: frames.map (·.vertex)))
    (hbase : frames = [] → ∃ done, vs = done ++ seeds ∧ v.state ∈ done.map (·.1.state))
    (hr : reduction = false → r = false) (he : Entered o o' v r)
    (hs : stats'.states = stats.states + 1) :
    Inv sys reduction limit vs (v :: opened) []
      ⟨⟨v, edgesOf sys { o.mark v.handle with onStack := true, reduced := r } v⟩ :: frames, seeds,
        store, o', stats'⟩ := by
  -- only the mark of `v` changes, and it keeps its `visited` flag
  have hself := he.mark_self
  have hother : ∀ w ∈ store.vertices, w ≠ v → o'.mark w.handle = o.mark w.handle :=
    fun w hw hne => he.mark_eq h.canonical hv hw hne
  have hvisited := he.visited
  have hpath : v ∉ frames.map (·.vertex) := fun hp => hno (h.path_sub v hp)
  have hopened : ∀ w ∈ opened, o'.mark w.handle = o.mark w.handle := fun w hw =>
    hother w (h.opened_mem w hw) fun hwv => hno (hwv ▸ hw)
  refine { h with
    placed := h.placed.set hv fun a ha => (he.marks a).trans (if_neg ha)
    stack := he.stack.trans (congrArg (v :: ·) h.stack)
    linked := hlinked
    nodup := List.nodup_cons.2 ⟨hpath, h.nodup⟩
    onStack := ?onStack
    path_sub := fun w hw => List.cons_subset_cons v (fun w => h.path_sub w) hw
    opened_mem := List.forall_mem_cons.2 ⟨hv, h.opened_mem⟩
    opened_nodup := List.nodup_cons.2 ⟨hno, h.opened_nodup⟩
    count := ?count
    reduced := ?reduced
    full := ?full
    seeds := ?seeds
    fresh := ?fresh
    todo := ?todo
    edges := ?edges
    covered := ?covered
    visited := ?visited
    accepted := ?accepted
    lasso := he.lasso.trans h.lasso
    error := he.error.trans h.error }
  case onStack =>
    intro w hw
    change (o'.mark w.handle).onStack = true ↔ w ∈ v :: frames.map (·.vertex)
    by_cases hwv : w = v
    · subst hwv
      rw [hself]
      exact iff_of_true rfl List.mem_cons_self
    · rw [hother w hw hwv, List.mem_cons, or_iff_right hwv]
      exact h.onStack w hw
  case count =>
    rw [List.length_cons]
    exact hs.trans (congrArg (· + 1) h.count)
  case reduced =>
    intro w hw hnot
    have hwv : w ≠ v := fun hwv => hnot (hwv ▸ List.mem_cons_self)
    change (o'.mark w.handle).reduced = false
    rw [hother w hw hwv]
    exact h.reduced w hw fun hm => hnot (List.mem_cons_of_mem _ hm)
  case full =>
    intro hred a
    change (o'.mark a).reduced = false
    rw [he.marks]
    split
    · exact hr hred
    · exact h.full hred a
  case seeds =>
    -- the last state of the path is `v` itself, or the one that it was before
    by_cases hnil : frames = []
    · subst hnil
      obtain ⟨done, hvs, hd⟩ := hbase rfl
      refine ⟨done, hvs, fun w hw => ?_⟩
      cases hw
      exact hd
    · obtain ⟨done, hvs, hd⟩ := h.seeds
      refine ⟨done, hvs, fun w hw => hd w ?_⟩
      obtain ⟨f, rest, rfl⟩ := List.exists_cons_of_ne_nil hnil
      exact hw
  case fresh =>
    intro w hw hmem
    rcases List.mem_cons.1 hmem with rfl | hmem
    · exact hseed hw
    · exact h.fresh w hw hmem
  case todo =>
    intro f hf m hm
    rcases List.mem_cons.1 hf with rfl | hf
    · change m ∈ edgesOf sys (o'.mark v.handle) v
      rw [hself]
      exact hm
    · change m ∈ edgesOf sys (o'.mark f.vertex.handle) f.vertex
      rw [hopened f.vertex (h.path_sub _ (List.mem_map_of_mem hf))]
      exact h.todo f hf m hm
  case edges =>
    intro w hw m hm
    change m ∈ edgesOf sys (o'.mark w.handle) w at hm
    rcases List.mem_cons.1 hw with rfl | hw
    · rw [hself] at hm
      exact .inl ⟨_, List.mem_cons_self, rfl, hm⟩
    · rw [hopened w hw] at hm
      exact (h.edges w hw m hm).imp_left fun ⟨f, hf, hfm⟩ => ⟨f, List.mem_cons_of_mem _ hf, hfm⟩
  case covered =>
    intro w hw
    change _ ∨ _ ∨ _ ∨ (o'.mark w.handle).visited = true
    rw [hvisited]
    rcases h.covered w hw with hx | hx | hx
    · exact .inl (List.mem_cons_of_mem _ hx)
    · exact .inl (List.mem_singleton.1 hx ▸ List.mem_cons_self)
    · exact .inr (.inr hx)
  case visited =>
    intro w hw hvis m hm
    change (o'.mark w.handle).visited = true at hvis
    change m ∈ edgesOf sys (o'.mark w.handle) w at hm
    rw [hvisited] at hvis
    have hold : m ∈ edgesOf sys (o.mark w.handle) w := by
      by_cases hwv : w = v
      · subst hwv
        -- before it was opened, all its edges were taken
        rw [edgesOf, h.reduced w hv hno, if_neg Bool.false_ne_true]
        exact mem_successors_of_mem_edgesOf hx hm
      · rwa [hother w hw hwv] at hm
    obtain ⟨x, hxs, hxm, hxv⟩ := h.visited w hw hvis m hold
    exact ⟨x, hxs, hxm, (hvisited _).trans hxv⟩
  case accepted =>
    intro w hw hnot hacc
    change (o'.mark w.handle).visited = true
    rw [hvisited]
    have hmem : w ∈ opened :=
      (List.mem_cons.1 hw).resolve_left fun hwv => hnot (hwv ▸ List.mem_cons_self)
    exact h.accepted w hmem (fun hp => hnot (List.mem_cons_of_mem _ hp)) hacc

theorem Inv.exists_target
    (h : Inv sys reduction limit vs opened due ⟨⟨v, []⟩ :: frames, seeds, store, o, stats⟩)
    (hu : u ∈ opened) (hnot : u ∉ frames.map (·.vertex)) (hn : n ∈ edgesOf sys (o.mark u.handle) u) :
    ∃ t ∈ store.vertices, t.state = n.1 := by
  refine (h.edges u hu n hn).resolve_left fun hleft => ?_
  obtain ⟨f, hf, hfu, -⟩ := exists_todo_closed hleft
  exact hnot (List.mem_map.2 ⟨f, hf, hfu⟩)

/-- What an inner search that finds no cycle may change. -/
structure Swept (sys : System σ) (store : Store σ) (o : Outer σ) (store' : Store σ) (o' : Outer σ) :
    Prop where
  canonical : store'.Canonical sys
  limit : store'.budget.limit = store.budget.limit
  within : store'.Within sys
  grows : ∀ w ∈ store.vertices, w ∈ store'.vertices
  placed : Placed store' o'.marks
  added : ∀ w ∈ store'.vertices, w ∈ store.vertices ∨
    w ∉ store.vertices ∧ o.mark w.handle = {} ∧ (o'.mark w.handle).visited = true
  onStack : ∀ a, (o'.mark a).onStack = (o.mark a).onStack
  reduced : ∀ a, (o'.mark a).reduced = (o.mark a).reduced
  kept : ∀ a, (o.mark a).visited = true → (o'.mark a).visited = true
  visited : ∀ w ∈ store'.vertices, (o'.mark w.handle).visited = true →
    ∀ n ∈ edgesOf sys (o'.mark w.handle) w, ∃ t ∈ store'.vertices, t.state = n.1 ∧
      (o'.mark t.handle).visited = true
  stack : o'.stack = o.stack
  lasso : o'.lasso = none
  error : o'.error = none

theorem edgesOf_congr {m m' : Mark} (h : m'.reduced = m.reduced) (w : Vertex σ) :
    edgesOf sys m' w = edgesOf sys m w := by
  unfold edgesOf
  rw [h]

/-- The latest open state is closed and taken off the stack. -/
def left (v : Vertex σ) (o : Outer σ) : Outer σ :=
  { o.setMark v.handle { o.mark v.handle with onStack := false } with stack := o.stack.tail }

theorem mark_left (v : Vertex σ) (o : Outer σ) (a : Handle) :
    (o.left v).mark a =
      if a = v.handle then { o.mark v.handle with onStack := false } else o.mark a :=
  mark_setMark o v.handle a _

theorem mark_left_visited (v : Vertex σ) (o : Outer σ) (a : Handle) :
    ((o.left v).mark a).visited = (o.mark a).visited := by
  rw [mark_left]
  split
  · rename_i ha
    rw [ha]
  · rfl

theorem mark_left_reduced (v : Vertex σ) (o : Outer σ) (a : Handle) :
    ((o.left v).mark a).reduced = (o.mark a).reduced := by
  rw [mark_left]
  split
  · rename_i ha
    rw [ha]
  · rfl

theorem leave_top {rest : List (Vertex σ)} (hstack : o.stack = v :: rest) :
    leave v o = (.process, o.left v) := by
  unfold leave left
  simp only [setMark, hstack, if_true, List.tail_cons]

/-- A state that was closed is opened and off the stack, and visited if it accepts. -/
theorem Inv.close
    (h : Inv sys reduction limit vs opened [] ⟨⟨v, []⟩ :: frames, seeds, store, o, stats⟩)
    (hs : Swept sys store o store' o') (hv : sys.accepting v.state = true →
      (o'.mark v.handle).visited = true) :
    Inv sys reduction limit vs opened [] ⟨frames, seeds, store', o'.left v, stats⟩ := by
  have hstack : o'.stack = v :: frames.map (·.vertex) := hs.stack.trans h.stack
  have hvm : v ∈ store'.vertices := hs.grows v (h.opened_mem v (h.path_sub v List.mem_cons_self))
  have hpath : v ∉ frames.map (·.vertex) := (List.nodup_cons.1 h.nodup).1
  have hred : ∀ a, ((o'.left v).mark a).reduced = (o.mark a).reduced :=
    fun a => (mark_left_reduced v o' a).trans (hs.reduced a)
  have hvis := mark_left_visited v o'
  refine { h with
    canonical := hs.canonical
    limit_eq := hs.limit.trans h.limit_eq
    within := hs.within
    placed := hs.placed.set hvm fun a ha => (mark_left v o' a).trans (if_neg ha)
    stack := ?stack
    linked := h.linked.tail
    nodup := (List.nodup_cons.1 h.nodup).2
    onStack := ?onStack
    path_sub := fun w hw => h.path_sub w (List.mem_cons_of_mem _ hw)
    opened_mem := fun w hw => hs.grows w (h.opened_mem w hw)
    reduced := ?reduced
    full := fun hr a => (hred a).trans (h.full hr a)
    seeds := ?seeds
    seeds_mem := fun s hm => hs.grows _ (h.seeds_mem s hm)
    todo := ?todo
    edges := ?edges
    covered := ?covered
    visited := ?visited
    accepted := ?accepted
    lasso := hs.lasso
    error := hs.error }
  case stack =>
    change o'.stack.tail = _
    rw [hstack]
    rfl
  case onStack =>
    intro w hw
    change ((o'.left v).mark w.handle).onStack = true ↔ w ∈ frames.map (·.vertex)
    rw [mark_left]
    by_cases hwv : w = v
    · subst hwv
      rw [if_pos rfl]
      exact iff_of_false Bool.false_ne_true hpath
    · rw [if_neg fun ha => hwv (hs.canonical.eq_of_handle hw hvm ha), hs.onStack]
      rcases hs.added w hw with hw | ⟨hno, hm, -⟩
      · refine (h.onStack w hw).trans ?_
        exact ⟨fun hp => (List.mem_cons.1 hp).resolve_left hwv, List.mem_cons_of_mem _⟩
      · refine iff_of_false ?_ fun hp =>
          hno (h.opened_mem w (h.path_sub w (List.mem_cons_of_mem _ hp)))
        rw [hm]
        exact Bool.false_ne_true
  case reduced =>
    intro w hw hno
    refine (hred _).trans ?_
    rcases hs.added w hw with hw | ⟨-, hm, -⟩
    · exact h.reduced w hw hno
    · rw [hm]
  case seeds =>
    obtain ⟨done, hvs, hd⟩ := h.seeds
    refine ⟨done, hvs, fun w hw => hd w ?_⟩
    cases frames with
    | nil => cases hw
    | cons f frames => exact hw
  case todo =>
    intro f hf m hm
    rw [edgesOf_congr (hred _)]
    exact h.todo f (List.mem_cons_of_mem _ hf) m hm
  case edges =>
    intro w hw m hm
    rw [edgesOf_congr (hred _)] at hm
    rcases h.edges w hw m hm with hleft | ⟨t, ht, hts⟩
    · exact .inl (exists_todo_closed hleft)
    · exact .inr ⟨t, hs.grows t ht, hts⟩
  case covered =>
    intro w hw
    change _ ∨ _ ∨ _ ∨ ((o'.left v).mark w.handle).visited = true
    rw [hvis]
    rcases hs.added w hw with hw | ⟨-, -, hwv⟩
    · rcases h.covered w hw with hx | hx | hx | hx
      · exact .inl hx
      · exact .inr (.inl hx)
      · exact .inr (.inr (.inl hx))
      · exact .inr (.inr (.inr (hs.kept _ hx)))
    · exact .inr (.inr (.inr hwv))
  case visited =>
    intro w hw hwv m hm
    change ((o'.left v).mark w.handle).visited = true at hwv
    rw [hvis] at hwv
    rw [edgesOf_congr (mark_left_reduced v o' w.handle)] at hm
    obtain ⟨t, ht, hts, htv⟩ := hs.visited w hw hwv m hm
    exact ⟨t, ht, hts, (hvis _).trans htv⟩
  case accepted =>
    intro w hw hno hacc
    refine (hvis _).trans ?_
    by_cases hwv : w = v
    · subst hwv
      exact hv hacc
    · refine hs.kept _ (h.accepted w hw (fun hp => ?_) hacc)
      exact hno ((List.mem_cons.1 hp).resolve_left hwv)

end step

end Outer

end ModelChecker.Nested
