import ModelChecker.Liveness.NestedSearch
import ModelChecker.Proofs.DepthFirstFrames
import ModelChecker.Proofs.Store

namespace ModelChecker

variable {σ : Type}

/-- A path that starts in an initial state, the latest state first. -/
inductive Linked (sys : System σ) : List (Vertex σ) → Prop where
  | nil : Linked sys []
  | root {v : Vertex σ} (h : v.state ∈ sys.initials) : Linked sys [v]
  | cons {v w : Vertex σ} {rest : List (Vertex σ)} (h : Linked sys (v :: rest))
    {n : Successor σ} (hn : n ∈ sys.successors v.state) (hw : n.1 = w.state) :
    Linked sys (w :: v :: rest)

theorem Linked.tail {sys : System σ} {v : Vertex σ} {rest : List (Vertex σ)}
    (h : Linked sys (v :: rest)) : Linked sys rest := by
  cases h with
  | root => exact .nil
  | cons h => exact h

namespace Nested

def edgesOf (sys : System σ) (m : Mark) (v : Vertex σ) : List (Successor σ) :=
  if m.reduced then (sys.ample v.state).getD (sys.successors v.state) else sys.successors v.state

theorem mem_successors_of_mem_edgesOf {sys : System σ} (hx : sys.Explicit) {m : Mark} {v : Vertex σ}
    {n : Successor σ} (h : n ∈ edgesOf sys m v) : n ∈ sys.successors v.state := by
  unfold edgesOf at h
  split at h
  · cases ha : sys.ample v.state with
    | none =>
      rw [ha] at h
      exact h
    | some l =>
      rw [ha] at h
      exact hx.mem_of_mem_ample _ l ha n h
  · exact h

theorem length_edgesOf_le {sys : System σ} (hx : sys.Explicit) (m : Mark) (v : Vertex σ) :
    (edgesOf sys m v).length ≤ sys.degree := by
  unfold edgesOf
  split
  · cases ha : sys.ample v.state with
    | none => exact hx.length_successors_le _
    | some l => exact hx.length_ample_le _ l ha
  · exact hx.length_successors_le _

def Placed (store : Store σ) (marks : Marks) : Prop :=
  ∀ a, marks.getD a {} = {} ∨ ∃ v ∈ store.vertices, v.handle = a

theorem Placed.mono {store store' : Store σ} {marks : Marks} (h : Placed store marks)
    (hgrows : ∀ v ∈ store.vertices, v ∈ store'.vertices) : Placed store' marks :=
  fun a => (h a).imp_right fun ⟨v, hv, hva⟩ => ⟨v, hgrows v hv, hva⟩

theorem Placed.added {sys : System σ} {store store' : Store σ} {marks : Marks} {t : Vertex σ}
    (h : Placed store marks) (ha : store.Added t store') (hc : store'.Canonical sys) :
    marks.getD t.handle {} = {} := by
  rcases h t.handle with hm | ⟨v, hv, hvt⟩
  · exact hm
  · exact absurd hvt (ha.handle_ne hc hv)

theorem Placed.mem_cases {sys : System σ} {store store' : Store σ} {marks : Marks} {x : σ}
    {t w : Vertex σ} {isNew : Bool} (h : Placed store marks)
    (hst : Store.Stored sys store x t isNew store') (hw : w ∈ store'.vertices) :
    w ∈ store.vertices ∨
      w = t ∧ isNew = true ∧ w ∉ store.vertices ∧ marks.getD w.handle {} = {} := by
  cases hnew : isNew with
  | false => exact .inl (hst.found hnew ▸ hw)
  | true =>
    have ha := hst.added hnew
    rcases hst.origin w hw with rfl | hw
    · exact .inr ⟨rfl, rfl, fun hm => ha.handle_ne hst.canonical hm rfl, h.added ha hst.canonical⟩
    · exact .inl hw

theorem Placed.set {store : Store σ} {marks marks' : Marks} {v : Vertex σ} (h : Placed store marks)
    (hv : v ∈ store.vertices)
    (hother : ∀ a, a ≠ v.handle → marks'.getD a {} = marks.getD a {}) : Placed store marks' := by
  intro a
  by_cases ha : a = v.handle
  · exact .inr ⟨v, hv, ha.symm⟩
  · rw [hother a ha]
    exact h a

theorem Placed.mem_of_visited {sys : System σ} {store store' : Store σ} {marks : Marks}
    {w : Vertex σ} (h : Placed store marks) (hc : store'.Canonical sys)
    (hgrows : ∀ v ∈ store.vertices, v ∈ store'.vertices) (hw : w ∈ store'.vertices)
    (hv : (marks.getD w.handle {}).visited = true) : w ∈ store.vertices := by
  rcases h w.handle with hm | ⟨u, hu, huw⟩
  · rw [hm] at hv
    cases hv
  · exact hc.eq_of_handle (hgrows u hu) hw huw ▸ hu

namespace Inner

variable {sys : System σ}

def enter (v : Vertex σ) (o : Inner σ) : Inner σ :=
  { o with
    marks := o.marks.insert v.handle { o.marks.getD v.handle {} with visited := true }
    stack := v :: o.stack }

theorem follow_seed (start : Handle) (v : Vertex σ) (flags : EdgeFlags) (isNew : Bool)
    (o : Inner σ) :
    (listener sys start).follow 0 none v flags isNew o =
      if (o.marks.getD v.handle {}).visited then (.skip, o) else (.expand, o.enter v) := by
  unfold Listener.follow
  simp only [listener, edge, Option.isSome_none, Bool.false_eq_true, false_and, if_false]
  cases (o.marks.getD v.handle {}).visited <;> rfl

theorem follow_edge (start : Handle) (u t : Vertex σ) (flags : EdgeFlags) (isNew : Bool)
    (o : Inner σ) :
    (listener sys start).follow 0 (some u) t flags isNew o =
      if t.handle = start ∨ (o.marks.getD t.handle {}).onStack = true then
        (.stop, { o with closing := some t })
      else if (o.marks.getD t.handle {}).visited then (.skip, o)
      else (.expand, o.enter t) := by
  unfold Listener.follow
  simp only [listener, edge, Option.isSome_some, true_and]
  by_cases h : t.handle = start ∨ (o.marks.getD t.handle {}).onStack = true
  · simp only [if_pos h]
  · simp only [if_neg h]
    cases (o.marks.getD t.handle {}).visited <;> rfl

theorem listener_successors (start : Handle) (store : Store σ) (v : Vertex σ) (o : Inner σ) :
    (listener sys start).successors 0 store v o = (edgesOf sys (o.marks.getD v.handle {}) v, o) := by
  change successors sys v o = _
  unfold successors edgesOf
  cases (o.marks.getD v.handle {}).reduced <;> rfl

end Inner

/-- Where an inner search is started: from the latest state on the stack of the outer one. -/
structure Entry (σ : Type) where
  store : Store σ
  marks : Marks
  start : Vertex σ
  below : List (Vertex σ)

namespace Entry

def mark (en : Entry σ) (v : Vertex σ) : Mark := en.marks.getD v.handle {}

/-- The flags tell what is on the stack, which is a path from an initial state. -/
structure Ok (sys : System σ) (en : Entry σ) : Prop where
  canonical : en.store.Canonical sys
  within : en.store.Within sys
  placed : Placed en.store en.marks
  linked : Linked sys (en.start :: en.below)
  nodup : (en.start :: en.below).Nodup
  mem : ∀ v ∈ en.start :: en.below, v ∈ en.store.vertices
  onStack : ∀ v ∈ en.store.vertices, (en.mark v).onStack = true ↔ v ∈ en.start :: en.below

/-- The state is not on the outer stack, and the search has been there. -/
structure Passed (en : Entry σ) (opened : List (Vertex σ)) (t : Vertex σ) : Prop where
  off : (en.mark t).onStack = false
  visited : (en.mark t).visited = true ∨ t ∈ opened

end Entry

open DepthFirst in
/-- What is true throughout an inner search that has opened the given states. -/
structure Inner.Inv (sys : System σ) (en : Entry σ) (opened : List (Vertex σ))
    (p : Position σ (Inner σ)) : Prop where
  canonical : p.store.Canonical sys
  limit : p.store.budget.limit = en.store.budget.limit
  within : p.store.Within sys
  grows : ∀ v ∈ en.store.vertices, v ∈ p.store.vertices
  added : ∀ v ∈ p.store.vertices, v ∈ en.store.vertices ∨ v ∈ opened
  opened_mem : ∀ v ∈ opened, v ∈ p.store.vertices ∧ (en.mark v).visited = false
  opened_nodup : opened.Nodup
  count : p.stats.states = opened.length
  kept : ∀ a, (∀ v ∈ opened, v.handle ≠ a) → p.observation.marks.getD a {} = en.marks.getD a {}
  visited : ∀ v ∈ opened, p.observation.marks.getD v.handle {} = { en.mark v with visited := true }
  stack : p.observation.stack = p.path
  linked : Linked sys (p.path ++ en.below)
  nodup : (p.path ++ en.below).Nodup
  path_sub : ∀ v ∈ p.path, v ∈ opened
  base : p.path = [] ∨ p.path.getLast? = some en.start
  seeds : p.seeds = [(en.start, false)] ∧ p.frames = [] ∧ opened = [] ∨
    p.seeds = [] ∧ ((en.mark en.start).visited = true ∨ en.start ∈ opened)
  todo : ∀ f ∈ p.frames, ∀ n ∈ f.todo, n ∈ edgesOf sys (en.mark f.vertex) f.vertex
  edges : ∀ v ∈ opened, ∀ n ∈ edgesOf sys (en.mark v) v,
    (∃ f ∈ p.frames, f.vertex = v ∧ n ∈ f.todo) ∨
      ∃ t ∈ p.store.vertices, t.state = n.1 ∧ en.Passed opened t
  apart : ∀ v ∈ opened, v = en.start ∨ (en.mark v).onStack = false
  inside : ∀ C : Vertex σ → Prop, C en.start →
    (∀ u, C u → ∀ n ∈ edgesOf sys (en.mark u) u, ∃ t ∈ en.store.vertices, t.state = n.1 ∧
      ((en.mark t).onStack = true ∨ (en.mark t).visited = true ∨ C t)) → ∀ v ∈ opened, C v
  closing : p.observation.closing = none
  fault : p.observation.fault = none

namespace Inner

open DepthFirst

variable {sys : System σ} {en : Entry σ} {opened : List (Vertex σ)} {p p' : Position σ (Inner σ)}

theorem Inv.handle_ne (h : Inv sys en opened p) {t : Vertex σ} (ht : t ∈ p.store.vertices)
    (hno : t ∉ opened) : ∀ v ∈ opened, v.handle ≠ t.handle := by
  intro v hv he
  exact hno (h.canonical.eq_of_handle (h.opened_mem v hv).1 ht he ▸ hv)

theorem Inv.mark_cases (h : Inv sys en opened p) {t : Vertex σ} (ht : t ∈ p.store.vertices) :
    t ∈ opened ∧ p.observation.marks.getD t.handle {} = { en.mark t with visited := true } ∨
      t ∉ opened ∧ p.observation.marks.getD t.handle {} = en.mark t := by
  by_cases hm : t ∈ opened
  · exact .inl ⟨hm, h.visited t hm⟩
  · exact .inr ⟨hm, h.kept _ (h.handle_ne ht hm)⟩

theorem Inv.onStack_eq (h : Inv sys en opened p) {t : Vertex σ} (ht : t ∈ p.store.vertices) :
    (p.observation.marks.getD t.handle {}).onStack = (en.mark t).onStack := by
  rcases h.mark_cases ht with ⟨-, hm⟩ | ⟨-, hm⟩
  · rw [hm]
  · rw [hm]

theorem Inv.visited_iff (h : Inv sys en opened p) {t : Vertex σ} (ht : t ∈ p.store.vertices) :
    (p.observation.marks.getD t.handle {}).visited = true ↔
      (en.mark t).visited = true ∨ t ∈ opened := by
  rcases h.mark_cases ht with ⟨hin, hm⟩ | ⟨hout, hm⟩
  · rw [hm]
    exact iff_of_true rfl (.inr hin)
  · rw [hm]
    exact (or_iff_left hout).symm

theorem Inv.placed (h : Inv sys en opened p) (hen : en.Ok sys) :
    Placed p.store p.observation.marks := by
  intro a
  by_cases ha : ∃ v ∈ opened, v.handle = a
  · obtain ⟨v, hv, rfl⟩ := ha
    exact .inr ⟨v, (h.opened_mem v hv).1, rfl⟩
  · rw [h.kept a fun v hv he => ha ⟨v, hv, he⟩]
    exact hen.placed.mono h.grows a

theorem Inv.mark_new (h : Inv sys en opened p) (hen : en.Ok sys) {t : Vertex σ}
    {store' : Store σ} (ha : p.store.Added t store') (hc : store'.Canonical sys) :
    en.mark t = {} ∧ t ∉ opened := by
  refine ⟨(hen.placed.mono h.grows).added ha hc, fun ht => ?_⟩
  exact ha.handle_ne hc (h.opened_mem t ht).1 rfl

section step
variable {v t : Vertex σ} {n : Successor σ} {todo : List (Successor σ)} {frames : List (Frame σ)}
  {seeds : List (Vertex σ × Bool)} {store store' : Store σ} {o : Inner σ}
  {stats stats' : SearchStats} {isNew : Bool}

theorem Inv.skipSeed {b : Bool} (h : Inv sys en opened ⟨[], (v, b) :: seeds, store, o, stats⟩)
    (hv : (o.marks.getD v.handle {}).visited = true) (hen : en.Ok sys) :
    Inv sys en opened ⟨[], seeds, store, o, stats⟩ := by
  obtain ⟨hseeds, -, rfl⟩ := h.seeds.resolve_right fun hx => nomatch hx.1
  obtain ⟨hvb, rfl⟩ := List.cons.inj hseeds
  obtain rfl : v = en.start := congrArg Prod.fst hvb
  have hstart := h.grows _ (hen.mem en.start List.mem_cons_self)
  have hvisited := (h.visited_iff hstart).1 hv
  exact { h with seeds := .inr ⟨rfl, hvisited⟩ }

theorem Inv.openSeed {b : Bool} (h : Inv sys en opened ⟨[], (v, b) :: seeds, store, o, stats⟩)
    (hv : (o.marks.getD v.handle {}).visited = false) (hen : en.Ok sys)
    (hs : stats'.states = stats.states + 1) :
    Inv sys en [v] ⟨[⟨v, edgesOf sys ((o.enter v).marks.getD v.handle {}) v⟩], seeds, store,
      o.enter v, stats'⟩ := by
  obtain ⟨hseeds, -, rfl⟩ := h.seeds.resolve_right fun hx => nomatch hx.1
  obtain ⟨hvb, rfl⟩ := List.cons.inj hseeds
  obtain rfl : v = en.start := congrArg Prod.fst hvb
  have hstart := hen.mem en.start List.mem_cons_self
  have hmark : o.marks.getD en.start.handle {} = en.mark en.start :=
    h.kept _ fun v hv => absurd hv List.not_mem_nil
  have hnew : (o.enter en.start).marks.getD en.start.handle {} =
      { en.mark en.start with visited := true } := by
    rw [enter, Handle.getD_insert, if_pos rfl, hmark]
  rw [hmark] at hv
  rw [hnew]
  have hmem : ∀ v ∈ [en.start], v = en.start := fun v hv => List.mem_singleton.1 hv
  -- nothing was opened before the start, so the fields over opened states are about it alone
  refine { h with
    added := fun v hv => (h.added v hv).imp_right fun hx => absurd hx List.not_mem_nil
    opened_mem := fun v hx => by rw [hmem v hx]; exact ⟨h.grows _ hstart, hv⟩
    opened_nodup := List.nodup_singleton _
    count := ?_
    kept := fun a ha => ?_
    visited := fun v hv => hmem v hv ▸ hnew
    stack := ?_
    linked := hen.linked
    nodup := hen.nodup
    path_sub := fun v hv => hv
    base := .inr rfl
    seeds := .inr ⟨rfl, .inr List.mem_cons_self⟩
    todo := fun f hf n hn => ?_
    edges := fun v hv n hn => .inl ⟨_, List.mem_cons_self, (hmem v hv).symm, hmem v hv ▸ hn⟩
    apart := fun v hv => .inl (hmem v hv)
    inside := fun C hC _ v hv => hmem v hv ▸ hC }
  · exact hs.trans (congrArg (· + 1) h.count)
  · have hne : a ≠ en.start.handle := fun he => ha en.start List.mem_cons_self he.symm
    change (o.marks.insert _ _).getD a {} = _
    rw [Handle.getD_insert, if_neg hne]
    exact h.kept a fun v hv => absurd hv List.not_mem_nil
  · exact congrArg (en.start :: ·) h.stack
  · obtain rfl := List.mem_singleton.1 hf
    exact hn

theorem Inv.edges_next (h : Inv sys en opened ⟨⟨v, n :: todo⟩ :: frames, seeds, store, o, stats⟩)
    {u : Vertex σ} (hu : u ∈ opened) {m : Successor σ} (hm : m ∈ edgesOf sys (en.mark u) u) :
    (∃ f ∈ (⟨v, todo⟩ : Frame σ) :: frames, f.vertex = u ∧ m ∈ f.todo) ∨ m = n ∨
      ∃ t ∈ store.vertices, t.state = m.1 ∧ en.Passed opened t := by
  rcases h.edges u hu m hm with hleft | hdone
  · rcases exists_todo_next hleft with hmn | hleft
    · exact .inr (.inl hmn)
    · exact .inl hleft
  · exact .inr (.inr hdone)

theorem Inv.todo_next (h : Inv sys en opened ⟨⟨v, n :: todo⟩ :: frames, seeds, store, o, stats⟩) :
    ∀ f ∈ (⟨v, todo⟩ : Frame σ) :: frames, ∀ m ∈ f.todo,
      m ∈ edgesOf sys (en.mark f.vertex) f.vertex :=
  forall_todo_next (P := fun u m => m ∈ edgesOf sys (en.mark u) u) h.todo

theorem Inv.skipEdge (h : Inv sys en opened ⟨⟨v, n :: todo⟩ :: frames, seeds, store, o, stats⟩)
    (hen : en.Ok sys) (hst : Store.Stored sys store n.1 t isNew store')
    (hoff : (o.marks.getD t.handle {}).onStack = false)
    (hvisited : (o.marks.getD t.handle {}).visited = true) :
    Inv sys en opened ⟨⟨v, todo⟩ :: frames, seeds, store', o, stats⟩ := by
  have hold : isNew = false := by
    refine Bool.eq_false_iff.2 fun hnew => ?_
    rw [(h.placed hen).added (hst.added hnew) hst.canonical] at hvisited
    cases hvisited
  obtain rfl := hst.found hold
  have hpassed : en.Passed opened t :=
    ⟨(h.onStack_eq hst.mem).symm.trans hoff, (h.visited_iff hst.mem).1 hvisited⟩
  refine { h with
    seeds := .inr (h.seeds.resolve_left fun hx => nomatch hx.2.1)
    todo := h.todo_next
    edges := fun u hu m hm => (h.edges_next hu hm).imp_right ?_ }
  rintro (rfl | hdone)
  · exact ⟨t, hst.mem, hst.state, hpassed⟩
  · exact hdone

theorem Inv.target_fresh (h : Inv sys en opened ⟨⟨v, n :: todo⟩ :: frames, seeds, store, o, stats⟩)
    (hen : en.Ok sys) (hst : Store.Stored sys store n.1 t isNew store')
    (hvisited : (o.marks.getD t.handle {}).visited = false) :
    t ∉ opened ∧ o.marks.getD t.handle {} = en.mark t := by
  -- a vertex that was stored just now has no mark; an old one is not among the opened ones
  cases hnew : isNew with
  | true =>
    obtain ⟨hm, hno⟩ := h.mark_new hen (hst.added hnew) hst.canonical
    exact ⟨hno, ((h.placed hen).added (hst.added hnew) hst.canonical).trans hm.symm⟩
  | false =>
    obtain rfl := hst.found hnew
    refine (h.mark_cases hst.mem).resolve_left fun ⟨_, hm⟩ => ?_
    change o.marks.getD t.handle {} = _ at hm
    rw [hm] at hvisited
    cases hvisited

/-- An edge to a state that is not visited opens the state. -/
theorem Inv.openEdge (h : Inv sys en opened ⟨⟨v, n :: todo⟩ :: frames, seeds, store, o, stats⟩)
    (hx : sys.Explicit) (hen : en.Ok sys) (hst : Store.Stored sys store n.1 t isNew store')
    (hoff : (o.marks.getD t.handle {}).onStack = false)
    (hvisited : (o.marks.getD t.handle {}).visited = false) (hs : stats'.states = stats.states + 1) :
    Inv sys en (t :: opened)
      ⟨⟨t, edgesOf sys ((o.enter t).marks.getD t.handle {}) t⟩ :: ⟨v, todo⟩ :: frames, seeds, store',
        o.enter t, stats'⟩ := by
  obtain ⟨hno, hmark⟩ := h.target_fresh hen hst hvisited
  rw [hmark] at hoff hvisited
  have hnew : (o.enter t).marks.getD t.handle {} = { en.mark t with visited := true } := by
    rw [enter, Handle.getD_insert, if_pos rfl, hmark]
  rw [hnew]
  have hne : ∀ u ∈ opened, u.handle ≠ t.handle := by
    intro u hu he
    exact hno (hst.canonical.eq_of_handle (hst.grows u (h.opened_mem u hu).1) hst.mem he ▸ hu)
  have hother : ∀ a, a ≠ t.handle → (o.enter t).marks.getD a {} = o.marks.getD a {} := by
    intro a ha
    change (o.marks.insert _ _).getD a {} = _
    rw [Handle.getD_insert, if_neg ha]
  have hbelow : t ∉ en.below := by
    intro hb
    have hb := List.mem_cons_of_mem en.start hb
    rw [(hen.onStack t (hen.mem t hb)).2 hb] at hoff
    cases hoff
  have hvo : v ∈ opened := h.path_sub v List.mem_cons_self
  have hn : n ∈ edgesOf sys (en.mark v) v := h.todo _ List.mem_cons_self n List.mem_cons_self
  have hmono : ∀ u, en.Passed opened u → en.Passed (t :: opened) u :=
    fun u hu => ⟨hu.off, hu.visited.imp_right (List.mem_cons_of_mem _)⟩
  refine { h with
    canonical := hst.canonical
    limit := hst.limit.trans h.limit
    within := hst.within h.within (mem_successors_of_mem_edgesOf hx hn)
    grows := fun u hu => hst.grows u (h.grows u hu)
    added := ?added
    opened_mem := ?opened_mem
    opened_nodup := List.nodup_cons.2 ⟨hno, h.opened_nodup⟩
    count := ?count
    kept := ?kept
    visited := ?visited
    stack := congrArg (t :: ·) h.stack
    linked := .cons h.linked (mem_successors_of_mem_edgesOf hx hn) hst.state.symm
    nodup := ?nodup
    path_sub := fun u hu => List.cons_subset_cons t (fun u => h.path_sub u) hu
    base := .inr (h.base.resolve_left fun hx => nomatch hx)
    seeds := ?seeds
    todo := ?todo
    edges := ?edges
    apart := ?apart
    inside := ?inside }
  case added =>
    intro u hu
    rcases hst.origin u hu with rfl | hu
    · exact .inr List.mem_cons_self
    · exact (h.added u hu).imp_right (List.mem_cons_of_mem _)
  case opened_mem =>
    intro u hu
    rcases List.mem_cons.1 hu with rfl | hu
    · exact ⟨hst.mem, hvisited⟩
    · exact ⟨hst.grows u (h.opened_mem u hu).1, (h.opened_mem u hu).2⟩
  case count =>
    rw [List.length_cons]
    exact hs.trans (congrArg (· + 1) h.count)
  case kept =>
    intro a ha
    change (o.enter t).marks.getD a {} = _
    rw [hother a fun he => ha t List.mem_cons_self he.symm]
    exact h.kept a fun u hu => ha u (List.mem_cons_of_mem _ hu)
  case visited =>
    intro u hu
    rcases List.mem_cons.1 hu with rfl | hu
    · exact hnew
    · change (o.enter t).marks.getD u.handle {} = _
      rw [hother _ (hne u hu)]
      exact h.visited u hu
  case nodup =>
    refine List.nodup_cons.2 ⟨fun ht => ?_, h.nodup⟩
    rcases List.mem_append.1 ht with ht | ht
    · exact hno (h.path_sub t ht)
    · exact hbelow ht
  case seeds =>
    obtain ⟨hseeds, hv⟩ := h.seeds.resolve_left fun hx => nomatch hx.2.1
    exact .inr ⟨hseeds, hv.imp_right (List.mem_cons_of_mem _)⟩
  case todo =>
    intro f hf m hm
    rcases List.mem_cons.1 hf with rfl | hf
    · exact hm
    · exact h.todo_next f hf m hm
  case edges =>
    intro u hu m hm
    rcases List.mem_cons.1 hu with rfl | hu
    · exact .inl ⟨_, List.mem_cons_self, rfl, hm⟩
    · rcases h.edges_next hu hm with ⟨f, hf, hfu, hfm⟩ | rfl | ⟨w, hw, hws, hp⟩
      · exact .inl ⟨f, List.mem_cons_of_mem _ hf, hfu, hfm⟩
      · exact .inr ⟨t, hst.mem, hst.state, hoff, .inr List.mem_cons_self⟩
      · exact .inr ⟨w, hst.grows w hw, hws, hmono w hp⟩
  case apart =>
    intro u hu
    rcases List.mem_cons.1 hu with rfl | hu
    · exact .inr hoff
    · exact h.apart u hu
  case inside =>
    intro C hC hstep u hu
    rcases List.mem_cons.1 hu with rfl | hu
    · obtain ⟨w, hw, hws, hcase⟩ := hstep v (h.inside C hC hstep v hvo) n hn
      -- the target is stored already, as the step on `C` says
      obtain rfl := hst.canonical.eq_of_state (hst.grows w (h.grows w hw)) hst.mem
        (hws.trans hst.state.symm)
      rw [hoff, hvisited] at hcase
      exact (hcase.resolve_left Bool.false_ne_true).resolve_left Bool.false_ne_true
    · exact h.inside C hC hstep u hu

theorem closed_top {rest : List (Vertex σ)} (hstack : o.stack = v :: rest) :
    closed v o = (.process, { o with stack := rest }) := by
  simp only [closed, hstack, if_true]

theorem Inv.close (h : Inv sys en opened ⟨⟨v, []⟩ :: frames, seeds, store, o, stats⟩) :
    Inv sys en opened ⟨frames, seeds, store, { o with stack := frames.map (·.vertex) }, stats⟩ := by
  refine { h with
    stack := rfl
    linked := h.linked.tail
    nodup := (List.nodup_cons.1 h.nodup).2
    path_sub := fun u hu => h.path_sub u (List.mem_cons_of_mem _ hu)
    base := ?_
    seeds := .inr (h.seeds.resolve_left fun hx => nomatch hx.2.1)
    todo := fun f hf => h.todo f (List.mem_cons_of_mem _ hf)
    edges := fun u hu m hm => (h.edges u hu m hm).imp_left exists_todo_closed }
  · have hlast : (v :: frames.map (·.vertex)).getLast? = some en.start :=
      h.base.resolve_left fun hx => nomatch hx
    cases frames with
    | nil => exact .inl rfl
    | cons f frames => exact .inr hlast

end step

theorem inv_start (hen : en.Ok sys) :
    Inv sys en [] ⟨[], [(en.start, false)], en.store, { marks := en.marks }, {}⟩ where
  canonical := hen.canonical
  limit := rfl
  within := hen.within
  grows _ hv := hv
  added _ hv := .inl hv
  opened_mem _ hv := absurd hv List.not_mem_nil
  opened_nodup := .nil
  count := rfl
  kept _ _ := rfl
  visited _ hv := absurd hv List.not_mem_nil
  stack := rfl
  linked := hen.linked.tail
  nodup := (List.nodup_cons.1 hen.nodup).2
  path_sub _ hv := hv
  base := .inl rfl
  seeds := .inl ⟨rfl, rfl, rfl⟩
  todo _ hf := absurd hf List.not_mem_nil
  edges _ hv := absurd hv List.not_mem_nil
  apart _ hv := absurd hv List.not_mem_nil
  inside _ _ _ _ hv := absurd hv List.not_mem_nil
  closing := rfl
  fault := rfl

/-- A step of an inner search that does not end it keeps the invariant, with the state that it opens
added to the opened ones. -/
theorem Inv.step (hx : sys.Explicit) (hen : en.Ok sys) (h : Inv sys en opened p)
    (hg : Goes sys (listener sys en.start.handle) p p') :
    Inv sys en ((p.opens p').map (·.vertex) ++ opened) p' := by
  -- the listener tells which of the five steps it can be, from the marks of the target
  cases hg with
  | @skipSeed v b seeds store o o' stats hf =>
    rw [Position.opens_eq_nil]
    rw [follow_seed] at hf
    split at hf
    · cases hf
      exact h.skipSeed ‹_› hen
    · cases hf
  | @openSeed v b seeds store o o' stats stats' hf hs =>
    obtain ⟨-, -, rfl⟩ := h.seeds.resolve_right fun hx => nomatch hx.1
    rw [Position.opens_eq_singleton hs]
    rw [follow_seed] at hf
    split at hf
    · cases hf
    · rename_i hv
      cases hf
      rw [listener_successors]
      exact h.openSeed (Bool.eq_false_iff.2 hv) hen hs
  | @skipEdge v n todo frames seeds store o t isNew store' o' stats hst hf =>
    have hst := h.canonical.stored hx hst
    rw [Position.opens_eq_nil]
    rw [follow_edge] at hf
    split at hf
    · cases hf
    · rename_i hoff
      split at hf
      · cases hf
        exact h.skipEdge hen hst (Bool.eq_false_iff.2 fun ho => hoff (.inr ho)) ‹_›
      · cases hf
  | @openEdge v n todo frames seeds store o t isNew store' o' stats stats' hst hf hs =>
    have hst := h.canonical.stored hx hst
    rw [Position.opens_eq_singleton hs]
    rw [follow_edge] at hf
    split at hf
    · cases hf
    · rename_i hoff
      split at hf
      · cases hf
      · rename_i hv
        cases hf
        rw [listener_successors]
        exact h.openEdge hx hen hst (Bool.eq_false_iff.2 fun ho => hoff (.inr ho))
          (Bool.eq_false_iff.2 hv) hs
  | @close v frames seeds store o action store' o' stats hc ha =>
    rw [Position.opens_eq_nil]
    change ((closed v o).1, store, (closed v o).2) = _ at hc
    rw [closed_top h.stack] at hc
    cases hc
    exact h.close

theorem Inv.mem_stack (h : Inv sys en opened p) (hen : en.Ok sys) {n : Successor σ} {t : Vertex σ}
    {isNew : Bool} {store' : Store σ} (hst : Store.Stored sys p.store n.1 t isNew store')
    (ht : t.handle = en.start.handle ∨ (p.observation.marks.getD t.handle {}).onStack = true) :
    t ∈ en.start :: en.below := by
  rcases ht with ht | ht
  · have hstart := hst.grows _ (h.grows _ (hen.mem en.start List.mem_cons_self))
    exact hst.canonical.eq_of_handle hst.mem hstart ht ▸ List.mem_cons_self
  · cases hnew : isNew with
    | true =>
      rw [(h.placed hen).added (hst.added hnew) hst.canonical] at ht
      cases ht
    | false =>
      obtain rfl := hst.found hnew
      rw [h.onStack_eq hst.mem] at ht
      rcases h.added t hst.mem with hm | hm
      · exact (hen.onStack t hm).1 ht
      · rcases h.apart t hm with rfl | hoff
        · exact List.mem_cons_self
        · rw [hoff] at ht
          cases ht

/-- The inner search has come back to the outer stack: the latest open state has an edge to `t`. -/
structure Closed (sys : System σ) (en : Entry σ) (stack : List (Vertex σ)) (t : Vertex σ) :
    Prop where
  mem : t ∈ en.start :: en.below
  base : stack.getLast? = some en.start
  linked : Linked sys (stack ++ en.below)
  nodup : ((stack ++ en.below).map (·.state)).Nodup
  edge : ∃ v ∈ stack.head?, ∃ n ∈ sys.successors v.state, n.1 = t.state

/-- How an inner search ends. -/
inductive Result (sys : System σ) (en : Entry σ) : Exploration σ (Inner σ) → Prop where
  | full {store o stats e} (hf : o.fault = none) (hl : en.store.budget.limit ≠ none) :
    Result sys en ⟨store, o, stats, some (.exhausted e)⟩
  | cycle {store o stats t} (hf : o.fault = none) (ht : o.closing = some t)
    (h : Closed sys en o.stack t) : Result sys en ⟨store, o, stats, some .terminated⟩
  | none {store o stats opened} (h : Inv sys en opened ⟨[], [], store, o, stats⟩) :
    Result sys en ⟨store, o, stats, some .completed⟩

theorem Inv.mem_store (h : Inv sys en opened p) (hen : en.Ok sys) {v : Vertex σ}
    (hv : v ∈ p.path ++ en.below) : v ∈ p.store.vertices := by
  rcases List.mem_append.1 hv with hv | hv
  · exact (h.opened_mem v (h.path_sub v hv)).1
  · exact h.grows v (hen.mem v (List.mem_cons_of_mem _ hv))

theorem Inv.halts (h : Inv sys en opened p) (hx : sys.Explicit) (hen : en.Ok sys)
    {e : Exploration σ (Inner σ)} (hh : Halts sys (listener sys en.start.handle) p e) :
    Result sys en e := by
  cases hh with
  | completed => exact .none h
  | stopSeed hf =>
    rw [follow_seed] at hf
    split at hf <;> cases hf
  | @full v n todo frames seeds store o e stats hst =>
    refine .full h.fault ?_
    rw [← h.limit]
    exact h.canonical.limit_of_error hx hst
  | @stopEdge v n todo frames seeds store o t isNew store' o' stats hst hf =>
    have hst := h.canonical.stored hx hst
    rw [follow_edge] at hf
    split at hf
    · rename_i hback
      cases hf
      have hn := mem_successors_of_mem_edgesOf hx
        (h.todo _ List.mem_cons_self n List.mem_cons_self)
      have hstack : o.stack = v :: frames.map (·.vertex) := h.stack
      -- the inner stack is the path from the start, and lies on top of the outer one
      refine .cycle h.fault rfl
        ⟨h.mem_stack hen hst hback, ?_, ?_, ?_, ⟨v, ?_, n, hn, hst.state.symm⟩⟩
      · exact h.stack ▸ h.base.resolve_left fun hx => nomatch hx
      · exact h.stack ▸ h.linked
      · rw [h.stack]
        refine h.nodup.map_on fun a ha b hb hab => ?_
        exact h.canonical.eq_of_state (h.mem_store hen ha) (h.mem_store hen hb) hab
      · change v ∈ o.stack.head?
        rw [hstack]
        rfl
    · split at hf <;> cases hf
  | @stopClose v frames seeds store o store' o' stats hc =>
    change ((closed v o).1, store, (closed v o).2) = _ at hc
    rw [closed_top h.stack] at hc
    cases hc

theorem length_successors_le (hx : sys.Explicit) (start : Handle) (store : Store σ) (v : Vertex σ)
    (o : Inner σ) : ((listener sys start).successors 0 store v o).1.length ≤ sys.degree := by
  rw [listener_successors]
  exact length_edgesOf_le hx _ v

theorem Inv.states_le (h : Inv sys en opened p) (hx : sys.Explicit) :
    p.stats.states ≤ sys.extent := by
  rw [h.count]
  have hsub := List.subperm_of_subset h.opened_nodup fun v hv => (h.opened_mem v hv).1
  exact hsub.length_le.trans (h.within.length_le h.canonical.toDistinct hx)

theorem search_result (hx : sys.Explicit) (hen : en.Ok sys) :
    Result sys en (DepthFirst.run sys (listener sys en.start.handle) sys.extent
      (.vertices [en.start]) en.store { marks := en.marks }) := by
  have hstart : ∃ opened,
      Inv sys en opened ⟨[], [(en.start, false)], en.store, { marks := en.marks }, {}⟩ :=
    ⟨[], inv_start hen⟩
  have hseeds : (Seeds.vertices [en.start]).resolve sys en.store =
      .ok ([(en.start, false)], en.store) := rfl
  obtain ⟨p, ⟨opened, hp⟩, hh⟩ := run_halts (P := fun p => ∃ opened, Inv sys en opened p) hseeds
    (fun _ _ => rfl) (length_successors_le hx en.start.handle) hstart
    (fun p p' ⟨_, h⟩ hg => ⟨_, h.step hx hen hg⟩) fun p ⟨_, h⟩ => h.states_le hx
  exact hp.halts hx hen hh

end Inner

end Nested

end ModelChecker
