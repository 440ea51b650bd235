import ModelChecker.Proofs.SearchRun
import ModelChecker.Proofs.Store

namespace ModelChecker

variable {σ ω : Type}

theorem System.Reachable.step {sys : System σ} {a : σ} {n : Successor σ} (h : sys.Reachable a)
    (hn : n ∈ sys.successors a) : sys.Reachable n.1 := by
  obtain ⟨s, hs, hpath⟩ := h
  exact ⟨s, hs, hpath.tail ⟨n, hn, rfl⟩⟩

theorem System.Reachable.within {sys : System σ} {s : σ} (h : sys.Reachable s) :
    s ∈ sys.initials ∨ ∃ a, ∃ n ∈ sys.successors a, n.1 = s := by
  obtain ⟨i, hi, hpath⟩ := h
  rcases hpath.cases_tail with heq | ⟨a, -, n, hn, hna⟩
  · exact .inl (heq ▸ hi)
  · exact .inr ⟨a, n, hn, hna⟩

/-- There are more reachable states than the limit allows. -/
def System.Exceeds (sys : System σ) (limit : Option Nat) : Prop :=
  ∃ n, limit = some n ∧ ∃ l : List σ, l.Nodup ∧ (∀ s ∈ l, sys.Reachable s) ∧ n < l.length

namespace Store

variable {sys : System σ} {s s' : Store σ}

theorem Stored.size_shards {x : σ} {v : Vertex σ} {isNew : Bool}
    (h : Stored sys s x v isNew s') : s'.shards.size = s.shards.size := by
  cases isNew with
  | true => exact (h.added rfl).size_shards
  | false => rw [h.found rfl]

theorem Stored.mem_of_ne {x : σ} {t v : Vertex σ} {isNew : Bool} (h : Stored sys s x t isNew s')
    (hv : v ∈ s'.vertices) (hnew : ¬ (v = t ∧ isNew = true)) : v ∈ s.vertices := by
  rcases h.origin v hv with rfl | hv
  · exact h.found (Bool.eq_false_iff.2 fun hn => hnew ⟨rfl, hn⟩) ▸ hv
  · exact hv

theorem Stored.mem_or_fresh {x : σ} {t v : Vertex σ} {isNew : Bool}
    (h : Stored sys s x t isNew s') (hv : v ∈ s'.vertices) :
    v ∈ s.vertices ∨ ∀ u ∈ s.vertices, u.handle ≠ v.handle := by
  cases isNew with
  | false => exact .inl (h.found rfl ▸ hv)
  | true =>
    rcases h.origin v hv with rfl | hv
    · exact .inr fun u hu => (h.added rfl).handle_ne h.canonical hu
    · exact .inl hv

theorem Distinct.store_error (h : s.Distinct sys) (hx : sys.Explicit) {x : σ} {e : Exhausted}
    (he : sys.store s x = .error e) :
    (∃ n, s.budget.limit = some n ∧ n ≤ s.size) ∧ e = ⟨s.size⟩ ∧
      ∀ u ∈ s.vertices, u.state ≠ x := by
  rcases h.store_cases hx x with ⟨v, -, -, hs⟩ | ⟨v, after, hs, -⟩ | ⟨n, hn, hle, hs⟩
  · cases he.symm.trans hs
  · cases he.symm.trans hs
  · cases he.symm.trans hs
    refine ⟨⟨n, hn, hle⟩, rfl, ?_⟩
    rintro u hu rfl
    -- a stored state is found before the limit is looked at
    rcases h.filed.insert_cases sys.same (sys.fingerprint u.state) u.state with
      ⟨v, -, -, -, hi⟩ | ⟨habsent, -⟩
    · cases hs.symm.trans hi
    · have hf := habsent u hu (h.fingerprint u hu)
      rw [(hx.same_iff _ _).2 rfl] at hf
      cases hf

theorem Distinct.exceeds (h : s.Distinct sys) (hr : ∀ v ∈ s.vertices, sys.Reachable v.state)
    {n : Nat} (hn : s.budget.limit = some n) (hle : n ≤ s.size) {x : σ} (hx : sys.Reachable x)
    (hnew : ∀ u ∈ s.vertices, u.state ≠ x) : sys.Exceeds s.budget.limit := by
  refine ⟨n, hn, x :: s.vertices.map (·.state), List.nodup_cons.2 ⟨fun hm => ?_, h.nodup⟩, ?_, ?_⟩
  · obtain ⟨u, hu, hux⟩ := List.mem_map.1 hm
    exact hnew u hu hux
  · refine List.forall_mem_cons.2 ⟨hx, fun y hy => ?_⟩
    obtain ⟨v, hv, rfl⟩ := List.mem_map.1 hy
    exact hr v hv
  · rw [List.length_cons, List.length_map, ← h.size_eq]
    omega

/-- Seeds that cannot all be stored exceed the limit, and it is reached when one is kept out. -/
theorem Distinct.resolve_error (h : s.Distinct sys) (hx : sys.Explicit)
    (hr : ∀ v ∈ s.vertices, sys.Reachable v.state) {states : List σ}
    (hs : ∀ x ∈ states, sys.Reachable x) {e : Exhausted}
    (he : sys.resolve states s = .error (e, s')) :
    sys.Exceeds s.budget.limit ∧
      ((∀ n, s.budget.limit = some n → s.size ≤ n) → s.budget.limit = some e.states) := by
  induction states generalizing s with
  | nil => cases he
  | cons x rest ih =>
    obtain ⟨hxr, hrest⟩ := List.forall_mem_cons.1 hs
    unfold System.resolve at he
    rcases h.store_cases hx x with ⟨v, hv, hvx, hstore⟩ | ⟨v, after, hstore, hvx, -, ha, hd⟩ |
      ⟨n, hn, hle, hstore⟩
    · rw [hstore] at he
      cases hres : sys.resolve rest s with
      | error p =>
        simp only [hres, Except.map] at he
        cases he
        exact ih h hr hrest hres
      | ok p =>
        simp only [hres, Except.map] at he
        cases he
    · have hreach : ∀ u ∈ after.vertices, sys.Reachable u.state := by
        intro u hu
        rcases ha.mem_iff.1 hu with rfl | hu
        · exact hvx ▸ hxr
        · exact hr u hu
      rw [hstore] at he
      cases hres : sys.resolve rest after with
      | error p =>
        simp only [hres, Except.map] at he
        cases he
        obtain ⟨hex, hcount⟩ := ih hd hreach hrest hres
        rw [ha.limit] at hex hcount
        exact ⟨hex, fun _ => hcount fun n hn => ha.size_eq h.filed ▸ ha.room n hn⟩
      | ok p =>
        simp only [hres, Except.map] at he
        cases he
    · rw [hstore] at he
      cases he
      refine ⟨h.exceeds hr hn hle hxr (h.store_error hx hstore).2.2, fun hsize => ?_⟩
      rw [hn, (hsize n hn).antisymm hle]

theorem Canonical.resolve_perm (h : s.Canonical sys) (hx : sys.Explicit) {states : List σ}
    {vs : List (Vertex σ × Bool)} (hr : sys.resolve states s = .ok (vs, s')) :
    s'.vertices.Perm ((vs.filter (·.2)).map (·.1) ++ s.vertices) := by
  induction states generalizing s vs with
  | nil =>
    cases hr
    exact List.Perm.refl _
  | cons x rest ih =>
    unfold System.resolve at hr
    cases hstore : sys.store s x with
    | error e =>
      rw [hstore] at hr
      cases hr
    | ok i =>
      obtain ⟨v, isNew, after⟩ := i
      have hst := h.stored hx hstore
      rw [hstore] at hr
      cases hres : sys.resolve rest after with
      | error p =>
        simp only [hres, Except.map] at hr
        cases hr
      | ok p =>
        simp only [hres, Except.map] at hr
        cases hr
        have hperm := ih hst.canonical hres
        cases isNew with
        | false => exact hst.found rfl ▸ hperm
        | true =>
          -- the new vertex goes in front of those that the rest of the seeds adds
          have hadd := (hst.added rfl).perm.append_left ((p.1.filter (·.2)).map (·.1))
          exact hperm.trans (hadd.trans List.perm_middle)

end Store

namespace Work

/-- The work after the listener has answered for a stored target. -/
def told (w : Work σ ω) (rest : Multiset (WorkItem σ)) (target : Vertex σ) (r : Step × ω) :
    Work σ ω :=
  w.offered rest (Listener.settle r.1 target w.store r.2)

section fields
variable (w : Work σ ω) (rest : Multiset (WorkItem σ)) (t v : Vertex σ)

@[simp] theorem told_store (r : Step × ω) : (w.told rest t r).store = w.store := by
  rcases r with ⟨step, o⟩
  cases step <;> rfl

@[simp] theorem told_observation (r : Step × ω) : (w.told rest t r).observation = r.2 := by
  rcases r with ⟨step, o⟩
  cases step <;> rfl

@[simp] theorem told_stats (r : Step × ω) : (w.told rest t r).stats = w.stats := by
  rcases r with ⟨step, o⟩
  cases step <;> rfl

@[simp] theorem told_items (r : Step × ω) : (w.told rest t r).items =
    if r.1 = .expand then .visit t ::ₘ rest else rest := by
  rcases r with ⟨step, o⟩
  cases step <;> rfl

@[simp] theorem told_raised (r : Step × ω) : (w.told rest t r).interrupt.raised =
    (w.interrupt.raised || decide (r.1 = .stop)) := by
  rcases r with ⟨step, o⟩
  cases step <;> simp [told, offered, Listener.settle, Interrupt.raise]

@[simp] theorem told_failure (r : Step × ω) :
    (w.told rest t r).interrupt.failure = w.interrupt.failure := by
  rcases r with ⟨step, o⟩
  cases step <;> rfl

variable (r : Option (List (Successor σ)) × SearchStats × ω)

@[simp] theorem visited_store : (w.visited v rest r).store = w.store := by
  rcases r with ⟨next, stats, o⟩
  cases next <;> rfl

@[simp] theorem visited_observation : (w.visited v rest r).observation = r.2.2 := by
  rcases r with ⟨next, stats, o⟩
  cases next <;> rfl

@[simp] theorem visited_stats : (w.visited v rest r).stats = w.stats + r.2.1 := by
  rcases r with ⟨next, stats, o⟩
  cases next <;> rfl

@[simp] theorem visited_items : (w.visited v rest r).items =
    ↑((r.1.getD []).map (WorkItem.arrival (some v))) + rest := by
  rcases r with ⟨next, stats, o⟩
  cases next with
  | none => exact (zero_add rest).symm
  | some next => rfl

@[simp] theorem visited_raised : (w.visited v rest r).interrupt.raised =
    (w.interrupt.raised || r.1.isNone) := by
  rcases r with ⟨next, stats, o⟩
  cases next <;> simp [visited, Interrupt.raise]

@[simp] theorem visited_failure :
    (w.visited v rest r).interrupt.failure = w.interrupt.failure := by
  rcases r with ⟨next, stats, o⟩
  cases next <;> rfl

end fields

section items
variable {w : Work σ ω} {x y : WorkItem σ} {rest : Multiset (WorkItem σ)}

theorem mem_told_items (hi : w.items = x ::ₘ rest) (hy : y ∈ w.items) (hne : y ≠ x)
    (t : Vertex σ) (r : Step × ω) : y ∈ (w.told rest t r).items := by
  rw [hi] at hy
  have hrest := (Multiset.mem_cons.1 hy).resolve_left hne
  rw [told_items]
  split
  · exact Multiset.mem_cons_of_mem hrest
  · exact hrest

theorem visit_mem_told {source : Option (Vertex σ)} {t v : Vertex σ} {flags : EdgeFlags}
    {isNew : Bool} (hi : w.items = .met source t flags isNew ::ₘ rest) (hv : .visit v ∈ w.items)
    (r : Step × ω) : .visit v ∈ (w.told rest t r).items :=
  mem_told_items hi hv nofun t r

theorem mem_of_mem_told (hi : w.items = x ::ₘ rest) {t : Vertex σ} {r : Step × ω}
    (hy : y ∈ (w.told rest t r).items) :
    y = .visit t ∧ r.1 = .expand ∨ y ∈ w.items := by
  have hrest : y ∈ rest → y ∈ w.items := fun hy => hi ▸ Multiset.mem_cons_of_mem hy
  rw [told_items] at hy
  split at hy
  · rename_i hstep
    exact (Multiset.mem_cons.1 hy).imp (fun he => ⟨he, hstep⟩) hrest
  · exact .inr (hrest hy)

theorem awaited_told {source s : Option (Vertex σ)} {t : Vertex σ} {flags : EdgeFlags}
    {isNew : Bool} {n : Successor σ} (hi : w.items = .met source t flags isNew ::ₘ rest)
    (h : Awaited w.items s n) (r : Step × ω) :
    Awaited (w.told rest t r).items s n ∨ source = s ∧ (t.state, flags) = n := by
  refine (awaited_offered (hi ▸ h) w _).symm.imp_right fun hx => ?_
  cases hx
  exact ⟨rfl, rfl⟩

theorem visit_mem_stored {source : Option (Vertex σ)} {next : Successor σ} {t v : Vertex σ}
    {isNew : Bool} (hi : w.items = .arrival source next ::ₘ rest) :
    .visit v ∈ WorkItem.met source t next.2 isNew ::ₘ rest ↔ .visit v ∈ w.items := by
  rw [hi, Multiset.mem_cons, Multiset.mem_cons]
  simp

theorem awaited_stored {sys : System σ} {source s : Option (Vertex σ)} {next n : Successor σ}
    {t : Vertex σ} {isNew : Bool} {store' : Store σ}
    (hi : w.items = .arrival source next ::ₘ rest)
    (hs : Store.Stored sys w.store next.1 t isNew store') :
    Awaited (.met source t next.2 isNew ::ₘ rest) s n ↔ Awaited w.items s n :=
  hi ▸ awaited_met hs.state

theorem mem_visited_items {v : Vertex σ} (hi : w.items = .visit v ::ₘ rest) (hy : y ∈ w.items)
    (hne : y ≠ .visit v) (r : Option (List (Successor σ)) × SearchStats × ω) :
    y ∈ (w.visited v rest r).items := by
  rw [hi] at hy
  rw [visited_items]
  exact Multiset.mem_add.2 (.inr ((Multiset.mem_cons.1 hy).resolve_left hne))

theorem mem_of_mem_visited {v : Vertex σ} (hi : w.items = .visit v ::ₘ rest)
    {r : Option (List (Successor σ)) × SearchStats × ω} (hy : y ∈ (w.visited v rest r).items) :
    (∃ n ∈ r.1.getD [], y = .arrival (some v) n) ∨ y ∈ w.items := by
  rw [visited_items] at hy
  rcases Multiset.mem_add.1 hy with hy | hy
  · obtain ⟨n, hn, rfl⟩ := List.mem_map.1 (Multiset.mem_coe.1 hy)
    exact .inl ⟨n, hn, rfl⟩
  · exact .inr (hi ▸ Multiset.mem_cons_of_mem hy)

theorem Awaited.of_told {source : Option (Vertex σ)} {n : Successor σ}
    (hi : w.items = x ::ₘ rest) {t : Vertex σ} {r : Step × ω}
    (h : Awaited (w.told rest t r).items source n) : Awaited w.items source n := by
  obtain ⟨y, hy, hedge⟩ := h
  rcases mem_of_mem_told hi hy with ⟨rfl, -⟩ | hy
  · cases hedge
  · exact ⟨y, hy, hedge⟩

theorem Awaited.of_visited {source : Option (Vertex σ)} {n : Successor σ} {v : Vertex σ}
    (hi : w.items = .visit v ::ₘ rest) {r : Option (List (Successor σ)) × SearchStats × ω}
    (h : Awaited (w.visited v rest r).items source n) :
    source = some v ∧ n ∈ r.1.getD [] ∨ Awaited w.items source n := by
  obtain ⟨y, hy, hedge⟩ := h
  rcases mem_of_mem_visited hi hy with ⟨e, he, rfl⟩ | hy
  · cases hedge
    exact .inl ⟨rfl, he⟩
  · exact .inr ⟨y, hy, hedge⟩

end items

/-- What moves are made of when states are told apart by equality. -/
inductive Event (sys : System σ) (l : Listener σ ω) (w : Work σ ω) : Work σ ω → Prop where
  | stored {source next t isNew store' rest} (hi : w.items = .arrival source next ::ₘ rest)
    (hs : Store.Stored sys w.store next.1 t isNew store') :
    Event sys l w { w with store := store', items := .met source t next.2 isNew ::ₘ rest }
  | told {source t flags isNew rest} (worker : Nat)
    (hi : w.items = .met source t flags isNew ::ₘ rest) :
    Event sys l w (w.told rest t (l.follow worker source t flags isNew w.observation))
  /-- The target of an edge is not stored, as the store is full. -/
  | full {source next rest n} (hi : w.items = .arrival source next ::ₘ rest)
    (hn : w.store.budget.limit = some n) (hle : n ≤ w.store.size)
    (hnew : ∀ u ∈ w.store.vertices, u.state ≠ next.1) :
    Event sys l w { w with
      items := rest
      interrupt := w.interrupt.raise (.exhausted ⟨w.store.size⟩) }
  | visit {v rest} (worker : Nat) (hi : w.items = .visit v ::ₘ rest) :
    Event sys l w (w.visited v rest (l.expand worker w.store v {} w.observation))
  | abandon {rest} (hr : w.interrupt.raised = true) (hle : rest ≤ w.items) :
    Event sys l w { w with items := rest }

abbrev Events (sys : System σ) (l : Listener σ ω) : Work σ ω → Work σ ω → Prop :=
  Relation.ReflTransGen (Event sys l)

variable {sys : System σ} {l : Listener σ ω} {w w' : Work σ ω} {s₀ : Store σ}

theorem Event.canonical (h : Event sys l w w') (hc : w.store.Canonical sys) :
    w'.store.Canonical sys := by
  cases h with
  | stored _ hs => exact hs.canonical
  | told => rwa [told_store]
  | visit => rwa [visited_store]
  | full | abandon => exact hc

theorem Events.preserve {P : Work σ ω → Prop} (hstep : ∀ w w', P w → Event sys l w w' → P w')
    (h : Events sys l w w') (hw : P w) : P w' := by
  induction h with
  | refl => exact hw
  | tail _ he ih => exact hstep _ _ ih he

/-- A target that is stored and told of at once makes two events. -/
theorem Move.events (h : Move sys l w w') (hc : w.store.Canonical sys) (hx : sys.Explicit) :
    Events sys l w w' := by
  cases h with
  | store hi hs => exact .single (.stored hi (hc.stored hx hs))
  | tell worker hi => exact .single (.told worker hi)
  | @arrival source next rest worker hi =>
    rw [Listener.offer_eq]
    cases hstore : sys.store w.store next.1 with
    | error e =>
      obtain ⟨⟨n, hn, hle⟩, rfl, hnew⟩ := hc.store_error hx hstore
      exact .single (.full hi hn hle hnew)
    | ok i =>
      obtain ⟨t, isNew, store'⟩ := i
      have htold : Event sys l
          { w with store := store', items := .met source t next.2 isNew ::ₘ rest } _ :=
        .told worker rfl
      rw [told, offered_stored] at htold
      exact .tail (.single (.stored hi (hc.stored hx hstore))) htold
  | visit worker hi => exact .single (.visit worker hi)
  | abandon hr hle => exact .single (.abandon hr hle)

theorem Moves.events (h : Moves sys l w w') (hc : w.store.Canonical sys) (hx : sys.Explicit) :
    Events sys l w w' := by
  induction h with
  | refl => exact .refl
  | tail _ hm ih =>
    have hcan := ih.preserve (P := fun w => w.store.Canonical sys)
      (fun _ _ hc he => he.canonical hc) hc
    exact ih.trans (hm.events hcan hx)

/-- The states of an item are stored already, or reachable. -/
def Rests (sys : System σ) (store : Store σ) : WorkItem σ → Prop
  | .met none v _ _ => v ∈ store.vertices
  | .met (some u) v flags _ => v ∈ store.vertices ∧ u ∈ store.vertices ∧
    (v.state, flags) ∈ sys.successors u.state
  | .visit v => v ∈ store.vertices
  | .arrival none n => sys.Reachable n.1
  | .arrival (some u) n => u ∈ store.vertices ∧ n ∈ sys.successors u.state

theorem Rests.mono {store store' : Store σ} {x : WorkItem σ} (h : Rests sys store x)
    (hsub : ∀ v ∈ store.vertices, v ∈ store'.vertices) : Rests sys store' x := by
  cases x with
  | met source v flags b =>
    cases source with
    | none => exact hsub v h
    | some u => exact ⟨hsub v h.1, hsub u h.2.1, h.2.2⟩
  | visit v => exact hsub v h
  | arrival source n =>
    cases source with
    | none => exact h
    | some u => exact ⟨hsub u h.1, h.2⟩

theorem Rests.target {store : Store σ} {source : Option (Vertex σ)} {t : Vertex σ}
    {flags : EdgeFlags} {isNew : Bool} (h : Rests sys store (.met source t flags isNew)) :
    t ∈ store.vertices := by
  cases source with
  | none => exact h
  | some u => exact h.1

theorem Rests.stored {store store' : Store σ} {source : Option (Vertex σ)} {next : Successor σ}
    {t : Vertex σ} {isNew : Bool} (h : Rests sys store (.arrival source next))
    (hs : Store.Stored sys store next.1 t isNew store') :
    Rests sys store' (.met source t next.2 isNew) := by
  cases source with
  | none => exact hs.mem
  | some u => exact ⟨hs.mem, hs.grows u h.1, hs.state ▸ h.2⟩

/-- What any search keeps that was started on the store `s₀`. -/
structure Grounded (sys : System σ) (s₀ : Store σ) (w : Work σ ω) : Prop where
  canonical : w.store.Canonical sys
  limit : w.store.budget.limit = s₀.budget.limit
  shards : w.store.shards.size = s₀.shards.size
  sub : ∀ v ∈ s₀.vertices, v ∈ w.store.vertices
  reachable : ∀ v ∈ w.store.vertices, sys.Reachable v.state
  items : ∀ x ∈ w.items, Rests sys w.store x
  failure : w.interrupt.failure.isSome = true →
    w.interrupt.raised = true ∧ sys.Exceeds s₀.budget.limit

theorem Grounded.restart (h : Grounded sys s₀ w) : Grounded sys w.store w where
  canonical := h.canonical
  limit := rfl
  shards := rfl
  sub _ hv := hv
  reachable := h.reachable
  items := h.items
  failure := h.limit ▸ h.failure

theorem Grounded.awaited (h : Grounded sys s₀ w) {u : Vertex σ} {n : Successor σ}
    (ha : Awaited w.items (some u) n) :
    u ∈ w.store.vertices ∧ n ∈ sys.successors u.state := by
  obtain ⟨x, hx, hedge⟩ := ha
  have hrests := h.items x hx
  cases x with
  | met =>
    cases hedge
    exact hrests.2
  | arrival =>
    cases hedge
    exact hrests
  | visit => cases hedge

theorem Grounded.target (h : Grounded sys s₀ w) {source : Option (Vertex σ)} {t : Vertex σ}
    {flags : EdgeFlags} {isNew : Bool} (hx : .met source t flags isNew ∈ w.items) :
    t ∈ w.store.vertices :=
  (h.items _ hx).target

theorem Grounded.reachable_arrival (h : Grounded sys s₀ w) {source : Option (Vertex σ)}
    {n : Successor σ} (hx : .arrival source n ∈ w.items) : sys.Reachable n.1 := by
  have hitem := h.items _ hx
  cases source with
  | none => exact hitem
  | some u => exact (h.reachable u hitem.1).step hitem.2

section steps
variable {source : Option (Vertex σ)} {n : Successor σ} {t v : Vertex σ} {isNew : Bool}
  {store' : Store σ} {x : WorkItem σ} {rest : Multiset (WorkItem σ)}

theorem Grounded.placed (h : Grounded sys s₀ w) (hi : w.items = .arrival source n ::ₘ rest)
    (hs : Store.Stored sys w.store n.1 t isNew store') :
    Grounded sys s₀
      { w with store := store', items := .met source t n.2 isNew ::ₘ rest } := by
  have hmem : .arrival source n ∈ w.items := hi ▸ Multiset.mem_cons_self _ rest
  refine ⟨hs.canonical, hs.limit.trans h.limit, hs.size_shards.trans h.shards,
    fun v hv => hs.grows v (h.sub v hv), fun v hv => ?_, fun y hy => ?_, h.failure⟩
  · rcases hs.origin v hv with rfl | hv
    · exact hs.state ▸ h.reachable_arrival hmem
    · exact h.reachable v hv
  · rcases Multiset.mem_cons.1 hy with rfl | hy
    · exact (h.items _ hmem).stored hs
    · exact (h.items y (hi ▸ Multiset.mem_cons_of_mem hy)).mono hs.grows

theorem Grounded.told (h : Grounded sys s₀ w) (hi : w.items = x ::ₘ rest)
    (ht : t ∈ w.store.vertices) (r : Step × ω) : Grounded sys s₀ (w.told rest t r) := by
  refine ⟨?_, ?_, ?_, ?_, ?_, fun y hy => ?_, fun hf => ?_⟩
  all_goals simp only [told_store, told_raised, told_failure] at *
  · exact h.canonical
  · exact h.limit
  · exact h.shards
  · exact h.sub
  · exact h.reachable
  · rcases mem_of_mem_told hi hy with ⟨rfl, -⟩ | hy
    · exact ht
    · exact h.items y hy
  · obtain ⟨hraised, hex⟩ := h.failure hf
    exact ⟨by rw [hraised, Bool.true_or], hex⟩

theorem Grounded.visited (h : Grounded sys s₀ w) (hi : w.items = .visit v ::ₘ rest)
    {r : Option (List (Successor σ)) × SearchStats × ω}
    (hr : ∀ n ∈ r.1.getD [], n ∈ sys.successors v.state) :
    Grounded sys s₀ (w.visited v rest r) := by
  have hv : Rests sys w.store (.visit v) := h.items _ (hi ▸ Multiset.mem_cons_self _ rest)
  refine ⟨?_, ?_, ?_, ?_, ?_, fun y hy => ?_, fun hf => ?_⟩
  all_goals simp only [visited_store, visited_raised, visited_failure] at *
  · exact h.canonical
  · exact h.limit
  · exact h.shards
  · exact h.sub
  · exact h.reachable
  · rcases mem_of_mem_visited hi hy with ⟨n, hn, rfl⟩ | hy
    · exact ⟨hv, hr n hn⟩
    · exact h.items y hy
  · obtain ⟨hraised, hex⟩ := h.failure hf
    exact ⟨by rw [hraised, Bool.true_or], hex⟩

end steps

section grounded
variable (hl : ∀ i s v o, ∀ n ∈ (l.successors i s v o).1, n ∈ sys.successors v.state)
include hl

theorem Grounded.event (h : Grounded sys s₀ w) (he : Event sys l w w') : Grounded sys s₀ w' := by
  cases he with
  | stored hi hs => exact h.placed hi hs
  | told worker hi => exact h.told hi (h.target (hi ▸ Multiset.mem_cons_self _ _)) _
  | @full source next rest n hi hn hle hnew =>
    have hreach := h.reachable_arrival (hi ▸ Multiset.mem_cons_self _ rest)
    refine ⟨h.canonical, h.limit, h.shards, h.sub, h.reachable, fun y hy => ?_, fun _ => ⟨rfl, ?_⟩⟩
    · exact h.items y (hi ▸ Multiset.mem_cons_of_mem hy)
    · exact h.limit ▸ h.canonical.exceeds h.reachable hn hle hreach hnew
  | @visit v rest worker hi =>
    refine h.visited hi fun n hn => ?_
    cases hr : (l.expand worker w.store v {} w.observation).1 with
    | none =>
      rw [hr] at hn
      cases hn
    | some next =>
      rw [hr] at hn
      have hnext := (l.expand_next worker w.store v w.observation).2 next hr
      exact hl worker w.store v w.observation n (hnext ▸ hn)
  | abandon _ hle =>
    exact ⟨h.canonical, h.limit, h.shards, h.sub, h.reachable,
      fun y hy => h.items y (Multiset.mem_of_le hle hy), h.failure⟩

end grounded

theorem Grounded.within (h : Grounded sys s₀ w) : w.store.Within sys :=
  fun v hv => (h.reachable v hv).within

theorem Grounded.bounded (h : Grounded sys s₀ w) (hx : sys.Explicit)
    (hle : w.admitted ≤ w.store.vertices.length) :
    w.stats.states ≤ sys.extent ∧ w.admitted < UInt64.size := by
  have hext := h.within.length_le h.canonical.toDistinct hx
  have hword := h.canonical.length_lt_word hx
  have hsize : UInt32.size < UInt64.size := by decide
  have hstates : w.stats.states ≤ w.admitted := Nat.le_add_right _ _
  omega

def IsSeed (states : List σ) (store : Store σ) : WorkItem σ → Prop
  | .met none v _ _ => v ∈ store.vertices ∧ v.state ∈ states
  | .arrival none n => n.1 ∈ states
  | _ => False

/-- The work that a search starts with which is seeded with some states. -/
structure Starts (sys : System σ) (states : List σ) (s₀ : Store σ) (o : ω) (w : Work σ ω) :
    Prop where
  canonical : w.store.Canonical sys
  limit : w.store.budget.limit = s₀.budget.limit
  shards : w.store.shards.size = s₀.shards.size
  sub : ∀ v ∈ s₀.vertices, v ∈ w.store.vertices
  origin : ∀ v ∈ w.store.vertices, v ∈ s₀.vertices ∨ v.state ∈ states
  items : ∀ x ∈ w.items, IsSeed states w.store x
  observation : w.observation = o
  stats : w.stats = {}
  interrupt : w.interrupt = {}

theorem Starts.grounded {states : List σ} {o : ω} (h : Starts sys states s₀ o w)
    (hs : ∀ v ∈ s₀.vertices, sys.Reachable v.state) (hr : ∀ s ∈ states, sys.Reachable s) :
    Grounded sys s₀ w where
  canonical := h.canonical
  limit := h.limit
  shards := h.shards
  sub := h.sub
  reachable v hv := (h.origin v hv).elim (hs v) (hr v.state)
  items x hx := by
    have hseed := h.items x hx
    cases x with
    | met source v flags b =>
      cases source with
      | none => exact hseed.1
      | some u => exact hseed.elim
    | visit v => exact hseed.elim
    | arrival source n =>
      cases source with
      | none => exact hr n.1 hseed
      | some u => exact hseed.elim
  failure hf := by
    rw [h.interrupt] at hf
    cases hf

theorem Starts.awaited {states : List σ} {o : ω} (h : Starts sys states s₀ o w)
    {source : Option (Vertex σ)} {n : Successor σ} (ha : Awaited w.items source n) :
    source = none ∧ n.1 ∈ states := by
  obtain ⟨x, hx, hedge⟩ := ha
  have hseed := h.items x hx
  cases x with
  | met source =>
    cases hedge
    cases source with
    | none => exact ⟨rfl, hseed.2⟩
    | some u => exact hseed.elim
  | arrival source =>
    cases hedge
    cases source with
    | none => exact ⟨rfl, hseed⟩
    | some u => exact hseed.elim
  | visit => cases hedge

theorem Starts.admitted {states : List σ} {o : ω} (h : Starts sys states s₀ o w) :
    w.admitted = 0 := by
  have hno : w.items.countP (·.isVisit) = 0 := by
    refine Multiset.countP_eq_zero.2 fun x hx hv => ?_
    have hseed := h.items x hx
    cases x with
    | visit v => exact hseed
    | met source v flags b => cases hv
    | arrival source n => cases hv
  rw [Work.admitted, h.stats, hno]

end Work

namespace SearchConfig

variable {sys : System σ} {l : Listener σ ω} {c : SearchConfig} {seeds : Seeds σ}
  {store : Store σ} {o : ω} {w : Work σ ω}

theorem Begins.starts (h : c.Begins sys seeds store o w) (hc : store.Canonical sys)
    (hx : sys.Explicit) (hseeds : ∀ vs, seeds = .vertices vs → ∀ v ∈ vs, v ∈ store.vertices) :
    Work.Starts sys (Partitioned.seedStates sys seeds) store o w := by
  cases h with
  | @stored vs store' _ hres =>
    cases seeds with
    | initials =>
      rcases hc.resolve_cases hx sys.initials with ⟨vs', s', hr, hd⟩ | ⟨n, e, s', -, hr⟩
      · cases hr.symm.trans hres
        refine ⟨hd.canonical, hd.limit, hd.size_shards, hd.grows, hd.origin, fun x hm => ?_,
          rfl, rfl, rfl⟩
        obtain ⟨v, hv, rfl⟩ := List.mem_map.1 (Multiset.mem_coe.1 hm)
        refine ⟨hd.mem v hv, ?_⟩
        change v.1.state ∈ sys.initials
        exact hd.states_eq ▸ List.mem_map_of_mem hv
      · cases hr.symm.trans hres
    | vertices us =>
      cases hres
      refine ⟨hc, rfl, rfl, fun _ hv => hv, fun _ hv => .inl hv, fun x hm => ?_, rfl, rfl, rfl⟩
      obtain ⟨p, hp, rfl⟩ := List.mem_map.1 (Multiset.mem_coe.1 hm)
      obtain ⟨v, hv, rfl⟩ := List.mem_map.1 hp
      exact ⟨hseeds us rfl v hv, List.mem_map_of_mem hv⟩
  | sent =>
    refine ⟨hc, rfl, rfl, fun _ hv => hv, fun _ hv => .inl hv, fun x hm => ?_, rfl, rfl, rfl⟩
    obtain ⟨s, hs, rfl⟩ := List.mem_map.1 (Multiset.mem_coe.1 hm)
    exact hs

theorem search_cases {schedule : Schedule} (hfair : schedule.Fair c.workerCount)
    (hclosed : ∀ v s o, l.closed 0 v s o = (.process, s, o))
    (hd : ∀ i s v o, (l.successors i s v o).1.length ≤ sys.degree)
    (hsize : c.partitioned = true → store.shards.size = c.workerCount)
    (hb : ∀ w₀ w, c.Begins sys seeds store o w₀ → Work.Moves sys l w₀ w →
      w.stats.states ≤ sys.extent ∧ w.admitted < UInt64.size) :
    (∃ e w₀ w, c.search sys l seeds store o schedule = .ok e ∧ c.Begins sys seeds store o w₀ ∧
      Work.Moves sys l w₀ w ∧ w.Ends e) ∨
    ∃ x s', seeds.resolve sys store = .error (x, s') ∧
      c.search sys l seeds store o schedule = .ok ⟨s', o, {}, some (.exhausted x)⟩ := by
  by_cases hres : c.partitioned = false → ∃ r, seeds.resolve sys store = .ok r
  · exact .inl (search_ends hfair hclosed hd hsize hres hb)
  · obtain ⟨hc, hno⟩ := Classical.not_imp.1 hres
    cases hr : seeds.resolve sys store with
    | ok r => exact absurd ⟨r, hr⟩ hno
    | error p =>
      obtain ⟨x, s'⟩ := p
      refine .inr ⟨x, s', rfl, ?_⟩
      unfold SearchConfig.search explore
      rw [hc, if_neg Bool.false_ne_true, if_neg c.workerCount_pos.ne']
      cases c.order with
      | breadthFirst => simp only [BreadthFirst.run, hr]
      | depthFirst => simp only [DepthFirst.run, hr]

end SearchConfig

end ModelChecker
