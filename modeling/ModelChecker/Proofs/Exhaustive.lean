import Mathlib.Data.Multiset.Bind
import ModelChecker.Proofs.Journal

namespace ModelChecker

variable {σ : Type} {sys : System σ}

/-- What the expansion of a state with the given successors adds to the counts. -/
def SearchStats.ofSuccessors (next : List (Successor σ)) : SearchStats :=
  { states := 1, edges := next.length, deadlocks := if next.isEmpty then 1 else 0 }

namespace Listener

theorem recorded_exhaustive_follow (worker : Nat) (source : Option (Vertex σ)) (t : Vertex σ)
    (flags : EdgeFlags) (isNew : Bool) (o : Unit × Journal σ) :
    (exhaustive sys).recorded.follow worker source t flags isNew o =
      (if isNew then .expand else .skip, (), o.2.tell ⟨worker, source, t, flags, isNew⟩) := by
  cases isNew <;> rfl

theorem recorded_exhaustive_expand (worker : Nat) (store : Store σ) (v : Vertex σ)
    (o : Unit × Journal σ) :
    (exhaustive sys).recorded.expand worker store v {} o =
      (some (sys.successors v.state), .ofSuccessors (sys.successors v.state), (),
        o.2.expand worker v) := by
  unfold expand recorded exhaustive
  cases hn : sys.successors v.state with
  | nil => simp [hn, SearchStats.ofSuccessors]
  | cons n rest => simp [hn, SearchStats.ofSuccessors]

end Listener

namespace WorkItem

/-- The vertex that an item has set aside for expansion. -/
def waiting : WorkItem σ → Multiset (Vertex σ)
  | .met _ v _ isNew => if isNew then {v} else 0
  | .visit v => {v}
  | .arrival _ _ => 0

/-- The seed or edge of an item, which has yet to be told of. -/
def untold : WorkItem σ → Multiset (Option (Vertex σ) × Successor σ)
  | .met source v flags _ => {(source, v.state, flags)}
  | .visit _ => 0
  | .arrival source next => {(source, next)}

end WorkItem

namespace Work

variable {ω : Type}

def waiting (w : Work σ ω) : Multiset (Vertex σ) := w.items.bind WorkItem.waiting

def untold (w : Work σ ω) : Multiset (Option (Vertex σ) × Successor σ) :=
  w.items.bind WorkItem.untold

/-- The seeds of a search, as what is told of them. -/
def seedings (states : List σ) : Multiset (Option (Vertex σ) × Successor σ) :=
  ↑(states.map fun s => ((none, s, {}) : Option (Vertex σ) × Successor σ))

/-- The edges out of a state, as what is told of them. -/
def edgesFrom (sys : System σ) (v : Vertex σ) : Multiset (Option (Vertex σ) × Successor σ) :=
  ↑((sys.successors v.state).map (some v, ·))

/-- How the record of an exhaustive search balances with what is stored and what is left to do. -/
structure Balanced (sys : System σ) (s₀ : Store σ) (w : Work σ (Unit × Journal σ)) : Prop where
  distinct : w.store.Distinct sys
  limit : w.store.budget.limit = s₀.budget.limit
  shards : w.store.shards.size = s₀.shards.size
  size_le : ∀ n, s₀.budget.limit = some n → w.store.size ≤ n
  reachable : ∀ v ∈ w.store.vertices, sys.Reachable v.state
  met_mem : ∀ u v f b, .met u v f b ∈ w.items → v ∈ w.store.vertices
  untold : ∀ x ∈ w.untold, sys.Reachable x.2.1
  told : ∀ x ∈ w.observation.2.told, ∃ t ∈ w.store.vertices, t.state = x.2.1
  vertices_le : w.observation.2.expanded + w.waiting ≤ ↑w.store.vertices
  vertices : w.interrupt.raised = false →
    w.observation.2.expanded + w.waiting = ↑w.store.vertices
  edges : w.interrupt.raised = false → w.observation.2.told + w.untold =
    seedings sys.initials + w.observation.2.expanded.bind (edgesFrom sys)
  stats : w.stats =
    (w.observation.2.expanded.map fun v => SearchStats.ofSuccessors (sys.successors v.state)).sum
  failure : w.interrupt.raised = true → ∃ n, s₀.budget.limit = some n ∧
    w.interrupt.failure = some ⟨n⟩ ∧ sys.Exceeds s₀.budget.limit
  calm : w.interrupt.raised = false → w.interrupt.failure = none

/-- What storing a state comes to, if it can be stored. -/
structure Arrives (sys : System σ) (store : Store σ) (x : σ) (t : Vertex σ) (isNew : Bool)
    (store' : Store σ) : Prop where
  state : t.state = x
  distinct : store'.Distinct sys
  limit : store'.budget.limit = store.budget.limit
  shards : store'.shards.size = store.shards.size
  size_le : ∀ n, store.budget.limit = some n → store.size ≤ n → store'.size ≤ n
  mem : t ∈ store'.vertices
  vertices : (↑store'.vertices : Multiset (Vertex σ)) =
    (if isNew then {t} else 0) + ↑store.vertices

variable {s₀ : Store σ} {w w' : Work σ (Unit × Journal σ)} {rest : Multiset (WorkItem σ)}
  {store' : Store σ} {x : WorkItem σ} {source : Option (Vertex σ)} {t : Vertex σ}
  {flags : EdgeFlags} {isNew : Bool}

theorem arrives_of_store {store : Store σ} {x : σ} (h : store.Distinct sys) (hx : sys.Explicit)
    (hs : sys.store store x = .ok ⟨t, isNew, store'⟩) : Arrives sys store x t isNew store' := by
  rcases h.store_cases hx x with ⟨v, hv, hvx, he⟩ | ⟨v, after, he, hvx, -, ha, hd⟩ | ⟨n, -, -, he⟩
  · cases hs.symm.trans he
    exact ⟨hvx, h, rfl, rfl, fun _ _ hle => hle, hv, (zero_add _).symm⟩
  · cases hs.symm.trans he
    exact ⟨hvx, hd, ha.limit, ha.size_shards, fun n hn _ => ha.size_eq h.filed ▸ ha.room n hn,
      ha.mem_iff.2 (.inl rfl), Multiset.coe_eq_coe.2 ha.perm⟩
  · cases hs.symm.trans he

theorem Arrives.mem_iff {store : Store σ} {x : σ} (h : Arrives sys store x t isNew store')
    {v : Vertex σ} : v ∈ store'.vertices ↔ v = t ∧ isNew = true ∨ v ∈ store.vertices := by
  rw [← Multiset.mem_coe, h.vertices, Multiset.mem_add, Multiset.mem_coe]
  cases isNew <;> simp

theorem told_of_isNew {ω : Type} (w : Work σ ω) (o : ω) :
    w.told rest t (if isNew then .expand else .skip, o) =
      ⟨w.store, o, if isNew then .visit t ::ₘ rest else rest, w.stats, w.interrupt⟩ := by
  cases isNew <;> rfl

/-- The target of an item is stored, and waits to be expanded if it is new. -/
theorem Balanced.store {next : Successor σ} (h : Balanced sys s₀ w)
    (hi : w.items = .arrival source next ::ₘ rest)
    (ha : Arrives sys w.store next.1 t isNew store') :
    Balanced sys s₀ { w with store := store', items := .met source t next.2 isNew ::ₘ rest } := by
  have hwaiting : w.waiting = rest.bind WorkItem.waiting := by
    rw [waiting, hi, Multiset.cons_bind]
    exact zero_add _
  have huntold : w.untold = (.met source t next.2 isNew ::ₘ rest).bind WorkItem.untold := by
    rw [Work.untold, hi, Multiset.cons_bind, Multiset.cons_bind, WorkItem.untold, WorkItem.untold,
      ha.state]
  have hcount : w.observation.2.expanded + (.met source t next.2 isNew ::ₘ rest).bind
      WorkItem.waiting = (if isNew then {t} else 0) + (w.observation.2.expanded + w.waiting) := by
    rw [Multiset.cons_bind, hwaiting, WorkItem.waiting]
    abel
  have hgrows : ∀ v ∈ w.store.vertices, v ∈ store'.vertices := fun v hv => ha.mem_iff.2 (.inr hv)
  refine ⟨ha.distinct, ha.limit.trans h.limit, ha.shards.trans h.shards, fun n hn => ?_,
    fun v hv => ?_, fun u v f b hv => ?_, fun y hy => h.untold y (huntold ▸ hy), fun y hy => ?_, ?_,
    fun hr => ?_, fun hr => ?_, h.stats, h.failure, h.calm⟩
  · exact ha.size_le n (h.limit.trans hn) (h.size_le n hn)
  · rcases ha.mem_iff.1 hv with ⟨rfl, -⟩ | hv
    · rw [ha.state]
      exact h.untold (source, next) (by rw [Work.untold, hi]; simp [WorkItem.untold])
    · exact h.reachable v hv
  · rcases Multiset.mem_cons.1 hv with hv | hv
    · cases hv
      exact ha.mem
    · exact hgrows v (h.met_mem u v f b (hi ▸ Multiset.mem_cons_of_mem hv))
  · obtain ⟨u, hu, huy⟩ := h.told y hy
    exact ⟨u, hgrows u hu, huy⟩
  · rw [waiting, hcount, ha.vertices]
    exact Multiset.add_le_add_left h.vertices_le
  · rw [waiting, hcount, ha.vertices, h.vertices hr]
  · rw [Work.untold, ← huntold]
    exact h.edges hr

/-- A stored target is told of, and waits to be expanded as it did before. -/
theorem Balanced.tell (h : Balanced sys s₀ w) (hi : w.items = .met source t flags isNew ::ₘ rest)
    (worker : Nat) : Balanced sys s₀ (w.told rest t
      ((Listener.exhaustive sys).recorded.follow worker source t flags isNew w.observation)) := by
  have huntold : w.untold = {(source, t.state, flags)} + rest.bind WorkItem.untold := by
    rw [Work.untold, hi, Multiset.cons_bind]
    rfl
  have hwaiting' : (if isNew then .visit t ::ₘ rest else rest).bind WorkItem.waiting =
      w.waiting := by
    rw [waiting, hi, Multiset.cons_bind]
    cases isNew <;> simp [WorkItem.waiting]
  have huntold' : (if isNew then .visit t ::ₘ rest else rest).bind WorkItem.untold =
      rest.bind WorkItem.untold := by
    cases isNew <;> simp [WorkItem.untold]
  rw [Listener.recorded_exhaustive_follow, told_of_isNew]
  refine ⟨h.distinct, h.limit, h.shards, h.size_le, h.reachable, fun u v f b hv => ?_,
    fun y hy => ?_, fun y hy => ?_, ?_, fun hr => ?_, fun hr => ?_, h.stats, h.failure, h.calm⟩
  · have hv : .met u v f b ∈ rest := by
      cases isNew with
      | true => simpa using hv
      | false => exact hv
    exact h.met_mem u v f b (hi ▸ Multiset.mem_cons_of_mem hv)
  · rw [Work.untold, huntold'] at hy
    exact h.untold y (huntold ▸ Multiset.mem_add.2 (.inr hy))
  · rw [Journal.told_tell] at hy
    rcases Multiset.mem_cons.1 hy with rfl | hy
    · exact ⟨t, h.met_mem source t flags isNew (hi ▸ Multiset.mem_cons_self _ _), rfl⟩
    · exact h.told y hy
  · rw [waiting, hwaiting']
    exact h.vertices_le
  · rw [waiting, hwaiting']
    exact h.vertices hr
  · rw [Work.untold, huntold']
    refine Eq.trans ?_ (h.edges hr)
    rw [huntold, Journal.told_tell, Multiset.cons_add, Multiset.singleton_add, Multiset.add_cons]

/-- The store is full, and one reachable state too many was met. -/
theorem Balanced.full {next : Successor σ} {n : Nat} (h : Balanced sys s₀ w)
    (hi : w.items = .arrival source next ::ₘ rest) (hn : w.store.budget.limit = some n)
    (hle : n ≤ w.store.size) (hnew : ∀ u ∈ w.store.vertices, u.state ≠ next.1) :
    Balanced sys s₀ { w with
      items := rest
      interrupt := w.interrupt.raise (.exhausted ⟨w.store.size⟩) } := by
  have hlimit : s₀.budget.limit = some n := h.limit.symm.trans hn
  have hsize : w.store.size = n := (h.size_le n hlimit).antisymm hle
  have hsub : ∀ y ∈ rest, y ∈ w.items := fun y hy => hi ▸ Multiset.mem_cons_of_mem hy
  have hreach : sys.Reachable next.1 :=
    h.untold (source, next) (by rw [Work.untold, hi]; simp [WorkItem.untold])
  refine { h with
    met_mem := fun u v f b hv => h.met_mem u v f b (hsub _ hv)
    untold := fun y hy => h.untold y ?_
    vertices_le := le_trans ?_ h.vertices_le
    vertices := nofun
    edges := nofun
    failure := fun _ => ⟨n, hlimit, ?_, ?_⟩
    calm := nofun }
  · rw [Work.untold, hi, Multiset.cons_bind]
    exact Multiset.mem_add.2 (.inr hy)
  · rw [waiting, waiting, hi, Multiset.cons_bind]
    exact Multiset.add_le_add_left (Multiset.le_add_left _ _)
  · -- a failure that came before has the same count
    cases hr : w.interrupt.raised with
    | true =>
      obtain ⟨k, hk, hf, -⟩ := h.failure hr
      cases hlimit.symm.trans hk
      simp only [Interrupt.raise, hf, Option.some_or]
    | false => simp only [Interrupt.raise, h.calm hr, Option.none_or, hsize]
  · rw [← h.limit]
    exact h.distinct.exceeds h.reachable hn hle hreach hnew

theorem bind_arrivals {f : WorkItem σ → Multiset (Vertex σ)} (hf : ∀ u n, f (.arrival u n) = 0)
    (v : Vertex σ) (next : List (Successor σ)) :
    (↑(next.map (WorkItem.arrival (some v))) : Multiset (WorkItem σ)).bind f = 0 := by
  rw [← Multiset.map_coe, Multiset.bind_map]
  simp only [hf]
  exact Multiset.bind_zero _

theorem untold_arrivals (v : Vertex σ) (next : List (Successor σ)) :
    (↑(next.map (WorkItem.arrival (some v))) : Multiset (WorkItem σ)).bind WorkItem.untold =
      ↑(next.map (some v, ·)) := by
  rw [← Multiset.map_coe, Multiset.bind_map, ← Multiset.map_coe]
  exact Multiset.bind_singleton _ _

/-- A state that waited is expanded, and its edges wait to be told of. -/
theorem Balanced.visit {v : Vertex σ} (h : Balanced sys s₀ w)
    (hi : w.items = .visit v ::ₘ rest) (worker : Nat) :
    Balanced sys s₀ (w.visited v rest
      ((Listener.exhaustive sys).recorded.expand worker w.store v {} w.observation)) := by
  have hwaiting : w.waiting = {v} + rest.bind WorkItem.waiting := by
    rw [waiting, hi, Multiset.cons_bind]
    rfl
  have huntold : w.untold = rest.bind WorkItem.untold := by
    rw [Work.untold, hi, Multiset.cons_bind]
    exact zero_add _
  have hv : v ∈ w.store.vertices := by
    refine Multiset.mem_coe.1 (Multiset.mem_of_le h.vertices_le ?_)
    rw [hwaiting]
    simp
  have hexpanded : v ::ₘ w.observation.2.expanded + rest.bind WorkItem.waiting =
      w.observation.2.expanded + w.waiting := by
    rw [hwaiting, Multiset.cons_add, Multiset.singleton_add, Multiset.add_cons]
  rw [Listener.recorded_exhaustive_expand]
  simp only [visited]
  refine ⟨h.distinct, h.limit, h.shards, h.size_le, h.reachable, fun s u f b hu => ?_,
    fun y hy => ?_, h.told, ?_, fun hr => ?_, fun hr => ?_, ?_, h.failure, h.calm⟩
  · rcases Multiset.mem_add.1 hu with hu | hu
    · simp at hu
    · exact h.met_mem s u f b (hi ▸ Multiset.mem_cons_of_mem hu)
  · rw [Work.untold, Multiset.add_bind, untold_arrivals] at hy
    rcases Multiset.mem_add.1 hy with hy | hy
    · obtain ⟨n, hn, rfl⟩ := List.mem_map.1 (Multiset.mem_coe.1 hy)
      exact (h.reachable v hv).step hn
    · exact h.untold y (huntold ▸ hy)
  · rw [waiting, Multiset.add_bind, bind_arrivals fun _ _ => rfl, zero_add,
      Journal.expanded_expand, hexpanded]
    exact h.vertices_le
  · rw [waiting, Multiset.add_bind, bind_arrivals fun _ _ => rfl, zero_add,
      Journal.expanded_expand, hexpanded]
    exact h.vertices hr
  · rw [Work.untold, Multiset.add_bind, untold_arrivals, Journal.told_expand,
      Journal.expanded_expand, Multiset.cons_bind, ← add_assoc, add_right_comm, ← huntold,
      h.edges hr, edgesFrom]
    abel
  · rw [Journal.expanded_expand, Multiset.map_cons, Multiset.sum_cons, ← h.stats]
    exact add_comm _ _

theorem Balanced.abandon (h : Balanced sys s₀ w) (hr : w.interrupt.raised = true)
    (hle : rest ≤ w.items) : Balanced sys s₀ { w with items := rest } := by
  obtain ⟨left, hleft⟩ := Multiset.le_iff_exists_add.1 hle
  have hno : ¬ w.interrupt.raised = false := by simp [hr]
  refine { h with
    met_mem := fun u v f b hv => h.met_mem u v f b (Multiset.mem_of_le hle hv)
    untold := fun y hy => h.untold y ?_
    vertices_le := le_trans ?_ h.vertices_le
    vertices := fun hx => absurd hx hno
    edges := fun hx => absurd hx hno }
  · rw [Work.untold, hleft, Multiset.add_bind]
    exact Multiset.mem_add.2 (.inl hy)
  · rw [waiting, waiting, hleft, Multiset.add_bind]
    exact Multiset.add_le_add_left (Multiset.le_add_right _ _)

theorem Balanced.move (h : Balanced sys s₀ w) (hx : sys.Explicit)
    (hm : Move sys (Listener.exhaustive sys).recorded w w') : Balanced sys s₀ w' := by
  cases hm with
  | store hi hs => exact h.store hi (arrives_of_store h.distinct hx hs)
  | tell worker hi => exact h.tell hi worker
  | @arrival source next rest worker hi =>
    rw [Listener.offer_eq]
    cases hstore : sys.store w.store next.1 with
    | error e =>
      obtain ⟨⟨n, hn, hle⟩, rfl, hnew⟩ := h.distinct.store_error hx hstore
      exact h.full hi hn hle hnew
    | ok i =>
      obtain ⟨t, isNew, store'⟩ := i
      exact (h.store hi (arrives_of_store h.distinct hx hstore)).tell rfl worker
  | visit worker hi => exact h.visit hi worker
  | abandon hr hle => exact h.abandon hr hle

theorem Balanced.moves (h : Balanced sys s₀ w) (hx : sys.Explicit)
    (hm : Moves sys (Listener.exhaustive sys).recorded w w') : Balanced sys s₀ w' :=
  hm.preserve (fun _ _ hw hmove => hw.move hx hmove) h

theorem Balanced.states_eq (h : Balanced sys s₀ w) :
    w.stats.states = w.observation.2.expanded.card := by
  rw [h.stats]
  induction w.observation.2.expanded using Multiset.induction_on with
  | empty => rfl
  | cons v rest ih =>
    rw [Multiset.map_cons, Multiset.sum_cons, Multiset.card_cons, SearchStats.add_states, ih,
      add_comm]
    rfl

theorem countP_isVisit_le (items : Multiset (WorkItem σ)) {f : WorkItem σ → Multiset (Vertex σ)}
    (hf : ∀ v, f (.visit v) = {v}) : items.countP (·.isVisit) ≤ (items.bind f).card := by
  induction items using Multiset.induction_on with
  | empty => rfl
  | cons x rest ih =>
    rw [Multiset.cons_bind, Multiset.card_add, Multiset.countP_cons]
    cases x with
    | met u v f b => exact ih.trans (Nat.le_add_left _ _)
    | visit v =>
      rw [hf, Multiset.card_singleton, Nat.add_comm 1]
      exact Nat.add_le_add_right ih 1
    | arrival s n => exact ih.trans (Nat.le_add_left _ _)

theorem Balanced.admitted_le (h : Balanced sys s₀ w) :
    w.admitted ≤ w.store.vertices.length := by
  have hle := Multiset.card_le_card h.vertices_le
  rw [Multiset.card_add, Multiset.coe_card, ← h.states_eq] at hle
  exact (Nat.add_le_add_left (countP_isVisit_le w.items fun _ => rfl) _).trans hle

theorem Balanced.bounded (h : Balanced sys s₀ w) (hx : sys.Explicit) :
    w.stats.states ≤ sys.extent ∧ w.admitted < UInt64.size := by
  have hextent : w.store.vertices.length ≤ sys.extent :=
    Store.Within.length_le (fun v hv => (h.reachable v hv).within) h.distinct hx
  have hword := h.distinct.length_lt_word hx
  refine ⟨(Nat.le_add_right _ _).trans (h.admitted_le.trans hextent), ?_⟩
  exact (h.admitted_le.trans hword).trans_lt (by decide)

/-- An exhaustive search without an interrupt stores the reachable states. It expands each of them
once, and is told once of each seed and each of their edges. -/
theorem Balanced.complete (h : Balanced sys s₀ w) (hi : w.items = 0)
    (hr : w.interrupt.raised = false) :
    w.observation.2.expanded = ↑w.store.vertices ∧
    w.observation.2.told = seedings sys.initials +
      (↑w.store.vertices : Multiset (Vertex σ)).bind (edgesFrom sys) ∧
    ∀ s, s ∈ w.store.vertices.map (·.state) ↔ sys.Reachable s := by
  have hvertices := h.vertices hr
  have hedges := h.edges hr
  rw [waiting, hi, Multiset.zero_bind, add_zero] at hvertices
  rw [Work.untold, hi, Multiset.zero_bind, add_zero, hvertices] at hedges
  refine ⟨hvertices, hedges, fun s => ⟨fun hs => ?_, ?_⟩⟩
  · obtain ⟨v, hv, rfl⟩ := List.mem_map.1 hs
    exact h.reachable v hv
  · -- what was told of is stored, seeds and edges alike
    have hstored : ∀ x ∈ w.observation.2.told, x.2.1 ∈ w.store.vertices.map (·.state) := by
      intro x hx
      obtain ⟨t, ht, htx⟩ := h.told x hx
      exact List.mem_map.2 ⟨t, ht, htx⟩
    rw [hedges] at hstored
    rintro ⟨i, hinit, hpath⟩
    induction hpath with
    | refl =>
      refine hstored (none, i, {}) (Multiset.mem_add.2 (.inl ?_))
      exact Multiset.mem_coe.2 (List.mem_map.2 ⟨i, hinit, rfl⟩)
    | tail _ hjoin ih =>
      obtain ⟨v, hv, rfl⟩ := List.mem_map.1 ih
      obtain ⟨n, hn, rfl⟩ := hjoin
      refine hstored (some v, n) (Multiset.mem_add.2 (.inr (Multiset.mem_bind.2 ⟨v, hv, ?_⟩)))
      exact Multiset.mem_coe.2 (List.mem_map.2 ⟨n, hn, rfl⟩)

section start
variable {store : Store σ} {vs : List (Vertex σ × Bool)}

theorem balanced_ofStates (hd : store.Distinct sys) (hnil : store.vertices = []) :
    Balanced sys store ((ofStates sys.initials store ()).record {}) := by
  have hwaiting : ((ofStates sys.initials store ()).record {}).waiting = 0 := by
    change (Multiset.ofList (sys.initials.map fun s => WorkItem.arrival none (s, {}))).bind _ = 0
    rw [← Multiset.map_coe, Multiset.bind_map]
    exact Multiset.bind_zero _
  have huntold : ((ofStates sys.initials store ()).record {}).untold = seedings sys.initials := by
    change (Multiset.ofList (sys.initials.map fun s => WorkItem.arrival none (s, {}))).bind _ = _
    rw [← Multiset.map_coe, Multiset.bind_map, seedings, ← Multiset.map_coe]
    exact Multiset.bind_singleton _ _
  have hsize : store.size = 0 := by rw [hd.size_eq, hnil, List.length_nil]
  refine ⟨hd, rfl, rfl, fun n _ => ?_, fun v hv => ?_, fun u v f b hv => ?_, fun x hx => ?_, nofun,
    ?_, fun _ => ?_, fun _ => ?_, rfl, nofun, fun _ => rfl⟩
  · exact hsize.trans_le (Nat.zero_le n)
  · cases hnil ▸ hv
  · obtain ⟨s, -, hs⟩ := List.mem_map.1 (Multiset.mem_coe.1 hv)
    cases hs
  · rw [huntold] at hx
    obtain ⟨s, hs, rfl⟩ := List.mem_map.1 (Multiset.mem_coe.1 hx)
    exact ⟨s, hs, .refl⟩
  · rw [hwaiting]
    exact Multiset.zero_le _
  · rw [hwaiting]
    exact (congrArg Multiset.ofList hnil).symm
  · rw [huntold]
    exact add_comm _ _

theorem balanced_ofSeeds (hd : Store.Resolved sys sys.initials store vs store')
    (hperm : store'.vertices.Perm ((vs.filter (·.2)).map (·.1))) (hsize : store.size = 0) :
    Balanced sys store ((ofSeeds vs store' ()).record {}) := by
  have hwaiting : ((ofSeeds vs store' ()).record {}).waiting = ↑store'.vertices := by
    change (Multiset.ofList (vs.map fun s => WorkItem.met none s.1 {} s.2)).bind _ = _
    rw [Multiset.coe_eq_coe.2 hperm]
    clear hd hperm
    induction vs with
    | nil => rfl
    | cons x rest ih =>
      rw [List.map_cons, ← Multiset.cons_coe, Multiset.cons_bind, ih]
      rcases x with ⟨v, b⟩
      cases b <;> rfl
  have huntold : ((ofSeeds vs store' ()).record {}).untold = seedings sys.initials := by
    change (Multiset.ofList (vs.map fun s => WorkItem.met none s.1 {} s.2)).bind _ = _
    rw [← Multiset.map_coe, Multiset.bind_map, seedings, ← hd.states_eq, List.map_map,
      ← Multiset.map_coe]
    exact Multiset.bind_singleton _ _
  have hreach : ∀ s ∈ sys.initials, sys.Reachable s := fun s hs => ⟨s, hs, .refl⟩
  refine ⟨hd.canonical.toDistinct, hd.limit, hd.size_shards, fun n hn => ?_, fun v hv => ?_,
    fun u v f b hv => ?_, fun x hx => ?_, nofun, ?_, fun _ => ?_, fun _ => ?_, rfl, nofun,
    fun _ => rfl⟩
  · exact hd.size_le n hn (hsize.trans_le (Nat.zero_le n))
  · obtain ⟨x, hx, rfl⟩ := List.mem_map.1 (hperm.mem_iff.1 hv)
    refine hreach _ ?_
    rw [← hd.states_eq]
    exact List.mem_map_of_mem (List.mem_of_mem_filter hx)
  · obtain ⟨x, hx, hxv⟩ := List.mem_map.1 (Multiset.mem_coe.1 hv)
    cases hxv
    exact hd.mem x hx
  · rw [huntold] at hx
    obtain ⟨s, hs, rfl⟩ := List.mem_map.1 (Multiset.mem_coe.1 hx)
    exact hreach s hs
  · rw [hwaiting]
    exact (zero_add _).le
  · rw [hwaiting]
    exact zero_add _
  · rw [huntold]
    exact add_comm _ _

end start

end Work

end ModelChecker
