import Mathlib.Algebra.Order.Group.Multiset
import Mathlib.Logic.Relation
import ModelChecker.Search.Listener

namespace ModelChecker

inductive WorkItem (σ : Type) where
  /-- An edge, or a seed, whose target is stored, and which the listener has yet to be told of. -/
  | met (source : Option (Vertex σ)) (target : Vertex σ) (flags : EdgeFlags) (isNew : Bool)
  /-- An edge, or a seed, whose target has yet to be stored. -/
  | arrival (source : Option (Vertex σ)) (next : Successor σ)
  /-- A state that was accepted for expansion. -/
  | visit (v : Vertex σ)

def WorkItem.isVisit {σ : Type} : WorkItem σ → Bool
  | .visit _ => true
  | _ => false

/-- The edge, or the seed, of an item, whether or not its target is stored. -/
def WorkItem.edge? {σ : Type} : WorkItem σ → Option (Option (Vertex σ) × Successor σ)
  | .met source target flags _ => some (source, target.state, flags)
  | .arrival source next => some (source, next)
  | .visit _ => none

structure Work (σ ω : Type) where
  store : Store σ
  observation : ω
  items : Multiset (WorkItem σ)
  stats : SearchStats := {}
  interrupt : Interrupt := {}

instance : Zero SearchStats := ⟨{}⟩

instance : AddCommMonoid SearchStats where
  nsmul := nsmulRec
  add_assoc a b c := by
    change SearchStats.mk _ _ _ = SearchStats.mk _ _ _
    congr 1 <;> exact Nat.add_assoc _ _ _
  zero_add a := by
    change SearchStats.mk (0 + _) (0 + _) (0 + _) = a
    rw [Nat.zero_add, Nat.zero_add, Nat.zero_add]
  add_zero a := rfl
  add_comm a b := by
    change SearchStats.mk _ _ _ = SearchStats.mk _ _ _
    congr 1 <;> exact Nat.add_comm _ _

variable {σ ω : Type}

@[simp] theorem SearchStats.add_states (a b : SearchStats) :
    (a + b).states = a.states + b.states := rfl

@[simp] theorem SearchStats.zero_states : (0 : SearchStats).states = 0 := rfl

theorem SearchStats.foldl_eq {α : Type} (f : α → SearchStats) (l : List α) :
    l.foldl (fun total a => total + f a) {} = (l.map f).sum := by
  have h : ∀ t : SearchStats, l.foldl (fun total a => total + f a) t = t + (l.map f).sum := by
    induction l with
    | nil => intro t; simp
    | cons a rest ih => intro t; rw [List.foldl_cons, ih, List.map_cons, List.sum_cons, add_assoc]
  exact (h 0).trans (zero_add _)

namespace Listener

/-- What becomes of a stored target once the listener was told of it. -/
def settle (step : Step) (target : Vertex σ) (store : Store σ) (o : ω) : Offer σ ω :=
  match step with
  | .expand => .expand target store o
  | .skip => .skip store o
  | .stop => .halt .terminated store o

theorem offer_eq (l : Listener σ ω) (sys : System σ) (worker : Nat) (source : Option (Vertex σ))
    (next : Successor σ) (store : Store σ) (o : ω) :
    l.offer sys worker source next store o =
      match sys.store store next.1 with
      | .error e => .halt (.exhausted e) store o
      | .ok ⟨target, isNew, after⟩ =>
        settle (l.follow worker source target next.2 isNew o).1 target after
          (l.follow worker source target next.2 isNew o).2 := by
  unfold offer
  cases sys.store store next.1 with
  | error e => rfl
  | ok i =>
    obtain ⟨target, isNew, after⟩ := i
    rcases h : l.follow worker source target next.2 isNew o with ⟨step, o'⟩
    simp only [h]
    cases step <;> rfl

theorem expand_stats (l : Listener σ ω) (worker : Nat) (store : Store σ) (v : Vertex σ)
    (stats : SearchStats) (o : ω) :
    l.expand worker store v stats o =
      ((l.expand worker store v {} o).1, stats + (l.expand worker store v {} o).2.1,
        (l.expand worker store v {} o).2.2) := by
  unfold expand
  rcases l.successors worker store v o with ⟨next, o'⟩
  cases next with
  | nil =>
    rcases hd : l.deadlocked worker v o' with ⟨action, o''⟩
    cases action <;> simp only [hd] <;> rfl
  | cons n rest => simp only [Nat.zero_add]; rfl

theorem expand_next (l : Listener σ ω) (worker : Nat) (store : Store σ) (v : Vertex σ) (o : ω) :
    (l.expand worker store v {} o).2.1.states = 1 ∧
    ∀ next, (l.expand worker store v {} o).1 = some next →
      next = (l.successors worker store v o).1 := by
  unfold expand
  rcases l.successors worker store v o with ⟨next, o'⟩
  cases next with
  | nil =>
    rcases hd : l.deadlocked worker v o' with ⟨action, o''⟩
    cases action <;> simp [hd]
  | cons n rest => simp

end Listener

namespace Work

def offered (w : Work σ ω) (rest : Multiset (WorkItem σ)) : Offer σ ω → Work σ ω
  | .expand target store o => { w with store, observation := o, items := .visit target ::ₘ rest }
  | .skip store o => { w with store, observation := o, items := rest }
  | .halt ending store o =>
    { w with store, observation := o, items := rest, interrupt := w.interrupt.raise ending }

/-- A target that is told of at once may as well be stored beforehand. -/
theorem offered_stored (w : Work σ ω) (store : Store σ) (items rest : Multiset (WorkItem σ))
    (r : Offer σ ω) : ({ w with store, items } : Work σ ω).offered rest r = w.offered rest r := by
  cases r <;> rfl

def visited (w : Work σ ω) (v : Vertex σ) (rest : Multiset (WorkItem σ)) :
    Option (List (Successor σ)) × SearchStats × ω → Work σ ω
  | (none, stats, o) =>
    { w with
      observation := o
      items := rest
      stats := w.stats + stats
      interrupt := w.interrupt.raise .terminated }
  | (some next, stats, o) =>
    { w with
      observation := o
      items := ↑(next.map (WorkItem.arrival (some v))) + rest
      stats := w.stats + stats }

/-- One item of the work is done, by some worker. After an interrupt, items may be left undone. -/
inductive Move (sys : System σ) (l : Listener σ ω) : Work σ ω → Work σ ω → Prop where
  | store {w : Work σ ω} {source next target isNew store rest}
    (h : w.items = .arrival source next ::ₘ rest)
    (hs : sys.store w.store next.1 = .ok ⟨target, isNew, store⟩) :
    Move sys l w { w with store, items := .met source target next.2 isNew ::ₘ rest }
  | tell {w : Work σ ω} {source target flags isNew rest} (worker : Nat)
    (h : w.items = .met source target flags isNew ::ₘ rest) :
    Move sys l w (w.offered rest
      (Listener.settle (l.follow worker source target flags isNew w.observation).1 target w.store
        (l.follow worker source target flags isNew w.observation).2))
  /-- The target is stored and told of at once. -/
  | arrival {w : Work σ ω} {source next rest} (worker : Nat)
    (h : w.items = .arrival source next ::ₘ rest) :
    Move sys l w (w.offered rest (l.offer sys worker source next w.store w.observation))
  | visit {w : Work σ ω} {v rest} (worker : Nat) (h : w.items = .visit v ::ₘ rest) :
    Move sys l w (w.visited v rest (l.expand worker w.store v {} w.observation))
  | abandon {w : Work σ ω} {rest} (hi : w.interrupt.raised = true) (hr : rest ≤ w.items) :
    Move sys l w { w with items := rest }

abbrev Moves (sys : System σ) (l : Listener σ ω) : Work σ ω → Work σ ω → Prop :=
  Relation.ReflTransGen (Move sys l)

/-- At most one move, by which a worker may bring the search to a halt and leave items undone. -/
inductive Turn (sys : System σ) (l : Listener σ ω) : Work σ ω → Work σ ω → Prop where
  | rest (w : Work σ ω) : Turn sys l w w
  | move {w w' : Work σ ω} (h : Move sys l w w') : Turn sys l w w'
  | halt {w w' : Work σ ω} {rest} (h : Move sys l w w') (hi : w'.interrupt.raised = true)
    (hr : rest ≤ w'.items) : Turn sys l w { w' with items := rest }

/-- The states that were expanded or are accepted for it. -/
def admitted (w : Work σ ω) : Nat :=
  w.stats.states + w.items.countP (·.isVisit)

@[simp] theorem countP_visits (vs : List (Vertex σ)) :
    (↑(vs.map WorkItem.visit) : Multiset (WorkItem σ)).countP (·.isVisit) = vs.length := by
  rw [Multiset.coe_countP, List.countP_map]
  exact List.countP_eq_length.2 fun _ _ => rfl

theorem countP_map_eq_zero {α : Type} (l : List α) {f : α → WorkItem σ}
    (hf : ∀ a, (f a).isVisit = false) :
    (↑(l.map f) : Multiset (WorkItem σ)).countP (·.isVisit) = 0 := by
  rw [Multiset.coe_countP, List.countP_map]
  refine List.countP_eq_zero.2 fun a _ h => ?_
  exact Bool.false_ne_true ((hf a).symm.trans (of_decide_eq_true h))

@[simp] theorem countP_arrivals (source : Option (Vertex σ)) (next : List (Successor σ)) :
    (↑(next.map (WorkItem.arrival source)) : Multiset (WorkItem σ)).countP (·.isVisit) = 0 :=
  countP_map_eq_zero next fun _ => rfl

theorem admitted_of_cons {w : Work σ ω} {x : WorkItem σ} {rest : Multiset (WorkItem σ)}
    (h : w.items = x ::ₘ rest) (hx : x.isVisit = false) :
    w.admitted = w.stats.states + rest.countP (·.isVisit) := by
  rw [admitted, h, Multiset.countP_cons_of_neg]
  rw [hx]
  exact Bool.false_ne_true

theorem admitted_stored {w : Work σ ω} {source : Option (Vertex σ)} {next : Successor σ}
    {t : Vertex σ} {rest : Multiset (WorkItem σ)} (h : w.items = .arrival source next ::ₘ rest)
    (store : Store σ) (isNew : Bool) :
    ({ w with store, items := .met source t next.2 isNew ::ₘ rest } : Work σ ω).admitted =
      w.admitted :=
  (admitted_of_cons rfl rfl).trans (admitted_of_cons h rfl).symm

/-- The work that a search is left with when it ends. -/
structure Ends (w : Work σ ω) (e : Exploration σ ω) : Prop where
  store : e.store = w.store
  observation : e.observation = w.observation
  stats : e.stats = w.stats
  ending : e.ending = some w.interrupt.ending
  done : w.interrupt.raised = false → w.items = 0

def ofSeeds (vs : List (Vertex σ × Bool)) (store : Store σ) (o : ω) : Work σ ω where
  store
  observation := o
  items := ↑(vs.map fun s => WorkItem.met none s.1 {} s.2)

def ofStates (states : List σ) (store : Store σ) (o : ω) : Work σ ω where
  store
  observation := o
  items := ↑(states.map fun s => WorkItem.arrival none (s, {}))

variable {sys : System σ} {l : Listener σ ω} {w w' : Work σ ω}

theorem Move.trans_eq {a b c : Work σ ω} (h : Move sys l a b) (hc : c = b) : Move sys l a c :=
  hc ▸ h

theorem Moves.trans_eq {a b c : Work σ ω} (h : Moves sys l a b) (hc : c = b) : Moves sys l a c :=
  hc ▸ h

theorem Turn.trans_eq {a b c : Work σ ω} (h : Turn sys l a b) (hc : c = b) : Turn sys l a c :=
  hc ▸ h

theorem Turn.moves (h : Turn sys l w w') : Moves sys l w w' := by
  cases h with
  | rest => exact .refl
  | move h => exact .single h
  | halt h hi hr => exact .tail (.single h) (.abandon hi hr)

theorem Moves.preserve {P : Work σ ω → Prop} (hstep : ∀ w w', P w → Move sys l w w' → P w')
    (h : Moves sys l w w') (hw : P w) : P w' := by
  induction h with
  | refl => exact hw
  | tail _ hm ih => exact hstep _ _ ih hm

/-- The edge, or the seed if there is no source, has yet to be told of. -/
def Awaited (items : Multiset (WorkItem σ)) (source : Option (Vertex σ)) (n : Successor σ) : Prop :=
  ∃ x ∈ items, x.edge? = some (source, n)

section awaited
variable {items rest : Multiset (WorkItem σ)} {x : WorkItem σ} {source : Option (Vertex σ)}
  {n : Successor σ} {v : Vertex σ}

theorem awaited_cons :
    Awaited (x ::ₘ rest) source n ↔ x.edge? = some (source, n) ∨ Awaited rest source n := by
  simp [Awaited]

theorem awaited_visit : Awaited (.visit v ::ₘ rest) source n ↔ Awaited rest source n :=
  awaited_cons.trans (or_iff_right nofun)

theorem Awaited.mono (h : Awaited rest source n) (hsub : ∀ y ∈ rest, y ∈ items) :
    Awaited items source n := by
  obtain ⟨x, hx, hedge⟩ := h
  exact ⟨x, hsub x hx, hedge⟩

theorem not_awaited_zero : ¬ Awaited (0 : Multiset (WorkItem σ)) source n := by
  rintro ⟨x, hx, -⟩
  exact Multiset.notMem_zero x hx

/-- Storing the target leaves the edge to be told of. -/
theorem awaited_met {s : Option (Vertex σ)} {next : Successor σ} {t : Vertex σ} {isNew : Bool}
    (ht : t.state = next.1) : Awaited (.met s t next.2 isNew ::ₘ rest) source n ↔
      Awaited (.arrival s next ::ₘ rest) source n := by
  rw [awaited_cons, awaited_cons, WorkItem.edge?, WorkItem.edge?, ht]

theorem awaited_offered (h : Awaited (x ::ₘ rest) source n) (w : Work σ ω) (r : Offer σ ω) :
    x.edge? = some (source, n) ∨ Awaited (w.offered rest r).items source n := by
  refine (awaited_cons.1 h).imp_right fun h => ?_
  cases r with
  | expand => exact awaited_visit.2 h
  | skip | halt => exact h

theorem awaited_visited (h : Awaited (.visit v ::ₘ rest) source n) (w : Work σ ω)
    (r : Option (List (Successor σ)) × SearchStats × ω) :
    Awaited (w.visited v rest r).items source n := by
  rw [awaited_visit] at h
  obtain ⟨_ | next, stats, o⟩ := r
  · exact h
  · exact h.mono fun y hy => Multiset.mem_add.2 (.inr hy)

theorem awaited_of_mem {r : Option (List (Successor σ)) × SearchStats × ω}
    {next : List (Successor σ)} (hr : r.1 = some next) (hn : n ∈ next) (w : Work σ ω) :
    Awaited (w.visited v rest r).items (some v) n := by
  obtain ⟨_, stats, o⟩ := r
  obtain rfl : _ = some next := hr
  exact ⟨.arrival (some v) n,
    Multiset.mem_add.2 (.inl (Multiset.mem_coe.2 (List.mem_map_of_mem hn))), rfl⟩

end awaited

end Work

end ModelChecker
