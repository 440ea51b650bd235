import ModelChecker.Proofs.Exhaustive

namespace ModelChecker

variable {σ : Type} {sys : System σ} {ignored : σ → Successor σ → Bool}

/-- Ignores some edges. By any other edge it goes on to what is new. -/
def Listener.sifting (sys : System σ) (ignored : σ → Successor σ → Bool) : Listener σ Unit where
  edge _ source target flags _ o :=
    (if source.any fun u => ignored u.state (target.state, flags) then .ignore else .asNeeded, o)
  successors _ _ v o := (sys.successors v.state, o)

/-- A seed is kept, and an edge unless it is ignored. -/
def Telling.kept (ignored : σ → Successor σ → Bool) (x : Telling σ) : Bool :=
  !x.source.any fun u => ignored u.state (x.target.state, x.flags)

namespace Listener

theorem recorded_sifting_follow (worker : Nat) (source : Option (Vertex σ)) (t : Vertex σ)
    (flags : EdgeFlags) (isNew : Bool) (o : Unit × Journal σ) :
    (sifting sys ignored).recorded.follow worker source t flags isNew o =
      (if isNew && Telling.kept ignored ⟨worker, source, t, flags, isNew⟩ then .expand else .skip, (),
        o.2.tell ⟨worker, source, t, flags, isNew⟩) := by
  unfold follow recorded sifting Telling.kept
  cases hi : source.any fun u => ignored u.state (t.state, flags) with
  | true => simp [hi]
  | false => cases isNew <;> simp [hi]

theorem recorded_sifting_expand (worker : Nat) (store : Store σ) (v : Vertex σ)
    (o : Unit × Journal σ) :
    (sifting sys ignored).recorded.expand worker store v {} o =
      (some (sys.successors v.state), .ofSuccessors (sys.successors v.state), (),
        o.2.expand worker v) :=
  recorded_exhaustive_expand worker store v o

end Listener

/-- Kept edges lead to the state from an initial one, by states that all have a property. -/
inductive System.Via (sys : System σ) (ignored : σ → Successor σ → Bool) (p : σ → Prop) :
    σ → Prop where
  | initial {s} (hs : s ∈ sys.initials) (hp : p s) : Via sys ignored p s
  | step {a n} (h : Via sys ignored p a) (hn : n ∈ sys.successors a) (hk : ignored a n = false)
    (hp : p n.1) : Via sys ignored p n.1

theorem System.Via.mono {p q : σ → Prop} {s : σ} (h : sys.Via ignored p s)
    (hpq : ∀ a, p a → q a) : sys.Via ignored q s := by
  induction h with
  | initial hs hp => exact .initial hs (hpq _ hp)
  | step _ hn hk hp ih => exact .step ih hn hk (hpq _ hp)

theorem System.Via.grows {a b : List (Vertex σ)} {s : σ}
    (h : sys.Via ignored (fun s => ∃ u ∈ a, u.state = s) s) (hab : ∀ u ∈ a, u ∈ b) :
    sys.Via ignored (fun s => ∃ u ∈ b, u.state = s) s := by
  apply h.mono
  rintro s ⟨u, hu, rfl⟩
  exact ⟨u, hab u hu, rfl⟩

/-- An ignored edge leads to the state from one that kept edges reach without it. -/
def System.Hides (sys : System σ) (ignored : σ → Successor σ → Bool) (s : σ) : Prop :=
  ∃ a, ∃ n ∈ sys.successors a, n.1 = s ∧ ignored a n = true ∧ sys.Via ignored (· ≠ s) a

namespace Journal

/-- The states that were expanded, the latest first. -/
def states (j : Journal σ) : List σ := j.expansions.map (·.2.state)

theorem coe_states (j : Journal σ) : (↑j.states : Multiset σ) = j.expanded.map (·.state) := by
  rw [expanded, Multiset.map_coe, List.map_map]
  rfl

theorem mem_states {j : Journal σ} {s : σ} : s ∈ j.states ↔ ∃ v ∈ j.expanded, v.state = s := by
  rw [← Multiset.mem_coe, coe_states, Multiset.mem_map]

end Journal

/-- What a state adds to the store. -/
theorem Store.Stored.coe_vertices {s s' : Store σ} {x : σ} {v : Vertex σ} {isNew : Bool}
    (h : Stored sys s x v isNew s') :
    (↑s'.vertices : Multiset (Vertex σ)) = (if isNew then {v} else 0) + ↑s.vertices := by
  cases isNew with
  | true => exact Multiset.coe_eq_coe.2 (h.added rfl).perm
  | false => rw [h.found rfl, if_neg Bool.false_ne_true, zero_add]

namespace WorkItem

/-- The vertex that an item has set aside for expansion. -/
def bound (ignored : σ → Successor σ → Bool) : WorkItem σ → Multiset (Vertex σ)
  | .met source v flags isNew =>
    if isNew && Telling.kept ignored ⟨0, source, v, flags, isNew⟩ then {v} else 0
  | .visit v => {v}
  | .arrival _ _ => 0

/-- The vertex of an item that is new and has yet to be told of. -/
def fresh : WorkItem σ → Multiset (Vertex σ)
  | .met _ v _ isNew => if isNew then {v} else 0
  | .visit _ => 0
  | .arrival _ _ => 0

theorem mem_bound_met {source : Option (Vertex σ)} {t v : Vertex σ} {flags : EdgeFlags}
    {isNew : Bool} : v ∈ (met source t flags isNew).bound ignored ↔
      (isNew && Telling.kept ignored ⟨0, source, t, flags, isNew⟩) = true ∧ v = t := by
  rw [bound]
  split <;> simp [*]

end WorkItem

namespace Work

/-- The vertices that were expanded or are bound to be. -/
def chosen (ignored : σ → Successor σ → Bool) (w : Work σ (Unit × Journal σ)) :
    Multiset (Vertex σ) :=
  w.observation.2.expanded + w.items.bind (WorkItem.bound ignored)

def fresh {ω : Type} (w : Work σ ω) : Multiset (Vertex σ) := w.items.bind WorkItem.fresh

variable {s₀ store' : Store σ} {w w' : Work σ (Unit × Journal σ)} {rest : Multiset (WorkItem σ)}
  {x : WorkItem σ} {source : Option (Vertex σ)} {t v : Vertex σ} {flags : EdgeFlags}
  {isNew : Bool} {worker : Nat}

/-- The work after an item was told to a listener that ignores some edges. -/
def sifted (ignored : σ → Successor σ → Bool) (w : Work σ (Unit × Journal σ))
    (rest : Multiset (WorkItem σ)) (y : Telling σ) : Work σ (Unit × Journal σ) :=
  { w with
    observation := ((), w.observation.2.tell y)
    items := if y.isNew && y.kept ignored then .visit y.target ::ₘ rest else rest }

theorem told_sifting :
    w.told rest t
      ((Listener.sifting sys ignored).recorded.follow worker source t flags isNew w.observation) =
      w.sifted ignored rest ⟨worker, source, t, flags, isNew⟩ := by
  rw [Listener.recorded_sifting_follow]
  unfold sifted
  split <;> rfl

theorem mem_of_mem_sifted {y : Telling σ} (hx : x ∈ (w.sifted ignored rest y).items) :
    x = .visit y.target ∨ x ∈ rest := by
  unfold sifted at hx
  split at hx
  · exact Multiset.mem_cons.1 hx
  · exact .inr hx

theorem visit_mem_sifted {y : Telling σ} : .visit v ∈ (w.sifted ignored rest y).items ↔
    (y.isNew && y.kept ignored) = true ∧ v = y.target ∨ .visit v ∈ rest := by
  unfold sifted
  split <;> simp [*]

theorem chosen_visit (hi : w.items = .visit v ::ₘ rest) :
    (w.visited v rest ((Listener.sifting sys ignored).recorded.expand worker w.store v {}
      w.observation)).chosen ignored = w.chosen ignored := by
  rw [Listener.recorded_sifting_expand]
  simp only [chosen, visited, hi, Multiset.add_bind, Journal.expanded_expand, Multiset.cons_bind]
  rw [bind_arrivals fun _ _ => rfl, zero_add, Multiset.cons_add, ← Multiset.singleton_add,
    add_left_comm]
  rfl

theorem chosen_store {n : Successor σ} (hi : w.items = .arrival source n ::ₘ rest) :
    ({ w with store := store', items := .met source t n.2 isNew ::ₘ rest } :
      Work σ (Unit × Journal σ)).chosen ignored =
      (WorkItem.met source t n.2 isNew).bound ignored + w.chosen ignored := by
  simp only [chosen, hi, Multiset.cons_bind]
  rw [add_left_comm]
  exact congrArg _ (congrArg _ (zero_add _).symm)

theorem chosen_sifted (hi : w.items = .met source t flags isNew ::ₘ rest) :
    (w.sifted ignored rest ⟨worker, source, t, flags, isNew⟩).chosen ignored =
      w.chosen ignored := by
  have hkept : Telling.kept ignored ⟨worker, source, t, flags, isNew⟩ =
      Telling.kept ignored ⟨0, source, t, flags, isNew⟩ := rfl
  simp only [chosen, sifted, hi, Multiset.cons_bind, Journal.expanded_tell, WorkItem.bound, hkept]
  congr 1
  split <;> simp [WorkItem.bound]

theorem untold_store {n : Successor σ} (hi : w.items = .arrival source n ::ₘ rest)
    (hs : t.state = n.1) :
    ({ w with store := store', items := .met source t n.2 isNew ::ₘ rest } :
      Work σ (Unit × Journal σ)).untold = w.untold := by
  simp only [Work.untold, hi, Multiset.cons_bind, WorkItem.untold, hs]

theorem untold_sifted (hi : w.items = .met source t flags isNew ::ₘ rest) :
    (w.sifted ignored rest ⟨worker, source, t, flags, isNew⟩).observation.2.told +
      (w.sifted ignored rest ⟨worker, source, t, flags, isNew⟩).untold =
      w.observation.2.told + w.untold := by
  have huntold : (w.sifted ignored rest ⟨worker, source, t, flags, isNew⟩).untold =
      rest.bind WorkItem.untold := by
    unfold Work.untold sifted
    split <;> simp [WorkItem.untold]
  rw [huntold, Work.untold, hi, Multiset.cons_bind, WorkItem.untold, sifted, Journal.told_tell,
    Multiset.cons_add, Multiset.singleton_add, Multiset.add_cons]

theorem discovered_sifted (hi : w.items = .met source t flags isNew ::ₘ rest) :
    (w.sifted ignored rest ⟨worker, source, t, flags, isNew⟩).observation.2.discovered +
        (w.sifted ignored rest ⟨worker, source, t, flags, isNew⟩).fresh =
      w.observation.2.discovered + w.fresh := by
  have hfresh : (w.sifted ignored rest ⟨worker, source, t, flags, isNew⟩).fresh =
      rest.bind WorkItem.fresh := by
    unfold fresh sifted
    split <;> simp [WorkItem.fresh]
  rw [hfresh, fresh, hi, Multiset.cons_bind, sifted, Journal.discovered_tell, WorkItem.fresh]
  abel

/-- No vertex is chosen twice, and only a full store interrupts the search. -/
structure Counted (ignored : σ → Successor σ → Bool) (w : Work σ (Unit × Journal σ)) : Prop where
  once : w.chosen ignored ≤ ↑w.store.vertices
  states : w.stats.states = w.observation.2.expanded.card
  calm : w.interrupt.raised = true → w.interrupt.failure.isSome = true

theorem chosen_le_of_items_le (hle : rest ≤ w.items) (interrupt : Interrupt) :
    ({ w with items := rest, interrupt } : Work σ (Unit × Journal σ)).chosen ignored ≤
      w.chosen ignored := by
  obtain ⟨left, hleft⟩ := Multiset.le_iff_exists_add.1 hle
  unfold chosen
  rw [hleft, Multiset.add_bind, ← add_assoc]
  exact Multiset.le_add_right _ _

theorem Counted.store (h : Counted ignored w) {next : Successor σ}
    (hi : w.items = .arrival source next ::ₘ rest)
    (hs : Store.Stored sys w.store next.1 t isNew store') :
    Counted ignored { w with store := store', items := .met source t next.2 isNew ::ₘ rest } := by
  refine ⟨?_, h.states, h.calm⟩
  rw [chosen_store hi, hs.coe_vertices]
  refine add_le_add ?_ h.once
  cases isNew with
  | false => exact le_refl _
  | true =>
    simp only [WorkItem.bound, Bool.true_and, if_true]
    split
    · exact le_refl _
    · exact Multiset.zero_le _

theorem Counted.event (h : Counted ignored w)
    (he : Event sys (Listener.sifting sys ignored).recorded w w') : Counted ignored w' := by
  cases he with
  | stored hi hs => exact h.store hi hs
  | told worker hi =>
    rw [told_sifting]
    exact ⟨(chosen_sifted hi).trans_le h.once, h.states, h.calm⟩
  | @full source next rest n hi hn hle hnew =>
    refine ⟨(chosen_le_of_items_le ?_ _).trans h.once, h.states, fun _ => ?_⟩
    · rw [hi]
      exact Multiset.le_cons_self _ _
    · cases hf : w.interrupt.failure <;> simp [Interrupt.raise, hf]
  | @visit v rest worker hi =>
    refine ⟨?_, ?_, fun hr => ?_⟩
    · rw [chosen_visit hi, visited_store]
      exact h.once
    · rw [Listener.recorded_sifting_expand, visited_stats, visited_observation,
        Journal.expanded_expand, Multiset.card_cons, SearchStats.add_states, h.states]
      rfl
    · rw [Listener.recorded_sifting_expand, visited_raised, Option.isNone_some, Bool.or_false] at hr
      rw [visited_failure]
      exact h.calm hr
  | abandon hr hle => exact ⟨(chosen_le_of_items_le hle _).trans h.once, h.states, h.calm⟩

theorem Counted.bounded (h : Counted ignored w) (hg : Grounded sys s₀ w) (hx : sys.Explicit) :
    w.stats.states ≤ sys.extent ∧ w.admitted < UInt64.size := by
  have hcard := Multiset.card_le_card h.once
  rw [chosen, Multiset.card_add, Multiset.coe_card] at hcard
  have hvisits := countP_isVisit_le w.items (f := WorkItem.bound ignored) fun _ => rfl
  have hextent : w.store.vertices.length ≤ sys.extent :=
    Store.Within.length_le hg.within hg.canonical.toDistinct hx
  have hword := hg.canonical.length_lt_word hx
  have hsize : UInt32.size < UInt64.size := by decide
  have hstates := h.states
  unfold admitted
  omega

/-- An item that is yet to be stored is a seed, or an edge out of a state that was expanded. -/
def Springs (sys : System σ) (expanded : Multiset (Vertex σ)) : WorkItem σ → Prop
  | .met .. => True
  | .visit _ => True
  | .arrival none n => n.1 ∈ sys.initials
  | .arrival (some u) _ => u ∈ expanded

theorem Springs.mono {a b : Multiset (Vertex σ)} (h : Springs sys a x) (hab : a ⊆ b) :
    Springs sys b x := by
  cases x with
  | met => trivial
  | visit => trivial
  | arrival source n =>
    cases source with
    | none => exact h
    | some u => exact hab h

theorem Event.raised_of_raised {ω : Type} {l : Listener σ ω} {w w' : Work σ ω}
    (he : Event sys l w w') (hr : w.interrupt.raised = true) : w'.interrupt.raised = true := by
  cases he with
  | stored => exact hr
  | told => rw [told_raised, hr, Bool.true_or]
  | full => rfl
  | visit => rw [visited_raised, hr, Bool.true_or]
  | abandon => exact hr

variable {base : List (Vertex σ)}

/-- What a search that ignores edges has made of the states it met, where the vertices of `base` are
seeds that were stored beforehand. -/
structure Tracked (sys : System σ) (ignored : σ → Successor σ → Bool) (base : List (Vertex σ))
    (w : Work σ (Unit × Journal σ)) : Prop where
  sub : ∀ v ∈ base, v ∈ w.store.vertices
  told : ∀ y ∈ w.observation.2.tellings, y.target ∈ w.store.vertices
  items : ∀ x ∈ w.items, Springs sys w.observation.2.expanded x
  edges : w.observation.2.told + w.untold =
    seedings sys.initials + w.observation.2.expanded.bind (edgesFrom sys)
  routed : ∀ v ∈ w.chosen ignored,
    sys.Via ignored (fun s => ∃ u ∈ w.store.vertices, u.state = s) v.state
  stored : w.observation.2.discovered + w.fresh = ↑w.store.vertices
  seeds : ∀ y ∈ w.observation.2.discoveries, y.target ∈ base → y.source = none
  hidden : ∀ y ∈ w.observation.2.discoveries, y.kept ignored = false →
    sys.Hides ignored y.target.state
  /-- The same of what is stored and has yet to be told of. -/
  met : ∀ source v flags, .met source v flags true ∈ w.items →
    (v ∈ base → source = none) ∧
    (Telling.kept ignored ⟨0, source, v, flags, true⟩ = false → sys.Hides ignored v.state)
  taken : ∀ v, v ∈ w.observation.2.expanded ∨ .visit v ∈ w.items ↔
    ∃ y ∈ w.observation.2.discoveries, y.target = v ∧ y.kept ignored = true

theorem Tracked.routed_source (h : Tracked sys ignored base w) {u : Vertex σ} {n : Successor σ}
    (hx : .arrival (some u) n ∈ w.items) :
    sys.Via ignored (fun s => ∃ u ∈ w.store.vertices, u.state = s) u.state :=
  h.routed u (Multiset.mem_add.2 (.inl (h.items _ hx)))

theorem Tracked.route (h : Tracked sys ignored base w) (hg : Grounded sys s₀ w)
    (hx : .arrival source (t.state, flags) ∈ w.items)
    (hsub : ∀ u ∈ w.store.vertices, u ∈ store'.vertices)
    (hmem : t ∈ store'.vertices) (hk : Telling.kept ignored ⟨worker, source, t, flags, isNew⟩ = true) :
    sys.Via ignored (fun s => ∃ u ∈ store'.vertices, u.state = s) t.state := by
  cases source with
  | none => exact .initial (h.items _ hx) ⟨t, hmem, rfl⟩
  | some u =>
    have hroute := (h.routed_source hx).grows hsub
    have hstep : (t.state, flags) ∈ sys.successors u.state := (hg.items _ hx).2
    exact hroute.step hstep (by simpa [Telling.kept] using hk) ⟨t, hmem, rfl⟩

theorem Tracked.hide (h : Tracked sys ignored base w) (hg : Grounded sys s₀ w)
    (hx : .arrival source (t.state, flags) ∈ w.items)
    (hnew : ∀ u ∈ w.store.vertices, u.state ≠ t.state)
    (hk : Telling.kept ignored ⟨worker, source, t, flags, isNew⟩ = false) :
    sys.Hides ignored t.state := by
  cases source with
  | none => cases hk
  | some u =>
    have hstep : (t.state, flags) ∈ sys.successors u.state := (hg.items _ hx).2
    refine ⟨u.state, _, hstep, rfl, by simpa [Telling.kept] using hk, ?_⟩
    apply (h.routed_source hx).mono
    rintro s ⟨z, hz, rfl⟩
    exact hnew z hz

/-- A state is stored. If it is new, this settles whether it will be expanded. -/
theorem Tracked.store (h : Tracked sys ignored base w) (hg : Grounded sys s₀ w)
    (hi : w.items = .arrival source (t.state, flags) ::ₘ rest)
    (hs : Store.Stored sys w.store t.state t isNew store') :
    Tracked sys ignored base
      { w with store := store', items := .met source t flags isNew ::ₘ rest } := by
  have hx : .arrival source (t.state, flags) ∈ w.items := hi ▸ Multiset.mem_cons_self _ rest
  have hrest : ∀ {y}, y ∈ rest → y ∈ w.items := fun hy => hi ▸ Multiset.mem_cons_of_mem hy
  have hfresh : ({ w with store := store', items := .met source t flags isNew ::ₘ rest } :
      Work σ (Unit × Journal σ)).fresh = (if isNew then {t} else 0) + w.fresh := by
    simp only [Work.fresh, hi, Multiset.cons_bind]
    exact congrArg _ (zero_add _).symm
  refine ⟨fun v hv => hs.grows v (h.sub v hv), fun y hy => hs.grows _ (h.told y hy),
    fun y hy => ?_, ?_, fun v hv => ?_, ?_, h.seeds, h.hidden, fun s v f hv => ?_,
    fun v => (or_congr_right (visit_mem_stored hi)).trans (h.taken v)⟩
  · rcases Multiset.mem_cons.1 hy with rfl | hy
    · trivial
    · exact h.items y (hrest hy)
  · rw [untold_store (n := (t.state, flags)) hi rfl]
    exact h.edges
  · rw [chosen_store (n := (t.state, flags)) hi] at hv
    rcases Multiset.mem_add.1 hv with hv | hv
    · obtain ⟨hk, rfl⟩ := WorkItem.mem_bound_met.1 hv
      exact h.route hg hx hs.grows hs.mem (Bool.and_eq_true_iff.1 hk).2
    · exact (h.routed v hv).grows hs.grows
  · rw [hfresh, hs.coe_vertices, ← h.stored]
    exact add_left_comm _ _ _
  · rcases Multiset.mem_cons.1 hv with hv | hv
    · cases hv
      have hnew : ∀ u ∈ w.store.vertices, u.state ≠ t.state := fun u hu he =>
        hs.ne_of_mem hu (hs.canonical.eq_of_state (hs.grows u hu) hs.mem he)
      exact ⟨fun hb => absurd rfl (hnew t (h.sub t hb)), h.hide hg hx hnew⟩
    · exact h.met s v f (hrest hv)

/-- A stored target is told of. What was chosen stays the same. -/
theorem Tracked.tell (h : Tracked sys ignored base w) (hg : Grounded sys s₀ w)
    (hi : w.items = .met source t flags isNew ::ₘ rest) :
    Tracked sys ignored base (w.sifted ignored rest ⟨worker, source, t, flags, isNew⟩) := by
  have hx : .met source t flags isNew ∈ w.items := hi ▸ Multiset.mem_cons_self _ rest
  have hrest : ∀ {y}, y ∈ rest → y ∈ w.items := fun hy => hi ▸ Multiset.mem_cons_of_mem hy
  have hchosen : (w.sifted ignored rest ⟨worker, source, t, flags, isNew⟩).chosen ignored =
      w.chosen ignored := chosen_sifted hi
  have hvisit : ∀ {v}, .visit v ∈ w.items ↔ .visit v ∈ rest := by simp [hi]
  have hmore : ∀ y, y ∈ (w.observation.2.tell ⟨worker, source, t, flags, isNew⟩).discoveries ↔
      (isNew = true ∧ y = ⟨worker, source, t, flags, isNew⟩) ∨ y ∈ w.observation.2.discoveries := by
    intro y
    rw [Journal.discoveries_tell]
    cases isNew <;> simp
  refine ⟨h.sub, fun y hy => ?_, fun y hy => ?_, ?_, ?_, ?_, fun y hy hb => ?_, fun y hy hk => ?_,
    fun s v f hv => ?_, fun v => ?_⟩
  · rcases List.mem_cons.1 hy with rfl | hy
    · exact (hg.items _ hx).target
    · exact h.told y hy
  · rcases mem_of_mem_sifted hy with rfl | hy
    · trivial
    · exact h.items y (hrest hy)
  · rw [untold_sifted hi]
    exact h.edges
  · rw [hchosen]
    exact h.routed
  · rw [discovered_sifted hi]
    exact h.stored
  · rcases (hmore y).1 hy with ⟨rfl, rfl⟩ | hy
    · exact (h.met source t flags hx).1 hb
    · exact h.seeds y hy hb
  · rcases (hmore y).1 hy with ⟨rfl, rfl⟩ | hy
    · exact (h.met source t flags hx).2 hk
    · exact h.hidden y hy hk
  · rcases mem_of_mem_sifted hv with hv | hv
    · cases hv
    · exact h.met s v f (hrest hv)
  · constructor
    · rintro (hv | hv)
      · obtain ⟨y, hy, hyv, hk⟩ := (h.taken v).1 (.inl hv)
        exact ⟨y, (hmore y).2 (.inr hy), hyv, hk⟩
      · rcases visit_mem_sifted.1 hv with ⟨hk, rfl⟩ | hv
        · obtain ⟨hn, hk⟩ := Bool.and_eq_true_iff.1 hk
          exact ⟨_, (hmore _).2 (.inl ⟨hn, rfl⟩), rfl, hk⟩
        · obtain ⟨y, hy, hyv, hk⟩ := (h.taken v).1 (.inr (hvisit.2 hv))
          exact ⟨y, (hmore y).2 (.inr hy), hyv, hk⟩
    · rintro ⟨y, hy, rfl, hk⟩
      rcases (hmore y).1 hy with ⟨hn, rfl⟩ | hy
      · exact .inr (visit_mem_sifted.2 (.inl ⟨Bool.and_eq_true_iff.2 ⟨hn, hk⟩, rfl⟩))
      · exact ((h.taken _).2 ⟨y, hy, rfl, hk⟩).imp_right fun hv =>
          visit_mem_sifted.2 (.inr (hvisit.1 hv))

theorem Tracked.visit (h : Tracked sys ignored base w) (hi : w.items = .visit v ::ₘ rest) :
    Tracked sys ignored base (w.visited v rest
      ((Listener.sifting sys ignored).recorded.expand worker w.store v {} w.observation)) := by
  have hchosen : (w.visited v rest ((Listener.sifting sys ignored).recorded.expand worker w.store v
      {} w.observation)).chosen ignored = w.chosen ignored := chosen_visit hi
  have huntold : w.untold = rest.bind WorkItem.untold := by
    rw [Work.untold, hi, Multiset.cons_bind]
    exact zero_add _
  rw [Listener.recorded_sifting_expand] at hchosen ⊢
  have hfresh : (w.visited v rest (some (sys.successors v.state),
      SearchStats.ofSuccessors (sys.successors v.state), ((),
        w.observation.2.expand worker v))).fresh = w.fresh := by
    simp only [Work.fresh, visited, hi, Multiset.add_bind, Multiset.cons_bind]
    rw [bind_arrivals fun _ _ => rfl]
    rfl
  refine ⟨h.sub, h.told, fun x hx => ?_, ?_, ?_, ?_, h.seeds, h.hidden, fun s u f hm => ?_,
    fun u => ?_⟩
  · rw [visited_observation, Journal.expanded_expand]
    rcases mem_of_mem_visited hi hx with ⟨n, -, rfl⟩ | hx
    · exact Multiset.mem_cons_self v _
    · exact (h.items x hx).mono (Multiset.subset_cons _ v)
  · simp only [visited, Work.untold, Multiset.add_bind, untold_arrivals, Journal.told_expand,
      Journal.expanded_expand, Multiset.cons_bind]
    rw [← huntold, edgesFrom, add_left_comm, h.edges, add_left_comm]
  · rw [hchosen]
    exact h.routed
  · rw [hfresh]
    exact h.stored
  · rcases mem_of_mem_visited hi hm with ⟨n, -, hn⟩ | hm
    · cases hn
    · exact h.met s u f hm
  · -- the visit of `v` becomes its expansion
    have hvisit := h.taken u
    rw [hi, Multiset.mem_cons, WorkItem.visit.injEq, or_left_comm, ← or_assoc] at hvisit
    rw [visited_observation, Journal.expanded_expand, Multiset.mem_cons, visited_items]
    simpa using hvisit

theorem Tracked.event (h : Tracked sys ignored base w) (hg : Grounded sys s₀ w)
    (he : Event sys (Listener.sifting sys ignored).recorded w w')
    (hr : w'.interrupt.raised = false) : Tracked sys ignored base w' := by
  cases he with
  | @stored source next t isNew store' rest hi hs =>
    obtain ⟨a, flags⟩ := next
    obtain rfl : t.state = a := hs.state
    exact h.store hg hi hs
  | told worker hi =>
    rw [told_sifting]
    exact h.tell hg hi
  | full => cases hr
  | visit worker hi => exact h.visit hi
  | abandon hraised => exact absurd (hraised.symm.trans hr) nofun

/-- A search between two moves that ignores some edges. -/
structure Sifts (sys : System σ) (ignored : σ → Successor σ → Bool) (s₀ : Store σ)
    (base : List (Vertex σ)) (w : Work σ (Unit × Journal σ)) : Prop where
  grounded : Grounded sys s₀ w
  counted : Counted ignored w
  tracked : w.interrupt.raised = false → Tracked sys ignored base w

theorem Sifts.moves (h : Sifts sys ignored s₀ base w) (hx : sys.Explicit)
    (hm : Moves sys (Listener.sifting sys ignored).recorded w w') :
    Sifts sys ignored s₀ base w' := by
  refine (hm.events h.grounded.canonical hx).preserve (fun w w' hw he => ?_) h
  refine ⟨hw.grounded.event (fun _ _ _ _ _ hn => hn) he, hw.counted.event he, fun hr => ?_⟩
  have hbefore : w.interrupt.raised = false :=
    Bool.eq_false_iff.2 fun hraised => by simp [he.raised_of_raised hraised] at hr
  exact (hw.tracked hbefore).event hw.grounded he hr

namespace Sifts

variable (h : Sifts sys ignored s₀ base w)
include h

theorem nodup_states : w.observation.2.states.Nodup := by
  have hle : w.observation.2.expanded ≤ ↑w.store.vertices :=
    (Multiset.le_add_right _ _).trans h.counted.once
  have hstates := Multiset.map_le_map (f := (·.state)) hle
  rw [← Journal.coe_states, Multiset.map_coe] at hstates
  exact Multiset.coe_nodup.1
    (Multiset.nodup_of_le hstates (Multiset.coe_nodup.2 h.grounded.canonical.nodup))

variable (hitems : w.items = 0)
include hitems

variable (hr : w.interrupt.raised = false)
include hr

omit hitems in
theorem via_of_mem {s : σ} (hs : s ∈ w.observation.2.states) :
    sys.Via ignored (fun _ => True) s := by
  obtain ⟨v, hv, rfl⟩ := Journal.mem_states.1 hs
  exact ((h.tracked hr).routed v (Multiset.mem_add.2 (.inl hv))).mono fun _ _ => trivial

theorem told_eq : w.observation.2.told =
    seedings sys.initials + w.observation.2.expanded.bind (edgesFrom sys) := by
  have hedges := (h.tracked hr).edges
  rwa [Work.untold, hitems, Multiset.zero_bind, add_zero] at hedges

theorem discovered_eq : w.observation.2.discovered = ↑w.store.vertices := by
  have hstored := (h.tracked hr).stored
  rwa [fresh, hitems, Multiset.zero_bind, add_zero] at hstored

theorem exists_discovery {v : Vertex σ} (hv : v ∈ w.store.vertices) :
    ∃ y ∈ w.observation.2.discoveries, y.target = v := by
  have hmem := Multiset.mem_coe.2 hv
  rw [← h.discovered_eq hitems hr] at hmem
  exact List.mem_map.1 (Multiset.mem_coe.1 hmem)

theorem nodup_discoveries : (w.observation.2.discoveries.map (·.target.state)).Nodup := by
  have hperm := (Multiset.coe_eq_coe.1 (h.discovered_eq hitems hr)).map (·.state)
  rw [List.map_map] at hperm
  exact hperm.nodup_iff.2 h.grounded.canonical.nodup

theorem mem_states_iff_discovery {s : σ} : s ∈ w.observation.2.states ↔
    ∃ y ∈ w.observation.2.discoveries, y.target.state = s ∧ y.kept ignored = true := by
  have htaken := (h.tracked hr).taken
  simp only [hitems, Multiset.notMem_zero, or_false] at htaken
  rw [Journal.mem_states]
  constructor
  · rintro ⟨v, hv, rfl⟩
    obtain ⟨y, hy, rfl, hk⟩ := (htaken v).1 hv
    exact ⟨y, hy, rfl, hk⟩
  · rintro ⟨y, hy, rfl, hk⟩
    exact ⟨y.target, (htaken _).2 ⟨y, hy, rfl, hk⟩, rfl⟩

theorem mem_of_via (hinit : ∀ s ∈ sys.initials, s ∈ w.observation.2.states)
    (hfree : ∀ s, sys.Via ignored (fun _ => True) s → s ∉ sys.initials → ¬ sys.Hides ignored s)
    {s : σ} (hs : sys.Via ignored (fun _ => True) s) : s ∈ w.observation.2.states := by
  have ht := h.tracked hr
  induction hs with
  | initial hs => exact hinit _ hs
  | @step a n hvia hn hk _ ih =>
    obtain ⟨v, hv, rfl⟩ := Journal.mem_states.1 ih
    -- the edge was told of, so its target is stored, and something told of it as new
    have htold : (some v, n) ∈ w.observation.2.told := by
      rw [h.told_eq hitems hr]
      refine Multiset.mem_add.2 (.inr (Multiset.mem_bind.2 ⟨v, hv, ?_⟩))
      exact Multiset.mem_coe.2 (List.mem_map_of_mem hn)
    obtain ⟨y, hy, hyn⟩ := List.mem_map.1 (Multiset.mem_coe.1 htold)
    have hstate : y.target.state = n.1 := congrArg (·.2.1) hyn
    obtain ⟨z, hz, hzy⟩ := h.exists_discovery hitems hr (ht.told y hy)
    rw [← hstate, ← hzy]
    cases hkz : z.kept ignored with
    | true => exact (h.mem_states_iff_discovery hitems hr).2 ⟨z, hz, rfl, hkz⟩
    | false =>
      have hhidden := ht.hidden z hz hkz
      rw [hzy, hstate] at hhidden ⊢
      by_cases hi : n.1 ∈ sys.initials
      · exact hinit _ hi
      · exact absurd hhidden (hfree n.1 (hvia.step hn hk trivial) hi)

end Sifts

end Work

end ModelChecker
