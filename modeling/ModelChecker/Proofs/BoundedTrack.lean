import Mathlib.Algebra.Order.BigOperators.Group.List
import Mathlib.Algebra.Order.Group.Nat
import ModelChecker.Proofs.BoundedAnswers
import ModelChecker.Proofs.Events

namespace ModelChecker.Bounded

variable {σ : Type} {sys : System σ} {q : Query} {s₀ store store' : Store σ}
  {o o' : Observation σ} {m₀ : State σ} {w w' : Work σ (Observation σ)} {x : WorkItem σ}
  {rest : Multiset (WorkItem σ)} {source : Option (Vertex σ)} {t v : Vertex σ} {m : LevelMark}
  {flags : EdgeFlags} {isNew : Bool}

/-- The marks and the noted edges are about stored states and of the levels so far. -/
structure Regular (sys : System σ) (q : Query) (store : Store σ) (o : Observation σ) : Prop where
  unmarked : ∀ a, o.mark a = {} ∨ ∃ v ∈ store.vertices, v.handle = a
  fault : o.fault = none
  expanded_le : ∀ v ∈ store.vertices, ∀ l, (o.mark v.handle).progress = .expanded l → l ≤ q.level
  reducible : ∀ v ∈ store.vertices, Reducible sys q v.state (o.mark v.handle)
  edges : ∀ e ∈ o.reducedEdges, e.1 ∈ store.vertices ∧ e.2 ∈ store.vertices

theorem Regular.grow (h : Regular sys q store o)
    (hsub : ∀ v ∈ store.vertices, v ∈ store'.vertices)
    (hfresh : ∀ v ∈ store'.vertices, o.mark v.handle = {} ∨ v ∈ store.vertices) :
    Regular sys q store' o := by
  refine ⟨fun a => (h.unmarked a).imp_right fun ⟨v, hv, ha⟩ => ⟨v, hsub v hv, ha⟩, h.fault,
    fun v hv l hl => ?_, fun v hv => ?_, fun e he => ?_⟩
  · rcases hfresh v hv with hm | hv
    · rw [hm] at hl
      cases hl
    · exact h.expanded_le v hv l hl
  · rcases hfresh v hv with hm | hv
    · rw [hm]
      exact nofun
    · exact h.reducible v hv
  · exact ⟨hsub _ (h.edges e he).1, hsub _ (h.edges e he).2⟩

theorem Regular.marked (h : Regular sys q store o) (hc : store.Canonical sys)
    (ht : t ∈ store.vertices) (ho : Marked t m o o')
    (hle : ∀ l, m.progress = .expanded l → l ≤ q.level) (hred : Reducible sys q t.state m)
    (hedges : ∀ e ∈ o'.reducedEdges, e.1 ∈ store.vertices ∧ e.2 ∈ store.vertices) :
    Regular sys q store o' := by
  refine ⟨fun a => ?_, ho.fault.trans h.fault, fun v hv l hl => ?_, fun v hv => ?_, hedges⟩
  · by_cases ha : a = t.handle
    · exact .inr ⟨t, ht, ha.symm⟩
    · rw [ho.other ha]
      exact h.unmarked a
  · by_cases hvt : v.handle = t.handle
    · rw [hvt, ho.self] at hl
      exact hle l hl
    · rw [ho.other hvt] at hl
      exact h.expanded_le v hv l hl
  · by_cases hvt : v.handle = t.handle
    · obtain rfl := hc.eq_of_handle hv ht hvt
      rw [ho.self]
      exact hred
    · rw [ho.other hvt]
      exact h.reducible v hv

theorem Marked.evolves (ho : Marked t m o o') (hm : LevelMark.Evolves (o.mark t.handle) m)
    (a : Handle) : LevelMark.Evolves (o.mark a) (o'.mark a) := by
  by_cases ha : a = t.handle
  · rw [ha, ho.self]
    exact hm
  · rw [ho.other ha]
    exact .refl _

def Admissible (sys : System σ) (q : Query) (store : Store σ) (o : Observation σ) :
    WorkItem σ → Prop
  | .met none v _ _ => Seedable sys q o v
  | .met (some u) _ _ _ => (o.mark u.handle).isExpanded = true
  | .visit v => (o.mark v.handle).isExpanded = true
  | .arrival (some u) _ => (o.mark u.handle).isExpanded = true
  | .arrival none n => q.level = 0 ∧ n.1 ∈ sys.initials ∨
    ∃ v ∈ store.vertices, v.state = n.1 ∧ Seedable sys q o v

theorem Seedable.mono (h : Seedable sys q o v)
    (hev : ∀ a, LevelMark.Evolves (o.mark a) (o'.mark a)) : Seedable sys q o' v := by
  refine h.imp_right fun ⟨l, hle, hl⟩ => ?_
  obtain ⟨k, hk, hkl⟩ := (hev v.handle).lowers l hl
  exact ⟨k, hk.trans hle, hkl⟩

theorem Admissible.mono (h : Admissible sys q store o x)
    (hsub : ∀ v ∈ store.vertices, v ∈ store'.vertices)
    (hev : ∀ a, LevelMark.Evolves (o.mark a) (o'.mark a)) : Admissible sys q store' o' x := by
  cases x with
  | met source v flags b =>
    cases source with
    | none => exact Seedable.mono h hev
    | some u => exact (hev _).isExpanded h
  | visit v => exact (hev _).isExpanded h
  | arrival source n =>
    cases source with
    | some u => exact (hev _).isExpanded h
    | none =>
      refine Or.imp_right ?_ h
      rintro ⟨v, hv, hvn, hs⟩
      exact ⟨v, hsub v hv, hvn, hs.mono hev⟩

def tally (f : LevelMark → Nat) (store : Store σ) (o : Observation σ) : Nat :=
  (store.vertices.map fun v => f (o.mark v.handle)).sum

abbrev expandedCount (store : Store σ) (o : Observation σ) : Nat :=
  tally (·.isExpanded.toNat) store o

abbrev fullCount (store : Store σ) (o : Observation σ) : Nat :=
  tally (·.full.toNat) store o

section tally
variable {f : LevelMark → Nat}

theorem tally_mono (h : ∀ v ∈ store.vertices, f (o.mark v.handle) ≤ f (o'.mark v.handle)) :
    tally f store o ≤ tally f store o' :=
  List.sum_le_sum h

theorem tally_lt (h : ∀ v ∈ store.vertices, f (o.mark v.handle) ≤ f (o'.mark v.handle))
    (hv : v ∈ store.vertices) (hlt : f (o.mark v.handle) < f (o'.mark v.handle)) :
    tally f store o < tally f store o' :=
  List.sum_lt_sum _ _ h ⟨v, hv, hlt⟩

theorem tally_le_length (hf : ∀ m, f m ≤ 1) : tally f store o ≤ store.vertices.length := by
  have hle := List.sum_le_card_nsmul (store.vertices.map fun v => f (o.mark v.handle)) 1 <| by
    intro n hn
    obtain ⟨v, -, rfl⟩ := List.mem_map.1 hn
    exact hf _
  rwa [List.length_map, nsmul_eq_mul, mul_one] at hle

theorem tally_stored (hf : f {} = 0) {y : σ} (hs : Store.Stored sys store y t isNew store')
    (hfresh : ∀ v ∈ store'.vertices, o.mark v.handle = {} ∨ v ∈ store.vertices) :
    tally f store' o = tally f store o := by
  cases isNew with
  | false => rw [hs.found rfl]
  | true =>
    have hnew : t ∉ store.vertices := fun hmem => hs.ne_of_mem hmem rfl
    have hmark := (hfresh t hs.mem).resolve_right hnew
    unfold tally
    rw [((hs.added rfl).perm.map _).sum_eq, List.map_cons, List.sum_cons, hmark, hf, zero_add]

end tally

/-- The vertex `t` may be told of as the target of an edge from `source`, or as a seed. -/
def Leads (sys : System σ) (q : Query) (store : Store σ) (o : Observation σ) (t : Vertex σ)
    (flags : EdgeFlags) : Option (Vertex σ) → Prop
  | none => Seedable sys q o t
  | some u => u ∈ store.vertices ∧ (o.mark u.handle).isExpanded = true ∧
    (t.state, flags) ∈ sys.successors u.state

/-- What is true of the work of a round that was started on `m₀`. -/
structure Tracked (sys : System σ) (q : Query) (m₀ : State σ) (w : Work σ (Observation σ)) :
    Prop where
  grounded : w.Grounded sys m₀.store
  regular : Regular sys q w.store w.observation
  items : ∀ x ∈ w.items, Admissible sys q w.store w.observation x
  raised : w.interrupt.raised = (w.observation.found.isSome || w.interrupt.failure.isSome)
  expanded : expandedCount m₀.store m₀.observation + w.admitted ≤
    expandedCount w.store w.observation
  full : fullCount m₀.store m₀.observation ≤ fullCount w.store w.observation

theorem Tracked.awaited (h : Tracked sys q m₀ w) {u : Vertex σ} {n : Successor σ}
    (ha : Work.Awaited w.items (some u) n) : (w.observation.mark u.handle).isExpanded = true := by
  obtain ⟨x, hx, hedge⟩ := ha
  have hok := h.items x hx
  cases x with
  | met =>
    cases hedge
    exact hok
  | arrival =>
    cases hedge
    exact hok
  | visit => cases hedge

theorem Tracked.fresh (h : Tracked sys q m₀ w) {y : σ}
    (hs : Store.Stored sys w.store y t isNew store') :
    ∀ v ∈ store'.vertices, w.observation.mark v.handle = {} ∨ v ∈ w.store.vertices := by
  intro v hv
  rcases hs.mem_or_fresh hv with hold | hnew
  · exact .inr hold
  · refine .inl ((h.regular.unmarked v.handle).resolve_right ?_)
    rintro ⟨u, hu, huv⟩
    exact hnew u hu huv

section told
variable (h : Tracked sys q m₀ w) (hx : .met source t flags isNew ∈ w.items)
include h hx

theorem Tracked.leads : Leads sys q w.store w.observation t flags source := by
  have hok := h.items _ hx
  have hrests := h.grounded.items _ hx
  cases source with
  | none => exact hok
  | some u => exact ⟨hrests.2.1, hok, hrests.2.2⟩

theorem Tracked.reply (worker : Nat) : Reply sys q source t flags w.observation
    ((listener sys q).follow worker source t flags isNew w.observation) := by
  have hexp := h.regular.expanded_le t (h.grounded.target hx)
  have hleads := h.leads hx
  cases source with
  | none => exact seed_reply hleads hexp
  | some u =>
    obtain ⟨l, hl⟩ := LevelMark.isExpanded_iff.1 hleads.2.1
    exact edge_reply (LevelMark.level?_eq_of_expanded hl)

end told

theorem admitted_told (hi : w.items = .met source t flags isNew ::ₘ rest)
    {r : Step × Observation σ} :
    (w.told rest t r).admitted = w.admitted + if r.1 = .expand then 1 else 0 := by
  unfold Work.admitted
  rw [Work.told_stats, Work.told_items, hi, Multiset.countP_cons_of_neg _ nofun]
  split
  · rw [Multiset.countP_cons_of_pos (p := fun y : WorkItem σ => y.isVisit = true) rest rfl,
      Nat.add_assoc]
  · rfl

theorem Tracked.told (h : Tracked sys q m₀ w) (hi : w.items = .met source t flags isNew ::ₘ rest)
    (worker : Nat) :
    Tracked sys q m₀ (w.told rest t
      ((listener sys q).follow worker source t flags isNew w.observation)) := by
  have hx : .met source t flags isNew ∈ w.items := hi ▸ Multiset.mem_cons_self _ rest
  have hmem := h.grounded.target hx
  have hreg := h.regular
  have hground := h.grounded.told hi hmem
    ((listener sys q).follow worker source t flags isNew w.observation)
  have hreply := h.reply hx worker
  generalize (listener sys q).follow worker source t flags isNew w.observation = r at *
  obtain ⟨m, hmark, hev, hred, hle, hcase⟩ := hreply.marks (hreg.expanded_le t hmem)
  have hall := hmark.evolves hev
  have hexpanded : ∀ v ∈ w.store.vertices, (w.observation.mark v.handle).isExpanded.toNat ≤
      (r.2.mark v.handle).isExpanded.toNat := fun v _ => (hall v.handle).toNat_le
  refine ⟨hground, ?_, fun y hy => ?_, ?_, ?_, ?_⟩
  · rw [Work.told_store, Work.told_observation]
    refine hreg.marked h.grounded.canonical hmem hmark hle (fun hr => ?_) fun e he => ?_
    · obtain ⟨he, hq, hf, hample⟩ := hreg.reducible t hmem (hred ▸ hr)
      exact ⟨hev.isExpanded he, hq, hev.full.trans hf, hample⟩
    · rcases hreply.mem_edges he with he | ⟨u, hu, rfl⟩
      · exact hreg.edges e he
      · subst hu
        exact ⟨(h.leads hx).1, hmem⟩
  · rw [Work.told_store, Work.told_observation]
    rcases Work.mem_of_mem_told hi hy with ⟨rfl, hstep⟩ | hy
    · change (r.2.mark t.handle).isExpanded = true
      rw [hmark.self]
      exact (hcase.resolve_right fun hx => hx.1 hstep).2.2
    · exact (h.items y hy).mono (fun _ hv => hv) hall
  · rw [Work.told_raised, Work.told_observation, Work.told_failure, hreply.found_isSome, h.raised,
      Bool.or_right_comm]
  · rw [Work.told_store, Work.told_observation, admitted_told hi]
    have hold := h.expanded
    rcases hcase with ⟨hstep, hno, hyes⟩ | ⟨hstep, -⟩
    · have hlt := tally_lt (f := (·.isExpanded.toNat)) hexpanded hmem <| by
        rw [hmark.self, hno, hyes]
        exact Nat.zero_lt_one
      rw [if_pos hstep]
      unfold expandedCount at *
      omega
    · have hle := tally_mono (f := (·.isExpanded.toNat)) hexpanded
      rw [if_neg hstep]
      unfold expandedCount at *
      omega
  · rw [Work.told_store, Work.told_observation]
    exact h.full.trans (tally_mono fun v _ => by rw [(hall _).full])

/-- Storing a target keeps what is true: no mark changes. -/
theorem Tracked.placed (h : Tracked sys q m₀ w) {next : Successor σ}
    (hi : w.items = .arrival source next ::ₘ rest)
    (hs : Store.Stored sys w.store next.1 t isNew store') :
    Tracked sys q m₀
      { w with store := store', items := .met source t next.2 isNew ::ₘ rest } := by
  have hok : Admissible sys q w.store w.observation (.arrival source next) :=
    h.items _ (hi ▸ Multiset.mem_cons_self _ rest)
  have htally : ∀ {f : LevelMark → Nat}, f {} = 0 →
      tally f store' w.observation = tally f w.store w.observation :=
    fun hf => tally_stored hf hs (h.fresh hs)
  refine ⟨h.grounded.placed hi hs, h.regular.grow hs.grows (h.fresh hs), fun y hy => ?_, h.raised,
    ?_, ?_⟩
  · rcases Multiset.mem_cons.1 hy with rfl | hy
    · cases source with
      | none =>
        rcases hok with ⟨h0, hi⟩ | ⟨v, hv, hvn, hseed⟩
        · exact .inl ⟨h0, hs.state ▸ hi⟩
        · obtain rfl := hs.canonical.eq_of_state (hs.grows v hv) hs.mem (hvn.trans hs.state.symm)
          exact hseed
      | some u => exact hok
    · exact (h.items y (hi ▸ Multiset.mem_cons_of_mem hy)).mono hs.grows fun _ => .refl _
  · rw [Work.admitted_stored hi]
    exact h.expanded.trans_eq (htally rfl).symm
  · exact h.full.trans_eq (htally rfl).symm

theorem admitted_visited (hi : w.items = .visit v ::ₘ rest)
    {r : Option (List (Successor σ)) × SearchStats × Observation σ} (hone : r.2.1.states = 1) :
    (w.visited v rest r).admitted = w.admitted := by
  unfold Work.admitted
  rw [Work.visited_stats, Work.visited_items, Multiset.countP_add, Work.countP_arrivals,
    SearchStats.add_states, hone, hi,
    Multiset.countP_cons_of_pos (p := fun y : WorkItem σ => y.isVisit = true) rest rfl]
  omega

theorem Tracked.visited (h : Tracked sys q m₀ w) (hx : sys.Explicit)
    (hi : w.items = .visit v ::ₘ rest) (worker : Nat) :
    Tracked sys q m₀ (w.visited v rest
      ((listener sys q).expand worker w.store v {} w.observation)) := by
  have hxi : .visit v ∈ w.items := hi ▸ Multiset.mem_cons_self _ rest
  have hground := h.grounded.event (listener_mem_successors hx)
    (.visit (l := listener sys q) worker hi)
  have hv : Work.Rests sys w.store (.visit v) := h.grounded.items _ hxi
  have he : Admissible sys q w.store w.observation (.visit v) := h.items _ hxi
  have hone := ((listener sys q).expand_next worker w.store v w.observation).1
  obtain ⟨m, p, hm, hcase⟩ := expand_cases (h.regular.reducible v hv) he worker w.store
  generalize (listener sys q).expand worker w.store v {} w.observation = r at *
  -- the deadlock that may be found changes no mark
  have hobs : (∀ a, r.2.2.mark a = p.2.mark a) ∧ r.2.2.fault = p.2.fault ∧
      r.2.2.reducedEdges = p.2.reducedEdges := by
    rcases hcase with ⟨-, -, -, ho⟩ | ⟨-, ho⟩
    · rw [ho]
      exact ⟨fun _ => rfl, rfl, rfl⟩
    · rw [ho]
      exact ⟨fun _ => rfl, rfl, rfl⟩
  have hmark : Marked v m w.observation r.2.2 :=
    ⟨fun a => (hobs.1 a).trans (hm.mark a), hobs.2.1.trans hm.fault⟩
  have hev := hmark.evolves hm.evolves
  refine ⟨hground, ?_, fun y hy => ?_, ?_, ?_, ?_⟩
  · rw [Work.visited_store, Work.visited_observation]
    refine h.regular.marked h.grounded.canonical hv hmark (fun l hl => ?_) hm.reducible ?_
    · exact h.regular.expanded_le v hv l (hm.progress ▸ hl)
    · rw [hobs.2.2, hm.edges]
      exact h.regular.edges
  · rw [Work.visited_store, Work.visited_observation]
    rcases Work.mem_of_mem_visited hi hy with ⟨n, -, rfl⟩ | hy
    · exact (hev _).isExpanded he
    · exact (h.items y hy).mono (fun _ hu => hu) hev
  · rw [Work.visited_raised, Work.visited_observation, Work.visited_failure, h.raised]
    rcases hcase with ⟨-, -, hnext, ho⟩ | ⟨hnext, ho⟩
    · rw [hnext, ho, (Observation.reports_report rfl worker _).isSome]
      simp
    · rw [hnext, ho, hm.found]
      simp
  · rw [Work.visited_store, Work.visited_observation, admitted_visited hi hone]
    exact h.expanded.trans (tally_mono fun u _ => (hev u.handle).toNat_le)
  · rw [Work.visited_store, Work.visited_observation]
    exact h.full.trans (tally_mono fun u _ => by rw [(hev _).full])

theorem Tracked.event (h : Tracked sys q m₀ w) (hx : sys.Explicit)
    (he : Work.Event sys (listener sys q) w w') : Tracked sys q m₀ w' := by
  have hground := h.grounded.event (listener_mem_successors hx) he
  -- with fewer items, no more states are admitted
  have hadm : ∀ {items interrupt}, items ≤ w.items →
      ({ w with items, interrupt } : Work σ (Observation σ)).admitted ≤ w.admitted := by
    intro items interrupt hle
    exact Nat.add_le_add_left (Multiset.countP_le_of_le _ hle) _
  cases he with
  | stored hi hs => exact h.placed hi hs
  | told worker hi => exact h.told hi worker
  | visit worker hi => exact h.visited hx hi worker
  | @full source next rest n hi hn hle hnew =>
    have hsub : rest ≤ w.items := hi ▸ Multiset.le_cons_self rest _
    refine ⟨hground, h.regular, fun y hy => h.items y (Multiset.mem_of_le hsub hy), ?_,
      (Nat.add_le_add_left (hadm hsub) _).trans h.expanded, h.full⟩
    change true = (_ || (w.interrupt.failure.or _).isSome)
    rw [Option.isSome_or, Option.isSome_some, Bool.or_true, Bool.or_true]
  | abandon hr hle =>
    exact ⟨hground, h.regular, fun y hy => h.items y (Multiset.mem_of_le hle hy), h.raised,
      (Nat.add_le_add_left (hadm hle) _).trans h.expanded, h.full⟩

theorem Tracked.evolves (h : Tracked sys q m₀ w) (he : Work.Event sys (listener sys q) w w')
    (a : Handle) : LevelMark.Evolves (w.observation.mark a) (w'.observation.mark a) := by
  cases he with
  | stored => exact .refl _
  | @told source t flags isNew rest worker hi =>
    have hx : .met source t flags isNew ∈ w.items := hi ▸ Multiset.mem_cons_self _ rest
    obtain ⟨m, hmark, hev, -⟩ := (h.reply hx worker).marks
      (h.regular.expanded_le t (h.grounded.target hx))
    rw [Work.told_observation]
    exact hmark.evolves hev a
  | @visit v rest worker hi =>
    have hxi : .visit v ∈ w.items := hi ▸ Multiset.mem_cons_self _ rest
    obtain ⟨m, p, hm, hcase⟩ := expand_cases (h.regular.reducible v (h.grounded.items _ hxi))
      (h.items _ hxi) worker w.store
    have hev := hm.toMarked.evolves hm.evolves a
    rw [Work.visited_observation]
    rcases hcase with ⟨-, -, -, ho⟩ | ⟨-, ho⟩
    · rw [ho]
      exact hev
    · rw [ho]
      exact hev
  | full => exact .refl _
  | abandon => exact .refl _

theorem Tracked.bounded (h : Tracked sys q m₀ w) (hx : sys.Explicit) :
    w.stats.states ≤ sys.extent ∧ w.admitted < UInt64.size := by
  have hle := h.expanded
  have hlen : expandedCount w.store w.observation ≤ w.store.vertices.length :=
    tally_le_length fun m => Bool.toNat_le m.isExpanded
  exact h.grounded.bounded hx (by omega)

/-- The edge `n` out of `v` was told: its target has a level, and it is noted if `v` is reduced. -/
def Met (store : Store σ) (o : Observation σ) (v : Vertex σ) (n : Successor σ) : Prop :=
  ∃ t ∈ store.vertices, t.state = n.1 ∧ (∃ l, (o.mark t.handle).level? = some l) ∧
    ((o.mark v.handle).reduced = true → (v, t) ∈ o.reducedEdges)

/-- Every expanded state has yet to be visited, or its edges are told or will be. -/
def Covered (sys : System σ) (w : Work σ (Observation σ)) : Prop :=
  ∀ v ∈ w.store.vertices, (w.observation.mark v.handle).isExpanded = true → .visit v ∈ w.items ∨
    ∀ n ∈ expansion sys (w.observation.mark v.handle) v.state,
      Work.Awaited w.items (some v) n ∨ Met w.store w.observation v n

theorem Met.mono {n : Successor σ} (h : Met store o v n)
    (hsub : ∀ u ∈ store.vertices, u ∈ store'.vertices)
    (hev : ∀ a, LevelMark.Evolves (o.mark a) (o'.mark a))
    (hred : (o'.mark v.handle).reduced = (o.mark v.handle).reduced)
    (hedges : ∀ e ∈ o.reducedEdges, e ∈ o'.reducedEdges) : Met store' o' v n := by
  obtain ⟨t, ht, htn, ⟨l, hl⟩, hnote⟩ := h
  obtain ⟨k, -, hk⟩ := (hev t.handle).lowers l hl
  exact ⟨t, hsub t ht, htn, ⟨k, hk⟩, fun hr => hedges _ (hnote (hred ▸ hr))⟩

theorem expansion_congr {m m' : LevelMark} (h : m'.reduced = m.reduced) (s : σ) :
    expansion sys m' s = expansion sys m s := by
  rw [expansion, expansion, h]

theorem subset_noting : ∀ e ∈ o.reducedEdges, e ∈ o.noting q t source := by
  intro e he
  cases source with
  | none => exact he
  | some u =>
    simp only [Observation.noting]
    split
    · exact List.mem_cons_of_mem _ he
    · exact he

theorem Covered.told (h : Covered sys w) (hw : Tracked sys q m₀ w)
    (hi : w.items = .met source t flags isNew ::ₘ rest) {r : Step × Observation σ}
    (hr : Reply sys q source t flags w.observation r) (hgo : r.1 ≠ .stop) :
    Covered sys (w.told rest t r) := by
  have hmem := hw.grounded.target (hi ▸ Multiset.mem_cons_self _ rest)
  obtain ⟨m, hmark, hev, hred, -, hcase⟩ := hr.marks (hw.regular.expanded_le t hmem)
  obtain ⟨hnote, hlevel⟩ := hr.noted hgo
  have hall := hmark.evolves hev
  have hsame : ∀ a, (r.2.mark a).reduced = (w.observation.mark a).reduced := by
    intro a
    by_cases ha : a = t.handle
    · rw [ha, hmark.self, hred]
    · rw [hmark.other ha]
  intro v hv he
  rw [Work.told_store] at hv
  rw [Work.told_observation] at he
  by_cases hnew : v = t ∧ r.1 = .expand
  · left
    rw [Work.told_items, if_pos hnew.2, hnew.1]
    exact Multiset.mem_cons_self _ rest
  · -- the state was expanded before, so it was covered before
    have hold : (w.observation.mark v.handle).isExpanded = true := by
      by_cases hvt : v.handle = t.handle
      · obtain rfl := hw.grounded.canonical.eq_of_handle hv hmem hvt
        rw [hmark.self] at he
        rcases hcase with hx | hx
        · exact absurd ⟨rfl, hx.1⟩ hnew
        · exact hx.2.symm.trans he
      · rwa [hmark.other hvt] at he
    rw [Work.told_store, Work.told_observation, expansion_congr (hsame v.handle)]
    refine (h v hv hold).imp (Work.visit_mem_told hi · r) fun hedges n hn => ?_
    rcases hedges n hn with hawaited | hmet
    · refine (Work.awaited_told hi hawaited r).imp_right ?_
      rintro ⟨rfl, rfl⟩
      refine ⟨t, hmem, rfl, hlevel, fun hvr => ?_⟩
      have hvr : (w.observation.mark v.handle).reduced = true := hsame v.handle ▸ hvr
      have hq := (hw.regular.reducible v hv hvr).2.1
      refine (hnote _).2 ?_
      simp only [Observation.noting, hq, hvr, Bool.and_self, if_true]
      exact List.mem_cons_self
    · exact .inr (hmet.mono (fun _ hu => hu) hall (hsame v.handle) fun e hx =>
        (hnote e).2 (subset_noting e hx))

theorem Covered.placed (h : Covered sys w) (hw : Tracked sys q m₀ w) {next : Successor σ}
    (hi : w.items = .arrival source next ::ₘ rest)
    (hs : Store.Stored sys w.store next.1 t isNew store') :
    Covered sys { w with store := store', items := .met source t next.2 isNew ::ₘ rest } := by
  intro v hv he
  have hvs : v ∈ w.store.vertices := by
    refine (hw.fresh hs v hv).resolve_left fun hx => ?_
    rw [hx] at he
    cases he
  refine (h v hvs he).imp (Work.visit_mem_stored hi).2 fun hedges n hn => ?_
  exact (hedges n hn).imp (Work.awaited_stored hi hs).2 fun hmet =>
    hmet.mono hs.grows (fun _ => .refl _) rfl fun _ he => he

theorem Covered.visited (h : Covered sys w) (hw : Tracked sys q m₀ w)
    (hi : w.items = .visit v ::ₘ rest) {p : List (Successor σ) × Observation σ}
    (hm : Unfolds sys q v w.observation m p)
    {r : Option (List (Successor σ)) × SearchStats × Observation σ} (hnext : r.1 = some p.1)
    (hobs : r.2.2 = p.2) : Covered sys (w.visited v rest r) := by
  have hv : Work.Rests sys w.store (.visit v) :=
    hw.grounded.items _ (hi ▸ Multiset.mem_cons_self _ rest)
  have hall := hm.toMarked.evolves hm.evolves
  have hkeep : ∀ y ∈ w.items, y ≠ .visit v → y ∈ (w.visited v rest r).items :=
    fun y hy hne => Work.mem_visited_items hi hy hne r
  intro u hu he
  rw [Work.visited_store] at hu
  rw [Work.visited_observation, hobs] at he
  rw [Work.visited_store, Work.visited_observation, hobs]
  by_cases huv : u.handle = v.handle
  · obtain rfl := hw.grounded.canonical.eq_of_handle hu hv huv
    refine .inr fun n hn => .inl (Work.awaited_of_mem hnext ?_ w)
    rwa [hm.self, ← hm.next] at hn
  · rw [hm.other huv] at he ⊢
    refine (h u hu he).imp (fun hvisit => hkeep _ hvisit ?_) fun hedges n hn => ?_
    · rintro ⟨⟩
      exact huv rfl
    · refine (hedges n hn).imp (fun hn => Work.awaited_visited (hi ▸ hn) w r) fun hmet => ?_
      refine hmet.mono (fun _ hx => hx) hall (by rw [hm.other huv]) fun e hx => ?_
      rw [hm.edges]
      exact hx

theorem Covered.event (h : w.interrupt.raised = false → Covered sys w) (hw : Tracked sys q m₀ w)
    (he : Work.Event sys (listener sys q) w w') (hraised : w'.interrupt.raised = false) :
    Covered sys w' := by
  cases he with
  | stored hi hs => exact (h hraised).placed hw hi hs
  | told worker hi =>
    rw [Work.told_raised, Bool.or_eq_false_iff, decide_eq_false_iff_not] at hraised
    exact (h hraised.1).told hw hi (hw.reply (hi ▸ Multiset.mem_cons_self _ _) worker) hraised.2
  | full => cases hraised
  | @visit v rest worker hi =>
    rw [Work.visited_raised, Bool.or_eq_false_iff] at hraised
    have hxi : .visit v ∈ w.items := hi ▸ Multiset.mem_cons_self _ rest
    obtain ⟨m, p, hm, ⟨-, -, hnext, -⟩ | ⟨hnext, hobs⟩⟩ := expand_cases
      (hw.regular.reducible v (hw.grounded.items _ hxi)) (hw.items _ hxi) worker w.store
    · rw [hnext] at hraised
      cases hraised.2
    · exact (h hraised.1).visited hw hi hm hnext hobs
  | abandon hr => cases hr.symm.trans hraised

end ModelChecker.Bounded
