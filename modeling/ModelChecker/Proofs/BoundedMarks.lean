import ModelChecker.Safety.Bounded
import ModelChecker.Proofs.Lineage

namespace ModelChecker

variable {σ : Type}

/-- Some path from an initial state to `s` makes `n` context switches. -/
inductive System.ReachesWith (sys : System σ) : Nat → σ → Prop where
  | initial {s : σ} (h : s ∈ sys.initials) : ReachesWith sys 0 s
  | step {n : Nat} {s : σ} {x : Successor σ} (h : ReachesWith sys n s)
    (hx : x ∈ sys.successors s) : ReachesWith sys (n + x.2.contextSwitch.toNat) x.1

/-- A path with at most `n` context switches violates the property. The switch of an error edge
counts. -/
def System.ViolatedWithin (sys : System σ) (n : Nat) : Property → Prop
  | .goal => (∃ s k, sys.ReachesWith k s ∧ k ≤ n ∧ sys.goal s = true) ∨
    ∃ s k, sys.ReachesWith k s ∧ ∃ x ∈ sys.successors s,
      k + x.2.contextSwitch.toNat ≤ n ∧ x.2.error = true
  | .deadlock => ∃ s k, sys.ReachesWith k s ∧ k ≤ n ∧ sys.successors s = []
  | .liveness => False

namespace LevelMark

theorem level?_eq_of_expanded {m : LevelMark} {l : Nat} (h : m.progress = .expanded l) :
    m.level? = some l := by
  simp only [level?, h]

theorem isExpanded_iff {m : LevelMark} : m.isExpanded = true ↔ ∃ l, m.progress = .expanded l := by
  unfold isExpanded
  cases m.progress <;> simp

theorem level?_eq_some {m : LevelMark} {l : Nat} :
    m.level? = some l ↔ m.progress = .waiting l ∨ m.progress = .expanded l := by
  unfold level?
  cases m.progress <;> simp

end LevelMark

namespace Bounded

/-- A violation of stored states that lies within the bound. -/
structure Genuine (sys : System σ) (q : Query) (store : Store σ) (x : Violation σ) : Prop where
  vertex : x.vertex ∈ store.vertices
  via : ∀ u, x.via = some u → u ∈ store.vertices
  within : sys.ViolatedWithin q.bound q.property

/-- What the marks say of the stored states is true. -/
structure Reached (sys : System σ) (q : Query) (store : Store σ) (o : Observation σ) : Prop where
  canonical : store.Canonical sys
  unlimited : store.budget.limit = none
  unmarked : ∀ a, o.mark a = {} ∨ ∃ v ∈ store.vertices, v.handle = a
  level : ∀ v ∈ store.vertices, ∀ l, (o.mark v.handle).level? = some l → sys.ReachesWith l v.state
  expanded_le : ∀ v ∈ store.vertices, ∀ l, (o.mark v.handle).progress = .expanded l → l ≤ q.level
  waiting : ∀ v ∈ store.vertices, ∀ l, (o.mark v.handle).progress = .waiting l →
    q.level ≤ l ∧ l ≤ q.level + 1
  origin : ∀ v ∈ store.vertices, v.state ∈ sys.initials ∨ ∃ u ∈ store.vertices,
    (o.mark u.handle).isExpanded = true ∧ ∃ x ∈ sys.successors u.state, x.1 = v.state
  fault : o.fault = none
  found : ∀ x, o.found = some x → Genuine sys q store x

/-- The expanded states, newest first, and parents that are among them. -/
structure Ordered (store : Store σ) (o : Observation σ) (order : List (Vertex σ)) : Prop where
  nodup : order.Nodup
  mem_iff : ∀ v, v ∈ order ↔ v ∈ store.vertices ∧ (o.mark v.handle).isExpanded = true
  lineage : Lineage (fun a => (o.mark a).parent) order
  parent : ∀ v ∈ store.vertices, ∀ a, (o.mark v.handle).parent = .vertex a →
    ∃ p ∈ order, p.handle = a

/-- The mark `m` may take the place of the mark of `t`. -/
structure Touch (sys : System σ) (q : Query) (store : Store σ) (o : Observation σ) (t : Vertex σ)
    (m : LevelMark) : Prop where
  level : ∀ l, m.level? = some l → sys.ReachesWith l t.state
  expanded_le : ∀ l, m.progress = .expanded l → l ≤ q.level
  waiting : ∀ l, m.progress = .waiting l → q.level ≤ l ∧ l ≤ q.level + 1
  keeps : (o.mark t.handle).isExpanded = true → m.progress = (o.mark t.handle).progress
  lowers : ∀ l, (o.mark t.handle).level? = some l → ∃ l', m.level? = some l' ∧ l' ≤ l
  parent : ∀ a, m.parent = .vertex a → (o.mark t.handle).parent = .vertex a ∨
    (o.mark t.handle).isExpanded = false ∧
      ∃ p ∈ store.vertices, p.handle = a ∧ (o.mark a).isExpanded = true

/-- After the report of `x` it is what was found first, unless another's was there before. -/
def Observation.Reports (o : Observation σ) (x : Violation σ) (o' : Observation σ) : Prop :=
  o'.found = some x ∨ o'.found = o.found ∧ o.found.isSome = true

/-- Only the mark of `t` differs, and it is `m` now. -/
structure Marked (t : Vertex σ) (m : LevelMark) (o o' : Observation σ) : Prop where
  mark : ∀ a, o'.mark a = if a = t.handle then m else o.mark a
  fault : o'.fault = o.fault

theorem mark_setMark (o : Observation σ) (a b : Handle) (m : LevelMark) :
    (o.setMark a m).mark b = if b = a then m else o.mark b :=
  Handle.getD_insert o.marks a b m {}

variable {sys : System σ} {q : Query} {store store' : Store σ} {o o' : Observation σ}
  {t : Vertex σ} {m : LevelMark} {order : List (Vertex σ)} {x y : Violation σ}

theorem Observation.reports_report (hf : o'.found = o.found) (worker : Nat) (x : Violation σ) :
    o.Reports x (o'.report worker x).2 := by
  unfold Observation.Reports
  rw [← hf]
  exact o'.findings.first?_add worker x

theorem Observation.Reports.isSome (h : o.Reports x o') : o'.found.isSome = true := by
  rcases h with h | ⟨h, hs⟩
  · rw [h]
    rfl
  · rw [h, hs]

theorem Observation.Reports.eq_or (h : o.Reports x o') (hy : o'.found = some y) :
    y = x ∨ o.found = some y := by
  rcases h with h | ⟨h, -⟩
  · exact .inl (Option.some.inj (hy.symm.trans h))
  · exact .inr (h.symm.trans hy)

theorem Marked.self (h : Marked t m o o') : o'.mark t.handle = m := by
  rw [h.mark, if_pos rfl]

theorem Marked.other (h : Marked t m o o') {a : Handle} (ha : a ≠ t.handle) :
    o'.mark a = o.mark a := by
  rw [h.mark, if_neg ha]

theorem Marked.keeps (h : Marked t m o o') (hm : Touch sys q store o t m) {a : Handle}
    (ha : (o.mark a).isExpanded = true) : (o'.mark a).progress = (o.mark a).progress := by
  by_cases hat : a = t.handle
  · subst hat
    rw [h.self]
    exact hm.keeps ha
  · rw [h.other hat]

theorem Marked.isExpanded (h : Marked t m o o') (hm : Touch sys q store o t m) {a : Handle}
    (ha : (o.mark a).isExpanded = true) : (o'.mark a).isExpanded = true := by
  obtain ⟨l, hl⟩ := LevelMark.isExpanded_iff.1 ha
  exact LevelMark.isExpanded_iff.2 ⟨l, (h.keeps hm ha).trans hl⟩

theorem Marked.lowers (h : Marked t m o o') (hm : Touch sys q store o t m) {a : Handle} {l : Nat}
    (ha : (o.mark a).level? = some l) : ∃ l', (o'.mark a).level? = some l' ∧ l' ≤ l := by
  by_cases hat : a = t.handle
  · subst hat
    rw [h.self]
    exact hm.lowers l ha
  · rw [h.other hat]
    exact ⟨l, ha, Nat.le_refl l⟩

theorem Reached.touch (h : Reached sys q store o) (ht : t ∈ store.vertices)
    (hm : Touch sys q store o t m) (ho : Marked t m o o')
    (hf : ∀ x, o'.found = some x → Genuine sys q store x) :
    Reached sys q store o' where
  canonical := h.canonical
  unlimited := h.unlimited
  unmarked a := by
    by_cases ha : a = t.handle
    · exact .inr ⟨t, ht, ha.symm⟩
    · rw [ho.other ha]
      exact h.unmarked a
  level v hv l hl := by
    by_cases hvt : v.handle = t.handle
    · obtain rfl := h.canonical.eq_of_handle hv ht hvt
      rw [ho.self] at hl
      exact hm.level l hl
    · rw [ho.other hvt] at hl
      exact h.level v hv l hl
  expanded_le v hv l hl := by
    by_cases hvt : v.handle = t.handle
    · rw [hvt, ho.self] at hl
      exact hm.expanded_le l hl
    · rw [ho.other hvt] at hl
      exact h.expanded_le v hv l hl
  waiting v hv l hl := by
    by_cases hvt : v.handle = t.handle
    · rw [hvt, ho.self] at hl
      exact hm.waiting l hl
    · rw [ho.other hvt] at hl
      exact h.waiting v hv l hl
  origin v hv := by
    refine (h.origin v hv).imp_right fun ⟨u, hu, he, hx⟩ => ?_
    exact ⟨u, hu, ho.isExpanded hm he, hx⟩
  fault := ho.fault.trans h.fault
  found := hf

theorem Reached.mark_added (h : Reached sys q store o) (ha : store.Added t store')
    (hc : store'.Canonical sys) : o.mark t.handle = {} := by
  rcases h.unmarked t.handle with hm | ⟨v, hv, hvt⟩
  · exact hm
  · exact absurd hvt (ha.handle_ne hc hv)

/-- A new vertex has no mark yet, so what the marks say stays true. -/
theorem Reached.grow (h : Reached sys q store o) (ha : store.Added t store')
    (hc : store'.Canonical sys)
    (horigin : t.state ∈ sys.initials ∨ ∃ u ∈ store.vertices,
      (o.mark u.handle).isExpanded = true ∧ ∃ x ∈ sys.successors u.state, x.1 = t.state) :
    Reached sys q store' o := by
  -- the handle of a new vertex is a new handle
  have hmark := h.mark_added ha hc
  have hsub : ∀ v ∈ store.vertices, v ∈ store'.vertices := fun v hv => ha.mem_iff.2 (.inr hv)
  refine ⟨hc, ha.limit.trans h.unlimited, fun a => ?_, fun v hv l hl => ?_, fun v hv l hl => ?_,
    fun v hv l hl => ?_, fun v hv => ?_, h.fault, fun x hx => ?_⟩
  · exact (h.unmarked a).imp_right fun ⟨v, hv, hva⟩ => ⟨v, hsub v hv, hva⟩
  · rcases ha.mem_iff.1 hv with rfl | hv
    · rw [hmark] at hl
      cases hl
    · exact h.level v hv l hl
  · rcases ha.mem_iff.1 hv with rfl | hv
    · rw [hmark] at hl
      cases hl
    · exact h.expanded_le v hv l hl
  · rcases ha.mem_iff.1 hv with rfl | hv
    · rw [hmark] at hl
      cases hl
    · exact h.waiting v hv l hl
  · have hold := ha.mem_iff.1 hv
    have hor : v.state ∈ sys.initials ∨ ∃ u ∈ store.vertices,
        (o.mark u.handle).isExpanded = true ∧ ∃ x ∈ sys.successors u.state, x.1 = v.state := by
      rcases hold with rfl | hv
      · exact horigin
      · exact h.origin v hv
    exact hor.imp_right fun ⟨u, hu, hx⟩ => ⟨u, hsub u hu, hx⟩
  · have hg := h.found x hx
    exact ⟨hsub _ hg.vertex, fun u hu => hsub u (hg.via u hu), hg.within⟩

theorem Ordered.grow (h : Ordered store o order) (ha : store.Added t store')
    (hmark : o.mark t.handle = {}) : Ordered store' o order where
  nodup := h.nodup
  mem_iff v := by
    rw [h.mem_iff, ha.mem_iff]
    constructor
    · rintro ⟨hv, he⟩
      exact ⟨.inr hv, he⟩
    · rintro ⟨rfl | hv, he⟩
      · rw [hmark] at he
        cases he
      · exact ⟨hv, he⟩
  lineage := h.lineage
  parent v hv a hp := by
    rcases ha.mem_iff.1 hv with rfl | hv
    · rw [hmark] at hp
      cases hp
    · exact h.parent v hv a hp

theorem Ordered.parent_of_touch (h : Ordered store o order) (ht : t ∈ store.vertices)
    (hm : Touch sys q store o t m) {a : Handle} (hp : m.parent = .vertex a) :
    ∃ p ∈ order, p.handle = a := by
  rcases hm.parent a hp with hold | ⟨-, p, hps, rfl, he⟩
  · exact h.parent t ht a hold
  · exact ⟨p, (h.mem_iff p).2 ⟨hps, he⟩, rfl⟩

theorem Ordered.lineage_touch (h : Ordered store o order) (hc : store.Canonical sys)
    (ht : t ∈ store.vertices) (hm : Touch sys q store o t m) (ho : Marked t m o o') :
    Lineage (fun a => (o'.mark a).parent) order := by
  refine h.lineage.congr fun v hv a hp => ?_
  obtain ⟨hvs, hve⟩ := (h.mem_iff v).1 hv
  by_cases hvt : v.handle = t.handle
  · obtain rfl := hc.eq_of_handle hvs ht hvt
    change (o'.mark v.handle).parent = _ at hp
    rw [ho.self] at hp
    -- the parent of an expanded state is not set again
    exact (hm.parent a hp).resolve_right fun hx => by rw [hve] at hx; cases hx.1
  · change (o'.mark v.handle).parent = _ at hp
    rwa [ho.other hvt] at hp

theorem Ordered.parent_of_marked (h : Ordered store o order) (ht : t ∈ store.vertices)
    (hm : Touch sys q store o t m) (ho : Marked t m o o') {v : Vertex σ} (hv : v ∈ store.vertices)
    {a : Handle} (hp : (o'.mark v.handle).parent = .vertex a) : ∃ p ∈ order, p.handle = a := by
  by_cases hvt : v.handle = t.handle
  · rw [hvt, ho.self] at hp
    exact h.parent_of_touch ht hm hp
  · rw [ho.other hvt] at hp
    exact h.parent v hv a hp

theorem Ordered.touch (h : Ordered store o order) (hc : store.Canonical sys)
    (ht : t ∈ store.vertices) (hm : Touch sys q store o t m) (ho : Marked t m o o')
    (he : m.isExpanded = (o.mark t.handle).isExpanded) : Ordered store o' order where
  nodup := h.nodup
  mem_iff v := by
    rw [h.mem_iff]
    by_cases hvt : v.handle = t.handle
    · rw [hvt, ho.self, he]
    · rw [ho.other hvt]
  lineage := h.lineage_touch hc ht hm ho
  parent v hv a hp := h.parent_of_marked ht hm ho hv hp

/-- A state that is expanded now is the newest one. -/
theorem Ordered.expand (h : Ordered store o order) (hc : store.Canonical sys)
    (ht : t ∈ store.vertices) (hm : Touch sys q store o t m) (ho : Marked t m o o')
    (hold : (o.mark t.handle).isExpanded = false) (hnew : m.isExpanded = true) :
    Ordered store o' (t :: order) where
  nodup := by
    refine List.nodup_cons.2 ⟨fun hx => ?_, h.nodup⟩
    rw [((h.mem_iff t).1 hx).2] at hold
    cases hold
  mem_iff v := by
    rw [List.mem_cons, h.mem_iff]
    by_cases hvt : v.handle = t.handle
    · rw [hvt, ho.self]
      constructor
      · rintro (rfl | ⟨hv, -⟩)
        · exact ⟨ht, hnew⟩
        · exact ⟨hv, hnew⟩
      · rintro ⟨hv, -⟩
        exact .inl (hc.eq_of_handle hv ht hvt)
    · rw [ho.other hvt]
      constructor
      · rintro (rfl | hv)
        · exact absurd rfl hvt
        · exact hv
      · exact .inr
  lineage := by
    -- its parent was expanded earlier, so it is in the order already
    refine .cons (h.lineage_touch hc ht hm ho) fun a hp => ?_
    exact h.parent_of_marked ht hm ho ht hp
  parent v hv a hp := by
    obtain ⟨p, hp, hpa⟩ := h.parent_of_marked ht hm ho hv hp
    exact ⟨p, List.mem_cons_of_mem _ hp, hpa⟩

end Bounded

end ModelChecker
