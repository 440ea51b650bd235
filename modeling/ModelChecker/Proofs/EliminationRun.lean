import Mathlib.Algebra.Order.Group.Multiset
import Mathlib.Data.Finset.Card
import ModelChecker.Proofs.CommonCount
import ModelChecker.Proofs.Elimination

namespace ModelChecker.Elimination

/-- The successors that are still to be dealt with. -/
def Part.remaining (p : Part) : List (Handle × Nat) := p.current.getD []

def Part.owed (p : Part) : Multiset Handle := ↑(p.remaining.map (·.1))

/-- The work that a part has at hand. -/
def Part.held (p : Part) : Nat := p.inbox.length + p.ready.length + p.current.toList.length

def Part.duty (p : Part) : Duty := ⟨p.phase, p.held, p.finished⟩

def Part.load (p : Part) : Nat := p.inbox.length + p.remaining.length

/-- The moves that messages and a removal take. An edge counts twice, since it may become a
message. -/
def Part.cost (p : Part) : Nat :=
  p.inbox.length + 2 * p.remaining.length + p.current.toList.length

namespace State

def sum {M : Type} [AddCommMonoid M] (m : State) (f : Part → M) : M :=
  (m.parts.toList.map f).sum

/-- The vertices that are to lose an incoming edge from one that is being removed. -/
def underway (m : State) : Multiset Handle := m.sum Part.owed

def crew (m : State) : Crew where
  raised := false
  count := m.outstanding
  duties := m.parts.toList.map Part.duty

/-- Nothing is left to do: no message is under way, no vertex is ready, and none is being
removed. -/
def Idle (m : State) : Prop :=
  ∀ i, (m.part i).inbox = [] ∧ (m.part i).ready = [] ∧ (m.part i).current = none

end State

def Move.part : Move → Nat
  | .remove i _ => i
  | .pass i => i
  | .deliver i _ => i

def Move.isPass : Move → Bool
  | .pass _ => true
  | _ => false

/-- Whether there is what a move names. -/
def State.finds (m : State) : Move → Bool
  | .remove i position => (m.part i).current.isNone && (m.part i).ready[position]?.isSome
  | .pass i => (m.part i).current.isSome
  | .deliver i position => (m.part i).inbox[position]?.isSome

variable {edges : List (Handle × Handle)} {owner : Handle → Nat} {gone : List Handle}
  {m m' : State} {i : Nat} {p : Part} {a t x : Handle}

theorem part_eq (hi : i < m.parts.size) : m.part i = m.parts[i] := by
  unfold State.part
  rw [Array.getElem?_eq_getElem hi]
  rfl

theorem getElem?_parts (hi : i < m.parts.size) : m.parts.toList[i]? = some (m.part i) := by
  rw [Array.getElem?_toList, Array.getElem?_eq_getElem hi, part_eq hi]

theorem lt_size_of_ne (h : m.part i ≠ {}) : i < m.parts.size := by
  by_contra hi
  apply h
  unfold State.part
  rw [Array.getElem?_eq_none (Nat.le_of_not_lt hi)]
  rfl

theorem getElem?_duties (hi : i < m.parts.size) : m.crew.duties[i]? = some (m.part i).duty := by
  rw [State.crew, List.getElem?_map, getElem?_parts hi]
  rfl

theorem Revised.toList (hr : Revised m i p m') : m'.parts.toList = m.parts.toList.set i p := by
  refine List.ext_getElem (by simp [hr.size]) fun j h1 h2 => ?_
  have hj' : j < m'.parts.size := h1
  have hj : j < m.parts.size := hr.size ▸ hj'
  have hpart := hr.part j
  rw [part_eq hj', part_eq hj] at hpart
  rw [List.getElem_set]
  simpa only [Array.getElem_toList, eq_comm (a := i)] using hpart

theorem Revised.crew (hr : Revised m i p m') :
    m'.crew = ⟨false, m'.outstanding, m.crew.duties.set i p.duty⟩ := by
  rw [State.crew, hr.toList, List.map_set]
  rfl

section revised
variable (hr : Revised m i p m') (hi : i < m.parts.size)
include hr hi

theorem Revised.sum {M : Type} [AddCommMonoid M] (f : Part → M) :
    ∃ r, m.sum f = f (m.part i) + r ∧ m'.sum f = f p + r := by
  obtain ⟨r, h1, h2⟩ := exists_sum_set f (getElem?_parts hi)
  refine ⟨r, h1, ?_⟩
  rw [State.sum, hr.toList]
  exact h2 p

theorem Revised.sum_eq {M : Type} [AddCommMonoid M] {f : Part → M} (hf : f p = f (m.part i)) :
    m'.sum f = m.sum f := by
  obtain ⟨r, h1, h2⟩ := hr.sum hi f
  rw [h1, h2, hf]

theorem Revised.turned {n : Nat} (hn : m'.outstanding = m.outstanding + n)
    (hp : p.phase = (m.part i).phase)
    (hf : p.finished = (m.part i).finished ∨ (m.part i).phase = .working)
    (hdue : p.held + p.finished = (m.part i).held + (m.part i).finished + n) :
    m.crew.Turned m'.crew := by
  rw [hr.crew, hn]
  exact Crew.turned_set (getElem?_duties hi) hp hf hdue

end revised

def touched (edges : List (Handle × Handle)) : Finset Handle :=
  (edges.flatMap fun e => [e.1, e.2]).toFinset

theorem mem_touched : a ∈ touched edges ↔ Touches edges a := by
  unfold touched Touches
  simp only [List.mem_toFinset, List.mem_flatMap, List.mem_cons, List.not_mem_nil, or_false,
    eq_comm (a := a)]

/-- The vertices that are not removed, and the edges out of them. -/
def unremoved (edges : List (Handle × Handle)) (gone : List Handle) : Nat :=
  ((touched edges).filter (· ∉ gone)).card + edges.countP (·.1 ∉ gone)

theorem length_targets (edges : List (Handle × Handle)) (hx : x ∉ gone) :
    edges.countP (·.1 ∉ x :: gone) + (targets edges x).length = edges.countP (·.1 ∉ gone) := by
  unfold targets
  induction edges with
  | nil => rfl
  | cons e rest ih =>
    rw [List.countP_cons, List.countP_cons, List.filter_cons]
    by_cases he : e.1 = x
    · subst he
      simp only [decide_true, if_true, List.map_cons, List.length_cons, List.mem_cons_self,
        not_true_eq_false, decide_false, hx, not_false_eq_true, Bool.false_eq_true, if_false]
      omega
    · simp only [List.mem_cons, he, false_or, decide_false, Bool.false_eq_true, if_false] at ih ⊢
      omega

theorem unremoved_cons (hx : x ∉ gone) (ht : Touches edges x) :
    unremoved edges (x :: gone) + (targets edges x).length + 1 = unremoved edges gone := by
  have hmem : x ∈ (touched edges).filter (· ∉ gone) := Finset.mem_filter.2 ⟨mem_touched.2 ht, hx⟩
  have hfilter : (touched edges).filter (· ∉ x :: gone) =
      ((touched edges).filter (· ∉ gone)).erase x := by
    ext a
    simp only [Finset.mem_filter, Finset.mem_erase, List.mem_cons, not_or]
    exact and_left_comm
  have hcard := Finset.card_erase_add_one hmem
  have hcount := length_targets edges hx
  unfold unremoved
  rw [hfilter]
  omega

theorem unremoved_nil (edges : List (Handle × Handle)) : unremoved edges [] ≤ 3 * edges.length := by
  have hcard : (touched edges).card ≤ 2 * edges.length := by
    refine (List.toFinset_card_le _).trans ?_
    simp [List.length_flatMap, Nat.mul_comm]
  have hfilter := Finset.card_filter_le (touched edges) (· ∉ ([] : List Handle))
  have hcount : edges.countP (·.1 ∉ ([] : List Handle)) ≤ edges.length := List.countP_le_length
  unfold unremoved
  omega

/-- What is left to do, where a vertex or an edge that is not removed counts `k`. -/
def left (k : Nat) (f : Part → Nat) (edges : List (Handle × Handle)) (gone : List Handle)
    (m : State) : Nat :=
  k * unremoved edges gone + m.sum f

/-- What holds between the moves. -/
structure Running (edges : List (Handle × Handle)) (owner : Handle → Nat) (gone : List Handle)
    (m : State) : Prop extends Kahn edges owner gone m.underway m where
  addressed : ∀ i, ∀ y ∈ (m.part i).remaining, y.2 = owner y.1

/-- A move that finds something to do. It uses up `quota` of the removals and deliveries. -/
structure Advances (edges : List (Handle × Handle)) (owner : Handle → Nat) (quota i : Nat)
    (gone gone' : List Handle) (m m' : State) : Prop where
  running : Running edges owner gone' m'
  load : left 1 Part.load edges gone' m' + quota ≤ left 1 Part.load edges gone m
  cost : left 2 Part.cost edges gone' m' < left 2 Part.cost edges gone m
  turned : (m.part i).phase = .working → m.crew.Turned m'.crew

theorem Revised.addressed (hr : Revised m i p m')
    (h : ∀ j, ∀ y ∈ (m.part j).remaining, y.2 = owner y.1)
    (hp : ∀ y ∈ p.remaining, y.2 = owner y.1) (j : Nat) :
    ∀ y ∈ (m'.part j).remaining, y.2 = owner y.1 := by
  rw [hr.part]
  split
  · exact hp
  · exact h j

/-- A part begins to remove a vertex. -/
theorem Running.remove (h : Running edges owner gone m) {position : Nat}
    (hc : (m.part i).current = none) (hx : (m.part i).ready[position]? = some x) :
    Advances edges owner 1 i gone (x :: gone) m (m.apply (.remove i position)) := by
  obtain ⟨howner, htouch, hgone, -⟩ := (h.fits i).ready x (List.mem_of_getElem? hx)
  have hi : i < m.parts.size := howner ▸ h.size x
  have hr : Revised m i
      { m.part i with
        ready := (m.part i).ready.eraseIdx position
        current := some ((m.part i).outgoing.getD x []) } (m.apply (.remove i position)) := by
    have hm : m.apply (.remove i position) = m.modifyPart i fun p =>
        { p with ready := p.ready.eraseIdx position, current := some (p.outgoing.getD x []) } := by
      simp only [State.apply, hc, hx]
    rw [hm]
    exact revised_modifyPart m m.outstanding hi fun p =>
      { p with ready := p.ready.eraseIdx position, current := some (p.outgoing.getD x []) }
  have hout : (m.apply (.remove i position)).outstanding = m.outstanding + 0 := by
    simp only [State.apply, hc, hx]
    rfl
  have hnone : (m.part i).remaining = [] := by rw [Part.remaining, hc]; rfl
  have hall := (h.fits i).outgoing x howner
  have hlen : ((m.part i).outgoing.getD x []).length = (targets edges x).length := by
    rw [hall, targets, List.length_map, List.length_map]
  obtain ⟨hlt, -⟩ := List.getElem?_eq_some_iff.1 hx
  have herase := List.length_eraseIdx_add_one hlt
  generalize m.apply (.remove i position) = m' at hr hout ⊢
  have hunder : m'.underway = ↑(targets edges x) + m.underway := by
    obtain ⟨r, h1, h2⟩ := hr.sum hi Part.owed
    have hmap : ((m.part i).outgoing.getD x []).map (·.1) = targets edges x := by
      rw [hall, List.map_map]
      rfl
    rw [State.underway, State.underway, h1, h2, Part.owed, Part.owed, hnone]
    simp only [Part.remaining, Option.getD_some, hmap, List.map_nil, Multiset.coe_nil, zero_add]
  have hunremoved := unremoved_cons hgone htouch
  refine ⟨⟨hunder ▸ h.toKahn.remove hx hr, hr.addressed h.addressed fun y hy => ?_⟩, ?_, ?_,
    fun _ => hr.turned hi hout rfl (.inl rfl) ?_⟩
  · simp only [Part.remaining, Option.getD_some, hall] at hy
    obtain ⟨e, -, rfl⟩ := List.mem_map.1 hy
    rfl
  · obtain ⟨r, h1, h2⟩ := hr.sum hi Part.load
    simp only [left, h1, h2, Part.load, hnone]
    simp only [Part.remaining, Option.getD_some, List.length_nil]
    omega
  · obtain ⟨r, h1, h2⟩ := hr.sum hi Part.cost
    simp only [left, h1, h2, Part.cost, hnone, hc]
    simp only [Part.remaining, Option.getD_some, Option.toList, List.length_nil,
      List.length_singleton]
    omega
  · simp only [Part.held, hc, Option.toList, List.length_nil, List.length_singleton]
    omega

/-- A part has dealt with all successors of the vertex that it is removing. -/
theorem Running.finish (h : Running edges owner gone m) (hc : (m.part i).current = some []) :
    Advances edges owner 0 i gone gone m (m.apply (.pass i)) := by
  have hi : i < m.parts.size := lt_size_of_ne fun hx => by rw [hx] at hc; cases hc
  have hm : m.apply (.pass i) =
      m.modifyPart i fun p => { p with current := none, finished := p.finished + 1 } := by
    simp only [State.apply, hc]
  have hr : Revised m i
      { m.part i with current := none, finished := (m.part i).finished + 1 }
      (m.apply (.pass i)) := by
    rw [hm]
    exact revised_modifyPart m m.outstanding hi fun p =>
      { p with current := none, finished := p.finished + 1 }
  have hout : (m.apply (.pass i)).outstanding = m.outstanding + 0 := by
    rw [hm]
    rfl
  have hrem : (m.part i).remaining = [] := by rw [Part.remaining, hc]; rfl
  generalize m.apply (.pass i) = m' at hr hout ⊢
  have hunder : m'.underway = m.underway := by
    refine hr.sum_eq hi (f := Part.owed) ?_
    rw [Part.owed, Part.owed, hrem]
    rfl
  refine ⟨⟨hunder ▸ h.toKahn.annotate hr, hr.addressed h.addressed nofun⟩, ?_, ?_,
    fun hp => hr.turned hi hout rfl (.inr hp) ?_⟩
  · have hload : m'.sum Part.load = m.sum Part.load := by
      refine hr.sum_eq hi ?_
      rw [Part.load, Part.load, hrem]
      rfl
    rw [left, left, hload, Nat.add_zero]
  · obtain ⟨r, h1, h2⟩ := hr.sum hi Part.cost
    simp only [left, h1, h2, Part.cost, hrem, hc]
    simp only [Part.remaining, Option.getD_none, Option.toList, List.length_nil,
      List.length_singleton]
    omega
  · simp only [Part.held, hc, Option.toList, List.length_nil, List.length_singleton]
    omega

theorem Kahn.decrement_running (h : Kahn edges owner gone (t ::ₘ m.underway) m)
    (ha : ∀ i, ∀ y ∈ (m.part i).remaining, y.2 = owner y.1) :
    Running edges owner gone (m.decrement (owner t) t) ∧
      (m.decrement (owner t) t).sum Part.load = m.sum Part.load ∧
      (m.decrement (owner t) t).sum Part.cost = m.sum Part.cost ∧
      m.crew.Turned (m.decrement (owner t) t).crew := by
  obtain ⟨d, hd, hr⟩ := h.decrement_revised
  have hi := h.size t
  have hunder : (m.decrement (owner t) t).underway = m.underway := hr.sum_eq hi (f := Part.owed) rfl
  refine ⟨⟨hunder ▸ h.decrement, hr.addressed ha (ha _)⟩, hr.sum_eq hi rfl, hr.sum_eq hi rfl, ?_⟩
  have hout : (m.decrement (owner t) t).outstanding =
      m.outstanding + if d = 0 then 1 else 0 := by
    have hdeg := (h.fits _).indegree t rfl (h.due t (Multiset.mem_cons_self t _))
    rw [hd] at hdeg
    unfold State.decrement
    rw [hdeg]
    change (if d = 0 then m.outstanding + 1 else m.outstanding) = _
    split <;> rfl
  refine hr.turned hi hout rfl (.inl rfl) ?_
  simp only [Part.held]
  split
  · rw [List.length_cons]
    omega
  · rfl

theorem Kahn.send_running (h : Kahn edges owner gone (t ::ₘ m.underway) m)
    (ha : ∀ i, ∀ y ∈ (m.part i).remaining, y.2 = owner y.1) :
    Running edges owner gone (m.send (owner t) t) ∧
      (m.send (owner t) t).sum Part.load = m.sum Part.load + 1 ∧
      (m.send (owner t) t).sum Part.cost = m.sum Part.cost + 1 ∧
      m.crew.Turned (m.send (owner t) t).crew := by
  have hi := h.size t
  have hr := send_revised hi t
  have hunder : (m.send (owner t) t).underway = m.underway := hr.sum_eq hi (f := Part.owed) rfl
  refine ⟨⟨hunder ▸ h.send, hr.addressed ha (ha _)⟩, ?_, ?_,
    hr.turned (n := 1) hi rfl rfl (.inl rfl) ?_⟩
  · obtain ⟨r, h1, h2⟩ := hr.sum hi Part.load
    simp only [h1, h2, Part.load, List.length_append, List.length_singleton, Part.remaining]
    omega
  · obtain ⟨r, h1, h2⟩ := hr.sum hi Part.cost
    simp only [h1, h2, Part.cost, List.length_append, List.length_singleton, Part.remaining]
    omega
  · simp only [Part.held, List.length_append, List.length_singleton]
    omega

/-- A part deals with a successor of the vertex that it is removing. -/
theorem Running.pass (h : Running edges owner gone m) {o : Nat} {rest : List (Handle × Nat)}
    (hc : (m.part i).current = some ((t, o) :: rest)) :
    Advances edges owner 0 i gone gone m (m.apply (.pass i)) := by
  have hi : i < m.parts.size := lt_size_of_ne fun hx => by rw [hx] at hc; cases hc
  have hrem : (m.part i).remaining = (t, o) :: rest := by rw [Part.remaining, hc]; rfl
  have ho : o = owner t := h.addressed i (t, o) (hrem ▸ List.mem_cons_self)
  have hr : Revised m i { m.part i with current := some rest }
      (m.modifyPart i fun p => { p with current := some rest }) :=
    revised_modifyPart m m.outstanding hi fun p => { p with current := some rest }
  have hm : m.apply (.pass i) =
      if o = i then (m.modifyPart i fun p => { p with current := some rest }).decrement i t
      else (m.modifyPart i fun p => { p with current := some rest }).send o t := by
    simp only [State.apply, hc]
  have hout : (m.modifyPart i fun p => { p with current := some rest }).outstanding =
    m.outstanding + 0 := rfl
  rw [hm]
  generalize (m.modifyPart i fun p => { p with current := some rest }) = m₁ at hr hout ⊢
  have hunder : m.underway = t ::ₘ m₁.underway := by
    obtain ⟨r, h1, h2⟩ := hr.sum hi Part.owed
    rw [State.underway, State.underway, h1, h2, Part.owed, hrem, List.map_cons,
      ← Multiset.cons_coe, Multiset.cons_add]
    rfl
  have hk : Kahn edges owner gone (t ::ₘ m₁.underway) m₁ := hunder ▸ h.toKahn.annotate hr
  have ha := hr.addressed h.addressed fun y hy => h.addressed i y
    (hrem ▸ List.mem_cons_of_mem _ hy)
  have hturned : m.crew.Turned m₁.crew := by
    refine hr.turned hi hout rfl (.inl rfl) ?_
    simp only [Part.held, hc, Option.toList, List.length_singleton, Nat.add_zero]
  have hload : m.sum Part.load = m₁.sum Part.load + 1 := by
    obtain ⟨r, h1, h2⟩ := hr.sum hi Part.load
    simp only [h1, h2, Part.load, hrem, List.length_cons]
    simp only [Part.remaining, Option.getD_some]
    omega
  have hcost : m.sum Part.cost = m₁.sum Part.cost + 2 := by
    obtain ⟨r, h1, h2⟩ := hr.sum hi Part.cost
    simp only [h1, h2, Part.cost, hrem, hc, List.length_cons]
    simp only [Part.remaining, Option.getD_some, Option.toList, List.length_singleton]
    omega
  split
  · rename_i hoi
    obtain rfl : owner t = i := ho.symm.trans hoi
    obtain ⟨hrun, hload', hcost', hturned'⟩ := hk.decrement_running ha
    exact ⟨hrun, by rw [left, left]; omega, by rw [left, left]; omega,
      fun _ => hturned.trans hturned'⟩
  · subst ho
    obtain ⟨hrun, hload', hcost', hturned'⟩ := hk.send_running ha
    exact ⟨hrun, by rw [left, left]; omega, by rw [left, left]; omega,
      fun _ => hturned.trans hturned'⟩

theorem Running.deliver (h : Running edges owner gone m) {position : Nat}
    (ht : (m.part i).inbox[position]? = some t) :
    Advances edges owner 1 i gone gone m (m.apply (.deliver i position)) := by
  obtain ⟨rfl, -⟩ := (h.fits i).inbox t (List.mem_of_getElem? ht)
  have hi := h.size t
  have hr := revised_modifyPart m m.outstanding hi fun p =>
    { p with inbox := p.inbox.eraseIdx position, finished := p.finished + 1 }
  have hm : m.apply (.deliver (owner t) position) = (m.modifyPart (owner t) fun p =>
      { p with inbox := p.inbox.eraseIdx position, finished := p.finished + 1 }).decrement
        (owner t) t := by
    simp only [State.apply, ht]
  have hout : (m.modifyPart (owner t) fun p =>
      { p with inbox := p.inbox.eraseIdx position, finished := p.finished + 1 }).outstanding =
    m.outstanding + 0 := rfl
  obtain ⟨hlt, -⟩ := List.getElem?_eq_some_iff.1 ht
  have herase := List.length_eraseIdx_add_one hlt
  rw [hm]
  generalize (m.modifyPart (owner t) fun p =>
    { p with inbox := p.inbox.eraseIdx position, finished := p.finished + 1 }) = m₁ at hr hout ⊢
  have hunder : m₁.underway = m.underway := hr.sum_eq hi (f := Part.owed) rfl
  have hk : Kahn edges owner gone (t ::ₘ m₁.underway) m₁ := hunder ▸ h.toKahn.receive ht hr
  obtain ⟨hrun, hload', hcost', hturned⟩ := hk.decrement_running
    (hr.addressed h.addressed (h.addressed _))
  refine ⟨hrun, ?_, ?_, fun hp => (hr.turned hi hout rfl (.inr hp) ?_).trans hturned⟩
  · obtain ⟨r, h1, h2⟩ := hr.sum hi Part.load
    simp only [left, hload', h1, h2, Part.load, Part.remaining]
    omega
  · obtain ⟨r, h1, h2⟩ := hr.sum hi Part.cost
    simp only [left, hcost', h1, h2, Part.cost, Part.remaining]
    omega
  · simp only [Part.held]
    omega

theorem apply_of_not_finds {move : Move} (h : m.finds move = false) : m.apply move = m := by
  cases move with
  | remove i position =>
    simp only [State.finds, Bool.and_eq_false_iff, Option.isNone_eq_false_iff,
      Option.isSome_eq_false_iff, Option.isSome_iff_exists, Option.isNone_iff_eq_none] at h
    rcases h with ⟨ts, hc⟩ | hx
    · simp only [State.apply, hc]
    · simp only [State.apply, hx]
      cases (m.part i).current <;> rfl
  | pass i =>
    have hc : (m.part i).current = none := by simpa [State.finds] using h
    simp only [State.apply, hc]
  | deliver i position =>
    have ht : (m.part i).inbox[position]? = none := by simpa [State.finds] using h
    simp only [State.apply, ht]

theorem Running.apply (h : Running edges owner gone m) {move : Move} (hf : m.finds move = true) :
    ∃ gone', Advances edges owner (if move.isPass then 0 else 1) move.part gone gone' m
      (m.apply move) := by
  cases move with
  | remove i position =>
    rw [State.finds, Bool.and_eq_true, Option.isNone_iff_eq_none, Option.isSome_iff_exists] at hf
    obtain ⟨hc, x, hx⟩ := hf
    exact ⟨x :: gone, h.remove hc hx⟩
  | pass i =>
    obtain ⟨ts, hc⟩ := Option.isSome_iff_exists.1 hf
    cases ts with
    | nil => exact ⟨gone, h.finish hc⟩
    | cons y rest => exact ⟨gone, h.pass hc⟩
  | deliver i position =>
    obtain ⟨t, ht⟩ := Option.isSome_iff_exists.1 hf
    exact ⟨gone, h.deliver ht⟩

theorem held_pos_of_finds {move : Move} (h : m.finds move = true) : 0 < (m.part move.part).held := by
  unfold Part.held
  cases move with
  | remove i position =>
    have hx : (m.part i).ready[position]?.isSome := (Bool.and_eq_true_iff.1 h).2
    have hlt : position < (m.part i).ready.length := by simpa using hx
    change 0 < (m.part i).inbox.length + (m.part i).ready.length + _
    omega
  | pass i =>
    obtain ⟨ts, hc⟩ := Option.isSome_iff_exists.1 h
    change 0 < (m.part i).inbox.length + (m.part i).ready.length + (m.part i).current.toList.length
    simp only [hc, Option.toList, List.length_singleton]
    omega
  | deliver i position =>
    have hlt : position < (m.part i).inbox.length := by simpa [State.finds] using h
    change 0 < (m.part i).inbox.length + (m.part i).ready.length + _
    omega

theorem next_eq_some {move : Move} (h : (m.part i).next i = some move) :
    move.part = i ∧ m.finds move = true := by
  unfold Part.next at h
  split at h
  · rename_i hc
    cases h
    exact ⟨rfl, hc⟩
  · rename_i hc
    split at h
    · rename_i hinbox
      cases h
      refine ⟨rfl, ?_⟩
      cases hx : (m.part i).inbox with
      | nil => simp [hx] at hinbox
      | cons t rest => simp [State.finds, hx]
    · split at h
      · rename_i hready
        cases h
        refine ⟨rfl, ?_⟩
        cases hx : (m.part i).ready with
        | nil => simp [hx] at hready
        | cons x rest => simpa [State.finds, hx] using hc
      · cases h

theorem next_eq_none (h : p.next i = none) : p.inbox = [] ∧ p.ready = [] ∧ p.current = none := by
  unfold Part.next at h
  split at h
  · cases h
  · rename_i hc
    split at h
    · cases h
    · rename_i hinbox
      split at h
      · cases h
      · rename_i hready
        exact ⟨by simpa using hinbox, by simpa using hready, by simpa using hc⟩

theorem held_eq_zero : p.held = 0 ↔ p.inbox = [] ∧ p.ready = [] ∧ p.current = none := by
  unfold Part.held
  constructor
  · intro h
    refine ⟨List.eq_nil_of_length_eq_zero (by omega), List.eq_nil_of_length_eq_zero (by omega), ?_⟩
    cases hc : p.current with
    | none => rfl
    | some ts => rw [hc] at h; simp at h
  · rintro ⟨hinbox, hready, hc⟩
    simp only [hinbox, hready, hc, List.length_nil, Option.toList]

theorem Running.annotate (h : Running edges owner gone m) (hi : i < m.parts.size) {finished : Nat}
    {phase : Phase} (hr : Revised m i { m.part i with finished, phase } m') :
    Running edges owner gone m' ∧
      left 2 Part.cost edges gone m' = left 2 Part.cost edges gone m := by
  have hunder : m'.underway = m.underway := hr.sum_eq hi (f := Part.owed) rfl
  have hcost : m'.sum Part.cost = m.sum Part.cost := hr.sum_eq hi rfl
  refine ⟨⟨hunder ▸ h.toKahn.annotate hr, hr.addressed h.addressed (h.addressed i)⟩, ?_⟩
  rw [left, left, hcost]

/-- What holds along a run of the workers, with `p` moves to come. -/
def Bounded (edges : List (Handle × Handle)) (owner : Handle → Nat) (p : Nat) (m : State) : Prop :=
  ∃ gone, Running edges owner gone m ∧ p = left 2 Part.cost edges gone m

/-- A step of a worker is a move, or the worker goes on to its next phase. -/
theorem step_cases {p : Nat} (h : Bounded edges owner p m) (ht : m.crew.Tidy) (i : Nat) :
    ∃ p', Bounded edges owner p' (step i m) ∧ Crew.Step i p p' m.crew (step i m).crew := by
  obtain ⟨gone, hrun, rfl⟩ := h
  by_cases hi : i < m.parts.size
  case neg =>
    have hget : m.parts[i]? = none := Array.getElem?_eq_none (Nat.not_lt.1 hi)
    have hs : step i m = m := by simp only [step, hget]
    rw [hs]
    refine ⟨_, ⟨gone, hrun, rfl⟩, .pause (Crew.quiet_refl fun d hd => ?_) ht rfl⟩
    simp [State.crew, hget] at hd
  have hget : m.parts[i]? = some (m.part i) := by
    rw [← Array.getElem?_toList, getElem?_parts hi]
  have hduty := getElem?_duties hi
  -- a step that only takes the worker on to its next phase
  have hpause : ∀ (n : Nat) (f : Part → Part), (∃ finished phase,
      f (m.part i) = { m.part i with finished, phase }) →
      (∀ c' : Crew, c' = ⟨false, n, m.crew.duties.set i (f (m.part i)).duty⟩ →
        Crew.Quiet [i] m.crew c' ∧ c'.Tidy) →
      step i m = State.modifyPart { m with outstanding := n } i f →
      ∃ p', Bounded edges owner p' (step i m) ∧
        Crew.Step i (left 2 Part.cost edges gone m) p' m.crew (step i m).crew := by
    rintro n f ⟨finished, phase, hf⟩ hcrew hs
    have hr := revised_modifyPart m n hi f
    rw [← hs] at hr
    have hnext := hr.crew
    rw [show (step i m).outstanding = n by rw [hs]; rfl] at hnext
    obtain ⟨hquiet, htidy⟩ := hcrew _ hnext
    rw [hf] at hr
    obtain ⟨hrun', hleft⟩ := hrun.annotate hi hr
    exact ⟨_, ⟨gone, hrun', rfl⟩, .pause hquiet htidy hleft⟩
  cases hp : (m.part i).phase with
  | working =>
    cases hn : (m.part i).next i with
    | some move =>
      have hs : step i m = m.apply move := by simp only [step, hget, hp, hn]
      obtain ⟨rfl, hfinds⟩ := next_eq_some hn
      obtain ⟨gone', hadv⟩ := hrun.apply hfinds
      have hheld : 0 < m.crew.sum Duty.held :=
        (held_pos_of_finds hfinds).trans_le
          (Crew.le_sum Duty.held (List.mem_of_getElem? hduty))
      rw [hs]
      exact ⟨_, ⟨gone', hadv.running, rfl⟩, .work (hadv.turned hp) hheld hadv.cost⟩
    | none =>
      exact hpause m.outstanding (fun p => { p with phase := .settling }) ⟨_, _, rfl⟩
        (fun c' hc' => ht.rest hduty hp rfl (held_eq_zero.2 (next_eq_none hn)) hc')
        (by simp only [step, hget, hp, hn])
  | settling =>
    exact hpause (m.outstanding - (m.part i).finished)
      (fun p => { p with finished := 0, phase := .testing }) ⟨_, _, rfl⟩
      (fun c' hc' => ht.settle hduty hp hc') (by simp only [step, hget, hp])
  | testing =>
    exact hpause m.outstanding
      (fun p => { p with phase := if m.outstanding = 0 then .returned else .working }) ⟨_, _, rfl⟩
      (fun c' hc' => ht.test hduty hp hc') (by simp only [step, hget, hp])
  | returned =>
    have hs : step i m = m := by simp only [step, hget, hp]
    rw [hs]
    refine ⟨_, ⟨gone, hrun, rfl⟩, .pause (Crew.quiet_refl fun d hd => ?_) ht rfl⟩
    cases hduty.symm.trans hd
    exact hp

theorem runSchedule_bounded {p : Nat} (h : Bounded edges owner p m) (ht : m.crew.Tidy)
    (schedule : List Nat) :
    (∃ p', Bounded edges owner p' (runSchedule schedule m)) ∧
      (runSchedule schedule m).crew.Tidy := by
  obtain ⟨p', hp', htidy, -⟩ := Crew.foldl_cases (P := Bounded edges owner)
    (fun p m i hm ht => step_cases hm ht i) schedule rfl h ht
  exact ⟨⟨p', hp'⟩, htidy⟩

theorem isOver_iff : m.isOver = true ↔ ∀ p ∈ m.parts, p.phase = .returned := by
  rw [State.isOver, Array.all_eq_true_iff_forall_mem]
  exact forall₂_congr fun p _ => decide_eq_true_iff

theorem isOver_crew (m : State) : m.isOver = m.crew.isOver := by
  rw [Bool.eq_iff_iff, isOver_iff, Crew.isOver_iff]
  simp only [State.crew, List.forall_mem_map, Array.mem_toList_iff]
  rfl

theorem length_duties (m : State) : m.crew.duties.length = m.parts.size := by
  rw [State.crew, List.length_map, Array.length_toList]

theorem rounds_isOver {p : Nat} (h : Bounded edges owner p m) (ht : m.crew.Tidy)
    {schedule : Schedule} (hfair : schedule.Fair m.parts.size) {n : Nat} (hn : 3 * p + 5 ≤ n) :
    (schedule.rounds step State.isOver n m).isOver = true ∧
      (schedule.rounds step State.isOver n m).crew.Tidy ∧
      ∃ gone, Running edges owner gone (schedule.rounds step State.isOver n m) := by
  obtain ⟨hover, -, htidy, _, gone, hrun, -⟩ := Crew.rounds_isOver (P := Bounded edges owner)
    (fun p m i hm ht => step_cases hm ht i) isOver_crew schedule n
    (by rwa [length_duties]) h ht (ht.within hn)
  exact ⟨hover, htidy, gone, hrun⟩

theorem idle_iff : m.Idle ↔ ∀ p ∈ m.parts, p.held = 0 := by
  refine ⟨fun h p hp => ?_, fun h i => ?_⟩
  · obtain ⟨i, hi, rfl⟩ := Array.mem_iff_getElem.1 hp
    rw [← part_eq hi]
    exact held_eq_zero.2 (h i)
  · by_cases hi : i < m.parts.size
    · rw [part_eq hi]
      exact held_eq_zero.1 (h _ (Array.getElem_mem hi))
    · by_contra hno
      refine hi (lt_size_of_ne fun hx => hno ?_)
      rw [hx]
      exact ⟨rfl, rfl, rfl⟩

instance (m : State) : Decidable m.Idle := decidable_of_iff _ idle_iff.symm

theorem idle_of_returned (h : m.crew.Tidy) (hp : p ∈ m.parts) (hret : p.phase = .returned) :
    m.Idle := by
  have hmem : ∀ q ∈ m.parts, q.duty ∈ m.crew.duties :=
    fun q hq => List.mem_map_of_mem (Array.mem_toList_iff.2 hq)
  exact idle_iff.2 fun q hq => h.held_eq_zero rfl (hmem p hp) hret (hmem q hq)

theorem State.Idle.underway (h : m.Idle) : m.underway = 0 := by
  refine List.sum_eq_zero fun x hx => ?_
  obtain ⟨p, hp, rfl⟩ := List.mem_map.1 hx
  have hnone := (held_eq_zero.1 (idle_iff.1 h p (Array.mem_toList_iff.1 hp))).2.2
  rw [Part.owed, Part.remaining, hnone]
  rfl

variable {σ : Type} {links : List (Vertex σ × Vertex σ)}

/-- Before the first step every worker is at work, and only ready vertices are counted. -/
theorem Entered.start (h : Entered edges owner m) :
    Running edges owner [] m.prepare ∧ m.prepare.crew.Tidy ∧
      left 1 Part.load edges [] m.prepare ≤ 3 * edges.length ∧
      left 2 Part.cost edges [] m.prepare ≤ 6 * edges.length := by
  have hblank : ∀ p ∈ m.prepare.parts.toList,
      p = { outgoing := p.outgoing, indegree := p.indegree, ready := p.ready } := by
    intro p hp
    obtain ⟨i, hi, rfl⟩ := List.mem_iff_getElem.1 hp
    have hpart : m.prepare.part i = m.prepare.parts.toList[i] := part_eq (m := m.prepare) hi
    rw [← hpart, part_prepare, h.blank i]
    rfl
  have hsum : ∀ {M : Type} [AddCommMonoid M] (f : Part → M),
      (∀ outgoing indegree ready, f { outgoing, indegree, ready } = 0) → m.prepare.sum f = 0 := by
    intro M _ f hf
    refine List.sum_eq_zero fun x hx => ?_
    obtain ⟨p, hp, rfl⟩ := List.mem_map.1 hx
    rw [hblank p hp]
    exact hf _ _ _
  have hunder : m.prepare.underway = 0 := hsum Part.owed fun _ _ _ => rfl
  have hrem : ∀ i, (m.prepare.part i).remaining = [] := by
    intro i
    rw [part_prepare, h.blank]
    rfl
  have hphase : ∀ d ∈ m.prepare.crew.duties, d.phase = .working := by
    intro d hd
    obtain ⟨p, hp, rfl⟩ := List.mem_map.1 hd
    rw [hblank p hp]
    rfl
  have hleft := unremoved_nil edges
  refine ⟨⟨hunder.symm ▸ h.kahn, fun i y hy => ?_⟩, ⟨fun _ => ?_, fun d hd hp => ?_,
    fun d hd hp => ?_⟩, ?_, ?_⟩
  · rw [hrem] at hy
    cases hy
  · have hcount : m.prepare.crew.count =
        (m.prepare.parts.toList.map fun p => p.ready.length).sum := by
      rw [List.sum_eq_foldl, List.foldl_map]
      exact (Array.foldl_toList _).symm
    rw [hcount, Crew.sum, State.crew, List.map_map]
    refine congrArg List.sum (List.map_congr_left fun p hp => ?_)
    rw [hblank p hp]
    change p.ready.length = 0 + p.ready.length + 0 + 0
    omega
  · rw [hphase d hd] at hp
    cases hp
  · rw [hphase d hd] at hp
    cases hp
  · rw [left, hsum Part.load fun _ _ _ => rfl]
    omega
  · rw [left, hsum Part.cost fun _ _ _ => rfl]
    omega

/-- Elimination goes on until nothing is left to do, for every fair schedule of its workers. -/
theorem Identified.eliminate (h : Identified links) (workers : Nat) {schedule : Schedule}
    (hfair : schedule.Fair (max workers 1)) :
    ∃ owner gone m, Kahn (byHandle links) owner gone 0 m ∧ m.Idle ∧
      Elimination.eliminate links workers schedule = .ok (pick m links) := by
  obtain ⟨owner, m₀, hentered, hm, hsize, -⟩ := h.entered workers
  obtain ⟨hrun, htidy, -, hcost⟩ := hentered.start
  rw [← hm] at hrun htidy hcost
  have hsize : (State.ofEdges workers links).parts.size = max workers 1 := by
    rw [hm]
    exact (Array.size_map ..).trans hsize
  rw [show (byHandle links).length = links.length from List.length_map ..] at hcost
  obtain ⟨hover, htidy', gone, hrun'⟩ := rounds_isOver ⟨[], hrun, rfl⟩ htidy
    (n := enough links.length) (hsize ▸ hfair) (by rw [enough]; omega)
  have hidle := idle_iff.2 fun p hp =>
    idle_iff.1 (idle_of_returned htidy' hp (isOver_iff.1 hover p hp)) p hp
  have hkahn := hrun'.toKahn
  rw [hidle.underway] at hkahn
  refine ⟨owner, gone, _, hkahn, hidle, ?_⟩
  unfold Elimination.eliminate
  cases links with
  | nil => rfl
  | cons e rest => simp only [List.isEmpty_cons, Bool.false_eq_true, if_false, hkahn.fault, hover,
      if_true]

end ModelChecker.Elimination
