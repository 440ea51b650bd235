import Mathlib.Data.Fintype.Pigeonhole
import ModelChecker.Proofs.Dictionary
import ModelChecker.Proofs.EliminationRun

namespace ModelChecker.Elimination

variable {edges : List (Handle × Handle)} {owner : Handle → Nat} {gone : List Handle}
  {m : State} {a : Handle}

theorem Kahn.remains (h : Kahn edges owner gone 0 m) {b : Handle} (he : (b, a) ∈ edges)
    (hb : b ∉ gone) : m.remains a = true := by
  have hpos : 0 < incoming edges gone a := List.countP_pos_iff.2 ⟨_, he, decide_eq_true ⟨rfl, hb⟩⟩
  have hdeg := (h.fits _).indegree a rfl ⟨_, he, .inr rfl⟩
  rw [part_eq (h.size a)] at hdeg
  refine Array.any_eq_true.2 ⟨owner a, h.size a, ?_⟩
  rw [Std.TreeMap.getD_eq_getD_getElem?, hdeg, Option.getD_some, bne_iff_ne]
  exact (Nat.lt_of_lt_of_le hpos (Nat.le_add_left _ _)).ne'

theorem Kahn.remains_of_cycle (h : Kahn edges owner gone 0 m)
    (ha : Relation.TransGen (fun a b => (a, b) ∈ edges) a a) : m.remains a = true := by
  obtain ⟨c, hac, hca⟩ := Relation.TransGen.tail'_iff.1 ha
  refine h.remains hca fun hgone => ?_
  exact not_transGen_of_acc (h.removed c hgone).2 (Relation.TransGen.head' hca hac)

theorem Kahn.acyclic_of_ascending (h : Kahn edges owner gone 0 m) {r : Handle → Handle → Prop}
    (hsub : ∀ b c, r b c → (b, c) ∈ edges)
    (hasc : ∀ b c, r b c → m.remains b = true → m.remains c = true → compare b c = .lt)
    (a : Handle) : ¬ Relation.TransGen r a a := by
  have hremains : ∀ b, Relation.TransGen r b b → m.remains b = true := fun b hb =>
    h.remains_of_cycle (Relation.TransGen.mono hsub b b hb)
  have hlt : ∀ b, Relation.TransGen r a b → Relation.ReflTransGen r b a → compare a b = .lt := by
    intro b hab
    induction hab with
    | single hab =>
      intro hba
      exact hasc _ _ hab (hremains _ (.head' hab hba)) (hremains _ (.tail' hba hab))
    | tail hab hbc ih =>
      intro hca
      have hcb := hca.trans hab.to_reflTransGen
      exact Std.TransCmp.lt_trans (ih (.head hbc hca))
        (hasc _ _ hbc (hremains _ (.head' hbc hcb)) (hremains _ (.tail' hcb hbc)))
  intro hc
  have hself : Ordering.lt = .eq := (hlt a hc .refl).symm.trans Std.ReflCmp.compare_self
  cases hself

theorem Kahn.remains_iff (h : Kahn edges owner gone 0 m) (hend : m.Idle)
    (ha : Touches edges a) : m.remains a = true ↔ a ∉ gone := by
  have hcount : m.remains a = true ↔ degree edges owner gone 0 m a ≠ 0 := by
    have hdeg := (h.fits _).indegree a rfl ha
    unfold State.remains
    rw [Array.any_eq_true]
    constructor
    · rintro ⟨i, hi, hne⟩
      rw [← part_eq hi, Std.TreeMap.getD_eq_getD_getElem?, bne_iff_ne] at hne
      -- only the part that owns the vertex has a count for it
      have hown : owner a = i := by
        apply (h.fits i).kept
        by_contra hnone
        rw [Option.not_isSome_iff_eq_none.1 hnone] at hne
        exact hne rfl
      rwa [← hown, hdeg] at hne
    · intro hne
      refine ⟨owner a, h.size a, ?_⟩
      rw [← part_eq (h.size a), Std.TreeMap.getD_eq_getD_getElem?, hdeg, bne_iff_ne]
      exact hne
  rw [hcount]
  constructor
  · intro hne hmem
    exact hne (h.removed a hmem).1
  · intro hmem hzero
    rcases (h.fits _).caught a rfl ha hzero with hgone | hready
    · exact hmem hgone
    · rw [(hend _).2.1] at hready
      cases hready

theorem Kahn.exists_source (h : Kahn edges owner gone 0 m) (hend : m.Idle)
    (ha : Touches edges a) (hmem : a ∉ gone) : ∃ b, (b, a) ∈ edges ∧ b ∉ gone := by
  have hdegree : degree edges owner gone 0 m a ≠ 0 := by
    intro hzero
    rcases (h.fits _).caught a rfl ha hzero with hgone | hready
    · exact hmem hgone
    · rw [(hend _).2.1] at hready
      cases hready
  have hpos : 0 < incoming edges gone a := by
    unfold degree at hdegree
    rw [(hend _).1, List.count_nil, Multiset.count_zero] at hdegree
    omega
  obtain ⟨⟨b, c⟩, he, hb⟩ := List.countP_pos_iff.1 hpos
  obtain ⟨rfl, hnot⟩ := of_decide_eq_true hb
  exact ⟨b, he, hnot⟩

/-- In a finite set in which every element has a predecessor, each lies on a cycle or behind one:
going back again and again comes to an element twice. -/
theorem exists_cycle_above {α : Type} {r : α → α → Prop} {s : Finset α}
    (h : ∀ a ∈ s, ∃ b ∈ s, r b a) {a : α} (ha : a ∈ s) :
    ∃ b, Relation.TransGen r b b ∧ Relation.ReflTransGen r b a := by
  choose f hf hr using h
  let back : {a // a ∈ s} → {a // a ∈ s} := fun x => ⟨f x.1 x.2, hf x.1 x.2⟩
  have hback : ∀ x : {a // a ∈ s}, ∀ n k,
      Relation.ReflTransGen r (back^[n + k] x).1 (back^[k] x).1 := by
    intro x n k
    induction n with
    | zero => rw [Nat.zero_add]
    | succ n ih =>
      rw [Nat.add_right_comm, Function.iterate_succ_apply']
      exact .head (hr _ _) ih
  obtain ⟨i, j, hne, heq⟩ :=
    Finite.exists_ne_map_eq_of_infinite fun n : Nat => back^[n] ⟨a, ha⟩
  wlog hlt : i < j generalizing i j
  · exact this j i hne.symm heq.symm (by omega)
  refine ⟨(back^[i] ⟨a, ha⟩).1, ?_, hback ⟨a, ha⟩ i 0⟩
  have hstep : r (back^[j - 1 + 1] ⟨a, ha⟩).1 (back^[j - 1] ⟨a, ha⟩).1 := by
    rw [Function.iterate_succ_apply']
    exact hr _ _
  have hrest := hback ⟨a, ha⟩ (j - 1 - i) i
  rw [show j - 1 + 1 = j by omega, ← heq] at hstep
  rw [show j - 1 - i + i = j - 1 by omega] at hrest
  exact .head' hstep hrest

theorem Kahn.exists_cycle (h : Kahn edges owner gone 0 m) (hend : m.Idle)
    (ha : Touches edges a) (hremains : m.remains a = true) :
    ∃ b, Relation.TransGen (fun a b => (a, b) ∈ edges) b b ∧
      Relation.ReflTransGen (fun a b => (a, b) ∈ edges) b a := by
  have hpred : ∀ b ∈ (touched edges).filter (· ∉ gone),
      ∃ c ∈ (touched edges).filter (· ∉ gone), (c, b) ∈ edges := by
    intro b hb
    obtain ⟨hb, hgone⟩ := Finset.mem_filter.1 hb
    obtain ⟨c, he, hc⟩ := h.exists_source hend (mem_touched.1 hb) hgone
    exact ⟨c, Finset.mem_filter.2 ⟨mem_touched.2 ⟨_, he, .inl rfl⟩, hc⟩, he⟩
  apply exists_cycle_above hpred
  exact Finset.mem_filter.2 ⟨mem_touched.2 ha, (h.remains_iff hend ha).1 hremains⟩

variable {σ : Type} {links : List (Vertex σ × Vertex σ)} {store : Store σ}

theorem mem_of_mem_firstOccurrences {vs : List (Vertex σ)} {seen : List Handle} {v : Vertex σ}
    (h : v ∈ firstOccurrences vs seen) : v ∈ vs := by
  induction vs generalizing seen with
  | nil => exact h
  | cons x rest ih =>
    rw [firstOccurrences] at h
    split at h
    · exact List.mem_cons_of_mem _ (ih h)
    · rcases List.mem_cons.1 h with rfl | h
      · exact List.mem_cons_self
      · exact List.mem_cons_of_mem _ (ih h)

theorem exists_mem_firstOccurrences {vs : List (Vertex σ)} {seen : List Handle} {v : Vertex σ}
    (hv : v ∈ vs) (hseen : v.handle ∉ seen) : ∃ w ∈ firstOccurrences vs seen, w.handle = v.handle := by
  induction vs generalizing seen with
  | nil => cases hv
  | cons x rest ih =>
    rw [firstOccurrences]
    split
    · rename_i hx
      apply ih _ hseen
      rcases List.mem_cons.1 hv with rfl | hv
      · exact absurd hx hseen
      · exact hv
    · by_cases hxv : x.handle = v.handle
      · exact ⟨x, List.mem_cons_self, hxv⟩
      · have hrest : v ∈ rest := by
          rcases List.mem_cons.1 hv with rfl | hv
          · exact absurd rfl hxv
          · exact hv
        obtain ⟨w, hw, heq⟩ := ih hrest (List.not_mem_cons_of_ne_of_not_mem (Ne.symm hxv) hseen)
        exact ⟨w, List.mem_cons_of_mem _ hw, heq⟩

theorem compare_of_pick {u v : Vertex σ} (hp : ∀ w ∈ pick m links, w.handle ≠ u.handle)
    (he : (u, v) ∈ links) (hu : m.remains u.handle = true) (hv : m.remains v.handle = true) :
    compare u.handle v.handle = .lt := by
  have hno : ¬ v.handle ≤ u.handle := by
    intro hle
    have hmem : u ∈ (links.filter fun e => m.remains e.1.handle && m.remains e.2.handle &&
        decide (e.2.handle ≤ e.1.handle)).map (·.1) := by
      refine List.mem_map.2 ⟨(u, v), List.mem_filter.2 ⟨he, ?_⟩, rfl⟩
      dsimp only
      rw [hu, hv, decide_eq_true hle]
      rfl
    obtain ⟨w, hw, heq⟩ := exists_mem_firstOccurrences hmem (List.not_mem_nil (a := u.handle))
    exact hp w hw heq
  rw [← Std.OrientedCmp.gt_iff_lt]
  cases hc : compare v.handle u.handle with
  | lt => exact absurd (by change (compare v.handle u.handle).isLE = true; rw [hc]; rfl) hno
  | eq => exact absurd (by change (compare v.handle u.handle).isLE = true; rw [hc]; rfl) hno
  | gt => rfl

theorem Kahn.acyclic (h : Kahn (byHandle links) owner gone 0 m) (hp : pick m links = [])
    (a : Handle) : ¬ Relation.TransGen (fun a b => (a, b) ∈ byHandle links) a a := by
  refine h.acyclic_of_ascending (fun b c hbc => hbc) (fun b c hbc hb hc => ?_) a
  obtain ⟨⟨u, v⟩, he, heq⟩ := List.mem_map.1 hbc
  obtain ⟨rfl, rfl⟩ := Prod.mk.inj heq
  exact compare_of_pick (by rw [hp]; exact nofun) he hb hc

/-- The list goes along the relation and from its last element back to the first. -/
def IsCycle {α : Type} (r : α → α → Prop) : List α → Prop
  | [] => False
  | a :: path => List.IsChain r (a :: (path ++ [a]))

theorem transGen_of_isChain {α : Type} {r : α → α → Prop} {path : List α} {a b : α}
    (h : List.IsChain r (a :: (path ++ [b]))) : Relation.TransGen r a b := by
  induction path generalizing a with
  | nil => exact .single (List.isChain_cons_cons.1 h).1
  | cons c rest ih =>
    obtain ⟨hac, hrest⟩ := List.isChain_cons_cons.1 h
    exact .head hac (ih hrest)

theorem exists_isCycle {α : Type} {r : α → α → Prop} {a : α} (h : Relation.TransGen r a a) :
    ∃ path, IsCycle r (a :: path) := by
  have hpath : ∀ b, Relation.TransGen r b a → ∃ path, List.IsChain r (b :: (path ++ [a])) := by
    intro b hb
    induction hb using Relation.TransGen.head_induction_on with
    | single hab => exact ⟨[], List.isChain_cons_cons.2 ⟨hab, .singleton _⟩⟩
    | head hbc _ ih =>
      obtain ⟨path, hpath⟩ := ih
      exact ⟨_ :: path, List.isChain_cons_cons.2 ⟨hbc, hpath⟩⟩
  exact hpath a h

theorem isChain_and_of_forall {α : Type} {r : α → α → Prop} {p : α → Prop} {path : List α} {a b : α}
    (h : List.IsChain r (a :: (path ++ [b]))) (hp : ∀ c ∈ a :: path, p c) :
    List.IsChain (fun c d => r c d ∧ p c) (a :: (path ++ [b])) := by
  induction path generalizing a with
  | nil =>
    refine List.isChain_cons_cons.2 ⟨⟨(List.isChain_cons_cons.1 h).1, ?_⟩, .singleton _⟩
    exact hp a List.mem_cons_self
  | cons c rest ih =>
    obtain ⟨hac, hrest⟩ := List.isChain_cons_cons.1 h
    refine List.isChain_cons_cons.2 ⟨⟨hac, hp a List.mem_cons_self⟩, ih hrest ?_⟩
    intro d hd
    exact hp d (List.mem_cons_of_mem _ hd)

theorem nodup_firstOccurrences (vs : List (Vertex σ)) (seen : List Handle) :
    (firstOccurrences vs seen).Nodup ∧ ∀ v ∈ firstOccurrences vs seen, v.handle ∉ seen := by
  induction vs generalizing seen with
  | nil => exact ⟨.nil, nofun⟩
  | cons x rest ih =>
    rw [firstOccurrences]
    split
    · exact ih seen
    · rename_i hx
      obtain ⟨hnodup, hseen⟩ := ih (x.handle :: seen)
      refine ⟨List.nodup_cons.2 ⟨fun hmem => ?_, hnodup⟩, fun v hv => ?_⟩
      · exact hseen x hmem List.mem_cons_self
      · rcases List.mem_cons.1 hv with rfl | hv
        · exact hx
        · exact fun hmem => hseen v hv (List.mem_cons_of_mem _ hmem)

/-- An edge leads from the first vertex to the second. -/
def Linked (links : List (Vertex σ × Vertex σ)) (u t : Vertex σ) : Prop := (u, t) ∈ links

theorem Identified.exists_path (h : Identified links) {v : Vertex σ} (hv : v ∈ ends links)
    (hpath : Relation.ReflTransGen (fun a b => (a, b) ∈ byHandle links) a v.handle) :
    ∃ u ∈ ends links, u.handle = a ∧ Relation.ReflTransGen (Linked links) u v := by
  induction hpath using Relation.ReflTransGen.head_induction_on with
  | refl => exact ⟨v, hv, rfl, .refl⟩
  | head hab _ ih =>
    obtain ⟨w, hw, hwb, hwv⟩ := ih
    obtain ⟨⟨u, t⟩, he, heq⟩ := List.mem_map.1 hab
    obtain ⟨rfl, htb⟩ := Prod.mk.inj heq
    obtain rfl := h t (mem_ends he).2 w hw (htb.trans hwb.symm)
    exact ⟨u, (mem_ends he).1, rfl, .head he hwv⟩

/-- The vertex lies on a cycle or behind one. -/
def Behind (links : List (Vertex σ × Vertex σ)) (v : Vertex σ) : Prop :=
  ∃ cycle, IsCycle (Linked links) cycle ∧ ∃ u ∈ cycle, Relation.ReflTransGen (Linked links) u v

theorem Identified.behind (h : Identified links) {v : Vertex σ} (hv : v ∈ ends links) {b : Handle}
    (hbb : Relation.TransGen (fun a b => (a, b) ∈ byHandle links) b b)
    (hbv : Relation.ReflTransGen (fun a b => (a, b) ∈ byHandle links) b v.handle) :
    Behind links v := by
  obtain ⟨u, hu, rfl, huv⟩ := h.exists_path hv hbv
  -- the cycle of handles begins with a link out of the vertex it comes back to
  obtain ⟨c, hbc, hcb⟩ := Relation.TransGen.head'_iff.1 hbb
  obtain ⟨⟨x, y⟩, hxy, heq⟩ := List.mem_map.1 hbc
  obtain ⟨hxu, rfl⟩ := Prod.mk.inj heq
  obtain rfl := h x (mem_ends hxy).1 u hu hxu
  obtain ⟨z, hz, hzy, hzx⟩ := h.exists_path hu hcb
  obtain rfl := h z hz y (mem_ends hxy).2 hzy
  obtain ⟨path, hpath⟩ := exists_isCycle (Relation.TransGen.head' hxy hzx)
  exact ⟨x :: path, hpath, x, List.mem_cons_self, huv⟩

theorem source_of_mem_pick {v : Vertex σ} (h : v ∈ pick m links) :
    ∃ t, (v, t) ∈ links ∧ m.remains v.handle = true := by
  obtain ⟨⟨u, t⟩, he, rfl⟩ := List.mem_map.1 (mem_of_mem_firstOccurrences h)
  obtain ⟨he, hfilter⟩ := List.mem_filter.1 he
  simp only [Bool.and_eq_true, decide_eq_true_eq] at hfilter
  exact ⟨t, he, hfilter.1.1⟩

theorem Kahn.not_isCycle (h : Kahn (byHandle links) owner gone 0 m) (hs : store.Sound)
    (hlinks : ∀ e ∈ links, e.1 ∈ store.vertices ∧ e.2 ∈ store.vertices) (cycle : List (Vertex σ)) :
    ¬ IsCycle (fun u t => Linked links u t ∧ u ∉ pick m links) cycle := by
  intro hcycle
  cases cycle with
  | nil => exact hcycle
  | cons v path =>
    refine h.acyclic_of_ascending (r := fun a b => ∃ u t, Linked links u t ∧ u ∉ pick m links ∧
      u.handle = a ∧ t.handle = b) ?_ ?_ v.handle ?_
    · rintro _ _ ⟨u, t, he, -, rfl, rfl⟩
      exact List.mem_map.2 ⟨(u, t), he, rfl⟩
    · rintro _ _ ⟨u, t, he, hu, rfl, rfl⟩ hru hrt
      refine compare_of_pick (fun w hw heq => hu ?_) he hru hrt
      obtain ⟨x, hx, -⟩ := source_of_mem_pick hw
      have hwu : w = u := hs.eq_of_handle (hlinks _ hx).1 (hlinks _ he).1 heq
      exact hwu ▸ hw
    · refine (transGen_of_isChain hcycle).lift Vertex.handle ?_
      rintro u t ⟨he, hu⟩
      exact ⟨u, t, he, hu, rfl, rfl⟩

theorem Kahn.exists_mem_pick (h : Kahn (byHandle links) owner gone 0 m) (hs : store.Sound)
    (hlinks : ∀ e ∈ links, e.1 ∈ store.vertices ∧ e.2 ∈ store.vertices) {cycle : List (Vertex σ)}
    (hcycle : IsCycle (Linked links) cycle) : ∃ v ∈ cycle, v ∈ pick m links := by
  by_contra! hno
  apply h.not_isCycle hs hlinks cycle
  cases cycle with
  | nil => exact hcycle
  | cons v path => exact isChain_and_of_forall hcycle hno

theorem Kahn.exists_isCycle (h : Kahn (byHandle links) owner gone 0 m)
    (hend : m.Idle) (hs : store.Sound)
    (hlinks : ∀ e ∈ links, e.1 ∈ store.vertices ∧ e.2 ∈ store.vertices) {v : Vertex σ}
    (hv : v ∈ pick m links) : ∃ cycle, IsCycle (Linked links) cycle ∧
      ∃ u ∈ cycle, Relation.ReflTransGen (Linked links) u v := by
  obtain ⟨t, he, hremains⟩ := source_of_mem_pick hv
  have htouch : Touches (byHandle links) v.handle :=
    ⟨_, List.mem_map.2 ⟨(v, t), he, rfl⟩, .inl rfl⟩
  obtain ⟨b, hbb, hbv⟩ := h.exists_cycle hend htouch hremains
  exact (identified_of_stored hs hlinks).behind (mem_ends he).1 hbb hbv

theorem eliminate_cases (hs : store.Sound)
    (hlinks : ∀ e ∈ links, e.1 ∈ store.vertices ∧ e.2 ∈ store.vertices) (workers : Nat)
    {schedule : Schedule} (hfair : schedule.Fair (max workers 1)) :
    ∃ marked, eliminate links workers schedule = .ok marked ∧
      (∀ v ∈ marked, ∃ t, (v, t) ∈ links) ∧
      (marked = [] → ∀ a, ¬ Relation.TransGen (fun a b => (a, b) ∈ byHandle links) a a) := by
  obtain ⟨owner, gone, m, h, -, heq⟩ := (identified_of_stored hs hlinks).eliminate workers hfair
  refine ⟨_, heq, fun v hv => ?_, h.acyclic⟩
  obtain ⟨t, he, -⟩ := source_of_mem_pick hv
  exact ⟨t, he⟩

/-- Elimination of edges between stored vertices. Every cycle goes through a vertex that is picked,
so the edges between the others form none. Nothing is picked twice, nothing if there is no cycle, and
otherwise only vertices on a cycle or behind one. -/
theorem eliminate_cuts {same : σ → σ → Bool} {calls : List (UInt64 × σ)} {count : Nat}
    {limit : Option Nat} {answers : List (Except Exhausted (Vertex σ × Bool))}
    (hcount : count ≤ UInt32.size)
    (hstore : Store.replay same calls (.ofShards count limit) = (answers, store))
    (hlinks : ∀ e ∈ links, e.1 ∈ store.vertices ∧ e.2 ∈ store.vertices) (workers : Nat)
    {schedule : Schedule} (hfair : schedule.Fair (max workers 1)) :
    ∃ marked, eliminate links workers schedule = .ok marked ∧
      (∀ cycle, IsCycle (Linked links) cycle → ∃ v ∈ cycle, v ∈ marked) ∧
      (∀ cycle, ¬ IsCycle (fun u t => Linked links u t ∧ u ∉ marked ∧ t ∉ marked) cycle) ∧
      (marked = [] ↔ ∀ cycle, ¬ IsCycle (Linked links) cycle) ∧
      marked.Nodup ∧
      ∀ v ∈ marked, ∃ cycle, IsCycle (Linked links) cycle ∧
        ∃ u ∈ cycle, Relation.ReflTransGen (Linked links) u v := by
  have hs : store.Sound := by
    have hr := (Store.replayed_ofShards count limit).replay same calls
    rw [hstore] at hr
    exact hr.sound hcount
  obtain ⟨owner, gone, m, h, hend, heq⟩ := (identified_of_stored hs hlinks).eliminate workers hfair
  have hmeets : ∀ cycle, IsCycle (Linked links) cycle → ∃ v ∈ cycle, v ∈ pick m links :=
    fun cycle hcycle => h.exists_mem_pick hs hlinks hcycle
  have hbehind : ∀ v ∈ pick m links, ∃ cycle, IsCycle (Linked links) cycle ∧
      ∃ u ∈ cycle, Relation.ReflTransGen (Linked links) u v :=
    fun v hv => h.exists_isCycle hend hs hlinks hv
  refine ⟨_, heq, hmeets, fun cycle hcycle => ?_, ⟨fun hnil cycle hcycle => ?_, fun hno => ?_⟩,
    (nodup_firstOccurrences _ []).1, hbehind⟩
  · apply h.not_isCycle hs hlinks cycle
    cases cycle with
    | nil => exact hcycle
    | cons v path => exact hcycle.imp fun u t hut => ⟨hut.1, hut.2.1⟩
  · obtain ⟨v, -, hv⟩ := hmeets cycle hcycle
    rw [hnil] at hv
    cases hv
  · apply List.eq_nil_iff_forall_not_mem.2
    intro v hv
    obtain ⟨cycle, hcycle, -⟩ := hbehind v hv
    exact hno cycle hcycle

/-- Six stored numbers in two shards. -/
def ringStore : Store Nat :=
  (Store.replay (· == ·) ((List.range 6).map fun n => (n.toUInt64, n)) (.ofShards 2 none)).2

/-- A ring of three, a ring of two with one of its edges twice and a vertex behind it. -/
def ringLinks : List (Vertex Nat × Vertex Nat) :=
  [(0, 1), (1, 2), (2, 0), (3, 4), (4, 3), (4, 3), (4, 5)].filterMap fun (i, j) => do
    let u ← ringStore.vertices.find? (·.state == i)
    let v ← ringStore.vertices.find? (·.state == j)
    return (u, v)

/-- Of each ring a vertex is picked, and the one behind them is not. -/
theorem eliminate_cuts_ringLinks :
    ringLinks.length = 7 ∧
    (∀ e ∈ ringLinks, e.1 ∈ ringStore.vertices ∧ e.2 ∈ ringStore.vertices) ∧
    ∃ marked, eliminate ringLinks 3 = .ok marked ∧ marked.map (·.state) = [1, 2, 3] ∧
      ∀ cycle, IsCycle (Linked ringLinks) cycle → ∃ v ∈ cycle, v ∈ marked := by
  have hlinks : ∀ e ∈ ringLinks, e.1 ∈ ringStore.vertices ∧ e.2 ∈ ringStore.vertices := by
    intro e he
    obtain ⟨x, -, hx⟩ := List.mem_filterMap.1 he
    simp only [bind, Option.bind_eq_some_iff, pure, Option.some.injEq] at hx
    obtain ⟨u, hu, v, hv, rfl⟩ := hx
    exact ⟨List.mem_of_find?_eq_some hu, List.mem_of_find?_eq_some hv⟩
  obtain ⟨marked, heq, hmeets, -⟩ := eliminate_cuts (by decide) Prod.mk.eta.symm hlinks 3
    (Schedule.fair_inTurn _)
  refine ⟨by decide +kernel, hlinks, marked, heq, ?_, hmeets⟩
  have hstates : (eliminate ringLinks 3).map (·.map (·.state)) = .ok [1, 2, 3] := by decide +kernel
  rw [heq] at hstates
  exact Except.ok.inj hstates

end ModelChecker.Elimination
