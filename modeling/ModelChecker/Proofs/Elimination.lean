import Mathlib.Data.List.Nodup
import Mathlib.Data.Multiset.AddSub
import Mathlib.Data.Multiset.Count
import Mathlib.Logic.Relation
import ModelChecker.Reduction.Elimination
import ModelChecker.Proofs.Store

namespace ModelChecker

theorem Handle.getElem?_insert {β : Type} (m : Std.TreeMap Handle β) (a b : Handle) (x : β) :
    (m.insert a x)[b]? = if a = b then some x else m[b]? := by
  rw [Std.TreeMap.getElem?_insert]
  by_cases h : a = b
  · rw [h, if_pos Std.ReflCmp.compare_self, if_pos rfl]
  · rw [if_neg fun hc => h (Std.LawfulEqCmp.eq_of_compare hc), if_neg h]

theorem Handle.getElem?_insertIfNew {β : Type} (m : Std.TreeMap Handle β) (a b : Handle) (x : β) :
    (m.insertIfNew a x)[b]? = if a = b then some (m[b]?.getD x) else m[b]? := by
  rw [Std.TreeMap.getElem?_insertIfNew]
  by_cases h : a = b
  · subst h
    rw [if_pos rfl]
    cases hm : m[a]? with
    | none =>
      have hmem : a ∉ m := fun hx => by
        rw [Std.TreeMap.getElem?_eq_some_getElem hx] at hm
        cases hm
      rw [if_pos ⟨Std.ReflCmp.compare_self, hmem⟩]
      rfl
    | some y =>
      have hmem : a ∈ m := Std.TreeMap.mem_iff_isSome_getElem?.2 (by rw [hm]; rfl)
      rw [if_neg fun hx => hx.2 hmem]
      rfl
  · rw [if_neg fun hc => h (Std.LawfulEqCmp.eq_of_compare hc.1), if_neg h]

namespace Elimination

/-- Only the part `i` differs, and it is `p` now. -/
structure Revised (m : State) (i : Nat) (p : Part) (m' : State) : Prop where
  size : m'.parts.size = m.parts.size
  fault : m'.fault = m.fault
  part : ∀ j, m'.part j = if j = i then p else m.part j

theorem revised_modifyPart (m : State) (n : Nat) {i : Nat} (hi : i < m.parts.size)
    (f : Part → Part) :
    Revised m i (f (m.part i)) (State.modifyPart { m with outstanding := n } i f) where
  size := Array.size_modify
  fault := rfl
  part j := by
    unfold State.part State.modifyPart
    rw [Array.getElem?_modify]
    by_cases h : i = j
    · subst h
      rw [if_pos rfl, if_pos rfl, Array.getElem?_eq_getElem hi]
      rfl
    · rw [if_neg h, if_neg fun hx => h hx.symm]

variable {edges : List (Handle × Handle)} {owner : Handle → Nat} {gone : List Handle}
  {pending : Multiset Handle} {m m' : State} {i : Nat} {p : Part} {a t : Handle}

theorem Revised.congr {β : Type} (hr : Revised m i p m') (f : Part → β)
    (hf : f p = f (m.part i)) (j : Nat) : f (m'.part j) = f (m.part j) := by
  rw [hr.part]
  by_cases hj : j = i
  · rw [if_pos hj, hf, hj]
  · rw [if_neg hj]

/-- Some edge has this end. -/
def Touches (edges : List (Handle × Handle)) (a : Handle) : Prop :=
  ∃ e ∈ edges, e.1 = a ∨ e.2 = a

/-- The incoming edges from vertices that are not removed. -/
def incoming (edges : List (Handle × Handle)) (gone : List Handle) (a : Handle) : Nat :=
  edges.countP fun e => decide (e.2 = a ∧ e.1 ∉ gone)

/-- What the in-degree of a vertex is made up of: messages in the inbox of its part, edges out of
vertices that are being removed, and edges out of vertices that are still there. -/
def degree (edges : List (Handle × Handle)) (owner : Handle → Nat) (gone : List Handle)
    (pending : Multiset Handle) (m : State) (a : Handle) : Nat :=
  (m.part (owner a)).inbox.count a + pending.count a + incoming edges gone a

/-- What holds of the part `i`, where `deg` gives the in-degrees. -/
structure Part.Fits (edges : List (Handle × Handle)) (owner : Handle → Nat) (gone : List Handle)
    (deg : Handle → Nat) (i : Nat) (p : Part) : Prop where
  outgoing : ∀ a, owner a = i →
    p.outgoing.getD a [] = (edges.filter (·.1 = a)).map fun e => (e.2, owner e.2)
  indegree : ∀ a, owner a = i → Touches edges a → p.indegree[a]? = some (deg a)
  kept : ∀ a, p.indegree[a]?.isSome → owner a = i
  inbox : ∀ a ∈ p.inbox, owner a = i ∧ Touches edges a
  ready : ∀ a ∈ p.ready, owner a = i ∧ Touches edges a ∧ a ∉ gone ∧ deg a = 0
  nodup : p.ready.Nodup
  caught : ∀ a, owner a = i → Touches edges a → deg a = 0 → a ∈ gone ∨ a ∈ p.ready

theorem Part.Fits.congr {deg deg' : Handle → Nat} (h : p.Fits edges owner gone deg i)
    (heq : ∀ a, owner a = i → deg' a = deg a) : p.Fits edges owner gone deg' i where
  outgoing := h.outgoing
  indegree a ha ht := by
    rw [heq a ha]
    exact h.indegree a ha ht
  kept := h.kept
  inbox := h.inbox
  ready a ha := by
    obtain ⟨howner, htouch, hgone, hzero⟩ := h.ready a ha
    exact ⟨howner, htouch, hgone, (heq a howner).trans hzero⟩
  nodup := h.nodup
  caught a ha ht hzero := h.caught a ha ht ((heq a ha).symm.trans hzero)

/-- What holds after each step of the elimination. The vertices in `gone` are removed, and those in
`pending` are to lose an incoming edge from one of these. -/
structure Kahn (edges : List (Handle × Handle)) (owner : Handle → Nat) (gone : List Handle)
    (pending : Multiset Handle) (m : State) : Prop where
  size : ∀ a, owner a < m.parts.size
  fault : m.fault = none
  due : ∀ a ∈ pending, Touches edges a
  removed : ∀ a ∈ gone, degree edges owner gone pending m a = 0 ∧
    Acc (fun a b => (a, b) ∈ edges) a
  fits : ∀ i, (m.part i).Fits edges owner gone (degree edges owner gone pending m) i

theorem Kahn.revised {pending' : Multiset Handle} (h : Kahn edges owner gone pending m)
    (hr : Revised m i p m') (hdue : ∀ a ∈ pending', Touches edges a)
    (hsame : ∀ a, owner a ≠ i → pending'.count a = pending.count a)
    (hle : ∀ a, owner a = i →
      degree edges owner gone pending' m' a ≤ degree edges owner gone pending m a)
    (hp : p.Fits edges owner gone (degree edges owner gone pending' m') i) :
    Kahn edges owner gone pending' m' := by
  have hother : ∀ a, owner a ≠ i →
      degree edges owner gone pending' m' a = degree edges owner gone pending m a := by
    intro a ha
    unfold degree
    rw [hr.part, if_neg ha, hsame a ha]
  refine ⟨fun a => hr.size ▸ h.size a, hr.fault.trans h.fault, hdue, fun a ha => ?_, fun j => ?_⟩
  · obtain ⟨hzero, hacc⟩ := h.removed a ha
    refine ⟨?_, hacc⟩
    by_cases hi : owner a = i
    · exact Nat.le_zero.1 (hzero ▸ hle a hi)
    · exact (hother a hi).trans hzero
  · rw [hr.part]
    split
    · rename_i hj
      exact hj ▸ hp
    · rename_i hj
      exact (h.fits j).congr fun a ha => hother a (ha ▸ hj)

theorem Kahn.annotate (h : Kahn edges owner gone pending m)
    {current : Option (List (Handle × Nat))} {finished : Nat} {phase : Phase}
    (hr : Revised m i { m.part i with current, finished, phase } m') :
    Kahn edges owner gone pending m' := by
  have hdegree : ∀ a, degree edges owner gone pending m' a =
      degree edges owner gone pending m a := by
    intro a
    unfold degree
    rw [hr.congr (·.inbox) rfl]
  have hp := (h.fits i).congr fun a _ => hdegree a
  exact h.revised hr h.due (fun _ _ => rfl) (fun a _ => (hdegree a).le)
    ⟨hp.outgoing, hp.indegree, hp.kept, hp.inbox, hp.ready, hp.nodup, hp.caught⟩

theorem Kahn.decrement_revised (h : Kahn edges owner gone (t ::ₘ pending) m) :
    ∃ d, degree edges owner gone (t ::ₘ pending) m t = d + 1 ∧
      Revised m (owner t)
        { m.part (owner t) with
          indegree := (m.part (owner t)).indegree.insert t d
          ready := if d = 0 then t :: (m.part (owner t)).ready else (m.part (owner t)).ready }
        (m.decrement (owner t) t) := by
  obtain ⟨d, hd⟩ : ∃ d, degree edges owner gone (t ::ₘ pending) m t = d + 1 := by
    unfold degree
    rw [Multiset.count_cons_self]
    exact ⟨(m.part (owner t)).inbox.count t + pending.count t + incoming edges gone t, by omega⟩
  have hdeg := (h.fits _).indegree t rfl (h.due t (Multiset.mem_cons_self t _))
  rw [hd] at hdeg
  refine ⟨d, hd, ?_⟩
  unfold State.decrement
  rw [hdeg]
  exact revised_modifyPart m _ (h.size t) fun p =>
    { p with
      indegree := p.indegree.insert t d
      ready := if d = 0 then t :: p.ready else p.ready }

theorem Revised.degree_cons (hr : Revised m i p m') (hp : p.inbox = (m.part i).inbox) (a : Handle) :
    degree edges owner gone pending m' a + (if a = t then 1 else 0) =
      degree edges owner gone (t ::ₘ pending) m a := by
  unfold degree
  rw [hr.congr (·.inbox) hp, Multiset.count_cons]
  omega

/-- A vertex loses an incoming edge, and it is ready if that was the last one. -/
theorem Kahn.decrement (h : Kahn edges owner gone (t ::ₘ pending) m) :
    Kahn edges owner gone pending (m.decrement (owner t) t) := by
  obtain ⟨d, hd, hr⟩ := h.decrement_revised
  have hdegree : ∀ a, degree edges owner gone pending (m.decrement (owner t) t) a +
      (if a = t then 1 else 0) = degree edges owner gone (t ::ₘ pending) m a := hr.degree_cons rfl
  generalize m.decrement (owner t) t = m' at hr hdegree ⊢
  have hself : degree edges owner gone pending m' t = d := by
    have hx := hdegree t
    rw [if_pos rfl, hd] at hx
    omega
  have hother : ∀ a, a ≠ t → degree edges owner gone pending m' a =
      degree edges owner gone (t ::ₘ pending) m a := by
    intro a ha
    have hx := hdegree a
    rwa [if_neg ha] at hx
  have hpos : ∀ a, degree edges owner gone (t ::ₘ pending) m a = 0 → a ≠ t := by
    rintro a ha rfl
    omega
  have htouch : Touches edges t := h.due t (Multiset.mem_cons_self t _)
  have hold := h.fits (owner t)
  refine h.revised hr (fun a ha => h.due a (Multiset.mem_cons_of_mem ha)) (fun a ha => ?_)
    (fun a _ => hdegree a ▸ Nat.le_add_right _ _)
    ⟨hold.outgoing, fun a hi ha => ?_, fun a ha => ?_, hold.inbox, fun a ha => ?_, ?_,
      fun a hi ha hzero => ?_⟩
  · exact (Multiset.count_cons_of_ne (fun hat => ha (congrArg owner hat)) _).symm
  · rw [Handle.getElem?_insert]
    split
    · rename_i hta
      rw [← hta, hself]
    · rename_i hta
      rw [hother a (Ne.symm hta)]
      exact hold.indegree a hi ha
  · rw [Handle.getElem?_insert] at ha
    split at ha
    · rename_i hta
      rw [hta]
    · exact hold.kept a ha
  · have hkeep : ∀ b ∈ (m.part (owner t)).ready, owner b = owner t ∧ Touches edges b ∧ b ∉ gone ∧
        degree edges owner gone pending m' b = 0 := by
      intro b hb
      obtain ⟨howner, hb, hgone, hzero⟩ := hold.ready b hb
      exact ⟨howner, hb, hgone, (hother b (hpos b hzero)).trans hzero⟩
    dsimp only at ha
    split at ha
    · rename_i hd0
      rcases List.mem_cons.1 ha with rfl | ha
      · exact ⟨rfl, htouch, fun hg => hpos a (h.removed a hg).1 rfl, hself.trans hd0⟩
      · exact hkeep a ha
    · exact hkeep a ha
  · dsimp only
    split
    · refine List.nodup_cons.2 ⟨fun ht => ?_, hold.nodup⟩
      exact hpos t (hold.ready t ht).2.2.2 rfl
    · exact hold.nodup
  · dsimp only
    by_cases hat : a = t
    · rw [hat, hself] at hzero
      rw [if_pos hzero, hat]
      exact .inr List.mem_cons_self
    · refine (hold.caught a hi ha ((hother a hat).symm.trans hzero)).imp_right fun hmem => ?_
      split
      · exact List.mem_cons_of_mem _ hmem
      · exact hmem

theorem send_revised (hi : i < m.parts.size) (t : Handle) :
    Revised m i { m.part i with inbox := (m.part i).inbox ++ [t] } (m.send i t) :=
  revised_modifyPart m _ hi fun p => { p with inbox := p.inbox ++ [t] }

theorem Kahn.send (h : Kahn edges owner gone (t ::ₘ pending) m) :
    Kahn edges owner gone pending (m.send (owner t) t) := by
  have hr := send_revised (h.size t) t
  -- a message changes nothing but where it is counted
  have hdegree : ∀ a, degree edges owner gone pending (m.send (owner t) t) a =
      degree edges owner gone (t ::ₘ pending) m a := by
    intro a
    unfold degree
    rw [hr.part, Multiset.count_cons]
    split
    · rename_i ha
      rw [ha, List.count_append, List.count_singleton]
      simp only [beq_iff_eq, eq_comm (a := t)]
      omega
    · rename_i ha
      rw [if_neg fun hat => ha (congrArg owner hat), Nat.add_zero]
  have hp := (h.fits (owner t)).congr fun a _ => hdegree a
  refine h.revised hr (fun a ha => h.due a (Multiset.mem_cons_of_mem ha)) (fun a ha => ?_)
    (fun a _ => (hdegree a).le)
    ⟨hp.outgoing, hp.indegree, hp.kept, fun a ha => ?_, hp.ready, hp.nodup, hp.caught⟩
  · exact (Multiset.count_cons_of_ne (fun hat => ha (congrArg owner hat)) _).symm
  · rcases List.mem_append.1 ha with ha | ha
    · exact hp.inbox a ha
    · obtain rfl := List.mem_singleton.1 ha
      exact ⟨rfl, h.due a (Multiset.mem_cons_self a _)⟩

theorem Kahn.receive (h : Kahn edges owner gone pending m) {position finished : Nat}
    (ht : (m.part i).inbox[position]? = some t)
    (hr : Revised m i
      { m.part i with inbox := (m.part i).inbox.eraseIdx position, finished } m') :
    Kahn edges owner gone (t ::ₘ pending) m' := by
  obtain ⟨howner, htouch⟩ := (h.fits i).inbox t (List.mem_of_getElem? ht)
  have hdegree : ∀ a, degree edges owner gone (t ::ₘ pending) m' a =
      degree edges owner gone pending m a := by
    intro a
    obtain ⟨hlt, hget⟩ := List.getElem?_eq_some_iff.1 ht
    have hperm := List.getElem_cons_eraseIdx_perm hlt
    rw [hget] at hperm
    unfold degree
    rw [hr.part, Multiset.count_cons]
    split
    · rename_i ha
      rw [ha, ← hperm.count_eq, List.count_cons]
      simp only [beq_iff_eq, eq_comm (a := t)]
      omega
    · rename_i ha
      rw [if_neg fun hat => ha ((congrArg owner hat).trans howner), Nat.add_zero]
  have hp := (h.fits i).congr fun a _ => hdegree a
  refine h.revised hr (fun a ha => ?_) (fun a ha => ?_) (fun a _ => (hdegree a).le)
    ⟨hp.outgoing, hp.indegree, hp.kept, fun a ha => hp.inbox a (List.mem_of_mem_eraseIdx ha),
      hp.ready, hp.nodup, hp.caught⟩
  · rcases Multiset.mem_cons.1 ha with rfl | ha
    · exact htouch
    · exact h.due a ha
  · exact Multiset.count_cons_of_ne (fun hat => ha ((congrArg owner hat).trans howner)) _

/-- The ends of the edges out of a vertex. -/
def targets (edges : List (Handle × Handle)) (x : Handle) : List Handle :=
  (edges.filter (·.1 = x)).map (·.2)

theorem count_targets (edges : List (Handle × Handle)) {gone : List Handle} {x : Handle}
    (hx : x ∉ gone) (a : Handle) :
    (targets edges x).count a + incoming edges (x :: gone) a = incoming edges gone a := by
  unfold incoming targets
  induction edges with
  | nil => rfl
  | cons e rest ih =>
    rw [List.countP_cons, List.countP_cons, List.filter_cons]
    by_cases he : e.1 = x
    · subst he
      simp only [decide_true, if_true, List.map_cons, List.count_cons, beq_iff_eq,
        List.mem_cons_self, not_true_eq_false, and_false, decide_false, hx, not_false_eq_true,
        and_true, decide_eq_true_eq, Bool.false_eq_true, if_false]
      omega
    · have hmem : decide (e.2 = a ∧ e.1 ∉ x :: gone) = decide (e.2 = a ∧ e.1 ∉ gone) := by
        simp only [List.mem_cons, he, false_or]
      rw [hmem, if_neg (by simpa using he)]
      omega

/-- A vertex without incoming edges is removed, and its successors are to lose an edge each. -/
theorem Kahn.remove (h : Kahn edges owner gone pending m) {position : Nat} {x : Handle}
    {current : Option (List (Handle × Nat))} (hx : (m.part i).ready[position]? = some x)
    (hr : Revised m i
      { m.part i with ready := (m.part i).ready.eraseIdx position, current } m') :
    Kahn edges owner (x :: gone) ((targets edges x : Multiset Handle) + pending) m' := by
  obtain ⟨howner, htouch, hgone, hzero⟩ := (h.fits i).ready x (List.mem_of_getElem? hx)
  have hdegree : ∀ a, degree edges owner (x :: gone)
      ((targets edges x : Multiset Handle) + pending) m' a =
      degree edges owner gone pending m a := by
    intro a
    have hcount := count_targets edges hgone a
    unfold degree
    rw [hr.congr (·.inbox) rfl, Multiset.count_add, Multiset.coe_count]
    omega
  have hfits : ∀ j, (m.part j).Fits edges owner gone _ j :=
    fun j => (h.fits j).congr fun a _ => hdegree a
  obtain ⟨hlt, hget⟩ := List.getElem?_eq_some_iff.1 hx
  have herase : x ∉ (m.part i).ready.eraseIdx position := by
    rw [← (h.fits i).nodup.erase_getElem position hlt, hget]
    exact (h.fits i).nodup.not_mem_erase
  have hcaught : ∀ a ∈ (m.part i).ready,
      a ∈ x :: gone ∨ a ∈ (m.part i).ready.eraseIdx position := by
    intro a ha
    obtain ⟨k, hk⟩ := List.mem_iff_getElem?.1 ha
    by_cases hkp : k = position
    · rw [hkp, hx] at hk
      exact .inl (Option.some.inj hk ▸ List.mem_cons_self)
    · exact .inr (List.mem_eraseIdx_iff_getElem?.2 ⟨k, hkp, hk⟩)
  refine ⟨fun a => hr.size ▸ h.size a, hr.fault.trans h.fault, fun a ha => ?_, fun a ha => ?_,
    fun j => ?_⟩
  · rcases Multiset.mem_add.1 ha with ha | ha
    · obtain ⟨e, he, rfl⟩ := List.mem_map.1 (Multiset.mem_coe.1 ha)
      exact ⟨e, List.mem_of_mem_filter he, .inr rfl⟩
    · exact h.due a ha
  · rw [hdegree]
    rcases List.mem_cons.1 ha with rfl | ha
    · refine ⟨hzero, Acc.intro a fun b hb => ?_⟩
      -- every predecessor is gone, or there would be an incoming edge
      by_contra hno
      have hnone : incoming edges gone a = 0 := Nat.eq_zero_of_add_eq_zero_left hzero
      have hbg : b ∉ gone := fun hx => hno (h.removed b hx).2
      exact List.countP_eq_zero.1 hnone (b, a) hb (decide_eq_true ⟨rfl, hbg⟩)
    · exact h.removed a ha
  · have hp := hfits j
    rw [hr.part]
    split
    · rename_i hj
      subst hj
      refine ⟨hp.outgoing, hp.indegree, hp.kept, hp.inbox, fun a ha => ?_,
        hp.nodup.eraseIdx position, fun a hi ha hz => ?_⟩
      · obtain ⟨hi, ht, hg, hd⟩ := hp.ready a (List.mem_of_mem_eraseIdx ha)
        refine ⟨hi, ht, List.not_mem_cons_of_ne_of_not_mem ?_ hg, hd⟩
        rintro rfl
        exact herase ha
      · rcases hp.caught a hi ha hz with hg | hmem
        · exact .inl (List.mem_cons_of_mem _ hg)
        · exact hcaught a hmem
    · rename_i hj
      refine ⟨hp.outgoing, hp.indegree, hp.kept, hp.inbox, fun a ha => ?_, hp.nodup,
        fun a hi ha hz => (hp.caught a hi ha hz).imp_left (List.mem_cons_of_mem _)⟩
      obtain ⟨hi, ht, hg, hd⟩ := hp.ready a ha
      refine ⟨hi, ht, List.not_mem_cons_of_ne_of_not_mem ?_ hg, hd⟩
      rintro rfl
      exact hj (hi.symm.trans howner)

/-- The in-degree of a vertex in a list of edges, if it is in one of them. -/
def entry (edges : List (Handle × Handle)) (a : Handle) : Option Nat :=
  if edges.any fun e => e.1 = a ∨ e.2 = a then some (edges.countP (·.2 = a)) else none

theorem entry_eq_some (h : Touches edges a) : entry edges a = some (edges.countP (·.2 = a)) := by
  obtain ⟨e, he, ha⟩ := h
  exact if_pos (List.any_eq_true.2 ⟨e, he, decide_eq_true ha⟩)

theorem touches_of_entry {n : Nat} (h : entry edges a = some n) : Touches edges a := by
  unfold entry at h
  split at h
  · rename_i hany
    obtain ⟨e, he, ha⟩ := List.any_eq_true.1 hany
    exact ⟨e, he, of_decide_eq_true ha⟩
  · cases h

theorem entry_getD (edges : List (Handle × Handle)) (a : Handle) :
    (entry edges a).getD 0 = edges.countP (·.2 = a) := by
  unfold entry
  split
  · rfl
  · rename_i hno
    refine (List.countP_eq_zero.2 fun e he ha => hno ?_).symm
    exact List.any_eq_true.2 ⟨e, he, decide_eq_true (.inr (of_decide_eq_true ha))⟩

theorem entry_concat (edges : List (Handle × Handle)) (e : Handle × Handle) (a : Handle) :
    entry (edges ++ [e]) a =
      if e.2 = a then some ((entry edges a).getD 0 + 1)
      else if e.1 = a then some ((entry edges a).getD 0) else entry edges a := by
  rw [entry_getD]
  unfold entry
  simp only [List.any_append, List.any_cons, List.any_nil, Bool.or_false, List.countP_append,
    List.countP_singleton]
  by_cases ht : e.2 = a
  · simp [ht]
  · by_cases hs : e.1 = a
    · simp [ht, hs]
    · have hno : decide (e.1 = a ∨ e.2 = a) = false := decide_eq_false (not_or.2 ⟨hs, ht⟩)
      rw [hno, Bool.or_false, if_neg ht, if_neg hs]
      simp only [ht, decide_false, Bool.false_eq_true, if_false, Nat.add_zero]

/-- The edges are entered, and no vertex is ready yet. -/
structure Entered (edges : List (Handle × Handle)) (owner : Handle → Nat) (m : State) : Prop where
  size : ∀ a, owner a < m.parts.size
  fault : m.fault = none
  outgoing : ∀ a, (m.part (owner a)).outgoing.getD a [] =
    (edges.filter (·.1 = a)).map fun e => (e.2, owner e.2)
  indegree : ∀ i a, (m.part i).indegree[a]? = if owner a = i then entry edges a else none
  blank : ∀ i, m.part i = { outgoing := (m.part i).outgoing, indegree := (m.part i).indegree }

theorem addEdge_revised {σ : Type} {u v : Vertex σ} (hsize : ∀ a, owner a < m.parts.size)
    (hu : Store.owner m.parts.size u.fingerprint = owner u.handle)
    (hv : Store.owner m.parts.size v.fingerprint = owner v.handle) :
    ∃ m₁, Revised m (owner u.handle)
      { m.part (owner u.handle) with
        indegree := (m.part (owner u.handle)).indegree.insertIfNew u.handle 0
        outgoing := (m.part (owner u.handle)).outgoing.insert u.handle
          ((m.part (owner u.handle)).outgoing.getD u.handle [] ++ [(v.handle, owner v.handle)]) }
      m₁ ∧
    Revised m₁ (owner v.handle)
      { m₁.part (owner v.handle) with
        indegree := (m₁.part (owner v.handle)).indegree.insert v.handle
          ((m₁.part (owner v.handle)).indegree.getD v.handle 0 + 1) }
      (m.addEdge (u, v)) := by
  have hs := revised_modifyPart m m.outstanding (hsize u.handle) fun p =>
    { p with
      indegree := p.indegree.insertIfNew u.handle 0
      outgoing := p.outgoing.insert u.handle
        (p.outgoing.getD u.handle [] ++ [(v.handle, owner v.handle)]) }
  refine ⟨_, hs, ?_⟩
  unfold State.addEdge
  dsimp only
  rw [hu, hv]
  exact revised_modifyPart _ _ (by rw [hs.size]; exact hsize v.handle) fun p =>
    { p with indegree := p.indegree.insert v.handle (p.indegree.getD v.handle 0 + 1) }

theorem guard_of_owner_ne {x : Handle} (hx : owner x ≠ i) (y z : Option Nat) :
    (if owner a = i then if x = a then y else z else none) = if owner a = i then z else none := by
  refine ite_congr rfl (fun ha => if_neg ?_) fun _ => rfl
  rintro rfl
  exact hx ha

theorem Entered.addEdge {σ : Type} {u v : Vertex σ} (h : Entered edges owner m)
    (hu : Store.owner m.parts.size u.fingerprint = owner u.handle)
    (hv : Store.owner m.parts.size v.fingerprint = owner v.handle) :
    Entered (edges ++ [(u.handle, v.handle)]) owner (m.addEdge (u, v)) := by
  obtain ⟨m₁, hs, ht⟩ := addEdge_revised h.size hu hv
  have hin : ∀ i a, (m₁.part i).indegree[a]? = if owner a = i then
      if u.handle = a then some ((entry edges a).getD 0) else entry edges a else none := by
    intro i a
    rw [hs.part]
    split
    · rename_i hi
      rw [Handle.getElem?_insertIfNew, h.indegree, hi]
      by_cases ha : u.handle = a
      · rw [if_pos ha, if_pos (congrArg owner ha).symm, if_pos (congrArg owner ha).symm, if_pos ha]
      · rw [if_neg ha, if_neg ha]
    · rename_i hi
      rw [h.indegree, guard_of_owner_ne (Ne.symm hi)]
  refine ⟨fun a => ?_, ht.fault.trans (hs.fault.trans h.fault), fun a => ?_, fun i a => ?_,
    fun i => ?_⟩
  · rw [ht.size, hs.size]
    exact h.size a
  · rw [ht.congr (·.outgoing) rfl, hs.part, List.filter_append, List.map_append, ← h.outgoing a]
    by_cases ha : u.handle = a
    · subst ha
      rw [if_pos rfl, Handle.getD_insert, if_pos rfl]
      simp
    · have hnil : [(u.handle, v.handle)].filter (·.1 = a) = [] :=
        List.filter_cons_of_neg (by simpa using ha)
      rw [hnil, List.map_nil, List.append_nil]
      split
      · rename_i hi
        rw [Handle.getD_insert, if_neg (Ne.symm ha), hi]
      · rfl
  · rw [ht.part, entry_concat]
    split
    · rename_i hi
      rw [Handle.getElem?_insert, Std.TreeMap.getD_eq_getD_getElem?, hin, hin, hi]
      by_cases ha : v.handle = a
      · subst ha
        rw [if_pos rfl, if_pos rfl, if_pos rfl, if_pos rfl]
        split <;> rfl
      · rw [if_neg ha, if_neg ha]
    · rename_i hi
      rw [hin, guard_of_owner_ne (Ne.symm hi)]
  · rw [ht.part]
    split
    · rw [hs.part]
      split
      · rw [h.blank]
      · rw [h.blank]
    · rw [hs.part]
      split
      · rw [h.blank]
      · rw [← h.blank]

theorem mem_prepare {p : Part} : a ∈ p.prepare.ready ↔ p.indegree[a]? = some 0 := by
  unfold Part.prepare
  simp only [List.mem_map, List.mem_filter, beq_iff_eq, Prod.exists, exists_and_right,
    exists_eq_right, Std.TreeMap.mem_toList_iff_getElem?_eq_some]

theorem nodup_prepare (p : Part) : p.prepare.ready.Nodup := by
  unfold Part.prepare
  refine List.Pairwise.map _ (fun x y hxy => ?_) (Std.TreeMap.distinct_keys_toList.filter _)
  rintro heq
  exact hxy (heq ▸ Std.ReflCmp.compare_self)

theorem part_prepare (m : State) (i : Nat) : m.prepare.part i = (m.part i).prepare := by
  unfold State.part State.prepare
  rw [Array.getElem?_map]
  cases m.parts[i]? <;> rfl

theorem Entered.degree_prepare (h : Entered edges owner m) (a : Handle) :
    degree edges owner [] 0 m.prepare a = edges.countP (·.2 = a) := by
  unfold degree incoming
  rw [part_prepare, h.blank]
  simp only [Part.prepare, List.count_nil, Multiset.count_zero, Nat.zero_add, List.not_mem_nil,
    not_false_eq_true, and_true]

theorem Entered.kahn (h : Entered edges owner m) : Kahn edges owner [] 0 m.prepare := by
  have hdegree := h.degree_prepare
  refine ⟨fun a => ?_, h.fault, fun a ha => absurd ha (Multiset.notMem_zero a),
    fun a ha => absurd ha List.not_mem_nil, fun i => ?_⟩
  · exact (Array.size_map ..).symm ▸ h.size a
  rw [part_prepare]
  refine ⟨fun a ha => ha ▸ h.outgoing a, fun a hi ha => ?_, fun a ha => ?_, fun a ha => ?_,
    fun a ha => ?_, nodup_prepare _, fun a hi ha hzero => ?_⟩
  · rw [hdegree, ← entry_eq_some ha]
    exact (h.indegree i a).trans (if_pos hi)
  · change (m.part i).indegree[a]?.isSome at ha
    rw [h.indegree] at ha
    by_contra hi
    rw [if_neg hi] at ha
    cases ha
  · rw [h.blank] at ha
    cases ha
  · rw [mem_prepare, h.indegree] at ha
    split at ha
    · rename_i hi
      have hzero := entry_getD edges a
      rw [ha] at hzero
      exact ⟨hi, touches_of_entry ha, List.not_mem_nil, (hdegree a).trans hzero.symm⟩
    · cases ha
  · rw [hdegree] at hzero
    rw [mem_prepare, h.indegree, if_pos hi, entry_eq_some ha, hzero]
    exact .inr rfl

theorem not_transGen_of_acc {α : Type} {r : α → α → Prop} {a : α} (h : Acc r a) :
    ¬ Relation.TransGen r a a := by
  induction h with
  | intro a _ ih =>
    intro hc
    obtain ⟨b, hab, hba⟩ := Relation.TransGen.tail'_iff.1 hc
    exact ih b hba (Relation.TransGen.head' hba hab)

variable {σ : Type} {links : List (Vertex σ × Vertex σ)} {store : Store σ}

def byHandle (links : List (Vertex σ × Vertex σ)) : List (Handle × Handle) :=
  links.map fun e => (e.1.handle, e.2.handle)

theorem entered_replicate {n : Nat} (hn : ∀ a, owner a < n) :
    Entered [] owner { parts := .replicate n {} } := by
  have hpart : ∀ i, State.part { parts := .replicate n {} } i = {} := by
    intro i
    unfold State.part
    rw [Array.getElem?_replicate]
    split <;> rfl
  refine ⟨fun a => ?_, rfl, fun a => ?_, fun i a => ?_, fun i => ?_⟩
  · rw [Array.size_replicate]
    exact hn a
  · rw [hpart]
    rfl
  · rw [hpart]
    split <;> rfl
  · rw [hpart]

theorem Entered.foldl (h : Entered edges owner m)
    (hlinks : ∀ e ∈ links, Store.owner m.parts.size e.1.fingerprint = owner e.1.handle ∧
      Store.owner m.parts.size e.2.fingerprint = owner e.2.handle) :
    Entered (edges ++ byHandle links) owner (links.foldl State.addEdge m) ∧
      (links.foldl State.addEdge m).parts.size = m.parts.size := by
  induction links generalizing edges m with
  | nil =>
    rw [byHandle, List.map_nil, List.append_nil]
    exact ⟨h, rfl⟩
  | cons e rest ih =>
    obtain ⟨u, v⟩ := e
    obtain ⟨hu, hv⟩ := hlinks _ List.mem_cons_self
    have hsize : (m.addEdge (u, v)).parts.size = m.parts.size := by
      unfold State.addEdge
      exact Array.size_modify.trans Array.size_modify
    rw [List.foldl_cons, byHandle, List.map_cons, List.append_cons, ← hsize]
    refine ih (h.addEdge hu hv) fun e he => ?_
    rw [hsize]
    exact hlinks e (List.mem_cons_of_mem _ he)

/-- The ends of the edges. -/
def ends (links : List (Vertex σ × Vertex σ)) : List (Vertex σ) :=
  links.flatMap fun e => [e.1, e.2]

theorem mem_ends {e : Vertex σ × Vertex σ} (he : e ∈ links) :
    e.1 ∈ ends links ∧ e.2 ∈ ends links :=
  ⟨List.mem_flatMap.2 ⟨e, he, List.mem_cons_self⟩,
    List.mem_flatMap.2 ⟨e, he, List.mem_cons_of_mem _ List.mem_cons_self⟩⟩

/-- Ends with one handle are one vertex, as those in one store are. -/
def Identified (links : List (Vertex σ × Vertex σ)) : Prop :=
  ∀ u ∈ ends links, ∀ v ∈ ends links, u.handle = v.handle → u = v

theorem identified_of_stored (hs : store.Sound)
    (hlinks : ∀ e ∈ links, e.1 ∈ store.vertices ∧ e.2 ∈ store.vertices) : Identified links := by
  have hmem : ∀ u ∈ ends links, u ∈ store.vertices := by
    intro u hu
    obtain ⟨e, he, hu⟩ := List.mem_flatMap.1 hu
    rcases List.mem_cons.1 hu with rfl | hu
    · exact (hlinks e he).1
    · exact List.mem_singleton.1 hu ▸ (hlinks e he).2
  intro u hu v hv heq
  exact hs.eq_of_handle (hmem u hu) (hmem v hv) heq

theorem Identified.entered (h : Identified links) (workers : Nat) :
    ∃ owner m, Entered (byHandle links) owner m ∧
      State.ofEdges workers links = m.prepare ∧ m.parts.size = max workers 1 ∧
      ∀ v ∈ ends links, owner v.handle = Store.owner (max workers 1) v.fingerprint := by
  have hpos : 0 < max workers 1 := Nat.lt_of_lt_of_le Nat.zero_lt_one (Nat.le_max_right _ _)
  let owner : Handle → Nat := fun a =>
    Store.owner (max workers 1) (((ends links).find? (·.handle == a)).elim 0 (·.fingerprint))
  have howner : ∀ v ∈ ends links, owner v.handle = Store.owner (max workers 1) v.fingerprint := by
    intro v hv
    obtain ⟨w, hw⟩ : ∃ w, (ends links).find? (·.handle == v.handle) = some w :=
      Option.isSome_iff_exists.1 (List.find?_isSome.2 ⟨v, hv, beq_self_eq_true _⟩)
    have hwv : w = v := h w (List.mem_of_find?_eq_some hw) v hv (by simpa using List.find?_some hw)
    simp only [owner, hw, Option.elim_some, hwv]
  have hblank : Entered [] owner { parts := .replicate (max workers 1) {} } :=
    entered_replicate fun a => Nat.mod_lt _ hpos
  obtain ⟨hentered, hsize⟩ := hblank.foldl fun e (he : e ∈ links) => by
    rw [Array.size_replicate]
    exact ⟨(howner _ (mem_ends he).1).symm, (howner _ (mem_ends he).2).symm⟩
  exact ⟨owner, _, hentered, rfl, hsize.trans Array.size_replicate, howner⟩

end Elimination

end ModelChecker
