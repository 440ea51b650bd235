import Mathlib.Algebra.GroupWithZero.Nat
import Mathlib.Data.Finset.Card
import Mathlib.Data.List.OfFn
import Mathlib.Data.List.Perm.Basic
import ModelChecker.Proofs.Store

namespace ModelChecker

variable {σ : Type}

namespace Handle

theorem toNat_toRaw (h : Handle) : h.toRaw.toNat = h.shard.toNat * 2 ^ 32 + h.slot.toNat := by
  have hshard := h.shard.toNat_lt
  have hor := Nat.shiftLeft_add_eq_or_of_lt h.slot.toNat_lt h.shard.toNat
  have hfit : h.shard.toNat * 2 ^ 32 < 2 ^ 64 := by omega
  rw [Nat.shiftLeft_eq] at hor
  simp only [toRaw, UInt64.toNat_or, UInt64.toNat_shiftLeft, UInt32.toNat_toUInt64,
    UInt64.toNat_ofNat, Nat.shiftLeft_eq]
  rw [show 32 % 2 ^ 64 % 64 = 32 from rfl, Nat.mod_eq_of_lt hfit, hor]

theorem toRaw_lt_iff {a b : Handle} : a.toRaw < b.toRaw ↔ compare a b = .lt := by
  have hcompare : compare a b = (compare a.shard b.shard).then (compare a.slot b.slot) := rfl
  have ha := a.slot.toNat_lt
  have hb := b.slot.toNat_lt
  rw [hcompare, UInt64.lt_iff_toNat_lt, toNat_toRaw, toNat_toRaw, Ordering.then_eq_lt,
    Std.compare_eq_lt, Std.compare_eq_lt, Std.LawfulEqCmp.compare_eq_iff_eq, UInt32.lt_iff_toNat_lt,
    UInt32.lt_iff_toNat_lt, ← UInt32.toNat_inj]
  omega

end Handle

namespace Store

/-- The vertex that a call made, if it made one. -/
def newVertex : Except Exhausted (Vertex σ × Bool) → Option (Vertex σ)
  | .ok (v, true) => some v
  | _ => none

/-- The vertices that were made, the oldest first. -/
def made (answers : List (Except Exhausted (Vertex σ × Bool))) : List (Vertex σ) :=
  answers.filterMap newVertex

/-- Calls one after the other: their answers and the store after them. -/
def replay (same : σ → σ → Bool) : List (UInt64 × σ) → Store σ →
    List (Except Exhausted (Vertex σ × Bool)) × Store σ
  | [], s => ([], s)
  | (fp, state) :: rest, s =>
    let (answer, s) := s.adopt same fp state
    let (answers, s) := replay same rest s
    (answer :: answers, s)

/-- A store and the vertices that were made in it. -/
structure Holds (s : Store σ) (made : List (Vertex σ)) : Prop where
  filed : s.Filed
  perm : s.vertices.Perm made
  shard : ∀ (i : Nat) shard, s.shards[i]? = some shard →
    shard.vertices.toList = made.filter fun v => owner s.shards.size v.fingerprint == i
  collisions : s.collisions + (made.map (·.fingerprint)).toFinset.card = made.length

variable {s s' : Store σ} {vs : List (Vertex σ)} {same : σ → σ → Bool} {fp : UInt64} {state : σ}

theorem owner_eq_shardOf (s : Store σ) (fp : UInt64) : owner s.shards.size fp = s.shardOf fp := rfl

theorem Holds.find?_eq (h : s.Holds vs) (same : σ → σ → Bool) (fp : UInt64) (state : σ) :
    s.find? same fp state = vs.find? fun v => v.fingerprint == fp && same v.state state := by
  have hs := s.shard_eq (s.shardOf fp)
  rw [find?, (h.filed.shard _ _ hs).find?_eq, h.shard _ _ hs, List.find?_filter, List.find?_filter]
  congr 1
  funext v
  by_cases hfp : v.fingerprint = fp <;> simp [hfp, owner_eq_shardOf]

theorem Holds.index_isSome (h : s.Holds vs) (fp : UInt64) :
    (s.shard (s.shardOf fp)).index[fp]?.isSome ↔ fp ∈ vs.map (·.fingerprint) := by
  have hs := s.shard_eq (s.shardOf fp)
  have hsound := h.filed.shard _ _ hs
  have hslots : (s.shard (s.shardOf fp)).slots fp = [] ↔ fp ∉ vs.map (·.fingerprint) := by
    rw [hsound.index, h.shard _ _ hs, List.filter_filter]
    simp only [List.map_eq_nil_iff, List.filter_eq_nil_iff, List.mem_map, not_exists, not_and]
    apply forall₂_congr
    intro v _
    by_cases hfp : v.fingerprint = fp <;> simp [hfp, owner_eq_shardOf]
  rw [← not_iff_not, ← hslots, Shard.slots]
  cases hb : (s.shard (s.shardOf fp)).index[fp]? with
  | none => simp
  | some bucket => simp [hsound.occupied fp bucket hb]

theorem collisions_eq (s : Store σ) :
    s.collisions = (s.shards.toList.map (·.collisions)).sum := by
  rw [collisions, ← Array.foldl_toList, List.sum_eq_foldl, List.foldl_map]

theorem sum_collisions_modify {l : List (Shard σ)} {i : Nat} {shard : Shard σ} {v : Vertex σ}
    (h : l[i]? = some shard) :
    ((l.modify i (·.append v)).map (·.collisions)).sum =
      (l.map (·.collisions)).sum + if shard.index[v.fingerprint]?.isSome then 1 else 0 := by
  induction l generalizing i with
  | nil => simp at h
  | cons first rest ih =>
    cases i with
    | zero =>
      obtain rfl : first = shard := by simpa using h
      simp only [List.modify_zero_cons, List.map_cons, List.sum_cons, Shard.append]
      split <;> omega
    | succ i =>
      have hrest := ih (i := i) (by simpa using h)
      simp only [List.modify_succ_cons, List.map_cons, List.sum_cons, hrest]
      omega

theorem Holds.added (h : s.Holds vs) {v : Vertex σ} (ha : s.Added v s')
    (hshards : s'.shards = s.shards.modify (s.shardOf v.fingerprint) (·.append v)) :
    s'.Holds (vs ++ [v]) where
  filed := ha.filed
  perm := by
    refine ha.perm.trans ((h.perm.cons v).trans ?_)
    exact (List.perm_append_singleton v vs).symm
  shard i shard hi := by
    rw [hshards, Array.getElem?_modify] at hi
    rw [ha.size_shards, List.filter_append]
    split at hi
    · rename_i howner
      subst howner
      rw [s.shard_eq] at hi
      cases hi
      change ((s.shard _).vertices.push v).toList = _
      rw [Array.toList_push, h.shard _ _ (s.shard_eq _)]
      simp [owner_eq_shardOf]
    · rename_i howner
      rw [h.shard i shard hi]
      simp [owner_eq_shardOf, howner]
  -- the new vertex is a collision if its fingerprint is not
  collisions := by
    have hmodify := sum_collisions_modify (v := v)
      (Array.getElem?_toList .. ▸ s.shard_eq (s.shardOf v.fingerprint))
    have hcount := h.collisions
    rw [collisions_eq] at hcount
    rw [collisions_eq, hshards, Array.toList_modify, hmodify, List.map_append, List.toFinset_append,
      List.length_append]
    by_cases hfp : v.fingerprint ∈ vs.map (·.fingerprint)
    · have hsub : ([v].map (·.fingerprint)).toFinset ⊆ (vs.map (·.fingerprint)).toFinset := by
        simpa using hfp
      rw [if_pos ((h.index_isSome _).2 hfp), Finset.union_eq_left.2 hsub]
      simp only [List.length_singleton]
      omega
    · have hdisjoint : Disjoint (vs.map (·.fingerprint)).toFinset ([v].map (·.fingerprint)).toFinset := by
        simpa using hfp
      rw [if_neg fun hsome => hfp ((h.index_isSome _).1 hsome), Finset.card_union_of_disjoint hdisjoint]
      simp only [List.map_cons, List.map_nil, List.toFinset_cons, List.toFinset_nil,
        Finset.card_insert_of_notMem (Finset.notMem_empty _), Finset.card_empty, List.length_singleton]
      omega

theorem pairwise_of_shard {shard : Shard σ} (h : shard.Sound) :
    shard.vertices.toList.Pairwise (·.handle.toRaw < ·.handle.toRaw) := by
  apply List.pairwise_iff_getElem.2
  intro i j hi hj hij
  have hfits := h.fits
  rw [Array.length_toList] at hi hj
  have hget : ∀ k (hk : k < shard.vertices.size),
      shard.vertices[k].handle.toRaw.toNat = shard.id.toNat * 2 ^ 32 + k := by
    intro k hk
    rw [h.handle k _ (Array.getElem?_eq_getElem hk), Handle.toNat_toRaw,
      UInt32.toNat_ofNat_of_lt' (hk.trans_le hfits)]
  rw [UInt64.lt_iff_toNat_lt, Array.getElem_toList, Array.getElem_toList, hget i hi, hget j hj]
  omega

theorem Sound.pairwise (h : s.Sound) :
    s.vertices.Pairwise (·.handle.toRaw < ·.handle.toRaw) := by
  apply List.pairwise_flatMap.2
  constructor
  · intro shard hs
    obtain ⟨i, hi⟩ := List.mem_iff_getElem?.1 hs
    rw [Array.getElem?_toList] at hi
    exact pairwise_of_shard (h.shard i shard hi)
  · apply List.pairwise_iff_getElem.2
    intro i j hi hj hij v hv w hw
    rw [Array.length_toList] at hi hj
    -- a handle has the number of its shard in front
    have hshard : ∀ k (hk : k < s.shards.size), ∀ u ∈ s.shards[k].vertices.toList,
        u.handle.shard.toNat = k := by
      intro k hk u hu
      have hget := Array.getElem?_eq_getElem hk
      rw [((h.shard k _ hget).getElem?_slot hu).1, h.id k _ hget,
        UInt32.toNat_ofNat_of_lt' (hk.trans_le h.few)]
    have hv' := hshard i hi v (by simpa using hv)
    have hw' := hshard j hj w (by simpa using hw)
    have hslot := v.handle.slot.toNat_lt
    rw [UInt64.lt_iff_toNat_lt, Handle.toNat_toRaw, Handle.toNat_toRaw, hv', hw']
    omega

/-- A store after some calls. -/
structure Replayed (count : Nat) (limit : Option Nat)
    (answers : List (Except Exhausted (Vertex σ × Bool))) (s : Store σ) : Prop where
  holds : s.Holds (made answers)
  sound : count ≤ UInt32.size → s.Sound
  size_shards : s.shards.size = max count 1
  limit_eq : s.budget.limit = limit
  returned : ∀ v isNew, .ok (v, isNew) ∈ answers → v ∈ made answers

variable {count : Nat} {limit : Option Nat} {answers : List (Except Exhausted (Vertex σ × Bool))}

theorem replayed_ofShards (count : Nat) (limit : Option Nat) :
    Replayed count limit [] (ofShards count limit : Store σ) := by
  have hnil := vertices_ofShards (σ := σ) count limit
  refine ⟨⟨filed_ofShards count limit, ?_, fun i shard hs => ?_, ?_⟩, sound_ofShards limit, ?_, rfl,
    by simp⟩
  · rw [hnil]
    rfl
  · rw [shard_ofShards hs]
    rfl
  · rw [collisions_eq]
    simp [ofShards, made, Function.comp_def, List.ofFn_const]
  · rw [ofShards, Array.size_ofFn]

theorem Replayed.keep (h : Replayed count limit answers s)
    {answer : Except Exhausted (Vertex σ × Bool)} (hnew : newVertex answer = none)
    (hreturned : ∀ v isNew, answer = .ok (v, isNew) → v ∈ made answers) :
    Replayed count limit (answers ++ [answer]) s := by
  have hmade : made (answers ++ [answer]) = made answers := by simp [made, hnew]
  refine ⟨hmade ▸ h.holds, h.sound, h.size_shards, h.limit_eq, fun v isNew hv => ?_⟩
  rw [hmade]
  rcases List.mem_append.1 hv with hv | hv
  · exact h.returned v isNew hv
  · exact hreturned v isNew (List.mem_singleton.1 hv).symm

theorem Replayed.adopt (h : Replayed count limit answers s) (same : σ → σ → Bool) (fp : UInt64)
    (state : σ) : Replayed count limit (answers ++ [(s.adopt same fp state).1])
      (s.adopt same fp state).2 := by
  have hadopts := s.adopts same fp state
  generalize s.adopt same fp state = r at hadopts
  cases hadopts with
  | @found v hfind =>
    apply h.keep rfl
    intro w isNew hw
    cases hw
    rw [h.holds.find?_eq] at hfind
    exact List.mem_of_find?_eq_some hfind
  | exhausted | crowded => exact h.keep rfl nofun
  | @added v after hfind hroom hfit hv hshards hbudget =>
    have hfp : v.fingerprint = fp := by rw [hv]
    subst hfp
    have ha := h.holds.filed.added (i := s.shardOf v.fingerprint) hfit (by rw [hv]) rfl hshards
      hbudget hroom
    have hmade : made (answers ++ [.ok (v, true)]) = made answers ++ [v] := by
      simp [made, newVertex]
    refine ⟨hmade ▸ h.holds.added ha hshards, fun hcount => ha.sound (h.sound hcount),
      ha.size_shards.trans h.size_shards, ha.limit.trans h.limit_eq, fun w isNew hw => ?_⟩
    rw [hmade]
    rcases List.mem_append.1 hw with hw | hw
    · exact List.mem_append_left _ (h.returned w isNew hw)
    · cases List.mem_singleton.1 hw
      exact List.mem_append_right _ (List.mem_singleton_self v)

theorem Replayed.replay (h : Replayed count limit answers s) (same : σ → σ → Bool)
    (calls : List (UInt64 × σ)) :
    Replayed count limit (answers ++ (replay same calls s).1) (replay same calls s).2 := by
  induction calls generalizing answers s with
  | nil => simpa [Store.replay] using h
  | cons call rest ih =>
    have hrest := ih (h.adopt same call.1 call.2)
    rw [List.append_assoc] at hrest
    exact hrest

def firstSame (same : σ → σ → Bool) (fp : UInt64) (state : σ) (made : List (Vertex σ)) :
    Option (Vertex σ) :=
  made.find? fun v => v.fingerprint == fp && same v.state state

theorem Replayed.answer_iff (h : Replayed count limit answers s) (same : σ → σ → Bool) (fp : UInt64)
    (state : σ) :
    let first := firstSame same fp state (made answers)
    let full := ∃ n, limit = some n ∧ n ≤ s.size
    let owned := (made answers).filter fun v =>
      owner (max count 1) v.fingerprint == owner (max count 1) fp
    (∀ v, s.adopt same fp state = (.ok (v, false), s) ↔ first = some v) ∧
    (s.adopt same fp state = (.error ⟨s.size⟩, s) ↔ first = none ∧ full) ∧
    (s.adopt same fp state = (.error ⟨s.size + 1⟩, s) ↔
      first = none ∧ ¬full ∧ UInt32.size ≤ owned.length) ∧
    ((∃ v after, s.adopt same fp state = (.ok (v, true), after) ∧ v.fingerprint = fp ∧
      v.state = state) ↔ first = none ∧ ¬full ∧ owned.length < UInt32.size) := by
  intro first full owned
  have hfirst : s.find? same fp state = first := h.holds.find?_eq same fp state
  have hfull : (∀ n, s.budget.limit = some n → s.size < n) ↔ ¬full := by
    simp [full, h.limit_eq]
  have howned : (s.shard (s.shardOf fp)).vertices.size = owned.length := by
    rw [← Array.length_toList, h.holds.shard _ _ (s.shard_eq _), ← owner_eq_shardOf, h.size_shards]
  have hadopts := s.adopts same fp state
  generalize s.adopt same fp state = r at hadopts
  cases hadopts with
  | found hfind =>
    rw [hfirst] at hfind
    simp [hfind]
  | exhausted hfind hlimit hle =>
    have hmet : full := ⟨_, h.limit_eq ▸ hlimit, hle⟩
    rw [hfirst] at hfind
    simp [hfind, hmet]
  | crowded hfind hroom hcrowd =>
    rw [hfirst] at hfind
    rw [howned] at hcrowd
    simp [hfind, hfull.1 hroom, hcrowd]
  | added hfind hroom hfit hv =>
    rw [hfirst] at hfind
    rw [howned] at hfit
    simp [hfind, hfull.1 hroom, hfit, hv]

/-- The store after any calls. A state with the fingerprint and the state of a vertex is answered by
the first such vertex. Any other is stored, unless as many are as the limit allows or its shard has no
slot left; then the store stays as it is. No vertex is lost, moved or changed, and a walk over the
store meets each once, in the order of handles. -/
theorem replay_firstWins {same : σ → σ → Bool} {calls : List (UInt64 × σ)}
    (h : replay same calls (ofShards count limit) = (answers, s)) :
    (∀ fp state,
      let first := firstSame same fp state (made answers)
      let full := ∃ n, limit = some n ∧ n ≤ s.size
      let owned := (made answers).filter fun v =>
        owner (max count 1) v.fingerprint == owner (max count 1) fp
      s.find? same fp state = first ∧
      (∀ v, s.adopt same fp state = (.ok (v, false), s) ↔ first = some v) ∧
      (s.adopt same fp state = (.error ⟨s.size⟩, s) ↔ first = none ∧ full) ∧
      (s.adopt same fp state = (.error ⟨s.size + 1⟩, s) ↔
        first = none ∧ ¬full ∧ UInt32.size ≤ owned.length) ∧
      ((∃ v after, s.adopt same fp state = (.ok (v, true), after) ∧ v.fingerprint = fp ∧
        v.state = state) ↔ first = none ∧ ¬full ∧ owned.length < UInt32.size)) ∧
    s.vertices.Perm (made answers) ∧
    s.size = s.vertices.length ∧
    s.collisions + (s.vertices.map (·.fingerprint)).toFinset.card = s.size ∧
    (count ≤ UInt32.size →
      (∀ v isNew, .ok (v, isNew) ∈ answers → s.get? v.handle = some v) ∧
      (s.vertices.map (·.handle)).Pairwise fun a b => compare a b = .lt ∧ a.toRaw < b.toRaw) := by
  have hr := (replayed_ofShards count limit).replay same calls
  rw [h] at hr
  simp only [List.nil_append] at hr
  refine ⟨fun fp state => ?_, hr.holds.perm, hr.holds.filed.used, ?_, fun hcount => ⟨?_, ?_⟩⟩
  · exact ⟨hr.holds.find?_eq same fp state, hr.answer_iff same fp state⟩
  · rw [List.toFinset_eq_of_perm _ _ (hr.holds.perm.map _), hr.holds.collisions,
      ← hr.holds.perm.length_eq]
    exact hr.holds.filed.used.symm
  · intro v isNew hv
    apply (hr.sound hcount).get?_eq_some.2
    exact ⟨hr.holds.perm.mem_iff.2 (hr.returned v isNew hv), rfl⟩
  · apply List.pairwise_map.2
    exact (hr.sound hcount).pairwise.imp fun hlt => ⟨Handle.toRaw_lt_iff.1 hlt, hlt⟩

/-- Numbers are the same if they end in the same digit. Two with one fingerprint fill the store; after
that a third that is the same as the first is found, and one that is not there is refused. -/
theorem replay_firstWins_lastDigit :
    let same := fun a b : Nat => a % 10 == b % 10
    ∃ answers s, replay same [(4, 1), (4, 2), (4, 11), (5, 7)] (ofShards 2 (some 2)) = (answers, s) ∧
      s.size = 2 ∧ s.collisions = 1 ∧
      (∃ v, v.handle = ⟨0, 0⟩ ∧ v.state = 1 ∧ s.adopt same 4 21 = (.ok (v, false), s)) ∧
      s.adopt same 5 7 = (.error ⟨2⟩, s) := by
  intro same
  let r := replay same [(4, 1), (4, 2), (4, 11), (5, 7)] (ofShards 2 (some 2))
  have hr : replay same [(4, 1), (4, 2), (4, 11), (5, 7)] (ofShards 2 (some 2)) = (r.1, r.2) :=
    Prod.mk.eta.symm
  obtain ⟨hcalls, -⟩ := replay_firstWins hr
  have hsize : r.2.size = 2 := by decide +kernel
  have hfirst : (firstSame same 4 21 (made r.1)).map (fun v => (v.handle, v.state)) =
      some (⟨0, 0⟩, 1) := by decide +kernel
  have hnone : (firstSame same 5 7 (made r.1)).isNone := by decide +kernel
  obtain ⟨v, hv, hstate⟩ := Option.map_eq_some_iff.1 hfirst
  obtain ⟨hhandle, hstate⟩ := Prod.mk.inj hstate
  refine ⟨r.1, r.2, hr, hsize, by decide +kernel, ⟨v, hhandle, hstate, ?_⟩, ?_⟩
  · exact ((hcalls 4 21).2.1 v).2 hv
  · have hfull := (hcalls 5 7).2.2.1.2 ⟨Option.isNone_iff_eq_none.1 hnone, 2, rfl, hsize.ge⟩
    rwa [hsize] at hfull

end Store

end ModelChecker
