import Mathlib.Data.List.Perm.Subperm
import Mathlib.Data.List.Nodup
import Mathlib.Order.Lattice
import ModelChecker.Search.Listener
import ModelChecker.Proofs.Explicit

namespace ModelChecker

variable {σ : Type}

theorem Handle.getD_insert {β : Type} (m : Std.TreeMap Handle β) (a b : Handle) (x y : β) :
    (m.insert a x).getD b y = if b = a then x else m.getD b y := by
  rw [Std.TreeMap.getD_insert]
  by_cases h : b = a
  · subst h
    rw [if_pos Std.ReflCmp.compare_self, if_pos rfl]
  · have hc : compare a b ≠ .eq := fun hc => h (Std.LawfulEqCmp.eq_of_compare hc).symm
    rw [if_neg hc, if_neg h]

theorem Budget.acquire_cases (b : Budget) :
    (∃ n, b.limit = some n ∧ n ≤ b.used ∧ b.acquire = (.error ⟨b.used⟩, b)) ∨
    ((∀ n, b.limit = some n → b.used < n) ∧
      b.acquire = (.ok (), { b with used := b.used + 1 })) := by
  unfold acquire
  by_cases hlimit : b.limit.any (· ≤ b.used)
  · obtain ⟨n, hn, hle⟩ := (Option.any_eq_true ..).1 hlimit
    exact .inl ⟨n, hn, of_decide_eq_true hle, by simp [hlimit, release]⟩
  · refine .inr ⟨fun n hn => ?_, by simp [hlimit]⟩
    simpa [hn] using hlimit

namespace Shard

structure Sound (s : Shard σ) : Prop where
  fits : s.vertices.size ≤ UInt32.size
  handle : ∀ (k : Nat) v, s.vertices[k]? = some v → v.handle = ⟨s.id, .ofNat k⟩
  index : ∀ fp, s.slots fp = (s.vertices.toList.filter (·.fingerprint == fp)).map (·.handle.slot)
  occupied : ∀ (fp : UInt64) bucket, s.index[fp]? = some bucket → bucket.slots ≠ []

variable {s : Shard σ}

theorem slots_append (v : Vertex σ) (fp : UInt64) :
    (s.append v).slots fp = s.slots fp ++ if v.fingerprint = fp then [v.handle.slot] else [] := by
  have hindex : (s.append v).index = s.index.insert v.fingerprint
    (s.index[v.fingerprint]?.elim (.one v.handle.slot) (·.push v.handle.slot)) := rfl
  rw [slots, hindex, Std.TreeMap.getElem?_insert]
  by_cases hfp : v.fingerprint = fp
  · subst hfp
    rw [if_pos Std.ReflCmp.compare_self, if_pos rfl, slots]
    cases s.index[v.fingerprint]? with
    | none => rfl
    | some bucket => cases bucket <;> simp [Bucket.push, Bucket.slots]
  · have hc : compare v.fingerprint fp ≠ .eq := fun hc => hfp (Std.LawfulEqCmp.eq_of_compare hc)
    rw [if_neg hc, if_neg hfp, List.append_nil, slots]

theorem Sound.getElem?_slot (h : s.Sound) {v : Vertex σ} (hv : v ∈ s.vertices.toList) :
    v.handle.shard = s.id ∧ s.vertices[v.handle.slot.toNat]? = some v := by
  obtain ⟨k, hk⟩ := List.mem_iff_getElem?.1 hv
  rw [Array.getElem?_toList] at hk
  have hlt : k < UInt32.size := by
    have hb := h.fits
    have hs := (Array.getElem?_eq_some_iff.1 hk).1
    omega
  rw [h.handle k v hk]
  exact ⟨rfl, by rwa [UInt32.toNat_ofNat_of_lt' hlt]⟩

theorem findSome?_slots {l : List (Vertex σ)} (p : Vertex σ → Bool)
    (get : UInt32 → Option (Vertex σ)) (h : ∀ v ∈ l, get v.handle.slot = some v) :
    (l.map (·.handle.slot)).findSome? (fun slot => (get slot).filter p) = l.find? p := by
  induction l with
  | nil => rfl
  | cons v rest ih =>
    have hr := ih fun w hw => h w (List.mem_cons_of_mem _ hw)
    rw [List.map_cons, List.findSome?_cons, h v List.mem_cons_self, Option.filter_some,
      List.find?_cons]
    cases p v with
    | true => rfl
    | false => exact hr

theorem Sound.find?_eq (h : s.Sound) (same : σ → σ → Bool) (fp : UInt64) (state : σ) :
    s.find? same fp state =
      (s.vertices.toList.filter (·.fingerprint == fp)).find? fun v => same v.state state := by
  unfold find?
  rw [h.index fp]
  apply findSome?_slots (fun v => same v.state state) (fun slot => s.vertices[slot.toNat]?)
  intro v hv
  exact (h.getElem?_slot (List.mem_of_mem_filter hv)).2

theorem Sound.append (h : s.Sound) {v : Vertex σ} (hfit : s.vertices.size < UInt32.size)
    (hv : v.handle = ⟨s.id, .ofNat s.vertices.size⟩) : (s.append v).Sound where
  fits := by
    change (s.vertices.push v).size ≤ _
    rw [Array.size_push]
    exact hfit
  handle k w hw := by
    change (s.vertices.push v)[k]? = some w at hw
    rw [Array.getElem?_push] at hw
    split at hw
    · rename_i hk
      cases hw
      rw [hk]
      exact hv
    · exact h.handle k w hw
  -- the new vertex comes last among those of its fingerprint
  index fp := by
    change (s.append v).slots fp =
      ((s.vertices.push v).toList.filter (·.fingerprint == fp)).map (·.handle.slot)
    rw [slots_append, h.index, Array.toList_push, List.filter_append, List.map_append]
    by_cases hfp : v.fingerprint = fp <;> simp [hfp]
  occupied fp bucket hb := by
    change (s.index.insert v.fingerprint _)[fp]? = some bucket at hb
    rw [Std.TreeMap.getElem?_insert] at hb
    split at hb
    · cases hb
      cases s.index[v.fingerprint]? with
      | none => simp [Bucket.slots]
      | some bucket => cases bucket <;> simp [Bucket.push, Bucket.slots]
    · exact h.occupied fp bucket hb

end Shard

namespace Store

/-- Every shard holds vertices that it owns and can look them up. -/
structure Filed (s : Store σ) : Prop where
  shard : ∀ (i : Nat) shard, s.shards[i]? = some shard → shard.Sound
  owned : ∀ (i : Nat) shard, s.shards[i]? = some shard →
    ∀ v ∈ shard.vertices.toList, owner s.shards.size v.fingerprint = i
  used : s.budget.used = s.vertices.length

/-- The shards are numbered as well, and so few that a handle names one of them. -/
structure Sound (s : Store σ) : Prop extends Filed s where
  few : s.shards.size ≤ UInt32.size
  id : ∀ (i : Nat) shard, s.shards[i]? = some shard → shard.id = .ofNat i

/-- `s'` holds one vertex more than `s`. -/
structure Added (s : Store σ) (v : Vertex σ) (s' : Store σ) : Prop where
  filed : s'.Filed
  sound : s.Sound → s'.Sound
  room : ∀ n, s.budget.limit = some n → s.size < n
  perm : s'.vertices.Perm (v :: s.vertices)
  limit : s'.budget.limit = s.budget.limit
  size_shards : s'.shards.size = s.shards.size

variable {s s' : Store σ}

theorem mem_vertices {v : Vertex σ} :
    v ∈ s.vertices ↔ ∃ (i : Nat) (shard : Shard σ), s.shards[i]? = some shard ∧
      v ∈ shard.vertices.toList := by
  unfold vertices
  rw [List.mem_flatMap]
  constructor
  · rintro ⟨shard, hs, hv⟩
    obtain ⟨i, hi⟩ := List.mem_iff_getElem?.1 hs
    exact ⟨i, shard, by rwa [Array.getElem?_toList] at hi, hv⟩
  · rintro ⟨i, shard, hi, hv⟩
    rw [← Array.getElem?_toList] at hi
    exact ⟨shard, List.mem_iff_getElem?.2 ⟨i, hi⟩, hv⟩

theorem Added.mem_iff (h : s.Added v s') {w : Vertex σ} :
    w ∈ s'.vertices ↔ w = v ∨ w ∈ s.vertices := by
  rw [h.perm.mem_iff, List.mem_cons]

theorem Added.size_eq (h : s.Added v s') (hs : s.Filed) : s'.size = s.size + 1 := by
  unfold size
  rw [h.filed.used, hs.used, h.perm.length_eq, List.length_cons]

theorem Filed.of_get? (h : s.Filed) {a : Handle} {v : Vertex σ} (hv : s.get? a = some v) :
    v ∈ s.vertices ∧ v.handle = a := by
  obtain ⟨shard, hs, hv⟩ := Option.bind_eq_some_iff.1 hv
  unfold Shard.get? at hv
  split at hv
  · rename_i hid
    refine ⟨mem_vertices.2 ⟨_, shard, hs, ?_⟩, ?_⟩
    · rw [← Array.getElem?_toList] at hv
      exact List.mem_of_getElem? hv
    · rw [(h.shard _ _ hs).handle _ _ hv, ← hid, UInt32.ofNat_toNat]
  · cases hv

theorem Sound.get?_eq_some (h : s.Sound) {a : Handle} {v : Vertex σ} :
    s.get? a = some v ↔ v ∈ s.vertices ∧ v.handle = a := by
  refine ⟨h.of_get?, ?_⟩
  rw [mem_vertices]
  rintro ⟨⟨i, shard, hs, hv⟩, rfl⟩
  obtain ⟨hid, hslot⟩ := (h.shard i shard hs).getElem?_slot hv
  -- the handle names the shard by its place, which fits into a word
  have hi : v.handle.shard.toNat = i := by
    have hlt := (Array.getElem?_eq_some_iff.1 hs).1
    rw [hid, h.id i shard hs, UInt32.toNat_ofNat_of_lt' (hlt.trans_le h.few)]
  refine Option.bind_eq_some_iff.2 ⟨shard, hi.symm ▸ hs, ?_⟩
  rw [Shard.get?, if_pos hid, hslot]

theorem Sound.eq_of_handle (h : s.Sound) {v w : Vertex σ} (hv : v ∈ s.vertices)
    (hw : w ∈ s.vertices) (he : v.handle = w.handle) : v = w := by
  have hgv := h.get?_eq_some.2 ⟨hv, rfl⟩
  have hgw := h.get?_eq_some.2 ⟨hw, rfl⟩
  rw [he, hgw] at hgv
  exact (Option.some.inj hgv).symm

theorem shard_eq (s : Store σ) (i : Fin s.shards.size) :
    s.shards[i.val]? = some (s.shard i) :=
  Array.getElem?_eq_getElem i.isLt

theorem Filed.find?_cases (h : s.Filed) (same : σ → σ → Bool) (fp : UInt64) (state : σ) :
    (∃ v ∈ s.vertices, v.fingerprint = fp ∧ same v.state state = true ∧
      s.find? same fp state = some v) ∨
    (s.find? same fp state = none ∧
      ∀ v ∈ s.vertices, v.fingerprint = fp → same v.state state = false) := by
  have hs := s.shard_eq (s.shardOf fp)
  unfold find?
  rw [(h.shard _ _ hs).find?_eq]
  cases hf : ((s.shard (s.shardOf fp)).vertices.toList.filter (·.fingerprint == fp)).find?
      fun v => same v.state state with
  | some v =>
    have hm := List.mem_filter.1 (List.mem_of_find?_eq_some hf)
    have hsame : same v.state state = true := by simpa using List.find?_some hf
    exact .inl ⟨v, mem_vertices.2 ⟨_, _, hs, hm.1⟩, by simpa using hm.2, hsame, rfl⟩
  | none =>
    refine .inr ⟨rfl, fun v hv hfp => ?_⟩
    obtain ⟨i, shard, hi, hm⟩ := mem_vertices.1 hv
    -- the owner of the fingerprint is the only shard that can hold the vertex
    have howner : i = (s.shardOf fp).val := by
      rw [← h.owned i shard hi v hm, hfp]
      rfl
    subst howner
    rw [hi] at hs
    cases hs
    have hnone := List.find?_eq_none.1 hf v (List.mem_filter.2 ⟨hm, by simpa using hfp⟩)
    simpa using hnone

theorem flatMap_modify_perm {l : List (Shard σ)} {i : Nat} {shard : Shard σ} {v : Vertex σ}
    (h : l[i]? = some shard) :
    ((l.modify i (·.append v)).flatMap (·.vertices.toList)).Perm
      (v :: l.flatMap (·.vertices.toList)) := by
  induction l generalizing i with
  | nil => cases h
  | cons s rest ih =>
    cases i with
    | zero =>
      rw [List.modify_zero_cons, List.flatMap_cons, List.flatMap_cons]
      change ((s.vertices.push v).toList ++ _).Perm _
      rw [Array.toList_push, List.append_assoc, List.singleton_append]
      exact List.perm_middle
    | succ i =>
      rw [List.modify_succ_cons, List.flatMap_cons, List.flatMap_cons]
      exact ((ih h).append_left _).trans List.perm_middle

/-- The store that an insertion of a new vertex leaves. -/
theorem Filed.added (h : s.Filed) {i : Fin s.shards.size} {v : Vertex σ} {after : Store σ}
    (hfit : (s.shard i).vertices.size < UInt32.size)
    (hv : v.handle = ⟨(s.shard i).id, .ofNat (s.shard i).vertices.size⟩)
    (howner : owner s.shards.size v.fingerprint = i)
    (hshards : after.shards = s.shards.modify i (·.append v))
    (hbudget : after.budget = { s.budget with used := s.budget.used + 1 })
    (hroom : ∀ n, s.budget.limit = some n → s.size < n) : s.Added v after := by
  have hsize : after.shards.size = s.shards.size := by rw [hshards, Array.size_modify]
  have hperm : after.vertices.Perm (v :: s.vertices) := by
    unfold vertices
    rw [hshards, Array.toList_modify]
    exact flatMap_modify_perm (Array.getElem?_toList .. ▸ s.shard_eq i)
  -- a shard of the new store is the one that was appended to, or an old one
  have hget : ∀ (k : Nat) shard, after.shards[k]? = some shard →
      (k = i.val ∧ shard = (s.shard i).append v) ∨ s.shards[k]? = some shard := by
    intro k shard hk
    rw [hshards, Array.getElem?_modify] at hk
    split at hk
    · rename_i hik
      subst hik
      rw [s.shard_eq i] at hk
      cases hk
      exact .inl ⟨rfl, rfl⟩
    · exact .inr hk
  have hfiled : after.Filed := by
    refine ⟨fun k shard hk => ?_, fun k shard hk w hw => ?_, ?_⟩
    · rcases hget k shard hk with ⟨rfl, rfl⟩ | hk
      · exact (h.shard _ _ (s.shard_eq i)).append hfit hv
      · exact h.shard k shard hk
    · rw [hsize]
      rcases hget k shard hk with ⟨rfl, rfl⟩ | hk
      · change w ∈ ((s.shard i).vertices.push v).toList at hw
        rw [Array.toList_push, List.mem_append, List.mem_singleton] at hw
        rcases hw with hw | rfl
        · exact h.owned _ _ (s.shard_eq i) w hw
        · exact howner
      · exact h.owned k shard hk w hw
    · rw [hbudget, hperm.length_eq, List.length_cons, h.used]
  refine ⟨hfiled, fun hs => ⟨hfiled, hsize ▸ hs.few, fun k shard hk => ?_⟩, hroom, hperm,
    by rw [hbudget], hsize⟩
  rcases hget k shard hk with ⟨rfl, rfl⟩ | hk
  · exact hs.id _ (s.shard i) (s.shard_eq i)
  · exact hs.id k shard hk

/-- All that can become of a state that is to be stored. If it cannot be, the store is as before. -/
inductive Adopts (s : Store σ) (same : σ → σ → Bool) (fp : UInt64) (state : σ) :
    Except Exhausted (Vertex σ × Bool) × Store σ → Prop where
  | found {v} (hfind : s.find? same fp state = some v) : Adopts s same fp state (.ok (v, false), s)
  | exhausted {n} (hfind : s.find? same fp state = none) (hlimit : s.budget.limit = some n)
    (hle : n ≤ s.size) : Adopts s same fp state (.error ⟨s.size⟩, s)
  | crowded (hfind : s.find? same fp state = none)
    (hroom : ∀ n, s.budget.limit = some n → s.size < n)
    (hfull : UInt32.size ≤ (s.shard (s.shardOf fp)).vertices.size) :
    Adopts s same fp state (.error ⟨s.size + 1⟩, s)
  | added {v after} (hfind : s.find? same fp state = none)
    (hroom : ∀ n, s.budget.limit = some n → s.size < n)
    (hfit : (s.shard (s.shardOf fp)).vertices.size < UInt32.size)
    (hv : v = ⟨⟨(s.shard (s.shardOf fp)).id, .ofNat (s.shard (s.shardOf fp)).vertices.size⟩, fp, state⟩)
    (hshards : after.shards = s.shards.modify (s.shardOf fp) (·.append v))
    (hbudget : after.budget = { s.budget with used := s.budget.used + 1 }) :
    Adopts s same fp state (.ok (v, true), after)

theorem adopts (s : Store σ) (same : σ → σ → Bool) (fp : UInt64) (state : σ) :
    s.Adopts same fp state (s.adopt same fp state) := by
  unfold adopt adoptAt Shard.propose
  cases hfind : s.find? same fp state with
  | some v =>
    rw [find?] at hfind
    simp only [hfind]
    exact .found hfind
  | none =>
    have hfind' := hfind
    rw [find?] at hfind'
    simp only [hfind']
    -- the limit is checked before the room in the shard
    rcases s.budget.acquire_cases with ⟨n, hlimit, hle, hb⟩ | ⟨hroom, hb⟩
    · simp only [hb]
      exact .exhausted hfind hlimit hle
    · simp only [hb]
      by_cases hfit : (s.shard (s.shardOf fp)).vertices.size < UInt32.size
      · simp only [if_pos hfit]
        exact .added hfind hroom hfit rfl rfl rfl
      · simp only [if_neg hfit]
        exact .crowded hfind hroom (Nat.le_of_not_lt hfit)

/-- An insertion finds a vertex, adds one, or fails because the store is full. -/
theorem Filed.insert_cases (h : s.Filed) (same : σ → σ → Bool) (fp : UInt64) (state : σ) :
    (∃ v ∈ s.vertices, v.fingerprint = fp ∧ same v.state state = true ∧
      s.insert same fp state = .ok ⟨v, false, s⟩) ∨
    ((∀ v ∈ s.vertices, v.fingerprint = fp → same v.state state = false) ∧
      ((∃ v after, s.insert same fp state = .ok ⟨v, true, after⟩ ∧ v.fingerprint = fp ∧
        v.state = state ∧ s.Added v after) ∨
      ∃ e, s.insert same fp state = .error e ∧
        ((∃ n, s.budget.limit = some n ∧ n ≤ s.size ∧ e = ⟨s.size⟩) ∨
          UInt32.size ≤ s.vertices.length))) := by
  have hadopts := s.adopts same fp state
  unfold adopt at hadopts
  unfold insert insertAt
  generalize s.adoptAt (s.shardOf fp) same fp state = r at hadopts
  rcases h.find?_cases same fp state with ⟨v, hv, hfp, hsame, hf⟩ | ⟨hf, habsent⟩
  · refine .inl ⟨v, hv, hfp, hsame, ?_⟩
    cases hadopts with
    | found hfind =>
      cases hf.symm.trans hfind
      rfl
    | exhausted hfind | crowded hfind | added hfind => cases hf.symm.trans hfind
  · refine .inr ⟨habsent, ?_⟩
    cases hadopts with
    | found hfind => cases hf.symm.trans hfind
    | exhausted hfind hlimit hle => exact .inr ⟨_, rfl, .inl ⟨_, hlimit, hle, rfl⟩⟩
    | crowded hfind hroom hfull =>
      refine .inr ⟨_, rfl, .inr ?_⟩
      -- a full shard has all slots of 32 bits taken
      have hle : (s.shard (s.shardOf fp)).vertices.toList.length ≤ s.vertices.length := by
        have hs : s.shard (s.shardOf fp) ∈ s.shards.toList := by
          rw [Array.mem_toList_iff]
          exact Array.mem_of_getElem? (s.shard_eq _)
        obtain ⟨a, b, hab⟩ := List.append_of_mem hs
        rw [vertices, hab, List.flatMap_append, List.flatMap_cons, List.length_append,
          List.length_append]
        omega
      rw [Array.length_toList] at hle
      omega
    | @added v after hfind hroom hfit hv hshards hbudget =>
      refine .inl ⟨v, after, rfl, by rw [hv], by rw [hv], ?_⟩
      exact h.added (i := s.shardOf fp) hfit (by rw [hv]) (by rw [hv]; rfl) hshards hbudget hroom

/-- A store of states that are told apart by equality: no state is stored twice. -/
structure Distinct (sys : System σ) (s : Store σ) : Prop where
  filed : s.Filed
  fingerprint : ∀ v ∈ s.vertices, v.fingerprint = sys.fingerprint v.state
  nodup : (s.vertices.map (·.state)).Nodup

/-- A store of distinct states whose handles name them. -/
structure Canonical (sys : System σ) (s : Store σ) : Prop extends Distinct sys s where
  sound : s.Sound

variable {sys : System σ}

theorem Distinct.eq_of_state (h : s.Distinct sys) {v w : Vertex σ} (hv : v ∈ s.vertices)
    (hw : w ∈ s.vertices) (he : v.state = w.state) : v = w :=
  List.inj_on_of_nodup_map h.nodup hv hw he

theorem Canonical.eq_of_handle (h : s.Canonical sys) {v w : Vertex σ} (hv : v ∈ s.vertices)
    (hw : w ∈ s.vertices) (he : v.handle = w.handle) : v = w :=
  h.sound.eq_of_handle hv hw he

theorem Distinct.size_eq (h : s.Distinct sys) : s.size = s.vertices.length :=
  h.filed.used

theorem Distinct.added (h : s.Distinct sys) {v : Vertex σ} (ha : s.Added v s')
    (hfp : v.fingerprint = sys.fingerprint v.state) (hnew : ∀ u ∈ s.vertices, u.state ≠ v.state) :
    s'.Distinct sys where
  filed := ha.filed
  fingerprint w hw := by
    rcases ha.mem_iff.1 hw with rfl | hw
    · exact hfp
    · exact h.fingerprint w hw
  nodup := by
    rw [(ha.perm.map _).nodup_iff, List.map_cons, List.nodup_cons]
    refine ⟨fun hm => ?_, h.nodup⟩
    obtain ⟨u, hu, he⟩ := List.mem_map.1 hm
    exact hnew u hu he

theorem Added.handle_ne {v w : Vertex σ} (ha : s.Added v s') (hc : s'.Canonical sys)
    (hw : w ∈ s.vertices) : w.handle ≠ v.handle := by
  intro he
  obtain rfl := hc.eq_of_handle (ha.mem_iff.2 (.inr hw)) (ha.mem_iff.2 (.inl rfl)) he
  have hn := (ha.perm.map (·.state)).nodup_iff.1 hc.nodup
  exact (List.nodup_cons.1 hn).1 (List.mem_map_of_mem hw)

def Within (sys : System σ) (s : Store σ) : Prop :=
  ∀ v ∈ s.vertices, v.state ∈ sys.initials ∨ ∃ a, ∃ n ∈ sys.successors a, n.1 = v.state

/-- Storing a state of an explicit system finds its vertex, adds one, or meets the limit. -/
theorem Distinct.store_cases (h : s.Distinct sys) (hx : sys.Explicit) (x : σ) :
    (∃ v ∈ s.vertices, v.state = x ∧ sys.store s x = .ok ⟨v, false, s⟩) ∨
    (∃ v after, sys.store s x = .ok ⟨v, true, after⟩ ∧ v.state = x ∧
      (∀ u ∈ s.vertices, u.state ≠ x) ∧ s.Added v after ∧ after.Distinct sys) ∨
    (∃ n, s.budget.limit = some n ∧ n ≤ s.size ∧ sys.store s x = .error ⟨s.size⟩) := by
  unfold System.store
  rcases h.filed.insert_cases sys.same (sys.fingerprint x) x with
    ⟨v, hv, -, hsame, hi⟩ | ⟨habsent, hadd⟩
  · exact .inl ⟨v, hv, (hx.same_iff _ _).1 hsame, hi⟩
  · have hnew : ∀ u ∈ s.vertices, u.state ≠ x := by
      rintro u hu rfl
      have hf := habsent u hu (h.fingerprint u hu)
      rw [(hx.same_iff _ _).2 rfl] at hf
      cases hf
    rcases hadd with ⟨v, after, hi, hfp, rfl, ha⟩ | ⟨e, hi, ⟨n, hn, hle, rfl⟩ | hfull⟩
    · exact .inr (.inl ⟨v, after, hi, rfl, hnew, ha, h.added ha hfp hnew⟩)
    · exact .inr (.inr ⟨n, hn, hle, hi⟩)
    · -- with `x` there would be more states than words of 32 bits
      have hnodup : (x :: s.vertices.map (·.state)).Nodup := by
        refine List.nodup_cons.2 ⟨fun hm => ?_, h.nodup⟩
        obtain ⟨u, hu, he⟩ := List.mem_map.1 hm
        exact hnew u hu he
      have hlen := hx.word _ hnodup
      rw [List.length_cons, List.length_map] at hlen
      omega

theorem Canonical.store_cases (h : s.Canonical sys) (hx : sys.Explicit) (x : σ) :
    (∃ v ∈ s.vertices, v.state = x ∧ sys.store s x = .ok ⟨v, false, s⟩) ∨
    (∃ v after, sys.store s x = .ok ⟨v, true, after⟩ ∧ v.state = x ∧
      (∀ u ∈ s.vertices, u.state ≠ x) ∧ s.Added v after ∧ after.Canonical sys) ∨
    (∃ n, s.budget.limit = some n ∧ n ≤ s.size ∧ sys.store s x = .error ⟨s.size⟩) := by
  rcases h.toDistinct.store_cases hx x with hf | ⟨v, after, hs, hv, hnew, ha, hd⟩ | he
  · exact .inl hf
  · exact .inr (.inl ⟨v, after, hs, hv, hnew, ha, hd, ha.sound h.sound⟩)
  · exact .inr (.inr he)

/-- What storing a state leaves: its vertex `v`, which is new or was found. -/
structure Stored (sys : System σ) (s : Store σ) (x : σ) (v : Vertex σ) (isNew : Bool)
    (s' : Store σ) : Prop where
  state : v.state = x
  mem : v ∈ s'.vertices
  canonical : s'.Canonical sys
  limit : s'.budget.limit = s.budget.limit
  grows : ∀ w ∈ s.vertices, w ∈ s'.vertices
  origin : ∀ w ∈ s'.vertices, w = v ∨ w ∈ s.vertices
  found : isNew = false → s' = s
  added : isNew = true → s.Added v s'

theorem Canonical.stored (h : s.Canonical sys) (hx : sys.Explicit) {x : σ} {v : Vertex σ}
    {isNew : Bool} (hs : sys.store s x = .ok ⟨v, isNew, s'⟩) : Stored sys s x v isNew s' := by
  rcases h.store_cases hx x with ⟨w, hw, hwx, hf⟩ | ⟨w, after, ha, hwx, -, hadd, hc⟩ | ⟨n, -, -, he⟩
  · cases hs.symm.trans hf
    exact ⟨hwx, hw, h, rfl, fun _ hu => hu, fun _ hu => .inr hu, fun _ => rfl, nofun⟩
  · cases hs.symm.trans ha
    exact ⟨hwx, hadd.mem_iff.2 (.inl rfl), hc, hadd.limit, fun _ hu => hadd.mem_iff.2 (.inr hu),
      fun _ hu => hadd.mem_iff.1 hu, nofun, fun _ => hadd⟩
  · cases hs.symm.trans he

theorem Stored.within {a : σ} {n : Successor σ} {v : Vertex σ} {isNew : Bool}
    (h : Stored sys s n.1 v isNew s') (hs : s.Within sys) (hn : n ∈ sys.successors a) :
    s'.Within sys := by
  intro w hw
  rcases h.origin w hw with rfl | hw
  · exact .inr ⟨a, n, hn, h.state.symm⟩
  · exact hs w hw

theorem Stored.ne_of_mem {x : σ} {v w : Vertex σ} (h : Stored sys s x v true s')
    (hw : w ∈ s.vertices) : w ≠ v := by
  rintro rfl
  exact (h.added rfl).handle_ne h.canonical hw rfl

theorem Canonical.limit_of_error (h : s.Canonical sys) (hx : sys.Explicit) {x : σ} {e : Exhausted}
    (he : sys.store s x = .error e) : s.budget.limit ≠ none := by
  rcases h.store_cases hx x with ⟨w, -, -, hs⟩ | ⟨w, after, hs, -⟩ | ⟨n, hn, -⟩
  · cases he.symm.trans hs
  · cases he.symm.trans hs
  · intro hno
    cases hn.symm.trans hno

theorem Canonical.find?_eq_some (h : s.Canonical sys) (hx : sys.Explicit) {x : σ} {v : Vertex σ} :
    s.find? sys.same (sys.fingerprint x) x = some v ↔ v ∈ s.vertices ∧ v.state = x := by
  rcases h.filed.find?_cases sys.same (sys.fingerprint x) x with
    ⟨w, hw, -, hsame, hf⟩ | ⟨hf, habsent⟩
  · have hwx := (hx.same_iff _ _).1 hsame
    rw [hf, Option.some.injEq]
    constructor
    · rintro rfl
      exact ⟨hw, hwx⟩
    · rintro ⟨hv, hvx⟩
      exact h.eq_of_state hw hv (hwx.trans hvx.symm)
  · rw [hf]
    constructor
    · intro hn
      cases hn
    · rintro ⟨hv, rfl⟩
      have hn := habsent v hv (h.fingerprint v hv)
      rw [(hx.same_iff _ _).2 rfl] at hn
      cases hn

theorem Distinct.length_le (h : s.Distinct sys) {u : List σ}
    (hu : ∀ v ∈ s.vertices, v.state ∈ u) : s.vertices.length ≤ u.length := by
  have hsub : s.vertices.map (·.state) ⊆ u := by
    intro x hm
    obtain ⟨v, hv, rfl⟩ := List.mem_map.1 hm
    exact hu v hv
  simpa using (List.subperm_of_subset h.nodup hsub).length_le

theorem Within.length_le (h : s.Within sys) (hc : s.Distinct sys) (hx : sys.Explicit) :
    s.vertices.length ≤ sys.extent := by
  obtain ⟨u, hu, hinit, hsucc⟩ := hx.listed
  rw [← hu]
  refine hc.length_le fun v hv => ?_
  rcases h v hv with hi | ⟨a, n, hn, hnv⟩
  · exact hinit _ hi
  · exact hnv ▸ hsucc a n hn

theorem Distinct.length_lt_word (h : s.Distinct sys) (hx : sys.Explicit) :
    s.vertices.length ≤ UInt32.size := by
  simpa using hx.word _ h.nodup

/-- What storing a list of states leaves. A vertex is new if neither the store nor the list before
it has its state. -/
structure Resolved (sys : System σ) (states : List σ) (s : Store σ) (vs : List (Vertex σ × Bool))
    (s' : Store σ) : Prop where
  canonical : s'.Canonical sys
  limit : s'.budget.limit = s.budget.limit
  states_eq : vs.map (·.1.state) = states
  mem : ∀ v ∈ vs, v.1 ∈ s'.vertices
  grows : ∀ v ∈ s.vertices, v ∈ s'.vertices
  origin : ∀ v ∈ s'.vertices, v ∈ s.vertices ∨ v.state ∈ states
  size_shards : s'.shards.size = s.shards.size
  size_le : ∀ n, s.budget.limit = some n → s.size ≤ n → s'.size ≤ n
  isNew_iff : ∀ before v b rest, vs = before ++ (v, b) :: rest →
    (b = true ↔ (∀ u ∈ s.vertices, u.state ≠ v.state) ∧ ∀ u ∈ before, u.1.state ≠ v.state)

theorem Resolved.nil (h : s.Canonical sys) : Resolved sys [] s [] s where
  canonical := h
  limit := rfl
  states_eq := rfl
  mem _ hv := absurd hv List.not_mem_nil
  grows _ hv := hv
  origin _ hv := .inl hv
  size_shards := rfl
  size_le _ _ hle := hle
  isNew_iff before _ _ _ hvs := by simp at hvs

theorem Resolved.found {states : List σ} {vs : List (Vertex σ × Bool)} {v : Vertex σ}
    (h : Resolved sys states s vs s') (hv : v ∈ s.vertices) :
    Resolved sys (v.state :: states) s ((v, false) :: vs) s' where
  canonical := h.canonical
  limit := h.limit
  states_eq := by rw [List.map_cons, h.states_eq]
  mem u hu := by
    rcases List.mem_cons.1 hu with rfl | hu
    · exact h.grows v hv
    · exact h.mem u hu
  grows := h.grows
  origin u hu := (h.origin u hu).imp_right (List.mem_cons_of_mem _)
  size_shards := h.size_shards
  size_le := h.size_le
  isNew_iff before u b rest hvs := by
    cases before with
    | nil =>
      cases hvs
      exact iff_of_false Bool.false_ne_true fun hx => hx.1 v hv rfl
    | cons x before =>
      obtain ⟨rfl, hrest⟩ := List.cons.inj hvs
      rw [h.isNew_iff before u b rest hrest, List.forall_mem_cons]
      exact ⟨fun ⟨ha, hb⟩ => ⟨ha, ha v hv, hb⟩, fun ⟨ha, _, hb⟩ => ⟨ha, hb⟩⟩

/-- The first state is added. -/
theorem Resolved.added {states : List σ} {vs : List (Vertex σ × Bool)} {v : Vertex σ}
    {after : Store σ} (h : Resolved sys states after vs s') (ha : s.Added v after) (hs : s.Filed)
    (hnew : ∀ u ∈ s.vertices, u.state ≠ v.state) :
    Resolved sys (v.state :: states) s ((v, true) :: vs) s' where
  canonical := h.canonical
  limit := h.limit.trans ha.limit
  states_eq := by rw [List.map_cons, h.states_eq]
  mem u hu := by
    rcases List.mem_cons.1 hu with rfl | hu
    · exact h.grows v (ha.mem_iff.2 (.inl rfl))
    · exact h.mem u hu
  grows u hu := h.grows u (ha.mem_iff.2 (.inr hu))
  origin u hu := by
    rcases h.origin u hu with hu | hu
    · rcases ha.mem_iff.1 hu with rfl | hu
      · exact .inr List.mem_cons_self
      · exact .inl hu
    · exact .inr (List.mem_cons_of_mem _ hu)
  size_shards := h.size_shards.trans ha.size_shards
  size_le n hn _ := h.size_le n (ha.limit.trans hn) (ha.size_eq hs ▸ ha.room n hn)
  isNew_iff before u b rest hvs := by
    cases before with
    | nil =>
      cases hvs
      exact iff_of_true rfl ⟨hnew, fun x hx => absurd hx List.not_mem_nil⟩
    | cons x before =>
      obtain ⟨rfl, hrest⟩ := List.cons.inj hvs
      rw [h.isNew_iff before u b rest hrest, List.forall_mem_cons]
      -- for the seeds after it, the first state is now one that is stored
      constructor
      · rintro ⟨hs, hb⟩
        exact ⟨fun w hw => hs w (ha.mem_iff.2 (.inr hw)), hs v (ha.mem_iff.2 (.inl rfl)), hb⟩
      · rintro ⟨hs, hv, hb⟩
        refine ⟨fun w hw => ?_, hb⟩
        rcases ha.mem_iff.1 hw with rfl | hw
        · exact hv
        · exact hs w hw

theorem Canonical.resolve_cases (h : s.Canonical sys) (hx : sys.Explicit) (states : List σ) :
    (∃ vs s', sys.resolve states s = .ok (vs, s') ∧ Resolved sys states s vs s') ∨
    (∃ n e s', s.budget.limit = some n ∧ sys.resolve states s = .error (e, s')) := by
  induction states generalizing s with
  | nil => exact .inl ⟨[], s, rfl, .nil h⟩
  | cons x rest ih =>
    rcases h.store_cases hx x with ⟨v, hv, rfl, hs⟩ | ⟨v, after, hs, rfl, hnew, ha, hc⟩ |
      ⟨n, hn, -, hs⟩
    · rcases ih h with ⟨vs, s', hr, hres⟩ | ⟨n, e, s', hn, hr⟩
      · exact .inl ⟨_, s', by simp only [System.resolve, hs, hr, Except.map], hres.found hv⟩
      · exact .inr ⟨n, e, s', hn, by simp only [System.resolve, hs, hr, Except.map]⟩
    · rcases ih hc with ⟨vs, s', hr, hres⟩ | ⟨n, e, s', hn, hr⟩
      · exact .inl ⟨_, s', by simp only [System.resolve, hs, hr, Except.map], hres.added ha h.filed hnew⟩
      · exact .inr ⟨n, e, s', ha.limit ▸ hn, by simp only [System.resolve, hs, hr, Except.map]⟩
    · exact .inr ⟨n, ⟨s.size⟩, s, hn, by simp only [System.resolve, hs]⟩

theorem vertices_ofShards (count : Nat) (limit : Option Nat) :
    (ofShards count limit : Store σ).vertices = [] := by
  unfold vertices
  rw [List.flatMap_eq_nil_iff]
  intro shard hs
  rw [Array.mem_toList_iff, ofShards, Array.mem_ofFn] at hs
  obtain ⟨i, rfl⟩ := hs
  rfl

theorem shard_ofShards {count : Nat} {limit : Option Nat} {i : Nat} {shard : Shard σ}
    (h : (ofShards count limit : Store σ).shards[i]? = some shard) :
    shard = { id := .ofNat i } := by
  rw [ofShards, Array.getElem?_ofFn] at h
  split at h
  · cases h
    rfl
  · cases h

theorem filed_ofShards (count : Nat) (limit : Option Nat) :
    (ofShards count limit : Store σ).Filed := by
  refine ⟨fun i shard hs => ?_, fun i shard hs v hv => ?_, ?_⟩
  · rw [shard_ofShards hs]
    refine ⟨Nat.zero_le _, fun k v hv => ?_, fun fp => ?_, fun fp bucket hb => ?_⟩
    · simp at hv
    · simp [Shard.slots]
    · simp at hb
  · rw [shard_ofShards hs] at hv
    cases hv
  · rw [vertices_ofShards]
    rfl

theorem sound_ofShards {count : Nat} (limit : Option Nat) (hc : count ≤ UInt32.size) :
    (ofShards count limit : Store σ).Sound := by
  refine ⟨filed_ofShards count limit, ?_, fun i shard hs => by rw [shard_ofShards hs]⟩
  rw [ofShards, Array.size_ofFn]
  exact max_le hc (by decide)

theorem distinct_ofShards (sys : System σ) (count : Nat) (limit : Option Nat) :
    (ofShards count limit : Store σ).Distinct sys := by
  have hnil := vertices_ofShards (σ := σ) count limit
  refine ⟨filed_ofShards count limit, fun v hv => ?_, ?_⟩
  · rw [hnil] at hv
    cases hv
  · rw [hnil]
    exact List.nodup_nil

theorem canonical_ofShards (sys : System σ) (count : Nat) (limit : Option Nat)
    (hc : count ≤ UInt32.size) : (ofShards count limit : Store σ).Canonical sys :=
  ⟨distinct_ofShards sys count limit, sound_ofShards limit hc⟩

end Store

end ModelChecker
