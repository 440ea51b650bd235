import ModelChecker.Trace.Parent
import ModelChecker.Proofs.Store

namespace ModelChecker

variable {σ : Type}

/-- Parents lead from `v` to the vertices of the list, in its order, and the last has none. -/
inductive Ancestry (store : Store σ) (parentOf : Handle → Parent) :
    Vertex σ → List (Vertex σ) → Prop where
  | root {v : Vertex σ} (h : parentOf v.handle = .root) : Ancestry store parentOf v []
  | step {v u : Vertex σ} {rest : List (Vertex σ)} (hv : parentOf v.handle = .vertex u.handle)
    (hu : u ∈ store.vertices) (h : Ancestry store parentOf u rest) :
    Ancestry store parentOf v (u :: rest)

namespace Ancestry

variable {store store' : Store σ} {parentOf parentOf' : Handle → Parent} {v w t : Vertex σ}
  {path path' : List (Vertex σ)}

theorem mem_vertices (h : Ancestry store parentOf v path) : ∀ w ∈ path, w ∈ store.vertices := by
  induction h with
  | root => exact fun w hw => absurd hw List.not_mem_nil
  | step _ hu _ ih => exact List.forall_mem_cons.2 ⟨hu, ih⟩

theorem unique (hs : store.Sound) (h : Ancestry store parentOf v path)
    (h' : Ancestry store parentOf v path') : path = path' := by
  induction h generalizing path' with
  | root hv =>
    cases h' with
    | root => rfl
    | step hv' => cases hv.symm.trans hv'
  | step hv hu _ ih =>
    cases h' with
    | root hv' => cases hv.symm.trans hv'
    | step hv' hu' h' =>
      obtain rfl := hs.eq_of_handle hu hu' (Parent.vertex.inj (hv.symm.trans hv'))
      rw [ih h']

theorem of_mem (h : Ancestry store parentOf v path) (hw : w ∈ path) :
    ∃ rest, Ancestry store parentOf w rest ∧ rest.length < path.length := by
  induction h with
  | root => cases hw
  | @step v u rest _ _ h ih =>
    rcases List.mem_cons.1 hw with rfl | hw
    · exact ⟨rest, h, Nat.lt_succ_self _⟩
    · obtain ⟨rest', h', hlt⟩ := ih hw
      exact ⟨rest', h', Nat.lt_succ_of_lt hlt⟩

theorem nodup (hs : store.Sound) (h : Ancestry store parentOf v path) : (v :: path).Nodup := by
  induction h with
  | root => exact List.nodup_singleton _
  | step hv hu h ih =>
    refine List.nodup_cons.2 ⟨fun hm => ?_, ih⟩
    -- a vertex among its ancestors would have an ancestry shorter than its own
    obtain ⟨rest', h', hlt⟩ := (step hv hu h).of_mem hm
    rw [h'.unique hs (step hv hu h)] at hlt
    exact Nat.lt_irrefl _ hlt

theorem climb_eq (hs : store.Sound) (h : Ancestry store parentOf v path) {n : Nat}
    (hn : path.length ≤ n) (below : List (Vertex σ)) :
    climb store parentOf n v below = .ok (path.reverse ++ v :: below) := by
  induction h generalizing n below with
  | root hv =>
    unfold climb
    rw [hv]
    rfl
  | @step v u rest hv hu _ ih =>
    obtain ⟨k, rfl⟩ := Nat.exists_eq_add_of_le' (Nat.le_trans (Nat.succ_pos _) hn)
    unfold climb
    simp only [hv, hs.get?_eq_some.2 ⟨hu, rfl⟩]
    rw [ih (Nat.le_of_succ_le_succ hn), List.reverse_cons, List.append_assoc]
    rfl

theorem length_lt (hs : store.Sound) (hv : v ∈ store.vertices)
    (h : Ancestry store parentOf v path) : path.length < store.size := by
  have hsub : v :: path ⊆ store.vertices := List.cons_subset.2 ⟨hv, h.mem_vertices⟩
  have hle := (List.subperm_of_subset (h.nodup hs) hsub).length_le
  rw [List.length_cons] at hle
  rw [Store.size, hs.used]
  omega

theorem pathTo_eq (hs : store.Sound) (hv : v ∈ store.vertices)
    (h : Ancestry store parentOf v path) :
    pathTo store parentOf v = .ok (path.reverse ++ [v]) :=
  h.climb_eq hs (Nat.le_sub_one_of_lt (h.length_lt hs hv)) []

theorem of_handle (h : Ancestry store parentOf v path) (hw : w.handle = v.handle) :
    Ancestry store parentOf w path := by
  cases h with
  | root hv => exact .root (hw ▸ hv)
  | step hv hu h => exact .step (hw ▸ hv) hu h

theorem frame (h : Ancestry store parentOf v path)
    (hp : ∀ w ∈ v :: path, parentOf' w.handle = parentOf w.handle)
    (hsub : ∀ w ∈ store.vertices, w ∈ store'.vertices) : Ancestry store' parentOf' v path := by
  induction h with
  | root hv => exact .root ((hp _ List.mem_cons_self).trans hv)
  | step hv hu _ ih =>
    exact .step ((hp _ List.mem_cons_self).trans hv) (hsub _ hu)
      (ih fun w hw => hp w (List.mem_cons_of_mem _ hw))

theorem redirect (h : Ancestry store parentOf v path) (ht : Ancestry store' parentOf' t path')
    (hp : ∀ a, a ≠ t.handle → parentOf' a = parentOf a)
    (hsub : ∀ w ∈ store.vertices, w ∈ store'.vertices) :
    ∃ path, Ancestry store' parentOf' v path := by
  induction h with
  | @root v hv =>
    by_cases hvt : v.handle = t.handle
    · exact ⟨_, ht.of_handle hvt⟩
    · exact ⟨[], .root ((hp _ hvt).trans hv)⟩
  | @step v u rest hv hu _ ih =>
    by_cases hvt : v.handle = t.handle
    · exact ⟨_, ht.of_handle hvt⟩
    · obtain ⟨path, hpath⟩ := ih
      exact ⟨_, .step ((hp _ hvt).trans hv) (hsub u hu) hpath⟩

end Ancestry

def Store.Addressed (store : Store σ) : Prop :=
  ∀ v ∈ store.vertices, Parent.ofHandle v.handle = .vertex v.handle

/-- Two states do not belong to the last of as many shards as there can be. -/
def System.Spread (sys : System σ) : Prop :=
  ∃ a b, a ≠ b ∧ Store.owner UInt32.size (sys.fingerprint a) ≠ UInt32.size - 1 ∧
    Store.owner UInt32.size (sys.fingerprint b) ≠ UInt32.size - 1

/-- The two handles that a parent cannot point to are the last ones of the last shard, and no
vertex gets that far. -/
theorem Store.Canonical.addressed {sys : System σ} {store : Store σ} (h : store.Canonical sys)
    (hx : sys.Explicit) (hspread : sys.Spread) : store.Addressed := by
  intro v hv
  unfold Parent.ofHandle
  by_contra hne
  have hlast : v.handle.shard = 0xffffffff ∧ 0xfffffffe ≤ v.handle.slot.toNat := by
    split at hne
    · rename_i heq
      rw [heq]
      decide
    · split at hne
      · rename_i heq
        rw [heq]
        decide
      · exact absurd rfl hne
  obtain ⟨i, shard, hi, hmem⟩ := mem_vertices.1 hv
  have hshard := h.sound.shard i shard hi
  obtain ⟨hid, hslot⟩ := hshard.getElem?_slot hmem
  have hlt := (Array.getElem?_eq_some_iff.1 hi).1
  have hfew := h.sound.few
  -- the vertex is in the last of 2 ^ 32 shards
  have hix : i = UInt32.size - 1 := by
    have hto := congrArg UInt32.toNat (hid.symm.trans hlast.1)
    rw [h.sound.id i shard hi, UInt32.toNat_ofNat_of_lt' (hlt.trans_le hfew)] at hto
    exact hto
  have hsize : store.shards.size = UInt32.size := by omega
  have hlen : UInt32.size - 1 ≤ shard.vertices.toList.length := by
    have hs := (Array.getElem?_eq_some_iff.1 hslot).1
    have hnum : UInt32.size = 4294967296 := rfl
    rw [Array.length_toList]
    omega
  -- with the two states that belong elsewhere there would be too many states
  obtain ⟨a, b, hab, ha, hb⟩ := hspread
  have howner : ∀ s ∈ shard.vertices.toList.map (·.state),
      Store.owner UInt32.size (sys.fingerprint s) = UInt32.size - 1 := by
    intro s hs
    obtain ⟨w, hw, rfl⟩ := List.mem_map.1 hs
    have ho := h.sound.owned i shard hi w hw
    rw [hsize, hix, h.fingerprint w (mem_vertices.2 ⟨i, shard, hi, hw⟩)] at ho
    exact ho
  have hnodup : (shard.vertices.toList.map (·.state)).Nodup := by
    refine h.nodup.sublist (List.Sublist.map _ ?_)
    obtain ⟨before, after, hsplit⟩ := List.append_of_mem
      (Array.mem_toList_iff.2 (Array.mem_of_getElem? hi))
    rw [vertices, hsplit, List.flatMap_append, List.flatMap_cons]
    exact (List.sublist_append_left _ _).trans (List.sublist_append_right _ _)
  have hall := hx.word (a :: b :: shard.vertices.toList.map (·.state)) <| by
    refine List.nodup_cons.2 ⟨fun hm => ?_, List.nodup_cons.2 ⟨fun hm => hb (howner b hm), hnodup⟩⟩
    rcases List.mem_cons.1 hm with rfl | hm
    · exact hab rfl
    · exact ha (howner a hm)
  rw [List.length_cons, List.length_cons, List.length_map] at hall
  omega

end ModelChecker
