import ModelChecker.Proofs.BoundedTrack
import ModelChecker.Proofs.Traces

namespace ModelChecker.Bounded

variable {σ : Type} {sys : System σ} {q : Query} {store store' : Store σ} {o o' : Observation σ}
  {m₀ : State σ} {w w' : Work σ (Observation σ)} {x : WorkItem σ} {rest : Multiset (WorkItem σ)}
  {source : Option (Vertex σ)} {t v : Vertex σ} {m : LevelMark} {flags : EdgeFlags} {isNew : Bool}
  {l : Nat}

/-- The parent that the mark `m` names accounts for the level `l` of `v`. -/
def Accounts (sys : System σ) (store : Store σ) (o : Observation σ) (v : Vertex σ) (m : LevelMark)
    (l : Nat) : Prop :=
  m.parent = .root ∧ v.state ∈ sys.initials ∨
    ∃ u ∈ store.vertices, m.parent = .vertex u.handle ∧
      ∃ k, (o.mark u.handle).level? = some k ∧
        ∃ n ∈ sys.successors u.state, n.1 = v.state ∧ k + n.2.contextSwitch.toNat ≤ l

/-- Within the bound, the violation shows at the end of a path that the levels account for. -/
def Exposed (sys : System σ) (q : Query) (store : Store σ) (o : Observation σ)
    (x : Violation σ) : Prop :=
  ∃ k, sys.Shows q.property k x ∧ x.last ∈ store.vertices ∧
    ∃ l, (o.mark x.last.handle).level? = some l ∧ l + k ≤ q.bound

/-- The parents of states that have a level lead back to an initial state. -/
structure Traced (sys : System σ) (q : Query) (store : Store σ) (o : Observation σ) : Prop where
  parentLevel : ∀ v ∈ store.vertices, (o.mark v.handle).parentLevel = (o.mark v.handle).level?
  accounts : ∀ v ∈ store.vertices, ∀ l, (o.mark v.handle).level? = some l →
    Accounts sys store o v (o.mark v.handle) l
  rooted : ∀ v ∈ store.vertices, ∀ l, (o.mark v.handle).level? = some l →
    ∃ path, Ancestry store (fun a => (o.mark a).parent) v path
  unset : ∀ v ∈ store.vertices, (o.mark v.handle).level? = none →
    (o.mark v.handle).parent = .unset
  found : ∀ x, o.found = some x → Exposed sys q store o x

theorem Exposed.mono {x : Violation σ} (h : Exposed sys q store o x)
    (hsub : ∀ v ∈ store.vertices, v ∈ store'.vertices)
    (hlow : ∀ a k, (o.mark a).level? = some k → ∃ l ≤ k, (o'.mark a).level? = some l) :
    Exposed sys q store' o' x := by
  obtain ⟨k, hk, hlast, l, hl, hle⟩ := h
  obtain ⟨j, hj, hjl⟩ := hlow _ l hl
  exact ⟨k, hk, hsub _ hlast, j, hjl, (Nat.add_le_add_right hj k).trans hle⟩

theorem Traced.grow (h : Traced sys q store o) (hsub : ∀ v ∈ store.vertices, v ∈ store'.vertices)
    (hfresh : ∀ v ∈ store'.vertices, o.mark v.handle = {} ∨ v ∈ store.vertices) :
    Traced sys q store' o := by
  have hold : ∀ v ∈ store'.vertices, ∀ l, (o.mark v.handle).level? = some l →
      v ∈ store.vertices := by
    intro v hv l hl
    refine (hfresh v hv).resolve_left fun hm => ?_
    rw [hm] at hl
    cases hl
  refine ⟨fun v hv => ?_, fun v hv l hl => ?_, fun v hv l hl => ?_, fun v hv hl => ?_,
    fun x hx => ?_⟩
  · rcases hfresh v hv with hm | hv
    · rw [hm]
      rfl
    · exact h.parentLevel v hv
  · refine (h.accounts v (hold v hv l hl) l hl).imp_right ?_
    rintro ⟨u, hu, hp⟩
    exact ⟨u, hsub u hu, hp⟩
  · obtain ⟨path, hpath⟩ := h.rooted v (hold v hv l hl) l hl
    exact ⟨path, hpath.frame (fun _ _ => rfl) hsub⟩
  · rcases hfresh v hv with hm | hv
    · rw [hm]
    · exact h.unset v hv hl
  · exact (h.found x hx).mono hsub fun a k hk => ⟨k, Nat.le_refl k, hk⟩

theorem Traced.ancestor_le (h : Traced sys q store o) (hs : store.Sound) {path : List (Vertex σ)}
    (ha : Ancestry store (fun a => (o.mark a).parent) v path) (hv : v ∈ store.vertices)
    (hl : (o.mark v.handle).level? = some l) :
    ∀ u ∈ v :: path, ∃ k ≤ l, (o.mark u.handle).level? = some k := by
  induction ha generalizing l with
  | root =>
    intro u hu
    obtain rfl := List.mem_singleton.1 hu
    exact ⟨l, Nat.le_refl l, hl⟩
  | @step v p rest hp hpm _ ih =>
    refine List.forall_mem_cons.2 ⟨⟨l, Nat.le_refl l, hl⟩, fun u hu => ?_⟩
    rcases h.accounts v hv l hl with ⟨hroot, -⟩ | ⟨p', hpm', hp', k, hk, n, -, -, hle⟩
    · cases hroot.symm.trans hp
    · obtain rfl := hs.eq_of_handle hpm hpm' (Parent.vertex.inj (hp.symm.trans hp'))
      obtain ⟨j, hj, hju⟩ := ih hpm hk u hu
      exact ⟨j, hj.trans ((Nat.le_add_right k _).trans hle), hju⟩

/-- The mark `m` has the level and the parent of `old`. -/
structure Keeps (old m : LevelMark) : Prop where
  level : m.level? = old.level?
  parent : m.parent = old.parent
  parentLevel : m.parentLevel = old.parentLevel

/-- The mark `m` gives `t` a lower level, with a parent that accounts for it. -/
structure Adopts (sys : System σ) (store : Store σ) (o : Observation σ) (t : Vertex σ)
    (m : LevelMark) (l : Nat) : Prop where
  level : m.level? = some l
  parentLevel : m.parentLevel = some l
  lowers : ∀ k, (o.mark t.handle).level? = some k → l < k
  accounts : Accounts sys store o t m l

theorem Traced.keep (h : Traced sys q store o)
    (hkeep : ∀ a, Keeps (o.mark a) (o'.mark a))
    (hfound : ∀ x, o'.found = some x → Exposed sys q store o' x) : Traced sys q store o' := by
  refine ⟨fun v hv => ?_, fun v hv l hl => ?_, fun v hv l hl => ?_, fun v hv hl => ?_, hfound⟩
  · rw [(hkeep _).parentLevel, (hkeep _).level]
    exact h.parentLevel v hv
  · rw [(hkeep _).level] at hl
    unfold Accounts
    rw [(hkeep _).parent]
    refine (h.accounts v hv l hl).imp_right ?_
    rintro ⟨u, hu, hp, k, hk, hn⟩
    exact ⟨u, hu, hp, k, (hkeep _).level.trans hk, hn⟩
  · rw [(hkeep _).level] at hl
    obtain ⟨path, hpath⟩ := h.rooted v hv l hl
    exact ⟨path, hpath.frame (fun u _ => (hkeep _).parent) fun _ hu => hu⟩
  · rw [(hkeep _).level] at hl
    exact (hkeep _).parent.trans (h.unset v hv hl)

section adopt
variable (h : Traced sys q store o) (hs : store.Sound) (ho : Marked t m o o')
  (hm : Adopts sys store o t m l)
include h hs ho hm

theorem Traced.ancestry_adopt : ∃ path, Ancestry store (fun a => (o'.mark a).parent) t path := by
  rcases hm.accounts with ⟨hroot, -⟩ | ⟨u, hu, hp, k, hk, n, -, -, hle⟩
  · refine ⟨[], .root ?_⟩
    rw [ho.self]
    exact hroot
  · obtain ⟨path, hpath⟩ := h.rooted u hu k hk
    have hframe : Ancestry store (fun a => (o'.mark a).parent) u path := by
      refine hpath.frame (fun v hv => ?_) fun _ hv => hv
      rw [ho.other]
      intro hvt
      obtain ⟨j, hj, hjv⟩ := h.ancestor_le hs hpath hu hk v hv
      have hlt := hm.lowers j (hvt ▸ hjv)
      omega
    refine ⟨u :: path, .step ?_ hu hframe⟩
    rw [ho.self]
    exact hp

theorem Traced.adopt (ht : t ∈ store.vertices)
    (hfound : ∀ x, o'.found = some x → Exposed sys q store o' x) : Traced sys q store o' := by
  obtain ⟨path, hpath⟩ := h.ancestry_adopt hs ho hm
  -- a parent's level can only have fallen, which leaves its children accounted for
  have hlow : ∀ a k, (o.mark a).level? = some k → ∃ j ≤ k, (o'.mark a).level? = some j := by
    intro a k hk
    by_cases ha : a = t.handle
    · rw [ha, ho.self]
      exact ⟨l, (hm.lowers k (ha ▸ hk)).le, hm.level⟩
    · rw [ho.other ha]
      exact ⟨k, Nat.le_refl k, hk⟩
  have hmono : ∀ v m k, Accounts sys store o v m k → Accounts sys store o' v m k := by
    intro v m k hacc
    refine hacc.imp_right ?_
    rintro ⟨u, hu, hp, i, hi, n, hn, hnv, hle⟩
    obtain ⟨j, hj, hju⟩ := hlow _ i hi
    exact ⟨u, hu, hp, j, hju, n, hn, hnv, by omega⟩
  refine ⟨fun v hv => ?_, fun v hv k hk => ?_, fun v hv k hk => ?_, fun v hv hk => ?_, hfound⟩
  · by_cases hvt : v.handle = t.handle
    · rw [hvt, ho.self, hm.level, hm.parentLevel]
    · rw [ho.other hvt]
      exact h.parentLevel v hv
  · by_cases hvt : v.handle = t.handle
    · obtain rfl := hs.eq_of_handle hv ht hvt
      rw [ho.self] at hk ⊢
      cases hm.level.symm.trans hk
      exact hmono v m l hm.accounts
    · rw [ho.other hvt] at hk ⊢
      exact hmono v _ k (h.accounts v hv k hk)
  · by_cases hvt : v.handle = t.handle
    · exact ⟨path, hpath.of_handle hvt⟩
    · rw [ho.other hvt] at hk
      obtain ⟨old, hold⟩ := h.rooted v hv k hk
      refine hold.redirect hpath (fun a ha => ?_) fun _ hu => hu
      rw [ho.other ha]
  · by_cases hvt : v.handle = t.handle
    · rw [hvt, ho.self, hm.level] at hk
      cases hk
    · rw [ho.other hvt] at hk ⊢
      exact h.unset v hv hk

end adopt

theorem Keeps.refl (m : LevelMark) : Keeps m m := ⟨rfl, rfl, rfl⟩

theorem offerParent_cases (m : LevelMark) (l : Nat) (p : Parent) :
    (m.offerParent l p = m ∧ ∃ k ≤ l, m.parentLevel = some k) ∨
      (m.offerParent l p = { m with parentLevel := some l, parent := p.normal } ∧
        ∀ k, m.parentLevel = some k → l < k) := by
  unfold LevelMark.offerParent
  cases hp : m.parentLevel with
  | none => exact .inr ⟨rfl, nofun⟩
  | some k =>
    by_cases hle : k ≤ l
    · rw [Option.any_some, decide_eq_true hle]
      exact .inl ⟨rfl, k, hle, rfl⟩
    · rw [Option.any_some, decide_eq_false hle]
      refine .inr ⟨rfl, fun j hj => ?_⟩
      cases hj
      exact Nat.lt_of_not_le hle

/-- An initial state, or one that is there already, gets the level 0 and no parent. -/
theorem keeps_or_adopts_initial (h0 : q.level = 0)
    (hpl : (o.mark t.handle).parentLevel = (o.mark t.handle).level?)
    (hseed : Seedable sys q o t)
    (hexp : ∀ l, (o.mark t.handle).progress = .expanded l → l ≤ q.level) :
    Keeps (o.mark t.handle) (o.mark t.handle).asInitial ∨
      ∃ l, Adopts sys store o t (o.mark t.handle).asInitial l := by
  -- a state that has a level above 0, or none, was seeded because it is initial
  have hinit : (∀ k, (o.mark t.handle).level? = some k → 0 < k) → t.state ∈ sys.initials := by
    intro hpos
    rcases hseed with ⟨-, hi⟩ | ⟨k, hk, hkt⟩
    · exact hi
    · have hlt := hpos k hkt
      omega
  cases he : (o.mark t.handle).isExpanded with
  | true =>
    obtain ⟨l, hl⟩ := LevelMark.isExpanded_iff.1 he
    obtain rfl : l = 0 := Nat.le_zero.1 (h0 ▸ hexp l hl)
    have hzero : (o.mark t.handle).parentLevel = some 0 :=
      hpl.trans (LevelMark.level?_eq_of_expanded hl)
    left
    unfold LevelMark.asInitial
    rw [he, if_pos rfl, LevelMark.offerParent, hzero]
    exact .refl _
  | false =>
    unfold LevelMark.asInitial
    rw [he, if_neg Bool.false_ne_true]
    rcases offerParent_cases { o.mark t.handle with progress := .waiting 0 } 0 .root with
      ⟨heq, k, hk, hkt⟩ | ⟨heq, hlow⟩
    · left
      rw [heq]
      obtain rfl := Nat.le_zero.1 hk
      exact ⟨hkt.symm.trans hpl, rfl, rfl⟩
    · right
      rw [heq]
      have hlow : ∀ k, (o.mark t.handle).level? = some k → 0 < k :=
        fun k hk => hlow k (hpl.trans hk)
      exact ⟨0, rfl, rfl, hlow, .inl ⟨rfl, hinit hlow⟩⟩

/-- The target of an edge takes the source as its parent if that lowers its level. -/
theorem keeps_or_adopts_relaxed {u : Vertex σ} (hu : u ∈ store.vertices)
    (haddr : store.Addressed) (hl : (o.mark u.handle).level? = some l)
    (hmax : l + flags.contextSwitch.toNat ≤ maxLevel)
    (hn : (t.state, flags) ∈ sys.successors u.state)
    (hpl : (o.mark t.handle).parentLevel = (o.mark t.handle).level?)
    (he : (o.mark t.handle).isExpanded = false) :
    Keeps (o.mark t.handle) ((o.mark t.handle).relaxed l flags.contextSwitch u.handle) ∨
      ∃ k, Adopts sys store o t
        ((o.mark t.handle).relaxed l flags.contextSwitch u.handle) k := by
  have hmin : min (l + flags.contextSwitch.toNat) maxLevel = l + flags.contextSwitch.toNat :=
    Nat.min_eq_left hmax
  unfold LevelMark.relaxed LevelMark.lower
  dsimp only
  rw [hmin]
  rcases offerParent_cases (o.mark t.handle) (l + flags.contextSwitch.toNat)
    (.vertex u.handle) with ⟨heq, k, hk, hkt⟩ | ⟨heq, hlow⟩
  · left
    rw [heq]
    rw [hpl] at hkt
    rcases LevelMark.level?_eq_some.1 hkt with hw | hx
    · rw [hw]
      refine ⟨?_, rfl, rfl⟩
      rw [hkt]
      exact congrArg some (Nat.min_eq_right hk)
    · rw [LevelMark.isExpanded, hx] at he
      cases he
  · right
    rw [heq]
    dsimp only
    have hlow : ∀ k, (o.mark t.handle).level? = some k → l + flags.contextSwitch.toNat < k :=
      fun k hk => hlow k (hpl.trans hk)
    have hacc : ∀ progress, Accounts sys store o t
        { o.mark t.handle with
          progress
          parentLevel := some (l + flags.contextSwitch.toNat)
          parent := Parent.normal (.vertex u.handle) } (l + flags.contextSwitch.toNat) :=
      fun _ => .inr ⟨u, hu, haddr u hu, l, hl, _, hn, rfl, Nat.le_refl _⟩
    refine ⟨l + flags.contextSwitch.toNat, ?_⟩
    cases hp : (o.mark t.handle).progress with
    | unseen => exact ⟨rfl, rfl, hlow, hacc _⟩
    | waiting k =>
      have hlt := hlow k (LevelMark.level?_eq_some.2 (.inl hp))
      dsimp only
      rw [Nat.min_eq_left hlt.le]
      exact ⟨rfl, rfl, hlow, hacc _⟩
    | expanded k =>
      rw [LevelMark.isExpanded, hp] at he
      cases he

theorem Offered.keeps_or_adopts (hm : Offered q o t flags.contextSwitch source m)
    (hreg : Regular sys q store o) (haddr : store.Addressed) (ht : t ∈ store.vertices)
    (hleads : Leads sys q store o t flags source) (hmax : q.level + 1 ≤ maxLevel)
    (hpl : (o.mark t.handle).parentLevel = (o.mark t.handle).level?) :
    Keeps (o.mark t.handle) m ∨ ∃ l, Adopts sys store o t m l := by
  cases hm with
  | seed => exact .inl (.refl _)
  | expanded => exact .inl (.refl _)
  | initial h0 => exact keeps_or_adopts_initial h0 hpl hleads (hreg.expanded_le t ht)
  | @edge u l hl he =>
    obtain ⟨hu, hue, hn⟩ := hleads
    obtain ⟨k, hk⟩ := LevelMark.isExpanded_iff.1 hue
    cases hl.symm.trans (LevelMark.level?_eq_of_expanded hk)
    have hle := hreg.expanded_le u hu l hk
    have hsw := Bool.toNat_le flags.contextSwitch
    exact keeps_or_adopts_relaxed hu haddr hl (by omega) hn hpl he

theorem Traced.marked (h : Traced sys q store o) (hs : store.Sound) (ht : t ∈ store.vertices)
    {m' : LevelMark} (ho : Marked t m' o o') (hm : Keeps m m')
    (hcase : Keeps (o.mark t.handle) m ∨ ∃ l, Adopts sys store o t m l)
    (hfound : ∀ x, o'.found = some x → Exposed sys q store o' x) : Traced sys q store o' := by
  rcases hcase with hkeep | ⟨l, hadopt⟩
  · refine h.keep (fun a => ?_) hfound
    by_cases ha : a = t.handle
    · rw [ha, ho.self]
      exact ⟨hm.level.trans hkeep.level, hm.parent.trans hkeep.parent,
        hm.parentLevel.trans hkeep.parentLevel⟩
    · rw [ho.other ha]
      exact .refl _
  · refine h.adopt hs ho ⟨hm.level.trans hadopt.level, hm.parentLevel.trans hadopt.parentLevel,
      hadopt.lowers, ?_⟩ ht hfound
    unfold Accounts
    rw [hm.parent]
    exact hadopt.accounts

section event
variable (hx : sys.Explicit) (hspread : sys.Spread) (hb : q.level ≤ q.bound)
  (hmax : q.level + 1 ≤ maxLevel)
include hx hspread hb hmax

theorem Traced.told (h : Traced sys q w.store w.observation) (hw : Tracked sys q m₀ w)
    (hxi : .met source t flags isNew ∈ w.items) {r : Step × Observation σ}
    (hr : Reply sys q source t flags w.observation r) : Traced sys q w.store r.2 := by
  have hcan := hw.grounded.canonical
  have hmem := hw.grounded.target hxi
  have hleads := hw.leads hxi
  obtain ⟨m', hmark, hev, -⟩ := hr.marks (hw.regular.expanded_le t hmem)
  have hlow := fun a => (hmark.evolves hev a).lowers
  have hcase : ∀ {m}, Offered q w.observation t flags.contextSwitch source m →
      Keeps (w.observation.mark t.handle) m ∨
        ∃ l, Adopts sys w.store w.observation t m l :=
    fun hm => hm.keeps_or_adopts hw.regular (hcan.addressed hx hspread) hmem hleads hmax
      (h.parentLevel t hmem)
  -- what was found before still shows, as levels only fall
  have hold : ∀ y, w.observation.found = some y → Exposed sys q w.store r.2 y :=
    fun y hy => (h.found y hy).mono (fun _ hv => hv) hlow
  cases hr with
  | @error worker u l hs hl hlb hp herr =>
    subst hs
    refine h.keep (fun a => .refl _) fun y hy => ?_
    obtain rfl | hy := (Observation.reports_report rfl worker _).eq_or hy
    swap
    · exact hold y hy
    refine ⟨_, ?_, hleads.1, l, hl, hlb⟩
    rw [hp]
    exact .errorEdge hleads.2.2 herr
  | @goal m l o' hm ho hl hle hp hg hf =>
    refine h.marked hcan.sound hmem ho.toMarked (.refl m) (hcase hm) fun y hy => ?_
    obtain rfl | hy := hf.eq_or hy
    swap
    · exact hold y hy
    refine ⟨0, ?_, hmem, l, ?_, hle.trans hb⟩
    · rw [hp]
      exact .goal hg
    · change (o'.mark t.handle).level? = some l
      rw [ho.self]
      exact hl
  | @expand m l o' hm hwait hle ho hf =>
    have hsame : Keeps m { m with progress := .expanded l } :=
      ⟨(LevelMark.level?_eq_some.2 (.inl hwait)).symm, rfl, rfl⟩
    exact h.marked hcan.sound hmem ho.toMarked hsame (hcase hm) fun y hy => hold y (hf ▸ hy)
  | @skip m o' hm ho hs hf =>
    exact h.marked hcan.sound hmem ho.toMarked (.refl m) (hcase hm)
      fun y hy => hold y (hf ▸ hy)

omit hx hspread hmax in
theorem Traced.visited (h : Traced sys q w.store w.observation) (hw : Tracked sys q m₀ w)
    (hxi : .visit v ∈ w.items) (worker : Nat) :
    Traced sys q w.store ((listener sys q).expand worker w.store v {} w.observation).2.2 := by
  have hv : Work.Rests sys w.store (.visit v) := hw.grounded.items _ hxi
  have he : Admissible sys q w.store w.observation (.visit v) := hw.items _ hxi
  obtain ⟨m, p, hm, hcase⟩ := expand_cases (hw.regular.reducible v hv) he worker w.store
  have hkeep : ∀ a, Keeps (w.observation.mark a) (p.2.mark a) := by
    intro a
    by_cases ha : a = v.handle
    · rw [ha, hm.self]
      exact ⟨LevelMark.level?_congr hm.progress, hm.parent, hm.parentLevel⟩
    · rw [hm.other ha]
      exact .refl _
  have hold : ∀ y, w.observation.found = some y → Exposed sys q w.store p.2 y := by
    intro y hy
    refine (h.found y hy).mono (fun _ hu => hu) fun a k hk => ?_
    exact ⟨k, Nat.le_refl k, (hkeep a).level.trans hk⟩
  rcases hcase with ⟨hp, hnil, -, hobs⟩ | ⟨-, hobs⟩
  · rw [hobs]
    refine h.keep (fun a => hkeep a) fun y hy => ?_
    obtain rfl | hy := (Observation.reports_report hm.found worker _).eq_or hy
    swap
    · exact hold y hy
    obtain ⟨l, hl⟩ := LevelMark.isExpanded_iff.1 he
    refine ⟨0, ?_, hv, l, ?_, (hw.regular.expanded_le v hv l hl).trans hb⟩
    · rw [hp]
      exact .deadlock hnil
    · exact (hkeep v.handle).level.trans (LevelMark.level?_eq_of_expanded hl)
  · rw [hobs]
    exact h.keep hkeep fun y hy => hold y (hm.found ▸ hy)

theorem Traced.event (h : Traced sys q w.store w.observation) (hw : Tracked sys q m₀ w)
    (he : Work.Event sys (listener sys q) w w') : Traced sys q w'.store w'.observation := by
  cases he with
  | stored hi hs => exact h.grow hs.grows (hw.fresh hs)
  | @told source t flags isNew rest worker hi =>
    have hxi : .met source t flags isNew ∈ w.items := hi ▸ Multiset.mem_cons_self _ rest
    rw [Work.told_store, Work.told_observation]
    exact h.told hx hspread hb hmax hw hxi (hw.reply hxi worker)
  | @visit v rest worker hi =>
    rw [Work.visited_store, Work.visited_observation]
    exact h.visited hb hw (hi ▸ Multiset.mem_cons_self _ rest) worker
  | full => exact h
  | abandon => exact h

end event

end ModelChecker.Bounded
