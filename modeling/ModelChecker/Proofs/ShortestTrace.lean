import ModelChecker.Proofs.Lineup
import ModelChecker.Proofs.ReachabilityVerdict

namespace ModelChecker

variable {σ : Type}

/-- The state is reached from an initial state with `n` edges. -/
inductive System.ReachesIn (sys : System σ) : Nat → σ → Prop where
  | initial {s : σ} (h : s ∈ sys.initials) : ReachesIn sys 0 s
  | step {n : Nat} {s : σ} {x : Successor σ} (h : ReachesIn sys n s)
    (hx : x ∈ sys.successors s) : ReachesIn sys (n + 1) x.1

/-- Some path with `n` edges violates the property. An error edge is the last edge of its path. -/
inductive System.ViolatedIn (sys : System σ) : Property → Nat → Prop where
  | goal {n : Nat} {s : σ} (h : sys.ReachesIn n s) (hs : sys.goal s = true) :
    ViolatedIn sys .goal n
  | errorEdge {n : Nat} {s : σ} {x : Successor σ} (h : sys.ReachesIn n s)
    (hx : x ∈ sys.successors s) (herr : x.2.error = true) : ViolatedIn sys .goal (n + 1)
  | deadlock {n : Nat} {s : σ} (h : sys.ReachesIn n s) (hs : sys.successors s = []) :
    ViolatedIn sys .deadlock n

namespace Lineup

variable {P P' : Nat → WorkItem σ → Prop} {r : Nat} {x : WorkItem σ} {line rest : List (WorkItem σ)}

/-- The items in line are of rank `r`, and those further back of the next rank. -/
def Ordered (P : Nat → WorkItem σ → Prop) (r : Nat) (line : List (WorkItem σ)) : Prop :=
  ∃ front back, line = front ++ back ∧ (∀ x ∈ front, P r x) ∧ ∀ x ∈ back, P (r + 1) x

theorem Ordered.rank (h : Ordered P r line) (hx : x ∈ line) : ∃ i, r ≤ i ∧ P i x := by
  obtain ⟨front, back, rfl, hfront, hback⟩ := h
  rcases List.mem_append.1 hx with hx | hx
  · exact ⟨r, Nat.le_refl r, hfront x hx⟩
  · exact ⟨r + 1, Nat.le_succ r, hback x hx⟩

theorem Ordered.mono (h : Ordered P r line) (hp : ∀ i x, P i x → P' i x) : Ordered P' r line := by
  obtain ⟨front, back, hline, hfront, hback⟩ := h
  exact ⟨front, back, hline, fun x hx => hp r x (hfront x hx), fun x hx => hp _ x (hback x hx)⟩

theorem Ordered.append {more : List (WorkItem σ)} (h : Ordered P r line)
    (hmore : ∀ x ∈ more, P r x) : Ordered P r (more ++ line) := by
  obtain ⟨front, back, rfl, hfront, hback⟩ := h
  refine ⟨more ++ front, back, (List.append_assoc _ _ _).symm, fun x hx => ?_, hback⟩
  exact (List.mem_append.1 hx).elim (hmore x) (hfront x)

theorem Ordered.concat (h : Ordered P r line) (hx : P (r + 1) x) : Ordered P r (line ++ [x]) := by
  obtain ⟨front, back, rfl, hfront, hback⟩ := h
  refine ⟨front, back ++ [x], List.append_assoc _ _ _, hfront, fun y hy => ?_⟩
  rcases List.mem_append.1 hy with hy | hy
  · exact hback y hy
  · exact List.mem_singleton.1 hy ▸ hx

theorem Ordered.head (h : Ordered P r (x :: rest)) :
    ∃ i, r ≤ i ∧ P i x ∧ Ordered P i rest := by
  obtain ⟨_ | ⟨y, front⟩, back, hline, hfront, hback⟩ := h
  · subst hline
    refine ⟨r + 1, Nat.le_succ r, hback x List.mem_cons_self, rest, [], ?_, fun y hy => ?_, nofun⟩
    · exact (List.append_nil rest).symm
    · exact hback y (List.mem_cons_of_mem x hy)
  · obtain ⟨rfl, rfl⟩ := List.cons.inj hline
    exact ⟨r, Nat.le_refl r, hfront x List.mem_cons_self, front, back, rfl,
      fun y hy => hfront y (List.mem_cons_of_mem x hy), hback⟩

end Lineup

namespace Reachability

open Lineup (Ordered Turn Turns)

variable {sys : System σ} {property : Property} {s₀ store store' : Store σ}
  {parentOf parentOf' : Handle → Parent} {v t : Vertex σ} {x : WorkItem σ} {s : σ} {k n r : Nat}
  {line rest : List (WorkItem σ)} {source : Option (Vertex σ)} {flags : EdgeFlags} {isNew : Bool}

def Depth (store : Store σ) (parentOf : Handle → Parent) (v : Vertex σ) (n : Nat) : Prop :=
  ∃ path, Ancestry store parentOf v path ∧ path.length = n

theorem Depth.unique (h : Depth store parentOf v n) (h' : Depth store parentOf v k)
    (hs : store.Sound) : n = k := by
  obtain ⟨path, hpath, rfl⟩ := h
  obtain ⟨path', hpath', rfl⟩ := h'
  rw [hpath.unique hs hpath']

theorem Depth.mono (h : Depth store parentOf v n)
    (hsub : ∀ v ∈ store.vertices, v ∈ store'.vertices)
    (hkeep : ∀ a, parentOf a ≠ .unset → parentOf' a = parentOf a) :
    Depth store' parentOf' v n := by
  obtain ⟨path, hpath, hn⟩ := h
  exact ⟨path, hpath.frame (fun w hw => hkeep _ (hpath.ne_unset hw)) hsub, hn⟩

/-- The targets of the edges out of a source, or the seeds if there is none, are `r` edges away. -/
def Away (store : Store σ) (parentOf : Handle → Parent) (r : Nat) : Option (Vertex σ) → Prop
  | none => r = 0
  | some u => ∃ k, Depth store parentOf u k ∧ r = k + 1

theorem Away.mono (h : Away store parentOf r source)
    (hsub : ∀ v ∈ store.vertices, v ∈ store'.vertices)
    (hkeep : ∀ a, parentOf a ≠ .unset → parentOf' a = parentOf a) :
    Away store' parentOf' r source := by
  cases source with
  | none => exact h
  | some u =>
    obtain ⟨k, hd, hr⟩ := h
    exact ⟨k, hd.mono hsub hkeep, hr⟩

def Ranked (store : Store σ) (parentOf : Handle → Parent) (r : Nat) : WorkItem σ → Prop
  | .met none _ _ _ => r = 0
  | .met (some _) _ _ _ => False
  | .arrival source _ => Away store parentOf r source
  | .visit v => Away store parentOf r (some v)

theorem Ranked.mono (h : Ranked store parentOf r x)
    (hsub : ∀ v ∈ store.vertices, v ∈ store'.vertices)
    (hkeep : ∀ a, parentOf a ≠ .unset → parentOf' a = parentOf a) :
    Ranked store' parentOf' r x := by
  cases x with
  | met source =>
    cases source with
    | none => exact h
    | some u => exact h
  | visit v =>
    have haway : Away store parentOf r (some v) := h
    exact haway.mono hsub hkeep
  | arrival source =>
    have haway : Away store parentOf r source := h
    exact haway.mono hsub hkeep

theorem Ranked.away (h : Ranked store parentOf r x)
    (ht : Lineup.Tells sys store x source t flags isNew store') :
    Away store parentOf r source := by
  cases ht with
  | seed => exact h
  | arrival => exact h

def SeedOf (s : σ) : WorkItem σ → Prop
  | .met none v _ _ => v.state = s
  | .arrival none n => n.1 = s
  | _ => False

theorem SeedOf.rank (h : SeedOf s x) (hr : Ranked store parentOf r x) : r = 0 := by
  cases x with
  | met source =>
    cases source with
    | none => exact hr
    | some u => cases h
  | visit => cases h
  | arrival source n =>
    cases source with
    | none => exact hr
    | some u => cases h

def Near (store : Store σ) (parentOf : Handle → Parent) (s : σ) (n : Nat) : Prop :=
  ∃ v ∈ store.vertices, v.state = s ∧ ∃ k ≤ n, Depth store parentOf v k

theorem Near.mono (h : Near store parentOf s n)
    (hsub : ∀ v ∈ store.vertices, v ∈ store'.vertices)
    (hkeep : ∀ a, parentOf a ≠ .unset → parentOf' a = parentOf a) :
    Near store' parentOf' s n := by
  obtain ⟨v, hv, hs, k, hk, hd⟩ := h
  exact ⟨v, hsub v hv, hs, k, hk, hd.mono hsub hkeep⟩

/-- The line is ordered by the number of edges to the targets, the first of which take `r`. Nothing
that is closer was left out. -/
structure Layered (sys : System σ) (store : Store σ) (parentOf : Handle → Parent)
    (line : List (WorkItem σ)) (r : Nat) : Prop where
  ordered : Ordered (Ranked store parentOf) r line
  depths : ∀ v ∈ store.vertices, parentOf v.handle ≠ .unset → ∃ k ≤ r, Depth store parentOf v k
  initial : ∀ s ∈ sys.initials, (∃ x ∈ line, SeedOf s x) ∨ Near store parentOf s 0
  stored : ∀ v ∈ store.vertices, (∃ flags, .met none v flags true ∈ line) ∨
    ∃ k, Depth store parentOf v k ∧
      (.visit v ∈ line ∨ ∀ n ∈ sys.successors v.state, .arrival (some v) n ∈ line ∨
        Near store parentOf n.1 (k + 1))

theorem Layered.head (h : Layered sys store parentOf (x :: rest) r) :
    ∃ i, Layered sys store parentOf (x :: rest) i ∧ Ranked store parentOf i x ∧
      Ordered (Ranked store parentOf) i rest := by
  obtain ⟨i, hi, hx, hrest⟩ := h.ordered.head
  refine ⟨i, ⟨?_, fun v hv hp => ?_, h.initial, h.stored⟩, hx, hrest⟩
  · have hone : ∀ y ∈ [x], Ranked store parentOf i y := fun y hy => List.mem_singleton.1 hy ▸ hx
    exact hrest.append hone
  · obtain ⟨k, hk, hd⟩ := h.depths v hv hp
    exact ⟨k, hk.trans hi, hd⟩

theorem Layered.not_seedOf (h : Layered sys store parentOf line r) (hr : 0 < r) (hx : x ∈ line) :
    ¬ SeedOf s x := by
  intro hseed
  obtain ⟨i, hi, hrank⟩ := h.ordered.rank hx
  have hzero := hseed.rank hrank
  omega

theorem Layered.not_met (h : Layered sys store parentOf line r) (hr : 0 < r) :
    .met source v flags isNew ∉ line := by
  intro hm
  cases source with
  | none => exact h.not_seedOf hr hm rfl
  | some u =>
    obtain ⟨i, -, hrank⟩ := h.ordered.rank hm
    exact hrank

theorem Layered.not_mem (h : Layered sys store parentOf line r) (hs : store.Sound)
    (hd : Depth store parentOf v k) (hk : k + 1 < r) :
    .visit v ∉ line ∧ ∀ n, ¬ Work.Awaited ↑line (some v) n := by
  have hno : ∀ i, r ≤ i → ¬ ∃ j, Depth store parentOf v j ∧ i = j + 1 := by
    rintro i hi ⟨j, hj, rfl⟩
    have hjk := hj.unique hd hs
    omega
  refine ⟨fun hm => ?_, ?_⟩
  · obtain ⟨i, hi, hrank⟩ := h.ordered.rank hm
    exact hno i hi hrank
  · rintro n ⟨x, hx, hedge⟩
    obtain ⟨i, hi, hrank⟩ := h.ordered.rank (Multiset.mem_coe.1 hx)
    cases x with
    | met =>
      cases hedge
      exact hrank
    | arrival =>
      cases hedge
      exact hno i hi hrank
    | visit => cases hedge

theorem Layered.near (h : Layered sys store parentOf line r) (hs : store.Sound) (hk : k < r)
    (hr : sys.ReachesIn k s) : Near store parentOf s k := by
  induction hr with
  | initial hi =>
    rcases h.initial _ hi with ⟨x, hx, hseed⟩ | hnear
    · exact absurd hseed (h.not_seedOf hk hx)
    · exact hnear
  | @step k s n _ hn ih =>
    obtain ⟨v, hv, rfl, j, hj, hd⟩ := ih (by omega)
    obtain ⟨hvisit, harr⟩ := h.not_mem hs hd (by omega)
    rcases h.stored v hv with ⟨flags, hmet⟩ | ⟨i, hi, hcase⟩
    · exact absurd hmet (h.not_met (by omega))
    · obtain ⟨t, ht, htn, i', hi', hdt⟩ :=
        ((hcase.resolve_left hvisit) n hn).resolve_left fun hm => harr n ⟨_, hm, rfl⟩
      have hij := hi.unique hd hs
      exact ⟨t, ht, htn, i', by omega, hdt⟩

theorem Layered.treated {w : Work σ (Observation σ)} (h : Layered sys w.store parentOf line r)
    (hitems : w.items = ↑line) (hc : Complete sys property w) (hs : w.store.Sound) (hk : k < r)
    (hr : sys.ReachesIn k s) :
    (property = .goal → sys.goal s = false) ∧
      (k + 1 < r → (property = .deadlock → sys.successors s ≠ []) ∧
        ∀ n ∈ sys.successors s, ¬ (property = .goal ∧ n.2.error = true)) := by
  have hmem : ∀ {y}, y ∈ w.items → y ∈ line := fun hy => Multiset.mem_coe.1 (hitems ▸ hy)
  obtain ⟨v, hv, rfl, j, hj, hd⟩ := h.near hs hk hr
  have htreat := (hc.stored v hv).resolve_left fun ⟨_, _, hmet⟩ =>
    h.not_met (by omega) (hmem hmet)
  refine ⟨htreat.goal, fun hlt => ?_⟩
  obtain ⟨hvisit, harr⟩ := h.not_mem hs hd (by omega)
  obtain ⟨hdead, hall⟩ := htreat.edges.resolve_left fun hm => hvisit (hmem hm)
  exact ⟨hdead, fun n hn => ((hall n hn).resolve_left (hitems ▸ harr n)).2⟩

theorem Layered.le_of_violatedIn {w : Work σ (Observation σ)}
    (h : Layered sys w.store parentOf line r) (hitems : w.items = ↑line)
    (hc : Complete sys property w) (hs : w.store.Sound) (hv : sys.ViolatedIn property n) :
    r ≤ n + if property = .deadlock then 1 else 0 := by
  by_contra hlt
  cases hv with
  | goal hr hg =>
    rw [if_neg nofun] at hlt
    have hno := (h.treated hitems hc hs (by omega) hr).1 rfl
    rw [hg] at hno
    cases hno
  | errorEdge hr hx herr =>
    rw [if_neg nofun] at hlt
    exact ((h.treated hitems hc hs (by omega) hr).2 (by omega)).2 _ hx ⟨rfl, herr⟩
  | deadlock hr hnil =>
    rw [if_pos rfl] at hlt
    exact ((h.treated hitems hc hs (by omega) hr).2 (by omega)).1 rfl hnil

/-- The target of the first item goes to the end of the line if it is new. -/
theorem Layered.told (h : Layered sys store parentOf (x :: rest) r)
    (hx : Ranked store parentOf r x) (hrest : Ordered (Ranked store parentOf) r rest)
    (hs : store.Sound) (ht : Lineup.Tells sys store x source t flags isNew store')
    (hsub : ∀ v ∈ store.vertices, v ∈ store'.vertices)
    (hkeep : ∀ a, parentOf a ≠ .unset → parentOf' a = parentOf a) (hmem : t ∈ store'.vertices)
    (hset : parentOf' t.handle ≠ .unset)
    (hdepths : ∀ v ∈ store'.vertices, parentOf' v.handle ≠ .unset →
      ∃ k ≤ r, Depth store' parentOf' v k)
    (hnew : isNew = true → Depth store' parentOf' t r) :
    Layered sys store' parentOf' (if isNew = true then rest ++ [.visit t] else rest) r := by
  have hrest' : Ordered (Ranked store' parentOf') r rest :=
    hrest.mono fun _ _ hy => hy.mono hsub hkeep
  have hstay : ∀ y ∈ rest, y ∈ if isNew = true then rest ++ [.visit t] else rest := by
    intro y hy
    split
    · exact List.mem_append_left _ hy
    · exact hy
  obtain ⟨j, hj, hd⟩ := hdepths t hmem hset
  refine ⟨?_, hdepths, fun s hsi => ?_, fun v hv => ?_⟩
  · split
    · rename_i hn
      exact hrest'.concat ⟨r, hnew hn, rfl⟩
    · exact hrest'
  · rcases h.initial s hsi with ⟨y, hy, hseed⟩ | hnear
    · rcases List.mem_cons.1 hy with rfl | hy
      · have hzero := hseed.rank hx
        have hts : t.state = s := by
          cases ht with
          | seed => exact hseed
          | @arrival source n _ _ _ hst =>
            cases source with
            | none => exact hst.state.trans hseed
            | some u => cases hseed
        exact .inr ⟨t, hmem, hts, j, by omega, hd⟩
      · exact .inl ⟨y, hstay y hy, hseed⟩
    · exact .inr (hnear.mono hsub hkeep)
  · by_cases hvt : v = t ∧ isNew = true
    · obtain ⟨rfl, rfl⟩ := hvt
      refine .inr ⟨r, hnew rfl, .inl ?_⟩
      rw [if_pos rfl]
      exact List.mem_append_right _ (List.mem_singleton_self _)
    · rcases h.stored v (ht.mem_of_ne hv hvt) with ⟨f, hmet⟩ | ⟨k, hk, hcase⟩
      · rcases List.mem_cons.1 hmet with rfl | hmet
        · cases ht
          exact absurd ⟨rfl, rfl⟩ hvt
        · exact .inl ⟨f, hstay _ hmet⟩
      · refine .inr ⟨k, hk.mono hsub hkeep, hcase.imp (fun hm => ?_) fun hall n hn => ?_⟩
        · rcases List.mem_cons.1 hm with rfl | hm
          · cases ht
          · exact hstay _ hm
        · rcases hall n hn with hm | hnear
          · rcases List.mem_cons.1 hm with rfl | hm
            · -- the edge is told of now, and its target is at most one step further
              obtain ⟨i, hi, hri⟩ := hx
              have hik := hi.unique hk hs
              cases ht with
              | arrival hst => exact .inr ⟨t, hmem, hst.state, j, by omega, hd⟩
            · exact .inl (hstay _ hm)
          · exact .inr (hnear.mono hsub hkeep)

theorem Layered.visited (h : Layered sys store parentOf (.visit v :: rest) r)
    (hx : Ranked store parentOf r (.visit v)) (hrest : Ordered (Ranked store parentOf) r rest) :
    Layered sys store parentOf
      ((sys.successors v.state).map (WorkItem.arrival (some v)) ++ rest) r := by
  have hstay : ∀ {y}, y ∈ WorkItem.visit v :: rest → y ≠ .visit v →
      y ∈ (sys.successors v.state).map (WorkItem.arrival (some v)) ++ rest :=
    fun hy hne => List.mem_append_right _ ((List.mem_cons.1 hy).resolve_left hne)
  refine ⟨hrest.append fun y hy => ?_, h.depths, fun s hs => ?_, fun u hu => ?_⟩
  · obtain ⟨n, -, rfl⟩ := List.mem_map.1 hy
    exact hx
  · refine (h.initial s hs).imp_left fun ⟨y, hy, hseed⟩ => ⟨y, hstay hy ?_, hseed⟩
    rintro rfl
    cases hseed
  · refine (h.stored u hu).imp (fun ⟨f, hmet⟩ => ⟨f, hstay hmet nofun⟩)
      fun ⟨k, hk, hcase⟩ => ⟨k, hk, ?_⟩
    by_cases huv : u = v
    · subst huv
      exact .inr fun n hn => .inl (List.mem_append_left _ (List.mem_map_of_mem hn))
    · refine hcase.imp (fun hm => hstay hm ?_) fun hall n hn => ?_
      · rintro ⟨⟩
        exact huv rfl
      · exact (hall n hn).imp_left fun hm => hstay hm nofun

/-- A target that is offered a parent gets the depth of its rank, unless it has one. -/
theorem Sound.depth {w : Work σ (Observation σ)} (h : Sound sys property s₀ w)
    (hexp : sys.Explicit) (hspread : sys.Spread) (hx : .met source t flags isNew ∈ w.items)
    (hr : Away w.store w.observation.parents.get r source)
    (hdepths : ∀ v ∈ w.store.vertices, w.observation.parents.get v.handle ≠ .unset →
      ∃ k ≤ r, Depth w.store w.observation.parents.get v k) :
    (∀ v ∈ w.store.vertices, (w.observation.offered source t).parents.get v.handle ≠ .unset →
      ∃ k ≤ r, Depth w.store (w.observation.offered source t).parents.get v k) ∧
      (source = none ∨ w.observation.parents.get t.handle = .unset →
        Depth w.store (w.observation.offered source t).parents.get t r) := by
  have hcan := h.grounded.canonical
  have hmem := h.grounded.target hx
  obtain ⟨-, hkeep, hset⟩ := h.offered hexp hspread hx
  have hleads := h.leads hx
  -- a target without a parent is one step further than its source
  have hunset : w.observation.parents.get t.handle = .unset →
      Depth w.store (w.observation.offered source t).parents.get t r := by
    intro hu
    have hself : (w.observation.offered source t).parents.get t.handle =
        source.elim .root (.vertex ·.handle) :=
      get_offer_of_unset (hcan.addressed hexp hspread) hleads hu
    cases source with
    | none => exact ⟨[], .root hself, hr.symm⟩
    | some u =>
      obtain ⟨k, hk, hrk⟩ := hr
      obtain ⟨path, hpath, hlen⟩ := hk.mono (fun _ hv => hv) hkeep
      exact ⟨u :: path, .step hself hleads.1 hpath, by rw [List.length_cons, hlen, hrk]⟩
  have hall : ∀ v ∈ w.store.vertices,
      (w.observation.offered source t).parents.get v.handle ≠ .unset →
      ∃ k ≤ r, Depth w.store (w.observation.offered source t).parents.get v k := by
    intro v hv hp
    by_cases hu : w.observation.parents.get v.handle = .unset
    · have hvt : v.handle = t.handle := by
        by_contra hne
        refine hp ?_
        change (w.observation.parents.offer t.handle _).2.get v.handle = _
        rw [Parents.get_offer, if_neg fun hx => hne hx.1, hu]
      obtain rfl := hcan.eq_of_handle hv hmem hvt
      exact ⟨r, Nat.le_refl r, hunset hu⟩
    · obtain ⟨k, hk, hd⟩ := hdepths v hv hu
      exact ⟨k, hk, hd.mono (fun _ hv => hv) hkeep⟩
  refine ⟨hall, ?_⟩
  rintro (rfl | hu)
  · obtain rfl : r = 0 := hr
    obtain ⟨k, hk, hd⟩ := hall t hmem hset
    exact Nat.le_zero.1 hk ▸ hd
  · exact hunset hu

/-- The path to the violation has no more edges than any that violates the property. -/
def Closest (sys : System σ) (property : Property) (store : Store σ) (parentOf : Handle → Parent)
    (x : Violation σ) : Prop :=
  ∃ k, Depth store parentOf x.last k ∧
    ∀ n, sys.ViolatedIn property n → k + x.via.isSome.toNat ≤ n

theorem Closest.mono {y : Violation σ} (h : Closest sys property store parentOf y)
    (hsub : ∀ v ∈ store.vertices, v ∈ store'.vertices) :
    Closest sys property store' parentOf y := by
  obtain ⟨k, hk, hleast⟩ := h
  exact ⟨k, hk.mono hsub fun _ _ => rfl, hleast⟩

/-- What every turn of a search keeps that does its work in line. -/
structure Aligned (sys : System σ) (property : Property) (s₀ : Store σ)
    (q : Lineup σ (Observation σ)) : Prop where
  holds : Holds sys property s₀ q.work
  layered : q.interrupt.raised = false →
    ∃ r, Layered sys q.store q.observation.parents.get q.line r
  closest : ∀ x, q.observation.found = some x →
    Closest sys property q.store q.observation.parents.get x

variable {q q' : Lineup σ (Observation σ)}

theorem Aligned.told (h : Aligned sys property s₀ q) (hexp : sys.Explicit) (hspread : sys.Spread)
    (hi : q.interrupt.raised = false) (hf : q.observation.found = none)
    (hline : q.line = x :: rest) (ht : Lineup.Tells sys q.store x source t flags isNew store')
    {a : Step × Observation σ}
    (ha : Answer sys property source t flags isNew (q.observation.offered source t) a) :
    ((q.told rest t store' a).interrupt.raised = false →
      ∃ r, Layered sys store' a.2.parents.get (q.told rest t store' a).line r) ∧
    ∀ y, a.2.found = some y → Closest sys property store' a.2.parents.get y := by
  have hsound := h.holds.sound
  have hcan := hsound.grounded.canonical
  obtain ⟨r, hr⟩ := h.layered hi
  rw [hline] at hr
  obtain ⟨r, hlay, hrank, hrest⟩ := hr.head
  -- the target is stored before the listener is told
  have hitems : q.work.items = x ::ₘ ↑rest := congrArg Multiset.ofList hline
  have hplaced := ((ht.placed hitems).preserve
    (fun _ _ hw he => hw.event hexp hspread he) h.holds).sound
  have hx : .met source t flags isNew ∈ WorkItem.met source t flags isNew ::ₘ ↑rest :=
    Multiset.mem_cons_self _ _
  have htmem : t ∈ store'.vertices := hplaced.grounded.target hx
  have hsub := ht.grows
  have hbefore : ∀ v ∈ store'.vertices, q.observation.parents.get v.handle ≠ .unset →
      ∃ k ≤ r, Depth store' q.observation.parents.get v k := by
    intro v hv hp
    obtain ⟨u, hu, huv⟩ := (hsound.rooted.known v.handle).resolve_left hp
    obtain rfl := hplaced.grounded.canonical.eq_of_handle (hsub u hu) hv huv
    obtain ⟨k, hk, hd⟩ := hlay.depths u hu hp
    exact ⟨k, hk, hd.mono hsub fun _ _ => rfl⟩
  obtain ⟨-, hkeep, hset⟩ := hplaced.offered hexp hspread hx
  obtain ⟨hdepths, hfresh⟩ := hplaced.depth hexp hspread hx
    ((hrank.away ht).mono hsub fun _ _ => rfl) hbefore
  have hnew : isNew = true →
      Depth store' (q.observation.offered source t).parents.get t r := by
    intro hn
    refine hfresh ((ht.handle_ne hn).imp_right fun hne => ?_)
    refine (hsound.rooted.known t.handle).resolve_right ?_
    rintro ⟨u, hu, hut⟩
    exact hne u hu hut
  have hnext := hlay.told hrank hrest hcan.sound ht hsub hkeep htmem hset hdepths hnew
  have hleast : ∀ n, sys.ViolatedIn property n → r ≤ n + if property = .deadlock then 1 else 0 :=
    fun n hv => hlay.le_of_violatedIn (w := q.work) (congrArg _ hline) (h.holds.complete hi)
      hcan.sound hv
  have hfound : (q.observation.offered source t).found = none := hf
  rw [ha.parents]
  cases ha with
  | @error worker u hs hp herr =>
    subst hs hp
    refine ⟨fun hraised => ?_, fun y hy => ?_⟩
    · rw [Lineup.told_raised, decide_eq_true rfl, Bool.or_true] at hraised
      cases hraised
    · cases (Observation.found_report_of_none hfound worker _).symm.trans hy
      cases ht with
      | arrival =>
        obtain ⟨k, hk, hrk⟩ := hrank
        refine ⟨k, hk.mono hsub hkeep, fun n hv => ?_⟩
        have hle := hleast n hv
        rw [if_neg nofun] at hle
        change k + 1 ≤ n
        omega
  | @goal worker hp hg =>
    subst hp
    refine ⟨fun hraised => ?_, fun y hy => ?_⟩
    · rw [Lineup.told_raised, decide_eq_true rfl, Bool.or_true] at hraised
      cases hraised
    · cases (Observation.found_report_of_none hfound worker _).symm.trans hy
      obtain ⟨k, hk, hd⟩ := hdepths t htmem hset
      exact ⟨k, hd, fun n hv => hk.trans (hleast n hv)⟩
  | expand hn =>
    refine ⟨fun _ => ⟨r, ?_⟩, fun y hy => ?_⟩
    · rw [if_pos hn] at hnext
      rw [Lineup.told_line, if_pos rfl]
      exact hnext
    · cases hf.symm.trans hy
  | skip hn =>
    refine ⟨fun _ => ⟨r, ?_⟩, fun y hy => ?_⟩
    · rw [hn, if_neg Bool.false_ne_true] at hnext
      rw [Lineup.told_line, if_neg nofun]
      exact hnext
    · cases hf.symm.trans hy

theorem Aligned.visited {worker : Nat} (h : Aligned sys property s₀ q)
    (hi : q.interrupt.raised = false) (hf : q.observation.found = none)
    (hline : q.line = .visit v :: rest)
    {a : Option (List (Successor σ)) × SearchStats × Observation σ}
    (ha : (property = .deadlock ∧ sys.successors v.state = [] ∧ a.1 = none ∧
        a.2.2 = q.observation.report worker ⟨.deadlock, v, none⟩) ∨
      ((property = .deadlock → sys.successors v.state ≠ []) ∧
        a.1 = some (sys.successors v.state) ∧ a.2.2 = q.observation)) :
    ((q.visited v rest a).interrupt.raised = false →
      ∃ r, Layered sys q.store a.2.2.parents.get (q.visited v rest a).line r) ∧
    ∀ y, a.2.2.found = some y → Closest sys property q.store a.2.2.parents.get y := by
  obtain ⟨r, hr⟩ := h.layered hi
  rw [hline] at hr
  obtain ⟨r, hlay, hrank, hrest⟩ := hr.head
  rcases ha with ⟨rfl, -, hnone, hobs⟩ | ⟨-, hsome, hobs⟩
  · refine ⟨fun hraised => ?_, fun y hy => ?_⟩
    · rw [Lineup.visited_raised, hnone, Option.isNone_none, Bool.or_true] at hraised
      cases hraised
    · rw [hobs] at hy ⊢
      cases (Observation.found_report_of_none hf worker _).symm.trans hy
      obtain ⟨k, hk, rfl⟩ := hrank
      refine ⟨k, hk, fun n hv => ?_⟩
      have hle := hlay.le_of_violatedIn (w := q.work) (congrArg _ hline) (h.holds.complete hi)
        h.holds.sound.grounded.canonical.sound hv
      rw [if_pos rfl] at hle
      exact Nat.le_of_succ_le_succ hle
  · refine ⟨fun _ => ⟨r, ?_⟩, fun y hy => ?_⟩
    · rw [Lineup.visited_line, hsome, hobs]
      exact hlay.visited hrank hrest
    · rw [hobs, hf] at hy
      cases hy

theorem Aligned.turn (h : Aligned sys property s₀ q) (hexp : sys.Explicit) (hspread : sys.Spread)
    (ht : Turn sys (listener sys property) q q') : Aligned sys property s₀ q' := by
  have hcan := h.holds.sound.grounded.canonical
  have hi := ht.raised
  have hf : q.observation.found = none := by
    have hraised := h.holds.sound.raised.symm.trans hi
    exact Option.not_isSome_iff_eq_none.1 (Bool.eq_false_iff.1 (Bool.or_eq_false_iff.1 hraised).1)
  have hholds := h.holds.moves hexp hspread (.single ht.move)
  cases ht.event hcan hexp with
  | @told x rest source t flags isNew store' hline htells =>
    obtain ⟨hlay, hclose⟩ := h.told hexp hspread hi hf hline htells
      (follow_answer sys property 0 source t flags isNew q.observation)
    refine ⟨hholds, fun hraised => ?_, fun y hy => ?_⟩
    · rw [Lineup.told_store, Lineup.told_observation]
      exact hlay hraised
    · rw [Lineup.told_observation] at hy
      rw [Lineup.told_store, Lineup.told_observation]
      exact hclose y hy
  | full => exact ⟨hholds, nofun, fun y hy => h.closest y hy⟩
  | @visit v rest hline =>
    obtain ⟨hlay, hclose⟩ := h.visited hi hf hline
      (listener_expand sys property 0 q.store v q.observation)
    refine ⟨hholds, fun hraised => ?_, fun y hy => ?_⟩
    · rw [Lineup.visited_store, Lineup.visited_observation]
      exact hlay hraised
    · rw [Lineup.visited_observation] at hy
      rw [Lineup.visited_store, Lineup.visited_observation]
      exact hclose y hy

theorem Aligned.turns (h : Aligned sys property s₀ q) (hexp : sys.Explicit)
    (hspread : sys.Spread) (ht : Turns sys (listener sys property) q q') :
    Aligned sys property s₀ q' := by
  induction ht with
  | refl => exact h
  | tail _ hturn ih => exact ih.turn hexp hspread hturn

theorem aligned_start {c : SearchConfig} (hb : c.Begins sys .initials s₀ {} q.work)
    (hc : s₀.Canonical sys) (hx : sys.Explicit) (hnil : s₀.vertices = []) :
    Aligned sys property s₀ q := by
  have hholds : Holds sys property s₀ q.work := holds_start hb hc hx hnil
  have hstart := hb.starts hc hx nofun
  have hseeds := seeds_start hb hc hx hnil
  have hobs : q.observation = {} := hstart.observation
  have hraised : q.work.interrupt.raised = false := by rw [hstart.interrupt]
  refine ⟨hholds, fun _ => ⟨0, ⟨q.line, [], (List.append_nil _).symm, fun x hm => ?_, nofun⟩,
    fun v _ hp => ?_, fun s hs => .inl ?_, fun v hv => .inl ?_⟩, fun x hf => ?_⟩
  · have hseed := hstart.items x (Multiset.mem_coe.2 hm)
    cases x with
    | met source =>
      cases source with
      | none => rfl
      | some u => cases hseed
    | visit => cases hseed
    | arrival source n =>
      cases source with
      | none => rfl
      | some u => cases hseed
  · rw [hobs, get_empty] at hp
    exact absurd rfl hp
  · rcases (hholds.complete hraised).initial s hs with ⟨n, hn, rfl⟩ | ⟨v, hv, rfl⟩
    · exact ⟨_, Multiset.mem_coe.1 hn, rfl⟩
    · exact ⟨_, Multiset.mem_coe.1 (hseeds v hv), rfl⟩
  · exact ⟨{}, Multiset.mem_coe.1 (hseeds v hv)⟩
  · rw [hobs] at hf
    cases hf

theorem search_closest {c : SearchConfig} (hx : sys.Explicit) (hspread : sys.Spread)
    (hone : c.workerCount = 1) (horder : c.partitioned = true ∨ c.order = .breadthFirst)
    {schedule : Schedule} {e : Exploration σ (Observation σ)}
    (hs : c.search sys (listener sys c.property) .initials c.newStore {} schedule = .ok e)
    {x : Violation σ} (hf : e.observation.found = some x) :
    ∃ w, Sound sys c.property c.newStore w ∧ w.store = e.store ∧ w.observation = e.observation ∧
      Closest sys c.property e.store e.observation.parents.get x := by
  have hc : (c.newStore : Store σ).Canonical sys :=
    c.canonical_newStore sys fun _ => by rw [hone]; decide
  obtain ⟨e', hs', hcase⟩ := SearchConfig.search_turns sys (listener sys c.property) .initials {}
    schedule hone horder c.size_newStore
  cases hs.symm.trans hs'
  rcases hcase with ⟨y, s', rfl⟩ | ⟨q₀, q, w, hb, hturns, hmove, hstore, hobs, hq⟩
  · cases hf
  · have hstart : Aligned sys c.property c.newStore q₀ :=
      aligned_start hb hc hx c.vertices_newStore
    have hal := hstart.turns hx hspread hturns
    have hsound := hal.holds.sound
    have hclose := hal.closest x (hq ▸ hobs ▸ hf)
    rw [← hq, hobs] at hclose
    cases hmove with
    | refl => exact ⟨q.work, hsound, hstore, hobs, hstore ▸ hclose⟩
    | single hm =>
      have hsub := ((hm.events hsound.grounded.canonical hx).preserve
        (fun _ _ hw he => hw.event mem_successors he) hsound.grounded.restart).sub
      exact ⟨w, (hal.holds.moves hx hspread (.single hm)).sound, hstore, hobs,
        hclose.mono (hstore ▸ hsub)⟩

theorem found_of_conclude {e : Exploration σ (Observation σ)} {w : Witness σ}
    (h : conclude e = .ok (.violated w)) :
    ∃ x, e.observation.found = some x ∧ w.kind = x.kind ∧
      x.trace e.store e.observation.parents.get = .ok w.trace := by
  unfold conclude at h
  cases hf : e.observation.found with
  | none =>
    simp only [hf, pure, Except.pure] at h
    split at h <;> cases h
  | some x =>
    simp only [hf] at h
    cases ht : x.trace e.store e.observation.parents.get with
    | error f =>
      simp only [ht, bind, Except.bind] at h
      cases h
    | ok trace =>
      simp only [ht, bind, Except.bind, pure, Except.pure] at h
      cases h
      exact ⟨x, rfl, rfl, ht⟩

end Reachability

theorem Violation.length_trace {store : Store σ} {parentOf : Handle → Parent} {x : Violation σ}
    {path : List (Vertex σ)} {trace : List σ} (hs : store.Sound) (hlast : x.last ∈ store.vertices)
    (ha : Ancestry store parentOf x.last path) (ht : x.trace store parentOf = .ok trace) :
    trace.length = path.length + x.via.isSome.toNat + 1 := by
  have hpath := ha.pathTo_eq hs hlast
  obtain ⟨kind, v, _ | u⟩ := x
  · change pathTo store parentOf v = _ at hpath
    simp only [Violation.trace, hpath, bind, Except.bind, pure, Except.pure, Except.ok.injEq] at ht
    subst ht
    simp
  · change pathTo store parentOf u = _ at hpath
    simp only [Violation.trace, hpath, bind, Except.bind, pure, Except.pure, Except.ok.injEq] at ht
    subst ht
    simp

namespace Graph

variable {g : Graph} {ig : IndexedGraph} {property : Property} {n : Nat} {w : Witness Node}

theorem TakenWith.reachesIn (h : g.index = .ok ig) {path : List Node} {s : Node}
    (ht : g.TakenWith n (path ++ [s])) : ig.system.ReachesIn path.length s := by
  generalize hl : path ++ [s] = l at ht
  induction ht generalizing path s with
  | @initial a ha =>
    have hsplit : path ++ [s] = [] ++ [a] := hl
    obtain ⟨rfl, hs⟩ := List.append_inj' hsplit rfl
    cases hs
    exact .initial (index_initials h ▸ ha)
  | @step n before e _ he ih =>
    rw [show before ++ [e.source, e.target] = (before ++ [e.source]) ++ [e.target] by simp] at hl
    obtain ⟨rfl, hs⟩ := List.append_inj' hl rfl
    cases hs
    rw [List.length_append]
    exact .step (ih rfl) ((mem_index_successors h).2 ⟨e, he, rfl, rfl⟩)

theorem Exhibits.violatedIn (h : g.index = .ok ig) (hex : g.Exhibits property n w) :
    ∃ k, ig.system.ViolatedIn property k ∧ w.trace.length = k + 1 := by
  cases hex with
  | goal ht hs =>
    exact ⟨_, .goal (ht.reachesIn h) ((index_goal h _).2 hs), List.length_append⟩
  | errorEdge ht he herr =>
    exact ⟨_, .errorEdge (ht.reachesIn h) ((mem_index_successors h).2 ⟨_, he, rfl, rfl⟩) herr,
      List.length_append⟩
  | deadlock ht hs =>
    exact ⟨_, .deadlock (ht.reachesIn h) ((successors_eq_nil_iff h).2 hs), List.length_append⟩

theorem search_of_violated {c : SearchConfig} {schedule : Schedule} {report : SafetyReport Node}
    (hrun : reachability ig.system c schedule = .ok report) (hv : report.verdict = .violated w) :
    ∃ e x, c.search ig.system (Reachability.listener ig.system c.property) .initials c.newStore {}
        schedule = .ok e ∧ e.observation.found = some x ∧ w.kind = x.kind ∧
      x.trace e.store e.observation.parents.get = .ok w.trace := by
  unfold reachability at hrun
  cases hs : c.search ig.system (Reachability.listener ig.system c.property) .initials c.newStore
      {} schedule with
  | error f =>
    rw [hs] at hrun
    cases hrun
  | ok e =>
    rw [hs] at hrun
    simp only [Except.mapError, bind, Except.bind] at hrun
    cases hfin : e.finished with
    | error f =>
      rw [hfin] at hrun
      cases hrun
    | ok b =>
      rw [hfin] at hrun
      cases hcon : Reachability.conclude e with
      | error f =>
        simp only [hcon] at hrun
        cases hrun
      | ok verdict =>
        simp only [hcon, pure, Except.pure] at hrun
        cases hrun
        cases hv
        obtain ⟨x, hf, hkind, htrace⟩ := Reachability.found_of_conclude hcon
        exact ⟨e, x, rfl, hf, hkind, htrace⟩

/-- A single worker that searches breadth-first or in a partition reports a violation whose trace is
as short as any that exhibits one. -/
theorem reachability_shortest (h : g.index = .ok ig) (c : SearchConfig) (schedule : Schedule)
    (hone : c.workerCount = 1) (horder : c.partitioned = true ∨ c.order = .breadthFirst)
    {report : SafetyReport Node}
    (hrun : reachability ig.system c schedule = .ok report) (hv : report.verdict = .violated w) :
    (∃ n, g.Exhibits c.property n w) ∧
      ∀ n w', g.Exhibits c.property n w' → w.trace.length ≤ w'.trace.length := by
  obtain ⟨e, x, hs, hf, hkind, htrace⟩ := search_of_violated hrun hv
  obtain ⟨m, hsound, hstore, hobs, k, ⟨path, hpath, rfl⟩, hleast⟩ :=
    Reachability.search_closest (index_explicit h) (index_spread h) hone horder hs hf
  rw [← hstore, ← hobs] at htrace hpath
  rw [← hobs] at hf
  have hlast := (hsound.found x hf).last
  refine ⟨?_, fun n w' hex => ?_⟩
  · obtain ⟨trace, n, ht, hex⟩ := exhibits_of_found h hsound hf
    cases ht.symm.trans htrace
    obtain ⟨kind, trace⟩ := w
    cases hkind
    exact ⟨n, hex⟩
  · obtain ⟨i, hi, hlen⟩ := hex.violatedIn h
    rw [hlen, x.length_trace hsound.grounded.canonical.sound hlast hpath htrace]
    exact Nat.succ_le_succ (hleast i hi)

/-- A goal at the end of two paths, the longer of which comes first. -/
def twoPaths : Graph where
  initial := [0, 0]
  edges := [{ source := 0, target := 1 }, { source := 1, target := 2 },
    { source := 2, target := 3 }, { source := 0, target := 4 }, { source := 4, target := 3 },
    { source := 2, target := 0, flags := { error := true } }]
  goals := [3]

theorem reachability_shortest_twoPaths :
    ∃ ig report, twoPaths.index = .ok ig ∧
      reachability ig.system { partitioned := true, property := .goal, maxStates := some 5 } =
        .ok report ∧
      report.verdict = .violated ⟨.goal, [0, 4, 3]⟩ ∧
      (∃ n, twoPaths.Exhibits .goal n ⟨.goal, [0, 4, 3]⟩) ∧
      ∀ n w, twoPaths.Exhibits .goal n w → 3 ≤ w.trace.length := by
  obtain ⟨ig, h⟩ : ∃ ig, twoPaths.index = .ok ig := ⟨_, rfl⟩
  have hrun : twoPaths.index.toOption.map (fun ig => reachability ig.system
      { partitioned := true, property := .goal, maxStates := some 5 }) =
      some (.ok ⟨.violated ⟨.goal, [0, 4, 3]⟩, { states := 3, edges := 4 }, 5⟩) := by
    decide +kernel
  rw [h] at hrun
  have hrun := Option.some.inj hrun
  exact ⟨ig, _, h, hrun, rfl, reachability_shortest h
    { partitioned := true, property := .goal, maxStates := some 5 } _ rfl (.inl rfl) hrun rfl⟩

end Graph

end ModelChecker
