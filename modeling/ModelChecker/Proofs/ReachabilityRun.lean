import ModelChecker.Proofs.ReachabilityListener

namespace ModelChecker.Reachability

variable {σ : Type} {sys : System σ} {property : Property} {s₀ store store' : Store σ}
  {w w' : Work σ (Observation σ)} {x : WorkItem σ} {rest : Multiset (WorkItem σ)}
  {source : Option (Vertex σ)} {t v : Vertex σ} {flags : EdgeFlags} {isNew : Bool}

/-- The item leads to the expansion of a state that is stored. -/
def isClaim : WorkItem σ → Bool
  | .visit _ => true
  | .met _ _ _ isNew => isNew
  | .arrival _ _ => false

/-- The states that were expanded or will be, so far as they are stored. -/
def claimed (w : Work σ (Observation σ)) : Nat :=
  w.stats.states + w.items.countP (isClaim ·)

def ItemOk (sys : System σ) (parentOf : Handle → Parent) : WorkItem σ → Prop
  | .met none v _ _ => v.state ∈ sys.initials
  | .met (some u) _ _ _ => parentOf u.handle ≠ .unset
  | .arrival none n => n.1 ∈ sys.initials
  | .arrival (some u) _ => parentOf u.handle ≠ .unset
  | .visit v => parentOf v.handle ≠ .unset

theorem ItemOk.mono {parentOf parentOf' : Handle → Parent} (h : ItemOk sys parentOf x)
    (hkeep : ∀ a, parentOf a ≠ .unset → parentOf' a = parentOf a) : ItemOk sys parentOf' x := by
  have hset : ∀ a, parentOf a ≠ .unset → parentOf' a ≠ .unset := by
    intro a ha
    rw [hkeep a ha]
    exact ha
  cases x with
  | met source v flags b =>
    cases source with
    | none => exact h
    | some u => exact hset _ h
  | visit v => exact hset _ h
  | arrival source n =>
    cases source with
    | none => exact h
    | some u => exact hset _ h

/-- The violation is one of the property, and the way to it can be read off. -/
structure Genuine (sys : System σ) (property : Property) (store : Store σ)
    (parentOf : Handle → Parent) (x : Violation σ) : Prop where
  last : x.last ∈ store.vertices
  parent : parentOf x.last.handle ≠ .unset
  shows : ∃ k, sys.Shows property k x

theorem Genuine.mono {parentOf parentOf' : Handle → Parent} {x : Violation σ}
    (h : Genuine sys property store parentOf x)
    (hsub : ∀ v ∈ store.vertices, v ∈ store'.vertices)
    (hkeep : ∀ a, parentOf a ≠ .unset → parentOf' a = parentOf a) :
    Genuine sys property store' parentOf' x :=
  ⟨hsub _ h.last, by rw [hkeep _ h.parent]; exact h.parent, h.shows⟩

/-- What is true of the work throughout. -/
structure Sound (sys : System σ) (property : Property) (s₀ : Store σ)
    (w : Work σ (Observation σ)) : Prop where
  grounded : w.Grounded sys s₀
  rooted : Rooted sys w.store w.observation.parents.get
  items : ∀ x ∈ w.items, ItemOk sys w.observation.parents.get x
  found : ∀ x, w.observation.found = some x →
    Genuine sys property w.store w.observation.parents.get x
  raised : w.interrupt.raised = (w.observation.found.isSome || w.interrupt.failure.isSome)
  counted : claimed w ≤ w.store.vertices.length

theorem mem_successors (i : Nat) (s : Store σ) (v : Vertex σ) (o : Observation σ) :
    ∀ n ∈ ((listener sys property).successors i s v o).1, n ∈ sys.successors v.state :=
  fun _ hn => hn

theorem Sound.leads (h : Sound sys property s₀ w) (hx : .met source t flags isNew ∈ w.items) :
    Leads sys w.store w.observation.parents.get t flags source := by
  have hok := h.items _ hx
  have hrests := h.grounded.items _ hx
  cases source with
  | none => exact hok
  | some u => exact ⟨hrests.2.1, hok, hrests.2.2⟩

theorem Sound.offered (h : Sound sys property s₀ w) (hexp : sys.Explicit) (hspread : sys.Spread)
    (hx : .met source t flags isNew ∈ w.items) :
    Rooted sys w.store (w.observation.offered source t).parents.get ∧
      (∀ a, w.observation.parents.get a ≠ .unset →
        (w.observation.offered source t).parents.get a = w.observation.parents.get a) ∧
      (w.observation.offered source t).parents.get t.handle ≠ .unset := by
  have hcan := h.grounded.canonical
  exact h.rooted.offer hcan (hcan.addressed hexp hspread) (h.grounded.target hx) (h.leads hx)

theorem claimed_told (hi : w.items = .met source t flags isNew ::ₘ rest)
    {r : Step × Observation σ} (hr : r.1 = .expand → isNew = true)
    (h : claimed w ≤ w.store.vertices.length) :
    claimed (w.told rest t r) ≤ w.store.vertices.length := by
  refine le_trans ?_ h
  unfold claimed
  rw [Work.told_stats, Work.told_items, hi]
  refine Nat.add_le_add_left ?_ _
  split
  · rename_i he
    obtain rfl := hr he
    rw [Multiset.countP_cons_of_pos (p := fun y => isClaim y = true) rest rfl,
      Multiset.countP_cons_of_pos (p := fun y => isClaim y = true) rest rfl]
  · exact Multiset.countP_le_of_le _ (Multiset.le_cons_self rest _)

theorem claimed_stored {next : Successor σ} (hi : w.items = .arrival source next ::ₘ rest)
    (hs : Store.Stored sys w.store next.1 t isNew store')
    (h : claimed w ≤ w.store.vertices.length) :
    claimed { w with store := store', items := .met source t next.2 isNew ::ₘ rest } ≤
      store'.vertices.length := by
  have harrival : (WorkItem.arrival source next ::ₘ rest).countP (isClaim ·) =
      rest.countP (isClaim ·) := Multiset.countP_cons_of_neg _ nofun
  unfold claimed at *
  rw [hi, harrival] at h
  cases isNew with
  | false =>
    rw [hs.found rfl]
    exact (Nat.add_le_add_left (Multiset.countP_cons_of_neg _ nofun).le _).trans h
  | true =>
    have hmet : (WorkItem.met source t next.2 true ::ₘ rest).countP (isClaim ·) =
        rest.countP (isClaim ·) + 1 :=
      Multiset.countP_cons_of_pos (p := fun y => isClaim y = true) rest rfl
    rw [(hs.added rfl).perm.length_eq, List.length_cons, hmet]
    exact Nat.succ_le_succ h

/-- Storing a target keeps what is true: no parent changes. -/
theorem Sound.placed (h : Sound sys property s₀ w) {next : Successor σ}
    (hi : w.items = .arrival source next ::ₘ rest)
    (hs : Store.Stored sys w.store next.1 t isNew store') :
    Sound sys property s₀
      { w with store := store', items := .met source t next.2 isNew ::ₘ rest } := by
  have hok : ItemOk sys w.observation.parents.get (.arrival source next) :=
    h.items _ (hi ▸ Multiset.mem_cons_self _ rest)
  refine ⟨h.grounded.placed hi hs, h.rooted.grow hs.grows fun v hv => ?_, fun y hy => ?_,
    fun y hy => (h.found y hy).mono hs.grows fun _ _ => rfl, h.raised,
    claimed_stored hi hs h.counted⟩
  · rcases hs.mem_or_fresh hv with hold | hnew
    · exact .inr hold
    · refine .inl ((h.rooted.known v.handle).resolve_right ?_)
      rintro ⟨u, hu, huv⟩
      exact hnew u hu huv
  · rcases Multiset.mem_cons.1 hy with rfl | hy
    · cases source with
      | none =>
        change t.state ∈ sys.initials
        rw [hs.state]
        exact hok
      | some u => exact hok
    · exact h.items y (hi ▸ Multiset.mem_cons_of_mem hy)

theorem Answer.isNew_of_expand {o : Observation σ} {r : Step × Observation σ}
    (h : Answer sys property source t flags isNew o r) (hr : r.1 = .expand) : isNew = true := by
  cases h with
  | expand hnew => exact hnew
  | error => cases hr
  | goal => cases hr
  | skip => cases hr

theorem Answer.found {o : Observation σ} {r : Step × Observation σ}
    (h : Answer sys property source t flags isNew o r) :
    r.2.found.isSome = (o.found.isSome || decide (r.1 = .stop)) := by
  cases h with
  | error => exact (o.found_report_isSome _ _).trans (Bool.or_true _).symm
  | goal => exact (o.found_report_isSome _ _).trans (Bool.or_true _).symm
  | expand => exact (Bool.or_false _).symm
  | skip => exact (Bool.or_false _).symm

theorem Sound.told (h : Sound sys property s₀ w) (hexp : sys.Explicit) (hspread : sys.Spread)
    (hi : w.items = .met source t flags isNew ::ₘ rest) (worker : Nat) :
    Sound sys property s₀ (w.told rest t
      ((listener sys property).follow worker source t flags isNew w.observation)) := by
  have hx : .met source t flags isNew ∈ w.items := hi ▸ Multiset.mem_cons_self _ rest
  have hmem := h.grounded.target hx
  have hground := h.grounded.told hi hmem
    ((listener sys property).follow worker source t flags isNew w.observation)
  have hleads := h.leads hx
  obtain ⟨hroot, hkeep, hset⟩ := h.offered hexp hspread hx
  have hans := follow_answer sys property worker source t flags isNew w.observation
  generalize (listener sys property).follow worker source t flags isNew w.observation = r at *
  have hold : ∀ y, w.observation.found = some y →
      Genuine sys property w.store (w.observation.offered source t).parents.get y :=
    fun y hy => (h.found y hy).mono (fun _ hv => hv) hkeep
  have hclaim := claimed_told hi hans.isNew_of_expand h.counted
  refine ⟨hground, ?_, fun y hy => ?_, fun y hy => ?_, ?_, by rwa [Work.told_store]⟩
  all_goals simp only [Work.told_store, Work.told_observation, Work.told_items, Work.told_raised,
    Work.told_failure, hans.parents] at *
  · exact hroot
  · have hrest : ∀ y ∈ rest, ItemOk sys (w.observation.offered source t).parents.get y :=
      fun y hy => (h.items y (hi ▸ Multiset.mem_cons_of_mem hy)).mono hkeep
    split at hy
    · rcases Multiset.mem_cons.1 hy with rfl | hy
      · exact hset
      · exact hrest y hy
    · exact hrest y hy
  · cases hans with
    | @error worker u hs hp herr =>
      subst hs hp
      rcases (w.observation.offered (some u) t).found_report worker _ with hr | ⟨hr, -⟩
      · cases hr.symm.trans hy
        refine ⟨hleads.1, ?_, _, .errorEdge hleads.2.2 herr⟩
        change (w.observation.offered (some u) t).parents.get u.handle ≠ _
        rw [hkeep _ hleads.2.1]
        exact hleads.2.1
      · exact hold y (hr.symm.trans hy)
    | @goal worker hp hg =>
      subst hp
      rcases (w.observation.offered source t).found_report worker _ with hr | ⟨hr, -⟩
      · cases hr.symm.trans hy
        exact ⟨hmem, hset, 0, .goal hg⟩
      · exact hold y (hr.symm.trans hy)
    | expand => exact hold y hy
    | skip => exact hold y hy
  · rw [hans.found, h.raised]
    change _ = (w.observation.found.isSome || _ || _)
    rw [Bool.or_right_comm]

theorem claimed_visited (hi : w.items = .visit v ::ₘ rest)
    {r : Option (List (Successor σ)) × SearchStats × Observation σ} (hone : r.2.1.states = 1)
    (h : claimed w ≤ w.store.vertices.length) :
    claimed (w.visited v rest r) ≤ w.store.vertices.length := by
  have hcons : (WorkItem.visit v ::ₘ rest).countP (isClaim ·) = rest.countP (isClaim ·) + 1 :=
    Multiset.countP_cons_of_pos (p := fun y => isClaim y = true) rest rfl
  have hzero : (↑((r.1.getD []).map (WorkItem.arrival (some v))) :
      Multiset (WorkItem σ)).countP (isClaim ·) = 0 := by
    refine Multiset.countP_eq_zero.2 fun y hy hc => ?_
    obtain ⟨n, -, rfl⟩ := List.mem_map.1 (Multiset.mem_coe.1 hy)
    cases hc
  unfold claimed at *
  rw [hi, hcons] at h
  rw [Work.visited_stats, Work.visited_items, Multiset.countP_add, hzero, SearchStats.add_states,
    hone]
  omega

theorem Sound.visited (h : Sound sys property s₀ w) (hi : w.items = .visit v ::ₘ rest)
    (worker : Nat) :
    Sound sys property s₀ (w.visited v rest
      ((listener sys property).expand worker w.store v {} w.observation)) := by
  have hground := h.grounded.event mem_successors (.visit (l := listener sys property) worker hi)
  have hx : .visit v ∈ w.items := hi ▸ Multiset.mem_cons_self _ rest
  have hv : Work.Rests sys w.store (.visit v) := h.grounded.items _ hx
  have hset : ItemOk sys w.observation.parents.get (.visit v) := h.items _ hx
  have hrest : ∀ y ∈ rest, ItemOk sys w.observation.parents.get y :=
    fun y hy => h.items y (hi ▸ Multiset.mem_cons_of_mem hy)
  have hone := ((listener sys property).expand_next worker w.store v w.observation).1
  have hcase := listener_expand sys property worker w.store v w.observation
  generalize (listener sys property).expand worker w.store v {} w.observation = r at *
  have hclaim := claimed_visited hi hone h.counted
  rcases hcase with ⟨hp, hnil, hnext, hobs⟩ | ⟨-, hnext, hobs⟩
  · refine ⟨hground, ?_, fun y hy => ?_, fun y hy => ?_, ?_, by rwa [Work.visited_store]⟩
    all_goals simp only [Work.visited_store, Work.visited_observation, Work.visited_items,
      Work.visited_raised, Work.visited_failure, hnext, hobs] at *
    · exact h.rooted
    · exact hrest y (by simpa using hy)
    · rcases w.observation.found_report worker _ with hr | ⟨hr, -⟩
      · cases hr.symm.trans hy
        subst hp
        exact ⟨hv, hset, 0, .deadlock hnil⟩
      · exact h.found y (hr.symm.trans hy)
    · rw [w.observation.found_report_isSome]
      exact Bool.or_true _
  · refine ⟨hground, ?_, fun y hy => ?_, fun y hy => ?_, ?_, by rwa [Work.visited_store]⟩
    all_goals simp only [Work.visited_store, Work.visited_observation, Work.visited_items,
      Work.visited_raised, Work.visited_failure, hnext, hobs] at *
    · exact h.rooted
    · rcases Multiset.mem_add.1 hy with hy | hy
      · obtain ⟨n, -, rfl⟩ := List.mem_map.1 (Multiset.mem_coe.1 hy)
        exact hset
      · exact hrest y hy
    · exact h.found y hy
    · exact (Bool.or_false _).trans h.raised

theorem Sound.event (h : Sound sys property s₀ w) (hexp : sys.Explicit) (hspread : sys.Spread)
    (he : Work.Event sys (listener sys property) w w') : Sound sys property s₀ w' := by
  have hground := h.grounded.event mem_successors he
  cases he with
  | stored hi hs => exact h.placed hi hs
  | told worker hi => exact h.told hexp hspread hi worker
  | visit worker hi => exact h.visited hi worker
  | @full source next rest n hi hn hle hnew =>
    refine ⟨hground, h.rooted, fun y hy => h.items y (hi ▸ Multiset.mem_cons_of_mem hy), h.found,
      ?_, ?_⟩
    · change true = (_ || (w.interrupt.failure.or _).isSome)
      rw [Option.isSome_or, Option.isSome_some, Bool.or_true, Bool.or_true]
    · refine le_trans (Nat.add_le_add_left (Multiset.countP_le_of_le _ ?_) _) h.counted
      rw [hi]
      exact Multiset.le_cons_self _ _
  | abandon hr hle =>
    refine ⟨hground, h.rooted, fun y hy => h.items y (Multiset.mem_of_le hle hy), h.found,
      h.raised, ?_⟩
    exact le_trans (Nat.add_le_add_left (Multiset.countP_le_of_le _ hle) _) h.counted

def Clear (property : Property) (store : Store σ) (n : Successor σ) : Prop :=
  (∃ t ∈ store.vertices, t.state = n.1) ∧ ¬ (property = .goal ∧ n.2.error = true)

/-- The state is no violation, and its edges are dealt with or will be. -/
structure Treated (sys : System σ) (property : Property) (w : Work σ (Observation σ))
    (v : Vertex σ) : Prop where
  goal : property = .goal → sys.goal v.state = false
  edges : .visit v ∈ w.items ∨ (property = .deadlock → sys.successors v.state ≠ []) ∧
    ∀ n ∈ sys.successors v.state, Work.Awaited w.items (some v) n ∨ Clear property w.store n

/-- Nothing was left out so far. -/
structure Complete (sys : System σ) (property : Property) (w : Work σ (Observation σ)) :
    Prop where
  initial : ∀ s ∈ sys.initials, (∃ n, .arrival none n ∈ w.items ∧ n.1 = s) ∨
    ∃ v ∈ w.store.vertices, v.state = s
  stored : ∀ v ∈ w.store.vertices, (∃ source flags, .met source v flags true ∈ w.items) ∨
    Treated sys property w v

theorem Clear.mono {n : Successor σ} (h : Clear property store n)
    (hsub : ∀ v ∈ store.vertices, v ∈ store'.vertices) : Clear property store' n := by
  obtain ⟨⟨t, ht, hn⟩, hf⟩ := h
  exact ⟨⟨t, hsub t ht, hn⟩, hf⟩

theorem Complete.told (h : Complete sys property w) (hs : Sound sys property s₀ w)
    (hi : w.items = .met source t flags isNew ::ₘ rest)
    {r : Step × Observation σ} {o : Observation σ}
    (hans : Answer sys property source t flags isNew o r) (hgo : r.1 ≠ .stop) :
    Complete sys property (w.told rest t r) := by
  have hmem := hs.grounded.target (hi ▸ Multiset.mem_cons_self _ rest)
  have hkeep : ∀ y ∈ w.items, y ≠ .met source t flags isNew → y ∈ (w.told rest t r).items :=
    fun y hy hne => Work.mem_told_items hi hy hne t r
  have hfine : Fine property source flags := by
    cases hans with
    | error => exact absurd rfl hgo
    | goal => exact absurd rfl hgo
    | expand _ _ hf => exact hf
    | skip _ hf => exact hf
  refine ⟨fun s hsi => ?_, fun v hv => ?_⟩
  · rw [Work.told_store]
    exact (h.initial s hsi).imp_left fun ⟨n, hn, hns⟩ => ⟨n, hkeep _ hn nofun, hns⟩
  · rw [Work.told_store] at hv
    -- a new target is expanded; what the other states wait for stays
    by_cases hnew : v = t ∧ isNew = true
    · obtain ⟨rfl, rfl⟩ := hnew
      cases hans with
      | error => exact absurd rfl hgo
      | goal => exact absurd rfl hgo
      | skip hold => cases hold
      | expand _ hg _ =>
        refine .inr ⟨hg, .inl ?_⟩
        rw [Work.told_items]
        exact Multiset.mem_cons_self _ _
    · rcases h.stored v hv with ⟨u, f, hmet⟩ | htreat
      · refine .inl ⟨u, f, hkeep _ hmet ?_⟩
        rintro ⟨⟩
        exact hnew ⟨rfl, rfl⟩
      · refine .inr ⟨htreat.goal, ?_⟩
        refine htreat.edges.imp (Work.visit_mem_told hi · r) fun ⟨hdead, hall⟩ => ?_
        refine ⟨hdead, fun n hn => ?_⟩
        rw [Work.told_store]
        rcases hall n hn with hawaited | hclear
        · refine (Work.awaited_told hi hawaited r).imp_right ?_
          rintro ⟨rfl, rfl⟩
          exact ⟨⟨t, hmem, rfl⟩, hfine rfl⟩
        · exact .inr hclear

theorem Complete.placed (h : Complete sys property w) {next : Successor σ}
    (hi : w.items = .arrival source next ::ₘ rest)
    (hs : Store.Stored sys w.store next.1 t isNew store') :
    Complete sys property
      { w with store := store', items := .met source t next.2 isNew ::ₘ rest } := by
  have hkeep : ∀ y ∈ w.items, y ≠ .arrival source next →
      y ∈ WorkItem.met source t next.2 isNew ::ₘ rest := by
    intro y hy hne
    rw [hi] at hy
    exact Multiset.mem_cons_of_mem ((Multiset.mem_cons.1 hy).resolve_left hne)
  refine ⟨fun s hsi => ?_, fun v hv => ?_⟩
  · rcases h.initial s hsi with ⟨n, hn, rfl⟩ | ⟨v, hv, hvs⟩
    · by_cases hxn : .arrival none n = WorkItem.arrival source next
      · cases hxn
        exact .inr ⟨t, hs.mem, hs.state⟩
      · exact .inl ⟨n, hkeep _ hn hxn, rfl⟩
    · exact .inr ⟨v, hs.grows v hv, hvs⟩
  · by_cases hnew : v = t ∧ isNew = true
    · obtain ⟨rfl, rfl⟩ := hnew
      exact .inl ⟨source, next.2, Multiset.mem_cons_self _ _⟩
    · refine (h.stored v (hs.mem_of_ne hv hnew)).imp
        (fun ⟨u, f, hmet⟩ => ⟨u, f, hkeep _ hmet nofun⟩)
        fun htreat => ⟨htreat.goal, htreat.edges.imp (Work.visit_mem_stored hi).2 ?_⟩
      rintro ⟨hdead, hall⟩
      exact ⟨hdead, fun n hn => (hall n hn).imp (Work.awaited_stored hi hs).2
        fun hclear => hclear.mono hs.grows⟩

theorem Complete.visited (h : Complete sys property w) (hi : w.items = .visit v ::ₘ rest)
    {r : Option (List (Successor σ)) × SearchStats × Observation σ}
    (hdead : property = .deadlock → sys.successors v.state ≠ [])
    (hr : r.1 = some (sys.successors v.state)) : Complete sys property (w.visited v rest r) := by
  have hkeep : ∀ y ∈ w.items, y ≠ .visit v → y ∈ (w.visited v rest r).items :=
    fun y hy hne => Work.mem_visited_items hi hy hne r
  refine ⟨fun s hs => ?_, fun u hu => ?_⟩
  · rw [Work.visited_store]
    exact (h.initial s hs).imp_left fun ⟨n, hn, hns⟩ => ⟨n, hkeep _ hn nofun, hns⟩
  · rw [Work.visited_store] at hu
    rcases h.stored u hu with ⟨s, f, hmet⟩ | htreat
    · exact .inl ⟨s, f, hkeep _ hmet nofun⟩
    · refine .inr ⟨htreat.goal, ?_⟩
      by_cases huv : u = v
      · subst huv
        exact .inr ⟨hdead, fun n hn => .inl (Work.awaited_of_mem hr hn w)⟩
      · refine htreat.edges.imp (fun hvisit => hkeep _ hvisit ?_) fun ⟨hdead, hall⟩ => ?_
        · rintro ⟨⟩
          exact huv rfl
        · refine ⟨hdead, fun n hn => ?_⟩
          rw [Work.visited_store]
          exact (hall n hn).imp_left fun hn => Work.awaited_visited (hi ▸ hn) w r

/-- What every move of a search keeps. -/
structure Holds (sys : System σ) (property : Property) (s₀ : Store σ)
    (w : Work σ (Observation σ)) : Prop where
  sound : Sound sys property s₀ w
  complete : w.interrupt.raised = false → Complete sys property w

theorem Holds.event (h : Holds sys property s₀ w) (hexp : sys.Explicit) (hspread : sys.Spread)
    (he : Work.Event sys (listener sys property) w w') : Holds sys property s₀ w' := by
  refine ⟨h.sound.event hexp hspread he, fun hraised => ?_⟩
  cases he with
  | stored hi hs => exact (h.complete hraised).placed hi hs
  | @told source t flags isNew rest worker hi =>
    rw [Work.told_raised, Bool.or_eq_false_iff, decide_eq_false_iff_not] at hraised
    exact (h.complete hraised.1).told h.sound hi
      (follow_answer sys property worker source t flags isNew w.observation) hraised.2
  | full => cases hraised
  | @visit v rest worker hi =>
    rw [Work.visited_raised, Bool.or_eq_false_iff] at hraised
    rcases listener_expand sys property worker w.store v w.observation with
      ⟨-, -, hnext, -⟩ | ⟨hdead, hnext, -⟩
    · rw [hnext] at hraised
      cases hraised.2
    · exact (h.complete hraised.1).visited hi hdead hnext
  | abandon hr => cases hr.symm.trans hraised

theorem Holds.moves (h : Holds sys property s₀ w) (hexp : sys.Explicit) (hspread : sys.Spread)
    (hm : Work.Moves sys (listener sys property) w w') : Holds sys property s₀ w' :=
  (hm.events h.sound.grounded.canonical hexp).preserve
    (fun _ _ hw he => hw.event hexp hspread he) h

end ModelChecker.Reachability
