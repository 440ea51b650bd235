import ModelChecker.Safety.Reachability
import ModelChecker.Proofs.Events
import ModelChecker.Proofs.Traces

namespace ModelChecker

variable {σ : Type}

theorem Parents.get_offer (p : Parents) (h : Handle) (parent : Parent) (a : Handle) :
    (p.offer h parent).2.get a = if a = h ∧ p.get h = .unset then parent.normal else p.get a := by
  unfold Parents.offer Parent.fill
  by_cases hu : p.get h = .unset
  · rw [if_pos hu]
    refine (Handle.getD_insert p.slots h a parent.normal .unset).trans ?_
    simp only [hu, and_true]
    rfl
  · rw [if_neg hu, if_neg fun hx => hu hx.2]
    refine (Handle.getD_insert p.slots h a (p.get h) .unset).trans ?_
    split
    · rename_i hah
      rw [hah]
    · rfl

theorem Ancestry.ne_unset {store : Store σ} {parentOf : Handle → Parent} {v u : Vertex σ}
    {path : List (Vertex σ)} (h : Ancestry store parentOf v path) (hu : u ∈ v :: path) :
    parentOf u.handle ≠ .unset := by
  induction h with
  | root hv =>
    obtain rfl := List.mem_singleton.1 hu
    rw [hv]
    exact nofun
  | step hv _ _ ih =>
    rcases List.mem_cons.1 hu with rfl | hu
    · rw [hv]
      exact nofun
    · exact ih hu

namespace Reachability

/-- A vertex has no parent yet, or its parents lead along edges back to an initial state. -/
structure Rooted (sys : System σ) (store : Store σ) (parentOf : Handle → Parent) : Prop where
  known : ∀ a, parentOf a = .unset ∨ ∃ v ∈ store.vertices, v.handle = a
  root : ∀ v ∈ store.vertices, parentOf v.handle = .root → v.state ∈ sys.initials
  edge : ∀ v ∈ store.vertices, ∀ u ∈ store.vertices, parentOf v.handle = .vertex u.handle →
    ∃ x ∈ sys.successors u.state, x.1 = v.state
  ancestry : ∀ v ∈ store.vertices, parentOf v.handle ≠ .unset →
    ∃ path, Ancestry store parentOf v path

/-- The vertex `t` may be told of as the target of an edge from `source`, or as a seed. -/
def Leads (sys : System σ) (store : Store σ) (parentOf : Handle → Parent) (t : Vertex σ)
    (flags : EdgeFlags) : Option (Vertex σ) → Prop
  | none => t.state ∈ sys.initials
  | some u => u ∈ store.vertices ∧ parentOf u.handle ≠ .unset ∧
    (t.state, flags) ∈ sys.successors u.state

section rooted
variable {sys : System σ} {store store' : Store σ} {parentOf : Handle → Parent} {t : Vertex σ}

theorem Rooted.grow (h : Rooted sys store parentOf)
    (hsub : ∀ v ∈ store.vertices, v ∈ store'.vertices)
    (horigin : ∀ v ∈ store'.vertices, parentOf v.handle = .unset ∨ v ∈ store.vertices) :
    Rooted sys store' parentOf := by
  have hold : ∀ v ∈ store'.vertices, parentOf v.handle ≠ .unset → v ∈ store.vertices :=
    fun v hv hp => (horigin v hv).resolve_left hp
  refine ⟨fun a => (h.known a).imp_right fun ⟨v, hv, ha⟩ => ⟨v, hsub v hv, ha⟩, fun v hv hp => ?_,
    fun v hv u hu hp => ?_, fun v hv hp => ?_⟩
  · exact h.root v (hold v hv (by rw [hp]; exact nofun)) hp
  · have hvs := hold v hv (by rw [hp]; exact nofun)
    obtain ⟨path, hpath⟩ := h.ancestry v hvs (by rw [hp]; exact nofun)
    have hus : u ∈ store.vertices := by
      cases hpath with
      | root hr => cases hr.symm.trans hp
      | step hv' hu' hrest =>
        refine hold u hu ?_
        rw [← Parent.vertex.inj (hv'.symm.trans hp)]
        exact hrest.ne_unset List.mem_cons_self
    exact h.edge v hvs u hus hp
  · obtain ⟨path, hpath⟩ := h.ancestry v (hold v hv hp) hp
    exact ⟨path, hpath.frame (fun _ _ => rfl) hsub⟩

/-- A first parent keeps the forest: who has no parent is above nobody. -/
theorem Rooted.adopt {parentOf' : Handle → Parent} {flags : EdgeFlags}
    {source : Option (Vertex σ)} (h : Rooted sys store parentOf) (hc : store.Canonical sys)
    (ht : t ∈ store.vertices) (hu : parentOf t.handle = .unset)
    (hl : Leads sys store parentOf t flags source)
    (hself : parentOf' t.handle = source.elim .root (.vertex ·.handle))
    (hother : ∀ a, a ≠ t.handle → parentOf' a = parentOf a) : Rooted sys store parentOf' := by
  have hframe : ∀ v path, Ancestry store parentOf v path → Ancestry store parentOf' v path := by
    intro v path hpath
    refine hpath.frame (fun w hw => hother _ fun hwt => ?_) fun _ hv => hv
    exact hpath.ne_unset hw (hwt ▸ hu)
  refine ⟨fun a => ?_, fun v hv hp => ?_, fun v hv u hus hp => ?_, fun v hv hp => ?_⟩
  · by_cases ha : a = t.handle
    · exact .inr ⟨t, ht, ha.symm⟩
    · rw [hother a ha]
      exact h.known a
  · by_cases hvt : v.handle = t.handle
    · obtain rfl := hc.eq_of_handle hv ht hvt
      rw [hself] at hp
      cases source with
      | none => exact hl
      | some u => cases hp
    · rw [hother _ hvt] at hp
      exact h.root v hv hp
  · by_cases hvt : v.handle = t.handle
    · obtain rfl := hc.eq_of_handle hv ht hvt
      rw [hself] at hp
      cases source with
      | none => cases hp
      | some s =>
        obtain rfl := hc.eq_of_handle hl.1 hus (Parent.vertex.inj hp)
        exact ⟨_, hl.2.2, rfl⟩
    · rw [hother _ hvt] at hp
      exact h.edge v hv u hus hp
  · by_cases hvt : v.handle = t.handle
    · obtain rfl := hc.eq_of_handle hv ht hvt
      cases source with
      | none => exact ⟨[], .root hself⟩
      | some u =>
        obtain ⟨path, hpath⟩ := h.ancestry u hl.1 hl.2.1
        exact ⟨u :: path, .step hself hl.1 (hframe u path hpath)⟩
    · rw [hother _ hvt] at hp
      obtain ⟨path, hpath⟩ := h.ancestry v hv hp
      exact ⟨path, hframe v path hpath⟩

theorem get_offer_of_unset {parents : Parents} {flags : EdgeFlags} {source : Option (Vertex σ)}
    (haddr : store.Addressed) (hl : Leads sys store parents.get t flags source)
    (hu : parents.get t.handle = .unset) :
    (parents.offer t.handle (source.elim .root (.vertex ·.handle))).2.get t.handle =
      source.elim .root (.vertex ·.handle) := by
  rw [Parents.get_offer, if_pos ⟨rfl, hu⟩]
  cases source with
  | none => rfl
  | some u => exact haddr u hl.1

/-- An offer of a parent keeps the forest, and every parent that was set. -/
theorem Rooted.offer {parents : Parents} {flags : EdgeFlags} {source : Option (Vertex σ)}
    (h : Rooted sys store parents.get) (hc : store.Canonical sys) (haddr : store.Addressed)
    (ht : t ∈ store.vertices) (hl : Leads sys store parents.get t flags source) :
    Rooted sys store (parents.offer t.handle (source.elim .root (.vertex ·.handle))).2.get ∧
      (∀ a, parents.get a ≠ .unset →
        (parents.offer t.handle (source.elim .root (.vertex ·.handle))).2.get a =
          parents.get a) ∧
      (parents.offer t.handle (source.elim .root (.vertex ·.handle))).2.get t.handle ≠ .unset := by
  have hget := parents.get_offer t.handle (source.elim .root (.vertex ·.handle))
  have htake := get_offer_of_unset haddr hl
  generalize (parents.offer t.handle (source.elim .root (.vertex ·.handle))).2.get = parentOf at *
  by_cases hu : parents.get t.handle = .unset
  · have hself := htake hu
    have hother : ∀ a, a ≠ t.handle → parentOf a = parents.get a := by
      intro a ha
      rw [hget, if_neg fun hx => ha hx.1]
    refine ⟨h.adopt hc ht hu hl hself hother, fun a ha => hother a ?_, ?_⟩
    · rintro rfl
      exact ha hu
    · rw [hself]
      cases source <;> exact nofun
  · have hsame : parentOf = parents.get := by
      funext a
      rw [hget, if_neg fun hx => hu hx.2]
    rw [hsame]
    exact ⟨h, fun _ _ => rfl, hu⟩

end rooted

section listener
variable {sys : System σ} {property : Property} {source : Option (Vertex σ)} {t v : Vertex σ}
  {flags : EdgeFlags} {isNew : Bool} {o : Observation σ}

/-- The observation after the target of an edge was offered its source as a parent. -/
def Observation.offered (o : Observation σ) (source : Option (Vertex σ)) (t : Vertex σ) :
    Observation σ :=
  { o with parents := (o.parents.offer t.handle (source.elim .root (.vertex ·.handle))).2 }

def Fine (property : Property) (source : Option (Vertex σ)) (flags : EdgeFlags) : Prop :=
  source.isSome = true → ¬ (property = .goal ∧ flags.error = true)

theorem Observation.found_report (o : Observation σ) (worker : Nat) (x : Violation σ) :
    (o.report worker x).found = some x ∨
      (o.report worker x).found = o.found ∧ o.found.isSome = true :=
  o.findings.first?_add worker x

theorem Observation.found_report_isSome (o : Observation σ) (worker : Nat) (x : Violation σ) :
    (o.report worker x).found.isSome = true := by
  rcases o.found_report worker x with h | ⟨h, hs⟩
  · rw [h]
    rfl
  · rw [h, hs]

theorem Observation.found_report_of_none (hf : o.found = none) (worker : Nat) (x : Violation σ) :
    (o.report worker x).found = some x := by
  refine (o.found_report worker x).resolve_right fun h => ?_
  rw [hf] at h
  cases h.2

/-- What the listener answers for an edge or a seed. -/
inductive Answer (sys : System σ) (property : Property) (source : Option (Vertex σ))
    (t : Vertex σ) (flags : EdgeFlags) (isNew : Bool) (o : Observation σ) :
    Step × Observation σ → Prop where
  | error {worker : Nat} {u : Vertex σ} (hs : source = some u) (hp : property = .goal)
    (herr : flags.error = true) : Answer sys property source t flags isNew o
      (.stop, o.report worker ⟨.errorEdge, t, some u⟩)
  | goal {worker : Nat} (hp : property = .goal) (hg : sys.goal t.state = true) :
    Answer sys property source t flags isNew o (.stop, o.report worker ⟨.goal, t, none⟩)
  | expand (hnew : isNew = true) (hg : property = .goal → sys.goal t.state = false)
    (hf : Fine property source flags) : Answer sys property source t flags isNew o (.expand, o)
  | skip (hold : isNew = false) (hf : Fine property source flags) :
    Answer sys property source t flags isNew o (.skip, o)

/-- A goal is told only when it is new; an error edge is told in any case. -/
theorem follow_answer (sys : System σ) (property : Property) (worker : Nat)
    (source : Option (Vertex σ)) (t : Vertex σ) (flags : EdgeFlags) (isNew : Bool)
    (o : Observation σ) :
    Answer sys property source t flags isNew (o.offered source t)
      ((listener sys property).follow worker source t flags isNew o) := by
  have hcall : (listener sys property).edge worker source t flags isNew o =
      edge sys property worker source t flags isNew o := rfl
  have hneeded : (listener sys property).edge worker source t flags isNew o =
      (.asNeeded, o.offered source t) →
      (listener sys property).follow worker source t flags isNew o =
        if isNew then (.expand, o.offered source t) else (.skip, o.offered source t) := by
    intro hedge
    simp only [Listener.follow, hedge]
    cases isNew <;> rfl
  unfold edge violationOf at hcall
  by_cases hp : property = .goal
  · simp only [hp, ne_eq, not_true_eq_false, if_false] at hcall
    by_cases herr : (source.isSome && flags.error) = true
    · rw [if_pos herr] at hcall
      obtain ⟨hsome, herr⟩ := Bool.and_eq_true_iff.1 herr
      obtain ⟨u, rfl⟩ := Option.isSome_iff_exists.1 hsome
      simp only [Listener.follow, hp, hcall]
      exact .error rfl rfl herr
    · rw [if_neg herr] at hcall
      have hfine : Fine property source flags := by
        intro hsome hx
        exact herr (by rw [hsome, hx.2]; rfl)
      cases hg : sys.goal t.state with
      | true =>
        rw [hg, if_pos rfl] at hcall
        cases isNew with
        | true =>
          simp only [if_true] at hcall
          simp only [Listener.follow, hp, hcall]
          exact .goal rfl hg
        | false =>
          rw [hneeded (hp ▸ hcall)]
          exact .skip rfl hfine
      | false =>
        rw [hg] at hcall
        rw [hneeded (hp ▸ hcall)]
        cases isNew with
        | true => exact .expand rfl (fun _ => hg) hfine
        | false => exact .skip rfl hfine
  · rw [if_pos hp] at hcall
    have hfine : Fine property source flags := fun _ hx => hp hx.1
    rw [hneeded hcall]
    cases isNew with
    | true => exact .expand rfl (fun hx => absurd hx hp) hfine
    | false => exact .skip rfl hfine

theorem Answer.parents {r : Step × Observation σ}
    (h : Answer sys property source t flags isNew o r) : r.2.parents = o.parents := by
  cases h <;> rfl

theorem listener_expand (sys : System σ) (property : Property) (worker : Nat) (store : Store σ)
    (v : Vertex σ) (o : Observation σ) :
    (property = .deadlock ∧ sys.successors v.state = [] ∧
      ((listener sys property).expand worker store v {} o).1 = none ∧
      ((listener sys property).expand worker store v {} o).2.2 =
        o.report worker ⟨.deadlock, v, none⟩) ∨
    ((property = .deadlock → sys.successors v.state ≠ []) ∧
      ((listener sys property).expand worker store v {} o).1 = some (sys.successors v.state) ∧
      ((listener sys property).expand worker store v {} o).2.2 = o) := by
  unfold Listener.expand
  rw [show (listener sys property).successors worker store v o = (sys.successors v.state, o) from
    rfl]
  cases hs : sys.successors v.state with
  | nil =>
    by_cases hp : property = .deadlock
    · simp [listener, hp]
    · simp [listener, hp]
  | cons n rest => simp

end listener

end Reachability

end ModelChecker
