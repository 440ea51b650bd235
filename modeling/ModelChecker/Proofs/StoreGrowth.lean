import ModelChecker.Proofs.SearchRun

namespace ModelChecker

variable {σ ω : Type}

def System.Grows (sys : System σ) : Store σ → Store σ → Prop :=
  Relation.ReflTransGen fun s s' => ∃ x v isNew, sys.store s x = .ok ⟨v, isNew, s'⟩

/-- The store that is there once an edge was offered. -/
def Offer.store : Offer σ ω → Store σ
  | .expand _ store _ => store
  | .skip store _ => store
  | .halt _ store _ => store

variable {sys : System σ} {l : Listener σ ω} {store s : Store σ} {o : ω}

theorem Listener.offer_grows (l : Listener σ ω) (sys : System σ) (worker : Nat)
    (source : Option (Vertex σ)) (next : Successor σ) (store : Store σ) (o : ω) :
    sys.Grows store (l.offer sys worker source next store o).store := by
  unfold Listener.offer
  split
  · exact .refl
  · rename_i target isNew after hs
    split <;> exact .single ⟨_, _, _, hs⟩

theorem System.resolve_grows {states : List σ} {vs : List (Vertex σ × Bool)}
    (h : sys.resolve states store = .ok (vs, s)) : sys.Grows store s := by
  induction states generalizing store vs with
  | nil =>
    cases h
    exact .refl
  | cons x rest ih =>
    unfold System.resolve at h
    split at h
    · cases h
    · rename_i v isNew after hs
      cases hr : sys.resolve rest after with
      | error e =>
        rw [hr] at h
        cases h
      | ok r =>
        rw [hr] at h
        cases h
        exact .head ⟨_, _, _, hs⟩ (ih hr)

theorem System.resolve_error {states : List σ} {e : Exhausted}
    (h : sys.resolve states store = .error (e, s)) :
    ∃ n vs, sys.resolve (states.take n) store = .ok (vs, s) := by
  induction states generalizing store with
  | nil => cases h
  | cons x rest ih =>
    unfold System.resolve at h
    split at h
    · cases h
      exact ⟨0, [], rfl⟩
    · rename_i v isNew after hs
      cases hr : sys.resolve rest after with
      | ok r =>
        rw [hr] at h
        cases h
      | error r =>
        rw [hr] at h
        cases h
        obtain ⟨n, vs, hn⟩ := ih hr
        refine ⟨n + 1, (v, isNew) :: vs, ?_⟩
        rw [List.take_succ_cons, System.resolve]
        simp only [hs, hn, Except.map]

namespace DepthFirst

theorem openVertex_store (v : Vertex σ) (m : State σ ω) : (openVertex l v m).store = m.store := by
  unfold openVertex
  split <;> rfl

theorem proceed_store (m : State σ ω) (rest : List (Task σ)) (x : Offer σ ω) :
    (proceed l m rest x).store = x.store := by
  cases x with
  | expand => exact openVertex_store ..
  | skip | halt => rfl

variable (hclosed : ∀ v s o, sys.Grows s (l.closed 0 v s o).2.1)
include hclosed

theorem step_grows (m : State σ ω) : sys.Grows m.store (step sys l m).store := by
  cases ha : m.agenda with
  | nil =>
    simp only [step, ha]
    exact .refl
  | cons task rest =>
    cases task with
    | seed v isNew =>
      rw [step_seed ha, proceed_store]
      generalize (l.follow 0 none v {} isNew m.observation).1 = action
      cases action <;> exact .refl
    | edge source next =>
      rw [step_edge ha, proceed_store]
      exact l.offer_grows sys 0 (some source) next _ _
    | close v =>
      have hgrows := hclosed v m.store m.observation
      simp only [step, ha]
      generalize l.closed 0 v m.store m.observation = r at hgrows ⊢
      obtain ⟨action, store, o⟩ := r
      cases action <;> exact hgrows

theorem steps_grows (n : Nat) (m : State σ ω) : sys.Grows m.store (steps sys l n m).store := by
  induction n generalizing m with
  | zero => exact .refl
  | succ n ih =>
    unfold steps
    split
    · exact .refl
    · exact (step_grows hclosed m).trans (ih _)

end DepthFirst

namespace BreadthFirst

theorem meet_grows (v : Vertex σ) (next : Successor σ) (rest : List (Successor σ)) (w : Worker σ)
    (m : State σ ω) : sys.Grows m.store (meet sys v next rest w m).1.store := by
  unfold meet
  split
  · exact .refl
  · rename_i hs
    exact .single ⟨_, _, _, hs⟩

theorem tell_store (worker : Nat) (v : Vertex σ) (x : Meeting σ) (rest : List (Successor σ))
    (w : Worker σ) (m : State σ ω) : (tell l worker v x rest w m).1.store = m.store := by
  unfold tell
  split <;> rfl

theorem expand_store (worker : Nat) (v : Vertex σ) (w : Worker σ) (m : State σ ω) :
    (expand l worker v w m).1.store = m.store := by
  unfold expand
  split <;> rfl

theorem take_store (worker : Nat) (w : Worker σ) (m : State σ ω) :
    (take l worker w m).1.store = m.store := by
  unfold take
  split
  · rfl
  · split
    · exact expand_store ..
    · rfl

theorem stepWorker_grows (worker : Nat) (w : Worker σ) (m : State σ ω) :
    sys.Grows m.store (stepWorker sys l worker w m).1.store := by
  unfold stepWorker
  split
  · rw [tell_store]
    exact .refl
  · exact meet_grows ..
  · exact .refl
  · rw [take_store]
    exact .refl

theorem step_grows (worker : Nat) (m : State σ ω) :
    sys.Grows m.store (step sys l worker m).store := by
  unfold step
  split
  · exact .refl
  · rename_i w _
    split
    · exact .refl
    · exact stepWorker_grows worker w m

theorem runSchedule_grows (schedule : List Nat) (m : State σ ω) :
    sys.Grows m.store (runSchedule sys l schedule m).store := by
  induction schedule generalizing m with
  | nil => exact .refl
  | cons i rest ih => exact (step_grows i m).trans (ih _)

end BreadthFirst

namespace Partitioned

theorem accept_grows (worker : Nat) (source : Option (Vertex σ)) (next : Successor σ)
    (m : State σ ω) : sys.Grows m.store (accept sys l worker source next m).store := by
  have hoffer := l.offer_grows sys worker source next m.store m.observation
  unfold accept
  generalize l.offer sys worker source next m.store m.observation = x at hoffer ⊢
  cases x <;> exact hoffer

theorem distribute_grows (worker : Nat) (v : Vertex σ) (next : Successor σ) (m : State σ ω) :
    sys.Grows m.store (distribute sys l worker v next m).store := by
  unfold distribute
  split
  · exact accept_grows ..
  · exact .refl

theorem expand_store (worker : Nat) (v : Vertex σ) (stats : SearchStats) (m : State σ ω) :
    (expand l worker v stats m).store = m.store := by
  unfold expand
  split <;> rfl

theorem take_grows (worker : Nat) (w : Worker σ) (m : State σ ω) :
    sys.Grows m.store (take sys l worker w m).store := by
  unfold take
  split
  · exact accept_grows (m := m.modifyWorker worker _) ..
  · split
    · rw [expand_store]
      exact .refl
    · exact .refl

theorem step_grows (worker : Nat) (m : State σ ω) :
    sys.Grows m.store (step sys l worker m).store := by
  unfold step
  split
  · exact .refl
  · rename_i w _
    split
    · unfold Partitioned.work
      split
      · exact distribute_grows (m := m.modifyWorker worker _) ..
      · exact .refl
      · split
        · exact .refl
        · exact take_grows ..
    · exact .refl
    · exact .refl
    · exact .refl

theorem runSchedule_grows (schedule : List Nat) (m : State σ ω) :
    sys.Grows m.store (runSchedule sys l schedule m).store := by
  induction schedule generalizing m with
  | nil => exact .refl
  | cons i rest ih => exact (step_grows i m).trans (ih _)

theorem start_store (sys : System σ) (seeds : List σ) (store : Store σ) (o : ω) :
    (start sys seeds store o).store = store := by
  have hsend : ∀ (m : State σ ω), (seeds.foldl (fun m s => send sys ⟨none, s, {}⟩ m) m).store =
      m.store := by
    induction seeds with
    | nil => exact fun _ => rfl
    | cons s rest ih => exact fun m => ih (send sys ⟨none, s, {}⟩ m)
  exact hsend _

end Partitioned

end ModelChecker
