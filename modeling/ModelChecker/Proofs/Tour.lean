import Mathlib.Algebra.GroupWithZero.Nat
import Mathlib.Data.List.Chain
import ModelChecker.Search.DepthFirst

namespace ModelChecker

/-- Whether a search goes on to the target of an edge that got this answer. -/
def Action.follows (answer : Action) (isNew : Bool) : Bool :=
  answer = .process || answer = .asNeeded && isNew

/-- Whether a search expands a state that got this answer. -/
def Action.accepts (answer : Action) : Bool :=
  answer = .process || answer = .asNeeded

deriving instance DecidableEq for Vertex

namespace DepthFirst

/-- What a search tells its listener, or asks it for, with the answer. -/
inductive Call (σ : Type) where
  | edge (source : Option (Vertex σ)) (target : Vertex σ) (flags : EdgeFlags) (isNew : Bool)
    (answer : Action)
  | state (v : Vertex σ) (answer : Action)
  | successors (v : Vertex σ) (next : List (Successor σ))
  | deadlocked (v : Vertex σ) (answer : Action)
  | closed (v : Vertex σ) (answer : Action)

namespace Call

variable {σ : Type}

def halts : Call σ → Bool
  | .edge _ _ _ _ answer | .state _ answer | .deadlocked _ answer | .closed _ answer =>
    answer = .terminate
  | .successors _ _ => false

/-- A vertex is opened. -/
def isOpening : Call σ → Bool
  | .state _ answer => answer.accepts
  | _ => false

/-- An edge that is not a seed. -/
def isEdge : Call σ → Bool
  | .edge source _ _ _ _ => source.isSome
  | _ => false

def expansion? : Call σ → Option (Vertex σ × List (Successor σ))
  | .successors v next => some (v, next)
  | _ => none

end Call

variable {σ ω : Type}

/-- The vertices that were expanded, each with its successors. -/
def expansions (calls : List (Call σ)) : List (Vertex σ × List (Successor σ)) :=
  calls.filterMap Call.expansion?

def edgeCount (expanded : List (Vertex σ × List (Successor σ))) : Nat :=
  (expanded.map (·.2.length)).sum

@[simp] theorem expansions_append (a b : List (Call σ)) :
    expansions (a ++ b) = expansions a ++ expansions b :=
  List.filterMap_append

@[simp] theorem edgeCount_append (a b : List (Vertex σ × List (Successor σ))) :
    edgeCount (a ++ b) = edgeCount a + edgeCount b := by
  simp [edgeCount]

@[simp] theorem edgeCount_cons (x : Vertex σ × List (Successor σ))
    (rest : List (Vertex σ × List (Successor σ))) :
    edgeCount (x :: rest) = x.2.length + edgeCount rest := rfl

@[simp] theorem edgeCount_reverse (expanded : List (Vertex σ × List (Successor σ))) :
    edgeCount expanded.reverse = edgeCount expanded := by
  simp [edgeCount]

section calls

variable (v : Vertex σ) (answer : Action) (calls : List (Call σ))

@[simp] theorem expansions_nil : expansions ([] : List (Call σ)) = [] := rfl

@[simp] theorem expansions_edge (source : Option (Vertex σ)) (flags : EdgeFlags) (isNew : Bool) :
    expansions (.edge source v flags isNew answer :: calls) = expansions calls := rfl

@[simp] theorem expansions_state :
    expansions (.state v answer :: calls) = expansions calls := rfl

@[simp] theorem expansions_successors (next : List (Successor σ)) :
    expansions (.successors v next :: calls) = (v, next) :: expansions calls := rfl

@[simp] theorem expansions_deadlocked :
    expansions (.deadlocked v answer :: calls) = expansions calls := rfl

@[simp] theorem expansions_closed :
    expansions (.closed v answer :: calls) = expansions calls := rfl

end calls

def deadlockCalls (v : Vertex σ) (next : List (Successor σ)) (answer : Action) : List (Call σ) :=
  if next.isEmpty then [.deadlocked v answer] else []

@[simp] theorem countP_isOpening_deadlockCalls (v : Vertex σ) (next : List (Successor σ))
    (answer : Action) : (deadlockCalls v next answer).countP Call.isOpening = 0 := by
  cases next <;> rfl

@[simp] theorem countP_isEdge_deadlockCalls (v : Vertex σ) (next : List (Successor σ))
    (answer : Action) : (deadlockCalls v next answer).countP Call.isEdge = 0 := by
  cases next <;> rfl

@[simp] theorem expansions_deadlockCalls (v : Vertex σ) (next : List (Successor σ))
    (answer : Action) : expansions (deadlockCalls v next answer) = [] := by
  cases next <;> rfl

/-- The calls for some successors of a source, in their order. An edge that is not followed, or
whose target is not accepted, is all there is of a successor. Otherwise the target is opened, the
calls for its own successors come next, and it is closed before the next edge is told of. -/
inductive Tour : Option (Vertex σ) → List (Successor σ) → List (Call σ) → Prop where
  | nil {source} : Tour source [] []
  | pass {source t flags isNew answer rest w} (hf : answer.follows isNew = false)
    (hw : Tour source rest w) :
    Tour source ((t.state, flags) :: rest) (.edge source t flags isNew answer :: w)
  | decline {source t flags isNew answer answer' rest w} (hf : answer.follows isNew = true)
    (ha : answer'.accepts = false) (hw : Tour source rest w) :
    Tour source ((t.state, flags) :: rest)
      (.edge source t flags isNew answer :: .state t answer' :: w)
  | enter {source t flags isNew answer answer' next d inside c rest w}
    (hf : answer.follows isNew = true) (ha : answer'.accepts = true)
    (hi : Tour (some t) next inside) (hw : Tour source rest w) :
    Tour source ((t.state, flags) :: rest)
      (.edge source t flags isNew answer :: .state t answer' :: .successors t next ::
        (deadlockCalls t next d ++ inside ++ .closed t c :: w))

namespace Tour

variable {source : Option (Vertex σ)} {items items' : List (Successor σ)} {w w' : List (Call σ)}

theorem append (h : Tour source items w) (h' : Tour source items' w') :
    Tour source (items ++ items') (w ++ w') := by
  induction h with
  | nil => exact h'
  | pass hf hw ih => exact .pass hf (ih h')
  | decline hf ha hw ih => exact .decline hf ha (ih h')
  | enter hf ha hi hw ihi ihw =>
    simpa using Tour.enter hf ha hi (ihw h')

theorem countP_isOpening (h : Tour source items w) :
    w.countP Call.isOpening = (expansions w).length := by
  induction h with
  | nil => rfl
  | pass hf hw ih => simpa [List.countP_cons, Call.isOpening] using ih
  | decline hf ha hw ih => simpa [List.countP_cons, Call.isOpening, ha] using ih
  | enter hf ha hi hw ihi ihw =>
    simp only [List.countP_cons, List.countP_append, countP_isOpening_deadlockCalls, ihi, ihw]
    simp [Call.isOpening, ha]

theorem countP_isEdge (h : Tour source items w) :
    w.countP Call.isEdge =
      (if source.isSome then items.length else 0) + edgeCount (expansions w) := by
  induction h with
  | nil => simp [edgeCount]
  | @pass source t flags isNew answer rest w hf hw ih =>
    simp only [List.countP_cons, ih]
    cases source with
    | none => simp [Call.isEdge]
    | some u =>
      simp [Call.isEdge]
      omega
  | @decline source t flags isNew answer answer' rest w hf ha hw ih =>
    simp only [List.countP_cons, ih]
    cases source with
    | none => simp [Call.isEdge]
    | some u =>
      simp [Call.isEdge]
      omega
  | @enter source t flags isNew answer answer' next d inside c rest w hf ha hi hw ihi ihw =>
    simp only [List.countP_cons, List.countP_append, countP_isEdge_deadlockCalls, ihi, ihw]
    cases source <;> simp [Call.isEdge] <;> omega

end Tour

/-- What is known after some calls: the open vertices, the latest first, and the target of the edge
just told of, if it was followed. -/
structure Reading (σ : Type) where
  opened : List (Vertex σ) := []
  arrived : Option (Vertex σ) := none

def Leads (calls : List (Call σ)) (v u : Vertex σ) : Prop :=
  ∃ flags isNew answer, Call.edge (some u) v flags isNew answer ∈ calls

theorem Leads.append {calls : List (Call σ)} {v u : Vertex σ} (h : Leads calls v u)
    (more : List (Call σ)) : Leads (calls ++ more) v u := by
  obtain ⟨flags, isNew, answer, hm⟩ := h
  exact ⟨flags, isNew, answer, List.mem_append_left _ hm⟩

section reading

variable [DecidableEq σ]

/-- Reads one more call. Edges are told of the latest open vertex, a state is told of right after an
edge to it, and a vertex is closed while it is the latest open one. -/
def Reading.read (r : Reading σ) : Call σ → Option (Reading σ)
  | .edge source t _ isNew answer =>
    if source = r.opened.head? then
      some ⟨r.opened, if answer.follows isNew then some t else none⟩
    else none
  | .state v answer =>
    if r.arrived = some v then some ⟨if answer.accepts then v :: r.opened else r.opened, none⟩
    else none
  | .successors v _ | .deadlocked v _ =>
    if r.opened.head? = some v then some ⟨r.opened, none⟩ else none
  | .closed v _ =>
    if r.opened.head? = some v then some ⟨r.opened.tail, none⟩ else none

theorem read_deadlockCalls (v : Vertex σ) (opened : List (Vertex σ)) (next : List (Successor σ))
    (answer : Action) :
    (deadlockCalls v next answer).foldlM Reading.read ⟨v :: opened, none⟩ =
      some ⟨v :: opened, none⟩ := by
  cases next <;> simp [deadlockCalls, Reading.read]

theorem Tour.read {source : Option (Vertex σ)} {items : List (Successor σ)} {w : List (Call σ)}
    (h : Tour source items w) (opened : List (Vertex σ)) (hs : source = opened.head?) :
    w.foldlM Reading.read ⟨opened, none⟩ = some ⟨opened, none⟩ := by
  induction h generalizing opened with
  | nil => rfl
  | pass hf hw ih =>
    simp [Reading.read, if_pos hs, hf, ih opened hs]
  | decline hf ha hw ih =>
    simp [Reading.read, if_pos hs, hf, ha, ih opened hs]
  | @enter source t flags isNew answer answer' next d inside c rest w hf ha hi hw ihi ihw =>
    simp [Reading.read, if_pos hs, hf, ha, read_deadlockCalls, ihi (t :: opened) rfl, ihw opened hs]

/-- Whoever reads the calls was told of an edge to each open vertex from the one opened before. -/
theorem isChain_of_read {calls : List (Call σ)} {r : Reading σ}
    (h : calls.foldlM Reading.read {} = some r) :
    r.opened.IsChain (Leads calls) ∧
      ∀ v ∈ r.arrived, ∀ u ∈ r.opened.head?, Leads calls v u := by
  induction calls using List.reverseRecOn generalizing r with
  | nil =>
    cases h
    exact ⟨.nil, nofun⟩
  | append_singleton calls call ih =>
    rw [List.foldlM_append] at h
    obtain ⟨r₀, h₀, hr⟩ := Option.bind_eq_some_iff.1 h
    obtain ⟨hchain, harrived⟩ := ih h₀
    have hr : r₀.read call = some r := by simpa using hr
    have hchain : r₀.opened.IsChain (Leads (calls ++ [call])) :=
      hchain.imp fun _ _ hl => hl.append _
    cases call with
    | edge source t flags isNew answer =>
      simp only [Reading.read, Option.ite_none_right_eq_some, Option.some.injEq] at hr
      obtain ⟨hs, rfl⟩ := hr
      refine ⟨hchain, fun v hv u hu => ?_⟩
      have hv : v = t := by
        by_cases hf : answer.follows isNew = true <;> simp [hf] at hv
        exact hv.symm
      have hu : source = some u := hs.trans hu
      exact ⟨flags, isNew, answer, by simp [hv, hu]⟩
    | state v answer =>
      simp only [Reading.read, Option.ite_none_right_eq_some, Option.some.injEq] at hr
      obtain ⟨hs, rfl⟩ := hr
      refine ⟨?_, nofun⟩
      by_cases ha : answer.accepts = true
      · simp only [ha, if_true]
        exact List.isChain_cons.2 ⟨fun u hu => (harrived v hs u hu).append _, hchain⟩
      · simpa only [if_neg ha] using hchain
    | successors v next =>
      simp only [Reading.read, Option.ite_none_right_eq_some, Option.some.injEq] at hr
      obtain ⟨-, rfl⟩ := hr
      exact ⟨hchain, nofun⟩
    | deadlocked v answer =>
      simp only [Reading.read, Option.ite_none_right_eq_some, Option.some.injEq] at hr
      obtain ⟨-, rfl⟩ := hr
      exact ⟨hchain, nofun⟩
    | closed v answer =>
      simp only [Reading.read, Option.ite_none_right_eq_some, Option.some.injEq] at hr
      obtain ⟨-, rfl⟩ := hr
      exact ⟨hchain.tail, nofun⟩

end reading

end DepthFirst

end ModelChecker
