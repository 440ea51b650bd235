import ModelChecker.Safety.Verdict
import ModelChecker.Proofs.Ancestry

namespace ModelChecker

variable {σ : Type}

/-- The vertex whose ancestry makes the trace of a violation. -/
def Violation.last (x : Violation σ) : Vertex σ := x.via.getD x.vertex

/-- The violation is one of the property. Past the last vertex of its trace it takes `k` context
switches, which is the one of an error edge if that has one. -/
inductive System.Shows (sys : System σ) : Property → Nat → Violation σ → Prop where
  | goal {v : Vertex σ} (h : sys.goal v.state = true) : Shows sys .goal 0 ⟨.goal, v, none⟩
  | errorEdge {u v : Vertex σ} {flags : EdgeFlags}
    (h : (v.state, flags) ∈ sys.successors u.state) (herr : flags.error = true) :
    Shows sys .goal flags.contextSwitch.toNat ⟨.errorEdge, v, some u⟩
  | deadlock {v : Vertex σ} (h : sys.successors v.state = []) :
    Shows sys .deadlock 0 ⟨.deadlock, v, none⟩

namespace Graph

/-- The path starts in an initial state and takes edges, `n` of which switch the context. -/
inductive TakenWith (g : Graph) : Nat → List Node → Prop where
  | initial {s : Node} (h : s ∈ g.initial) : TakenWith g 0 [s]
  | step {n : Nat} {path : List Node} {e : Edge} (h : TakenWith g n (path ++ [e.source]))
    (he : e ∈ g.edges) :
    TakenWith g (n + e.flags.contextSwitch.toNat) (path ++ [e.source, e.target])

/-- The trace of the witness is a path with `n` context switches to a violation of the property. It
ends in a goal, in a state without edges, or with the two ends of an error edge. -/
inductive Exhibits (g : Graph) : Property → Nat → Witness Node → Prop where
  | goal {n : Nat} {path : List Node} {s : Node} (h : g.TakenWith n (path ++ [s]))
    (hs : s ∈ g.goals) : Exhibits g .goal n ⟨.goal, path ++ [s]⟩
  | errorEdge {n : Nat} {path : List Node} {e : Edge} (h : g.TakenWith n (path ++ [e.source]))
    (he : e ∈ g.edges) (herr : e.flags.error = true) :
    Exhibits g .goal (n + e.flags.contextSwitch.toNat) ⟨.errorEdge, path ++ [e.source, e.target]⟩
  | deadlock {n : Nat} {path : List Node} {s : Node} (h : g.TakenWith n (path ++ [s]))
    (hs : ∀ e ∈ g.edges, e.source ≠ s) : Exhibits g .deadlock n ⟨.deadlock, path ++ [s]⟩

variable {g : Graph} {ig : IndexedGraph} {store : Store Node} {parentOf : Handle → Parent}
  {v : Vertex Node} {path : List (Vertex Node)}

/-- Parents that are joined by edges lead back along a path. `Allows n v` tells which numbers of
context switches are right for `v`. -/
theorem takenWith_of_ancestry (h : g.index = .ok ig) (Allows : Nat → Vertex Node → Prop)
    (hroot : ∀ v ∈ store.vertices, parentOf v.handle = .root →
      v.state ∈ ig.system.initials ∧ Allows 0 v)
    (hstep : ∀ v ∈ store.vertices, ∀ u ∈ store.vertices, parentOf v.handle = .vertex u.handle →
      ∃ x ∈ ig.system.successors u.state, x.1 = v.state ∧
        ∀ n, Allows n u → Allows (n + x.2.contextSwitch.toNat) v)
    (ha : Ancestry store parentOf v path) (hv : v ∈ store.vertices) :
    ∃ n, Allows n v ∧ g.TakenWith n (path.reverse.map (·.state) ++ [v.state]) := by
  induction ha with
  | @root v hp =>
    obtain ⟨hi, hn⟩ := hroot v hv hp
    exact ⟨0, hn, .initial (index_initials h ▸ hi)⟩
  | @step v u rest hp hu _ ih =>
    obtain ⟨n, hn, hpath⟩ := ih hu
    obtain ⟨x, hx, hxv, hnext⟩ := hstep v hv u hu hp
    obtain ⟨e, he, hsource, rfl⟩ := (mem_index_successors h).1 hx
    refine ⟨_, hnext n hn, ?_⟩
    rw [List.reverse_cons, List.map_append, List.append_assoc]
    rw [← hsource] at hpath
    have htaken := TakenWith.step hpath he
    rw [hsource] at htaken
    rw [← hxv]
    exact htaken

theorem exhibits_trace (h : g.index = .ok ig) (hs : store.Sound) {property : Property} {n k : Nat}
    {x : Violation Node} (hx : ig.system.Shows property k x) (hlast : x.last ∈ store.vertices)
    (ha : Ancestry store parentOf x.last path)
    (ht : g.TakenWith n (path.reverse.map (·.state) ++ [x.last.state])) :
    ∃ trace, x.trace store parentOf = .ok trace ∧
      g.Exhibits property (n + k) ⟨x.kind, trace⟩ := by
  have hpath := ha.pathTo_eq hs hlast
  unfold Violation.trace
  cases hx with
  | @goal v hg =>
    refine ⟨path.reverse.map (·.state) ++ [v.state], ?_, .goal ht ((index_goal h _).1 hg)⟩
    change pathTo store parentOf v = .ok (path.reverse ++ [v]) at hpath
    simp only [hpath, bind, Except.bind, pure, Except.pure, List.map_append, List.map_cons,
      List.map_nil]
  | @errorEdge u v flags hmem herr =>
    obtain ⟨e, he, hsource, htarget⟩ := (mem_index_successors h).1 hmem
    obtain ⟨htv, rfl⟩ := Prod.mk.inj htarget
    change g.TakenWith n (_ ++ [u.state]) at ht
    rw [← hsource] at ht
    refine ⟨path.reverse.map (·.state) ++ [e.source, e.target], ?_, .errorEdge ht he herr⟩
    change pathTo store parentOf u = .ok (path.reverse ++ [u]) at hpath
    simp only [hpath, bind, Except.bind, pure, Except.pure, List.map_append, List.map_cons,
      List.map_nil, List.append_assoc, List.singleton_append, hsource, htv]
  | @deadlock v hnil =>
    refine ⟨path.reverse.map (·.state) ++ [v.state], ?_,
      .deadlock ht ((successors_eq_nil_iff h).1 hnil)⟩
    change pathTo store parentOf v = .ok (path.reverse ++ [v]) at hpath
    simp only [hpath, bind, Except.bind, pure, Except.pure, List.map_append, List.map_cons,
      List.map_nil]

theorem index_spread (h : g.index = .ok ig) : ig.system.Spread := by
  obtain ⟨ample, -, rfl⟩ := index_eq h
  refine ⟨(0 : Node), (1 : Node), by decide, ?_, ?_⟩
  · change Store.owner UInt32.size (mix64 (0 : Node).toUInt64) ≠ _
    decide +kernel
  · change Store.owner UInt32.size (mix64 (1 : Node).toUInt64) ≠ _
    decide +kernel

end Graph

end ModelChecker
