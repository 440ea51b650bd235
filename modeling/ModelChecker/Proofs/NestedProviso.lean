import Mathlib.Data.List.Chain
import ModelChecker.Proofs.Elimination
import ModelChecker.Proofs.NestedVerdict

namespace ModelChecker

open Relation

namespace Nested

open DepthFirst

variable {σ : Type} {sys : System σ}

/-- The outer search took all edges out of the state. -/
def ExpandsFully (e : Exploration σ (Outer σ)) (a : σ) : Prop :=
  ∃ v ∈ e.store.vertices, v.state = a ∧ (e.observation.mark v.handle).reduced = false

def ExpandsReduced (sys : System σ) (store : Store σ) (o : Outer σ) (a b : σ) : Prop :=
  (∃ v ∈ store.vertices, v.state = a ∧ (o.mark v.handle).reduced = true) ∧ Expands sys store o a b

namespace Outer

variable {reduction : Bool} {limit : Option Nat} {vs : List (Vertex σ × Bool)}
  {opened opened' closed : List (Vertex σ)} {p p' : Position σ (Outer σ)} {o o' : Outer σ}
  {store : Store σ} {u v : Vertex σ}

def Avoids (sys : System σ) (o : Outer σ) (v t : Vertex σ) : Prop :=
  (o.mark v.handle).reduced = true → ∀ n ∈ edgesOf sys (o.mark v.handle) v, n.1 ≠ t.state

/-- A list of closed states, the latest first: the ample set of a state that was opened with it was
closed before that state. -/
inductive Postorder (sys : System σ) (o : Outer σ) : List (Vertex σ) → Prop where
  | nil : Postorder sys o []
  | cons {v : Vertex σ} {closed : List (Vertex σ)} (h : Postorder sys o closed)
    (hv : (o.mark v.handle).reduced = true → ∀ n ∈ edgesOf sys (o.mark v.handle) v,
      ∃ t ∈ closed, t.state = n.1) : Postorder sys o (v :: closed)

theorem Avoids.congr (h : Avoids sys o u v)
    (he : (o'.mark u.handle).reduced = (o.mark u.handle).reduced) : Avoids sys o' u v := by
  unfold Avoids at h ⊢
  rwa [he, edgesOf_congr he]

theorem Postorder.congr (h : Postorder sys o closed)
    (he : ∀ v ∈ closed, (o'.mark v.handle).reduced = (o.mark v.handle).reduced) :
    Postorder sys o' closed := by
  induction h with
  | nil => exact .nil
  | @cons v closed h hv ih =>
    refine .cons (ih fun w hw => he w (List.mem_cons_of_mem _ hw)) ?_
    rwa [he v List.mem_cons_self, edgesOf_congr (he v List.mem_cons_self)]

theorem Postorder.acc (h : Postorder sys o closed) (hx : sys.Explicit) (hc : store.Canonical sys)
    (hmem : ∀ v ∈ closed, v ∈ store.vertices) :
    ∀ v ∈ closed, Acc (fun b a => ExpandsReduced sys store o a b) v.state := by
  induction h with
  | nil => exact nofun
  | @cons v closed h hv ih =>
    have ih := ih fun w hw => hmem w (List.mem_cons_of_mem _ hw)
    have hvm : v ∈ store.vertices := hmem v List.mem_cons_self
    refine List.forall_mem_cons.2 ⟨.intro _ ?_, ih⟩
    rintro b ⟨⟨w, hw, hwv, hr⟩, hb⟩
    obtain rfl := hc.eq_of_state hw hvm hwv
    obtain ⟨n, hn, rfl⟩ := (expands_iff hx hc hw).1 hb
    obtain ⟨t, ht, htn⟩ := hv hr n hn
    exact htn ▸ ih t ht

/-- What the proviso keeps: the edges out of an ample set on the stack do not lead down the stack,
and those out of a closed one lead to states that were closed before. -/
structure Screened (sys : System σ) (opened : List (Vertex σ)) (p : Position σ (Outer σ)) :
    Prop where
  self : ∀ v ∈ p.path, Avoids sys p.observation v v
  below : p.path.Pairwise (Avoids sys p.observation)
  closed : ∃ closed, (∀ v, v ∈ closed ↔ v ∈ opened ∧ v ∉ p.path) ∧
    Postorder sys p.observation closed

theorem Inv.avoids (h : Inv sys reduction limit vs opened [] p) (hx : sys.Explicit)
    (hp : Proviso sys p.store p.observation v) : ∀ t ∈ p.path, Avoids sys p.observation v t := by
  intro t ht hr n hn hnt
  have hmem : t ∈ p.store.vertices := h.opened_mem t (h.path_sub t ht)
  have hoff := hp hr n hn
  unfold isOnStack at hoff
  rw [(h.canonical.find?_eq_some hx).2 ⟨hmem, hnt.symm⟩, Option.any_some,
    (h.onStack t hmem).2 ht] at hoff
  cases hoff

theorem Screened.open (hs : Screened sys opened p) (hinv : Inv sys reduction limit vs opened [] p)
    (hinv' : Inv sys reduction limit vs (v :: opened) [] p') (hx : sys.Explicit)
    (hg : Grows opened p p') (hpath : p'.path = v :: p.path)
    (hp : Proviso sys p'.store p'.observation v) : Screened sys (v :: opened) p' := by
  have hno : v ∉ opened := (List.nodup_cons.1 hinv'.opened_nodup).1
  have havoids := hinv'.avoids hx hp
  rw [hpath] at havoids
  have hkeep : ∀ w ∈ p.path, ∀ t, Avoids sys p.observation w t → Avoids sys p'.observation w t :=
    fun w hw t ha => ha.congr (hg.reduced w (hinv.path_sub w hw))
  obtain ⟨closed, hclosed, hpost⟩ := hs.closed
  refine ⟨?_, ?_, closed, fun w => ?_, hpost.congr fun w hw => hg.reduced w ((hclosed w).1 hw).1⟩
  · rw [hpath]
    exact List.forall_mem_cons.2 ⟨havoids v List.mem_cons_self,
      fun w hw => hkeep w hw w (hs.self w hw)⟩
  · rw [hpath]
    refine List.pairwise_cons.2 ⟨fun t ht => havoids t (List.mem_cons_of_mem _ ht), ?_⟩
    exact hs.below.imp_of_mem fun hw _ ha => hkeep _ hw _ ha
  · rw [hclosed, hpath, List.mem_cons, List.mem_cons]
    by_cases hwv : w = v
    · subst hwv
      simp [hno]
    · simp [hwv]

theorem Inv.not_pending (h : Inv sys reduction limit vs opened [] p) (hseed : Seeded sys vs)
    (hfirst : sys.initials.Pairwise fun a b => a ≠ b → ¬ ReflTransGen sys.Joins a b)
    {b : Vertex σ} (hv : p.path.head? = some v) (hr : ReflTransGen sys.Joins v.state b.state) :
    (b, true) ∉ p.seeds := by
  intro hb
  obtain ⟨done, hvs, hbase⟩ := h.seeds
  obtain ⟨hpost, hpre⟩ := (h.pending hseed hvs (h.seed_mem hb)).1 hb
  obtain ⟨u, hu⟩ : ∃ u, p.path.getLast? = some u :=
    Option.isSome_iff_exists.1 (by rw [List.getLast?_isSome]; rintro hnil; rw [hnil] at hv; cases hv)
  rw [← hseed.states_eq, hvs, List.map_append, List.pairwise_append] at hfirst
  refine hfirst.2.2 u.state (hbase u hu) b.state hpost (fun heq => hpre (heq ▸ hbase u hu)) ?_
  exact (h.linked.reflTransGen (fun _ _ _ hj => hj) hv hu).trans hr

section close
variable {frames : List (Frame σ)} {seeds : List (Vertex σ × Bool)} {stats : SearchStats}

theorem Screened.closed_of_mem (hs : Screened sys opened ⟨⟨v, []⟩ :: frames, seeds, store, o, stats⟩)
    (hinv : Inv sys reduction limit vs opened [] ⟨⟨v, []⟩ :: frames, seeds, store, o, stats⟩)
    (hstrict : Strict sys opened ⟨⟨v, []⟩ :: frames, seeds, store, o, stats⟩) (hx : sys.Explicit)
    (hseed : Seeded sys vs)
    (hfirst : sys.initials.Pairwise fun a b => a ≠ b → ¬ ReflTransGen sys.Joins a b)
    (hr : (o.mark v.handle).reduced = true) :
    ∀ n ∈ edgesOf sys (o.mark v.handle) v,
      ∃ t, t.state = n.1 ∧ t ∈ opened ∧ t ∉ v :: frames.map (·.vertex) := by
  intro n hn
  have hv : v ∈ opened := hinv.path_sub v List.mem_cons_self
  obtain ⟨t, ht, htn⟩ := hinv.exists_target hv (List.nodup_cons.1 hinv.nodup).1 hn
  have hjoins : sys.Joins v.state t.state := ⟨n, mem_successors_of_mem_edgesOf hx hn, htn.symm⟩
  refine ⟨t, htn, ?_⟩
  -- a seed that waits cannot be reached, and what is visited is closed
  rcases hinv.covered t ht with hto | hto | hto | hto
  · refine ⟨hto, fun hpath => ?_⟩
    have ha : Avoids sys o v t := by
      rcases List.mem_cons.1 hpath with rfl | hpath
      · exact hs.self t List.mem_cons_self
      · exact (List.pairwise_cons.1 hs.below).1 t hpath
    exact ha hr n hn htn.symm
  · cases hto
  · exact absurd hto (hinv.not_pending hseed hfirst rfl (.single hjoins))
  · exact hstrict.closed t ht hto

theorem Screened.close (hs : Screened sys opened ⟨⟨v, []⟩ :: frames, seeds, store, o, stats⟩)
    (hinv : Inv sys reduction limit vs opened [] ⟨⟨v, []⟩ :: frames, seeds, store, o, stats⟩)
    (hstrict : Strict sys opened ⟨⟨v, []⟩ :: frames, seeds, store, o, stats⟩) (hx : sys.Explicit)
    (hseed : Seeded sys vs)
    (hfirst : sys.initials.Pairwise fun a b => a ≠ b → ¬ ReflTransGen sys.Joins a b)
    (hg : Grows opened ⟨⟨v, []⟩ :: frames, seeds, store, o, stats⟩ p')
    (hpath : p'.path = frames.map (·.vertex)) : Screened sys opened p' := by
  have hred := hg.reduced
  have hv : v ∈ opened := hinv.path_sub v List.mem_cons_self
  have hmem : ∀ w ∈ frames.map (·.vertex), w ∈ opened :=
    fun w hw => hinv.path_sub w (List.mem_cons_of_mem _ hw)
  have hnot : v ∉ frames.map (·.vertex) := (List.nodup_cons.1 hinv.nodup).1
  obtain ⟨closed, hclosed, hpost⟩ := hs.closed
  have hcons : Postorder sys o (v :: closed) := by
    refine .cons hpost fun hr n hn => ?_
    obtain ⟨t, htn, ht⟩ := hs.closed_of_mem hinv hstrict hx hseed hfirst hr n hn
    exact ⟨t, (hclosed t).2 ht, htn⟩
  refine ⟨?_, ?_, v :: closed, fun w => ?_, hcons.congr fun w hw => ?_⟩
  · rw [hpath]
    exact fun w hw => (hs.self w (List.mem_cons_of_mem _ hw)).congr (hred w (hmem w hw))
  · rw [hpath]
    exact (List.pairwise_cons.1 hs.below).2.imp_of_mem fun hw _ ha => ha.congr (hred _ (hmem _ hw))
  · rw [hpath, List.mem_cons, hclosed]
    change w = v ∨ w ∈ opened ∧ w ∉ v :: frames.map (·.vertex) ↔ _
    by_cases hwv : w = v
    · subst hwv
      simp [hv, hnot]
    · simp [hwv]
  · rcases List.mem_cons.1 hw with rfl | hw
    · exact hred w hv
    · exact hred w ((hclosed w).1 hw).1

end close

theorem Screened.turn (hs : Screened sys opened p) (hinv : Inv sys reduction limit vs opened [] p)
    (hstrict : Strict sys opened p) (hx : sys.Explicit) (hseed : Seeded sys vs)
    (hfirst : sys.initials.Pairwise fun a b => a ≠ b → ¬ ReflTransGen sys.Joins a b)
    (ht : Turn sys reduction opened p opened' p') : Screened sys opened' p' := by
  have hg := hinv.grows ht
  have hinv' := hinv.turn hx hseed ht
  cases ht with
  | skipSeed => exact ⟨hs.self, hs.below, hs.closed⟩
  | openSeed hr he hstats hp => exact hs.open hinv hinv' hx hg rfl hp
  | skipEdge => exact ⟨hs.self, hs.below, hs.closed⟩
  | openEdge hst hr he hstats hp => exact hs.open hinv hinv' hx hg rfl hp
  | close => exact hs.close hinv hstrict hx hseed hfirst hg rfl
  | sweep => exact hs.close hinv hstrict hx hseed hfirst hg rfl

section finish
variable {stats : SearchStats}

theorem Strict.states_eq (hs : Strict sys opened ⟨[], [], store, o, stats⟩)
    (h : Inv sys reduction limit vs opened [] ⟨[], [], store, o, stats⟩) :
    stats.states = store.size := by
  have hperm : opened.Perm store.vertices := by
    refine (List.perm_ext_iff_of_nodup h.opened_nodup (List.Nodup.of_map _ h.canonical.nodup)).2 ?_
    exact fun v => ⟨h.opened_mem v, hs.opened_of_mem h⟩
  rw [h.canonical.size_eq, ← hperm.length_eq]
  exact h.count

theorem Screened.cycle_full (hs : Screened sys opened ⟨[], [], store, o, stats⟩)
    (hstrict : Strict sys opened ⟨[], [], store, o, stats⟩)
    (h : Inv sys reduction limit vs opened [] ⟨[], [], store, o, stats⟩) (hx : sys.Explicit)
    (hseed : Seeded sys vs) {s a : σ} {path : List σ} (hi : s ∈ sys.initials)
    (hr : ReflTransGen (Expands sys store o) s a)
    (hcycle : List.IsChain (Expands sys store o) (a :: (path ++ [a]))) :
    ∃ x ∈ a :: path, ∃ v ∈ store.vertices, v.state = x ∧ (o.mark v.handle).reduced = false := by
  by_contra hno
  have hmem : ∀ x ∈ a :: (path ++ [a]), x ∈ a :: path := by simp [or_comm]
  have hleads := (hcycle.imp fun _ _ => ReflTransGen.single).pairwise
  -- every state of the cycle is stored, hence was opened with its ample set
  have hreduced : ∀ x ∈ a :: path, ∃ v ∈ store.vertices,
      v.state = x ∧ (o.mark v.handle).reduced = true := by
    intro x hxm
    have hax : ReflTransGen (Expands sys store o) a x := by
      rcases List.mem_cons.1 hxm with rfl | hxm
      · exact .refl
      · exact (List.pairwise_cons.1 hleads).1 x (List.mem_append_left _ hxm)
    obtain ⟨v, hv, hvx⟩ := hstrict.stored h hx hseed hi (hr.trans hax)
    refine ⟨v, hv, hvx, ?_⟩
    by_contra hfull
    exact hno ⟨x, hxm, v, hv, hvx, Bool.eq_false_iff.2 hfull⟩
  have hround : TransGen (fun a b => ExpandsReduced sys store o a b) a a := by
    have hchain : List.IsChain (ExpandsReduced sys store o) (a :: (path ++ [a])) :=
      hcycle.imp_of_mem_imp fun x y hxm _ hxy => ⟨hreduced x (hmem x hxm), hxy⟩
    exact (List.pairwise_cons.1 (hchain.imp fun _ _ => TransGen.single).pairwise).1 a (by simp)
  obtain ⟨closed, hclosed, hpost⟩ := hs.closed
  obtain ⟨v, hv, rfl⟩ := hstrict.stored h hx hseed hi hr
  have hv : v ∈ closed := (hclosed v).2 ⟨hstrict.opened_of_mem h hv, nofun⟩
  have hacc := hpost.acc hx h.canonical (fun w hw => h.opened_mem w ((hclosed w).1 hw).1) v hv
  exact Elimination.not_transGen_of_acc hacc (transGen_swap.2 hround)

end finish

end Outer

theorem kept_screened (hx : sys.Explicit) (config : SearchConfig)
    (hfirst : sys.initials.Pairwise fun a b => a ≠ b → ¬ ReflTransGen sys.Joins a b) :
    Kept sys config fun _ opened p => Outer.Strict sys opened p ∧ Outer.Screened sys opened p where
  start _ _ _ _ := ⟨Outer.strict_start, nofun, .nil, [], by simp, .nil⟩
  turn _ _ _ _ _ h ht :=
    ⟨h.holds.1.turn h.inv hx h.seeded (not_searchesAhead_of_pairwise hfirst) ht,
      h.holds.2.turn h.inv h.holds.1 hx h.seeded hfirst ht⟩

end Nested

namespace Graph

variable {g : Graph} {ig : IndexedGraph}

/-- If no initial state is reached from a different one that is listed before it, a nested search
that finds the property to hold has opened every stored state once, and every cycle of the edges
that it took, if it can be reached by them, has a state out of which it took all edges. -/
theorem nestedSearch_cycle_full (h : g.index = .ok ig) (config : SearchConfig)
    (hfirst : g.initial.Pairwise fun a b => a ≠ b → ¬ ReflTransGen g.Joins a b)
    {report : LivenessReport Node} (hr : nestedSearch ig.system config = .ok report)
    (hv : report.verdict = .holds) :
    (Nested.explore ig.system config).stats.states = (Nested.explore ig.system config).store.size ∧
    ∀ s ∈ g.initial, ∀ a path, ReflTransGen (g.Expands (Nested.explore ig.system config)) s a →
      List.IsChain (g.Expands (Nested.explore ig.system config)) (a :: (path ++ [a])) →
      ∃ x ∈ a :: path, Nested.ExpandsFully (Nested.explore ig.system config) x := by
  have hx := index_explicit h
  rw [← index_initials h, ← index_joins h] at hfirst
  have hout := Nested.nestedSearch_outcome hx (Nested.kept_screened hx config hfirst)
  rw [hr] at hout
  cases hout with
  | violated => cases hv
  | @cleared vs opened store o stats stats' hend he =>
    obtain ⟨hstrict, hscreened⟩ := hend.holds
    rw [he]
    refine ⟨hstrict.states_eq hend.inv, fun s hs a path hsa hcycle => ?_⟩
    exact hscreened.cycle_full hstrict hend.inv hx hend.seeded (index_initials h ▸ hs)
      (ReflTransGen.mono (fun _ _ => Expands.index h) _ _ hsa)
      (hcycle.imp fun _ _ => Expands.index h)

/-- Two states whose ample sets lead to each other, and a way out of both. -/
def ampleLoop : Graph where
  initial := [0]
  edges := [{ source := 0, target := 1 }, { source := 0, target := 2 }, { source := 1, target := 0 },
    { source := 1, target := 2 }]
  accepting := [2]
  ample := (AmpleSets.empty.insert 0 [1]).insert 1 [0]

theorem nestedSearch_cycle_full_ampleLoop :
    ∃ ig report, ampleLoop.index = .ok ig ∧
      nestedSearch ig.system { reduction := true } = .ok report ∧ report.verdict = .holds ∧
      List.IsChain (ampleLoop.Expands (Nested.explore ig.system { reduction := true })) [0, 1, 0] ∧
      ∃ x ∈ [0, 1], Nested.ExpandsFully (Nested.explore ig.system { reduction := true }) x := by
  obtain ⟨ig, h⟩ : ∃ ig, ampleLoop.index = .ok ig := ⟨_, rfl⟩
  have hrun : ampleLoop.index.toOption.map (fun ig => nestedSearch ig.system { reduction := true }) =
      some (.ok ⟨.holds, { states := 4, edges := 3, deadlocks := 2 }, 3⟩) := by decide +kernel
  rw [h] at hrun
  have hrun := Option.some.inj hrun
  have hfirst : ampleLoop.initial.Pairwise
      fun a b => a ≠ b → ¬ ReflTransGen ampleLoop.Joins a b := List.pairwise_singleton _ _
  -- the edges of the loop are ample ones, so they are taken in any case
  have hcycle : List.IsChain
      (ampleLoop.Expands (Nested.explore ig.system { reduction := true })) [0, 1, 0] := by
    refine .cons_cons ⟨⟨⟨0, 1, {}⟩, by decide, rfl, rfl⟩, fun _ => ⟨[1], by decide, by decide⟩⟩ ?_
    exact .cons_cons ⟨⟨⟨1, 0, {}⟩, by decide, rfl, rfl⟩, fun _ => ⟨[0], by decide, by decide⟩⟩
      (.singleton _)
  exact ⟨ig, _, h, hrun, rfl, hcycle,
    (nestedSearch_cycle_full h _ hfirst hrun rfl).2 0 (by decide) 0 [1] .refl hcycle⟩

end Graph

end ModelChecker
