import ModelChecker.Proofs.NestedOuter

namespace ModelChecker.Nested

open DepthFirst

variable {σ : Type} {sys : System σ}

/-- A path from an initial state, without repetition, whose last state leads back to where the cycle
starts; the goal is an accepting state on the cycle. -/
structure IsLasso (sys : System σ) (l : Lasso (Vertex σ)) : Prop where
  linked : Linked sys l.path.reverse
  nodup : (l.path.map (·.state)).Nodup
  back : ∃ v t, l.path.getLast? = some v ∧ l.path[l.cycleStart]? = some t ∧
    ∃ n ∈ sys.successors v.state, n.1 = t.state
  accepting : sys.accepting l.goal.state = true
  goal : l.goal ∈ l.cycle

theorem Outer.split?_eq {o : Outer σ} {t : Vertex σ} (ht : t ∈ o.stack)
    (hinj : ∀ v ∈ o.stack, v.handle = t.handle → v = t) :
    ∃ tail outer, o.split? t.handle = some (tail, t :: outer) ∧
      o.stack.reverse = tail ++ t :: outer := by
  unfold Outer.split?
  have hrev : t ∈ o.stack.reverse := List.mem_reverse.2 ht
  have hinj : ∀ v ∈ o.stack.reverse, v.handle = t.handle → v = t :=
    fun v hv => hinj v (List.mem_reverse.1 hv)
  generalize o.stack.reverse = path at *
  cases hf : path.findIdx? (·.handle == t.handle) with
  | none =>
    rw [List.findIdx?_eq_none_iff] at hf
    have := hf t hrev
    simp at this
  | some i =>
    obtain ⟨hi, hh, -⟩ := List.findIdx?_eq_some_iff_getElem.1 hf
    have hit : path[i] = t := hinj _ (List.getElem_mem hi) (by simpa using hh)
    refine ⟨path.take i, path.drop (i + 1), ?_, ?_⟩
    · simp only [hf, Option.map_some, List.splitAt_eq]
      rw [List.drop_eq_getElem_cons hi, hit]
    · rw [← hit, ← List.drop_eq_getElem_cons hi, List.take_append_drop]

theorem isLasso_of_stack {stack tail outer : List (Vertex σ)} {u t : Vertex σ} {n : Successor σ}
    (hlinked : Linked sys (u :: stack)) (hnodup : ((u :: stack).map (·.state)).Nodup)
    (hsplit : (u :: stack).reverse = tail ++ t :: outer) (hn : n ∈ sys.successors u.state)
    (hnt : n.1 = t.state) (hacc : sys.accepting t.state = true) :
    IsLasso sys ⟨tail, t :: outer, [], t⟩ := by
  have hpath : (⟨tail, t :: outer, [], t⟩ : Lasso (Vertex σ)).path = (u :: stack).reverse := by
    rw [Lasso.path, List.append_nil, hsplit]
  refine ⟨?_, ?_, ⟨u, t, ?_, ?_, n, hn, hnt⟩, hacc, ?_⟩
  · rw [hpath, List.reverse_reverse]
    exact hlinked
  · rw [hpath, List.map_reverse, List.nodup_reverse]
    exact hnodup
  · rw [hpath, List.getLast?_reverse]
    rfl
  · simp [Lasso.path, Lasso.cycleStart]
  · simp [Lasso.cycle]

theorem Inner.Closed.isLasso {en : Entry σ} {stack tail outer : List (Vertex σ)} {t : Vertex σ}
    (h : Inner.Closed sys en stack t) (hsplit : (en.start :: en.below).reverse = tail ++ t :: outer)
    (hacc : sys.accepting en.start.state = true) :
    IsLasso sys ⟨tail, (t :: outer).dropLast, stack.reverse, en.start⟩ := by
  have hbelow : tail ++ (t :: outer).dropLast = en.below.reverse := by
    rw [← List.dropLast_append_of_ne_nil (List.cons_ne_nil t outer), ← hsplit, List.reverse_cons,
      List.dropLast_concat]
  have hpath : (⟨tail, (t :: outer).dropLast, stack.reverse, en.start⟩ : Lasso (Vertex σ)).path =
      (stack ++ en.below).reverse := by
    rw [Lasso.path, hbelow, List.reverse_append]
  obtain ⟨v, hv, n, hn, hnt⟩ := h.edge
  have hstart : en.start ∈ stack := List.mem_of_getLast? h.base
  refine ⟨?_, ?_, ⟨v, t, ?_, ?_, n, hn, hnt⟩, hacc, ?_⟩
  · rw [hpath, List.reverse_reverse]
    exact h.linked
  · rw [hpath, List.map_reverse, List.nodup_reverse]
    exact h.nodup
  · rw [hpath, List.getLast?_reverse, List.head?_append, hv]
    rfl
  · change (tail ++ (t :: outer).dropLast ++ stack.reverse)[tail.length]? = some t
    rw [List.append_assoc, List.getElem?_append_right (Nat.le_refl _), Nat.sub_self]
    cases outer with
    | nil =>
      -- the cycle is closed at the start itself
      have ht : en.start = t := by
        have hlast := congrArg List.getLast? hsplit
        simpa using hlast
      rw [← ht]
      change stack.reverse[0]? = _
      rw [← List.head?_eq_getElem?, List.head?_reverse, h.base]
    | cons x outer => rfl
  · exact List.mem_append_right _ (List.mem_reverse.2 hstart)

namespace Outer

section step
variable {reduction : Bool} {limit : Option Nat} {vs : List (Vertex σ × Bool)}
  {opened : List (Vertex σ)} {v : Vertex σ} {frames : List (Frame σ)}
  {seeds : List (Vertex σ × Bool)} {store store' : Store σ} {o : Outer σ}
  {stats stats' : SearchStats} {p p' : Position σ (Outer σ)}

abbrev entry (v : Vertex σ) (frames : List (Frame σ)) (store : Store σ) (o : Outer σ) : Entry σ :=
  ⟨store, o.marks, v, frames.map (·.vertex)⟩

theorem Inv.entry_ok
    (h : Inv sys reduction limit vs opened [] ⟨⟨v, []⟩ :: frames, seeds, store, o, stats⟩) :
    (entry v frames store o).Ok sys where
  canonical := h.canonical
  within := h.within
  placed := h.placed
  linked := h.linked
  nodup := h.nodup
  mem w hw := h.opened_mem w (h.path_sub w hw)
  onStack := h.onStack

theorem Inv.swept_refl (h : Inv sys reduction limit vs opened [] p) :
    Swept sys p.store p.observation p.store p.observation where
  canonical := h.canonical
  limit := rfl
  within := h.within
  grows _ hw := hw
  placed := h.placed
  added _ hw := .inl hw
  onStack _ := rfl
  reduced _ := rfl
  kept _ hv := hv
  visited := h.visited
  stack := rfl
  lasso := h.lasso
  error := h.error

def absorb (o : Outer σ) (inner : Inner σ) (stats : SearchStats) : Outer σ :=
  { o with marks := inner.marks, innerStats := o.innerStats + stats }

theorem mark_flags {en : Entry σ} {fresh : List (Vertex σ)} {q : Position σ (Inner σ)}
    (h : Inner.Inv sys en fresh q) (a : Handle) :
    (q.observation.marks.getD a {}).onStack = (en.marks.getD a {}).onStack ∧
      (q.observation.marks.getD a {}).reduced = (en.marks.getD a {}).reduced ∧
      ((en.marks.getD a {}).visited = true → (q.observation.marks.getD a {}).visited = true) := by
  by_cases ha : ∃ w ∈ fresh, w.handle = a
  · obtain ⟨w, hw, rfl⟩ := ha
    rw [h.visited w hw]
    exact ⟨rfl, rfl, fun _ => rfl⟩
  · rw [h.kept a fun w hw he => ha ⟨w, hw, he⟩]
    exact ⟨rfl, rfl, id⟩

theorem Inv.swept
    (h : Inv sys reduction limit vs opened [] ⟨⟨v, []⟩ :: frames, seeds, store, o, stats⟩)
    {fresh : List (Vertex σ)} {inner : Inner σ}
    (hi : Inner.Inv sys (entry v frames store o) fresh ⟨[], [], store', inner, stats'⟩) :
    Swept sys store o store' (o.absorb inner stats') where
  canonical := hi.canonical
  limit := hi.limit
  within := hi.within
  grows := hi.grows
  placed := hi.placed h.entry_ok
  added w hw := by
    by_cases hm : w ∈ store.vertices
    · exact .inl hm
    · refine .inr ⟨hm, ?_, (hi.visited_iff hw).2 (.inr ((hi.added w hw).resolve_left hm))⟩
      refine (h.placed w.handle).resolve_right fun ⟨u, hu, huw⟩ => ?_
      exact hm (hi.canonical.eq_of_handle (hi.grows u hu) hw huw ▸ hu)
  onStack a := (mark_flags hi a).1
  reduced a := (mark_flags hi a).2.1
  kept a := (mark_flags hi a).2.2
  visited w hw hv n hn := by
    have heq : edgesOf sys ((o.absorb inner stats').mark w.handle) w =
        edgesOf sys (o.mark w.handle) w := edgesOf_congr (mark_flags hi w.handle).2.1 w
    rw [heq] at hn
    rcases (hi.visited_iff hw).1 hv with hv | hv
    · have hw : w ∈ store.vertices := h.placed.mem_of_visited hi.canonical hi.grows hw hv
      obtain ⟨t, ht, hts, htv⟩ := h.visited w hw hv n hn
      exact ⟨t, hi.grows t ht, hts, (mark_flags hi t.handle).2.2 htv⟩
    · obtain ⟨t, ht, hts, hp⟩ := (hi.edges w hv n hn).resolve_left fun ⟨f, hf, _⟩ => nomatch hf
      exact ⟨t, ht, hts, (hi.visited_iff ht).2 hp.visited⟩
  stack := rfl
  lasso := h.lasso
  error := h.error

/-- What the closing of a state comes to. -/
inductive Closing (sys : System σ) (v : Vertex σ) (frames : List (Frame σ)) (store : Store σ)
    (o : Outer σ) : Action × Store σ × Outer σ → Prop where
  | plain (ha : sys.accepting v.state = false) :
    Closing sys v frames store o (.process, store, o.left v)
  | swept {fresh store' inner stats} (ha : sys.accepting v.state = true)
    (h : Inner.Inv sys (entry v frames store o) fresh ⟨[], [], store', inner, stats⟩) :
    Closing sys v frames store o (.process, store', (o.absorb inner stats).left v)
  | cycle {store' o' l} (hl : o'.lasso = some l) (h : IsLasso sys l) (hg : l.goal = v)
    (he : o'.error = none) : Closing sys v frames store o (.terminate, store', o')
  | full {store' o' n} (he : o'.error = some (.outOfMemory n)) (hl : store.budget.limit ≠ none) :
    Closing sys v frames store o (.terminate, store', o')

theorem closed_of_search {o' : Outer σ} (ha : sys.accepting v.state = true)
    (hs : searchFrom sys v store o = (store', o')) :
    closed sys v store o = if o'.lasso.isSome || o'.error.isSome then (.terminate, store', o')
      else ((leave v o').1, store', (leave v o').2) := by
  unfold closed
  rw [if_pos ha, hs]

/-- The closing of the latest open state never fails a check. -/
theorem Inv.closing
    (h : Inv sys reduction limit vs opened [] ⟨⟨v, []⟩ :: frames, seeds, store, o, stats⟩)
    (hx : sys.Explicit) :
    Closing sys v frames store o ((listener sys reduction).closed 0 v store o) := by
  have hstack : o.stack = v :: frames.map (·.vertex) := h.stack
  have hlasso : o.lasso = none := h.lasso
  have herror : o.error = none := h.error
  change Closing sys v frames store o (closed sys v store o)
  cases ha : sys.accepting v.state with
  | false =>
    have hclosed : closed sys v store o = (.process, store, o.left v) := by
      unfold closed
      simp only [ha, Bool.false_eq_true, if_false, hlasso, herror, Option.isSome_none, Bool.or_self,
        leave_top hstack]
    exact hclosed ▸ .plain ha
  | true =>
    -- an accepting state is closed by an inner search, which has three results
    have hres := Inner.search_result hx h.entry_ok
    generalize he : DepthFirst.run sys (Inner.listener sys v.handle) sys.extent (.vertices [v])
      store { marks := o.marks } = e at hres
    cases hres with
    | @full store' inner stats' x hf hl =>
      have hs : searchFrom sys v store o =
          (store', { o with marks := inner.marks, error := some (.outOfMemory x.states) }) := by
        unfold searchFrom
        simp only [he, hf, Exploration.finished]
      rw [closed_of_search ha hs]
      simp only [Option.isSome_some, Bool.or_true, if_true]
      exact .full rfl hl
    | @cycle store' inner stats' t hf ht hc =>
      have hmem : t ∈ o.stack := hstack ▸ hc.mem
      have hpath : ∀ w ∈ o.stack, w ∈ store.vertices := fun w hw =>
        h.opened_mem w (h.path_sub w (h.stack ▸ hw))
      obtain ⟨tail, outer, hsplit, hrev⟩ := split?_eq hmem fun w hw heq =>
        h.canonical.eq_of_handle (hpath w hw) (hpath t hmem) heq
      have hs : searchFrom sys v store o = (store', { o.absorb inner stats' with
          lasso := some ⟨tail, (t :: outer).dropLast, inner.stack.reverse, v⟩ }) := by
        have hsplit : (o.absorb inner stats').split? t.handle = some (tail, t :: outer) := hsplit
        unfold absorb at hsplit ⊢
        unfold searchFrom
        simp only [he, hf, Exploration.finished, ht, hsplit]
      rw [closed_of_search ha hs]
      simp only [Option.isSome_some, Bool.true_or, if_true]
      exact .cycle rfl (hc.isLasso (hstack ▸ hrev) ha) rfl herror
    | @none store' inner stats' fresh hi =>
      have hs : searchFrom sys v store o = (store', o.absorb inner stats') := by
        have hf : inner.fault = none := hi.fault
        have hc : inner.closing = none := hi.closing
        unfold searchFrom absorb
        simp only [he, hf, Exploration.finished, hc]
      have hl : (o.absorb inner stats').lasso = none := hlasso
      have herr : (o.absorb inner stats').error = none := herror
      have htop : (o.absorb inner stats').stack = v :: frames.map (·.vertex) := hstack
      rw [closed_of_search ha hs, leave_top htop]
      simp only [hl, herr, Option.isSome_none, Bool.or_self, Bool.false_eq_true, if_false]
      exact .swept ha hi

end step

/-- All that a step of the outer search can do when the search goes on, with the states that are
opened before and after it. -/
inductive Turn (sys : System σ) (reduction : Bool) : List (Vertex σ) → Position σ (Outer σ) →
    List (Vertex σ) → Position σ (Outer σ) → Prop where
  | skipSeed {opened v seeds store o stats} :
    Turn sys reduction opened ⟨[], (v, false) :: seeds, store, o, stats⟩
      opened ⟨[], seeds, store, o, stats⟩
  | openSeed {opened v seeds store o o' r stats stats'} (hr : reduction = false → r = false)
    (he : Entered o o' v r) (hs : stats'.states = stats.states + 1) (hp : Proviso sys store o' v) :
    Turn sys reduction opened ⟨[], (v, true) :: seeds, store, o, stats⟩ (v :: opened)
      ⟨[⟨v, edgesOf sys { o.mark v.handle with onStack := true, reduced := r } v⟩], seeds, store, o',
        stats'⟩
  | skipEdge {opened u n todo frames seeds store o t stats} (ht : t ∈ store.vertices)
    (hs : t.state = n.1) :
    Turn sys reduction opened ⟨⟨u, n :: todo⟩ :: frames, seeds, store, o, stats⟩
      opened ⟨⟨u, todo⟩ :: frames, seeds, store, o, stats⟩
  | openEdge {opened u n todo frames seeds store o o' t r store' stats stats'}
    (hst : Store.Stored sys store n.1 t true store') (hr : reduction = false → r = false)
    (he : Entered o o' t r) (hs : stats'.states = stats.states + 1)
    (hp : Proviso sys store' o' t) :
    Turn sys reduction opened ⟨⟨u, n :: todo⟩ :: frames, seeds, store, o, stats⟩ (t :: opened)
      ⟨⟨t, edgesOf sys { o.mark t.handle with onStack := true, reduced := r } t⟩ :: ⟨u, todo⟩ ::
        frames, seeds, store', o', stats'⟩
  | close {opened v frames seeds store o stats} (ha : sys.accepting v.state = false) :
    Turn sys reduction opened ⟨⟨v, []⟩ :: frames, seeds, store, o, stats⟩
      opened ⟨frames, seeds, store, o.left v, stats⟩
  | sweep {opened v frames seeds store o fresh store' inner stats stats'}
    (ha : sys.accepting v.state = true)
    (hi : Inner.Inv sys (entry v frames store o) fresh ⟨[], [], store', inner, stats'⟩) :
    Turn sys reduction opened ⟨⟨v, []⟩ :: frames, seeds, store, o, stats⟩
      opened ⟨frames, seeds, store', (o.absorb inner stats').left v, stats⟩

section run
variable {reduction : Bool} {limit : Option Nat} {vs : List (Vertex σ × Bool)}
  {opened opened' : List (Vertex σ)} {p p' : Position σ (Outer σ)}

theorem Inv.turn_of_goes (h : Inv sys reduction limit vs opened [] p) (hx : sys.Explicit)
    (hg : Goes sys (listener sys reduction) p p') :
    ∃ opened', Turn sys reduction opened p opened' p' := by
  cases hg with
  | @skipSeed v b seeds store o o' stats hf =>
    rw [follow_seed] at hf
    cases b with
    | true => cases hf
    | false =>
      cases hf
      exact ⟨opened, .skipSeed⟩
  | @openSeed v b seeds store o o' stats stats' hf hs =>
    rw [follow_seed] at hf
    cases b with
    | false => cases hf
    | true =>
      cases hf
      have hno := h.fresh v List.mem_cons_self
      have hv : v ∈ store.vertices := h.seed_mem List.mem_cons_self
      obtain ⟨r, hr, he, hnext, hp⟩ := successors_enter sys reduction store v o (h.reduced v hv hno)
      rw [hnext]
      exact ⟨v :: opened, .openSeed hr he hs hp⟩
  | @skipEdge v n todo frames seeds store o t isNew store' o' stats hst hf =>
    have hst := h.canonical.stored hx hst
    rw [follow_edge] at hf
    split at hf
    · split at hf <;> cases hf
    · cases hnew : isNew with
      | true =>
        rw [hnew] at hf
        cases hf
      | false =>
        rw [hnew] at hf
        cases hf
        obtain rfl := hst.found hnew
        exact ⟨opened, .skipEdge hst.mem hst.state⟩
  | @openEdge v n todo frames seeds store o t isNew store' o' stats stats' hst hf hs =>
    have hst := h.canonical.stored hx hst
    rw [follow_edge] at hf
    split at hf
    · split at hf <;> cases hf
    · cases hnew : isNew with
      | false =>
        rw [hnew] at hf
        cases hf
      | true =>
        rw [hnew] at hf
        cases hf
        have hm : o.mark t.handle = {} := h.placed.added (hst.added hnew) hst.canonical
        obtain ⟨r, hr, he, hnext, hp⟩ := successors_enter sys reduction store' t o (by rw [hm])
        rw [hnext]
        exact ⟨t :: opened, .openEdge (hnew ▸ hst) hr he hs hp⟩
  | @close v frames seeds store o action store' o' stats hc ha =>
    have hcl := h.closing hx
    rw [hc] at hcl
    cases hcl with
    | plain hacc => exact ⟨opened, .close hacc⟩
    | swept hacc hi => exact ⟨opened, .sweep hacc hi⟩
    | cycle => exact absurd rfl ha
    | full => exact absurd rfl ha

/-- Every step that goes on keeps the invariant. -/
theorem Inv.turn (h : Inv sys reduction limit vs opened [] p) (hx : sys.Explicit)
    (hseed : Seeded sys vs) (ht : Turn sys reduction opened p opened' p') :
    Inv sys reduction limit vs opened' [] p' := by
  cases ht with
  | skipSeed => exact h.popSeed
  | @openSeed v seeds store o o' r stats stats' hr he hs =>
    obtain ⟨done, hvs, -⟩ := h.seeds
    have hinit : v.state ∈ sys.initials := h.seed_initial hseed List.mem_cons_self
    refine h.popSeed.enter hx (h.seed_mem List.mem_cons_self) (h.fresh v List.mem_cons_self)
      (hseed.notMem hvs) (.root hinit) (fun _ => ⟨done ++ [(v, true)], ?_, ?_⟩) hr he hs
    · rw [hvs, List.append_assoc]
      rfl
    · rw [List.map_append]
      exact List.mem_append_right _ List.mem_cons_self
  | skipEdge ht hs =>
    -- the target is in the store, so storing it again changes nothing
    have hst : Store.Stored sys _ _ _ false _ :=
      ⟨hs, ht, h.canonical, rfl, fun _ hw => hw, fun _ hw => .inr hw, fun _ => rfl, nofun⟩
    exact h.popEdge hx hst
  | @openEdge u n todo frames seeds store o o' t r store' stats stats' hst hr he hs =>
    have hn := mem_successors_of_mem_edgesOf hx (h.todo _ List.mem_cons_self n List.mem_cons_self)
    exact (h.popEdge hx hst).enter hx hst.mem (fun hm => hst.ne_of_mem (h.opened_mem t hm) rfl)
      (fun hm => hst.ne_of_mem (h.seed_mem hm) rfl) (.cons h.linked hn hst.state.symm) nofun
      hr he hs
  | close ha => exact h.close h.swept_refl fun hacc => by rw [ha] at hacc; cases hacc
  | @sweep v frames seeds store o fresh store' inner stats stats' ha hi =>
    -- the inner search has visited its start, whether it opened it or found it visited
    refine h.close (h.swept hi) fun _ => ?_
    have hv := hi.grows v (h.opened_mem v (h.path_sub v List.mem_cons_self))
    refine (hi.visited_iff hv).2 ?_
    exact (hi.seeds.resolve_left fun hx => nomatch hx.1).2

/-- How the outer search ends at a position. -/
inductive Halted (sys : System σ) (limit : Option Nat) :
    Position σ (Outer σ) → Exploration σ (Outer σ) → Prop where
  | full {p store o stats e} (hl : limit ≠ none) (he : o.error = none) :
    Halted sys limit p ⟨store, o, stats, some (.exhausted e)⟩
  | innerFull {p store o stats n} (hl : limit ≠ none) (he : o.error = some (.outOfMemory n)) :
    Halted sys limit p ⟨store, o, stats, some .terminated⟩
  | cycle {p store o stats l} (hl : o.lasso = some l) (h : IsLasso sys l) (hg : l.goal ∈ p.path)
    (he : o.error = none) : Halted sys limit p ⟨store, o, stats, some .terminated⟩
  | done {store o stats} :
    Halted sys limit ⟨[], [], store, o, stats⟩ ⟨store, o, stats, some .completed⟩

theorem Inv.halts (h : Inv sys reduction limit vs opened [] p) (hx : sys.Explicit)
    {e : Exploration σ (Outer σ)} (hh : Halts sys (listener sys reduction) p e) :
    Halted sys limit p e := by
  cases hh with
  | completed => exact .done
  | @stopSeed v b seeds store o o' stats hf =>
    rw [follow_seed] at hf
    split at hf <;> cases hf
  | @full v n todo frames seeds store o e stats hst =>
    refine .full ?_ h.error
    rw [← h.limit_eq]
    exact h.canonical.limit_of_error hx hst
  | @stopEdge v n todo frames seeds store o t isNew store' o' stats hst hf =>
    have hst := h.canonical.stored hx hst
    have hstack : o.stack = v :: frames.map (·.vertex) := h.stack
    have hpath : ∀ w ∈ o.stack, w ∈ store.vertices := fun w hw =>
      h.opened_mem w (h.path_sub w (h.stack ▸ hw))
    rw [follow_edge] at hf
    split at hf
    · rename_i hback
      -- a state on the stack has a mark, hence was stored before
      have hold : isNew = false := by
        refine Bool.eq_false_iff.2 fun hnew => ?_
        have hm : o.mark t.handle = {} := h.placed.added (hst.added hnew) hst.canonical
        rw [hm] at hback
        cases hback.1
      obtain rfl := hst.found hold
      have hmem : t ∈ o.stack := h.stack ▸ (h.onStack t hst.mem).1 hback.1
      obtain ⟨tail, outer, hsplit, hrev⟩ := split?_eq hmem fun w hw heq =>
        h.canonical.eq_of_handle (hpath w hw) hst.mem heq
      rw [hsplit] at hf
      cases hf
      have hn := mem_successors_of_mem_edgesOf hx (h.todo _ List.mem_cons_self n List.mem_cons_self)
      refine .cycle rfl (isLasso_of_stack h.linked ?_ (hstack ▸ hrev) hn hst.state.symm hback.2)
        (h.stack ▸ hmem) h.error
      refine List.Nodup.map_on (fun a ha b hb hab => ?_) h.nodup
      exact h.canonical.eq_of_state (hpath a (hstack ▸ ha)) (hpath b (hstack ▸ hb)) hab
    · split at hf <;> cases hf
  | @stopClose v frames seeds store o store' o' stats hc =>
    have hcl := h.closing hx
    rw [hc] at hcl
    cases hcl with
    | cycle hl hlasso hg he => exact .cycle hl hlasso (hg ▸ List.mem_cons_self) he
    | full he hl => exact .innerFull (h.limit_eq ▸ hl) he

/-- The search starts with all initial states stored and none opened. -/
theorem inv_start (reduction : Bool) {vs : List (Vertex σ × Bool)} {store : Store σ}
    (h : Store.Resolved sys sys.initials (.ofShards Store.defaultShards limit) vs store) :
    Seeded sys vs ∧ Inv sys reduction limit vs [] [] ⟨[], vs, store, {}, {}⟩ := by
  have hnil : (Store.ofShards Store.defaultShards limit : Store σ).vertices = [] :=
    Store.vertices_ofShards _ _
  have hinit : ∀ v ∈ store.vertices, v.state ∈ sys.initials := by
    intro v hv
    refine (h.origin v hv).resolve_left fun hm => ?_
    rw [hnil] at hm
    cases hm
  -- as the store was empty, a seed is new exactly if no earlier seed has its state
  have hnew : Seeded sys vs := by
    refine ⟨h.states_eq, fun before v b rest hvs => (h.isNew_iff before v b rest hvs).trans ?_⟩
    rw [hnil]
    exact and_iff_right nofun
  have hmark : ∀ a, ({} : Outer σ).mark a = {} := fun a => Std.TreeMap.getD_emptyc
  refine ⟨hnew, ?_⟩
  exact {
    canonical := h.canonical
    limit_eq := h.limit
    within := fun v hv => .inl (hinit v hv)
    placed := fun a => .inl (hmark a)
    stack := rfl
    linked := .nil
    nodup := List.nodup_nil
    onStack := fun v _ => iff_of_false (by rw [hmark]; exact Bool.false_ne_true) nofun
    path_sub := nofun
    opened_mem := nofun
    opened_nodup := List.nodup_nil
    count := rfl
    reduced := fun v _ _ => by rw [hmark]
    full := fun _ a => by rw [hmark]
    seeds := ⟨[], rfl, nofun⟩
    seeds_mem := h.mem
    fresh := nofun
    todo := nofun
    edges := nofun
    covered := fun v hv => .inr (.inr (.inl (hnew.mem_of_mem h.canonical h.mem hv (hinit v hv))))
    visited := fun v _ hv => by rw [hmark] at hv; cases hv
    accepted := nofun
    lasso := rfl
    error := rfl }

theorem length_successors_le (hx : sys.Explicit) (reduction : Bool) (store : Store σ) (v : Vertex σ)
    (o : Outer σ) : ((listener sys reduction).successors 0 store v o).1.length ≤ sys.degree := by
  change (successors sys reduction store v o).1.length ≤ sys.degree
  unfold successors
  split
  · rename_i a rest ha
    split
    · exact hx.length_successors_le _
    · refine hx.length_ample_le v.state _ ?_
      cases reduction with
      | false => cases ha
      | true => exact ha
  · exact hx.length_successors_le _

theorem Inv.states_le (h : Inv sys reduction limit vs opened [] p) (hx : sys.Explicit) :
    p.stats.states ≤ sys.extent := by
  rw [h.count]
  exact (List.subperm_of_subset h.opened_nodup h.opened_mem).length_le.trans
    (h.within.length_le h.canonical.toDistinct hx)

end run

end Outer

section outcome
variable {config : SearchConfig}
  {P : List (Vertex σ × Bool) → List (Vertex σ) → Position σ (Outer σ) → Prop}

/-- Where the outer search can be, after the steps so far. -/
structure Reached (sys : System σ) (config : SearchConfig)
    (P : List (Vertex σ × Bool) → List (Vertex σ) → Position σ (Outer σ) → Prop)
    (vs : List (Vertex σ × Bool)) (opened : List (Vertex σ)) (p : Position σ (Outer σ)) : Prop where
  seeded : Seeded sys vs
  inv : Outer.Inv sys config.reduction config.stateLimit vs opened [] p
  holds : P vs opened p

/-- `P` holds at the start of the outer search and is kept by its steps. -/
structure Kept (sys : System σ) (config : SearchConfig)
    (P : List (Vertex σ × Bool) → List (Vertex σ) → Position σ (Outer σ) → Prop) : Prop where
  start : ∀ vs store, Seeded sys vs →
    Outer.Inv sys config.reduction config.stateLimit vs [] [] ⟨[], vs, store, {}, {}⟩ →
    P vs [] ⟨[], vs, store, {}, {}⟩
  turn : ∀ vs opened p opened' p', Reached sys config P vs opened p →
    Outer.Turn sys config.reduction opened p opened' p' → P vs opened' p'

theorem kept_true (sys : System σ) (config : SearchConfig) : Kept sys config fun _ _ _ => True :=
  ⟨fun _ _ _ _ => trivial, fun _ _ _ _ _ _ _ => trivial⟩

theorem explore_halted (hx : sys.Explicit) (hP : Kept sys config P) :
    (∃ store e, config.stateLimit ≠ none ∧
      explore sys config = ⟨store, {}, {}, some (.exhausted e)⟩) ∨
    ∃ vs opened p, Reached sys config P vs opened p ∧
      Outer.Halted sys config.stateLimit p (explore sys config) := by
  have hc : (Store.ofShards Store.defaultShards config.stateLimit : Store σ).Canonical sys :=
    Store.canonical_ofShards sys _ _ (by decide)
  rcases hc.resolve_cases hx sys.initials with ⟨vs, store, hr, hres⟩ | ⟨n, e, store, hn, hr⟩
  · obtain ⟨hseed, hinv⟩ := Outer.inv_start config.reduction hres
    have hgoes : ∀ p p', (∃ opened, Reached sys config P vs opened p) →
        Goes sys (Outer.listener sys config.reduction) p p' →
        ∃ opened, Reached sys config P vs opened p' := by
      rintro p p' ⟨opened, hp⟩ hg
      obtain ⟨opened', ht⟩ := hp.inv.turn_of_goes hx hg
      exact ⟨opened', hseed, hp.inv.turn hx hseed ht, hP.turn vs opened p opened' p' hp ht⟩
    have hr : Seeds.initials.resolve sys (.ofShards Store.defaultShards config.stateLimit) =
        .ok (vs, store) := hr
    obtain ⟨p, ⟨opened, hp⟩, hh⟩ :=
      run_halts (P := fun p => ∃ opened, Reached sys config P vs opened p)
        hr (fun _ _ => rfl) (Outer.length_successors_le hx config.reduction)
        ⟨[], hseed, hinv, hP.start vs store hseed hinv⟩ hgoes
        fun p ⟨opened, hp⟩ => hp.inv.states_le hx
    exact .inr ⟨vs, opened, p, hp, hp.inv.halts hx hh⟩
  · have hlimit : config.stateLimit = some n := hn
    refine .inl ⟨store, e, by rw [hlimit]; nofun, ?_⟩
    unfold explore run
    simp only [Seeds.resolve, hr]

/-- What a nested search returns. -/
inductive Outcome (sys : System σ) (config : SearchConfig)
    (P : List (Vertex σ × Bool) → List (Vertex σ) → Position σ (Outer σ) → Prop) :
    Except SearchError (LivenessReport σ) → Prop where
  | full {n} (hl : config.maxStates ≠ none) : Outcome sys config P (.error (.outOfMemory n))
  | violated {vs opened p l stats stored} (h : Reached sys config P vs opened p)
    (hl : IsLasso sys l) (hg : l.goal ∈ opened) :
    Outcome sys config P (.ok ⟨.violated (l.map (·.state)), stats, stored⟩)
  | cleared {vs opened store o stats stats'}
    (h : Reached sys config P vs opened ⟨[], [], store, o, stats⟩)
    (he : explore sys config = ⟨store, o, stats, some .completed⟩) :
    Outcome sys config P (.ok ⟨if store.isEmpty then .noStates else .holds, stats', store.size⟩)

theorem nestedSearch_outcome (hx : sys.Explicit) (hP : Kept sys config P) :
    Outcome sys config P (nestedSearch sys config) := by
  have hlimit : config.stateLimit ≠ none → config.maxStates ≠ none := by
    unfold SearchConfig.stateLimit
    exact fun hl hno => hl (by rw [hno]; rfl)
  unfold nestedSearch
  rcases explore_halted hx hP with ⟨store, e, hl, he⟩ | ⟨vs, opened, p, hp, hh⟩
  · rw [he]
    exact .full (hlimit hl)
  · generalize he : explore sys config = e at hh
    cases hh with
    | @full _ store o stats e hl herr =>
      simp only [herr]
      exact .full (hlimit hl)
    | innerFull hl herr =>
      simp only [herr]
      exact .full (hlimit hl)
    | cycle hl hlasso hg herr =>
      simp only [herr, conclude, hl]
      exact .violated hp hlasso (hp.inv.path_sub _ hg)
    | @done store o stats =>
      have herr : o.error = none := hp.inv.error
      have hl : o.lasso = none := hp.inv.lasso
      simp only [herr, conclude, hl]
      exact .cleared hp he

end outcome

end ModelChecker.Nested
