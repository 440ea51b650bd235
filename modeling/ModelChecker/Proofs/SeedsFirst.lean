import ModelChecker.Proofs.PartitionedSchedule
import ModelChecker.Proofs.Sifting

namespace ModelChecker.Partitioned

variable {σ ω : Type} {sys : System σ} {l : Listener σ ω} {n i : Nat}

/-- No seed stands behind an edge in the inbox, and none is there while a state is expanded. -/
structure Worker.SeedsFirst (w : Worker σ) : Prop where
  inbox : w.inbox.toList.Pairwise fun a b => b.source = none → a.source = none
  current : w.current.isSome = true → ∀ x ∈ w.inbox.toList, x.source ≠ none

def Worker.Awaits (w : Worker σ) (s : σ) : Prop :=
  ∃ x ∈ w.inbox.toList, x.source = none ∧ x.next.1 = s

theorem Worker.SeedsFirst.push {w : Worker σ} (h : w.SeedsFirst) {x : Message σ}
    (hx : x.source ≠ none) : ({ w with inbox := w.inbox.push x } : Worker σ).SeedsFirst := by
  constructor
  · rw [Fifo.toList_push, List.pairwise_append]
    refine ⟨h.inbox, List.pairwise_singleton _ _, fun a _ b hb hnone => ?_⟩
    exact absurd (List.mem_singleton.1 hb ▸ hnone) hx
  · intro hc y hy
    rw [Fifo.toList_push, List.mem_append, List.mem_singleton] at hy
    rcases hy with hy | rfl
    · exact h.current hc y hy
    · exact hx

theorem Worker.Awaits.push {w : Worker σ} {s : σ} (h : w.Awaits s) (x : Message σ) :
    ({ w with inbox := w.inbox.push x } : Worker σ).Awaits s := by
  obtain ⟨y, hy, hys⟩ := h
  refine ⟨y, ?_, hys⟩
  rw [Fifo.toList_push]
  exact List.mem_append_left _ hy

section sown
variable {mr : State σ (ω × Journal σ)} {seeds : List σ}

/-- Before the first step the inboxes hold seeds and nothing else. -/
structure Sown (sys : System σ) (n : Nat) (seeds : List σ) (mr : State σ (ω × Journal σ)) :
    Prop where
  size : mr.workers.size = n
  tellings : mr.observation.2.tellings = []
  workers : ∀ w ∈ mr.workers, w.current = none ∧ ∀ x ∈ w.inbox.toList, x.source = none
  awaited : ∀ s ∈ seeds, ∃ w, mr.workers[Store.owner n (sys.fingerprint s)]? = some w ∧ w.Awaits s

theorem Sown.send (h : Sown sys n seeds mr) (hpos : 0 < n) (s : σ) :
    Sown sys n (s :: seeds) (send sys ⟨none, s, {}⟩ mr) := by
  have howner : mr.owner sys s = Store.owner n (sys.fingerprint s) := by rw [State.owner, h.size]
  have hget : ∀ k, (Partitioned.send sys ⟨none, s, {}⟩ mr).workers[k]? =
      if Store.owner n (sys.fingerprint s) = k then
        mr.workers[k]?.map fun w => { w with inbox := w.inbox.push ⟨none, s, {}⟩ }
      else mr.workers[k]? := by
    intro k
    rw [← howner]
    exact Array.getElem?_modify
  refine ⟨Array.size_modify.trans h.size, h.tellings, fun w hw => ?_, fun a ha => ?_⟩
  · obtain ⟨k, hk⟩ := Array.getElem?_of_mem hw
    rw [hget] at hk
    split at hk
    · obtain ⟨w', hw', rfl⟩ := Option.map_eq_some_iff.1 hk
      obtain ⟨hc, hin⟩ := h.workers w' (Array.mem_of_getElem? hw')
      refine ⟨hc, fun x hx => ?_⟩
      rw [Fifo.toList_push, List.mem_append, List.mem_singleton] at hx
      rcases hx with hx | rfl
      · exact hin x hx
      · rfl
    · exact h.workers w (Array.mem_of_getElem? hk)
  · rw [hget]
    rcases List.mem_cons.1 ha with rfl | ha
    · obtain ⟨w, hw⟩ := exists_owner sys (h.size ▸ hpos) a
      rw [howner] at hw
      rw [if_pos rfl, hw]
      refine ⟨_, rfl, ⟨none, a, {}⟩, ?_, rfl, rfl⟩
      simp
    · obtain ⟨w, hw, hs⟩ := h.awaited a ha
      rw [hw]
      split
      · exact ⟨_, rfl, hs.push _⟩
      · exact ⟨w, rfl, hs⟩

theorem sown_start (states : List σ) {store : Store σ} (hpos : 0 < store.shards.size) (o : ω) :
    Sown sys store.shards.size states.reverse (start sys states store (o, {})) := by
  have hsends : ∀ (done : List σ) (mr : State σ (ω × Journal σ)),
      Sown sys store.shards.size done mr → Sown sys store.shards.size (states.reverse ++ done)
        (states.foldl (fun m s => send sys ⟨none, s, {}⟩ m) mr) := by
    induction states with
    | nil => exact fun done mr h => h
    | cons s rest ih =>
      intro done mr h
      rw [List.reverse_cons, List.append_assoc]
      exact ih (s :: done) _ (h.send hpos s)
  rw [← List.append_nil states.reverse]
  refine hsends [] _ ⟨Array.size_replicate, rfl, fun w hw => ?_, nofun⟩
  obtain ⟨-, rfl⟩ := Array.mem_replicate.1 hw
  exact ⟨rfl, nofun⟩

end sown

variable {mr : State σ (ω × Journal σ)} {seeds : List σ} {next : Successor σ}

/-- What told of the state as new was a seed, or it is not stored yet and a seed is on its way. -/
structure Leads (sys : System σ) (n : Nat) (mr : State σ (ω × Journal σ)) (s : σ) : Prop where
  discovery : ∀ y ∈ mr.observation.2.discoveries, y.target.state = s → y.source = none
  awaited : (∀ v ∈ mr.store.vertices, v.state ≠ s) →
    ∃ w, mr.workers[Store.owner n (sys.fingerprint s)]? = some w ∧ w.Awaits s

structure Fronted (sys : System σ) (n : Nat) (seeds : List σ) (mr : State σ (ω × Journal σ)) :
    Prop where
  workers : ∀ w ∈ mr.workers, w.SeedsFirst
  leads : mr.interrupt.raised = false → ∀ s ∈ seeds, Leads sys n mr s

theorem Leads.modify {g : Worker σ → Worker σ} {s : σ} (h : Leads sys n mr s)
    (hg : ∀ w, mr.workers[i]? = some w → w.Awaits s → (g w).Awaits s) :
    Leads sys n (mr.modifyWorker i g) s := by
  refine ⟨h.discovery, fun hnone => ?_⟩
  obtain ⟨w, hw, hs⟩ := h.awaited hnone
  rw [State.modifyWorker, Array.getElem?_modify]
  by_cases hi : i = Store.owner n (sys.fingerprint s)
  · rw [if_pos hi, hw]
    exact ⟨g w, rfl, hg w (hi ▸ hw) hs⟩
  · rw [if_neg hi]
    exact ⟨w, hw, hs⟩

section tell
variable {j : Journal σ} {x : Telling σ} {s : σ}

theorem leads_of_tell (hdiscovery : ∀ y ∈ j.discoveries, y.target.state = s → y.source = none)
    (hj : mr.observation.2 = j.tell x)
    (hx : x.isNew = true → x.target.state = s → x.source = none)
    (hawaited : (∀ v ∈ mr.store.vertices, v.state ≠ s) →
      ∃ w, mr.workers[Store.owner n (sys.fingerprint s)]? = some w ∧ w.Awaits s) :
    Leads sys n mr s := by
  refine ⟨fun y hy => ?_, hawaited⟩
  rw [hj, Journal.discoveries_tell] at hy
  split at hy
  · rcases List.mem_cons.1 hy with rfl | hy
    · exact hx ‹_›
    · exact hdiscovery y hy
  · exact hdiscovery y hy

end tell

theorem Fronted.modify {g : Worker σ → Worker σ} (h : Fronted sys n seeds mr)
    (hg : ∀ w, mr.workers[i]? = some w → w.SeedsFirst → (g w).SeedsFirst)
    (hs : ∀ w s, mr.workers[i]? = some w → w.Awaits s → (g w).Awaits s) :
    Fronted sys n seeds (mr.modifyWorker i g) := by
  refine ⟨fun w hw => ?_, fun hr s hseed => (h.leads hr s hseed).modify fun w hw => hs w s hw⟩
  obtain ⟨k, hk⟩ := Array.getElem?_of_mem hw
  rw [State.modifyWorker, Array.getElem?_modify] at hk
  split at hk
  · rename_i hik
    obtain ⟨w₀, hw₀, rfl⟩ := Option.map_eq_some_iff.1 hk
    exact hg w₀ (hik ▸ hw₀) (h.workers w₀ (Array.mem_of_getElem? hw₀))
  · exact h.workers w (Array.mem_of_getElem? hk)

theorem Fronted.send (h : Fronted sys n seeds mr) {x : Message σ} (hx : x.source ≠ none) :
    Fronted sys n seeds (send sys x mr) := by
  have hcount : Fronted sys n seeds { mr with outstanding := mr.outstanding + 1 } :=
    ⟨h.workers, fun hr s hs => ⟨(h.leads hr s hs).discovery, (h.leads hr s hs).awaited⟩⟩
  exact hcount.modify (fun w _ hw => hw.push hx) fun w s _ hs => hs.push x

theorem fronted_halt (h : ∀ w ∈ mr.workers, w.SeedsFirst) (ending : Ending) :
    Fronted sys n seeds (halt i ending mr) := by
  have hraise : Fronted sys n seeds { mr with interrupt := mr.interrupt.raise ending } := by
    refine ⟨h, fun hr => ?_⟩
    cases ending <;> cases hr
  exact hraise.modify (fun w _ hw => ⟨hw.inbox, hw.current⟩) fun w s _ hs => hs

/-- A state is told of whose seed, if it has one, has been told of before or is told of now. -/
theorem fronted_accept (hx : sys.Explicit) (hd : mr.store.Distinct sys)
    (hworkers : ∀ w ∈ mr.workers, w.SeedsFirst) {source : Option (Vertex σ)}
    (hleads : mr.interrupt.raised = false → ∀ s ∈ seeds, s ≠ next.1 → Leads sys n mr s)
    (hnext : mr.interrupt.raised = false → next.1 ∈ seeds →
      (∀ y ∈ mr.observation.2.discoveries, y.target.state = next.1 → y.source = none) ∧
      ((∀ v ∈ mr.store.vertices, v.state ≠ next.1) → source = none)) :
    Fronted sys n seeds (accept sys l.recorded i source next mr) := by
  have hstored : (∃ t isNew after, sys.store mr.store next.1 = .ok ⟨t, isNew, after⟩ ∧
      t.state = next.1 ∧ t ∈ after.vertices ∧ (∀ v ∈ mr.store.vertices, v ∈ after.vertices) ∧
      (isNew = true → ∀ v ∈ mr.store.vertices, v.state ≠ next.1)) ∨
      ∃ e, sys.store mr.store next.1 = .error e := by
    rcases hd.store_cases hx next.1 with ⟨t, hv, ht, hs⟩ | ⟨t, after, hs, ht, -, ha, hd'⟩ |
      ⟨-, -, -, hs⟩
    · exact .inl ⟨t, false, _, hs, ht, hv, fun _ hv => hv, nofun⟩
    · refine .inl ⟨t, true, _, hs, ht, ha.mem_iff.2 (.inl rfl), fun v hv => ha.mem_iff.2 (.inr hv),
        fun _ v hv he => ?_⟩
      have hnodup := (ha.perm.map (·.state)).nodup_iff.1 hd'.nodup
      exact (List.nodup_cons.1 hnodup).1 (List.mem_map.2 ⟨v, hv, he.trans ht.symm⟩)
    · exact .inr ⟨_, hs⟩
  unfold Partitioned.accept
  rw [Listener.offer_eq]
  rcases mr with ⟨store, ⟨o, j⟩, workers, outstanding, interrupt⟩
  rcases hstored with ⟨t, isNew, after, hs, ht, hmem, hgrows, hnew⟩ | ⟨e, hs⟩
  · have htold : ∀ (o' : ω) (count : Nat), Fronted sys n seeds
        ⟨after, (o', j.tell ⟨i, source, t, next.2, isNew⟩), workers, count, interrupt⟩ := by
      refine fun o' count => ⟨hworkers, fun hr s hseed => ?_⟩
      by_cases hne : s = next.1
      · rw [hne] at hseed ⊢
        obtain ⟨hdiscovery, hsource⟩ := hnext hr hseed
        exact leads_of_tell hdiscovery rfl (fun hn _ => hsource (hnew hn)) fun hno =>
          absurd ht (hno t hmem)
      · have hled := hleads hr s hseed hne
        exact leads_of_tell hled.discovery rfl (fun _ he => absurd (he.symm.trans ht) hne)
          fun hno => hled.awaited fun v hv => hno v (hgrows v hv)
    simp only [hs, Listener.recorded_follow]
    cases (l.follow i source t next.2 isNew o).1 with
    | expand =>
      exact (htold _ _).modify (fun w _ hw => ⟨hw.inbox, hw.current⟩) fun w s _ hw => hw
    | skip => exact htold _ _
    | stop => exact fronted_halt (htold _ outstanding).workers _
  · simp only [hs]
    exact fronted_halt hworkers _

theorem Fronted.distribute {w : Worker σ} (hx : sys.Explicit) (ho : Owned sys n mr)
    (h : Fronted sys n seeds mr) (hw : mr.workers[i]? = some w) (hc : w.current.isSome = true)
    (source : Vertex σ) (next : Successor σ) :
    Fronted sys n seeds (distribute sys l.recorded i source next mr) := by
  unfold Partitioned.distribute
  split
  · rename_i howner
    refine fronted_accept hx ho.distinct h.workers (fun hr s hs _ => h.leads hr s hs)
      fun hr hs => ?_
    refine ⟨(h.leads hr _ hs).discovery, fun hnone => ?_⟩
    obtain ⟨w', hw', x, hmem, hseed, -⟩ := (h.leads hr _ hs).awaited hnone
    rw [State.owner, ho.size] at howner
    rw [howner, hw] at hw'
    cases hw'
    exact absurd hseed ((h.workers w (Array.mem_of_getElem? hw)).current hc x hmem)
  · exact h.send (Option.some_ne_none _)

/-- The message that is received is a seed if any seed is in the inbox. -/
theorem Fronted.receive {w : Worker σ} {x : Message σ} {inbox : Fifo (Message σ)}
    (hx : sys.Explicit) (ho : Owned sys n mr) (h : Fronted sys n seeds mr)
    (hw : mr.workers[i]? = some w) (hpop : w.inbox.pop? = some (x, inbox)) :
    Fronted sys n seeds (accept sys l.recorded i x.source x.next
      (mr.modifyWorker i fun w => { w with inbox, finished := w.finished + 1 })) := by
  have hlist := Fifo.toList_of_pop? hpop
  have hfirst := h.workers w (Array.mem_of_getElem? hw)
  have hpairs := hfirst.inbox
  rw [hlist, List.pairwise_cons] at hpairs
  apply fronted_accept hx
  · exact ho.distinct
  · intro w' hw'
    rcases mem_modifyWorker hw hw' with rfl | hw'
    · refine ⟨hpairs.2, fun hc y hy => hfirst.current hc y ?_⟩
      rw [hlist]
      exact List.mem_cons_of_mem _ hy
    · exact h.workers w' hw'
  · intro hr s hs hne
    refine (h.leads hr s hs).modify fun w' hw' ⟨y, hy, hys⟩ => ⟨y, ?_, hys⟩
    rw [hw] at hw'
    cases hw'
    rw [hlist] at hy
    rcases List.mem_cons.1 hy with rfl | hy
    · exact absurd hys.2.symm hne
    · exact hy
  · intro hr hs
    refine ⟨(h.leads hr _ hs).discovery, fun hnone => ?_⟩
    obtain ⟨w', hw', y, hmem, hseed, -⟩ := (h.leads hr _ hs).awaited hnone
    have howner := (ho.owns i w hw).inbox x (hlist ▸ List.mem_cons_self)
    rw [howner, hw] at hw'
    cases hw'
    rw [hlist] at hmem
    rcases List.mem_cons.1 hmem with rfl | hmem
    · exact hseed
    · exact hpairs.1 y hmem hseed

theorem Fronted.expand {w : Worker σ} (h : Fronted sys n seeds mr) (hw : mr.workers[i]? = some w)
    (hempty : w.inbox.toList = []) (v : Vertex σ) (stats : SearchStats) :
    Fronted sys n seeds (expand l.recorded i v stats mr) := by
  rcases mr with ⟨store, ⟨o, j⟩, workers, outstanding, interrupt⟩
  have hexpanded : ∀ o' : ω, Fronted sys n seeds
      ⟨store, (o', j.expand i v), workers, outstanding, interrupt⟩ := fun o' =>
    ⟨h.workers, fun hr s hs => ⟨(h.leads hr s hs).discovery, (h.leads hr s hs).awaited⟩⟩
  unfold Partitioned.expand
  simp only [Listener.recorded_expand]
  rcases l.expand i store v stats o with ⟨next, stats', o'⟩
  cases next with
  | none =>
    have hkept := (hexpanded o').modify (i := i) (g := fun w => { w with stats := stats' })
      (fun w _ hw => ⟨hw.inbox, hw.current⟩) fun w s _ hs => hs
    exact fronted_halt hkept.workers _
  | some next =>
    refine (hexpanded o').modify (fun w' hw' hseeds => ⟨hseeds.inbox, fun _ x hmem => ?_⟩)
      fun w s _ hs => hs
    cases hw.symm.trans hw'
    rw [hempty] at hmem
    cases hmem

theorem Fronted.work {w : Worker σ} (hx : sys.Explicit) (ho : Owned sys n mr)
    (h : Fronted sys n seeds mr) (hw : mr.workers[i]? = some w) :
    Fronted sys n seeds (Partitioned.work sys l.recorded i w mr) := by
  unfold Partitioned.work
  split
  · rename_i v next rest hc
    have hcurrent : w.current.isSome = true := by rw [hc]; rfl
    have hkept : Fronted sys n seeds
        (mr.modifyWorker i fun w => { w with current := some (v, rest) }) := by
      refine h.modify (fun w' hw' hseeds => ⟨hseeds.inbox, fun _ => ?_⟩) fun w s _ hs => hs
      cases hw.symm.trans hw'
      exact hseeds.current hcurrent
    have howned := ho.modify (i := i) (g := fun w => { w with current := some (v, rest) })
      fun w _ hw => ⟨hw.inbox, hw.queue⟩
    exact hkept.distribute hx howned (getElem?_modifyWorker hw _) rfl v next
  · exact h.modify (fun w _ hw => ⟨hw.inbox, nofun⟩) fun w s _ hs => hs
  · split
    · exact h.modify (fun w _ hw => ⟨hw.inbox, hw.current⟩) fun w s _ hs => hs
    · unfold take
      split
      · rename_i x inbox hpop
        exact h.receive hx ho hw hpop
      · rename_i hnone
        have hempty := (Fifo.pop?_eq_none_iff _).1 hnone
        split
        · rename_i v queue hpop
          have hkept : Fronted sys n seeds (mr.modifyWorker i fun w => { w with queue }) :=
            h.modify (fun w _ hw => ⟨hw.inbox, hw.current⟩) fun w s _ hs => hs
          exact hkept.expand (getElem?_modifyWorker hw _) hempty v w.stats
        · exact h.modify (fun w _ hw => ⟨hw.inbox, hw.current⟩) fun w s _ hs => hs

theorem Fronted.step (hx : sys.Explicit) (ho : Owned sys n mr) (h : Fronted sys n seeds mr)
    (i : Nat) : Fronted sys n seeds (step sys l.recorded i mr) := by
  unfold Partitioned.step
  split
  · exact h
  · rename_i w hw
    split
    · exact h.work hx ho hw
    · have hcount : Fronted sys n seeds { mr with outstanding := mr.outstanding - w.finished } :=
        ⟨h.workers, fun hr s hs => ⟨(h.leads hr s hs).discovery, (h.leads hr s hs).awaited⟩⟩
      exact hcount.modify (fun w _ hw => ⟨hw.inbox, hw.current⟩) fun w s _ hs => hs
    · exact h.modify (fun w _ hw => ⟨hw.inbox, hw.current⟩) fun w s _ hs => hs
    · exact h

theorem Fronted.runSchedule (hx : sys.Explicit) (ho : Owned sys n mr) (h : Fronted sys n seeds mr)
    (schedule : List Nat) : Fronted sys n seeds (runSchedule sys l.recorded schedule mr) := by
  induction schedule generalizing mr with
  | nil => exact h
  | cons i rest ih => exact ih (ho.step hx i) (h.step hx ho i)

theorem Sown.fronted (h : Sown sys n seeds mr) : Fronted sys n seeds mr := by
  refine ⟨fun w hw => ?_, fun _ s hs => ⟨fun y hy => ?_, fun _ => h.awaited s hs⟩⟩
  · obtain ⟨hc, hin⟩ := h.workers w hw
    refine ⟨List.pairwise_of_forall_mem_list fun a ha b _ _ => hin a ha, fun hsome => ?_⟩
    rw [hc] at hsome
    cases hsome
  · rw [Journal.discoveries, h.tellings] at hy
    cases hy

theorem run_seeds {allowance : Nat} {seeds : Seeds σ} {store : Store σ} {o : ω}
    {schedule : Schedule} (hx : sys.Explicit) (hd : store.Distinct sys)
    (hpos : 0 < store.shards.size)
    (he : (run sys l.recorded allowance seeds store (o, {}) schedule).ending = some .completed) :
    ∀ s ∈ seedStates sys seeds, ∀ y ∈
      (run sys l.recorded allowance seeds store (o, {}) schedule).observation.2.discoveries,
        y.target.state = s → y.source = none := by
  obtain ⟨steps, hrun⟩ : ∃ steps, _ = runSchedule sys l.recorded steps _ :=
    rounds_eq_runSchedule sys _ schedule (enough sys allowance (seedStates sys seeds).length)
      (start sys (seedStates sys seeds) store (o, {}))
  have hfront : Fronted sys store.shards.size (seedStates sys seeds).reverse
      (runSchedule sys l.recorded steps (start sys (seedStates sys seeds) store (o, {}))) :=
    (sown_start (seedStates sys seeds) hpos o).fronted.runSchedule hx
      (owned_start (seedStates sys seeds) hd o) steps
  unfold run at he ⊢
  simp only [hrun, State.toExploration] at he ⊢
  intro s hs
  refine (hfront.leads ?_ s (List.mem_reverse.2 hs)).discovery
  split at he
  · cases hr : (runSchedule sys l.recorded steps
        (start sys (seedStates sys seeds) store (o, {}))).interrupt.raised with
    | false => rfl
    | true =>
      simp only [Interrupt.ending, hr] at he
      split at he <;> cases he
  · cases he

end ModelChecker.Partitioned
