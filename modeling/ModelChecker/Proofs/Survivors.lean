import ModelChecker.Proofs.CycleCut

namespace ModelChecker.Elimination

variable {edges : List (Handle × Handle)} {owner : Handle → Nat} {gone : List Handle} {m : State}
  {a : Handle}

/-- The moves that find something to do, when they are made one after another. -/
def State.made (m : State) : List Move → List Move
  | [] => []
  | move :: rest => (if m.finds move then [move] else []) ++ (m.apply move).made rest

/-- What holds of the elimination is kept by moves in any order, and they use up what was to come. -/
theorem Running.foldl (moves : List Move) (h : Running edges owner gone m) :
    ∃ gone', Running edges owner gone' (moves.foldl State.apply m) ∧
      left 1 Part.load edges gone' (moves.foldl State.apply m) +
        (m.made moves).countP (!·.isPass) ≤ left 1 Part.load edges gone m ∧
      left 2 Part.cost edges gone' (moves.foldl State.apply m) + (m.made moves).length ≤
        left 2 Part.cost edges gone m := by
  induction moves generalizing gone m with
  | nil => exact ⟨gone, h, Nat.le_refl _, Nat.le_refl _⟩
  | cons move rest ih =>
    rw [List.foldl_cons, State.made]
    cases hf : m.finds move with
    | false =>
      rw [apply_of_not_finds hf, if_neg Bool.false_ne_true, List.nil_append]
      exact ih h
    | true =>
      obtain ⟨gone', hadv⟩ := h.apply hf
      obtain ⟨gone'', h'', hload, hcost⟩ := ih hadv.running
      have hload' := hadv.load
      have hcost' := hadv.cost
      rw [if_pos rfl, List.singleton_append, List.countP_cons, List.length_cons]
      refine ⟨gone'', h'', ?_, by omega⟩
      cases hp : move.isPass with
      | true =>
        simp only [hp, Bool.not_true, Bool.false_eq_true, if_false, if_true] at hload' ⊢
        omega
      | false =>
        simp only [hp, Bool.not_false, Bool.false_eq_true, if_false, if_true] at hload' ⊢
        omega

theorem Running.exists_idle (h : Running edges owner gone m) :
    ∃ rest : List Move, (rest.foldl State.apply m).Idle := by
  induction hn : left 2 Part.cost edges gone m using Nat.strong_induction_on generalizing gone m with
  | h n ih =>
    by_cases hidle : m.Idle
    · exact ⟨[], hidle⟩
    · obtain ⟨i, hi⟩ : ∃ i, (m.part i).next i ≠ none := by
        by_contra hno
        exact hidle fun i => next_eq_none (by simpa using not_exists.1 hno i)
      obtain ⟨move, hmove⟩ := Option.ne_none_iff_exists'.1 hi
      obtain ⟨gone', hadv⟩ := h.apply (next_eq_some hmove).2
      obtain ⟨rest, hrest⟩ := ih _ (hn ▸ hadv.cost) hadv.running rfl
      exact ⟨move :: rest, hrest⟩

theorem acc_of_reflTransGen {α : Type} {r : α → α → Prop} {a b : α}
    (h : Relation.ReflTransGen r b a) (ha : Acc r a) : Acc r b := by
  induction h using Relation.ReflTransGen.head_induction_on with
  | refl => exact ha
  | head hbc _ ih => exact ih.inv hbc

theorem Kahn.remains_of_behind (h : Kahn edges owner gone 0 m) {b : Handle}
    (hbb : Relation.TransGen (fun a b => (a, b) ∈ edges) b b)
    (hba : Relation.ReflTransGen (fun a b => (a, b) ∈ edges) b a) : m.remains a = true := by
  rcases hba.cases_tail with rfl | ⟨c, hbc, hca⟩
  · exact h.remains_of_cycle hbb
  · refine h.remains hca fun hgone => ?_
    exact not_transGen_of_acc (acc_of_reflTransGen hbc (h.removed c hgone).2) hbb

variable {σ : Type} {links : List (Vertex σ × Vertex σ)} {v : Vertex σ}

theorem touches_of_mem_ends (hv : v ∈ ends links) : Touches (byHandle links) v.handle := by
  obtain ⟨e, he, hv⟩ := List.mem_flatMap.1 hv
  refine ⟨(e.1.handle, e.2.handle), List.mem_map.2 ⟨e, he, rfl⟩, ?_⟩
  rcases List.mem_cons.1 hv with rfl | hv
  · exact .inl rfl
  · exact .inr (congrArg Vertex.handle (List.mem_singleton.1 hv)).symm

theorem exists_mem_ends (h : Touches (byHandle links) a) : ∃ v ∈ ends links, v.handle = a := by
  obtain ⟨x, hx, ha⟩ := h
  obtain ⟨e, he, rfl⟩ := List.mem_map.1 hx
  rcases ha with rfl | rfl
  · exact ⟨e.1, (mem_ends he).1, rfl⟩
  · exact ⟨e.2, (mem_ends he).2, rfl⟩

theorem Kahn.remains_iff_behind (h : Kahn (byHandle links) owner gone 0 m)
    (hid : Identified links) (hend : m.Idle) (hv : v ∈ ends links) :
    m.remains v.handle = true ↔ Behind links v := by
  constructor
  · intro hremains
    obtain ⟨b, hbb, hbv⟩ := h.exists_cycle hend (touches_of_mem_ends hv) hremains
    exact hid.behind hv hbb hbv
  · rintro ⟨cycle, hcycle, u, hu, huv⟩
    have hlift : ∀ x y, Linked links x y → (x.handle, y.handle) ∈ byHandle links :=
      fun x y hxy => List.mem_map.2 ⟨(x, y), hxy, rfl⟩
    cases cycle with
    | nil => cases hu
    | cons x path =>
      -- the path from the cycle may begin at its first vertex, which leads to all the others
      have hxu : Relation.ReflTransGen (Linked links) x u := by
        rcases List.mem_cons.1 hu with rfl | hu
        · exact .refl
        · obtain ⟨before, after, rfl⟩ := List.append_of_mem hu
          have hsplit : x :: (before ++ u :: after ++ [x]) =
              x :: (before ++ [u]) ++ (after ++ [x]) := by simp
          rw [IsCycle, hsplit] at hcycle
          exact (transGen_of_isChain hcycle.left_of_append).to_reflTransGen
      exact h.remains_of_behind ((transGen_of_isChain hcycle).lift Vertex.handle hlift)
        ((hxu.trans huv).lift Vertex.handle hlift)

open Classical in
/-- The sources of the edges that do not ascend among vertices behind cycles, in the order in which
they first come. -/
noncomputable def descents (links : List (Vertex σ × Vertex σ)) : List (Vertex σ) :=
  ((links.filter fun e => Behind links e.1 ∧ Behind links e.2 ∧ e.2.handle ≤ e.1.handle).map
    (·.1)).eraseDupsBy fun u v => u.handle == v.handle

theorem firstOccurrences_eq (vs : List (Vertex σ)) (seen : List Handle) :
    firstOccurrences vs seen =
      (vs.filter (·.handle ∉ seen)).eraseDupsBy fun u v => u.handle == v.handle := by
  induction vs generalizing seen with
  | nil => rfl
  | cons v rest ih =>
    rw [firstOccurrences]
    split
    · rename_i hv
      rw [ih, List.filter_cons_of_neg (by simpa using hv)]
    · rename_i hv
      rw [ih, List.filter_cons_of_pos (by simpa using hv), List.eraseDupsBy_cons, List.filter_filter]
      refine congrArg (fun l => v :: List.eraseDupsBy _ l) (List.filter_congr fun w _ => ?_)
      simp [not_or]

theorem Kahn.pick_eq (h : Kahn (byHandle links) owner gone 0 m) (hid : Identified links)
    (hend : m.Idle) : pick m links = descents links := by
  unfold pick descents
  rw [firstOccurrences_eq]
  simp only [List.not_mem_nil, not_false_eq_true, decide_true, List.filter_true]
  refine congrArg (List.eraseDupsBy _) (congrArg (List.map _) (List.filter_congr fun e he => ?_))
  obtain ⟨hsource, htarget⟩ := mem_ends he
  rw [Bool.eq_iff_iff]
  simp only [Bool.and_eq_true, decide_eq_true_eq, h.remains_iff_behind hid hend hsource,
    h.remains_iff_behind hid hend htarget, and_assoc]

/-- Elimination of edges whose ends are told apart by their handles.

For any number of workers and any moves in any order: no in-degree is lowered below zero and no part
is told of a vertex that it does not know, as every message is in the inbox of the part that owns
its vertex; for each edge at most three removals and deliveries and at most six moves in all find
something to do; some further moves leave nothing to do; and when nothing is left to do, the vertices
with incoming edges left are those on cycles and behind them.

For any steps of the workers in any order: the count is that of the ready vertices, the messages, the
vertices being removed and the work not yet taken off, so the first worker that returns leaves
nothing to do, and the workers can always go on until all have returned. What is picked is then the
same for every fair schedule and for every number of workers. -/
theorem eliminate_confluent (hid : Identified links) :
    (∀ (workers : Nat) (moves : List Move) (m : State),
      moves.foldl State.apply (.ofEdges workers links) = m →
      m.fault = none ∧
      (∀ i, ∀ a ∈ (m.part i).inbox, ∃ v ∈ ends links, v.handle = a ∧
        Store.owner (max workers 1) v.fingerprint = i) ∧
      ((State.ofEdges workers links).made moves).countP (!·.isPass) ≤ 3 * links.length ∧
      ((State.ofEdges workers links).made moves).length ≤ 6 * links.length ∧
      (∃ rest : List Move, (rest.foldl State.apply m).Idle) ∧
      (m.Idle → (∀ v ∈ ends links, m.remains v.handle = true ↔ Behind links v) ∧
        pick m links = descents links)) ∧
    (∀ (workers : Nat) (schedule : List Nat) (m : State),
      runSchedule schedule (.ofEdges workers links) = m →
      m.fault = none ∧
      m.outstanding = (m.parts.toList.map fun p => p.ready.length + p.inbox.length +
        (p.current.toList.length + p.finished)).sum ∧
      (∀ p ∈ m.parts, p.phase = .returned → m.Idle ∧ pick m links = descents links) ∧
      ∃ rest, (runSchedule rest m).isOver = true) ∧
    ∀ (workers : Nat) (schedule : Schedule), schedule.Fair (max workers 1) →
      eliminate links workers schedule = .ok (descents links) := by
  have hstart : ∀ workers, ∃ owner, Running (byHandle links) owner [] (.ofEdges workers links) ∧
      (State.ofEdges workers links).crew.Tidy ∧
      left 1 Part.load (byHandle links) [] (.ofEdges workers links) ≤ 3 * links.length ∧
      left 2 Part.cost (byHandle links) [] (.ofEdges workers links) ≤ 6 * links.length ∧
      ∀ v ∈ ends links, owner v.handle = Store.owner (max workers 1) v.fingerprint := by
    intro workers
    obtain ⟨owner, m, hentered, hm, -, howner⟩ := hid.entered workers
    obtain ⟨hrun, htidy, hload, hcost⟩ := hentered.start
    rw [show (byHandle links).length = links.length from List.length_map ..] at hload hcost
    rw [hm]
    exact ⟨owner, hrun, htidy, hload, hcost, howner⟩
  have hend : ∀ {owner gone m}, Running (byHandle links) owner gone m → m.Idle →
      (∀ v ∈ ends links, m.remains v.handle = true ↔ Behind links v) ∧
        pick m links = descents links := by
    intro owner gone m h hidle
    have hk := h.toKahn
    rw [hidle.underway] at hk
    exact ⟨fun v hv => hk.remains_iff_behind hid hidle hv, hk.pick_eq hid hidle⟩
  refine ⟨?_, ?_, fun workers schedule hfair => ?_⟩
  · rintro workers moves m rfl
    obtain ⟨owner, hrun, -, hload, hcost, howner⟩ := hstart workers
    obtain ⟨gone, h, hload', hcost'⟩ := hrun.foldl moves
    refine ⟨h.fault, fun i a ha => ?_, by omega, by omega, h.exists_idle, hend h⟩
    obtain ⟨rfl, htouch⟩ := (h.fits i).inbox a ha
    obtain ⟨v, hv, rfl⟩ := exists_mem_ends htouch
    exact ⟨v, hv, rfl, (howner v hv).symm⟩
  · rintro workers schedule m rfl
    obtain ⟨owner, hrun, htidy, -⟩ := hstart workers
    obtain ⟨⟨p, hbounded⟩, htidy'⟩ := runSchedule_bounded ⟨[], hrun, rfl⟩ htidy schedule
    obtain ⟨gone, h, -⟩ := id hbounded
    refine ⟨h.fault, ?_, fun p hp hret => ?_, ?_⟩
    · refine (htidy'.count rfl).trans ?_
      rw [Crew.sum, State.crew, List.map_map]
      refine congrArg List.sum (List.map_congr_left fun p _ => ?_)
      simp only [Function.comp_apply, Duty.due, Part.duty, Part.held]
      omega
    · have hidle := idle_of_returned htidy' hp hret
      exact ⟨hidle, (hend h hidle).2⟩
    · generalize runSchedule schedule (.ofEdges workers links) = m at hbounded htidy' ⊢
      obtain ⟨hover, -⟩ := rounds_isOver hbounded htidy' (Schedule.fair_inTurn _) (Nat.le_refl _)
      obtain ⟨rest, hrest⟩ :=
        Schedule.exists_steps step State.isOver (.inTurn m.parts.size) (3 * p + 5) m
      rw [hrest] at hover
      exact ⟨rest, hover⟩
  · obtain ⟨owner, gone, m, hk, hidle, heq⟩ := hid.eliminate workers hfair
    rw [heq, hk.pick_eq hid hidle]

/-- Two ways into a ring of two, with a vertex behind the ring. -/
def tailedRing : List (Vertex Nat × Vertex Nat) :=
  [(0, 1), (0, 2), (5, 1), (1, 2), (2, 3), (3, 2), (3, 4)].filterMap fun (i, j) => do
    let u ← ringStore.vertices.find? (·.state == i)
    let v ← ringStore.vertices.find? (·.state == j)
    return (u, v)

/-- Moves of two parts that remove the vertices before the ring in an unusual order, with two
messages. -/
def detour : List Move :=
  [.remove 1 0, .remove 0 0, .pass 0, .pass 1, .pass 1, .pass 0, .pass 0, .deliver 1 0, .remove 1 0,
    .pass 1, .deliver 0 0, .pass 1]

/-- The ring and the vertex behind it remain, and one vertex is picked, as with three parts. -/
theorem eliminate_confluent_tailedRing : Identified tailedRing ∧
    (∃ m, detour.foldl State.apply (.ofEdges 2 tailedRing) = m ∧ m.fault = none ∧
      ((State.ofEdges 2 tailedRing).made detour).length = 12 ∧
      (∀ v ∈ ends tailedRing, m.remains v.handle = true ↔ Behind tailedRing v) ∧
      ((ends tailedRing).filter (m.remains ·.handle)).map (·.state) = [2, 2, 2, 3, 3, 2, 3, 4] ∧
      (pick m tailedRing).map (·.state) = [3] ∧
      eliminate tailedRing 3 = .ok (pick m tailedRing)) ∧
    ∃ schedule m, runSchedule schedule (.ofEdges 2 tailedRing) = m ∧ m.isOver = true ∧ m.Idle := by
  have hlinks : ∀ e ∈ tailedRing, e.1 ∈ ringStore.vertices ∧ e.2 ∈ ringStore.vertices := by
    intro e he
    obtain ⟨x, -, hx⟩ := List.mem_filterMap.1 he
    simp only [bind, Option.bind_eq_some_iff, pure, Option.some.injEq] at hx
    obtain ⟨u, hu, v, hv, rfl⟩ := hx
    exact ⟨List.mem_of_find?_eq_some hu, List.mem_of_find?_eq_some hv⟩
  have hs : ringStore.Sound :=
    ((Store.replayed_ofShards 2 none).replay (· == ·) _).sound (by decide)
  have hid := identified_of_stored hs hlinks
  obtain ⟨hruns, hsteps, hsame⟩ := eliminate_confluent hid
  obtain ⟨hfault, -, -, -, -, hidle⟩ := hruns 2 detour _ rfl
  obtain ⟨hremains, hpick⟩ := hidle (by decide +kernel)
  obtain ⟨-, -, -, schedule, hover⟩ := hsteps 2 [] _ rfl
  obtain ⟨-, -, hreturned, -⟩ := hsteps 2 schedule _ rfl
  refine ⟨hid, ⟨_, rfl, hfault, by decide +kernel, hremains, by decide +kernel, by decide +kernel,
    hpick ▸ hsame 3 _ (Schedule.fair_inTurn _)⟩, schedule, _, rfl, hover, idle_iff.2 ?_⟩
  intro p hp
  exact idle_iff.1 (hreturned p hp (isOver_iff.1 hover p hp)).1 p hp

end ModelChecker.Elimination
