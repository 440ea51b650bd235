import Mathlib.Data.List.Forall2
import ModelChecker.Document.Check
import ModelChecker.Document.Graph
import ModelChecker.Proofs.JsonText

namespace ModelChecker

namespace Json

variable {α β : Type} {write : α → Json} {read? : Json → Option α}

def Faithful (write : α → Json) (read? : Json → Option α) : Prop :=
  ∀ a, Spelled (write a) ∧ read? (write a) = some a

def rewrite? (write : α → Json) (read? : Json → Option α) (text : String) : Option String :=
  ((parse text).bind read?).map fun a => (write a).compact

/-- A value is read back from the text that it is written as. A text that is accepted may look
different, but once it is written anew it stays as it is. -/
structure ReadsBack (write : α → Json) (read? : Json → Option α) : Prop where
  value : ∀ a, (parse (write a).compact).bind read? = some a
  text : ∀ text text', rewrite? write read? text = some text' →
    rewrite? write read? text' = some text'

theorem Faithful.readsBack (h : Faithful write read?) : ReadsBack write read? := by
  have hvalue : ∀ a, (parse (write a).compact).bind read? = some a := by
    intro a
    rw [(h a).1.parse_compact]
    exact (h a).2
  refine ⟨hvalue, fun text text' hw => ?_⟩
  obtain ⟨a, -, rfl⟩ := Option.map_eq_some_iff.1 hw
  rw [rewrite?, hvalue]
  rfl

theorem mapM_map_eq_some {f : α → β} {g : β → Option α} {l : List α}
    (h : ∀ a ∈ l, g (f a) = some a) : (l.map f).mapM g = some l := by
  induction l with
  | nil => rfl
  | cons a l ih =>
    obtain ⟨ha, hl⟩ := List.forall_mem_cons.1 h
    rw [List.map_cons, List.mapM_cons, ha, ih hl]
    rfl

section scalars

theorem text?_escape (text : String) :
    text? (String.ofList (escape text.toList)) = some text := by
  rw [text?, String.toList_ofList, unescape_escape, Option.map_some, String.ofList_toList]

theorem faithful_text : Faithful ofText string? :=
  fun text => ⟨.string ⟨text.toList, String.toList_ofList⟩, text?_escape text⟩

theorem faithful_bool : Faithful Json.bool bool? := fun b => ⟨.bool b, rfl⟩

theorem natBelow?_ofNat {n limit : Nat} (h : n < limit) : (ofNat n).natBelow? limit = some n := by
  rw [ofNat, natBelow?, natural?_toString, Option.filter_some, if_pos (decide_eq_true h)]

theorem faithful_word32 : Faithful word32Json word32? := by
  intro n
  refine ⟨.number n.toNat, ?_⟩
  rw [word32?, word32Json, natBelow?_ofNat n.toNat_lt, Option.map_some, UInt32.ofNat_toNat]

theorem faithful_word64 : Faithful word64Json word64? := by
  intro n
  refine ⟨.number n.toNat, ?_⟩
  rw [word64?, word64Json, natBelow?_ofNat n.toNat_lt, Option.map_some, UInt64.ofNat_toNat]

theorem faithful_name {names : List (String × α)} {name : α → String}
    (h : ∀ a, names.lookup (name a) = some a) :
    Faithful (fun a => ofText (name a)) (name? names) := by
  intro a
  refine ⟨(faithful_text (name a)).1, ?_⟩
  change (text? (String.ofList (escape (name a).toList))).bind _ = _
  rw [text?_escape]
  exact h a

theorem Faithful.list (h : Faithful write read?) :
    Faithful (fun l : List α => .array (l.map write)) (list? read?) := by
  intro l
  refine ⟨.array fun j hj => ?_, ?_⟩
  · obtain ⟨a, -, rfl⟩ := List.mem_map.1 hj
    exact (h a).1
  · exact mapM_map_eq_some fun a _ => (h a).2

end scalars

section options

theorem nullable?_write (h : Faithful write read?) {a : α} (hnull : write a ≠ .null) :
    nullable? read? (write a) = some (some a) := by
  rw [nullable?, (h a).2]
  · rfl
  · exact hnull

theorem allow?_map (h : Faithful write read?) (hnull : ∀ a, write a ≠ .null) (o : Option α) :
    allow? read? (o.map write) = some o := by
  cases o with
  | none => rfl
  | some a => exact nullable?_write h (hnull a)

theorem allow?_ofOption (h : Faithful write read?) (hnull : ∀ a, write a ≠ .null) (o : Option α) :
    allow? read? (some (ofOption write o)) = some o := by
  cases o with
  | none => rfl
  | some a => exact nullable?_write h (hnull a)

theorem spelled_ofOption (h : Faithful write read?) (o : Option α) :
    Spelled (ofOption write o) := by
  cases o with
  | none => exact .null
  | some a => exact (h a).1

end options

section records

/-- The keys of the fields need no escapes and are told apart. -/
structure Keyed (fields : List Field) : Prop where
  plain : ∀ f ∈ fields, escape f.key.toList = f.key.toList
  nodup : (fields.map Field.key).Nodup

/-- What a record may write for a field. -/
structure Fills (f : Field) (value : Option Json) : Prop where
  present : f.presence = .required → value.isSome = true
  spelled : ∀ j ∈ value, Spelled j

theorem Fills.some {f : Field} {j : Json} (h : Spelled j) : Fills f (some j) :=
  ⟨fun _ => rfl, fun _ hj => Option.some.inj hj ▸ h⟩

theorem Fills.map {f : Field} (hf : f.presence ≠ .required) (h : Faithful write read?)
    (o : Option α) : Fills f (o.map write) := by
  refine ⟨fun hx => absurd hx hf, fun j hj => ?_⟩
  obtain ⟨a, -, rfl⟩ := Option.map_eq_some_iff.1 hj
  exact (h a).1

/-- The keys of the fields, each with what is written for it. -/
def entries (fields : List Field) (values : List (Option Json)) : List (String × Option Json) :=
  List.zipWith (fun f v => (f.key, v)) fields values

def members (es : List (String × Option Json)) : List (String × Json) :=
  es.filterMap fun (key, value) => value.map (key, ·)

variable {fields : List Field} {values : List (Option Json)} {es : List (String × Option Json)}

theorem members_cons (key : String) (value : Option Json) :
    members ((key, value) :: es) = value.toList.map (key, ·) ++ members es := by
  cases value <;> rfl

theorem mem_of_mem_members {m : String × Json} (h : m ∈ members es) : (m.1, some m.2) ∈ es := by
  obtain ⟨⟨key, value⟩, he, hm⟩ := List.mem_filterMap.1 h
  obtain ⟨j, rfl, rfl⟩ := Option.map_eq_some_iff.1 hm
  exact he

theorem filter_members {key : String} {value : Option Json} (hnodup : (es.map Prod.fst).Nodup)
    (h : (key, value) ∈ es) :
    (members es).filter (·.1 == key) = value.toList.map (key, ·) := by
  induction es with
  | nil => cases h
  | cons e es ih =>
    obtain ⟨k, v⟩ := e
    obtain ⟨hk, hnodup⟩ := List.nodup_cons.1 hnodup
    rw [members_cons, List.filter_append]
    rcases List.mem_cons.1 h with heq | h
    · cases heq
      have hself : (value.toList.map (key, ·)).filter (·.1 == key) = value.toList.map (key, ·) := by
        cases value <;> simp
      have hrest : (members es).filter (·.1 == key) = [] := by
        refine List.filter_eq_nil_iff.2 fun m hm hx => hk ?_
        exact List.mem_map.2 ⟨_, mem_of_mem_members hm, eq_of_beq hx⟩
      rw [hself, hrest, List.append_nil]
    · have hne : k ≠ key := by
        rintro rfl
        exact hk (List.mem_map.2 ⟨_, h, rfl⟩)
      have hfirst : (v.toList.map (k, ·)).filter (·.1 == key) = [] := by
        cases v <;> simp [hne]
      rw [hfirst, List.nil_append, ih hnodup h]

theorem Fills.memberField? {f : Field} {value : Option Json} (h : Fills f value)
    (hnodup : (es.map Prod.fst).Nodup) (hmem : (f.key, value) ∈ es) :
    memberField? (members es) f = .some value := by
  rw [Json.memberField?, filter_members hnodup hmem]
  cases value with
  | none =>
    have hopt : f.presence ≠ .required := fun hx => Bool.false_ne_true (h.present hx)
    exact if_neg hopt
  | some j => rfl

theorem mapM_memberField? (h : List.Forall₂ Fills fields values)
    (hnodup : (es.map Prod.fst).Nodup) (hsub : ∀ e ∈ entries fields values, e ∈ es) :
    fields.mapM (memberField? (members es)) = some values := by
  induction h with
  | nil => rfl
  | cons hf _ ih =>
    obtain ⟨hfirst, hrest⟩ := List.forall_mem_cons.1 hsub
    rw [List.mapM_cons, hf.memberField? hnodup hfirst, ih hrest]
    rfl

theorem map_fst_entries (h : List.Forall₂ Fills fields values) :
    (entries fields values).map Prod.fst = fields.map Field.key := by
  induction h with
  | nil => rfl
  | cons _ _ ih => exact congrArg _ ih

theorem spelled_of_mem_entries (h : List.Forall₂ Fills fields values) {key : String} {j : Json}
    (hm : (key, some j) ∈ entries fields values) : Spelled j := by
  induction h with
  | nil => cases hm
  | cons hf _ ih =>
    rcases List.mem_cons.1 hm with heq | hm
    · exact hf.spelled j (Prod.mk.inj heq).2.symm
    · exact ih hm

theorem text?_of_plain {key : String} (h : escape key.toList = key.toList) :
    text? key = some key := by
  have htext := unescape_escape key.toList
  rw [h] at htext
  rw [text?, htext, Option.map_some, String.ofList_toList]

theorem fields?_ofFields (fields : List Field) {values : List (Option Json)} (hk : Keyed fields)
    (h : List.Forall₂ Fills fields values) :
    Spelled (ofFields (entries fields values)) ∧
      fields? fields (ofFields (entries fields values)) = some values := by
  have hplain : ∀ m ∈ members (entries fields values), escape m.1.toList = m.1.toList := by
    intro m hm
    have hkey : m.1 ∈ fields.map Field.key := by
      rw [← map_fst_entries h]
      exact List.mem_map.2 ⟨_, mem_of_mem_members hm, rfl⟩
    obtain ⟨f, hf, hfm⟩ := List.mem_map.1 hkey
    rw [← hfm]
    exact hk.plain f hf
  refine ⟨.object (fun m hm => ⟨m.1.toList, (hplain m hm).symm⟩) fun m hm => ?_, ?_⟩
  · exact spelled_of_mem_entries h (mem_of_mem_members hm)
  · have hkeyed : keyed? (members (entries fields values)) =
        some (members (entries fields values)) := by
      have hread := mapM_map_eq_some (f := id)
        (g := fun m : String × Json => (text? m.1).map (·, m.2))
        fun m hm => by rw [id, text?_of_plain (hplain m hm)]; rfl
      rw [List.map_id] at hread
      exact hread
    change (do
      let ms ← keyed? (members (entries fields values))
      fields.mapM (memberField? ms)) = _
    rw [hkeyed]
    exact mapM_memberField? h (map_fst_entries h ▸ hk.nodup) fun _ he => he

end records

end Json

open Json

section names

theorem faithful_order : Faithful SearchOrder.toJson SearchOrder.ofJson? :=
  faithful_name fun o => by cases o <;> decide

theorem faithful_property : Faithful Property.toJson Property.ofJson? :=
  faithful_name fun p => by cases p <;> decide

theorem faithful_status : Faithful Status.toJson Status.ofJson? :=
  faithful_name fun s => by cases s <;> decide

theorem faithful_reasonKind : Faithful ReasonKind.toJson ReasonKind.ofJson? :=
  faithful_name fun k => by cases k <;> decide

theorem faithful_counterexampleKind :
    Faithful CounterexampleKind.toJson CounterexampleKind.ofJson? :=
  faithful_name fun k => by cases k <;> decide

end names

section checks

theorem faithful_config : Faithful SearchConfig.toJson SearchConfig.ofJson? := by
  intro c
  obtain ⟨hspelled, hfields⟩ := fields?_ofFields [⟨"workers", .required⟩, ⟨"order", .required⟩,
      ⟨"partitioned", .required⟩, ⟨"context_switch_bound", .optional⟩, ⟨"property", .required⟩,
      ⟨"por", .required⟩, ⟨"max_states", .optional⟩] ⟨by decide, by decide⟩
    (.cons (.some (faithful_word64 c.workers).1) <| .cons (.some (faithful_order c.order).1) <|
      .cons (.some (.bool c.partitioned)) <|
      .cons (.some (spelled_ofOption faithful_word32 c.contextSwitchBound)) <|
      .cons (.some (faithful_property c.property).1) <| .cons (.some (.bool c.reduction)) <|
      .cons (.some (spelled_ofOption faithful_word64 c.maxStates)) .nil)
  change fields? _ c.toJson = _ at hfields
  refine ⟨hspelled, ?_⟩
  simp only [SearchConfig.ofJson?, hfields]
  simp [need?, (faithful_word64 _).2, (faithful_order _).2, (faithful_property _).2,
    (faithful_bool _).2, allow?_ofOption faithful_word32 nofun,
    allow?_ofOption faithful_word64 nofun]

theorem faithful_request : Faithful CheckRequest.toJson CheckRequest.ofJson? := by
  intro r
  obtain ⟨hspelled, hfields⟩ := fields?_ofFields [⟨"property", .required⟩, ⟨"target", .optional⟩,
      ⟨"config", .required⟩] ⟨by decide, by decide⟩
    (.cons (.some (faithful_property r.property).1) <|
      .cons (.some (spelled_ofOption faithful_text r.target)) <|
      .cons (.some (faithful_config r.config).1) .nil)
  change fields? _ r.toJson = _ at hfields
  refine ⟨hspelled, ?_⟩
  simp only [CheckRequest.ofJson?, hfields]
  simp [need?, (faithful_property _).2, allow?_ofOption faithful_text nofun, (faithful_config _).2]

theorem faithful_reason : Faithful Reason.toJson Reason.ofJson? := by
  intro r
  obtain ⟨hspelled, hfields⟩ := fields?_ofFields [⟨"kind", .required⟩, ⟨"message", .optional⟩]
    ⟨by decide, by decide⟩
    (.cons (.some (faithful_reasonKind r.kind).1) <|
      .cons (.map (by decide) faithful_text r.message) .nil)
  change fields? _ r.toJson = _ at hfields
  refine ⟨hspelled, ?_⟩
  simp only [Reason.ofJson?, hfields]
  simp [need?, (faithful_reasonKind _).2, allow?_map faithful_text nofun]

theorem faithful_counterexample : Faithful Counterexample.toJson Counterexample.ofJson? := by
  intro c
  obtain ⟨hspelled, hfields⟩ := fields?_ofFields [⟨"type", .required⟩, ⟨"states", .required⟩,
      ⟨"cycle_start", .optional⟩, ⟨"tags", .required⟩] ⟨by decide, by decide⟩
    (.cons (.some (faithful_counterexampleKind c.kind).1) <|
      .cons (.some (faithful_text.list c.states).1) <|
      .cons (.map (by decide) faithful_word64 c.cycleStart) <|
      .cons (.some (faithful_text.list c.tags).1) .nil)
  change fields? _ c.toJson = _ at hfields
  refine ⟨hspelled, ?_⟩
  simp only [Counterexample.ofJson?, hfields]
  simp [need?, (faithful_counterexampleKind _).2, (faithful_text.list _).2,
    allow?_map faithful_word64 nofun]

theorem faithful_stats : Faithful CheckStats.toJson CheckStats.ofJson? := by
  intro s
  have hcount := spelled_ofOption faithful_word64
  obtain ⟨hspelled, hfields⟩ := fields?_ofFields [⟨"states", .optional⟩,
      ⟨"transitions", .optional⟩, ⟨"expanded", .optional⟩, ⟨"deadlocks", .optional⟩]
    ⟨by decide, by decide⟩
    (.cons (.some (hcount s.states)) <| .cons (.some (hcount s.transitions)) <|
      .cons (.some (hcount s.expanded)) <| .cons (.some (hcount s.deadlocks)) .nil)
  change fields? _ s.toJson = _ at hfields
  refine ⟨hspelled, ?_⟩
  simp only [CheckStats.ofJson?, hfields]
  simp [allow?_ofOption faithful_word64 nofun]

theorem faithful_result : Faithful CheckResult.toJson CheckResult.ofJson? := by
  intro r
  obtain ⟨hspelled, hfields⟩ := fields?_ofFields [⟨"name", .required⟩, ⟨"property", .required⟩,
      ⟨"target", .optional⟩, ⟨"status", .required⟩, ⟨"reason", .optional⟩,
      ⟨"counterexample", .optional⟩, ⟨"stats", .optional⟩] ⟨by decide, by decide⟩
    (.cons (.some (faithful_text r.name).1) <| .cons (.some (faithful_property r.property).1) <|
      .cons (.some (spelled_ofOption faithful_text r.target)) <|
      .cons (.some (faithful_status r.status).1) <|
      .cons (.map (by decide) faithful_reason r.reason) <|
      .cons (.some (spelled_ofOption faithful_counterexample r.counterexample)) <|
      .cons (.some (spelled_ofOption faithful_stats r.stats)) .nil)
  change fields? _ r.toJson = _ at hfields
  refine ⟨hspelled, ?_⟩
  simp only [CheckResult.ofJson?, hfields]
  simp [need?, (faithful_text _).2, (faithful_property _).2, allow?_ofOption faithful_text nofun,
    (faithful_status _).2, allow?_map faithful_reason nofun,
    allow?_ofOption faithful_counterexample nofun, allow?_ofOption faithful_stats nofun]

end checks

section graphs

theorem faithful_nodes : Faithful nodesJson (list? word32?) := faithful_word32.list

theorem faithful_flags : Faithful EdgeFlags.toJson EdgeFlags.ofJson? := by
  intro f
  obtain ⟨hspelled, hfields⟩ := fields?_ofFields [⟨"error", .defaulted⟩,
      ⟨"context_switch", .defaulted⟩] ⟨by decide, by decide⟩
    (.cons (.some (.bool f.error)) <| .cons (.some (.bool f.contextSwitch)) .nil)
  change fields? _ f.toJson = _ at hfields
  refine ⟨hspelled, ?_⟩
  simp only [EdgeFlags.ofJson?, hfields]
  simp [orElse?, (faithful_bool _).2]

theorem faithful_edge : Faithful Edge.toJson Edge.ofJson? := by
  intro e
  obtain ⟨hspelled, hfields⟩ := fields?_ofFields [⟨"from", .required⟩, ⟨"to", .required⟩,
      ⟨"error", .defaulted⟩, ⟨"context_switch", .defaulted⟩] ⟨by decide, by decide⟩
    (.cons (.some (faithful_word32 e.source).1) <| .cons (.some (faithful_word32 e.target).1) <|
      .cons (.some (.bool e.flags.error)) <| .cons (.some (.bool e.flags.contextSwitch)) .nil)
  change fields? _ e.toJson = _ at hfields
  refine ⟨hspelled, ?_⟩
  simp only [Edge.ofJson?, hfields]
  simp [need?, orElse?, (faithful_word32 _).2, (faithful_bool _).2]

namespace AmpleSets

theorem place_of_forall_lt {node : Node} {targets : List Node} {l : List (Node × List Node)}
    (h : ∀ e ∈ l, e.1 < node) : place node targets l = l ++ [(node, targets)] := by
  induction l with
  | nil => rfl
  | cons e l ih =>
    obtain ⟨he, hl⟩ := List.forall_mem_cons.1 h
    rw [place, if_neg (UInt32.not_lt.2 (UInt32.le_of_lt he)), if_neg (UInt32.ne_of_lt he).symm,
      ih hl]
    rfl

theorem key?_toString (node : Node) : key? (toString node.toNat) = some node := by
  have hvalue : ((natural? (toString node.toNat)).filter (· < UInt32.size)).map UInt32.ofNat =
      some node := by
    rw [natural?_toString, Option.filter_some, if_pos (decide_eq_true node.toNat_lt),
      Option.map_some, UInt32.ofNat_toNat]
  unfold key?
  split
  · rename_i c cs hdigits
    rw [Nat.toString_eq_ofList_toDigits, String.toList_ofList] at hdigits
    by_cases hzero : node.toNat = 0
    · rw [hzero] at hdigits
      cases hdigits
    · exact absurd hdigits (toDigits_ne_zero_cons (Nat.pos_of_ne_zero hzero) _)
  · exact hvalue

theorem foldlM_entries (a b : AmpleSets) (l : List (Node × List Node))
    (h : b.entries = a.entries ++ l) :
    (l.map fun e => (toString e.1.toNat, nodesJson e.2)).foldlM (fun a m => do
      let node ← key? m.1
      let targets ← list? word32? m.2
      return a.insert node targets) a = some b := by
  induction l generalizing a with
  | nil =>
    obtain ⟨entries, hasc⟩ := a
    obtain ⟨entries', hasc'⟩ := b
    obtain rfl : entries' = entries := h.trans (List.append_nil _)
    rfl
  | cons e l ih =>
    obtain ⟨node, targets⟩ := e
    have hasc := b.ascending
    rw [h] at hasc
    have hlast : ∀ e ∈ a.entries, e.1 < node :=
      fun e he => (List.pairwise_append.1 hasc).2.2 e he _ List.mem_cons_self
    have hplace : (a.insert node targets).entries = a.entries ++ [(node, targets)] :=
      place_of_forall_lt hlast
    have hrest := ih (a.insert node targets) (by rw [hplace, h, List.append_assoc]; rfl)
    rw [List.map_cons, List.foldlM_cons]
    simp only [key?_toString, (faithful_nodes targets).2]
    exact hrest

end AmpleSets

theorem faithful_ample : Faithful AmpleSets.toJson AmpleSets.ofJson? := by
  intro a
  refine ⟨.object (fun m hm => ?_) fun m hm => ?_, ?_⟩
  · obtain ⟨e, -, rfl⟩ := List.mem_map.1 hm
    exact isSpelling_toString e.1.toNat
  · obtain ⟨e, -, rfl⟩ := List.mem_map.1 hm
    exact (faithful_nodes e.2).1
  · exact AmpleSets.foldlM_entries .empty a a.entries rfl

theorem faithful_graph : Faithful Graph.toJson Graph.ofJson? := by
  intro g
  obtain ⟨hspelled, hfields⟩ := fields?_ofFields [⟨"initial", .required⟩, ⟨"edges", .required⟩,
      ⟨"accepting", .defaulted⟩, ⟨"goals", .defaulted⟩, ⟨"ample", .defaulted⟩]
    ⟨by decide, by decide⟩
    (.cons (.some (faithful_nodes g.initial).1) <|
      .cons (.some (faithful_edge.list g.edges).1) <|
      .cons (.some (faithful_nodes g.accepting).1) <|
      .cons (.some (faithful_nodes g.goals).1) <| .cons (.some (faithful_ample g.ample).1) .nil)
  change fields? _ g.toJson = _ at hfields
  refine ⟨hspelled, ?_⟩
  simp only [Graph.ofJson?, hfields]
  simp [need?, orElse?, (faithful_nodes _).2, (faithful_edge.list _).2, (faithful_ample _).2]

end graphs

/-- Every graph, edge, configuration, request and result, and each part of a result, is read back
from the text that it is written as. -/
theorem documents_readBack :
    ReadsBack Graph.toJson Graph.ofJson? ∧ ReadsBack Edge.toJson Edge.ofJson? ∧
      ReadsBack EdgeFlags.toJson EdgeFlags.ofJson? ∧
      ReadsBack SearchConfig.toJson SearchConfig.ofJson? ∧
      ReadsBack CheckRequest.toJson CheckRequest.ofJson? ∧
      ReadsBack CheckResult.toJson CheckResult.ofJson? ∧
      ReadsBack Counterexample.toJson Counterexample.ofJson? ∧
      ReadsBack Reason.toJson Reason.ofJson? ∧ ReadsBack CheckStats.toJson CheckStats.ofJson? :=
  ⟨faithful_graph.readsBack, faithful_edge.readsBack, faithful_flags.readsBack,
    faithful_config.readsBack, faithful_request.readsBack, faithful_result.readsBack,
    faithful_counterexample.readsBack, faithful_reason.readsBack, faithful_stats.readsBack⟩

end ModelChecker
