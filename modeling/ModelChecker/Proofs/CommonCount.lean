import Mathlib.Algebra.GroupWithZero.Nat
import Mathlib.Algebra.Order.BigOperators.Group.List
import Mathlib.Algebra.Order.Group.Nat
import Mathlib.Data.List.Induction
import Mathlib.Data.List.Perm.Basic
import Mathlib.Logic.Relation
import ModelChecker.Search.Schedule

namespace ModelChecker

theorem exists_sum_set {α M : Type} [AddCommMonoid M] {l : List α} {i : Nat} {a : α} (f : α → M)
    (h : l[i]? = some a) :
    ∃ r, (l.map f).sum = f a + r ∧ ∀ b, ((l.set i b).map f).sum = f b + r := by
  obtain ⟨hi, hget⟩ := List.getElem?_eq_some_iff.1 h
  refine ⟨((l.eraseIdx i).map f).sum, ?_, fun b => ?_⟩
  · have hp := (List.getElem_cons_eraseIdx_perm hi).symm.map f
    rw [hget] at hp
    exact hp.sum_eq
  · exact ((List.set_perm_cons_eraseIdx hi b).map f).sum_eq

/-- What a worker has to do with a common count: the work at hand, and the work that it has finished
but not yet taken off the count. -/
structure Duty where
  phase : Phase
  held : Nat
  finished : Nat

def Duty.due (d : Duty) : Nat := d.held + d.finished

/-- Workers that share a count. After an interrupt the count may be off, and all workers return. -/
structure Crew where
  raised : Bool
  count : Nat
  duties : List Duty

namespace Crew

def sum (c : Crew) (f : Duty → Nat) : Nat := (c.duties.map f).sum

def isOver (c : Crew) : Bool := c.duties.all (·.phase = .returned)

/-- What holds between the steps of the workers. -/
structure Tidy (c : Crew) : Prop where
  count : c.raised = false → c.count = c.sum Duty.due
  tested : ∀ d ∈ c.duties, d.phase = .testing → d.finished = 0
  noticed : ∀ d ∈ c.duties, d.phase = .returned → c.raised = true ∨ c.sum Duty.due = 0

/-- One kind of work was turned into another, by a worker at work, and the count kept up. -/
structure Turned (c c' : Crew) : Prop where
  size : c'.duties.length = c.duties.length
  raised : c.raised = true → c'.raised = true
  count : c'.raised = false → c'.count + c.sum Duty.due = c.count + c'.sum Duty.due
  duties : ∀ d ∈ c'.duties, d.phase = .returned ∧ c'.raised = true ∨
    ∃ d₀ ∈ c.duties, d.phase = d₀.phase ∧ (d₀.phase = .testing → d.finished = d₀.finished)

variable {c c' : Crew} {d : Duty} {i : Nat}

theorem isOver_iff : c.isOver = true ↔ ∀ d ∈ c.duties, d.phase = .returned := by
  rw [isOver, List.all_eq_true]
  exact forall₂_congr fun d _ => decide_eq_true_iff

theorem sum_due (c : Crew) : c.sum Duty.due = c.sum Duty.held + c.sum Duty.finished := by
  unfold sum
  induction c.duties with
  | nil => rfl
  | cons d rest ih =>
    simp only [List.map_cons, List.sum_cons, ih, Duty.due]
    omega

theorem exists_pos_of_sum {f : Duty → Nat} (h : 0 < c.sum f) : ∃ d ∈ c.duties, 0 < f d := by
  by_contra hno
  have hz : c.sum f = 0 := by
    refine List.sum_eq_zero fun x hx => ?_
    obtain ⟨d, hd, rfl⟩ := List.mem_map.1 hx
    exact Nat.eq_zero_of_not_pos fun hp => hno ⟨d, hd, hp⟩
  omega

theorem le_sum (f : Duty → Nat) (hd : d ∈ c.duties) : f d ≤ c.sum f :=
  List.le_sum_of_mem (List.mem_map_of_mem hd)

theorem Turned.refl (c : Crew) : Turned c c where
  size := rfl
  raised := id
  count _ := rfl
  duties d hd := .inr ⟨d, hd, rfl, fun _ => rfl⟩

theorem Turned.raised_before (h : Turned c c') (hr : c'.raised = false) : c.raised = false :=
  Bool.eq_false_iff.2 fun hx => Bool.false_ne_true (hr.symm.trans (h.raised hx))

theorem Turned.trans {c'' : Crew} (h : Turned c c') (h' : Turned c' c'') : Turned c c'' where
  size := h'.size.trans h.size
  raised hr := h'.raised (h.raised hr)
  count hr := by
    have h1 := h'.count hr
    have h2 := h.count (h'.raised_before hr)
    omega
  duties d hd := by
    rcases h'.duties d hd with hx | ⟨d₁, hd₁, hp₁, hf₁⟩
    · exact .inl hx
    · rcases h.duties d₁ hd₁ with ⟨hp, hr⟩ | ⟨d₀, hd₀, hp, hf⟩
      · exact .inl ⟨hp₁.trans hp, h'.raised hr⟩
      · exact .inr ⟨d₀, hd₀, hp₁.trans hp, fun ht => (hf₁ (hp.trans ht)).trans (hf ht)⟩

theorem Turned.tidy (h : Turned c c') (ht : Tidy c) (hpos : 0 < c.sum Duty.due) : Tidy c' where
  count hr := by
    have h1 := h.count hr
    have h2 := ht.count (h.raised_before hr)
    omega
  tested d hd hp := by
    rcases h.duties d hd with ⟨hx, -⟩ | ⟨d₀, hd₀, hp₀, hf⟩
    · rw [hp] at hx
      cases hx
    · rw [hf (hp₀.symm.trans hp)]
      exact ht.tested d₀ hd₀ (hp₀.symm.trans hp)
  noticed d hd hp := by
    rcases h.duties d hd with ⟨-, hr⟩ | ⟨d₀, hd₀, hp₀, -⟩
    · exact .inl hr
    · rcases ht.noticed d₀ hd₀ (hp₀.symm.trans hp) with hr | hz
      · exact .inl (h.raised hr)
      · omega

theorem turned_set (hd : c.duties[i]? = some d) {d' : Duty} {n : Nat} (hp : d'.phase = d.phase)
    (hf : d'.finished = d.finished ∨ d.phase = .working) (hdue : d'.due = d.due + n) :
    Turned c ⟨c.raised, c.count + n, c.duties.set i d'⟩ := by
  refine ⟨List.length_set, id, fun _ => ?_, fun x hx => .inr ?_⟩
  · obtain ⟨r, h1, h2⟩ := exists_sum_set Duty.due hd
    rw [sum, sum, h1, h2, hdue]
    change c.count + n + _ = _
    omega
  · -- only a worker at work may count something as finished
    rcases List.mem_or_eq_of_mem_set hx with hx | rfl
    · exact ⟨x, hx, rfl, fun _ => rfl⟩
    · refine ⟨d, List.mem_of_getElem? hd, hp, fun ht => ?_⟩
      exact hf.resolve_right fun h => by rw [h] at ht; cases ht

theorem turned_halt (c : Crew) (i n : Nat) {d' : Duty} (hp : d'.phase = .returned) :
    Turned c ⟨true, n, c.duties.set i d'⟩ where
  size := List.length_set
  raised _ := rfl
  count hr := by cases hr
  duties x hx := by
    rcases List.mem_or_eq_of_mem_set hx with hx | rfl
    · exact .inr ⟨x, hx, rfl, fun _ => rfl⟩
    · exact .inl ⟨hp, rfl⟩

/-- A worker goes on to its next phase, where the count is at most `total`. -/
inductive Pause (raised : Bool) (total : Nat) : Duty → Duty → Prop where
  | returned {d : Duty} (h : d.phase = .returned) : Pause raised total d d
  | settle {d : Duty} (h : d.phase = .settling) :
    Pause raised total d { d with finished := 0, phase := .testing }
  | test {d : Duty} (h : d.phase = .testing) (hw : raised = false → d.held = 0) :
    Pause raised total d { d with phase := .returned }
  | retry {d : Duty} (h : d.phase = .testing) (ht : raised = false → 0 < total) :
    Pause raised total d { d with phase := .working }
  | leave {d : Duty} (h : d.phase = .working) (hr : raised = true) :
    Pause raised total d { d with phase := .returned }
  | rest {d : Duty} (h : d.phase = .working) (hr : raised = false) (hw : d.held = 0) :
    Pause raised total d { d with phase := .settling }

theorem Pause.mono {raised : Bool} {total total' : Nat} {d d' : Duty}
    (h : Pause raised total d d') (hle : total ≤ total') : Pause raised total' d d' := by
  cases h with
  | returned h => exact .returned h
  | settle h => exact .settle h
  | test h hw => exact .test h hw
  | retry h ht => exact .retry h fun hr => (ht hr).trans_le hle
  | leave h hr => exact .leave h hr
  | rest h hr hw => exact .rest h hr hw

/-- What steps leave behind that did no work: their workers went on by a phase or more. -/
structure Quiet (schedule : List Nat) (c c' : Crew) : Prop where
  raised : c'.raised = c.raised
  due_le : c'.sum Duty.due ≤ c.sum Duty.due
  held : c'.sum Duty.held = c.sum Duty.held
  size : c'.duties.length = c.duties.length
  others : ∀ j, j ∉ schedule → c'.duties[j]? = c.duties[j]?
  pause : ∀ j ∈ schedule, ∀ d, c.duties[j]? = some d →
    ∃ d', c'.duties[j]? = some d' ∧ Relation.TransGen (Pause c.raised (c.sum Duty.due)) d d'

theorem Quiet.nil (c : Crew) : Quiet [] c c where
  raised := rfl
  due_le := Nat.le_refl _
  held := rfl
  size := rfl
  others _ _ := rfl
  pause _ hj := absurd hj List.not_mem_nil

theorem Quiet.append {schedule : List Nat} {c'' : Crew} (h : Quiet schedule c c')
    (h' : Quiet [i] c' c'') : Quiet (schedule ++ [i]) c c'' where
  raised := h'.raised.trans h.raised
  due_le := h'.due_le.trans h.due_le
  held := h'.held.trans h.held
  size := h'.size.trans h.size
  others j hj := by
    rw [List.mem_append, not_or] at hj
    exact (h'.others j hj.2).trans (h.others j hj.1)
  pause j hj d hd := by
    have hlast : ∀ x, c'.duties[j]? = some x → j ∈ [i] → ∃ d', c''.duties[j]? = some d' ∧
        Relation.TransGen (Pause c.raised (c.sum Duty.due)) x d' := by
      intro x hx hj
      obtain ⟨d', hd', hp⟩ := h'.pause j hj x hx
      rw [h.raised] at hp
      exact ⟨d', hd', hp.lift id fun _ _ hp => hp.mono h.due_le⟩
    by_cases hs : j ∈ schedule
    · obtain ⟨x, hx, hp⟩ := h.pause j hs d hd
      by_cases hi : j ∈ [i]
      · obtain ⟨d', hd', hp'⟩ := hlast x hx hi
        exact ⟨d', hd', hp.trans hp'⟩
      · exact ⟨x, (h'.others j hi).trans hx, hp⟩
    · exact hlast d ((h.others j hs).trans hd) ((List.mem_append.1 hj).resolve_left hs)

theorem quiet_refl (h : ∀ d, c.duties[i]? = some d → d.phase = .returned) : Quiet [i] c c where
  raised := rfl
  due_le := Nat.le_refl _
  held := rfl
  size := rfl
  others _ _ := rfl
  pause j hj d hd := by
    rw [List.mem_singleton.1 hj] at hd
    exact ⟨d, List.mem_singleton.1 hj ▸ hd, .single (.returned (h d hd))⟩

theorem quiet_set (hd : c.duties[i]? = some d) {d' : Duty} {n : Nat} (hheld : d'.held = d.held)
    (hf : d'.finished ≤ d.finished) (hp : Pause c.raised (c.sum Duty.due) d d') :
    Quiet [i] c ⟨c.raised, n, c.duties.set i d'⟩ where
  raised := rfl
  due_le := by
    obtain ⟨r, h1, h2⟩ := exists_sum_set Duty.due hd
    rw [sum, sum, h1, h2, Duty.due, Duty.due]
    omega
  held := by
    obtain ⟨r, h1, h2⟩ := exists_sum_set Duty.held hd
    rw [sum, sum, h1, h2, hheld]
  size := List.length_set
  others j hj := List.getElem?_set_ne fun h => hj (List.mem_singleton.2 h.symm)
  pause j hj x hx := by
    rw [List.mem_singleton.1 hj] at hx ⊢
    cases hd.symm.trans hx
    exact ⟨d', List.getElem?_set_self (List.getElem?_eq_some_iff.1 hd).1, .single hp⟩

/-- The count stays right if it falls with the worker's share of it. -/
theorem Tidy.set (h : Tidy c) (hd : c.duties[i]? = some d) {d' : Duty} {n : Nat}
    (hle : d'.due ≤ d.due) (hcount : c.raised = false → n + d.due = c.count + d'.due)
    (htest : d'.phase = .testing → d'.finished = 0)
    (hret : d'.phase = .returned → c.raised = true ∨ c.sum Duty.due = 0) :
    Tidy ⟨c.raised, n, c.duties.set i d'⟩ := by
  -- `r` is what the other workers have to do with the count
  obtain ⟨r, h1, h2⟩ := exists_sum_set Duty.due hd
  have h1 : c.sum Duty.due = d.due + r := h1
  have h2 : sum ⟨c.raised, n, c.duties.set i d'⟩ Duty.due = d'.due + r := h2 d'
  refine ⟨fun hr => ?_, fun x hx hp => ?_, fun x hx hp => ?_⟩
  · have hm := h.count hr
    have hc := hcount hr
    rw [h2]
    change n = _
    omega
  · rcases List.mem_or_eq_of_mem_set hx with hx | rfl
    · exact h.tested x hx hp
    · exact htest hp
  · have hz : c.sum Duty.due = 0 → sum ⟨c.raised, n, c.duties.set i d'⟩ Duty.due = 0 := by
      intro hz
      rw [h2]
      omega
    rcases List.mem_or_eq_of_mem_set hx with hx | rfl
    · exact (h.noticed x hx hp).imp_right hz
    · exact (hret hp).imp_right hz

section phases
variable (h : Tidy c) (hd : c.duties[i]? = some d)
include h hd

theorem Tidy.settle (hp : d.phase = .settling) {c' : Crew} (hc' : c' = ⟨c.raised,
    c.count - d.finished, c.duties.set i { d with finished := 0, phase := .testing }⟩) :
    Quiet [i] c c' ∧ Tidy c' := by
  subst hc'
  refine ⟨quiet_set hd rfl (Nat.zero_le _) (.settle hp),
    h.set hd (Nat.add_le_add_left (Nat.zero_le _) _) (fun hr => ?_) (fun _ => rfl) nofun⟩
  have hm := h.count hr
  have hle := le_sum Duty.due (List.mem_of_getElem? hd)
  simp only [Duty.due] at hle ⊢
  omega

theorem Tidy.test (hp : d.phase = .testing) {c' : Crew} (hc' : c' = ⟨c.raised, c.count,
    c.duties.set i { d with phase := if c.count = 0 then .returned else .working }⟩) :
    Quiet [i] c c' ∧ Tidy c' := by
  subst hc'
  by_cases h0 : c.count = 0
  · have hz : c.raised = false → c.sum Duty.due = 0 := fun hr => by rw [← h.count hr, h0]
    simp only [h0, if_true]
    refine ⟨quiet_set hd rfl (Nat.le_refl _) (.test hp fun hr => ?_),
      h.set hd (Nat.le_refl _) (fun _ => congrArg (· + _) h0.symm) nofun fun _ => ?_⟩
    · have hle := le_sum Duty.due (List.mem_of_getElem? hd)
      rw [hz hr, Duty.due] at hle
      omega
    · cases hr : c.raised with
      | true => exact .inl rfl
      | false => exact .inr (hz hr)
  · simp only [h0, if_false]
    refine ⟨quiet_set hd rfl (Nat.le_refl _) (.retry hp fun hr => ?_),
      h.set hd (Nat.le_refl _) (fun _ => rfl) nofun nofun⟩
    rw [← h.count hr]
    omega

theorem Tidy.rest (hp : d.phase = .working) (hr : c.raised = false) (hheld : d.held = 0)
    {c' : Crew} (hc' : c' = ⟨c.raised, c.count, c.duties.set i { d with phase := .settling }⟩) :
    Quiet [i] c c' ∧ Tidy c' := by
  subst hc'
  exact ⟨quiet_set hd rfl (Nat.le_refl _) (.rest hp hr hheld),
    h.set hd (Nat.le_refl _) (fun _ => rfl) nofun nofun⟩

theorem Tidy.leave (hp : d.phase = .working) (hr : c.raised = true) {c' : Crew}
    (hc' : c' = ⟨c.raised, c.count, c.duties.set i { d with phase := .returned }⟩) :
    Quiet [i] c c' ∧ Tidy c' := by
  subst hc'
  exact ⟨quiet_set hd rfl (Nat.le_refl _) (.leave hp hr),
    h.set hd (Nat.le_refl _) (fun _ => rfl) nofun fun _ => .inl hr⟩

end phases

end Crew

namespace Phase

def toReturn : Phase → Nat
  | .settling => 3
  | .testing => 2
  | .working => 1
  | .returned => 0

def toWork : Phase → Nat
  | .working => 0
  | .testing => 1
  | .settling => 2
  | .returned => 3

def toSettle : Phase → Nat
  | .working => 2
  | .settling => 1
  | _ => 0

def toNotice : Phase → Nat
  | .working => 3
  | .settling => 2
  | .testing => 1
  | .returned => 0

end Phase

namespace Crew

variable {c c' : Crew} {d : Duty}

section pause
variable {total : Nat} {x x' : Duty}

theorem sub_one_of_pauses {raised : Bool} {f : Duty → Nat}
    (hstep : ∀ y z, Pause raised total y z → f z ≤ f y - 1)
    (h : Relation.TransGen (Pause raised total) x x') : f x' ≤ f x - 1 := by
  induction h with
  | single hp => exact hstep _ _ hp
  | tail _ hp ih => exact (hstep _ _ hp).trans ((Nat.sub_le _ 1).trans ih)

theorem toNotice_pauses (h : Relation.TransGen (Pause false 0) x x') :
    x'.phase.toNotice ≤ x.phase.toNotice - 1 := by
  refine sub_one_of_pauses (f := fun d => d.phase.toNotice) (fun y z hp => ?_) h
  cases hp with
  | returned h => simp [h, Phase.toNotice]
  | settle h | rest h => simp [h, Phase.toNotice]
  | test h => exact Nat.zero_le _
  | retry h hpos => exact absurd (hpos rfl) (Nat.lt_irrefl 0)
  | leave h hr => cases hr

theorem toReturn_pauses (h : Relation.TransGen (Pause true total) x x') :
    x'.phase.toReturn ≤ x.phase.toReturn - 1 := by
  refine sub_one_of_pauses (f := fun d => d.phase.toReturn) (fun y z hp => ?_) h
  cases hp with
  | returned h | settle h | retry h => simp [h, Phase.toReturn]
  | test h | leave h => exact Nat.zero_le _
  | rest h hr => cases hr

theorem toWork_pauses (h : Relation.TransGen (Pause false total) x x') (hx : x.phase ≠ .returned)
    (hw : 0 < x.held) :
    0 < x'.held ∧ x'.phase ≠ .returned ∧ x'.phase.toWork + 1 ≤ x.phase.toWork := by
  have hstep : ∀ y z : Duty, Pause false total y z → y.phase ≠ .returned → 0 < y.held →
      0 < z.held ∧ z.phase ≠ .returned ∧ z.phase.toWork + 1 ≤ y.phase.toWork := by
    intro y z hp hy hw
    cases hp with
    | returned h => exact absurd h hy
    | settle h | retry h => exact ⟨hw, Phase.noConfusion, by simp [h, Phase.toWork]⟩
    | test h hz => exact absurd (hz rfl) hw.ne'
    | leave h hr => cases hr
    | rest h _ hz => exact absurd hz hw.ne'
  induction h with
  | single hp => exact hstep _ _ hp hx hw
  | tail _ hp ih =>
    obtain ⟨hheld, hne, hle⟩ := ih
    obtain ⟨hheld, hne, hle'⟩ := hstep _ _ hp hne hheld
    exact ⟨hheld, hne, by omega⟩

theorem toSettle_pauses (h : Relation.TransGen (Pause false total) x x')
    (hx : x.phase = .testing ∨ x.phase = .returned → x.finished = 0) :
    (x'.phase = .testing ∨ x'.phase = .returned → x'.finished = 0) ∧
      (0 < x'.finished → 0 < x.finished ∧ x'.phase.toSettle + 1 ≤ x.phase.toSettle) := by
  have hstep : ∀ y z : Duty, Pause false total y z →
      (y.phase = .testing ∨ y.phase = .returned → y.finished = 0) →
      (z.phase = .testing ∨ z.phase = .returned → z.finished = 0) ∧
        (0 < z.finished → 0 < y.finished ∧ z.phase.toSettle + 1 ≤ y.phase.toSettle) := by
    intro y z hp hy
    cases hp with
    | returned h => exact ⟨hy, fun hf => absurd (hy (.inr h)) hf.ne'⟩
    | settle h => exact ⟨fun _ => rfl, fun hf => absurd hf (Nat.lt_irrefl 0)⟩
    | test h => exact ⟨fun _ => hy (.inl h), fun hf => absurd (hy (.inl h)) hf.ne'⟩
    | retry h => exact ⟨fun _ => hy (.inl h), fun hf => absurd (hy (.inl h)) hf.ne'⟩
    | leave h hr => cases hr
    | rest h => exact ⟨by simp, fun hf => ⟨hf, by simp [h, Phase.toSettle]⟩⟩
  induction h with
  | single hp => exact hstep _ _ hp hx
  | tail _ hp ih =>
    obtain ⟨hquiet, hle⟩ := ih
    obtain ⟨hquiet', hle'⟩ := hstep _ _ hp hquiet
    refine ⟨hquiet', fun hf => ?_⟩
    obtain ⟨hf, hlt⟩ := hle' hf
    obtain ⟨hf, hlt'⟩ := hle hf
    exact ⟨hf, by omega⟩

end pause

/-- In `n` rounds all workers return, where `p` bounds the steps that do any work. -/
inductive Within (p n : Nat) (c : Crew) : Prop where
  | interrupted (k : Nat) (hr : c.raised = true) (hn : 3 * p + k ≤ n)
    (hw : ∀ d ∈ c.duties, d.phase.toReturn ≤ k)
  | busy (d : Duty) (hr : c.raised = false) (hm : d ∈ c.duties) (hw : 0 < d.held)
    (hn : 3 * p + d.phase.toWork + 3 ≤ n)
  | unsettled (k : Nat) (hr : c.raised = false) (hh : c.sum Duty.held = 0)
    (hn : k + 3 ≤ n) (hw : ∀ d ∈ c.duties, 0 < d.finished → d.phase.toSettle ≤ k)
  | finished (hr : c.raised = false) (hz : c.sum Duty.due = 0)
    (hw : ∀ d ∈ c.duties, d.phase.toNotice ≤ n)

theorem Tidy.not_returned (h : Tidy c) (hr : c.raised = false) (hpos : 0 < c.sum Duty.due)
    (hd : d ∈ c.duties) : d.phase ≠ .returned := by
  intro hp
  rcases h.noticed d hd hp with hx | hx
  · rw [hr] at hx
    cases hx
  · omega

theorem Tidy.held_eq_zero (h : Tidy c) (hr : c.raised = false) {d₀ : Duty} (hd₀ : d₀ ∈ c.duties)
    (hp : d₀.phase = .returned) (hd : d ∈ c.duties) : d.held = 0 := by
  have hz : c.sum Duty.due = 0 := by
    by_contra hne
    exact h.not_returned hr (Nat.pos_of_ne_zero hne) hd₀ hp
  have hle := le_sum Duty.due hd
  rw [hz, Duty.due] at hle
  omega

theorem Tidy.within {p n : Nat} (h : Tidy c) (hn : 3 * p + 5 ≤ n) : Within p n c := by
  cases hr : c.raised with
  | true => exact .interrupted 3 hr (by omega) fun d _ => by cases d.phase <;> decide
  | false =>
    rcases Nat.eq_zero_or_pos (c.sum Duty.held) with hz | hpos
    · exact .unsettled 2 hr hz (by omega) fun d _ _ => by cases d.phase <;> decide
    · obtain ⟨d, hd, hheld⟩ := exists_pos_of_sum hpos
      have hne := h.not_returned hr (by rw [sum_due]; omega) hd
      have hle : d.phase.toWork ≤ 2 := by
        cases hp : d.phase with
        | returned => exact absurd hp hne
        | _ => decide
      exact .busy d hr hd hheld (by omega)

theorem Within.isOver {p : Nat} (h : Within p 0 c) : c.isOver = true := by
  rw [isOver_iff]
  cases h with
  | interrupted k hr hn hw =>
    intro d hm
    have := hw d hm
    cases hp : d.phase with
    | returned => rfl
    | _ => rw [hp, Phase.toReturn] at this; omega
  | busy d hr hm hw hn => omega
  | unsettled k hr hh hn hw => omega
  | finished hr hz hw =>
    intro d hm
    have := hw d hm
    cases hp : d.phase with
    | returned => rfl
    | _ => rw [hp, Phase.toNotice] at this; omega

section quiet
variable {p n : Nat} {schedule : List Nat} (hq : Quiet schedule c c')
  (hall : ∀ j < c.duties.length, j ∈ schedule)
include hq hall

theorem Quiet.pause_of_mem {d' : Duty} (hd' : d' ∈ c'.duties) :
    ∃ d ∈ c.duties, Relation.TransGen (Pause c.raised (c.sum Duty.due)) d d' := by
  obtain ⟨j, hj⟩ := List.mem_iff_getElem?.1 hd'
  have hlt : j < c.duties.length := hq.size ▸ (List.getElem?_eq_some_iff.1 hj).1
  obtain ⟨x, hx, hp⟩ := hq.pause j (hall j hlt) c.duties[j] (List.getElem?_eq_getElem hlt)
  cases hj.symm.trans hx
  exact ⟨c.duties[j], List.getElem_mem hlt, hp⟩

theorem Quiet.pause_to (hd : d ∈ c.duties) :
    ∃ d' ∈ c'.duties, Relation.TransGen (Pause c.raised (c.sum Duty.due)) d d' := by
  obtain ⟨j, hj⟩ := List.mem_iff_getElem?.1 hd
  obtain ⟨d', hd', hp⟩ := hq.pause j (hall j (List.getElem?_eq_some_iff.1 hj).1) d hj
  exact ⟨d', List.mem_of_getElem? hd', hp⟩

theorem Quiet.finished (hr : c.raised = false) (hz : c.sum Duty.due = 0)
    (hw : ∀ d ∈ c.duties, d.phase.toNotice ≤ n + 1) : Within p n c' := by
  refine .finished (hq.raised ▸ hr) (Nat.le_zero.1 (hz ▸ hq.due_le)) fun x hx => ?_
  obtain ⟨d, hm, hp⟩ := hq.pause_of_mem hall hx
  rw [hr, hz] at hp
  have hle := hw d hm
  have hnext := toNotice_pauses hp
  omega

theorem Quiet.interrupted {k : Nat} (hr : c.raised = true) (hn : 3 * p + k ≤ n)
    (hw : ∀ d ∈ c.duties, d.phase.toReturn ≤ k + 1) : Within p n c' := by
  refine .interrupted k (hq.raised ▸ hr) hn fun x hx => ?_
  obtain ⟨d, hm, hp⟩ := hq.pause_of_mem hall hx
  rw [hr] at hp
  have hle := hw d hm
  have hnext := toReturn_pauses hp
  omega

theorem Quiet.busy (ht : Tidy c) (hr : c.raised = false) (hm : d ∈ c.duties)
    (hw : 0 < d.held) (hn : 3 * p + d.phase.toWork + 3 ≤ n + 1) : Within p n c' := by
  have hpos : 0 < c.sum Duty.due := by
    have hle := le_sum Duty.due hm
    rw [Duty.due] at hle
    omega
  obtain ⟨x, hx, hp⟩ := hq.pause_to hall hm
  rw [hr] at hp
  obtain ⟨hheld, -, hle⟩ := toWork_pauses hp (ht.not_returned hr hpos hm) hw
  exact .busy x (hq.raised ▸ hr) hx hheld (by omega)

theorem Quiet.unsettled {k : Nat} (ht : Tidy c) (hr : c.raised = false)
    (hh : c.sum Duty.held = 0) (hpos : 0 < c.sum Duty.due) (hn : k + 3 ≤ n)
    (hw : ∀ d ∈ c.duties, 0 < d.finished → d.phase.toSettle ≤ k + 1) : Within p n c' := by
  refine .unsettled k (hq.raised ▸ hr) (hq.held.trans hh) hn fun x hx hf => ?_
  obtain ⟨d, hm, hp⟩ := hq.pause_of_mem hall hx
  rw [hr] at hp
  have hzero : d.phase = .testing ∨ d.phase = .returned → d.finished = 0 := fun h =>
    ht.tested d hm (h.resolve_right (ht.not_returned hr hpos hm))
  obtain ⟨hf, hle⟩ := (toSettle_pauses hp hzero).2 hf
  have hle' := hw d hm hf
  omega

theorem Within.quiet (h : Within p (n + 1) c) (ht : Tidy c) (hover : c.isOver = false) :
    Within p n c' := by
  cases h with
  | interrupted k hr hn hw =>
    cases k with
    | succ k => exact hq.interrupted hall hr (by omega) hw
    | zero =>
      have hx : c.isOver = true := Within.isOver (.interrupted 0 hr (Nat.le_refl (3 * 0 + 0)) hw)
      rw [hx] at hover
      cases hover
  | busy d hr hm hheld hn => exact hq.busy hall ht hr hm hheld hn
  | unsettled k hr hh hn hw =>
    rcases Nat.eq_zero_or_pos (c.sum Duty.due) with hz | hpos
    · exact hq.finished hall hr hz fun d _ =>
        le_trans (by cases d.phase <;> decide) (by omega : 3 ≤ n + 1)
    · cases k with
      | succ k => exact hq.unsettled hall ht hr hh hpos (by omega) hw
      | zero =>
        -- what is left is finished, but its worker has had the time to take it off the count
        have hfin := hpos
        rw [sum_due, hh, Nat.zero_add] at hfin
        obtain ⟨d, hm, hf⟩ := exists_pos_of_sum hfin
        have hle := hw d hm hf
        cases hp : d.phase with
        | returned => exact absurd hp (ht.not_returned hr hpos hm)
        | testing => have := ht.tested d hm hp; omega
        | _ => rw [hp, Phase.toSettle] at hle; omega
  | finished hr hz hw => exact hq.finished hall hr hz hw

end quiet

theorem Within.productive {p p' n : Nat} (h : Within p (n + 1) c) (ht : Tidy c')
    (hover : c.isOver = false) (hraised : c.raised = true → c'.raised = true) (hlt : p' < p)
    (hheld : 0 < c.sum Duty.held) : Within p' n c' := by
  cases h with
  | interrupted k hr hn hw =>
    cases k with
    | succ k =>
      exact .interrupted 3 (hraised hr) (by omega) fun d _ => by cases d.phase <;> decide
    | zero =>
      have hx : c.isOver = true := Within.isOver (.interrupted 0 hr (Nat.le_refl (3 * 0 + 0)) hw)
      rw [hx] at hover
      cases hover
  | busy d hr hm hw hn => exact ht.within (by omega)
  | unsettled k hr hh => omega
  | finished hr hz =>
    rw [sum_due] at hz
    omega

/-- One step of a worker: it does some of the work, or it goes on to its next phase. The work left
to do is `p` before the step and `p'` after it. -/
inductive Step (i : Nat) (p p' : Nat) (c c' : Crew) : Prop where
  | work (h : Turned c c') (hheld : 0 < c.sum Duty.held) (hlt : p' < p)
  | pause (h : Quiet [i] c c') (ht : Tidy c') (heq : p' = p)

theorem Step.tidy {i p p' : Nat} (h : Step i p p' c c') (ht : Tidy c) : Tidy c' := by
  cases h with
  | work h hheld =>
    refine h.tidy ht ?_
    rw [sum_due]
    omega
  | pause _ ht' => exact ht'

section run
variable {τ : Type} {step : Nat → τ → τ} {crew : τ → Crew} {P : Nat → τ → Prop}
  (hstep : ∀ p m i, P p m → (crew m).Tidy →
    ∃ p', P p' (step i m) ∧ Step i p p' (crew m) (crew (step i m)))
include hstep

theorem foldl_cases (schedule : List Nat) {p : Nat} {m m' : τ}
    (hm' : schedule.foldl (fun m i => step i m) m = m') (hm : P p m) (ht : (crew m).Tidy) :
    ∃ p', P p' m' ∧ (crew m').Tidy ∧ (crew m').duties.length = (crew m).duties.length ∧
      ((crew m).raised = true → (crew m').raised = true) ∧
      (p' < p ∧ 0 < (crew m).sum Duty.held ∨ Quiet schedule (crew m) (crew m') ∧ p' = p) := by
  -- from the end, as the last worker may give work to those before it
  induction schedule using List.reverseRecOn generalizing m' with
  | nil =>
    subst hm'
    exact ⟨p, hm, ht, rfl, id, .inr ⟨.nil _, rfl⟩⟩
  | append_singleton rest i ih =>
    rw [List.foldl_append, List.foldl_cons, List.foldl_nil] at hm'
    obtain ⟨q, hq, ht', hsize, hraised, hcase⟩ := ih rfl
    generalize rest.foldl (fun m i => step i m) m = k at hm' hq ht' hsize hraised hcase
    subst hm'
    obtain ⟨p', hp', hs⟩ := hstep q k i hq ht'
    refine ⟨p', hp', hs.tidy ht', ?_⟩
    cases hs with
    | work h hheld hlt =>
      refine ⟨h.size.trans hsize, fun hr => h.raised (hraised hr), .inl ?_⟩
      rcases hcase with ⟨hless, hpos⟩ | ⟨hquiet, heq⟩
      · exact ⟨hlt.trans hless, hpos⟩
      · exact ⟨heq ▸ hlt, hquiet.held ▸ hheld⟩
    | pause h _ heq =>
      refine ⟨h.size.trans hsize, fun hr => h.raised.trans (hraised hr), ?_⟩
      rcases hcase with ⟨hless, hpos⟩ | ⟨hquiet, heq'⟩
      · exact .inl ⟨heq ▸ hless, hpos⟩
      · exact .inr ⟨hquiet.append h, heq.trans heq'⟩

/-- All workers return in time, whatever the schedule, as long as it is fair. -/
theorem rounds_isOver {isOver : τ → Bool} (hover : ∀ m, isOver m = (crew m).isOver)
    (schedule : Schedule) (n : Nat) {p : Nat} {m : τ}
    (hfair : schedule.Fair (crew m).duties.length) (hm : P p m) (ht : (crew m).Tidy)
    (hn : Within p n (crew m)) :
    isOver (schedule.rounds step isOver n m) = true ∧
      (crew (schedule.rounds step isOver n m)).duties.length = (crew m).duties.length ∧
      (crew (schedule.rounds step isOver n m)).Tidy ∧
      ∃ p', P p' (schedule.rounds step isOver n m) := by
  -- each round does some of the work or takes every worker on by a phase
  induction n generalizing schedule p m with
  | zero => exact ⟨(hover m).trans hn.isOver, rfl, ht, p, hm⟩
  | succ n ih =>
    cases ho : isOver m with
    | true =>
      rw [Schedule.rounds_of_isOver ho]
      exact ⟨ho, rfl, ht, p, hm⟩
    | false =>
      have ho' : (crew m).isOver = false := (hover m).symm.trans ho
      rw [Schedule.rounds_succ ho]
      obtain ⟨q, hq, ht', hsize, hraised, hcase⟩ := foldl_cases hstep (schedule 0) rfl hm ht
      generalize (schedule 0).foldl (fun m i => step i m) m = k at hq ht' hsize hraised hcase ⊢
      have hwithin : Within q n (crew k) := by
        rcases hcase with ⟨hlt, hheld⟩ | ⟨hquiet, heq⟩
        · exact hn.productive ht' ho' hraised hlt hheld
        · rw [heq]
          exact hn.quiet hquiet (hfair 0) ht ho'
      obtain ⟨hover', hsize', hrest⟩ := ih schedule.tail (hsize ▸ hfair.tail) hq ht' hwithin
      exact ⟨hover', hsize'.trans hsize, hrest⟩

end run

end Crew

end ModelChecker
