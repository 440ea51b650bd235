namespace ModelChecker

structure Fifo (α : Type) where
  front : List α := []
  back : List α := []
deriving Repr, Inhabited

namespace Fifo

variable {α : Type}

def toList (q : Fifo α) : List α := q.front ++ q.back.reverse

def push (q : Fifo α) (a : α) : Fifo α := { q with back := a :: q.back }

def pop? (q : Fifo α) : Option (α × Fifo α) :=
  match q.front with
  | a :: rest => some (a, ⟨rest, q.back⟩)
  | [] =>
    match q.back.reverse with
    | [] => none
    | a :: rest => some (a, ⟨rest, []⟩)

def isEmpty (q : Fifo α) : Bool := q.front.isEmpty && q.back.isEmpty

def length (q : Fifo α) : Nat := q.front.length + q.back.length

@[simp] theorem toList_empty : (⟨[], []⟩ : Fifo α).toList = [] := rfl

@[simp] theorem toList_push (q : Fifo α) (a : α) : (q.push a).toList = q.toList ++ [a] := by
  simp [toList, push]

theorem pop?_eq_none_iff (q : Fifo α) : q.pop? = none ↔ q.toList = [] := by
  rcases q with ⟨_ | ⟨a, f⟩, b⟩
  · simp only [pop?, toList, List.nil_append]
    split <;> simp_all
  · simp [pop?, toList]

theorem toList_of_pop? {q r : Fifo α} {a : α} (h : q.pop? = some (a, r)) :
    q.toList = a :: r.toList := by
  rcases q with ⟨_ | ⟨c, f⟩, b⟩
  · simp only [pop?] at h
    split at h
    · cases h
    · rename_i heq
      cases h
      simp [toList, heq]
  · simp only [pop?, Option.some.injEq, Prod.mk.injEq] at h
    obtain ⟨rfl, rfl⟩ := h
    rfl

@[simp] theorem isEmpty_iff (q : Fifo α) : q.isEmpty = true ↔ q.toList = [] := by
  simp [isEmpty, toList]

@[simp] theorem length_eq (q : Fifo α) : q.length = q.toList.length := by
  simp [length, toList]

end Fifo

end ModelChecker
