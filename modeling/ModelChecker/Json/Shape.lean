import ModelChecker.Json.Decimal
import ModelChecker.Json.Quoted

namespace ModelChecker.Json

/-- Whether a field may be left out: never, from an object only, or from the end of an array
too. -/
inductive Presence where
  | required
  | optional
  | defaulted
deriving DecidableEq, Repr

structure Field where
  key : String
  presence : Presence

def bool? : Json → Option Bool
  | .bool b => some b
  | _ => none

def string? : Json → Option String
  | .string spelling => text? spelling
  | _ => none

def natBelow? (limit : Nat) : Json → Option Nat
  | .number spelling => (natural? spelling).filter (· < limit)
  | _ => none

def word32? (j : Json) : Option UInt32 := (j.natBelow? UInt32.size).map .ofNat

def word64? (j : Json) : Option UInt64 := (j.natBelow? UInt64.size).map .ofNat

def list? {α : Type} (f : Json → Option α) : Json → Option (List α)
  | .array items => items.mapM f
  | _ => none

def nullable? {α : Type} (f : Json → Option α) : Json → Option (Option α)
  | .null => some none
  | j => (f j).map some

/-- One of several names, alone or as the only key of an object that holds `null`. -/
def name? {α : Type} (names : List (String × α)) : Json → Option α
  | .string spelling => (text? spelling).bind fun t => names.lookup t
  | .object [(spelling, .null)] => (text? spelling).bind fun t => names.lookup t
  | _ => none

def keyed? (members : List (String × Json)) : Option (List (String × Json)) :=
  members.mapM fun (spelling, value) => (text? spelling).map (·, value)

/-- The value of one field in an object, or `none` inside if it is left out. -/
def memberField? (members : List (String × Json)) (f : Field) : Option (Option Json) :=
  match members.filter (·.1 == f.key) with
  | [] => if f.presence = .required then none else some none
  | [(_, value)] => some (some value)
  | _ => none

def itemFields? : List Field → List Json → Option (List (Option Json))
  | [], [] => some []
  | [], _ :: _ => none
  | f :: fields, [] =>
    if f.presence = .defaulted then (itemFields? fields []).map (none :: ·) else none
  | _ :: fields, item :: items => (itemFields? fields items).map (some item :: ·)

/-- The values of the fields of a record, one for each field. -/
def fields? (fields : List Field) : Json → Option (List (Option Json))
  | .object members => do
    let members ← keyed? members
    fields.mapM (memberField? members)
  | .array items => itemFields? fields items
  | _ => none

def need? {α : Type} (f : Json → Option α) (value : Option Json) : Option α := value.bind f

def allow? {α : Type} (f : Json → Option α) : Option Json → Option (Option α)
  | none => some none
  | some j => nullable? f j

def orElse? {α : Type} (default : α) (f : Json → Option α) : Option Json → Option α
  | none => some default
  | some j => f j

def ofOption {α : Type} (f : α → Json) : Option α → Json
  | none => .null
  | some a => f a

/-- An object whose keys need no escapes. Members without a value are left out. -/
def ofFields (members : List (String × Option Json)) : Json :=
  .object (members.filterMap fun (key, value) => value.map (key, ·))

end ModelChecker.Json
