import ModelChecker.Json.Value

namespace ModelChecker.Json

def isDigit (c : Char) : Bool := '0' ≤ c ∧ c ≤ '9'

def digitsValue (cs : List Char) : Nat := cs.foldl (fun n c => n * 10 + (c.toNat - 48)) 0

/-- A spelling that holds digits only, and at least one. -/
def natural? (spelling : String) : Option Nat :=
  let cs := spelling.toList
  if !cs.isEmpty && cs.all isDigit then some (digitsValue cs) else none

def ofNat (n : Nat) : Json := .number (toString n)

end ModelChecker.Json
