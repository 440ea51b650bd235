import ModelChecker.Document.Config

namespace ModelChecker.Arguments

inductive Format where
  | json
  | text
deriving DecidableEq, Repr

def Format.name : Format → String
  | .json => "json"
  | .text => "text"

def Format.names : List (String × Format) := [.json, .text].map fun f => (f.name, f)

inductive Job where
  | explore
  | check
deriving DecidableEq, Repr

def Job.name : Job → String
  | .explore => "explore"
  | .check => "check"

def number? (limit : Nat) (word : String) : Option Nat :=
  let digits := match word.toList with
    | '+' :: rest => rest
    | cs => cs
  (Json.natural? (String.ofList digits)).filter (· < limit)

def workers? (word : String) : Option UInt64 :=
  ((number? UInt64.size word).filter (0 < ·)).map .ofNat

def states? (word : String) : Option UInt64 := (number? UInt64.size word).map .ofNat

/-- Unlike the counts, a bound may be written with a minus sign, which only zero allows. -/
def bound? (word : String) : Option UInt32 :=
  match word.toList with
  | '-' :: digits => ((Json.natural? (String.ofList digits)).filter (· = 0)).map .ofNat
  | _ => (number? UInt32.size word).map .ofNat

def path? (word : String) : Option String := if word.isEmpty then none else some word

/-- An option that is known. -/
structure Spec where
  name : String
  /-- Which values it takes, or `none` for a flag. -/
  value : Option (String → Bool) := none
  repeatable : Bool := false

def globalSpecs : List Spec :=
  [{ name := "format", value := some fun w => (Format.names.lookup w).isSome },
    { name := "output", value := some fun w => (path? w).isSome },
    { name := "verbose", repeatable := true }]

def searchSpecs : List Spec :=
  [{ name := "workers", value := some fun w => (workers? w).isSome },
    { name := "order", value := some fun w => (SearchOrder.names.lookup w).isSome },
    { name := "partitioned" },
    { name := "max-states", value := some fun w => (states? w).isSome }]

def checkSpecs : List Spec :=
  [{ name := "property", value := some fun w => (Property.names.lookup w).isSome },
    { name := "context-switch-bound", value := some fun w => (bound? w).isSome },
    { name := "por" }]

/-- Before the command, or after it. -/
inductive Level where
  | tool
  | command (a : Job)
deriving DecidableEq, Repr

def Level.specs : Level → List Spec
  | .tool => globalSpecs
  | .command .explore => globalSpecs ++ searchSpecs
  | .command .check => globalSpecs ++ searchSpecs ++ checkSpecs

/-- The options given so far, with their values, and the file. -/
structure Given where
  options : List (String × String) := []
  file : Option String := none
deriving DecidableEq, Repr

def Given.get? (g : Given) (name : String) : Option String := g.options.lookup name

def Given.has (g : Given) (name : String) : Bool := (g.get? name).isSome

inductive Answer (α : Type) where
  | ok (a : α)
  | version
  | help
  | misuse
deriving DecidableEq, Repr

/-- Takes one more option, unless it was given before or its value is refused. -/
def Given.add (g : Given) (s : Spec) (value : String) : Answer Given :=
  if g.has s.name && !s.repeatable then .misuse
  else if s.value.all (· value) then .ok { g with options := (s.name, value) :: g.options }
  else .misuse

def Given.addFile (g : Given) (word : String) : Answer Given :=
  if g.file.isSome || word.isEmpty then .misuse else .ok { g with file := some word }

/-- One word of the command line. -/
inductive Word where
  /-- Two dashes, after which there are no more options. -/
  | divider
  | long (name : String) (attached : Option String)
  | short (letters : List Char)
  | plain (word : String)
deriving DecidableEq, Repr

def Word.ofString (word : String) : Word :=
  match word.toList with
  | ['-', '-'] => .divider
  | '-' :: '-' :: rest =>
    match rest.dropWhile (· ≠ '=') with
    | [] => .long (String.ofList rest) none
    | _ :: value => .long (String.ofList (rest.takeWhile (· ≠ '='))) (some (String.ofList value))
  | '-' :: c :: rest => .short (c :: rest)
  | _ => .plain word

def scanShort (level : Level) : List Char → Given → Answer Given
  | [], g => .ok g
  | 'v' :: rest, g => scanShort level rest { g with options := ("verbose", "") :: g.options }
  | 'h' :: _, _ => .help
  | 'V' :: _, _ => if level = .tool then .version else .misuse
  | _ :: _, _ => .misuse

def scanFiles : List String → Given → Answer Given
  | [], g => .ok g
  | word :: rest, g =>
    match g.addFile word with
    | .ok g => scanFiles rest g
    | other => other

/-- The value of an option that has none attached: the next word, if it is plain. -/
def nextValue? : List String → Option (String × List String)
  | [] => none
  | word :: rest =>
    match Word.ofString word with
    | .plain value => some (value, rest)
    | _ => none

/-- What is left after one option or flag. -/
inductive Scanned where
  | go (g : Given) (rest : List String)
  | halt (a : Answer Given)

def Scanned.ofAnswer (rest : List String) : Answer Given → Scanned
  | .ok g => .go g rest
  | other => .halt other

def scanLong (level : Level) (name : String) (attached : Option String) (rest : List String)
    (g : Given) : Scanned :=
  match level.specs.find? (·.name == name) with
  | some s =>
    if s.value.isSome then
      match attached with
      | some value => .ofAnswer rest (g.add s value)
      | none =>
        match nextValue? rest with
        | some (value, rest) => .ofAnswer rest (g.add s value)
        | none => .halt .misuse
    else if attached.isSome then .halt .misuse
    else .ofAnswer rest (g.add s "")
  | none =>
    if attached.isSome then .halt .misuse
    else if name = "help" then .halt .help
    else if name = "version" ∧ level = .tool then .halt .version
    else .halt .misuse

/-- The words after the command. The first argument bounds their number. -/
def scanCommand (a : Job) : Nat → List String → Given → Answer Given
  | _, [], g => .ok g
  | 0, _ :: _, _ => .misuse
  | n + 1, word :: rest, g =>
    match Word.ofString word with
    | .divider => scanFiles rest g
    | .plain word =>
      match g.addFile word with
      | .ok g => scanCommand a n rest g
      | other => other
    | .short letters =>
      match scanShort (.command a) letters g with
      | .ok g => scanCommand a n rest g
      | other => other
    | .long name attached =>
      match scanLong (.command a) name attached rest g with
      | .go g rest => scanCommand a n rest g
      | .halt answer => answer

/-- What stands on the two sides of the command. -/
structure Sides where
  job : Job
  before : Given
  after : Given

def Answer.map {α β : Type} (f : α → β) : Answer α → Answer β
  | .ok a => .ok (f a)
  | .version => .version
  | .help => .help
  | .misuse => .misuse

def helpWith : List String → Answer Sides
  | [] => .help
  | [word] => if word ∈ ["help", Job.explore.name, Job.check.name] then .help else .misuse
  | _ => .misuse

/-- The words before the command, and on. -/
def scanTool : Nat → List String → Given → Answer Sides
  | _, [], _ => .misuse
  | 0, _ :: _, _ => .misuse
  | n + 1, word :: rest, g =>
    match Word.ofString word with
    | .divider => .misuse
    | .plain word =>
      if word = "help" then helpWith rest
      else
        match [Job.explore, .check].find? (·.name == word) with
        | some a => (scanCommand a rest.length rest {}).map (⟨a, g, ·⟩)
        | none => .misuse
    | .short letters =>
      match scanShort .tool letters g with
      | .ok g => scanTool n rest g
      | .version => .version
      | .help => .help
      | .misuse => .misuse
    | .long name attached =>
      match scanLong .tool name attached rest g with
      | .go g rest => scanTool n rest g
      | .halt .version => .version
      | .halt .help => .help
      | .halt _ => .misuse

end ModelChecker.Arguments

namespace ModelChecker

/-- A command that is to be carried out. -/
structure Command where
  job : Arguments.Job
  file : String
  config : SearchConfig
  format : Arguments.Format
  output : Option String
deriving DecidableEq, Repr

namespace Arguments

def Given.searchConfig (g : Given) : SearchConfig where
  workers := ((g.get? "workers").bind workers?).getD 1
  order := ((g.get? "order").bind (SearchOrder.names.lookup ·)).getD .breadthFirst
  partitioned := g.has "partitioned"
  maxStates := (g.get? "max-states").bind states?

/-- An option that may stand on either side counts as it is given after the command. -/
def Sides.get? (s : Sides) (name : String) : Option String :=
  (s.after.get? name).or (s.before.get? name)

/-- How the search of a command is configured. A check needs a property. -/
def Sides.config? (s : Sides) : Option SearchConfig :=
  match s.job with
  | .explore => some s.after.searchConfig
  | .check => do
    let property ← (s.after.get? "property").bind (Property.names.lookup ·)
    return { s.after.searchConfig with
      property
      contextSwitchBound := (s.after.get? "context-switch-bound").bind bound?
      reduction := s.after.has "por" }

def Sides.command? (s : Sides) : Option Command := do
  let file ← s.after.file
  let config ← s.config?
  return { job := s.job, file, config
           format := ((s.get? "format").bind (Format.names.lookup ·)).getD .json
           output := s.get? "output" }

/-- The meaning of a command line. -/
def parse (words : List String) : Answer Command :=
  match scanTool words.length words {} with
  | .ok sides =>
    match sides.command? with
    | some command => .ok command
    | none => .misuse
  | .version => .version
  | .help => .help
  | .misuse => .misuse

end Arguments

end ModelChecker
