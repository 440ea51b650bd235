import ModelChecker.Check.Checker
import ModelChecker.Command.Host
import ModelChecker.Command.Path
import ModelChecker.Command.Report
import ModelChecker.Digest.Sha256
import ModelChecker.Document.Graph
import ModelChecker.Graph.Systems

namespace ModelChecker

/-- Why a file holds no graph that can be searched. -/
inductive LoadError where
  | unreadable (e : FileError)
  | malformed
  | invalid (e : GraphError)
deriving DecidableEq, Repr

def LoadError.message : LoadError → String
  | .unreadable e => e.message
  | .malformed => "<parse error>"
  | .invalid e => e.message

def loadGraph (bytes : Except FileError ByteArray) : Except LoadError IndexedGraph := do
  let bytes ← bytes.mapError .unreadable
  match String.fromUTF8? bytes with
  | none => throw (.unreadable .notText)
  | some text =>
    match (Json.parse text).bind Graph.ofJson? with
    | none => throw .malformed
    | some graph => graph.index.mapError .invalid

namespace Command

/-- The check that a command asks for, given the content of its file. -/
def check (c : Command) (bytes : Except FileError ByteArray) : CheckResult :=
  let request := CheckRequest.ofConfig c.config
  let result := match loadGraph bytes with
    | .error e =>
      { (request.result .error).withReason .invalidInput (c.file ++ ": " ++ e.message) with
        stats := some {} }
    | .ok graph =>
      match c.job, c.config.property with
      | .explore, _ => Check.exploration graph.system request
      | .check, .liveness => Check.liveness graph.system request
      | .check, _ => Check.safety graph.system request
  { result with name := c.job.name }

def digest? (bytes : Except FileError ByteArray) : Option String :=
  match bytes with
  | .ok bytes => some (Sha256.hex bytes)
  | .error _ => none

end Command

/-- What a command leaves behind, apart from files. -/
structure Outcome where
  exitCode : Nat
  output : String := ""
  /-- What went wrong with the output itself. -/
  error : Option String := none
deriving DecidableEq, Repr

variable {m : Type → Type} [Monad m]

/-- Writes a file through a temporary one, so that it is never seen half written. -/
def Host.replaceFile (h : Host m) (path : String) (text : String) : m (Except String Unit) := do
  let temporary := Path.temporary path
  match ← h.write temporary text.toUTF8 with
  | .error e => return .error ("write " ++ temporary ++ ": " ++ e.message)
  | .ok () =>
    match ← h.rename temporary path with
    | .error e => return .error ("rename " ++ path ++ ": " ++ e.message)
    | .ok () => return .ok ()

def Command.run (c : Command) (h : Host m) : m Outcome := do
  let startedAt ← h.seconds
  let start ← h.milliseconds
  let bytes ← h.read c.file
  let check := c.check bytes
  let finishedAt ← h.seconds
  let finish ← h.milliseconds
  let revision ← h.revision
  let report : Report :=
    { revision, command := c, input := ⟨c.file, Command.digest? bytes⟩, check, startedAt, finishedAt
      durationMs := finish - start }
  match c.output with
  | none => return { exitCode := report.exitCode, output := report.render ++ "\n" }
  | some path =>
    match ← h.replaceFile path report.render with
    | .ok () => return { exitCode := report.exitCode }
    | .error message => return { exitCode := 2, error := some message }

def usage : String :=
  "Usage: " ++ toolName ++ " [--format <json|text>] [--output <path>] [-v] <command> [options] <file>\n" ++
  "\n" ++
  "Commands:\n" ++
  "  explore  Enumerate the reachable state space\n" ++
  "  check    Check a property of the state space\n" ++
  "\n" ++
  "Options of both: --workers <n>, --order <bfs|dfs>, --partitioned, --max-states <n>\n" ++
  "Options of check: --property <deadlock|goal|liveness>, --context-switch-bound <n>, --por\n"

def runArguments (h : Host m) (words : List String) : m Outcome := do
  match Arguments.parse words with
  | .ok command => command.run h
  | .version => return { exitCode := 0, output := toolName ++ " " ++ toolVersion ++ "\n" }
  | .help => return { exitCode := 0, output := usage }
  | .misuse => return { exitCode := 2 }

end ModelChecker
