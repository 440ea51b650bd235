import ModelChecker.Command.Arguments
import ModelChecker.Command.Timestamp
import ModelChecker.Document.Check

namespace ModelChecker

def toolName : String := "statex"

def toolVersion : String := "0.1.0"

/-- A file that a command has read, with its digest if it could be read. -/
structure ReportInput where
  path : String
  digest : Option String
deriving DecidableEq, Repr

structure Report where
  revision : Option String
  command : Command
  input : ReportInput
  check : CheckResult
  startedAt : Nat
  finishedAt : Nat
  durationMs : Nat

def Status.exitCode : Status → Nat
  | .pass => 0
  | .fail => 1
  | .error => 2
  | .inconclusive => 3
  | .outOfMemory => 5

namespace Report

open Json

def exitCode (r : Report) : Nat := r.check.status.exitCode

def toJson (r : Report) : Json :=
  let tool := ofFields
    [("name", some (ofText toolName)), ("version", some (ofText toolVersion)),
      ("git_sha", some (ofText (r.revision.getD "UNKNOWN")))]
  let invocation := ofFields
    [("command", some (ofText r.command.job.name)),
      ("args", some (.array [ofText r.command.file])),
      ("format", some (ofText r.command.format.name)), ("config", some r.command.config.toJson)]
  let input := ofFields
    [("path", some (ofText r.input.path)),
      ("sha256", some (ofText (r.input.digest.getD "UNKNOWN")))]
  ofFields
    [("schema_version", some (ofText "0.1")), ("tool", some tool), ("invocation", some invocation),
      ("inputs", some (.array [input])), ("status", some r.check.status.toJson),
      ("exit_code", some (ofNat r.exitCode)),
      ("started_at", some (ofText (Timestamp.render r.startedAt))),
      ("finished_at", some (ofText (Timestamp.render r.finishedAt))),
      ("duration_ms", some (ofNat r.durationMs)), ("checks", some (.array [r.check.toJson]))]

def countsText (s : CheckStats) : String :=
  match s.states, s.transitions with
  | some states, some transitions => s!" states={states} transitions={transitions}"
  | _, _ => ""

def reasonText (r : Reason) : String :=
  match r.message with
  | some message => "\nreason: " ++ message
  | none => ""

def counterexampleText (c : Counterexample) : String :=
  let cycle := match c.cycleStart with
    | some start => s!" (cycle from step {start})"
    | none => ""
  "\ncounterexample: " ++ " -> ".intercalate c.states ++ cycle

def summary (r : Report) : String :=
  "status=" ++ r.check.status.name ++ " exit_code=" ++ toString r.exitCode ++
    r.check.stats.elim "" countsText ++ r.check.reason.elim "" reasonText ++
    r.check.counterexample.elim "" counterexampleText

def render (r : Report) : String :=
  match r.command.format with
  | .json => r.toJson.pretty
  | .text => r.summary

end Report

end ModelChecker
