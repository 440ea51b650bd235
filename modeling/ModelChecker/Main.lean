import ModelChecker.Command.Run
import Std.Time.DateTime.Timestamp

namespace ModelChecker

def fileError : IO.Error → FileError
  | .noFileOrDirectory .. => .noEntry
  | .inappropriateType _ code text
  | .permissionDenied _ code text
  | .resourceExhausted _ code text
  | .invalidArgument _ code text
  | .alreadyExists _ code text
  | .noSuchThing _ code text
  | .interrupted _ code text
  | .resourceBusy code text
  | .illegalOperation code text
  | .unsatisfiedConstraints code text
  | .unsupportedOperation code text
  | .hardwareFault code text
  | .otherError code text => .system text code.toNat
  | e => .system (toString e) 0

def attempt {α : Type} (act : IO α) : IO (Except FileError α) := do
  try
    return .ok (← act)
  catch e =>
    return .error (fileError e)

def systemHost : Host IO where
  read path := attempt (IO.FS.readBinFile path)
  write path bytes := attempt (IO.FS.writeBinFile path bytes)
  rename source target := attempt (IO.FS.rename source target)
  revision := IO.getEnv "STATEX_GIT_SHA"
  seconds := do return (← Std.Time.Timestamp.now).toSecondsSinceUnixEpoch.val.toNat
  milliseconds := IO.monoMsNow

end ModelChecker

def main (args : List String) : IO UInt32 := do
  let outcome ← ModelChecker.runArguments ModelChecker.systemHost args
  IO.print outcome.output
  match outcome.error with
  | some message => IO.eprintln ("tool error: " ++ message)
  | none => pure ()
  return .ofNat outcome.exitCode
