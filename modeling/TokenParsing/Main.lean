import TokenParsing.Cli.Report

/-!
# The command line program

Reads the source that the arguments name, prints the report, and exits with its status.
-/

namespace TokenParsing.Cli

/-- The number of the error that a name, or a part of it, is too long. -/
def nameTooLongCode : UInt32 := 36

/-- What a name stands for if it cannot be opened; `found` tells whether it leads to something. -/
def Entry.ofOpenError (found : Bool) : IO.Error → Entry
  | .permissionDenied .. => if found then .unreadable else .barred
  | .invalidArgument _ code _ => if code = nameTooLongCode then .tooLong else .missing
  | _ => if found then .faulty else .missing

/-- What a name stands for if it was opened and cannot be read: a folder can be opened. -/
def Entry.ofReadError : IO.Error → Entry
  | .inappropriateType .. => .directory
  | _ => .faulty

/-- What stands under a name on this machine. -/
def readEntry (name : String) : IO Entry := do
  let path := if name.isEmpty then "." else name
  match ← (IO.FS.Handle.mk path .read).toBaseIO with
  | .error e =>
    let target ← (IO.FS.realPath path).toBaseIO
    return .ofOpenError target.toBool e
  | .ok handle =>
    match ← handle.readBinToEnd.toBaseIO with
    | .error e => return .ofReadError e
    | .ok bytes => return .file bytes.toList

end TokenParsing.Cli

open TokenParsing.Cli in
/-- Runs the program with the given arguments. -/
def main (args : List String) : IO UInt32 := do
  let entry ← match Options.ofArguments args with
    | .ok o => readEntry o.source
    | .error _ => pure .missing
  let report := run args fun _ => entry
  for line in report.log do IO.eprintln line
  IO.print report.output
  return report.exit.toUInt32
