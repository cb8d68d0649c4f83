import Gatework.Command.Run

/-
  The program: runs a command on the files of the system.

  Key definitions include:
    * `main`
-/

namespace Gatework

namespace DiskError

/- The cause of an error of the system. -/
def ofIOError : IO.Error → DiskError
  | .alreadyExists .. => alreadyThere
  | .inappropriateType _ 21 _ => isFolder
  | .inappropriateType .. => notFolder
  | .invalidArgument _ 22 _ => nulInName
  | .invalidArgument .. => nameTooLong
  | _ => missing

end DiskError

/- The result of an access to the system. -/
def accessed
    {α : Type}
    (access : IO α) :
    IO (Except DiskError α) := do
  match ← access.toBaseIO with
  | .ok a => return .ok a
  | .error e => return .error (.ofIOError e)

instance : DiskAccess IO where
  readText path := accessed (IO.FS.readFile path)
  writeText path text := accessed (IO.FS.writeFile path text)
  makeFolders path := accessed (IO.FS.createDirAll path)

/- How the program is called. -/
def usage : String :=
  "usage: gatework [OPTIONS] "
    ++ "<analyze|hash|explain|bdd-expr|pretty|export|rewrite> FILE"

/- Colours messages on a terminal if that is left open. -/
def Command.withTerminal
    (c : Command)
    (isTerminal : Bool) :
    Command :=
  if isTerminal && decide (c.manner.color = .auto) then
    { c with manner := { c.manner with color := .always } }
  else
    c

end Gatework

open Gatework in
def main
    (args : List String) :
    IO UInt32 := do
  let stderr ← IO.getStderr
  match Command.parse? args with
  | none =>
      stderr.putStrLn usage
      return 2
  | some c =>
      let report ← (c.withTerminal (← stderr.isTty)).run
      if report.level.showsWarnings then
        for message in report.log do
          stderr.putStrLn ("[WARN ] " ++ message)
      stderr.putStr report.err
      (← IO.getStdout).putStr report.out
      return report.code.toUInt32
