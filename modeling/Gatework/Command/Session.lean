import Gatework.Config
import Gatework.Disk
import Gatework.View.Circuit

/-
  Sessions: steps that print results, say things beside them,
  log, and may end early.

  The code at the end is 0 for success, 1 if the source or a
  record is at fault, and 2 if settings or files are.

  Key definitions include:
    * `Failure`
    * `Report`
    * `Session`
    * `Session.report`
-/

------------------------------------------------------------
-- Sessions
------------------------------------------------------------

namespace Gatework

/- Why a command is broken off. -/
inductive Failure where
  | configUnreadable (e : DiskError)
  | config (e : ConfigError)
  | disk (e : DiskError)
  | goldenDisk (e : DiskError)
  | goldenMalformed
  | nulInImagePath
  | noGraphviz (format : ImageFormat)
deriving DecidableEq, Repr, Inhabited

namespace Failure

def message : Failure → String
  | configUnreadable e => "failed to read configuration: " ++ e.message
  | config e => e.message
  | disk e => e.message
  | goldenDisk e => "golden file I/O failed: " ++ e.message
  | goldenMalformed => "invalid golden record: not a record"
  | nulInImagePath => "I/O error: nul byte found in provided data"
  | noGraphviz format =>
      "Graphviz `dot` not found; install Graphviz to render "
        ++ format.extension ++ " output"

end Failure

/- How a command ends before its end. -/
inductive Ending where
  | rejected
  | failed (f : Failure)
deriving DecidableEq, Repr, Inhabited

/-
  What was printed as result, said beside it, and logged, with
  the level from which on logged messages are shown.
-/
structure Transcript where
  out : String := ""
  err : String := ""
  log : List String := []
  level : LogLevel := .warn
deriving DecidableEq, Repr, Inhabited

/- A transcript and the code at the end. -/
structure Report extends Transcript where
  code : Nat
deriving DecidableEq, Repr, Inhabited

/- Steps that may end a command and write its transcript. -/
abbrev Session (m : Type → Type) := ExceptT Ending (StateT Transcript m)

namespace Session

variable {m : Type → Type} [Monad m]

/- Prints a result. -/
def print
    (s : String) :
    Session m Unit :=
  modify fun t => { t with out := t.out ++ s }

/- Says something beside the results. -/
def say
    (s : String) :
    Session m Unit :=
  modify fun t => { t with err := t.err ++ s }

def log
    (messages : List String) :
    Session m Unit :=
  modify fun t => { t with log := t.log ++ messages }

/- Ends with a complaint about the source or a record. -/
def reject
    {α : Type}
    (message : String) :
    Session m α := do
  say ("error: " ++ message ++ "\n")
  throw .rejected

/- Goes on with the result of an access to files. -/
def demand
    {α : Type}
    (failure : DiskError → Failure)
    (access : m (Except DiskError α)) :
    Session m α := do
  match ← access with
  | .ok a => return a
  | .error e => throw (.failed (failure e))

/- The report of a session. -/
def report
    (s : Session m Unit) :
    m Report := do
  let (result, t) ← s.run.run {}
  match result with
  | .ok _ => return ⟨t, 0⟩
  | .error .rejected => return ⟨t, 1⟩
  | .error (.failed f) =>
      return ⟨{ t with err := t.err ++ "error: " ++ f.message ++ "\n" }, 2⟩

end Session

end Gatework
