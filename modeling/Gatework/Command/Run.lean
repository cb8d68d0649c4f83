import Gatework.Command.Basic
import Gatework.Command.Session
import Gatework.Diagnostic.Render
import Gatework.Lowering.Circuit
import Gatework.Output
import Gatework.Reshaping

/-
  Commands at work on the files they can access.

  Key definitions include:
    * `Command.settings`
    * `Command.circuits`
    * `Command.perform`
    * `Command.run`
-/

------------------------------------------------------------
-- Settings and sources
------------------------------------------------------------

namespace Gatework

namespace Command

open Session

variable {m : Type → Type} [Monad m] [DiskAccess m]

/- The file of settings beside a source. -/
def configBeside
    (file : String) :
    String :=
  let dir :=
    match Path.parent? file with
    | some above => if above.isEmpty then "." else above
    | none => "."
  Path.join dir "logictree.toml"

/- The settings of a document. -/
def parseConfig
    (text : String) :
    Session m Config :=
  match Config.parse text with
  | .ok config => return config
  | .error e => throw (.failed (.config e))

/-
  The settings: those of the file that is named, or of one
  beside the source if it is there.
-/
def settings
    (c : Command) :
    Session m Config := do
  match c.manner.config with
  | some path =>
      let text ← demand .configUnreadable (DiskAccess.readText path)
      parseConfig text
  | none =>
      match ← (DiskAccess.readText (configBeside c.file) :
          m (Except DiskError String)) with
      | .ok text => parseConfig text
      | .error _ => return {}

/- Says something unless the command is quiet. -/
def remark
    (c : Command)
    (s : String) :
    Session m Unit :=
  if c.manner.quiet then return () else say s

/- Diagnostics as they are shown; a quiet command keeps errors. -/
def rendered
    (c : Command)
    (file : SourceFile)
    (ds : List Diagnostic) :
    String :=
  let kept := ds.filter fun d =>
    !c.manner.quiet || decide (d.severity = .error)
  String.join (kept.map fun d =>
    d.render (decide (c.manner.color = .always)) [file] ++ "\n")

/- Reads and lowers the source, and shows what was found. -/
def circuits
    (c : Command)
    (config : Config) :
    Session m (List Circuit) := do
  let text ← demand .disk (DiskAccess.readText c.file)
  let file : SourceFile := ⟨c.file, text⟩
  let lowered := lowerSource config.lowering file
  log lowered.log
  say (c.rendered file lowered.findings.entries)
  match lowered.result with
  | .ok circuits =>
      if circuits.isEmpty then
        c.remark ("warning: no modules in " ++ c.file ++ "\n")
      return circuits
  | .error (.notParsed count) =>
      reject ("aborting due to " ++ toString count ++ " syntax error(s)")
  | .error e =>
      say (c.rendered file [e.diagnostic])
      throw .rejected

/- The outputs of the source after the passes, at least one. -/
def outputs
    (c : Command)
    (config : Config)
    (names : List String) :
    Session m (List Output) := do
  let circuits ← c.circuits config
  let passes := Pipeline.ofFlags config.passes.simplify config.passes.primitives
  let (messages, prepared) := Output.prepare passes circuits names
  log messages
  match prepared with
  | .error e => reject e.message
  | .ok [] => reject ("no outputs to hash in " ++ c.file)
  | .ok outputs => return outputs

/- Outputs with their canonical forms. -/
def explained
    (c : Command)
    (config : Config)
    (names : List String) :
    Session m (List (Output × Explanation)) := do
  let outputs ← c.outputs config names
  match outputs.mapM fun o => (o.explain config.order).map fun e => (o, e) with
  | .ok pairs => return pairs
  | .error e => reject e.message

end Command

end Gatework

------------------------------------------------------------
-- Records
------------------------------------------------------------

namespace Gatework

namespace Golden

/-
  The fresh record to compare with a stored one: the only one,
  or the one of the same name.
-/
def pick?
    (fresh : List Golden)
    (stored : Golden) :
    Option Golden :=
  match fresh with
  | [only] => some only
  | _ => fresh.find? fun g => g.name == stored.name

end Golden

namespace Command

open Session

variable {m : Type → Type} [Monad m] [DiskAccess m]

/- Writes a record to its file. -/
def save
    (c : Command)
    (dir : String)
    (g : Golden) :
    Session m Unit := do
  let path := Golden.pathIn dir g.name
  demand .goldenDisk (DiskAccess.makeFolders dir)
  demand .goldenDisk (DiskAccess.writeText path (g.text ++ "\n"))
  c.remark ("   Golden hash written to " ++ path ++ "\n")

/- Compares with the record in a file. -/
def compareWith
    (path : String)
    (fresh : List Golden) :
    Session m Unit := do
  let text ← demand .goldenDisk (DiskAccess.readText path)
  match Golden.parse? text with
  | none => throw (.failed .goldenMalformed)
  | some stored =>
      match Golden.pick? fresh stored with
      | none =>
          reject ("no output matches golden record `" ++ stored.name
            ++ "`; select one with --output")
      | some current =>
          let verdict := current.compare stored
          print ("golden " ++ stored.name ++ ": " ++ verdict.message ++ "\n")
          if verdict.isMatch then return () else throw .rejected

/- Saves and compares the records of outputs, as asked for. -/
def keepRecords
    (c : Command)
    (config : Config)
    (golden : GoldenOptions)
    (outputs : List Output) :
    Session m Unit := do
  if golden.saveAs.isNone && golden.compareWith.isNone then
    return ()
  match Output.capture golden.saveAs outputs with
  | .error e => reject e.message
  | .ok fresh =>
      if golden.saveAs.isSome then
        let dir := golden.dir.getD config.output.goldenDir
        fresh.forM (c.save dir)
      match golden.compareWith with
      | some path => compareWith path fresh
      | none => return ()

end Command

end Gatework

------------------------------------------------------------
-- Tasks
------------------------------------------------------------

namespace Gatework

namespace Command

open Session

variable {m : Type → Type} [Monad m] [DiskAccess m]

/- Puts an export into a file or prints it. -/
def deliver
    (c : Command)
    (out : Option String)
    (text : String) :
    Session m Unit := do
  match out with
  | none => print text
  | some path =>
      demand .disk (DiskAccess.writeText path text)
      c.remark ("   Wrote " ++ path ++ "\n")

/- What is logged for an export. Only drawn trees log names. -/
def exportLog
    (format : TextFormat)
    (circuits : List Circuit)
    (names : List String) :
    List String :=
  match format with
  | .ascii => circuits.flatMap fun circuit => circuit.missingLog names
  | _ => []

/-
  Why the first image cannot be made: its path cannot be given
  to a program, or there is no program to make it.
-/
def imageFailure
    (image : ImageFormat)
    (path : String) :
    Failure :=
  if path.toList.contains '\x00' then .nulInImagePath
  else .noGraphviz image

/- Exports circuits. Images of them cannot be made. -/
def drawAll
    (c : Command)
    (circuits : List Circuit)
    (names : List String)
    (format : ExportFormat)
    (out : Option String) :
    Session m Unit := do
  match format with
  | .image image =>
      match circuits with
      | [] => return ()
      | first :: _ =>
          let path := imagePath out first.name circuits.length image
          throw (.failed (imageFailure image path))
  | .text text =>
      log (exportLog text circuits names)
      c.deliver out (text.render circuits names)

/- Prints the drivers of circuits after a change of shape. -/
def printReshaped
    (r : Reshaping)
    (circuit : Circuit) :
    Session m Unit :=
  match circuit.reshaped r with
  | .ok drivers => print (Circuit.outline circuit.name drivers)
  | .error e =>
      reject ("in module `" ++ circuit.name ++ "`: " ++ e.message)

/- Does the task of a command. -/
def perform
    (c : Command)
    (config : Config) :
    Session m Unit := do
  match c.task with
  | .analyze names =>
      let circuits ← c.circuits config
      c.remark ("   Analyzing " ++ c.file ++ "\n")
      circuits.forM fun circuit => do
        log (circuit.missingLog names)
        print (circuit.report names)
  | .digest names golden =>
      let pairs ← c.explained config names
      print (String.join (pairs.map fun (o, e) => o.digestLine e))
      c.keepRecords config golden (pairs.map Prod.fst)
  | .explain names =>
      let pairs ← c.explained config names
      print (String.join (pairs.map fun (o, e) => o.explanation e))
  | .symbolic names =>
      let pairs ← c.explained config names
      print (String.join (pairs.map fun (o, e) => o.symbolicLines e))
  | .outline names =>
      let circuits ← c.circuits config
      circuits.forM fun circuit =>
        print (Circuit.outline circuit.name (circuit.driversOf names))
  | .draw names format out =>
      let circuits ← c.circuits config
      c.drawAll circuits names format out
  | .reshape caseForm toMux primitives simplify =>
      let circuits ← c.circuits config
      circuits.forM (printReshaped
        ⟨caseForm, config.lowering.fallback, toMux, primitives, simplify⟩)

/- Runs a command. -/
def run
    (c : Command) :
    m Report :=
  Session.report do
    let config ← c.settings
    modify fun t =>
      { t with level := c.manner.level config.output.logLevel }
    c.perform config

end Command

end Gatework
