import Blockwright.CommandLine.Directory
import Blockwright.Script.Process

/-!
# Scripts as interpreters

A script that can be started stands for an interpreter. A name without a slash is that of a program
which is always there.
-/

namespace Blockwright

namespace Script

/-- The first line of a script. -/
def firstLine : String := "#!/bin/sh\n"

/-- The text of a script after its first line, if it has that line. -/
def body? (bytes : List UInt8) : Option (List Char) :=
  let text := (Text.ofUtf8 bytes).toList
  if firstLine.toList.isPrefixOf text then some (text.drop firstLine.length) else none

/-- The path of the file that holds the script with a number. -/
def scriptPath (n : Nat) : String := "/tmp/pyblocks-" ++ toString n ++ ".py"

/-- The programs that are found by their names. -/
def programs : List String := ["cat", "echo", "false", "printf", "sleep", "test", "true"]

namespace Process

/-- What comes of running a script. One that cannot be read ends with the status `2`. -/
def script? (p : Process) (bytes : List UInt8) : Option Outcome :=
  (body? bytes).map fun text =>
    ((Command.ofText? 2 text).map fun c => (p.run c).outcome).getD (.ended (some 2) [] [])

/-- What comes of running the program that has the name of the process. -/
def named? (p : Process) : Option Outcome :=
  if p.name ∈ programs then (p.program? p.name p.arguments).map outcome else none

end Process

end Script

namespace Invocation

/-- The process that an invocation begins. Beside the files that it is given it can read others. -/
def process (i : Invocation) (file? : String → Option (List UInt8)) : Script.Process :=
  let paths := (List.range i.scripts.length).map Script.scriptPath
  { name := i.interpreter
    arguments := paths
    file? := fun path =>
      match (paths.zip i.scripts).lookup path with
      | some text => some (Text.toUtf8 text)
      | none => file? path
    limit := i.milliseconds }

/-- Starts an interpreter: the script at its path, or the program of its name. -/
def start (i : Invocation) (script? : Option (List UInt8)) (file? : String → Option (List UInt8)) :
    Outcome :=
  let p := i.process file?
  (if '/' ∈ i.interpreter.toList then script?.bind p.script? else p.named?).getD .notStarted

end Invocation

namespace Directory

/-- The script at a path, if it can be started. -/
def script? (d : Directory) (path : String) : Option (List UInt8) := do
  let place ← d.resolve? path
  if place ∈ d.executables then d.file? place else none

/-- Starts an interpreter. -/
def start (d : Directory) (i : Invocation) : Outcome :=
  i.start (d.script? i.interpreter) fun path => (d.resolve? path).bind d.content?

end Directory

end Blockwright
