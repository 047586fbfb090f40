import Blockwright.CommandLine.Run
import Blockwright.Script.Start

/-!
# The program

The command line on the files and streams of the system. This build starts no other programs: an
interpreter that is a script is run here, where it can read no files but those that it is given, and
any other one is answered for as if it could not be started.
-/

namespace Blockwright

/-- Whether an action succeeds. -/
def succeeds (action : IO Unit) : IO Bool := do
  try
    action
    return true
  catch _ => return false

/-- The bytes of a file, if it can be read. -/
def readBytes (path : String) : IO (Option (List UInt8)) := do
  try
    return some (← IO.FS.readBinFile path).toList
  catch _ => return none

/-- The host that is the system. -/
def systemHost : Host IO where
  locate path := do
    try
      let full ← IO.FS.realPath path
      if (← full.pathExists) && !(← full.isDir) then return some full.toString else return none
    catch _ => return none
  read := readBytes
  makeDirectories path := succeeds (IO.FS.createDirAll path)
  write path bytes := succeeds (IO.FS.writeBinFile path (ByteArray.mk bytes.toArray))
  print text := IO.print text
  report text := IO.eprint text
  start i := return i.start (← readBytes i.interpreter) fun _ => none

/-- How to use the program. -/
def usage : String :=
  "Compile a Blockly block workspace into a Python program.\n\n"
  ++ "Usage: pyblocks [OPTIONS] <INPUT> [OUTPUT]\n"

/-- Why the arguments cannot be used, in words. -/
def UsageFault.message : UsageFault → String
  | unknownArgument => "unexpected argument found"
  | missingInput => "the following required arguments were not provided: <INPUT>"
  | missingValue => "a value is required but none was supplied"
  | notANumber => "invalid value: not a number"
  | surplusValue => "unexpected value for a flag"
  | repeated => "an argument cannot be used multiple times"
  | help => usage

end Blockwright

open Blockwright

/-- Runs the program. -/
def main (arguments : List String) : IO UInt32 := do
  match CommandLine.parse arguments with
  | .error .help =>
    IO.print usage
    return 0
  | .error fault =>
    IO.eprintln ("error: " ++ fault.message ++ "\n\n" ++ usage)
    return 2
  | .ok c =>
    match ← (c.perform systemHost).run with
    | .ok _ => return 0
    | .error failure =>
      IO.eprintln ("Error: " ++ (failure.message?.getD "the operation failed"))
      return 1
