import Blockwright.Interpreter

/-!
# Hosts

What the command line needs of its surroundings: files, two streams of output, and a way to start
an interpreter. A host says how each is done in some monad.
-/

namespace Blockwright

/-- The surroundings of the command line. -/
structure Host (m : Type → Type) where
  /-- The full path of a file, if there is one. -/
  locate : String → m (Option String)
  /-- The bytes of a file, if it can be read. -/
  read : String → m (Option (List UInt8))
  /-- Makes a directory and those that it lies in; whether it is there now. -/
  makeDirectories : String → m Bool
  /-- Writes a file; whether that was possible. -/
  write : String → List UInt8 → m Bool
  /-- Prints text as it is. -/
  print : String → m Unit
  /-- Prints text as it is to the stream of errors. -/
  report : String → m Unit
  /-- Starts an interpreter and waits for it. -/
  start : Invocation → m Outcome

namespace Path

/-- The pieces of a path between slashes. -/
def pieces : List Char → List (List Char)
  | [] => [[]]
  | c :: cs =>
    if c = '/' then [] :: pieces cs
    else
      match pieces cs with
      | [] => [[c]]
      | piece :: rest => (c :: piece) :: rest

/-- The parts of a path. Dots and empty parts that change nothing are left out, but for a dot at the
start. -/
def parts (path : String) : List String :=
  let names := (pieces path.toList).map String.ofList
  let start := if names.head? = some "." then ["."] else []
  start ++ names.filter fun name => name ≠ "" ∧ name ≠ "."

/-- Whether a path starts at the root of the file system. -/
def isRooted (path : String) : Bool := path.toList.head? == some '/'

/-- The directory of a path, empty if the path is a name alone; nothing for a path without parts. -/
def parent? (path : String) : Option String :=
  match (parts path).reverse with
  | [] => none
  | _ :: rest => some ((if isRooted path then "/" else "") ++ Text.joinWith "/" rest.reverse)

/-- The ending of the last part of a path, after its last dot. A dot at the start of a name begins
no ending. -/
def ending? (path : String) : Option String :=
  match (parts path).reverse with
  | [] => none
  | name :: _ =>
    if name = ".." then none
    else
      let reversed := name.toList.reverse
      match reversed.dropWhile (· != '.') with
      | [] => none
      | [_] => none
      | _ :: _ => some (String.ofList (reversed.takeWhile (· != '.')).reverse)

end Path

end Blockwright
