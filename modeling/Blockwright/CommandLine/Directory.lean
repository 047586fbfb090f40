import Blockwright.CommandLine.Run

/-!
# A directory in memory

A directory that is held as a value, with the outputs of the program beside it. It makes a run of
the command line a function: `CommandLine.runIn`.
-/

namespace Blockwright

/-- Files and directories by the parts of their paths from the root of the file system, and the
directory in which the program works. -/
structure Directory where
  /-- The parts of the path of the working directory. -/
  home : List String
  files : List (List String × List UInt8) := []
  /-- The directories beside those that are always there. -/
  directories : List (List String) := []
  /-- The files that can be started. -/
  executables : List (List String) := []

namespace Directory

/-- The file that takes everything and gives nothing. -/
def sink : List String := ["dev", "null"]

/-- The bytes of a file. -/
def file? (d : Directory) (place : List String) : Option (List UInt8) :=
  (d.files.find? fun f => f.1 = place).map Prod.snd

/-- The bytes that are read from a place. -/
def content? (d : Directory) (place : List String) : Option (List UInt8) :=
  if place = sink then some [] else d.file? place

/-- Whether a place is a directory. The working directory, those above it and two directories of
the system are always there. -/
def isDirectory (d : Directory) (place : List String) : Bool :=
  place.isPrefixOf d.home || [["dev"], ["tmp"]].contains place || d.directories.contains place

/-- The places of the directories above a place. -/
def above (place : List String) : List (List String) :=
  (List.range place.length).map place.take

/-- Adds directories that are missing. -/
def withDirectories (d : Directory) (places : List (List String)) : Directory :=
  { d with directories := d.directories ++ places.filter fun place => !d.isDirectory place }

/-- Sets the bytes of a file, and makes the directories above it. -/
def setFile (d : Directory) (place : List String) (bytes : List UInt8) : Directory :=
  { (d.withDirectories (above place)) with
    files := d.files.filter (fun f => f.1 ≠ place) ++ [(place, bytes)] }

/-- Whether a text can be the name of a file: it has at most 255 bytes, none of them zero. -/
def isName (name : String) : Bool := name.utf8ByteSize ≤ 255 && !name.toList.contains '\x00'

/-- The longest path in bytes. -/
def pathLimit : Nat := 4095

/-- Follows the pieces of a path. Each is looked up in a directory, also a dot or an empty piece,
which stands for the directory itself. -/
def follow? (d : Directory) (here : List String) : List String → Option (List String)
  | [] => some here
  | piece :: rest =>
    if !d.isDirectory here then none
    else if piece = "" ∨ piece = "." then d.follow? here rest
    else if piece = ".." then d.follow? here.dropLast rest
    else if isName piece then d.follow? (here ++ [piece]) rest
    else none

/-- The place at which a path starts. -/
def startOf (d : Directory) (path : String) : List String :=
  if Path.isRooted path then [] else d.home

/-- The place that a path names. There need not be a file. -/
def resolve? (d : Directory) (path : String) : Option (List String) :=
  if path = "" ∨ pathLimit < path.utf8ByteSize then none
  else d.follow? (d.startOf path) ((Path.pieces path.toList).map String.ofList)

/-- Makes the directories on the way along parts of a path; nothing if a file is in the way. -/
def make? (d : Directory) (here : List String) : List String → Option Directory
  | [] => some d
  | "." :: rest => d.make? here rest
  | ".." :: rest => d.make? here.dropLast rest
  | name :: rest =>
    let next := here ++ [name]
    if (d.content? next).isSome ∨ !isName name then none
    else (d.withDirectories [next]).make? next rest

/-- What follows `start` in a list, if the list begins with it. -/
def below? : List String → List String → Option (List String)
  | [], place => some place
  | _ :: _, [] => none
  | a :: start, b :: place => if a = b then below? start place else none

/-- The files in the working directory, by the parts of their paths from there. -/
def ownFiles (d : Directory) : List (List String × List UInt8) :=
  d.files.filterMap fun (place, bytes) => (below? d.home place).map (·, bytes)

end Directory

/-- A directory, and what has been printed. -/
structure Surroundings where
  directory : Directory
  stdout : String := ""
  stderr : String := ""

namespace Surroundings

/-- The host that keeps all in memory. What an interpreter does may depend on the directory. -/
def host (start : Directory → Invocation → Outcome) : Host (StateM Surroundings) where
  locate path := do
    let d := (← get).directory
    return do
      let place ← d.resolve? path
      let _ ← d.file? place
      return "/" ++ Text.joinWith "/" place
  read path := do
    let d := (← get).directory
    return (d.resolve? path).bind d.content?
  makeDirectories path := do
    let s ← get
    match s.directory.make? (s.directory.startOf path) (Path.parts path) with
    | some directory =>
      set { s with directory }
      return true
    | none => return false
  write path bytes := do
    let s ← get
    match s.directory.resolve? path with
    | some place =>
      if s.directory.isDirectory place then return false
      if place ≠ Directory.sink then
        set { s with directory := s.directory.setFile place bytes }
      return true
    | none => return false
  print text := modify fun s => { s with stdout := s.stdout ++ text }
  report text := modify fun s => { s with stderr := s.stderr ++ text }
  start invocation := do return start (← get).directory invocation

end Surroundings

/-- Does what a command line asks for in a directory. -/
def CommandLine.runIn (start : Directory → Invocation → Outcome) (c : CommandLine)
    (d : Directory) : Attempt Unit × Surroundings :=
  (c.perform (Surroundings.host start)).run.run { directory := d }

end Blockwright
