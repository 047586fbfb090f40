import Blockwright.CommandLine.Arguments
import Blockwright.CommandLine.Host
import Blockwright.Preview
import Blockwright.Project
import Blockwright.Toolbox

/-!
# Running the command line

The stages of a run: find the input, load it, look up imports if asked to, compile, and write what
is asked for. Each stage reports its progress.
-/

namespace Blockwright

/-- Progress over a number of stages. -/
structure Progress where
  total : Nat
deriving DecidableEq, Repr

namespace Progress

/-- A bar of fourteen cells, filled to the nearest cell. -/
def bar (p : Progress) (step : Nat) : String :=
  let filled := (step * 14 + p.total / 2) / p.total
  let cells := (List.range 14).map fun i => if i < filled then '=' else '-'
  String.ofList ('[' :: cells ++ [']'])

/-- The line that reports a stage. -/
def line (p : Progress) (step : Nat) (label : String) : String :=
  let step := max 1 (min step p.total)
  "[Compile] " ++ label ++ "... (" ++ toString step ++ "/" ++ toString p.total ++ ") "
    ++ p.bar step ++ "\n"

end Progress

namespace CommandLine

variable {m : Type → Type} [Monad m]

/-- A run may fail; what it has done before stays done. -/
abbrev Run (m : Type → Type) := ExceptT Failure m

/-- A computation that uses no host. -/
def settled {α : Type} (result : Attempt α) : Run m α := ExceptT.mk (pure result)

/-- The number of stages of a run. -/
def stageCount (c : CommandLine) : Nat :=
  4 + c.scan.toNat + c.bundle.isSome.toNat + c.run.toNat

/-- Reports the stage of the given number. -/
def stage (host : Host m) (c : CommandLine) (step : Nat) (label : String) : Run m Unit :=
  host.report (Progress.line ⟨max c.stageCount 1⟩ step label)

/-- The bytes of a file. -/
def readFile (host : Host m) (context path : String) : Run m (List UInt8) := do
  settled (Attempt.inContext context (Attempt.ofOption .files (← host.read path)))

/-- The text of a file. -/
def readText (host : Host m) (context path : String) : Run m String := do
  let bytes ← readFile host context path
  settled (Attempt.inContext context (Attempt.ofOption .files (Text.ofUtf8? bytes)))

/-- Writes a file, in a directory that is made if it is missing. -/
def writeFile (host : Host m) (path : String) (bytes : List UInt8) : Run m Unit := do
  match Path.parent? path with
  | some parent =>
    if parent ≠ "" then
      if !(← host.makeDirectories parent) then throw { cause := .files }
  | none => pure ()
  if !(← host.write path bytes) then
    throw { contexts := ["Failed to write '" ++ path ++ "'."], cause := .files }

/-- Whether a path names the standard output. -/
def isStandardOutput (path : String) : Bool := Path.parts path == ["-"] && !Path.isRooted path

/-- Writes a text to the output: a file, or the standard output. -/
def writeOutput (host : Host m) (c : CommandLine) (text : String) : Run m Unit :=
  match c.output with
  | some path =>
    if isStandardOutput path then host.print text else writeFile host path (Text.toUtf8 text)
  | none => host.print text

/-- Whether the output is a file. -/
def writesFile (c : CommandLine) : Bool :=
  match c.output with
  | some path => !isStandardOutput path
  | none => false

/-- Whether a file is an archive: by the ending of its name, or else by its first bytes. -/
def isArchive (host : Host m) (path : String) : Run m Bool := do
  if Path.ending? path = some "pyblocks" then return true
  let bytes ← readFile host ("Failed to read '" ++ path ++ "'.") path
  return bytes.take 4 == [0x50, 0x4B, 0x03, 0x04]

/-- The workspace of an input file, and the toolbox with what the file brings. -/
def loadInput (host : Host m) (c : CommandLine) (path : String) : Run m (Workspace × Toolbox) := do
  let toolbox : Toolbox :=
    { limits := { statementCalls := c.maxStatementCalls, constants := c.maxConstants } }
  if ← isArchive host path then
    let bytes ← readFile host ("Failed to read '" ++ path ++ "'.") path
    let project ← settled (Project.ofBytes bytes)
    let toolbox := (toolbox.addCustomBlocks project.customBlocks).addModules project.modules
    let workspace ← settled (Attempt.inContext ("Invalid workspace.xml in '" ++ path ++ "'.")
      (Attempt.ofBlocks (Workspace.load project.document)))
    return (workspace, toolbox)
  else
    let text ← readText host ("Failed to read '" ++ path ++ "'.") path
    let workspace ← settled (Attempt.inContext ("Invalid Blockly XML in '" ++ path ++ "'.")
      (Attempt.ofBlocks (Workspace.load text)))
    return (workspace, toolbox)

/-- Adds the custom blocks of a file. -/
def loadCustomBlocks (host : Host m) (toolbox : Toolbox) : Option String → Run m Toolbox
  | none => return toolbox
  | some path => do
    let text ← readText host ("Failed to read custom blocks '" ++ path ++ "'.") path
    let cs ← settled (Attempt.inContext ("Invalid custom block definitions in '" ++ path ++ "'.")
      (Attempt.ofOption .json (CustomBlock.parseList? text)))
    return toolbox.addCustomBlocks cs

/-- Adds the modules of a descriptor file. -/
def loadModules (host : Host m) (toolbox : Toolbox) : Option String → Run m Toolbox
  | none => return toolbox
  | some path => do
    let text ← readText host ("Failed to read import descriptors '" ++ path ++ "'.") path
    let ms ← settled (Attempt.inContext ("Invalid import descriptors in '" ++ path ++ "'.")
      (Attempt.ofOption .json (ModuleDescriptor.parseScan? text)))
    return toolbox.addModules ms

/-- Starts an interpreter. -/
def execute (host : Host m) (i : Invocation) : Run m Execution := do
  settled (i.execution (← host.start i))

/-- The modules that a program imports. -/
def scanImports (host : Host m) (interpreter source : String) (milliseconds : Nat) :
    Run m (List ModuleDescriptor) := do
  let e ← execute host { Scanner.invocation interpreter source with milliseconds }
  settled (Scanner.modules e)

/-- Looks up the modules that the program imports, as far as it can be compiled, and adds them. -/
def scanModules (host : Host m) (c : CommandLine) (toolbox : Toolbox) (workspace : Workspace)
    (options : Options) : Run m Toolbox := do
  let compiler : Compiler := { registry := toolbox.registry, workspace, options }
  let draft := toolbox.source options (({} : Preview).refresh compiler).code
  return toolbox.addModules (← scanImports host c.interpreter draft 30000)

/-- The palette as JSON. -/
def categoriesText (toolbox : Toolbox) : String :=
  let category (k : Category) : Json :=
    .record
      [ ("name", .text k.name), ("colour", .text k.colour),
        ("block_types", .array (k.types.map .text)) ]
  (Json.array (toolbox.categories.map category)).pretty 0 ++ "\n"

/-- Runs a program and passes its output on. -/
def runProgram (host : Host m) (c : CommandLine) (source : String) : Run m Unit := do
  let e ← execute host { interpreter := c.interpreter, scripts := [source] }
  host.print e.stdout
  host.report e.stderr
  if e.exitCode ≠ 0 then
    throw (.ofMessage ("Program exited with code " ++ toString e.exitCode ++ "."))

/-- Does what the command line asks for. -/
def perform (host : Host m) (c : CommandLine) : Run m Unit := do
  stage host c 1 "Resolving input path"
  let path ← settled (Attempt.ofOption
    (.message ("Input file not found: '" ++ c.input ++ "'.")) (← host.locate c.input))
  stage host c 2 "Loading workspace and block definitions"
  let (workspace, toolbox) ← loadInput host c path
  let toolbox ← loadCustomBlocks host toolbox c.customBlocks
  let toolbox ← loadModules host toolbox c.imports
  let options := Options.ofWidth c.indent
  let mut step := 2
  let mut toolbox := toolbox
  if c.scan then
    step := step + 1
    stage host c step "Scanning imports"
    toolbox ← scanModules host c toolbox workspace options
  if c.categories then
    stage host c (step + 1) "Writing palette categories"
    writeOutput host c (categoriesText toolbox)
    return
  stage host c (step + 1) "Generating Python"
  let compiler : Compiler := { registry := toolbox.registry, workspace, options }
  let code ← settled (Attempt.inContext ("Failed to compile '" ++ path ++ "'.")
    (Attempt.ofBlocks compiler.program))
  let source := toolbox.source options code
  stage host c (step + 2) "Writing program"
  if !c.run || c.writesFile then
    writeOutput host c (if c.noPrologue then code else source)
  step := step + 2
  match c.bundle with
  | some target =>
    step := step + 1
    stage host c step "Writing project bundle"
    let project ← settled (Project.ofWorkspace toolbox.registry workspace toolbox.customBlocks
      toolbox.modules source)
    writeFile host target project.toArchive.toBytes
  | none => pure ()
  if c.run then
    stage host c (step + 1) "Running program"
    runProgram host c source

end CommandLine

end Blockwright
