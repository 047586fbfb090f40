import Blockwright.Catalogue.Library
import Blockwright.Compile
import Blockwright.CustomBlock
import Blockwright.Digest
import Blockwright.Failure
import Blockwright.Module.Synthesis
import Blockwright.Workspace.Document

/-!
# The toolbox

The blocks of a session: the stock catalogue, the custom blocks and the imported modules, with the
palette that shows them.
-/

namespace Blockwright

/-- The blocks of a session. -/
structure Toolbox where
  registry : Registry := Registry.stock
  customBlocks : List CustomBlock := []
  modules : List ModuleDescriptor := []
  moduleCategories : List Category := []
  limits : SynthesisLimits := {}

namespace Toolbox

/-- Adds a custom block. The first one of a name is kept. -/
def addCustomBlock (t : Toolbox) (c : CustomBlock) : Toolbox :=
  { t with
    registry := c.register t.registry
    customBlocks :=
      if t.customBlocks.any fun known => known.safeName = c.safeName then t.customBlocks
      else t.customBlocks ++ [c] }

/-- Adds custom blocks one after the other. -/
def addCustomBlocks (t : Toolbox) (cs : List CustomBlock) : Toolbox := cs.foldl addCustomBlock t

/-- Adds the modules whose names the toolbox does not have yet. -/
def addModules (t : Toolbox) (ms : List ModuleDescriptor) : Toolbox :=
  let fresh := ms.filter fun m => !t.modules.any fun known => known.name = m.name
  let (registry, categories) := Synthesis.addModules Digest.md5 t.limits t.registry fresh
  { t with
    registry
    modules := t.modules ++ fresh
    moduleCategories := t.moduleCategories ++ categories }

/-- The palette: the stock categories, the custom blocks if there are any, and the modules. -/
def categories (t : Toolbox) : List Category :=
  Palette.stock t.registry
  ++ (if t.customBlocks.isEmpty then [] else [CustomBlock.category t.customBlocks])
  ++ t.moduleCategories

/-- A program with the definitions of the custom blocks in front. -/
def source (t : Toolbox) (options : Options) (code : String) : String :=
  CustomBlock.prologue options t.customBlocks ++ code

end Toolbox

/-- The program of a workspace document, with custom blocks and modules given as JSON texts. A blank
text stands for none. -/
def generate (document customBlocks modules : String) : Attempt String := do
  let mut toolbox : Toolbox := {}
  if !Text.isBlank customBlocks then
    let cs ← Attempt.inContext "Invalid custom block definitions."
      (Attempt.ofOption .json (CustomBlock.parseList? customBlocks))
    toolbox := toolbox.addCustomBlocks cs
  if !Text.isBlank modules then
    let ms ← Attempt.ofOption .json (ModuleDescriptor.parseScan? modules)
    toolbox := toolbox.addModules ms
  let options : Options := {}
  let workspace ← Attempt.ofBlocks (Workspace.load document)
  let compiler : Compiler := { registry := toolbox.registry, workspace, options }
  return toolbox.source options (← Attempt.ofBlocks compiler.program)

end Blockwright
