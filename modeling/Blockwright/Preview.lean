import Blockwright.Compile

/-!
# Live preview

A preview compiles each stack on its own. A stack at fault keeps the code of the last refresh in
which it could be compiled, as long as it stays at the top level.
-/

namespace Blockwright

/-- A stack that could not be compiled. -/
structure Diagnostic where
  root : BlockId
  message : String
deriving DecidableEq, Repr

/-- The code of each stack that has some, the program made of it, and the stacks at fault. -/
structure Preview where
  kept : List (BlockId × String) := []
  code : String := ""
  diagnostics : List Diagnostic := []
deriving DecidableEq, Repr, Inhabited

namespace Preview

/-- The code kept for a stack. -/
def kept? (p : Preview) (root : BlockId) : Option String :=
  (p.kept.find? fun entry => entry.1 = root).map Prod.snd

/-- The code that a stack adds to the program: new code, or else the code kept for it. -/
def contribution (p : Preview) (c : Compiler) (root : BlockId) : Option (BlockId × String) :=
  match c.chain root with
  | .ok code => some (root, code)
  | .error _ => (p.kept? root).map (root, ·)

/-- The diagnostic of a stack at fault. -/
def diagnose (c : Compiler) (root : BlockId) : Option Diagnostic :=
  match c.chain root with
  | .ok _ => none
  | .error fault => some { root, message := fault.message }

/-- The preview after another look at the workspace. -/
def refresh (p : Preview) (c : Compiler) : Preview :=
  let roots := c.workspace.topBlocks
  let kept := roots.filterMap (p.contribution c)
  { kept
    code := Text.finish (Text.joinWith "\n" (kept.map Prod.snd))
    diagnostics := roots.filterMap (diagnose c) }

end Preview

end Blockwright
