import Blockwright.Emission
import Blockwright.Registry
import Blockwright.Text.Layout
import Blockwright.Workspace.Basic

/-!
# Compiling a workspace

The walk over the links of a workspace. It takes any graph of blocks: a block that is met inside
itself, or twice in one chain, is a fault. On a path or a chain no block comes twice, so the number
of blocks bounds both, and the fuel that the walk starts with never runs out early.
-/

namespace Blockwright

/-- All that the code of a block depends on. -/
structure Compiler where
  registry : Registry
  workspace : Workspace
  options : Options

namespace Compiler

/-- The code of the chain that starts with a block, given the code of single blocks. `seen` holds
the blocks of the chain so far. -/
def chainFrom (c : Compiler) (emit : BlockId → Except Fault Emission) :
    Nat → List BlockId → BlockId → Except Fault String
  | 0, _, id => .error (c.workspace.exhausted id)
  | fuel + 1, seen, id =>
    if id ∈ seen then .error (.cycle id)
    else do
      let emission ← emit id
      match (← c.workspace.get id).next with
      | none => return emission.line
      | some next => return emission.line ++ (← c.chainFrom emit fuel (id :: seen) next)

/-- The code of a chain, given the code of single blocks. -/
def chainWith (c : Compiler) (emit : BlockId → Except Fault Emission) (head : BlockId) :
    Except Fault String :=
  c.chainFrom emit c.workspace.capacity [] head

/-- The code of a block. `active` holds the blocks that it is part of. -/
def emitFrom (c : Compiler) : Nat → List BlockId → BlockId → Except Fault Emission
  | 0, _, id => .error (c.workspace.exhausted id)
  | fuel + 1, active, id =>
    if id ∈ active then .error (.cycle id)
    else do
      let block ← c.workspace.get id
      let definition ← c.registry.lookup block.typeId
      let emit := c.emitFrom fuel (id :: active)
      Site.rule
        { options := c.options
          schema := definition.schema
          block
          emit
          chain := c.chainWith emit }
        definition.rule

/-- The code of a block on its own. -/
def emit (c : Compiler) (id : BlockId) : Except Fault Emission :=
  c.emitFrom c.workspace.capacity [] id

/-- The code of the chain that starts with a block. -/
def chain (c : Compiler) (head : BlockId) : Except Fault String :=
  c.chainWith c.emit head

/-- The code of all stacks, in their order. The first one at fault stops the rest. -/
def stackTexts (c : Compiler) : List BlockId → Except Fault (List String)
  | [] => .ok []
  | root :: roots => do
    let code ← c.chain root
    return code :: (← c.stackTexts roots)

/-- The program of a workspace. -/
def program (c : Compiler) : Except Fault String := do
  return Text.finish (Text.joinWith "\n" (← c.stackTexts c.workspace.topBlocks))

end Compiler

end Blockwright
