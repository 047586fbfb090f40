import Blockwright.Dict

/-!
# Blocks

A block has a type, literal fields, and links to other blocks: one for each filled slot, one to the
block that follows it, and one back to the block that holds it.
-/

namespace Blockwright

/-- The number of a block in its workspace. -/
structure BlockId where
  index : Nat
deriving DecidableEq, Repr, Inhabited

/-- The way a block is named in messages. -/
def BlockId.label (id : BlockId) : String := "#" ++ toString id.index

/-- The place at which one block hangs on another. -/
inductive Link
  | input (slot : String)
  | next
deriving DecidableEq, Repr

/-- Whether a call shows its arguments as one text or one by one. -/
inductive ArgMode
  | compact | expanded
deriving DecidableEq, Repr, Inhabited

/-- A place on the canvas. -/
structure Position where
  x : Int64
  y : Int64
deriving DecidableEq, Repr

/-- A block of a workspace. -/
structure Block where
  id : BlockId
  typeId : String
  fields : Dict String := Dict.empty
  inputs : Dict BlockId := Dict.empty
  next : Option BlockId := none
  parent : Option (BlockId × Link) := none
  mode : ArgMode := .compact
  position : Option Position := none
deriving DecidableEq

namespace Block

/-- The blocks that hang on this one: those in its slots by slot name, and the one that follows. -/
def children (b : Block) : List BlockId := b.inputs.values ++ b.next.toList

/-- The block at a link. -/
def target? (b : Block) : Link → Option BlockId
  | .input slot => b.inputs.get? slot
  | .next => b.next

/-- The block with a link set to `child`. -/
def withLink (b : Block) (link : Link) (child : BlockId) : Block :=
  match link with
  | .input slot => { b with inputs := b.inputs.insert slot child }
  | .next => { b with next := some child }

/-- The block with a link removed. -/
def withoutLink (b : Block) (link : Link) : Block :=
  match link with
  | .input slot => { b with inputs := b.inputs.erase slot }
  | .next => { b with next := none }

end Block

end Blockwright
