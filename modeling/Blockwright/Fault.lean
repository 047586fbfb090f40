import Blockwright.Block

/-!
# Faults

What can go wrong with blocks, and the messages for it.
-/

namespace Blockwright

/-- Why a block does not fit a slot. -/
inductive Misfit
  | noOutput | notStatement | literalSlot
deriving DecidableEq, Repr

/-- The reason in words. -/
def Misfit.reason : Misfit → String
  | noOutput => "block has no output"
  | notStatement => "block is not a statement"
  | literalSlot => "slot is a literal field"

/-- Why a text is no workspace document. -/
inductive DocumentFault
  /-- The text is not well-formed XML. -/
  | malformed
  /-- A block element does not name its type. -/
  | untypedBlock
deriving DecidableEq, Repr

/-- The reason in words. -/
def DocumentFault.reason : DocumentFault → String
  | malformed => "not a well-formed document"
  | untypedBlock => "block element without a type attribute"

/-- What can go wrong with blocks. -/
inductive Fault
  | unknownType (typeId : String)
  | missing (id : BlockId)
  | unknownSlot (typeId slot : String)
  | mismatch (parent child : BlockId) (slot : String) (misfit : Misfit)
  | wouldCycle (parent child : BlockId)
  | cycle (id : BlockId)
  | noNext (typeId : String)
  | notToggleable (typeId : String)
  | document (fault : DocumentFault)
deriving DecidableEq, Repr

/-- The message for a fault. -/
def Fault.message : Fault → String
  | unknownType typeId => s!"unknown block type '{typeId}'"
  | missing id => s!"block {id.label} does not exist"
  | unknownSlot typeId slot => s!"block type '{typeId}' has no input named '{slot}'"
  | mismatch parent child slot misfit =>
    s!"cannot connect {child.label} to '{slot}' of {parent.label}: {misfit.reason}"
  | wouldCycle parent child =>
    s!"connecting {child.label} under {parent.label} would create a cycle"
  | cycle id => s!"cyclic block reference at {id.label}"
  | noNext typeId => s!"block type '{typeId}' cannot be followed by another statement"
  | notToggleable typeId => s!"block type '{typeId}' has no argument editor"
  | document fault => s!"invalid workspace xml: {fault.reason}"

end Blockwright
