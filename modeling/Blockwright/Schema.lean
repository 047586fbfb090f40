/-!
# Block schemas

A schema says what a type of block looks like: where it can stand, and which slots it has. A slot
takes another block, a chain of blocks, or a literal text.
-/

namespace Blockwright

/-- Where a block can stand: in a chain of statements, in a value slot, or in both. -/
inductive Shape
  | statement | expression | hybrid
deriving DecidableEq, Repr, Inhabited

namespace Shape

/-- Whether the block can stand in a chain of statements. -/
def fitsStatement : Shape → Bool
  | statement => true
  | expression => false
  | hybrid => true

/-- Whether the block can stand in a value slot. -/
def fitsValue : Shape → Bool
  | statement => false
  | expression => true
  | hybrid => true

/-- The name of the shape. -/
def name : Shape → String
  | statement => "Statement"
  | expression => "Expression"
  | hybrid => "Hybrid"

end Shape

/-- What a literal field accepts. -/
inductive LiteralKind
  | text
  | number
  | choice (options : List String)
deriving DecidableEq, Repr

/-- What a slot takes. -/
inductive SlotKind
  | value
  | body
  | literal (kind : LiteralKind)
deriving DecidableEq, Repr

/-- A slot, with the text that stands for it as long as it is empty. -/
structure Slot where
  name : String
  kind : SlotKind
  preset : Option String
deriving DecidableEq, Repr

/-- The look of a type of block. A block whose `hue` is missing has the colour of its category. -/
structure Schema where
  typeId : String
  shape : Shape
  slots : List Slot := []
  hasNext : Bool
  category : String := ""
  tooltip : String := ""
  hue : Option Nat := none
deriving DecidableEq, Repr

namespace Schema

/-- A schema without slots; a block that can stand in a chain can be followed by another. -/
def ofShape (typeId : String) (shape : Shape) : Schema :=
  { typeId, shape, hasNext := shape.fitsStatement }

/-- A statement without slots. -/
def statement (typeId : String) : Schema := ofShape typeId .statement

/-- An expression without slots. -/
def expression (typeId : String) : Schema := ofShape typeId .expression

/-- Adds a slot at the end. -/
def slot (s : Schema) (name : String) (kind : SlotKind) (preset : Option String) : Schema :=
  { s with slots := s.slots ++ [{ name, kind, preset }] }

/-- Adds a value slot. -/
def value (s : Schema) (name preset : String) : Schema := s.slot name .value (some preset)

/-- Adds a value slot that a rule may find empty. -/
def optional (s : Schema) (name : String) : Schema := s.slot name .value none

/-- Adds a slot for a chain of statements. -/
def body (s : Schema) (name : String) : Schema := s.slot name .body none

/-- Adds a text field. -/
def text (s : Schema) (name preset : String) : Schema := s.slot name (.literal .text) (some preset)

/-- Adds a number field. -/
def number (s : Schema) (name preset : String) : Schema :=
  s.slot name (.literal .number) (some preset)

/-- Adds a field with the given options, of which the first is the preset. -/
def choice (s : Schema) (name : String) (options : List String) : Schema :=
  s.slot name (.literal (.choice options)) (some (options.headD ""))

/-- No block can follow. -/
def terminal (s : Schema) : Schema := { s with hasNext := false }

/-- Puts the block in a category of the palette. -/
def inCategory (s : Schema) (category : String) : Schema := { s with category }

/-- Sets the tooltip. -/
def withTooltip (s : Schema) (tooltip : String) : Schema := { s with tooltip }

/-- Sets the hue. -/
def withHue (s : Schema) (hue : Nat) : Schema := { s with hue := some hue }

/-- The first slot of that name. -/
def slot? (s : Schema) (name : String) : Option Slot := s.slots.find? fun slot => slot.name = name

/-- The text that stands for an empty slot. -/
def presetText (s : Schema) (name : String) : String :=
  ((s.slot? name).bind Slot.preset).getD ""

end Schema

end Blockwright
