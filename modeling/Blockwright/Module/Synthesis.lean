import Blockwright.Colour
import Blockwright.Module.Basic
import Blockwright.Palette
import Blockwright.Text.Identifier

/-!
# Blocks for imported modules

A module gets a call block for each function and class, statement blocks for its first functions and
blocks for its first constants. Two members can have the same type after sanitizing; a type that is
taken by a block for other code is told apart by a digest of the member.
-/

namespace Blockwright

/-- How many functions get a statement block too, and how many constants get a block. -/
structure SynthesisLimits where
  statementCalls : Nat := 20
  constants : Nat := 15
deriving DecidableEq, Repr, Inhabited

namespace Synthesis

/-- The type of the call block of a function or class. -/
def functionType (moduleName member : String) : String :=
  Text.sanitize ("import_" ++ moduleName ++ "_" ++ member)

/-- The type of the statement block of a function. -/
def statementType (moduleName member : String) : String :=
  Text.sanitize ("import_" ++ moduleName ++ "_" ++ member ++ "_stmt")

/-- The type of the block of a constant. -/
def constantType (moduleName member : String) : String :=
  Text.sanitize ("import_" ++ moduleName ++ "_const_" ++ member)

/-- Whether a rule writes the given member. -/
def isRuleFor (target : String) : Rule → Bool
  | .call call => call.callee == target
  | .constant text => text == target
  | _ => false

/-- The type for a member: `base`, unless it is taken by a block of another member or shape. -/
def claimType (digest : String → String) (registry : Registry) (base target : String)
    (shape : Shape) : String :=
  match registry.lookup? base with
  | none => base
  | some d =>
    if isRuleFor target d.rule ∧ d.schema.shape = shape then base
    else
      let mark := digest (target ++ ":" ++ shape.name)
      base ++ "_" ++ String.ofList (mark.toList.take 8)

/-- A member of a module that gets a block: the type it asks for, its shape, and its rule. -/
structure Member where
  base : String
  shape : Shape
  rule : Rule
deriving DecidableEq, Repr

namespace Member

/-- The code that names the member. -/
def target (m : Member) : String :=
  match m.rule with
  | .call call => call.callee
  | .constant text => text
  | _ => ""

/-- The tooltip of the member's block. -/
def tooltip (m : Member) : String :=
  match m.rule with
  | .call call => call.callee ++ "(" ++ Text.joinWith ", " call.params ++ ")"
  | .constant text => text
  | _ => ""

/-- The look of the member's block. -/
def schema (m : Member) (typeId : String) : Schema :=
  match m.rule with
  | .call call => call.schema typeId m.shape
  | _ => Schema.ofShape typeId m.shape

/-- The block of the member in the category of its module. -/
def definition (m : Member) (typeId moduleName : String) : Definition :=
  { schema :=
      (m.schema typeId).inCategory moduleName
        |>.withHue (moduleHue moduleName)
        |>.withTooltip m.tooltip
    rule := m.rule }

end Member

/-- The members of a module that get a block, in the order of the palette. -/
def members (m : ModuleDescriptor) (limits : SynthesisLimits) : List Member :=
  let call (name : String) (params : List String) (freeArgs : Bool) : Rule :=
    .call { callee := m.name ++ "." ++ name, params, freeArgs }
  m.functions.map (fun f => ⟨functionType m.name f.name, .expression, call f.name f.params false⟩)
  ++ (m.functions.take limits.statementCalls).map
    (fun f => ⟨statementType m.name f.name, .statement, call f.name f.params false⟩)
  ++ m.classes.map (fun c => ⟨functionType m.name c.name, .expression, call c.name [] true⟩)
  ++ (m.constants.take limits.constants).map
    (fun c => ⟨constantType m.name c.name, .expression, .constant (m.name ++ "." ++ c.name)⟩)

/-- Registers the block of a member and lists it in the category of its module. -/
def addMember (digest : String → String) (moduleName : String) (state : Registry × Category)
    (m : Member) : Registry × Category :=
  let typeId := claimType digest state.1 m.base m.target m.shape
  (state.1.register (m.definition typeId moduleName), state.2.push typeId)

/-- Registers the blocks of a module and gives its category. -/
def addModule (digest : String → String) (limits : SynthesisLimits) (registry : Registry)
    (m : ModuleDescriptor) : Registry × Category :=
  (members m limits).foldl (addMember digest m.name)
    (registry, { name := m.name, colour := Colour.ofHue (moduleHue m.name) })

/-- Registers the blocks of all modules that are available and not empty, and gives their
categories. -/
def addModules (digest : String → String) (limits : SynthesisLimits) (registry : Registry) :
    List ModuleDescriptor → Registry × List Category
  | [] => (registry, [])
  | m :: ms =>
    if m.available && !m.isEmpty then
      let (registry, category) := addModule digest limits registry m
      let (registry, categories) := addModules digest limits registry ms
      (registry, category :: categories)
    else addModules digest limits registry ms

end Synthesis

end Blockwright
