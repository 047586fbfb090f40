import Blockwright.Colour
import Blockwright.Emission
import Blockwright.Json.Reader
import Blockwright.Json.Record
import Blockwright.Palette
import Blockwright.Text.Identifier

/-!
# Custom blocks

A custom block is a function that the user writes. It gets two caller blocks, and a program that may
call it starts with its definition.
-/

namespace Blockwright

/-- A function of the user. -/
structure CustomBlock where
  name : String
  params : List String := []
  body : String := ""
  description : String := ""
  colour : String := "#8b5cf6"
deriving DecidableEq, Repr

namespace CustomBlock

/-- The category of all custom blocks. -/
def categoryName : String := "My Blocks"

/-- The colour of their category, and of a custom block that names none. -/
def categoryColour : String := "#8b5cf6"

/-- The name of the function. -/
def safeName (c : CustomBlock) : String := Text.safeName c.name

/-- The type of the caller that is a statement. -/
def callType (c : CustomBlock) : String := "myblock_call_" ++ c.safeName

/-- The type of the caller that is an expression. -/
def exprType (c : CustomBlock) : String := "myblock_expr_" ++ c.safeName

/-- The rule of both callers. -/
def rule (c : CustomBlock) : CallRule :=
  { callee := c.safeName, params := c.params, fallback := .paramNames }

/-- The tooltip of both callers. -/
def tooltip (c : CustomBlock) : String :=
  if Text.isBlank c.description then "Custom block: " ++ c.safeName else c.description

/-- A caller. -/
def caller (c : CustomBlock) (typeId : String) (shape : Shape) : Definition :=
  { schema :=
      (c.rule.schema typeId shape).inCategory categoryName |>.withHue (Colour.hue c.colour)
        |>.withTooltip c.tooltip
    rule := .call c.rule }

/-- Registers both callers. -/
def register (registry : Registry) (c : CustomBlock) : Registry :=
  (registry.register (c.caller c.callType .statement)).register (c.caller c.exprType .expression)

/-- The category of custom blocks. -/
def category (cs : List CustomBlock) : Category :=
  cs.foldl (fun category c => (category.push c.callType).push c.exprType)
    { name := categoryName, colour := categoryColour }

/-- A line of a function body, indented unless it is blank; a blank line is emptied. -/
def bodyLine (options : Options) (line : String) : String :=
  if Text.isBlank line then "" else options.indent ++ line

/-- The definition of the function, with an empty line after it. -/
def functionCode (options : Options) (c : CustomBlock) : String :=
  let body := if Text.isBlank c.body then options.placeholder else c.body
  let suite := Text.joinWith "\n" ((Text.lines body).map (bodyLine options))
  "def " ++ c.safeName ++ "(" ++ Text.joinWith ", " c.params ++ "):\n" ++ suite ++ "\n\n"

/-- The definitions of all functions. -/
def prologue (options : Options) : List CustomBlock → String
  | [] => ""
  | c :: cs => c.functionCode options ++ prologue options cs

/-- Reads a custom block. -/
def ofJson? (v : Json) : Option CustomBlock := do
  let names := [["name"], ["params"], ["body_code", "bodyText"], ["description"], ["color"]]
  match ← v.fields? names with
  | [name, params, body, description, colour] =>
    return {
      name := ← Json.required? Json.text? name
      params := ← Json.orElse? [] (Json.list? Json.text?) params
      body := ← Json.orElse? "" Json.text? body
      description := ← Json.orElse? "" Json.text? description
      colour := ← Json.orElse? categoryColour Json.text? colour }
  | _ => none

/-- Writes a custom block. -/
def toJson (c : CustomBlock) : Json :=
  .record
    [ ("name", .text c.name),
      ("params", .array (c.params.map .text)),
      ("body_code", .text c.body),
      ("description", .text c.description),
      ("color", .text c.colour) ]

/-- Reads a list of custom blocks. -/
def parseList? (text : String) : Option (List CustomBlock) := do
  Json.list? ofJson? (← Json.parse? text)

end CustomBlock

end Blockwright
