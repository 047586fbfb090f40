import Blockwright.Arguments
import Blockwright.Decimal.Shortest
import Blockwright.Fault
import Blockwright.Rule
import Blockwright.Text.Lines

/-!
# Emission

What a rule makes of a block, given the code of the blocks that hang on it. The walk over the
workspace is not part of this module: a `Site` brings two functions that emit other blocks.
-/

namespace Blockwright

/-- How programs are written: one unit of indentation, and the statement for an empty suite. -/
structure Options where
  indent : String := "  "
  placeholder : String := "pass"
deriving DecidableEq, Repr, Inhabited

/-- Options that indent by a number of spaces, at least one. -/
def Options.ofWidth (width : Nat) : Options := { indent := Text.replicate (max width 1) " " }

/-- The code of a block: a statement with its line end, or an expression with its rung. -/
inductive Emission
  | statement (code : String)
  | expression (code : String) (produced : Precedence)
deriving DecidableEq, Repr

namespace Emission

/-- Code for a block of the given shape. -/
def ofShape (shape : Shape) (code : String) (produced : Precedence) : Emission :=
  match shape with
  | .statement => statement (code ++ "\n")
  | .expression => expression code produced
  | .hybrid => expression code produced

/-- The code as a line of a chain. -/
def line : Emission → String
  | statement code => code
  | expression code _ => code ++ "\n"

end Emission

/-- The inside of a string literal in double quotes. -/
def escapeString (text : String) : String :=
  String.ofList <| text.toList.flatMap fun c =>
    if c = '\\' then ['\\', '\\']
    else if c = '"' then ['\\', '"']
    else if c = '\n' then ['\\', 'n']
    else if c = '\r' then ['\\', 'r']
    else if c = '\t' then ['\\', 't']
    else [c]

/-- A block about to be written: its schema, the options, and the code of other blocks. -/
structure Site where
  options : Options
  schema : Schema
  block : Block
  /-- The code of a single block. -/
  emit : BlockId → Except Fault Emission
  /-- The code of the chain that starts with a block. -/
  chain : BlockId → Except Fault String

namespace Site

/-- The text of a literal field. A missing text, a number that is none and an option that is not
offered give way to the slot's preset text. -/
def field (site : Site) (name : String) : String :=
  let preset := site.schema.presetText name
  match site.block.fields.get? name with
  | none => preset
  | some text =>
    match (site.schema.slot? name).map Slot.kind with
    | some (.literal .number) => ((Binary64.read? text).map Binary64.literal).getD preset
    | some (.literal (.choice options)) => if text ∈ options then text else preset
    | _ => text

/-- The code of the block in a value slot, bracketed as required; nothing for an empty slot. -/
def value? (site : Site) (slot : String) (required : Precedence) : Except Fault (Option String) :=
  match site.block.inputs.get? slot with
  | none => .ok none
  | some child => do
    match ← site.emit child with
    | .expression code produced => .ok (some (Precedence.wrap code produced required))
    | .statement _ => .error (.mismatch site.block.id child slot .noOutput)

/-- The code of the block in a value slot, or the slot's preset text. -/
def value (site : Site) (slot : String) (required : Precedence) : Except Fault String := do
  return (← site.value? slot required).getD (site.schema.presetText slot)

/-- The indented chain in a body slot, or the placeholder if it is blank. -/
def suite (site : Site) (slot : String) : Except Fault String := do
  let body ←
    match site.block.inputs.get? slot with
    | none => .ok ""
    | some head => site.chain head
  if Text.isBlank body then return site.options.indent ++ site.options.placeholder ++ "\n"
  else return Text.indentLines site.options.indent body

/-- The code of a piece of a template. -/
def piece (site : Site) : Piece → Except Fault String
  | .code text => .ok text
  | .field name => .ok (site.field name)
  | .quoted name => .ok (escapeString (site.field name))
  | .bracketed name =>
    let text := site.field name
    .ok (if Text.isBlank text then "" else "(" ++ text ++ ")")
  | .passage name =>
    let text := site.field name
    .ok (if Text.isBlank text then site.options.placeholder else text)
  | .value slot required => site.value slot required
  | .clause lead slot => do
    match ← site.value? slot .loosest with
    | some code => .ok (lead ++ code)
    | none => .ok ""
  | .suite slot => site.suite slot

/-- The code of a list of pieces. -/
def pieces (site : Site) : List Piece → Except Fault String
  | [] => .ok ""
  | p :: rest => do
    let code ← site.piece p
    return code ++ (← site.pieces rest)

/-- The code of a template. -/
def template (site : Site) : Template → Except Fault Emission
  | .statement ps => do return .statement (← site.pieces ps)
  | .expression produced ps => do return .expression (← site.pieces ps) produced
  | .number name =>
    let text := site.field name
    .ok (.expression text (if text.toList.head? = some '-' then .unarySign else .atomic))
  | .binary family => do
    let operator := site.field "OP"
    let produced := family.precedence operator
    let a ← site.value "A" produced.operands.1
    let b ← site.value "B" produced.operands.2
    return .expression (a ++ " " ++ operator ++ " " ++ b) produced

/-- The code of the blocks in value slots, in the order of the slots. -/
def values? (site : Site) : List String → Except Fault (List (Option String))
  | [] => .ok []
  | slot :: slots => do
    let code ← site.value? slot .loosest
    return code :: (← site.values? slots)

/-- The code or the preset texts of value slots, in the order of the slots. -/
def values (site : Site) : List String → Except Fault (List String)
  | [] => .ok []
  | slot :: slots => do
    let code ← site.value slot .loosest
    return code :: (← site.values slots)

/-- The argument of a call that is shown with one field for each: the field, or the parameter's name
if it is missing or blank. -/
def expandedArgument (site : Site) (index : Nat) (param : String) : String :=
  ((site.block.fields.get? (expandedField index)).filter fun text => !Text.isBlank text).getD param

/-- The argument text of a call that is shown with one field for all. -/
def compactArguments (site : Site) (call : CallRule) : String :=
  let text := site.field argsField
  if Text.isBlank text then
    match call.fallback with
    | .nothing => ""
    | .paramNames => Text.joinWith ", " call.params
  else text

/-- Values in which the blocks of the sockets take the place of texts. -/
def overlay (sockets : List (Option String)) (values : List String) : List String :=
  List.zipWith (fun socket value => socket.getD value) sockets values

/-- The arguments of a call. A block in the socket of a parameter goes before a text. -/
def arguments (site : Site) (call : CallRule) : Except Fault String := do
  let sockets ← site.values? ((List.range call.params.length).map socketSlot)
  if site.block.mode = .expanded ∧ call.params ≠ [] then
    return Arguments.compact (overlay sockets (call.params.mapIdx site.expandedArgument))
  else if !call.hasArgField then return ""
  else
    let text := site.compactArguments call
    if sockets.all Option.isNone then return text
    else return Arguments.compact (overlay sockets (Arguments.expand text call.params))

/-- The code that a rule writes for the block. -/
def rule (site : Site) : Rule → Except Fault Emission
  | .template t => site.template t
  | .call call => do
    let args ← site.arguments call
    return .ofShape site.schema.shape (call.callee ++ "(" ++ args ++ ")") .functionCall
  | .method m => do
    let receiver ← site.value m.receiver .member
    let args ← site.values m.args
    let code := receiver ++ "." ++ m.method ++ "(" ++ Text.joinWith ", " args ++ ")"
    return .ofShape site.schema.shape code .functionCall
  | .constant text => .ok (.ofShape site.schema.shape text .atomic)

end Site

end Blockwright
