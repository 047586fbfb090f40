import Blockwright.Precedence
import Blockwright.Schema
import Blockwright.Text.Join

/-!
# Emission rules

A rule says what code a block stands for. Most blocks follow a template: a list of pieces that are
written one after the other. Calls, methods and constants have rules of their own, since they are
also made at run time.
-/

namespace Blockwright

/-- A piece of a template. -/
inductive Piece
  /-- Fixed code. -/
  | code (text : String)
  /-- The text of a literal field. -/
  | field (name : String)
  /-- The text of a literal field as the inside of a string literal. -/
  | quoted (name : String)
  /-- The text of a literal field in brackets, or nothing if it is blank. -/
  | bracketed (name : String)
  /-- The text of a literal field, or the placeholder statement if it is blank. -/
  | passage (name : String)
  /-- The block in a value slot, or the slot's preset text. -/
  | value (slot : String) (required : Precedence)
  /-- The block in a value slot with fixed code before it, or nothing if the slot is empty. -/
  | clause (lead slot : String)
  /-- The chain in a body slot, indented. -/
  | suite (slot : String)
deriving DecidableEq, Repr

/-- The families of binary operators. -/
inductive OperatorFamily
  | arithmetic | comparison | logic
deriving DecidableEq, Repr

/-- The rung of an operator of the family. -/
def OperatorFamily.precedence (family : OperatorFamily) (operator : String) : Precedence :=
  match family with
  | arithmetic => (Precedence.ofArithmetic? operator).getD .additive
  | comparison => .relational
  | logic => if operator = "and" then .logicalAnd else .logicalOr

/-- How a block of the stock catalogue is written. -/
inductive Template
  /-- A statement; the pieces bring their own line ends. -/
  | statement (pieces : List Piece)
  /-- An expression on the given rung. -/
  | expression (produced : Precedence) (pieces : List Piece)
  /-- The number in a literal field; a negative one stands on the rung of a sign. -/
  | number (field : String)
  /-- The slots `A` and `B` with the operator of the field `OP` between them. -/
  | binary (family : OperatorFamily)
deriving DecidableEq, Repr

/-- What a call writes for its arguments if the argument field is blank. -/
inductive BlankArguments
  | nothing | paramNames
deriving DecidableEq, Repr

/-- A call of a function. `freeArgs` shows the argument field even for a function without declared
parameters. -/
structure CallRule where
  callee : String
  params : List String
  freeArgs : Bool := false
  fallback : BlankArguments := .nothing
deriving DecidableEq, Repr

/-- The field that holds all arguments of a call. -/
def argsField : String := "ARGS"

/-- The slot for a block as the argument of the given index. -/
def socketSlot (index : Nat) : String := "IN" ++ toString index

/-- The field that holds the argument of the given index on its own. -/
def expandedField (index : Nat) : String := "ARG_" ++ toString index

namespace CallRule

/-- Whether the call has a field for its arguments. -/
def hasArgField (call : CallRule) : Bool := call.freeArgs || !call.params.isEmpty

/-- The schema of a call: the argument field, which starts with the parameter names, and an optional
slot for each parameter. -/
def schema (call : CallRule) (typeId : String) (shape : Shape) : Schema :=
  let base := Schema.ofShape typeId shape
  let base :=
    if call.hasArgField then base.text argsField (Text.joinWith ", " call.params) else base
  (List.range call.params.length).foldl (fun s index => s.optional (socketSlot index)) base

end CallRule

/-- A call of a method of the block in a slot. -/
structure MethodRule where
  receiver : String
  method : String
  args : List String
deriving DecidableEq, Repr

/-- What code a block stands for. -/
inductive Rule
  | template (template : Template)
  | call (call : CallRule)
  | method (method : MethodRule)
  | constant (text : String)
deriving DecidableEq, Repr

/-- A type of block: its look and its code. -/
structure Definition where
  schema : Schema
  rule : Rule
deriving DecidableEq, Repr

namespace Definition

/-- The type that is defined. -/
def typeId (d : Definition) : String := d.schema.typeId

/-- The rule of a call. -/
def callRule? (d : Definition) : Option CallRule :=
  match d.rule with
  | .call call => some call
  | _ => none

end Definition

end Blockwright
