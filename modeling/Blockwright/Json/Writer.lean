import Blockwright.Json.Basic
import Blockwright.Text.Digits
import Blockwright.Text.Join

/-!
# Writing JSON

`Json.pretty` writes one item or member on each line, indented by two spaces for each level. Empty
arrays and objects are written as a pair of brackets.
-/

namespace Blockwright.Json

/-- A character of a string. -/
def escapeChar (c : Char) : List Char :=
  if c = '"' then ['\\', '"']
  else if c = '\\' then ['\\', '\\']
  else if c = '\x08' then ['\\', 'b']
  else if c = '\x0c' then ['\\', 'f']
  else if c = '\n' then ['\\', 'n']
  else if c = '\r' then ['\\', 'r']
  else if c = '\t' then ['\\', 't']
  else if c.toNat < 0x20 then
    ['\\', 'u', '0', '0'] ++ Text.hexByte c.toNat
  else [c]

/-- A string with its quotes. -/
def quote (s : String) : String := "\"" ++ String.ofList (s.toList.flatMap escapeChar) ++ "\""

/-- A number: digits alone, or digits with an exponent. -/
def writeNumber (d : Decimal) (isWhole : Bool) : String :=
  let digits := (if d.negative then "-" else "") ++ toString d.coefficient
  if isWhole then digits else digits ++ "e" ++ toString d.exponent

mutual

/-- A value at a level. -/
def pretty (depth : Nat) : Json → String
  | .null => "null"
  | .bool b => if b then "true" else "false"
  | .number d isWhole => writeNumber d isWhole
  | .string s => quote (s.getD "")
  | .array [] => "[]"
  | .array items => "[" ++ prettyItems (depth + 1) items ++ Text.newLine depth ++ "]"
  | .object [] => "\x7b\x7d"
  | .object members => "\x7b" ++ prettyMembers (depth + 1) members ++ Text.newLine depth ++ "\x7d"

/-- Items, each on a line of its own. -/
def prettyItems (depth : Nat) : List Json → String
  | [] => ""
  | [v] => Text.newLine depth ++ v.pretty depth
  | v :: vs => Text.newLine depth ++ v.pretty depth ++ "," ++ prettyItems depth vs

/-- Members, each on a line of its own. -/
def prettyMembers (depth : Nat) : List (Option String × Json) → String
  | [] => ""
  | [(name, v)] => Text.newLine depth ++ quote (name.getD "") ++ ": " ++ v.pretty depth
  | (name, v) :: ms =>
    Text.newLine depth ++ quote (name.getD "") ++ ": " ++ v.pretty depth ++ ","
      ++ prettyMembers depth ms

end

end Blockwright.Json
