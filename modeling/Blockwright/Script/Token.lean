import Blockwright.Text.Digits

/-!
# Words of a script

A script is cut into words and operators. A word keeps its parameters, and which of its parts stand
in quotes. Every token takes at least one character, so the length of the text is fuel enough.
-/

namespace Blockwright.Script

/-- A part of a word. In quotes no character is special, and a parameter is one piece. -/
inductive Part
  | text (chars : List Char) (isQuoted : Bool)
  | parameter (name : String) (isQuoted : Bool)
deriving DecidableEq, Repr

/-- A word: parts without a gap. -/
abbrev Word := List Part

/-- A token of a script. A word has the number of its line. -/
inductive Token
  | word (parts : Word) (line : Nat)
  | operator (text : String)
deriving DecidableEq, Repr

/-- Whether a character can stand in the name of a parameter. -/
def isNameChar (c : Char) : Bool := c.isAlphanum || c == '_'

/-- Reads the name of a parameter, after its dollar sign. -/
def readParameter? : List Char → Option (String × List Char)
  | [] => none
  | c :: cs =>
    if c = '\x7b' then
      match cs.dropWhile (· != '\x7d') with
      | _ :: rest => some (String.ofList (cs.takeWhile (· != '\x7d')), rest)
      | [] => none
    else if c.isDigit ∨ c ∈ ['#', '$', '?', '@', '*'] then some (String.singleton c, cs)
    else if isNameChar c then
      some (String.ofList (c :: cs.takeWhile isNameChar), cs.dropWhile isNameChar)
    else none

/-- Reads the inside of double quotes and the quote that ends it. A backslash there stands for
itself but before a dollar sign, a quote, a grave accent or a backslash. -/
def readQuoted? : Nat → List Char → Option (Word × List Char)
  | 0, _ => none
  | _ + 1, [] => none
  | fuel + 1, c :: cs =>
    let literal (chars rest : List Char) : Option (Word × List Char) := do
      let (parts, rest) ← readQuoted? fuel rest
      return (.text chars true :: parts, rest)
    if c = '"' then some ([], cs)
    else if c = '\\' then
      match cs with
      | [] => none
      | d :: rest =>
        if d ∈ ['$', '"', '\x60', '\\'] then literal [d] rest else literal [c, d] rest
    else if c = '$' then
      match readParameter? cs with
      | some (name, rest) => do
        let (parts, rest) ← readQuoted? fuel rest
        return (.parameter name true :: parts, rest)
      | none => literal [c] cs
    else literal [c] cs

/-- The characters that end a word. -/
def endsWord (c : Char) : Bool := [' ', '\t', '\n', ';', '&', '|', '<', '>', '(', ')'].contains c

/-- Reads a word. -/
def readWord? : Nat → List Char → Option (Word × List Char)
  | 0, _ => none
  | _ + 1, [] => some ([], [])
  | fuel + 1, c :: cs =>
    let onward (first : Word) (rest : List Char) : Option (Word × List Char) := do
      let (parts, rest) ← readWord? fuel rest
      return (first ++ parts, rest)
    if endsWord c then some ([], c :: cs)
    else if c = '\'' then
      match cs.dropWhile (· != '\'') with
      | _ :: rest => onward [.text (cs.takeWhile (· != '\'')) true] rest
      | [] => none
    else if c = '"' then do
      let (parts, rest) ← readQuoted? cs.length cs
      onward (.text [] true :: parts) rest
    else if c = '\\' then
      match cs with
      | [] => onward [.text [c] true] []
      | d :: rest => onward (if d = '\n' then [] else [.text [d] true]) rest
    else if c = '$' then
      match readParameter? cs with
      | some (name, rest) => onward [.parameter name false] rest
      | none => onward [.text [c] false] cs
    else onward [.text [c] false] cs

/-- The operators, longer ones before those that they begin with. A number right before an arrow
belongs to it. -/
def operators : List String :=
  ["1>&", "2>&", "1>", "2>", "&&", "||", ";;", ">&", ";", "|", "&", "<", ">", "(", ")", "\n"]

/-- Cuts a text into tokens. -/
def tokens? : Nat → Nat → List Char → Option (List Token)
  | _, _, [] => some []
  | 0, _, _ :: _ => none
  | fuel + 1, line, c :: cs =>
    if c = ' ' ∨ c = '\t' then tokens? fuel line cs
    else if c = '#' then tokens? fuel line (cs.dropWhile (· != '\n'))
    else if c = '\\' ∧ cs.head? = some '\n' then tokens? fuel (line + 1) cs.tail
    else
      match operators.find? fun op => op.toList.isPrefixOf (c :: cs) with
      | some op => do
        let next := if op = "\n" then line + 1 else line
        return .operator op :: (← tokens? fuel next ((c :: cs).drop op.length))
      | none => do
        let (parts, rest) ← readWord? (cs.length + 2) (c :: cs)
        return .word parts line :: (← tokens? fuel line rest)

/-- The text of a word that has no quotes and no parameters. -/
def bareText? : Word → Option (List Char)
  | [] => some []
  | .text chars false :: parts => (bareText? parts).map (chars ++ ·)
  | _ => none

namespace Token

/-- Whether a token is a word without quotes that spells a text. -/
def isWord (text : String) : Token → Bool
  | word parts _ => bareText? parts == some text.toList
  | operator _ => false

/-- Whether a token is an operator. -/
def isOperator (text : String) : Token → Bool
  | word _ _ => false
  | operator op => op == text

end Token

end Blockwright.Script
