import Blockwright.Json.Basic
import Blockwright.Text.Digits
import Blockwright.Text.Space

/-!
# Reading JSON

`Json.parse?` reads strict JSON. The text is cut into tokens, and the tokens are put together to a
value; no token is empty and no value is without tokens, so their numbers are fuel enough.
-/

namespace Blockwright.Json

/-- A token of a JSON text. -/
inductive Token
  | openBracket | closeBracket | openBrace | closeBrace | comma | colon
  | null
  | bool (value : Bool)
  | number (value : Decimal) (isWhole : Bool)
  | string (text : Option String)
deriving DecidableEq, Repr

/-- Cuts the inside of a string, after its opening quote, off the rest. Control characters are not
allowed in it. -/
def cutString? : List Char → Option (List Char × List Char)
  | [] => none
  | '"' :: rest => some ([], rest)
  | '\\' :: c :: rest => (cutString? rest).map fun (inside, rest) => ('\\' :: c :: inside, rest)
  | c :: rest =>
    if c.toNat < 0x20 then none
    else (cutString? rest).map fun (inside, rest) => (c :: inside, rest)

/-- The characters that a backslash and a letter stand for. -/
def escaped? (c : Char) : Option Char :=
  match c with
  | '"' => some '"'
  | '\\' => some '\\'
  | '/' => some '/'
  | 'b' => some '\x08'
  | 'f' => some '\x0c'
  | 'n' => some '\n'
  | 'r' => some '\r'
  | 't' => some '\t'
  | _ => none

/-- The codes of the characters of a string with its escapes resolved; a surrogate stands for
itself. -/
def codes? : List Char → Option (List Nat)
  | [] => some []
  | '\\' :: 'u' :: a :: b :: c :: d :: rest => do
    let n ← Text.digits? 16 0 [a, b, c, d]
    return n :: (← codes? rest)
  | '\\' :: c :: rest => do
    let e ← escaped? c
    return e.toNat :: (← codes? rest)
  | c :: rest => do
    if c = '\\' then none else return c.toNat :: (← codes? rest)

/-- The text that codes spell, with pairs of surrogates put together. A surrogate that stands alone
spells none. -/
def spell? : List Nat → Option (List Char)
  | [] => some []
  | high :: low :: rest =>
    if 0xD800 ≤ high ∧ high < 0xDC00 then
      if 0xDC00 ≤ low ∧ low < 0xE000 then
        (spell? rest).map
          (Char.ofNat (0x10000 + (high - 0xD800) * 0x400 + (low - 0xDC00)) :: ·)
      else none
    else if 0xDC00 ≤ high ∧ high < 0xE000 then none
    else (spell? (low :: rest)).map (Char.ofNat high :: ·)
  | [n] => if 0xD800 ≤ n ∧ n < 0xE000 then none else some [Char.ofNat n]

/-- Reads a string after its opening quote. -/
def readString? (cs : List Char) : Option (Token × List Char) := do
  let (inside, rest) ← cutString? cs
  let codes ← codes? inside
  return (.string ((spell? codes).map String.ofList), rest)

/-- Whether a number has no superfluous zero in front and a digit on either side of its point. -/
def isProper (cs : List Char) : Bool :=
  let unsigned := if cs.head? = some '-' then cs.tail else cs
  let whole := unsigned.takeWhile Decimal.isDigit
  let rest := unsigned.dropWhile Decimal.isDigit
  whole ≠ [] && (whole.length == 1 || whole.head? != some '0') &&
    match rest with
    | '.' :: fraction => (fraction.head?.map Decimal.isDigit).getD false
    | _ => true

/-- Reads a number. -/
def readNumber? (cs : List Char) : Option (Token × List Char) := do
  let isPart (c : Char) : Bool := Decimal.isDigit c || "+-.eE".toList.contains c
  let literal := cs.takeWhile isPart
  if isProper literal then
    let value ← Decimal.read? literal
    return (.number value (literal.all fun c => Decimal.isDigit c || c == '-'),
      cs.dropWhile isPart)
  else none

/-- Reads a word. -/
def readWord? (cs : List Char) : Option (Token × List Char) :=
  let rest := cs.dropWhile Char.isAlpha
  match String.ofList (cs.takeWhile Char.isAlpha) with
  | "null" => some (.null, rest)
  | "true" => some (.bool true, rest)
  | "false" => some (.bool false, rest)
  | _ => none

/-- Reads the token at the start of a text. -/
def readToken? : List Char → Option (Token × List Char)
  | [] => none
  | c :: cs =>
    match c with
    | '[' => some (.openBracket, cs)
    | ']' => some (.closeBracket, cs)
    | '{' => some (.openBrace, cs)
    | '}' => some (.closeBrace, cs)
    | ',' => some (.comma, cs)
    | ':' => some (.colon, cs)
    | '"' => readString? cs
    | _ => if c.isAlpha then readWord? (c :: cs) else readNumber? (c :: cs)

/-- Cuts a text into tokens. -/
def tokens? : Nat → List Char → Option (List Token)
  | 0, cs => if cs.all Text.isGap then some [] else none
  | fuel + 1, cs =>
    match cs.dropWhile Text.isGap with
    | [] => some []
    | rest => do
      let (token, rest) ← readToken? rest
      return token :: (← tokens? fuel rest)

mutual

/-- Reads a value at the start of a list of tokens. -/
def value? : Nat → List Token → Option (Json × List Token)
  | 0, _ => none
  | _, [] => none
  | fuel + 1, t :: ts =>
    match t with
    | .null => some (.null, ts)
    | .bool b => some (.bool b, ts)
    | .number d isWhole => some (.number d isWhole, ts)
    | .string s => some (.string s, ts)
    | .openBracket =>
      match ts with
      | .closeBracket :: rest => some (.array [], rest)
      | _ => do
        let (items, rest) ← items? fuel ts
        return (.array items, rest)
    | .openBrace =>
      match ts with
      | .closeBrace :: rest => some (.object [], rest)
      | _ => do
        let (members, rest) ← members? fuel ts
        return (.object members, rest)
    | _ => none

/-- Reads the items of an array, at least one, and its end. -/
def items? : Nat → List Token → Option (List Json × List Token)
  | 0, _ => none
  | fuel + 1, ts => do
    let (v, rest) ← value? fuel ts
    match rest with
    | .comma :: rest => do
      let (vs, rest) ← items? fuel rest
      return (v :: vs, rest)
    | .closeBracket :: rest => return ([v], rest)
    | _ => none

/-- Reads the members of an object, at least one, and its end. -/
def members? : Nat → List Token → Option (List (Option String × Json) × List Token)
  | 0, _ => none
  | fuel + 1, ts =>
    match ts with
    | .string name :: .colon :: ts => do
      let (v, rest) ← value? fuel ts
      match rest with
      | .comma :: rest => do
        let (ms, rest) ← members? fuel rest
        return ((name, v) :: ms, rest)
      | .closeBrace :: rest => return ([(name, v)], rest)
      | _ => none
    | _ => none

end

/-- The value that tokens spell. -/
def ofTokens? (ts : List Token) : Option Json := do
  let (v, rest) ← value? (2 * ts.length) ts
  if rest = [] then some v else none

/-- The value that a text spells. -/
def parse? (s : String) : Option Json := do
  ofTokens? (← tokens? s.toList.length s.toList)

end Blockwright.Json
