import Blockwright.Text.Digits
import Blockwright.Text.Space

/-!
# Characters of XML

The characters that the two editions of XML allow, those that names are made of, and references by
code.
-/

namespace Blockwright.Markup

/-- An edition of XML. -/
inductive Edition
  | first
  | second
deriving DecidableEq, Repr

namespace Edition

/-- Whether a document may have the character of that code, written out or by a reference. -/
def isAllowed : Edition → Nat → Bool
  | first, n =>
    n == 0x9 || n == 0xA || n == 0xD || (0x20 ≤ n && n ≤ 0xD7FF) || (0xE000 ≤ n && n ≤ 0xFFFD)
      || (0x10000 ≤ n && n ≤ 0x10FFFF)
  | second, n =>
    (0x1 ≤ n && n ≤ 0xD7FF) || (0xE000 ≤ n && n ≤ 0xFFFD) || (0x10000 ≤ n && n ≤ 0x10FFFF)

/-- Whether text and values may have the character of that code written out. The second edition
lets control characters in by reference only. -/
def isPlain : Edition → Nat → Bool
  | first, n => first.isAllowed n
  | second, n =>
    second.isAllowed n &&
      !((0x1 ≤ n && n ≤ 0x8) || n == 0xB || n == 0xC || (0xE ≤ n && n ≤ 0x1F)
        || (0x7F ≤ n && n ≤ 0x84) || (0x86 ≤ n && n ≤ 0x9F))

end Edition

/-- The first characters of names. -/
def isNameStart (c : Char) : Bool :=
  let n := c.toNat
  c.isAlpha || c == '_' || c == ':' || (0xC0 ≤ n && n ≤ 0xD6) || (0xD8 ≤ n && n ≤ 0xF6)
    || (0xF8 ≤ n && n ≤ 0x2FF) || (0x370 ≤ n && n ≤ 0x37D) || (0x37F ≤ n && n ≤ 0x1FFF)
    || (0x200C ≤ n && n ≤ 0x200D) || (0x2070 ≤ n && n ≤ 0x218F) || (0x2C00 ≤ n && n ≤ 0x2FEF)
    || (0x3001 ≤ n && n ≤ 0xD7FF) || (0xF900 ≤ n && n ≤ 0xFDCF) || (0xFDF0 ≤ n && n ≤ 0xFFFD)
    || (0x10000 ≤ n && n ≤ 0xEFFFF)

/-- The further characters of names. -/
def isNameChar (c : Char) : Bool :=
  let n := c.toNat
  isNameStart c || c.isDigit || c == '-' || c == '.' || n == 0xB7 || (0x300 ≤ n && n ≤ 0x36F)
    || (0x203F ≤ n && n ≤ 0x2040)

/-- Whether a character continues a name that has the characters `name` so far. -/
def continuesName (name : List Char) (c : Char) : Bool :=
  if name.isEmpty then isNameStart c else isNameChar c

/-- The number that at least one digit spells, after an optional plus sign. -/
def code? (base : Nat) (digits : List Char) : Option Nat :=
  let digits :=
    match digits with
    | '+' :: rest => rest
    | _ => digits
  if digits = [] then none else Text.digits? base 0 digits

/-- The character that a reference by code stands for, after the number sign. -/
def coded? (edition : Edition) (digits : List Char) : Option Char := do
  let n ←
    match digits with
    | 'x' :: rest => code? 16 rest
    | _ => code? 10 digits
  if edition.isAllowed n then some (Char.ofNat n) else none

/-- The character that a predefined name stands for. -/
def predefined? (name : List Char) : Option Char :=
  match name with
  | ['l', 't'] => some '<'
  | ['g', 't'] => some '>'
  | ['a', 'm', 'p'] => some '&'
  | ['a', 'p', 'o', 's'] => some '\''
  | ['q', 'u', 'o', 't'] => some '"'
  | _ => none

end Blockwright.Markup
