/-!
# Identifiers

Texts turned into identifiers of ASCII letters, digits and underscores.
-/

namespace Blockwright.Text

/-- Whether a character can stand in an identifier. -/
def isIdentifierChar (c : Char) : Bool := c.isAlphanum || c == '_'

/-- A text with an underscore in place of every character that cannot stand in an identifier. -/
def sanitize (s : String) : String :=
  String.ofList (s.toList.map fun c => if isIdentifierChar c then c else '_')

/-- A sanitized text that does not start with a digit and is not empty. -/
def safeName (s : String) : String :=
  match (sanitize s).toList with
  | [] => "_"
  | c :: cs => if c.isDigit then String.ofList ('_' :: c :: cs) else String.ofList (c :: cs)

end Blockwright.Text
