import Blockwright.Text.Utf8

/-!
# Encodings of documents

A document comes as text, but may declare that its bytes are to be read in another way.
-/

namespace Blockwright.Markup

/-- How the bytes of a document are read. -/
inductive Encoding
  /-- Nothing has been said. -/
  | unknown
  | utf8
  | latin1
  | ascii
deriving DecidableEq, Repr

namespace Encoding

/-- The names of encodings, in the order in which they are tried. -/
def names : List (String × Option Encoding) :=
  [ ("utf-8", some .utf8), ("utf8", some .utf8), ("iso-8859-1", some .latin1),
    ("latin1", some .latin1), ("utf-16", none), ("utf16", none), ("ascii", some .ascii),
    ("us-ascii", some .ascii) ]

/-- Whether two names agree as far as both go, capitals aside. -/
def agree (known given : List Char) : Bool :=
  (known.zip given).all fun (a, b) => a == b.toLower

/-- The encoding that a declaration names, if it is one that can be read. -/
def ofName? (name : List Char) : Option Encoding :=
  ((names.find? fun n => agree n.1.toList name).map Prod.snd).join

/-- The encoding after a declaration. A document known to be UTF-8 declares nothing else. -/
def declare? (e : Encoding) (name : List Char) : Option Encoding := do
  let declared ← ofName? name
  if e = .utf8 ∧ declared ≠ .utf8 then none else some declared

/-- The characters that the bytes of one character stand for. -/
def decode? (e : Encoding) (c : Char) : Option (List Char) :=
  match e with
  | unknown => some [c]
  | utf8 => some [c]
  | ascii => if c.toNat < 0x80 then some [c] else none
  | latin1 => some ((Text.toUtf8 (String.singleton c)).map fun b => Char.ofNat b.toNat)

end Encoding

end Blockwright.Markup
