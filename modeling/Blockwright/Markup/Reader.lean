import Blockwright.Markup.Doctype
import Blockwright.Markup.Encoding
import Blockwright.Markup.Name
import Blockwright.Markup.Node

/-!
# Reading markup

`Node.parse?` reads a document character by character and gives its first root element. Further
roots are allowed but have to be well-formed. `Reader.step?` takes one token; text that an entity
stands for is read like text of the document.
-/

namespace Blockwright.Markup

/-- An element that has begun: its tag, the qualifiers declared inside it, and its children so far,
last first. -/
structure Frame where
  tag : QName
  attributes : Dict String
  scope : List String
  children : List Node

/-- A start tag that has begun: its name, its attributes so far, last first, and the qualifiers that
it declares. -/
structure StartTag where
  name : QName
  attributes : List (QName × String) := []
  declared : List String := []

namespace StartTag

/-- The qualifiers that have a meaning of their own, with the namespaces that they stand for. -/
def reserved : List (String × String) :=
  [ ("xml", "http://www.w3.org/XML/1998/namespace"), ("xmlns", "http://www.w3.org/2000/xmlns/") ]

/-- The reserved qualifiers. They are declared everywhere, and are not for elements. -/
def reservedQualifiers : List String := reserved.map Prod.fst

/-- Whether a qualifier may be declared for a namespace. There is none without a namespace; `xmlns`
cannot be declared, and `xml` only for its own namespace. -/
def mayDeclare (qualifier space : String) : Bool :=
  if qualifier = "xmlns" then false
  else if qualifier = "xml" then reserved.lookup qualifier == some space
  else space != ""

/-- Whether a namespace may be the default. It has no reserved qualifier as its name, and is not the
namespace of one. -/
def mayBeDefault (space : String) : Bool :=
  reserved.all fun (qualifier, own) => space != qualifier && space != own

/-- Begins a start tag. -/
def ofName? (name : QName) : Option StartTag :=
  match name.qualifier with
  | some q => if q ∈ reservedQualifiers then none else some { name }
  | none => some { name }

/-- Whether an attribute of that name is there already. -/
def hasAttribute (t : StartTag) (name : QName) : Bool := (t.attributes.map Prod.fst).contains name

/-- Adds an attribute, or what it declares. -/
def add? (t : StartTag) (name : QName) (value : String) : Option StartTag :=
  if name.qualifier = some "xmlns" then
    if mayDeclare name.name value then some { t with declared := name.name :: t.declared }
    else none
  else if name = ⟨none, "xmlns"⟩ then if mayBeDefault value then some t else none
  else some { t with attributes := (name, value) :: t.attributes }

/-- Whether the qualifier of a name is declared. -/
def isBound (scope : List String) (name : QName) : Bool :=
  match name.qualifier with
  | none => true
  | some q => scope.contains q

/-- The element that a start tag begins, if all its qualifiers are declared. Its attributes are kept
without their qualifiers; of two with one name the last counts. -/
def frame? (t : StartTag) (scope : List String) : Option Frame :=
  let scope := t.declared ++ scope
  if (t.name :: t.attributes.map Prod.fst).all (isBound scope) then
    let attributes := t.attributes.foldr (fun a d => d.insert a.1.name a.2) Dict.empty
    some { tag := t.name, attributes, scope, children := [] }
  else none

end StartTag

/-- An item of the declaration at the start of a document. -/
inductive Clause
  | version
  | encoding
  | standalone
deriving DecidableEq, Repr

namespace Clause

/-- The first letter of a clause, and the other letters. -/
def word : Clause → Char × String
  | version => ('v', "ersion")
  | encoding => ('e', "ncoding")
  | standalone => ('s', "tandalone")

/-- The clauses that may follow one. -/
def next : Clause → List Clause
  | version => [encoding, standalone]
  | encoding => [standalone]
  | standalone => []

end Clause

/-- A place in a document. Names that have begun come last character first, and so do references. -/
inductive Place
  /-- Before the first character. -/
  | start
  /-- Between tags. -/
  | outside
  | tagName (held : List Char)
  | tag (t : StartTag)
  | attributeName (t : StartTag) (held : List Char)
  | afterAttributeName (t : StartTag) (name : QName)
  | attributeValue (t : StartTag) (name : QName) (quote : Option Char)
  | afterAttribute (t : StartTag)
  | endTagName (held : List Char)
  | afterEndTagName (name : QName)
  | comment
  | cdata
  /-- The name of an instruction, and whether the instruction is first in the document. -/
  | instructionName (isFirst : Bool) (held : List Char)
  | instruction
  /-- Before a clause of the declaration of a document. -/
  | beforeClause (clauses : List Clause)
  | clauseName (clause : Clause) (held : List Char)
  | afterClauseName (clause : Clause)
  | clauseValue (clause : Clause) (quote : Option Char)
  | afterClause (clauses : List Clause)
  | doctype (d : Doctype)
  /-- A reference, and the place to which it belongs. -/
  | reference (held : List Char) (after : Place)

/-- Whether a place is between tags. -/
def Place.isOutside : Place → Bool
  | outside => true
  | _ => false

/-- A document that has been read in part. -/
structure Reader where
  scanner : Scanner := {}
  place : Place := .start
  edition : Edition := .first
  encoding : Encoding := .unknown
  mayHaveDoctype : Bool := true
  entities : Entities := []
  /-- Text or a value that has begun, last character first. -/
  held : List Char := []
  /-- Whether the text that has begun is dropped where it ends. -/
  isBlank : Bool := true
  /-- The elements that have begun, innermost first. -/
  frames : List Frame := []
  /-- The roots so far, last first. -/
  roots : List Node := []
  /-- Text to be read before all that follows. -/
  insertion : List Char := []

namespace Reader

/-- The reader at another place. -/
def moveTo (r : Reader) (place : Place) : Reader := { r with place }

/-- Adds characters to the text or value that has begun. -/
def hold (r : Reader) (cs : List Char) : Reader := { r with held := cs.reverse ++ r.held }

/-- The qualifiers declared at this place. -/
def scope (r : Reader) : List String :=
  match r.frames with
  | [] => StartTag.reservedQualifiers
  | f :: _ => f.scope

/-- Adds a node to the innermost element that has begun, or to the roots. -/
def addNode (r : Reader) (n : Node) : Reader :=
  match r.frames with
  | [] => { r with roots := n :: r.roots }
  | f :: rest => { r with frames := { f with children := n :: f.children } :: rest }

/-- Ends a run of text. -/
def endText (r : Reader) : Reader :=
  let ended := { r with held := [], isBlank := true }
  if r.isBlank ∨ r.held = [] then ended
  else ended.addNode (.text (String.ofList r.held.reverse))

/-- Ends the innermost element, if it has that name. -/
def endElement? (r : Reader) (name : QName) : Option Reader :=
  match r.frames with
  | [] => none
  | f :: rest =>
    if f.tag = name then
      let node := .element f.tag.name f.attributes f.children.reverse
      some (addNode { r with frames := rest, place := .outside } node)
    else none

/-- Ends a start tag. -/
def endStartTag? (r : Reader) (t : StartTag) (isEmpty : Bool) : Option Reader := do
  let frame ← t.frame? r.scope
  let r := { r with frames := frame :: r.frames, place := .outside }
  if isEmpty then r.endElement? t.name else some r

/-! ### Places in content -/

/-- Takes a token of text. -/
def text? (r : Reader) (t : Token) : Option Reader :=
  if r.frames.isEmpty then none else some { r.hold t.chars with isBlank := false }

/-- Takes a token between tags. No text but white space stands outside the elements. -/
def outside? (r : Reader) (t : Token) : Option Reader :=
  let inElement := !r.frames.isEmpty
  match t with
  | .char c =>
    if Text.isGap c then some (if inElement then r.hold [c] else r)
    else if r.edition.isPlain c.toNat then r.text? t
    else none
  | .referenceStart => if inElement then some (r.moveTo (.reference [] .outside)) else none
  | .tagStart => some { r.endText with place := .tagName [], mayHaveDoctype := false }
  | .endTagStart => if inElement then some (r.endText.moveTo (.endTagName [])) else none
  | .commentStart => some (r.endText.moveTo .comment)
  | .cdataStart => if inElement then some (r.endText.moveTo .cdata) else none
  | .instructionStart => some (r.endText.moveTo (.instructionName false []))
  | .doctypeStart =>
    if r.mayHaveDoctype then some { r.endText with place := .doctype {}, mayHaveDoctype := false }
    else none
  | .cdataEnd => none
  | .declarationStart => none
  | _ => r.text? t

/-- Takes the first token of a document. -/
def start? (r : Reader) (t : Token) : Option Reader :=
  match t with
  | .instructionStart => some (r.moveTo (.instructionName true []))
  | _ => (r.moveTo .outside).outside? t

/-- Takes a token of a section of plain characters. -/
def cdata? (r : Reader) (t : Token) : Option Reader :=
  match t with
  | .cdataEnd =>
    some
      (addNode { r with held := [], place := .outside } (.cdata (String.ofList r.held.reverse)))
  | .char c =>
    if r.edition.isAllowed c.toNat then
      some { r.hold [c] with isBlank := r.isBlank && Text.isGap c }
    else none
  | _ => some (r.hold t.chars)

/-- Takes a token of what is skipped up to its end. -/
def skip? (r : Reader) (ending t : Token) : Option Reader :=
  if t = ending then some (r.moveTo .outside)
  else
    match t with
    | .char c => if r.edition.isAllowed c.toNat then some r else none
    | _ => some r

/-! ### Names and values -/

/-- Takes a token of the name of an element. -/
def tagName? (r : Reader) (held : List Char) (t : Token) : Option Reader := do
  match ← QName.step? (fun t => t = .tagEnd || t = .emptyTagEnd) held t with
  | .more held => return r.moveTo (.tagName held)
  | .done name =>
    let tag ← StartTag.ofName? name
    match t with
    | .tagEnd => r.endStartTag? tag false
    | .emptyTagEnd => r.endStartTag? tag true
    | _ => return r.moveTo (.tag tag)

/-- Takes a token after the name of an element, or after an attribute and white space. -/
def tag? (r : Reader) (tag : StartTag) (t : Token) : Option Reader :=
  match t with
  | .tagEnd => r.endStartTag? tag false
  | .emptyTagEnd => r.endStartTag? tag true
  | .char c =>
    if Text.isGap c then some (r.moveTo (.tag tag))
    else if isNameStart c then some (r.moveTo (.attributeName tag [c]))
    else none
  | _ => none

/-- Takes a token right after an attribute. -/
def afterAttribute? (r : Reader) (tag : StartTag) (t : Token) : Option Reader :=
  match t with
  | .char c => if Text.isGap c then some (r.moveTo (.tag tag)) else none
  | _ => r.tag? tag t

/-- Takes a token of the name of an attribute. -/
def attributeName? (r : Reader) (tag : StartTag) (held : List Char) (t : Token) :
    Option Reader := do
  match ← QName.step? (· = .equals) held t with
  | .more held => return r.moveTo (.attributeName tag held)
  | .done name =>
    if tag.hasAttribute name then none
    else if t = .equals then return r.moveTo (.attributeValue tag name none)
    else return r.moveTo (.afterAttributeName tag name)

/-- Takes a token between a name and its equals sign, after which `place` follows. -/
def equals? (r : Reader) (place : Place) (t : Token) : Option Reader :=
  match t with
  | .equals => some (r.moveTo place)
  | .char c => if Text.isGap c then some r else none
  | _ => none

/-- Takes a token of a value. `here` is the place in it, by the quote that has opened it, and
`finish` says what to do with the value. -/
def value? (r : Reader) (here : Option Char → Place) (quote : Option Char)
    (finish : List Char → Reader → Option Reader) (t : Token) : Option Reader :=
  match quote with
  | none =>
    match t with
    | .quote q => some (r.moveTo (here (some q)))
    | .char c => if Text.isGap c then some r else none
    | _ => none
  | some q =>
    match t with
    | .quote c => if c = q then finish r.held.reverse { r with held := [] } else some (r.hold [c])
    | .referenceStart => some (r.moveTo (.reference [] (here quote)))
    | .tagStart => none
    | .instructionStart => none
    | .char c => if r.edition.isPlain c.toNat then some (r.hold [c]) else none
    | _ => some (r.hold t.chars)

/-- Takes a token of the name in an end tag. -/
def endTagName? (r : Reader) (held : List Char) (t : Token) : Option Reader := do
  match ← QName.step? (· = .tagEnd) held t with
  | .more held => return r.moveTo (.endTagName held)
  | .done name =>
    if t = .tagEnd then r.endElement? name else return r.moveTo (.afterEndTagName name)

/-- Takes a token after the name in an end tag. -/
def afterEndTagName? (r : Reader) (name : QName) (t : Token) : Option Reader :=
  match t with
  | .tagEnd => r.endElement? name
  | .char c => if Text.isGap c then some r else none
  | _ => none

/-! ### References -/

/-- Puts in what a reference stands for. Between tags the text of an entity is read as markup, and
text with a reference is kept unless it is white space so far. -/
def resolve? (r : Reader) (name : List Char) (after : Place) : Option Reader := do
  let r := r.moveTo after
  let r ←
    match name, predefined? name with
    | [], _ => none
    | _, some c => some (r.hold [c])
    | '#' :: digits, _ => (coded? r.edition digits).map fun c => r.hold [c]
    | _, _ => do
      let text ← r.entities.lookup name
      some (if after.isOutside then { r with insertion := text } else r.hold text)
  let isKept := after.isOutside && (r.held.isEmpty || !r.held.all Text.isGap)
  some (if isKept then { r with isBlank := false } else r)

/-- Takes a token of a reference. -/
def reference? (r : Reader) (held : List Char) (after : Place) (t : Token) : Option Reader :=
  match t with
  | .referenceEnd => r.resolve? held.reverse after
  | .char c =>
    if continuesName held c ∨ (held = [] ∧ c = '#') then
      some (r.moveTo (.reference (c :: held) after))
    else none
  | _ => none

/-! ### Instructions and the declaration of the document -/

/-- Whether a name is `xml`, capitals aside. -/
def isXml (name : List Char) : Bool := name.map Char.toLower = ['x', 'm', 'l']

/-- Takes a token of the name of an instruction. The name `xml` is that of the declaration, which
stands at the very start. A name may be missing before white space, but not before the end. -/
def instructionName? (r : Reader) (isFirst : Bool) (held : List Char) (t : Token) :
    Option Reader :=
  let name := held.reverse
  match t with
  | .instructionEnd => if name = [] ∨ isXml name then none else some (r.moveTo .outside)
  | .char c =>
    if continuesName held c then some (r.moveTo (.instructionName isFirst (c :: held)))
    else if !Text.isGap c then none
    else if isFirst ∧ name = ['x', 'm', 'l'] then some (r.moveTo (.beforeClause [.version]))
    else if isXml name then none
    else some (r.moveTo .instruction)
  | _ => none

/-- Takes a token before a clause. The version has to be there. -/
def beforeClause? (r : Reader) (clauses : List Clause) (t : Token) : Option Reader :=
  match t with
  | .instructionEnd => if clauses = [.version] then none else some (r.moveTo .outside)
  | .char c =>
    if Text.isGap c then some (r.moveTo (.beforeClause clauses))
    else (clauses.find? fun k => k.word.1 = c).map fun k => r.moveTo (.clauseName k [])
  | _ => none

/-- Takes a token right after a clause. -/
def afterClause? (r : Reader) (clauses : List Clause) (t : Token) : Option Reader :=
  match t with
  | .char c => if Text.isGap c then some (r.moveTo (.beforeClause clauses)) else none
  | _ => r.beforeClause? clauses t

/-- Takes a token of the name of a clause. -/
def clauseName? (r : Reader) (clause : Clause) (held : List Char) (t : Token) :
    Option Reader := do
  match ← QName.step? (· = .equals) held t with
  | .more held => return r.moveTo (.clauseName clause held)
  | .done name =>
    if name.name ≠ clause.word.2 then none
    else if t = .equals then return r.moveTo (.clauseValue clause none)
    else return r.moveTo (.afterClauseName clause)

/-- What a clause says. -/
def endClause? (clause : Clause) (value : List Char) (r : Reader) : Option Reader := do
  let r := r.moveTo (.afterClause clause.next)
  match clause with
  | .version =>
    if value = "1.0".toList then some { r with edition := .first }
    else if value = "1.1".toList then some { r with edition := .second }
    else none
  | .encoding => return { r with encoding := ← r.encoding.declare? value }
  | .standalone => if value = "yes".toList ∨ value = "no".toList then some r else none

/-! ### The document -/

/-- Takes a token of a document type. -/
def doctype? (r : Reader) (d : Doctype) (t : Token) : Option Reader := do
  let d ← d.step? r.edition t
  match d.place with
  | .ended => return { r with place := .outside, entities := d.entities }
  | _ => return { r with place := .doctype { d with insertion := [] }, insertion := d.insertion }

/-- Takes a token. -/
def step? (r : Reader) (t : Token) : Option Reader :=
  match r.place with
  | .start => r.start? t
  | .outside => r.outside? t
  | .tagName held => r.tagName? held t
  | .tag tag => r.tag? tag t
  | .attributeName tag held => r.attributeName? tag held t
  | .afterAttributeName tag name => r.equals? (.attributeValue tag name none) t
  | .attributeValue tag name quote =>
    r.value? (.attributeValue tag name) quote
      (fun value r => (tag.add? name (String.ofList value)).map fun tag =>
        r.moveTo (.afterAttribute tag)) t
  | .afterAttribute tag => r.afterAttribute? tag t
  | .endTagName held => r.endTagName? held t
  | .afterEndTagName name => r.afterEndTagName? name t
  | .comment => r.skip? .commentEnd t
  | .cdata => r.cdata? t
  | .instructionName isFirst held => r.instructionName? isFirst held t
  | .instruction => r.skip? .instructionEnd t
  | .beforeClause clauses => r.beforeClause? clauses t
  | .clauseName clause held => r.clauseName? clause held t
  | .afterClauseName clause => r.equals? (.clauseValue clause none) t
  | .clauseValue clause quote => r.value? (.clauseValue clause) quote (endClause? clause) t
  | .afterClause clauses => r.afterClause? clauses t
  | .doctype d => r.doctype? d t
  | .reference held after => r.reference? held after t

/-- Takes a character. -/
def takeChar? (r : Reader) (c : Char) : Option Reader := do
  let (tokens, scanner) ← r.scanner.scan? c
  tokens.foldlM step? { r with scanner }

/-- The length of the text that may wait while an entity is put in before it. -/
def waitingLimit : Nat := 1000000

/-- Takes characters. If one of them puts in the text of an entity, `expand` goes on with that text
before the rest. -/
def takeWith? (expand : Reader → List Char → Option Reader) : Reader → List Char → Option Reader
  | r, [] => some r
  | r, c :: cs => do
    let r ← r.takeChar? c
    if r.insertion = [] then takeWith? expand r cs
    else if waitingLimit < cs.length then none
    else expand { r with insertion := [] } (r.insertion ++ cs)

/-- Takes characters, and at most `budget` texts of entities before them. -/
def take? : Nat → Reader → List Char → Option Reader
  | 0 => takeWith? fun _ _ => none
  | budget + 1 => takeWith? (take? budget)

/-- Takes the characters of a document. Each may bring in the texts of ten entities, those in other
texts included. -/
def takeAll? : Reader → List Char → Option Reader
  | r, [] => some r
  | r, c :: cs => do takeAll? (← r.take? 10 (← r.encoding.decode? c)) cs

/-- The first root of a document that has been read to its end. -/
def root? (r : Reader) : Option Node :=
  if r.place.isOutside && r.frames.isEmpty && r.scanner.isAtRest then r.roots.getLast? else none

end Reader

/-- The first root element of a document. A byte order mark at its start is skipped, and says that
the document is UTF-8. -/
def Node.parse? (document : String) : Option Node := do
  match document.toList with
  | '\ufeff' :: cs => (← ({ encoding := .utf8 } : Reader).takeAll? cs).root?
  | cs => (← ({} : Reader).takeAll? cs).root?

end Blockwright.Markup
