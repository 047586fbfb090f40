import Blockwright.Markup.Token

/-!
# Document types

A document type declares entities: names that stand for text. Of its other declarations only the
marks matter. `Doctype.step?` takes one token.
-/

namespace Blockwright.Markup

/-- Texts by the names that stand for them. The name of a parameter begins with a percent sign. -/
abbrev Entities := List (List Char × List Char)

/-- Declares an entity. The first declaration of a name counts. -/
def Entities.declare (es : Entities) (name text : List Char) : Entities :=
  if (es.lookup name).isSome then es else es ++ [(name, text)]

namespace Doctype

/-- A place in a document type. Names and texts that have begun come last character first. -/
inductive Place
  | outside
  | quoted (q : Char)
  | comment
  /-- The word that tells the kind of a declaration. -/
  | kind (word : List Char)
  | beforeName
  | beforeParameter
  | name (name : List Char)
  | beforeValue (name : List Char)
  | value (name : List Char) (q : Char) (text : List Char)
  /-- An ampersand in a value. -/
  | ampersand (name : List Char) (q : Char) (text : List Char)
  /-- A reference by code in a value. -/
  | code (name : List Char) (q : Char) (text digits : List Char)
  /-- A reference to a parameter in a value. -/
  | innerParameter (name : List Char) (q : Char) (text parameter : List Char)
  /-- A reference to a parameter between declarations. -/
  | parameter (parameter : List Char)
  /-- The rest of a declaration. -/
  | rest
  | ended

end Doctype

/-- A document type that has been read in part: the entities so far, and text to be read before all
that follows. -/
structure Doctype where
  place : Doctype.Place := .outside
  entities : Entities := []
  insertion : List Char := []

namespace Doctype

/-- The document type at another place. -/
def moveTo (d : Doctype) (place : Place) : Doctype := { d with place }

/-- Declares an entity; then the rest of the declaration is skipped. -/
def declare (d : Doctype) (name text : List Char) : Doctype :=
  { d with place := .rest, entities := d.entities.declare name.reverse text }

/-- The text of a parameter. -/
def parameter? (d : Doctype) (name : List Char) : Option (List Char) :=
  d.entities.lookup ('%' :: name.reverse)

/-- Takes a token between declarations. -/
def outside? (d : Doctype) : Token → Option Doctype
  | .tagEnd => some (d.moveTo .ended)
  | .declarationStart => some (d.moveTo (.kind []))
  | .commentStart => some (d.moveTo .comment)
  | .quote q => some (d.moveTo (.quoted q))
  | .cdataStart => none
  | .cdataEnd => none
  | .char c => some (if c = '%' then d.moveTo (.parameter []) else d)
  | _ => some d

/-- Takes a character of the word that tells the kind of a declaration. -/
def kind? (d : Doctype) (word : List Char) (c : Char) : Option Doctype :=
  if 'A' ≤ c ∧ c ≤ 'Z' then some (d.moveTo (.kind (c :: word)))
  else if Text.isGap c then
    let kind := String.ofList word.reverse
    if kind = "ENTITY" then some (d.moveTo .beforeName)
    else if kind = "NOTATION" ∨ kind = "ELEMENT" ∨ kind = "ATTLIST" then some (d.moveTo .rest)
    else none
  else none

/-- Takes a character before the value of an entity. The value of an external entity is not known
and counts as empty. -/
def beforeValue? (d : Doctype) (name : List Char) : Token → Option Doctype
  | .quote q => some (d.moveTo (.value name q []))
  | .char c =>
    if Text.isGap c then some d
    else if c = 'S' ∨ c = 'P' then some (d.declare name [])
    else none
  | _ => none

/-- Takes a token of the value of an entity. -/
def value? (edition : Edition) (d : Doctype) (name : List Char) (q : Char) (text : List Char) :
    Token → Option Doctype
  | .quote c => if c = q then some (d.declare name text.reverse) else none
  | .referenceStart => some (d.moveTo (.ampersand name q text))
  | .char c =>
    if c = '&' then some (d.moveTo (.ampersand name q text))
    else if c = '%' then some (d.moveTo (.innerParameter name q text []))
    else if edition.isAllowed c.toNat then some (d.moveTo (.value name q (c :: text)))
    else none
  | _ => none

/-- Takes a character of a reference by code. -/
def code? (edition : Edition) (d : Doctype) (name : List Char) (q : Char)
    (text digits : List Char) (c : Char) : Option Doctype :=
  if c = ';' then (coded? edition digits.reverse).map fun r => d.moveTo (.value name q (r :: text))
  else if edition.isAllowed c.toNat then some (d.moveTo (.code name q text (c :: digits)))
  else none

/-- Takes a character of a reference to a parameter in a value. -/
def innerParameter? (d : Doctype) (name : List Char) (q : Char) (text parameter : List Char)
    (c : Char) : Option Doctype :=
  if c = ';' then
    (d.parameter? parameter).map fun value => d.moveTo (.value name q (value.reverse ++ text))
  else if continuesName parameter c then
    some (d.moveTo (.innerParameter name q text (c :: parameter)))
  else none

/-- Takes a character of a reference to a parameter between declarations. Its text is read in its
place. -/
def outerParameter? (d : Doctype) (parameter : List Char) (c : Char) : Option Doctype :=
  if c = ';' then
    (d.parameter? parameter).map fun value => { d with place := .outside, insertion := value }
  else if continuesName parameter c then some (d.moveTo (.parameter (c :: parameter)))
  else none

/-- The character of a token which stands for one in references; a semicolon is marked. -/
def referenceChar? : Token → Option Char
  | .char c => some c
  | .referenceEnd => some ';'
  | _ => none

/-- Takes a character where a name is expected or has begun. -/
def name? (d : Doctype) (name : List Char) (c : Char) : Option Doctype :=
  if isNameChar c then some (d.moveTo (.name (c :: name)))
  else if Text.isGap c then some (d.moveTo (.beforeValue name))
  else none

/-- Takes a token. -/
def step? (edition : Edition) (d : Doctype) (t : Token) : Option Doctype :=
  match d.place with
  | .outside => d.outside? t
  | .quoted q => some (if t = .quote q then d.moveTo .outside else d)
  | .comment => some (if t = .commentEnd then d.moveTo .outside else d)
  | .rest => some (if t = .tagEnd then d.moveTo .outside else d)
  | .beforeValue name => d.beforeValue? name t
  | .value name q text => d.value? edition name q text t
  | .code name q text digits => do d.code? edition name q text digits (← referenceChar? t)
  | .innerParameter name q text parameter => do
    d.innerParameter? name q text parameter (← referenceChar? t)
  | .parameter parameter => do d.outerParameter? parameter (← referenceChar? t)
  | place =>
    match place, t with
    | .kind word, .char c => d.kind? word c
    | .name name, .char c => d.name? name c
    | .beforeName, .char c =>
      if Text.isGap c then some d
      else if c = '%' then some (d.moveTo .beforeParameter)
      else if isNameStart c then some (d.moveTo (.name [c]))
      else none
    | .beforeParameter, .char c =>
      if Text.isGap c then some d
      else if isNameStart c then some (d.moveTo (.name [c, '%']))
      else none
    | .ampersand name q text, .char c =>
      if c = '#' then some (d.moveTo (.code name q text []))
      else if edition.isAllowed c.toNat then some (d.moveTo (.value name q (c :: '&' :: text)))
      else none
    | _, _ => none

end Doctype

end Blockwright.Markup
