import Blockwright.Markup.Character

/-!
# Markup tokens

The marks of a document. Which characters are marks depends on the place: `Scanner` keeps it, and
the characters that may still become one mark. `Scanner.scan?` takes one character and gives the
tokens that it completes.
-/

namespace Blockwright.Markup

/-- A character, or a mark of one or more characters. -/
inductive Token
  | char (c : Char)
  /-- A quote of either kind. -/
  | quote (q : Char)
  | equals
  | tagStart
  | endTagStart
  | tagEnd
  | emptyTagEnd
  | instructionStart
  | instructionEnd
  | commentStart
  | commentEnd
  | cdataStart
  | cdataEnd
  | doctypeStart
  | declarationStart
  | referenceStart
  | referenceEnd
deriving DecidableEq, Repr

/-- The characters of a token. -/
def Token.chars : Token → List Char
  | char c => [c]
  | quote q => [q]
  | equals => ['=']
  | tagStart => ['<']
  | endTagStart => ['<', '/']
  | tagEnd => ['>']
  | emptyTagEnd => ['/', '>']
  | instructionStart => ['<', '?']
  | instructionEnd => ['?', '>']
  | commentStart => "<!--".toList
  | commentEnd => "-->".toList
  | cdataStart => "<![CDATA[".toList
  | cdataEnd => "]]>".toList
  | doctypeStart => "<!DOCTYPE".toList
  | declarationStart => ['<', '!']
  | referenceStart => ['&']
  | referenceEnd => [';']

/-- A place with marks of its own. -/
inductive Region
  | content
  | doctype
  | cdata
  | comment
  | instruction
  /-- A declaration in a document type. -/
  | declaration
  /-- A quoted text in such a declaration. -/
  | quoted (q : Char)
deriving DecidableEq, Repr

/-- The beginning of a mark. -/
inductive Beginning
  /-- An opening bracket. -/
  | bracket
  /-- An opening bracket and an exclamation mark. -/
  | bang
  /-- The same with a hyphen. -/
  | bangDash
  /-- The same with a word that is not complete; `rest` is missing, and then `mark` is met. -/
  | word (rest : List Char) (mark : Token)
  /-- A slash in content. -/
  | slash
  /-- Square brackets in content or in plain characters: one, or two. -/
  | square (isDouble : Bool) (region : Region)
  /-- Hyphens in a comment: one, or two. -/
  | dash (isDouble : Bool)
  /-- A question mark in an instruction. -/
  | query
deriving DecidableEq, Repr

/-- Where a document is read: the region, the beginning of a mark that has been met, and whether a
document type has begun and not ended. -/
structure Scanner where
  region : Region := .content
  beginning : Option Beginning := none
  isInDoctype : Bool := false
deriving DecidableEq, Repr

namespace Scanner

/-- The scanner in a region, with no mark begun. -/
def enter (s : Scanner) (region : Region) : Scanner := { s with region, beginning := none }

/-- The scanner in the region that surrounds tags, comments and instructions. -/
def leave (s : Scanner) : Scanner := s.enter (if s.isInDoctype then .doctype else .content)

/-- The scanner after the beginning of a mark. -/
def begin (s : Scanner) (b : Beginning) : Scanner := { s with beginning := some b }

/-- Takes a character in a region, where no mark has begun. -/
def plain? (s : Scanner) (region : Region) (c : Char) : Option (List Token × Scanner) :=
  let s := s.enter region
  let isQuote := c == '"' || c == '\''
  match region with
  | .content =>
    if c = '<' then some ([], s.begin .bracket)
    else if c = '/' then some ([], s.begin .slash)
    else if c = ']' then some ([], s.begin (.square false .content))
    else if c = '>' then some ([.tagEnd], s)
    else if c = '=' then some ([.equals], s)
    else if isQuote then some ([.quote c], s)
    else if c = '&' then some ([.referenceStart], s)
    else if c = ';' then some ([.referenceEnd], s)
    else some ([.char c], s)
  | .doctype =>
    if c = '<' then some ([], s.begin .bracket)
    else if c = '>' then some ([.tagEnd], { region := .content })
    else if isQuote then some ([.quote c], s)
    else if c = '&' then some ([.referenceStart], s)
    else if c = ';' then some ([.referenceEnd], s)
    else some ([.char c], s)
  | .cdata =>
    if c = ']' then some ([], s.begin (.square false .cdata)) else some ([.char c], s)
  | .comment => if c = '-' then some ([], s.begin (.dash false)) else some ([.char c], s)
  | .instruction =>
    if c = '?' then some ([], s.begin .query)
    else if c = '<' then some ([.tagStart], s)
    else if c = '>' then some ([.tagEnd], s)
    else if c = '/' then some ([.endTagStart], s)
    else if c = '=' then some ([.equals], s)
    else if isQuote then some ([.quote c], s)
    else if c = '&' then some ([.referenceStart], s)
    else if c = ';' then some ([.referenceEnd], s)
    else some ([.char c], s)
  | .declaration =>
    if c = '<' then none
    else if c = '>' then some ([.tagEnd], s.leave)
    else if isQuote then some ([.quote c], s.enter (.quoted c))
    else if c = '&' then some ([.referenceStart], s)
    else if c = ';' then some ([.referenceEnd], s)
    else some ([.char c], s)
  | .quoted q =>
    if c = q then some ([.quote c], s.enter .declaration) else some ([.char c], s)

/-- Gives up a beginning: its tokens stand for themselves, and the character is taken as it would be
in the region. -/
def abandon? (s : Scanner) (tokens : List Token) (region : Region) (c : Char) :
    Option (List Token × Scanner) := do
  let (more, s) ← s.plain? region c
  return (tokens ++ more, s)

/-- Takes a character after an opening bracket. -/
def afterBracket? (s : Scanner) (c : Char) : Option (List Token × Scanner) :=
  if c = '?' then some ([.instructionStart], s.enter .instruction)
  else if c = '/' then some ([.endTagStart], s.leave)
  else if c = '!' then some ([], s.begin .bang)
  else if Text.isGap c || isNameChar c then s.abandon? [.tagStart] s.leave.region c
  else none

/-- Takes a character after an opening bracket and an exclamation mark. Declarations stand in
document types only. -/
def afterBang? (s : Scanner) (c : Char) : Option (List Token × Scanner) :=
  if c = '-' then some ([], s.begin .bangDash)
  else if c = '[' then some ([], s.begin (.word "CDATA[".toList .cdataStart))
  else if c = 'D' then some ([], s.begin (.word "OCTYPE".toList .doctypeStart))
  else if s.isInDoctype && (c == 'E' || c == 'A' || c == 'N') then
    s.abandon? [.declarationStart] .declaration c
  else none

/-- Takes a character of a word; after the last one the region changes. -/
def afterWord? (s : Scanner) (rest : List Char) (mark : Token) (c : Char) :
    Option (List Token × Scanner) :=
  match rest with
  | [] => none
  | d :: rest =>
    if c ≠ d then none
    else if rest ≠ [] then some ([], s.begin (.word rest mark))
    else if mark = .cdataStart then some ([mark], s.enter .cdata)
    else some ([mark], { region := .doctype, isInDoctype := true })

/-- Takes a character after square brackets. -/
def afterSquare? (s : Scanner) (isDouble : Bool) (region : Region) (c : Char) :
    Option (List Token × Scanner) :=
  if isDouble then
    if c = '>' then some ([.cdataEnd], s.enter .content)
    else if c = ']' then some ([.char ']'], s)
    else s.abandon? [.char ']', .char ']'] region c
  else if c = ']' then some ([], s.begin (.square true region))
  else s.abandon? [.char ']'] region c

/-- Takes a character after hyphens in a comment. Two hyphens can only end it. -/
def afterDash? (s : Scanner) (isDouble : Bool) (c : Char) : Option (List Token × Scanner) :=
  if isDouble then if c = '>' then some ([.commentEnd], s.leave) else none
  else if c = '-' then some ([], s.begin (.dash true))
  else s.abandon? [.char '-'] .comment c

/-- Takes a character, and gives the tokens that it completes. -/
def scan? (s : Scanner) (c : Char) : Option (List Token × Scanner) :=
  match s.beginning with
  | none => s.plain? s.region c
  | some .bracket => s.afterBracket? c
  | some .bang => s.afterBang? c
  | some .bangDash => if c = '-' then some ([.commentStart], s.enter .comment) else none
  | some (.word rest mark) => s.afterWord? rest mark c
  | some .slash =>
    if c = '>' then some ([.emptyTagEnd], s.leave) else s.abandon? [.char '/'] s.leave.region c
  | some (.square isDouble region) => s.afterSquare? isDouble region c
  | some (.dash isDouble) => s.afterDash? isDouble c
  | some .query =>
    if c = '>' then some ([.instructionEnd], s.leave) else s.abandon? [.char '?'] .instruction c

/-- Whether a document may end here. -/
def isAtRest (s : Scanner) : Bool := s.region == .content && s.beginning.isNone

end Scanner

end Blockwright.Markup
