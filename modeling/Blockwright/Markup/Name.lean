import Blockwright.Markup.Token

/-!
# Qualified names

The names of elements and attributes: one part, or two with a colon between them. They are read
token by token.
-/

namespace Blockwright.Markup

/-- A name with an optional qualifier before a colon. -/
structure QName where
  qualifier : Option String
  name : String
deriving DecidableEq, Repr

namespace QName

/-- The qualified name that characters spell. No part is empty. -/
def ofChars? (cs : List Char) : Option QName :=
  let first := cs.takeWhile (· != ':')
  match cs.dropWhile (· != ':') with
  | [] => if first = [] then none else some ⟨none, String.ofList first⟩
  | _ :: rest =>
    if first = [] ∨ rest = [] ∨ ':' ∈ rest then none
    else some ⟨some (String.ofList first), String.ofList rest⟩

/-- What a token does to a name that has begun. -/
inductive Step
  | more (held : List Char)
  | done (name : QName)

/-- Takes a token of a name with the characters `held` so far, last first. White space ends it, and
so do the tokens that `isEnd` picks. A colon stands in a name once, and not at its start. -/
def step? (isEnd : Token → Bool) (held : List Char) (t : Token) : Option Step :=
  let finish := (ofChars? held.reverse).map Step.done
  match t with
  | .char c =>
    if c = ':' then if held ≠ [] ∧ ':' ∉ held then some (.more (c :: held)) else none
    else if continuesName held c then some (.more (c :: held))
    else if Text.isGap c then finish
    else none
  | _ => if isEnd t then finish else none

end QName

end Blockwright.Markup
