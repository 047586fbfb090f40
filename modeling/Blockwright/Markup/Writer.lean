import Blockwright.Markup.Node
import Blockwright.Text.Join

/-!
# Writing markup

`Node.render` writes one element on each line, indented by two spaces for each level. An element
that holds only text is written on one line.
-/

namespace Blockwright.Markup

/-- A character of an attribute value. -/
def escapeAttributeChar (c : Char) : List Char :=
  if c = '<' then "&lt;".toList
  else if c = '>' then "&gt;".toList
  else if c = '"' then "&quot;".toList
  else if c = '\'' then "&apos;".toList
  else if c = '&' then "&amp;".toList
  else if c = '\n' then "&#xA;".toList
  else if c = '\r' then "&#xD;".toList
  else [c]

/-- A character of text. -/
def escapeTextChar (c : Char) : List Char :=
  if c = '<' then "&lt;".toList
  else if c = '>' then "&gt;".toList
  else if c = '&' then "&amp;".toList
  else [c]

/-- An attribute value between quotes. -/
def escapeAttribute (s : String) : String := String.ofList (s.toList.flatMap escapeAttributeChar)

/-- Text between tags. -/
def escapeText (s : String) : String := String.ofList (s.toList.flatMap escapeTextChar)

/-- The attributes of a tag by name, each with a blank before it. -/
def writeAttributes : List (String × String) → String
  | [] => ""
  | (name, value) :: rest =>
    " " ++ name ++ "=\"" ++ escapeAttribute value ++ "\"" ++ writeAttributes rest

mutual

/-- A node at a level. -/
def Node.render (depth : Nat) : Node → String
  | .text t => escapeText t
  | .cdata t => "<![CDATA[" ++ t ++ "]]>"
  | .element name attributes children =>
    let tag := name ++ writeAttributes attributes.entries
    if children.isEmpty then "<" ++ tag ++ " />"
    else if children.all Node.isText then
      "<" ++ tag ++ ">" ++ renderInline depth children ++ "</" ++ name ++ ">"
    else
      "<" ++ tag ++ ">" ++ renderLines (depth + 1) children ++ Text.newLine depth ++
        "</" ++ name ++ ">"

/-- Nodes one after the other. -/
def renderInline (depth : Nat) : List Node → String
  | [] => ""
  | n :: ns => n.render depth ++ renderInline depth ns

/-- Nodes, each on a line of its own. -/
def renderLines (depth : Nat) : List Node → String
  | [] => ""
  | n :: ns => Text.newLine depth ++ n.render depth ++ renderLines depth ns

end

end Blockwright.Markup
