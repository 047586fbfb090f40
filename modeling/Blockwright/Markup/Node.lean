import Blockwright.Dict

/-!
# Markup trees

The tree of a document: elements with attributes and children, and text.
-/

namespace Blockwright.Markup

/-- A node of a document. Attributes are kept by name. -/
inductive Node
  | element (name : String) (attributes : Dict String) (children : List Node)
  | text (text : String)
  | cdata (text : String)

namespace Node

/-- Whether a node is an element of that name. -/
def isNamed (name : String) : Node → Bool
  | element n _ _ => n == name
  | _ => false

/-- The text of a node; elements have none of their own. -/
def ownText : Node → String
  | element _ _ _ => ""
  | text t => t
  | cdata t => t

/-- Whether a node is text. -/
def isText : Node → Bool
  | text _ => true
  | _ => false

end Node

/-- The text that stands directly among the children of an element. -/
def contentText : List Node → String
  | [] => ""
  | n :: ns => n.ownText ++ contentText ns

end Blockwright.Markup
