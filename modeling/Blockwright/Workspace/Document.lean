import Blockwright.Decimal.Binary64
import Blockwright.Markup.Reader
import Blockwright.Markup.Writer
import Blockwright.Workspace.Edit

/-!
# Workspace documents

A workspace is saved as a Blockly document and loaded from one. Loading does not look at the
registry: blocks of unknown types load, and cannot be compiled.
-/

namespace Blockwright

open Markup

/-- An element with the given attributes. -/
def elementOf (name : String) (attributes : List (String × String)) (children : List Node) : Node :=
  .element name (attributes.foldl (fun d a => d.insert a.1 a.2) Dict.empty) children

namespace Workspace

/-- Whether a slot of a block takes a chain of statements. -/
def isBodySlot (registry : Registry) (b : Block) (slot : String) : Bool :=
  match registry.lookup? b.typeId with
  | none => false
  | some d => ((d.schema.slot? slot).map Slot.kind) = some .body

/-- The elements for the filled slots of a block, given the element of a block. -/
def inputNodes (registry : Registry) (b : Block) (node : BlockId → Except Fault Node) :
    List (String × BlockId) → Except Fault (List Node)
  | [] => .ok []
  | (slot, child) :: rest => do
    let tag := if isBodySlot registry b slot then "statement" else "value"
    let nested ← node child
    return elementOf tag [("name", slot)] [nested] :: (← inputNodes registry b node rest)

/-- The element of the block that follows, given the element of a block. -/
def nextNodes (node : BlockId → Except Fault Node) : Option BlockId → Except Fault (List Node)
  | none => .ok []
  | some next => do return [elementOf "next" [] [← node next]]

/-- The attributes of the element of a block. Only blocks at the top level have a place. -/
def blockAttributes (b : Block) (id : BlockId) (isTop : Bool) : List (String × String) :=
  let place :=
    match isTop, b.position with
    | true, some p => [("x", toString p.x.toInt), ("y", toString p.y.toInt)]
    | _, _ => []
  [("type", b.typeId), ("id", toString id.index)] ++ place

/-- The element of a block with all that hangs on it. A path of links that is longer than the
workspace runs in a circle. -/
def blockNode (registry : Registry) (ws : Workspace) : Nat → Bool → BlockId → Except Fault Node
  | 0, _, id => .error (ws.exhausted id)
  | fuel + 1, isTop, id => do
    let b ← ws.get id
    let node := blockNode registry ws fuel false
    let mutation :=
      match b.mode with
      | .compact => []
      | .expanded => [elementOf "mutation" [("expanded", "true")] []]
    let fields := b.fields.entries.map fun f => elementOf "field" [("name", f.1)] [.text f.2]
    let inputs ← inputNodes registry b node b.inputs.entries
    let next ← nextNodes node b.next
    return elementOf "block" (blockAttributes b id isTop) (mutation ++ fields ++ inputs ++ next)

/-- The elements of stacks. -/
def stackNodes (registry : Registry) (ws : Workspace) : List BlockId → Except Fault (List Node)
  | [] => .ok []
  | root :: roots => do
    let node ← blockNode registry ws ws.capacity true root
    return node :: (← stackNodes registry ws roots)

/-- The tree of a workspace. -/
def toNode (registry : Registry) (ws : Workspace) : Except Fault Node := do
  return elementOf "xml" [] (← stackNodes registry ws ws.topBlocks)

/-- Saves a workspace. -/
def save (registry : Registry) (ws : Workspace) : Except Fault String := do
  return (← toNode registry ws).render 0

/-- The nearest number of the canvas. -/
def clampCoordinate (n : Int) : Int64 :=
  Int64.ofInt (max Int64.minValue.toInt (min Int64.maxValue.toInt n))

/-- A coordinate: the whole number nearest to the number that the attribute spells. -/
def coordinate? (attributes : Dict String) (name : String) : Option Int64 := do
  let x ← Binary64.read? (← attributes.get? name)
  return clampCoordinate x.round

/-- The place that attributes give, if both coordinates can be read. -/
def position? (attributes : Dict String) : Option Position := do
  return { x := ← coordinate? attributes "x", y := ← coordinate? attributes "y" }

/-- Hangs a block that is yet to be loaded, if there is one, on another. -/
def hang (id : BlockId) (link : Link) : Option (Edit BlockId) → Edit Unit
  | some load => do Edit.attach id link (← load)
  | none => pure ()

mutual

/-- Loads the block of an element, with all that hangs on it. -/
def loadBlock : Node → Edit BlockId
  | .element _ attributes children => do
    match attributes.get? "type" with
    | none => throw (.document .untypedBlock)
    | some typeId =>
      let id ← Edit.add typeId
      match position? attributes with
      | some p => Edit.setPosition id p
      | none => pure ()
      loadParts id children
      return id
  | _ => throw (.document .untypedBlock)

/-- Loads the parts of a block: its mode, its fields, and the blocks that hang on it. Of the blocks
in an element for a link the first one counts, or the first shadow block if there is no other. -/
def loadParts (id : BlockId) : List Node → Edit Unit
  | [] => pure ()
  | .element tag attributes children :: rest => do
    let name? := attributes.get? "name"
    if tag = "mutation" then
      if attributes.get? "expanded" = some "true" then
        Edit.alter id fun b => { b with mode := .expanded }
    else if tag = "field" then
      match name? with
      | some name => Edit.setField id name (contentText children)
      | none => pure ()
    else if tag = "value" ∨ tag = "statement" then
      match name? with
      | some name =>
        hang id (.input name) (loadFirst "block" children <|> loadFirst "shadow" children)
      | none => pure ()
    else if tag = "next" then
      hang id .next (loadFirst "block" children <|> loadFirst "shadow" children)
    loadParts id rest
  | _ :: rest => loadParts id rest

/-- Loads the first element of that name. -/
def loadFirst (tag : String) : List Node → Option (Edit BlockId)
  | [] => none
  | n :: ns => if n.isNamed tag then some (loadBlock n) else loadFirst tag ns

end

/-- Loads the blocks among the children of the root. -/
def loadStacks : List Node → Edit Unit
  | [] => pure ()
  | n :: ns => do
    if n.isNamed "block" || n.isNamed "shadow" then
      let _ ← loadBlock n
    loadStacks ns

/-- The workspace of a tree. -/
def ofNode : Node → Except Fault Workspace
  | .element _ _ children =>
    match (loadStacks children).apply .empty with
    | (.ok _, ws) => .ok ws
    | (.error fault, _) => .error fault
  | _ => .ok .empty

/-- Loads a workspace. -/
def load (document : String) : Except Fault Workspace :=
  match Node.parse? document with
  | none => .error (.document .malformed)
  | some root => ofNode root

end Workspace

end Blockwright
