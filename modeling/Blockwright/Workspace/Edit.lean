import Blockwright.Arguments
import Blockwright.Registry
import Blockwright.Workspace.Basic

/-!
# Editing a workspace

An edit reads and changes a workspace and may stop with a fault. What it changed before the fault
stays changed.
-/

namespace Blockwright

/-- A change of a workspace that may stop with a fault. -/
abbrev Edit := ExceptT Fault (StateM Workspace)

namespace Edit

/-- The outcome of an edit and the workspace after it. -/
def apply {α : Type} (edit : Edit α) (ws : Workspace) : Except Fault α × Workspace :=
  edit.run.run ws

/-- A computation that changes nothing. -/
def lift {α : Type} (result : Except Fault α) : Edit α :=
  match result with
  | .ok a => pure a
  | .error fault => throw fault

/-- The block of that number. -/
def block (id : BlockId) : Edit Block := do lift ((← get).get id)

/-- Changes a block. -/
def alter (id : BlockId) (f : Block → Block) : Edit Unit := do
  let b ← block id
  modify fun ws => ws.put id (f b)

/-- Adds a block to the end of the top list. -/
def pushTop (id : BlockId) : Edit Unit := modify fun ws => { ws with top := ws.top ++ [id] }

/-- Removes a block from the top list. -/
def dropTop (id : BlockId) : Edit Unit :=
  modify fun ws => { ws with top := ws.top.filter (· ≠ id) }

/-- Creates a block of the given type at the top level. -/
def add (typeId : String) : Edit BlockId := do
  let ws ← get
  let id : BlockId := ⟨ws.capacity⟩
  set { ws with blocks := ws.blocks.push (some { id, typeId }), top := ws.top ++ [id] }
  return id

/-- Sets a literal field. -/
def setField (id : BlockId) (name value : String) : Edit Unit :=
  alter id fun b => { b with fields := b.fields.insert name value }

/-- Puts a block somewhere on the canvas. -/
def setPosition (id : BlockId) (position : Position) : Edit Unit :=
  alter id fun b => { b with position := some position }

/-- Takes a block off the one that it hangs on and puts it at the top level. -/
def detach (id : BlockId) : Edit Unit := do
  match (← block id).parent with
  | none => pure ()
  | some (parent, link) =>
    alter id fun b => { b with parent := none }
    alter parent fun b => b.withoutLink link
    pushTop id

/-- Hangs a block of the top level on another. -/
def attach (parent : BlockId) (link : Link) (child : BlockId) : Edit Unit := do
  let _ ← block child
  alter parent fun b => b.withLink link child
  alter child fun b => { b with parent := some (parent, link) }
  dropTop child

/-- Whether a block is met on the way from `id` up to the top level. The way of a block that is its
own ancestor never ends, and counts as meeting it once it is longer than the workspace. -/
def meetsUpward (ws : Workspace) (child : BlockId) : Nat → BlockId → Except Fault Bool
  | 0, _ => .ok true
  | fuel + 1, id =>
    if id = child then .ok true
    else do
      match (← ws.get id).parent with
      | none => .ok false
      | some (parent, _) => meetsUpward ws child fuel parent

/-- Refuses to hang a block on itself or on a block below it. -/
def ensureAcyclic (parent child : BlockId) : Edit Unit := do
  let ws ← get
  if ← lift (meetsUpward ws child (ws.capacity + 1) parent) then
    throw (.wouldCycle parent child)

/-- The last block of a chain. -/
def chainTail (ws : Workspace) : Nat → BlockId → Except Fault BlockId
  | 0, id => .error (ws.exhausted id)
  | fuel + 1, id => do
    match (← ws.get id).next with
    | none => .ok id
    | some next => chainTail ws fuel next

/-- Whether another block can follow a block. -/
def acceptsNext (registry : Registry) (ws : Workspace) (id : BlockId) : Bool :=
  match ws.get? id with
  | none => false
  | some b =>
    match registry.lookup? b.typeId with
    | none => false
    | some d => d.schema.hasNext && d.schema.shape.fitsStatement

/-- Takes the block at a link off and puts it at the top level. -/
def displace (parent : BlockId) (link : Link) : Edit (Option BlockId) := do
  let displaced := (← block parent).target? link
  alter parent fun b => b.withoutLink link
  match displaced with
  | none => pure ()
  | some old =>
    alter old fun b => { b with parent := none }
    pushTop old
  return displaced

/-- Hangs a displaced chain behind the chain that took its place, if something can follow there. -/
def reattach (registry : Registry) (child old : BlockId) : Edit Unit := do
  let ws ← get
  let tail ← lift (chainTail ws (ws.capacity + 1) child)
  if acceptsNext registry ws tail then
    detach old
    attach tail .next old

/-- What a slot does not take. -/
def misfit? (kind : SlotKind) (shape : Shape) : Option Misfit :=
  match kind with
  | .value => if shape.fitsValue then none else some .noOutput
  | .body => if shape.fitsStatement then none else some .notStatement
  | .literal _ => some .literalSlot

/-- Plugs a block into a slot. A block in a value slot gives way to the top level; a chain in a body
slot is hung behind the new one if something can follow there. -/
def connectInput (registry : Registry) (parent : BlockId) (slot : String) (child : BlockId) :
    Edit Unit := do
  let parentType := (← block parent).typeId
  let childType := (← block child).typeId
  let parentSchema := (← lift (registry.lookup parentType)).schema
  let childSchema := (← lift (registry.lookup childType)).schema
  match parentSchema.slot? slot with
  | none => throw (.unknownSlot parentType slot)
  | some target =>
    match misfit? target.kind childSchema.shape with
    | some misfit => throw (.mismatch parent child slot misfit)
    | none =>
      ensureAcyclic parent child
      detach child
      let displaced ← displace parent (.input slot)
      attach parent (.input slot) child
      match displaced, target.kind with
      | some old, .body => reattach registry child old
      | _, _ => pure ()

/-- Lets a block follow another. A block that followed before is hung behind the new chain if
something can follow there. -/
def connectNext (registry : Registry) (prev child : BlockId) : Edit Unit := do
  let prevType := (← block prev).typeId
  let childType := (← block child).typeId
  if !acceptsNext registry (← get) prev then
    let _ ← lift (registry.lookup prevType)
    throw (.noNext prevType)
  let childSchema := (← lift (registry.lookup childType)).schema
  if !childSchema.shape.fitsStatement then
    throw (.mismatch prev child "next" .notStatement)
  ensureAcyclic prev child
  detach child
  let displaced ← displace prev .next
  attach prev .next child
  match displaced with
  | some old => reattach registry child old
  | none => pure ()

/-- Moves a block, with all that hangs on it, to the top level. -/
def disconnect (id : BlockId) : Edit Unit := do
  detach id
  if id ∉ (← get).top then pushTop id

/-- Drops the pending blocks and all that hangs on them. Each step uses up a pending block or a link
of a live one, so the number of both together is fuel enough. -/
def prune (ws : Workspace) : Nat → List BlockId → Workspace
  | 0, _ => ws
  | _, [] => ws
  | fuel + 1, id :: pending =>
    match ws.get? id with
    | none => prune ws fuel pending
    | some b => prune (ws.drop id) fuel (b.children ++ pending)

/-- The number of links of all live blocks. -/
def linkCount (ws : Workspace) : Nat := (ws.live.flatMap Block.children).length

/-- Deletes a block and all that hangs on it. -/
def delete (id : BlockId) : Edit Unit := do
  detach id
  dropTop id
  modify fun ws => prune ws (linkCount ws + 1) [id]

/-- The text of a field, unless it is missing or blank. -/
def writtenField? (b : Block) (name : String) : Option String :=
  (b.fields.get? name).filter fun text => !Text.isBlank text

/-- The fields of a call with one field for each of the values, from the given index. -/
def insertExpanded (fields : Dict String) (index : Nat) : List String → Dict String
  | [] => fields
  | value :: values => insertExpanded (fields.insert (expandedField index) value) (index + 1) values

/-- The fields of a call without the fields for single arguments. -/
def eraseExpanded (fields : Dict String) (count : Nat) : Dict String :=
  (List.range count).foldl (fun fields index => fields.erase (expandedField index)) fields

/-- A call with its argument text cut up into one field for each parameter. -/
def expandArguments (params : List String) (b : Block) : Block :=
  let text := (writtenField? b argsField).getD (Text.joinWith ", " params)
  { b with
    mode := .expanded
    fields := insertExpanded (b.fields.erase argsField) 0 (Arguments.expand text params) }

/-- The arguments of a call that is shown with one field for each: the field, or the parameter's
name if it is missing or blank. -/
def expandedValues (params : List String) (b : Block) : List String :=
  params.mapIdx fun index param => (writtenField? b (expandedField index)).getD param

/-- A call with the fields for its parameters put together in one text. -/
def compactArguments (params : List String) (b : Block) : Block :=
  let text := Arguments.compact (expandedValues params b)
  { b with
    mode := .compact
    fields := (eraseExpanded b.fields params.length).insert argsField text }

/-- Switches a call between its two ways to show arguments. -/
def toggleArguments (registry : Registry) (id : BlockId) : Edit ArgMode := do
  let b ← block id
  let definition ← lift (registry.lookup b.typeId)
  match definition.callRule? with
  | none => throw (.notToggleable b.typeId)
  | some call =>
    if call.params.isEmpty then throw (.notToggleable b.typeId)
    let b' :=
      match b.mode with
      | .compact => expandArguments call.params b
      | .expanded => compactArguments call.params b
    modify fun ws => ws.put id b'
    return b'.mode

end Edit

end Blockwright
