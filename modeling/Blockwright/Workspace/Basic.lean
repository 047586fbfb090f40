import Blockwright.Fault

/-!
# Workspaces

A workspace holds blocks, numbered in the order of their creation, and the list of those that hang
on no other. The number of a deleted block is not used again. `get?_put` and `get?_drop` say what
the two changes of a single block do.
-/

namespace Blockwright

/-- Blocks by number, and the blocks at the top level. -/
structure Workspace where
  blocks : Array (Option Block) := #[]
  top : List BlockId := []
deriving DecidableEq

namespace Workspace

/-- The workspace without blocks. -/
def empty : Workspace := {}

instance : Inhabited Workspace := ⟨empty⟩

/-- The block of that number, if it is live. -/
def get? (ws : Workspace) (id : BlockId) : Option Block := ws.blocks[id.index]?.join

/-- The block of that number. -/
def get (ws : Workspace) (id : BlockId) : Except Fault Block :=
  match ws.get? id with
  | some b => .ok b
  | none => .error (.missing id)

/-- The workspace with a block in place of the one of that number. -/
def put (ws : Workspace) (id : BlockId) (b : Block) : Workspace :=
  { ws with blocks := ws.blocks.setIfInBounds id.index (some b) }

/-- The workspace without the block of that number. -/
def drop (ws : Workspace) (id : BlockId) : Workspace :=
  { ws with blocks := ws.blocks.setIfInBounds id.index none }

/-- The live blocks by number. -/
def live (ws : Workspace) : List Block := ws.blocks.toList.filterMap id

/-- The number of live blocks. -/
def size (ws : Workspace) : Nat := ws.live.length

/-- The number that the next block gets, and a bound on the number of blocks. -/
def capacity (ws : Workspace) : Nat := ws.blocks.size

/-- What stands at the end of a walk over more links than there are blocks: a live block must have
been met before. -/
def exhausted (ws : Workspace) (id : BlockId) : Fault :=
  match ws.get? id with
  | some _ => .cycle id
  | none => .missing id

/-- The place of a block in the order of stacks: by line, then by column. A block that was never
placed stands at the far end of the canvas. -/
def stackKey (ws : Workspace) (id : BlockId) : Int64 × Int64 :=
  match (ws.get? id).bind Block.position with
  | some p => (p.y, p.x)
  | none => (Int64.maxValue, Int64.maxValue)

/-- The lexicographic order of stack keys. -/
def keyLe (a b : Int64 × Int64) : Bool :=
  a.1 < b.1 || (a.1 == b.1 && a.2 ≤ b.2)

/-- The blocks at the top level in the order of their places; equal places keep the order of the top
list. -/
def topBlocks (ws : Workspace) : List BlockId :=
  ws.top.mergeSort fun a b => keyLe (ws.stackKey a) (ws.stackKey b)

theorem get?_put (ws : Workspace) (id id' : BlockId) (b : Block) (h : id.index < ws.capacity) :
    (ws.put id b).get? id' = if id = id' then some b else ws.get? id' := by
  unfold get? put
  rw [Array.getElem?_setIfInBounds]
  by_cases hid : id = id'
  · subst hid
    have : id.index < ws.blocks.size := h
    simp [this]
  · have : id.index ≠ id'.index := fun e => hid (by cases id; cases id'; simp_all)
    simp [hid, this]

theorem get?_drop (ws : Workspace) (id id' : BlockId) :
    (ws.drop id).get? id' = if id = id' then none else ws.get? id' := by
  unfold get? drop
  rw [Array.getElem?_setIfInBounds]
  by_cases hid : id = id'
  · subst hid
    by_cases h : id.index < ws.blocks.size <;> simp [h]
  · have : id.index ≠ id'.index := fun e => hid (by cases id; cases id'; simp_all)
    simp [hid, this]

theorem capacity_put (ws : Workspace) (id : BlockId) (b : Block) :
    (ws.put id b).capacity = ws.capacity := by
  simp [capacity, put]

theorem capacity_drop (ws : Workspace) (id : BlockId) : (ws.drop id).capacity = ws.capacity := by
  simp [capacity, drop]

end Workspace

end Blockwright
