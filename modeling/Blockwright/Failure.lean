import Blockwright.Fault
import Blockwright.Text.Join

/-!
# Failures

A failure is a cause with the circumstances in which it arose, outermost first.
-/

namespace Blockwright

/-- What a failure comes down to. -/
inductive Cause
  | blocks (fault : Fault)
  /-- A text is not the JSON that is asked for. -/
  | json
  /-- A file cannot be read or written, or a program cannot be started. -/
  | files
  /-- An archive lacks an entry. -/
  | archive
  | message (text : String)
deriving DecidableEq, Repr

/-- The text of a cause, if it has one of its own. -/
def Cause.text? : Cause → Option String
  | blocks (.document .malformed) => none
  | blocks fault => some fault.message
  | json => none
  | files => none
  | archive => none
  | message text => some text

/-- A cause and the circumstances in which it arose. -/
structure Failure where
  contexts : List String := []
  cause : Cause
deriving DecidableEq, Repr

namespace Failure

/-- A failure that is its message. -/
def ofMessage (text : String) : Failure := { cause := .message text }

/-- The failure in a wider circumstance. -/
def inContext (f : Failure) (context : String) : Failure :=
  { f with contexts := context :: f.contexts }

/-- The circumstances and the cause in words; nothing if there are no words for either. -/
def message? (f : Failure) : Option String :=
  match f.contexts ++ f.cause.text?.toList with
  | [] => none
  | parts => some (Text.joinWith ": " parts)

end Failure

/-- A computation that may fail. -/
abbrev Attempt := Except Failure

namespace Attempt

/-- A computation on blocks that may stop with a fault. -/
def ofBlocks {α : Type} (result : Except Fault α) : Attempt α :=
  result.mapError fun fault => { cause := .blocks fault }

/-- A value that is there, or else a failure with that cause. -/
def ofOption {α : Type} (cause : Cause) (value? : Option α) : Attempt α :=
  match value? with
  | some value => .ok value
  | none => .error { cause }

/-- The computation in a wider circumstance. -/
def inContext {α : Type} (context : String) (result : Attempt α) : Attempt α :=
  result.mapError fun f => f.inContext context

end Attempt

end Blockwright
