import Blockwright.Archive.Zip
import Blockwright.Text.CodePage

/-!
# Lines of the directory

The directory of an archive has a line for each entry. Behind its name a line may have fields that
amend it: sizes of 64 bits, another name, a kind of encryption. A field that is cut short ends the
fields; one with wrong contents spoils the line.
-/

namespace Blockwright.Archive

/-- The number of the given width at an offset. -/
def numberAt? (bytes : List UInt8) (offset width : Nat) : Option Nat :=
  let part := (bytes.drop offset).take width
  if part.length = width then some (Bytes.ofLittleEndian part) else none

/-- What the directory says of an entry. -/
structure Line where
  rawName : List UInt8
  name : String
  comment : String
  flags : Nat
  method : Nat
  crc : Nat
  packedSize : Nat
  size : Nat
  offset : Nat
  /-- Whether a field says how the entry is encrypted. -/
  isGuarded : Bool := false

/-- Why the fields of a line are not read on. -/
inductive FieldEnd
  | short
  | wrong
deriving DecidableEq, Repr

/-- Reads the fields of a line, which may change it. -/
abbrev FieldReader := ExceptT FieldEnd (StateM (Line × List UInt8))

namespace FieldReader

/-- The line so far. -/
def line : FieldReader Line := do return (← get).1

/-- Changes the line. -/
def amend (change : Line → Line) : FieldReader Unit := modify fun s => (change s.1, s.2)

/-- Takes bytes. -/
def bytes (count : Nat) : FieldReader (List UInt8) := do
  let (line, rest) ← get
  if rest.length < count then throw .short
  set (line, rest.drop count)
  return rest.take count

/-- Takes a number. -/
def number (width : Nat) : FieldReader Nat := do return Bytes.ofLittleEndian (← bytes width)

/-- Demands that the contents of a field are right. -/
def demand (condition : Bool) : FieldReader Unit := if condition then return () else throw .wrong

/-- The number that says that a field holds the true one. -/
def unknown : Nat := 0xFFFFFFFF

/-- Takes a number of 64 bits, if it is there; gives the number of bytes taken. -/
def wide (isThere : Bool) (change : Nat → Line → Line) : FieldReader Nat := do
  if isThere then
    amend (change (← number 8))
    return 8
  else return 0

/-- The field with numbers of 64 bits. A long one has all three, a short one those that the line
does not know. -/
def wideNumbers (length : Nat) : FieldReader Unit := do
  let isLong : Bool := 24 ≤ length
  let l ← line
  let size ← wide (isLong || l.size == unknown) fun n l => { l with size := n }
  let packed ← wide (isLong || l.packedSize == unknown) fun n l => { l with packedSize := n }
  let offset ← wide (isLong || l.offset == unknown) fun n l => { l with offset := n }
  let taken := size + packed + offset
  demand (taken ≤ length)
  let _ ← bytes (length - taken)

/-- The field with three exact times. -/
def exactTimes (length : Nat) : FieldReader Unit := do
  demand (length == 32)
  let _ ← bytes 4
  demand ((← number 2) == 1)
  demand ((← number 2) == 24)
  let _ ← bytes 24

/-- The field with times in seconds. Its first byte says which are there; a field of one time holds
the first. -/
def times (length : Nat) : FieldReader Unit := do
  let flags ← number 1
  let isSet (i : Nat) : Bool := flags.testBit i
  let count := ((List.range 8).filter isSet).length
  demand (length == 5 || length == 1 + 4 * count)
  demand (flags < 8)
  let _ ← bytes (length - 1)

/-- The field on encryption, which tells how the entry is packed inside. -/
def encryption (length : Nat) : FieldReader Unit := do
  demand (length == 7)
  let version ← number 2
  let vendor ← number 2
  let strength ← number 1
  let method ← number 2
  demand (vendor == 0x4541)
  demand (version == 1 || version == 2)
  demand (1 ≤ strength && strength ≤ 3)
  amend fun l => { l with method, isGuarded := true }

/-- A field with text in UTF-8 that takes the place of another, of which it has the checksum. -/
def replacement (length : Nat) (replaced : Line → List UInt8) :
    FieldReader (List UInt8 × String) := do
  let _ ← bytes 1
  let checksum ← number 4
  demand (5 ≤ length)
  let raw ← bytes (length - 5)
  demand (checksum == (crc (replaced (← line))).toNat)
  match Text.ofUtf8? raw with
  | some text => return (raw, text)
  | none => throw .wrong

/-- Reads one field: its kind, its length and its contents. -/
def field : FieldReader Unit := do
  let kind ← number 2
  let length ← number 2
  match kind with
  | 0x0001 => wideNumbers length
  | 0x000a => exactTimes length
  | 0x5455 => times length
  | 0x9901 => encryption length
  | 0x6375 => do
    let (_, text) ← replacement length fun l => Text.toUtf8 l.comment
    amend fun l => { l with comment := text }
  | 0x7075 => do
    let (raw, text) ← replacement length Line.rawName
    amend fun l => { l with rawName := raw, name := text }
  | _ => do let _ ← bytes length

/-- Reads all fields. Every field takes bytes, so their number is fuel enough. -/
def fields : Nat → FieldReader Unit
  | 0 => return ()
  | fuel + 1 => do
    if (← get).2.isEmpty then return ()
    field
    fields fuel

end FieldReader

namespace Line

/-- The line with the changes of its fields. An encrypted entry has a field that says how. -/
def amended? (l : Line) (bytes : List UInt8) : Option Line :=
  match ((FieldReader.fields bytes.length).run.run (l, bytes)).run with
  | (.error .wrong, _) => none
  | (_, line, _) => if line.method = 99 ∧ !line.isGuarded then none else some line

/-- The text that bytes of a line spell. A flag marks UTF-8. -/
def textOf (flags : Nat) (bytes : List UInt8) : String :=
  if flags.testBit 11 then Text.ofUtf8 bytes else Text.ofCodePage bytes

/-- Reads a line, and gives the offset of what follows it. -/
def readAt? (bytes : List UInt8) (place : Nat) : Option (Line × Nat) := do
  let field (offset width : Nat) : Option Nat := numberAt? bytes (place + offset) width
  if (← field 0 4) = 0x02014b50 then
    let nameLength ← field 28 2
    let fieldsLength ← field 30 2
    let commentLength ← field 32 2
    let rest := bytes.drop (place + 46)
    let next := place + 46 + nameLength + fieldsLength + commentLength
    if bytes.length < next then none
    else
      let flags ← field 8 2
      let rawName := rest.take nameLength
      let comment := (rest.drop (nameLength + fieldsLength)).take commentLength
      let line : Line :=
        { rawName
          name := textOf flags rawName
          comment := textOf flags comment
          flags
          method := ← field 10 2
          crc := ← field 16 4
          packedSize := ← field 20 4
          size := ← field 24 4
          offset := ← field 42 4 }
      let line ← line.amended? ((rest.drop nameLength).take fieldsLength)
      return (line, next)
  else none

end Line

end Blockwright.Archive
