import Blockwright.Archive.Inflate
import Blockwright.Archive.Line

/-!
# Reading archives

`Archive.ofBytes?` reads an archive in the ZIP format. The record at its end says where the
directory is; other bytes may stand before the archive and after it. The last such record that leads
to a directory counts.
-/

namespace Blockwright.Archive

/-- Adds the offsets at which a mark stands to those of earlier ones, last first. -/
def occurrencesFrom (mark : List UInt8) (offset : Nat) (acc : List Nat) : List UInt8 → List Nat
  | [] => acc
  | b :: bytes =>
    occurrencesFrom mark (offset + 1)
      (if mark.isPrefixOf (b :: bytes) then offset :: acc else acc) bytes

/-- The offsets at which a mark stands, last first. -/
def occurrences (mark bytes : List UInt8) : List Nat := occurrencesFrom mark 0 [] bytes

/-- The offsets from `low` at which a mark stands that ends by `high`, first one first. -/
def occurrencesWithin (mark bytes : List UInt8) (low high : Nat) : List Nat :=
  ((occurrences mark bytes).filter fun p => low ≤ p ∧ p + mark.length ≤ high).reverse

/-- Where the directory is, with the number of its lines. Offsets in the archive count from
`shift`. -/
structure Location where
  start : Nat
  shift : Nat
  count : Nat

namespace Location

/-- The location that a record at the end gives. The directory may stand later than the record says,
by the bytes before the archive. -/
def ofEnd? (bytes : List UInt8) (ending : Nat) : Option Location := do
  let field (offset width : Nat) : Option Nat := numberAt? bytes (ending + offset) width
  let disk ← field 4 2
  let directoryDisk ← field 6 2
  let count ← field 8 2
  let total ← field 10 2
  let start ← field 16 4
  if disk ≠ directoryDisk then none
  else if total = 0 then
    let shift := ending - start
    return { start := start + shift, shift, count }
  else
    let found ← (occurrencesWithin (Bytes.littleEndian 4 0x02014b50) bytes start ending).head?
    return { start := found, shift := found - start, count }

/-- The location that a wide record gives, which stands at an offset and ends where the locator
begins. `given` is the offset in the archive, and `locatorDisk` the disk of the directory. -/
def ofWideRecord? (bytes : List UInt8) (place given locator locatorDisk : Nat) :
    Option (Option Location) := do
  let field (offset width : Nat) : Option Nat := numberAt? bytes (place + offset) width
  let length ← field 4 8
  let made ← field 12 2
  let needed ← field 14 2
  let disk ← field 16 4
  let directoryDisk ← field 20 4
  let count ← field 24 8
  let total ← field 32 8
  let start ← field 48 8
  if length < 44 ∨ length + 12 ≠ locator - place ∨ directoryDisk ≠ locatorDisk
      ∨ place < total * 46 + start then none
  else if total < count ∨ made < needed ∨ disk ≠ directoryDisk then some none
  else
    let shift := place - given
    some (some { start := start + shift, shift, count := total })

/-- The location that the wide record gives to which a locator leads. -/
def ofLocator? (bytes : List UInt8) (locator : Nat) : Option Location := do
  let disk ← numberAt? bytes (locator + 4) 4
  let given ← numberAt? bytes (locator + 8) 8
  let disks ← numberAt? bytes (locator + 16) 4
  if locator ≤ given ∨ 1 < disks then none
  else
    ((occurrencesWithin (Bytes.littleEndian 4 0x06064b50) bytes given locator).findSome? fun place =>
      ofWideRecord? bytes place given locator disk).join

/-- The location that the record at an offset leads to. The record itself and its comment are within
the bytes. One that does not know its numbers has a locator before it. -/
def at? (bytes : List UInt8) (ending : Nat) : Option Location := do
  let total ← numberAt? bytes (ending + 10) 2
  let start ← numberAt? bytes (ending + 16) 4
  let comment ← numberAt? bytes (ending + 20) 2
  if bytes.length < ending + 22 + comment then none
  else if (total = 0xFFFF ∨ start = 0xFFFFFFFF) ∧ 20 ≤ ending
      ∧ numberAt? bytes (ending - 20) 4 = some 0x07064b50 then
    ofLocator? bytes (ending - 20)
  else ofEnd? bytes ending

end Location

/-- Reads lines of a directory. Entries stand before it. -/
def readLines? (bytes : List UInt8) (l : Location) : Nat → Nat → Option (List Line)
  | 0, _ => some []
  | count + 1, place => do
    let (line, next) ← Line.readAt? bytes place
    let line := { line with offset := line.offset + l.shift }
    if line.offset < l.start then return line :: (← readLines? bytes l count next) else none

/-- The bytes of an entry before unpacking; nothing if its header is not where it should be. -/
def packed? (bytes : List UInt8) (line : Line) : Option (List UInt8) := do
  if (← numberAt? bytes line.offset 4) = 0x04034b50 then
    let nameLength ← numberAt? bytes (line.offset + 26) 2
    let fieldsLength ← numberAt? bytes (line.offset + 28) 2
    return (bytes.drop (line.offset + 30 + nameLength + fieldsLength)).take line.packedSize
  else none

/-- Bytes that agree with the checksum of the directory. -/
def checked (line : Line) (bytes : Option (List UInt8)) : Content :=
  match bytes with
  | some bytes => if (crc bytes).toNat = line.crc then .data bytes else .damaged
  | none => .damaged

/-- Reads an entry. Entries that are encrypted or packed in another way cannot be opened. -/
def readContent (bytes : List UInt8) (line : Line) : Content :=
  match packed? bytes line with
  | none => .closed
  | some packed =>
    if line.flags.testBit 0 ∨ line.isGuarded then .closed
    else
      match line.method with
      | 0 => checked line (some packed)
      | 8 => checked line (inflate? packed)
      | _ => .closed

/-- Reads the archive whose last record stands at an offset. -/
def readAt? (bytes : List UInt8) (ending : Nat) : Option Archive := do
  let location ← Location.at? bytes ending
  let lines ← readLines? bytes location location.count location.start
  return lines.map fun line => { name := line.name, content := readContent bytes line }

/-- Reads an archive. -/
def ofBytes? (bytes : List UInt8) : Option Archive :=
  (occurrences (Bytes.littleEndian 4 0x06054b50) bytes).findSome? (readAt? bytes)

end Blockwright.Archive
