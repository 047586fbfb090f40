import Blockwright.Bytes
import Blockwright.Text.Utf8

/-!
# Archives

An archive is a list of named entries. `Archive.toBytes` writes it in the ZIP format, with its
entries stored and not deflated.
-/

namespace Blockwright

namespace Archive

/-- The checksum of a byte added to a checksum, bit by bit. -/
def crcByte (crc : UInt32) (b : UInt8) : UInt32 :=
  let shift (x : UInt32) (_ : Nat) : UInt32 :=
    if x &&& 1 = 1 then (x >>> 1) ^^^ 0xEDB88320 else x >>> 1
  (List.range 8).foldl shift (crc ^^^ b.toUInt32)

/-- The checksum of bytes. -/
def crc (bytes : List UInt8) : UInt32 := ~~~ (bytes.foldl crcByte 0xFFFFFFFF)

/-- Numbers, each given with its width. -/
def record (numbers : List (Nat × Nat)) : List UInt8 :=
  numbers.flatMap fun (width, n) => Bytes.littleEndian width n

/-- What stands in an archive under a name. -/
inductive Content
  | data (bytes : List UInt8)
  /-- The entry can be found, but not read to its end. -/
  | damaged
  /-- The entry cannot be opened. -/
  | closed
deriving DecidableEq, Repr

/-- An entry of an archive. -/
structure Entry where
  name : String
  content : Content
deriving DecidableEq, Repr

end Archive

/-- Named entries in order. -/
abbrev Archive := List Archive.Entry

namespace Archive

/-- The content of an entry; of two entries of one name the last counts. -/
def find? (a : Archive) (name : String) : Option Content :=
  (a.reverse.find? fun e => e.name = name).map Entry.content

/-- An entry with text. -/
def textEntry (name text : String) : Entry := { name, content := .data (Text.toUtf8 text) }

/-- The bytes of an entry. -/
def Entry.bytes (e : Entry) : List UInt8 :=
  match e.content with
  | .data bytes => bytes
  | _ => []

/-- The flags of an entry. One marks a name with characters beyond ASCII as UTF-8. -/
def Entry.flags (e : Entry) : Nat :=
  if e.name.toList.all fun c => c.toNat < 0x80 then 0 else Nat.pow 2 11

/-- The part of a header that stands both before an entry and in the directory. -/
def Entry.header (e : Entry) : List (Nat × Nat) :=
  let size := e.bytes.length
  [ (2, 20), (2, e.flags), (2, 0), (2, 0), (2, 0x21), (4, (crc e.bytes).toNat), (4, size),
    (4, size), (2, (Text.toUtf8 e.name).length), (2, 0) ]

/-- An entry with its header. -/
def Entry.localRecord (e : Entry) : List UInt8 :=
  record ((4, 0x04034b50) :: e.header) ++ Text.toUtf8 e.name ++ e.bytes

/-- The line of the directory for an entry at an offset. -/
def Entry.directoryRecord (e : Entry) (offset : Nat) : List UInt8 :=
  record ([(4, 0x02014b50), (2, 20)] ++ e.header ++ [(2, 0), (2, 0), (2, 0), (4, 0), (4, offset)])
  ++ Text.toUtf8 e.name

/-- The directory of entries that start at an offset. -/
def directory : Archive → Nat → List UInt8
  | [], _ => []
  | e :: es, offset => e.directoryRecord offset ++ directory es (offset + e.localRecord.length)

/-- The record at the end of an archive. -/
def endRecord (count size offset : Nat) : List UInt8 :=
  record [(4, 0x06054b50), (2, 0), (2, 0), (2, count), (2, count), (4, size), (4, offset), (2, 0)]

/-- Writes an archive. Every entry is stored as it is, by the method with number 0: nothing is
compressed, and the sizes before and after compression agree. A reader finds the entries that it finds
in an archive with deflated entries, but the bytes of the two differ. -/
def toBytes (a : Archive) : List UInt8 :=
  let entries := a.flatMap Entry.localRecord
  let lines := directory a 0
  entries ++ lines ++ endRecord a.length lines.length entries.length

end Archive

end Blockwright
