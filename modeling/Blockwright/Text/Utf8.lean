/-!
# UTF-8

Bytes read as UTF-8, character by character. A broken sequence is `none`: as many bytes as could
have begun a character, and at least one.
-/

namespace Blockwright.Text

/-- The number of bytes that follow a lead byte, and the range of the first of them. -/
def utf8Lead? (b : Nat) : Option (Nat × Nat × Nat) :=
  if b < 0xC2 then none
  else if b < 0xE0 then some (1, 0x80, 0xBF)
  else if b = 0xE0 then some (2, 0xA0, 0xBF)
  else if b = 0xED then some (2, 0x80, 0x9F)
  else if b < 0xF0 then some (2, 0x80, 0xBF)
  else if b = 0xF0 then some (3, 0x90, 0xBF)
  else if b < 0xF4 then some (3, 0x80, 0xBF)
  else if b = 0xF4 then some (3, 0x80, 0x8F)
  else none

/-- Reads the bytes that follow a lead byte. `low` and `high` bound the next of them, and `code`
holds the bits so far. -/
def utf8Tail (count low high code : Nat) (bytes : List UInt8) : Option Char × List UInt8 :=
  match count, bytes with
  | 0, _ => (some (Char.ofNat code), bytes)
  | _ + 1, [] => (none, [])
  | count + 1, b :: rest =>
    if low ≤ b.toNat ∧ b.toNat ≤ high then
      utf8Tail count 0x80 0xBF (code * 64 + b.toNat % 64) rest
    else (none, b :: rest)

/-- The characters of a list of bytes, with `none` for each broken sequence. Every step takes a
byte, so their number is fuel enough. -/
def utf8Chars : Nat → List UInt8 → List (Option Char)
  | 0, _ => []
  | _, [] => []
  | fuel + 1, b :: rest =>
    if b.toNat < 0x80 then some (Char.ofNat b.toNat) :: utf8Chars fuel rest
    else
      match utf8Lead? b.toNat with
      | none => none :: utf8Chars fuel rest
      | some (count, low, high) =>
        let code := b.toNat % Nat.pow 2 (6 - count)
        let (c, rest) := utf8Tail count low high code rest
        c :: utf8Chars fuel rest

/-- The text that bytes spell, if no sequence is broken. -/
def ofUtf8? (bytes : List UInt8) : Option String :=
  ((utf8Chars bytes.length bytes).mapM id).map String.ofList

/-- The text that bytes spell, with a replacement character for each broken sequence. -/
def ofUtf8 (bytes : List UInt8) : String :=
  String.ofList ((utf8Chars bytes.length bytes).map fun c => c.getD '�')

/-- The bytes of a text. -/
def toUtf8 (s : String) : List UInt8 := s.toUTF8.toList

end Blockwright.Text
