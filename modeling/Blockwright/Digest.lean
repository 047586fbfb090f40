import Blockwright.Bytes
import Blockwright.Text.Digits

/-!
# The MD5 digest

The MD5 digest of a text in UTF-8, as 32 hexadecimal digits.
-/

namespace Blockwright.Digest

/-- The rotation of each step. -/
def rotations : List UInt32 :=
  let row (rs : List UInt32) : List UInt32 := rs ++ rs ++ rs ++ rs
  row [7, 12, 17, 22] ++ row [5, 9, 14, 20] ++ row [4, 11, 16, 23] ++ row [6, 10, 15, 21]

/-- The constant of each step: the whole part of `2 ^ 32` times the sine of its number, without
sign. -/
def constants : List UInt32 :=
  [ 0xd76aa478, 0xe8c7b756, 0x242070db, 0xc1bdceee, 0xf57c0faf, 0x4787c62a, 0xa8304613, 0xfd469501,
    0x698098d8, 0x8b44f7af, 0xffff5bb1, 0x895cd7be, 0x6b901122, 0xfd987193, 0xa679438e, 0x49b40821,
    0xf61e2562, 0xc040b340, 0x265e5a51, 0xe9b6c7aa, 0xd62f105d, 0x02441453, 0xd8a1e681, 0xe7d3fbc8,
    0x21e1cde6, 0xc33707d6, 0xf4d50d87, 0x455a14ed, 0xa9e3e905, 0xfcefa3f8, 0x676f02d9, 0x8d2a4c8a,
    0xfffa3942, 0x8771f681, 0x6d9d6122, 0xfde5380c, 0xa4beea44, 0x4bdecfa9, 0xf6bb4b60, 0xbebfbc70,
    0x289b7ec6, 0xeaa127fa, 0xd4ef3085, 0x04881d05, 0xd9d4d039, 0xe6db99e5, 0x1fa27cf8, 0xc4ac5665,
    0xf4292244, 0x432aff97, 0xab9423a7, 0xfc93a039, 0x655b59c3, 0x8f0ccc92, 0xffeff47d, 0x85845dd1,
    0x6fa87e4f, 0xfe2ce6e0, 0xa3014314, 0x4e0811a1, 0xf7537e82, 0xbd3af235, 0x2ad7d2bb, 0xeb86d391 ]

/-- The four words that the digest is made of. -/
structure State where
  a : UInt32 := 0x67452301
  b : UInt32 := 0xefcdab89
  c : UInt32 := 0x98badcfe
  d : UInt32 := 0x10325476

/-- A word turned to the left. -/
def rotate (x n : UInt32) : UInt32 := (x <<< n) ||| (x >>> (32 - n))

/-- The mixture of three words in a step, and the word of the block that the step takes in. -/
def mix (s : State) (i : Nat) : UInt32 × Nat :=
  if i < 16 then ((s.b &&& s.c) ||| (~~~ s.b &&& s.d), i)
  else if i < 32 then ((s.d &&& s.b) ||| (~~~ s.d &&& s.c), (5 * i + 1) % 16)
  else if i < 48 then (s.b ^^^ s.c ^^^ s.d, (3 * i + 5) % 16)
  else (s.c ^^^ (s.b ||| ~~~ s.d), (7 * i) % 16)

/-- One step. -/
def step (words : List UInt32) (s : State) (i : Nat) : State :=
  let (f, g) := mix s i
  let sum := f + s.a + constants.getD i 0 + words.getD g 0
  { a := s.d, b := s.b + rotate sum (rotations.getD i 0), c := s.b, d := s.c }

/-- Takes in a block of sixteen words. -/
def absorb (s : State) (words : List UInt32) : State :=
  let t := (List.range 64).foldl (step words) s
  { a := s.a + t.a, b := s.b + t.b, c := s.c + t.c, d := s.d + t.d }

/-- A message with a one bit, zero bits and its length in bits after it, to a multiple of 64 bytes.
-/
def padded (message : List UInt8) : List UInt8 :=
  let zeros := (119 - message.length % 64) % 64
  message ++ 0x80 :: List.replicate zeros 0 ++ Bytes.littleEndian 8 (8 * message.length)

/-- The words that bytes make up, the lowest byte of each first. -/
def words : List UInt8 → List UInt32
  | a :: b :: c :: d :: rest =>
    (a.toUInt32 ||| (b.toUInt32 <<< 8) ||| (c.toUInt32 <<< 16) ||| (d.toUInt32 <<< 24))
      :: words rest
  | _ => []

/-- Takes in words, sixteen at a time. -/
def absorbAll (s : State) : Nat → List UInt32 → State
  | 0, _ => s
  | blocks + 1, ws => absorbAll (absorb s (ws.take 16)) blocks (ws.drop 16)

/-- The sixteen bytes of the digest of a message. -/
def bytes (message : List UInt8) : List UInt8 :=
  let ws := words (padded message)
  let s := absorbAll {} (ws.length / 16) ws
  [s.a, s.b, s.c, s.d].flatMap fun w => Bytes.littleEndian 4 w.toNat

/-- The digest of a text in hexadecimal digits. -/
def md5 (text : String) : String :=
  String.ofList ((bytes text.toUTF8.toList).flatMap fun b => Text.hexByte b.toNat)

end Blockwright.Digest
