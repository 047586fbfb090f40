/-!
# Deflated data

`inflate?` unpacks data in the DEFLATE format: blocks of plain bytes, or of symbols in a Huffman
code that stand for bytes and for copies of earlier ones. Bits are taken from the lowest of each
byte.
-/

namespace Blockwright.Archive

/-- The bits of bytes, lowest first. -/
def bitsOf (bytes : List UInt8) : List Bool :=
  bytes.flatMap fun b => (List.range 8).map fun i => b.toNat.testBit i

/-- Takes a number of a given width, lowest bit first. -/
def takeNumber? : Nat → List Bool → Option (Nat × List Bool)
  | 0, bits => some (0, bits)
  | _ + 1, [] => none
  | width + 1, bit :: bits => do
    let (n, rest) ← takeNumber? width bits
    return (2 * n + bit.toNat, rest)

/-- Takes numbers of the same width. -/
def takeNumbers? (width : Nat) : Nat → List Bool → Option (List Nat × List Bool)
  | 0, bits => some ([], bits)
  | count + 1, bits => do
    let (n, rest) ← takeNumber? width bits
    let (ns, rest) ← takeNumbers? width count rest
    return (n :: ns, rest)

/-- A Huffman code: the number of symbols of each length from one, and the symbols by length. -/
structure HuffmanCode where
  counts : List Nat
  symbols : Array Nat

namespace HuffmanCode

/-- The code in which each symbol has the given length; symbols of length zero are not used. -/
def ofLengths (lengths : List Nat) : HuffmanCode :=
  let indexed := lengths.zipIdx
  let ofLength (n : Nat) : List Nat := (indexed.filter fun e => e.1 = n).map Prod.snd
  let groups := (List.range 15).map fun i => ofLength (i + 1)
  { counts := groups.map List.length, symbols := groups.flatten.toArray }

/-- Whether the codes fill the room that is there for the first of the lengths, so that every run of
bits begins with one code. -/
def fills : List Nat → Nat → Bool
  | [], room => room == 0
  | count :: counts, room => count ≤ 2 * room && fills counts (2 * room - count)

/-- Whether every run of bits begins with one code. -/
def isComplete (h : HuffmanCode) : Bool := fills h.counts 1

/-- Whether a block may bring the code: it is complete, or it has no symbol, or it has one symbol
of one bit. -/
def isUsable (h : HuffmanCode) : Bool :=
  h.isComplete || h.symbols.size == 0 || (h.symbols.size == 1 && h.counts.head? == some 1)

/-- Takes a symbol. `first` is the first code of the current length, `index` the place of its symbol
and `code` the bits so far. -/
def takeFrom? (symbols : Array Nat) (code first index : Nat) :
    List Nat → List Bool → Option (Nat × List Bool)
  | [], _ => none
  | _ :: _, [] => none
  | count :: counts, bit :: bits =>
    let code := code + bit.toNat
    if code < first + count then (symbols[index + (code - first)]?).map (·, bits)
    else takeFrom? symbols (2 * code) (2 * (first + count)) (index + count) counts bits

/-- Takes a symbol. -/
def take? (h : HuffmanCode) (bits : List Bool) : Option (Nat × List Bool) :=
  takeFrom? h.symbols 0 0 0 h.counts bits

end HuffmanCode

/-- The least length and the number of further bits of each length symbol. -/
def lengthTable : List (Nat × Nat) :=
  [ (3, 0), (4, 0), (5, 0), (6, 0), (7, 0), (8, 0), (9, 0), (10, 0), (11, 1), (13, 1), (15, 1),
    (17, 1), (19, 2), (23, 2), (27, 2), (31, 2), (35, 3), (43, 3), (51, 3), (59, 3), (67, 4),
    (83, 4), (99, 4), (115, 4), (131, 5), (163, 5), (195, 5), (227, 5), (258, 0) ]

/-- The least distance and the number of further bits of each distance symbol. -/
def distanceTable : List (Nat × Nat) :=
  [ (1, 0), (2, 0), (3, 0), (4, 0), (5, 1), (7, 1), (9, 2), (13, 2), (17, 3), (25, 3), (33, 4),
    (49, 4), (65, 5), (97, 5), (129, 6), (193, 6), (257, 7), (385, 7), (513, 8), (769, 8),
    (1025, 9), (1537, 9), (2049, 10), (3073, 10), (4097, 11), (6145, 11), (8193, 12), (12289, 12),
    (16385, 13), (24577, 13) ]

/-- Takes the number that a symbol of a table begins. -/
def takeExtended? (table : List (Nat × Nat)) (symbol : Nat) (bits : List Bool) :
    Option (Nat × List Bool) := do
  let (least, width) ← table[symbol]?
  let (extra, rest) ← takeNumber? width bits
  return (least + extra, rest)

/-- The byte some way back. Zeros stand before the first byte. -/
def byteBack (distance : Nat) (out : Array UInt8) : UInt8 :=
  if out.size < distance then 0 else out.getD (out.size - distance) 0

/-- Copies bytes from some way back, one at a time. -/
def copyBack (distance : Nat) : Nat → Array UInt8 → Array UInt8
  | 0, out => out
  | count + 1, out => copyBack distance count (out.push (byteBack distance out))

/-- Unpacks the symbols of a block. Every symbol takes a bit, so their number is fuel enough. -/
def inflateSymbols? (literals distances : HuffmanCode) :
    Nat → Array UInt8 → List Bool → Option (Array UInt8 × List Bool)
  | 0, _, _ => none
  | fuel + 1, out, bits => do
    let (symbol, bits) ← literals.take? bits
    if symbol < 256 then inflateSymbols? literals distances fuel (out.push symbol.toUInt8) bits
    else if symbol = 256 then some (out, bits)
    else
      let (length, bits) ← takeExtended? lengthTable (symbol - 257) bits
      let (distanceSymbol, bits) ← distances.take? bits
      let (distance, bits) ← takeExtended? distanceTable distanceSymbol bits
      inflateSymbols? literals distances fuel (copyBack distance length out) bits

/-- The fixed code lengths of literals and lengths. -/
def fixedLiterals : List Nat :=
  List.replicate 144 8 ++ List.replicate 112 9 ++ List.replicate 24 7 ++ List.replicate 8 8

/-- The fixed code lengths of distances. -/
def fixedDistances : List Nat := List.replicate 30 5

/-- The order in which the lengths of the code for code lengths are given. -/
def lengthOrder : List Nat := [16, 17, 18, 0, 8, 7, 9, 6, 10, 5, 11, 4, 12, 3, 13, 2, 14, 1, 15]

/-- Takes code lengths, in which runs are written short, until there are `total`. The lengths so far
come last first. -/
def takeLengths? (code : HuffmanCode) (total : Nat) :
    Nat → List Nat → List Bool → Option (List Nat × List Bool)
  | 0, _, _ => none
  | fuel + 1, acc, bits =>
    if total < acc.length then none
    else if acc.length = total then some (acc.reverse, bits)
    else do
      let (symbol, bits) ← code.take? bits
      if symbol < 16 then takeLengths? code total fuel (symbol :: acc) bits
      else if symbol = 16 then
        let previous ← acc.head?
        let (n, bits) ← takeNumber? 2 bits
        takeLengths? code total fuel (List.replicate (n + 3) previous ++ acc) bits
      else if symbol = 17 then
        let (n, bits) ← takeNumber? 3 bits
        takeLengths? code total fuel (List.replicate (n + 3) 0 ++ acc) bits
      else
        let (n, bits) ← takeNumber? 7 bits
        takeLengths? code total fuel (List.replicate (n + 11) 0 ++ acc) bits

/-- Takes the codes of a block that brings its own. There are at most 286 symbols for literals and
lengths, and 30 for distances. -/
def takeCodes? (bits : List Bool) : Option (HuffmanCode × HuffmanCode × List Bool) := do
  let (literalCount, bits) ← takeNumber? 5 bits
  let (distanceCount, bits) ← takeNumber? 5 bits
  let (lengthCount, bits) ← takeNumber? 4 bits
  let literalCount := literalCount + 257
  let distanceCount := distanceCount + 1
  if 286 < literalCount ∨ 30 < distanceCount then none
  else
    let (given, bits) ← takeNumbers? 3 (lengthCount + 4) bits
    let named := lengthOrder.zip given
    let lengthCode := .ofLengths ((List.range 19).map fun i => (named.lookup i).getD 0)
    if !lengthCode.isComplete then none
    else
      let total := literalCount + distanceCount
      let (lengths, bits) ← takeLengths? lengthCode total (total + 1) [] bits
      let literals := .ofLengths (lengths.take literalCount)
      let distances := .ofLengths (lengths.drop literalCount)
      if literals.isUsable && distances.isUsable then some (literals, distances, bits) else none

/-- Unpacks a block of plain bytes, which starts at a whole byte. -/
def inflateStored? (out : Array UInt8) (bits : List Bool) : Option (Array UInt8 × List Bool) := do
  let bits := bits.drop (bits.length % 8)
  let (length, bits) ← takeNumber? 16 bits
  let (complement, bits) ← takeNumber? 16 bits
  if length + complement = 0xFFFF then
    let (bytes, bits) ← takeNumbers? 8 length bits
    return (bytes.foldl (fun out b => out.push b.toUInt8) out, bits)
  else none

/-- Unpacks blocks up to the one that is marked as the last. -/
def inflateBlocks? : Nat → Array UInt8 → List Bool → Option (Array UInt8)
  | 0, _, _ => none
  | fuel + 1, out, bits => do
    let (isLast, bits) ← takeNumber? 1 bits
    let (kind, bits) ← takeNumber? 2 bits
    let (out, bits) ←
      match kind with
      | 0 => inflateStored? out bits
      | 1 =>
        inflateSymbols? (.ofLengths fixedLiterals) (.ofLengths fixedDistances) bits.length out bits
      | 2 => do
        let (literals, distances, bits) ← takeCodes? bits
        inflateSymbols? literals distances bits.length out bits
      | _ => none
    if isLast = 1 then some out else inflateBlocks? fuel out bits

/-- Unpacks deflated data. -/
def inflate? (bytes : List UInt8) : Option (List UInt8) :=
  let bits := bitsOf bytes
  (inflateBlocks? bits.length #[] bits).map Array.toList

end Blockwright.Archive
