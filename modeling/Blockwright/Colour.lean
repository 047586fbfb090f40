import Blockwright.Text.Digits

/-!
# Colours

The hue of a module comes from its name by a hash over the UTF-16 units of the name. A hue is shown
as `#rrggbb` at 60% saturation and 50% lightness, and a colour is read back to its hue.
-/

namespace Blockwright

/-- The UTF-16 units of a character. -/
def utf16Units (c : Char) : List Nat :=
  let n := c.toNat
  if n < 0x10000 then [n]
  else [0xD800 + (n - 0x10000) / 0x400, 0xDC00 + (n - 0x10000) % 0x400]

/-- One step of the hash: thirty-one times the hash and the next unit, where the shift by five works
on the low 32 bits only and the subtraction on 64. -/
def hueStep (hash : Int64) (unit : Nat) : Int64 :=
  Int64.ofNat unit + (hash.toInt32 <<< 5).toInt64 - hash

/-- The hue, from 0 to 359, of a module name. -/
def moduleHue (name : String) : Nat :=
  let hash := (name.toList.flatMap utf16Units).foldl hueStep 0
  (hash % 360).toInt.natAbs

namespace Colour

/-- The smaller of two numbers. -/
def lesser (a b : Float) : Float := if a ≤ b then a else b

/-- The larger of two numbers. -/
def larger (a b : Float) : Float := if a ≤ b then b else a

/-- The remainder of `x` by 12, for `x` from 0 to `12 * turns`. Each subtraction is exact. -/
def wrapTwelve (turns : Nat) (x : Float) : Float :=
  match turns with
  | 0 => x
  | turns + 1 => if x < 12 then x else wrapTwelve turns (x - 12)

/-- The level, from 0 to 255, of the channel that lies `offset` twelfths round the colour wheel. -/
def channel (hue : Nat) (offset : Float) : Nat :=
  let light : Float := 0.5
  let reach : Float := 0.6 * lesser light (1 - light)
  let k := wrapTwelve (hue / 360 + 2) (offset + hue.toFloat / 360 * 12)
  let v := light - reach * larger (lesser (lesser (k - 3) (9 - k)) 1) (-1)
  (lesser (larger (Float.round (255 * v)) 0) 255).toUInt8.toNat

/-- A hue as `#rrggbb`. -/
def ofHue (hue : Nat) : String :=
  String.ofList ('#' :: [channel hue 0, channel hue 8, channel hue 4].flatMap Text.hexByte)

/-- What is left of a text after its first `n` bytes; nothing if they end inside a character. -/
def dropBytes? (n : Nat) : List Char → Option (List Char)
  | [] => if n = 0 then some [] else none
  | c :: cs =>
    if n = 0 then some (c :: cs)
    else if c.utf8Size ≤ n then dropBytes? (n - c.utf8Size) cs
    else none

/-- The first `n` bytes of a text; nothing if they end inside a character. -/
def takeBytes? (n : Nat) : List Char → Option (List Char)
  | [] => if n = 0 then some [] else none
  | c :: cs =>
    if n = 0 then some []
    else if c.utf8Size ≤ n then (takeBytes? (n - c.utf8Size) cs).map (c :: ·)
    else none

/-- The byte written by two hexadecimal digits, or by a plus sign and one. -/
def byte? : List Char → Option Nat
  | ['+', c] => Text.digit? 16 c
  | [a, b] => Text.digits? 16 0 [a, b]
  | _ => none

/-- The level, from 0 to 1, of the channel whose digits start at byte `start`; 0 if there are none.
-/
def level (digits : List Char) (start : Nat) : Float :=
  let found := do byte? (← takeBytes? 2 (← dropBytes? start digits))
  (found.getD 0).toFloat / 255

/-- The hue of a colour `#rrggbb`. Channels that cannot be read count as 0, and grey has hue 0. -/
def hue (colour : String) : Nat :=
  let digits := colour.toList.dropWhile (· == '#')
  let r := level digits 0
  let g := level digits 2
  let b := level digits 4
  let high := larger (larger r g) b
  let low := lesser (lesser r g) b
  if high == low then 0
  else
    let d := high - low
    let h :=
      if high == r then ((g - b) / d + if g < b then 6 else 0) / 6
      else if high == g then ((b - r) / d + 2) / 6
      else ((r - g) / d + 4) / 6
    (Float.round (h * 360)).toUInt16.toNat

end Colour

end Blockwright
