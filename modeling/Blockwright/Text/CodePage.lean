/-!
# Code page 437

The bytes of names that are not marked as UTF-8 stand for the characters of code page 437: those of
ASCII, and 128 more.
-/

namespace Blockwright.Text

/-- The characters of the bytes from 128. -/
def codePageUpper : Array Char :=
  (String.join [
    "ÇüéâäàåçêëèïîìÄÅÉæÆôöòûùÿÖÜ¢£¥₧ƒ",
    "áíóúñÑªº¿⌐¬½¼¡«»░▒▓│┤╡╢╖╕╣║╗╝╜╛┐",
    "└┴┬├─┼╞╟╚╔╩╦╠═╬╧╨╤╥╙╘╒╓╫╪┘┌█▄▌▐▀",
    "αßΓπΣσµτΦΘΩδ∞φε∩≡±≥≤⌠⌡÷≈°∙·√ⁿ²■\u00a0" ]).toList.toArray

/-- The character of a byte. -/
def codePageChar (b : UInt8) : Char :=
  if b < 0x80 then Char.ofNat b.toNat else codePageUpper.getD (b.toNat - 0x80) ' '

/-- The text that bytes spell. -/
def ofCodePage (bytes : List UInt8) : String := String.ofList (bytes.map codePageChar)

end Blockwright.Text
