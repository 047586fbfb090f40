import Blockwright.Text.Space

/-!
# Final layout of a program text

`finish` removes blank lines at both ends of a text and spaces and tabs at line ends. It works in
three passes, one for each place.
-/

namespace Blockwright.Text

/-- A list cut after its last line feed: the part up to and with that line feed, and the rest. The
first part is empty if there is none. -/
def cutAfterLastLineFeed (cs : List Char) : List Char × List Char :=
  let tail := (cs.reverse.takeWhile (· != '\n')).reverse
  (cs.take (cs.length - tail.length), tail)

/-- Drops the leading run of white space up to its last line feed, unless that line feed is the
first character of the text. -/
def dropLeadingBlank (cs : List Char) : List Char :=
  let (head, tail) := cutAfterLastLineFeed (cs.takeWhile isSpace)
  if 2 ≤ head.length then tail ++ cs.dropWhile isSpace else cs

/-- Drops what follows the first line feed of the trailing run of white space. -/
def dropTrailingBlank (cs : List Char) : List Char :=
  let blank := (cs.reverse.takeWhile isSpace).reverse
  let code := cs.take (cs.length - blank.length)
  match blank.dropWhile (· != '\n') with
  | [] => cs
  | _ :: _ => code ++ blank.takeWhile (· != '\n') ++ ['\n']

/-- Spaces and tabs, the characters dropped at a line end. -/
def isPad (c : Char) : Bool := c == ' ' || c == '\t'

/-- Drops spaces and tabs that stand before a line feed. -/
def dropLinePads : List Char → List Char
  | [] => []
  | c :: cs =>
    let rest := dropLinePads cs
    if isPad c && rest.head? == some '\n' then rest else c :: rest

/-- A program text without blank lines at its ends and without spaces and tabs at line ends. -/
def finish (code : String) : String :=
  String.ofList (dropLinePads (dropTrailingBlank (dropLeadingBlank code.toList)))

end Blockwright.Text
