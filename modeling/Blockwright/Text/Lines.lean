import Blockwright.Text.Space
import Blockwright.Text.Join

/-!
# Lines

Two ways to cut a text into lines, and indentation. `cutLines` keeps the line ends, so that the
pieces put together give the text back (`flatten_cutLines`). `lines` drops them.
-/

namespace Blockwright.Text

/-- The pieces of a text, each up to and with its line feed; the last piece may lack one. -/
def cutLines : List Char → List (List Char)
  | [] => []
  | c :: cs =>
    if c = '\n' then [c] :: cutLines cs
    else
      match cutLines cs with
      | [] => [[c]]
      | l :: ls => (c :: l) :: ls

/-- Cutting into lines loses nothing. -/
theorem flatten_cutLines (cs : List Char) : (cutLines cs).flatten = cs := by
  induction cs with
  | nil => rfl
  | cons c cs ih =>
    rw [cutLines]
    split
    · simp [ih]
    · cases h : cutLines cs with
      | nil => rw [h] at ih; simp at ih; simp [ih]
      | cons l ls => rw [h] at ih; simp at ih; simp [ih]

/-- A line without its line end: a line feed, or a carriage return and a line feed. A carriage
return that no line feed follows stays. -/
def dropLineEnd (line : List Char) : List Char :=
  match line.reverse with
  | '\n' :: '\r' :: rest => rest.reverse
  | '\n' :: rest => rest.reverse
  | _ => line

/-- The lines of a text without their ends. A text that ends with a line feed has no empty last
line. -/
def lines (s : String) : List String :=
  (cutLines s.toList).map fun line => String.ofList (dropLineEnd line)

/-- A line with `indent` in front, unless the line is blank. -/
def indentLine (indent line : List Char) : List Char :=
  if line.all isSpace then line else indent ++ line

/-- Every line that is not blank gets `indent` in front. -/
def indentLines (indent code : String) : String :=
  String.ofList ((cutLines code.toList).flatMap (indentLine indent.toList))

end Blockwright.Text
