import Blockwright.Interpreter
import Blockwright.Script.Command
import Blockwright.Text.Join

/-!
# Running a script

A script has parameters and files to read. It prints, takes time and ends: of itself, by a signal,
or when its time is over. `Process.run` follows the command, so it always ends.
-/

namespace Blockwright.Script

/-- What is known of a running script. -/
structure Process where
  name : String
  arguments : List String
  /-- The files that it can read. -/
  file? : String → Option (List UInt8)
  /-- The milliseconds that it may take. -/
  limit : Nat
  milliseconds : Nat := 0
  /-- Where the two outputs go. -/
  out : Option Stream := some .out
  err : Option Stream := some .err
  stdout : List UInt8 := []
  stderr : List UInt8 := []
  /-- The status of the last command. -/
  status : Nat := 0
  hasEnded : Bool := false
  /-- Whether a signal has ended it. -/
  isKilled : Bool := false

/-- The number by which a script knows itself. -/
def ownNumber : String := "4242"

namespace Process

/-- Whether no further command runs. -/
def isOver (p : Process) : Bool := p.hasEnded || decide (p.limit ≤ p.milliseconds)

def withStatus (status : Nat) (p : Process) : Process := { p with status }

/-- Adds bytes to where an output goes. -/
def write (target : Option Stream) (bytes : List UInt8) (p : Process) : Process :=
  match target with
  | some .out => { p with stdout := p.stdout ++ bytes }
  | some .err => { p with stderr := p.stderr ++ bytes }
  | none => p

def print (bytes : List UInt8) (p : Process) : Process := p.write p.out bytes

def complain (text : String) (p : Process) : Process := p.write p.err (Text.toUtf8 text)

/-- Redirects outputs, one after the other. -/
def redirect (rs : List Redirection) (p : Process) : Process :=
  rs.foldl
    (fun p r =>
      let target :=
        match r.target with
        | some .out => p.out
        | some .err => p.err
        | none => none
      match r.source with
      | .out => { p with out := target }
      | .err => { p with err := target })
    p

/-- Runs something with outputs redirected. -/
def redirecting (rs : List Redirection) (action : Process → Process) (p : Process) : Process :=
  { action (p.redirect rs) with out := p.out, err := p.err }

/-- The values of a parameter. Only `@` has more than one. -/
def values (p : Process) (parameter : String) : List String :=
  match parameter with
  | "#" => [toString p.arguments.length]
  | "$" => [ownNumber]
  | "?" => [toString p.status]
  | "@" => p.arguments
  | "*" => [Text.joinWith " " p.arguments]
  | _ =>
    match Text.digits? 10 0 parameter.toList with
    | some 0 => [p.name]
    | some (n + 1) => [p.arguments.getD n ""]
    | none => [""]

end Process

/-! ### Words -/

/-- Splits at white space. -/
def blankPieces (cs : List Char) : List (List Char) :=
  (cs.foldr
    (fun c pieces =>
      if c = ' ' ∨ c = '\t' ∨ c = '\n' then [] :: pieces
      else
        match pieces with
        | [] => [[c]]
        | piece :: rest => (c :: piece) :: rest)
    [[]]).filter (· ≠ [])

/-- Fields that are complete, and the one under way. -/
structure Fields where
  complete : List String := []
  current : Option String := none

namespace Fields

def extend (f : Fields) (text : String) : Fields :=
  { f with current := some (f.current.getD "" ++ text) }

/-- Adds texts, of which the first continues the field under way and the last stays open. -/
def extendAll (f : Fields) : List String → Fields
  | [] => f
  | [text] => f.extend text
  | text :: rest => extendAll ⟨(f.complete ++ [f.current.getD "" ++ text]), none⟩ rest

def toList (f : Fields) : List String := f.complete ++ f.current.toList

end Fields

/-- The fields that a word stands for. A parameter outside quotes is split at white space. -/
def Process.fields (p : Process) (w : Word) : List String :=
  (w.foldl
    (fun (f : Fields) part =>
      match part with
      | .text chars _ => f.extend (String.ofList chars)
      | .parameter name true => f.extendAll (p.values name)
      | .parameter name false =>
        f.extendAll ((p.values name).flatMap fun v => (blankPieces v.toList).map String.ofList))
    {}).toList

/-- The text that a word stands for. -/
def Process.textOf (p : Process) (w : Word) : String := Text.joinWith " " (p.fields w)

/-- The characters of a pattern, each with whether it stands for itself only. -/
def Process.pattern (p : Process) (w : Word) : List (Char × Bool) :=
  w.flatMap fun part =>
    match part with
    | .text chars isQuoted => chars.map (·, isQuoted)
    | .parameter name isQuoted => (p.textOf [.parameter name true]).toList.map (·, isQuoted)

/-- Whether a pattern matches a whole text. A star stands for any characters, a question mark for
one. -/
def isMatch : List (Char × Bool) → List Char → Bool
  | [], cs => cs.isEmpty
  | ('*', false) :: ps, cs => (List.range (cs.length + 1)).any fun n => isMatch ps (cs.drop n)
  | ('?', false) :: ps, cs => !cs.isEmpty && isMatch ps cs.tail
  | (c, _) :: ps, cs => cs.head? == some c && isMatch ps cs.tail

/-! ### Programs -/

/-- The byte that a letter after a backslash stands for. -/
def escapeByte? (c : Char) : Option UInt8 :=
  match c with
  | 'a' => some 7
  | 'b' => some 8
  | 't' => some 9
  | 'n' => some 10
  | 'v' => some 11
  | 'f' => some 12
  | 'r' => some 13
  | '\\' => some 92
  | _ => none

/-- Reads a byte in at most three octal digits. -/
def readOctal (cs : List Char) : UInt8 × List Char :=
  let digits := (cs.take 3).takeWhile fun c => (Text.digit? 8 c).isSome
  (((Text.digits? 8 0 digits).getD 0).toUInt8, cs.drop digits.length)

/-- Reads what follows a backslash. One that means nothing stands for itself. -/
def readEscape (cs : List Char) : UInt8 × List Char :=
  match cs with
  | [] => (92, [])
  | c :: rest =>
    match escapeByte? c with
    | some b => (b, rest)
    | none => if (Text.digit? 8 c).isSome then readOctal cs else (92, cs)

/-- The bytes of a text with escapes, and whether it goes on to its end: `\c` stops it. A zero may
stand before octal digits. -/
def unescape : Nat → List Char → List UInt8 × Bool
  | 0, _ => ([], true)
  | _ + 1, [] => ([], true)
  | fuel + 1, c :: cs =>
    if c = '\\' then
      if cs.head? = some 'c' then ([], false)
      else
        let (b, rest) := if cs.head? = some '0' then readOctal cs.tail else readEscape cs
        let (bytes, isWhole) := unescape fuel rest
        (b :: bytes, isWhole)
    else
      let (bytes, isWhole) := unescape fuel cs
      (Text.toUtf8 (String.singleton c) ++ bytes, isWhole)

/-- Formats arguments once; the bytes and the arguments that are left. -/
def formatOnce : Nat → List Char → List String → List UInt8 × List String
  | 0, _, arguments => ([], arguments)
  | _ + 1, [], arguments => ([], arguments)
  | fuel + 1, c :: cs, arguments =>
    let onward (bytes : List UInt8) (rest : List Char) (left : List String) :
        List UInt8 × List String :=
      let (more, left) := formatOnce fuel rest left
      (bytes ++ more, left)
    if c = '\\' then
      let (b, rest) := readEscape cs
      onward [b] rest arguments
    else if c = '%' then
      let argument := arguments.headD ""
      match cs with
      | '%' :: rest => onward [37] rest arguments
      | 's' :: rest => onward (Text.toUtf8 argument) rest arguments.tail
      | 'b' :: rest =>
        onward (unescape argument.length argument.toList).1 rest arguments.tail
      | 'd' :: rest =>
        onward (Text.toUtf8 (if argument = "" then "0" else argument)) rest arguments.tail
      | _ => onward [37] cs arguments
    else onward (Text.toUtf8 (String.singleton c)) cs arguments

/-- Formats arguments, again from the start of the format as long as some are left. -/
def formatAll (format : List Char) : Nat → List String → List UInt8
  | 0, _ => []
  | fuel + 1, arguments =>
    let (bytes, left) := formatOnce (format.length + 1) format arguments
    if left.isEmpty ∨ left.length = arguments.length then bytes
    else bytes ++ formatAll format fuel left

/-- The milliseconds in a number of seconds. -/
def sleepTime? (cs : List Char) : Option Nat := do
  let number := if cs.getLast? = some 's' then cs.dropLast else cs
  let whole := number.takeWhile (· != '.')
  let fraction := (number.dropWhile (· != '.')).tail
  if whole.isEmpty ∧ fraction.isEmpty then none
  else
    let seconds ← Text.digits? 10 0 whole
    let thousandths ← Text.digits? 10 0 (fraction ++ ['0', '0', '0'])
    return seconds * 1000 + thousandths / Nat.pow 10 fraction.length

/-- Whether two texts compare as an operator says. -/
def compare? (a op b : String) : Option Bool := do
  if op = "=" then some (a == b)
  else if op = "!=" then some (a != b)
  else
    let x ← Text.digits? 10 0 a.toList
    let y ← Text.digits? 10 0 b.toList
    match op with
    | "-eq" => some (x == y)
    | "-ne" => some (x != y)
    | "-lt" => some (decide (x < y))
    | "-le" => some (decide (x ≤ y))
    | "-gt" => some (decide (y < x))
    | "-ge" => some (decide (y ≤ x))
    | _ => none

namespace Process

/-- The value of a condition. -/
def test? (p : Process) : List String → Option Bool
  | [] => some false
  | "!" :: rest => (p.test? rest).map not
  | [a] => some (a != "")
  | [op, a] =>
    match op with
    | "-n" => some (a != "")
    | "-z" => some (a == "")
    | "-e" | "-f" | "-r" => some (p.file? a).isSome
    | "-s" => some (((p.file? a).map fun bytes => !bytes.isEmpty).getD false)
    | _ => none
  | [a, op, b] => compare? a op b
  | _ => none

/-- The status of a condition. -/
def testStatus (p : Process) (arguments : List String) : Nat :=
  match p.test? arguments with
  | some true => 0
  | some false => 1
  | none => 2

/-- Prints files, one after the other. -/
def concatenate (p : Process) : List String → Process
  | [] => p
  | path :: rest =>
    let next :=
      if path = "-" then p
      else
        match p.file? path with
        | some bytes => p.print bytes
        | none =>
          (p.complain ("cat: " ++ path ++ ": No such file or directory\n")).withStatus 1
    next.concatenate rest

/-- Ends with a status. -/
def finish (p : Process) : Process := { p with hasEnded := true }

/-- Sends a signal. All but the signal `0` end a script that sends it to itself. -/
def kill (p : Process) (arguments : List String) : Process :=
  if arguments.getLast? ≠ some ownNumber then p.withStatus 1
  else if arguments.head? = some "-0" then p
  else { p with hasEnded := true, isKilled := true }

/-- Runs a program that is known by its name; nothing for any other name. There is no input. -/
def program? (p : Process) (name : String) (arguments : List String) : Option Process :=
  let p := p.withStatus 0
  match name with
  | "true" => some p
  | "false" => some (p.withStatus 1)
  | "cat" => some (p.concatenate arguments)
  | "echo" =>
    let isOpen := arguments.head? = some "-n"
    let text := (Text.joinWith " " (if isOpen then arguments.tail else arguments)).toList
    let (bytes, isWhole) := unescape text.length text
    some (p.print (if isWhole ∧ ¬isOpen then bytes ++ [10] else bytes))
  | "printf" =>
    match arguments with
    | [] => some (p.withStatus 2)
    | format :: rest => some (p.print (formatAll format.toList (rest.length + 1) rest))
  | "sleep" =>
    match arguments.head?.bind fun a => sleepTime? a.toList with
    | some n => some { p with milliseconds := p.milliseconds + n }
    | none => some (p.withStatus 1)
  | "test" => some (p.withStatus (p.testStatus arguments))
  | "[" => some (p.withStatus (p.testStatus arguments.dropLast))
  | "kill" => some (p.kill arguments)
  | _ => none

/-- Runs a program, or complains that there is none of its name. -/
def program (p : Process) (line : Nat) (name : String) (arguments : List String) : Process :=
  (p.program? name arguments).getD
    ((p.complain (p.name ++ ": " ++ toString line ++ ": " ++ name ++ ": not found\n")).withStatus
      127)

/-- Runs the command that fields spell: one of the script's own, or a program. -/
def command (p : Process) (line : Nat) : List String → Process
  | [] | ":" :: _ => p.withStatus 0
  | "exit" :: arguments =>
    match arguments.head?.bind fun a => Text.digits? 10 0 a.toList with
    | some n => (p.withStatus (n % 256)).finish
    | none => p.finish
  | "shift" :: _ => { p with arguments := p.arguments.tail, status := 0 }
  | "exec" :: name :: arguments => (p.program line name arguments).finish
  | name :: arguments => p.program line name arguments

/-- Runs a command. Nothing more happens once the script is over. -/
def run (p : Process) : Command → Process
  | .nothing => p.withStatus 0
  | .simple words rs line =>
    let fields := words.flatMap p.fields
    if p.isOver then p
    else if fields = ["exec"] then (p.redirect rs).withStatus 0
    else p.redirecting rs fun q => q.command line fields
  | .sequence first second =>
    let q := p.run first
    if q.isOver then q else q.run second
  | .both first second =>
    let q := p.run first
    if q.isOver ∨ q.status ≠ 0 then q else q.run second
  | .either first second =>
    let q := p.run first
    if q.isOver ∨ q.status = 0 then q else q.run second
  | .negation body =>
    let q := p.run body
    if q.isOver then q else q.withStatus (if q.status = 0 then 1 else 0)
  | .branch condition yes no =>
    let q := p.run condition
    if q.isOver then q else if q.status = 0 then q.run yes else q.run no
  | .choice subject patterns body rest =>
    let text := (p.textOf subject).toList
    if patterns.any fun w => isMatch (p.pattern w) text then p.run body else p.run rest
  | .redirected body rs => { (p.redirect rs).run body with out := p.out, err := p.err }

/-- What came of a script. -/
def outcome (p : Process) : Outcome :=
  if p.limit ≤ p.milliseconds then .timedOut
  else .ended (if p.isKilled then none else some p.status) p.stdout p.stderr

end Process

end Blockwright.Script
