import Blockwright.Script.Token

/-!
# Commands of a script

Commands are joined in sequences and by their success, and chosen by conditions and by patterns.
There are no loops, so a command is run by recursion on it.
-/

namespace Blockwright.Script

/-- One of the two outputs. -/
inductive Stream
  | out
  | err
deriving DecidableEq, Repr

/-- Sends an output to where another goes, or drops it. -/
structure Redirection where
  source : Stream
  target : Option Stream
deriving DecidableEq, Repr

/-- A command. -/
inductive Command
  /-- Does nothing, with success. -/
  | nothing
  | simple (words : List Word) (redirections : List Redirection) (line : Nat)
  | sequence (first second : Command)
  /-- The second runs if the first succeeds. -/
  | both (first second : Command)
  /-- The second runs if the first fails. -/
  | either (first second : Command)
  | negation (body : Command)
  | branch (condition yes no : Command)
  /-- The body runs if the subject matches a pattern, and what follows if it does not. -/
  | choice (subject : Word) (patterns : List Word) (body rest : Command)
  | redirected (body : Command) (redirections : List Redirection)
deriving DecidableEq, Repr

/-- The output that a word names by its number. -/
def stream? (t : Token) : Option Stream :=
  if t.isWord "1" then some .out else if t.isWord "2" then some .err else none

/-- The output that an arrow redirects, and whether the arrow goes to a number. Without a number of
its own it is one of the first output. -/
def arrow? (op : String) : Option (Stream × Bool) :=
  match op with
  | ">" | "1>" => some (.out, false)
  | "2>" => some (.err, false)
  | ">&" | "1>&" => some (.out, true)
  | "2>&" => some (.err, true)
  | _ => none

/-- Reads a redirection to a numbered output, or to the path of a device. -/
def readRedirection? : List Token → Option (Redirection × List Token)
  | .operator op :: t :: rest => do
    let (source, isNumbered) ← arrow? op
    let target ←
      if isNumbered then (stream? t).map some
      else if t.isWord "/dev/null" then some none
      else if t.isWord "/dev/stdout" then some (some .out)
      else if t.isWord "/dev/stderr" then some (some .err)
      else none
    return (⟨source, target⟩, rest)
  | _ => none

/-- Reads words and redirections. -/
def readSimple : Nat → List Token → List Word × List Redirection × List Token
  | 0, ts => ([], [], ts)
  | fuel + 1, ts =>
    match readRedirection? ts with
    | some (r, rest) =>
      let (words, rs, rest) := readSimple fuel rest
      (words, r :: rs, rest)
    | none =>
      match ts with
      | .word parts _ :: rest =>
        let (words, rs, rest) := readSimple fuel rest
        (parts :: words, rs, rest)
      | _ => ([], [], ts)

/-- Leaves out breaks between commands. -/
def skipBreaks : List Token → List Token
  | .operator op :: ts => if op = ";" ∨ op = "\n" then skipBreaks ts else .operator op :: ts
  | ts => ts

/-- Leaves out a token that has to be there. -/
def expect? (text : String) : List Token → Option (List Token)
  | t :: ts => if t.isWord text || t.isOperator text then some ts else none
  | [] => none

/-- Whether a token ends a list of commands. -/
def isCloser (t : Token) : Bool :=
  (["then", "elif", "else", "fi", "esac", "\x7d"].any fun word => t.isWord word)
    || t.isOperator ")" || t.isOperator ";;"

/-- Reads patterns and the bracket after them. -/
def readPatterns? : List Token → Option (List Word × List Token)
  | .word parts _ :: .operator op :: rest =>
    if op = ")" then some ([parts], rest)
    else if op = "|" then do
      let (patterns, rest) ← readPatterns? rest
      return (parts :: patterns, rest)
    else none
  | _ => none

mutual

/-- Reads a list of commands. -/
def readList? : Nat → List Token → Option (Command × List Token)
  | 0, _ => none
  | fuel + 1, ts =>
    match skipBreaks ts with
    | [] => some (.nothing, [])
    | t :: rest =>
      if isCloser t then some (.nothing, t :: rest)
      else do
        let (first, rest) ← readTerm? fuel (t :: rest)
        let (first, rest) ← readJoined? fuel first rest
        match skipBreaks rest with
        | [] => some (first, [])
        | u :: more =>
          if isCloser u then some (first, u :: more)
          else if more.length + 1 = rest.length then none
          else do
            let (second, rest) ← readList? fuel (u :: more)
            some (.sequence first second, rest)

/-- Reads what is joined to a command by its success. -/
def readJoined? : Nat → Command → List Token → Option (Command × List Token)
  | 0, _, _ => none
  | fuel + 1, first, ts =>
    match ts with
    | .operator op :: rest =>
      if op = "&&" then do
        let (second, rest) ← readTerm? fuel (skipBreaks rest)
        readJoined? fuel (.both first second) rest
      else if op = "||" then do
        let (second, rest) ← readTerm? fuel (skipBreaks rest)
        readJoined? fuel (.either first second) rest
      else some (first, ts)
    | _ => some (first, ts)

/-- Reads one command. -/
def readTerm? : Nat → List Token → Option (Command × List Token)
  | 0, _ => none
  | _ + 1, [] => none
  | fuel + 1, t :: ts =>
    let redirected (result : Option (Command × List Token)) : Option (Command × List Token) := do
      let (body, rest) ← result
      match readSimple rest.length rest with
      | ([], [], _) => some (body, rest)
      | ([], rs, rest) => some (.redirected body rs, rest)
      | _ => none
    if t.isWord "!" then do
      let (body, rest) ← readTerm? fuel ts
      some (.negation body, rest)
    else if t.isWord "if" then redirected (readBranch? fuel ts)
    else if t.isWord "\x7b" then
      redirected do
        let (body, rest) ← readList? fuel ts
        some (body, ← expect? "\x7d" rest)
    else if t.isWord "case" then
      match ts with
      | .word subject _ :: rest =>
        redirected do readArms? fuel subject (← expect? "in" rest)
      | _ => none
    else
      match readSimple (ts.length + 1) (t :: ts) with
      | ([], [], _) => none
      | (words, rs, rest) =>
        let line :=
          match t with
          | .word _ line => line
          | .operator _ => 0
        some (.simple words rs line, rest)

/-- Reads a condition and what follows from it. -/
def readBranch? : Nat → List Token → Option (Command × List Token)
  | 0, _ => none
  | fuel + 1, ts => do
    let (condition, rest) ← readList? fuel ts
    let (yes, rest) ← readList? fuel (← expect? "then" rest)
    match rest with
    | t :: rest =>
      if t.isWord "elif" then
        let (no, rest) ← readBranch? fuel rest
        some (.branch condition yes no, rest)
      else if t.isWord "else" then
        let (no, rest) ← readList? fuel rest
        some (.branch condition yes no, ← expect? "fi" rest)
      else if t.isWord "fi" then some (.branch condition yes .nothing, rest)
      else none
    | [] => none

/-- Reads the patterns that a subject is compared with, and their commands. -/
def readArms? : Nat → Word → List Token → Option (Command × List Token)
  | 0, _, _ => none
  | fuel + 1, subject, ts =>
    match skipBreaks ts with
    | [] => none
    | t :: rest =>
      if t.isWord "esac" then some (.nothing, rest)
      else do
        let (patterns, rest) ← readPatterns? (if t.isOperator "(" then rest else t :: rest)
        let (body, rest) ← readList? fuel rest
        let (others, rest) ← readArms? fuel subject ((expect? ";;" rest).getD rest)
        some (.choice subject patterns body others, rest)

end

/-- The command that a script is. Lines are counted from a number. -/
def Command.ofText? (line : Nat) (text : List Char) : Option Command := do
  let ts ← tokens? text.length line text
  match readList? (4 * ts.length + 4) ts with
  | some (body, []) => some body
  | _ => none

end Blockwright.Script
