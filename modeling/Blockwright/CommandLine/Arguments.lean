import Blockwright.Decimal.Basic

/-!
# Command line arguments

`CommandLine.parse` reads the arguments of the program. An option takes its value from the same
argument, after an equals sign, or from the next one. A value waits until the next argument is known
to be one that goes on, so a fault in a value is found after one in the argument that follows it.
-/

namespace Blockwright

/-- What the program is asked to do. -/
structure CommandLine where
  input : String
  output : Option String := none
  customBlocks : Option String := none
  imports : Option String := none
  scan : Bool := false
  noPrologue : Bool := false
  run : Bool := false
  bundle : Option String := none
  categories : Bool := false
  indent : Nat := 2
  maxStatementCalls : Nat := 20
  maxConstants : Nat := 15
  interpreter : String := "python3"
  verbosity : Nat := 0
deriving DecidableEq, Repr

/-- Why arguments cannot be used, or that help is asked for. -/
inductive UsageFault
  | unknownArgument
  | missingInput
  /-- A value is missing or empty. -/
  | missingValue
  /-- A value is not a number of 64 bits. -/
  | notANumber
  /-- A flag has a value. -/
  | surplusValue
  /-- An option is given twice. -/
  | repeated
  | help
deriving DecidableEq, Repr

namespace CommandLine

/-- The options and places that take a value. -/
inductive Key
  | input | output | customBlocks | imports | bundle | indent | maxStatementCalls | maxConstants
  | interpreter
deriving DecidableEq, Repr

/-- The flags. -/
inductive Flag
  | scan | noPrologue | run | categories | verbose | help
deriving DecidableEq, Repr

/-- What a long name stands for. -/
inductive LongOption
  | value (key : Key)
  | flag (flag : Flag)
deriving DecidableEq, Repr

/-- The long names. -/
def longOptions : List (String × LongOption) :=
  [ ("custom-blocks", .value .customBlocks),
    ("imports", .value .imports),
    ("scan", .flag .scan),
    ("no-prologue", .flag .noPrologue),
    ("run", .flag .run),
    ("bundle", .value .bundle),
    ("categories", .flag .categories),
    ("indent", .value .indent),
    ("max-statement-calls", .value .maxStatementCalls),
    ("max-constants", .value .maxConstants),
    ("python", .value .interpreter),
    ("verbose", .flag .verbose),
    ("help", .flag .help) ]

/-- The short names. -/
def shortFlag? (c : Char) : Option Flag :=
  if c = 'v' then some .verbose else if c = 'h' then some .help else none

/-- Arguments that have been read in part. -/
structure Reading where
  /-- The values so far; each key has at most one. -/
  values : List (Key × String) := []
  flags : List Flag := []
  verbosity : Nat := 0
  /-- The option or place that was read last, with its value if that has come. -/
  pending : Option (Key × Option String) := none
  /-- The number of places that are filled. -/
  places : Nat := 0
  /-- Whether only places follow. -/
  isClosed : Bool := false

namespace Reading

/-- Whether a text is a number of 64 bits; a plus sign may stand before it. -/
def word? (text : String) : Option Nat :=
  let digits :=
    match text.toList with
    | '+' :: cs => cs
    | cs => cs
  (Decimal.readDigits? digits).filter (· < Nat.pow 2 64)

/-- The fault of a value for a key. -/
def valueFault? (key : Key) (value : String) : Option UsageFault :=
  match key with
  | .indent | .maxStatementCalls | .maxConstants =>
    if (word? value).isSome then none else some .notANumber
  | _ => if value = "" then some .missingValue else none

/-- Sets a key, which has no value yet. -/
def set (r : Reading) (key : Key) (value : String) : Except UsageFault Reading :=
  if r.values.any fun v => v.1 = key then .error .repeated
  else
    match valueFault? key value with
    | some fault => .error fault
    | none => .ok { r with values := r.values ++ [(key, value)] }

/-- Takes in the value that waits. -/
def settle (r : Reading) : Except UsageFault Reading :=
  match r.pending with
  | none => .ok r
  | some (_, none) => .error .missingValue
  | some (key, some value) => { r with pending := none }.set key value

/-- Raises a flag. Only the flag for more output may come twice. -/
def raise (r : Reading) (flag : Flag) : Except UsageFault Reading := do
  let r ← r.settle
  match flag with
  | .help => .error .help
  | .verbose => .ok { r with verbosity := min (r.verbosity + 1) 255 }
  | _ => if flag ∈ r.flags then .error .repeated else .ok { r with flags := flag :: r.flags }

/-- Raises the flags of a group of short names. -/
def raiseAll (r : Reading) : List Char → Except UsageFault Reading
  | [] => .ok r
  | c :: cs =>
    match shortFlag? c with
    | none => .error .unknownArgument
    | some flag => do (← r.raise flag).raiseAll cs

/-- Reads a long name, without its hyphens, and the value after an equals sign, if there is one. -/
def long (r : Reading) (name : String) (value : Option String) : Except UsageFault Reading :=
  match (longOptions.find? fun o => o.1 = name).map Prod.snd, value with
  | none, _ => .error .unknownArgument
  | some (.flag _), some _ => .error .surplusValue
  | some (.flag flag), none => r.raise flag
  | some (.value key), some value => do (← r.settle).set key value
  | some (.value key), none => do
    let r ← r.settle
    return { r with pending := some (key, none) }

/-- Fills the next place. -/
def place (r : Reading) (value : String) : Except UsageFault Reading :=
  match r.places with
  | 0 => do
    let r ← r.settle
    return { r with pending := some (.input, some value), places := 1 }
  | 1 => do
    let r ← r.settle
    return { r with pending := some (.output, some value), places := 2 }
  | _ => .error .unknownArgument

/-- Reads an argument that is no option: the value of an option that waits for one, or a place. -/
def plain (r : Reading) (value : String) : Except UsageFault Reading :=
  match r.pending, r.isClosed with
  | some (key, none), false => .ok { r with pending := some (key, some value) }
  | _, _ => r.place value

/-- Reads an argument. A hyphen alone is no option. -/
def argument (r : Reading) (text : String) : Except UsageFault Reading :=
  if r.isClosed then r.plain text
  else
    match text.toList with
    | ['-', '-'] => .ok { r with isClosed := true }
    | '-' :: '-' :: rest =>
      let name := String.ofList (rest.takeWhile (· != '='))
      match rest.dropWhile (· != '=') with
      | [] => r.long name none
      | _ :: value => r.long name (some (String.ofList value))
    | '-' :: c :: cs => r.raiseAll (c :: cs)
    | _ => r.plain text

/-- Reads arguments one after the other. -/
def arguments (r : Reading) : List String → Except UsageFault Reading
  | [] => r.settle
  | text :: rest => do (← r.argument text).arguments rest

/-- The value of a key. -/
def value? (r : Reading) (key : Key) : Option String :=
  (r.values.find? fun v => v.1 = key).map Prod.snd

/-- The number of a key. -/
def number (r : Reading) (key : Key) (missing : Nat) : Nat :=
  ((r.value? key).bind word?).getD missing

end Reading

/-- Reads the arguments of the program. -/
def parse (arguments : List String) : Except UsageFault CommandLine := do
  let r ← ({} : Reading).arguments arguments
  match r.value? .input with
  | none => .error .missingInput
  | some input =>
    return {
      input
      output := r.value? .output
      customBlocks := r.value? .customBlocks
      imports := r.value? .imports
      scan := .scan ∈ r.flags
      noPrologue := .noPrologue ∈ r.flags
      run := .run ∈ r.flags
      bundle := r.value? .bundle
      categories := .categories ∈ r.flags
      indent := r.number .indent 2
      maxStatementCalls := r.number .maxStatementCalls 20
      maxConstants := r.number .maxConstants 15
      interpreter := (r.value? .interpreter).getD "python3"
      verbosity := r.verbosity }

end CommandLine

end Blockwright
