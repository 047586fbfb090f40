import Blockwright.Catalogue.Basic

/-!
# The stock catalogue: methods and functions

Blocks for the methods of texts, lists and dictionaries, for the built-in functions, and for the
`math` module.
-/

namespace Blockwright.Catalogue

/-- The methods offered by the general text block, with their brackets. -/
def textMethodChoices : List String :=
  [ "upper()", "lower()", "strip()", "split()", "replace()", "join()", "startswith()", "endswith()",
    "find()", "count()", "format()", "encode()", "decode()", "title()", "capitalize()",
    "swapcase()", "center()", "ljust()", "rjust()", "zfill()", "isdigit()", "isalpha()",
    "isalnum()", "isspace()" ]

/-- The methods of texts with one argument. -/
def textArgumentMethods : List String :=
  ["split", "join", "replace", "find", "rfind", "index", "rindex", "count"]

/-- The methods of texts that test a text. -/
def textTests : List String :=
  ["isdigit", "isalpha", "isalnum", "isspace", "islower", "isupper", "istitle"]

/-- A method of a collection: its name, its slots beside the collection with their preset texts, and
its shape. -/
structure CollectionMethod where
  name : String
  args : List (String × String)
  shape : Shape

/-- The methods of lists. -/
def listMethods : List CollectionMethod :=
  [ ⟨"append", [("ARG", "0")], .statement⟩,
    ⟨"extend", [("ARG", "0")], .statement⟩,
    ⟨"insert", [("ARG", "0"), ("VALUE", "None")], .statement⟩,
    ⟨"remove", [("ARG", "0")], .statement⟩,
    ⟨"pop", [], .expression⟩,
    ⟨"clear", [], .statement⟩,
    ⟨"sort", [], .statement⟩,
    ⟨"reverse", [], .statement⟩,
    ⟨"copy", [], .expression⟩,
    ⟨"index", [("ARG", "0")], .expression⟩,
    ⟨"count", [], .expression⟩ ]

/-- The methods of dictionaries. -/
def dictMethods : List CollectionMethod :=
  [ ⟨"get", [("KEY", "\"\"")], .expression⟩,
    ⟨"pop", [("KEY", "\"\"")], .expression⟩,
    ⟨"popitem", [], .statement⟩,
    ⟨"keys", [], .expression⟩,
    ⟨"values", [], .expression⟩,
    ⟨"items", [], .expression⟩,
    ⟨"update", [], .statement⟩,
    ⟨"clear", [], .statement⟩,
    ⟨"setdefault", [("KEY", "\"\""), ("DEFAULT", "None")], .expression⟩ ]

/-- A built-in function: its name, its parameters, and whether it has a value. -/
structure BuiltinFunction where
  name : String
  params : List String
  hasValue : Bool := true

/-- The built-in functions. -/
def builtinFunctions : List BuiltinFunction :=
  [ { name := "int", params := ["value"] },
    { name := "float", params := ["value"] },
    { name := "str", params := ["value"] },
    { name := "bool", params := ["value"] },
    { name := "list", params := ["iterable"] },
    { name := "tuple", params := ["iterable"] },
    { name := "set", params := ["iterable"] },
    { name := "dict", params := ["**kwargs"] },
    { name := "frozenset", params := ["iterable"] },
    { name := "bytes", params := ["source"] },
    { name := "bytearray", params := ["source"] },
    { name := "complex", params := ["real", "imag"] },
    { name := "abs", params := ["x"] },
    { name := "round", params := ["number", "ndigits"] },
    { name := "min", params := ["*args"] },
    { name := "max", params := ["*args"] },
    { name := "sum", params := ["iterable"] },
    { name := "pow", params := ["base", "exp"] },
    { name := "divmod", params := ["a", "b"] },
    { name := "len", params := ["obj"] },
    { name := "sorted", params := ["iterable"] },
    { name := "reversed", params := ["seq"] },
    { name := "enumerate", params := ["iterable"] },
    { name := "zip", params := ["*iterables"] },
    { name := "map", params := ["func", "iterable"] },
    { name := "filter", params := ["func", "iterable"] },
    { name := "all", params := ["iterable"] },
    { name := "any", params := ["iterable"] },
    { name := "next", params := ["iterator"] },
    { name := "iter", params := ["object"] },
    { name := "slice", params := ["start", "stop", "step"] },
    { name := "repr", params := ["obj"] },
    { name := "format", params := ["value", "spec"] },
    { name := "chr", params := ["i"] },
    { name := "ord", params := ["c"] },
    { name := "ascii", params := ["obj"] },
    { name := "hex", params := ["x"] },
    { name := "oct", params := ["x"] },
    { name := "bin", params := ["x"] },
    { name := "type", params := ["obj"] },
    { name := "isinstance", params := ["obj", "cls"] },
    { name := "issubclass", params := ["cls", "parent"] },
    { name := "hasattr", params := ["obj", "name"] },
    { name := "getattr", params := ["obj", "name"] },
    { name := "setattr", params := ["obj", "name", "value"], hasValue := false },
    { name := "delattr", params := ["obj", "name"], hasValue := false },
    { name := "dir", params := ["obj"] },
    { name := "vars", params := ["obj"] },
    { name := "id", params := ["obj"] },
    { name := "hash", params := ["obj"] },
    { name := "callable", params := ["obj"] },
    { name := "open", params := ["file", "mode"] },
    { name := "exec", params := ["code"], hasValue := false },
    { name := "eval", params := ["expression"] },
    { name := "compile", params := ["source", "filename", "mode"] },
    { name := "range", params := ["start", "stop", "step"] },
    { name := "super", params := [] },
    { name := "property", params := ["fget"] },
    { name := "staticmethod", params := ["func"] },
    { name := "classmethod", params := ["func"] },
    { name := "globals", params := [] },
    { name := "locals", params := [] },
    { name := "memoryview", params := ["obj"] },
    { name := "object", params := [] } ]

/-- The functions of the `math` module. -/
def mathFunctions : List String :=
  [ "sqrt", "sin", "cos", "tan", "asin", "acos", "atan", "sinh", "cosh", "tanh", "exp", "log",
    "log10", "log2", "ceil", "floor", "trunc", "fabs", "factorial", "gcd", "degrees", "radians",
    "isnan", "isinf", "copysign", "fmod", "remainder", "modf" ]

/-- The constants of the `math` module. -/
def mathConstants : List String := ["pi", "e", "tau", "inf", "nan"]

/-- A method of the text in the slot `STRING`. -/
def textMethod (typeName method : String) (args : List (String × String)) : Definition :=
  let schema := (Schema.expression ("python_str_" ++ typeName)).value "STRING" "''"
  let schema := args.foldl (fun s arg => s.value arg.1 arg.2) schema
  { schema := schema.inCategory "Text"
    rule := .method { receiver := "STRING", method, args := args.map Prod.fst } }

/-- Texts and indexing. -/
def texts : List Definition :=
  [ expression
      ((Schema.expression "python_str_method").value "STRING" "''"
        |>.choice "METHOD" textMethodChoices |>.inCategory "Text")
      .functionCall [.value "STRING" .member, .code ".", .field "METHOD"] ]
  ++ textArgumentMethods.map (fun method => textMethod method method [("ARG", "''")])
  ++ textTests.map (fun method => textMethod method method [])
  ++ [ expression
        ((Schema.expression "python_str_slice").value "STRING" "''" |>.value "START" "0"
          |>.value "END" "" |>.inCategory "Text")
        .member
        [ .value "STRING" .member, .code "[", .value "START" .loosest, .code ":",
          .value "END" .loosest, .code "]" ],
      textMethod "format_method" "format" [("ARGS", "")],
      expression
        ((Schema.expression "python_index").value "COLLECTION" "[]" |>.value "INDEX" "0"
          |>.inCategory "Lists & Seqs")
        .member [.value "COLLECTION" .member, .code "[", .value "INDEX" .loosest, .code "]"] ]

/-- A method of the collection in a slot. -/
def collectionMethod (family receiver preset category : String) (m : CollectionMethod) :
    Definition :=
  let schema :=
    (Schema.ofShape ("python_" ++ family ++ "_" ++ m.name) m.shape).value receiver preset
  let schema := m.args.foldl (fun s arg => s.value arg.1 arg.2) schema
  { schema := schema.inCategory category
    rule := .method { receiver, method := m.name, args := m.args.map Prod.fst } }

/-- Lists and dictionaries. -/
def collections : List Definition :=
  listMethods.map (collectionMethod "list" "LIST" "[]" "Lists & Seqs")
  ++ dictMethods.map (collectionMethod "dict" "DICT" "\x7b\x7d" "Dictionaries")

/-- A call of a built-in function. -/
def builtinCall (f : BuiltinFunction) : Definition :=
  let call : CallRule := { callee := f.name, params := f.params }
  let shape : Shape := if f.hasValue then .expression else .statement
  { schema :=
      (call.schema ("python_builtin_" ++ f.name) shape).inCategory "Builtins"
        |>.withTooltip ("Python builtin: " ++ f.name ++ "()")
    rule := .call call }

/-- A call of a function of the `math` module. -/
def mathCall (name : String) : Definition :=
  expression
    ((Schema.expression ("python_math_" ++ name)).value "ARG" "0" |>.inCategory "Math"
      |>.withTooltip ("math." ++ name))
    .functionCall [.code ("math." ++ name ++ "("), .value "ARG" .loosest, .code ")"]

/-- A constant of the `math` module. -/
def mathConstant (name : String) : Definition :=
  keyword ((Schema.expression ("python_math_" ++ name)).inCategory "Math") ("math." ++ name)

/-- All blocks of the stock catalogue, in the order of their registration. -/
def all : List Definition :=
  values ++ operators ++ passages ++ controlFlow ++ definitions ++ texts ++ collections
  ++ builtinFunctions.map builtinCall ++ mathFunctions.map mathCall
  ++ mathConstants.map mathConstant

end Blockwright.Catalogue

namespace Blockwright

/-- The registry with the stock catalogue. -/
def Registry.stock : Registry := Registry.empty.registerAll Catalogue.all

end Blockwright
