import Blockwright.Registry

/-!
# The stock catalogue: values, statements and control flow

Blocks for values, operators, statements, control flow and definitions. Each is a schema with the
template of its code.
-/

namespace Blockwright.Catalogue

/-- A block whose rule is a template for a statement. -/
def statement (schema : Schema) (pieces : List Piece) : Definition :=
  { schema, rule := .template (.statement pieces) }

/-- A block whose rule is a template for an expression. -/
def expression (schema : Schema) (produced : Precedence) (pieces : List Piece) : Definition :=
  { schema, rule := .template (.expression produced pieces) }

/-- A block that stands for fixed code. -/
def keyword (schema : Schema) (text : String) : Definition :=
  { schema, rule := .constant text }

/-- The comparison operators. -/
def comparisonOperators : List String :=
  ["==", "!=", "<", ">", "<=", ">=", "is", "is not", "in", "not in"]

/-- The arithmetic operators. -/
def arithmeticOperators : List String := ["+", "-", "*", "/", "//", "%", "**"]

/-- Input, output, variables and literal values. -/
def values : List Definition :=
  [ statement ((Schema.statement "python_print").value "VALUE" "''" |>.inCategory "I/O")
      [.code "print(", .value "VALUE" .loosest, .code ")\n"],
    expression ((Schema.expression "python_input").value "PROMPT" "''" |>.inCategory "I/O")
      .functionCall [.code "input(", .value "PROMPT" .loosest, .code ")"],
    statement
      ((Schema.statement "python_assign").text "VAR" "x" |>.value "VALUE" "0"
        |>.inCategory "Variables")
      [.field "VAR", .code " = ", .value "VALUE" .loosest, .code "\n"],
    expression ((Schema.expression "python_variable_get").text "VAR" "x" |>.inCategory "Variables")
      .atomic [.field "VAR"],
    expression ((Schema.expression "python_string").text "TEXT" "hello" |>.inCategory "Values")
      .atomic [.code "\"", .quoted "TEXT", .code "\""],
    { schema := (Schema.expression "python_number").number "NUM" "0" |>.inCategory "Values"
      rule := .template (.number "NUM") },
    expression
      ((Schema.expression "python_boolean").choice "BOOL" ["True", "False"] |>.inCategory "Values")
      .atomic [.field "BOOL"],
    keyword ((Schema.expression "python_none").inCategory "Values") "None",
    expression
      ((Schema.expression "python_fstring").text "TEXT" "Hello \x7bname\x7d!"
        |>.inCategory "Values")
      .atomic [.code "f\"", .field "TEXT", .code "\""],
    expression
      ((Schema.expression "python_list").text "ITEMS" "1, 2, 3" |>.inCategory "Lists & Seqs")
      .atomic [.code "[", .field "ITEMS", .code "]"],
    expression
      ((Schema.expression "python_dict").text "ITEMS" "\"key\": \"value\""
        |>.inCategory "Dictionaries")
      .atomic [.code "\x7b", .field "ITEMS", .code "\x7d"],
    expression
      ((Schema.expression "python_tuple").text "ITEMS" "1, 2, 3" |>.inCategory "Lists & Seqs")
      .atomic [.code "(", .field "ITEMS", .code ")"],
    expression
      ((Schema.expression "python_set").text "ITEMS" "1, 2, 3" |>.inCategory "Lists & Seqs")
      .atomic [.code "\x7b", .field "ITEMS", .code "\x7d"] ]

/-- Operators. -/
def operators : List Definition :=
  [ { schema :=
        (Schema.expression "python_compare").value "A" "0" |>.choice "OP" comparisonOperators
          |>.value "B" "0" |>.inCategory "Logic"
      rule := .template (.binary .comparison) },
    { schema :=
        (Schema.expression "python_arithmetic").value "A" "0" |>.choice "OP" arithmeticOperators
          |>.value "B" "0" |>.inCategory "Math"
      rule := .template (.binary .arithmetic) },
    expression ((Schema.expression "python_negate").value "VALUE" "0" |>.inCategory "Math")
      .unarySign [.code "-", .value "VALUE" .unarySign],
    { schema :=
        (Schema.expression "python_logic").value "A" "False" |>.choice "OP" ["and", "or"]
          |>.value "B" "False" |>.inCategory "Logic"
      rule := .template (.binary .logic) },
    expression ((Schema.expression "python_not").value "VALUE" "False" |>.inCategory "Logic")
      .logicalNot [.code "not ", .value "VALUE" .logicalNot] ]

/-- Comments and code as it stands. -/
def passages : List Definition :=
  [ statement ((Schema.statement "python_comment").text "TEXT" "comment" |>.inCategory "Advanced")
      [.code "# ", .field "TEXT", .code "\n"],
    statement ((Schema.statement "python_raw").text "CODE" "pass" |>.inCategory "Advanced")
      [.passage "CODE", .code "\n"],
    statement
      ((Schema.statement "python_multiline_code").text "CODE" "# Click to edit\npass"
        |>.inCategory "Advanced")
      [.passage "CODE", .code "\n"],
    keyword ((Schema.statement "python_pass").inCategory "Advanced") "pass" ]

/-- The clauses of a statement that guards another. -/
def tryClauses : List Piece :=
  [ .code "try:\n", .suite "TRY", .code "except ", .field "EXCEPTION", .code " as ", .field "AS",
    .code ":\n", .suite "EXCEPT" ]

/-- Branches, loops, exceptions and contexts. -/
def controlFlow : List Definition :=
  [ statement
      ((Schema.statement "python_if").value "IF0" "False" |>.body "DO0" |>.inCategory "Logic")
      [.code "if ", .value "IF0" .loosest, .code ":\n", .suite "DO0"],
    statement
      ((Schema.statement "python_if_else").value "IF0" "False" |>.body "DO0" |>.body "ELSE"
        |>.inCategory "Logic")
      [ .code "if ", .value "IF0" .loosest, .code ":\n", .suite "DO0", .code "else:\n",
        .suite "ELSE" ],
    statement
      ((Schema.statement "python_elif").value "CONDITION" "False" |>.body "DO"
        |>.inCategory "Logic")
      [.code "elif ", .value "CONDITION" .loosest, .code ":\n", .suite "DO"],
    statement
      ((Schema.statement "python_for").text "VAR" "i" |>.value "ITERABLE" "[]" |>.body "DO"
        |>.inCategory "Loops")
      [ .code "for ", .field "VAR", .code " in ", .value "ITERABLE" .loosest, .code ":\n",
        .suite "DO" ],
    statement
      ((Schema.statement "python_while").value "CONDITION" "False" |>.body "DO"
        |>.inCategory "Loops")
      [.code "while ", .value "CONDITION" .loosest, .code ":\n", .suite "DO"],
    expression ((Schema.expression "python_range").value "STOP" "10" |>.inCategory "Loops")
      .functionCall [.code "range(", .value "STOP" .loosest, .code ")"],
    expression
      ((Schema.expression "python_list_comp").text "EXPR" "x * 2" |>.text "VAR" "x"
        |>.value "ITERABLE" "[]" |>.inCategory "Lists & Seqs")
      .atomic
      [ .code "[", .field "EXPR", .code " for ", .field "VAR", .code " in ",
        .value "ITERABLE" .loosest, .code "]" ],
    keyword ((Schema.statement "python_break").terminal.inCategory "Loops") "break",
    keyword ((Schema.statement "python_continue").terminal.inCategory "Loops") "continue",
    statement
      ((Schema.statement "python_try").body "TRY" |>.text "EXCEPTION" "Exception" |>.text "AS" "e"
        |>.body "EXCEPT" |>.inCategory "Errors")
      tryClauses,
    statement
      ((Schema.statement "python_try_finally").body "TRY" |>.text "EXCEPTION" "Exception"
        |>.text "AS" "e" |>.body "EXCEPT" |>.body "FINALLY" |>.inCategory "Errors")
      (tryClauses ++ [.code "finally:\n", .suite "FINALLY"]),
    statement
      ((Schema.statement "python_raise").text "EXCEPTION" "Exception(\"error\")" |>.terminal
        |>.inCategory "Errors")
      [.code "raise ", .field "EXCEPTION", .code "\n"],
    statement
      ((Schema.statement "python_assert").value "CONDITION" "True" |>.optional "MESSAGE"
        |>.inCategory "Errors")
      [.code "assert ", .value "CONDITION" .loosest, .clause ", " "MESSAGE", .code "\n"],
    statement
      ((Schema.statement "python_with").text "EXPR" "open(\"file.txt\")" |>.text "AS" "f"
        |>.body "BODY" |>.inCategory "Advanced")
      [ .code "with ", .field "EXPR", .code " as ", .field "AS", .code ":\n", .suite "BODY" ] ]

/-- Functions, classes and imports. -/
def definitions : List Definition :=
  [ statement
      ((Schema.statement "python_def").text "NAME" "my_function" |>.text "PARAMS" ""
        |>.body "BODY" |>.inCategory "Functions")
      [ .code "def ", .field "NAME", .code "(", .field "PARAMS", .code "):\n", .suite "BODY",
        .code "\n" ],
    statement
      ((Schema.statement "python_return").optional "VALUE" |>.terminal |>.inCategory "Functions")
      [.code "return", .clause " " "VALUE", .code "\n"],
    statement ((Schema.statement "python_yield").optional "VALUE" |>.inCategory "Functions")
      [.code "yield", .clause " " "VALUE", .code "\n"],
    expression
      ((Schema.expression "python_call").text "NAME" "my_function" |>.text "ARGS" ""
        |>.inCategory "Functions")
      .functionCall [.field "NAME", .code "(", .field "ARGS", .code ")"],
    statement
      ((Schema.statement "python_call_statement").text "NAME" "my_function" |>.text "ARGS" ""
        |>.inCategory "Functions")
      [.field "NAME", .code "(", .field "ARGS", .code ")\n"],
    expression
      ((Schema.expression "python_lambda").text "PARAMS" "x" |>.text "EXPR" "x * 2"
        |>.inCategory "Functions")
      .lambda [.code "lambda ", .field "PARAMS", .code ": ", .field "EXPR"],
    statement
      ((Schema.statement "python_global").text "VAR" "variable" |>.inCategory "Functions")
      [.code "global ", .field "VAR", .code "\n"],
    statement
      ((Schema.statement "python_nonlocal").text "VAR" "variable" |>.inCategory "Functions")
      [.code "nonlocal ", .field "VAR", .code "\n"],
    statement
      ((Schema.statement "python_class").text "NAME" "MyClass" |>.text "BASES" "" |>.body "BODY"
        |>.inCategory "Classes")
      [ .code "class ", .field "NAME", .bracketed "BASES", .code ":\n", .suite "BODY", .code "\n" ],
    statement ((Schema.statement "python_import").text "MODULE" "os" |>.inCategory "Imports")
      [.code "import ", .field "MODULE", .code "\n"],
    statement
      ((Schema.statement "python_from_import").text "MODULE" "os" |>.text "NAMES" "path"
        |>.inCategory "Imports")
      [.code "from ", .field "MODULE", .code " import ", .field "NAMES", .code "\n"],
    statement
      ((Schema.statement "python_async_def").text "NAME" "my_coroutine" |>.text "PARAMS" ""
        |>.body "BODY" |>.inCategory "Async")
      [ .code "async def ", .field "NAME", .code "(", .field "PARAMS", .code "):\n", .suite "BODY",
        .code "\n" ],
    expression ((Schema.ofShape "python_await" .hybrid).value "VALUE" "None" |>.inCategory "Async")
      .await [.code "await ", .value "VALUE" .member] ]

end Blockwright.Catalogue
