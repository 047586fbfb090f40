import Blockwright.Failure
import Blockwright.Module.Basic
import Blockwright.Text.Space
import Blockwright.Text.Utf8

/-!
# The Python interpreter

Programs are run, and their imports looked up, by a Python interpreter. This module says what it is
asked to do and what its answers mean; the one that starts it is a parameter.
-/

namespace Blockwright

/-- A request to start an interpreter: its name, the texts of the script files that it gets as
arguments, and the time it may take. -/
structure Invocation where
  interpreter : String
  scripts : List String
  milliseconds : Nat := 30000
deriving DecidableEq, Repr

/-- What came of starting an interpreter. -/
inductive Outcome
  | notStarted
  | timedOut
  /-- It ended with a status, or without one by a signal. -/
  | ended (status : Option Int) (stdout stderr : List UInt8)
deriving DecidableEq, Repr

/-- The outputs of a program and its exit code, which is `-1` if it was stopped. -/
structure Execution where
  stdout : String
  stderr : String
  exitCode : Int
deriving DecidableEq, Repr

namespace Invocation

/-- What the outcome of an invocation says of the program. -/
def execution (i : Invocation) : Outcome → Attempt Execution
  | .notStarted =>
    .error
      { contexts :=
          [ "Failed to start Python interpreter '" ++ i.interpreter
              ++ "'. Ensure it is installed or pass --python." ]
        cause := .files }
  | .timedOut =>
    .ok
      { stdout := ""
        stderr := "Execution timed out (" ++ toString (i.milliseconds / 1000) ++ "s limit)"
        exitCode := -1 }
  | .ended status stdout stderr =>
    .ok { stdout := Text.ofUtf8 stdout, stderr := Text.ofUtf8 stderr, exitCode := status.getD (-1) }

end Invocation

namespace Scanner

/-- A Python script that lists the modules which a program imports, with what is in them. -/
def script : String :=
  Text.joinWith "\n" [
    "",
    "import ast, importlib, inspect, json, sys",
    "",
    "with open(sys.argv[1], encoding=\"utf-8\") as handle:",
    "    code = handle.read()",
    "try:",
    "    tree = ast.parse(code)",
    "except SyntaxError:",
    "    print(json.dumps(\x7b\"imports\": []\x7d))",
    "    sys.exit(0)",
    "",
    "names = set()",
    "for node in ast.walk(tree):",
    "    if isinstance(node, ast.Import):",
    "        for alias in node.names:",
    "            names.add(alias.name.split(\".\")[0])",
    "    elif isinstance(node, ast.ImportFrom) and node.module:",
    "        names.add(node.module.split(\".\")[0])",
    "",
    "found = []",
    "for name in sorted(names):",
    "    info = \x7b\"name\": name, \"available\": False, \"installed\": False,",
    "            \"functions\": [], \"classes\": [], \"constants\": []\x7d",
    "    try:",
    "        mod = importlib.import_module(name)",
    "        info[\"available\"] = True",
    "    except Exception:",
    "        found.append(info)",
    "        continue",
    "    try:",
    "        seen = 0",
    "        for member, obj in inspect.getmembers(mod):",
    "            if member.startswith(\"_\"):",
    "                continue",
    "            seen += 1",
    "            if seen > 100:",
    "                break",
    "            if inspect.isfunction(obj) or inspect.isbuiltin(obj):",
    "                if len(info[\"functions\"]) >= 30:",
    "                    continue",
    "                try:",
    "                    params = [p.name for p in list(inspect.signature(obj).parameters.values())[:10]",
    "                              if p.name != \"self\"]",
    "                except (ValueError, TypeError):",
    "                    params = []",
    "                info[\"functions\"].append(\x7b\"name\": member, \"params\": params\x7d)",
    "            elif inspect.isclass(obj):",
    "                if len(info[\"classes\"]) >= 10:",
    "                    continue",
    "                methods = []",
    "                for method, value in inspect.getmembers(obj):",
    "                    if method.startswith(\"_\") and method != \"__init__\":",
    "                        continue",
    "                    if callable(value):",
    "                        if len(methods) >= 10:",
    "                            break",
    "                        methods.append(\x7b\"name\": method, \"params\": []\x7d)",
    "                info[\"classes\"].append(\x7b\"name\": member, \"methods\": methods\x7d)",
    "            elif not callable(obj):",
    "                if len(info[\"constants\"]) >= 15:",
    "                    continue",
    "                info[\"constants\"].append(\x7b\"name\": member, \"type\": type(obj).__name__\x7d)",
    "    except Exception:",
    "        pass",
    "    found.append(info)",
    "",
    "print(json.dumps(\x7b\"imports\": found\x7d))",
    "" ]

/-- The request to scan a program. -/
def invocation (interpreter source : String) : Invocation :=
  { interpreter, scripts := [script, source] }

/-- The modules that a scan found. -/
def modules (e : Execution) : Attempt (List ModuleDescriptor) :=
  if e.exitCode ≠ 0 then
    .error (.ofMessage ("Import scanner failed (exit code " ++ toString e.exitCode ++ ").\n"
      ++ Text.trim e.stderr))
  else
    Attempt.inContext "Import scanner printed invalid JSON."
      (Attempt.ofOption .json (ModuleDescriptor.parseScan? e.stdout))

end Scanner

end Blockwright
