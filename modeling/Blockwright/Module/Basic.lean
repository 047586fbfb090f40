import Blockwright.Json.Reader
import Blockwright.Json.Record

/-!
# Module descriptors

What is known of a Python module: its functions, classes and constants. Descriptors are read from
and written to JSON.
-/

namespace Blockwright

/-- A function or a method. -/
structure FunctionDescriptor where
  name : String
  params : List String := []
deriving DecidableEq, Repr

/-- A class with its methods. -/
structure ClassDescriptor where
  name : String
  methods : List FunctionDescriptor := []
deriving DecidableEq, Repr

/-- A constant, with the name of its type if it is known. -/
structure ConstantDescriptor where
  name : String
  typeName : Option String := none
deriving DecidableEq, Repr

/-- A module. It is available if the interpreter can load it. -/
structure ModuleDescriptor where
  name : String
  available : Bool := true
  installed : Bool := false
  functions : List FunctionDescriptor := []
  classes : List ClassDescriptor := []
  constants : List ConstantDescriptor := []
deriving DecidableEq, Repr

/-- Whether nothing is known of what is in a module. -/
def ModuleDescriptor.isEmpty (m : ModuleDescriptor) : Bool :=
  m.functions.isEmpty && m.classes.isEmpty && m.constants.isEmpty

namespace FunctionDescriptor

/-- Reads a function. -/
def ofJson? (v : Json) : Option FunctionDescriptor := do
  match ← v.fields? [["name"], ["params", "parameterNames"]] with
  | [name, params] =>
    return {
      name := ← Json.required? Json.text? name
      params := ← Json.orElse? [] (Json.list? Json.text?) params }
  | _ => none

/-- Writes a function. -/
def toJson (f : FunctionDescriptor) : Json :=
  .record [("name", .text f.name), ("params", .array (f.params.map .text))]

end FunctionDescriptor

namespace ClassDescriptor

/-- Reads a class. -/
def ofJson? (v : Json) : Option ClassDescriptor := do
  match ← v.fields? [["name"], ["methods"]] with
  | [name, methods] =>
    return {
      name := ← Json.required? Json.text? name
      methods := ← Json.orElse? [] (Json.list? FunctionDescriptor.ofJson?) methods }
  | _ => none

/-- Writes a class. -/
def toJson (c : ClassDescriptor) : Json :=
  .record [("name", .text c.name), ("methods", .array (c.methods.map FunctionDescriptor.toJson))]

end ClassDescriptor

namespace ConstantDescriptor

/-- Reads the name of a type, which may be missing. -/
def typeName? : Json → Option (Option String)
  | .null => some none
  | v => v.text?.map some

/-- Reads a constant. -/
def ofJson? (v : Json) : Option ConstantDescriptor := do
  match ← v.fields? [["name"], ["type"]] with
  | [name, typeName] =>
    return {
      name := ← Json.required? Json.text? name
      typeName := ← Json.orElse? none typeName? typeName }
  | _ => none

/-- Writes a constant. A type that is not known is left out. -/
def toJson (c : ConstantDescriptor) : Json :=
  .record (("name", .text c.name) :: (c.typeName.map fun t => ("type", Json.text t)).toList)

end ConstantDescriptor

namespace ModuleDescriptor

/-- Reads a module. -/
def ofJson? (v : Json) : Option ModuleDescriptor := do
  let names :=
    [ ["name", "moduleName"], ["available"], ["installed"], ["functions"], ["classes"],
      ["constants"] ]
  match ← v.fields? names with
  | [name, available, installed, functions, classes, constants] =>
    return {
      name := ← Json.required? Json.text? name
      available := ← Json.orElse? true Json.bool? available
      installed := ← Json.orElse? false Json.bool? installed
      functions := ← Json.orElse? [] (Json.list? FunctionDescriptor.ofJson?) functions
      classes := ← Json.orElse? [] (Json.list? ClassDescriptor.ofJson?) classes
      constants := ← Json.orElse? [] (Json.list? ConstantDescriptor.ofJson?) constants }
  | _ => none

/-- Writes a module. -/
def toJson (m : ModuleDescriptor) : Json :=
  .record
    [ ("name", .text m.name),
      ("available", .bool m.available),
      ("installed", .bool m.installed),
      ("functions", .array (m.functions.map FunctionDescriptor.toJson)),
      ("classes", .array (m.classes.map ClassDescriptor.toJson)),
      ("constants", .array (m.constants.map ConstantDescriptor.toJson)) ]

/-- Reads a list of modules. -/
def listOfJson? (v : Json) : Option (List ModuleDescriptor) := Json.list? ofJson? v

/-- Reads a list of modules, or the list in the answer of a scanner. -/
def scanOfJson? (v : Json) : Option (List ModuleDescriptor) :=
  match v with
  | .object members =>
    if members.all fun m => m.1.isSome then do
      Json.required? listOfJson? (← Json.field? ["imports"] members)
    else none
  | _ => listOfJson? v

/-- Reads a descriptor file, all of which has to be sound. -/
def parseScan? (text : String) : Option (List ModuleDescriptor) := do
  let v ← Json.parse? text
  if v.isSound then scanOfJson? v else none

/-- Reads a plain list of modules. -/
def parseList? (text : String) : Option (List ModuleDescriptor) := do
  listOfJson? (← Json.parse? text)

end ModuleDescriptor

end Blockwright
