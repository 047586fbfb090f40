import Blockwright.Registry

/-!
# The palette

The palette shows the types of blocks by category.
-/

namespace Blockwright

/-- A category of the palette. -/
structure Category where
  name : String
  colour : String
  types : List String := []
deriving DecidableEq, Repr

/-- Adds a type at the end, unless it is listed already. -/
def Category.push (c : Category) (typeId : String) : Category :=
  if typeId ∈ c.types then c else { c with types := c.types ++ [typeId] }

namespace Palette

/-- The stock categories and their colours, in the order of the palette. -/
def sections : List (String × String) :=
  [ ("Variables", "#FFD43B"),
    ("Values", "#f59e0b"),
    ("Logic", "#06b6d4"),
    ("Loops", "#8b5cf6"),
    ("Functions", "#6366f1"),
    ("Classes", "#14b8a6"),
    ("I/O", "#f97316"),
    ("Math", "#f59e0b"),
    ("Text", "#10b981"),
    ("Lists & Seqs", "#ec4899"),
    ("Dictionaries", "#fb923c"),
    ("Builtins", "#84cc16"),
    ("Imports", "#22d3ee"),
    ("Errors", "#ef4444"),
    ("Async", "#a78bfa"),
    ("Advanced", "#3f3f46") ]

/-- The category of that name with all types of the registry that name it. -/
def sectionOf (registry : Registry) (name colour : String) : Category :=
  registry.definitions.foldl
    (fun c d => if d.schema.category = name then c.push d.typeId else c) { name, colour }

/-- The stock categories that have a type. -/
def stock (registry : Registry) : List Category :=
  (sections.map fun s => sectionOf registry s.1 s.2).filter fun c => !c.types.isEmpty

end Palette

end Blockwright
