import Blockwright.Archive.Reader
import Blockwright.CustomBlock
import Blockwright.Digest
import Blockwright.Failure
import Blockwright.Json.Writer
import Blockwright.Module.Basic
import Blockwright.Workspace.Document

/-!
# Projects

A project holds all that an editor needs to go on: the workspace document, the custom blocks, the
modules and the program. It is kept in an archive with an entry for each, and a manifest.
-/

namespace Blockwright

/-- What an editor needs to go on. -/
structure Project where
  document : String
  blockCount : UInt64
  customBlocks : List CustomBlock
  modules : List ModuleDescriptor
  source : String
deriving DecidableEq, Repr

namespace Project

/-- The name of the format. -/
def format : String := "pyblocks"

/-- The version of the format. -/
def version : Nat := 1

/-- The project of a workspace. -/
def ofWorkspace (registry : Registry) (ws : Workspace) (customBlocks : List CustomBlock)
    (modules : List ModuleDescriptor) (source : String) : Attempt Project := do
  let document ←
    Attempt.inContext "Failed to serialize workspace." (Attempt.ofBlocks (ws.save registry))
  return { document, blockCount := ws.size.toUInt64, customBlocks, modules, source }

/-- The manifest of a project. -/
def manifest (p : Project) : Json :=
  .record
    [ ("block_count", .ofNat p.blockCount.toNat),
      ("format", .text format),
      ("source_md5", .text (Digest.md5 p.source)),
      ("version", .ofNat version) ]

/-- The archive of a project. -/
def toArchive (p : Project) : Archive :=
  [ Archive.textEntry "manifest.json" (p.manifest.pretty 0),
    Archive.textEntry "workspace.xml" p.document,
    Archive.textEntry "custom_blocks.json"
      ((Json.array (p.customBlocks.map CustomBlock.toJson)).pretty 0),
    Archive.textEntry "imports.json"
      ((Json.array (p.modules.map ModuleDescriptor.toJson)).pretty 0),
    Archive.textEntry "main.py" p.source ]

/-- The text of an entry. -/
def entryText (a : Archive) (name : String) : Attempt String :=
  let missing := "Missing '" ++ name ++ "' in .pyblocks archive."
  let unread := "Failed reading '" ++ name ++ "' from .pyblocks archive."
  match a.find? name with
  | none | some .closed => .error { contexts := [missing], cause := .archive }
  | some .damaged => .error { contexts := [unread], cause := .files }
  | some (.data bytes) => Attempt.inContext unread (Attempt.ofOption .files (Text.ofUtf8? bytes))

/-- Reads a manifest, all of which has to be sound. -/
def parseManifest? (text : String) : Option Json := do
  let v ← Json.parse? text
  if v.isSound then some v else none

/-- Refuses a manifest of another format or version. -/
def checkManifest (manifest : Json) : Attempt Unit := do
  let given := ((manifest.member? "format").bind Json.text?).getD ""
  if given ≠ format then
    throw (.ofMessage ("Invalid .pyblocks archive format '" ++ given ++ "'."))
  let given := ((manifest.member? "version").bind Json.word?).getD 0
  if given ≠ version then
    throw (.ofMessage ("Unsupported .pyblocks version " ++ toString given ++ " (expected "
      ++ toString version ++ ")."))

/-- The project in an archive. All entries are read before any of them is understood. -/
def ofArchive (a : Archive) : Attempt Project := do
  let manifestText ← entryText a "manifest.json"
  let document ← entryText a "workspace.xml"
  let customText ← entryText a "custom_blocks.json"
  let modulesText ← entryText a "imports.json"
  let source ← entryText a "main.py"
  let manifest ← Attempt.inContext "Invalid manifest.json in .pyblocks archive."
    (Attempt.ofOption .json (parseManifest? manifestText))
  checkManifest manifest
  let blockCount := ((manifest.member? "block_count").bind Json.word?).getD 0
  let customBlocks ← Attempt.inContext "Invalid custom_blocks.json in .pyblocks archive."
    (Attempt.ofOption .json (CustomBlock.parseList? customText))
  let modules ← Attempt.inContext "Invalid imports.json in .pyblocks archive."
    (Attempt.ofOption .json (ModuleDescriptor.parseList? modulesText))
  return { document, blockCount := blockCount.toUInt64, customBlocks, modules, source }

/-- The project in the bytes of an archive. -/
def ofBytes (bytes : List UInt8) : Attempt Project :=
  match Archive.ofBytes? bytes with
  | some a => ofArchive a
  | none => .error (.ofMessage "Input is not a valid .pyblocks archive.")

end Project

end Blockwright
