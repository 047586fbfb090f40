import Blockwright.Project
import Blockwright.Proofs.Archives
import Blockwright.Proofs.JsonText

/-!
# Projects read back

What is written of a custom block or a module is plain JSON that reads back (`Json.RoundTrip`), and
the manifest of a project passes its check. Nothing is assumed of the digest in it, which is not
read. Main statement: `Project.ofBytes_reads_back`.
-/

namespace Blockwright

namespace Json

@[simp] theorem text?_text (s : String) : (text s).text? = some s := rfl

@[simp] theorem bool?_bool (b : Bool) : (Json.bool b).bool? = some b := rfl

/-- What is written is plain and reads back. -/
structure RoundTrip {α : Type} (write : α → Json) (read? : Json → Option α) : Prop where
  plain : ∀ a, (write a).Plain
  reads : ∀ a, read? (write a) = some a

namespace RoundTrip

variable {α : Type} {write : α → Json} {read? : Json → Option α}

theorem text : RoundTrip Json.text text? := ⟨.text, text?_text⟩

theorem bool : RoundTrip Json.bool bool? := ⟨.bool, bool?_bool⟩

theorem list (h : RoundTrip write read?) :
    RoundTrip (fun as => .array (as.map write)) (list? read?) := by
  refine ⟨fun as => .array fun v hv => ?_, fun as => ?_⟩
  · obtain ⟨a, -, rfl⟩ := List.mem_map.mp hv
    exact h.plain a
  · rw [list?]
    induction as with
    | nil => rfl
    | cons a as ih => simp [h.reads a, ih]

theorem parse?_pretty (h : RoundTrip write read?) (a : α) :
    (parse? ((write a).pretty 0)).bind read? = some a := by
  rw [Json.parse?_pretty (h.plain a), Option.bind_some, h.reads]

end RoundTrip

end Json

section Records

open Json

attribute [local simp] fields? field? record required? orElse?

theorem FunctionDescriptor.roundTrip : RoundTrip toJson ofJson? := by
  refine ⟨fun f => .record ?_, fun f => ?_⟩
  · simp [RoundTrip.text.plain, RoundTrip.text.list.plain f.params]
  · simp [toJson, ofJson?, RoundTrip.text.list.reads f.params]

theorem ClassDescriptor.roundTrip : RoundTrip toJson ofJson? := by
  have hmethods := FunctionDescriptor.roundTrip.list
  refine ⟨fun c => .record ?_, fun c => ?_⟩
  · simp [RoundTrip.text.plain, hmethods.plain c.methods]
  · simp [toJson, ofJson?, hmethods.reads c.methods]

theorem ConstantDescriptor.roundTrip : RoundTrip toJson ofJson? := by
  have htype : ∀ t, typeName? (Json.text t) = some (some t) := fun _ => rfl
  refine ⟨fun c => .record ?_, fun c => ?_⟩
  · cases c.typeName <;> simp [RoundTrip.text.plain]
  · obtain ⟨name, _ | t⟩ := c <;> simp [toJson, ofJson?, htype]

theorem ModuleDescriptor.roundTrip : RoundTrip toJson ofJson? := by
  have hfunctions := FunctionDescriptor.roundTrip.list
  have hclasses := ClassDescriptor.roundTrip.list
  have hconstants := ConstantDescriptor.roundTrip.list
  refine ⟨fun m => .record ?_, fun m => ?_⟩
  · simp [RoundTrip.text.plain, RoundTrip.bool.plain, hfunctions.plain m.functions,
      hclasses.plain m.classes, hconstants.plain m.constants]
  · simp [toJson, ofJson?, hfunctions.reads m.functions, hclasses.reads m.classes,
      hconstants.reads m.constants]

theorem CustomBlock.roundTrip : RoundTrip toJson ofJson? := by
  refine ⟨fun c => .record ?_, fun c => ?_⟩
  · simp [RoundTrip.text.plain, RoundTrip.text.list.plain c.params]
  · simp [toJson, ofJson?, RoundTrip.text.list.reads c.params]

end Records

theorem Attempt.inContext_ofOption {α : Type} (context : String) (cause : Cause) (a : α) :
    inContext context (ofOption cause (some a)) = .ok a := rfl

theorem Decimal.isInRange_of_lt {n : Nat} (h : n < Nat.pow 2 64) :
    isInRange ⟨false, n, 0⟩ = true := by
  have hcut : ∀ fuel, cut fuel n = (n, 0) := fun fuel => by
    cases fuel with
    | zero => rfl
    | succ fuel => rw [cut, if_pos h]
  simp [isInRange, hcut]

theorem Json.word?_ofNat {n : Nat} (h : n < Nat.pow 2 64) : (ofNat n).word? = some n := by
  rw [ofNat, word?, if_pos ⟨rfl, rfl, h⟩]

namespace Project

open Json

theorem plain_manifest (p : Project) : p.manifest.Plain := by
  refine .record ?_
  simp [Plain.text, Plain.ofNat]

theorem parseManifest?_manifest (p : Project) :
    parseManifest? (p.manifest.pretty 0) = some p.manifest := by
  have hcount := Decimal.isInRange_of_lt p.blockCount.toNat_lt
  have hversion := Decimal.isInRange_of_lt (show version < Nat.pow 2 64 by decide)
  have hsound : p.manifest.isSound = true := by
    simp [manifest, isSound, Json.record, isSoundTo, membersSoundTo, Json.ofNat, Json.text, hcount,
      hversion]
  rw [parseManifest?, parse?_pretty p.plain_manifest]
  simp [hsound]

theorem checkManifest_manifest (p : Project) : checkManifest p.manifest = .ok () := by
  have hformat : ((p.manifest.member? "format").bind Json.text?).getD "" = format := by
    simp [manifest, Json.record, member?]
  have hversion : ((p.manifest.member? "version").bind Json.word?).getD 0 = version := by
    simp [manifest, Json.record, member?, word?_ofNat (show version < Nat.pow 2 64 by decide)]
  simp only [checkManifest, hformat, hversion]
  rfl

theorem blockCount_manifest (p : Project) :
    ((p.manifest.member? "block_count").bind Json.word?).getD 0 = p.blockCount.toNat := by
  simp [manifest, Json.record, member?, word?_ofNat p.blockCount.toNat_lt]

theorem nodup_toArchive (p : Project) : (p.toArchive.map Archive.Entry.name).Nodup := by
  show ["manifest.json", "workspace.xml", "custom_blocks.json", "imports.json", "main.py"].Nodup
  decide

theorem entryText_toArchive {p : Project} {name text : String}
    (h : Archive.textEntry name text ∈ p.toArchive) : entryText p.toArchive name = .ok text := by
  have hfind : p.toArchive.find? name = some (.data (Text.toUtf8 text)) :=
    Archive.find?_of_mem p.nodup_toArchive h
  simp only [entryText, hfind, Text.ofUtf8?_toUtf8]
  rfl

theorem ofArchive_toArchive (p : Project) : ofArchive p.toArchive = .ok p := by
  have hmanifest : entryText p.toArchive "manifest.json" = .ok (p.manifest.pretty 0) :=
    entryText_toArchive (by simp [toArchive])
  have hdocument : entryText p.toArchive "workspace.xml" = .ok p.document :=
    entryText_toArchive (by simp [toArchive])
  have hcustom : entryText p.toArchive "custom_blocks.json" =
      .ok ((Json.array (p.customBlocks.map CustomBlock.toJson)).pretty 0) :=
    entryText_toArchive (by simp [toArchive])
  have hmodules : entryText p.toArchive "imports.json" =
      .ok ((Json.array (p.modules.map ModuleDescriptor.toJson)).pretty 0) :=
    entryText_toArchive (by simp [toArchive])
  have hsource : entryText p.toArchive "main.py" = .ok p.source :=
    entryText_toArchive (by simp [toArchive])
  have hcustomList : CustomBlock.parseList? _ = some p.customBlocks :=
    CustomBlock.roundTrip.list.parse?_pretty p.customBlocks
  have hmoduleList : ModuleDescriptor.parseList? _ = some p.modules :=
    ModuleDescriptor.roundTrip.list.parse?_pretty p.modules
  have hcount : p.blockCount.toNat.toUInt64 = p.blockCount := UInt64.ofNat_toNat
  simp only [ofArchive, hmanifest, hdocument, hcustom, hmodules, hsource, bind, Except.bind,
    parseManifest?_manifest, checkManifest_manifest, hcustomList, hmoduleList, blockCount_manifest,
    Attempt.inContext_ofOption, hcount]
  rfl

theorem fits_toArchive {p : Project} (h : p.toArchive.toBytes.length < 0xFFFFFFFF) :
    ∀ e ∈ p.toArchive, e.Fits := by
  intro e he
  have hsize := Archive.length_bytes_le p.toArchive he
  have hentry : e.content = .data e.bytes ∧ (Text.toUtf8 e.name).length < 0x10000 := by
    simp only [toArchive, List.mem_cons, List.not_mem_nil, or_false] at he
    rcases he with rfl | rfl | rfl | rfl | rfl
    all_goals
      refine ⟨rfl, ?_⟩
      rw [Text.toUtf8_eq]
      dsimp only [Archive.textEntry]
      decide
  exact ⟨hentry.1, hentry.2, by omega⟩

/-- A project reads back from all bytes that hold its archive, and in particular from those that are
written for it, as long as they are below the limit of the format. -/
theorem ofBytes_reads_back (p : Project) :
    (∀ bytes, Archive.ofBytes? bytes = some p.toArchive → ofBytes bytes = .ok p) ∧
      (p.toArchive.toBytes.length < 0xFFFFFFFF → ofBytes p.toArchive.toBytes = .ok p) := by
  have hholds : ∀ bytes, Archive.ofBytes? bytes = some p.toArchive → ofBytes bytes = .ok p := by
    intro bytes hbytes
    rw [ofBytes, hbytes]
    exact ofArchive_toArchive p
  have hcount : p.toArchive.length < 0xFFFF := Nat.lt_of_sub_pos (Nat.succ_pos _)
  exact ⟨hholds, fun hsize =>
    hholds _ (Archive.ofBytes?_toBytes hcount hsize (fits_toArchive hsize))⟩

/-- A project whose texts need escapes, with a constant of an unknown type. -/
def quoted : Project :=
  { document := "<xml/>"
    blockCount := 18446744073709551615
    customBlocks := [{ name := "say \"hi\"", params := ["a\\b"], body := "\tpass\n" }]
    modules :=
      [ { name := "é"
          classes := [{ name := "K", methods := [{ name := "m", params := ["\x01"] }] }]
          constants := [{ name := "c" }, { name := "d", typeName := some "int" }] } ]
    source := "\"\"" }

theorem ofBytes_reads_back_quoted : quoted.toArchive.toBytes.length < 0xFFFFFFFF ∧
    ofBytes quoted.toArchive.toBytes = .ok quoted := by
  have hsize : quoted.toArchive.toBytes.length < 0xFFFFFFFF := by decide +kernel
  exact ⟨hsize, (ofBytes_reads_back quoted).2 hsize⟩

end Project

end Blockwright
