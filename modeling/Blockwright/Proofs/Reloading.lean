import Blockwright.Proofs.Loading
import Blockwright.Proofs.Totality
import Blockwright.Proofs.Traversal

/-!
# The program of a reloaded workspace

A document keeps all of a workspace that its program depends on, but for one thing: a text of white
space alone comes back empty. `Compiler.Mirrors` says that two workspaces differ in the numbers of
their blocks and in texts that no rule looks at, and `Compiler.Mirrors.program_eq` that they then
have the same program. A reloaded workspace mirrors the saved one with its lost texts made empty
(`Workspace.kept`), and this one mirrors the saved one itself if no lost text stands in a field that
is written as it is. Main statement: `Workspace.program_reloaded`.
-/

namespace Blockwright

open Markup

theorem Dict.get?_mapValues {α β : Type} (f : α → β) (d : Dict α) (key : String) :
    (d.mapValues f).get? key = (d.get? key).map f := by
  obtain ⟨entries, _⟩ := d
  simp only [get?, mapValues]
  induction entries with
  | nil => rfl
  | cons e entries ih =>
    rw [List.map_cons, lookup, lookup]
    split
    · rfl
    · exact ih (by assumption : Ascending (e :: entries)).of_cons

theorem Dict.mapValues_id {α : Type} (d : Dict α) : d.mapValues (fun a => a) = d := by
  obtain ⟨entries, _⟩ := d
  simp [mapValues]

/-! ### Mirrored workspaces -/

/-- A block reads from the mirrored slots what it reads from its own. -/
theorem Block.read_mirrored {num : BlockId → BlockId} {b b' : Block}
    {emit emit' : BlockId → Except Fault Emission}
    {chain chain' : BlockId → Except Fault String} (hinputs : b'.inputs = b.inputs.mapValues num)
    (hemit : ∀ j e, emit j = .ok e → emit' (num j) = .ok e)
    (hchain : ∀ j code, chain j = .ok code → chain' (num j) = .ok code)
    {slot : Reading × String} {answer : Answer} (h : b.read emit chain slot = .ok answer) :
    b'.read emit' chain' slot = .ok answer := by
  obtain ⟨kind, slot⟩ := slot
  cases kind with
  | value =>
    rw [Block.read] at h ⊢
    rw [hinputs, Dict.get?_mapValues]
    cases hc : b.inputs.get? slot with
    | none => rw [hc] at h; exact h
    | some child =>
      rw [hc] at h
      dsimp only [Option.map_some] at h ⊢
      cases he : emit child with
      | error fault => rw [he] at h; cases h
      | ok e =>
        rw [he] at h
        rw [hemit child e he]
        cases e with
        | statement code => cases h
        | expression code produced => exact h
  | body =>
    rw [Block.read] at h ⊢
    rw [hinputs, Dict.get?_mapValues]
    cases hc : b.inputs.get? slot with
    | none => rw [hc] at h; exact h
    | some head =>
      rw [hc] at h
      dsimp only [Option.map_some] at h ⊢
      cases hs : chain head with
      | error fault => rw [hs] at h; cases h
      | ok code => rw [hs] at h; rw [hchain head code hs]; exact h

namespace Compiler

open Workspace

variable {c c' : Compiler} {num : BlockId → BlockId}

/-- The second workspace holds the blocks of the first under other numbers, with the same texts
where their rules look at them. -/
structure Mirrors (num : BlockId → BlockId) (c c' : Compiler) : Prop where
  registry : c'.registry = c.registry
  injective : ∀ i j, c.workspace.Live i → c.workspace.Live j → num i = num j → i = j
  block : ∀ id b, c.workspace.get? id = some b → ∃ b', c'.workspace.get? (num id) = some b' ∧
    b'.typeId = b.typeId ∧ b'.inputs = b.inputs.mapValues num ∧ b'.next = b.next.map num ∧
    ∀ d, c.registry.lookup? b.typeId = some d → Site.Resembles d.rule (c.siteOf d b) (c'.siteOf d b')

theorem Mirrors.not_mem_map (h : Mirrors num c c') {id : BlockId} {met : List BlockId}
    (hid : c.workspace.Live id) (hmet : ∀ a ∈ met, c.workspace.Live a) (hnew : id ∉ met) :
    num id ∉ met.map num := by
  intro hmem
  obtain ⟨a, ha, heq⟩ := List.mem_map.mp hmem
  exact hnew (h.injective a id (hmet a ha) hid heq ▸ ha)

/-- What the walk writes in a workspace it also writes in a mirrored one. -/
theorem Mirrors.walk (h : Mirrors num c c') :
    (∀ active id, (∀ a ∈ active, c.workspace.Live a) → ∀ e, c.emitIn silent active id = .ok e →
      c'.emitIn silent (active.map num) (num id) = .ok e) ∧
    ∀ active seen id, (∀ a ∈ active, c.workspace.Live a) → (∀ a ∈ seen, c.workspace.Live a) →
      ∀ code, c.chainIn silent active seen id = .ok code →
      c'.chainIn silent (active.map num) (seen.map num) (num id) = .ok code := by
  apply walk_induction (c := c)
  · intro active id ih hactive e he
    obtain ⟨b, d, answers, hnew, hb, hd, hread, rfl⟩ := emitIn_eq_ok_iff.mp he
    obtain ⟨b', hb', htype, hinputs, -, hsite⟩ := h.block id b hb
    have hid : c.workspace.Live id := ⟨b, hb⟩
    have hlive : ∀ a ∈ id :: active, c.workspace.Live a := List.forall_mem_cons.mpr ⟨hid, hactive⟩
    obtain ⟨ihemit, ihchain⟩ := ih hid hnew
    refine emitIn_eq_ok_iff.mpr ⟨b', d, answers, h.not_mem_map hid hactive hnew, hb', ?_, ?_, ?_⟩
    · rw [h.registry, htype, hd]
    · refine mapM_eq_ok_iff.mpr ((mapM_eq_ok_iff.mp hread).imp fun slot answer hanswer => ?_)
      exact Block.read_mirrored hinputs (fun j => ihemit j hlive)
        (fun j => ihchain j hlive (by simp)) hanswer
    · exact ((hsite d hd).write_eq answers).symm
  · intro active seen id hemit ih hactive hseen code hcode
    obtain ⟨b, e, rest, hnew, hb, he, hrest, rfl⟩ := chainIn_eq_ok_iff.mp hcode
    obtain ⟨b', hb', -, -, hnext, -⟩ := h.block id b hb
    have hid : c.workspace.Live id := ⟨b, hb⟩
    refine chainIn_eq_ok_iff.mpr
      ⟨b', e, rest, h.not_mem_map hid hseen hnew, hb', hemit hactive e he, ?_, rfl⟩
    rw [hnext]
    cases hn : b.next with
    | none => rw [hn] at hrest; exact hrest
    | some next =>
      rw [hn] at hrest
      exact ih hid hnew next hactive (List.forall_mem_cons.mpr ⟨hid, hseen⟩) rest hrest

theorem chainIn_unregistered {id : BlockId} {b : Block} (hb : c.workspace.get? id = some b)
    (hd : c.registry.lookup? b.typeId = none) :
    c.chainIn silent [] [] id = .error (.unknownType b.typeId) := by
  have hemit : c.emitIn silent [] id = .error (.unknownType b.typeId) := by
    rw [emitIn_eq, if_neg List.not_mem_nil, hb]
    simp only [hd]
    rfl
  rw [chainIn_eq, if_neg List.not_mem_nil, hemit]
  rfl

theorem Mirrors.chain_eq (h : Mirrors num c c') (hc : c.Checked) {root : BlockId}
    (hroot : c.workspace.Live root) : c'.chain (num root) = c.chain root := by
  obtain ⟨b, hb⟩ := hroot
  cases hd : c.registry.lookup? b.typeId with
  | none =>
    obtain ⟨b', hb', htype, -⟩ := h.block root b hb
    have hd' : c'.registry.lookup? b'.typeId = none := by rw [h.registry, htype, hd]
    rw [chain_eq_chainIn, chain_eq_chainIn, chainIn_unregistered hb hd, chainIn_unregistered hb' hd',
      htype]
  | some d =>
    obtain ⟨code, hcode⟩ := (hc.emit_ok hb hd).2
    rw [hcode, chain_eq_chainIn]
    rw [chain_eq_chainIn] at hcode
    exact h.walk.2 [] [] root (by simp) (by simp) code hcode

/-- Mirrored workspaces have the same program, or are at fault for the same type. -/
theorem Mirrors.program_eq (h : Mirrors num c c') (hc : c.Checked)
    (htop : c'.workspace.topBlocks = c.workspace.topBlocks.map num) : c'.program = c.program := by
  have hstacks : ∀ roots : List BlockId, (∀ r ∈ roots, c.workspace.Live r) →
      c'.stackTexts (roots.map num) = c.stackTexts roots := by
    intro roots hlive
    induction roots with
    | nil => rfl
    | cons root roots ih =>
      rw [List.map_cons, stackTexts, stackTexts, h.chain_eq hc (hlive root (List.mem_cons_self ..)),
        ih fun r hr => hlive r (List.mem_cons_of_mem _ hr)]
  have hlive : ∀ r ∈ c.workspace.topBlocks, c.workspace.Live r := fun r hr =>
    ((hc.forest.mem_top r).mp (mem_topBlocks.mp hr)).1
  rw [program, program, htop, hstacks _ hlive]

end Compiler

/-! ### Lost texts -/

theorem isSpace_of_isGap {ch : Char} (h : Text.isGap ch = true) : Text.isSpace ch = true := by
  simp only [Text.isGap, Bool.or_eq_true, beq_iff_eq] at h
  rcases h with ((rfl | rfl) | rfl) | rfl <;> rfl

/-- A text is lost only if it is blank. -/
theorem keptValue_cases (text : String) :
    keptValue text = text ∨ keptValue text = "" ∧ Text.isBlank text = true := by
  rw [keptValue]
  split
  · next hgap =>
    refine .inr ⟨rfl, List.all_eq_true.mpr fun ch hch => ?_⟩
    exact isSpace_of_isGap (List.all_eq_true.mp hgap ch hch)
  · exact .inl rfl

theorem Binary64.read?_of_isBlank {text : String} (h : Text.isBlank text = true) :
    Binary64.read? text = none := by
  have htrim : Text.trimChars text.toList = [] := by
    rw [Text.trimChars, List.dropWhile_eq_nil_iff.mpr (List.all_eq_true.mp h)]
    rfl
  rw [read?, htrim]
  rfl

/-- The options of a field that has some. -/
def SlotKind.options : SlotKind → List String
  | .literal (.choice options) => options
  | _ => []

namespace Schema

/-- Whether a field shows any text that it has, so neither a number nor one of some options. -/
def isFree (s : Schema) (name : String) : Bool :=
  match (s.slot? name).map Slot.kind with
  | some (.literal .number) => false
  | some (.literal (.choice _)) => false
  | _ => true

/-- No option is blank. -/
def Legible (s : Schema) : Prop :=
  ∀ slot ∈ s.slots, ∀ option ∈ slot.kind.options, Text.isBlank option = false

end Schema

/-- The field that a piece writes even if its text is blank. -/
def Piece.verbatim? : Piece → Option String
  | .field name => some name
  | .quoted name => some name
  | _ => none

def Rule.verbatim : Rule → List String
  | .template (.statement ps) => ps.filterMap Piece.verbatim?
  | .template (.expression _ ps) => ps.filterMap Piece.verbatim?
  | .template (.number name) => [name]
  | .template (.binary _) => ["OP"]
  | _ => []

/-- The fields whose text comes into the code whatever it is. -/
def Definition.verbatim (d : Definition) : List String := d.rule.verbatim.filter d.schema.isFree

namespace Site

/-- The second site is the first as a document gives it back. -/
structure Restored (site site' : Site) : Prop where
  options : site.options = site'.options
  schema : site.schema = site'.schema
  mode : site.block.mode = site'.block.mode
  fields : site'.block.fields = site.block.fields.mapValues keptValue
  legible : site.schema.Legible

namespace Restored

variable {site site' : Site}

/-- A field keeps its text, or it shows blank texts and its own was lost. -/
theorem field_cases (h : Restored site site') (name : String) :
    site.field name = site'.field name ∨
      site.schema.isFree name = true ∧ Text.isBlank (site.field name) = true ∧
      site'.field name = "" ∧
      ∃ text, site.block.fields.get? name = some text ∧ keptValue text ≠ text := by
  rw [field, field, ← h.schema, h.fields, Dict.get?_mapValues]
  cases site.block.fields.get? name with
  | none => exact .inl rfl
  | some text =>
    rw [Option.map_some]
    dsimp only
    by_cases hkept : keptValue text = text
    · rw [hkept]; exact .inl rfl
    · obtain ⟨hempty, hblank⟩ := (keptValue_cases text).resolve_left hkept
      have hlost : ∃ t, some text = some t ∧ keptValue t ≠ t := ⟨text, rfl, hkept⟩
      rw [Schema.isFree, hempty]
      cases hslot : site.schema.slot? name with
      | none => exact .inr ⟨rfl, hblank, rfl, hlost⟩
      | some slot =>
        rw [Option.map_some]
        cases hkind : slot.kind with
        | value => exact .inr ⟨rfl, hblank, rfl, hlost⟩
        | body => exact .inr ⟨rfl, hblank, rfl, hlost⟩
        | literal kind =>
          cases kind with
          | text => exact .inr ⟨rfl, hblank, rfl, hlost⟩
          | number =>
            -- a blank text spells no number, and neither does an empty one
            refine .inl ?_
            have hnone : Binary64.read? "" = none := Binary64.read?_of_isBlank rfl
            simp only [Binary64.read?_of_isBlank hblank, hnone]
          | choice options =>
            have hnot : ∀ t, Text.isBlank t = true → t ∉ options := by
              intro t ht hmem
              have hfalse := h.legible slot (List.mem_of_find?_eq_some hslot) t (by rwa [hkind])
              rw [ht] at hfalse
              cases hfalse
            refine .inl ?_
            dsimp only
            rw [if_neg (hnot text hblank), if_neg (hnot "" rfl)]

/-- What takes all blank texts for the empty one does not see that a text is lost. -/
theorem field_blind (h : Restored site site') {f : String → String}
    (hf : ∀ text, Text.isBlank text = true → f text = f "") (name : String) :
    f (site.field name) = f (site'.field name) := by
  rcases h.field_cases name with heq | ⟨-, hblank, hempty, -⟩
  · rw [heq]
  · rw [hf _ hblank, hempty]

theorem compactArguments_eq (h : Restored site site') (call : CallRule) :
    site.compactArguments call = site'.compactArguments call := by
  rw [compactArguments, compactArguments]
  rcases h.field_cases argsField with heq | ⟨-, hblank, hempty, -⟩
  · rw [heq]
  · have hnone : Text.isBlank "" = true := rfl
    simp only [hblank, hempty, hnone, if_true]

theorem expandedArgument_eq (h : Restored site site') :
    site.expandedArgument = site'.expandedArgument := by
  funext index param
  rw [expandedArgument, expandedArgument, h.fields, Dict.get?_mapValues]
  cases site.block.fields.get? (expandedField index) with
  | none => rfl
  | some text =>
    rw [Option.map_some]
    rcases keptValue_cases text with hkept | ⟨hempty, hblank⟩
    · rw [hkept]
    · have hnone : Text.isBlank "" = true := rfl
      simp [hempty, hblank, hnone, Option.filter]

theorem fixed_eq (h : Restored site site') {p : Piece} (hread : p.read? = none)
    (hname : ∀ name, p.verbatim? = some name → site.field name = site'.field name) :
    site.fixed p = site'.fixed p := by
  cases p with
  | code text => rfl
  | field name => exact hname name rfl
  | quoted name => exact congrArg escapeString (hname name rfl)
  | bracketed name =>
    refine h.field_blind (f := fun text => if Text.isBlank text then "" else "(" ++ text ++ ")")
      (fun text hblank => ?_) name
    rw [if_pos hblank]
    rfl
  | passage name =>
    simp only [fixed, piece, ← h.options]
    refine h.field_blind
      (f := fun text => if Text.isBlank text then site.options.placeholder else text)
      (fun text hblank => ?_) name
    rw [if_pos hblank]
    rfl
  | _ => cases hread

/-- A lost text is missing in the code only where a rule writes it whatever it is. -/
theorem resembles (h : Restored site site') {d : Definition} (hd : site.schema = d.schema)
    (hverbatim : ∀ name ∈ d.verbatim, ∀ text, site.block.fields.get? name = some text →
      keptValue text = text) : Resembles d.rule site site' := by
  have hfield : ∀ name ∈ d.rule.verbatim, site.field name = site'.field name := by
    intro name hname
    rcases h.field_cases name with heq | ⟨hfree, -, -, text, htext, hne⟩
    · exact heq
    · exact absurd (hverbatim name (List.mem_filter.mpr ⟨hname, hd ▸ hfree⟩) text htext) hne
  have hfixed : ∀ ps : List Piece, ps.filterMap Piece.verbatim? = d.rule.verbatim →
      ∀ p ∈ ps, p.read? = none → site.fixed p = site'.fixed p := fun ps hps p hp hread =>
    h.fixed_eq hread fun name hname => hfield name (hps ▸ List.mem_filterMap.mpr ⟨p, hp, hname⟩)
  refine ⟨h.options, h.schema, h.mode, ?_⟩
  cases hrule : d.rule with
  | template t =>
    rw [hrule] at hfield hfixed
    cases t with
    | statement ps => exact hfixed ps rfl
    | expression produced ps => exact hfixed ps rfl
    | number name => exact hfield name (List.mem_singleton.mpr rfl)
    | binary family => exact hfield "OP" (List.mem_singleton.mpr rfl)
  | call call => exact ⟨h.compactArguments_eq call, h.expandedArgument_eq⟩
  | method m => trivial
  | constant text => trivial

end Restored

end Site

/-! ### Legible schemas -/

theorem Catalogue.legible_of_mem_all : ∀ d ∈ Catalogue.all, d.schema.Legible := by
  unfold Schema.Legible
  decide +kernel

theorem CallRule.legible {call : CallRule} {s : Schema} (typeId : String) (shape : Shape)
    (hslots : s.slots = (call.schema typeId shape).slots) : s.Legible := by
  intro slot hslot option hoption
  rw [hslots, CallRule.slots_schema] at hslot
  rcases List.mem_append.mp hslot with hslot | hslot
  · split at hslot
    · rw [List.mem_singleton.mp hslot] at hoption; cases hoption
    · cases hslot
  · obtain ⟨i, -, rfl⟩ := List.mem_map.mp hslot
    cases hoption

theorem Registry.Origin.legible {d : Definition} (h : Origin d) : d.schema.Legible := by
  cases h with
  | stock h => exact Catalogue.legible_of_mem_all d h
  | caller c typeId shape => exact CallRule.legible typeId shape rfl
  | @member m limits member h typeId =>
    rcases Synthesis.definition_cases h typeId with ⟨call, -, hslots⟩ | ⟨text, -, hslots⟩
    · exact CallRule.legible typeId member.shape hslots
    · intro slot hslot
      rw [hslots] at hslot
      cases hslot

/-! ### Reloading -/

/-- The block with the texts that a document gives back. -/
def Block.kept (b : Block) : Block := { b with fields := b.fields.mapValues keptValue }

namespace Workspace

variable {ws : Workspace} {order : List BlockId} {registry : Registry} {options : Options}

/-- The workspace with the texts that a document gives back. -/
def kept (ws : Workspace) : Workspace := { ws with blocks := ws.blocks.map (Option.map Block.kept) }

theorem get?_kept (ws : Workspace) (id : BlockId) :
    ws.kept.get? id = (ws.get? id).map Block.kept := by
  rw [get?, kept, Array.getElem?_map, get?]
  cases ws.blocks[id.index]? <;> rfl

theorem live_kept {id : BlockId} : ws.kept.Live id ↔ ws.Live id := by
  rw [Live, get?_kept, Live]
  simp

theorem target?_kept (p : BlockId) (link : Link) :
    ws.kept.target? p link = ws.target? p link := by
  rw [target?, get?_kept, target?]
  cases ws.get? p with
  | none => rfl
  | some b => cases link <;> rfl

theorem topBlocks_kept : ws.kept.topBlocks = ws.topBlocks := by
  have hkey : ∀ id, ws.kept.stackKey id = ws.stackKey id := by
    intro id
    rw [stackKey, get?_kept, stackKey]
    cases ws.get? id <;> rfl
  simp only [topBlocks, hkey]
  rfl

theorem checked_kept (h : Compiler.Checked ⟨registry, ws, options⟩) :
    Compiler.Checked ⟨registry, ws.kept, options⟩ := by
  have hforest : ws.kept.Forest := by
    refine h.forest.of_views (fun id b hb => ?_) (fun id => live_kept) target?_kept
      (fun id => ?_) rfl
    · rw [get?_kept] at hb
      obtain ⟨b', hb', rfl⟩ := Option.map_eq_some_iff.mp hb
      exact h.forest.numbered id b' hb'
    · rw [parent?, get?_kept]
      show _ = ws.parent? id
      rw [parent?]
      cases ws.get? id <;> rfl
  refine ⟨hforest, ?_, h.sound⟩
  refine h.typed.of_links (fun p link c ht => ?_) (fun id _ => ?_) hforest
  · exact (target?_kept p link).symm.trans ht
  · rw [type?, get?_kept]
    show _ = ws.type? id
    rw [type?]
    cases ws.get? id <;> rfl

/-- A workspace mirrors itself where no text is lost that a rule writes whatever it is. -/
theorem mirrors_kept (hlegible : ∀ t d, registry.lookup? t = some d → d.schema.Legible)
    (hverbatim : ∀ b ∈ ws.live, ∀ d, registry.lookup? b.typeId = some d → ∀ name ∈ d.verbatim,
      ∀ text, b.fields.get? name = some text → keptValue text = text) :
    Compiler.Mirrors (fun id => id) ⟨registry, ws, options⟩ ⟨registry, ws.kept, options⟩ := by
  refine ⟨rfl, fun i j _ _ h => h, fun id b hb => ⟨b.kept, ?_, rfl, ?_, ?_, fun d hd => ?_⟩⟩
  · show ws.kept.get? id = some b.kept
    rw [get?_kept, hb]
    rfl
  · exact (Dict.mapValues_id b.inputs).symm
  · exact Option.map_id'.symm
  · have hsite : Site.Restored (Compiler.siteOf ⟨registry, ws, options⟩ d b)
        (Compiler.siteOf ⟨registry, ws.kept, options⟩ d b.kept) :=
      ⟨rfl, rfl, rfl, rfl, hlegible _ d hd⟩
    exact hsite.resembles rfl (hverbatim b (mem_live_iff.mpr ⟨id, hb⟩) d hd)

theorem get?_renumbered {id : BlockId} (h : id ∈ order) :
    (ws.renumbered order).get? ⟨order.idxOf id⟩ =
      (ws.get? id).map (Block.renumbered fun id => ⟨order.idxOf id⟩) := by
  have hget : order[order.idxOf id]? = some id := List.getElem?_idxOf h
  simp only [get?, renumbered, copies, List.getElem?_toArray, List.getElem?_map, hget,
    Option.map_some, Option.join_some]

/-- The stacks of a reloaded workspace are in order as they stand. -/
theorem topBlocks_renumbered (hroots : ∀ r ∈ ws.topBlocks, r ∈ order ∧ ws.parent? r = none) :
    (ws.renumbered order).topBlocks = ws.topBlocks.map fun id => ⟨order.idxOf id⟩ := by
  have hkey : ∀ r ∈ ws.topBlocks, (ws.renumbered order).stackKey ⟨order.idxOf r⟩ = ws.stackKey r := by
    intro r hr
    obtain ⟨hmem, hparent⟩ := hroots r hr
    rw [stackKey, get?_renumbered hmem, stackKey]
    cases hb : ws.get? r with
    | none => rfl
    | some b =>
      rw [parent?_of_get? hb] at hparent
      simp [Block.renumbered, hparent]
  have hsorted : ws.topBlocks.Pairwise fun a b => keyLe (ws.stackKey a) (ws.stackKey b) = true := by
    refine List.pairwise_mergeSort (fun a b c hab hbc => ?_) (fun a b => ?_) ws.top
    · exact keyLe_trans hab hbc
    · exact keyLe_total _ _
  refine List.mergeSort_of_pairwise (List.pairwise_map.mpr ?_)
  refine hsorted.imp_of_mem fun {a b} ha hb hle => ?_
  rwa [hkey a ha, hkey b hb]

/-- What is loaded mirrors what was saved, but for the lost texts. -/
theorem mirrors_renumbered (hall : ∀ id, ws.Live id → id ∈ order) :
    Compiler.Mirrors (fun id => ⟨order.idxOf id⟩) ⟨registry, ws.kept, options⟩
      ⟨registry, ws.renumbered order, options⟩ := by
  refine ⟨rfl, fun i j hi hj h => ?_, fun id b hb => ?_⟩
  · exact (List.idxOf_inj (hall i (live_kept.mp hi))).mp (congrArg BlockId.index h)
  · obtain ⟨b', hb', rfl⟩ := Option.map_eq_some_iff.mp ((get?_kept ws id).symm.trans hb)
    refine ⟨b'.renumbered fun id => ⟨order.idxOf id⟩, ?_, rfl, rfl, rfl, fun d _ => ?_⟩
    · show (ws.renumbered order).get? _ = _
      rw [get?_renumbered (hall id ⟨b', hb'⟩), hb']
      rfl
    · exact .of_fields rfl rfl rfl rfl

/-- A reloaded workspace has the program of the saved one with its lost texts made empty. -/
theorem program_load_save (h : Compiler.Checked ⟨registry, ws, options⟩)
    (hs : ∀ b ∈ ws.live, b.Savable) : ∃ text ws', ws.save registry = .ok text ∧ load text = .ok ws' ∧
      Compiler.program ⟨registry, ws', options⟩ = Compiler.program ⟨registry, ws.kept, options⟩ := by
  obtain ⟨text, order, hsave, -, -, hmem, hload⟩ := h.forest.load_save hs registry
  have hroots : ∀ r ∈ ws.topBlocks, r ∈ order ∧ ws.parent? r = none := by
    intro r hr
    obtain ⟨hlive, hparent⟩ := (h.forest.mem_top r).mp (mem_topBlocks.mp hr)
    exact ⟨(hmem r).mpr hlive, hparent⟩
  refine ⟨text, ws.renumbered order, hsave, hload, ?_⟩
  refine (mirrors_renumbered fun id => (hmem id).mpr).program_eq (checked_kept h) ?_
  show (ws.renumbered order).topBlocks = ws.kept.topBlocks.map _
  rw [topBlocks_kept, topBlocks_renumbered hroots]

/-- No text is lost that comes into the code whatever it is. -/
def Lossless (registry : Registry) (ws : Workspace) : Prop :=
  ∀ b ∈ ws.live, ∀ d ∈ registry.lookup? b.typeId, ∀ name ∈ d.verbatim, ∀ text ∈ b.fields.get? name,
    keptValue text = text

/-- A workspace that was made by edits can be saved and loaded, and it then has the program that it
had with its texts of white space alone made empty. That is the program it had, unless such a text
stands in a field that is written as it is. -/
theorem program_reloaded (digest : String → String) (growth : List Growth) (ops : List Operation)
    (options : Options)
    (hs : ∀ b ∈ (after (Registry.stock.grown digest growth) ops).live, b.Savable) :
    let registry := Registry.stock.grown digest growth
    let ws := after registry ops
    let program := fun ws => Compiler.program { registry, workspace := ws, options }
    ∃ text ws', ws.save registry = .ok text ∧ load text = .ok ws' ∧ program ws' = program ws.kept ∧
      (Lossless registry ws → program ws' = program ws) := by
  intro registry ws program
  have hc := after_checked digest growth ops options
  obtain ⟨text, ws', hsave, hload, hkept⟩ := program_load_save hc hs
  refine ⟨text, ws', hsave, hload, hkept, fun hlossless => hkept.trans ?_⟩
  have hlegible : ∀ t d, registry.lookup? t = some d → d.schema.Legible := fun t d hd =>
    (Registry.mem_grown digest growth d (Registry.mem_of_lookup? hd)).legible
  have hmirrors : Compiler.Mirrors (fun id => id) ⟨registry, ws, options⟩
      ⟨registry, ws.kept, options⟩ := mirrors_kept hlegible hlossless
  refine hmirrors.program_eq hc ?_
  show ws.kept.topBlocks = ws.topBlocks.map _
  rw [topBlocks_kept, List.map_id']

/-- A class whose bases are white space, and in it the print of a text that begins with a space. -/
def spacedHistory : List Operation :=
  [.add "python_string", .add "python_print", .add "python_class", .setField ⟨0⟩ "TEXT" " a",
    .setField ⟨2⟩ "BASES" "\t ", .connectInput ⟨1⟩ "VALUE" ⟨0⟩, .connectInput ⟨2⟩ "BODY" ⟨1⟩]

theorem spacedHistory_lossless {registry : Registry}
    (h : registry = ⟨Catalogue.all, Catalogue.distinct_all⟩) :
    (∀ b ∈ (after registry spacedHistory).live, b.Savable) ∧
    Lossless registry (after registry spacedHistory) ∧
    Compiler.program ⟨registry, after registry spacedHistory, {}⟩ =
      .ok "class MyClass:\n  print(\" a\")\n" := by
  subst h
  unfold Lossless
  decide +kernel

theorem program_reloaded_spaced :
    let registry := Registry.stock.grown (fun t => t) []
    let ws := after registry spacedHistory
    (∀ b ∈ ws.live, b.Savable) ∧ ∃ text ws', ws.save registry = .ok text ∧ load text = .ok ws' ∧
      Compiler.program { registry, workspace := ws', options := {} } =
        .ok "class MyClass:\n  print(\" a\")\n" := by
  intro registry ws
  obtain ⟨hs, hlossless, hprogram⟩ := spacedHistory_lossless (Registry.stock_grown_nil fun t => t)
  obtain ⟨text, ws', hsave, hload, -, hsame⟩ := program_reloaded (fun t => t) [] spacedHistory {} hs
  exact ⟨hs, text, ws', hsave, hload, (hsame hlossless).trans hprogram⟩

theorem program_space {registry : Registry}
    (h : registry = ⟨Catalogue.all, Catalogue.distinct_all⟩) :
    let ws := after registry [.add "python_string", .setField ⟨0⟩ "TEXT" " "]
    (∀ b ∈ ws.live, b.Savable) ∧ Compiler.program ⟨registry, ws, {}⟩ = .ok "\" \"\n" ∧
      Compiler.program ⟨registry, ws.kept, {}⟩ = .ok "\"\"\n" := by
  subst h
  decide +kernel

/-- A literal of one space comes back as the empty one. -/
theorem program_reloaded_loses_space :
    let registry := Registry.stock.grown (fun t => t) []
    let ws := after registry [.add "python_string", .setField ⟨0⟩ "TEXT" " "]
    let program := fun ws => Compiler.program { registry, workspace := ws, options := {} }
    (∀ b ∈ ws.live, b.Savable) ∧ ∃ text ws', ws.save registry = .ok text ∧ load text = .ok ws' ∧
      program ws = .ok "\" \"\n" ∧ program ws' = .ok "\"\"\n" := by
  intro registry ws program
  obtain ⟨hs, hbefore, hkept⟩ := program_space (Registry.stock_grown_nil fun t => t)
  obtain ⟨text, ws', hsave, hload, hafter⟩ :=
    program_load_save (after_checked (fun t => t) [] _ {}) hs
  exact ⟨hs, text, ws', hsave, hload, hbefore, hafter.trans hkept⟩

end Workspace

end Blockwright
