import Blockwright.Compile
import Blockwright.Proofs.Brackets
import Blockwright.Proofs.Registration

/-!
# Rules of operators, literals and names

The stock definitions of operators, literals and names (`Catalogue.plainEntries`), and what their rules
write, given the code in their slots.
-/

namespace Blockwright

open Python

/-! ### Fields -/

/-- The operator with that text. -/
def Python.BinaryOp.ofText? (text : String) : Option BinaryOp :=
  [or, and, eq, ne, lt, gt, le, ge, is, isNot, isIn, notIn, add, sub, mul, div, floorDiv, mod,
    pow].find? fun op => op.text = text

namespace Block

/-- The option that a field holds; a text that is not offered counts as the first option. -/
def chosen (b : Block) (name : String) (options : List String) : String :=
  match b.fields.get? name with
  | some text => if text ∈ options then text else options.headD ""
  | none => options.headD ""

/-- The number that a field holds; a text that is no number counts as zero. -/
def numberText (b : Block) (name : String) : String :=
  match b.fields.get? name with
  | some text => ((Binary64.read? text).map Binary64.literal).getD "0"
  | none => "0"

theorem numberText_cases (b : Block) (name : String) :
    b.numberText name = "0" ∨ ∃ x : Binary64, b.numberText name = x.literal := by
  unfold numberText
  split
  · next text _ =>
    cases Binary64.read? text with
    | none => exact .inl rfl
    | some x => exact .inr ⟨x, rfl⟩
  · exact .inl rfl

theorem chosen_mem (b : Block) (name : String) {options : List String} (h : options ≠ []) :
    b.chosen name options ∈ options := by
  obtain ⟨first, rest, rfl⟩ := List.exists_cons_of_ne_nil h
  unfold chosen
  split
  · split
    · assumption
    · exact List.mem_cons_self
  · exact List.mem_cons_self

end Block

namespace Site

variable {site : Site}

theorem field_choice {name : String} {options : List String}
    (h : site.schema.slot? name =
      some ⟨name, .literal (.choice options), some (options.headD "")⟩) :
    site.field name = site.block.chosen name options := by
  unfold field Block.chosen
  rw [Schema.presetText, h]
  cases site.block.fields.get? name <;> rfl

theorem field_number {name : String} (h : site.schema.slot? name =
    some ⟨name, .literal .number, some "0"⟩) : site.field name = site.block.numberText name := by
  unfold field Block.numberText
  rw [Schema.presetText, h]
  cases site.block.fields.get? name <;> rfl

theorem field_text {name preset : String} (h : site.schema.slot? name =
    some ⟨name, .literal .text, some preset⟩) :
    site.field name = (site.block.fields.get? name).getD preset := by
  unfold field
  rw [Schema.presetText, h]
  cases site.block.fields.get? name <;> rfl

theorem template_field (name : String) : site.template (.expression .atomic [.field name]) =
    .ok (.expression (site.field name) .atomic) := by
  simp [template, pieces, piece, bind, Except.bind, pure, Except.pure]

/-- A binary operator between what stands in the slots `A` and `B`. -/
theorem template_binary {op : BinaryOp} {a b : String} (hop : site.field "OP" = op.text)
    (ha : site.value "A" op.rung.operands.1 = .ok a)
    (hb : site.value "B" op.rung.operands.2 = .ok b) :
    site.template (.binary op.family) =
      .ok (.expression (a ++ " " ++ op.text ++ " " ++ b) op.rung) := by
  rw [template, hop]
  show (do
    let a ← site.value "A" op.rung.operands.1
    let b ← site.value "B" op.rung.operands.2
    return Emission.expression (a ++ " " ++ op.text ++ " " ++ b) op.rung) = _
  rw [ha, hb]
  rfl

end Site

/-! ### Stock definitions of operators, literals and names -/

namespace Catalogue

/-- A type of blocks, with the rule and the slots that it is defined with. -/
structure Entry where
  typeId : String
  rule : Rule
  slots : List Slot

def numberEntry : Entry :=
  ⟨"python_number", .template (.number "NUM"), [⟨"NUM", .literal .number, some "0"⟩]⟩

def nameEntry : Entry :=
  ⟨"python_variable_get", .template (.expression .atomic [.field "VAR"]),
    [⟨"VAR", .literal .text, some "x"⟩]⟩

def booleanEntry : Entry :=
  ⟨"python_boolean", .template (.expression .atomic [.field "BOOL"]),
    [⟨"BOOL", .literal (.choice ["True", "False"]), some "True"⟩]⟩

def noneEntry : Entry := ⟨"python_none", .constant "None", []⟩

/-- An operator between the slots `A` and `B`, chosen from a list. -/
def binaryEntry (typeId preset : String) (family : OperatorFamily) (options : List String) : Entry :=
  ⟨typeId, .template (.binary family), [⟨"A", .value, some preset⟩,
    ⟨"OP", .literal (.choice options), some (options.headD "")⟩, ⟨"B", .value, some preset⟩]⟩

/-- An operator before the slot `VALUE`. -/
def unaryEntry (typeId preset : String) (op : UnaryOp) : Entry :=
  ⟨typeId, .template (.expression op.rung [.code op.lead, .value "VALUE" op.operandRung]),
    [⟨"VALUE", .value, some preset⟩]⟩

def indexEntry : Entry :=
  ⟨"python_index", .template (.expression .member [.value "COLLECTION" .member, .code "[",
      .value "INDEX" .loosest, .code "]"]),
    [⟨"COLLECTION", .value, some "[]"⟩, ⟨"INDEX", .value, some "0"⟩]⟩

def plainEntries : List Entry :=
  [numberEntry, nameEntry, booleanEntry, noneEntry,
    binaryEntry "python_arithmetic" "0" .arithmetic arithmeticOperators,
    binaryEntry "python_compare" "0" .comparison comparisonOperators,
    binaryEntry "python_logic" "False" .logic ["and", "or"],
    unaryEntry "python_negate" "0" .negate, unaryEntry "python_not" "False" .not,
    unaryEntry "python_await" "None" .await, indexEntry]

-- one evaluation of the catalogue for all of them: each takes the kernel a while
theorem find?_plain : ∀ x ∈ plainEntries, (all.find? fun d => d.typeId = x.typeId).map
    (fun d => (d.rule, d.schema.slots, d.schema.shape.fitsValue)) = some (x.rule, x.slots, true) := by
  decide +kernel

/-- The types of operators, literals and names. -/
def plainTypes : List String := plainEntries.map Entry.typeId

end Catalogue

theorem Registry.stock_plain {x : Catalogue.Entry} (hx : x ∈ Catalogue.plainEntries) {d : Definition}
    (hd : stock.lookup? x.typeId = some d) :
    d.rule = x.rule ∧ d.schema.slots = x.slots ∧ d.schema.shape.fitsValue = true := by
  have hfind := Catalogue.find?_plain x hx
  rw [← lookup?_stock, hd] at hfind
  simpa using hfind

theorem Registry.exists_plain {t : String} (ht : t ∈ Catalogue.plainTypes) :
    ∃ d, stock.lookup? t = some d := by
  obtain ⟨x, hx, rfl⟩ := List.mem_map.mp ht
  obtain ⟨d, hd, -⟩ := Option.map_eq_some_iff.mp (Catalogue.find?_plain x hx)
  exact ⟨d, (lookup?_stock x.typeId).trans hd⟩

theorem Emission.ofShape_of_fitsValue {shape : Shape} (h : shape.fitsValue = true) (code : String)
    (produced : Precedence) : ofShape shape code produced = .expression code produced := by
  cases shape <;> first | rfl | cases h

theorem Python.BinaryOp.ofText?_eq_some {text : String} {op : BinaryOp}
    (h : BinaryOp.ofText? text = some op) : op.text = text := by
  simpa using List.find?_some h

/-! ### Rules -/

namespace Site

variable {site : Site} {d : Definition}

theorem rule_number (hd : Registry.stock.lookup? "python_number" = some d)
    (hschema : site.schema = d.schema) :
    site.rule d.rule = .ok (.expression (site.block.numberText "NUM")
      (if (site.block.numberText "NUM").toList.head? = some '-' then .unarySign else .atomic)) := by
  obtain ⟨hrule, hslots, -⟩ := Registry.stock_plain (x := Catalogue.numberEntry)
    (by simp [Catalogue.plainEntries]) hd
  have hfield : site.field "NUM" = site.block.numberText "NUM" :=
    field_number (by simp [Schema.slot?, hschema, hslots, Catalogue.numberEntry])
  rw [hrule, Catalogue.numberEntry, rule, template, hfield]

theorem rule_name (hd : Registry.stock.lookup? "python_variable_get" = some d)
    (hschema : site.schema = d.schema) :
    site.rule d.rule = .ok (.expression ((site.block.fields.get? "VAR").getD "x") .atomic) := by
  obtain ⟨hrule, hslots, -⟩ := Registry.stock_plain (x := Catalogue.nameEntry)
    (by simp [Catalogue.plainEntries]) hd
  have hfield : site.field "VAR" = (site.block.fields.get? "VAR").getD "x" :=
    field_text (by simp [Schema.slot?, hschema, hslots, Catalogue.nameEntry])
  rw [hrule, Catalogue.nameEntry, rule, template_field, hfield]

theorem rule_boolean (hd : Registry.stock.lookup? "python_boolean" = some d)
    (hschema : site.schema = d.schema) :
    site.rule d.rule = .ok (.expression (Constant.text
      (if site.block.chosen "BOOL" ["True", "False"] = "True" then .true else .false)) .atomic) := by
  obtain ⟨hrule, hslots, -⟩ := Registry.stock_plain (x := Catalogue.booleanEntry)
    (by simp [Catalogue.plainEntries]) hd
  have hfield : site.field "BOOL" = site.block.chosen "BOOL" ["True", "False"] :=
    field_choice (by simp [Schema.slot?, hschema, hslots, Catalogue.booleanEntry])
  have hmem : site.block.chosen "BOOL" ["True", "False"] ∈ ["True", "False"] :=
    site.block.chosen_mem "BOOL" (by simp)
  rw [hrule, Catalogue.booleanEntry, rule, template_field, hfield]
  simp only [List.mem_cons, List.not_mem_nil, or_false] at hmem
  rcases hmem with hmem | hmem <;> rw [hmem] <;> rfl

theorem rule_none (hd : Registry.stock.lookup? "python_none" = some d)
    (hschema : site.schema = d.schema) :
    site.rule d.rule = .ok (.expression (Constant.text .none) .atomic) := by
  obtain ⟨hrule, -, hshape⟩ := Registry.stock_plain (x := Catalogue.noneEntry)
    (by simp [Catalogue.plainEntries]) hd
  rw [hrule, Catalogue.noneEntry, rule, hschema, Emission.ofShape_of_fitsValue hshape]
  rfl

/-- Blocks of a type are operators of a family, chosen from a list, between the slots `A` and `B`. -/
structure BinaryEntry (t preset : String) (family : OperatorFamily) (options : List String) :
    Prop where
  entry : Catalogue.binaryEntry t preset family options ∈ Catalogue.plainEntries
  nonempty : options ≠ []
  family_eq : ∀ op : BinaryOp, op.text ∈ options → op.family = family

theorem arithmetic_entry :
    BinaryEntry "python_arithmetic" "0" .arithmetic Catalogue.arithmeticOperators :=
  ⟨by simp [Catalogue.plainEntries], by decide, fun op hop => by revert hop; cases op <;> decide⟩

theorem compare_entry : BinaryEntry "python_compare" "0" .comparison Catalogue.comparisonOperators :=
  ⟨by simp [Catalogue.plainEntries], by decide, fun op hop => by revert hop; cases op <;> decide⟩

theorem logic_entry : BinaryEntry "python_logic" "False" .logic ["and", "or"] :=
  ⟨by simp [Catalogue.plainEntries], by decide, fun op hop => by revert hop; cases op <;> decide⟩

theorem rule_binary {t preset : String} {family : OperatorFamily} {options : List String}
    (hentry : BinaryEntry t preset family options) (hd : Registry.stock.lookup? t = some d)
    (hschema : site.schema = d.schema) {op : BinaryOp}
    (hop : BinaryOp.ofText? (site.block.chosen "OP" options) = some op) {a b : String}
    (ha : site.value "A" op.rung.operands.1 = .ok a)
    (hb : site.value "B" op.rung.operands.2 = .ok b) :
    site.rule d.rule = .ok (.expression (a ++ " " ++ op.text ++ " " ++ b) op.rung) := by
  obtain ⟨hrule, hslots, -⟩ := Registry.stock_plain hentry.entry hd
  have htext := BinaryOp.ofText?_eq_some hop
  have hfield : site.field "OP" = op.text := by
    rw [htext]
    exact field_choice (by simp [Schema.slot?, hschema, hslots, Catalogue.binaryEntry])
  have hfamily := hentry.family_eq op (htext ▸ site.block.chosen_mem "OP" hentry.nonempty)
  rw [hrule, Catalogue.binaryEntry, rule, ← hfamily]
  exact template_binary hfield ha hb

theorem negate_entry : Catalogue.unaryEntry "python_negate" "0" .negate ∈ Catalogue.plainEntries := by
  simp [Catalogue.plainEntries]

theorem not_entry : Catalogue.unaryEntry "python_not" "False" .not ∈ Catalogue.plainEntries := by
  simp [Catalogue.plainEntries]

theorem await_entry : Catalogue.unaryEntry "python_await" "None" .await ∈ Catalogue.plainEntries := by
  simp [Catalogue.plainEntries]

theorem rule_unary {t preset : String} {op : UnaryOp}
    (hentry : Catalogue.unaryEntry t preset op ∈ Catalogue.plainEntries)
    (hd : Registry.stock.lookup? t = some d) {code : String}
    (hcode : site.value "VALUE" op.operandRung = .ok code) :
    site.rule d.rule = .ok (.expression (op.lead ++ code) op.rung) := by
  obtain ⟨hrule, -, -⟩ := Registry.stock_plain hentry hd
  rw [hrule, Catalogue.unaryEntry, rule]
  simp [template, pieces, piece, hcode, bind, Except.bind, pure, Except.pure]

theorem rule_index (hd : Registry.stock.lookup? "python_index" = some d) {collection index : String}
    (hcollection : site.value "COLLECTION" .member = .ok collection)
    (hindex : site.value "INDEX" .loosest = .ok index) :
    site.rule d.rule = .ok (.expression (collection ++ "[" ++ index ++ "]") .member) := by
  obtain ⟨hrule, -, -⟩ := Registry.stock_plain (x := Catalogue.indexEntry)
    (by simp [Catalogue.plainEntries]) hd
  rw [hrule, Catalogue.indexEntry]
  simp [rule, template, pieces, piece, hcollection, hindex, bind, Except.bind, pure, Except.pure,
    String.append_assoc]

end Site

end Blockwright
