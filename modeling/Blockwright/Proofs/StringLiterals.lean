import Blockwright.Proofs.Connections
import Blockwright.Proofs.Layout
import Blockwright.Proofs.PlainRules

/-!
# String literals

A text block is written as a string literal on one line that denotes its text. A reader of the
literal is in one of two states: behind the backslash of an escape, or not. The code of a character
takes it from the second state back to the second state, so a quote of the text is always met in the
first one (`inEscape_of_escapeChar`), whatever backslashes stand before it.

The literal has no line feed, and it is not blank. Indentation keeps such code in one piece
(`Text.unbroken_of_line`). Main statement: `Compiler.emit_string_denotes_text`.
-/

namespace Blockwright

namespace Text

variable {indent cs ds l later : List Char}

/-! ### Indentation of the code around a text -/

theorem flatMap_indentLine_append (h : cs = [] ∨ cs.getLast? = some '\n') :
    (cutLines (cs ++ ds)).flatMap (indentLine indent) =
      (cutLines cs).flatMap (indentLine indent) ++ (cutLines ds).flatMap (indentLine indent) := by
  rcases h with rfl | h
  · rfl
  · rw [cutLines_append h, List.flatMap_append]

theorem flatMap_indentLine_line (hl : '\n' ∉ l) (hblank : l.all isSpace = false)
    (hlater : later = [] ∨ later.head? = some '\n') :
    (cutLines (l ++ later)).flatMap (indentLine indent) =
      indent ++ l ++ (cutLines later).flatMap (indentLine indent) := by
  have hfilled : ¬ l.all isSpace = true := Bool.eq_false_iff.mp hblank
  cases later with
  | nil =>
    have hne : l ≠ [] := by rintro rfl; cases hblank
    rw [List.append_nil, cutLines_of_not_mem hne hl, List.flatMap_singleton, indentLine,
      if_neg hfilled]
    exact (List.append_nil _).symm
  | cons c later =>
    obtain rfl : c = '\n' := by simpa using hlater
    rw [cutLines_newline hl, List.flatMap_cons, indentLine_newline, if_neg hfilled, cutLines,
      if_pos rfl, List.flatMap_cons, List.append_assoc]
    rfl

theorem exists_last_line (s : String) : ∃ lines line, s = lines ++ line ∧
    (lines = "" ∨ EndsLine lines) ∧ '\n' ∉ line.toList := by
  by_cases hmem : '\n' ∈ s.toList
  · obtain ⟨before, after, hs, hafter⟩ := exists_last_newline hmem
    refine ⟨String.ofList (before ++ ['\n']), String.ofList after, ?_, .inr ?_, ?_⟩
    · rw [← String.ofList_append, List.append_assoc, List.singleton_append, ← hs,
        String.ofList_toList]
    · rw [EndsLine, String.toList_ofList, List.getLast?_concat]
    · rwa [String.toList_ofList]
  · exact ⟨"", s, String.empty_append.symm, .inl rfl, hmem⟩

theorem exists_first_line (s : String) : ∃ rest later, s = rest ++ later ∧ '\n' ∉ rest.toList ∧
    (later = "" ∨ later.toList.head? = some '\n') := by
  by_cases hmem : '\n' ∈ s.toList
  · obtain ⟨before, after, hs, hbefore⟩ := List.eq_append_cons_of_mem hmem
    refine ⟨String.ofList before, String.ofList ('\n' :: after), ?_, ?_, .inr ?_⟩
    · rw [← String.ofList_append, ← hs, String.ofList_toList]
    · rwa [String.toList_ofList]
    · rw [String.toList_ofList, List.head?_cons]
  · exact ⟨s, "", String.append_empty.symm, hmem, .inl rfl⟩

/-- In whatever code the text stands, indentation leaves it in one piece: one indent comes before
the line that the text is in, and the lines before and behind are indented as if they were alone. -/
def Unbroken (token : String) : Prop :=
  ∀ indent before after : String, ∃ lines line rest later,
    before = lines ++ line ∧ (lines = "" ∨ EndsLine lines) ∧ '\n' ∉ line.toList ∧
    after = rest ++ later ∧ '\n' ∉ rest.toList ∧ (later = "" ∨ later.toList.head? = some '\n') ∧
    indentLines indent (before ++ token ++ after) =
      indentLines indent lines ++ (indent ++ line ++ token ++ rest) ++ indentLines indent later

theorem unbroken_of_line {token : String} (hline : '\n' ∉ token.toList)
    (hblank : isBlank token = false) : Unbroken token := by
  intro indent before after
  obtain ⟨lines, line, hbefore, hlines, hnot⟩ := exists_last_line before
  obtain ⟨rest, later, hafter, hrest, hlater⟩ := exists_first_line after
  refine ⟨lines, line, rest, later, hbefore, hlines, hnot, hafter, hrest, hlater, ?_⟩
  have hl : '\n' ∉ line.toList ++ token.toList ++ rest.toList := by simp [hnot, hline, hrest]
  have hfilled : (line.toList ++ token.toList ++ rest.toList).all isSpace = false := by
    rw [List.all_append, List.all_append, show token.toList.all isSpace = false from hblank]
    simp
  have hcode : (before ++ token ++ after).toList =
      lines.toList ++ (line.toList ++ token.toList ++ rest.toList ++ later.toList) := by
    simp [hbefore, hafter]
  have hlines : lines.toList = [] ∨ lines.toList.getLast? = some '\n' :=
    hlines.imp (fun h => by rw [h]; rfl) id
  have hlater : later.toList = [] ∨ later.toList.head? = some '\n' :=
    hlater.imp (fun h => by rw [h]; rfl) id
  rw [indentLines, hcode, flatMap_indentLine_append hlines,
    flatMap_indentLine_line hl hfilled hlater]
  simp [indentLines, String.append_assoc]

end Text

namespace Python

variable {c : Char} {cs before after rest : List Char}

/-! ### Reading a string literal -/

/-- Whether a reader that has come through the characters, from behind the opening quote, is behind
the backslash of an escape. -/
def inEscape (cs : List Char) : Bool := cs.foldl (fun escaped c => !escaped && c == '\\') false

/-- The escapes: the character behind the backslash, and the one that it stands for. -/
def escapes : List (Char × Char) :=
  [('\\', '\\'), ('"', '"'), ('n', '\n'), ('r', '\r'), ('t', '\t')]

/-- The text that characters spell, from inside an escape or not. There is none if they end inside
an escape or have one that is not listed. -/
def decodeFrom (escaped : Bool) : List Char → Option (List Char)
  | [] => if escaped then none else some []
  | c :: cs =>
    if escaped then (escapes.lookup c).bind fun d => (decodeFrom false cs).map (d :: ·)
    else if c = '\\' then decodeFrom true cs
    else (decodeFrom false cs).map (c :: ·)

/-- In double quotes, the code is a string literal on one line that denotes the text. -/
structure Denotes (code text : String) : Prop where
  oneLine : ∀ c ∈ ['\n', '\r', '\t'], c ∉ code.toList
  /-- With the closing quote behind it, a quote is outside escapes only if it is that one. -/
  closes : ∀ before after, code.toList ++ ['"'] = before ++ '"' :: after →
    (inEscape before = false ↔ after = [])
  decodes : decodeFrom false code.toList = some text.toList

/-- The code of a character. -/
def escapeChar (c : Char) : List Char :=
  if c = '\\' then ['\\', '\\']
  else if c = '"' then ['\\', '"']
  else if c = '\n' then ['\\', 'n']
  else if c = '\r' then ['\\', 'r']
  else if c = '\t' then ['\\', 't']
  else [c]

theorem toList_escapeString (text : String) :
    (escapeString text).toList = text.toList.flatMap escapeChar :=
  String.toList_ofList

theorem escapes_facts : ∀ x ∈ escapes, escapeChar x.2 = ['\\', x.1] ∧
    escapes.lookup x.1 = some x.2 ∧ x.1 ∉ ['\n', '\r', '\t'] := by decide

/-- A character is written as an escape, or as itself. -/
theorem escapeChar_cases (c : Char) :
    (∃ d, escapeChar c = ['\\', d] ∧ escapes.lookup d = some c ∧ d ∉ ['\n', '\r', '\t']) ∨
    (escapeChar c = [c] ∧ c ≠ '\\' ∧ c ≠ '"' ∧ c ∉ ['\n', '\r', '\t']) := by
  by_cases hmem : ∃ x ∈ escapes, x.2 = c
  · obtain ⟨x, hx, rfl⟩ := hmem
    exact .inl ⟨x.1, escapes_facts x hx⟩
  · have hne : ∀ x ∈ escapes, c ≠ x.2 := fun x hx hc => hmem ⟨x, hx, hc.symm⟩
    simp only [escapes, List.forall_mem_cons] at hne
    obtain ⟨hslash, hquote, hn, hr, ht, -⟩ := hne
    rw [escapeChar, if_neg hslash, if_neg hquote, if_neg hn, if_neg hr, if_neg ht]
    exact .inr ⟨rfl, hslash, hquote, by simp [hn, hr, ht]⟩

theorem inEscape_append (h : inEscape cs = false) (rest : List Char) :
    inEscape (cs ++ rest) = inEscape rest := by
  unfold inEscape at *
  rw [List.foldl_append, h]

theorem inEscape_escapeChar (c : Char) : inEscape (escapeChar c) = false := by
  rcases escapeChar_cases c with ⟨d, hd, -⟩ | ⟨hc, hslash, -⟩
  · rw [hd]
    rfl
  · rw [hc]
    simp [inEscape, hslash]

theorem inEscape_flatMap (cs : List Char) : inEscape (cs.flatMap escapeChar) = false := by
  induction cs with
  | nil => rfl
  | cons c cs ih => rw [List.flatMap_cons, inEscape_append (inEscape_escapeChar c), ih]

/-- A quote in the code of a character is behind a backslash. -/
theorem inEscape_of_escapeChar (h : escapeChar c = before ++ '"' :: after) :
    inEscape before = true := by
  rcases escapeChar_cases c with ⟨d, hd, -⟩ | ⟨hc, -, hquote, -⟩
  · rw [hd] at h
    rcases before with _ | ⟨e, _ | ⟨f, before⟩⟩
    · simp at h
    · obtain ⟨rfl, -⟩ := List.cons.inj h
      rfl
    · simp at h
  · rw [hc] at h
    rcases before with _ | ⟨e, before⟩
    · exact absurd (List.cons.inj h).1 hquote
    · simp at h

/-- Only the last quote is outside an escape. -/
theorem eq_nil_of_not_inEscape (h : cs.flatMap escapeChar ++ ['"'] = before ++ '"' :: after)
    (hout : inEscape before = false) : after = [] := by
  induction cs generalizing before with
  | nil =>
    rcases before with _ | ⟨e, before⟩
    · exact (List.cons.inj h).2.symm
    · simp at h
  | cons c cs ih =>
    rw [List.flatMap_cons, List.append_assoc] at h
    -- the quote stands behind the code of `c` or inside it, and there it is escaped
    rcases List.append_eq_append_iff.mp h with ⟨before', rfl, hrest⟩ | ⟨inner, hc, hrest⟩
    · rw [inEscape_append (inEscape_escapeChar c)] at hout
      exact ih hrest hout
    · rcases inner with _ | ⟨d, inner⟩
      · exact @ih [] hrest.symm rfl
      · obtain ⟨rfl, -⟩ := List.cons.inj hrest
        rw [inEscape_of_escapeChar hc] at hout
        cases hout

theorem decodeFrom_escapeChar (c : Char) (rest : List Char) :
    decodeFrom false (escapeChar c ++ rest) = (decodeFrom false rest).map (c :: ·) := by
  rcases escapeChar_cases c with ⟨d, hd, hlookup, -⟩ | ⟨hc, hslash, -⟩
  · rw [hd]
    simp [decodeFrom, hlookup]
  · rw [hc]
    simp [decodeFrom, hslash]

theorem decodeFrom_flatMap (cs : List Char) :
    decodeFrom false (cs.flatMap escapeChar) = some cs := by
  induction cs with
  | nil => rfl
  | cons c cs ih => rw [List.flatMap_cons, decodeFrom_escapeChar, ih]; rfl

theorem not_mem_flatMap_escapeChar (hc : c ∈ ['\n', '\r', '\t']) (cs : List Char) :
    c ∉ cs.flatMap escapeChar := by
  intro hmem
  obtain ⟨e, -, hmem⟩ := List.mem_flatMap.mp hmem
  rcases escapeChar_cases e with ⟨d, hd, -, hbreak⟩ | ⟨he, -, -, hbreak⟩
  · rw [hd] at hmem
    rcases List.mem_cons.mp hmem with rfl | hmem
    · exact absurd hc (by decide)
    · exact hbreak (List.mem_singleton.mp hmem ▸ hc)
  · rw [he] at hmem
    exact hbreak (List.mem_singleton.mp hmem ▸ hc)

theorem denotes_escapeString (text : String) : Denotes (escapeString text) text := by
  refine ⟨fun c hc => ?_, fun before after h => ⟨fun hout => ?_, fun hafter => ?_⟩, ?_⟩
  · rw [toList_escapeString]
    exact not_mem_flatMap_escapeChar hc _
  · rw [toList_escapeString] at h
    exact eq_nil_of_not_inEscape h hout
  · rw [hafter, toList_escapeString] at h
    rw [← List.append_cancel_right h]
    exact inEscape_flatMap _
  · rw [toList_escapeString]
    exact decodeFrom_flatMap _

theorem unbroken_literal (text : String) : Text.Unbroken ("\"" ++ escapeString text ++ "\"") := by
  have hnot := (denotes_escapeString text).oneLine '\n' (by simp)
  refine Text.unbroken_of_line (by simp [hnot]) ?_
  unfold Text.isBlank
  rw [String.append_assoc, String.toList_append, List.all_append, Bool.and_eq_false_iff]
  exact .inl rfl

end Python

/-! ### Text blocks -/

theorem Catalogue.find?_string : (all.find? fun d => d.typeId = "python_string").map
    (fun d => (d.rule, d.schema.slots)) =
      some (.template (.expression .atomic [.code "\"", .quoted "TEXT", .code "\""]),
        [⟨"TEXT", .literal .text, some "hello"⟩]) := by
  decide +kernel

/-- A text block is written as a literal, with the preset text if it holds none. -/
theorem Site.rule_string {site : Site} {d : Definition}
    (hd : Registry.stock.lookup? "python_string" = some d) (hschema : site.schema = d.schema) :
    site.rule d.rule = .ok (.expression
      ("\"" ++ escapeString ((site.block.fields.get? "TEXT").getD "hello") ++ "\"") .atomic) := by
  have hfind := Catalogue.find?_string
  rw [← Registry.lookup?_stock, hd] at hfind
  obtain ⟨hrule, hslots⟩ := Prod.mk.inj (Option.some.inj hfind)
  have hfield : site.field "TEXT" = (site.block.fields.get? "TEXT").getD "hello" :=
    field_text (by simp [Schema.slot?, hschema, hslots])
  rw [hrule, rule, template]
  simp only [pieces, piece, hfield, bind, Except.bind, pure, Except.pure]
  simp [String.append_assoc]

namespace Compiler

open Workspace

/-- A block in a workspace is written by the rule of its type, at some site. -/
theorem emit_eq_rule {c : Compiler} {id : BlockId} {b : Block} {d : Definition}
    (hb : c.workspace.get? id = some b) (hd : c.registry.lookup? b.typeId = some d) :
    ∃ emit chain, c.emit id = Site.rule ⟨c.options, d.schema, b, emit, chain⟩ d.rule := by
  have hcount : [id].length ≤ c.workspace.capacity :=
    length_le_capacity (by simp) (by simpa using ⟨b, hb⟩)
  obtain ⟨fuel, hfuel⟩ : ∃ fuel, c.workspace.capacity = fuel + [id].length :=
    ⟨c.workspace.capacity - [id].length, by omega⟩
  rw [emit, hfuel, List.length_singleton, emitFrom, if_neg List.not_mem_nil, get_of_get? hb]
  simp only [bind, Except.bind, Registry.lookup_of_lookup? hd]
  exact ⟨_, _, rfl⟩

/-- A text block is written as a string literal on one line that denotes its text, and indentation
adds nothing inside the literal. -/
theorem emit_string_denotes_text (digest : String → String) (growth : List Growth) (ws : Workspace)
    (options : Options) (id : BlockId) (b : Block) (hb : ws.get? id = some b)
    (htype : b.typeId = "python_string") :
    let text := (b.fields.get? "TEXT").getD "hello"
    let token := "\"" ++ escapeString text ++ "\""
    emit ⟨Registry.stock.grown digest growth, ws, options⟩ id = .ok (.expression token .atomic) ∧
    Python.Denotes (escapeString text) text ∧ Text.Unbroken token := by
  intro text token
  have hwithin := Registry.within_grown digest Registry.stock growth
  generalize Registry.stock.grown digest growth = registry at hwithin ⊢
  obtain ⟨d, hd, -⟩ := Option.map_eq_some_iff.mp Catalogue.find?_string
  rw [← Registry.lookup?_stock] at hd
  obtain ⟨emit, chain, hemit⟩ := @emit_eq_rule ⟨registry, ws, options⟩ id b d hb
    (htype ▸ hwithin _ d hd)
  refine ⟨?_, Python.denotes_escapeString text, Python.unbroken_literal text⟩
  rw [hemit]
  exact Site.rule_string hd rfl

/-- A text that ends with a backslash, a quote and a line feed. -/
theorem emit_string_denotes_text_path :
    let b : Block := { id := ⟨0⟩, typeId := "python_string",
                       fields := Dict.empty.insert "TEXT" "C:\\temp\\\"\n" }
    let ws : Workspace := { blocks := #[some b], top := [⟨0⟩] }
    ws.get? ⟨0⟩ = some b ∧ b.typeId = "python_string" ∧
    emit ⟨Registry.stock.grown (fun s => s) [], ws, {}⟩ ⟨0⟩ =
      .ok (.expression "\"C:\\\\temp\\\\\\\"\\n\"" .atomic) ∧
    Python.Denotes "C:\\\\temp\\\\\\\"\\n" "C:\\temp\\\"\n" ∧
    Text.Unbroken "\"C:\\\\temp\\\\\\\"\\n\"" := by
  intro b ws
  have hcode : escapeString "C:\\temp\\\"\n" = "C:\\\\temp\\\\\\\"\\n" := by decide +kernel
  have htext : (b.fields.get? "TEXT").getD "hello" = "C:\\temp\\\"\n" := by decide +kernel
  have h := emit_string_denotes_text (fun s => s) [] ws {} ⟨0⟩ b rfl rfl
  simp only [htext, hcode] at h
  exact ⟨rfl, rfl, h⟩

end Compiler

end Blockwright
