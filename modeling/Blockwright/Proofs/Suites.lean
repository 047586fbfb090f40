import Blockwright.Proofs.Effects
import Blockwright.Proofs.Indentation
import Blockwright.Proofs.Parts
import Mathlib.Data.List.DropRight

/-!
# Suites with code

A suite must have a line that is neither blank nor a comment. The code of a block starts with the
pieces before the first fixed text of its rule and this text (`Site.line_eq`). In the stock catalogue
this makes a line of code, unless the fixed text is the mark of a comment or the text before it opens
one (`Compiler.hasCode_of_emit`). No chain is blank, so the placeholder is written for an empty slot
alone: a suite has a line of code exactly if its slot is empty or one of its blocks has one, and a
chain of comments has none. Main statement: `Compiler.suite_hasCode_iff`.
-/

namespace Blockwright

/-! ### Lines of code -/

namespace Text

variable {s t indent : String}

/-- Whether the first character that is not white space begins a comment. -/
def opensComment (s : String) : Bool := (s.toList.dropWhile isSpace).head? == some '#'

/-- Some line is neither blank nor a comment. -/
def HasCode (s : String) : Prop := ∃ line ∈ contentLines s, opensComment line = false

instance (s : String) : Decidable (HasCode s) :=
  inferInstanceAs (Decidable (∃ line ∈ contentLines s, opensComment line = false))

theorem opensComment_append (s t : String) :
    opensComment (s ++ t) = if isBlank s then opensComment t else opensComment s := by
  rw [opensComment, String.toList_append, List.dropWhile_append]
  by_cases h : s.toList.dropWhile isSpace = []
  · have hblank : isBlank s = true := List.all_eq_true.mpr (List.dropWhile_eq_nil_iff.mp h)
    rw [h, hblank]
    rfl
  · have hblank : ¬ isBlank s = true := fun hblank =>
      h (List.dropWhile_eq_nil_iff.mpr (List.all_eq_true.mp hblank))
    rw [if_neg hblank, if_neg (by simpa using h), List.head?_append_of_ne_nil _ h]
    rfl

theorem isBlank_append (s t : String) : isBlank (s ++ t) = (isBlank s && isBlank t) := by
  rw [isBlank, String.toList_append, List.all_append]
  rfl

/-- The line of the first character that is not white space. -/
theorem exists_line_of_not_opensComment (cs : List Char) (hblank : isBlank (String.ofList cs) = false)
    (hopen : opensComment (String.ofList cs) = false) : ∃ l ∈ cutLines cs,
      isBlank (String.ofList l) = false ∧ opensComment (String.ofList l) = false := by
  induction cs using lines_induction with
  | nil => exact absurd hblank (by decide)
  | last l hne hl =>
    rw [cutLines_of_not_mem hne hl]
    exact ⟨l, List.mem_singleton_self l, hblank, hopen⟩
  | line l rest hl ih =>
    have hsplit : String.ofList (l ++ '\n' :: rest) =
        String.ofList (l ++ ['\n']) ++ String.ofList rest := by
      rw [← String.ofList_append, List.append_assoc]
      rfl
    rw [hsplit, isBlank_append, Bool.and_eq_false_iff] at hblank
    rw [hsplit, opensComment_append] at hopen
    rw [cutLines_newline hl]
    cases hfirst : isBlank (String.ofList (l ++ ['\n'])) with
    | false =>
      rw [hfirst, if_neg (by simp)] at hopen
      exact ⟨_, List.mem_cons_self .., hfirst, hopen⟩
    | true =>
      rw [hfirst, if_pos rfl] at hopen
      obtain ⟨line, hline, hcode⟩ := ih (hblank.resolve_left (by rw [hfirst]; simp)) hopen
      exact ⟨line, List.mem_cons_of_mem _ hline, hcode⟩

theorem hasCode_of_not_opensComment (hblank : isBlank s = false) (hopen : opensComment s = false) :
    HasCode s := by
  obtain ⟨l, hl, hfilled, hline⟩ := exists_line_of_not_opensComment s.toList
    (by rwa [String.ofList_toList]) (by rwa [String.ofList_toList])
  refine ⟨String.ofList l, List.mem_map.mpr ⟨l, List.mem_filter.mpr ⟨hl, ?_⟩, rfl⟩, hline⟩
  rw [isBlank, String.toList_ofList] at hfilled
  rw [hfilled]
  rfl

theorem hasCode_append (h : EndsLine s) (t : String) : HasCode (s ++ t) ↔ HasCode s ∨ HasCode t := by
  simp only [HasCode, contentLines_append h, List.mem_append, or_and_right, exists_or]

theorem hasCode_indentLines (hnew : '\n' ∉ indent.toList) (hblank : isBlank indent = true)
    (s : String) : HasCode (indentLines indent s) ↔ HasCode s := by
  have hline : ∀ line, opensComment (indent ++ line) = opensComment line := fun line => by
    rw [opensComment_append, if_pos hblank]
  simp [HasCode, contentLines_indentLines hnew, hline]

end Text

open Text

/-! ### Fixed texts -/

/-- The text of a piece that is the same for all blocks. -/
def Piece.fixed? : Piece → Option String
  | .code text => some text
  | _ => none

namespace Rule

/-- The pieces before the first fixed text. -/
def opening : Rule → List Piece
  | .template (.statement ps) => ps.takeWhile fun p => p.fixed?.isNone
  | .template (.expression _ ps) => ps.takeWhile fun p => p.fixed?.isNone
  | .method m => [.value m.receiver .member]
  | _ => []

/-- The first fixed text. -/
def mark : Rule → String
  | .template (.statement ps) => (ps.findSome? Piece.fixed?).getD ""
  | .template (.expression _ ps) => (ps.findSome? Piece.fixed?).getD ""
  | .call function => function.callee ++ "("
  | .method _ => "."
  | .constant text => text
  | _ => ""

end Rule

namespace Site

variable {site : Site} {r : Rule} {e : Emission} {ps : List Piece} {code slot text body : String}
  {head : BlockId}

theorem pieces_opening (h : site.pieces ps = .ok code) : ∃ lead rest,
    site.pieces (ps.takeWhile fun p => p.fixed?.isNone) = .ok lead ∧
      code = lead ++ (ps.findSome? Piece.fixed?).getD "" ++ rest := by
  induction ps generalizing code with
  | nil => exact ⟨"", code, rfl, by simp⟩
  | cons p ps ih =>
    obtain ⟨first, tail, hfirst, htail, rfl⟩ := pieces_cons_eq_ok.mp h
    cases hp : p.fixed? with
    | some text =>
      cases p with
      | code _ =>
        cases hp
        cases hfirst
        exact ⟨"", tail, rfl, by rw [String.empty_append]; rfl⟩
      | _ => cases hp
    | none =>
      obtain ⟨lead, rest, hlead, rfl⟩ := ih htail
      refine ⟨first ++ lead, rest, ?_, ?_⟩
      · rw [List.takeWhile_cons_of_pos (by rw [hp]; rfl)]
        exact pieces_cons_eq_ok.mpr ⟨first, lead, hfirst, hlead, rfl⟩
      · rw [List.findSome?_cons_of_isNone (by rw [hp]; rfl)]
        simp only [String.append_assoc]

theorem line_ofShape (shape : Shape) (code : String) (produced : Precedence) :
    (Emission.ofShape shape code produced).line = code ++ "\n" := by
  cases shape <;> rfl

/-- The code of a block starts with the pieces of the opening and the fixed text. -/
theorem line_eq (h : site.rule r = .ok e) : ∃ lead rest, site.pieces r.opening = .ok lead ∧
    e.line = lead ++ r.mark ++ rest := by
  cases r with
  | template t =>
    cases t with
    | statement ps =>
      obtain ⟨code, hcode, hwrite⟩ := bind_eq_ok_iff.mp h
      cases hwrite
      exact pieces_opening hcode
    | expression produced ps =>
      obtain ⟨code, hcode, hwrite⟩ := bind_eq_ok_iff.mp h
      cases hwrite
      obtain ⟨lead, rest, hlead, rfl⟩ := pieces_opening hcode
      exact ⟨lead, rest ++ "\n", hlead, String.append_assoc ..⟩
    | number name => exact ⟨"", e.line, rfl, by simp [Rule.mark]⟩
    | binary family => exact ⟨"", e.line, rfl, by simp [Rule.mark]⟩
  | call function =>
    obtain ⟨args, -, hwrite⟩ := bind_eq_ok_iff.mp h
    cases hwrite
    refine ⟨"", args ++ ")" ++ "\n", rfl, ?_⟩
    simp only [line_ofShape, Rule.mark, String.append_assoc, String.empty_append]
  | method m =>
    obtain ⟨receiver, hreceiver, h⟩ := bind_eq_ok_iff.mp h
    obtain ⟨args, -, hwrite⟩ := bind_eq_ok_iff.mp h
    cases hwrite
    refine ⟨receiver, m.method ++ "(" ++ joinWith ", " args ++ ")" ++ "\n", ?_, ?_⟩
    · exact pieces_cons_eq_ok.mpr ⟨receiver, "", hreceiver, rfl, String.append_empty⟩
    · simp only [line_ofShape, Rule.mark, String.append_assoc]
  | constant text =>
    cases h
    exact ⟨"", "\n", rfl, by rw [line_ofShape, String.empty_append]; rfl⟩

/-- Code that is shown as it is gives way to the placeholder if it is blank. -/
theorem isBlank_passage (hoptions : site.options = {}) {name : String}
    (h : site.pieces [.passage name] = .ok code) : isBlank code = false := by
  obtain ⟨first, rest, hfirst, hrest, rfl⟩ := pieces_cons_eq_ok.mp h
  cases hfirst
  cases hrest
  rw [String.append_empty, hoptions]
  split
  · decide
  · next hblank => exact Bool.eq_false_iff.mpr hblank

theorem hasCode_placeholder (hoptions : site.options = {})
    (hnone : site.block.inputs.get? slot = none) (h : site.suite slot = .ok text) :
    HasCode text := by
  obtain ⟨body, hbody, rfl⟩ := suite_eq_ok_iff.mp h
  rw [hnone] at hbody
  cases hbody
  rw [hoptions]
  exact hasCode_of_not_opensComment (by decide) (by decide)

theorem hasCode_suite_iff (hoptions : site.options = {})
    (hhead : site.block.inputs.get? slot = some head) (hbody : site.chain head = .ok body)
    (hblank : isBlank body = false) (h : site.suite slot = .ok text) :
    HasCode text ↔ HasCode body := by
  obtain ⟨body', hbody', rfl⟩ := suite_eq_ok_iff.mp h
  rw [hhead, Option.elim_some, hbody] at hbody'
  cases hbody'
  rw [hblank, if_neg (by simp), hoptions]
  exact hasCode_indentLines (by decide) (by decide) body

end Site

theorem Catalogue.mark_of_mem_all : ∀ d ∈ Catalogue.all, d.schema.shape.fitsStatement = true →
    (isBlank d.rule.mark = false ∨ d.rule.opening = [.passage "CODE"]) ∧
      (opensComment d.rule.mark = false ∨ d.typeId = "python_comment") := by
  decide +kernel

theorem Registry.stock_eq : stock = ⟨Catalogue.all, Catalogue.distinct_all⟩ := by
  have hgrown : ∀ r : Registry, r.grown (fun t => t) [] = r := fun _ => rfl
  rw [← stock_grown_nil fun t => t, hgrown]

theorem Registry.mem_all_of_lookup? {t : String} {d : Definition} (h : stock.lookup? t = some d) :
    d ∈ Catalogue.all := by
  rw [← definitions_stock]
  exact mem_of_lookup? h

/-! ### Chains -/

namespace Compiler

variable {c : Compiler} {id head : BlockId} {ids : List BlockId} {e : Emission} {body : String}

/-- The code of the block has a line of code. -/
def WritesCode (c : Compiler) (id : BlockId) : Prop := ∃ e, c.emit id = .ok e ∧ HasCode e.line

/-- A comment, or a block with a text of its own that opens one in front of the fixed text. -/
def OpensComment (c : Compiler) (id : BlockId) : Prop :=
  ∃ b d, c.workspace.get? id = some b ∧ c.registry.lookup? b.typeId = some d ∧
    (b.typeId = "python_comment" ∨
      ∃ lead, (c.siteOf d b).pieces d.rule.opening = .ok lead ∧ opensComment lead = true)

theorem hasCode_chain_iff (hlaid : ∀ t d, c.registry.lookup? t = some d → d.rule.LaidOut)
    (hids : c.workspace.Chain head ids) (h : c.chain head = .ok body) :
    (∀ id ∈ ids, ∃ e, c.emit id = .ok e) ∧ (HasCode body ↔ ∃ id ∈ ids, c.WritesCode id) := by
  have hwrites : ∀ {id e}, c.emit id = .ok e → (HasCode e.line ↔ c.WritesCode id) := by
    intro id e he
    refine ⟨fun hcode => ⟨e, he, hcode⟩, ?_⟩
    rintro ⟨e', he', hcode⟩
    cases he.symm.trans he'
    exact hcode
  induction hids generalizing body with
  | last _ hnext =>
    obtain ⟨b, e, rest, hb, he, hrest, rfl⟩ := line_of_chain h
    have hend : b.next = none := (Workspace.target?_of_get? hb .next).symm.trans hnext
    rw [hend] at hrest
    cases hrest
    rw [String.append_empty, hwrites he]
    simp [he]
  | cons hnext _ ih =>
    obtain ⟨b, e, rest, hb, he, hrest, rfl⟩ := line_of_chain h
    have hlink : b.next = some _ := (Workspace.target?_of_get? hb .next).symm.trans hnext
    rw [hlink] at hrest
    obtain ⟨hemits, hcode⟩ := ih hrest
    rw [hasCode_append (endsLine_emitFrom hlaid he), hwrites he, hcode]
    rw [List.forall_mem_cons, List.exists_mem_cons_iff]
    exact ⟨⟨⟨e, he⟩, hemits⟩, Iff.rfl⟩

/-- What stands where statements stand, and all that is chained to it, can stand in a chain. -/
theorem statement_of_chain {registry : Registry} {ws : Workspace} (hids : ws.Chain head ids)
    (htyped : ws.Typed registry) (hhead : ∃ t, ws.type? head = some t ∧ registry.Statement t) :
    ∀ id ∈ ids, ∃ t, ws.type? id = some t ∧ registry.Statement t := by
  induction hids with
  | last _ _ => simpa using hhead
  | cons hnext _ ih =>
    exact List.forall_mem_cons.mpr ⟨hhead, ih ((htyped _ _ _ hnext).statement rfl)⟩

section Stock

variable (hstock : c.registry = Registry.stock) (hoptions : c.options = {})
include hstock hoptions

/-- A block of a chain is not blank, and has a line of code unless it opens with a comment. -/
theorem hasCode_of_emit {t : String} (ht : c.workspace.type? id = some t)
    (hstatement : c.registry.Statement t) (h : c.emit id = .ok e) :
    isBlank e.line = false ∧ (HasCode e.line ∨ c.OpensComment id) := by
  obtain ⟨b, d, hb, hd, hrule⟩ := rule_of_emit h
  obtain ⟨lead, rest, hlead, hline⟩ := Site.line_eq hrule
  have hall : d ∈ Catalogue.all := Registry.mem_all_of_lookup? (hstock ▸ hd)
  have hfits : d.schema.shape.fitsStatement = true := by
    obtain ⟨d', hd', hfits⟩ := hstatement
    cases (Workspace.type?_of_get? hb).symm.trans ht
    cases hd.symm.trans hd'
    exact hfits
  obtain ⟨hfilled, hmark⟩ := Catalogue.mark_of_mem_all d hall hfits
  have hfilled : isBlank (lead ++ d.rule.mark) = false := by
    rw [isBlank_append, Bool.and_eq_false_iff]
    rcases hfilled with hfilled | hopening
    · exact .inr hfilled
    · rw [hopening] at hlead
      exact .inl (Site.isBlank_passage hoptions hlead)
  have hblank : isBlank e.line = false := by rw [hline, isBlank_append, hfilled, Bool.false_and]
  refine ⟨hblank, ?_⟩
  by_cases hcomment : b.typeId = "python_comment"
  · exact .inr ⟨b, d, hb, hd, .inl hcomment⟩
  by_cases hopens : opensComment lead = true
  · exact .inr ⟨b, d, hb, hd, .inr ⟨lead, hlead, hopens⟩⟩
  -- The line opens as the lead does, or as the fixed text if the lead is blank.
  refine .inl (hasCode_of_not_opensComment hblank ?_)
  rw [hline, opensComment_append, hfilled, if_neg (by simp), opensComment_append]
  split
  · exact hmark.resolve_right fun htype => hcomment ((Registry.typeId_of_lookup? hd).symm.trans htype)
  · exact Bool.eq_false_iff.mpr hopens

end Stock

/-- The suite of an empty slot has a line of code. That of any other slot has one exactly if a block
of the chain in the slot has one, and all of them have, save comments and those that open with one. -/
theorem suite_hasCode_iff (ops : List Operation) :
    let c : Compiler :=
      { registry := Registry.stock
        workspace := Workspace.after Registry.stock ops
        options := {} }
    ∀ p b d slot text, c.workspace.get? p = some b → c.registry.lookup? b.typeId = some d →
      (d.schema.slot? slot).map Slot.kind = some .body → (c.siteOf d b).suite slot = .ok text →
      (b.inputs.get? slot = none → HasCode text) ∧
      ∀ head, b.inputs.get? slot = some head → ∃ ids, c.workspace.Chain head ids ∧
        (HasCode text ↔ ∃ id ∈ ids, c.WritesCode id) ∧
        ∀ id ∈ ids, c.WritesCode id ∨ c.OpensComment id := by
  -- The catalogue is not to be opened where the fields of the compiler are.
  generalize hregistry : Registry.stock = registry
  intro c p b d slot text hb hd hslot h
  have hstock : c.registry = Registry.stock := hregistry.symm
  have hoptions : c.options = {} := rfl
  have hforest : c.workspace.Forest := Workspace.after_forest registry ops
  have htyped : c.workspace.Typed c.registry := Workspace.after_typed registry ops
  refine ⟨fun hnone => Site.hasCode_placeholder hoptions hnone h, fun head hhead => ?_⟩
  have hlink : c.workspace.target? p (.input slot) = some head :=
    (Workspace.target?_of_get? hb (.input slot)).trans hhead
  have hcomplete := Catalogue.complete_of_mem_all d (Registry.mem_all_of_lookup? (hstock ▸ hd))
  have htakes := (takesChain_iff hb hd hcomplete).mpr ((hcomplete.reads .body slot).mpr hslot)
  obtain ⟨body, hbody, -⟩ := Site.suite_eq_ok_iff.mp h
  have hchain : c.chain head = .ok body := by
    simpa only [siteOf, hhead, Option.elim_some] using hbody
  obtain ⟨front, tail, -, hids⟩ := hforest.chainTail_chain (hforest.live_target hlink)
  have hfirst := (htyped p _ head hlink).statement htakes
  have hlaid : ∀ t d, c.registry.lookup? t = some d → d.rule.LaidOut := by
    rw [hstock]
    exact fun t d ht => Catalogue.laidOut_of_mem_all d (Registry.mem_all_of_lookup? ht)
  obtain ⟨hemits, hcode⟩ := hasCode_chain_iff hlaid hids hchain
  have hblank : isBlank body = false := by
    obtain ⟨_, e, rest, -, he, -, rfl⟩ := line_of_chain hchain
    obtain ⟨t, ht, hstatement⟩ := hfirst
    rw [isBlank_append, (hasCode_of_emit hstock hoptions ht hstatement he).1, Bool.false_and]
  refine ⟨front ++ [tail], hids, ?_, fun id hid => ?_⟩
  · rw [← hcode]
    exact Site.hasCode_suite_iff hoptions hhead hchain hblank h
  · obtain ⟨e, he⟩ := hemits id hid
    obtain ⟨t, ht, hstatement⟩ := statement_of_chain hids htyped hfirst id hid
    exact (hasCode_of_emit hstock hoptions ht hstatement he).2.imp_left fun hline => ⟨e, he, hline⟩

theorem all_blocks {ws : Workspace} {p : Block → Bool}
    (h : ws.blocks.toList.all (fun b? => b?.all p) = true) {b : Block} (hb : ws.get? id = some b) :
    p b = true :=
  List.all_eq_true.mp h (some b)
    (Array.mem_toList_iff.mpr (Array.mem_of_getElem? (Option.join_eq_some_iff.mp hb)))

/-- A condition whose suite is a comment. -/
def commentHistory : List Operation :=
  [.add "python_if", .add "python_comment", .connectInput ⟨0⟩ "DO0" ⟨1⟩]

/-- A statement is put behind the comment. -/
def statementHistory : List Operation :=
  commentHistory ++ [.add "python_pass", .connectNext ⟨1⟩ ⟨2⟩]

/-- The kind of a slot, what hangs there, and its suite. -/
def suiteAt? (c : Compiler) (p : BlockId) (slot : String) :
    Option (Option SlotKind × Option BlockId × Except Fault String) := do
  let b ← c.workspace.get? p
  let d ← c.registry.lookup? b.typeId
  return ((d.schema.slot? slot).map Slot.kind, b.inputs.get? slot, (c.siteOf d b).suite slot)

theorem suiteAt?_eq_some {p : BlockId} {slot : String} {kind : Option SlotKind}
    {child : Option BlockId} {text : Except Fault String}
    (h : c.suiteAt? p slot = some (kind, child, text)) :
    ∃ b d, c.workspace.get? p = some b ∧ c.registry.lookup? b.typeId = some d ∧
      (d.schema.slot? slot).map Slot.kind = kind ∧ b.inputs.get? slot = child ∧
      (c.siteOf d b).suite slot = text := by
  obtain ⟨b, hb, h⟩ := Option.bind_eq_some_iff.mp h
  obtain ⟨d, hd, h⟩ := Option.bind_eq_some_iff.mp h
  cases h
  exact ⟨b, d, hb, hd, rfl, rfl, rfl⟩

theorem suiteAt?_histories {registry : Registry}
    (h : registry = ⟨Catalogue.all, Catalogue.distinct_all⟩) :
    let c (ops : List Operation) : Compiler := ⟨registry, Workspace.after registry ops, {}⟩
    (c commentHistory).suiteAt? ⟨0⟩ "DO0" = some (some .body, some ⟨1⟩, .ok "  # comment\n") ∧
    (c commentHistory).workspace.blocks.toList.all (fun b? => b?.all fun b => decide
      (b.typeId ≠ "python_raw" ∧ b.typeId ≠ "python_multiline_code")) = true ∧
    (c statementHistory).suiteAt? ⟨0⟩ "DO0" =
      some (some .body, some ⟨1⟩, .ok "  # comment\n  pass\n") ∧
    (c statementHistory).workspace.target? ⟨1⟩ .next = some ⟨2⟩ ∧
    (c statementHistory).emit ⟨2⟩ = .ok (.statement "pass\n") := by
  subst h
  decide +kernel

theorem suite_hasCode_iff_statement :
    let c : Compiler :=
      { registry := Registry.stock
        workspace := Workspace.after Registry.stock statementHistory
        options := {} }
    ∃ b d, c.workspace.get? ⟨0⟩ = some b ∧ c.registry.lookup? b.typeId = some d ∧
      (d.schema.slot? "DO0").map Slot.kind = some .body ∧
      (c.siteOf d b).suite "DO0" = .ok "  # comment\n  pass\n" ∧
      HasCode "  # comment\n  pass\n" := by
  intro c
  obtain ⟨-, -, hsuite, hnext, hpass⟩ := suiteAt?_histories Registry.stock_eq
  obtain ⟨b, d, hb, hd, hslot, hhead, htext⟩ := suiteAt?_eq_some hsuite
  refine ⟨b, d, hb, hd, hslot, htext, ?_⟩
  obtain ⟨ids, hids, hcode, -⟩ :=
    (suite_hasCode_iff statementHistory ⟨0⟩ b d "DO0" _ hb hd hslot htext).2 ⟨1⟩ hhead
  refine hcode.mpr ⟨⟨2⟩, ?_, .statement "pass\n", hpass, by decide⟩
  cases hids with
  | last _ hlast => cases hnext.symm.trans hlast
  | cons hlink hrest =>
    cases hnext.symm.trans hlink
    cases hrest with
    | last _ _ => simp
    | cons _ _ => simp

/-- A suite of comments gets no placeholder, so it has no line of code. -/
theorem suite_comment_only :
    let c : Compiler :=
      { registry := Registry.stock
        workspace := Workspace.after Registry.stock commentHistory
        options := {} }
    (∀ id b, c.workspace.get? id = some b →
      b.typeId ≠ "python_raw" ∧ b.typeId ≠ "python_multiline_code") ∧
    ∃ b d text, c.workspace.get? ⟨0⟩ = some b ∧ c.registry.lookup? b.typeId = some d ∧
      (d.schema.slot? "DO0").map Slot.kind = some .body ∧
      (c.siteOf d b).suite "DO0" = .ok text ∧ ¬ HasCode text := by
  intro c
  obtain ⟨hsuite, htypes, -⟩ := suiteAt?_histories Registry.stock_eq
  obtain ⟨b, d, hb, hd, hslot, -, htext⟩ := suiteAt?_eq_some hsuite
  exact ⟨fun id b hb => of_decide_eq_true (all_blocks htypes hb),
    b, d, _, hb, hd, hslot, htext, by decide⟩

end Compiler

end Blockwright
