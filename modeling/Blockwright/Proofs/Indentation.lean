import Blockwright.Proofs.Coverage
import Blockwright.Proofs.Lines
import Mathlib.Data.List.Chain
import Mathlib.Data.List.Infix

/-!
# Indentation follows nesting

A statement can be put behind another, and a suite behind the head of its statement, because every
rule that can be registered is laid out in lines (`Rule.LaidOut`): it starts a suite on a new line
and ends the last line of a statement. So the code of a chain is a row of whole lines
(`Compiler.endsLine_emitFrom`), a suite has the lines of its chain with one indent in front of each,
and a block that is nested in `k` suites has the lines that it has on its own with `k` indents in
front (`Compiler.contentLines_of_nested`). Main statement: `Compiler.indentation_mirrors_nesting`.
-/

namespace Blockwright

open Text

/-! ### Rules that are laid out in lines -/

namespace Piece

def isSuite : Piece → Bool
  | .suite _ => true
  | _ => false

/-- Whether the code of the piece ends a line, whatever the block is. -/
def endsLine : Piece → Bool
  | .code text => decide (EndsLine text)
  | .suite _ => true
  | _ => false

end Piece

namespace Rule

/-- Suites start on new lines, statements end their last line, and there are suites in statements
only. -/
def LaidOut : Rule → Prop
  | .template (.statement ps) =>
    ps.IsChain (fun p q => q.isSuite = true → p.endsLine = true) ∧
      ps.getLast?.any Piece.endsLine = true
  | .template (.expression _ ps) => ∀ p ∈ ps, p.isSuite = false
  | _ => True

instance : DecidablePred LaidOut
  | .template (.statement _) => inferInstanceAs (Decidable (_ ∧ _))
  | .template (.expression _ ps) => inferInstanceAs (Decidable (∀ p ∈ ps, p.isSuite = false))
  | .template (.number _) => .isTrue trivial
  | .template (.binary _) => .isTrue trivial
  | .call _ => .isTrue trivial
  | .method _ => .isTrue trivial
  | .constant _ => .isTrue trivial

theorem LaidOut.exists_suite {r : Rule} {slot : String} (h : r.LaidOut)
    (hslot : (.body, slot) ∈ r.reads) : ∃ ps, r = .template (.statement ps) ∧ .suite slot ∈ ps := by
  have hsuite : ∀ ps : List Piece, (.body, slot) ∈ ps.filterMap Piece.read? → .suite slot ∈ ps := by
    intro ps hmem
    obtain ⟨p, hp, hread⟩ := List.mem_filterMap.mp hmem
    cases p with
    | suite name => cases hread; exact hp
    | _ => cases hread
  cases r with
  | template t =>
    cases t with
    | statement ps => exact ⟨ps, rfl, hsuite ps hslot⟩
    | expression produced ps => cases h _ (hsuite ps hslot)
    | number name => cases hslot
    | binary family => simp [reads, Template.reads] at hslot
  | call call => simp [reads] at hslot
  | method m => simp [reads] at hslot
  | constant text => cases hslot

end Rule

theorem Catalogue.laidOut_of_mem_all : ∀ d ∈ Catalogue.all, d.rule.LaidOut := by decide +kernel

theorem Registry.Origin.laidOut {d : Definition} (h : Origin d) : d.rule.LaidOut := by
  cases h with
  | stock h => exact Catalogue.laidOut_of_mem_all d h
  | caller c typeId shape => trivial
  | @member m limits member h typeId =>
    rcases Synthesis.definition_cases h typeId with ⟨call, hrule, -⟩ | ⟨text, hrule, -⟩
    · rw [hrule]; trivial
    · rw [hrule]; trivial

theorem Registry.laidOut_of_lookup?_grown {digest : String → String} {growth : List Growth}
    {t : String} {d : Definition} (h : (stock.grown digest growth).lookup? t = some d) :
    d.rule.LaidOut :=
  (mem_grown digest growth d (mem_of_lookup? h)).laidOut

/-! ### Suites -/

/-- Options by which indents and placeholders stay on their line, and placeholders are seen. -/
structure Options.IsPlain (options : Options) : Prop where
  indent : '\n' ∉ options.indent.toList
  placeholder : '\n' ∉ options.placeholder.toList
  filled : isBlank options.placeholder = false

theorem Options.isPlain_ofWidth (width : Nat) : (ofWidth width).IsPlain := by
  have hspaces : ∀ n, '\n' ∉ (Text.replicate n " ").toList := by
    intro n
    induction n with
    | zero => decide
    | succ n ih => simp [Text.replicate, ih]
  have hpass : '\n' ∉ "pass".toList ∧ isBlank "pass" = false := by decide
  exact ⟨hspaces _, hpass.1, hpass.2⟩

namespace Site

variable {site : Site} {slot text body code : String} {head : BlockId} {p : Piece}
  {ps qs : List Piece} {r : Rule} {e : Emission}

theorem suite_eq_ok_iff : site.suite slot = .ok text ↔
    ∃ body, (site.block.inputs.get? slot).elim (.ok "") site.chain = .ok body ∧
      (if isBlank body then site.options.indent ++ site.options.placeholder ++ "\n"
        else indentLines site.options.indent body) = text := by
  have hread : site.suite slot = (do
      let body ← (site.block.inputs.get? slot).elim (.ok "") site.chain
      if isBlank body then return site.options.indent ++ site.options.placeholder ++ "\n"
      else return indentLines site.options.indent body) := by
    rw [suite]
    cases site.block.inputs.get? slot <;> rfl
  rw [hread, bind_eq_ok_iff]
  refine exists_congr fun body => and_congr_right fun _ => ?_
  split <;> exact ⟨Except.ok.inj, congrArg Except.ok⟩

section Suite

variable (hoptions : site.options.IsPlain)
include hoptions

/-- A suite has the lines of its chain, or else the placeholder, with an indent in front. -/
theorem contentLines_suite (h : site.suite slot = .ok text) :
    ∃ lines, lines ≠ [] ∧ contentLines text = lines.map (site.options.indent ++ ·) := by
  obtain ⟨body, -, rfl⟩ := suite_eq_ok_iff.mp h
  split
  · refine ⟨[site.options.placeholder ++ "\n"], List.cons_ne_nil _ _, ?_⟩
    rw [contentLines_line]
    · rw [List.map_singleton, String.append_assoc]
    · simp [hoptions.indent, hoptions.placeholder]
    · have hfilled : site.options.placeholder.toList.all isSpace = false := hoptions.filled
      rw [isBlank, String.toList_append, List.all_append, hfilled, Bool.and_false]
  · next hblank =>
    exact ⟨contentLines body, fun hnil => hblank (contentLines_eq_nil.mp hnil),
      contentLines_indentLines hoptions.indent body⟩

theorem contentLines_body (h : site.suite slot = .ok text)
    (hhead : site.block.inputs.get? slot = some head) (hbody : site.chain head = .ok body) :
    (contentLines body).map (site.options.indent ++ ·) <:+: contentLines text := by
  obtain ⟨body', hbody', rfl⟩ := suite_eq_ok_iff.mp h
  rw [hhead, Option.elim_some, hbody] at hbody'
  cases hbody'
  split
  · next hblank =>
    rw [contentLines_eq_nil.mpr hblank]
    exact List.nil_infix
  · rw [contentLines_indentLines hoptions.indent]

end Suite

/-! ### Pieces -/

theorem pieces_cons_eq_ok : site.pieces (p :: ps) = .ok code ↔
    ∃ first rest, site.piece p = .ok first ∧ site.pieces ps = .ok rest ∧ first ++ rest = code := by
  simp only [pieces, bind_eq_ok_iff, exists_and_left]
  exact exists_congr fun first => and_congr_right fun _ => exists_congr fun rest =>
    and_congr_right fun _ => ⟨Except.ok.inj, congrArg Except.ok⟩

theorem pieces_append_eq_ok (h : site.pieces (ps ++ qs) = .ok code) :
    ∃ before after, site.pieces ps = .ok before ∧ site.pieces qs = .ok after ∧
      before ++ after = code := by
  induction ps generalizing code with
  | nil => exact ⟨"", code, rfl, h, String.empty_append⟩
  | cons p ps ih =>
    obtain ⟨first, rest, hfirst, hrest, rfl⟩ := pieces_cons_eq_ok.mp h
    obtain ⟨before, after, hbefore, hafter, rfl⟩ := ih hrest
    exact ⟨first ++ before, after, pieces_cons_eq_ok.mpr ⟨first, before, hfirst, hbefore, rfl⟩,
      hafter, String.append_assoc ..⟩

/-- The chains that the site can read are whole lines. -/
def Lined (site : Site) : Prop := ∀ head body, site.chain head = .ok body → EndsLine body

section Lined

variable (hsite : site.Lined)
include hsite

theorem endsLine_suite (h : site.suite slot = .ok text) : EndsLine text := by
  obtain ⟨body, hbody, rfl⟩ := suite_eq_ok_iff.mp h
  split
  · exact endsLine_newline _
  · next hblank =>
    cases hhead : site.block.inputs.get? slot with
    | none =>
      rw [hhead] at hbody
      cases hbody
      exact absurd rfl hblank
    | some head =>
      rw [hhead] at hbody
      exact endsLine_indentLines (hsite head body hbody)

theorem endsLine_piece (hp : p.endsLine = true) (h : site.piece p = .ok code) : EndsLine code := by
  cases p with
  | code text =>
    cases h
    exact of_decide_eq_true hp
  | suite slot => exact endsLine_suite hsite h
  | _ => cases hp

theorem endsLine_pieces (hlast : ps.getLast?.any Piece.endsLine = true)
    (h : site.pieces ps = .ok code) : EndsLine code := by
  obtain ⟨p, hp, hends⟩ := (Option.any_eq_true ..).mp hlast
  obtain ⟨init, rfl⟩ := List.getLast?_eq_some_iff.mp hp
  obtain ⟨before, after, -, hafter, rfl⟩ := pieces_append_eq_ok h
  obtain ⟨last, rest, hlast, hrest, rfl⟩ := pieces_cons_eq_ok.mp hafter
  cases hrest
  rw [String.append_empty]
  exact (endsLine_piece hsite hends hlast).append before

theorem contentLines_pieces (hrow : ps.IsChain fun p q => q.isSuite = true → p.endsLine = true)
    (hslot : .suite slot ∈ ps) (h : site.pieces ps = .ok code) :
    ∃ text, site.suite slot = .ok text ∧ contentLines text <:+: contentLines code := by
  obtain ⟨init, rest, rfl⟩ := List.append_of_mem hslot
  obtain ⟨before, tail, hbefore, htail, rfl⟩ := pieces_append_eq_ok h
  obtain ⟨text, after, htext, -, rfl⟩ := pieces_cons_eq_ok.mp htail
  have hsplit : contentLines (text ++ after) = contentLines text ++ contentLines after :=
    contentLines_append (endsLine_suite hsite htext) after
  refine ⟨text, htext, ?_⟩
  cases hlast : init.getLast? with
  | none =>
    obtain rfl := List.getLast?_eq_none_iff.mp hlast
    cases hbefore
    rw [String.empty_append, hsplit]
    exact (List.prefix_append _ _).isInfix
  | some p =>
    have hends : p.endsLine = true := (List.isChain_append.mp hrow).2.2 p hlast _ rfl rfl
    have hlines : EndsLine before := endsLine_pieces hsite (by rw [hlast]; exact hends) hbefore
    rw [contentLines_append hlines, hsplit]
    exact List.infix_append' _ _ _

/-- A laid out rule writes whole lines. -/
theorem endsLine_rule (hr : r.LaidOut) (h : site.rule r = .ok e) : EndsLine e.line := by
  have hshape : ∀ shape code produced, EndsLine (Emission.ofShape shape code produced).line := by
    intro shape code produced
    cases shape <;> exact endsLine_newline code
  cases r with
  | template t =>
    cases t with
    | statement ps =>
      obtain ⟨code, hcode, hwrite⟩ := bind_eq_ok_iff.mp h
      cases hwrite
      exact endsLine_pieces hsite hr.2 hcode
    | expression produced ps =>
      obtain ⟨code, -, hwrite⟩ := bind_eq_ok_iff.mp h
      cases hwrite
      exact endsLine_newline code
    | number name =>
      cases h
      exact endsLine_newline _
    | binary family =>
      obtain ⟨a, -, h⟩ := bind_eq_ok_iff.mp h
      obtain ⟨b, -, h⟩ := bind_eq_ok_iff.mp h
      cases h
      exact endsLine_newline _
  | call call =>
    obtain ⟨args, -, hwrite⟩ := bind_eq_ok_iff.mp h
    cases hwrite
    exact hshape _ _ _
  | method m =>
    obtain ⟨receiver, -, h⟩ := bind_eq_ok_iff.mp h
    obtain ⟨args, -, h⟩ := bind_eq_ok_iff.mp h
    cases h
    exact hshape _ _ _
  | constant text =>
    cases h
    exact hshape _ _ _

/-- The lines of a suite are among those of the block. -/
theorem contentLines_rule (hr : r.LaidOut) (hslot : (.body, slot) ∈ r.reads)
    (h : site.rule r = .ok e) :
    ∃ text, site.suite slot = .ok text ∧ contentLines text <:+: contentLines e.line := by
  obtain ⟨ps, rfl, hsuite⟩ := hr.exists_suite hslot
  obtain ⟨code, hcode, hwrite⟩ := bind_eq_ok_iff.mp h
  cases hwrite
  exact contentLines_pieces hsite hr.1 hsuite hcode

end Lined

end Site

/-! ### The walk -/

namespace Compiler

variable {c : Compiler} {fuel : Nat} {active seen : List BlockId} {id : BlockId} {text : String}
  {e : Emission}

theorem endsLine_chainFrom {emit : BlockId → Except Fault Emission}
    (hemit : ∀ id e, emit id = .ok e → EndsLine e.line)
    (h : c.chainFrom emit fuel seen id = .ok text) : EndsLine text := by
  induction fuel generalizing seen id text with
  | zero => cases h
  | succ fuel ih =>
    rw [chainFrom] at h
    split at h
    · cases h
    · obtain ⟨e, he, h⟩ := bind_eq_ok_iff.mp h
      obtain ⟨b, -, h⟩ := bind_eq_ok_iff.mp h
      cases hn : b.next with
      | none =>
        rw [hn] at h
        cases h
        exact hemit id e he
      | some next =>
        rw [hn] at h
        obtain ⟨rest, hrest, h⟩ := bind_eq_ok_iff.mp h
        cases h
        exact (ih hrest).append e.line

/-- The site of a block inside the `active` ones, at a point of the walk. -/
def siteIn (c : Compiler) (fuel : Nat) (active : List BlockId) (schema : Schema) (b : Block) : Site :=
  { options := c.options
    schema
    block := b
    emit := c.emitFrom fuel active
    chain := c.chainWith (c.emitFrom fuel active) }

section LaidOut

variable (hlaid : ∀ t d, c.registry.lookup? t = some d → d.rule.LaidOut)
include hlaid

/-- The code of a block, as a part of a chain, is a row of whole lines. -/
theorem endsLine_emitFrom (h : c.emitFrom fuel active id = .ok e) : EndsLine e.line := by
  induction fuel generalizing active id e with
  | zero => cases h
  | succ fuel ih =>
    rw [emitFrom] at h
    split at h
    · cases h
    · obtain ⟨b, -, h⟩ := bind_eq_ok_iff.mp h
      obtain ⟨d, hd, h⟩ := bind_eq_ok_iff.mp h
      have hlined : (c.siteIn fuel (id :: active) d.schema b).Lined := fun head body hbody =>
        endsLine_chainFrom (fun j e he => ih he) hbody
      refine Site.endsLine_rule hlined (hlaid b.typeId d ?_) h
      rw [Registry.lookup] at hd
      split at hd
      · next found => cases hd; exact found
      · cases hd

theorem endsLine_chainWith (h : c.chainWith (c.emitFrom fuel active) id = .ok text) :
    EndsLine text :=
  endsLine_chainFrom (fun _ _ => endsLine_emitFrom hlaid) h

end LaidOut

/-- One block is nested in a number of suites of another, or of blocks behind it. -/
inductive Nested (c : Compiler) : Nat → BlockId → BlockId → Prop
  | here (id : BlockId) : Nested c 0 id id
  | next {k : Nat} {p q id : BlockId} (hlink : c.workspace.target? p .next = some q)
      (h : Nested c k q id) : Nested c k p id
  | body {k : Nat} {p q id : BlockId} {slot : String}
      (hlink : c.workspace.target? p (.input slot) = some q)
      (hslot : Workspace.takesChain c.registry c.workspace p (.input slot) = true)
      (h : Nested c k q id) : Nested c (k + 1) p id

section Nested

variable (hlaid : ∀ t d, c.registry.lookup? t = some d → d.rule.LaidOut)
  (hcomplete : ∀ t d, c.registry.lookup? t = some d → d.Complete) (hoptions : c.options.IsPlain)
include hlaid

theorem contentLines_of_chain (h : c.chain id = .ok text) : ∃ e, c.emit id = .ok e ∧
    contentLines e.line <+: contentLines text := by
  obtain ⟨b, e, rest, -, he, -, rfl⟩ := line_of_chain h
  rw [contentLines_append (endsLine_emitFrom hlaid he)]
  exact ⟨e, he, List.prefix_append _ _⟩

include hcomplete hoptions

theorem contentLines_of_body {p q : BlockId} {slot : String} (h : c.emit p = .ok e)
    (hlink : c.workspace.target? p (.input slot) = some q)
    (hslot : Workspace.takesChain c.registry c.workspace p (.input slot) = true) :
    ∃ body, c.chain q = .ok body ∧
      (contentLines body).map (c.options.indent ++ ·) <:+: contentLines e.line := by
  obtain ⟨b, d, hb, hd, hrule⟩ := rule_of_emit h
  have hread := (takesChain_iff hb hd (hcomplete _ d hd)).mp hslot
  have hlined : (c.siteOf d b).Lined := fun head body => endsLine_chainWith hlaid
  have hplain : (c.siteOf d b).options.IsPlain := hoptions
  obtain ⟨text, htext, hinside⟩ := Site.contentLines_rule hlined (hlaid _ d hd) hread hrule
  have hhead : b.inputs.get? slot = some q :=
    (Workspace.target?_of_get? hb (.input slot)).symm.trans hlink
  obtain ⟨body, hbody, -⟩ := Site.suite_eq_ok_iff.mp htext
  have hbody : c.chain q = .ok body := by
    simpa only [siteOf, hhead, Option.elim_some] using hbody
  exact ⟨body, hbody, (Site.contentLines_body hplain htext hhead hbody).trans hinside⟩

/-- A block has the lines that it has on its own, behind as many indents as it is nested deep. -/
theorem contentLines_of_nested {k : Nat} {p : BlockId} (hnested : c.Nested k p id)
    (h : c.chain p = .ok text) : ∃ e own, c.emit id = .ok e ∧ c.chain id = .ok own ∧
      contentLines e.line <+: contentLines own ∧
      (contentLines e.line).map (Text.replicate k c.options.indent ++ ·) <:+: contentLines text := by
  induction hnested generalizing text with
  | here id =>
    obtain ⟨e, he, hfirst⟩ := contentLines_of_chain hlaid h
    refine ⟨e, text, he, h, hfirst, ?_⟩
    simpa [Text.replicate] using hfirst.isInfix
  | @next k p q id hlink _ ih =>
    obtain ⟨b, e, rest, hb, he, hrest, rfl⟩ := line_of_chain h
    have hnext : b.next = some q := (Workspace.target?_of_get? hb .next).symm.trans hlink
    rw [hnext] at hrest
    obtain ⟨e', own, he', hown, hfirst, hlines⟩ := ih hrest
    refine ⟨e', own, he', hown, hfirst, ?_⟩
    rw [contentLines_append (endsLine_emitFrom hlaid he)]
    exact hlines.trans (List.suffix_append _ _).isInfix
  | @body k p q id slot hlink hslot _ ih =>
    obtain ⟨e, he, hwhole⟩ := contentLines_of_chain hlaid h
    obtain ⟨body, hbody, hinside⟩ := contentLines_of_body hlaid hcomplete hoptions he hlink hslot
    obtain ⟨e', own, he', hown, hfirst, hlines⟩ := ih hbody
    refine ⟨e', own, he', hown, hfirst, ?_⟩
    have hdeeper : (contentLines e'.line).map (Text.replicate (k + 1) c.options.indent ++ ·) =
        ((contentLines e'.line).map (Text.replicate k c.options.indent ++ ·)).map
          (c.options.indent ++ ·) := by
      rw [List.map_map]
      exact List.map_congr_left fun line _ => String.append_assoc ..
    rw [hdeeper]
    exact ((hlines.map _).trans hinside).trans hwhole.isInfix

end Nested

/-- Statements and chains are whole lines. A suite is never empty, all its lines that are not blank
have an indent, and without it they are the lines of the chain in the slot, unless these are all
blank and the placeholder stands for them. So the lines of a block that is nested in `k` suites have
`k` indents more than they have if the block is emitted on its own. -/
theorem indentation_mirrors_nesting (digest : String → String) (growth : List Growth)
    (ws : Workspace) (options : Options) (hoptions : options.IsPlain) :
    let c : Compiler := { registry := Registry.stock.grown digest growth, workspace := ws, options }
    (∀ fuel active id code, c.emitFrom fuel active id = .ok (.statement code) → EndsLine code) ∧
    (∀ fuel active head text, c.chainWith (c.emitFrom fuel active) head = .ok text →
      EndsLine text) ∧
    (∀ fuel active schema b slot text, (c.siteIn fuel active schema b).suite slot = .ok text →
      EndsLine text ∧ contentLines text ≠ [] ∧
      (∀ line ∈ contentLines text, ∃ rest, line = options.indent ++ rest) ∧
      ∃ body, (b.inputs.get? slot).elim (.ok "") (c.chainWith (c.emitFrom fuel active)) = .ok body ∧
        if isBlank body then text = options.indent ++ options.placeholder ++ "\n"
        else dedentLines options.indent text = body) ∧
    ∀ k root id text, c.Nested k root id → c.chain root = .ok text →
      ∃ e own, c.emit id = .ok e ∧ c.chain id = .ok own ∧
        contentLines e.line <+: contentLines own ∧
        (contentLines e.line).map (Text.replicate k options.indent ++ ·) <:+: contentLines text := by
  intro c
  have hlaid : ∀ t d, c.registry.lookup? t = some d → d.rule.LaidOut := fun _ _ =>
    Registry.laidOut_of_lookup?_grown
  refine ⟨fun fuel active id code => endsLine_emitFrom hlaid,
    fun fuel active head text => endsLine_chainWith hlaid, ?_, ?_⟩
  · intro fuel active schema b slot text h
    have hlined : (c.siteIn fuel active schema b).Lined := fun head body => endsLine_chainWith hlaid
    have hplain : (c.siteIn fuel active schema b).options.IsPlain := hoptions
    obtain ⟨lines, hne, hlines⟩ := Site.contentLines_suite hplain h
    obtain ⟨body, hbody, hwrite⟩ := Site.suite_eq_ok_iff.mp h
    refine ⟨Site.endsLine_suite hlined h, by simpa [hlines] using hne, ?_, body, hbody, ?_⟩
    · intro line hline
      rw [hlines] at hline
      obtain ⟨rest, -, rfl⟩ := List.mem_map.mp hline
      exact ⟨rest, rfl⟩
    · rw [← hwrite]
      split
      · rfl
      · exact dedentLines_indentLines hoptions.indent body
  · intro k root id text hnested h
    exact contentLines_of_nested hlaid (fun _ _ => Registry.complete_of_lookup?_grown) hoptions
      hnested h

/-- A class with a method that has two statements, the second one over several lines. -/
def methodWorkspace : Workspace :=
  { blocks :=
      #[some { id := ⟨0⟩, typeId := "python_class", inputs := Dict.empty.insert "BODY" ⟨1⟩ },
        some { id := ⟨1⟩, typeId := "python_def", inputs := Dict.empty.insert "BODY" ⟨2⟩ },
        some { id := ⟨2⟩, typeId := "python_pass", next := some ⟨3⟩ },
        some { id := ⟨3⟩, typeId := "python_raw",
               fields := Dict.empty.insert "CODE" "if x:\n  y = 1\n\nz = 2" }]
    top := [⟨0⟩] }

def methodText : String :=
  "class MyClass:\n  def my_function():\n    pass\n    if x:\n      y = 1\n\n    z = 2\n\n\n"

theorem chain_methodWorkspace {registry : Registry}
    (h : registry = ⟨Catalogue.all, Catalogue.distinct_all⟩) :
    chain ⟨registry, methodWorkspace, .ofWidth 2⟩ ⟨0⟩ = .ok methodText ∧
    emit ⟨registry, methodWorkspace, .ofWidth 2⟩ ⟨3⟩ =
      .ok (.statement "if x:\n  y = 1\n\nz = 2\n") := by
  subst h
  decide +kernel

theorem nested_methodWorkspace {registry : Registry}
    (h : registry = ⟨Catalogue.all, Catalogue.distinct_all⟩) :
    Nested ⟨registry, methodWorkspace, .ofWidth 2⟩ 2 ⟨0⟩ ⟨3⟩ := by
  subst h
  have hclass : methodWorkspace.target? ⟨0⟩ (.input "BODY") = some ⟨1⟩ := rfl
  have hdef : methodWorkspace.target? ⟨1⟩ (.input "BODY") = some ⟨2⟩ := rfl
  have hpass : methodWorkspace.target? ⟨2⟩ .next = some ⟨3⟩ := rfl
  exact .body hclass (by decide +kernel) (.body hdef (by decide +kernel) (.next hpass (.here _)))

theorem indentation_mirrors_nesting_method :
    let c : Compiler :=
      { registry := Registry.stock.grown (fun t => t) []
        workspace := methodWorkspace
        options := .ofWidth 2 }
    c.Nested 2 ⟨0⟩ ⟨3⟩ ∧ c.chain ⟨0⟩ = .ok methodText ∧
    c.emit ⟨3⟩ = .ok (.statement "if x:\n  y = 1\n\nz = 2\n") ∧
    ∃ e own, c.emit ⟨3⟩ = .ok e ∧ c.chain ⟨3⟩ = .ok own ∧
      contentLines e.line <+: contentLines own ∧
      (contentLines e.line).map (Text.replicate 2 (Options.ofWidth 2).indent ++ ·) <:+:
        contentLines methodText := by
  intro c
  have hnested := nested_methodWorkspace (Registry.stock_grown_nil fun t => t)
  have hcode := chain_methodWorkspace (Registry.stock_grown_nil fun t => t)
  exact ⟨hnested, hcode.1, hcode.2,
    (indentation_mirrors_nesting (fun t => t) [] methodWorkspace (.ofWidth 2)
      (Options.isPlain_ofWidth 2)).2.2.2 2 ⟨0⟩ ⟨3⟩ methodText hnested hcode.1⟩

end Compiler

end Blockwright
