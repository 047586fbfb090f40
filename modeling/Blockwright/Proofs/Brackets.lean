import Blockwright.Proofs.Lexing
import Blockwright.Proofs.Unambiguity
import Blockwright.Rule
import Mathlib.Tactic.Choose

/-!
# Brackets

Brackets stand wherever the grammar would group otherwise. Each rung of the precedence ladder is a
phrase of the grammar (`Precedence.phrase`); code is of the phrase of its rung if its operands are of
the phrases of the rungs that it asks for, and that is what wrapping sees to (`Writes.wrap`). `await` is
tight in the grammar and loose on the ladder, so it is bracketed more often than it has to be.

What is looser than an attribute gets brackets before a point, so the point belongs to all that stands
before it; but a number is an atom and gets none, and a whole number takes the point behind it
(`Tree.clashes`). Then a number stands next to a name.

`Writes` is what the code of a tree keeps to: it spells a phrase for the tree, or tokens with a number
next to a name if the tree clashes. So code has its tree as its only reading, or none
(`Writes.reading_iff`).
-/

namespace Blockwright

open Python

/-! ### Rungs and phrases -/

namespace Python

def BinaryOp.family : BinaryOp → OperatorFamily
  | or | and => .logic
  | eq | ne | lt | gt | le | ge | is | isNot | isIn | notIn => .comparison
  | add | sub | mul | div | floorDiv | mod | pow => .arithmetic

/-- The rung that rules give to the operator. -/
def BinaryOp.rung (op : BinaryOp) : Precedence := op.family.precedence op.text

/-- The rung that rules give to the operator. -/
def UnaryOp.rung : UnaryOp → Precedence
  | not => .logicalNot
  | negate => .unarySign
  | await => .await

/-- The rung that rules ask for in the operand. -/
def UnaryOp.operandRung : UnaryOp → Precedence
  | not => .logicalNot
  | negate => .unarySign
  | await => .member

end Python

/-- The phrase of code on a rung of the ladder. -/
def Precedence.phrase : Precedence → Phrase
  | atomic => .atom
  | member => .primary
  | functionCall => .primary
  | exponentiation => .power
  | unarySign => .factor
  | multiplicative => .term
  | additive => .sum
  | relational => .comparison
  | logicalNot => .inversion
  | logicalAnd => .conjunction
  | logicalOr => .disjunction
  | lambda => .disjunction
  | await => .awaited
  | loosest => .disjunction

/-- Code that gets no brackets is of a phrase as tight as the one that is asked for. -/
theorem Precedence.rank_phrase_le {produced required : Precedence} (hreq : required ≠ .await)
    (h : ¬ needsBrackets produced required = true) : produced.phrase.rank ≤ required.phrase.rank := by
  cases required <;> cases produced <;> first | exact absurd rfl hreq | decide | cases h rfl

theorem Precedence.rank_phrase_le_disjunction (produced : Precedence) :
    produced.phrase.rank ≤ Phrase.disjunction.rank := by cases produced <;> decide

theorem Python.BinaryOp.phrase_rung (op : BinaryOp) : op.rung.phrase = op.phrase := by
  cases op <;> decide

theorem Python.BinaryOp.operands_of_associates {op : BinaryOp} (h : op.associates = true) :
    op.rung.operands.1.phrase = op.phrase ∧ op.rung.operands.2.phrase = op.phrase := by
  revert h
  cases op <;> decide

theorem Python.BinaryOp.operands_of_not_associates {op : BinaryOp} (h : op.associates = false) :
    op.rung.operands.1.phrase.rank ≤ op.left.rank ∧
      op.rung.operands.2.phrase.rank ≤ op.right.rank := by
  revert h
  cases op <;> decide

theorem Python.UnaryOp.phrase_rung (op : UnaryOp) : op.rung.phrase = op.phrase := by
  cases op <;> rfl

theorem Python.UnaryOp.phrase_operandRung (op : UnaryOp) : op.operandRung.phrase = op.operand := by
  cases op <;> rfl

theorem Python.UnaryOp.operandRung_ne_await (op : UnaryOp) : op.operandRung ≠ .await := by
  cases op <;> decide

theorem Python.BinaryOp.operands_ne_await (op : BinaryOp) :
    op.rung.operands.1 ≠ .await ∧ op.rung.operands.2 ≠ .await := by cases op <;> decide

namespace Python

/-! ### Methods of whole numbers -/

namespace Tree

def isWhole : Tree → Bool
  | .number text => text.toList.all Char.isDigit
  | _ => false

mutual

/-- Whether an attribute of a whole number is part of the tree. -/
def clashes : Tree → Bool
  | .unary _ e => e.clashes
  | .binary _ a b => a.clashes || b.clashes
  | .subscript e i => e.clashes || i.clashes
  | .member e _ => e.isWhole || e.clashes
  | .call f args => f.clashes || anyClashes args
  | _ => false

def anyClashes : List Tree → Bool
  | [] => false
  | e :: es => e.clashes || anyClashes es

end

theorem anyClashes_eq (es : List Tree) : anyClashes es = es.any clashes := by
  induction es with
  | nil => rfl
  | cons e es ih => rw [anyClashes, ih, List.any_cons]

theorem clashes_chain (op : BinaryOp) (a b : Tree) :
    (chain op a b).clashes = (a.clashes || b.clashes) := by
  fun_induction chain op a b with
  | case1 a₁ a₂ b ih => simp only [clashes, ih, Bool.or_assoc]
  | case2 op' a₁ a₂ b _ => rfl
  | case3 e b _ => rfl

theorem clashes_join (op : BinaryOp) (a b : Tree) :
    (join op a b).clashes = (a.clashes || b.clashes) := by
  unfold join
  split
  · exact clashes_chain op a b
  · rfl

theorem join_cases (op : BinaryOp) (a b : Tree) : ∃ c d, join op a b = .binary op c d := by
  unfold join
  split
  · fun_cases chain op a b with
    | case1 a₁ a₂ => exact ⟨_, _, rfl⟩
    | case2 op' a₁ a₂ _ => exact ⟨_, _, rfl⟩
    | case3 _ => exact ⟨_, _, rfl⟩
  · exact ⟨_, _, rfl⟩

end Tree

/-! ### Code of trees -/

/-- What the code of a tree keeps to, in the place of a phrase. A whole number is written without
brackets everywhere, and all else can stand before a point wherever an attribute can. -/
structure Written (p : Phrase) (code : String) (ts : List Token) (e : Tree) : Prop where
  spells : Spells code ts
  whole : e.isWhole = true →
    ∃ cs, cs ≠ [] ∧ (∀ c ∈ cs, c.isDigit = true) ∧ code = String.ofList cs
  dots : e.isWhole = false → p.rank ≤ Phrase.primary.rank → Dots code ts
  broken : e.clashes = true → broken ts = true
  forms : e.clashes = false → Forms p ts e

/-- The code is a phrase that stands for the tree, unless the tree clashes. -/
def Writes (p : Phrase) (code : String) (e : Tree) : Prop := ∃ ts, Written p code ts e

namespace Writes

variable {p q : Phrase} {code : String} {e : Tree}

theorem mono (h : Writes q code e) (hle : q.rank ≤ p.rank) : Writes p code e := by
  obtain ⟨ts, h⟩ := h
  exact ⟨ts, h.spells, h.whole, fun hwhole hp => h.dots hwhole (Nat.le_trans hle hp), h.broken,
    fun hclash => (h.forms hclash).lift_of_le hle⟩

/-- An atom that ends where it ends. -/
theorem leaf {ts : List Token} (hts : Spells code ts) (hdots : Dots code ts) (hleaf : Leaf ts e)
    (hwhole : e.isWhole = false) (hclash : e.clashes = false) : Writes .atom code e :=
  ⟨ts, hts, by simp [hwhole], fun _ _ => hdots, by simp [hclash], fun _ => .leaf hleaf⟩

theorem name {x : String} (h : isName x = true) : Writes .atom x (.name x) :=
  leaf (.name h) (.name h) (.name x) rfl rfl

theorem constant (c : Constant) : Writes .atom c.text (.constant c) :=
  leaf (.constant c) (.constant c) (.constant c) rfl rfl

theorem number {cs : List Char} (h : isNumeral cs = true) :
    Writes .atom (String.ofList cs) (.number (String.ofList cs)) := by
  refine ⟨_, .number h, fun hwhole => ⟨cs, ?_, ?_, rfl⟩, fun hwhole _ => ?_, by simp [Tree.clashes],
    fun _ => .leaf (.number _)⟩
  · rintro rfl
    cases h
  · simpa [Tree.isWhole] using hwhole
  · obtain ⟨whole, hne, hdigits, rfl | ⟨places, hplaces, rfl⟩⟩ := numeral_cases h
    · have hall : cs.all Char.isDigit = true := List.all_eq_true.mpr hdigits
      rw [Tree.isWhole, String.toList_ofList, hall] at hwhole
      cases hwhole
    · exact .decimal hne hdigits hplaces

theorem brackets (h : Writes .disjunction code e) (hwhole : e.isWhole = false) :
    Writes .atom ("(" ++ code ++ ")") e := by
  obtain ⟨ts, h⟩ := h
  have hsolid := Solid.brackets h.spells
  refine ⟨_, hsolid.spells, by simp [hwhole], fun _ _ => hsolid.dots, fun hclash => ?_,
    fun hclash => .brackets (h.forms hclash)⟩
  rw [broken_cons rfl, broken_append rfl, h.broken hclash]
  rfl

/-- Code that is bracketed where it has to be is of the phrase that is asked for. -/
theorem wrap {produced required : Precedence} (h : Writes produced.phrase code e)
    (hatomic : e.isWhole = true → produced = .atomic) (hreq : required ≠ .await) :
    Writes required.phrase (Precedence.wrap code produced required) e := by
  unfold Precedence.wrap
  split
  · next hbrackets =>
    have hwhole : e.isWhole = false := by
      refine Bool.eq_false_iff.mpr fun hwhole => ?_
      rw [hatomic hwhole] at hbrackets
      cases required <;> cases hbrackets
    exact ((h.mono produced.rank_phrase_le_disjunction).brackets hwhole).mono (Nat.zero_le _)
  · next hbrackets => exact h.mono (Precedence.rank_phrase_le hreq hbrackets)

theorem unary (op : UnaryOp) (h : Writes op.operand code e) :
    Writes op.phrase (op.lead ++ code) (.unary op e) := by
  obtain ⟨ts, h⟩ := h
  have hrank : ¬ op.phrase.rank ≤ Phrase.primary.rank := by cases op <;> decide
  refine ⟨_, .unary op h.spells, nofun, fun _ hp => absurd hp hrank, fun hclash => ?_,
    fun hclash => .unary op (h.forms hclash)⟩
  rw [broken_cons op.separates_token]
  exact h.broken hclash

/-- An operator on the rung of its text, with operands on the rungs that it asks for. -/
theorem binary {op : BinaryOp} {ca cb : String} {a b : Tree}
    (ha : Writes op.rung.operands.1.phrase ca a) (hb : Writes op.rung.operands.2.phrase cb b) :
    Writes op.rung.phrase (ca ++ " " ++ op.text ++ " " ++ cb) (.join op a b) := by
  have hrank : ¬ op.phrase.rank ≤ Phrase.primary.rank := by cases op <;> decide
  rw [op.phrase_rung]
  obtain ⟨ta, ha⟩ := ha
  obtain ⟨tb, hb⟩ := hb
  have hforms : a.clashes = false → b.clashes = false →
      Forms op.phrase (ta ++ (op.tokens ++ tb)) (.join op a b) := by
    intro hca hcb
    have hfa := ha.forms hca
    have hfb := hb.forms hcb
    cases hassoc : op.associates with
    | true =>
      have hoperands := BinaryOp.operands_of_associates hassoc
      rw [hoperands.1] at hfa
      rw [hoperands.2] at hfb
      exact hfa.join hassoc hfb
    | false =>
      have hoperands := BinaryOp.operands_of_not_associates hassoc
      exact .binary op (hfa.lift_of_le hoperands.1) (hfb.lift_of_le hoperands.2)
  obtain ⟨c, d, hjoin⟩ := Tree.join_cases op a b
  refine ⟨_, .binary op ha.spells hb.spells, by simp [hjoin, Tree.isWhole],
    fun _ hp => absurd hp hrank, fun hclash => ?_, fun hclash => ?_⟩
  · rw [Tree.clashes_join, Bool.or_eq_true] at hclash
    rw [op.broken_tokens, Bool.or_eq_true]
    exact hclash.imp ha.broken hb.broken
  · rw [Tree.clashes_join, Bool.or_eq_false_iff] at hclash
    exact hforms hclash.1 hclash.2

theorem subscript {index : String} {i : Tree} (h : Writes .primary code e)
    (hi : Writes .disjunction index i) :
    Writes .primary (code ++ "[" ++ index ++ "]") (.subscript e i) := by
  obtain ⟨ts, h⟩ := h
  obtain ⟨ti, hi⟩ := hi
  have hsolid := Solid.subscript h.spells hi.spells
  refine ⟨_, hsolid.spells, nofun, fun _ _ => hsolid.dots, fun hclash => ?_, fun hclash => ?_⟩
  · rw [Tree.clashes, Bool.or_eq_true] at hclash
    rw [broken_append rfl, broken_append rfl]
    rcases hclash with hclash | hclash
    · rw [h.broken hclash]; rfl
    · rw [hi.broken hclash]; simp
  · rw [Tree.clashes, Bool.or_eq_false_iff] at hclash
    exact .subscript (h.forms hclash.1) (hi.forms hclash.2)

/-- A method of what can stand before a point. -/
theorem method (h : Writes .primary code e) {x : String} (hx : isMethod x = true)
    {args : List (String × Tree)} (hargs : ∀ y ∈ args, Writes .disjunction y.1 y.2) :
    Writes .primary (code ++ "." ++ x ++ "(" ++ Text.joinWith ", " (args.map Prod.fst) ++ ")")
      (.call (.member e x) (args.map Prod.snd)) := by
  obtain ⟨ts, h⟩ := h
  choose! tokens hargs using hargs
  have hspells : ∀ y ∈ args.map fun y => (y.1, tokens y), Spells y.1 y.2 := by
    intro z hz
    obtain ⟨y, hy, rfl⟩ := List.mem_map.mp hz
    exact (hargs y hy).spells
  have hcodes : (args.map fun y => (y.1, tokens y)).map Prod.fst = args.map Prod.fst := by simp
  have htokens : (args.map fun y => (y.1, tokens y)).map Prod.snd =
      (args.map fun y => (tokens y, y.2)).map Prod.fst := by simp
  have htrees : (args.map fun y => (tokens y, y.2)).map Prod.snd = args.map Prod.snd := by simp
  cases hwhole : e.isWhole with
  | true =>
    obtain ⟨cs, hne, hdigits, rfl⟩ := h.whole hwhole
    obtain ⟨n, y, hsolid⟩ := Solid.whole_method hne hdigits hx hspells
    rw [hcodes] at hsolid
    exact ⟨_, hsolid.spells, nofun, fun _ _ => hsolid.dots, fun _ => rfl,
      by simp [Tree.clashes, hwhole]⟩
  | false =>
    have hsolid := Solid.method (h.dots hwhole (Nat.le_refl _)) (isName_of_isMethod hx) hspells
    rw [hcodes, htokens] at hsolid
    refine ⟨_, hsolid.spells, nofun, fun _ _ => hsolid.dots, fun hclash => ?_, fun hclash => ?_⟩
    · simp only [Tree.clashes, hwhole, Bool.false_or, Bool.or_eq_true, Tree.anyClashes_eq,
        List.any_map, List.any_eq_true, Function.comp] at hclash
      rw [broken_append rfl, broken_append rfl, broken_append rfl, broken_commas]
      rcases hclash with hclash | ⟨y, hy, hclash⟩
      · rw [h.broken hclash]
        rfl
      · have hany : ((args.map fun y => (tokens y, y.2)).map Prod.fst).any Python.broken = true := by
          simpa using ⟨_, _, hy, (hargs y hy).broken hclash⟩
        rw [hany]
        simp
    · simp only [Tree.clashes, hwhole, Bool.false_or, Bool.or_eq_false_iff, Tree.anyClashes_eq,
        List.any_map, List.any_eq_false, Function.comp, Bool.not_eq_true] at hclash
      rw [← htrees]
      refine .call (.member (h.forms hclash.1) x) ?_
      intro z hz
      obtain ⟨y, hy, rfl⟩ := List.mem_map.mp hz
      exact (hargs y hy).forms (hclash.2 y hy)

end Writes

/-! ### Texts of fields and of empty slots -/

/-- The tree of a number; a sign is an operator. -/
def Tree.ofLiteral (text : String) : Tree :=
  match text.toList with
  | '-' :: cs => .unary .negate (.number (String.ofList cs))
  | cs => .number (String.ofList cs)

/-- The tree of a text that stands for an empty slot. -/
def Tree.ofPreset? : String → Option Tree
  | "0" => some (.number "0")
  | "False" => some (.constant .false)
  | "None" => some (.constant .none)
  | "''" => some .emptyText
  | "\"\"" => some .emptyText
  | "[]" => some .emptyList
  | "\x7b\x7d" => some .emptyDict
  | _ => none

theorem Writes.preset {text : String} {e : Tree} (h : Tree.ofPreset? text = some e) :
    Writes .atom text e := by
  unfold Tree.ofPreset? at h
  split at h
  · cases h; exact .number (show isNumeral ['0'] = true by decide)
  · cases h; exact .constant .false
  · cases h; exact .constant .none
  · cases h; exact .leaf Solid.emptyText.spells Solid.emptyText.dots .singleQuotes rfl rfl
  · cases h; exact .leaf Solid.emptyQuotes.spells Solid.emptyQuotes.dots .doubleQuotes rfl rfl
  · cases h; exact .leaf Solid.emptyList.spells Solid.emptyList.dots .emptyList rfl rfl
  · cases h; exact .leaf Solid.emptyDict.spells Solid.emptyDict.dots .emptyDict rfl rfl
  · cases h

/-! ### Readings -/

/-- The code of a tree has the tree as its only reading, and none if the tree clashes. -/
theorem Writes.reading_iff {p : Phrase} {code : String} {e t : Tree} (h : Writes p code e) :
    (∃ ts, Lexes code.toList ts ∧ Forms .disjunction ts t) ↔ t = e ∧ e.clashes = false := by
  have hloose : p.rank ≤ Phrase.disjunction.rank := by cases p <;> decide
  obtain ⟨ts, h⟩ := h.mono hloose
  constructor
  · rintro ⟨ts', hlexes, hforms⟩
    obtain rfl : ts' = ts := hlexes.det h.spells.lexes
    cases hclash : e.clashes with
    | true =>
      have hbroken := h.broken hclash
      rw [hforms.not_broken] at hbroken
      cases hbroken
    | false => exact ⟨hforms.unique (h.forms hclash), rfl⟩
  · rintro ⟨rfl, hclash⟩
    exact ⟨ts, h.spells.lexes, h.forms hclash⟩

end Python

end Blockwright
