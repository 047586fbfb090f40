/-!
# The grammar of expressions

A ladder of phrases, loosest first, with the productions of Python's expressions: disjunctions,
conjunctions, inversions, comparisons of two sums, sums, terms, signs, powers, `await`, and primaries
with subscripts, attributes and calls on top of atoms (`Forms`). Sums and terms group to the left; a
power takes a sign on its right but not on its left. A chain of `and` or of `or` stands for one tree,
however it is grouped (`Tree.join`), so two chains joined by their operator are a chain (`Forms.join`).

No phrase has a number next to a name (`Forms.not_broken`).
-/

namespace Blockwright.Python

inductive UnaryOp
  | not | negate | await
deriving DecidableEq, Repr

inductive BinaryOp
  | or | and
  | eq | ne | lt | gt | le | ge | is | isNot | isIn | notIn
  | add | sub | mul | div | floorDiv | mod | pow
deriving DecidableEq, Repr

inductive Constant
  | true | false | none
deriving DecidableEq, Repr

def Constant.text : Constant → String
  | true => "True"
  | false => "False"
  | none => "None"

/-- Expressions, without their brackets. -/
inductive Tree
  | number (text : String)
  | name (text : String)
  | constant (c : Constant)
  | emptyText
  | emptyList
  | emptyDict
  | unary (op : UnaryOp) (e : Tree)
  | binary (op : BinaryOp) (a b : Tree)
  | subscript (e index : Tree)
  | member (e : Tree) (name : String)
  | call (f : Tree) (args : List Tree)
deriving Repr

/-- A keyword is no name. -/
inductive Token
  | number (text : String)
  | name (text : String)
  | keyword (text : String)
  | symbol (text : String)
deriving DecidableEq, Repr

/-- The phrases of the grammar, from the loosest to the tightest. -/
inductive Phrase
  | disjunction | conjunction | inversion | comparison | sum | term | factor | power | awaited
  | primary | atom
deriving DecidableEq, Repr

namespace Phrase

/-- The place of a phrase on the ladder, from the tightest. -/
def rank : Phrase → Nat
  | atom => 0
  | primary => 1
  | awaited => 2
  | power => 3
  | factor => 4
  | term => 5
  | sum => 6
  | comparison => 7
  | inversion => 8
  | conjunction => 9
  | disjunction => 10

/-- The next tighter phrase. -/
def tighter? : Phrase → Option Phrase
  | disjunction => some conjunction
  | conjunction => some inversion
  | inversion => some comparison
  | comparison => some sum
  | sum => some term
  | term => some factor
  | factor => some power
  | power => some awaited
  | awaited => some primary
  | primary => some atom
  | atom => none

theorem rank_of_tighter? {p q : Phrase} (h : p.tighter? = some q) : p.rank = q.rank + 1 := by
  cases p <;> cases h <;> rfl

theorem rank_inj {p q : Phrase} (h : p.rank = q.rank) : p = q := by
  cases p <;> cases q <;> first | rfl | cases h

/-- What holds of a phrase if it holds of the next tighter one holds of all looser ones. -/
theorem climb {P : Phrase → Prop} (hlift : ∀ {p q}, p.tighter? = some q → P q → P p) {p q : Phrase}
    (hle : q.rank ≤ p.rank) (h : P q) : P p := by
  induction hn : p.rank generalizing p with
  | zero =>
    have : p = q := rank_inj (by omega)
    exact this ▸ h
  | succ n ih =>
    by_cases heq : q.rank = p.rank
    · exact rank_inj heq ▸ h
    · obtain ⟨r, hr⟩ : ∃ r, p.tighter? = some r := by
        cases p <;> first | exact ⟨_, rfl⟩ | cases hn
      have := rank_of_tighter? hr
      exact hlift hr (ih (by omega) (by omega))

end Phrase

namespace UnaryOp

def token : UnaryOp → Token
  | not => .keyword "not"
  | negate => .symbol "-"
  | await => .keyword "await"

/-- The phrase that the operator makes. -/
def phrase : UnaryOp → Phrase
  | not => .inversion
  | negate => .factor
  | await => .awaited

/-- The phrase that the operator takes. -/
def operand : UnaryOp → Phrase
  | not => .inversion
  | negate => .factor
  | await => .primary

end UnaryOp

namespace BinaryOp

def tokens : BinaryOp → List Token
  | or => [.keyword "or"]
  | and => [.keyword "and"]
  | eq => [.symbol "=="]
  | ne => [.symbol "!="]
  | lt => [.symbol "<"]
  | gt => [.symbol ">"]
  | le => [.symbol "<="]
  | ge => [.symbol ">="]
  | is => [.keyword "is"]
  | isNot => [.keyword "is", .keyword "not"]
  | isIn => [.keyword "in"]
  | notIn => [.keyword "not", .keyword "in"]
  | add => [.symbol "+"]
  | sub => [.symbol "-"]
  | mul => [.symbol "*"]
  | div => [.symbol "/"]
  | floorDiv => [.symbol "//"]
  | mod => [.symbol "%"]
  | pow => [.symbol "**"]

/-- The phrase that the operator makes. -/
def phrase : BinaryOp → Phrase
  | or => .disjunction
  | and => .conjunction
  | eq | ne | lt | gt | le | ge | is | isNot | isIn | notIn => .comparison
  | add | sub => .sum
  | mul | div | floorDiv | mod => .term
  | pow => .power

/-- The phrase that the operator takes on its left. -/
def left (op : BinaryOp) : Phrase :=
  match op.phrase with
  | .comparison => .sum
  | .power => .awaited
  | p => p

/-- The phrase that the operator takes on its right. -/
def right (op : BinaryOp) : Phrase :=
  match op.phrase with
  | .disjunction => .conjunction
  | .conjunction => .inversion
  | .comparison => .sum
  | .sum => .term
  | _ => .factor

/-- Whether only the order of the operands of a chain counts, and not their grouping. -/
def associates (op : BinaryOp) : Bool := op = .or || op = .and

end BinaryOp

namespace Tree

/-- Joins two trees by an operator, with the operands of a chain grouped to the right. -/
def chain (op : BinaryOp) : Tree → Tree → Tree
  | .binary op' a b, c =>
    if op' = op then .binary op a (chain op b c) else .binary op (.binary op' a b) c
  | e, c => .binary op e c

/-- Joins two trees by an operator. The grouping of chains of `and` and of `or` does not count. -/
def join (op : BinaryOp) (a b : Tree) : Tree :=
  if op.associates then chain op a b else .binary op a b

theorem chain_binary (op : BinaryOp) (a b c : Tree) :
    chain op (.binary op a b) c = .binary op a (chain op b c) := by rw [chain, if_pos rfl]

theorem chain_assoc (op : BinaryOp) (a b c : Tree) :
    chain op (chain op a b) c = chain op a (chain op b c) := by
  fun_induction chain op a b with
  | case1 a b₁ b ih => rw [chain_binary, chain_binary, ih]
  | case2 op' a b₁ b hne => rw [chain_binary, chain, if_neg hne]
  | case3 e b hne =>
    rw [chain_binary]
    cases e with
    | binary op' a b => exact absurd rfl (hne op' a b)
    | _ => rfl

theorem join_assoc {op : BinaryOp} (hop : op.associates = true) (a b c : Tree) :
    join op (join op a b) c = join op a (join op b c) := by
  simp only [join, hop, if_true]
  exact chain_assoc op a b c

end Tree

/-! ### Phrases -/

/-- The tokens of atoms that have no parts. -/
inductive Leaf : List Token → Tree → Prop
  | number (text : String) : Leaf [.number text] (.number text)
  | name (text : String) : Leaf [.name text] (.name text)
  | constant (c : Constant) : Leaf [.keyword c.text] (.constant c)
  | singleQuotes : Leaf [.symbol "''"] .emptyText
  | doubleQuotes : Leaf [.symbol "\"\""] .emptyText
  | emptyList : Leaf [.symbol "[", .symbol "]"] .emptyList
  | emptyDict : Leaf [.symbol "\x7b", .symbol "\x7d"] .emptyDict

/-- Lists of tokens with commas between them. -/
def commas : List (List Token) → List Token
  | [] => []
  | [ts] => ts
  | ts :: us :: rest => ts ++ .symbol "," :: commas (us :: rest)

/-- The tokens that make up a phrase, and the tree that it stands for. -/
inductive Forms : Phrase → List Token → Tree → Prop
  | lift {p q : Phrase} {ts : List Token} {e : Tree} (hq : p.tighter? = some q)
    (h : Forms q ts e) : Forms p ts e
  | unary {ts : List Token} {e : Tree} (op : UnaryOp) (h : Forms op.operand ts e) :
    Forms op.phrase (op.token :: ts) (.unary op e)
  | binary {ta tb : List Token} {a b : Tree} (op : BinaryOp) (ha : Forms op.left ta a)
    (hb : Forms op.right tb b) : Forms op.phrase (ta ++ (op.tokens ++ tb)) (.join op a b)
  | subscript {ta ti : List Token} {a i : Tree} (ha : Forms .primary ta a)
    (hi : Forms .disjunction ti i) :
    Forms .primary (ta ++ .symbol "[" :: (ti ++ [.symbol "]"])) (.subscript a i)
  | member {ta : List Token} {a : Tree} (ha : Forms .primary ta a) (name : String) :
    Forms .primary (ta ++ [.symbol ".", .name name]) (.member a name)
  | call {tf : List Token} {f : Tree} {args : List (List Token × Tree)} (hf : Forms .primary tf f)
    (hargs : ∀ x ∈ args, Forms .disjunction x.1 x.2) :
    Forms .primary (tf ++ .symbol "(" :: (commas (args.map Prod.fst) ++ [.symbol ")"]))
      (.call f (args.map Prod.snd))
  | brackets {ts : List Token} {e : Tree} (h : Forms .disjunction ts e) :
    Forms .atom (.symbol "(" :: (ts ++ [.symbol ")"])) e
  | leaf {ts : List Token} {e : Tree} (h : Leaf ts e) : Forms .atom ts e

/-! ### How phrases start -/

theorem BinaryOp.rank_left_le (op : BinaryOp) : op.left.rank ≤ op.phrase.rank := by
  cases op <;> decide

theorem Leaf.head {ts : List Token} {e : Tree} (h : Leaf ts e) :
    ∃ t rest, ts = t :: rest ∧ t ≠ .symbol ")" ∧ ∀ op : UnaryOp, t ≠ op.token := by
  cases h with
  | constant c =>
    exact ⟨_, _, rfl, by simp, fun op => by cases op <;> cases c <;> simp [UnaryOp.token, Constant.text]⟩
  | _ => exact ⟨_, _, rfl, by simp, fun op => by cases op <;> simp [UnaryOp.token]⟩

/-- A phrase starts with a unary operator only if it can be one that the operator makes. -/
theorem Forms.head {p : Phrase} {ts : List Token} {e : Tree} (h : Forms p ts e) :
    ∃ t rest, ts = t :: rest ∧ t ≠ .symbol ")" ∧
      ∀ op : UnaryOp, t = op.token → op.phrase.rank ≤ p.rank := by
  induction h with
  | lift hq _ ih =>
    obtain ⟨t, rest, rfl, hclose, hrank⟩ := ih
    refine ⟨t, rest, rfl, hclose, fun op hop => ?_⟩
    have := Phrase.rank_of_tighter? hq
    have := hrank op hop
    omega
  | unary op _ _ =>
    refine ⟨op.token, _, rfl, by cases op <;> simp [UnaryOp.token], fun op' hop => ?_⟩
    have hsame : op = op' := by
      cases op <;> cases op' <;> first | rfl | simp [UnaryOp.token] at hop
    subst hsame
    exact Nat.le_refl _
  | binary op _ _ iha _ =>
    obtain ⟨t, rest, rfl, hclose, hrank⟩ := iha
    refine ⟨t, _, rfl, hclose, fun op' hop => ?_⟩
    exact Nat.le_trans (hrank op' hop) op.rank_left_le
  | subscript _ _ iha _ =>
    obtain ⟨t, rest, rfl, hclose, hrank⟩ := iha
    exact ⟨t, _, rfl, hclose, hrank⟩
  | member _ _ iha =>
    obtain ⟨t, rest, rfl, hclose, hrank⟩ := iha
    exact ⟨t, _, rfl, hclose, hrank⟩
  | call _ _ ihf _ =>
    obtain ⟨t, rest, rfl, hclose, hrank⟩ := ihf
    exact ⟨t, _, rfl, hclose, hrank⟩
  | brackets _ _ =>
    exact ⟨_, _, rfl, by simp, fun op hop => by cases op <;> simp [UnaryOp.token] at hop⟩
  | leaf h =>
    obtain ⟨t, rest, rfl, hclose, hne⟩ := h.head
    exact ⟨t, rest, rfl, hclose, fun op hop => absurd hop (hne op)⟩

/-! ### Chains -/

theorem BinaryOp.eq_of_phrase {op op' : BinaryOp} (h : op.associates = true)
    (hp : op'.phrase = op.phrase) : op' = op := by
  cases op <;> simp [associates] at h <;> cases op' <;> first | rfl | simp [phrase] at hp

theorem BinaryOp.tighter?_phrase {op : BinaryOp} (h : op.associates = true) :
    op.phrase.tighter? = some op.right := by
  cases op <;> simp [associates] at h <;> rfl

theorem BinaryOp.left_eq {op : BinaryOp} (h : op.associates = true) : op.left = op.phrase := by
  cases op <;> simp [associates] at h <;> rfl

theorem Forms.lift_of_le {p q : Phrase} {ts : List Token} {e : Tree} (h : Forms q ts e)
    (hle : q.rank ≤ p.rank) : Forms p ts e :=
  Phrase.climb (P := fun p => Forms p ts e) .lift hle h

/-- Two chains of one operator joined by it are a chain. -/
theorem Forms.join {op : BinaryOp} (hop : op.associates = true) {ta tb : List Token} {a b : Tree}
    (ha : Forms op.phrase ta a) (hb : Forms op.phrase tb b) :
    Forms op.phrase (ta ++ (op.tokens ++ tb)) (.join op a b) := by
  have hleft := BinaryOp.left_eq hop
  generalize hp : op.phrase = p at hb
  -- the last operand of the second chain is the last operand of the result
  induction hb with
  | @lift p q tb b hq hb _ =>
    subst hp
    cases (BinaryOp.tighter?_phrase hop).symm.trans hq
    exact .binary op (hleft ▸ ha) hb
  | @binary tb₁ tb₂ b₁ b₂ op' hb₁ hb₂ ih _ =>
    cases BinaryOp.eq_of_phrase hop hp.symm
    have hjoined := Forms.binary op (ih hleft.symm) hb₂
    rw [Tree.join_assoc hop] at hjoined
    simpa using hjoined
  | @unary _ _ op' => cases op <;> simp [BinaryOp.associates] at hop <;> cases op' <;> cases hp
  | _ => cases op <;> simp [BinaryOp.associates] at hop <;> cases hp

/-! ### Numbers next to names -/

/-- Whether a number stands right before a name. -/
def broken : List Token → Bool
  | .number _ :: .name _ :: _ => true
  | _ :: ts => broken ts
  | [] => false

/-- Whether a token is no number and no name. -/
def Token.separates : Token → Bool
  | .number _ => false
  | .name _ => false
  | .keyword _ => true
  | .symbol _ => true

theorem broken_append {t : Token} (ht : t.separates = true) (ts us : List Token) :
    broken (ts ++ t :: us) = (broken ts || broken us) := by
  fun_induction broken ts with
  | case1 => rfl
  | case2 a ts hne ih =>
    rw [List.cons_append, broken, ih]
    intro n x vs ha hts
    cases ts with
    | nil =>
      cases hts
      cases ht
    | cons b ts =>
      cases hts
      exact hne n x ts ha rfl
  | case3 =>
    cases t with
    | number text => cases ht
    | name text => cases ht
    | _ => simp [broken]

theorem broken_cons {t : Token} (ht : t.separates = true) (ts : List Token) :
    broken (t :: ts) = broken ts := broken_append ht [] ts

theorem broken_commas (ts : List (List Token)) : broken (commas ts) = ts.any broken := by
  fun_induction commas ts with
  | case1 => rfl
  | case2 ts => simp
  | case3 ts us rest ih =>
    rw [broken_append rfl, ih]
    rfl

theorem UnaryOp.separates_token (op : UnaryOp) : op.token.separates = true := by cases op <;> rfl

theorem BinaryOp.broken_tokens (op : BinaryOp) (ts us : List Token) :
    broken (ts ++ (op.tokens ++ us)) = (broken ts || broken us) := by
  cases op with
  | isNot => exact (broken_append rfl ..).trans (congrArg _ (broken_cons rfl us))
  | notIn => exact (broken_append rfl ..).trans (congrArg _ (broken_cons rfl us))
  | _ => exact broken_append rfl ts us

/-- No phrase has a number next to a name. -/
theorem Forms.not_broken {p : Phrase} {ts : List Token} {e : Tree} (h : Forms p ts e) :
    broken ts = false := by
  induction h with
  | lift _ _ ih => exact ih
  | unary op _ ih => rwa [broken_cons op.separates_token]
  | binary op _ _ iha ihb => rw [op.broken_tokens, iha, ihb]; rfl
  | subscript _ _ iha ihi =>
    rw [broken_append rfl, broken_append rfl, iha, ihi]
    rfl
  | member _ name iha =>
    rw [broken_append rfl, iha]
    rfl
  | @call tf f args _ _ ihf ihargs =>
    have hall : broken (commas (args.map Prod.fst)) = false := by
      rw [broken_commas, List.any_map]
      simpa using ihargs
    rw [broken_append rfl, broken_append rfl, ihf, hall]
    rfl
  | brackets _ ih =>
    rw [broken_cons rfl, broken_append rfl, ih]
    rfl
  | leaf h => cases h <;> rfl

end Blockwright.Python
