import Blockwright.Proofs.Grammar

/-!
# One tree for each row of tokens

The grammar is unambiguous (`Forms.unique`). A reader goes through the tokens from left to right: it
reads the first part of a phrase, and goes on with it as long as an operator or a trailer of the phrase
follows (`read`, `extend`, `readArguments`). Given enough fuel it has one answer (`Answers.det`), and it
finds the tree of every phrase, one production at a time (`Found`).
-/

namespace Blockwright.Python

/-! ### The reader -/

/-- The binary operator at the head of a list of tokens. -/
def operator? : List Token → Option (BinaryOp × List Token)
  | t :: rest =>
    if t = .keyword "is" ∧ rest.head? = some (.keyword "not") then some (.isNot, rest.tail)
    else if t = .keyword "not" ∧ rest.head? = some (.keyword "in") then some (.notIn, rest.tail)
    else
      ([.or, .and, .eq, .ne, .lt, .gt, .le, .ge, .is, .isIn, .add, .sub, .mul, .div, .floorDiv, .mod,
        .pow].find? fun op : BinaryOp => op.tokens = [t]).map fun op => (op, rest)
  | [] => none

/-- The unary operator at the head of a list of tokens that makes the phrase. -/
def unary? (p : Phrase) : List Token → Option (UnaryOp × List Token)
  | t :: rest =>
    ([.not, .negate, .await].find? fun op : UnaryOp => op.phrase = p ∧ op.token = t).map
      fun op => (op, rest)
  | [] => none

/-- The atom without parts at the head of a list of tokens. -/
def leaf? : List Token → Option (Tree × List Token)
  | .number text :: rest => some (.number text, rest)
  | .name text :: rest => some (.name text, rest)
  | .keyword text :: rest =>
    ([.true, .false, .none].find? fun c : Constant => c.text = text).map fun c =>
      (.constant c, rest)
  | .symbol "''" :: rest => some (.emptyText, rest)
  | .symbol "\"\"" :: rest => some (.emptyText, rest)
  | .symbol "[" :: .symbol "]" :: rest => some (.emptyList, rest)
  | .symbol "\x7b" :: .symbol "\x7d" :: rest => some (.emptyDict, rest)
  | _ => none

/-- What goes on with a phrase. -/
inductive Continuation
  | operator (op : BinaryOp)
  | subscript
  | member (name : String)
  | noArguments
  | arguments

/-- What goes on with a primary at the head of a list of tokens, and what follows its first tokens. -/
def trailer? : List Token → Option (Continuation × List Token)
  | .symbol "[" :: ts => some (.subscript, ts)
  | .symbol "." :: .name name :: ts => some (.member name, ts)
  | .symbol "(" :: .symbol ")" :: ts => some (.noArguments, ts)
  | .symbol "(" :: ts => some (.arguments, ts)
  | _ => none

/-- What goes on with the phrase at the head of a list of tokens. -/
def continuation? (p : Phrase) (ts : List Token) : Option (Continuation × List Token) :=
  match operator? ts with
  | some (op, rest) => if op.phrase = p then some (.operator op, rest) else none
  | none => if p = .primary then trailer? ts else none

/-- What follows a symbol. -/
def after? (symbol : String) : List Token → Option (List Token)
  | .symbol text :: rest => if text = symbol then some rest else none
  | _ => none

mutual

/-- Reads a phrase from the head of a list of tokens. -/
def read : Nat → Phrase → List Token → Option (Tree × List Token)
  | 0, _, _ => none
  | fuel + 1, p, ts =>
    match unary? p ts, p.tighter?, leaf? ts with
    | some (op, us), _, _ =>
      (read fuel op.operand us).bind fun e => extend fuel p (.unary op e.1) e.2
    | none, some q, _ => (read fuel q ts).bind fun e => extend fuel p e.1 e.2
    | none, none, some (e, us) => extend fuel p e us
    | none, none, none =>
      (after? "(" ts).bind fun us => (read fuel .disjunction us).bind fun e =>
        (after? ")" e.2).bind fun vs => extend fuel p e.1 vs

/-- Goes on with a phrase, of which `e` has been read. -/
def extend : Nat → Phrase → Tree → List Token → Option (Tree × List Token)
  | 0, _, _, _ => none
  | fuel + 1, p, e, ts =>
    match continuation? p ts with
    | some (.operator op, us) =>
      (read fuel op.right us).bind fun b => extend fuel p (.join op e b.1) b.2
    | some (.subscript, us) =>
      (read fuel .disjunction us).bind fun i =>
        (after? "]" i.2).bind fun vs => extend fuel p (.subscript e i.1) vs
    | some (.member name, us) => extend fuel p (.member e name) us
    | some (.noArguments, us) => extend fuel p (.call e []) us
    | some (.arguments, us) =>
      (readArguments fuel us).bind fun args => extend fuel p (.call e args.1) args.2
    | none => some (e, ts)

/-- Reads arguments up to the bracket that closes them. -/
def readArguments : Nat → List Token → Option (List Tree × List Token)
  | 0, _ => none
  | fuel + 1, ts =>
    (read fuel .disjunction ts).bind fun x =>
      match after? "," x.2 with
      | some us => (readArguments fuel us).bind fun args => some (x.1 :: args.1, args.2)
      | none => (after? ")" x.2).bind fun us => some ([x.1], us)

end

example : read 20 .disjunction
    [.symbol "-", .name "x", .symbol "**", .symbol "-", .name "y", .symbol "*", .name "z"] =
    some (.binary .mul (.unary .negate (.binary .pow (.name "x") (.unary .negate (.name "y"))))
      (.name "z"), []) := by rfl

/-! ### Answers -/

/-- With enough fuel, the answer is `a`. -/
def Answers {α : Type} (f : Nat → Option α) (a : α) : Prop := ∃ n, ∀ fuel, n ≤ fuel → f fuel = some a

namespace Answers

variable {α β : Type} {f : Nat → Option α} {a : α}

theorem det {a' : α} (h : Answers f a) (h' : Answers f a') : a = a' := by
  obtain ⟨n, hn⟩ := h
  obtain ⟨m, hm⟩ := h'
  exact Option.some.inj ((hn (max n m) (Nat.le_max_left ..)).symm.trans (hm _ (Nat.le_max_right ..)))

theorem pure (a : α) : Answers (fun _ => some a) a := ⟨0, fun _ _ => rfl⟩

theorem bind {g : Nat → α → Option β} {b : β} (h : Answers f a)
    (hg : Answers (fun fuel => g fuel a) b) : Answers (fun fuel => (f fuel).bind (g fuel)) b := by
  obtain ⟨n, hn⟩ := h
  obtain ⟨m, hm⟩ := hg
  refine ⟨max n m, fun fuel hfuel => ?_⟩
  dsimp only
  rw [hn fuel (by omega)]
  exact hm fuel (by omega)

/-- One unit of fuel is spent on the step from `g` to `f`. -/
theorem step {g : Nat → Option α} (hstep : ∀ fuel, f (fuel + 1) = g fuel) (h : Answers g a) :
    Answers f a := by
  obtain ⟨n, hn⟩ := h
  refine ⟨n + 1, fun fuel hfuel => ?_⟩
  obtain ⟨fuel, rfl⟩ : ∃ k, fuel = k + 1 := ⟨fuel - 1, by omega⟩
  rw [hstep]
  exact hn fuel (by omega)

end Answers

/-- The reader finds `result` for a phrase. -/
def Runs (p : Phrase) (ts : List Token) (result : Tree × List Token) : Prop :=
  Answers (fun fuel => read fuel p ts) result

/-- Going on with `e` ends with `result`. -/
def Extends (p : Phrase) (e : Tree) (ts : List Token) (result : Tree × List Token) : Prop :=
  Answers (fun fuel => extend fuel p e ts) result

/-- The reader finds `result` for arguments. -/
def Collects (ts : List Token) (result : List Tree × List Token) : Prop :=
  Answers (fun fuel => readArguments fuel ts) result

theorem after?_symbol (t : String) (rest : List Token) : after? t (.symbol t :: rest) = some rest :=
  if_pos rfl

theorem unary?_atom (ts : List Token) : unary? .atom ts = none := by
  cases ts with
  | nil => rfl
  | cons t ts => simp [unary?, UnaryOp.phrase]

section Steps

variable {p q : Phrase} {ts us rest : List Token} {e : Tree} {result : Tree × List Token}

theorem Runs.lift (hnone : unary? p ts = none) (hq : p.tighter? = some q) (h : Runs q ts (e, us))
    (hext : Extends p e us result) : Runs p ts result := by
  refine .step (fun fuel => by rw [read, hnone, hq]) (h.bind ?_)
  exact hext

theorem Runs.unary {op : UnaryOp} (h : Runs op.operand ts (e, us))
    (hext : Extends op.phrase (.unary op e) us result) : Runs op.phrase (op.token :: ts) result := by
  have hop : unary? op.phrase (op.token :: ts) = some (op, ts) := by cases op <;> rfl
  refine .step (fun fuel => by rw [read, hop]) (h.bind ?_)
  exact hext

theorem Runs.leaf (h : leaf? ts = some (e, us)) (hext : Extends .atom e us result) :
    Runs .atom ts result :=
  .step (fun fuel => by rw [read, unary?_atom, h]; rfl) hext

theorem Runs.brackets (h : Runs .disjunction ts (e, .symbol ")" :: us))
    (hext : Extends .atom e us result) : Runs .atom (.symbol "(" :: ts) result := by
  have hleaf : leaf? (.symbol "(" :: ts) = none := rfl
  refine .step (fun fuel => by rw [read, unary?_atom, hleaf]; rfl) (h.bind ?_)
  rw [after?_symbol]
  exact hext

theorem Extends.stop (h : continuation? p ts = none) : Extends p e ts (e, ts) :=
  .step (fun fuel => by rw [extend, h]) (.pure _)

theorem Extends.binary {op : BinaryOp} {b : Tree} (hop : operator? ts = some (op, us))
    (hb : Runs op.right us (b, rest)) (hext : Extends op.phrase (.join op e b) rest result) :
    Extends op.phrase e ts result := by
  have hnext : continuation? op.phrase ts = some (.operator op, us) := by
    rw [continuation?, hop]
    exact if_pos rfl
  refine .step (fun fuel => by rw [extend, hnext]) (hb.bind ?_)
  exact hext

theorem Extends.subscript {i : Tree} (hi : Runs .disjunction ts (i, .symbol "]" :: rest))
    (hext : Extends .primary (.subscript e i) rest result) :
    Extends .primary e (.symbol "[" :: ts) result := by
  have hnext : continuation? .primary (.symbol "[" :: ts) = some (.subscript, ts) := rfl
  refine .step (fun fuel => by rw [extend, hnext]) (hi.bind ?_)
  rw [after?_symbol]
  exact hext

theorem Extends.member {name : String} (hext : Extends .primary (.member e name) ts result) :
    Extends .primary e (.symbol "." :: .name name :: ts) result := by
  have hnext : continuation? .primary (.symbol "." :: .name name :: ts) = some (.member name, ts) := rfl
  exact .step (fun fuel => by rw [extend, hnext]) hext

theorem Extends.noArguments (hext : Extends .primary (.call e []) ts result) :
    Extends .primary e (.symbol "(" :: .symbol ")" :: ts) result := by
  have hnext : continuation? .primary (.symbol "(" :: .symbol ")" :: ts) = some (.noArguments, ts) := rfl
  exact .step (fun fuel => by rw [extend, hnext]) hext

theorem Extends.arguments {args : List Tree} (hopen : ts.head? ≠ some (.symbol ")"))
    (h : Collects ts (args, rest)) (hext : Extends .primary (.call e args) rest result) :
    Extends .primary e (.symbol "(" :: ts) result := by
  have hnext : continuation? .primary (.symbol "(" :: ts) = some (.arguments, ts) := by
    show trailer? _ = _
    rw [trailer?]
    rintro us rfl
    exact hopen rfl
  refine .step (fun fuel => by rw [extend, hnext]) (h.bind ?_)
  exact hext

theorem Collects.comma {args : List Tree} (h : Runs .disjunction ts (e, .symbol "," :: us))
    (hargs : Collects us (args, rest)) : Collects ts (e :: args, rest) := by
  refine .step (fun fuel => by rw [readArguments]) (h.bind ?_)
  dsimp only
  rw [after?_symbol]
  exact hargs.bind (.pure _)

theorem Collects.last (h : Runs .disjunction ts (e, .symbol ")" :: rest)) : Collects ts ([e], rest) :=
  .step (fun fuel => by rw [readArguments]) (h.bind (.pure _))

end Steps

/-! ### Where phrases end -/

/-- The rank from which on an operator can follow a phrase. A power does not follow a power, since
the second would be part of the right side of the first. -/
def Phrase.limit : Phrase → Nat
  | .power => 4
  | p => p.rank

theorem Phrase.rank_le_limit (p : Phrase) : p.rank ≤ p.limit := by cases p <;> decide

theorem Phrase.limit_le (p : Phrase) : p.limit ≤ p.rank + 1 := by cases p <;> decide

theorem Phrase.limit_le_of_tighter? {p q : Phrase} (h : p.tighter? = some q) :
    q.limit ≤ p.limit := by
  have := rank_of_tighter? h
  have := q.limit_le
  have := p.rank_le_limit
  omega

/-- What follows goes on with no phrase tighter than `p`. -/
def Settled (p : Phrase) (rest : List Token) : Prop :=
  ∀ q : Phrase, q.rank < p.limit → continuation? q rest = none

/-- Inversions, factors and atoms are whole. -/
theorem continuation?_eq_none {p : Phrase} (hop : ∀ op : BinaryOp, op.phrase ≠ p) (hp : p ≠ .primary)
    (rest : List Token) : continuation? p rest = none := by
  rw [continuation?]
  split
  · exact if_neg (hop _)
  · exact if_neg hp

theorem operator?_tokens (op : BinaryOp) {rest : List Token}
    (h : op = .is → rest.head? ≠ some (.keyword "not")) :
    operator? (op.tokens ++ rest) = some (op, rest) := by
  cases op with
  | is => simp [operator?, BinaryOp.tokens, h rfl]
  | _ => simp [operator?, BinaryOp.tokens]

/-- A closing bracket or a comma goes on with no phrase. -/
theorem continuation?_closing {t : String} (ht : t ∈ [")", "]", ","]) (p : Phrase)
    (rest : List Token) : continuation? p (.symbol t :: rest) = none := by
  simp only [List.mem_cons, List.not_mem_nil, or_false] at ht
  rcases ht with rfl | rfl | rfl <;> exact ite_self none

theorem Settled.mono {p q : Phrase} {rest : List Token} (h : Settled p rest)
    (hq : q.limit ≤ p.limit) : Settled q rest :=
  fun r hr => h r (Nat.lt_of_lt_of_le hr hq)

/-- Whatever follows, only a primary goes on with it before the phrase around it does. -/
theorem Settled.primary (rest : List Token) : Settled .primary rest := by
  intro q hq
  have hatom : q = .atom := Phrase.rank_inj (Nat.lt_one_iff.mp hq)
  exact hatom ▸ continuation?_eq_none (fun op => by cases op <;> decide) (by decide) rest

theorem Settled.operator {p : Phrase} {ts us : List Token} {op : BinaryOp}
    (hop : operator? ts = some (op, us)) (hle : p.limit ≤ op.phrase.rank) : Settled p ts := by
  intro q hq
  rw [continuation?, hop]
  refine if_neg ?_
  rintro rfl
  omega

/-- The last part of a phrase ends where the phrase does. -/
def Closes (p q : Phrase) : Prop :=
  q.limit ≤ p.limit ∧ (q.rank < p.limit ∨ q = .inversion ∨ q = .factor)

theorem Closes.continuation?_eq_none {p q : Phrase} {rest : List Token} (hq : Closes p q)
    (h : Settled p rest) : continuation? q rest = none := by
  rcases hq.2 with hlt | rfl | rfl
  · exact h q hlt
  · exact Python.continuation?_eq_none (fun op => by cases op <;> decide) (by decide) rest
  · exact Python.continuation?_eq_none (fun op => by cases op <;> decide) (by decide) rest

theorem closes_of_tighter? {p q : Phrase} (hq : p.tighter? = some q) : Closes p q := by
  have hrank := Phrase.rank_of_tighter? hq
  have hlimit := p.rank_le_limit
  exact ⟨Phrase.limit_le_of_tighter? hq, .inl (by omega)⟩

theorem UnaryOp.closes (op : UnaryOp) : Closes op.phrase op.operand := by
  cases op <;> exact ⟨by decide, by decide⟩

theorem BinaryOp.closes (op : BinaryOp) : Closes op.phrase op.right := by
  cases op <;> exact ⟨by decide, by decide⟩

/-! ### Every phrase is found -/

/-- The reader finds the tree of the tokens, and goes on with it. -/
def Found (p : Phrase) (ts : List Token) (e : Tree) : Prop :=
  ∀ rest result, Settled p rest → Extends p e rest result → Runs p (ts ++ rest) result

namespace Found

variable {p q : Phrase} {ts ta tb : List Token} {e a b : Tree}

theorem runs {rest : List Token} (h : Found q ts e) (hq : Closes p q) (hsettled : Settled p rest) :
    Runs q (ts ++ rest) (e, rest) :=
  h rest _ (hsettled.mono hq.1) (.stop (hq.continuation?_eq_none hsettled))

theorem closed {t : String} (h : Found p ts e) (ht : t ∈ [")", "]", ","]) (rest : List Token) :
    Runs p (ts ++ .symbol t :: rest) (e, .symbol t :: rest) :=
  h _ _ (fun q _ => continuation?_closing ht q rest) (.stop (continuation?_closing ht p rest))

theorem lift (hq : p.tighter? = some q) (hnone : ∀ rest, unary? p (ts ++ rest) = none)
    (h : Found q ts e) : Found p ts e :=
  fun rest _ hsettled hext => .lift (hnone rest) hq (h.runs (closes_of_tighter? hq) hsettled) hext

theorem unary (op : UnaryOp) (h : Found op.operand ts e) :
    Found op.phrase (op.token :: ts) (.unary op e) :=
  fun _ _ hsettled hext => .unary (h.runs op.closes hsettled) hext

theorem binary (op : BinaryOp)
    (hop : ∀ rest, operator? (op.tokens ++ (tb ++ rest)) = some (op, tb ++ rest))
    (hnone : op.phrase.tighter? = some op.left → ∀ rest, unary? op.phrase (ta ++ rest) = none)
    (ha : Found op.left ta a) (hb : Found op.right tb b) :
    Found op.phrase (ta ++ (op.tokens ++ tb)) (.join op a b) := by
  intro rest result hsettled hext
  have hmore : Extends op.phrase a (op.tokens ++ (tb ++ rest)) result :=
    .binary (hop rest) (hb.runs op.closes hsettled) hext
  have hleft : Settled op.left (op.tokens ++ (tb ++ rest)) :=
    .operator (hop rest) (by cases op <;> decide)
  rw [List.append_assoc, List.append_assoc]
  have hcases : op.left = op.phrase ∨ op.phrase.tighter? = some op.left := by cases op <;> decide
  -- either the left side is a phrase of the same kind, and the operator goes on with it
  rcases hcases with heq | htighter
  · rw [← heq] at hmore ⊢
    exact ha _ _ hleft hmore
  -- or it is one step tighter on the ladder
  · have hstop : continuation? op.left (op.tokens ++ (tb ++ rest)) = none := by
      have hrank := Phrase.rank_of_tighter? htighter
      rw [continuation?, hop]
      refine if_neg fun heq => ?_
      rw [heq] at hrank
      omega
    exact .lift (hnone htighter _) htighter (ha _ _ hleft (.stop hstop)) hmore

theorem subscript {ti : List Token} {i : Tree} (ha : Found .primary ta a)
    (hi : Found .disjunction ti i) :
    Found .primary (ta ++ .symbol "[" :: (ti ++ [.symbol "]"])) (.subscript a i) := by
  intro rest result _ hext
  have hindex := hi.closed (t := "]") (by simp) rest
  simpa using ha _ result (.primary _) (.subscript hindex hext)

theorem member (ha : Found .primary ta a) (name : String) :
    Found .primary (ta ++ [.symbol ".", .name name]) (.member a name) := by
  intro rest result _ hext
  simpa using ha _ result (.primary _) (.member hext)

/-- Arguments that are found one by one are found in a row. -/
theorem collects {args : List (List Token × Tree)} (hargs : ∀ x ∈ args, Found .disjunction x.1 x.2)
    (hne : args ≠ []) (rest : List Token) :
    Collects (commas (args.map Prod.fst) ++ .symbol ")" :: rest) (args.map Prod.snd, rest) := by
  induction args with
  | nil => exact absurd rfl hne
  | cons x args ih =>
    obtain ⟨hx, hmore⟩ := List.forall_mem_cons.mp hargs
    cases args with
    | nil => exact .last (hx.closed (by simp) rest)
    | cons y args =>
      have htokens : commas ((x :: y :: args).map Prod.fst) ++ .symbol ")" :: rest =
          x.1 ++ .symbol "," :: (commas ((y :: args).map Prod.fst) ++ .symbol ")" :: rest) := by
        simp [commas]
      rw [htokens]
      exact .comma (hx.closed (by simp) _) (ih hmore (by simp))

theorem call {args : List (List Token × Tree)}
    (hopen : args ≠ [] → ∀ rest, (commas (args.map Prod.fst) ++ rest).head? ≠ some (.symbol ")"))
    (ha : Found .primary ta a) (hargs : ∀ x ∈ args, Found .disjunction x.1 x.2) :
    Found .primary (ta ++ .symbol "(" :: (commas (args.map Prod.fst) ++ [.symbol ")"]))
      (.call a (args.map Prod.snd)) := by
  intro rest result _ hext
  by_cases hne : args = []
  · subst hne
    simpa [commas] using ha _ result (.primary _) (.noArguments hext)
  · simpa using ha _ result (.primary _) (.arguments (hopen hne _) (collects hargs hne rest) hext)

theorem brackets (h : Found .disjunction ts e) :
    Found .atom (.symbol "(" :: (ts ++ [.symbol ")"])) e := by
  intro rest result _ hext
  simpa using Runs.brackets (h.closed (by simp) rest) hext

end Found

theorem Leaf.leaf? {ts : List Token} {e : Tree} (h : Leaf ts e) (rest : List Token) :
    Python.leaf? (ts ++ rest) = some (e, rest) := by
  cases h with
  | constant c => cases c <;> rfl
  | _ => rfl

theorem Forms.unary?_eq_none {p q : Phrase} {ts : List Token} {e : Tree} (h : Forms q ts e)
    (hlt : q.rank < p.rank) (rest : List Token) : unary? p (ts ++ rest) = .none := by
  obtain ⟨t, ts, rfl, -, hhead⟩ := h.head
  simp only [List.cons_append, unary?, Option.map_eq_none_iff, List.find?_eq_none]
  intro op _ hop
  have hop : op.phrase = p ∧ op.token = t := by simpa using hop
  have hle := hhead op hop.2.symm
  rw [hop.1] at hle
  omega

/-- What an operator takes on its right does not make it another operator. -/
theorem Forms.operator?_tokens {op : BinaryOp} {tb : List Token} {b : Tree} (h : Forms op.right tb b)
    (rest : List Token) : operator? (op.tokens ++ (tb ++ rest)) = some (op, tb ++ rest) := by
  refine Python.operator?_tokens op fun his hnot => ?_
  obtain ⟨t, ts, rfl, -, hhead⟩ := h.head
  have hle := hhead .not (by simpa [UnaryOp.token] using hnot)
  rw [his] at hle
  exact absurd hle (by decide)

theorem head?_commas_ne {args : List (List Token × Tree)} (hne : args ≠ [])
    (hargs : ∀ x ∈ args, Forms .disjunction x.1 x.2) (rest : List Token) :
    (commas (args.map Prod.fst) ++ rest).head? ≠ some (.symbol ")") := by
  obtain ⟨x, args, rfl⟩ := List.exists_cons_of_ne_nil hne
  obtain ⟨t, us, hx, hclose, -⟩ := (hargs x (by simp)).head
  cases args <;> simpa [commas, hx] using hclose

theorem Forms.found {p : Phrase} {ts : List Token} {e : Tree} (h : Forms p ts e) : Found p ts e := by
  induction h with
  | lift hq h ih =>
    have hrank := Phrase.rank_of_tighter? hq
    exact .lift hq (h.unary?_eq_none (by omega)) ih
  | unary op _ ih => exact .unary op ih
  | binary op ha hb iha ihb =>
    refine .binary op hb.operator?_tokens (fun htighter => ha.unary?_eq_none ?_) iha ihb
    have hrank := Phrase.rank_of_tighter? htighter
    omega
  | subscript _ _ iha ihi => exact .subscript iha ihi
  | member _ name iha => exact .member iha name
  | call _ hargs ihf ihargs => exact .call (fun hne => head?_commas_ne hne hargs) ihf ihargs
  | brackets _ ih => exact .brackets ih
  | leaf h => exact fun rest _ _ hext => .leaf (h.leaf? rest) hext

/-- The grammar is unambiguous. -/
theorem Forms.unique {p : Phrase} {ts : List Token} {e e' : Tree} (h : Forms p ts e)
    (h' : Forms p ts e') : e = e' := by
  have hend : ∀ q, continuation? q [] = none := fun q => ite_self none
  have hruns : ∀ {t : Tree}, Forms p ts t → Runs p (ts ++ []) (t, []) := fun ht =>
    ht.found [] _ (fun q _ => hend q) (.stop (hend p))
  exact congrArg Prod.fst ((hruns h).det (hruns h'))

end Blockwright.Python
