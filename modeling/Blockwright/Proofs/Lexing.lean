import Blockwright.Proofs.Grammar
import Blockwright.Proofs.Words
import Blockwright.Text.Join

/-!
# Lexemes

Code is cut into lexemes from left to right, each as long as it can be. A number takes its fraction,
its exponent and the letter of an imaginary number with it, so a point behind digits is part of the
number: in `5.upper` the first lexeme is `5.` and the second one `upper` (`Lexes.whole_point`). Behind
all else that stands before a point in a program the point is a lexeme of its own (`Dots`).

`Spells` says what the tokens of a piece of code are wherever it ends a lexeme, and `Solid` says it for
code that ends one whatever comes next.
-/

namespace Blockwright.Python

/-! ### Lexemes -/

/-- The lexemes of two characters. -/
def pairs : List (List Char) :=
  [['/', '/'], ['*', '*'], ['=', '='], ['!', '='], ['<', '='], ['>', '='], ['\'', '\''], ['"', '"']]

/-- The lexemes of one character. -/
def singles : List Char :=
  ['(', ')', '[', ']', '\x7b', '\x7d', ',', '.', '+', '-', '*', '/', '%', '<', '>']

/-- An exponent: its letter, a sign or none, and digits. -/
def exponent : List Char → List Char
  | e :: cs =>
    let sign := if cs.head? = some '+' ∨ cs.head? = some '-' then cs.take 1 else []
    let digits := (cs.drop sign.length).takeWhile Char.isDigit
    if (e = 'e' ∨ e = 'E') ∧ digits ≠ [] then e :: (sign ++ digits) else []
  | [] => []

/-- The letter of an imaginary number. -/
def imaginary (cs : List Char) : List Char :=
  if cs.head? = some 'j' ∨ cs.head? = some 'J' then cs.take 1 else []

/-- A point and digits. -/
def fraction : List Char → List Char
  | '.' :: cs => '.' :: cs.takeWhile Char.isDigit
  | _ => []

/-- The longest number that characters start with. -/
def numberLexeme (cs : List Char) : List Char :=
  let whole := cs.takeWhile Char.isDigit
  let cs := cs.dropWhile Char.isDigit
  let point := fraction cs
  let cs := cs.drop point.length
  let power := exponent cs
  whole ++ (point ++ (power ++ imaginary (cs.drop power.length)))

/-- The longest lexeme that characters start with. -/
def lexeme : List Char → List Char
  | [] => []
  | c :: cs =>
    if isWordStart c then (c :: cs).takeWhile isWordChar
    else if c.isDigit || (c = '.' && cs.head?.any Char.isDigit) then numberLexeme (c :: cs)
    else if pairs.contains ((c :: cs).take 2) then (c :: cs).take 2 else [c]

/-- The token of a lexeme. Of the whole numbers only zero starts with the digit 0. -/
def lexemeToken? : List Char → Option Token
  | [] => none
  | c :: cs =>
    let text := String.ofList (c :: cs)
    if isWordStart c then some (if keywords.contains text then .keyword text else .name text)
    else if c.isDigit || (c = '.' && cs ≠ []) then
      if isNumeral (c :: cs) || (c :: cs).any (!·.isDigit) then some (.number text) else none
    else if pairs.contains (c :: cs) || (cs.isEmpty && singles.contains c) then some (.symbol text)
    else none

/-- The tokens of code. -/
inductive Lexes : List Char → List Token → Prop
  | nil : Lexes [] []
  | space {cs : List Char} {ts : List Token} (h : Lexes cs ts) : Lexes (' ' :: cs) ts
  | token {cs : List Char} {t : Token} {ts : List Token} (ht : lexemeToken? (lexeme cs) = some t)
    (h : Lexes (cs.drop (lexeme cs).length) ts) : Lexes cs (t :: ts)

theorem lexemeToken?_space (cs : List Char) : lexemeToken? (lexeme (' ' :: cs)) = none := by
  have hpair : pairs.contains ((' ' :: cs).take 2) = false := by
    cases cs <;> simp [pairs]
  have hlexeme : lexeme (' ' :: cs) = [' '] := by
    rw [lexeme, if_neg (by decide), if_neg (by simp), hpair]
    rfl
  rw [hlexeme]
  decide

/-- Code has one list of tokens. -/
theorem Lexes.det {cs : List Char} {ts ts' : List Token} (h : Lexes cs ts) (h' : Lexes cs ts') :
    ts = ts' := by
  induction h generalizing ts' with
  | nil =>
    cases h' with
    | nil => rfl
    | token ht _ => cases ht
  | space _ ih =>
    cases h' with
    | space h' => exact ih h'
    | token ht _ => cases ht.symm.trans (lexemeToken?_space _)
  | token ht _ ih =>
    cases h' with
    | nil => cases ht
    | space _ => cases ht.symm.trans (lexemeToken?_space _)
    | token ht' h' =>
      cases ht.symm.trans ht'
      rw [ih h']

theorem Lexes.lexeme {l v : List Char} {t : Token} {ts : List Token}
    (hl : Python.lexeme (l ++ v) = l) (ht : lexemeToken? l = some t) (h : Lexes v ts) :
    Lexes (l ++ v) (t :: ts) := by
  refine .token (by rwa [hl]) ?_
  rwa [hl, List.drop_left]

/-! ### Words and symbols -/

/-- No word and no number goes on with what follows. -/
def Rests (v : List Char) : Prop := ∀ c, v.head? = some c → isWordChar c = false

theorem takeWhile_append_eq {p : Char → Bool} {u v : List Char} (hu : ∀ c ∈ u, p c = true)
    (hv : ∀ c, v.head? = some c → p c = false) : (u ++ v).takeWhile p = u := by
  rw [List.takeWhile_append_of_pos hu]
  cases v with
  | nil => simp
  | cons c v => simp [hv c rfl]

theorem dropWhile_append_eq {p : Char → Bool} {u v : List Char} (hu : ∀ c ∈ u, p c = true)
    (hv : ∀ c, v.head? = some c → p c = false) : (u ++ v).dropWhile p = v := by
  rw [List.dropWhile_append_of_pos hu]
  cases v with
  | nil => rfl
  | cons c v => simp [hv c rfl]

namespace Lexes

variable {v : List Char} {ts : List Token}

theorem word {text : String} {c : Char} {w : List Char} (htext : text.toList = c :: w)
    (hc : isWordStart c = true) (hw : ∀ d ∈ w, isWordChar d = true) (hv : Rests v)
    (h : Lexes v ts) :
    Lexes (text.toList ++ v)
      ((if keywords.contains text then .keyword text else .name text) :: ts) := by
  have hall : ∀ d ∈ c :: w, isWordChar d = true :=
    List.forall_mem_cons.mpr ⟨by simp [isWordChar, hc], hw⟩
  have hofList : String.ofList (c :: w) = text := by rw [← htext, String.ofList_toList]
  rw [htext]
  refine .lexeme ?_ ?_ h
  · rw [List.cons_append, Python.lexeme, if_pos hc, ← List.cons_append]
    exact takeWhile_append_eq hall hv
  · simp only [lexemeToken?, if_pos hc, hofList]

theorem name {text : String} (hname : isName text = true) (hv : Rests v) (h : Lexes v ts) :
    Lexes (text.toList ++ v) (.name text :: ts) := by
  unfold isName at hname
  split at hname
  · cases hname
  · next c w htext =>
    simp only [Bool.and_eq_true, Bool.not_eq_true', List.all_eq_true] at hname
    have hword := word htext hname.1.1 hname.1.2 hv h
    rwa [hname.2] at hword

theorem constant (c : Constant) (hv : Rests v) (h : Lexes v ts) :
    Lexes (c.text.toList ++ v) (.keyword c.text :: ts) := by
  obtain ⟨d, w, htext, hd, hw, hkeyword⟩ : ∃ d w, c.text.toList = d :: w ∧ isWordStart d = true ∧
      w.all isWordChar = true ∧ keywords.contains c.text = true := by
    cases c <;> exact ⟨_, _, rfl, by decide, by decide, by decide⟩
  have hword := word htext hd (List.all_eq_true.mp hw) hv h
  rwa [hkeyword] at hword

/-- A symbol that is no beginning of a longer one ends where it starts. -/
theorem symbol {d : Char} (hd : d ∈ ['(', ')', '[', ']', '\x7b', '\x7d', ',', '-']) (h : Lexes v ts) :
    Lexes (d :: v) (.symbol (String.ofList [d]) :: ts) := by
  have hpair : pairs.contains ((d :: v).take 2) = false := by
    simp only [List.mem_cons, List.not_mem_nil, or_false] at hd
    rcases hd with rfl | rfl | rfl | rfl | rfl | rfl | rfl | rfl <;> cases v <;> simp [pairs]
  have hd : isWordStart d = false ∧ d.isDigit = false ∧ d ≠ '.' ∧
      lexemeToken? [d] = some (.symbol (String.ofList [d])) := by
    simp only [List.mem_cons, List.not_mem_nil, or_false] at hd
    rcases hd with rfl | rfl | rfl | rfl | rfl | rfl | rfl | rfl <;> decide
  refine .lexeme (l := [d]) ?_ hd.2.2.2 h
  simp only [List.cons_append, List.nil_append, Python.lexeme, hd.1, hd.2.1, hd.2.2.1, hpair,
    Bool.false_eq_true, if_false, decide_false, Bool.false_and, Bool.or_false]

/-- A point before a word. -/
theorem point {c : Char} (hc : isWordStart c = true) (h : Lexes (c :: v) ts) :
    Lexes ('.' :: c :: v) (.symbol "." :: ts) := by
  have hdigit : c.isDigit = false := by
    refine Bool.eq_false_iff.mpr fun hdigit => ?_
    rw [isWordStart_of_isDigit hdigit] at hc
    cases hc
  refine .lexeme (l := ['.']) ?_ (by decide) h
  simp [Python.lexeme, hdigit, pairs, isWordStart]

end Lexes

/-! ### Numbers -/

theorem exponent_of_rests {v : List Char} (hv : Rests v) : exponent v = [] := by
  cases v with
  | nil => rfl
  | cons c v =>
    have hletter : ¬(c = 'e' ∨ c = 'E') := by
      rintro (rfl | rfl) <;> cases hv _ rfl
    simp [exponent, hletter]

theorem imaginary_of_rests {v : List Char} (hv : Rests v) : imaginary v = [] := by
  refine if_neg ?_
  rintro (h | h) <;> cases hv _ h

theorem isDigit_of_rests {v : List Char} (hv : Rests v) {c : Char} (hc : v.head? = some c) :
    c.isDigit = false := by
  have hword := hv c hc
  simp only [isWordChar, Bool.or_eq_false_iff] at hword
  exact hword.2

section Number

variable {whole places v : List Char} {ts : List Token}

theorem lexeme_digits (hne : whole ≠ []) (hwhole : ∀ c ∈ whole, c.isDigit = true) :
    lexeme (whole ++ v) = numberLexeme (whole ++ v) := by
  obtain ⟨c, whole, rfl⟩ := List.exists_cons_of_ne_nil hne
  have hc := hwhole c List.mem_cons_self
  rw [List.cons_append, lexeme, isWordStart_of_isDigit hc, hc]
  rfl

theorem lexemeToken?_digits (hne : whole ≠ []) (hwhole : ∀ c ∈ whole, c.isDigit = true)
    (h : isNumeral (whole ++ v) = true ∨ ∃ c ∈ v, c.isDigit = false) :
    lexemeToken? (whole ++ v) = some (.number (String.ofList (whole ++ v))) := by
  obtain ⟨c, whole, rfl⟩ := List.exists_cons_of_ne_nil hne
  have hc := hwhole c List.mem_cons_self
  have hnumber : (isNumeral (c :: (whole ++ v)) || (c :: (whole ++ v)).any (!·.isDigit)) = true := by
    rcases h with h | ⟨d, hd, hdigit⟩
    · rw [← List.cons_append, h]
      rfl
    · exact Bool.or_eq_true_iff.mpr (.inr (List.any_eq_true.mpr ⟨d, by simp [hd], by simp [hdigit]⟩))
  simp only [List.cons_append, lexemeToken?, isWordStart_of_isDigit hc, hc, Bool.true_or, hnumber,
    Bool.false_eq_true, if_false, if_true]

theorem numberLexeme_whole (hwhole : ∀ c ∈ whole, c.isDigit = true) (hv : Rests v)
    (hpoint : v.head? ≠ some '.') : numberLexeme (whole ++ v) = whole := by
  have hdigit : ∀ c, v.head? = some c → c.isDigit = false := fun c => isDigit_of_rests hv
  have hfraction : fraction v = [] := by
    unfold fraction
    split
    · exact absurd rfl hpoint
    · rfl
  simp only [numberLexeme, takeWhile_append_eq hwhole hdigit, dropWhile_append_eq hwhole hdigit,
    hfraction, List.length_nil, List.drop_zero, exponent_of_rests hv, imaginary_of_rests hv,
    List.append_nil]

theorem numberLexeme_point (hwhole : ∀ c ∈ whole, c.isDigit = true)
    (hplaces : ∀ c ∈ places, c.isDigit = true) (hv : ∀ c, v.head? = some c → c.isDigit = false)
    (hpower : exponent v = []) :
    numberLexeme (whole ++ '.' :: (places ++ v)) = whole ++ '.' :: (places ++ imaginary v) := by
  have hpoint : ∀ c, ('.' :: (places ++ v)).head? = some c → c.isDigit = false := by
    rintro c ⟨⟩
    rfl
  have hfraction : fraction ('.' :: (places ++ v)) = '.' :: places := by
    rw [fraction, takeWhile_append_eq hplaces hv]
  have hrest : ('.' :: (places ++ v)).drop ('.' :: places).length = v := by simp
  simp only [numberLexeme, takeWhile_append_eq hwhole hpoint, dropWhile_append_eq hwhole hpoint,
    hfraction, hrest, hpower, List.length_nil, List.drop_zero, List.nil_append, List.cons_append]

namespace Lexes

theorem decimal (hne : whole ≠ []) (hwhole : ∀ c ∈ whole, c.isDigit = true)
    (hplaces : ∀ c ∈ places, c.isDigit = true) (hv : Rests v) (h : Lexes v ts) :
    Lexes (whole ++ '.' :: places ++ v) (.number (String.ofList (whole ++ '.' :: places)) :: ts) := by
  refine .lexeme ?_ (lexemeToken?_digits hne hwhole (.inr ⟨'.', by simp, rfl⟩)) h
  rw [List.append_assoc, lexeme_digits hne hwhole, List.cons_append,
    numberLexeme_point hwhole hplaces (fun c => isDigit_of_rests hv) (exponent_of_rests hv),
    imaginary_of_rests hv, List.append_nil]

theorem number {cs : List Char} (hcs : isNumeral cs = true) (hv : Rests v)
    (hpoint : v.head? ≠ some '.') (h : Lexes v ts) :
    Lexes (cs ++ v) (.number (String.ofList cs) :: ts) := by
  obtain ⟨whole, hne, hwhole, rfl | ⟨places, hplaces, rfl⟩⟩ := numeral_cases hcs
  · have htoken := lexemeToken?_digits (v := []) hne hwhole (.inl (by rwa [List.append_nil]))
    rw [List.append_nil] at htoken
    refine .lexeme ?_ htoken h
    rw [lexeme_digits hne hwhole, numberLexeme_whole hwhole hv hpoint]
  · exact .decimal hne hwhole hplaces hv h

end Lexes

/-! ### Points behind whole numbers -/

/-- Whether a text is the name of a method: a name of two letters or more that is a name without its
first letter too if that letter can end a number. -/
def isMethod (text : String) : Bool :=
  match text.toList with
  | c :: d :: cs =>
    isName text && d.isAlpha && ((c ≠ 'j' && c ≠ 'J') || isName (String.ofList (d :: cs)))
  | _ => false

theorem exists_cons_of_isName {text : String} (h : isName text = true) :
    ∃ c w, text.toList = c :: w ∧ isWordStart c = true := by
  unfold isName at h
  split at h
  · cases h
  · next c w htext =>
    simp only [Bool.and_eq_true] at h
    exact ⟨c, w, htext, h.1.1⟩

theorem isName_of_isMethod {text : String} (h : isMethod text = true) : isName text = true := by
  unfold isMethod at h
  split at h
  · simp only [Bool.and_eq_true] at h
    exact h.1.1
  · cases h

theorem exponent_of_letter {c d : Char} (hd : d.isAlpha = true) : exponent (c :: d :: v) = [] := by
  have hdigit : d.isDigit = false := by
    refine Bool.eq_false_iff.mpr fun hdigit => ?_
    have hstart := isWordStart_of_isDigit hdigit
    simp [isWordStart, hd] at hstart
  have hsign : ¬(d = '+' ∨ d = '-') := by
    rintro (rfl | rfl) <;> cases hd
  simp [exponent, hsign, hdigit]

/-- A whole number takes the point behind it, and the letter of an imaginary number too, so that
what is left of the name of a method stands next to a number. -/
theorem Lexes.whole_point (hne : whole ≠ []) (hwhole : ∀ c ∈ whole, c.isDigit = true)
    {method : String} (hmethod : isMethod method = true) :
    ∃ n x, ∀ v ts, Rests v → Lexes v ts →
      Lexes (whole ++ '.' :: (method.toList ++ v)) (.number n :: .name x :: ts) := by
  unfold isMethod at hmethod
  split at hmethod
  · next c d cs htext =>
    simp only [Bool.and_eq_true, Bool.or_eq_true, decide_eq_true_eq] at hmethod
    obtain ⟨⟨hname, hd⟩, hletter⟩ := hmethod
    have hdigit : c.isDigit = false := by
      refine Bool.eq_false_iff.mpr fun hdigit => ?_
      simp [isName, htext, isWordStart_of_isDigit hdigit] at hname
    -- what is left of the method behind the number is a name
    obtain ⟨letter, x, hx, hsplit, himaginary⟩ : ∃ letter x, isName x = true ∧
        c :: d :: cs = letter ++ x.toList ∧ ∀ v, imaginary (c :: d :: cs ++ v) = letter := by
      by_cases hj : c = 'j' ∨ c = 'J'
      · refine ⟨[c], String.ofList (d :: cs), ?_, by simp, fun v => by simp [imaginary, hj]⟩
        rcases hletter with hletter | hletter
        · exact absurd hj (by simpa using hletter)
        · exact hletter
      · exact ⟨[], method, hname, htext.symm, fun v => by simp [imaginary, hj]⟩
    refine ⟨String.ofList (whole ++ '.' :: letter), x, fun v ts hv h => ?_⟩
    have hpoint : numberLexeme (whole ++ '.' :: ([] ++ (c :: d :: cs ++ v))) =
        whole ++ '.' :: ([] ++ imaginary (c :: d :: cs ++ v)) :=
      numberLexeme_point hwhole (by simp) (by rintro _ ⟨⟩; exact hdigit) (exponent_of_letter hd)
    have hlexeme : Python.lexeme (whole ++ '.' :: letter ++ (x.toList ++ v)) =
        whole ++ '.' :: letter := by
      rw [List.append_assoc, lexeme_digits hne hwhole, List.cons_append, ← List.append_assoc,
        ← hsplit]
      rwa [himaginary] at hpoint
    rw [htext, hsplit, List.append_assoc, ← List.cons_append, ← List.append_assoc]
    exact .lexeme hlexeme (lexemeToken?_digits hne hwhole (.inr ⟨'.', by simp, rfl⟩)) (.name hx hv h)
  · cases hmethod

end Number

/-! ### Tokens of compound code -/

def BinaryOp.text : BinaryOp → String
  | or => "or"
  | and => "and"
  | eq => "=="
  | ne => "!="
  | lt => "<"
  | gt => ">"
  | le => "<="
  | ge => ">="
  | is => "is"
  | isNot => "is not"
  | isIn => "in"
  | notIn => "not in"
  | add => "+"
  | sub => "-"
  | mul => "*"
  | div => "/"
  | floorDiv => "//"
  | mod => "%"
  | pow => "**"

/-- The code before the operand. -/
def UnaryOp.lead : UnaryOp → String
  | not => "not "
  | negate => "-"
  | await => "await "

/-- Characters that go on with no word, no number and no primary. -/
def Breaks (v : List Char) : Prop := Rests v ∧ v.head? ≠ some '.'

/-- The code has these tokens wherever it ends a lexeme. -/
def Spells (code : String) (ts : List Token) : Prop :=
  ∀ v tv, Breaks v → Lexes v tv → Lexes (code.toList ++ v) (ts ++ tv)

/-- The code has these tokens before the point of an attribute. -/
def Dots (code : String) (ts : List Token) : Prop :=
  ∀ c v tv, isWordStart c = true → Lexes (c :: v) tv →
    Lexes (code.toList ++ '.' :: c :: v) (ts ++ .symbol "." :: tv)

/-- The code has these tokens whatever comes next. -/
def Solid (code : String) (ts : List Token) : Prop :=
  ∀ v tv, Lexes v tv → Lexes (code.toList ++ v) (ts ++ tv)

theorem breaks_cons {c : Char} (hc : c ∈ [' ', '(', ')', '[', ']', ',']) (v : List Char) :
    Breaks (c :: v) := by
  have hword : isWordChar c = false ∧ c ≠ '.' := by
    simp only [List.mem_cons, List.not_mem_nil, or_false] at hc
    rcases hc with rfl | rfl | rfl | rfl | rfl | rfl <;> decide
  refine ⟨?_, by simpa using hword.2⟩
  rintro d ⟨⟩
  exact hword.1

theorem rests_point (v : List Char) : Rests ('.' :: v) := by
  rintro d ⟨⟩
  decide

section Compound

variable {u v w : String} {tu tv : List Token}

theorem Spells.lexes (h : Spells u tu) : Lexes u.toList tu := by
  have hnil := h [] [] ⟨by simp [Rests], by simp⟩ .nil
  rwa [List.append_nil, List.append_nil] at hnil

theorem Solid.spells (h : Solid u tu) : Spells u tu := fun v tv _ hv => h v tv hv

theorem Solid.dots (h : Solid u tu) : Dots u tu := fun _ _ _ hc hv => h _ _ (.point hc hv)

theorem Spells.name {x : String} (h : isName x = true) : Spells x [.name x] :=
  fun _ _ hv hlexes => .name h hv.1 hlexes

theorem Dots.name {x : String} (h : isName x = true) : Dots x [.name x] :=
  fun _ _ _ hc hv => .name h (rests_point _) (.point hc hv)

theorem Spells.constant (c : Constant) : Spells c.text [.keyword c.text] :=
  fun _ _ hv hlexes => .constant c hv.1 hlexes

theorem Dots.constant (c : Constant) : Dots c.text [.keyword c.text] :=
  fun _ _ _ hc hv => .constant c (rests_point _) (.point hc hv)

theorem Spells.number {cs : List Char} (h : isNumeral cs = true) :
    Spells (String.ofList cs) [.number (String.ofList cs)] := by
  intro v tv hv hlexes
  rw [String.toList_ofList]
  exact .number h hv.1 hv.2 hlexes

theorem Dots.decimal {whole places : List Char} (hne : whole ≠ [])
    (hwhole : ∀ c ∈ whole, c.isDigit = true) (hplaces : ∀ c ∈ places, c.isDigit = true) :
    Dots (String.ofList (whole ++ '.' :: places))
      [.number (String.ofList (whole ++ '.' :: places))] := by
  intro c v tv hc hv
  rw [String.toList_ofList]
  exact .decimal hne hwhole hplaces (rests_point _) (.point hc hv)

theorem Solid.emptyText : Solid "''" [.symbol "''"] :=
  fun v _ hv => .lexeme (l := ['\'', '\'']) (v := v) rfl (by decide) hv

theorem Solid.emptyQuotes : Solid "\"\"" [.symbol "\"\""] :=
  fun v _ hv => .lexeme (l := ['"', '"']) (v := v) rfl (by decide) hv

theorem Solid.emptyList : Solid "[]" [.symbol "[", .symbol "]"] :=
  fun _ _ hv => .symbol (d := '[') (by simp) (.symbol (d := ']') (by simp) hv)

theorem Solid.emptyDict : Solid "\x7b\x7d" [.symbol "\x7b", .symbol "\x7d"] :=
  fun _ _ hv => .symbol (d := '\x7b') (by simp) (.symbol (d := '\x7d') (by simp) hv)

theorem Solid.brackets (h : Spells u tu) :
    Solid ("(" ++ u ++ ")") (.symbol "(" :: (tu ++ [.symbol ")"])) := by
  intro v tv hv
  have hinner := h _ _ (breaks_cons (by simp) v) (.symbol (d := ')') (by simp) hv)
  simpa using Lexes.symbol (d := '(') (by simp) hinner

theorem Solid.subscript (hu : Spells u tu) (hv : Spells v tv) :
    Solid (u ++ "[" ++ v ++ "]") (tu ++ .symbol "[" :: (tv ++ [.symbol "]"])) := by
  intro rest tr hrest
  have hindex := hv _ _ (breaks_cons (by simp) rest) (.symbol (d := ']') (by simp) hrest)
  simpa using hu _ _ (breaks_cons (by simp) _) (.symbol (d := '[') (by simp) hindex)

theorem Lexes.operator (op : BinaryOp) {v : List Char} {ts : List Token} (h : Lexes v ts) :
    Lexes (op.text.toList ++ ' ' :: v) (op.tokens ++ ts) := by
  cases op with
  | isNot =>
    exact .lexeme (l := ['i', 's']) rfl (by decide)
      (.space (.lexeme (l := ['n', 'o', 't']) rfl (by decide) (.space h)))
  | notIn =>
    exact .lexeme (l := ['n', 'o', 't']) rfl (by decide)
      (.space (.lexeme (l := ['i', 'n']) rfl (by decide) (.space h)))
  | _ => exact .lexeme (v := ' ' :: v) rfl (by decide) (.space h)

theorem Spells.binary (op : BinaryOp) (hu : Spells u tu) (hv : Spells v tv) :
    Spells (u ++ " " ++ op.text ++ " " ++ v) (tu ++ (op.tokens ++ tv)) := by
  intro rest tr hrest hlexes
  have hright := Lexes.operator op (hv rest tr hrest hlexes)
  simpa using hu _ _ (breaks_cons (by simp) _) (.space hright)

theorem Spells.unary (op : UnaryOp) (hu : Spells u tu) :
    Spells (op.lead ++ u) (op.token :: tu) := by
  intro rest tr hrest hlexes
  have hoperand := hu rest tr hrest hlexes
  rw [String.toList_append, List.append_assoc]
  cases op with
  | negate => exact .symbol (d := '-') (by simp) hoperand
  | not => exact .lexeme (l := ['n', 'o', 't']) rfl (by decide) (.space hoperand)
  | await => exact .lexeme (l := ['a', 'w', 'a', 'i', 't']) rfl (by decide) (.space hoperand)

theorem Lexes.commas {args : List (String × List Token)} (hargs : ∀ x ∈ args, Spells x.1 x.2)
    {v : List Char} {ts : List Token} (h : Lexes v ts) :
    Lexes ((Text.joinWith ", " (args.map Prod.fst)).toList ++ ')' :: v)
      (commas (args.map Prod.snd) ++ .symbol ")" :: ts) := by
  induction args with
  | nil => exact .symbol (d := ')') (by simp) h
  | cons x args ih =>
    obtain ⟨hx, hrest⟩ := List.forall_mem_cons.mp hargs
    cases args with
    | nil => exact hx _ _ (breaks_cons (by simp) v) (.symbol (d := ')') (by simp) h)
    | cons y args =>
      have hmore := hx _ _ (breaks_cons (by simp) _)
        (.symbol (d := ',') (by simp) (.space (ih hrest)))
      simpa [Text.joinWith, Python.commas] using hmore

/-- A method of code that can stand before a point. -/
theorem Solid.method (hu : Dots u tu) {x : String} (hx : isName x = true)
    {args : List (String × List Token)} (hargs : ∀ y ∈ args, Spells y.1 y.2) :
    Solid (u ++ "." ++ x ++ "(" ++ Text.joinWith ", " (args.map Prod.fst) ++ ")")
      (tu ++ [.symbol ".", .name x] ++
        .symbol "(" :: (commas (args.map Prod.snd) ++ [.symbol ")"])) := by
  intro rest tr hrest
  obtain ⟨c, w, htext, hc⟩ := exists_cons_of_isName hx
  have hcall := Lexes.symbol (d := '(') (by simp) (Lexes.commas hargs hrest)
  have hname := Lexes.name hx (breaks_cons (by simp) _).1 hcall
  rw [htext, List.cons_append] at hname
  simpa [htext] using hu _ _ _ hc hname

/-- A method of a whole number. -/
theorem Solid.whole_method {whole : List Char} (hne : whole ≠ [])
    (hwhole : ∀ c ∈ whole, c.isDigit = true) {x : String} (hx : isMethod x = true)
    {args : List (String × List Token)} (hargs : ∀ y ∈ args, Spells y.1 y.2) :
    ∃ n y, Solid (String.ofList whole ++ "." ++ x ++ "(" ++
        Text.joinWith ", " (args.map Prod.fst) ++ ")")
      (.number n :: .name y :: .symbol "(" :: (commas (args.map Prod.snd) ++ [.symbol ")"])) := by
  obtain ⟨n, y, hpoint⟩ := Lexes.whole_point hne hwhole hx
  refine ⟨n, y, fun rest tr hrest => ?_⟩
  have hcall := Lexes.symbol (d := '(') (by simp) (Lexes.commas hargs hrest)
  simpa using hpoint _ _ (breaks_cons (by simp) _).1 hcall

end Compound

end Blockwright.Python
