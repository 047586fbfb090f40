import Blockwright.Json.Reader
import Blockwright.Json.Writer
import Blockwright.Proofs.Coordinates
import Blockwright.Proofs.Utf8

/-!
# JSON that was written reads back

A value is written as tokens (`Json.spelled`) with white space between them. `Lexes` states that a
piece of text is cut into given tokens, whatever stands behind it as long as it does not go on with the
last of them; pieces are put together with `Lexes.append`. The tokens of a value are put together to
that value again (`Json.Reads`). Main statement: `Json.parse?_pretty`.
-/

namespace Blockwright.Json

/-! ### Strings -/

section Strings

variable {c : Char} {rest : List Char}

theorem cutString?_plain (hquote : c ≠ '"') (hslash : c ≠ '\\') (hcontrol : 0x20 ≤ c.toNat) :
    cutString? (c :: rest) = (cutString? rest).map fun x => (c :: x.1, x.2) := by
  rw [cutString?, if_neg (by omega)]
  · exact hquote
  · exact fun _ _ h _ => hslash h

theorem codes?_plain (hslash : c ≠ '\\') :
    codes? (c :: rest) = (codes? rest).map (c.toNat :: ·) := by
  rw [codes?, if_neg hslash]
  · cases codes? rest <;> rfl
  · exact fun _ _ _ _ _ h _ => hslash h
  · exact fun _ _ h _ => hslash h

/-- What a hexadecimal digit is read as. -/
theorem digitChar_facts : ∀ n < 16, Text.digit? 16 (Nat.digitChar n) = some n ∧
    Nat.digitChar n ≠ '"' ∧ Nat.digitChar n ≠ '\\' ∧ 0x20 ≤ (Nat.digitChar n).toNat := by decide

/-- The escapes of two characters. -/
def shortEscapes : List (Char × Char) :=
  [('"', '"'), ('\\', '\\'), ('\x08', 'b'), ('\x0c', 'f'), ('\n', 'n'), ('\r', 'r'), ('\t', 't')]

theorem shortEscapes_facts : ∀ x ∈ shortEscapes,
    escapeChar x.1 = ['\\', x.2] ∧ x.2 ≠ 'u' ∧ escaped? x.2 = some x.1 := by decide

theorem escapeChar_cases (c : Char) :
    (∃ x ∈ shortEscapes, x.1 = c) ∨
    (c.toNat < 0x20 ∧ escapeChar c = ['\\', 'u', '0', '0'] ++ Text.hexByte c.toNat) ∨
    (c ≠ '"' ∧ c ≠ '\\' ∧ 0x20 ≤ c.toNat ∧ escapeChar c = [c]) := by
  by_cases hshort : ∃ x ∈ shortEscapes, x.1 = c
  · exact .inl hshort
  have hne : ∀ x ∈ shortEscapes, c ≠ x.1 := fun x hx hc => hshort ⟨x, hx, hc.symm⟩
  simp only [shortEscapes, List.forall_mem_cons] at hne
  obtain ⟨hquote, hslash, hb, hf, hn, hr, ht, -⟩ := hne
  rw [escapeChar, if_neg hquote, if_neg hslash, if_neg hb, if_neg hf, if_neg hn, if_neg hr,
    if_neg ht]
  by_cases hcontrol : c.toNat < 0x20
  · exact .inr (.inl ⟨hcontrol, if_pos hcontrol⟩)
  · exact .inr (.inr ⟨hquote, hslash, Nat.le_of_not_lt hcontrol, if_neg hcontrol⟩)

theorem cutString?_escapeChar (c : Char) (rest : List Char) :
    cutString? (escapeChar c ++ rest) =
      (cutString? rest).map fun x => (escapeChar c ++ x.1, x.2) := by
  rcases escapeChar_cases c with ⟨x, hx, rfl⟩ | ⟨hc, he⟩ | ⟨hquote, hslash, hcontrol, he⟩
  · obtain ⟨he, -, -⟩ := shortEscapes_facts x hx
    rw [he, List.cons_append, List.singleton_append, cutString?]
    rfl
  · obtain ⟨-, hq, hs, hn⟩ := digitChar_facts (c.toNat / 16 % 16) (by omega)
    obtain ⟨-, hq', hs', hn'⟩ := digitChar_facts (c.toNat % 16) (by omega)
    rw [he, Text.hexByte]
    simp only [List.cons_append, List.nil_append]
    -- behind the `u` come two zeros and two digits, none of which ends the string
    rw [cutString?, cutString?_plain (by decide) (by decide) (by decide),
      cutString?_plain (by decide) (by decide) (by decide), cutString?_plain hq hs hn,
      cutString?_plain hq' hs' hn']
    cases cutString? rest <;> rfl
  · rw [he, List.singleton_append, cutString?_plain hquote hslash hcontrol]
    rfl

theorem codes?_escapeChar (c : Char) (rest : List Char) :
    codes? (escapeChar c ++ rest) = (codes? rest).map (c.toNat :: ·) := by
  rcases escapeChar_cases c with ⟨x, hx, rfl⟩ | ⟨hc, he⟩ | ⟨-, hslash, -, he⟩
  · obtain ⟨he, hu, hescaped⟩ := shortEscapes_facts x hx
    rw [he, List.cons_append, List.singleton_append, codes?, hescaped]
    · cases codes? rest <;> rfl
    · rintro _ _ _ _ _ heq
      exact fun _ => hu heq
  · obtain ⟨hhigh, -⟩ := digitChar_facts (c.toNat / 16 % 16) (by omega)
    obtain ⟨hlow, -⟩ := digitChar_facts (c.toNat % 16) (by omega)
    have hdigits : Text.digits? 16 0 ['0', '0', Nat.digitChar (c.toNat / 16 % 16),
        Nat.digitChar (c.toNat % 16)] = some c.toNat := by
      simp [Text.digits?, hhigh, hlow, show Text.digit? 16 '0' = some 0 from rfl]
      omega
    rw [he, Text.hexByte]
    simp only [List.cons_append, List.nil_append]
    rw [codes?, hdigits]
    cases codes? rest <;> rfl
  · rw [he, List.singleton_append, codes?_plain hslash]

theorem cutString?_escaped (cs rest : List Char) :
    cutString? (cs.flatMap escapeChar ++ '"' :: rest) = some (cs.flatMap escapeChar, rest) := by
  induction cs with
  | nil => rfl
  | cons c cs ih => rw [List.flatMap_cons, List.append_assoc, cutString?_escapeChar, ih]; rfl

theorem codes?_escaped (cs : List Char) : codes? (cs.flatMap escapeChar) = some (cs.map Char.toNat) := by
  induction cs with
  | nil => rfl
  | cons c cs ih => rw [List.flatMap_cons, codes?_escapeChar, ih]; rfl

theorem spell?_toNat (cs : List Char) : spell? (cs.map Char.toNat) = some cs := by
  have hvalid : ∀ c : Char, ¬ (0xD800 ≤ c.toNat ∧ c.toNat < 0xE000) := fun c h => by
    have := Text.toNat_valid c
    omega
  induction cs with
  | nil => rfl
  | cons c cs ih =>
    have hc := hvalid c
    cases cs with
    | nil => rw [List.map_cons, List.map_nil, spell?, if_neg hc, Char.ofNat_toNat]
    | cons d cs =>
      rw [List.map_cons] at ih
      rw [List.map_cons, List.map_cons, spell?, if_neg (by omega), if_neg (by omega), ih,
        Char.ofNat_toNat]
      rfl

theorem readString?_escaped (s : String) (rest : List Char) :
    readString? (s.toList.flatMap escapeChar ++ '"' :: rest) = some (.string (some s), rest) := by
  simp [readString?, cutString?_escaped, codes?_escaped, spell?_toNat]

end Strings

/-! ### Numbers and words -/

/-- What can stand behind a value: a comma, a line end, or nothing. -/
def Delimited (rest : List Char) : Prop := ∀ c ∈ rest.head?, c = ',' ∨ c = '\n'

theorem delimited_cons {c : Char} {rest : List Char} (h : c = ',' ∨ c = '\n') :
    Delimited (c :: rest) := by
  intro d hd
  rw [List.head?_cons, Option.mem_some_iff] at hd
  exact hd ▸ h

section Delimited

variable {rest : List Char} (h : Delimited rest) {p : Char → Bool} {cs : List Char}
include h

/-- A piece of text ends where something stands that cannot be part of it. -/
theorem Delimited.takeWhile_append (hp : p ',' = false ∧ p '\n' = false)
    (hcs : ∀ c ∈ cs, p c = true) :
    (cs ++ rest).takeWhile p = cs ∧ (cs ++ rest).dropWhile p = rest := by
  have hrest : rest.takeWhile p = [] ∧ rest.dropWhile p = rest := by
    cases rest with
    | nil => exact ⟨rfl, rfl⟩
    | cons c rest =>
      have hc : p c = false := by
        rcases h c rfl with rfl | rfl
        · exact hp.1
        · exact hp.2
      simp [hc]
  rw [List.takeWhile_append_of_pos hcs, List.dropWhile_append_of_pos hcs, hrest.1, hrest.2,
    List.append_nil]
  exact ⟨rfl, rfl⟩

theorem readNumber?_toDigits (n : Nat) :
    readNumber? (Nat.toDigits 10 n ++ rest) = some (.number ⟨false, n, 0⟩ true, rest) := by
  have hdigit : ∀ c ∈ Nat.toDigits 10 n, Decimal.isDigit c = true := fun c hc =>
    Decimal.isDigit_of_mem_toDigits hc
  obtain ⟨htake, hdrop⟩ := h.takeWhile_append
    (p := fun c => Decimal.isDigit c || "+-.eE".toList.contains c) (by decide)
    fun c hc => by rw [hdigit c hc, Bool.true_or]
  have hproper : isProper (Nat.toDigits 10 n) = true := by
    have hwhole : (Nat.toDigits 10 n).takeWhile Decimal.isDigit = Nat.toDigits 10 n :=
      List.takeWhile_eq_self_iff.mpr hdigit
    have hrest : (Nat.toDigits 10 n).dropWhile Decimal.isDigit = [] :=
      List.dropWhile_eq_nil_iff.mpr hdigit
    have hsign : (Nat.toDigits 10 n).head? ≠ some '-' := fun hhead => by
      have := hdigit '-' (List.mem_of_mem_head? hhead)
      simp [Decimal.isDigit] at this
    have hzero : (Nat.toDigits 10 n).length = 1 ∨ (Nat.toDigits 10 n).head? ≠ some '0' := by
      by_cases hn : n = 0
      · exact .inl (by rw [hn]; rfl)
      · exact .inr (Python.head?_toDigits hn)
    simp only [isProper, if_neg hsign, hwhole, hrest]
    simpa [Nat.toDigits_ne_nil] using hzero
  have hall : (Nat.toDigits 10 n).all (fun c => Decimal.isDigit c || c == '-') = true :=
    List.all_eq_true.mpr fun c hc => by rw [hdigit c hc, Bool.true_or]
  simp only [readNumber?, htake, hdrop, hproper, hall, Decimal.read?_toDigits, if_true]
  rfl

end Delimited

theorem readToken?_of_isDigit {c : Char} (h : c.isDigit = true) (cs : List Char) :
    readToken? (c :: cs) = readNumber? (c :: cs) := by
  have halpha : c.isAlpha = false := by
    have hstart := Python.isWordStart_of_isDigit h
    rw [Python.isWordStart, Bool.or_assoc, Bool.or_eq_false_iff] at hstart
    exact hstart.1
  rw [readToken?, if_neg (by rw [halpha]; decide)]
  all_goals
    rintro rfl
    exact absurd h (by decide)

theorem readWord?_append {w rest : List Char} (hw : w.all Char.isAlpha = true)
    (h : Delimited rest) : readWord? (w ++ rest) = (readWord? w).map fun x => (x.1, rest) := by
  have hword : ∀ c ∈ w, c.isAlpha = true := List.all_eq_true.mp hw
  obtain ⟨htake, hdrop⟩ := h.takeWhile_append (p := Char.isAlpha) (by decide) hword
  rw [readWord?, readWord?, htake, hdrop, List.takeWhile_eq_self_iff.mpr hword]
  split <;> rfl

/-- The words of JSON. -/
def words : List (List Char × Token) :=
  [ (['n', 'u', 'l', 'l'], .null), (['t', 'r', 'u', 'e'], .bool true),
    (['f', 'a', 'l', 's', 'e'], .bool false) ]

theorem readToken?_word {w : List Char × Token} (hw : w ∈ words) {rest : List Char}
    (h : Delimited rest) : readToken? (w.1 ++ rest) = some (w.2, rest) := by
  simp only [words, List.mem_cons, List.not_mem_nil, or_false] at hw
  rcases hw with rfl | rfl | rfl
  · exact readWord?_append (w := ['n', 'u', 'l', 'l']) rfl h
  · exact readWord?_append (w := ['t', 'r', 'u', 'e']) rfl h
  · exact readWord?_append (w := ['f', 'a', 'l', 's', 'e']) rfl h

/-! ### Text cut into tokens -/

/-- The text is cut into the tokens, if what stands behind it is as `after` says. -/
structure Lexes (after : List Char → Prop) (cs : List Char) (ts : List Token) : Prop where
  /-- No token is empty. -/
  short : ts.length ≤ cs.length
  read : ∀ fuel rest, after rest →
    tokens? (ts.length + fuel) (cs ++ rest) = (tokens? fuel rest).map (ts ++ ·)

/-- No token goes on behind the text. -/
def Anything (_ : List Char) : Prop := True

namespace Lexes

variable {after after' : List Char → Prop} {u v : List Char} {tu tv : List Token}

theorem append (hu : Lexes after u tu) (hv : Lexes after' v tv)
    (hafter : ∀ rest, after' rest → after (v ++ rest)) : Lexes after' (u ++ v) (tu ++ tv) := by
  refine ⟨?_, fun fuel rest hrest => ?_⟩
  · have := hu.short
    have := hv.short
    simp only [List.length_append]
    omega
  · rw [List.length_append, Nat.add_assoc, List.append_assoc, hu.read _ _ (hafter rest hrest),
      hv.read fuel rest hrest, Option.map_map]
    simp [Function.comp_def]

theorem free_append (hu : Lexes Anything u tu) (hv : Lexes after v tv) :
    Lexes after (u ++ v) (tu ++ tv) := hu.append hv fun _ _ => trivial

theorem mono (hu : Lexes after u tu) (h : ∀ rest, after' rest → after rest) : Lexes after' u tu :=
  ⟨hu.short, fun fuel rest hrest => hu.read fuel rest (h rest hrest)⟩

theorem gap (hu : ∀ c ∈ u, Text.isGap c = true) : Lexes Anything u [] := by
  refine ⟨Nat.zero_le _, fun fuel rest _ => ?_⟩
  have hdrop : (u ++ rest).dropWhile Text.isGap = rest.dropWhile Text.isGap :=
    List.dropWhile_append_of_pos hu
  have hall : (u ++ rest).all Text.isGap = rest.all Text.isGap := by
    rw [List.all_append, List.all_eq_true.mpr hu, Bool.true_and]
  have hid : ∀ x : Option (List Token), x.map ([] ++ ·) = x := fun x => by cases x <;> rfl
  rw [hid, List.length_nil, Nat.zero_add]
  cases fuel with
  | zero => rw [tokens?, tokens?, hall]
  | succ fuel => rw [tokens?, tokens?, hdrop]

theorem token {c : Char} {t : Token} (hc : Text.isGap c = false)
    (hread : ∀ rest, after rest → readToken? (c :: u ++ rest) = some (t, rest)) :
    Lexes after (c :: u) [t] := by
  refine ⟨by simp, fun fuel rest hrest => ?_⟩
  have hdrop : (c :: u ++ rest).dropWhile Text.isGap = c :: u ++ rest := by
    rw [List.cons_append, List.dropWhile_cons_of_neg (by simp [hc])]
  rw [List.length_singleton, Nat.add_comm, tokens?, hdrop]
  dsimp only [List.cons_append]
  rw [← List.cons_append, hread rest hrest, Option.bind_eq_bind, Option.bind_some]
  cases tokens? fuel rest <;> rfl

end Lexes

/-! ### The tokens of a value -/

mutual

/-- The tokens that spell a value. -/
def spelled : Json → List Token
  | .null => [.null]
  | .bool b => [.bool b]
  | .number d isWhole => [.number d isWhole]
  | .string s => [.string s]
  | .array items => .openBracket :: (spelledItems items ++ [.closeBracket])
  | .object members => .openBrace :: (spelledMembers members ++ [.closeBrace])

def spelledItems : List Json → List Token
  | [] => []
  | [v] => v.spelled
  | v :: vs => v.spelled ++ .comma :: spelledItems vs

def spelledMembers : List (Option String × Json) → List Token
  | [] => []
  | [(name, v)] => .string name :: .colon :: v.spelled
  | (name, v) :: ms => .string name :: .colon :: (v.spelled ++ .comma :: spelledMembers ms)

end

/-- Natural numbers, texts, and what can be made of them. -/
inductive Plain : Json → Prop
  | null : Plain .null
  | bool (b : Bool) : Plain (.bool b)
  | ofNat (n : Nat) : Plain (.ofNat n)
  | text (s : String) : Plain (.text s)
  | array {items : List Json} (h : ∀ v ∈ items, Plain v) : Plain (.array items)
  | record {members : List (String × Json)} (h : ∀ m ∈ members, Plain m.2) : Plain (.record members)

theorem isGap_newLine {depth : Nat} : ∀ c ∈ (Text.newLine depth).toList, Text.isGap c = true := by
  intro c hc
  rcases Text.mem_newLine hc with rfl | rfl
  · rfl
  · rfl

theorem lexes_quote (s : String) : Lexes Anything (quote s).toList [.string (some s)] := by
  have hquote : (quote s).toList = '"' :: (s.toList.flatMap escapeChar ++ ['"']) := by
    simp [quote]
  rw [hquote]
  refine .token rfl fun rest _ => ?_
  rw [List.cons_append, List.append_assoc]
  exact readString?_escaped s rest

theorem lexes_symbol {c : Char} {t : Token} (hc : Text.isGap c = false)
    (hread : ∀ rest, readToken? (c :: rest) = some (t, rest)) : Lexes Anything [c] [t] :=
  .token hc fun rest _ => hread rest

theorem lexes_ofNat (n depth : Nat) :
    Lexes Delimited ((ofNat n).pretty depth).toList (ofNat n).spelled := by
  have htext : ((ofNat n).pretty depth).toList = Nat.toDigits 10 n := by
    rw [← toList_toString_nat, ofNat, pretty, writeNumber]
    simp
  obtain ⟨c, cs, hcs⟩ := List.exists_cons_of_ne_nil (Nat.toDigits_ne_nil (n := n) (b := 10))
  have hdigit : c.isDigit = true := Python.isDigit_toDigits (n := n) (by simp [hcs])
  have hgap : Text.isGap c = false := by
    refine Bool.eq_false_iff.mpr fun hgap => ?_
    simp only [Text.isGap, Bool.or_eq_true, beq_iff_eq] at hgap
    rcases hgap with ((rfl | rfl) | rfl) | rfl <;> exact absurd hdigit (by decide)
  rw [htext, hcs, ofNat, spelled]
  refine .token hgap fun rest hrest => ?_
  rw [List.cons_append, readToken?_of_isDigit hdigit, ← List.cons_append, ← hcs]
  exact readNumber?_toDigits hrest n

theorem lexes_word {w : List Char × Token} (hw : w ∈ words) : Lexes Delimited w.1 [w.2] := by
  have hread := fun rest (hrest : Delimited rest) => readToken?_word hw hrest
  simp only [words, List.mem_cons, List.not_mem_nil, or_false] at hw
  rcases hw with rfl | rfl | rfl <;> exact .token rfl hread

theorem delimited_newLine (depth : Nat) (rest : List Char) :
    Delimited ((Text.newLine depth).toList ++ rest) := by
  rw [Text.newLine, String.toList_append]
  exact delimited_cons (.inr rfl)

theorem lexes_newLine (depth : Nat) : Lexes Anything (Text.newLine depth).toList [] :=
  .gap isGap_newLine

theorem lexes_items {depth : Nat} {v : Json} {vs : List Json}
    (h : ∀ w ∈ v :: vs, Lexes Delimited (w.pretty depth).toList w.spelled) :
    Lexes Delimited (prettyItems depth (v :: vs)).toList (spelledItems (v :: vs)) := by
  induction vs generalizing v with
  | nil =>
    rw [prettyItems, spelledItems, String.toList_append]
    exact (lexes_newLine depth).free_append (h v (by simp))
  | cons w vs ih =>
    have hcomma : Lexes Anything [','] [.comma] := lexes_symbol rfl fun _ => rfl
    have hrest := hcomma.free_append (ih fun x hx => h x (List.mem_cons_of_mem _ hx))
    have hfirst := (lexes_newLine depth).free_append (h v (by simp))
    have happend := hfirst.append hrest fun rest _ => delimited_cons (.inl rfl)
    have htext : (prettyItems depth (v :: w :: vs)).toList =
        ((Text.newLine depth).toList ++ (v.pretty depth).toList) ++
          ([','] ++ (prettyItems depth (w :: vs)).toList) := by
      simp [prettyItems]
    rw [htext]
    exact happend

theorem lexes_members {depth : Nat} {m : String × Json} {ms : List (String × Json)}
    (h : ∀ w ∈ m :: ms, Lexes Delimited (w.2.pretty depth).toList w.2.spelled) :
    Lexes Delimited (prettyMembers depth ((m :: ms).map fun w => (some w.1, w.2))).toList
      (spelledMembers ((m :: ms).map fun w => (some w.1, w.2))) := by
  have hcolon : Lexes Anything [':'] [.colon] := lexes_symbol rfl fun _ => rfl
  have hspace : Lexes Anything [' '] [] := .gap (by simp [Text.isGap])
  induction ms generalizing m with
  | nil =>
    have hmember := (lexes_newLine depth).free_append <| (lexes_quote m.1).free_append <|
      hcolon.free_append <| hspace.free_append (h m (by simp))
    have htext : (prettyMembers depth ([m].map fun w => (some w.1, w.2))).toList =
        (Text.newLine depth).toList ++ ((quote m.1).toList ++
          ([':'] ++ ([' '] ++ (m.2.pretty depth).toList))) := by
      simp [prettyMembers]
    rw [htext]
    exact hmember
  | cons w ms ih =>
    have hcomma : Lexes Anything [','] [.comma] := lexes_symbol rfl fun _ => rfl
    have hrest := hcomma.free_append (ih fun x hx => h x (List.mem_cons_of_mem _ hx))
    have hmember := (lexes_newLine depth).free_append <| (lexes_quote m.1).free_append <|
      hcolon.free_append <| hspace.free_append <|
        (h m (by simp)).append hrest fun rest _ => delimited_cons (.inl rfl)
    have htext : (prettyMembers depth ((m :: w :: ms).map fun w => (some w.1, w.2))).toList =
        (Text.newLine depth).toList ++ ((quote m.1).toList ++ ([':'] ++ ([' '] ++
          ((m.2.pretty depth).toList ++
            ([','] ++ (prettyMembers depth ((w :: ms).map fun w => (some w.1, w.2))).toList))))) := by
      simp [prettyMembers]
    rw [htext]
    exact hmember

/-- What stands between brackets is followed by a line end. -/
theorem lexes_bracketed {o c : Char} {topen tclose : Token} {inside : List Char} {ts : List Token}
    (depth : Nat) (hopen : Lexes Anything [o] [topen]) (hclose : Lexes Anything [c] [tclose])
    (h : Lexes Delimited inside ts) :
    Lexes Anything ([o] ++ (inside ++ ((Text.newLine depth).toList ++ [c])))
      (topen :: (ts ++ [tclose])) :=
  hopen.free_append <| h.append ((lexes_newLine depth).free_append hclose) fun rest _ => by
    rw [List.append_assoc]; exact delimited_newLine depth _

theorem Plain.lexes {v : Json} (hv : Plain v) (depth : Nat) :
    Lexes Delimited (v.pretty depth).toList v.spelled := by
  have hopenBracket : Lexes Anything ['['] [.openBracket] := lexes_symbol rfl fun _ => rfl
  have hcloseBracket : Lexes Anything [']'] [.closeBracket] := lexes_symbol rfl fun _ => rfl
  have hopenBrace : Lexes Anything ['{'] [.openBrace] := lexes_symbol rfl fun _ => rfl
  have hcloseBrace : Lexes Anything ['}'] [.closeBrace] := lexes_symbol rfl fun _ => rfl
  induction hv generalizing depth with
  | null =>
    rw [pretty, spelled]
    exact lexes_word (w := (['n', 'u', 'l', 'l'], .null)) (by simp [words])
  | bool b =>
    rw [pretty, spelled]
    cases b with
    | true => exact lexes_word (w := (['t', 'r', 'u', 'e'], .bool true)) (by simp [words])
    | false => exact lexes_word (w := (['f', 'a', 'l', 's', 'e'], .bool false)) (by simp [words])
  | ofNat n => exact lexes_ofNat n depth
  | text s =>
    rw [Json.text, pretty, spelled]
    exact (lexes_quote s).mono fun _ _ => trivial
  | @array items h ih =>
    refine Lexes.mono ?_ fun _ _ => trivial
    cases items with
    | nil =>
      rw [pretty, spelled, spelledItems]
      exact hopenBracket.free_append hcloseBracket
    | cons v vs =>
      have htext : ((Json.array (v :: vs)).pretty depth).toList =
          ['['] ++ ((prettyItems (depth + 1) (v :: vs)).toList ++
            ((Text.newLine depth).toList ++ [']'])) := by
        simp [pretty]
      rw [htext, spelled]
      exact lexes_bracketed depth hopenBracket hcloseBracket (lexes_items fun w hw => ih w hw _)
  | @record members h ih =>
    refine Lexes.mono ?_ fun _ _ => trivial
    cases members with
    | nil =>
      rw [Json.record, List.map_nil, pretty, spelled, spelledMembers]
      exact hopenBrace.free_append hcloseBrace
    | cons m ms =>
      have htext : ((Json.record (m :: ms)).pretty depth).toList =
          ['{'] ++ ((prettyMembers (depth + 1)
            ((m :: ms).map fun w => (some w.1, w.2))).toList ++
              ((Text.newLine depth).toList ++ ['}'])) := by
        simp [Json.record, pretty]
      rw [htext, Json.record, spelled]
      exact lexes_bracketed depth hopenBrace hcloseBrace (lexes_members fun w hw => ih w hw _)

/-! ### Tokens put together -/

/-- The tokens of the value are put together to it again, with fuel for two steps for each. -/
def Reads (v : Json) : Prop := ∀ fuel rest, 2 * v.spelled.length ≤ fuel →
  value? fuel (v.spelled ++ rest) = some (v, rest)

theorem spelled_head (v : Json) : ∃ t ts, v.spelled = t :: ts ∧ t ≠ .closeBracket := by
  cases v <;> simp [spelled]

theorem spelledItems_cons_cons (v w : Json) (vs : List Json) :
    spelledItems (v :: w :: vs) = v.spelled ++ .comma :: spelledItems (w :: vs) := by
  rw [spelledItems]
  simp

theorem spelledMembers_cons_cons (m n : Option String × Json) (ms : List (Option String × Json)) :
    spelledMembers (m :: n :: ms) =
      .string m.1 :: .colon :: (m.2.spelled ++ .comma :: spelledMembers (n :: ms)) := by
  rw [spelledMembers]
  simp

theorem spelledItems_head (v : Json) (vs : List Json) :
    ∃ t ts, spelledItems (v :: vs) = t :: ts ∧ t ≠ .closeBracket := by
  obtain ⟨t, ts, hv, ht⟩ := spelled_head v
  cases vs with
  | nil => exact ⟨t, ts, by rw [spelledItems, hv], ht⟩
  | cons w vs => exact ⟨t, _, by rw [spelledItems_cons_cons, hv, List.cons_append], ht⟩

theorem items?_spelled {v : Json} {vs : List Json} (hvs : ∀ w ∈ v :: vs, Reads w) (fuel : Nat)
    (h : 2 * (spelledItems (v :: vs)).length < fuel) (rest : List Token) :
    items? fuel (spelledItems (v :: vs) ++ .closeBracket :: rest) = some (v :: vs, rest) := by
  have hv : Reads v := hvs v (by simp)
  induction vs generalizing v fuel with
  | nil =>
    obtain ⟨fuel, rfl⟩ : ∃ k, fuel = k + 1 := ⟨fuel - 1, by omega⟩
    rw [spelledItems] at h ⊢
    rw [items?, hv fuel _ (by omega)]
    rfl
  | cons w vs ih =>
    obtain ⟨fuel, rfl⟩ : ∃ k, fuel = k + 1 := ⟨fuel - 1, by omega⟩
    rw [spelledItems_cons_cons, List.length_append, List.length_cons] at h
    have hrest := ih (fun x hx => hvs x (List.mem_cons_of_mem _ hx)) fuel (by omega)
      (hvs w (by simp))
    rw [spelledItems_cons_cons, List.append_assoc, items?, hv fuel _ (by omega)]
    simp [hrest]

theorem members?_spelled {m : Option String × Json} {ms : List (Option String × Json)}
    (hms : ∀ n ∈ m :: ms, Reads n.2) (fuel : Nat)
    (h : 2 * (spelledMembers (m :: ms)).length < fuel) (rest : List Token) :
    members? fuel (spelledMembers (m :: ms) ++ .closeBrace :: rest) = some (m :: ms, rest) := by
  have hm : Reads m.2 := hms m (by simp)
  induction ms generalizing m fuel with
  | nil =>
    obtain ⟨fuel, rfl⟩ : ∃ k, fuel = k + 1 := ⟨fuel - 1, by omega⟩
    rw [spelledMembers, List.length_cons, List.length_cons] at h
    rw [spelledMembers, List.cons_append, List.cons_append, members?, hm fuel _ (by omega)]
    rfl
  | cons n ms ih =>
    obtain ⟨fuel, rfl⟩ : ∃ k, fuel = k + 1 := ⟨fuel - 1, by omega⟩
    rw [spelledMembers_cons_cons, List.length_cons, List.length_cons, List.length_append,
      List.length_cons] at h
    have hrest := ih (fun x hx => hms x (List.mem_cons_of_mem _ hx)) fuel (by omega)
      (hms n (by simp))
    rw [spelledMembers_cons_cons, List.cons_append, List.cons_append, List.append_assoc, members?,
      hm fuel _ (by omega)]
    simp [hrest]

theorem reads_array {items : List Json} (h : ∀ v ∈ items, Reads v) : Reads (.array items) := by
  intro fuel rest hfuel
  rw [spelled, List.length_cons, List.length_append, List.length_singleton] at hfuel
  obtain ⟨fuel, rfl⟩ : ∃ k, fuel = k + 1 := ⟨fuel - 1, by omega⟩
  cases items with
  | nil => simp [spelled, spelledItems, value?]
  | cons v vs =>
    have hitems := items?_spelled h fuel (by omega) rest
    obtain ⟨t, ts, hhead, ht⟩ := spelledItems_head v vs
    rw [hhead] at hitems
    rw [spelled, hhead]
    simp only [List.cons_append, List.append_assoc, List.nil_append] at hitems ⊢
    rw [value?, hitems]
    · rfl
    · -- the first item does not begin with the bracket that would end the array
      rintro rest heq
      exact ht (List.cons.inj heq).1

theorem reads_object {members : List (Option String × Json)} (h : ∀ m ∈ members, Reads m.2) :
    Reads (.object members) := by
  intro fuel rest hfuel
  rw [spelled, List.length_cons, List.length_append, List.length_singleton] at hfuel
  obtain ⟨fuel, rfl⟩ : ∃ k, fuel = k + 1 := ⟨fuel - 1, by omega⟩
  cases members with
  | nil => simp [spelled, spelledMembers, value?]
  | cons m ms =>
    have hmembers := members?_spelled h fuel (by omega) rest
    have hhead : ∃ ts, spelledMembers (m :: ms) = .string m.1 :: ts := by
      cases ms with
      | nil => exact ⟨_, by rw [spelledMembers]⟩
      | cons n ms => exact ⟨_, spelledMembers_cons_cons m n ms⟩
    obtain ⟨ts, hhead⟩ := hhead
    rw [hhead] at hmembers
    rw [spelled, hhead]
    simp only [List.cons_append, List.append_assoc, List.nil_append] at hmembers ⊢
    rw [value?, hmembers]
    · rfl
    · rintro rest heq
      cases heq

theorem Plain.reads {v : Json} (hv : Plain v) : Reads v := by
  have hatom : ∀ {v : Json} {t : Token}, v.spelled = [t] →
      (∀ fuel rest, value? (fuel + 1) (t :: rest) = some (v, rest)) → Reads v := by
    intro v t hspelled hread fuel rest hfuel
    rw [hspelled, List.length_singleton] at hfuel
    obtain ⟨fuel, rfl⟩ : ∃ k, fuel = k + 1 := ⟨fuel - 1, by omega⟩
    rw [hspelled]
    exact hread fuel rest
  induction hv with
  | null => exact hatom (by rw [spelled]) fun _ _ => by rw [value?]
  | bool b => exact hatom (by rw [spelled]) fun _ _ => by rw [value?]
  | ofNat n => exact hatom (by rw [Json.ofNat, spelled]) fun _ _ => by rw [value?, Json.ofNat]
  | text s => exact hatom (by rw [Json.text, spelled]) fun _ _ => by rw [value?, Json.text]
  | array _ ih => exact reads_array ih
  | record _ ih =>
    refine reads_object fun m hm => ?_
    obtain ⟨n, hn, rfl⟩ := List.mem_map.mp hm
    exact ih n hn

theorem parse?_pretty {v : Json} (hv : Plain v) (depth : Nat) : parse? (v.pretty depth) = some v := by
  have hlexes := hv.lexes depth
  -- no token is empty, so the length of the text is fuel enough
  obtain ⟨fuel, hfuel⟩ := Nat.exists_eq_add_of_le hlexes.short
  have htokens : tokens? (v.pretty depth).toList.length (v.pretty depth).toList = some v.spelled := by
    have hread := hlexes.read fuel [] (by simp [Delimited])
    have hend : tokens? fuel [] = some [] := by cases fuel <;> rfl
    rwa [← hfuel, List.append_nil, hend, Option.map_some, List.append_nil] at hread
  have hvalue := hv.reads _ [] (Nat.le_refl _)
  rw [List.append_nil] at hvalue
  simp [parse?, htokens, ofTokens?, hvalue]

end Blockwright.Json
