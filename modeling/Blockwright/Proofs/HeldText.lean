import Blockwright.Markup.Reader
import Blockwright.Markup.Writer

/-!
# Reading what was escaped

Text between tags and the values of attributes are read in the same way: characters are held one by
one, except that a slash or square brackets wait for the character after them, which could make them
a mark. `Absorbing` states what both places have in common, and `Absorbing.escaped` that escaped
characters are held as the characters that they stand for.
-/

namespace Blockwright.Markup

/-- All characters may stand in a document. -/
def Allowed (cs : List Char) : Prop := ∀ c ∈ cs, Edition.first.isAllowed c.toNat = true

namespace Reader

variable {r r' r'' : Reader} {c : Char} {u v : List Char}

/-- The document has declared nothing, and no text is put in. -/
structure Quiet (r : Reader) : Prop where
  edition : r.edition = .first
  encoding : r.encoding = .unknown
  insertion : r.insertion = []

theorem Quiet.moveTo (h : r.Quiet) (place : Place) : (r.moveTo place).Quiet :=
  ⟨h.edition, h.encoding, h.insertion⟩

/-- The characters take the reader from one state to another. -/
def Goes (r : Reader) (cs : List Char) (r' : Reader) : Prop := r.takeAll? cs = some r'

theorem takeAll?_append (r : Reader) (u v : List Char) :
    r.takeAll? (u ++ v) = (r.takeAll? u).bind fun r' => r'.takeAll? v := by
  induction u generalizing r with
  | nil => rfl
  | cons c u ih =>
    simp only [List.cons_append, takeAll?, bind, Option.bind]
    cases r.encoding.decode? c with
    | none => rfl
    | some cs =>
      dsimp only
      cases r.take? 10 cs with
      | none => rfl
      | some r' => exact ih r'

theorem Goes.append (h : Goes r u r') (h' : Goes r' v r'') : Goes r (u ++ v) r'' := by
  rw [Goes, takeAll?_append, h]
  exact h'

theorem Goes.char (hr : Quiet r) (h : r.takeChar? c = some r') (hr' : r'.insertion = []) :
    Goes r [c] r' := by
  simp [Goes, takeAll?, hr.encoding, Encoding.decode?, take?, takeWith?, h, hr']

theorem Goes.cons (hr : Quiet r) (h : r.takeChar? c = some r') (hr' : r'.insertion = [])
    (hv : Goes r' v r'') : Goes r (c :: v) r'' :=
  (Goes.char hr h hr').append hv

/-- A character that is one token, where no mark has begun. -/
theorem takeChar?_of_token {t : Token} (hs : r.scanner = {})
    (hscan : Scanner.plain? {} .content c = some ([t], {})) : r.takeChar? c = r.step? t := by
  have hr : { r with scanner := {} } = r := by rw [← hs]
  have hscan' : r.scanner.scan? c = some ([t], {}) := by rw [hs]; exact hscan
  simp [takeChar?, hscan', hr]

end Reader

/-! ### Characters that are no marks -/

/-- The tokens that stand for one character in text. -/
inductive Token.Simple : Token → Prop
  | char (c : Char) : Simple (.char c)
  | quote {q : Char} (hq : q = '"' ∨ q = '\'') : Simple (.quote q)
  | equals : Simple .equals
  | referenceEnd : Simple .referenceEnd

theorem Token.chars_char (c : Char) : (Token.char c).chars = [c] := rfl

theorem Token.chars_quote (q : Char) : (Token.quote q).chars = [q] := rfl

/-- The characters that wait for the next one. -/
def pending : Option Beginning → List Char
  | some .slash => ['/']
  | some (.square false .content) => [']']
  | some (.square true .content) => [']', ']']
  | _ => []

/-- Beginnings that can be met in text. -/
inductive Loose : Option Beginning → Prop
  | none : Loose none
  | slash : Loose (some .slash)
  | square (isDouble : Bool) : Loose (some (.square isDouble .content))

/-- A step of the scanner in text: the tokens stand for the characters that were waiting and for the
one that is taken, up to those that wait now. -/
structure Scanner.Keeps (b : Option Beginning) (c : Char) (ts : List Token)
    (b' : Option Beginning) : Prop where
  scan : Scanner.scan? { beginning := b } c = some (ts, { beginning := b' })
  loose : Loose b'
  simple : ∀ t ∈ ts, t.Simple
  chars : ts.flatMap Token.chars ++ pending b' = pending b ++ [c]

theorem Scanner.plain_keeps {c : Char} (hc : c ≠ '<' ∧ c ≠ '>' ∧ c ≠ '&') (s : Scanner)
    (hs : s.isInDoctype = false) : ∃ ts b', s.plain? .content c = some (ts, { beginning := b' }) ∧
      Loose b' ∧ (∀ t ∈ ts, t.Simple) ∧ ts.flatMap Token.chars ++ pending b' = [c] := by
  have henter : s.enter .content = {} := by simp [Scanner.enter, hs]
  simp only [Scanner.plain?, henter, hc.1, hc.2.1, hc.2.2, if_false]
  by_cases hslash : c = '/'
  · subst hslash
    exact ⟨[], some .slash, rfl, .slash, by simp, rfl⟩
  by_cases hsquare : c = ']'
  · subst hsquare
    exact ⟨[], some (.square false .content), rfl, .square false, by simp, rfl⟩
  by_cases hequals : c = '='
  · subst hequals
    exact ⟨[.equals], none, rfl, .none, by simpa using Token.Simple.equals, rfl⟩
  by_cases hquote : c = '"' ∨ c = '\''
  · refine ⟨[.quote c], none, ?_, .none, by simpa using Token.Simple.quote hquote, rfl⟩
    rcases hquote with rfl | rfl <;> rfl
  by_cases hend : c = ';'
  · subst hend
    exact ⟨[.referenceEnd], none, rfl, .none, by simpa using Token.Simple.referenceEnd, rfl⟩
  refine ⟨[.char c], none, ?_, .none, by simpa using Token.Simple.char c, rfl⟩
  have hquote' : ¬ (c == '"' || c == '\'') = true := by simpa using hquote
  simp [hslash, hsquare, hequals, hquote', hend]

/-- In text a beginning is given up at the next character, brackets aside. -/
theorem Scanner.scan?_of_loose {b : Option Beginning} (hb : Loose b) {c : Char} (hgt : c ≠ '>')
    (hsquare : c ≠ ']') : Scanner.scan? { beginning := b } c =
      abandon? { beginning := b } ((pending b).map .char) .content c := by
  cases hb with
  | none =>
    show plain? {} .content c = abandon? {} [] .content c
    rw [abandon?]
    cases plain? {} .content c <;> rfl
  | slash => exact if_neg hgt
  | square isDouble =>
    cases isDouble with
    | false => exact if_neg hsquare
    | true => exact (if_neg hgt).trans (if_neg hsquare)

theorem simple_map_char {cs : List Char} {t : Token} (h : t ∈ cs.map Token.char) : t.Simple := by
  obtain ⟨c, -, rfl⟩ := List.mem_map.mp h
  exact .char c

theorem flatMap_chars_map_char (cs : List Char) : (cs.map Token.char).flatMap Token.chars = cs := by
  induction cs with
  | nil => rfl
  | cons c cs ih => rw [List.map_cons, List.flatMap_cons, ih]; rfl

theorem Scanner.keeps {c : Char} (hc : c ≠ '<' ∧ c ≠ '>' ∧ c ≠ '&') {b : Option Beginning}
    (hb : Loose b) : ∃ ts b', Scanner.Keeps b c ts b' := by
  by_cases hsquare : c = ']'
  · subst hsquare
    cases hb with
    | none => exact ⟨[], _, rfl, .square false, by simp, rfl⟩
    | slash => exact ⟨[.char '/'], _, rfl, .square false, by simpa using Token.Simple.char '/', rfl⟩
    | square isDouble =>
      cases isDouble with
      | false => exact ⟨[], _, rfl, .square true, by simp, rfl⟩
      | true => exact ⟨[.char ']'], _, rfl, .square true, by simpa using Token.Simple.char ']', rfl⟩
  · obtain ⟨ts, b', hplain, hloose, hsimple, hchars⟩ := plain_keeps hc { beginning := b } rfl
    refine ⟨(pending b).map .char ++ ts, b', ?_, hloose, ?_, ?_⟩
    · rw [scan?_of_loose hb hc.2.1 hsquare, abandon?, hplain]
      rfl
    · intro t ht
      exact (List.mem_append.mp ht).elim simple_map_char (hsimple t)
    · rw [List.flatMap_append, List.append_assoc, hchars, flatMap_chars_map_char]

namespace Reader

/-- The name of a reference stands for a character. -/
def Spells (name : List Char) (c : Char) : Prop :=
  predefined? name = some c ∨
    predefined? name = none ∧ ∃ digits, name = '#' :: digits ∧ coded? .first digits = some c

/-- Whether characters go on with the name of a reference. -/
def continuesReference : List Char → List Char → Bool
  | _, [] => true
  | held, c :: cs =>
    (continuesName held c || held.isEmpty && c == '#') &&
      Scanner.plain? {} .content c == some ([.char c], {}) && continuesReference (c :: held) cs

/-- A character is written as itself where it is no mark, or else as a reference. -/
def EscapedAs (isFree : Char → Bool) (c : Char) (cs : List Char) : Prop :=
  (cs = [c] ∧ (c ≠ '<' ∧ c ≠ '>' ∧ c ≠ '&') ∧ isFree c = true) ∨
    ∃ name, cs = '&' :: (name ++ [';']) ∧ continuesReference [] name = true ∧ Spells name c

/-- States in which text is held: `state s w` has held `w`, and has a scanner `s`. The characters that
`isFree` picks do not end the text. -/
structure Absorbing (state : Scanner → List Char → Reader) (isFree : Char → Bool) : Prop where
  quiet : ∀ s w, (state s w).Quiet
  scanner : ∀ s w, (state s w).scanner = s
  rescan : ∀ s s' w, { state s w with scanner := s' } = state s' w
  free : isFree '/' = true ∧ isFree ']' = true
  hold : ∀ s w t, t.Simple → Allowed t.chars → t.chars.all isFree = true →
    (state s w).step? t = some (state s (w ++ t.chars))
  refer : ∀ s w, (state s w).step? .referenceStart =
    some ((state s w).moveTo (.reference [] (state s w).place))
  put : ∀ s w name c, Spells name c →
    (state s w).resolve? name (state s w).place = some (state s (w ++ [c]))

/-- The text that a state has met, with what waits in its scanner. -/
def Met (state : Scanner → List Char → Reader) (v : List Char) (r : Reader) : Prop :=
  ∃ b w, Loose b ∧ r = state { beginning := b } w ∧ w ++ pending b = v

namespace Absorbing

variable {state : Scanner → List Char → Reader} {isFree : Char → Bool} {w : List Char}
  (h : Absorbing state isFree)

include h

theorem holdAll (s : Scanner) {ts : List Token} (hsimple : ∀ t ∈ ts, t.Simple)
    (hallowed : Allowed (ts.flatMap Token.chars))
    (hfree : (ts.flatMap Token.chars).all isFree = true) (w : List Char) :
    ts.foldlM step? (state s w) = some (state s (w ++ ts.flatMap Token.chars)) := by
  induction ts generalizing w with
  | nil => simp
  | cons t ts ih =>
    rw [List.flatMap_cons] at hallowed hfree ⊢
    rw [List.all_append, Bool.and_eq_true] at hfree
    have ht := h.hold s w t (hsimple t (List.mem_cons_self ..))
      (fun c hc => hallowed c (List.mem_append_left _ hc)) hfree.1
    have hts := ih (fun t' ht' => hsimple t' (List.mem_cons_of_mem _ ht'))
      (fun c hc => hallowed c (List.mem_append_right _ hc)) hfree.2 (w ++ t.chars)
    rw [List.foldlM_cons, ht, ← List.append_assoc]
    exact hts

theorem good_pending {b : Option Beginning} (hb : Loose b) :
    Allowed (pending b) ∧ (pending b).all isFree = true := by
  have hslash : Allowed ['/'] := by simp [Allowed]; decide
  have hsquare : Allowed [']', ']'] := by simp [Allowed]; decide
  cases hb with
  | none => exact ⟨by simp [pending, Allowed], rfl⟩
  | slash => exact ⟨hslash, by simp [pending, h.free]⟩
  | square isDouble =>
    cases isDouble with
    | false => exact ⟨fun c hc => hsquare c (List.mem_cons_of_mem _ hc), by simp [pending, h.free]⟩
    | true => exact ⟨hsquare, by simp [pending, h.free]⟩

theorem quiet_of_met {v : List Char} {r : Reader} (hr : Met state v r) : r.Quiet := by
  obtain ⟨b, w, -, rfl, -⟩ := hr
  exact h.quiet _ _

/-- A character that ends what was waiting. -/
theorem flush {v : List Char} {r : Reader} (hr : Met state v r) {c : Char} (hgt : c ≠ '>')
    (hsquare : c ≠ ']') {ts : List Token} {s : Scanner}
    (hscan : Scanner.plain? {} .content c = some (ts, s)) :
    r.takeChar? c = ts.foldlM step? (state s v) := by
  obtain ⟨b, w, hb, rfl, rfl⟩ := hr
  have hscan' : Scanner.scan? { beginning := b } c = some ((pending b).map .char ++ ts, s) := by
    have hplain : Scanner.plain? { beginning := b } .content c = some (ts, s) := hscan
    rw [Scanner.scan?_of_loose hb hgt hsquare, Scanner.abandon?, hplain]
    rfl
  obtain ⟨hallowed, hfree⟩ := h.good_pending hb
  rw [← flatMap_chars_map_char (pending b)] at hallowed hfree
  have hheld := h.holdAll s (fun t => simple_map_char) hallowed hfree w
  rw [flatMap_chars_map_char] at hheld
  simp only [takeChar?, h.scanner, hscan', h.rescan, bind, Option.bind]
  rw [List.foldlM_append, hheld]
  rfl

theorem literal {v : List Char} {r : Reader} (hr : Met state v r) {c : Char}
    (hc : c ≠ '<' ∧ c ≠ '>' ∧ c ≠ '&') (hallowed : Edition.first.isAllowed c.toNat = true)
    (hfree : isFree c = true) : ∃ r', Goes r [c] r' ∧ Met state (v ++ [c]) r' := by
  obtain ⟨b, w, hb, rfl, rfl⟩ := hr
  obtain ⟨ts, b', hscan, hloose, hsimple, hchars⟩ := Scanner.keeps hc hb
  obtain ⟨hallowed', hfree'⟩ := h.good_pending hb
  have hmem : ∀ d ∈ ts.flatMap Token.chars,
      Edition.first.isAllowed d.toNat = true ∧ isFree d = true := by
    intro d hd
    have hd' : d ∈ pending b ++ [c] := hchars ▸ List.mem_append_left _ hd
    rcases List.mem_append.mp hd' with hd' | hd'
    · exact ⟨hallowed' d hd', List.all_eq_true.mp hfree' d hd'⟩
    · rw [List.mem_singleton.mp hd']
      exact ⟨hallowed, hfree⟩
  refine ⟨state { beginning := b' } (w ++ ts.flatMap Token.chars), ?_, b', _, hloose, rfl, ?_⟩
  · refine .char (h.quiet _ _) ?_ (h.quiet _ _).insertion
    simp only [takeChar?, h.scanner, hscan, h.rescan, bind, Option.bind]
    exact h.holdAll _ hsimple (fun d hd => (hmem d hd).1)
      (List.all_eq_true.mpr fun d hd => (hmem d hd).2) w
  · rw [List.append_assoc, hchars, List.append_assoc]

theorem goes_reference {v held name : List Char} {c : Char}
    (hname : continuesReference held name = true) (hspells : Spells (held.reverse ++ name) c) :
    Goes ((state {} v).moveTo (.reference held (state {} v).place)) (name ++ [';'])
      (state {} (v ++ [c])) := by
  induction name generalizing held with
  | nil =>
    have hs : ((state {} v).moveTo (.reference held (state {} v).place)).scanner = {} :=
      h.scanner _ _
    rw [List.append_nil] at hspells
    refine .char ((h.quiet _ _).moveTo _) ?_ (h.quiet _ _).insertion
    exact (takeChar?_of_token hs (t := .referenceEnd) rfl).trans (h.put _ _ _ _ hspells)
  | cons d name ih =>
    rw [continuesReference, Bool.and_eq_true, Bool.and_eq_true] at hname
    obtain ⟨⟨hd, hscan⟩, hrest⟩ := hname
    have hspells' : Spells ((d :: held).reverse ++ name) c := by simpa using hspells
    have hs : ((state {} v).moveTo (.reference held (state {} v).place)).scanner = {} :=
      h.scanner _ _
    have hstep : ((state {} v).moveTo (.reference held (state {} v).place)).step? (.char d) =
        some ((state {} v).moveTo (.reference (d :: held) (state {} v).place)) :=
      if_pos (by simpa using hd)
    exact .cons ((h.quiet _ _).moveTo _) ((takeChar?_of_token hs (eq_of_beq hscan)).trans hstep)
      ((h.quiet _ _).moveTo _).insertion (ih hrest hspells')

theorem reference {v : List Char} {r : Reader} (hr : Met state v r) {name : List Char} {c : Char}
    (hname : continuesReference [] name = true) (hspells : Spells name c) :
    Goes r ('&' :: (name ++ [';'])) (state {} (v ++ [c])) := by
  have hstart : r.takeChar? '&' = some ((state {} v).moveTo (.reference [] (state {} v).place)) := by
    refine (h.flush hr (by decide) (by decide) rfl).trans ?_
    rw [List.foldlM_cons, h.refer]
    rfl
  exact .cons (h.quiet_of_met hr) hstart (h.quiet {} v).insertion (h.goes_reference hname hspells)

/-- Escaped characters are held as the characters that they stand for. -/
theorem escaped {escape : Char → List Char} {cs : List Char}
    (hescape : ∀ c ∈ cs, EscapedAs isFree c (escape c)) (hcs : Allowed cs) {v : List Char}
    {r : Reader} (hr : Met state v r) :
    ∃ r', Goes r (cs.flatMap escape) r' ∧ Met state (v ++ cs) r' := by
  induction cs generalizing v r with
  | nil => exact ⟨r, rfl, by rwa [List.append_nil]⟩
  | cons c cs ih =>
    have hone : ∃ r', Goes r (escape c) r' ∧ Met state (v ++ [c]) r' := by
      rcases hescape c (List.mem_cons_self ..) with ⟨he, hplain, hfree⟩ | ⟨name, he, hname, hspells⟩
      · rw [he]
        exact h.literal hr hplain (hcs c (List.mem_cons_self ..)) hfree
      · rw [he]
        exact ⟨_, h.reference hr hname hspells, none, _, .none, rfl, List.append_nil _⟩
    obtain ⟨r', hgoes, hmet⟩ := hone
    obtain ⟨r'', hgoes', hmet'⟩ := ih (fun d hd => hescape d (List.mem_cons_of_mem _ hd))
      (fun d hd => hcs d (List.mem_cons_of_mem _ hd)) hmet
    exact ⟨r'', hgoes.append hgoes', by simpa using hmet'⟩

end Absorbing

end Reader

/-! ### Text between tags, and values -/

theorem escapedAs_escapeTextChar (c : Char) :
    Reader.EscapedAs (fun _ => true) c (escapeTextChar c) := by
  rw [escapeTextChar]
  split
  · next hc => exact .inr ⟨"lt".toList, rfl, rfl, .inl (hc ▸ rfl)⟩
  split
  · next hc => exact .inr ⟨"gt".toList, rfl, rfl, .inl (hc ▸ rfl)⟩
  split
  · next hc => exact .inr ⟨"amp".toList, rfl, rfl, .inl (hc ▸ rfl)⟩
  next hlt hgt hamp => exact .inl ⟨rfl, ⟨hlt, hgt, hamp⟩, rfl⟩

theorem escapedAs_escapeAttributeChar (c : Char) :
    Reader.EscapedAs (· != '"') c (escapeAttributeChar c) := by
  rw [escapeAttributeChar]
  split
  · next hc => exact .inr ⟨"lt".toList, rfl, rfl, .inl (hc ▸ rfl)⟩
  split
  · next hc => exact .inr ⟨"gt".toList, rfl, rfl, .inl (hc ▸ rfl)⟩
  split
  · next hc => exact .inr ⟨"quot".toList, rfl, rfl, .inl (hc ▸ rfl)⟩
  split
  · next hc => exact .inr ⟨"apos".toList, rfl, rfl, .inl (hc ▸ rfl)⟩
  split
  · next hc => exact .inr ⟨"amp".toList, rfl, rfl, .inl (hc ▸ rfl)⟩
  split
  · next hc => exact .inr ⟨"#xA".toList, rfl, rfl, .inr ⟨rfl, "xA".toList, rfl, hc ▸ rfl⟩⟩
  split
  · next hc => exact .inr ⟨"#xD".toList, rfl, rfl, .inr ⟨rfl, "xD".toList, rfl, hc ▸ rfl⟩⟩
  next hlt hgt hquot _ hamp _ _ => exact .inl ⟨rfl, ⟨hlt, hgt, hamp⟩, by simpa using hquot⟩

namespace Reader

variable {r : Reader}

/-- The reader with the text `w` begun between tags. -/
def textAt (r : Reader) (s : Scanner) (w : List Char) : Reader :=
  { r with scanner := s, place := .outside, held := w.reverse, isBlank := w.all Text.isGap }

/-- The reader with the value `w` begun after a double quote. -/
def valueAt (r : Reader) (t : StartTag) (name : QName) (s : Scanner) (w : List Char) : Reader :=
  { r with scanner := s, place := .attributeValue t name (some '"'), held := w.reverse }

/-- A reference holds its character. Between tags it makes the text count unless the text is white
space. -/
theorem resolve?_of_spells {place : Place} {name : List Char} {c : Char}
    (h : Spells name c) (hr : r.edition = .first) (hplace : r.place = place) :
    r.resolve? name place =
      some (if place.isOutside && !(c :: r.held).all Text.isGap then
        { r.hold [c] with isBlank := false }
        else r.hold [c]) := by
  have hmove : r.moveTo place = r := by rw [← hplace]; rfl
  have hheld : (r.hold [c]).held = c :: r.held := rfl
  simp only [resolve?, hmove]
  rcases h with h | ⟨h, digits, rfl, hcode⟩
  · obtain ⟨d, ds, rfl⟩ : ∃ d ds, name = d :: ds := by
      cases name with
      | nil => simp [predefined?] at h
      | cons d ds => exact ⟨d, ds, rfl⟩
    simp only [h, bind, Option.bind, hheld, List.isEmpty_cons, Bool.false_or]
  · simp only [h, hr, hcode, Option.map_some, bind, Option.bind, hheld, List.isEmpty_cons,
      Bool.false_or]

theorem textAt_append (s : Scanner) (w cs : List Char) : r.textAt s (w ++ cs) =
    { (r.textAt s w).hold cs with isBlank := w.all Text.isGap && cs.all Text.isGap } := by
  simp [textAt, hold]

theorem valueAt_append (t : StartTag) (name : QName) (s : Scanner) (w cs : List Char) :
    r.valueAt t name s (w ++ cs) = (r.valueAt t name s w).hold cs := by
  simp [valueAt, hold]

theorem text?_textAt (hframes : r.frames ≠ []) (s : Scanner) (w : List Char) {t : Token}
    (ht : t.chars.all Text.isGap = false) :
    (r.textAt s w).text? t = some (r.textAt s (w ++ t.chars)) := by
  have hframes' : ¬ (r.textAt s w).frames.isEmpty = true := by simpa [textAt] using hframes
  rw [text?, if_neg hframes', textAt_append, ht, Bool.and_false]

theorem absorbing_textAt (hr : r.Quiet) (hframes : r.frames ≠ []) :
    Absorbing r.textAt fun _ => true where
  quiet s w := ⟨hr.edition, hr.encoding, hr.insertion⟩
  scanner s w := rfl
  rescan s s' w := rfl
  free := ⟨rfl, rfl⟩
  hold s w t ht hallowed _ := by
    have hframes' : (r.textAt s w).frames.isEmpty = false := by simpa [textAt] using hframes
    cases ht with
    | char c =>
      have hc : (r.textAt s w).edition.isPlain c.toNat = true := by
        rw [show (r.textAt s w).edition = .first from hr.edition]
        exact hallowed c (List.mem_singleton_self c)
      show (r.textAt s w).outside? (.char c) = _
      by_cases hgap : Text.isGap c = true
      · refine (if_pos hgap).trans ?_
        rw [hframes', Token.chars_char, textAt_append]
        simp [hgap, textAt, hold]
      · refine (if_neg hgap).trans ((if_pos hc).trans ?_)
        exact text?_textAt hframes s w (by simpa [Token.chars_char] using hgap)
    | quote hq => exact text?_textAt hframes s w (by rcases hq with rfl | rfl <;> rfl)
    | equals => exact text?_textAt hframes s w rfl
    | referenceEnd => exact text?_textAt hframes s w rfl
  refer s w := by
    have hframes' : (!(r.textAt s w).frames.isEmpty) = true := by simpa [textAt] using hframes
    exact if_pos hframes'
  put s w name c h := by
    have hr' : (r.textAt s w).edition = .first := hr.edition
    rw [resolve?_of_spells h hr' rfl, textAt_append]
    -- The text so far is white space if its flag says so, and `c` settles it otherwise.
    have hall : (c :: (r.textAt s w).held).all Text.isGap =
        (w.all Text.isGap && [c].all Text.isGap) := by
      simp [textAt, Bool.and_comm]
    rw [hall]
    cases hgap : (w.all Text.isGap && [c].all Text.isGap) with
    | false => rfl
    | true =>
      have hblank : (r.textAt s w).isBlank = true := (Bool.and_eq_true _ _ ▸ hgap).1
      simp [hold, hblank]

theorem absorbing_valueAt (hr : r.Quiet) (t : StartTag) (name : QName) :
    Absorbing (r.valueAt t name) (· != '"') where
  quiet s w := ⟨hr.edition, hr.encoding, hr.insertion⟩
  scanner s w := rfl
  rescan s s' w := rfl
  free := ⟨rfl, rfl⟩
  hold s w t ht hallowed hfree := by
    rw [valueAt_append]
    cases ht with
    | char c =>
      refine if_pos ?_
      rw [show (r.valueAt _ name s w).edition = .first from hr.edition]
      exact hallowed c (List.mem_singleton_self c)
    | quote hq =>
      refine if_neg ?_
      simpa [Token.chars_quote] using hfree
    | equals => rfl
    | referenceEnd => rfl
  refer s w := rfl
  put s w name' c h := by
    have hr' : (r.valueAt t name s w).edition = .first := hr.edition
    rw [resolve?_of_spells h hr' rfl, valueAt_append]
    rfl

end Reader

end Blockwright.Markup
