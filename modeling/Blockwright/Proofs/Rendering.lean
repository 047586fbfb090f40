import Blockwright.Proofs.HeldText
import Mathlib.Data.List.TakeWhile

/-!
# Documents read back as they were written

`parse?_render`: a tidy tree that is written and read again is the same tree without its blank
texts. The reader is followed from one place of a tag to the next. `Opens` and `Heads` say what is
common to the states in which an element may begin and to those in which its start tag may end.
-/

namespace Blockwright

namespace Dict

variable {α : Type}

theorem place_of_lt {key : String} {value : α} {entries : List (String × α)}
    (h : ∀ e ∈ entries, e.1 < key) : place key value entries = entries ++ [(key, value)] := by
  induction entries with
  | nil => rfl
  | cons a rest ih =>
    have ha : a.1 < key := h a (List.mem_cons_self ..)
    have hne : a.1 ≠ key := fun heq => String.lt_irrefl key (heq ▸ ha)
    rw [place, if_neg (String.lt_asymm ha), if_neg hne,
      ih fun e he => h e (List.mem_cons_of_mem _ he), List.cons_append]

theorem eq_of_entries {d d' : Dict α} (h : d.entries = d'.entries) : d = d' := by
  cases d
  cases d'
  cases h
  rfl

theorem entries_foldl_insert (d : Dict α) {added : List (String × α)}
    (h : Ascending (d.entries ++ added)) :
    (added.foldl (fun d e => d.insert e.1 e.2) d).entries = d.entries ++ added := by
  induction added generalizing d with
  | nil => simp
  | cons e added ih =>
    have hlt : ∀ e' ∈ d.entries, e'.1 < e.1 := fun e' he' =>
      (List.pairwise_append.mp h).2.2 e' he' e (List.mem_cons_self ..)
    have hplace : (d.insert e.1 e.2).entries = d.entries ++ [e] := place_of_lt hlt
    rw [List.foldl_cons, ih _ (by rwa [hplace, List.append_assoc]), hplace, List.append_assoc]
    rfl

/-- Setting the entries of a dictionary one by one builds it again. -/
theorem foldl_insert_entries (d : Dict α) :
    d.entries.foldl (fun d e => d.insert e.1 e.2) empty = d := by
  have h : (d.entries.foldl (fun d e => d.insert e.1 e.2) empty).entries = d.entries :=
    entries_foldl_insert empty d.ascending
  exact eq_of_entries h

end Dict

namespace Markup

/-- Whether a text is a name without a qualifier. -/
def isPlainName (s : String) : Bool :=
  match s.toList with
  | [] => false
  | c :: cs => isNameStart c && cs.all isNameChar && !(c :: cs).contains ':'

theorem isPlainName_iff {s : String} : isPlainName s = true ↔ ∃ c cs, s.toList = c :: cs ∧
    isNameStart c = true ∧ (∀ d ∈ cs, isNameChar d = true) ∧ ':' ∉ c :: cs := by
  rw [isPlainName]
  cases s.toList with
  | nil => simp
  | cons c cs => simp [and_assoc]

theorem isNameChar_of_isNameStart {c : Char} (h : isNameStart c = true) : isNameChar c = true := by
  simp [isNameChar, h]

theorem ne_of_isNameStart {c d : Char} (hc : isNameStart c = true) (hd : isNameStart d = false) :
    c ≠ d := by
  rintro rfl
  simp [hc] at hd

theorem plain?_of_isNameChar {c : Char} (h : isNameChar c = true) :
    Scanner.plain? {} .content c = some ([.char c], {}) := by
  have hne : ∀ d, isNameChar d = false → c ≠ d := fun d hd hcd => by simp [hcd, hd] at h
  simp [Scanner.plain?, hne '<' rfl, hne '/' rfl, hne ']' rfl, hne '>' rfl, hne '=' rfl,
    hne '"' rfl, hne '\'' rfl, hne '&' rfl, hne ';' rfl]
  rfl

theorem ofChars?_of_noColon {cs : List Char} (hne : cs ≠ []) (h : ':' ∉ cs) :
    QName.ofChars? cs = some ⟨none, String.ofList cs⟩ := by
  have hall : ∀ c ∈ cs, (c != ':') = true := fun c hc => by
    simpa using fun heq : c = ':' => h (heq ▸ hc)
  simp [QName.ofChars?, List.takeWhile_eq_self_iff.mpr hall, List.dropWhile_eq_nil_iff.mpr hall, hne]

namespace Reader

variable {r r₀ : Reader} {t : StartTag} {name value : String}

/-- The reader where a node may begin or end. -/
structure Between (r : Reader) : Prop extends Quiet r where
  scanner : r.scanner = {}
  place : r.place = .outside
  held : r.held = []
  isBlank : r.isBlank = true
  mayHaveDoctype : r.mayHaveDoctype = false

/-! ### Start tags -/

theorem goes_name {place : List Char → Place} (hr : r.Between)
    (hmore : ∀ held c, continuesName held c = true → c ≠ ':' →
      (r.moveTo (place held)).step? (.char c) = some (r.moveTo (place (c :: held))))
    {held cs : List Char} (hheld : held ≠ []) (hcs : ∀ c ∈ cs, isNameChar c = true)
    (hcolon : ':' ∉ cs) :
    Goes (r.moveTo (place held)) cs (r.moveTo (place (cs.reverse ++ held))) := by
  induction cs generalizing held with
  | nil => rfl
  | cons c cs ih =>
    have hc : isNameChar c = true := hcs c (List.mem_cons_self ..)
    have hcont : continuesName held c = true := by simpa [continuesName, hheld] using hc
    have hne : c ≠ ':' := fun heq => hcolon (heq ▸ List.mem_cons_self ..)
    have hrest := ih (List.cons_ne_nil c held) (fun d hd => hcs d (List.mem_cons_of_mem _ hd))
      fun hmem => hcolon (List.mem_cons_of_mem _ hmem)
    have hs : (r.moveTo (place held)).scanner = {} := hr.scanner
    rw [List.reverse_cons, List.append_assoc]
    exact .cons (hr.toQuiet.moveTo _)
      ((takeChar?_of_token hs (plain?_of_isNameChar hc)).trans (hmore held c hcont hne))
      hr.insertion hrest

theorem step?_tagName {held : List Char} {c : Char} (h : continuesName held c = true)
    (hc : c ≠ ':') : (r.moveTo (.tagName held)).step? (.char c) =
      some (r.moveTo (.tagName (c :: held))) := by
  show tagName? _ held (.char c) = _
  simp only [tagName?, QName.step?, if_neg hc, if_pos h]
  rfl

theorem step?_attributeName {held : List Char} {c : Char} (h : continuesName held c = true)
    (hc : c ≠ ':') : (r.moveTo (.attributeName t held)).step? (.char c) =
      some (r.moveTo (.attributeName t (c :: held))) := by
  show attributeName? _ t held (.char c) = _
  simp only [attributeName?, QName.step?, if_neg hc, if_pos h]
  rfl

theorem step?_endTagName {held : List Char} {c : Char} (h : continuesName held c = true)
    (hc : c ≠ ':') : (r.moveTo (.endTagName held)).step? (.char c) =
      some (r.moveTo (.endTagName (c :: held))) := by
  show endTagName? _ held (.char c) = _
  simp only [endTagName?, QName.step?, if_neg hc, if_pos h]
  rfl

/-- In the state `r₀` an element may begin, and then the reader is as `r`. -/
def Opens (r₀ r : Reader) : Prop :=
  ∀ c, isNameStart c = true → c ≠ ':' → Goes r₀ ['<', c] (r.moveTo (.tagName [c]))

theorem Opens.goes_tagName (h : Opens r₀ r) (hr : r.Between) (hname : isPlainName name = true) :
    Goes r₀ ('<' :: name.toList) (r.moveTo (.tagName name.toList.reverse)) := by
  obtain ⟨c, cs, hcs, hc, hrest, hcolon⟩ := isPlainName_iff.mp hname
  have hne : c ≠ ':' := fun heq => hcolon (heq ▸ List.mem_cons_self ..)
  have hgo := goes_name hr (fun _ _ => step?_tagName) (List.cons_ne_nil c []) hrest
    fun hmem => hcolon (List.mem_cons_of_mem _ hmem)
  rw [hcs, List.reverse_cons]
  exact (h c hc hne).append hgo

/-- In the state `r₀` the start tag `t` may end, or an attribute may follow. -/
structure Heads (r : Reader) (t : StartTag) (r₀ : Reader) : Prop extends Quiet r₀ where
  gap : r₀.takeChar? ' ' = some (r.moveTo (.tag t))
  close : r₀.takeChar? '>' = r.endStartTag? t false

theorem ofChars?_toList (hname : isPlainName name = true) :
    QName.ofChars? name.toList = some ⟨none, name⟩ := by
  obtain ⟨c, cs, hcs, -, -, hcolon⟩ := isPlainName_iff.mp hname
  rw [ofChars?_of_noColon (by simp [hcs]) (hcs ▸ hcolon), String.ofList_toList]

theorem heads_tagName (hr : r.Between) (hname : isPlainName name = true) :
    Heads r { name := ⟨none, name⟩ } (r.moveTo (.tagName name.toList.reverse)) where
  toQuiet := hr.toQuiet.moveTo _
  gap := by
    have hcont : continuesName name.toList.reverse ' ' = false := by
      rw [continuesName]
      split <;> rfl
    have hs : (r.moveTo (.tagName name.toList.reverse)).scanner = {} := hr.scanner
    refine (takeChar?_of_token hs (t := .char ' ') rfl).trans ?_
    show tagName? _ _ (.char ' ') = _
    simp [tagName?, QName.step?, hcont, ofChars?_toList hname]
    rfl
  close := by
    have hs : (r.moveTo (.tagName name.toList.reverse)).scanner = {} := hr.scanner
    refine (takeChar?_of_token hs (t := .tagEnd) rfl).trans ?_
    show tagName? _ _ .tagEnd = _
    simp [tagName?, QName.step?, ofChars?_toList hname]
    rfl

theorem heads_afterAttribute (hr : r.Between) (t : StartTag) :
    Heads r t (r.moveTo (.afterAttribute t)) where
  toQuiet := hr.toQuiet.moveTo _
  gap := takeChar?_of_token (r := r.moveTo (.afterAttribute t)) (t := .char ' ') hr.scanner rfl
  close := takeChar?_of_token (r := r.moveTo (.afterAttribute t)) (t := .tagEnd) hr.scanner rfl

theorem Heads.goes_attributeName (h : Heads r t r₀) (hr : r.Between)
    (hname : isPlainName name = true) (hnew : t.hasAttribute ⟨none, name⟩ = false) :
    Goes r₀ (' ' :: (name.toList ++ ['=', '"'])) (r.valueAt t ⟨none, name⟩ {} []) := by
  obtain ⟨c, cs, hcs, hc, hrest, hcolon⟩ := isPlainName_iff.mp hname
  have hfirst : (r.moveTo (.tag t)).takeChar? c = some (r.moveTo (.attributeName t [c])) := by
    have hgap : Text.isGap c = false := by
      have hne (d : Char) : isNameStart d = false → c ≠ d := ne_of_isNameStart hc
      simp [Text.isGap, hne ' ' rfl, hne '\t' rfl, hne '\n' rfl, hne '\r' rfl]
    have hs : (r.moveTo (.tag t)).scanner = {} := hr.scanner
    refine (takeChar?_of_token hs (plain?_of_isNameChar (isNameChar_of_isNameStart hc))).trans ?_
    show tag? _ t (.char c) = _
    simp [tag?, hgap, hc]
    rfl
  have hname' := goes_name hr (fun _ _ => step?_attributeName (t := t)) (List.cons_ne_nil c [])
    hrest fun hmem => hcolon (List.mem_cons_of_mem _ hmem)
  rw [← List.reverse_cons, ← hcs] at hname'
  have hequals : (r.moveTo (.attributeName t name.toList.reverse)).takeChar? '=' =
      some (r.moveTo (.attributeValue t ⟨none, name⟩ none)) := by
    have hs : (r.moveTo (.attributeName t name.toList.reverse)).scanner = {} := hr.scanner
    refine (takeChar?_of_token hs (t := .equals) rfl).trans ?_
    show attributeName? _ t _ .equals = _
    simp [attributeName?, QName.step?, ofChars?_toList hname, hnew]
    rfl
  have hquote : (r.moveTo (.attributeValue t ⟨none, name⟩ none)).takeChar? '"' =
      some (r.valueAt t ⟨none, name⟩ {} []) := by
    have hs : (r.moveTo (.attributeValue t ⟨none, name⟩ none)).scanner = {} := hr.scanner
    refine (takeChar?_of_token hs (t := .quote '"') rfl).trans ?_
    rw [valueAt, ← hr.scanner, List.reverse_nil, ← hr.held]
    rfl
  refine .cons h.toQuiet h.gap hr.insertion ?_
  rw [hcs, List.cons_append]
  refine .cons (hr.toQuiet.moveTo _) hfirst hr.insertion (hname'.append ?_)
  exact .cons (hr.toQuiet.moveTo _) hequals hr.insertion
    (.char (hr.toQuiet.moveTo _) hquote hr.insertion)

theorem step?_valueAt_quote (hr : r.Between) {name : QName} {w : List Char} {t' : StartTag}
    (hadd : t.add? name (String.ofList w) = some t') :
    (r.valueAt t name {} w).step? (.quote '"') = some (r.moveTo (.afterAttribute t')) := by
  have hreset : { r with scanner := {}, place := .afterAttribute t', held := [] } =
      r.moveTo (.afterAttribute t') := by
    rw [← hr.scanner, ← hr.held]
    rfl
  show (t.add? name (String.ofList w.reverse.reverse)).map _ = _
  rw [List.reverse_reverse, hadd]
  exact congrArg some hreset

theorem Heads.goes_attribute (h : Heads r t r₀) (hr : r.Between) (hname : isPlainName name = true)
    (hxmlns : name ≠ "xmlns") (hnew : t.hasAttribute ⟨none, name⟩ = false)
    (hvalue : Allowed value.toList) :
    Goes r₀ (' ' :: (name.toList ++ ['=', '"']) ++ value.toList.flatMap escapeAttributeChar ++ ['"'])
      (r.moveTo
        (.afterAttribute { t with attributes := (⟨none, name⟩, value) :: t.attributes })) := by
  have habs := absorbing_valueAt hr.toQuiet t ⟨none, name⟩
  have hmet : Met (r.valueAt t ⟨none, name⟩) [] (r.valueAt t ⟨none, name⟩ {} []) :=
    ⟨none, [], .none, rfl, rfl⟩
  obtain ⟨r', hgoes, hmet'⟩ := habs.escaped (fun c _ => escapedAs_escapeAttributeChar c) hvalue hmet
  have hadd : t.add? ⟨none, name⟩ (String.ofList value.toList) =
      some { t with attributes := (⟨none, name⟩, value) :: t.attributes } := by
    simp [StartTag.add?, hxmlns, String.ofList_toList]
  have hscan : Scanner.plain? {} .content '"' = some ([.quote '"'], {}) := rfl
  have hquote := (habs.flush hmet' (by decide) (by decide) hscan).trans
    (congrArg (Option.bind · some) (step?_valueAt_quote hr hadd))
  exact ((h.goes_attributeName hr hname hnew).append hgoes).append
    (.char (habs.quiet_of_met hmet') hquote hr.insertion)

/-- The start tag with these attributes. -/
def tagOf (name : String) (attributes : List (String × String)) : StartTag :=
  { name := ⟨none, name⟩, attributes := (attributes.map fun a => (⟨none, a.1⟩, a.2)).reverse }

theorem hasAttribute_tagOf {pre : List (String × String)} {key : String}
    (h : ∀ a ∈ pre, a.1 < key) : (tagOf name pre).hasAttribute ⟨none, key⟩ = false := by
  refine Bool.eq_false_iff.mpr fun hmem => ?_
  simp only [StartTag.hasAttribute, tagOf, List.map_reverse, List.map_map, List.contains_reverse,
    List.contains_iff_mem, List.mem_map, Function.comp_apply, QName.mk.injEq, true_and] at hmem
  obtain ⟨a, ha, rfl⟩ := hmem
  exact String.lt_irrefl a.1 (h a ha)

theorem Heads.goes_attributes {pre rest : List (String × String)} (h : Heads r (tagOf name pre) r₀)
    (hr : r.Between) (hascending : Ascending (pre ++ rest))
    (hrest : ∀ a ∈ rest, isPlainName a.1 = true ∧ a.1 ≠ "xmlns" ∧ Allowed a.2.toList) :
    ∃ r₁, Goes r₀ (writeAttributes rest).toList r₁ ∧ Heads r (tagOf name (pre ++ rest)) r₁ := by
  induction rest generalizing pre r₀ with
  | nil => exact ⟨r₀, rfl, by rwa [List.append_nil]⟩
  | cons a rest ih =>
    obtain ⟨hkey, hxmlns, hvalue⟩ := hrest a (List.mem_cons_self ..)
    have hlt : ∀ e ∈ pre, e.1 < a.1 := fun e he =>
      (List.pairwise_append.mp hascending).2.2 e he a (List.mem_cons_self ..)
    have hone := h.goes_attribute hr hkey hxmlns (hasAttribute_tagOf hlt) hvalue
    have htag : { tagOf name pre with
        attributes := (⟨none, a.1⟩, a.2) :: (tagOf name pre).attributes } =
          tagOf name (pre ++ [a]) := by simp [tagOf]
    rw [htag] at hone
    obtain ⟨r₁, hgoes, hheads⟩ := ih (heads_afterAttribute hr (tagOf name (pre ++ [a])))
      (by rwa [List.append_assoc]) fun e he => hrest e (List.mem_cons_of_mem _ he)
    refine ⟨r₁, ?_, by rwa [List.append_assoc] at hheads⟩
    have htext : (writeAttributes (a :: rest)).toList =
        ' ' :: (a.1.toList ++ ['=', '"']) ++ a.2.toList.flatMap escapeAttributeChar ++ ['"'] ++
          (writeAttributes rest).toList := by
      simp [writeAttributes, escapeAttribute, String.toList_append]
    rw [htext]
    exact hone.append hgoes

/-! ### Elements -/

/-- The reader inside an element, with the children that have been read. -/
def inside (r : Reader) (name : String) (attributes : Dict String) (children : List Node) : Reader :=
  { r with
    frames := { tag := ⟨none, name⟩, attributes, scope := r.scope, children := children.reverse } ::
      r.frames }

variable {attributes : Dict String} {children : List Node}

theorem Between.inside (hr : r.Between) (name : String) (attributes : Dict String)
    (children : List Node) : (r.inside name attributes children).Between :=
  ⟨⟨hr.edition, hr.encoding, hr.insertion⟩, hr.scanner, hr.place, hr.held, hr.isBlank,
    hr.mayHaveDoctype⟩

theorem Between.addNode (hr : r.Between) (n : Node) : (r.addNode n).Between := by
  obtain ⟨⟨h₁, h₂, h₃⟩, h₄, h₅, h₆, h₇, h₈⟩ := hr
  rw [Reader.addNode]
  split <;> exact ⟨⟨h₁, h₂, h₃⟩, h₄, h₅, h₆, h₇, h₈⟩

theorem addNode_inside (n : Node) :
    (r.inside name attributes children).addNode n = r.inside name attributes (children ++ [n]) := by
  simp [inside, addNode]

theorem frame?_tagOf (name : String) (attributes : Dict String) (scope : List String) :
    (tagOf name attributes.entries).frame? scope =
      some { tag := ⟨none, name⟩, attributes, scope, children := [] } := by
  have hdict : (tagOf name attributes.entries).attributes.foldr
      (fun a (d : Dict String) => d.insert a.1.name a.2) Dict.empty = attributes := by
    rw [tagOf, List.foldr_reverse, List.foldl_map]
    exact attributes.foldl_insert_entries
  have hbound : ((tagOf name attributes.entries).name ::
      (tagOf name attributes.entries).attributes.map Prod.fst).all
        (StartTag.isBound ((tagOf name attributes.entries).declared ++ scope)) = true := by
    simp [tagOf, StartTag.isBound]
  rw [StartTag.frame?, if_pos hbound, hdict]
  rfl

theorem endElement?_inside (hr : r.Between) (place : Place) :
    ((r.inside name attributes children).moveTo place).endElement? ⟨none, name⟩ =
      some (r.addNode (.element name attributes children)) := by
  have hplace : { r with place := .outside } = r := by rw [← hr.place]
  have hframes : ((r.inside name attributes children).moveTo place).endElement? ⟨none, name⟩ =
      some (addNode { r with place := .outside }
        (.element name attributes children.reverse.reverse)) := if_pos rfl
  rw [hframes, hplace, List.reverse_reverse]

theorem endStartTag?_tagOf (hr : r.Between) :
    r.endStartTag? (tagOf name attributes.entries) false = some (r.inside name attributes []) := by
  have hplace : { r with place := .outside } = r := by rw [← hr.place]
  rw [endStartTag?, frame?_tagOf]
  show some (({ r with place := .outside } : Reader).inside name attributes []) = _
  rw [hplace]

theorem endStartTag?_tagOf_empty (hr : r.Between) :
    r.endStartTag? (tagOf name attributes.entries) true =
      some (r.addNode (.element name attributes [])) := by
  have hend : ((r.inside name attributes []).moveTo .outside).endElement? ⟨none, name⟩ = _ :=
    endElement?_inside hr .outside
  rw [endStartTag?, frame?_tagOf]
  exact hend

theorem Heads.goes_emptyEnd (h : Heads r (tagOf name attributes.entries) r₀) (hr : r.Between) :
    Goes r₀ [' ', '/', '>'] (r.addNode (.element name attributes [])) := by
  have hscanner : (r.moveTo (.tag (tagOf name attributes.entries))).scanner = {} := hr.scanner
  have hslash : (r.moveTo (.tag (tagOf name attributes.entries))).takeChar? '/' =
      some { r.moveTo (.tag (tagOf name attributes.entries)) with
        scanner := { beginning := some .slash } } := by
    rw [takeChar?, hscanner]
    rfl
  have hclose : takeChar? { r.moveTo (.tag (tagOf name attributes.entries)) with
      scanner := { beginning := some .slash } } '>' =
        some (r.addNode (.element name attributes [])) := by
    have hreset : { r.moveTo (.tag (tagOf name attributes.entries)) with scanner := {} } =
        r.moveTo (.tag (tagOf name attributes.entries)) := by rw [← hscanner]
    show ([Token.emptyTagEnd].foldlM step? { r.moveTo (.tag (tagOf name attributes.entries)) with
      scanner := {} }) = _
    rw [hreset, List.foldlM_cons]
    exact congrArg (Option.bind · some) (endStartTag?_tagOf_empty hr)
  have hquiet : Quiet { r.moveTo (.tag (tagOf name attributes.entries)) with
      scanner := { beginning := some .slash } } := ⟨hr.edition, hr.encoding, hr.insertion⟩
  exact .cons h.toQuiet h.gap hr.insertion <| .cons (hr.toQuiet.moveTo _) hslash hr.insertion <|
    .char hquiet hclose (hr.addNode _).insertion

/-- Text is kept unless it is white space. -/
def keptText (text : String) : List Node :=
  if text.toList.all Text.isGap then [] else [.text text]

theorem endText_inside (hr : r.Between) (w : List Char) :
    ((r.inside name attributes children).textAt {} w).endText =
      r.inside name attributes (children ++ keptText (String.ofList w)) := by
  have hended : { (r.inside name attributes children).textAt {} w with held := [], isBlank := true } =
      r.inside name attributes children := by
    rw [textAt, ← hr.scanner, ← hr.held, ← hr.isBlank]
    simp only [inside]
    rw [← hr.place]
  rw [endText, hended, keptText, String.toList_ofList]
  by_cases hgap : w.all Text.isGap = true
  · rw [if_pos (.inl hgap), if_pos hgap, List.append_nil]
  · have hw : w.reverse ≠ [] := fun hnil => hgap (by simp [List.reverse_eq_nil_iff.mp hnil])
    rw [if_neg hgap, ← addNode_inside]
    refine (if_neg (not_or.mpr ⟨hgap, hw⟩)).trans ?_
    simp [textAt]

theorem takeChar?_of_scan? {s s' : Scanner} {c : Char} {ts : List Token} (hs : r.scanner = s)
    (hscan : s.scan? c = some (ts, s')) :
    r.takeChar? c = ts.foldlM step? { r with scanner := s' } := by
  rw [takeChar?, hs, hscan]
  rfl

theorem scan?_bracket {c : Char} (hc : isNameStart c = true) :
    Scanner.scan? { beginning := some .bracket } c = some ([.tagStart, .char c], {}) := by
  show Scanner.afterBracket? _ c = _
  rw [Scanner.afterBracket?, if_neg (ne_of_isNameStart hc rfl), if_neg (ne_of_isNameStart hc rfl),
    if_neg (ne_of_isNameStart hc rfl), if_pos (by simp [isNameChar_of_isNameStart hc])]
  show (Scanner.plain? {} .content c).bind _ = _
  rw [plain?_of_isNameChar (isNameChar_of_isNameStart hc)]
  rfl

theorem goes_endTagName (hr : r.Between) (hname : isPlainName name = true) :
    Goes ((r.inside name attributes children).moveTo (.endTagName [])) (name.toList ++ ['>'])
      (r.addNode (.element name attributes children)) := by
  obtain ⟨c, cs, hcs, hc, hrest, hcolon⟩ := isPlainName_iff.mp hname
  have hr' := hr.inside name attributes children
  have hs (place : Place) : ((r.inside name attributes children).moveTo place).scanner = {} :=
    hr.scanner
  have hfirst : ((r.inside name attributes children).moveTo (.endTagName [])).takeChar? c =
      some ((r.inside name attributes children).moveTo (.endTagName [c])) := by
    have hne : c ≠ ':' := fun heq => hcolon (heq ▸ List.mem_cons_self ..)
    rw [takeChar?_of_token (hs _) (plain?_of_isNameChar (isNameChar_of_isNameStart hc))]
    exact step?_endTagName hc hne
  have hname' := goes_name hr' (fun _ _ => step?_endTagName) (List.cons_ne_nil c []) hrest
    fun hmem => hcolon (List.mem_cons_of_mem _ hmem)
  rw [← List.reverse_cons, ← hcs] at hname'
  have hclose : ((r.inside name attributes children).moveTo
      (.endTagName name.toList.reverse)).takeChar? '>' =
        some (r.addNode (.element name attributes children)) := by
    refine (takeChar?_of_token (hs _) (t := .tagEnd) rfl).trans ?_
    rw [← endElement?_inside hr (.endTagName name.toList.reverse)]
    show endTagName? _ _ .tagEnd = _
    simp [endTagName?, QName.step?, ofChars?_toList hname]
  rw [hcs, List.cons_append]
  exact .cons (hr'.toQuiet.moveTo _) hfirst hr.insertion
    (hname'.append (.char (hr'.toQuiet.moveTo _) hclose (hr.addNode _).insertion))

theorem absorbing_inside (hr : r.Between) (name : String) (attributes : Dict String)
    (children : List Node) : Absorbing (r.inside name attributes children).textAt fun _ => true :=
  absorbing_textAt (hr.inside name attributes children).toQuiet (List.cons_ne_nil _ _)

section Text

variable {w : List Char} (hmet : Met (r.inside name attributes children).textAt w r₀) (hr : r.Between)

include hmet hr

theorem takeChar?_bracket : r₀.takeChar? '<' =
    some ((r.inside name attributes children).textAt { beginning := some .bracket } w) :=
  (absorbing_inside hr name attributes children).flush hmet (c := '<') (by decide) (by decide) rfl

theorem opens_of_met (hw : w.all Text.isGap = true) :
    Opens r₀ (r.inside name attributes children) := by
  intro c hc hcolon
  have hended : ((r.inside name attributes children).textAt {} w).endText =
      r.inside name attributes children := by
    rw [endText_inside hr, keptText, String.toList_ofList, if_pos hw, List.append_nil]
  have hstart : ((r.inside name attributes children).textAt {} w).step? .tagStart =
      some ((r.inside name attributes children).moveTo (.tagName [])) := by
    show some { ((r.inside name attributes children).textAt {} w).endText with
      place := .tagName [], mayHaveDoctype := false } = _
    rw [hended, ← (hr.inside name attributes children).mayHaveDoctype]
    rfl
  refine .cons ((absorbing_inside hr ..).quiet_of_met hmet) (takeChar?_bracket hmet hr) hr.insertion
    (.char ⟨hr.edition, hr.encoding, hr.insertion⟩ ?_ hr.insertion)
  have hfirst : ((r.inside name attributes children).moveTo (.tagName [])).step? (.char c) =
      some ((r.inside name attributes children).moveTo (.tagName [c])) := step?_tagName hc hcolon
  rw [takeChar?_of_scan? rfl (scan?_bracket hc), List.foldlM_cons]
  refine (congrArg (Option.bind · _) hstart).trans ?_
  rw [Option.bind_some, List.foldlM_cons, hfirst]
  rfl

theorem goes_endTag (hname : isPlainName name = true) : Goes r₀ ('<' :: '/' :: (name.toList ++ ['>']))
    (r.addNode (.element name attributes (children ++ keptText (String.ofList w)))) := by
  have hslash : takeChar? ((r.inside name attributes children).textAt
      { beginning := some .bracket } w) '/' = some ((r.inside name attributes
        (children ++ keptText (String.ofList w))).moveTo (.endTagName [])) := by
    rw [takeChar?_of_scan? (s := { beginning := some .bracket }) rfl rfl, ← endText_inside hr]
    rfl
  exact .cons ((absorbing_inside hr ..).quiet_of_met hmet) (takeChar?_bracket hmet hr) hr.insertion <|
    .cons ⟨hr.edition, hr.encoding, hr.insertion⟩ hslash hr.insertion (goes_endTagName hr hname)

end Text

end Reader

/-! ### Trees -/

/-- Whether a node is text that is dropped where it is read. -/
def Node.isBlank : Node → Bool
  | text t => t.toList.all Text.isGap
  | _ => false

mutual

/-- A tree without its blank texts. -/
def Node.cleaned : Node → Node
  | .element name attributes children => .element name attributes (cleanedAll children)
  | .text t => .text t
  | .cdata t => .cdata t

/-- Trees without blank texts among or inside them. -/
def cleanedAll : List Node → List Node
  | [] => []
  | n :: ns => if n.isBlank then cleanedAll ns else n.cleaned :: cleanedAll ns

end

/-- The name of an element and its attributes can be written. -/
structure TidyTag (name : String) (attributes : Dict String) : Prop where
  name : isPlainName name = true
  attributes : ∀ a ∈ attributes.entries,
    isPlainName a.1 = true ∧ a.1 ≠ "xmlns" ∧ Allowed a.2.toList

/-- Trees of elements that hold elements, or one text. -/
inductive Tidy : Node → Prop
  | elements {name : String} {attributes : Dict String} {children : List Node}
      (htag : TidyTag name attributes) (hchildren : ∀ n ∈ children, Tidy n) :
      Tidy (.element name attributes children)
  | text {name : String} {attributes : Dict String} {text : String}
      (htag : TidyTag name attributes) (htext : Allowed text.toList) :
      Tidy (.element name attributes [.text text])

theorem Tidy.isBlank {n : Node} (h : Tidy n) : n.isBlank = false := by cases h <;> rfl

theorem Tidy.isText {n : Node} (h : Tidy n) : n.isText = false := by cases h <;> rfl

theorem cleanedAll_of_tidy {ns : List Node} (h : ∀ n ∈ ns, Tidy n) :
    cleanedAll ns = ns.map Node.cleaned := by
  induction ns with
  | nil => rfl
  | cons n ns ih =>
    rw [cleanedAll, (h n (List.mem_cons_self ..)).isBlank, List.map_cons,
      ih fun m hm => h m (List.mem_cons_of_mem _ hm)]
    rfl

namespace Reader

variable {r r₀ : Reader} {name : String} {attributes : Dict String} {children : List Node}

theorem Between.met (hr : r.Between) : Met r.textAt [] r :=
  ⟨none, [], .none, by
    rw [textAt, ← hr.scanner, ← hr.place, List.all_nil, ← hr.isBlank, List.reverse_nil, ← hr.held],
    rfl⟩

theorem goes_newLine (hr : r.Between) (name : String) (attributes : Dict String)
    (children : List Node) (depth : Nat) :
    ∃ r₁ w, Goes (r.inside name attributes children) (Text.newLine depth).toList r₁ ∧
      Met (r.inside name attributes children).textAt w r₁ ∧ w.all Text.isGap = true := by
  have hescape : ∀ c ∈ (Text.newLine depth).toList, EscapedAs (fun _ => true) c [c] := by
    intro c hc
    rcases Text.mem_newLine hc with rfl | rfl <;> exact .inl ⟨rfl, by decide, rfl⟩
  have hallowed : Allowed (Text.newLine depth).toList := by
    intro c hc
    rcases Text.mem_newLine hc with rfl | rfl <;> rfl
  obtain ⟨r₁, hgoes, hmet⟩ := (absorbing_inside hr name attributes children).escaped hescape
    hallowed (hr.inside ..).met
  refine ⟨r₁, _, by simpa using hgoes, hmet, List.all_eq_true.mpr fun c hc => ?_⟩
  rcases Text.mem_newLine hc with rfl | rfl <;> rfl

theorem goes_head (hr : r.Between) (hopens : Opens r₀ r) (htag : TidyTag name attributes) :
    ∃ r₁, Goes r₀ (('<' :: name.toList) ++ (writeAttributes attributes.entries).toList) r₁ ∧
      Heads r (tagOf name attributes.entries) r₁ := by
  have hheads : Heads r (tagOf name []) (r.moveTo (.tagName name.toList.reverse)) :=
    heads_tagName hr htag.name
  obtain ⟨r₁, hgoes, hheads'⟩ := hheads.goes_attributes hr attributes.ascending htag.attributes
  exact ⟨r₁, (hopens.goes_tagName hr htag.name).append hgoes, hheads'⟩

theorem Heads.goes_close (h : Heads r (tagOf name attributes.entries) r₀) (hr : r.Between) :
    Goes r₀ ['>'] (r.inside name attributes []) :=
  .char h.toQuiet (h.close.trans (endStartTag?_tagOf hr)) hr.insertion

/-- Wherever an element may begin, the node is read back without its blank texts. -/
def ReadsBack (n : Node) : Prop :=
  ∀ r₀ r, r.Between → Opens r₀ r → ∀ depth, Goes r₀ (n.render depth).toList (r.addNode n.cleaned)

theorem goes_renderLines (hr : r.Between) (name : String) (attributes : Dict String)
    (children : List Node) (depth : Nat) {ns : List Node} (hns : ∀ n ∈ ns, ReadsBack n) :
    Goes (r.inside name attributes children) (renderLines depth ns).toList
      (r.inside name attributes (children ++ ns.map Node.cleaned)) := by
  induction ns generalizing children with
  | nil => simp [renderLines, Goes, takeAll?]
  | cons n ns ih =>
    obtain ⟨r₁, w, hline, hmet, hw⟩ := goes_newLine hr name attributes children depth
    have hnode := hns n (List.mem_cons_self ..) r₁ _ (hr.inside name attributes children)
      (opens_of_met hmet hr hw) depth
    rw [addNode_inside] at hnode
    have hrest := ih (children ++ [n.cleaned]) fun m hm => hns m (List.mem_cons_of_mem _ hm)
    rw [renderLines, String.toList_append, String.toList_append, List.map_cons,
      ← List.singleton_append, ← List.append_assoc]
    exact (hline.append hnode).append hrest

end Reader

open Reader

theorem readsBack_text {name text : String} {attributes : Dict String}
    (htag : TidyTag name attributes) (htext : Allowed text.toList) :
    ReadsBack (.element name attributes [.text text]) := by
  intro r₀ r hr hopens depth
  obtain ⟨r₁, hhead, hheads⟩ := goes_head hr hopens htag
  obtain ⟨r₂, hbody, hmet⟩ := (absorbing_inside hr name attributes []).escaped
    (fun c _ => escapedAs_escapeTextChar c) htext (hr.inside ..).met
  have hend := goes_endTag hmet hr htag.name
  have hcleaned : (Node.element name attributes [.text text]).cleaned =
      .element name attributes ([] ++ keptText (String.ofList ([] ++ text.toList))) := by
    rw [List.nil_append, List.nil_append, String.ofList_toList]
    rfl
  rw [hcleaned]
  have hrender : ((Node.element name attributes [.text text]).render depth).toList =
      ('<' :: name.toList ++ (writeAttributes attributes.entries).toList) ++ ['>'] ++
        text.toList.flatMap escapeTextChar ++ '<' :: '/' :: (name.toList ++ ['>']) := by
    simp [Node.render, renderInline, escapeText, Node.isText, String.toList_append]
  rw [hrender]
  exact ((hhead.append (hheads.goes_close hr)).append hbody).append hend

theorem Tidy.readsBack {n : Node} (h : Tidy n) : ReadsBack n := by
  induction h with
  | text htag htext => exact readsBack_text htag htext
  | @elements name attributes children htag hchildren ih =>
    intro r₀ r hr hopens depth
    obtain ⟨r₁, hhead, hheads⟩ := goes_head hr hopens htag
    rw [Node.cleaned, cleanedAll_of_tidy hchildren]
    cases children with
    | nil =>
      have hrender : ((Node.element name attributes []).render depth).toList =
          ('<' :: name.toList ++ (writeAttributes attributes.entries).toList) ++ [' ', '/', '>'] := by
        simp [Node.render, String.toList_append]
      rw [hrender]
      exact hhead.append (hheads.goes_emptyEnd hr)
    | cons n ns =>
      have hlines := goes_renderLines hr name attributes [] (depth + 1) ih
      obtain ⟨r₂, w, hline, hmet, hw⟩ := goes_newLine hr name attributes _ depth
      have hend := goes_endTag hmet hr htag.name
      rw [keptText, String.toList_ofList, if_pos hw, List.append_nil] at hend
      have hrender : ((Node.element name attributes (n :: ns)).render depth).toList =
          ('<' :: name.toList ++ (writeAttributes attributes.entries).toList) ++ ['>'] ++
            (renderLines (depth + 1) (n :: ns)).toList ++ (Text.newLine depth).toList ++
              '<' :: '/' :: (name.toList ++ ['>']) := by
        simp [Node.render, (hchildren n (List.mem_cons_self ..)).isText, String.toList_append]
      rw [hrender]
      exact (((hhead.append (hheads.goes_close hr)).append hlines).append hline).append hend

theorem opens_start : Opens {} { place := .outside, mayHaveDoctype := false } := by
  intro c hc hcolon
  have hfirst : (moveTo { place := .outside, mayHaveDoctype := false } (.tagName [])).step?
      (.char c) = some (moveTo { place := .outside, mayHaveDoctype := false } (.tagName [c])) :=
    step?_tagName hc hcolon
  have hstart : takeChar? { scanner := { beginning := some .bracket } } c =
      some (moveTo { place := .outside, mayHaveDoctype := false } (.tagName [c])) := by
    rw [takeChar?_of_scan? rfl (scan?_bracket hc)]
    exact congrArg (Option.bind · some) hfirst
  have hbracket : takeChar? {} '<' = some { scanner := { beginning := some .bracket } } := rfl
  exact .cons ⟨rfl, rfl, rfl⟩ hbracket rfl (.char ⟨rfl, rfl, rfl⟩ hstart rfl)

theorem toList_render_element (name : String) (attributes : Dict String) (children : List Node)
    (depth : Nat) : ∃ cs, ((Node.element name attributes children).render depth).toList =
      '<' :: cs := by
  rw [Node.render]
  split
  · exact ⟨_, by simp only [String.toList_append]; rfl⟩
  · split <;> exact ⟨_, by simp only [String.toList_append]; rfl⟩

/-- A tree that is written and read is the same tree without its blank texts. -/
theorem parse?_render {n : Node} (h : Tidy n) : Node.parse? (n.render 0) = some n.cleaned := by
  have hgoes := h.readsBack {} { place := .outside, mayHaveDoctype := false }
    ⟨⟨rfl, rfl, rfl⟩, rfl, rfl, rfl, rfl, rfl⟩ opens_start 0
  obtain ⟨cs, hcs⟩ : ∃ cs, (n.render 0).toList = '<' :: cs := by
    cases h <;> exact toList_render_element ..
  rw [hcs] at hgoes
  rw [Node.parse?, hcs]
  show (takeAll? {} ('<' :: cs)).bind root? = _
  rw [hgoes]
  rfl

end Markup

end Blockwright
