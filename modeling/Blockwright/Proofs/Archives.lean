import Blockwright.Archive.Reader
import Blockwright.Proofs.Utf8
import Mathlib.Data.List.Nodup

/-!
# Archives that were written read back

`StandsAt` states that a part of the bytes stands at an offset; the fields of a record that stands
somewhere are the numbers in it (`StandsAt.field`). A mark behind that of the last record is too
close to the end to begin another (`at?_eq_none`). Main statement: `Archive.ofBytes?_toBytes`.
-/

namespace Blockwright.Archive

open Bytes

/-! ### Numbers at offsets -/

/-- The part stands at the offset. -/
def StandsAt (bytes : List UInt8) (place : Nat) (part : List UInt8) : Prop :=
  ∃ before after, before.length = place ∧ bytes = before ++ (part ++ after)

namespace StandsAt

variable {bytes u v : List UInt8} {place : Nat}

theorem left (h : StandsAt bytes place (u ++ v)) : StandsAt bytes place u := by
  obtain ⟨before, after, hplace, rfl⟩ := h
  exact ⟨before, v ++ after, hplace, by simp⟩

theorem right (h : StandsAt bytes place (u ++ v)) : StandsAt bytes (place + u.length) v := by
  obtain ⟨before, after, rfl, rfl⟩ := h
  exact ⟨before ++ u, after, by simp, by simp⟩

theorem length_le (h : StandsAt bytes place u) : place + u.length ≤ bytes.length := by
  obtain ⟨before, after, rfl, rfl⟩ := h
  simp only [List.length_append]
  omega

theorem take_drop (h : StandsAt bytes place u) : (bytes.drop place).take u.length = u := by
  obtain ⟨before, after, rfl, rfl⟩ := h
  rw [List.drop_left, List.take_left]

theorem number {width n : Nat} (h : StandsAt bytes place (littleEndian width n))
    (hn : n < Nat.pow 256 width) : numberAt? bytes place width = some n := by
  have htake := h.take_drop
  rw [length_littleEndian] at htake
  rw [numberAt?, htake, length_littleEndian, if_pos rfl, ofLittleEndian_littleEndian hn]

/-- The field of a record with index `i`, which stands `offset` bytes behind its start. -/
theorem field {fields : List (Nat × Nat)} (h : StandsAt bytes place (record fields)) (i : Nat)
    {width n offset : Nat} (hi : fields[i]? = some (width, n))
    (hoffset : (record (fields.take i)).length = offset) (hn : n < Nat.pow 256 width) :
    numberAt? bytes (place + offset) width = some n := by
  obtain ⟨hlt, hget⟩ := List.getElem?_eq_some_iff.mp hi
  have hcut : record fields =
      record (fields.take i) ++ (littleEndian width n ++ record (fields.drop (i + 1))) := by
    conv_lhs => rw [← List.take_append_drop i fields, List.drop_eq_getElem_cons hlt, hget]
    simp [record]
  rw [hcut] at h
  rw [← hoffset]
  exact h.right.left.number hn

end StandsAt

/-! ### Marks -/

/-- The place is in the list, behind the later ones and before the earlier ones. -/
def Found (place : Nat) (places : List Nat) : Prop :=
  ∃ later earlier, places = later ++ place :: earlier ∧ (∀ p ∈ later, place < p) ∧
    ∀ p ∈ earlier, p < place

section Marks

variable {mark bytes : List UInt8} {place : Nat}

theorem occurrencesFrom_later (mark bytes : List UInt8) (offset : Nat) (acc : List Nat) :
    ∃ later, occurrencesFrom mark offset acc bytes = later ++ acc ∧ ∀ p ∈ later, offset ≤ p := by
  induction bytes generalizing offset acc with
  | nil => exact ⟨[], rfl, by simp⟩
  | cons b bytes ih =>
    rw [occurrencesFrom]
    split
    · obtain ⟨later, heq, hlater⟩ := ih (offset + 1) (offset :: acc)
      refine ⟨later ++ [offset], by rw [heq]; simp, fun p hp => ?_⟩
      rcases List.mem_append.mp hp with hp | hp
      · exact Nat.le_of_succ_le (hlater p hp)
      · exact Nat.le_of_eq (List.mem_singleton.mp hp).symm
    · obtain ⟨later, heq, hlater⟩ := ih (offset + 1) acc
      exact ⟨later, heq, fun p hp => Nat.le_of_succ_le (hlater p hp)⟩

theorem occurrencesFrom_append (hne : mark ≠ []) (before rest : List UInt8) (offset : Nat)
    (acc : List Nat) (hacc : ∀ p ∈ acc, p < offset) :
    Found (offset + before.length) (occurrencesFrom mark offset acc (before ++ (mark ++ rest))) := by
  induction before generalizing offset acc with
  | nil =>
    obtain ⟨b, mark, rfl⟩ := List.exists_cons_of_ne_nil hne
    obtain ⟨later, heq, hlater⟩ :=
      occurrencesFrom_later (b :: mark) (mark ++ rest) (offset + 1) (offset :: acc)
    -- what was found so far is earlier, and what is found in the rest is later
    refine ⟨later, acc, ?_, hlater, hacc⟩
    rw [List.nil_append, List.cons_append, occurrencesFrom, if_pos, heq]
    · rfl
    · exact List.isPrefixOf_iff_prefix.mpr (List.prefix_append (b :: mark) rest)
  | cons b before ih =>
    rw [List.length_cons, Nat.add_comm before.length, ← Nat.add_assoc, List.cons_append,
      occurrencesFrom]
    refine ih _ _ fun p hp => ?_
    split at hp
    · rcases List.mem_cons.mp hp with rfl | hp
      · exact Nat.lt_succ_self p
      · exact Nat.lt_succ_of_lt (hacc p hp)
    · exact Nat.lt_succ_of_lt (hacc p hp)

theorem StandsAt.found (h : StandsAt bytes place mark) (hne : mark ≠ []) :
    Found place (occurrences mark bytes) := by
  obtain ⟨before, after, rfl, rfl⟩ := h
  have hsplit := occurrencesFrom_append hne before after 0 [] (by simp)
  rwa [Nat.zero_add] at hsplit

/-- The first mark from an offset on stands there if one does. -/
theorem StandsAt.head?_occurrencesWithin {high : Nat} (h : StandsAt bytes place mark)
    (hne : mark ≠ []) (hhigh : place + mark.length ≤ high) :
    (occurrencesWithin mark bytes place high).head? = some place := by
  obtain ⟨later, earlier, heq, -, hearlier⟩ := h.found hne
  have hnone : (earlier.filter fun p => place ≤ p ∧ p + mark.length ≤ high) = [] := by
    refine List.filter_eq_nil_iff.mpr fun p hp hkept => ?_
    have := hearlier p hp
    simp only [decide_eq_true_eq] at hkept
    omega
  rw [occurrencesWithin, heq, List.filter_append, List.filter_cons_of_pos (by simpa using hhigh),
    hnone]
  simp

end Marks

/-! ### Entries -/

namespace Entry

/-- The entry can be told in the numbers of its header. -/
structure Fits (e : Entry) : Prop where
  content : e.content = .data e.bytes
  name : (Text.toUtf8 e.name).length < 0x10000
  size : e.bytes.length < 0x100000000

/-- What the directory says of an entry at an offset. -/
def line (e : Entry) (offset : Nat) : Line :=
  { rawName := Text.toUtf8 e.name
    name := e.name
    comment := ""
    flags := e.flags
    method := 0
    crc := (crc e.bytes).toNat
    packedSize := e.bytes.length
    size := e.bytes.length
    offset }

end Entry

theorem codePageChar_utf8 {c : Char} (h : c.toNat < 0x80) :
    (String.utf8EncodeChar c).map Text.codePageChar = [c] := by
  have hbytes : String.utf8EncodeChar c = [c.toNat.toUInt8] := by
    rw [String.utf8EncodeChar, if_pos (show c.val.toNat ≤ 127 from Nat.le_of_lt_succ h)]
    rfl
  have hbyte : c.toNat.toUInt8.toNat = c.toNat := Nat.mod_eq_of_lt (by omega)
  have hlow : c.toNat.toUInt8 < 0x80 := UInt8.lt_iff_toNat_lt.mpr (by rw [hbyte]; exact h)
  rw [hbytes, List.map_singleton, Text.codePageChar, if_pos hlow, hbyte, Char.ofNat_toNat]

theorem ofCodePage_toUtf8 {s : String} (h : ∀ c ∈ s.toList, c.toNat < 0x80) :
    Text.ofCodePage (Text.toUtf8 s) = s := by
  have hlist : ∀ cs : List Char, (∀ c ∈ cs, c.toNat < 0x80) →
      (cs.flatMap String.utf8EncodeChar).map Text.codePageChar = cs := fun cs hcs => by
    induction cs with
    | nil => rfl
    | cons c cs ih =>
      rw [List.flatMap_cons, List.map_append, codePageChar_utf8 (hcs c (by simp)),
        ih fun d hd => hcs d (List.mem_cons_of_mem c hd), List.singleton_append]
  rw [Text.ofCodePage, Text.toUtf8_eq, hlist _ h, String.ofList_toList]

theorem textOf_flags (e : Entry) : Line.textOf e.flags (Text.toUtf8 e.name) = e.name := by
  rw [Line.textOf, Entry.flags]
  split
  · next hascii =>
    rw [if_neg (by decide)]
    exact ofCodePage_toUtf8 fun c hc => by simpa using List.all_eq_true.mp hascii c hc
  · rw [if_pos (by decide), Text.ofUtf8_toUtf8]

theorem textOf_nil (flags : Nat) : Line.textOf flags [] = "" := by
  rw [Line.textOf]
  split <;> rfl

theorem flags_lt (e : Entry) : e.flags < Nat.pow 256 2 := by
  rw [Entry.flags]
  split <;> decide

theorem amended?_nil (l : Line) (h : l.method = 0) : l.amended? [] = some l := by
  have hfields : ((FieldReader.fields 0).run.run (l, [])).run = (.ok (), l, []) := rfl
  rw [Line.amended?, List.length_nil, hfields]
  simp [h]

section Entries

variable {e : Entry} (he : e.Fits) {bytes : List UInt8} {place offset : Nat}
include he

theorem readAt?_directoryRecord (hoffset : offset < 0x100000000)
    (h : StandsAt bytes place (e.directoryRecord offset)) :
    Line.readAt? bytes place = some (e.line offset, place + (e.directoryRecord offset).length) := by
  have hlength : (e.directoryRecord offset).length = 46 + (Text.toUtf8 e.name).length := by
    rw [Entry.directoryRecord, List.length_append]
    rfl
  have hnext := h.length_le
  have hrecord := h.left
  have hname : (bytes.drop (place + 46)).take (Text.toUtf8 e.name).length = Text.toUtf8 e.name :=
    h.right.take_drop
  have hmark : numberAt? bytes place 4 = some 0x02014b50 := hrecord.field 0 rfl rfl (by decide)
  have hflags : numberAt? bytes (place + 8) 2 = some e.flags := hrecord.field 3 rfl rfl (flags_lt e)
  have hmethod : numberAt? bytes (place + 10) 2 = some 0 := hrecord.field 4 rfl rfl (by decide)
  have hcrc : numberAt? bytes (place + 16) 4 = some (crc e.bytes).toNat :=
    hrecord.field 7 rfl rfl (crc e.bytes).toNat_lt
  have hpacked : numberAt? bytes (place + 20) 4 = some e.bytes.length :=
    hrecord.field 8 rfl rfl he.size
  have hsize : numberAt? bytes (place + 24) 4 = some e.bytes.length :=
    hrecord.field 9 rfl rfl he.size
  have hnameLength : numberAt? bytes (place + 28) 2 = some (Text.toUtf8 e.name).length :=
    hrecord.field 10 rfl rfl he.name
  have hfieldsLength : numberAt? bytes (place + 30) 2 = some 0 :=
    hrecord.field 11 rfl rfl (by decide)
  have hcommentLength : numberAt? bytes (place + 32) 2 = some 0 :=
    hrecord.field 12 rfl rfl (by decide)
  have hat : numberAt? bytes (place + 42) 4 = some offset := hrecord.field 16 rfl rfl hoffset
  rw [hlength] at hnext
  rw [hlength]
  simp only [Line.readAt?, hmark, hflags, hmethod, hcrc, hpacked, hsize, hnameLength, hfieldsLength,
    hcommentLength, hat, hname, bind, Option.bind, if_true, Nat.add_zero, List.take_zero,
    textOf_flags, textOf_nil]
  rw [if_neg (by omega), amended?_nil _ rfl, Nat.add_assoc]
  rfl

theorem packed?_localRecord (h : StandsAt bytes offset e.localRecord) :
    packed? bytes (e.line offset) = some e.bytes := by
  have hrecord := h.left.left
  have hbytes := h.right.take_drop
  have hlength : (record ((4, 0x04034b50) :: e.header) ++ Text.toUtf8 e.name).length =
      30 + (Text.toUtf8 e.name).length := by
    rw [List.length_append]
    rfl
  have hmark : numberAt? bytes offset 4 = some 0x04034b50 := hrecord.field 0 rfl rfl (by decide)
  have hnameLength : numberAt? bytes (offset + 26) 2 = some (Text.toUtf8 e.name).length :=
    hrecord.field 9 rfl rfl he.name
  have hfieldsLength : numberAt? bytes (offset + 28) 2 = some 0 :=
    hrecord.field 10 rfl rfl (by decide)
  rw [hlength, ← Nat.add_assoc] at hbytes
  simp only [packed?, Entry.line, hmark, hnameLength, hfieldsLength, bind, Option.bind, if_true,
    Nat.add_zero, hbytes]
  rfl

theorem readContent_localRecord (h : StandsAt bytes offset e.localRecord) :
    readContent bytes (e.line offset) = e.content := by
  have hopen : e.flags % 2 = 0 := by
    rw [Entry.flags]
    split <;> decide
  rw [readContent, packed?_localRecord he h, he.content]
  simp [hopen, Entry.line, checked]

end Entries

/-! ### The directory and its location -/

/-- What the directory says of entries that start at an offset. -/
def lines : Archive → Nat → List Line
  | [], _ => []
  | e :: es, offset => e.line offset :: lines es (offset + e.localRecord.length)

section Directory

variable {es : Archive} (hes : ∀ e ∈ es, e.Fits) {bytes : List UInt8}
include hes

theorem readLines?_directory (count : Nat) {start place offset : Nat} (hstart : start < 0x100000000)
    (hoffset : offset + (es.flatMap Entry.localRecord).length ≤ start)
    (h : StandsAt bytes place (directory es offset)) :
    readLines? bytes { start, shift := 0, count } es.length place = some (lines es offset) := by
  induction es generalizing place offset with
  | nil => rfl
  | cons e es ih =>
    rw [List.flatMap_cons, List.length_append] at hoffset
    have hpos : 0 < e.localRecord.length := by
      rw [Entry.localRecord, List.append_assoc, List.length_append]
      exact Nat.add_pos_left (Nat.succ_pos _) _
    have hline := readAt?_directoryRecord (hes e (by simp)) (by omega) h.left
    have hrest := ih (fun x hx => hes x (List.mem_cons_of_mem e hx)) (by omega) h.right
    have hbefore : (e.line offset).offset + 0 < start := by
      show offset < start
      omega
    simp only [List.length_cons, readLines?, hline, hrest, bind, Option.bind, if_pos hbefore]
    rfl

theorem map_lines {offset : Nat} (h : StandsAt bytes offset (es.flatMap Entry.localRecord)) :
    (lines es offset).map (fun line => { name := line.name, content := readContent bytes line }) =
      es := by
  induction es generalizing offset with
  | nil => rfl
  | cons e es ih =>
    rw [List.flatMap_cons] at h
    rw [lines, List.map_cons, readContent_localRecord (hes e (by simp)) h.left,
      ih (fun x hx => hes x (List.mem_cons_of_mem e hx)) h.right]
    rfl

end Directory

theorem directory_mark (e : Entry) (es : Archive) (offset : Nat) :
    ∃ rest, directory (e :: es) offset = littleEndian 4 0x02014b50 ++ rest := by
  rw [directory, Entry.directoryRecord, record]
  exact ⟨_, by rw [List.append_assoc]; exact List.append_assoc ..⟩

/-- A record at the end is 22 bytes long. -/
theorem at?_eq_none {bytes : List UInt8} {ending : Nat} (h : bytes.length < ending + 22) :
    Location.at? bytes ending = none := by
  have hcomment : numberAt? bytes (ending + 20) 2 = none := by
    rw [numberAt?, if_neg]
    rw [List.length_take, List.length_drop]
    omega
  rw [Location.at?, hcomment]
  cases numberAt? bytes (ending + 10) 2 <;> cases numberAt? bytes (ending + 16) 4 <;> rfl

/-- The record at the end leads to the directory, which starts with a mark unless it is empty. -/
theorem at?_endRecord {bytes : List UInt8} {ending count size start : Nat}
    (h : StandsAt bytes ending (endRecord count size start)) (hend : bytes.length = ending + 22)
    (hcount : count < 0xFFFF) (hstart : start < 0xFFFFFFFF)
    (hfirst : count = 0 ∧ start = ending ∨
      count ≠ 0 ∧ StandsAt bytes start (littleEndian 4 0x02014b50) ∧ start + 4 ≤ ending) :
    Location.at? bytes ending = some { start, shift := 0, count } := by
  have hdisk : numberAt? bytes (ending + 4) 2 = some 0 := h.field 1 rfl rfl (by decide)
  have hdirectoryDisk : numberAt? bytes (ending + 6) 2 = some 0 := h.field 2 rfl rfl (by decide)
  have hlines : numberAt? bytes (ending + 8) 2 = some count :=
    h.field 3 rfl rfl (Nat.lt_succ_of_lt hcount)
  have htotal : numberAt? bytes (ending + 10) 2 = some count :=
    h.field 4 rfl rfl (Nat.lt_succ_of_lt hcount)
  have hgiven : numberAt? bytes (ending + 16) 4 = some start :=
    h.field 6 rfl rfl (Nat.lt_succ_of_lt hstart)
  have hcomment : numberAt? bytes (ending + 20) 2 = some 0 := h.field 7 rfl rfl (by decide)
  -- neither number stands for an unknown one, so no wide record is asked for
  simp only [Location.at?, htotal, hgiven, hcomment, bind, Option.bind]
  rw [if_neg (by omega), if_neg (by omega)]
  simp only [Location.ofEnd?, hdisk, hdirectoryDisk, hlines, htotal, hgiven, bind, Option.bind]
  rcases hfirst with ⟨rfl, rfl⟩ | ⟨hne, hmark, hle⟩
  · simp
  · have hfound := hmark.head?_occurrencesWithin (by simp [littleEndian]) hle
    simp [hne, hfound]

/-! ### Whole archives -/

/-- Where the directory of an archive starts. -/
def start (a : Archive) : Nat := (a.flatMap Entry.localRecord).length

/-- Where the record at the end of an archive starts. -/
def ending (a : Archive) : Nat := a.start + (directory a 0).length

section Layout

variable (a : Archive)

theorem entries_standAt : StandsAt a.toBytes 0 (a.flatMap Entry.localRecord) :=
  ⟨[], _, rfl, List.append_assoc ..⟩

theorem directory_standsAt : StandsAt a.toBytes a.start (directory a 0) :=
  ⟨_, _, rfl, List.append_assoc ..⟩

theorem endRecord_standsAt :
    StandsAt a.toBytes a.ending (endRecord a.length (directory a 0).length a.start) :=
  ⟨_, [], List.length_append, by rw [List.append_nil, toBytes, start]⟩

theorem length_toBytes : a.toBytes.length = a.ending + 22 := by
  rw [toBytes, List.length_append, List.length_append]
  rfl

theorem length_bytes_le {e : Entry} (he : e ∈ a) : e.bytes.length ≤ a.toBytes.length := by
  obtain ⟨before, after, rfl⟩ := List.append_of_mem he
  rw [toBytes, List.flatMap_append, List.flatMap_cons, Entry.localRecord]
  simp only [List.length_append]
  omega

end Layout

theorem find?_of_mem {a : Archive} {e : Entry} (hnames : (a.map Entry.name).Nodup)
    (he : e ∈ a) : a.find? e.name = some e.content := by
  have hsome : (a.reverse.find? fun x => x.name = e.name).isSome = true :=
    List.find?_isSome.mpr ⟨e, List.mem_reverse.mpr he, by simp⟩
  obtain ⟨x, hx⟩ := Option.isSome_iff_exists.mp hsome
  have hname : x.name = e.name := by simpa using List.find?_some hx
  have hxe : x = e := List.inj_on_of_nodup_map hnames
    (List.mem_reverse.mp (List.mem_of_find?_eq_some hx)) he hname
  rw [find?, hx, Option.map_some, hxe]

section Whole

variable {a : Archive} (hcount : a.length < 0xFFFF) (hsize : a.toBytes.length < 0xFFFFFFFF)
include hcount hsize

theorem at?_ending :
    Location.at? a.toBytes a.ending = some { start := a.start, shift := 0, count := a.length } := by
  have hlength := length_toBytes a
  have hstart : a.start ≤ a.ending := Nat.le_add_right ..
  refine at?_endRecord (endRecord_standsAt a) hlength hcount (by omega) ?_
  cases a with
  | nil => exact .inl ⟨rfl, rfl⟩
  | cons e es =>
    obtain ⟨rest, hrest⟩ := directory_mark e es 0
    have hdirectory := directory_standsAt (e :: es)
    rw [hrest] at hdirectory
    refine .inr ⟨nofun, hdirectory.left, ?_⟩
    rw [ending, hrest, List.length_append, length_littleEndian]
    omega

/-- An archive of entries that fit reads back, unless its length or their number is too large to be
told from one that is unknown. -/
theorem ofBytes?_toBytes (ha : ∀ e ∈ a, e.Fits) : ofBytes? a.toBytes = some a := by
  have hlength := length_toBytes a
  have hstart : a.start ≤ a.ending := Nat.le_add_right ..
  have hread : readAt? a.toBytes a.ending = some a := by
    have hlines := readLines?_directory ha a.length (by omega) (Nat.le_of_eq (Nat.zero_add a.start))
      (directory_standsAt a)
    simp only [readAt?, at?_ending hcount hsize, hlines, bind, Option.bind,
      map_lines ha (entries_standAt a)]
    rfl
  have hmark : StandsAt a.toBytes a.ending (littleEndian 4 0x06054b50) := (endRecord_standsAt a).left
  obtain ⟨later, earlier, heq, hlater, -⟩ := hmark.found (by simp [littleEndian])
  -- the offsets in the last record may spell its mark again, but too close to the end
  have hnone : ∀ p ∈ later, readAt? a.toBytes p = none := fun p hp => by
    have := hlater p hp
    rw [readAt?, at?_eq_none (by omega)]
    rfl
  rw [ofBytes?, heq, List.findSome?_append, List.findSome?_eq_none_iff.mpr hnone, Option.none_or,
    List.findSome?_cons, hread]

end Whole

end Blockwright.Archive
