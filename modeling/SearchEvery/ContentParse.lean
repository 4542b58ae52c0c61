import SearchEvery.TantivyIndex
import SearchEvery.Utf8
import Mathlib.Tactic

/-!
# Parsed contents

The three indexers read at most a million bytes of a text-like file and take
the text and a summary from them.  Two of them decode strictly and drop the
text when the bytes are not valid, the third puts replacement characters.  On
valid bytes the two decoders agree; a cut inside a character makes a valid text
invalid.
-/

namespace SearchEvery

open Utf8

/-! ## The lossy decoder on valid bytes -/

theorem between_iff
    (low high byte : UInt8) :
    (decide (low ≤ byte) && decide (byte ≤ high)) = true ↔
      low.toNat ≤ byte.toNat ∧ byte.toNat ≤ high.toNat := by
  simp only [Bool.and_eq_true, decide_eq_true_eq, UInt8.le_iff_toNat_le]

theorem not_between
    {low high byte : UInt8} (habove : high.toNat < byte.toNat) :
    ¬ (decide (low ≤ byte) && decide (byte ≤ high)) = true := by
  rw [between_iff]
  exact fun hboth => absurd hboth.2 (Nat.not_le.mpr habove)

theorem isContinuation_eq_true
    {byte : UInt8} (hlow : 128 ≤ byte.toNat) (hhigh : byte.toNat ≤ 191) :
    isContinuation byte = true :=
  (between_iff 128 191 byte).mpr ⟨hlow, hhigh⟩

theorem not_ascii
    {byte : UInt8} (hlow : 128 ≤ byte.toNat) : ¬ byte < 0x80 := by
  rw [UInt8.lt_iff_toNat_lt]
  exact Nat.not_lt.mpr hlow

theorem decodeUnit_one
    {first : UInt8} (hfirst : first.toNat < 128) (rest : List UInt8) :
    decodeUnit (first :: rest) = (some (Char.ofNat first.toNat), 1) := by
  have hlt : first < 0x80 := UInt8.lt_iff_toNat_lt.mpr hfirst
  unfold decodeUnit
  exact if_pos hlt

theorem decodeUnit_two
    {first second : UInt8} (hlow : 194 ≤ first.toNat)
    (hhigh : first.toNat ≤ 223) (hsecond : isContinuation second = true)
    (rest : List UInt8) :
    decodeUnit (first :: second :: rest) =
      (some (Char.ofNat (first.toNat % 32 * 64 + second.toNat % 64)), 2) := by
  have hone : ¬ first < 0x80 := not_ascii (by omega)
  have htwo := (between_iff 0xC2 0xDF first).mpr ⟨hlow, hhigh⟩
  unfold decodeUnit
  exact (if_neg hone).trans ((if_pos htwo).trans (if_pos hsecond))

theorem decodeUnit_three
    {first second third : UInt8} (hlow : 224 ≤ first.toNat)
    (hhigh : first.toNat ≤ 239) (hsecond : secondByteOk first second = true)
    (hthird : isContinuation third = true) (rest : List UInt8) :
    decodeUnit (first :: second :: third :: rest) =
      (some (Char.ofNat ((first.toNat % 16 * 64 + second.toNat % 64) * 64 +
        third.toNat % 64)), 3) := by
  have hone : ¬ first < 0x80 := not_ascii (by omega)
  have htwo : ¬ (decide (0xC2 ≤ first) && decide (first ≤ 0xDF)) = true :=
    not_between (lt_of_lt_of_le (by decide) hlow)
  have hthree := (between_iff 0xE0 0xEF first).mpr ⟨hlow, hhigh⟩
  have hsecondOk : ¬ (!secondByteOk first second) = true := by simp [hsecond]
  have hthirdOk : ¬ (!isContinuation third) = true := by simp [hthird]
  unfold decodeUnit
  exact (if_neg hone).trans ((if_neg htwo).trans ((if_pos hthree).trans
    ((if_neg hsecondOk).trans (if_neg hthirdOk))))

theorem decodeUnit_four
    {first second third fourth : UInt8} (hlow : 240 ≤ first.toNat)
    (hhigh : first.toNat ≤ 244) (hsecond : secondByteOk first second = true)
    (hthird : isContinuation third = true)
    (hfourth : isContinuation fourth = true) (rest : List UInt8) :
    decodeUnit (first :: second :: third :: fourth :: rest) =
      (some (Char.ofNat (((first.toNat % 8 * 64 + second.toNat % 64) * 64 +
        third.toNat % 64) * 64 + fourth.toNat % 64)), 4) := by
  have hone : ¬ first < 0x80 := not_ascii (by omega)
  have htwo : ¬ (decide (0xC2 ≤ first) && decide (first ≤ 0xDF)) = true :=
    not_between (lt_of_lt_of_le (by decide) hlow)
  have hthree : ¬ (decide (0xE0 ≤ first) && decide (first ≤ 0xEF)) = true :=
    not_between (lt_of_lt_of_le (by decide) hlow)
  have hfour := (between_iff 0xF0 0xF4 first).mpr ⟨hlow, hhigh⟩
  have hsecondOk : ¬ (!secondByteOk first second) = true := by simp [hsecond]
  have hthirdOk : ¬ (!isContinuation third) = true := by simp [hthird]
  have hfourthOk : ¬ (!isContinuation fourth) = true := by simp [hfourth]
  unfold decodeUnit
  exact (if_neg hone).trans ((if_neg htwo).trans ((if_neg hthree).trans
    ((if_pos hfour).trans ((if_neg hsecondOk).trans
      ((if_neg hthirdOk).trans (if_neg hfourthOk))))))

/-- The second byte of an encoded character lies in the range which its first
byte leaves open. -/
theorem secondByteOk_eq_true
    {first second : UInt8} (hlow : 128 ≤ second.toNat)
    (hhigh : second.toNat ≤ 191)
    (hE0 : first.toNat = 0xE0 → 0xA0 ≤ second.toNat)
    (hED : first.toNat = 0xED → second.toNat ≤ 0x9F)
    (hF0 : first.toNat = 0xF0 → 0x90 ≤ second.toNat)
    (hF4 : first.toNat = 0xF4 → second.toNat ≤ 0x8F) :
    secondByteOk first second = true := by
  have heq {n : UInt8} (h : first = n) : first.toNat = n.toNat :=
    congrArg UInt8.toNat h
  unfold secondByteOk
  split
  next h => exact (between_iff 0xA0 0xBF second).mpr ⟨hE0 (heq h), hhigh⟩
  next =>
  split
  next h => exact (between_iff 0x80 0x9F second).mpr ⟨hlow, hED (heq h)⟩
  next =>
  split
  next h => exact (between_iff 0x90 0xBF second).mpr ⟨hF0 (heq h), hhigh⟩
  next =>
  split
  next h => exact (between_iff 0x80 0x8F second).mpr ⟨hlow, hF4 (heq h)⟩
  next => exact isContinuation_eq_true hlow hhigh

theorem toNat_ofNat_of_lt {n : ℕ} (hn : n < 256) :
    (UInt8.ofNat n).toNat = n := by
  rw [UInt8.toNat_ofNat']
  exact Nat.mod_eq_of_lt hn

/-- The lossy decoder reads an encoded character back. -/
theorem decodeUnit_encodeChar
    (c : Char) (rest : List UInt8) :
    decodeUnit (String.utf8EncodeChar c ++ rest) =
      (some c, (String.utf8EncodeChar c).length) := by
  have hvalid : c.toNat < 0xD800 ∨ 0xDFFF < c.toNat ∧ c.toNat < 0x110000 :=
    c.valid
  have hback {n : ℕ} (hn : n = c.toNat) : Char.ofNat n = c := by
    rw [hn, Char.ofNat_toNat]
  unfold String.utf8EncodeChar
  simp only [Char.toNat_val]
  split
  next hone =>
    have hfirst := toNat_ofNat_of_lt (show c.toNat < 256 by omega)
    rw [List.singleton_append, decodeUnit_one (by omega), hback hfirst]
    rfl
  next hone =>
  split
  next htwo =>
    have hfirst := toNat_ofNat_of_lt
      (show c.toNat / 64 % 32 + 192 < 256 by omega)
    have hsecond := toNat_ofNat_of_lt (show c.toNat % 64 + 128 < 256 by omega)
    rw [List.cons_append, List.singleton_append,
      decodeUnit_two (by omega) (by omega)
        (isContinuation_eq_true (by omega) (by omega)), hback (by omega)]
    rfl
  next htwo =>
  split
  next hthree =>
    have hfirst := toNat_ofNat_of_lt
      (show c.toNat / 4096 % 16 + 224 < 256 by omega)
    have hsecond := toNat_ofNat_of_lt
      (show c.toNat / 64 % 64 + 128 < 256 by omega)
    have hthird := toNat_ofNat_of_lt (show c.toNat % 64 + 128 < 256 by omega)
    rw [List.cons_append, List.cons_append, List.singleton_append,
      decodeUnit_three (by omega) (by omega)
        (secondByteOk_eq_true (by omega) (by omega) (by omega) (by omega)
          (by omega) (by omega))
        (isContinuation_eq_true (by omega) (by omega)), hback (by omega)]
    rfl
  next hthree =>
    have hfirst := toNat_ofNat_of_lt
      (show c.toNat / 262144 % 8 + 240 < 256 by omega)
    have hsecond := toNat_ofNat_of_lt
      (show c.toNat / 4096 % 64 + 128 < 256 by omega)
    have hthird := toNat_ofNat_of_lt
      (show c.toNat / 64 % 64 + 128 < 256 by omega)
    have hfourth := toNat_ofNat_of_lt (show c.toNat % 64 + 128 < 256 by omega)
    rw [List.cons_append, List.cons_append, List.cons_append,
      List.singleton_append,
      decodeUnit_four (by omega) (by omega)
        (secondByteOk_eq_true (by omega) (by omega) (by omega) (by omega)
          (by omega) (by omega))
        (isContinuation_eq_true (by omega) (by omega))
        (isContinuation_eq_true (by omega) (by omega)), hback (by omega)]
    rfl

theorem lossyChars_encode
    (chars : List Char) {fuel : ℕ} (hfuel : chars.length ≤ fuel) :
    lossyChars fuel (encode chars) = chars := by
  induction chars generalizing fuel with
  | nil => cases fuel <;> rfl
  | cons c chars ih =>
      cases fuel with
      | zero => simp at hfuel
      | succ fuel =>
          have hunit := decodeUnit_encodeChar c (encode chars)
          rw [encode_cons]
          cases hbytes : String.utf8EncodeChar c ++ encode chars with
          | nil =>
              rw [List.append_eq_nil_iff] at hbytes
              exact (String.utf8EncodeChar_ne_nil hbytes.1).elim
          | cons byte bytes =>
              rw [lossyChars, ← hbytes, hunit, List.drop_left,
                ih (Nat.le_of_succ_le_succ hfuel)]
              · rfl
              · simp

/-- On valid bytes the two decoders agree. -/
theorem fromUtf8Lossy_of_fromUtf8
    {bytes : List UInt8} {text : String} (hdecode : fromUtf8 bytes = some text) :
    fromUtf8Lossy bytes = text := by
  rw [fromUTF8?_eq_some_iff.mp hdecode, fromUtf8Lossy,
    lossyChars_encode _ (length_le_length_encode _), String.ofList_toList]

/-! ## Three indexers, one document -/

/-- If a text is looked for, the bytes which are read for it are valid. -/
def ReadsValidText (enableContentParse : Bool) (file : FileMeta)
    (entry : DiskEntry) : Prop :=
  enableContentParse = true → isTextLike file.ext = true →
    ∀ bytes ∈ readPrefix entry, (fromUtf8 bytes).isSome = true

theorem existsAsFile_of_readPrefix
    {entry : DiskEntry} {bytes : List UInt8}
    (hread : readPrefix entry = some bytes) : existsAsFile entry = true := by
  cases entry with
  | absent => simp [readPrefix] at hread
  | directory => simp [readPrefix] at hread
  | file node => rfl

/-- Without anything to parse every indexer adds the bare record. -/
theorem Indexer.doc_eq_toDoc
    (indexer : Indexer) {enableContentParse : Bool} {file : FileMeta}
    {entry : DiskEntry}
    (hnothing : enableContentParse = false ∨ isTextLike file.ext = false ∨
      readPrefix entry = none) :
    indexer.doc enableContentParse file entry = file.toDoc := by
  cases indexer <;>
    rcases hnothing with hoff | hother | hunread <;>
    simp [Indexer.doc, workerDoc, buildDoc, progressDoc, parseContent, *]

theorem workerDoc_of_read
    {file : FileMeta} {entry : DiskEntry} {bytes : List UInt8}
    (htext : isTextLike file.ext = true)
    (hread : readPrefix entry = some bytes) :
    workerDoc true file entry =
      ((fromUtf8 bytes).map file.toDoc.addText).getD file.toDoc := by
  simp only [workerDoc, htext, hread, Bool.and_self, if_true, Option.bind_some]
  cases fromUtf8 bytes <;> rfl

theorem progressDoc_of_read
    {file : FileMeta} {entry : DiskEntry} {bytes : List UInt8}
    (htext : isTextLike file.ext = true)
    (hread : readPrefix entry = some bytes) :
    progressDoc true file entry =
      ((fromUtf8 bytes).map file.toDoc.addText).getD file.toDoc := by
  simp only [progressDoc, htext, hread, existsAsFile_of_readPrefix hread,
    Bool.and_self, if_true, Option.bind_some]
  cases fromUtf8 bytes <;> rfl

theorem buildDoc_of_read
    {file : FileMeta} {entry : DiskEntry} {bytes : List UInt8}
    (htext : isTextLike file.ext = true)
    (hread : readPrefix entry = some bytes) :
    buildDoc true file entry = file.toDoc.addText (fromUtf8Lossy bytes) := by
  simp [buildDoc, parseContent, htext, hread, existsAsFile_of_readPrefix hread]

/-- The three indexers add the same document for a file exactly when the bytes
they parse, if they parse any, are valid. -/
theorem indexers_agree_iff
    (enableContentParse : Bool) (file : FileMeta) (entry : DiskEntry) :
    (∀ indexer other : Indexer,
      indexer.doc enableContentParse file entry =
        other.doc enableContentParse file entry) ↔
      ReadsValidText enableContentParse file entry := by
  by_cases hnothing : enableContentParse = false ∨ isTextLike file.ext = false ∨
      readPrefix entry = none
  · refine iff_of_true ?_ ?_
    · intro indexer other
      rw [indexer.doc_eq_toDoc hnothing, other.doc_eq_toDoc hnothing]
    · intro hon htext bytes hread
      rw [hon, htext, Option.mem_def.mp hread] at hnothing
      simp at hnothing
  · simp only [not_or, Bool.not_eq_false, ← Option.isSome_iff_ne_none,
      Option.isSome_iff_exists] at hnothing
    obtain ⟨rfl, htext, bytes, hread⟩ := hnothing
    have hvalid : ReadsValidText true file entry ↔
        (fromUtf8 bytes).isSome = true := by
      simp [ReadsValidText, htext, hread]
    rw [hvalid]
    constructor
    · intro hagree
      have hsame := congrArg Doc.content (hagree .pipeline .build)
      simp only [Indexer.doc, workerDoc_of_read htext hread,
        buildDoc_of_read htext hread] at hsame
      cases hdecode : fromUtf8 bytes with
      | none =>
          rw [hdecode] at hsame
          contradiction
      | some text => rfl
    · intro hdecode
      obtain ⟨text, htextOf⟩ := Option.isSome_iff_exists.mp hdecode
      have hdoc (indexer : Indexer) :
          indexer.doc true file entry = file.toDoc.addText text := by
        cases indexer with
        | pipeline =>
            rw [Indexer.doc, workerDoc_of_read htext hread, htextOf]
            rfl
        | build =>
            rw [Indexer.doc, buildDoc_of_read htext hread,
              fromUtf8Lossy_of_fromUtf8 htextOf]
        | buildProgress =>
            rw [Indexer.doc, progressDoc_of_read htext hread, htextOf]
            rfl
      intro indexer other
      rw [hdoc indexer, hdoc other]

theorem fromUtf8_eq_none
    {byte : UInt8} {bytes : List UInt8}
    (hbroken : (decodeUnit (byte :: bytes)).1 = none) :
    fromUtf8 (byte :: bytes) = none := by
  rw [Option.eq_none_iff_forall_ne_some]
  intro text hdecode
  have hbytes := fromUTF8?_eq_some_iff.mp hdecode
  cases hchars : text.toList with
  | nil => simp [hchars] at hbytes
  | cons c chars =>
      rw [hbytes, hchars, encode_cons, decodeUnit_encodeChar] at hbroken
      contradiction

def strayFile : FileMeta := ⟨"/d/a.txt", "a.txt", "txt", 1, 0⟩

def strayEntry : DiskEntry := .file ⟨[0xFF], true, true⟩

/-- A file with the one byte FF: two indexers leave the content out, the third
adds a replacement character. -/
theorem indexers_differ :
    (workerDoc true strayFile strayEntry).content = none ∧
    (progressDoc true strayFile strayEntry).content = none ∧
    (buildDoc true strayFile strayEntry).content = some "\uFFFD" := by
  have hdecode : fromUtf8 [0xFF] = none := fromUtf8_eq_none rfl
  have hread : readPrefix strayEntry = some [0xFF] := rfl
  have htext : isTextLike strayFile.ext = true := by decide
  rw [workerDoc_of_read htext hread, progressDoc_of_read htext hread,
    buildDoc_of_read htext hread, hdecode]
  exact ⟨rfl, rfl, by decide⟩

/-! ## The cut after a million bytes -/

/-- The longest front of the text whose encoding stays within the limit. -/
structure IsLongestFit (content text : String) : Prop where
  front : content.toList <+: text.toList
  fits : content.utf8ByteSize ≤ contentLimit
  longest : ∀ other : String, other.toList <+: text.toList →
    other.utf8ByteSize ≤ contentLimit → other.length ≤ content.length

/-- The document has the longest content which fits, and its summary is the
start of the text. -/
def KeepsText (text : String) (doc : Doc) : Prop :=
  (∃ content, doc.content = some content ∧ IsLongestFit content text) ∧
    (text ≠ "" → doc.summary = some (String.ofList (text.toList.take 300)))

/-- No character of the text lies across the limit: the text ends before it,
or some front of the text ends there. -/
def CutBetweenChars (text : String) : Prop :=
  text.utf8ByteSize ≤ contentLimit ∨
    ∃ front : String, front.toList <+: text.toList ∧
      front.utf8ByteSize = contentLimit

theorem fromUtf8_take_iff
    {text content : String} :
    fromUtf8 ((encode text.toList).take contentLimit) = some content ↔
      content.toList <+: text.toList ∧
        content.utf8ByteSize = min contentLimit text.utf8ByteSize := by
  rw [← length_encode_string, ← length_encode_string]
  exact fromUTF8?_take_encode_iff

theorem isSome_fromUtf8_take_iff (text : String) :
    (fromUtf8 ((encode text.toList).take contentLimit)).isSome = true ↔
      CutBetweenChars text := by
  rw [Option.isSome_iff_exists]
  simp only [fromUtf8_take_iff]
  constructor
  · rintro ⟨content, hfront, hsize⟩
    by_cases hshort : text.utf8ByteSize ≤ contentLimit
    · exact Or.inl hshort
    · exact Or.inr ⟨content, hfront, by omega⟩
  · rintro (hshort | ⟨front, hfront, hsize⟩)
    · exact ⟨text, List.prefix_rfl, by omega⟩
    · have hle := length_encode_mono hfront
      rw [length_encode_string, length_encode_string] at hle
      exact ⟨front, hfront, by omega⟩

/-- A front which reaches as far as the limit allows is the longest one. -/
theorem isLongestFit_of_size
    {content text : String} (hfront : content.toList <+: text.toList)
    (hsize : content.utf8ByteSize = min contentLimit text.utf8ByteSize) :
    IsLongestFit content text where
  front := hfront
  fits := by omega
  longest := by
    intro other hother hfits
    by_contra hlonger
    rw [← String.length_toList, ← String.length_toList] at hlonger
    rcases List.prefix_or_prefix_of_prefix hother hfront with hle | hlt
    · exact hlonger hle.length_le
    · obtain ⟨back, hback⟩ := hlt
      have hne : back ≠ [] := by
        rintro rfl
        rw [List.append_nil] at hback
        rw [hback] at hlonger
        exact hlonger le_rfl
      have hbackPos : 0 < (encode back).length :=
        lt_of_lt_of_le (List.length_pos_of_ne_nil hne)
          (length_le_length_encode back)
      have hotherLe := length_encode_mono hother
      have hlength := congrArg (fun chars => (encode chars).length) hback
      simp only [encode_append, List.length_append,
        length_encode_string] at hlength hotherLe
      omega

/-- The summary of a long enough front is the summary of the text. -/
theorem take_of_size
    {content text : String} (hfront : content.toList <+: text.toList)
    (hsize : content.utf8ByteSize = min contentLimit text.utf8ByteSize) :
    content.toList.take 300 = text.toList.take 300 := by
  obtain ⟨back, hback⟩ := hfront
  by_cases hshort : text.utf8ByteSize ≤ contentLimit
  · have hlength := congrArg (fun chars => (encode chars).length) hback
    have hbackLe := length_le_length_encode back
    simp only [encode_append, List.length_append,
      length_encode_string] at hlength
    have hnil : back = [] := List.eq_nil_of_length_eq_zero (by omega)
    rw [← hback, hnil, List.append_nil]
  · have hlong := length_encode_le content.toList
    rw [length_encode_string, hsize] at hlong
    have hlimit : contentLimit = 1000000 := rfl
    rw [← hback, List.take_append_of_le_length (by omega)]

theorem keepsText_addText
    {content text : String} (file : FileMeta)
    (hfront : content.toList <+: text.toList)
    (hsize : content.utf8ByteSize = min contentLimit text.utf8ByteSize) :
    KeepsText text (file.toDoc.addText content) := by
  refine ⟨⟨content, rfl, isLongestFit_of_size hfront hsize⟩, ?_⟩
  intro hne
  have hsummary : String.ofList (text.toList.take 300) ≠ "" := by
    intro hempty
    have hchars := congrArg String.toList hempty
    rw [String.toList_ofList] at hchars
    apply hne
    apply String.toList_inj.mp
    simpa using hchars
  rw [Doc.addText, take_of_size hfront hsize]
  exact if_neg hsummary

theorem keepsText_iff
    (file : FileMeta) (text : String) :
    KeepsText text (((fromUtf8 ((encode text.toList).take contentLimit)).map
        file.toDoc.addText).getD file.toDoc) ↔ CutBetweenChars text := by
  rw [← isSome_fromUtf8_take_iff]
  cases hdecode : fromUtf8 ((encode text.toList).take contentLimit) with
  | none =>
      simp only [Option.map_none, Option.getD_none, Option.isSome_none,
        Bool.false_eq_true, iff_false]
      rintro ⟨⟨content, hcontent, _⟩, _⟩
      contradiction
  | some content =>
      obtain ⟨hfront, hsize⟩ := fromUtf8_take_iff.mp hdecode
      simp only [Option.map_some, Option.getD_some, Option.isSome_some, iff_true]
      exact keepsText_addText file hfront hsize

/-- Both strict indexers keep a valid text, as far as it fits, exactly when no
character of it lies across the limit. -/
theorem truncation_keeps_text_iff
    {file : FileMeta} {node : FileNode} {text : String}
    (htext : isTextLike file.ext = true) (hreadable : node.readable = true)
    (hcontent : node.content = encode text.toList) :
    (KeepsText text (workerDoc true file (.file node)) ∧
      KeepsText text (progressDoc true file (.file node))) ↔
      CutBetweenChars text := by
  have hread : readPrefix (.file node) =
      some ((encode text.toList).take contentLimit) := by
    rw [readPrefix, if_pos hreadable, hcontent]
  rw [workerDoc_of_read htext hread, progressDoc_of_read htext hread, and_self,
    keepsText_iff]

theorem length_encode_replicate (n : ℕ) :
    (encode (List.replicate n 'a')).length = n := by
  induction n with
  | zero => rfl
  | succ n ih =>
      rw [List.replicate_succ, encode_cons, List.length_append, ih,
        String.length_utf8EncodeChar, Nat.add_comm]
      rfl

/-- The first million bytes end right after the `é`, with one letter left. -/
def millionText : String :=
  String.ofList (List.replicate 999998 'a' ++ ['é'])

def overlongText : String := millionText ++ "b"

theorem millionText_size : millionText.utf8ByteSize = contentLimit := by
  have hlimit : contentLimit = 999998 + 2 := rfl
  have hchars : millionText.toList = List.replicate 999998 'a' ++ ['é'] :=
    String.toList_ofList
  have htwo : (encode ['é']).length = 2 := by decide
  rw [← length_encode_string, hchars, encode_append, List.length_append,
    length_encode_replicate, htwo, hlimit]

theorem truncation_keeps_overlong_text :
    ¬ overlongText.utf8ByteSize ≤ contentLimit ∧
    KeepsText overlongText (workerDoc true strayFile
      (.file ⟨encode overlongText.toList, true, true⟩)) ∧
    KeepsText overlongText (progressDoc true strayFile
      (.file ⟨encode overlongText.toList, true, true⟩)) := by
  constructor
  · have hone : "b".utf8ByteSize = 1 := by decide
    rw [overlongText, String.utf8ByteSize_append, millionText_size, hone]
    omega
  · have hcontent (text : String) :
        (FileNode.mk (encode text.toList) true true).content =
          encode text.toList := rfl
    apply (@truncation_keeps_text_iff strayFile _ overlongText (by decide)
      rfl (hcontent overlongText)).mpr
    refine Or.inr ⟨millionText, ?_, millionText_size⟩
    rw [overlongText, String.toList_append]
    exact List.prefix_append _ _

/-- A million bytes end inside the last character. -/
def straddlingText : String :=
  String.ofList (List.replicate 999999 'a' ++ ['é'])

/-- With a last character of two bytes no front ends one byte after the
others. -/
theorem length_encode_ne_succ
    {n : ℕ} {front : List Char}
    (hfront : front <+: List.replicate n 'a' ++ ['é']) :
    (encode front).length ≠ n + 1 := by
  rcases List.prefix_concat_iff.mp hfront with hwhole | hpart
  · have htwo : (encode ['é']).length = 2 := by decide
    rw [hwhole, encode_append, List.length_append, length_encode_replicate,
      htwo]
    omega
  · have hle := length_encode_mono hpart
    rw [length_encode_replicate] at hle
    omega

theorem straddlingText_not_cut : ¬ CutBetweenChars straddlingText := by
  have hlimit : contentLimit = 999999 + 1 := rfl
  have hchars : straddlingText.toList = List.replicate 999999 'a' ++ ['é'] :=
    String.toList_ofList
  rintro (hshort | ⟨front, hfront, hsize⟩)
  · have htwo : (encode ['é']).length = 2 := by decide
    rw [← length_encode_string, hchars, encode_append, List.length_append,
      length_encode_replicate, htwo] at hshort
    omega
  · rw [hchars] at hfront
    rw [← length_encode_string, hlimit] at hsize
    exact length_encode_ne_succ hfront hsize

/-- A text with a character across the limit loses its content in both strict
indexers. -/
theorem content_eq_none
    {text : String} (hacross : ¬ CutBetweenChars text) :
    (workerDoc true strayFile
      (.file ⟨encode text.toList, true, true⟩)).content = none ∧
    (progressDoc true strayFile
      (.file ⟨encode text.toList, true, true⟩)).content = none := by
  have htext : isTextLike strayFile.ext = true := by decide
  have hread : readPrefix (.file ⟨encode text.toList, true, true⟩) =
      some ((encode text.toList).take contentLimit) := by
    rw [readPrefix, if_pos rfl]
  have hdecode : fromUtf8 ((encode text.toList).take contentLimit) = none := by
    simpa using mt (isSome_fromUtf8_take_iff text).mp hacross
  rw [workerDoc_of_read htext hread, progressDoc_of_read htext hread, hdecode]
  exact ⟨rfl, rfl⟩

/-- The text is valid and one byte too long for the limit: no content is
added. -/
theorem truncation_loses_text :
    (workerDoc true strayFile
      (.file ⟨encode straddlingText.toList, true, true⟩)).content = none ∧
    (progressDoc true strayFile
      (.file ⟨encode straddlingText.toList, true, true⟩)).content = none :=
  content_eq_none straddlingText_not_cut

end SearchEvery
