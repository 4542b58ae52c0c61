import SearchEvery.Scanner
import Mathlib.Tactic

/-!
# Documents and the search index

The documents of the index and the writer operations on them.  The path field
is indexed with the default tokenizer, and `delete_term` removes every earlier
document which has the term among the tokens of its path.  The last section
builds the document of a file as the three indexers do.
-/

namespace SearchEvery

/-- A document of the program's schema.  The content is indexed only, the
other fields are stored. -/
structure Doc where
  path : String
  name : String
  ext : String
  size : ℕ
  modifiedTs : ℤ
  content : Option String
  summary : Option String
  deriving DecidableEq

inductive RecordOption
  | basic
  | withFreqs
  | withFreqsAndPositions
  deriving DecidableEq

/-- A field of a schema: whether it is stored, and what is recorded of it if
it is indexed with the default tokenizer. -/
structure FieldEntry where
  name : String
  stored : Bool
  record : Option RecordOption
  deriving DecidableEq

/-- `TextFieldIndexing::default()`. -/
def textFieldIndexing : Option RecordOption := some .basic

def programSchema : List FieldEntry :=
  [⟨"path", true, textFieldIndexing⟩, ⟨"name", true, textFieldIndexing⟩,
    ⟨"ext", true, none⟩, ⟨"content", false, textFieldIndexing⟩,
    ⟨"summary", true, none⟩, ⟨"size", true, none⟩, ⟨"modified_ts", true, none⟩]

structure Index where
  schema : List FieldEntry
  docs : List Doc
  deriving DecidableEq

def Index.HasField (index : Index) (name : String) : Prop :=
  name ∈ index.schema.map FieldEntry.name

instance (index : Index) (name : String) : Decidable (index.HasField name) :=
  inferInstanceAs (Decidable (name ∈ index.schema.map FieldEntry.name))

def hasPathToken (tables : CharTables) (term : String) (doc : Doc) : Bool :=
  decide (term ∈ tables.defaultTokens doc.path)

/-- `IndexWriter::delete_term` on the path field. -/
def deleteTerm (tables : CharTables) (term : String) (docs : List Doc) :
    List Doc :=
  docs.filter fun doc => !hasPathToken tables term doc

theorem mem_deleteTerm
    {tables : CharTables} {term : String} {docs : List Doc} {doc : Doc} :
    doc ∈ deleteTerm tables term docs ↔
      doc ∈ docs ∧ term ∉ tables.defaultTokens doc.path := by
  simp [deleteTerm, hasPathToken]

theorem deleteTerm_sublist
    (tables : CharTables) (term : String) (docs : List Doc) :
    (deleteTerm tables term docs).Sublist docs :=
  List.filter_sublist

theorem deleteTerm_of_hasSeparator
    {tables : CharTables} {path : String} (hsep : HasSeparator path)
    (docs : List Doc) :
    deleteTerm tables path docs = docs := by
  apply List.filter_eq_self.mpr
  intro doc _
  simp [hasPathToken, tables.not_mem_defaultTokens hsep]

def UniquePaths (docs : List Doc) : Prop :=
  (docs.map Doc.path).Nodup

theorem UniquePaths.deleteTerm
    {docs : List Doc} (hunique : UniquePaths docs)
    (tables : CharTables) (term : String) :
    UniquePaths (deleteTerm tables term docs) :=
  hunique.sublist ((deleteTerm_sublist tables term docs).map _)

theorem UniquePaths.append_singleton
    {docs : List Doc} (hunique : UniquePaths docs) {doc : Doc}
    (hfresh : ∀ old ∈ docs, old.path ≠ doc.path) :
    UniquePaths (docs ++ [doc]) := by
  unfold UniquePaths at hunique ⊢
  rw [List.map_append, List.nodup_append]
  refine ⟨hunique, by simp, ?_⟩
  intro path hpath other hother
  obtain ⟨old, hold, heq⟩ := List.mem_map.mp hpath
  simp only [List.map_cons, List.map_nil, List.mem_singleton] at hother
  rw [hother, ← heq]
  exact hfresh old hold

/-! ## The documents of the three indexers -/

def textLike : List String :=
  ["txt", "md", "csv", "log", "json", "xml", "ini", "conf", "yaml", "yml"]

def isTextLike (ext : String) : Bool :=
  textLike.any fun known => eqIgnoreAsciiCase known ext

def FileMeta.toDoc (file : FileMeta) : Doc where
  path := file.path
  name := file.fileName
  ext := file.ext
  size := file.size
  modifiedTs := file.modifiedTs
  content := none
  summary := none

def Doc.addText (doc : Doc) (text : String) : Doc :=
  let summary := String.ofList (text.toList.take 300)
  { doc with
    content := some text
    summary := if summary = "" then none else some summary }

def contentLimit : ℕ := 1000000

/-- `File::open` and `read_to_end` through `take(max_bytes)`. -/
def readPrefix : DiskEntry → Option (List UInt8)
  | .file node =>
      if node.readable then some (node.content.take contentLimit) else none
  | _ => none

def fromUtf8 (bytes : List UInt8) : Option String :=
  String.fromUTF8? ⟨bytes.toArray⟩

def isContinuation (byte : UInt8) : Bool :=
  128 ≤ byte && byte ≤ 191

def secondByteOk (first second : UInt8) : Bool :=
  if first = 0xE0 then 0xA0 ≤ second && second ≤ 0xBF
  else if first = 0xED then 0x80 ≤ second && second ≤ 0x9F
  else if first = 0xF0 then 0x90 ≤ second && second ≤ 0xBF
  else if first = 0xF4 then 0x80 ≤ second && second ≤ 0x8F
  else isContinuation second

/-- The scalar value at the head of the bytes with its width, or the width of
the ill-formed part which one replacement character stands for. -/
def decodeUnit (bytes : List UInt8) : Option Char × ℕ :=
  let first := bytes.headD 0
  let second := bytes.getD 1 0
  let third := bytes.getD 2 0
  let fourth := bytes.getD 3 0
  let low (byte : UInt8) : ℕ := byte.toNat % 64
  if first < 0x80 then (some (Char.ofNat first.toNat), 1)
  else if 0xC2 ≤ first && first ≤ 0xDF then
    if isContinuation second then
      (some (Char.ofNat (first.toNat % 32 * 64 + low second)), 2)
    else (none, 1)
  else if 0xE0 ≤ first && first ≤ 0xEF then
    if !secondByteOk first second then (none, 1)
    else if !isContinuation third then (none, 2)
    else (some (Char.ofNat
      ((first.toNat % 16 * 64 + low second) * 64 + low third)), 3)
  else if 0xF0 ≤ first && first ≤ 0xF4 then
    if !secondByteOk first second then (none, 1)
    else if !isContinuation third then (none, 2)
    else if !isContinuation fourth then (none, 3)
    else (some (Char.ofNat
      (((first.toNat % 8 * 64 + low second) * 64 + low third) * 64 +
        low fourth)), 4)
  else (none, 1)

def lossyChars : ℕ → List UInt8 → List Char
  | 0, _ => []
  | _, [] => []
  | fuel + 1, bytes =>
      let unit := decodeUnit bytes
      unit.1.getD '\uFFFD' :: lossyChars fuel (bytes.drop unit.2)

/-- `String::from_utf8_lossy`.  Every unit has at least one byte, so the
length is enough fuel. -/
def fromUtf8Lossy (bytes : List UInt8) : String :=
  String.ofList (lossyChars bytes.length bytes)

def existsAsFile : DiskEntry → Bool
  | .file _ => true
  | _ => false

def workerDoc (enableContentParse : Bool) (file : FileMeta)
    (entry : DiskEntry) : Doc :=
  if enableContentParse && isTextLike file.ext then
    match (readPrefix entry).bind fromUtf8 with
    | some text => file.toDoc.addText text
    | none => file.toDoc
  else file.toDoc

/-- The document of `build_inverted_index_progress`. -/
def progressDoc (enableContentParse : Bool) (file : FileMeta)
    (entry : DiskEntry) : Doc :=
  if enableContentParse && isTextLike file.ext && existsAsFile entry then
    match (readPrefix entry).bind fromUtf8 with
    | some text => file.toDoc.addText text
    | none => file.toDoc
  else file.toDoc

def parseContent (file : FileMeta) (entry : DiskEntry) : Option String :=
  if isTextLike file.ext && existsAsFile entry then
    (readPrefix entry).map fromUtf8Lossy
  else none

/-- The document of `indexer::build`. -/
def buildDoc (enableContentParse : Bool) (file : FileMeta)
    (entry : DiskEntry) : Doc :=
  if enableContentParse then
    match parseContent file entry with
    | some text => file.toDoc.addText text
    | none => file.toDoc
  else file.toDoc

inductive Indexer
  | pipeline
  | build
  | buildProgress
  deriving DecidableEq

def Indexer.doc : Indexer → Bool → FileMeta → DiskEntry → Doc
  | .pipeline => workerDoc
  | .build => buildDoc
  | .buildProgress => progressDoc

def Doc.stored (doc : Doc) : String × String × String × ℕ × ℤ :=
  (doc.path, doc.name, doc.ext, doc.size, doc.modifiedTs)

@[simp] theorem Doc.addText_stored (doc : Doc) (text : String) :
    (doc.addText text).stored = doc.stored := rfl

/-- Whatever the file holds, every indexer stores the scanned record. -/
theorem Indexer.doc_stored
    (indexer : Indexer) (enableContentParse : Bool) (file : FileMeta)
    (entry : DiskEntry) :
    (indexer.doc enableContentParse file entry).stored =
      file.toDoc.stored := by
  cases indexer with
  | pipeline =>
      simp only [Indexer.doc, workerDoc]
      split
      next => split <;> simp
      next => rfl
  | build =>
      simp only [Indexer.doc, buildDoc]
      split
      next => split <;> simp
      next => rfl
  | buildProgress =>
      simp only [Indexer.doc, progressDoc]
      split
      next => split <;> simp
      next => rfl

theorem workerDoc_stored
    (enableContentParse : Bool) (file : FileMeta) (entry : DiskEntry) :
    (workerDoc enableContentParse file entry).stored = file.toDoc.stored :=
  Indexer.doc_stored .pipeline enableContentParse file entry

end SearchEvery
