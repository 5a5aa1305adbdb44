import Mathlib.Data.List.Nodup
import Mathlib.Tactic.Common
import RecordStore.Proofs.Header
import RecordStore.Proofs.Lookup

/-!
# Images of a store file

A sound file is a header and complete, well-formed record lines.  Taken apart, it shows which
records are live, and so which map the file writes down.

* `Image` — a header and record lines; `Image.bytes` is the file they make up.
* `Version`, `Image.versions` — a live record, wherever its slot points; all of them in order.
* `Image.contents` — the map that an image writes down.
* `Image.Lined` — complete, well-formed lines; `Image.Formed` — with slots that route lookups.
* `Image.Sound` — the invariant of a file: lines, counters and slots agree, no key lives twice.
* `Image.Extends` — lines keep their places and keys while others are added.

Principal results: `holds_contents` — a sound image writes down its map; `find?_eq_some_iff` — where
the live record of a key stands; `Image.Extends.shows` — a line once there stays.
-/

set_option autoImplicit false

namespace RecordStore

/-- A store file taken apart. -/
structure Image where
  header : Header
  texts : List Bytes
  deriving DecidableEq, Repr

/-- A live record: where it stands, its key and its fields. -/
structure Version where
  offset : Nat
  key : Bytes
  fields : List Field
  deriving DecidableEq, Repr

def Version.of (line : Line) : Version := ⟨line.offset, keyOf line.text, fieldsOf line.text⟩

/-- Whether a line claims to be live. -/
def isLiveText (text : Bytes) : Bool := text.head? == some liveFlag

/-- The map of some versions: the first one of a key counts. -/
def Contents.ofVersions (versions : List Version) : Contents :=
  fun key => (versions.find? fun v => v.key == key).map Version.fields

namespace Image

def bytes (i : Image) : Bytes := i.header.encode ++ i.texts.flatten

/-- The record lines with their offsets. -/
def lines (i : Image) : List Line := linesAt Header.length i.texts

def live (i : Image) : List Line := i.lines.filter fun line => isLiveText line.text

def versions (i : Image) : List Version := i.live.map Version.of

def contents (i : Image) : Contents := .ofVersions i.versions

/-- The live line with `key`. -/
def find? (i : Image) (key : Bytes) : Option Line := i.live.find? fun line => keyOf line.text == key

/-- A header line and whole lines behind it, records or not. -/
structure Whole (i : Image) : Prop where
  version : newline ∉ i.header.version
  line : ∀ text ∈ i.texts, IsLine text

/-- A header line and complete, well-formed record lines. -/
structure Lined (i : Image) : Prop where
  version : newline ∉ i.header.version
  line : ∀ text ∈ i.texts, IsLine text
  wellFormed : ∀ text ∈ i.texts, defect? text = none

/-- A file whose lookups can be trusted, though counters may be off and a key may live twice: a sort
placed the lines up to some point, and those after it were appended since. -/
structure Formed (i : Image) : Prop extends Lined i where
  routed : ∃ placed tail, i.texts = placed ++ tail ∧
    Index.Routed (Index.entries (linesAt Header.length placed)) ∧
    ∀ text ∈ tail, slot? text = some unsorted

/-- A file that the store itself could have written, but for its size. -/
structure Sound (i : Image) : Prop where
  version : newline ∉ i.header.version
  line : ∀ text ∈ i.texts, IsLine text
  wellFormed : ∀ text ∈ i.texts, defect? text = none
  count : i.header.appendSeq.toNat = i.texts.length
  /-- A sort placed the lines up to some point; those after it were appended since. -/
  routed : ∃ placed tail, i.texts = placed ++ tail ∧
    Index.Routed (Index.entries (linesAt Header.length placed)) ∧
    ∀ text ∈ tail, slot? text = some unsorted
  distinct : (i.versions.map Version.key).Nodup

theorem Lined.whole {i : Image} (h : i.Lined) : i.Whole := ⟨h.version, h.line⟩

theorem Sound.formed {i : Image} (h : i.Sound) : i.Formed :=
  ⟨⟨h.version, h.line, h.wellFormed⟩, h.routed⟩

theorem length_bytes (i : Image) : i.bytes.length = Header.length + i.texts.flatten.length := by
  rw [bytes, List.length_append, Header.length_encode]

theorem drop_bytes (i : Image) : i.bytes.drop Header.length = i.texts.flatten := by
  rw [bytes, ← Header.length_encode i.header, List.drop_left]

theorem map_text_lines (i : Image) : i.lines.map Line.text = i.texts := map_text_linesAt _ _

theorem mem_lines_iff {i : Image} {line : Line} :
    line ∈ i.lines ↔ ∃ front back, i.texts = front ++ line.text :: back ∧
      line.offset = Header.length + front.flatten.length := mem_linesAt_iff

theorem text_mem {i : Image} {line : Line} (h : line ∈ i.lines) : line.text ∈ i.texts := by
  rw [← i.map_text_lines]
  exact List.mem_map_of_mem h

/-- A line lies behind the header and inside the file. -/
theorem bounds_of_mem {i : Image} {line : Line} (h : line ∈ i.lines) :
    Header.length ≤ line.offset ∧ line.offset + line.text.length ≤ i.bytes.length := by
  obtain ⟨front, back, htexts, hoff⟩ := mem_lines_iff.1 h
  rw [length_bytes, htexts, List.flatten_append, List.length_append, List.flatten_cons,
    List.length_append]
  omega

/-! ## Reading an image -/

theorem newline_before {i : Image} (hv : newline ∉ i.header.version) :
    i.bytes[Header.length - 1]? = some newline := by
  have hend := (Header.isLine_encode hv).endsLine
  have := getElem?_sub_one_of_endsLine hend i.texts.flatten
  rwa [Header.length_encode] at this

theorem read_span {i : Image} {line : Line} (h : line ∈ i.lines) :
    line.span.read i.bytes = line.text := by
  obtain ⟨front, back, htexts, hoff⟩ := mem_lines_iff.1 h
  have hbytes : i.bytes = i.header.encode ++ front.flatten ++ (line.text ++ back.flatten) := by
    rw [bytes, htexts]
    simp
  have hlen : (i.header.encode ++ front.flatten).length = line.offset := by
    rw [List.length_append, Header.length_encode, hoff]
  simp only [Span.read, Line.span]
  rw [hbytes, ← hlen, List.drop_left, List.take_left]

section Reading

variable {i : Image} (hlines : ∀ text ∈ i.texts, IsLine text)

include hlines

theorem linesFrom_bytes : linesFrom Header.length i.bytes = i.lines := by
  rw [linesFrom, drop_bytes, lines_flatten hlines, lines]

/-- The file from a line on starts with that line. -/
theorem takeLine_drop {line : Line} (h : line ∈ i.lines) :
    takeLine (i.bytes.drop line.offset) = line.text := by
  rw [← linesFrom_bytes hlines] at h
  exact (mem_linesFrom_iff.1 h).2.2.2

/-- Lines that start together are one line. -/
theorem eq_of_offset {line line' : Line} (h : line ∈ i.lines) (h' : line' ∈ i.lines)
    (hoff : line.offset = line'.offset) : line = line' := by
  rw [Line.ext_iff]
  refine ⟨hoff, ?_⟩
  rw [← takeLine_drop hlines h, ← takeLine_drop hlines h', hoff]

theorem mem_recordsFrom_bytes {r : Record} :
    r ∈ recordsFrom Header.length i.bytes ↔ r.toLine ∈ i.lines := by
  rw [mem_recordsFrom_iff, linesFrom_bytes hlines]
  constructor
  · rintro ⟨h, -⟩
    exact h
  · intro h
    exact ⟨h, (hlines _ (text_mem h)).endsLine⟩

theorem mem_liveRecordsFrom_bytes {r : Record} :
    r ∈ liveRecordsFrom Header.length i.bytes ↔ r.toLine ∈ i.live := by
  rw [liveRecordsFrom, List.mem_filter, mem_recordsFrom_bytes hlines, live, List.mem_filter]
  rfl

/-- Decoding at a line gives the record that the line is. -/
theorem decode_of_mem {line : Line} (h : line ∈ i.lines) (hw : defect? line.text = none) :
    ∃ r : Record, Record.decode i.bytes line.offset = .ok r ∧ r.toLine = line := by
  obtain ⟨r, hr⟩ : ∃ r : Record, r.toLine = line := ⟨⟨line, hw⟩, rfl⟩
  refine ⟨r, Record.decode_eq_ok_iff.2 ⟨?_, ?_, ?_⟩, hr⟩
  · have := (bounds_of_mem h).2
    have := (hlines _ (text_mem h)).length_pos
    omega
  · rw [← hr]
  · rw [takeLine_drop hlines h, ← hr]

end Reading

/-! ## Live records -/

theorem map_toLine_liveRecords {lines : List Line}
    (h : ∀ line ∈ lines, endsLine line.text = true ∧ defect? line.text = none) :
    (((lines.filter fun line => endsLine line.text).filterMap Record.ofLine?).filter
      Record.isLive).map Record.toLine = lines.filter fun line => isLiveText line.text := by
  induction lines with
  | nil => rfl
  | cons line more ih =>
    simp only [List.mem_cons, forall_eq_or_imp] at h
    obtain ⟨r, hr⟩ : ∃ r : Record, r.toLine = line := ⟨⟨line, h.1.2⟩, rfl⟩
    have hof : Record.ofLine? line = some r := Record.ofLine?_eq_some_iff.2 ⟨h.1.2, hr⟩
    have hlive : r.isLive = isLiveText line.text := by rw [← hr]; rfl
    rw [List.filter_cons, if_pos h.1.1, List.filterMap_cons_some hof, List.filter_cons,
      List.filter_cons, hlive, ← ih h.2]
    split
    · rw [List.map_cons, hr]
    · rfl

/-- The live records of the file are the live lines. -/
theorem Lined.map_toLine_liveRecordsFrom {i : Image} (h : i.Lined) :
    (liveRecordsFrom Header.length i.bytes).map Record.toLine = i.live := by
  have hall : ∀ line ∈ i.lines, endsLine line.text = true ∧ defect? line.text = none := by
    intro line hl
    have ht := text_mem hl
    exact ⟨(h.line _ ht).endsLine, h.wellFormed _ ht⟩
  rw [liveRecordsFrom, recordsFrom, linesFrom_bytes h.line, map_toLine_liveRecords hall, live]

/-! ## Versions -/

theorem mem_versions_iff {i : Image} {v : Version} :
    v ∈ i.versions ↔ ∃ line ∈ i.lines, isLiveText line.text = true ∧ Version.of line = v := by
  simp only [versions, live, List.mem_map, List.mem_filter, and_assoc]

end Image

theorem Contents.ofVersions_eq_some_iff {versions : List Version}
    (h : (versions.map Version.key).Nodup) {key : Bytes} {fields : List Field} :
    Contents.ofVersions versions key = some fields ↔
      ∃ v ∈ versions, v.key = key ∧ v.fields = fields := by
  induction versions with
  | nil => simp [Contents.ofVersions]
  | cons v more ih =>
    rw [List.map_cons, List.nodup_cons] at h
    have hih := ih h.2
    unfold Contents.ofVersions at hih ⊢
    by_cases hv : v.key = key
    · have hmore : ∀ w ∈ more, w.key ≠ key := fun w hw e =>
        h.1 (List.mem_map.2 ⟨w, hw, e.trans hv.symm⟩)
      rw [List.find?_cons_of_pos (by simp [hv]), Option.map_some, Option.some.injEq]
      constructor
      · intro e
        exact ⟨v, List.mem_cons_self .., hv, e⟩
      · rintro ⟨w, hw, hkey, hfields⟩
        rcases List.mem_cons.1 hw with rfl | hw
        · exact hfields
        · exact absurd hkey (hmore w hw)
    · rw [List.find?_cons_of_neg (by simp [hv]), hih]
      simp [hv]

/-- Versions with distinct keys are found by their keys. -/
theorem eq_of_key_eq {versions : List Version} (h : (versions.map Version.key).Nodup)
    {v w : Version} (hv : v ∈ versions) (hw : w ∈ versions) (hkey : v.key = w.key) : v = w :=
  List.inj_on_of_nodup_map h hv hw hkey

namespace Image

theorem contents_eq_some_iff {i : Image} (h : (i.versions.map Version.key).Nodup) {key : Bytes}
    {fields : List Field} :
    i.contents key = some fields ↔ ∃ v ∈ i.versions, v.key = key ∧ v.fields = fields :=
  Contents.ofVersions_eq_some_iff h

theorem contents_eq_find? (i : Image) (key : Bytes) :
    i.contents key = (i.find? key).map fun line => fieldsOf line.text := by
  have : ∀ lines : List Line, Contents.ofVersions (lines.map Version.of) key =
      (lines.find? fun line => keyOf line.text == key).map fun line => fieldsOf line.text := by
    intro lines
    rw [Contents.ofVersions, List.find?_map, Option.map_map]
    rfl
  exact this i.live

/-- The file writes down the map of the image. -/
theorem Lined.ofBytes_eq {i : Image} (h : i.Lined) :
    Contents.ofBytes i.bytes Header.length = i.contents := by
  funext key
  rw [contents_eq_find?, Image.find?, ← h.map_toLine_liveRecordsFrom, List.find?_map, Option.map_map,
    Contents.ofBytes, Contents.ofRecords]
  congr 1
  funext r
  exact r.fields_eq

namespace Lined

variable {i : Image} (h : i.Lined) (hdistinct : (i.versions.map Version.key).Nodup)

include h hdistinct

/-- Where no key lives twice, the live line with a key is the only one. -/
theorem live_unique {line line' : Line} (hl : line ∈ i.live) (hl' : line' ∈ i.live)
    (hkey : keyOf line.text = keyOf line'.text) : line = line' := by
  have hv := eq_of_key_eq hdistinct (List.mem_map_of_mem hl) (List.mem_map_of_mem hl') hkey
  have hoff : line.offset = line'.offset := congrArg Version.offset hv
  exact eq_of_offset h.line (List.mem_filter.1 hl).1 (List.mem_filter.1 hl').1 hoff

theorem find?_eq_some_iff {key : Bytes} {line : Line} :
    i.find? key = some line ↔ line ∈ i.live ∧ keyOf line.text = key := by
  constructor
  · intro hf
    exact ⟨List.mem_of_find?_eq_some hf, by simpa using List.find?_some hf⟩
  · rintro ⟨hl, rfl⟩
    have hsome : (i.find? (keyOf line.text)).isSome = true := by
      rw [Image.find?, List.find?_isSome]
      exact ⟨line, hl, by simp⟩
    obtain ⟨line', hf⟩ := Option.isSome_iff_exists.1 hsome
    have hl' := List.mem_of_find?_eq_some hf
    have hkey : keyOf line'.text = keyOf line.text := by simpa using List.find?_some hf
    rw [hf, h.live_unique hdistinct hl' hl hkey]

end Lined

namespace Sound

variable {i : Image} (h : i.Sound)

include h

theorem find?_eq_some_iff {key : Bytes} {line : Line} :
    i.find? key = some line ↔ line ∈ i.live ∧ keyOf line.text = key :=
  h.formed.toLined.find?_eq_some_iff h.distinct

/-- **A sound image writes down its map.** -/
theorem holds_contents : Holds (liveRecordsFrom Header.length i.bytes) i.contents := by
  refine ⟨?_, h.formed.ofBytes_eq⟩
  have hkeys : (liveRecordsFrom Header.length i.bytes).map Record.key
      = i.versions.map Version.key := by
    rw [versions, ← h.formed.map_toLine_liveRecordsFrom, List.map_map, List.map_map]
    rfl
  rw [hkeys]
  exact h.distinct

end Sound

/-! ## Growth -/

/-- The lengths and keys of the lines. -/
def frames (i : Image) : List (Nat × Bytes) := i.texts.map fun text => (text.length, keyOf text)

/-- The lines of `i` are still there, in place and with their keys, and others may follow them. -/
def Extends (i j : Image) : Prop := i.frames <+: j.frames

/-- A line with this key stands here. -/
def Shows (i : Image) (span : Span) (key : Bytes) : Prop :=
  ∃ line ∈ i.lines, line.span = span ∧ keyOf line.text = key

theorem Extends.refl (i : Image) : i.Extends i := List.prefix_refl _

theorem Extends.trans {i j k : Image} (hij : i.Extends j) (hjk : j.Extends k) : i.Extends k :=
  List.IsPrefix.trans hij hjk

theorem length_flatten_of_frames {texts texts' : List Bytes}
    (h : texts'.map (fun text => (text.length, keyOf text)) =
      texts.map fun text => (text.length, keyOf text)) :
    texts'.flatten.length = texts.flatten.length := by
  have hlen : texts'.map List.length = texts.map List.length := by
    have := congrArg (List.map Prod.fst) h
    rwa [List.map_map, List.map_map] at this
  rw [List.length_flatten, List.length_flatten, hlen]

/-- The lines up to some point are still there. -/
theorem Extends.exists_cut {i j : Image} (h : i.Extends j) {seen unseen : List Bytes}
    (hi : i.texts = seen ++ unseen) : ∃ seen' unseen', j.texts = seen' ++ unseen' ∧
      seen'.map (fun text => (text.length, keyOf text)) =
        seen.map fun text => (text.length, keyOf text) := by
  obtain ⟨added, hadded⟩ := h
  rw [frames, hi, List.map_append, List.append_assoc] at hadded
  obtain ⟨seen', unseen', hj, hseen, -⟩ := List.map_eq_append_iff.1 hadded.symm
  exact ⟨seen', unseen', hj, hseen⟩

/-- **A line once there stays**, with its place and its key. -/
theorem Extends.shows {i j : Image} (h : i.Extends j) {span : Span} {key : Bytes}
    (hs : i.Shows span key) : j.Shows span key := by
  obtain ⟨line, hl, rfl, rfl⟩ := hs
  obtain ⟨front, back, htexts, hoff⟩ := mem_lines_iff.1 hl
  rw [List.append_cons] at htexts
  obtain ⟨seen, unseen, hj, hseen⟩ := h.exists_cut htexts
  rw [List.map_append] at hseen
  obtain ⟨front', last, rfl, hfront, hlast⟩ := List.map_eq_append_iff.1 hseen
  obtain ⟨text, hlast', htext⟩ := List.map_eq_singleton_iff.1 hlast
  rw [Prod.mk.injEq] at htext
  refine ⟨⟨line.offset, text⟩, mem_lines_iff.2 ⟨front', unseen, ?_, ?_⟩, ?_, htext.2⟩
  · rw [hj, hlast', List.append_assoc, List.singleton_append]
  · rw [length_flatten_of_frames hfront]
    exact hoff
  · rw [Line.span, Line.span, htext.1]

/-- Lines of the same lengths and keys. -/
theorem extends_of_frames {i j : Image} (h : j.frames = i.frames) : i.Extends j := by
  have hself := List.prefix_refl j.frames
  unfold Extends
  exact h ▸ hself

theorem extends_append (i : Image) (header : Header) (added : List Bytes) :
    i.Extends ⟨header, i.texts ++ added⟩ := by
  rw [Extends, frames, frames, List.map_append]
  exact List.prefix_append _ _

/-- No line is empty, so a small file has few lines. -/
theorem Lined.length_texts_lt {i : Image} (h : i.Lined) (hsmall : i.bytes.length < UInt32.size) :
    i.texts.length + 1 < UInt32.size := by
  have hsum : ∀ texts : List Bytes, (∀ text ∈ texts, IsLine text) →
      texts.length ≤ texts.flatten.length := by
    intro texts hlines
    induction texts with
    | nil => exact Nat.le_refl _
    | cons text more ih =>
      simp only [List.mem_cons, forall_eq_or_imp] at hlines
      have := hlines.1.length_pos
      have := ih hlines.2
      rw [List.length_cons, List.flatten_cons, List.length_append]
      omega
  have := hsum i.texts h.line
  rw [length_bytes] at hsmall
  have : 1 < Header.length := by decide
  omega

end Image

end RecordStore
