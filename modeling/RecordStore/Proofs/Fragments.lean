import Mathlib.Tactic.Common
import RecordStore.Proofs.Bare
import RecordStore.Proofs.Reopenings

/-!
# Files that end inside a line

An append that is cut off leaves a fragment: a last line without its newline.  The walk backward
gives up at it, so that a lookup finds the records which a sort has placed, and none of those
appended since.  Openers and closers leave such a file as it is, but for its header and its slots.

* `PlacedAt`, `placedRecord?` — a live record that a sort has placed, by its place and by its key.
* `Rests` — what openers and closers make of a file.
* `Image.Ordered` — whole lines, records or not, of which a sort has placed the first ones.

Principal results: `Image.Ordered.search_fragment`, `Image.Ordered.search_fragment_isSome` and
`scanTail_fragment` — what the two searches find; `Image.Whole.ordered_sorted` — a sort places every
record; `Rests.placedAt` — a record that is placed stays so.
-/

set_option autoImplicit false

namespace RecordStore

/-! ## Placed records -/

/-- A live record with `key` stands at `span`, and a sort has placed it. -/
def PlacedAt (data : Bytes) (span : Span) (key : Bytes) : Prop :=
  ∃ r ∈ liveRecordsFrom Header.length data, r.slot ≠ unsorted ∧ r.key = key ∧ r.span = span

section Records

variable {data : Bytes} {r : Record}

theorem isLine_of_mem_liveRecords {start : Nat} (h : r ∈ liveRecordsFrom start data) :
    IsLine r.text := by
  obtain ⟨hfrom, hend, -⟩ := mem_liveRecordsFrom_iff.1 h
  obtain ⟨-, -, -, htext⟩ := mem_linesFrom_iff.1 hfrom
  have htext : takeLine (data.drop r.offset) = r.text := htext
  rw [← htext]
  refine isLine_takeLine_of_mem ?_
  have hmem := newline_mem_of_endsLine hend
  rw [← htext] at hmem
  rw [← takeLine_append_dropLine (data.drop r.offset)]
  exact List.mem_append_left _ hmem

/-- A record is read where it stands. -/
theorem decode_of_mem_liveRecords {start : Nat} (h : r ∈ liveRecordsFrom start data) :
    Record.decode data r.offset = .ok r := by
  obtain ⟨-, hlt, -, htext⟩ := mem_linesFrom_iff.1 (mem_liveRecordsFrom_iff.1 h).1
  exact Record.decode_eq_ok_iff.2 ⟨hlt, rfl, htext⟩

/-- With no key twice, a key has one live record. -/
theorem eq_of_key {start : Nat} (hdistinct : ((liveRecordsFrom start data).map Record.key).Nodup)
    {r' : Record} (h : r ∈ liveRecordsFrom start data) (h' : r' ∈ liveRecordsFrom start data)
    (hkey : r.key = r'.key) : r = r' :=
  List.inj_on_of_nodup_map hdistinct h h' hkey

/-- Records are read behind the header. -/
theorem liveRecordsFrom_congr {start : Nat} {data' : Bytes}
    (h : data'.drop start = data.drop start) :
    liveRecordsFrom start data' = liveRecordsFrom start data := by
  rw [liveRecordsFrom, recordsFrom, linesFrom, h]
  rfl

theorem bareRecords_congr {data' : Bytes}
    (h : data'.drop Header.length = data.drop Header.length) : bareRecords data' = bareRecords data := by
  rw [bareRecords, liveRecordsFrom_congr h]
  rfl

end Records

theorem hasSlot_of_mem_lines {fragment text : Bytes} (hf : newline ∉ fragment)
    (ht : text ∈ lines fragment) : hasSlot text = false := by
  by_cases hnil : fragment = []
  · rw [hnil] at ht
    cases ht
  · rw [lines_of_notMem hf hnil, List.mem_singleton] at ht
    exact ht ▸ Index.hasSlot_of_notMem hf

/-- What openers and closers make of a file: its header may be stamped, and a sort may have placed
every record. -/
structure Rests (before after : Bytes) : Prop where
  length_eq : after.length = before.length
  bare : bareRecords after = bareRecords before
  slots : after.drop Header.length = before.drop Header.length ∨
    ∀ r ∈ liveRecordsFrom Header.length after, r.slot ≠ unsorted

namespace Rests

variable {before middle after : Bytes}

theorem refl (bytes : Bytes) : Rests bytes bytes := ⟨rfl, rfl, Or.inl rfl⟩

theorem trans (h : Rests before middle) (h' : Rests middle after) : Rests before after := by
  refine ⟨h'.length_eq.trans h.length_eq, h'.bare.trans h.bare, ?_⟩
  rcases h'.slots with hsame | hplaced
  · rw [liveRecordsFrom_congr hsame, hsame]
    exact h.slots
  · exact Or.inr hplaced

/-- A new header is all that distinguishes them. -/
theorem of_drop (hlen : after.length = before.length)
    (hdrop : after.drop Header.length = before.drop Header.length) : Rests before after :=
  ⟨hlen, bareRecords_congr hdrop, Or.inl hdrop⟩

/-- **A record that is placed stays placed**, where it stands. -/
theorem placedAt (h : Rests before after) {span : Span} {key : Bytes}
    (hplaced : PlacedAt before span key) : PlacedAt after span key := by
  obtain ⟨r, hr, hslot, rfl, rfl⟩ := hplaced
  rcases h.slots with hsame | hall
  · exact ⟨r, liveRecordsFrom_congr hsame ▸ hr, hslot, rfl, rfl⟩
  · have hmem : r.toLine.bare ∈ bareRecords after := by
      rw [h.bare]
      exact List.mem_map_of_mem hr
    obtain ⟨r', hr', hbare⟩ := List.mem_map.1 hmem
    have hbare : r'.toLine.bare = r.toLine.bare := hbare
    obtain ⟨hoff, htext⟩ := Line.ext_iff.1 hbare
    have hoff : r'.offset = r.offset := hoff
    have htext : clearSlot r'.text = clearSlot r.text := htext
    refine ⟨r', hr', hall r' hr', ?_, ?_⟩
    · rw [Record.key, ← keyOf_clearSlot, htext, keyOf_clearSlot]
      rfl
    · rw [Record.span, Record.span, Line.span, Line.span, hoff, ← length_clearSlot r'.text, htext,
        length_clearSlot]

theorem keys (h : Rests before after) : (liveRecordsFrom Header.length after).map Record.key =
    (liveRecordsFrom Header.length before).map Record.key := by
  have hkeys : ∀ data : Bytes, (bareRecords data).map (fun line => keyOf line.text) =
      (liveRecordsFrom Header.length data).map Record.key := by
    intro data
    rw [bareRecords, List.map_map]
    exact List.map_congr_left fun r _ => keyOf_clearSlot r.text
  rw [← hkeys, ← hkeys, h.bare]

end Rests

/-! ## Placed records, by key -/

/-- The live record with `key` that a sort has placed. -/
def placedRecord? (data key : Bytes) : Option Record :=
  (liveRecordsFrom Header.length data).find? fun r => r.key == key && r.slot != unsorted

section Placed

variable {data key : Bytes}

theorem mem_of_placedRecord? {r : Record} (h : placedRecord? data key = some r) :
    r ∈ liveRecordsFrom Header.length data ∧ r.slot ≠ unsorted ∧ r.key = key := by
  obtain ⟨hr, hcheck⟩ := And.intro (List.mem_of_find?_eq_some h) (List.find?_some h)
  simp only [Bool.and_eq_true, beq_iff_eq, bne_iff_ne] at hcheck
  exact ⟨hr, hcheck.2, hcheck.1⟩

theorem placedRecord?_eq_none_iff :
    placedRecord? data key = none ↔ ∀ span, ¬ PlacedAt data span key := by
  rw [placedRecord?, List.find?_eq_none]
  constructor
  · rintro hnone span ⟨r, hr, hslot, rfl, -⟩
    exact hnone r hr (by simp [hslot])
  · intro hnone r hr hcheck
    simp only [Bool.and_eq_true, beq_iff_eq, bne_iff_ne] at hcheck
    exact hnone r.span ⟨r, hr, hcheck.2, hcheck.1, rfl⟩

/-- If a sort has placed every record, these are all. -/
theorem placedRecord?_of_all (hall : ∀ r ∈ liveRecordsFrom Header.length data, r.slot ≠ unsorted)
    (key : Bytes) : placedRecord? data key =
      (liveRecordsFrom Header.length data).find? fun r => r.key == key := by
  have hsame : ∀ r ∈ liveRecordsFrom Header.length data,
      (r.key == key && r.slot != unsorted) = (r.key == key) := fun r hr => by simp [hall r hr]
  rw [placedRecord?, ← List.head?_filter, ← List.head?_filter, List.filter_congr hsame]

/-- With no key twice, the record that stands at a place is the one that its key has. -/
theorem placedRecord?_of_placedAt
    (hdistinct : ((liveRecordsFrom Header.length data).map Record.key).Nodup) {span : Span}
    (h : PlacedAt data span key) : ∃ r, placedRecord? data key = some r ∧ r.span = span := by
  obtain ⟨r, hr, hslot, hkey, hspan⟩ := h
  cases hfound : placedRecord? data key with
  | none => exact absurd ⟨r, hr, hslot, hkey, hspan⟩ (placedRecord?_eq_none_iff.1 hfound span)
  | some r' =>
    obtain ⟨hr', -, hkey'⟩ := mem_of_placedRecord? hfound
    exact ⟨r', rfl, eq_of_key hdistinct hr' hr (hkey'.trans hkey.symm) ▸ hspan⟩

end Placed

/-! ## Whole lines and a fragment -/

namespace Image

/-- Whole lines of which a sort has placed the first ones; the later ones carry no slot yet.  A line
may be too damaged to be a record, as a fragment is once it is closed. -/
structure Ordered (i : Image) : Prop extends Whole i where
  routed : ∃ placed tail, i.texts = placed ++ tail ∧
    Index.Routed (Index.entries (linesAt Header.length placed)) ∧
    ∀ text ∈ tail, hasSlot text = false ∨ slot? text = some unsorted

theorem Ordered.withHeader {i : Image} (h : i.Ordered) {header : Header}
    (hversion : header.version = i.header.version) : (⟨header, i.texts⟩ : Image).Ordered :=
  ⟨⟨by rw [hversion]; exact h.version, h.line⟩, h.routed⟩

section Fragment

variable {i : Image} {fragment : Bytes}

theorem drop_bytes_append (i : Image) (rest : Bytes) :
    (i.bytes ++ rest).drop Header.length = i.texts.flatten ++ rest := by
  rw [List.drop_append_of_le_length (by rw [length_bytes]; omega), drop_bytes]

theorem Whole.lines_append (hi : i.Whole) (rest : Bytes) :
    RecordStore.lines ((i.bytes ++ rest).drop Header.length) = i.texts ++ RecordStore.lines rest := by
  rw [drop_bytes_append, lines_flatten_append hi.line]

/-- Another header behind which the same bytes follow. -/
theorem rests_withHeader (i : Image) (header : Header) (rest : Bytes) :
    Rests (i.bytes ++ rest) ((⟨header, i.texts⟩ : Image).bytes ++ rest) := by
  refine .of_drop ?_ ?_
  · rw [List.length_append, List.length_append, length_bytes, length_bytes]
  · rw [drop_bytes_append, drop_bytes_append]

/-- A fragment holds no record. -/
theorem Whole.bareRecords_fragment (hi : i.Whole) (hf : newline ∉ fragment) :
    bareRecords (i.bytes ++ fragment) = bareAt Header.length i.texts := by
  rw [bareRecords_eq, hi.lines_append, bareAt_append,
    bareAt_of_forall_not (fun text ht => isLiveRecord_of_notMem hf ht), List.append_nil]

theorem Whole.newline_before_append (hi : i.Whole) (rest : Bytes) :
    (i.bytes ++ rest)[Header.length - 1]? = some newline := by
  have hlt : Header.length - 1 < i.bytes.length := by
    rw [length_bytes]
    exact Nat.lt_of_lt_of_le (by decide) (Nat.le_add_right _ _)
  rw [List.getElem?_append_left hlt]
  exact newline_before hi.version

variable (hf : newline ∉ fragment)

include hf

/-- A live record is one of the whole lines. -/
theorem Whole.toLine_mem (hi : i.Whole) {r : Record}
    (hr : r ∈ liveRecordsFrom Header.length (i.bytes ++ fragment)) : r.toLine ∈ i.lines := by
  obtain ⟨hfrom, hend, -⟩ := mem_liveRecordsFrom_iff.1 hr
  rw [linesFrom, hi.lines_append, linesAt_append] at hfrom
  rcases List.mem_append.1 hfrom with hin | hin
  · exact hin
  · have htext : r.text ∈ RecordStore.lines fragment := by
      rw [← map_text_linesAt (Header.length + i.texts.flatten.length) (RecordStore.lines fragment)]
      exact List.mem_map_of_mem hin
    have hslot := Index.hasSlot_of_defect? r.wellFormed hend
    rw [hasSlot_of_mem_lines hf htext] at hslot
    cases hslot

/-- The lines that a sort has placed, and the rest. -/
theorem Ordered.exists_placed (hi : i.Ordered) : ∃ placed rest,
    RecordStore.lines ((i.bytes ++ fragment).drop Header.length) = placed ++ rest ∧
      Index.Routed (Index.entries (linesAt Header.length placed)) ∧
      ∀ text ∈ rest, hasSlot text = false ∨ slot? text = some unsorted := by
  obtain ⟨placed, tail, htexts, hrouted, htail⟩ := hi.routed
  refine ⟨placed, tail ++ RecordStore.lines fragment, ?_, hrouted, ?_⟩
  · rw [hi.lines_append, htexts, List.append_assoc]
  · intro text ht
    rcases List.mem_append.1 ht with ht | ht
    · exact htail text ht
    · exact Or.inl (hasSlot_of_mem_lines hf ht)

/-- **A search answers placed records only.** -/
theorem Ordered.search_fragment (hi : i.Ordered) {span : Span} {key : Bytes}
    (h : Index.search (i.bytes ++ fragment) Header.length key = some span) :
    PlacedAt (i.bytes ++ fragment) span key := by
  obtain ⟨placed, rest, hcut, hrouted, hrest⟩ := hi.exists_placed hf
  obtain ⟨r, hr, hkey, hspan, hmem⟩ := Index.search_placed (by decide)
    (hi.newline_before_append fragment) hcut hrouted hrest h
  exact ⟨r, hr, (Index.slot_ne_iff_placed (by decide) hcut hrouted hrest hr).2 hmem, hkey, hspan⟩

/-- **A search finds every key that a placed record has.** -/
theorem Ordered.search_fragment_isSome (hi : i.Ordered) {span : Span} {key : Bytes}
    (h : PlacedAt (i.bytes ++ fragment) span key) :
    (Index.search (i.bytes ++ fragment) Header.length key).isSome = true := by
  obtain ⟨placed, rest, hcut, hrouted, hrest⟩ := hi.exists_placed hf
  obtain ⟨r, hr, hslot, rfl, -⟩ := h
  exact Index.search_isSome (by decide) (hi.newline_before_append fragment) hcut hrouted hrest hr
    ((Index.slot_ne_iff_placed (by decide) hcut hrouted hrest hr).1 hslot)

/-- **A fragment hides the unsorted tail.** -/
theorem scanTail_fragment (hne : fragment ≠ []) (key : Bytes) :
    Index.scanTail (i.bytes ++ fragment) Header.length key = none := by
  obtain ⟨front, last, rfl⟩ : ∃ front last, fragment = front ++ [last] :=
    ⟨_, _, (List.dropLast_append_getLast hne).symm⟩
  have hlast : last ≠ newline := fun h => hf (by rw [h]; simp)
  rw [Index.scanTail, drop_bytes_append, List.reverse_append, List.reverse_concat,
    List.cons_append, Index.scanBack, if_neg hlast]

end Fragment

/-- **A sort places every record**, whatever slots the lines had. -/
theorem Whole.ordered_sorted {i : Image} {fragment : Bytes} (hi : i.Whole) (hf : newline ∉ fragment)
    (hsmall : i.bytes.length < UInt32.size) (now : Nat) : (i.sorted now).Ordered ∧
      ∀ r ∈ liveRecordsFrom Header.length ((i.sorted now).bytes ++ fragment), r.slot ≠ unsorted := by
  have hrouted : Index.Routed (Index.entries (linesAt Header.length i.sortTexts)) :=
    Index.routed_fillSlots hi.line (by rw [← length_bytes]; omega)
  have hwhole := hi.sorted now
  refine ⟨⟨hwhole, i.sortTexts, [], (List.append_nil _).symm, hrouted, by simp⟩, ?_⟩
  intro r hr
  exact (Index.slot_ne_iff_placed (by decide) (hwhole.lines_append fragment) hrouted
    (fun text ht => Or.inl (hasSlot_of_mem_lines hf ht)) hr).2 (hwhole.toLine_mem hf hr)

/-- A sort leaves the records as they are, apart from their slots. -/
theorem Ordered.rests_sorted {i : Image} {fragment : Bytes} (hi : i.Ordered) (hf : newline ∉ fragment)
    (hsmall : i.bytes.length < UInt32.size) (now : Nat) : (i.sorted now).Ordered ∧
      Rests (i.bytes ++ fragment) ((i.sorted now).bytes ++ fragment) := by
  obtain ⟨hordered, hplaced⟩ := hi.ordered_sorted hf hsmall now
  refine ⟨hordered, ?_, ?_, Or.inr hplaced⟩
  · rw [List.length_append, List.length_append, length_sorted]
  · rw [hordered.bareRecords_fragment hf, hi.bareRecords_fragment hf]
    exact bareAt_fillSlots hi.line _ _

end Image

end RecordStore
