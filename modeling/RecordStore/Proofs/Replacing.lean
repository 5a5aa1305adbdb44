import Mathlib.Tactic.Common
import RecordStore.Proofs.Exclusion
import RecordStore.Proofs.Fragments

/-!
# One line of a file exchanged

What a file writes down, line by line: a patch inside one line changes that line's record and no
other, a dead flag drops it, and a line at the end is one record more.  The lines around it need not
be records.

* `versionsIn` — the live records of a file, in order.

Principal results: `versionsIn_exchange` — a patch inside one record; `versionsIn_kill`,
`versionsIn_fieldSpan` — a dead flag and a new value; `Image.Whole.versionsIn_publish` — a line that
is written behind a closed fragment, with the record that it replaces.
-/

set_option autoImplicit false

namespace RecordStore

/-- The live records that some bytes write down. -/
def versionsIn (data : Bytes) : List Version :=
  (liveRecordsFrom Header.length data).map Record.version

theorem Version.of_bare (line : Line) : Version.of line.bare = Version.of line := by
  rw [Version.of, Version.of, Line.bare, keyOf_clearSlot, fieldsOf_clearSlot]

theorem versionsIn_eq (data : Bytes) : versionsIn data = (bareRecords data).map Version.of := by
  rw [versionsIn, bareRecords, List.map_map]
  refine List.map_congr_left fun r _ => ?_
  show r.version = Version.of r.toLine.bare
  rw [r.version_eq, Version.of_bare]

theorem versionsIn_congr {data data' : Bytes}
    (h : data'.drop Header.length = data.drop Header.length) : versionsIn data' = versionsIn data := by
  rw [versionsIn_eq, versionsIn_eq, bareRecords_congr h]

/-- The version of a line, if it is a live record. -/
theorem map_version_bareAt {text : Bytes} (h : isLiveRecord text = true) (start : Nat) :
    (bareAt start [text]).map Version.of = [⟨start, keyOf text, fieldsOf text⟩] := by
  rw [bareAt_cons_of_live h]
  exact congrArg (fun v => [v]) (Version.of_bare ⟨start, text⟩)

/-! ## One line exchanged -/

section Exchange

variable {data : Bytes}

/-- **A patch inside one line** exchanges that line for another one. -/
theorem bareRecords_exchange {line : Line} (hmem : line ∈ linesFrom Header.length data)
    (hline : IsLine line.text) {patch : Patch} (hfits : patch.Fits line.text)
    (hafter : IsLine (patch.apply line.text)) : ∃ before after,
      bareRecords data = before ++ bareAt line.offset [line.text] ++ after ∧
      bareRecords ((patch.shift line.offset).apply data) =
        before ++ bareAt line.offset [patch.apply line.text] ++ after := by
  obtain ⟨front, rest, hdrop, hfront, hne, htext, hoff⟩ := mem_linesAt_lines_iff.1 hmem
  have hrest : rest = line.text ++ dropLine rest := by rw [← htext, takeLine_append_dropLine]
  have hlong : Header.length ≤ data.length := by
    have hpos := List.length_pos_of_ne_nil hne
    have hlen := congrArg List.length hdrop
    rw [List.length_drop, List.length_append] at hlen
    omega
  have hhead : (data.take Header.length).length = Header.length := List.length_take_of_le hlong
  -- the lines before and after stand where they stood, whatever the line itself is
  have hcut : ∀ text : Bytes, IsLine text → text.length = line.text.length →
      bareRecords (data.take Header.length ++ front ++ (text ++ dropLine rest)) =
        bareAt Header.length (lines front) ++ bareAt line.offset [text] ++
          bareAt (line.offset + line.text.length) (lines (dropLine rest)) := by
    intro text ht hlen
    have hdrop' : (data.take Header.length ++ front ++ (text ++ dropLine rest)).drop Header.length =
        front ++ (text ++ dropLine rest) := by
      rw [List.append_assoc]
      exact List.drop_left' hhead
    rw [bareRecords_eq, hdrop', lines_append_of_endsLine hfront, lines_append ht, bareAt_append,
      ← List.singleton_append, bareAt_append, flatten_lines, ← hoff, List.append_assoc]
    simp [hlen]
  have hdata : data = data.take Header.length ++ front ++ (line.text ++ dropLine rest) := by
    rw [List.append_assoc, ← hrest, ← hdrop, List.take_append_drop]
  have happly : (patch.shift line.offset).apply data =
      data.take Header.length ++ front ++ (patch.apply line.text ++ dropLine rest) := by
    have hmid := Patch.apply_middle hfits (data.take Header.length ++ front) (dropLine rest)
    rw [List.length_append, hhead, ← hoff, ← hdata] at hmid
    exact hmid
  refine ⟨bareAt Header.length (lines front),
    bareAt (line.offset + line.text.length) (lines (dropLine rest)), ?_, ?_⟩
  · exact (congrArg bareRecords hdata).trans (hcut line.text hline rfl)
  · rw [happly]
    exact hcut _ hafter (Patch.length_apply hfits)

variable {r : Record} (hr : r ∈ liveRecordsFrom Header.length data)

include hr

/-- **A patch inside one record** changes that record's version and no other. -/
theorem versionsIn_exchange {patch : Patch} (hfits : patch.Fits r.text)
    (hafter : IsLine (patch.apply r.text)) : ∃ before after,
      versionsIn data = before ++ r.version :: after ∧
      versionsIn ((patch.shift r.offset).apply data) =
        before ++ (bareAt r.offset [patch.apply r.text]).map Version.of ++ after := by
  obtain ⟨hfrom, hend, hlive⟩ := mem_liveRecordsFrom_iff.1 hr
  obtain ⟨before, after, hbefore, hbare⟩ :=
    bareRecords_exchange hfrom (isLine_of_mem_liveRecords hr) hfits hafter
  have hrecord : isLiveRecord r.text = true := by
    rw [isLiveRecord, hend, r.wellFormed]
    exact hlive
  refine ⟨before.map Version.of, after.map Version.of, ?_, ?_⟩
  · rw [versionsIn_eq, hbefore, List.map_append, List.map_append, map_version_bareAt hrecord,
      List.append_assoc, r.version_eq]
    rfl
  · rw [versionsIn_eq, hbare, List.map_append, List.map_append]

/-- **A dead flag** drops the record. -/
theorem versionsIn_kill : ∃ before after, versionsIn data = before ++ r.version :: after ∧
    versionsIn ((⟨r.offset, [deadFlag]⟩ : Patch).apply data) = before ++ after := by
  have hline := isLine_of_mem_liveRecords hr
  obtain ⟨before, after, hbefore, hafter⟩ := versionsIn_exchange hr (Image.fits_dead hline.length_pos)
    (Image.replaces_deadText hline r.wellFormed).line
  have hdead : isLiveRecord (Image.deadText r.text) = false := by
    rw [isLiveRecord, Image.isLiveText_deadText hline.length_pos, Bool.and_false]
  have hnone : bareAt r.offset [Image.deadText r.text] = [] :=
    bareAt_of_forall_not (by simpa using hdead) r.offset
  rw [← Image.deadText, hnone, List.map_nil, List.append_nil] at hafter
  exact ⟨before, after, hbefore, hafter⟩

/-- **A value that fits** sets the field in place. -/
theorem versionsIn_fieldSpan {field : Field} (hfit : field.Fits) {place : Span}
    (hplace : r.fieldSpan? field.name = some place) (hlen : place.length = field.value.length) :
    ∃ before after, versionsIn data = before ++ r.version :: after ∧
      versionsIn ((⟨r.offset + place.offset, field.value⟩ : Patch).apply data) =
        before ++ ⟨r.offset, r.key, setField r.fields field⟩ :: after := by
  have hline := isLine_of_mem_liveRecords hr
  obtain ⟨hfits, hrep, hflag, hfields⟩ := Image.replaces_fieldSpan? hline hfit hplace hlen
  obtain ⟨before, after, hbefore, hafter⟩ := versionsIn_exchange hr hfits hrep.line
  have hrecord : isLiveRecord ((⟨place.offset, field.value⟩ : Patch).apply r.text) = true := by
    rw [isLiveRecord, hrep.line.endsLine, hrep.wellFormed, hflag]
    exact (mem_liveRecordsFrom_iff.1 hr).2.2
  rw [map_version_bareAt hrecord, hrep.key_eq, hfields, ← r.fields_eq, List.append_assoc] at hafter
  exact ⟨before, after, hbefore, hafter⟩

end Exchange

/-! ## A line published behind a closed fragment -/

/-- The counters stand in front of the records. -/
theorem drop_applyAll_counters {data : Bytes} (hlen : Header.length ≤ data.length)
    (seq count : UInt32) :
    (Patch.applyAll (publishPatches seq count none) data).drop Header.length =
      data.drop Header.length := by
  have hseq : (⟨Header.appendSeqAt, Hex.word (seq + 1)⟩ : Patch).Fits data := by
    simp only [Patch.Fits, Hex.length_word]
    exact Nat.le_trans (by decide) hlen
  have hcount : (⟨Header.sinceSortAt, Hex.word (countAppend count)⟩ : Patch).Fits
      ((⟨Header.appendSeqAt, Hex.word (seq + 1)⟩ : Patch).apply data) := by
    simp only [Patch.Fits, Hex.length_word, Patch.length_apply hseq]
    exact Nat.le_trans (by decide) hlen
  have hpatches : publishPatches seq count none = [⟨Header.appendSeqAt, Hex.word (seq + 1)⟩,
      ⟨Header.sinceSortAt, Hex.word (countAppend count)⟩] := rfl
  rw [hpatches, Patch.applyAll_cons, Patch.applyAll_cons, Patch.applyAll, List.foldl_nil,
    Patch.drop_apply hcount (by simp only [Hex.length_word]; decide),
    Patch.drop_apply hseq (by simp only [Hex.length_word]; decide)]

namespace Image.Whole

variable {i : Image} {fragment : Bytes}

theorem bareRecords_append (hi : i.Whole) (rest : Bytes) : bareRecords (i.bytes ++ rest) =
    bareAt Header.length i.texts ++
      bareAt (Header.length + i.texts.flatten.length) (RecordStore.lines rest) := by
  rw [bareRecords_eq, hi.lines_append, bareAt_append]

/-- A record among the whole lines is one whatever follows them. -/
theorem mem_liveRecords_append (hi : i.Whole) (rest : Bytes) {r : Record} (hmem : r.toLine ∈ i.lines)
    (hlive : r.isLive = true) : r ∈ liveRecordsFrom Header.length (i.bytes ++ rest) := by
  refine mem_liveRecordsFrom_iff.2 ⟨?_, (hi.line _ (text_mem hmem)).endsLine, hlive⟩
  rw [linesFrom, hi.lines_append, linesAt_append]
  exact List.mem_append_left _ hmem

/-- A line behind a closed fragment is one record more. -/
theorem versionsIn_concat (hi : i.Whole) (hf : newline ∉ fragment) (hne : fragment ≠ [])
    {line key : Bytes} {fields : List Field} (hfresh : FreshLine line key fields) :
    versionsIn (i.bytes ++ (closed fragment ++ line)) = versionsIn (i.bytes ++ fragment) ++
      [⟨i.bytes.length + (closed fragment).length, key, fields⟩] := by
  have hlines : RecordStore.lines (closed fragment ++ line) = [closed fragment] ++ [line] := by
    have hline := RecordStore.lines_append hfresh.line []
    rw [List.append_nil] at hline
    rw [RecordStore.lines_append (isLine_closed hf), hline]
    rfl
  have hclosed : bareAt (Header.length + i.texts.flatten.length) [closed fragment] = [] :=
    bareAt_of_forall_not (by simpa using isLiveRecord_closed hne) _
  rw [versionsIn_eq, versionsIn_eq, hi.bareRecords_append, hi.bareRecords_fragment hf, hlines,
    bareAt_append, hclosed, List.nil_append, List.map_append,
    map_version_bareAt (isLiveRecord_of_freshLine hfresh), hfresh.key_eq, hfresh.fields_eq,
    ← length_bytes]
  simp

/-- **A line is published** behind a closed fragment: one record more, and one less if it replaces
one. -/
theorem versionsIn_publish (hi : i.Whole) (hf : newline ∉ fragment) (hne : fragment ≠ [])
    {line key : Bytes} {fields : List Field} (hfresh : FreshLine line key fields)
    (seq count : UInt32) {old : Option Record}
    (hold : ∀ r, old = some r → r.toLine ∈ i.lines ∧ r.isLive = true) :
    ∃ before after offset, versionsIn (i.bytes ++ fragment) =
        before ++ (old.map Record.version).toList ++ after ∧
      versionsIn (Patch.applyAll (publishPatches seq count (old.map Record.span))
        (i.bytes ++ (closed fragment ++ line))) = before ++ after ++ [⟨offset, key, fields⟩] := by
  have hlong : Header.length ≤ (i.bytes ++ (closed fragment ++ line)).length := by
    rw [List.length_append, length_bytes, Nat.add_assoc]
    exact Nat.le_add_right _ _
  have hdrop := drop_applyAll_counters hlong seq count
  have hcounted := (versionsIn_congr hdrop).trans (hi.versionsIn_concat hf hne hfresh)
  cases old with
  | none => exact ⟨versionsIn (i.bytes ++ fragment), [], _, by simp, by simpa using hcounted⟩
  | some r =>
    obtain ⟨hmem, hlive⟩ := hold r rfl
    have hr := hi.mem_liveRecords_append (closed fragment ++ line) hmem hlive
    rw [← liveRecordsFrom_congr hdrop] at hr
    obtain ⟨before, after, hbefore, hafter⟩ := versionsIn_kill hr
    have hpatches : publishPatches seq count ((some r).map Record.span) =
        publishPatches seq count none ++ [⟨r.offset, [deadFlag]⟩] := rfl
    rw [hpatches, Patch.applyAll_append, Patch.applyAll_cons, Patch.applyAll, List.foldl_nil]
    -- the new line stands behind the record that dies
    have hother : r.version ≠ ⟨i.bytes.length + (closed fragment).length, key, fields⟩ := by
      intro hsame
      have hoff : r.offset = i.bytes.length + (closed fragment).length :=
        congrArg Version.offset hsame
      have hbound : r.offset + r.text.length ≤ i.bytes.length := (bounds_of_mem hmem).2
      have hpos := (hi.line _ (text_mem hmem)).length_pos
      omega
    rw [hcounted] at hbefore
    rcases List.append_eq_append_iff.1 hbefore with ⟨mid, -, hnew⟩ | ⟨mid, hfront, hrest⟩
    · have hin : r.version ∈ mid ++ r.version :: after := by simp
      rw [← hnew, List.mem_singleton] at hin
      exact absurd hin hother
    · cases mid with
      | nil => exact absurd (List.cons.inj hrest).1 hother
      | cons v more =>
        obtain ⟨rfl, rfl⟩ := List.cons.inj hrest
        exact ⟨before, more, i.bytes.length + (closed fragment).length, by simp [hfront],
          hafter.trans (List.append_assoc ..).symm⟩

end Image.Whole

end RecordStore
