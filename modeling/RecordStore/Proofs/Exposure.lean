import Mathlib.Tactic.Common
import RecordStore.Proofs.Conduct
import RecordStore.Proofs.Turns

/-!
# What an append shows of an unfinished line

The last line of a file may lack its newline and claim to be live.  An append gives it the newline
first and the dead flag after that.  So long as the newline is missing the line is not complete, and
once the flag is written it is not live; but in between it is whatever its bytes say, a live record
among other things.

* `ShowsAt` — a complete, live record starts at an offset.

Principal results: `Wrote.seals` — the writes of an append behind such a line;
`Store.torn_line_shows_once` — where they may be cut off with the line showing as a record.
-/

set_option autoImplicit false

namespace RecordStore

/-! ## A record that shows -/

/-- A complete, live record starts here. -/
def ShowsAt (bytes : Bytes) (start : Nat) : Prop :=
  ∃ r ∈ liveRecordsFrom Header.length bytes, r.offset = start

theorem showsAt_iff {bytes : Bytes} {start : Nat} : ShowsAt bytes start ↔
    ∃ r : Record, Complete bytes r.toLine ∧ r.isLive = true ∧ r.offset = start := by
  simp only [ShowsAt, mem_liveRecordsFrom_iff, Complete, and_assoc]

theorem LiveAt.showsAt {bytes : Bytes} {span : Span} (h : LiveAt bytes span) :
    ShowsAt bytes span.offset := by
  obtain ⟨r, hr, hlive, rfl⟩ := h
  exact showsAt_iff.2 ⟨r, hr, by simp [Record.isLive, hlive], rfl⟩

/-- What shows in a front part of a file shows in the file. -/
theorem ShowsAt.of_take {bytes : Bytes} {n start : Nat} (h : ShowsAt (bytes.take n) start) :
    ShowsAt bytes start := by
  obtain ⟨r, hr, hlive, hoff⟩ := showsAt_iff.1 h
  exact showsAt_iff.2 ⟨r, (complete_take_iff.1 hr).1, hlive, hoff⟩

section ShowsAt

variable {bytes front fragment : Bytes}

/-- A line without its newline shows nothing. -/
theorem not_showsAt_of_open (hopen : newline ∉ fragment) :
    ¬ ShowsAt (front ++ fragment) front.length := by
  intro h
  obtain ⟨r, hr, -, hoff⟩ := showsAt_iff.1 h
  obtain ⟨-, -, hline, hpre⟩ := complete_iff.1 hr
  rw [show r.toLine.offset = front.length from hoff, List.drop_left] at hpre
  exact hopen (hpre.subset (newline_mem_of_endsLine hline.endsLine))

/-- A dead line shows nothing. -/
theorem not_showsAt_of_dead {start : Nat} (hdead : bytes[start]? = some deadFlag) :
    ¬ ShowsAt bytes start := by
  intro h
  obtain ⟨r, hr, hlive, rfl⟩ := showsAt_iff.1 h
  have hfirst := hr.getElem? hr.isLine.length_pos
  rw [Nat.add_zero, hdead, ← List.head?_eq_getElem?] at hfirst
  rw [Record.isLive, ← hfirst] at hlive
  exact absurd hlive (by decide)

/-- The newline leaves the flag as it is. -/
theorem head?_closed (hlive : fragment.head? = some liveFlag) :
    (fragment ++ [newline]).head? = some liveFlag := by
  rw [List.head?_append, hlive]
  rfl

/-- **A line that just got its newline shows** if it is a well-formed record. -/
theorem showsAt_closed_iff (hlong : Header.length ≤ front.length) (hend : endsLine front = true)
    (hopen : newline ∉ fragment) (hlive : fragment.head? = some liveFlag) :
    ShowsAt (front ++ (fragment ++ [newline])) front.length ↔
      defect? (fragment ++ [newline]) = none := by
  have hline : IsLine (fragment ++ [newline]) := ⟨fragment, hopen, rfl⟩
  rw [showsAt_iff]
  constructor
  · rintro ⟨r, hr, -, hoff⟩
    obtain ⟨-, -, hrline, hpre⟩ := complete_iff.1 hr
    rw [show r.toLine.offset = front.length from hoff, List.drop_left,
      ← takeLine_eq_iff hrline] at hpre
    have hself := takeLine_append hline []
    rw [List.append_nil, hpre] at hself
    exact hself ▸ r.wellFormed
  · intro hwell
    refine ⟨⟨⟨front.length, fragment ++ [newline]⟩, hwell⟩, complete_iff.2 ⟨hlong, ?_, hline, ?_⟩,
      ?_, rfl⟩
    · exact .inr (getElem?_sub_one_of_endsLine hend _)
    · exact ⟨[], by rw [List.append_nil, List.drop_left]⟩
    · simp [Record.isLive, head?_closed hlive]

end ShowsAt

/-! ## Writes before, at and behind the line -/

namespace Patch

/-- A write that leaves a dead flag where it stands: it does not reach it, or writes it again. -/
def Spares (start : Nat) (patch : Patch) : Prop :=
  patch.data = [deadFlag] ∨ ¬ (patch.offset ≤ start ∧ start < patch.offset + patch.data.length)

theorem getElem?_apply_of_out {patch : Patch} {bytes : Bytes} {i : Nat} (hi : i < bytes.length)
    (hout : ¬ (patch.offset ≤ i ∧ i < patch.offset + patch.data.length)) :
    (patch.apply bytes)[i]? = bytes[i]? := by
  by_cases hle : patch.offset ≤ i
  · rw [getElem?_apply (show patch.offset + patch.data.length ≤ bytes.length by omega), if_neg hout]
  · have htake := take_apply (show i + 1 ≤ patch.offset by omega) (show i + 1 ≤ bytes.length by omega)
    have hget := congrArg (·[i]?) htake
    rwa [List.getElem?_take_of_lt (Nat.lt_succ_self i),
      List.getElem?_take_of_lt (Nat.lt_succ_self i)] at hget

theorem Spares.dead {patch : Patch} {bytes : Bytes} {start : Nat} (h : patch.Spares start)
    (hdead : bytes[start]? = some deadFlag) : (patch.apply bytes)[start]? = some deadFlag := by
  have hlt := (List.getElem?_eq_some_iff.1 hdead).1
  by_cases hin : patch.offset ≤ start ∧ start < patch.offset + patch.data.length
  · have hdata := h.resolve_right (not_not.2 hin)
    rw [hdata, List.length_singleton] at hin
    rw [getElem?_apply (show patch.offset + patch.data.length ≤ bytes.length by
      rw [hdata, List.length_singleton]; omega), hdata, List.length_singleton, if_pos hin,
      show start - patch.offset = 0 by omega]
    rfl
  · rw [getElem?_apply_of_out hlt hin, hdead]

theorem dead_applyAll {patches : List Patch} {bytes : Bytes} {start : Nat}
    (h : ∀ patch ∈ patches, patch.Spares start) (hdead : bytes[start]? = some deadFlag) :
    (applyAll patches bytes)[start]? = some deadFlag := by
  induction patches generalizing bytes with
  | nil => exact hdead
  | cons patch more ih =>
    rw [List.forall_mem_cons] at h
    exact ih h.2 (h.1.dead hdead)

/-- Writes that end before the last byte of a front part change nothing else. -/
theorem applyAll_front {patches : List Patch} {front : Bytes} (hend : endsLine front = true)
    (h : ∀ patch ∈ patches, patch.offset + patch.data.length < front.length) (rest : Bytes) :
    ∃ front', front'.length = front.length ∧ endsLine front' = true ∧
      applyAll patches (front ++ rest) = front' ++ rest := by
  induction patches generalizing front with
  | nil => exact ⟨front, rfl, hend, rfl⟩
  | cons patch more ih =>
    rw [List.forall_mem_cons] at h
    have hfits : patch.Fits front := Nat.le_of_lt h.1
    have hlen := length_apply hfits
    have hlast : endsLine (patch.apply front) = true := by
      rw [endsLine, List.getLast?_eq_getElem?, hlen, getElem?_apply hfits, if_neg (by omega),
        ← List.getLast?_eq_getElem?]
      exact hend
    obtain ⟨front', hfront', hend', happly⟩ := ih hlast (by rw [hlen]; exact h.2)
    exact ⟨front', hfront'.trans hlen, hend', by rw [applyAll_cons, apply_front hfits, happly]⟩

end Patch

/-- A complete line ends before an unfinished one starts. -/
theorem Complete.end_le_front {front fragment : Bytes} {line : Line} (hopen : newline ∉ fragment)
    (h : Complete (front ++ fragment) line) : line.offset + line.text.length ≤ front.length := by
  have hpos := h.isLine.length_pos
  by_contra hlate
  have hlast := h.getElem? (Nat.sub_lt hpos Nat.one_pos)
  have hend := h.2
  rw [endsLine, List.getLast?_eq_getElem?, beq_iff_eq] at hend
  rw [hend, List.getElem?_append_right (by omega)] at hlast
  exact hopen (List.mem_of_getElem? hlast)

section Behind

variable {s s₂ s' : Session} {front fragment key : Bytes} {waited : Option Span}

/-- **A sort ends before an unfinished last line**, as far as the session sees. -/
theorem Session.Mapped.sort_before (hs : s.Mapped) (hbytes : s.file.bytes = front ++ fragment)
    (hopen : newline ∉ fragment) (hlong : Header.length ≤ front.length) :
    ∀ patch ∈ s.sortPatches, patch.offset + patch.data.length < front.length := by
  intro patch hpatch
  rcases List.mem_append.1 hpatch with hslot | hcounter
  · obtain ⟨⟨offset, target⟩, hplace, rfl⟩ := List.mem_map.1 hslot
    obtain ⟨line, hline, rfl⟩ := List.mem_map.1 (List.of_mem_zip hplace).1
    obtain ⟨hmem, hhas⟩ := List.mem_filter.1 hline
    have hlt := Index.keyAt_lt_of_hasSlot hhas
    have hend : endsLine line.text = true := by
      simp only [hasSlot, Bool.and_eq_true] at hhas
      exact hhas.1.2
    rw [hs.headLen] at hmem
    have hcomplete : Complete (s.file.bytes.take s.handle.view.length) line := ⟨hmem, hend⟩
    have hbefore := (hbytes ▸ (complete_take_iff.1 hcomplete).1).end_le_front hopen
    simp only [Hex.length_word, slotAt, Hex.wordLen, keyAt] at hlt ⊢
    omega
  · have hwide : Header.sinceSortAt + Hex.wordLen < Header.length := by decide
    have hstamp : Header.modifiedAt + Hex.wordLen < Header.length := by decide
    simp only [List.mem_cons, List.not_mem_nil, or_false] at hcounter
    rcases hcounter with rfl | rfl
    · exact Nat.lt_of_lt_of_le hwide hlong
    · exact Nat.lt_of_lt_of_le hstamp hlong

/-- What an append up to its line has written: the writes of a sort, or nothing. -/
theorem Prepared.journal {old : Option Span} {count : UInt32} (h : Prepared s key old count s₂)
    (hs : s.Mapped) (hbytes : s.file.bytes = front ++ fragment) (hopen : newline ∉ fragment)
    (hlong : Header.length ≤ front.length) : ∃ sorting, s₂.journal = s.journal ++ sorting ∧
      s₂.file.bytes = Patch.applyAll sorting s.file.bytes ∧
      ∀ patch ∈ sorting, patch.offset + patch.data.length < front.length := by
  cases h with
  | rested read rested looks fresh =>
    exact ⟨[], (List.append_nil _).symm, rfl, by simp⟩
  | @sorted h count read overdue looks fresh =>
    have hmapped : (s.withHandle h).Mapped := hs.of_looks (.withHandle looks)
    exact ⟨(s.withHandle h).sortPatches, (s.withHandle h).writeAll_journal _,
      (s.withHandle h).writeAll_bytes _, hmapped.sort_before hbytes hopen hlong⟩

/-- The writes that close the last line. -/
theorem sealPatches_eq (hend : endsLine front = true) (hopen : newline ∉ fragment)
    (hlive : fragment.head? = some liveFlag) {headLen : Nat} (hlong : headLen ≤ front.length) :
    sealPatches (front ++ fragment) headLen =
      [⟨front.length + fragment.length, [newline]⟩, ⟨front.length, [deadFlag]⟩] := by
  have hwhole := wholeLines_append hend hopen
  have hline : openLine (front ++ fragment) = fragment := by
    have hjoin := wholeLines_append_openLine (front ++ fragment)
    rw [hwhole] at hjoin
    exact List.append_cancel_left hjoin
  unfold sealPatches
  dsimp only
  rw [hwhole, hline, if_pos ⟨hlong, hlive⟩, List.length_append]

/-- **Closing the last line** is two writes, and makes the file one byte longer. -/
theorem Session.sealed_journal (hbytes : s.file.bytes = front ++ fragment)
    (hend : endsLine front = true) (hopen : newline ∉ fragment)
    (hlive : fragment.head? = some liveFlag) (hlong : s.handle.headLen ≤ front.length) :
    s.sealed.journal = s.journal ++
        [⟨front.length + fragment.length, [newline]⟩, ⟨front.length, [deadFlag]⟩] ∧
      front.length < s.sealed.file.bytes.length := by
  have hne : fragment ≠ [] := by
    rintro rfl
    cases hlive
  have hnot : ¬ endsLine s.file.bytes = true := by
    rw [hbytes, endsLine_append hne]
    exact fun h => hopen (newline_mem_of_endsLine h)
  have hpatches := sealPatches_eq hend hopen hlive hlong
  have hgrown := SessionM.length_sealPatches s.file.bytes s.handle.headLen
  rw [← s.writeAll_bytes] at hgrown
  rw [← hbytes] at hpatches
  unfold Session.sealed
  rw [if_neg hnot]
  refine ⟨?_, ?_⟩
  · rw [← hpatches]
    exact s.writeAll_journal _
  · show front.length < (s.writeAll _).file.bytes.length
    rw [hgrown, hbytes, List.length_append]
    omega

/-- The counters are in the header, and the last write is a death. -/
theorem spares_publishPatches {start : Nat} (hlong : Header.length ≤ start) (seq count : UInt32)
    (old : Option Span) : ∀ patch ∈ publishPatches seq count old, patch.Spares start := by
  have hseq : Header.appendSeqAt + Hex.wordLen ≤ Header.length := by decide
  have hsince : Header.sinceSortAt + Hex.wordLen ≤ Header.length := by decide
  intro patch hpatch
  simp only [publishPatches, List.mem_append, List.mem_cons, List.not_mem_nil, or_false,
    Option.mem_toList, Option.map_eq_some_iff] at hpatch
  rcases hpatch with (rfl | rfl) | ⟨span, -, rfl⟩
  · refine .inr fun hin => ?_
    have hlt : start < Header.appendSeqAt + Hex.wordLen := hin.2
    omega
  · refine .inr fun hin => ?_
    have hlt : start < Header.sinceSortAt + Hex.wordLen := hin.2
    omega
  · exact .inl rfl

/-- What an append behind an unfinished line writes, from the sort it may make to its own line. -/
theorem Prepared.line_journal {s₁ s₃ : Session} {old : Option Span} {count : UInt32}
    (hprepared : Prepared s₁ key old count s₂) (hs : s₁.Mapped)
    (hbytes : s₁.file.bytes = front ++ fragment) (hend : endsLine front = true)
    (hopen : newline ∉ fragment) (hlive : fragment.head? = some liveFlag)
    (hlong : Header.length ≤ front.length) (hlocked : s₂.sealed.Relocks s₃) (line : Bytes) :
    ∃ sorting own, (s₃.writeLine line).journal = s₁.journal ++ (sorting ++
        [⟨front.length + fragment.length, [newline]⟩, ⟨front.length, [deadFlag]⟩, own]) ∧
      (∀ patch ∈ sorting, patch.offset + patch.data.length < front.length) ∧
      own.Spares front.length := by
  obtain ⟨sorting, hjournal, hsorted, hbefore⟩ := hprepared.journal hs hbytes hopen hlong
  obtain ⟨front', hlen, hend', happly⟩ := Patch.applyAll_front hend hbefore fragment
  rw [hbytes, happly] at hsorted
  have hheadLen := (hprepared.mapped hs).headLen
  obtain ⟨hsealed, hgrown⟩ := Session.sealed_journal hsorted hend' hopen hlive
    (by rw [hheadLen, hlen]; exact hlong)
  rw [hlen] at hsealed hgrown
  refine ⟨sorting, ⟨s₃.file.bytes.length, line⟩, ?_, hbefore, .inr fun hin => ?_⟩
  · show s₃.journal ++ _ = _
    rw [hlocked.looks.journal, hsealed, hjournal]
    simp
  · have hle := hin.1
    rw [hlocked.looks.bytes] at hle
    exact absurd hgrown (Nat.not_lt.2 hle)

end Behind

/-- A value that is patched in place stays inside what was read. -/
theorem Record.fits_fieldSpan? {data : Bytes} {offset : Nat} {r : Record} {name new : Bytes}
    {place : Span} (hdec : decode data offset = .ok r) (hplace : r.fieldSpan? name = some place)
    (hlen : place.length = new.length) : (⟨offset + place.offset, new⟩ : Patch).Fits data := by
  obtain ⟨hlt, -, htext⟩ := decode_eq_ok_iff.1 hdec
  obtain ⟨front, value, rest, hvalue⟩ := exists_valueAt hplace
  obtain ⟨pre, hsplit, hpre⟩ := hvalue.exists_split (keyAt_lt_of_defect? r.wellFormed)
  have hold : value.length = new.length := by rw [← hlen, hvalue.place_eq]
  have hcount := length_takeLine_add_length_dropLine (data.drop offset)
  rw [htext, hsplit, List.length_append, List.length_append, List.length_drop] at hcount
  show offset + place.offset + new.length ≤ data.length
  omega

/-- **The writes of an append behind an unfinished line that claims to be live**: those of a sort,
which end before the line; its newline; its dead flag; and others that leave that flag. -/
theorem Wrote.seals {s : Session} {request : WriteRequest} {waited : Option Span}
    {front fragment : Bytes} {act : SessionM Progress} (h : Wrote s request waited (act s))
    (hs : s.Mapped) (hbytes : s.file.bytes = front ++ fragment) (hend : endsLine front = true)
    (hopen : newline ∉ fragment) (hlive : fragment.head? = some liveFlag)
    (hlong : Header.length ≤ front.length)
    (hgrows : s.file.bytes.length < (SessionM.final act s).file.bytes.length) :
    ∃ sorting later, (SessionM.final act s).journal = s.journal ++ (sorting ++
        ⟨front.length + fragment.length, [newline]⟩ :: ⟨front.length, [deadFlag]⟩ :: later) ∧
      (∀ patch ∈ sorting, patch.offset + patch.data.length < front.length) ∧
      ∀ patch ∈ later, patch.Spares front.length := by
  generalize hresult : act s = result at h
  cases h with
  | waiting waits =>
    rw [SessionM.final_ok hresult, waits.looks.bytes] at hgrows
    exact absurd hgrows (Nat.lt_irrefl _)
  | refused looks kept =>
    rw [SessionM.final_error hresult, looks.bytes] at hgrows
    exact absurd hgrows (Nat.lt_irrefl _)
  | untouched looks aims fieldless =>
    rw [SessionM.final_ok hresult, looks.bytes] at hgrows
    exact absurd hgrows (Nat.lt_irrefl _)
  | @patched s₁ _ span place r field looks aims named record placed fits relocks =>
    have hfits : (⟨span.offset + place.offset, field.value⟩ : Patch).Fits s₁.file.bytes :=
      Nat.le_trans (Record.fits_fieldSpan? record placed fits) (List.length_take_le' _ _)
    have hlen : ((⟨span.offset + place.offset, field.value⟩ : Patch).apply s₁.file.bytes).length =
        s₁.file.bytes.length := Patch.length_apply hfits
    rw [SessionM.final_ok hresult, relocks.looks.bytes] at hgrows
    rw [← s₁.write_bytes, looks.bytes] at hlen
    exact absurd hgrows (Nat.lt_irrefl _ <| hlen ▸ ·)
  | present looks prepared fieldless relocks =>
    rw [SessionM.final_ok hresult, relocks.looks.bytes, prepared.length_eq (hs.of_looks looks),
      looks.bytes] at hgrows
    exact absurd hgrows (Nat.lt_irrefl _)
  | damaged looks prepared other relocks =>
    rw [SessionM.final_error hresult, relocks.looks.bytes, prepared.length_eq (hs.of_looks looks),
      looks.bytes] at hgrows
    exact absurd hgrows (Nat.lt_irrefl _)
  | @stranded s₁ s₂ s₃ _ old count line strands looks prepared drafted locked relocks =>
    obtain ⟨sorting, own, hjournal, hbefore, hown⟩ := prepared.line_journal (hs.of_looks looks)
      (looks.bytes.trans hbytes) hend hopen hlive hlong locked line
    refine ⟨sorting, [own], ?_, hbefore, by simpa using hown⟩
    rw [SessionM.final_error hresult, relocks.looks.journal, hjournal, looks.journal]
  | @published s₁ s₂ s₃ _ old count seq line looks prepared drafted locked read relocks =>
    obtain ⟨sorting, own, hjournal, hbefore, hown⟩ := prepared.line_journal (hs.of_looks looks)
      (looks.bytes.trans hbytes) hend hopen hlive hlong locked line
    have hpublish : ((s₃.writeLine line).publish seq count old).journal =
        (s₃.writeLine line).journal ++ publishPatches seq count old :=
      (s₃.writeLine line).writeAll_journal _
    refine ⟨sorting, own :: publishPatches seq count old, ?_, hbefore,
      List.forall_mem_cons.2 ⟨hown, spares_publishPatches hlong seq count old⟩⟩
    rw [SessionM.final_ok hresult, relocks.looks.journal, hpublish, hjournal, looks.journal]
    simp

/-! ## Where the line shows -/

section Cut

variable {front fragment : Bytes} {sorting later : List Patch} (hend : endsLine front = true)
  (hopen : newline ∉ fragment) (hlive : fragment.head? = some liveFlag)
  (hlong : Header.length ≤ front.length)
  (hbefore : ∀ patch ∈ sorting, patch.offset + patch.data.length < front.length)
  (hspares : ∀ patch ∈ later, patch.Spares front.length)

include hend hbefore

/-- Up to its newline, the line stays as it is behind lines that keep their length. -/
theorem cut_open {n : Nat} (hn : n ≤ sorting.length) : ∃ front', front'.length = front.length ∧
    endsLine front' = true ∧ Patch.applyAll ((sorting ++ ⟨front.length + fragment.length,
      [newline]⟩ :: ⟨front.length, [deadFlag]⟩ :: later).take n) (front ++ fragment) =
        front' ++ fragment := by
  rw [List.take_append_of_le_length hn]
  exact Patch.applyAll_front hend (fun patch hpatch => hbefore patch (List.mem_of_mem_take hpatch)) _

/-- Then it has its newline. -/
theorem cut_closed (k : Nat) : ∃ front', front'.length = front.length ∧ endsLine front' = true ∧
    Patch.applyAll ((sorting ++ ⟨front.length + fragment.length,
      [newline]⟩ :: ⟨front.length, [deadFlag]⟩ :: later).take (sorting.length + (k + 1)))
        (front ++ fragment) =
      Patch.applyAll ((⟨front.length, [deadFlag]⟩ :: later).take k)
        (front' ++ (fragment ++ [newline])) := by
  obtain ⟨front', hlen, hend', happly⟩ := Patch.applyAll_front hend hbefore fragment
  refine ⟨front', hlen, hend', ?_⟩
  rw [List.take_length_add_append, List.take_succ_cons, Patch.applyAll_append, happly,
    Patch.applyAll_cons, ← hlen, ← List.length_append, Patch.apply_end, List.append_assoc]

include hopen hlive hlong hspares

/-- **The line shows directly behind the write of its newline**, and nowhere else. -/
theorem showsAt_cut_iff (n : Nat) : ShowsAt (Patch.applyAll ((sorting ++
      ⟨front.length + fragment.length, [newline]⟩ :: ⟨front.length, [deadFlag]⟩ :: later).take n)
        (front ++ fragment)) front.length ↔
    n = sorting.length + 1 ∧ defect? (fragment ++ [newline]) = none := by
  rcases Nat.lt_or_ge sorting.length n with hlate | hearly
  · obtain ⟨k, rfl⟩ : ∃ k, n = sorting.length + (k + 1) := ⟨n - (sorting.length + 1), by omega⟩
    obtain ⟨front', hlen, hend', hcut⟩ := @cut_closed front fragment sorting later hend hbefore k
    rw [hcut]
    cases k with
    | zero =>
      -- the newline is there, the dead flag is not
      rw [List.take_zero, ← hlen]
      exact (showsAt_closed_iff (hlen ▸ hlong) hend' hopen hlive).trans (by simp)
    | succ k =>
      have hfits : (⟨front.length, [deadFlag]⟩ : Patch).Fits (front' ++ (fragment ++ [newline])) := by
        simp only [Patch.Fits, List.length_append, List.length_singleton]
        omega
      have hdead : ((⟨front.length, [deadFlag]⟩ : Patch).apply
          (front' ++ (fragment ++ [newline])))[front.length]? = some deadFlag := by
        rw [Patch.getElem?_apply hfits, if_pos ⟨Nat.le_refl _, Nat.lt_succ_self _⟩, Nat.sub_self]
        rfl
      rw [List.take_succ_cons, Patch.applyAll_cons]
      have hstays : (Patch.applyAll (later.take k) _)[front.length]? = some deadFlag :=
        Patch.dead_applyAll (fun patch hpatch => hspares patch (List.mem_of_mem_take hpatch)) hdead
      exact ⟨fun h => absurd h (not_showsAt_of_dead hstays), fun h => absurd h.1 (by omega)⟩
  · -- the newline is still missing
    obtain ⟨front', hlen, -, hcut⟩ := @cut_open front fragment sorting later hend hbefore n hearly
    rw [hcut, ← hlen]
    exact ⟨fun h => absurd h (not_showsAt_of_open hopen), fun h => absurd h.1 (by omega)⟩

end Cut

/-- The last line of a file is the first that a walk back through its tail comes to. -/
theorem Index.scanTail_closed {front fragment : Bytes} (hlong : Header.length ≤ front.length)
    (hend : endsLine front = true) (hopen : newline ∉ fragment)
    (hlive : fragment.head? = some liveFlag) (hwell : defect? (fragment ++ [newline]) = none)
    (hslot : slot? (fragment ++ [newline]) = some unsorted) :
    scanTail (front ++ (fragment ++ [newline])) Header.length (keyOf (fragment ++ [newline])) =
      some ⟨front.length, fragment.length + 1⟩ := by
  have hline : IsLine (fragment ++ [newline]) := ⟨fragment, hopen, rfl⟩
  have hbehind : front.drop Header.length = [] ∨ endsLine (front.drop Header.length) = true := by
    by_cases hnil : front.drop Header.length = []
    · exact .inl hnil
    · right
      rw [← List.take_append_drop Header.length front, endsLine_append hnil] at hend
      exact hend
  obtain ⟨texts, hlines, htexts⟩ := exists_flatten_of_endsLine hbehind
  have hdata : (front ++ (fragment ++ [newline])).drop Header.length =
      (texts ++ [fragment ++ [newline]]).flatten := by
    rw [List.drop_append_of_le_length hlong, htexts, List.flatten_append, List.flatten_singleton]
  have hall : ∀ text ∈ texts ++ [fragment ++ [newline]], IsLine text := by
    intro text htext
    rcases List.mem_append.1 htext with htext | htext
    · exact hlines text htext
    · exact List.mem_singleton.1 htext ▸ hline
  have hcount := congrArg List.length htexts
  rw [List.length_drop] at hcount
  have hlast : linesAt (Header.length + texts.flatten.length) [fragment ++ [newline]] =
      [⟨front.length, fragment ++ [newline]⟩] := by
    rw [linesAt, linesAt, show Header.length + texts.flatten.length = front.length by omega]
  have hrecord : Record.ofLine? ⟨front.length, fragment ++ [newline]⟩ =
      some ⟨⟨front.length, fragment ++ [newline]⟩, hwell⟩ :=
    Record.ofLine?_eq_some_iff.2 ⟨hwell, rfl⟩
  have hflag : (⟨⟨front.length, fragment ++ [newline]⟩, hwell⟩ : Record).isLive = true := by
    simp [Record.isLive, head?_closed hlive]
  rw [scanTail_eq_latest? hall hdata (by rw [List.length_append]; omega), linesFrom, hdata,
    lines_flatten hall, linesAt_append, hlast, List.reverse_append, List.reverse_singleton,
    List.singleton_append, latest?, hrecord]
  dsimp only
  rw [if_neg (by simp [Record.slot, hslot]), if_pos ⟨hflag, rfl⟩]
  simp [Record.span, Line.span]

namespace Store

/-- **An append shows an unfinished line that claims to be live at one point only**: after the write
of its newline and before that of its dead flag.  There the line is a complete live record if its
bytes are those of one, and if it carries no slot it is what a reader finds first.  Cut off anywhere
else, the append leaves nothing at that place that any reader finds, however old its mapping is. -/
theorem torn_line_shows_once {store : Store} {turn : Turn} {handle : Handle}
    {request : WriteRequest} {pending : Option Stage}
    (hruns : store.Runs turn handle (.write request) pending)
    (hpending : (Call.write request).Pending pending) (hmapped : handle.Mapped store.file.bytes)
    (hsmall : store.file.bytes.length < UInt32.size) {front fragment : Bytes}
    (hbytes : store.file.bytes = front ++ fragment) (hend : endsLine front = true)
    (hopen : newline ∉ fragment) (hlive : fragment.head? = some liveFlag)
    (hheader : store.file.bytes[Header.length - 1]? = some newline)
    (happends : store.file.bytes.length < (store.serve turn).1.file.bytes.length) :
    ∃ sorting later, store.journal turn = sorting ++
        ⟨store.file.bytes.length, [newline]⟩ :: ⟨front.length, [deadFlag]⟩ :: later ∧
      (∀ n, ShowsAt (Patch.applyAll ((store.journal turn).take n) store.file.bytes) front.length ↔
        n = sorting.length + 1 ∧ defect? (fragment ++ [newline]) = none) ∧
      (defect? (fragment ++ [newline]) = none →
        slot? (fragment ++ [newline]) = some unsorted → Index.scanTail
          (Patch.applyAll ((store.journal turn).take (sorting.length + 1)) store.file.bytes)
            Header.length (keyOf (fragment ++ [newline])) =
          some ⟨front.length, fragment.length + 1⟩) ∧
      ∀ n, n ≠ sorting.length + 1 → ∀ reader : Handle,
        reader.Steady (Patch.applyAll ((store.journal turn).take n) store.file.bytes) →
        ∀ key span, reader.find? (reader.view.read
          (Patch.applyAll ((store.journal turn).take n) store.file.bytes)) key = some span →
            span.offset ≠ front.length := by
  have hlong : Header.length ≤ front.length := by
    by_contra hshort
    rw [hbytes, List.getElem?_append_right (by omega)] at hheader
    exact hopen (List.mem_of_getElem? hheader)
  have hran := (Call.stretch_ran (s := store.session turn.now turn.holder handle) hmapped
    (Session.lockable_of_small hsmall) hpending).wrote
  rw [hruns.serve, settleCall_file] at happends
  obtain ⟨sorting, later, hjournal, hbefore, hspares⟩ :=
    hran.seals hmapped hbytes hend hopen hlive hlong happends
  rw [← hruns.journal, show (store.session turn.now turn.holder handle).journal = [] from rfl,
    List.nil_append] at hjournal
  have hshows := showsAt_cut_iff hend hopen hlive hlong hbefore hspares
  rw [← hjournal, ← hbytes] at hshows
  refine ⟨sorting, later, ?_, hshows, fun hwell hslot => ?_, ?_⟩
  · rw [hjournal, hbytes, List.length_append]
  · obtain ⟨front', hlen, hend', hcut⟩ := @cut_closed front fragment sorting later hend hbefore 0
    rw [hjournal, hbytes, hcut, List.take_zero, ← hlen]
    exact Index.scanTail_closed (hlen ▸ hlong) hend' hopen hlive hwell hslot
  · intro n hn reader hsteady key span hfound heq
    exact hn ((hshows n).1 (heq ▸ (hsteady.find?_sound hfound).showsAt.of_take)).1

/-- The start of a record of `k`, cut off in its value. -/
def halfWritten : Bytes := (encodeRecord (ascii ['k']) [⟨ascii ['f'], ascii ['1']⟩]).dropLast

/-- A record of `k` that no sort has placed. -/
def settled : Bytes :=
  { Header.fresh with appendSeq := 1, modified := 100, sinceSort := 1 }.encode
    ++ encodeRecord (ascii ['k']) [⟨ascii ['f'], ascii ['9']⟩]

/-- One client has the file with both open. -/
def halted : Store :=
  ((ofBytes (settled ++ halfWritten) 100).run [⟨100, 1, .opening (.ofPath Config.defaultPath)⟩]).1

/-- It appends a record of another key. -/
def appending : Turn :=
  ⟨200, 1, .call (.write ⟨ascii ['m'], some ⟨ascii ['f'], ascii ['2']⟩, .transient⟩)⟩

/-- Cut off behind its first write, the append leaves the unfinished value for the one there was. -/
theorem torn_line_shows_once_of_whole_record :
    halted.file.bytes = settled ++ halfWritten ∧
    ShowsAt (Patch.applyAll ((halted.journal appending).take 1) halted.file.bytes)
      settled.length ∧
    Index.scanTail (Patch.applyAll ((halted.journal appending).take 1) halted.file.bytes)
      Header.length (ascii ['k']) = some ⟨settled.length, halfWritten.length + 1⟩ ∧
    ¬ ShowsAt (Patch.applyAll (halted.journal appending) halted.file.bytes) settled.length := by
  have hbytes : halted.file.bytes = settled ++ halfWritten := by decide +kernel
  have hclient : halted.client? 1 =
      some (.idle ⟨.ofPath Config.defaultPath, Header.length, 1, ⟨76, 0⟩, none, false⟩) := by
    decide +kernel
  have hruns : halted.Runs appending
      ⟨.ofPath Config.defaultPath, Header.length, 1, ⟨76, 0⟩, none, false⟩
      (.write ⟨ascii ['m'], some ⟨ascii ['f'], ascii ['2']⟩, .transient⟩) none :=
    ⟨by simp only [running?, appending, hclient], hclient, by rintro stage ⟨⟩,
      by simp only [journal, appending, hclient]; rfl⟩
  obtain ⟨sorting, later, hjournal, hshows, hscan, -⟩ := torn_line_shows_once hruns (by rintro stage ⟨⟩)
    ⟨rfl, by decide +kernel, by decide +kernel⟩ (by decide +kernel) hbytes (by decide +kernel)
    (by decide +kernel) (by decide +kernel) (by decide +kernel) (by decide +kernel)
  -- nothing was sorted, so the newline is the first write
  have honly : ∀ i < 5, (halted.journal appending)[i]? =
      some ⟨halted.file.bytes.length, [newline]⟩ → i = 0 := by decide +kernel
  have hcount : (halted.journal appending).length = 5 := by decide +kernel
  have hnone : sorting.length = 0 := by
    have hlen := congrArg List.length hjournal
    rw [hcount, List.length_append, List.length_cons] at hlen
    refine honly sorting.length (by omega) ?_
    rw [hjournal, List.getElem?_append_right (Nat.le_refl _), Nat.sub_self]
    rfl
  rw [hnone] at hshows hscan
  have hwell : defect? (halfWritten ++ [newline]) = none := by decide +kernel
  refine ⟨hbytes, (hshows 1).2 ⟨by rfl, hwell⟩, hscan hwell (by decide +kernel), fun h => ?_⟩
  rw [← List.take_length (l := halted.journal appending), hcount] at h
  exact absurd ((hshows 5).1 h).1 (by decide)

end Store

end RecordStore
