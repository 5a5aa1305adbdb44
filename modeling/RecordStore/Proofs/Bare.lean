import Mathlib.Tactic.Common
import RecordStore.Append
import RecordStore.Proofs.Edits
import RecordStore.Trim

/-!
# Records apart from their slots

A sort changes the slots of lines and nothing that a reader is told.  Without its slot a live record
is the same before and after; this is what two files are compared by.

* `Line.bare` — a line without its slot; `bareRecords` — the live records of a file, bare.
* `bareAt` — those among some lines, the first of which stands at a given place.
* `closed` — a fragment once the line that it begins is closed.

Principal results: `bareRecords_append` — complete lines and what follows them; `bareAt_fillSlots` —
a sort changes none; `bareRecords_append_line` — a new line is one more; `applyAll_sealPatches` — a
closed fragment is none.
-/

set_option autoImplicit false

namespace RecordStore

/-- A line without its sort slot. -/
def Line.bare (line : Line) : Line := ⟨line.offset, clearSlot line.text⟩

/-- The complete, well-formed, live records of a file, in order, without their slots. -/
def bareRecords (data : Bytes) : List Line :=
  (liveRecordsFrom Header.length data).map fun r => r.toLine.bare

/-- Whether a line is a complete, well-formed, live record. -/
def isLiveRecord (text : Bytes) : Bool :=
  endsLine text && (defect? text).isNone && isLiveText text

/-- The live records among these lines, without their slots. -/
def bareAt (start : Nat) (texts : List Bytes) : List Line :=
  ((linesAt start texts).filter fun line => isLiveRecord line.text).map Line.bare

theorem map_bare_liveRecords (lines : List Line) :
    ((((lines.filter fun line => endsLine line.text).filterMap Record.ofLine?).filter
      Record.isLive).map fun r => r.toLine.bare) =
        (lines.filter fun line => isLiveRecord line.text).map Line.bare := by
  induction lines with
  | nil => rfl
  | cons line more ih =>
    rw [List.filter_cons, List.filter_cons]
    by_cases hend : endsLine line.text = true
    · rw [if_pos hend]
      by_cases hwell : defect? line.text = none
      · obtain ⟨r, hr⟩ : ∃ r : Record, r.toLine = line := ⟨⟨line, hwell⟩, rfl⟩
        have hof : Record.ofLine? line = some r := Record.ofLine?_eq_some_iff.2 ⟨hwell, hr⟩
        have hlive : isLiveRecord line.text = r.isLive := by
          rw [isLiveRecord, hend, hwell, ← hr]
          rfl
        rw [List.filterMap_cons_some hof, List.filter_cons, hlive]
        split
        · rw [List.map_cons, List.map_cons, ih, hr]
        · exact ih
      · have hof : Record.ofLine? line = none := by
          rw [Option.eq_none_iff_forall_ne_some]
          intro r hr
          exact hwell (Record.ofLine?_eq_some_iff.1 hr).1
        have hlive : isLiveRecord line.text = false := by simp [isLiveRecord, hwell]
        rw [List.filterMap_cons_none hof, hlive, ih]
        rfl
    · have hlive : isLiveRecord line.text = false := by simp [isLiveRecord, hend]
      rw [if_neg hend, hlive, ih]
      rfl

/-- The bare records of a file are those of its lines behind the header. -/
theorem bareRecords_eq (data : Bytes) :
    bareRecords data = bareAt Header.length (lines (data.drop Header.length)) :=
  map_bare_liveRecords _

theorem bareAt_append (start : Nat) (front back : List Bytes) :
    bareAt start (front ++ back) = bareAt start front ++ bareAt (start + front.flatten.length) back := by
  rw [bareAt, linesAt_append, List.filter_append, List.map_append]
  rfl

theorem bareAt_cons_of_live {text : Bytes} (h : isLiveRecord text = true) (start : Nat)
    (more : List Bytes) : bareAt start (text :: more) =
      ⟨start, clearSlot text⟩ :: bareAt (start + text.length) more := by
  rw [bareAt, linesAt, List.filter_cons]
  dsimp only
  rw [if_pos h]
  rfl

theorem bareAt_cons_of_not {text : Bytes} (h : isLiveRecord text = false) (start : Nat)
    (more : List Bytes) : bareAt start (text :: more) = bareAt (start + text.length) more := by
  rw [bareAt, linesAt, List.filter_cons]
  dsimp only
  rw [if_neg (by simp [h])]
  rfl

theorem isLiveRecord_of_freshLine {text key : Bytes} {fields : List Field}
    (h : FreshLine text key fields) : isLiveRecord text = true := by
  rw [isLiveRecord, h.line.endsLine, h.wellFormed, isLiveText, h.live]
  rfl

theorem bareAt_of_forall_not {texts : List Bytes}
    (h : ∀ text ∈ texts, isLiveRecord text = false) (start : Nat) : bareAt start texts = [] := by
  induction texts generalizing start with
  | nil => rfl
  | cons text more ih =>
    simp only [List.mem_cons, forall_eq_or_imp] at h
    rw [bareAt_cons_of_not h.1, ih h.2]

/-- The header aside, a file shows the records of its lines. -/
theorem bareRecords_append {head : Bytes} (hhead : head.length = Header.length) {texts : List Bytes}
    (hlines : ∀ text ∈ texts, IsLine text) (rest : Bytes) :
    bareRecords (head ++ (texts.flatten ++ rest)) =
      bareAt Header.length texts ++ bareAt (Header.length + texts.flatten.length) (lines rest) := by
  rw [bareRecords_eq, ← hhead, List.drop_left, lines_flatten_append hlines, bareAt_append]

theorem Image.Lined.bareRecords_bytes {i : Image} (h : i.Lined) :
    bareRecords i.bytes = bareAt Header.length i.texts := by
  rw [bareRecords_eq, i.drop_bytes, lines_flatten h.line]

/-! ## Slots -/

theorem clearSlot_eq_withSlot {text : Bytes} (h : hasSlot text = true) :
    clearSlot text = Index.withSlot text unsorted := by
  rw [clearSlot, if_pos h, Index.withSlot,
    Patch.apply_of_fits (Index.fits_slot unsorted (Index.keyAt_lt_of_hasSlot h)), Hex.length_word]

theorem keyOf_clearSlot (text : Bytes) : keyOf (clearSlot text) = keyOf text := by
  by_cases h : hasSlot text = true
  · rw [clearSlot_eq_withSlot h, Index.keyOf_withSlot _ (Index.keyAt_lt_of_hasSlot h)]
  · rw [clearSlot, if_neg h]

theorem fieldsOf_clearSlot (text : Bytes) : fieldsOf (clearSlot text) = fieldsOf text := by
  by_cases h : hasSlot text = true
  · rw [clearSlot_eq_withSlot h, Index.fieldsOf_withSlot _ (Index.keyAt_lt_of_hasSlot h)]
  · rw [clearSlot, if_neg h]

theorem length_clearSlot (text : Bytes) : (clearSlot text).length = text.length := by
  by_cases h : hasSlot text = true
  · rw [clearSlot_eq_withSlot h, Index.length_withSlot _ (Index.keyAt_lt_of_hasSlot h)]
  · rw [clearSlot, if_neg h]

/-- Some of the lines, without their slots, are no longer than all of them. -/
theorem length_flatten_cleared_le (kept : Bytes → Bool) (texts : List Bytes) :
    ((texts.filter kept).map clearSlot).flatten.length ≤ texts.flatten.length := by
  induction texts with
  | nil => exact Nat.le_refl _
  | cons text more ih =>
    rw [List.filter_cons, List.flatten_cons, List.length_append]
    split
    · rw [List.map_cons, List.flatten_cons, List.length_append, length_clearSlot]
      exact Nat.add_le_add_left ih _
    · exact Nat.le_trans ih (Nat.le_add_left _ _)

theorem clearSlot_withSlot {text : Bytes} (hline : IsLine text) (hslot : hasSlot text = true)
    (v : UInt32) : clearSlot (Index.withSlot text v) = clearSlot text := by
  have hlt := Index.keyAt_lt_of_hasSlot hslot
  have htake : (Index.withSlot text v).take slotAt = text.take slotAt :=
    Patch.take_apply (Nat.le_refl _) (Nat.le_trans (by decide) (Nat.le_of_lt hlt))
  rw [clearSlot, if_pos (Index.hasSlot_withSlot hline hslot v), clearSlot, if_pos hslot, htake,
    Index.drop_withSlot v hlt (Nat.le_refl _)]

/-- What breaks a rule of the format does so with any slot. -/
theorem defect?_withSlot_of_hasSlot {text : Bytes} (hslot : hasSlot text = true) (v : UInt32) :
    defect? (Index.withSlot text v) = defect? text := by
  have hlt := Index.keyAt_lt_of_hasSlot hslot
  have hsome : (slot? text).isSome = true := by
    simp only [hasSlot, Bool.and_eq_true] at hslot
    exact hslot.2
  have hcount : (Index.withSlot text v).drop modCountAt = text.drop modCountAt :=
    Index.drop_withSlot v hlt (by decide)
  have hcolon : (Index.withSlot text v)[keyAt - 1]? = text[keyAt - 1]? := by
    have := congrArg (·[4]?) hcount
    rwa [List.getElem?_drop, List.getElem?_drop] at this
  have hsome' : (slot? (Index.withSlot text v)).isNone = (slot? text).isNone := by
    rw [Index.slot?_withSlot v hlt]
    cases h : slot? text with
    | none => rw [h] at hsome; cases hsome
    | some => rfl
  unfold defect?
  rw [Index.length_withSlot v hlt, Index.head?_withSlot v hlt, hsome', hcount, hcolon]

theorem isLiveRecord_withSlot {text : Bytes} (hline : IsLine text) (hslot : hasSlot text = true)
    (v : UInt32) : isLiveRecord (Index.withSlot text v) = isLiveRecord text := by
  have hlt := Index.keyAt_lt_of_hasSlot hslot
  rw [isLiveRecord, (Index.isLine_withSlot v hlt hline).endsLine, defect?_withSlot_of_hasSlot hslot,
    isLiveText, Index.head?_withSlot v hlt, isLiveRecord, hline.endsLine]
  rfl

section Cleared

variable {text : Bytes} (hline : IsLine text)

include hline

theorem isLine_clearSlot : IsLine (clearSlot text) := by
  by_cases h : hasSlot text = true
  · rw [clearSlot_eq_withSlot h]
    exact Index.isLine_withSlot _ (Index.keyAt_lt_of_hasSlot h) hline
  · rwa [clearSlot, if_neg h]

theorem hasSlot_clearSlot : hasSlot (clearSlot text) = hasSlot text := by
  by_cases h : hasSlot text = true
  · rw [clearSlot_eq_withSlot h, Index.hasSlot_withSlot hline h, h]
  · rw [clearSlot, if_neg h]

theorem clearSlot_clearSlot : clearSlot (clearSlot text) = clearSlot text := by
  by_cases h : hasSlot text = true
  · rw [clearSlot_eq_withSlot h, clearSlot_withSlot hline h, clearSlot_eq_withSlot h]
  · rw [clearSlot, clearSlot, if_neg h, if_neg h]

theorem isLiveRecord_clearSlot : isLiveRecord (clearSlot text) = isLiveRecord text := by
  by_cases h : hasSlot text = true
  · rw [clearSlot_eq_withSlot h, isLiveRecord_withSlot hline h]
  · rw [clearSlot, if_neg h]

end Cleared

/-- **A sort changes no bare record.** -/
theorem bareAt_fillSlots {texts : List Bytes} (hlines : ∀ text ∈ texts, IsLine text) (start : Nat)
    (targets : List Nat) : bareAt start (Index.fillSlots texts targets) = bareAt start texts := by
  have hall : List.Forall₂ (fun a b : Bytes => IsLine a → b.length = a.length ∧
      isLiveRecord b = isLiveRecord a ∧ clearSlot b = clearSlot a) texts
      (Index.fillSlots texts targets) :=
    Index.forall₂_fillSlots (fun _ _ => ⟨rfl, rfl, rfl⟩)
      (fun _ v hslot hline => ⟨Index.length_withSlot v (Index.keyAt_lt_of_hasSlot hslot),
        isLiveRecord_withSlot hline hslot v, clearSlot_withSlot hline hslot v⟩) texts targets
  generalize Index.fillSlots texts targets = texts' at hall
  induction hall generalizing start with
  | nil => rfl
  | @cons text text' more more' hhead _ ih =>
    simp only [List.mem_cons, forall_eq_or_imp] at hlines
    obtain ⟨hlen, hlive, hbare⟩ := hhead hlines.1
    have hmore := ih hlines.2 (start + text.length)
    cases ht : isLiveRecord text with
    | true =>
      rw [bareAt_cons_of_live ht, bareAt_cons_of_live (hlive.trans ht), hlen, hbare, hmore]
    | false =>
      rw [bareAt_cons_of_not ht, bareAt_cons_of_not (hlive.trans ht), hlen, hmore]

/-! ## Ends of files -/

/-- What follows complete lines adds its records to theirs. -/
theorem bareRecords_append_rest {front : Bytes} (hend : endsLine front = true)
    (hlen : Header.length ≤ front.length) (rest : Bytes) :
    bareRecords (front ++ rest) = bareRecords front ++ bareAt front.length (lines rest) := by
  have hhead : (front.take Header.length).length = Header.length := by
    rw [List.length_take, Nat.min_eq_left hlen]
  obtain ⟨texts, hlines, htexts⟩ : ∃ texts : List Bytes, (∀ text ∈ texts, IsLine text) ∧
      front.drop Header.length = texts.flatten := by
    refine exists_flatten_of_endsLine ?_
    by_cases hnil : front.drop Header.length = []
    · exact Or.inl hnil
    · rw [← List.take_append_drop Header.length front, endsLine_append hnil] at hend
      exact Or.inr hend
  have hfront : front.take Header.length ++ texts.flatten = front := by
    rw [← htexts, List.take_append_drop]
  have hlength := congrArg List.length hfront
  rw [List.length_append, hhead] at hlength
  have hbefore := bareRecords_append hhead hlines []
  have hafter := bareRecords_append hhead hlines rest
  rw [List.append_nil, hfront] at hbefore
  rw [← List.append_assoc, hfront, hlength] at hafter
  rw [hafter, hbefore]
  simp [lines, bareAt, linesAt]

/-- A live record at the end of complete lines is one record more. -/
theorem bareRecords_append_line {front line : Bytes} (hend : endsLine front = true)
    (hlen : Header.length ≤ front.length) (hline : IsLine line) (hlive : isLiveRecord line = true) :
    bareRecords (front ++ line) = bareRecords front ++ [⟨front.length, clearSlot line⟩] := by
  have hone : lines line = [line] := by simpa [lines] using lines_append hline []
  rw [bareRecords_append_rest hend hlen, hone, bareAt_cons_of_live hlive]
  rfl

/-- A line that is no live record adds none. -/
theorem bareRecords_append_of_not {front rest : Bytes} (hend : endsLine front = true)
    (hlen : Header.length ≤ front.length) (hline : ∀ text ∈ lines rest, isLiveRecord text = false) :
    bareRecords (front ++ rest) = bareRecords front := by
  rw [bareRecords_append_rest hend hlen, bareAt_of_forall_not hline, List.append_nil]

/-- A line without its newline is no record. -/
theorem isLiveRecord_of_notMem {fragment text : Bytes} (hf : newline ∉ fragment)
    (ht : text ∈ lines fragment) : isLiveRecord text = false := by
  have htext : newline ∉ text := fun hm => by
    rw [← flatten_lines fragment] at hf
    exact hf (List.mem_flatten.2 ⟨text, ht, hm⟩)
  have hopen : endsLine text = false := by
    rw [Bool.eq_false_iff]
    exact fun hend => htext (newline_mem_of_endsLine hend)
  rw [isLiveRecord, hopen, Bool.false_and, Bool.false_and]

/-- A fragment as it stands once it is closed: never live, whatever it was to become. -/
def closed (fragment : Bytes) : Bytes :=
  (if fragment.head? = some liveFlag then deadFlag :: fragment.tail else fragment) ++ [newline]

theorem isLine_closed {fragment : Bytes} (hf : newline ∉ fragment) : IsLine (closed fragment) := by
  refine ⟨_, ?_, rfl⟩
  split
  · rw [List.mem_cons, not_or]
    exact ⟨by decide, fun hm => hf (List.mem_of_mem_tail hm)⟩
  · exact hf

theorem isLiveRecord_closed {fragment : Bytes} (hne : fragment ≠ []) :
    isLiveRecord (closed fragment) = false := by
  have hdead : isLiveText (closed fragment) = false := by
    cases fragment with
    | nil => exact absurd rfl hne
    | cons b more =>
      unfold closed isLiveText
      split
      · exact (by decide : (some deadFlag == some liveFlag) = false)
      · next h => simpa using h
  rw [isLiveRecord, hdead, Bool.and_false]

/-- **Closing the last line**, behind complete lines that reach past the header. -/
theorem applyAll_sealPatches {front fragment : Bytes} (hend : endsLine front = true)
    (hf : newline ∉ fragment) {headLen : Nat} (hfront : headLen ≤ front.length) :
    Patch.applyAll (sealPatches (front ++ fragment) headLen) (front ++ fragment) =
      front ++ closed fragment := by
  obtain ⟨texts, hlines, rfl⟩ := exists_flatten_of_endsLine (Or.inr hend)
  have hwhole := wholeLines_flatten_append hlines hf
  have hopen : openLine (texts.flatten ++ fragment) = fragment := by
    have hjoin := wholeLines_append_openLine (texts.flatten ++ fragment)
    rw [hwhole] at hjoin
    exact List.append_cancel_left hjoin
  unfold sealPatches closed
  rw [hwhole, hopen]
  dsimp only
  rw [Patch.applyAll_cons, Patch.apply_end, List.append_assoc]
  cases fragment with
  | nil => simp [Patch.applyAll]
  | cons b more =>
    by_cases hlive : b = liveFlag
    · rw [if_pos ⟨hfront, by rw [hlive]; rfl⟩, if_pos (by rw [hlive]; rfl), Patch.applyAll_cons]
      exact Patch.apply_exchange texts.flatten (more ++ [newline])
        (show [deadFlag].length = [b].length from rfl)
    · have hhead : (b :: more).head? ≠ some liveFlag := by simpa using hlive
      rw [if_neg (fun h => hhead h.2), if_neg hhead]
      rfl

end RecordStore
