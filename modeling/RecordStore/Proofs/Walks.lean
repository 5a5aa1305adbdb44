import Mathlib.Tactic.Common
import RecordStore.Proofs.Accesses
import RecordStore.Proofs.Tail

/-!
# Walks that stay inside

Slots are untrusted, pivots fall anywhere in a line, and the header may be said to end anywhere, outside
the data even.  The search, the tail scan and the sort plan are said here once more with checked
accesses; they read nothing that is not there, each step of a walk goes to a smaller range inside the one
at hand, and what they answer is what the unchecked ones answer.  Whatever that is, it is sound.

* `Checked.pivot`, `Checked.slotTarget?`, `Checked.searchRange` — the search by offsets.
* `Checked.scanBack` — the tail scan by offsets.
* `Checked.slottedFrom`, `Checked.sortPlan` — the lines with a slot, and where each slot has to lead.
* `Index.Names` — a span that is a complete line with a live record of a key.

Principal results: `Checked.searchRange_eq`, `Checked.scanBack_eq`, `Checked.slottedFrom_eq` — the
three loops; `Index.walks_stay_inside` — no fault, the same answers, and each of them sound.
-/

set_option autoImplicit false

namespace RecordStore

namespace Checked

/-! ## The search -/

/-- The offsets at which the line in the middle of a range starts and ends. -/
def pivot (data : Bytes) (start stop : Nat) : Checked (Nat × Nat) := do
  let first ← behindLast data start ((← add start stop) / 2)
  let last ← pastFirst data first stop
  pure (first, last)

/-- The complete record at `offset`, if a line starts there. -/
def recordStartingAt? (data : Bytes) (headLen offset : Nat) : Checked (Option Record) :=
  if offset < headLen ∨ data.length ≤ offset then pure none
  else do
    if (← byteAt data (← sub offset 1)) ≠ newline then pure none
    else
      match ← decode data offset with
      | some record => pure (if endsLine record.text then some record else none)
      | none => pure none

/-- The record that the slot of a line names. -/
def slotTarget? (data : Bytes) (headLen : Nat) (text : Bytes) : Checked (Option Record) := do
  if ← hasSlot text then
    match Hex.parse? (← slice text slotAt (slotAt + Hex.wordLen)) with
    | some slot => recordStartingAt? data headLen slot.toNat
    | none => pure none
  else pure none

/-- Compares a key with the record that a pivot names. -/
def verdict (key : Bytes) : Option Record → Checked Index.Verdict
  | none => pure .either
  | some target => do
    match compareKeys key (← keyOf target.text) with
    | .lt => pure .before
    | .gt => pure .after
    | .eq => pure (if ← isLive target then .here target.span else .either)

/-- Searches the range between two offsets. -/
def searchRange (data : Bytes) (headLen : Nat) (key : Bytes) (start stop : Nat) :
    Checked (Option Span) :=
  if stop ≤ start then pure none
  else do
    let (first, last) ← pivot data start stop
    let target ← slotTarget? data headLen (← slice data first last)
    match ← verdict key target with
    | .here span => pure (some span)
    | .before => within start stop start first fun _ => searchRange data headLen key start first
    | .after => within start stop last stop fun _ => searchRange data headLen key last stop
    | .either =>
      match ← within start stop start first fun _ => searchRange data headLen key start first with
      | some span => pure (some span)
      | none => within start stop last stop fun _ => searchRange data headLen key last stop
termination_by stop - start
decreasing_by
  all_goals exact (‹Narrows _ _ _ _›).2.2.2

def search (data : Bytes) (headLen : Nat) (key : Bytes) : Checked (Option Span) :=
  if headLen = 0 ∨ data.length ≤ headLen then pure none
  else searchRange data headLen key headLen data.length

section Search

variable {data : Bytes} {headLen start stop : Nat} {key : Bytes}

/-- The middle line of a range, by its offsets, is that of the bytes of the range. -/
theorem pivot_eq (hlt : start < stop) (hlen : stop ≤ data.length) (hbig : data.length < 2 ^ 63) :
    ∃ first last, pivot data start stop = .ok (first, last) ∧
      start ≤ first ∧ first < last ∧ last ≤ stop ∧
      between data start first = (Index.Pivot.of (between data start stop)).before ∧
      between data first last = (Index.Pivot.of (between data start stop)).line ∧
      between data last stop = (Index.Pivot.of (between data start stop)).after := by
  obtain ⟨region, hregion⟩ : ∃ region, between data start stop = region := ⟨_, rfl⟩
  have hcount : region.length = stop - start := hregion ▸ length_between hlen
  have hne : region ≠ [] := List.length_pos_iff.1 (by omega)
  have hmiddle : (start + stop) / 2 = start + region.length / 2 := by omega
  have hhalf : between data start (start + region.length / 2) = region.take (region.length / 2) := by
    have hcut := (between_cut (Nat.le_of_lt hlt) hlen
      (hregion.trans (List.take_append_drop (region.length / 2) region).symm)).2.1
    rwa [List.length_take, Nat.min_eq_left (Nat.div_le_self _ 2)] at hcut
  have hfirst : behindLast data start (start + region.length / 2) =
      .ok (start + (Index.Pivot.of region).before.length) := by
    rw [behindLast_eq (Nat.le_add_right ..) (by omega) hbig, hhalf]
    rfl
  -- the region is what stands before the line, the line, and what stands after it
  have hjoin := Index.Pivot.join_of region
  rw [List.append_assoc] at hjoin
  obtain ⟨hbefore, hfront, hrest⟩ := 
    between_cut (Nat.le_of_lt hlt) hlen (hregion.trans hjoin.symm)
  obtain ⟨hafter, hline, hback⟩ := between_cut hbefore hlen hrest
  have htake : takeLine ((Index.Pivot.of region).line ++ (Index.Pivot.of region).after) =
      (Index.Pivot.of region).line := by
    have hdrop : (Index.Pivot.of region).line ++ (Index.Pivot.of region).after =
        region.drop (Index.Pivot.of region).before.length :=
      List.drop_left.symm.trans (congrArg (List.drop _) hjoin)
    rw [hdrop]
    rfl
  have hlast : pastFirst data (start + (Index.Pivot.of region).before.length) stop =
      .ok (start + (Index.Pivot.of region).before.length + (Index.Pivot.of region).line.length) := by
    rw [pastFirst_eq hbefore hlen hbig, hrest, htake]
  have hpos : 0 < (Index.Pivot.of region).line.length := by
    have hshort := Index.Pivot.length_before_of_lt hne
    have hdrop : region.drop (Index.Pivot.of region).before.length ≠ [] := by
      rw [← List.length_pos_iff, List.length_drop]
      omega
    have hcut := length_takeLine_add_length_dropLine (region.drop (Index.Pivot.of region).before.length)
    have hrest := length_dropLine_lt hdrop
    change 0 < (takeLine (region.drop (Index.Pivot.of region).before.length)).length
    omega
  refine ⟨start + (Index.Pivot.of region).before.length, start + (Index.Pivot.of region).before.length
    + (Index.Pivot.of region).line.length, ?_, Nat.le_add_right .., by omega, hafter, ?_, ?_, ?_⟩
  · rw [pivot, add_eq (by omega), ok_bind, hmiddle, hfirst, ok_bind, hlast]
    rfl
  · rw [hregion, hfront]
  · rw [hregion, hline]
  · rw [hregion, hback]

/-- A line starts in front of any offset that lies behind a header. -/
theorem recordStartingAt?_eq (hpos : 0 < headLen) (hbig : data.length < 2 ^ 63) (offset : Nat) :
    recordStartingAt? data headLen offset =
      .ok (Index.recordStartingAt? data headLen offset) := by
  rw [recordStartingAt?, Index.recordStartingAt?]
  split
  · next hout =>
    rw [if_neg (by omega)]
    rfl
  · next hin =>
    have hat : data[offset - 1]? = some data[offset - 1] := List.getElem?_eq_getElem (by omega)
    rw [sub_eq (by omega), ok_bind, byteAt_eq hat, ok_bind]
    by_cases hnewline : data[offset - 1] = newline
    · rw [if_neg (not_not.2 hnewline), if_pos ⟨by omega, by omega, hat.trans (congrArg some hnewline)⟩,
        decode_eq hbig, ok_bind]
      cases Record.decode data offset <;> rfl
    · rw [if_pos hnewline, if_neg]
      · rfl
      · rintro ⟨-, -, h⟩
        exact hnewline (Option.some.inj (hat.symm.trans h))

theorem slotTarget?_eq (hpos : 0 < headLen) (hbig : data.length < 2 ^ 63) (text : Bytes) :
    slotTarget? data headLen text = .ok (Index.slotTarget? data headLen text) := by
  rw [slotTarget?, hasSlot_eq, ok_bind, Index.slotTarget?]
  cases hslot : RecordStore.hasSlot text with
  | false => rfl
  | true =>
    have hlt : keyAt < text.length := by
      simp only [RecordStore.hasSlot, Bool.and_eq_true, decide_eq_true_eq] at hslot
      exact hslot.1.1
    rw [if_pos rfl, if_pos rfl, slice_slot hlt, ok_bind, slot?]
    cases Hex.parse? ((text.drop slotAt).take Hex.wordLen) with
    | none => rfl
    | some slot => exact recordStartingAt?_eq hpos hbig _

theorem verdict_eq (key : Bytes) (target : Option Record) :
    verdict key target = .ok (Index.Verdict.of key target) := by
  cases target with
  | none => rfl
  | some r =>
    rw [verdict, keyOf_eq, ok_bind, Index.Verdict.of, isLive_eq, Record.key]
    cases compareKeys key (RecordStore.keyOf r.text) with
    | lt => rfl
    | gt => rfl
    | eq => cases r.isLive <;> rfl

/-- **The search reads nothing that is not there**, and each of its steps goes to a smaller range inside
the one at hand. -/
theorem searchRange_eq (hpos : 0 < headLen) (hbig : data.length < 2 ^ 63) (hle : start ≤ stop)
    (hlen : stop ≤ data.length) : searchRange data headLen key start stop =
      .ok (Index.searchRegion data headLen key (between data start stop)) := by
  induction hn : stop - start using Nat.strongRecOn generalizing start stop with
  | ind n ih =>
    subst hn
    rw [searchRange, Index.searchRegion]
    by_cases hlt : start < stop
    · have hne : between data start stop ≠ [] := by
        rw [← List.length_pos_iff, length_between hlen]
        omega
      obtain ⟨first, last, hpivot, hfirst, hline, hlast, hbefore, hmiddle, hafter⟩ :=
        pivot_eq hlt hlen hbig
      have hleft : Narrows start stop start first := ⟨by omega, by omega, by omega, by omega⟩
      have hright : Narrows start stop last stop := ⟨by omega, by omega, by omega, by omega⟩
      have ihleft := ih _ hleft.2.2.2 hfirst (by omega) rfl
      have ihright := ih _ hright.2.2.2 hlast hlen rfl
      rw [hbefore] at ihleft
      rw [hafter] at ihright
      rw [if_neg (by omega), if_neg hne, hpivot, ok_bind]
      dsimp only
      rw [slice_eq (by omega) (by omega), ok_bind, hmiddle, slotTarget?_eq hpos hbig, ok_bind,
        verdict_eq, ok_bind, within_eq hleft, within_eq hright, ihleft, ihright]
      cases Index.Verdict.of key
          (Index.slotTarget? data headLen (Index.Pivot.of (between data start stop)).line) with
      | here span => rfl
      | before => rfl
      | after => rfl
      | either =>
        dsimp only
        rw [ok_bind]
        cases Index.searchRegion data headLen key (Index.Pivot.of (between data start stop)).before <;> rfl
    · have hempty : between data start stop = [] := by
        rw [← List.length_eq_zero_iff, length_between hlen]
        omega
      rw [if_pos (by omega), if_pos hempty]
      rfl

theorem search_eq (hbig : data.length < 2 ^ 63) :
    search data headLen key = .ok (Index.search data headLen key) := by
  rw [search, Index.search]
  split
  · rfl
  · next h =>
    rw [searchRange_eq (by omega) hbig (by omega) (Nat.le_refl _), between_length]

end Search

/-! ## The tail scan -/

/-- Walks backward, line by line, from the offset `stop` to the header. -/
def scanBack (data : Bytes) (headLen : Nat) (key : Bytes) (stop : Nat) : Checked (Option Span) :=
  if stop ≤ headLen then pure none
  else do
    let stopped ← sub stop 1
    if (← byteAt data stopped) ≠ newline then pure none
    else
      let start ← behindLast data headLen stopped
      match ← ofLine? ⟨start, ← slice data start stop⟩ with
      | some record =>
        if (← slot record) ≠ unsorted then pure none
        else if (← isLive record) ∧ (← keyOf record.text) = key then
          pure (some ⟨start, ← sub stop start⟩)
        else within headLen stop headLen start fun _ => scanBack data headLen key start
      | none => within headLen stop headLen start fun _ => scanBack data headLen key start
termination_by stop - headLen
decreasing_by
  all_goals exact (‹Narrows _ _ _ _›).2.2.2

def scanTail (data : Bytes) (headLen : Nat) (key : Bytes) : Checked (Option Span) :=
  scanBack data headLen key data.length

section Tail

variable {data : Bytes} {headLen stop : Nat} {key : Bytes}

theorem between_snoc {b : UInt8} (hlt : headLen < stop) (hlen : stop ≤ data.length)
    (hat : data[stop - 1]? = some b) :
    between data headLen stop = between data headLen (stop - 1) ++ [b] := by
  have htake : data.take stop = data.take (stop - 1) ++ [b] := by
    have hsucc : stop - 1 + 1 = stop := by omega
    rw [← hsucc, List.take_add_one, hat, Nat.add_sub_cancel]
    rfl
  rw [between, between, htake, List.drop_append_of_le_length]
  rw [List.length_take]
  omega

/-- The last complete line of a range, by its offsets, is that of the bytes read backward. -/
theorem behindLast_stopped (hlt : headLen < stop) (hlen : stop ≤ data.length)
    (hbig : data.length < 2 ^ 63) (hat : data[stop - 1]? = some newline) :
    ∃ back start, (between data headLen stop).reverse = newline :: back ∧
      behindLast data headLen (stop - 1) = .ok start ∧ headLen ≤ start ∧ start < stop ∧
      between data start stop = Index.lastLine back ∧ start = stop - (Index.lastLine back).length ∧
      (between data headLen start).reverse = back.dropWhile (· != newline) := by
  obtain ⟨body, hbody⟩ : ∃ body, between data headLen (stop - 1) = body := ⟨_, rfl⟩
  have hsnoc : between data headLen stop = body ++ [newline] := between_snoc hlt hlen hat ▸ hbody ▸ rfl
  have hcut : between data headLen stop = wholeLines body ++ Index.lastLine body.reverse := by
    rw [hsnoc, Index.lastLine, ← openLine, ← List.append_assoc, wholeLines_append_openLine]
  obtain ⟨-, hfront, hline⟩ := between_cut (Nat.le_of_lt hlt) hlen hcut
  have hcount := congrArg List.length hcut
  have hpos : 0 < (Index.lastLine body.reverse).length := by simp [Index.lastLine]
  rw [length_between hlen, List.length_append] at hcount
  refine ⟨body.reverse, headLen + (wholeLines body).length, ?_, ?_, Nat.le_add_right .., by omega,
    hline, by omega, ?_⟩
  · rw [hsnoc, List.reverse_append, List.reverse_singleton, List.singleton_append]
  · rw [behindLast_eq (by omega) (by omega) hbig, hbody]
  · rw [hfront, wholeLines, List.reverse_reverse]

/-- **The tail scan reads nothing that is not there**, and each of its steps goes nearer to the
header. -/
theorem scanBack_eq (hle : headLen ≤ stop) (hlen : stop ≤ data.length) (hbig : data.length < 2 ^ 63) :
    scanBack data headLen key stop =
      .ok (Index.scanBack key stop (between data headLen stop).reverse) := by
  induction hn : stop - headLen using Nat.strongRecOn generalizing stop with
  | ind n ih =>
    subst hn
    rw [scanBack]
    by_cases hlt : headLen < stop
    · have hin : stop - 1 < data.length := by omega
      have hat : data[stop - 1]? = some data[stop - 1] := List.getElem?_eq_getElem hin
      rw [if_neg (by omega), sub_eq (by omega), ok_bind, byteAt_eq hat, ok_bind]
      by_cases hnewline : data[stop - 1] = newline
      · obtain ⟨back, start, hback, hstart, hfirst, hlast, hline, hcount, hfront⟩ :=
          behindLast_stopped hlt hlen hbig (hat.trans (congrArg some hnewline))
        have hnext : Narrows headLen stop headLen start := ⟨by omega, by omega, by omega, by omega⟩
        have ihnext := ih _ hnext.2.2.2 hfirst (by omega) rfl
        rw [hfront] at ihnext
        rw [if_neg (not_not.2 hnewline), hstart, ok_bind, slice_eq (by omega) hlen, ok_bind, hline,
          ofLine?_eq, ok_bind, within_eq hnext, ihnext, hback, Index.scanBack, if_pos rfl]
        dsimp only
        rw [← hcount]
        cases hrecord : Record.ofLine? ⟨start, Index.lastLine back⟩ with
        | none => rfl
        | some record =>
          obtain ⟨-, hrec⟩ := Record.ofLine?_eq_some_iff.1 hrecord
          have hspan : record.span = ⟨start, stop - start⟩ := by
            rw [Record.span, hrec, Line.span, ← hline, length_between hlen]
          simp only [slot_eq, isLive_eq, keyOf_eq, Record.key, sub_eq (Nat.le_of_lt hlast), ok_bind, hspan]
          split_ifs <;> rfl
      · obtain ⟨back, hback⟩ : ∃ back, (between data headLen stop).reverse = data[stop - 1] :: back :=
          ⟨_, by rw [between_snoc hlt hlen hat, List.reverse_append]; rfl⟩
        rw [if_pos hnewline, hback, Index.scanBack, if_neg hnewline]
        rfl
    · have hempty : between data headLen stop = [] := by
        rw [← List.length_eq_zero_iff, length_between hlen]
        omega
      rw [if_pos (by omega), hempty, List.reverse_nil, Index.scanBack]
      rfl

theorem scanTail_eq (hbig : data.length < 2 ^ 63) :
    scanTail data headLen key = .ok (Index.scanTail data headLen key) := by
  rw [scanTail, Index.scanTail]
  by_cases hle : headLen ≤ data.length
  · rw [scanBack_eq hle (Nat.le_refl _) hbig, between_length]
  · rw [scanBack, if_pos (by omega), List.drop_eq_nil_of_le (by omega), List.reverse_nil,
      Index.scanBack]
    rfl

end Tail

/-! ## The sort plan -/

/-- The offsets of the lines with a slot, from the line at `start` on. -/
def slottedFrom (data : Bytes) (start : Nat) : Checked (List Nat) :=
  if data.length ≤ start then pure []
  else do
    let stop ← pastFirst data start data.length
    let kept ← hasSlot (← slice data start stop)
    let more ← within start data.length stop data.length fun _ => slottedFrom data stop
    pure (if kept then start :: more else more)
termination_by data.length - start
decreasing_by
  exact (‹Narrows _ _ _ _›).2.2.2

def physicalRecords (data : Bytes) (headLen : Nat) : Checked (List Nat) :=
  slottedFrom data (min headLen data.length)

/-- The key read at an offset, and the offset. -/
def keyed (data : Bytes) (offset : Nat) : Checked (Bytes × Nat) := do
  pure (← keyOf (← slice data offset data.length), offset)

def sortPlan (data : Bytes) (headLen : Nat) : Checked (List (Nat × Nat)) := do
  let physical ← physicalRecords data headLen
  let keys ← physical.mapM (keyed data)
  let sorted := keys.mergeSort fun a b => (compareKeys a.1 b.1).isLE
  pure (physical.zip (sorted.map Prod.snd))

section Plan

variable {data : Bytes} {headLen start : Nat}

theorem slottedFrom_eq (hbig : data.length < 2 ^ 63) :
    slottedFrom data start = .ok ((Index.slotted data start).map Line.offset) := by
  induction hn : data.length - start using Nat.strongRecOn generalizing start with
  | ind n ih =>
    subst hn
    rw [slottedFrom, Index.slotted, linesFrom]
    by_cases hlt : start < data.length
    · have hne : data.drop start ≠ [] := by
        rw [← List.length_pos_iff, List.length_drop]
        omega
      have hcount := length_takeLine_add_length_dropLine (data.drop start)
      have hshort := length_dropLine_lt hne
      rw [List.length_drop] at hcount hshort
      have hnext : Narrows start data.length
          (start + (takeLine (data.drop start)).length) data.length :=
        ⟨by omega, by omega, Nat.le_refl _, by omega⟩
      have hrest : data.drop (start + (takeLine (data.drop start)).length) =
          dropLine (data.drop start) := by
        rw [← List.drop_drop]
        exact (congrArg (List.drop _) (takeLine_append_dropLine _)).symm.trans List.drop_left
      have ihnext := ih _ hnext.2.2.2 rfl
      rw [Index.slotted, linesFrom, hrest] at ihnext
      rw [if_neg (by omega), pastFirst_eq (Nat.le_of_lt hlt) (Nat.le_refl _) hbig, ok_bind,
        between_length, slice_eq (by omega) (by omega), ok_bind, between_takeLine, hasSlot_eq, ok_bind,
        within_eq hnext, ihnext, ok_bind, lines_eq_cons hne, linesAt, List.filter_cons]
      dsimp only
      cases RecordStore.hasSlot (takeLine (data.drop start)) <;> rfl
    · rw [if_pos (by omega), List.drop_eq_nil_of_le (by omega)]
      rfl

theorem slotted_min (data : Bytes) (headLen : Nat) :
    Index.slotted data (min headLen data.length) = Index.slotted data headLen := by
  rcases Nat.le_total headLen data.length with hle | hle
  · rw [Nat.min_eq_left hle]
  · rw [Nat.min_eq_right hle, Index.slotted, Index.slotted, linesFrom, linesFrom,
      List.drop_eq_nil_of_le hle, List.drop_length]
    rfl

theorem physicalRecords_eq (hbig : data.length < 2 ^ 63) :
    physicalRecords data headLen = .ok (Index.physicalRecords data headLen) := by
  rw [physicalRecords, slottedFrom_eq hbig, slotted_min, Index.physicalRecords]

/-- The key of a line with a slot ends inside the line. -/
theorem keyOf_append {text : Bytes} (h : RecordStore.hasSlot text = true) (rest : Bytes) :
    RecordStore.keyOf (text ++ rest) = RecordStore.keyOf text := by
  simp only [RecordStore.hasSlot, Bool.and_eq_true, decide_eq_true_eq] at h
  have hne : text.drop keyAt ≠ [] := by
    rw [← List.length_pos_iff, List.length_drop]
    omega
  have hends : endsLine (text.drop keyAt) = true := by
    rw [← endsLine_append hne (s := text.take keyAt), List.take_append_drop]
    exact h.1.2
  rw [RecordStore.keyOf, RecordStore.keyOf, List.drop_append_of_le_length (Nat.le_of_lt h.1.1),
    List.takeWhile_append, if_neg]
  intro hall
  have hwhole := (List.takeWhile_prefix _).eq_of_length hall
  have hnewline : newline ∈ (text.drop keyAt).takeWhile fun b => !isDelimiter b :=
    hwhole.symm ▸ newline_mem_of_endsLine hends
  exact absurd (List.all_eq_true.1 List.all_takeWhile newline hnewline) (by decide)

theorem keyed_eq {line : Line} (h : line ∈ Index.slotted data headLen) :
    keyed data line.offset = .ok (RecordStore.keyOf line.text, line.offset) := by
  obtain ⟨hmem, hslot⟩ := List.mem_filter.1 h
  obtain ⟨-, hlt, -, htext⟩ := mem_linesFrom_iff.1 hmem
  have hcut := takeLine_append_dropLine (data.drop line.offset)
  rw [htext] at hcut
  rw [keyed, slice_eq (Nat.le_of_lt hlt) (Nat.le_refl _), ok_bind, between_length, keyOf_eq, ok_bind,
    ← hcut, keyOf_append hslot]
  rfl

theorem mapM_eq {α β γ : Type} {f : β → Checked γ} {place : α → β} {g : α → γ} {xs : List α}
    (h : ∀ x ∈ xs, f (place x) = .ok (g x)) : (xs.map place).mapM f = .ok (xs.map g) := by
  induction xs with
  | nil => rfl
  | cons x more ih =>
    rw [List.map_cons, List.mapM_cons, h x List.mem_cons_self, ok_bind,
      ih fun y hy => h y (List.mem_cons_of_mem _ hy), ok_bind]
    rfl

theorem sortPlan_eq (hbig : data.length < 2 ^ 63) :
    sortPlan data headLen = .ok (Index.sortPlan data headLen) := by
  rw [sortPlan, physicalRecords_eq hbig, ok_bind, Index.physicalRecords,
    mapM_eq (g := fun line => (RecordStore.keyOf line.text, line.offset)) fun _ => keyed_eq, ok_bind,
    ← List.map_mergeSort (r := fun a b =>
      (compareKeys (RecordStore.keyOf a.text) (RecordStore.keyOf b.text)).isLE) fun _ _ _ _ => rfl]
  dsimp only
  rw [List.map_map]
  rfl

end Plan

end Checked

namespace Index

/-! ## What the walks answer -/

/-- A span that is a complete line behind the header, with a live record of a key. -/
structure Names (data : Bytes) (headLen : Nat) (key : Bytes) (span : Span) : Prop where
  behind : headLen ≤ span.offset
  inside : span.offset + span.length ≤ data.length
  complete : IsLine (span.read data)
  live : ∃ r : Record, Record.decode data span.offset = .ok r ∧ r.text = span.read data ∧
    r.isLive = true ∧ r.key = key

/-- A newline stands in front of an offset. -/
def FollowsNewline (data : Bytes) (offset : Nat) : Prop :=
  0 < offset ∧ data[offset - 1]? = some newline

section Sound

variable {data : Bytes} {headLen : Nat} {key : Bytes}

/-- A complete line with a live record, as it is decoded, is named by its span. -/
theorem names_of_decode {r : Record} (hle : headLen ≤ r.offset)
    (hdec : Record.decode data r.offset = .ok r) (hend : endsLine r.text = true)
    (hlive : r.isLive = true) (hkey : r.key = key) : Names data headLen key r.span := by
  obtain ⟨hlt, -, htext⟩ := Record.decode_eq_ok_iff.1 hdec
  have hcut := takeLine_append_dropLine (data.drop r.offset)
  rw [htext] at hcut
  have hread : r.span.read data = r.text := by
    change (data.drop r.offset).take r.text.length = r.text
    rw [← hcut, List.take_left]
  have hcount := congrArg List.length hcut
  rw [List.length_append, List.length_drop] at hcount
  have hinside : r.offset + r.text.length ≤ data.length := by omega
  have hline : IsLine r.text := by
    have hmem : newline ∈ data.drop r.offset := by
      rw [← hcut]
      exact List.mem_append_left _ (newline_mem_of_endsLine hend)
    exact htext ▸ isLine_takeLine_of_mem hmem
  exact ⟨hle, hinside, hread ▸ hline, r, hdec, hread.symm, hlive, hkey⟩

/-- **Whatever the slots say, a search names a live record with the key**, behind a newline. -/
theorem names_of_search {span : Span} (h : search data headLen key = some span) :
    Names data headLen key span ∧ FollowsNewline data span.offset := by
  unfold search at h
  split at h
  · cases h
  · next hhead =>
    obtain ⟨pivot, -, r, htarget, hkey, hlive, rfl⟩ := exists_target_of_searchRegion h
    obtain ⟨hle, hnl, hdec, hend⟩ := decode_of_slotTarget? htarget
    refine ⟨names_of_decode hle hdec hend hlive hkey, ?_, hnl⟩
    change 0 < r.offset
    omega

/-- A scan of bytes that end inside a line answers nothing. -/
theorem endsLine_of_scanTail {span : Span} (h : scanTail data headLen key = some span) :
    endsLine (data.drop headLen) = true := by
  unfold scanTail at h
  rw [endsLine, ← List.head?_reverse]
  cases hback : (data.drop headLen).reverse with
  | nil =>
    rw [hback, scanBack] at h
    cases h
  | cons b back =>
    rw [hback, scanBack] at h
    by_cases hb : b = newline
    · rw [hb]
      rfl
    · rw [if_neg hb] at h
      cases h

/-- **A tail scan names a live record with the key**, at the end of the header or behind a newline. -/
theorem names_of_scanTail {span : Span} (h : scanTail data headLen key = some span) :
    Names data headLen key span ∧ (span.offset = headLen ∨ FollowsNewline data span.offset) := by
  have hends := endsLine_of_scanTail h
  obtain ⟨texts, hlines, htexts⟩ := exists_flatten_of_endsLine (Or.inr hends)
  have hlen : headLen ≤ data.length := by
    have := length_pos_of_endsLine hends
    rw [List.length_drop] at this
    omega
  rw [scanTail_eq_latest? hlines htexts hlen] at h
  obtain ⟨r, hmem, hlive, hkey, rfl⟩ := latest?_sound h
  have hmem := List.mem_reverse.1 hmem
  obtain ⟨hle, hlt, hstart, htext⟩ := mem_linesFrom_iff.1 hmem
  have hend : endsLine r.text = true := by
    rw [linesFrom, htexts, lines_flatten hlines] at hmem
    have hin := List.mem_map_of_mem (f := Line.text) hmem
    rw [map_text_linesAt] at hin
    exact (hlines _ hin).endsLine
  refine ⟨names_of_decode hle (Record.decode_eq_ok_iff.2 ⟨hlt, rfl, htext⟩) hend hlive hkey, ?_⟩
  rcases hstart with hstart | hstart
  · exact Or.inl hstart
  · rcases Nat.eq_or_lt_of_le hle with heq | hgt
    · exact Or.inl heq.symm
    · exact Or.inr ⟨Nat.lt_of_le_of_lt (Nat.zero_le _) hgt, hstart⟩

end Sound

/-- **The walks stay inside.**  On any bytes, under any header and for any key, whatever the slots say,
no access of a search, a tail scan or a sort plan falls outside the data, and each step of a walk goes to
a smaller range inside the one at hand.  A span that a search or a tail scan answers is a complete line
with a live record of the key. -/
theorem walks_stay_inside {data : Bytes} (hbig : data.length < 2 ^ 63) (headLen : Nat) (key : Bytes) :
    (Checked.search data headLen key = .ok (search data headLen key) ∧
      Checked.scanTail data headLen key = .ok (scanTail data headLen key) ∧
      Checked.physicalRecords data headLen = .ok (physicalRecords data headLen) ∧
      Checked.sortPlan data headLen = .ok (sortPlan data headLen)) ∧
    (∀ span, search data headLen key = some span →
      Names data headLen key span ∧ FollowsNewline data span.offset) ∧
    ∀ span, scanTail data headLen key = some span →
      Names data headLen key span ∧ (span.offset = headLen ∨ FollowsNewline data span.offset) :=
  ⟨⟨Checked.search_eq hbig, Checked.scanTail_eq hbig, Checked.physicalRecords_eq hbig,
    Checked.sortPlan_eq hbig⟩, fun _ => names_of_search, fun _ => names_of_scanTail⟩

/-- Three lines whose slots name a place outside the data, the line itself and the middle of a line, and
one that no sort has placed. -/
def crookedLines : Bytes :=
  ascii "hdr\n+000000ff.0000:a\n+00000015.0000:b\n+00000006.0000:c\n+00000000.0000:d\n".toList

theorem walks_stay_inside_of_crooked_slots :
    crookedLines.length < 2 ^ 63 ∧
    Checked.search crookedLines 4 (ascii ['b']) = .ok (some ⟨21, 17⟩) ∧
    Names crookedLines 4 (ascii ['b']) ⟨21, 17⟩ ∧
    Checked.search crookedLines 4 (ascii ['c']) = .ok none ∧
    Checked.scanTail crookedLines 4 (ascii ['d']) = .ok (some ⟨55, 17⟩) ∧
    Names crookedLines 4 (ascii ['d']) ⟨55, 17⟩ ∧
    Checked.sortPlan crookedLines 90 = .ok [] := by
  have hbig : crookedLines.length < 2 ^ 63 := by decide
  have hb : search crookedLines 4 (ascii ['b']) = some ⟨21, 17⟩ := by decide +kernel
  have hc : search crookedLines 4 (ascii ['c']) = none := by decide +kernel
  have hd : scanTail crookedLines 4 (ascii ['d']) = some ⟨55, 17⟩ := by decide +kernel
  have hplan : sortPlan crookedLines 90 = [] := by decide +kernel
  obtain ⟨⟨hsearch, -, -, -⟩, hfound, -⟩ := walks_stay_inside hbig 4 (ascii ['b'])
  obtain ⟨⟨-, hscan, -, -⟩, -, hnamed⟩ := walks_stay_inside hbig 4 (ascii ['d'])
  obtain ⟨⟨hmissed, -, -, -⟩, -⟩ := walks_stay_inside hbig 4 (ascii ['c'])
  obtain ⟨⟨-, -, -, hsort⟩, -⟩ := walks_stay_inside hbig 90 []
  exact ⟨hbig, hb ▸ hsearch, (hfound _ hb).1, hc ▸ hmissed, hd ▸ hscan, (hnamed _ hd).1, hplan ▸ hsort⟩

end Index

end RecordStore
