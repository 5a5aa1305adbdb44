import RecordStore.Index.Plan

/-!
# Binary search through the slots

The search halves a region of the file, not a list of keys: the pivot is the line that holds the
middle byte, and the key compared is that of the record which the pivot's slot names.  Slots are
untrusted numbers, so a slot counts only if it names a complete, well-formed record inside the
file; otherwise, and at a dead record with the key itself, both halves may hold the key.

* `Pivot.of` — the middle line of a region and what stands before and after it.
* `slotTarget?` — the record that a pivot's slot names.
* `search` — the live record with a key, found through the slots.

Principal results: `Pivot.join_of` — the three parts make up the region; `Pivot.length_before_of_lt`
and `Pivot.length_after_of_lt` — both outer parts are shorter than it.
-/

set_option autoImplicit false

namespace RecordStore.Index

/-- A region cut at the line that holds its middle byte. -/
structure Pivot where
  before : Bytes
  line : Bytes
  after : Bytes
  deriving DecidableEq, Repr

def Pivot.of (region : Bytes) : Pivot :=
  let before := wholeLines (region.take (region.length / 2))
  let rest := region.drop before.length
  ⟨before, takeLine rest, dropLine rest⟩

theorem Pivot.join_of (region : Bytes) :
    (Pivot.of region).before ++ (Pivot.of region).line ++ (Pivot.of region).after = region := by
  have hpre : wholeLines (region.take (region.length / 2)) <+: region :=
    List.IsPrefix.trans ⟨_, wholeLines_append_openLine _⟩ (List.take_prefix _ _)
  simp only [Pivot.of, List.append_assoc, takeLine_append_dropLine]
  exact List.prefix_iff_eq_append.1 hpre

theorem Pivot.length_before_of_lt {region : Bytes} (h : region ≠ []) :
    (Pivot.of region).before.length < region.length := by
  have h1 := length_wholeLines_le (region.take (region.length / 2))
  have h2 : 0 < region.length := List.length_pos_iff.2 h
  simp only [Pivot.of, List.length_take] at h1 ⊢
  omega

theorem Pivot.length_after_of_lt {region : Bytes} (h : region ≠ []) :
    (Pivot.of region).after.length < region.length := by
  have h1 := Pivot.length_before_of_lt h
  have h2 : region.drop (Pivot.of region).before.length ≠ [] := by
    simpa [List.drop_eq_nil_iff] using h1
  have h3 := length_dropLine_lt h2
  have h4 : (Pivot.of region).after = dropLine (region.drop (Pivot.of region).before.length) := rfl
  rw [h4]
  simp only [List.length_drop] at h3
  omega

/-- The complete record at `offset`, if a line starts there. -/
def recordStartingAt? (data : Bytes) (headLen offset : Nat) : Option Record :=
  if headLen ≤ offset ∧ offset < data.length ∧ data[offset - 1]? = some newline then
    match Record.decode data offset with
    | .ok record => if endsLine record.text then some record else none
    | .error _ => none
  else none

/-- The record that the slot of `pivot` names. -/
def slotTarget? (data : Bytes) (headLen : Nat) (pivot : Bytes) : Option Record :=
  if hasSlot pivot then (slot? pivot).bind fun slot => recordStartingAt? data headLen slot.toNat
  else none

/-- Where a key can stand, as seen from a pivot. -/
inductive Verdict where
  | here (span : Span)
  | before
  | after
  | either
  deriving DecidableEq, Repr

/-- Compares a key with the record that a pivot names. -/
def Verdict.of (key : Bytes) : Option Record → Verdict
  | none => .either
  | some target =>
    match compareKeys key target.key with
    | .lt => .before
    | .gt => .after
    | .eq => if target.isLive then .here target.span else .either

/-- Searches one region of `data`. -/
def searchRegion (data : Bytes) (headLen : Nat) (key : Bytes) (region : Bytes) : Option Span :=
  if region = [] then none
  else
    let pivot := Pivot.of region
    match Verdict.of key (slotTarget? data headLen pivot.line) with
    | .here span => some span
    | .before => searchRegion data headLen key pivot.before
    | .after => searchRegion data headLen key pivot.after
    | .either =>
      match searchRegion data headLen key pivot.before with
      | some span => some span
      | none => searchRegion data headLen key pivot.after
termination_by region.length
decreasing_by
  all_goals first
    | exact Pivot.length_before_of_lt ‹¬ region = []›
    | exact Pivot.length_after_of_lt ‹¬ region = []›

/-- Finds the live record with `key` through the slots of the lines after the header. -/
def search (data : Bytes) (headLen : Nat) (key : Bytes) : Option Span :=
  if headLen = 0 ∨ data.length ≤ headLen then none
  else searchRegion data headLen key (data.drop headLen)

end RecordStore.Index
