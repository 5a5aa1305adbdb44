import RecordStore.Index.Plan

/-!
# The unsorted tail

Records appended since the last sort carry no slot yet.  They are found by walking the lines
backward from the end of the file, up to the first record that a sort has placed.  Malformed lines
on the way are skipped; an unfinished last line hides the tail altogether.

* `scanBack` — the walk, over the bytes from the last one to the first.
* `scanTail` — the last live record with a key among those that no sort has placed.
-/

set_option autoImplicit false

namespace RecordStore.Index

/-- The line that ends in a newline after the reversed bytes `back`. -/
def lastLine (back : Bytes) : Bytes := (back.takeWhile (· != newline)).reverse ++ [newline]

/-- Walks backward, line by line, through the bytes `back` that stand before the offset `stop`, the
nearest byte first. -/
def scanBack (key : Bytes) (stop : Nat) : Bytes → Option Span
  | [] => none
  | b :: back =>
    if b = newline then
      let text := lastLine back
      let start := stop - text.length
      match Record.ofLine? ⟨start, text⟩ with
      | some record =>
        if record.slot ≠ unsorted then none
        else if record.isLive ∧ record.key = key then some record.span
        else scanBack key start (back.dropWhile (· != newline))
      | none => scanBack key start (back.dropWhile (· != newline))
    else none
termination_by back => back.length
decreasing_by
  all_goals
    have h := (List.dropWhile_sublist (l := back) (· != newline)).length_le
    simp only [List.length_cons]
    omega

/-- Finds the last live record with `key` among those appended since the last sort. -/
def scanTail (data : Bytes) (headLen : Nat) (key : Bytes) : Option Span :=
  scanBack key data.length (data.drop headLen).reverse

end RecordStore.Index
