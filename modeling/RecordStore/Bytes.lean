/-!
# Bytes and lines

A store file is a list of bytes, read as lines.  A line runs through its newline; the last one of
a file may lack it.

* `takeLine` / `dropLine` — the first line and what follows it.
* `wholeLines` / `openLine` — everything through the last newline, and the unfinished line after it.
* `lines` — all lines, in order; `linesAt` pairs each with its offset.
* `pieces` — a cut at chosen bytes, as in paths and command words.

Principal results: `flatten_lines`, `takeLine_append_dropLine`, `wholeLines_append_openLine` —
cutting into lines loses nothing.
-/

set_option autoImplicit false

namespace RecordStore

abbrev Bytes := List UInt8

def newline : UInt8 := '\n'.toUInt8

/-- The bytes of an ASCII text. -/
def ascii (text : List Char) : Bytes := text.map Char.toUInt8

/-- The first line, newline included, or everything if there is no newline. -/
def takeLine : Bytes → Bytes
  | [] => []
  | b :: rest => if b = newline then [b] else b :: takeLine rest

/-- What follows the first line. -/
def dropLine : Bytes → Bytes
  | [] => []
  | b :: rest => if b = newline then rest else dropLine rest

theorem takeLine_append_dropLine (s : Bytes) : takeLine s ++ dropLine s = s := by
  induction s with
  | nil => rfl
  | cons b rest ih => by_cases h : b = newline <;> simp [takeLine, dropLine, h, ih]

theorem length_takeLine_add_length_dropLine (s : Bytes) :
    (takeLine s).length + (dropLine s).length = s.length := by
  rw [← List.length_append, takeLine_append_dropLine]

theorem length_dropLine_lt {s : Bytes} (h : s ≠ []) : (dropLine s).length < s.length := by
  cases s with
  | nil => exact absurd rfl h
  | cons b rest =>
    have := length_takeLine_add_length_dropLine rest
    by_cases hb : b = newline <;> simp [dropLine, hb]
    omega

/-- The bytes after the last newline. -/
def openLine (s : Bytes) : Bytes := (s.reverse.takeWhile (· != newline)).reverse

/-- Everything through the last newline. -/
def wholeLines (s : Bytes) : Bytes := (s.reverse.dropWhile (· != newline)).reverse

theorem wholeLines_append_openLine (s : Bytes) : wholeLines s ++ openLine s = s := by
  simp [wholeLines, openLine, ← List.reverse_append, List.takeWhile_append_dropWhile]

theorem length_wholeLines_le (s : Bytes) : (wholeLines s).length ≤ s.length := by
  have := congrArg List.length (wholeLines_append_openLine s)
  simp only [List.length_append] at this
  omega

/-- Whether the bytes end in a newline. -/
def endsLine (s : Bytes) : Bool := s.getLast? == some newline

theorem length_pos_of_endsLine {s : Bytes} (h : endsLine s = true) : 0 < s.length := by
  cases s with
  | nil => simp [endsLine] at h
  | cons b rest => simp

/-- The lines of `s`. -/
def lines : Bytes → List Bytes
  | [] => []
  | b :: rest =>
    if b = newline then [b] :: lines rest
    else match lines rest with
      | [] => [[b]]
      | line :: more => (b :: line) :: more

theorem flatten_lines (s : Bytes) : (lines s).flatten = s := by
  induction s with
  | nil => rfl
  | cons b rest ih =>
    by_cases h : b = newline
    · simp [lines, h, ih]
    · simp only [lines, h, if_false]
      cases hl : lines rest with
      | nil => rw [hl] at ih; simp at ih; simp [← ih]
      | cons line more => rw [hl] at ih; simp at ih; simp [ih]

/-- A stretch of bytes. -/
structure Span where
  offset : Nat
  length : Nat
  deriving DecidableEq, Repr

/-- The bytes of a span that lie inside `data`. -/
def Span.read (span : Span) (data : Bytes) : Bytes := (data.drop span.offset).take span.length

/-- A line and the offset of its first byte. -/
structure Line where
  offset : Nat
  text : Bytes
  deriving DecidableEq, Repr

def Line.span (line : Line) : Span := ⟨line.offset, line.text.length⟩

/-- Pairs consecutive texts with their offsets, the first one standing at `start`. -/
def linesAt (start : Nat) : List Bytes → List Line
  | [] => []
  | text :: more => ⟨start, text⟩ :: linesAt (start + text.length) more

/-- The lines of `data` from byte `start` on. -/
def linesFrom (start : Nat) (data : Bytes) : List Line := linesAt start (lines (data.drop start))

/-- Cuts at every byte that `cuts` selects; the cutting bytes belong to no piece. -/
def pieces (cuts : UInt8 → Bool) : Bytes → List Bytes
  | [] => [[]]
  | b :: rest =>
    match pieces cuts rest with
    | [] => [[b]]
    | piece :: more => if cuts b then [] :: piece :: more else (b :: piece) :: more

/-- The offset at which the line standing at `offset` ends. -/
def lineEnd (data : Bytes) (offset : Nat) : Nat := offset + (takeLine (data.drop offset)).length

end RecordStore
