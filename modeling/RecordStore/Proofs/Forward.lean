import RecordStore.Proofs.Tail

/-!
# The tail scan read forward

The scan of the unsorted tail walks backward over bytes.  Said forward over lines: each record that a
sort has placed starts the tail anew, and the scan answers the last live record with the key in the
tail that is left at the end.

* `isPlaced`, `bears` — a line that a sort has placed; a line with a live record of a key.
* `unplaced` — the lines behind the last one that a sort has placed.
* `newest?` — the last line that bears a key.

Principal results: `exists_append_unplaced` — where the tail starts; `latest?_reverse` — the walk over
lines, last one first, against its forward reading; `scanTail_forward` — the same for any bytes.
-/

set_option autoImplicit false

namespace RecordStore

/-! ## Lines as they are iterated -/

theorem flatten_map_text_linesFrom (start : Nat) (data : Bytes) :
    ((linesFrom start data).map Line.text).flatten = data.drop start := by
  rw [linesFrom, map_text_linesAt, flatten_lines]

theorem text_ne_nil_of_mem_linesFrom {start : Nat} {data : Bytes} {line : Line}
    (h : line ∈ linesFrom start data) : line.text ≠ [] := by
  obtain ⟨-, hlt, -, htext⟩ := mem_linesFrom_iff.1 h
  intro hnil
  have hsplit := takeLine_append_dropLine (data.drop line.offset)
  have hshort : (dropLine (data.drop line.offset)).length < (data.drop line.offset).length :=
    length_dropLine_lt (by simp; omega)
  rw [htext, hnil, List.nil_append] at hsplit
  rw [hsplit] at hshort
  omega

/-- Bytes that end in a newline have complete lines only. -/
theorem isLine_of_mem_linesFrom {start : Nat} {data : Bytes} (hend : endsLine (data.drop start) = true)
    {line : Line} (h : line ∈ linesFrom start data) : IsLine line.text := by
  obtain ⟨texts, hlines, htexts⟩ := exists_flatten_of_endsLine (Or.inr hend)
  rw [linesFrom, htexts, lines_flatten hlines] at h
  have htext := List.mem_map_of_mem (f := Line.text) h
  rw [map_text_linesAt] at htext
  exact hlines _ htext

namespace Index

/-! ## The forward reading -/

/-- Whether a line is a record that a sort has placed. -/
def isPlaced (line : Line) : Bool := (Record.ofLine? line).any fun r => r.slot != unsorted

/-- Whether a line is a live record with `key`. -/
def bears (key : Bytes) (line : Line) : Bool :=
  (Record.ofLine? line).any fun r => r.isLive && r.key == key

/-- The lines behind the last one that a sort has placed. -/
def unplaced (lines : List Line) : List Line :=
  lines.foldl (fun tail line => if isPlaced line then [] else tail ++ [line]) []

/-- Where the last line stands that bears `key`. -/
def newest? (key : Bytes) (lines : List Line) : Option Span :=
  (lines.filter (bears key)).getLast?.map Line.span

variable {key : Bytes}

@[simp] theorem unplaced_nil : unplaced [] = [] := rfl

theorem unplaced_concat (lines : List Line) (line : Line) :
    unplaced (lines ++ [line]) = if isPlaced line then [] else unplaced lines ++ [line] := by
  simp [unplaced, List.foldl_append]

@[simp] theorem newest?_nil : newest? key [] = none := rfl

theorem newest?_concat (lines : List Line) (line : Line) :
    newest? key (lines ++ [line]) = if bears key line then some line.span else newest? key lines := by
  by_cases h : bears key line <;> simp [newest?, List.filter_append, h]

/-- **Where the tail starts**: at the first line, or behind a line that a sort has placed; and it holds
none of these. -/
theorem exists_append_unplaced (lines : List Line) :
    ∃ front, lines = front ++ unplaced lines ∧
      (front = [] ∨ ∃ sorted last, front = sorted ++ [last] ∧ isPlaced last = true) ∧
      ∀ line ∈ unplaced lines, isPlaced line = false := by
  induction lines using List.reverseRecOn with
  | nil => exact ⟨[], by simp⟩
  | append_singleton init line ih =>
    rw [unplaced_concat]
    by_cases hplaced : isPlaced line = true
    · rw [if_pos hplaced]
      exact ⟨init ++ [line], by simp, Or.inr ⟨init, line, rfl, hplaced⟩, by simp⟩
    · obtain ⟨front, hfront, hstart, htail⟩ := ih
      rw [if_neg hplaced]
      refine ⟨front, ?_, hstart, ?_⟩
      · rw [← List.append_assoc, ← hfront]
      · intro other hmem
        rcases List.mem_append.1 hmem with hmem | hmem
        · exact htail other hmem
        · rw [List.mem_singleton.1 hmem]
          simpa using hplaced

/-! ## The two readings -/

/-- One line of the backward walk, in the words of the forward reading. -/
theorem latest?_cons (line : Line) (more : List Line) :
    latest? key (line :: more) =
      if isPlaced line then none else if bears key line then some line.span else latest? key more := by
  rw [latest?]
  cases hrec : Record.ofLine? line with
  | none => simp [isPlaced, bears, hrec]
  | some record =>
    obtain ⟨-, rfl⟩ := Record.ofLine?_eq_some_iff.1 hrec
    by_cases hslot : record.slot = unsorted
    · simp [isPlaced, bears, hrec, hslot, Record.span]
    · simp [isPlaced, hrec, hslot]

/-- **The backward walk answers what is read forward.** -/
theorem latest?_reverse (lines : List Line) :
    latest? key lines.reverse = newest? key (unplaced lines) := by
  induction lines using List.reverseRecOn with
  | nil => rfl
  | append_singleton init line ih =>
    rw [List.reverse_append, List.reverse_singleton, List.singleton_append, latest?_cons, unplaced_concat]
    by_cases hplaced : isPlaced line = true
    · simp [hplaced]
    · rw [if_neg hplaced, if_neg hplaced, newest?_concat, ih]

theorem scanTail_of_not_endsLine {data : Bytes} {headLen : Nat}
    (h : endsLine (data.drop headLen) = false) : scanTail data headLen key = none := by
  rw [endsLine, ← List.head?_reverse] at h
  rw [scanTail]
  cases hback : (data.drop headLen).reverse with
  | nil => rw [scanBack]
  | cons b back =>
    rw [hback] at h
    rw [scanBack, if_neg (by simpa using h)]

/-- **The tail scan read forward.**  Whatever the bytes, it answers nothing if nothing stands behind the
header or the last line is unfinished; otherwise it answers the last live record with the key behind the
last record that a sort has placed, the lines being taken in file order.  These lines make up everything
behind the header, none of them is empty, and where the scan answers each is complete. -/
theorem scanTail_forward (data : Bytes) (headLen : Nat) (key : Bytes) :
    scanTail data headLen key =
        (if endsLine (data.drop headLen) then newest? key (unplaced (linesFrom headLen data)) else none) ∧
      (∃ front, linesFrom headLen data = front ++ unplaced (linesFrom headLen data) ∧
        (front = [] ∨ ∃ sorted last, front = sorted ++ [last] ∧ isPlaced last = true) ∧
        ∀ line ∈ unplaced (linesFrom headLen data), isPlaced line = false) ∧
      ((linesFrom headLen data).map Line.text).flatten = data.drop headLen ∧
      (∀ line ∈ linesFrom headLen data, line.text ≠ [] ∧ line.span.read data = line.text) ∧
      (endsLine (data.drop headLen) = true → ∀ line ∈ linesFrom headLen data, IsLine line.text) := by
  refine ⟨?_, exists_append_unplaced _, flatten_map_text_linesFrom headLen data,
    fun line hline => ⟨text_ne_nil_of_mem_linesFrom hline, read_span_of_mem hline⟩,
    fun hend line hline => isLine_of_mem_linesFrom hend hline⟩
  by_cases hend : endsLine (data.drop headLen) = true
  · obtain ⟨texts, hlines, htexts⟩ := exists_flatten_of_endsLine (Or.inr hend)
    have hlen : headLen ≤ data.length := by
      have := length_pos_of_endsLine hend
      simp only [List.length_drop] at this
      omega
    rw [if_pos hend, scanTail_eq_latest? hlines htexts hlen, latest?_reverse]
  · rw [if_neg hend, scanTail_of_not_endsLine (Bool.eq_false_iff.2 hend)]

/-- A placed record of `k`, an empty line, a live record of `k`, one of `m`, a damaged line with a slot
of its own, and a dead record of `k`. -/
def mixedTail : Bytes :=
  ascii ("+0000000e.0000:k a=1\n\n+00000000.0000:k a=2\n+00000000.0000:m\n*0000000e.0000:k\n" ++
    "-00000000.0000:k a=3\n").toList

theorem scanTail_forward_of_mixed_tail :
    endsLine (mixedTail.drop 0) = true ∧
      unplaced (linesFrom 0 mixedTail) = (linesFrom 0 mixedTail).drop 1 ∧
      scanTail mixedTail 0 (ascii ['k']) = some ⟨22, 21⟩ ∧
      (linesFrom 0 mixedTail).length = 6 ∧ ∀ line ∈ linesFrom 0 mixedTail, IsLine line.text := by
  have hend : endsLine (mixedTail.drop 0) = true := by decide +kernel
  have htail : unplaced (linesFrom 0 mixedTail) = (linesFrom 0 mixedTail).drop 1 := by decide +kernel
  have hnewest : newest? (ascii ['k']) ((linesFrom 0 mixedTail).drop 1) = some ⟨22, 21⟩ := by
    decide +kernel
  obtain ⟨hscan, -, -, -, hcomplete⟩ := scanTail_forward mixedTail 0 (ascii ['k'])
  rw [if_pos hend, htail, hnewest] at hscan
  exact ⟨hend, htail, hscan, by decide +kernel, hcomplete hend⟩

end Index

end RecordStore
