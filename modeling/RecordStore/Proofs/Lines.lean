import Mathlib.Tactic.Common
import RecordStore.Index.Search

/-!
# Complete lines

A region made of complete lines is cut back into exactly these lines, wherever the cut is made: at
the first newline, at the last one, or in the middle.

* `IsLine` — a text whose only newline is its last byte.

Principal results: `lines_flatten` — complete lines are read back; `mem_linesFrom_iff` — which lines
a region has, and where; `lines_pivot` — the middle of a region is one of its lines.
-/

set_option autoImplicit false

namespace RecordStore

/-- A complete line: its last byte is its only newline. -/
def IsLine (text : Bytes) : Prop := ∃ body : Bytes, newline ∉ body ∧ text = body ++ [newline]

theorem IsLine.length_pos {text : Bytes} (h : IsLine text) : 0 < text.length := by
  obtain ⟨body, -, rfl⟩ := h
  simp

theorem IsLine.ne_nil {text : Bytes} (h : IsLine text) : text ≠ [] :=
  List.length_pos_iff.1 h.length_pos

theorem IsLine.endsLine {text : Bytes} (h : IsLine text) : endsLine text = true := by
  obtain ⟨body, -, rfl⟩ := h
  simp [RecordStore.endsLine]

theorem newline_mem_of_endsLine {s : Bytes} (h : endsLine s = true) : newline ∈ s :=
  List.mem_of_getLast? (by simpa [endsLine] using h)

theorem endsLine_append {s rest : Bytes} (h : rest ≠ []) : endsLine (s ++ rest) = endsLine rest := by
  simp only [endsLine, List.getLast?_append, List.getLast?_eq_some_getLast h, Option.some_or]

/-! ## The first line -/

theorem takeLine_append_of_notMem {front : Bytes} (h : newline ∉ front) (rest : Bytes) :
    takeLine (front ++ rest) = front ++ takeLine rest := by
  induction front with
  | nil => rfl
  | cons b front ih =>
    simp only [List.mem_cons, not_or] at h
    rw [List.cons_append, takeLine, if_neg (Ne.symm h.1), ih h.2, List.cons_append]

theorem takeLine_body {body : Bytes} (h : newline ∉ body) (rest : Bytes) :
    takeLine (body ++ newline :: rest) = body ++ [newline] := by
  rw [takeLine_append_of_notMem h, takeLine, if_pos rfl]

theorem takeLine_append {text : Bytes} (h : IsLine text) (rest : Bytes) :
    takeLine (text ++ rest) = text := by
  obtain ⟨body, hb, rfl⟩ := h
  simpa using takeLine_body hb rest

theorem dropLine_append {text : Bytes} (h : IsLine text) (rest : Bytes) :
    dropLine (text ++ rest) = rest := by
  have := takeLine_append_dropLine (text ++ rest)
  rw [takeLine_append h] at this
  exact List.append_cancel_left this

theorem takeLine_of_notMem {s : Bytes} (h : newline ∉ s) : takeLine s = s := by
  have hread := takeLine_append_of_notMem h []
  rwa [takeLine, List.append_nil] at hread

/-- The first line either runs through the first newline or is everything. -/
theorem isLine_takeLine_of_mem {s : Bytes} (h : newline ∈ s) : IsLine (takeLine s) := by
  induction s with
  | nil => exact absurd h (List.not_mem_nil)
  | cons b rest ih =>
    by_cases hb : b = newline
    · exact ⟨[], List.not_mem_nil, by simp [takeLine, hb]⟩
    · obtain ⟨body, hbody, heq⟩ := ih ((List.mem_cons.1 h).resolve_left (Ne.symm hb))
      exact ⟨b :: body, by simp [hbody, Ne.symm hb], by simp [takeLine, hb, heq]⟩

/-! ## All lines -/

theorem lines_append {text : Bytes} (h : IsLine text) (rest : Bytes) :
    lines (text ++ rest) = text :: lines rest := by
  obtain ⟨body, hb, rfl⟩ := h
  induction body with
  | nil => simp [lines]
  | cons b body ih =>
    simp only [List.mem_cons, not_or] at hb
    have := ih hb.2
    simp only [List.append_assoc, List.cons_append, List.nil_append] at this ⊢
    simp [lines, Ne.symm hb.1, this]

theorem lines_flatten_append {texts : List Bytes} (h : ∀ text ∈ texts, IsLine text) (rest : Bytes) :
    lines (texts.flatten ++ rest) = texts ++ lines rest := by
  induction texts with
  | nil => rfl
  | cons text more ih =>
    rw [List.flatten_cons, List.append_assoc, lines_append (h text (List.mem_cons_self ..)),
      ih fun t ht => h t (List.mem_cons_of_mem _ ht), List.cons_append]

/-- **Complete lines are read back.** -/
theorem lines_flatten {texts : List Bytes} (h : ∀ text ∈ texts, IsLine text) :
    lines texts.flatten = texts := by
  simpa [lines] using lines_flatten_append h []

theorem lines_of_notMem {s : Bytes} (h : newline ∉ s) (hne : s ≠ []) : lines s = [s] := by
  induction s with
  | nil => exact absurd rfl hne
  | cons b rest ih =>
    simp only [List.mem_cons, not_or] at h
    by_cases hr : rest = []
    · simp [lines, Ne.symm h.1, hr]
    · simp [lines, Ne.symm h.1, ih h.2 hr]

/-- Any bytes are complete lines followed by a fragment without a newline. -/
theorem exists_lines_fragment (s : Bytes) :
    ∃ (texts : List Bytes) (fragment : Bytes), (∀ text ∈ texts, IsLine text) ∧ newline ∉ fragment ∧
      s = texts.flatten ++ fragment := by
  induction s with
  | nil => exact ⟨[], [], by simp, by simp, rfl⟩
  | cons b rest ih =>
    obtain ⟨texts, fragment, ht, hf, rfl⟩ := ih
    by_cases hb : b = newline
    · refine ⟨[newline] :: texts, fragment, ?_, hf, by simp [hb]⟩
      simp only [List.mem_cons, forall_eq_or_imp]
      exact ⟨⟨[], by simp, rfl⟩, ht⟩
    · cases texts with
      | nil => exact ⟨[], b :: fragment, by simp, by simp [hf, Ne.symm hb], rfl⟩
      | cons text more =>
        refine ⟨(b :: text) :: more, fragment, ?_, hf, rfl⟩
        simp only [List.mem_cons, forall_eq_or_imp] at ht ⊢
        obtain ⟨⟨body, hbody, rfl⟩, hmore⟩ := ht
        exact ⟨⟨b :: body, by simp [hbody, Ne.symm hb], rfl⟩, hmore⟩

/-- Bytes that end in a newline, or no bytes at all, are made of complete lines. -/
theorem exists_flatten_of_endsLine {s : Bytes} (h : s = [] ∨ endsLine s = true) :
    ∃ texts : List Bytes, (∀ text ∈ texts, IsLine text) ∧ s = texts.flatten := by
  obtain ⟨texts, fragment, ht, hf, rfl⟩ := exists_lines_fragment s
  suffices fragment = [] by exact ⟨texts, ht, by simp [this]⟩
  rcases h with h | h
  · exact (List.append_eq_nil_iff.1 h).2
  · by_contra hne
    rw [endsLine_append hne] at h
    exact hf (newline_mem_of_endsLine h)

theorem endsLine_flatten {texts : List Bytes} (h : ∀ text ∈ texts, IsLine text) (hne : texts ≠ []) :
    endsLine texts.flatten = true := by
  induction texts with
  | nil => exact absurd rfl hne
  | cons text more ih =>
    have hmore : ∀ t ∈ more, IsLine t := fun t ht => h t (List.mem_cons_of_mem _ ht)
    by_cases hm : more = []
    · simpa [hm] using (h text (List.mem_cons_self ..)).endsLine
    · have hend := ih hmore hm
      rw [List.flatten_cons, endsLine_append fun e => by simp [e, endsLine] at hend]
      exact hend

/-! ## Lines with their offsets -/

theorem linesAt_append (start : Nat) (front back : List Bytes) :
    linesAt start (front ++ back) =
      linesAt start front ++ linesAt (start + front.flatten.length) back := by
  induction front generalizing start with
  | nil => rfl
  | cons text more ih =>
    simp only [List.cons_append, linesAt, ih, List.flatten_cons, List.length_append,
      Nat.add_assoc]

theorem map_text_linesAt (start : Nat) (texts : List Bytes) :
    (linesAt start texts).map Line.text = texts := by
  induction texts generalizing start with
  | nil => rfl
  | cons text more ih => simp [linesAt, ih]

theorem mem_linesAt_iff {start : Nat} {texts : List Bytes} {line : Line} :
    line ∈ linesAt start texts ↔ ∃ front back, texts = front ++ line.text :: back ∧
      line.offset = start + front.flatten.length := by
  induction texts generalizing start with
  | nil => simp [linesAt]
  | cons text more ih =>
    rw [linesAt, List.mem_cons, ih]
    constructor
    · rintro (rfl | ⟨front, back, rfl, hoff⟩)
      · exact ⟨[], more, rfl, rfl⟩
      · exact ⟨text :: front, back, rfl, by simp [hoff, Nat.add_assoc]⟩
    · rintro ⟨front, back, heq, hoff⟩
      cases front with
      | nil =>
        simp only [List.nil_append, List.cons.injEq] at heq
        exact Or.inl (by cases line; simp_all)
      | cons first front =>
        simp only [List.cons_append, List.cons.injEq] at heq
        obtain ⟨rfl, rfl⟩ := heq
        exact Or.inr ⟨front, back, rfl, by simp [hoff, Nat.add_assoc]⟩

theorem lines_eq_cons {s : Bytes} (h : s ≠ []) : lines s = takeLine s :: lines (dropLine s) := by
  induction s with
  | nil => exact absurd rfl h
  | cons b rest ih =>
    by_cases hb : b = newline
    · simp [lines, takeLine, dropLine, hb]
    · by_cases hr : rest = []
      · simp [lines, takeLine, dropLine, hb, hr]
      · simp [lines, takeLine, dropLine, hb, ih hr]

theorem newline_mem_of_dropLine_ne_nil {s : Bytes} (h : dropLine s ≠ []) : newline ∈ s := by
  by_contra hmem
  have := takeLine_append_dropLine s
  rw [takeLine_of_notMem hmem] at this
  exact h (List.append_right_eq_self.1 this)

/-- The lines of some bytes: each starts at the front or after a newline. -/
theorem mem_linesAt_lines_iff {start : Nat} {s : Bytes} {line : Line} :
    line ∈ linesAt start (lines s) ↔ ∃ front rest, s = front ++ rest ∧
      (front = [] ∨ endsLine front = true) ∧ rest ≠ [] ∧ takeLine rest = line.text ∧
      line.offset = start + front.length := by
  induction hs : s.length using Nat.strongRecOn generalizing s start with
  | ind n ih =>
    by_cases hne : s = []
    · subst hne
      simp only [lines, linesAt, List.not_mem_nil, false_iff]
      rintro ⟨front, rest, heq, -, hrest, -⟩
      exact hrest (List.append_eq_nil_iff.1 heq.symm).2
    have hlt := length_dropLine_lt hne
    rw [lines_eq_cons hne, linesAt, List.mem_cons, ih _ (hs ▸ hlt) rfl]
    constructor
    · rintro (rfl | ⟨front, rest, heq, hfront, hrest, htake, hoff⟩)
      · exact ⟨[], s, rfl, Or.inl rfl, hne, rfl, rfl⟩
      · have hdrop : dropLine s ≠ [] := by rw [heq]; simp [hrest]
        have hline := (isLine_takeLine_of_mem (newline_mem_of_dropLine_ne_nil hdrop)).endsLine
        refine ⟨takeLine s ++ front, rest, ?_, Or.inr ?_, hrest, htake, ?_⟩
        · rw [List.append_assoc, ← heq, takeLine_append_dropLine]
        · rcases hfront with rfl | hfront
          · simpa using hline
          · rw [endsLine_append fun e => by simp [e, endsLine] at hfront]
            exact hfront
        · rw [hoff, List.length_append, Nat.add_assoc]
    · rintro ⟨front, rest, heq, hfront, hrest, htake, hoff⟩
      by_cases hf : front = []
      · subst hf
        exact Or.inl (by cases line; simp_all)
      · obtain ⟨texts, htexts, rfl⟩ := exists_flatten_of_endsLine hfront
        cases texts with
        | nil => exact absurd rfl hf
        | cons text more =>
          have hmore : ∀ t ∈ more, IsLine t := fun t ht => htexts t (List.mem_cons_of_mem _ ht)
          have hfirst : s = text ++ (more.flatten ++ rest) := by simp [heq]
          have htext := htexts text (List.mem_cons_self ..)
          refine Or.inr ⟨more.flatten, rest, ?_, ?_, hrest, htake, ?_⟩
          · rw [hfirst, dropLine_append htext]
          · by_cases hm : more = []
            · exact Or.inl (by simp [hm])
            · exact Or.inr (endsLine_flatten hmore hm)
          · rw [hoff, hfirst, takeLine_append htext]
            simp [Nat.add_assoc]

theorem getElem?_sub_one_of_endsLine {front : Bytes} (h : endsLine front = true) (rest : Bytes) :
    (front ++ rest)[front.length - 1]? = some newline := by
  have hpos := length_pos_of_endsLine h
  rw [List.getElem?_append_left (by omega), ← List.getLast?_eq_getElem?]
  simpa [endsLine] using h

/-- **The lines of a region**: they start at its front or after a newline. -/
theorem mem_linesFrom_iff {start : Nat} {data : Bytes} {line : Line} :
    line ∈ linesFrom start data ↔ start ≤ line.offset ∧ line.offset < data.length ∧
      (line.offset = start ∨ data[line.offset - 1]? = some newline) ∧
      takeLine (data.drop line.offset) = line.text := by
  rw [linesFrom, mem_linesAt_lines_iff]
  constructor
  · rintro ⟨front, rest, heq, hfront, hrest, htake, hoff⟩
    have hlen := congrArg List.length heq
    have hpos := List.length_pos_iff.2 hrest
    simp only [List.length_drop, List.length_append] at hlen
    refine ⟨by omega, by omega, ?_, ?_⟩
    · rcases hfront with rfl | hfront
      · exact Or.inl (by simpa using hoff)
      · have := length_pos_of_endsLine hfront
        have hget := getElem?_sub_one_of_endsLine hfront rest
        rw [← heq, List.getElem?_drop] at hget
        rw [hoff, Nat.add_sub_assoc this]
        exact Or.inr hget
    · rw [hoff, ← List.drop_drop, heq, List.drop_left, htake]
  · rintro ⟨hle, hlt, hstart, htake⟩
    obtain ⟨k, hk⟩ := Nat.exists_eq_add_of_le hle
    refine ⟨(data.drop start).take k, (data.drop start).drop k,
      (List.take_append_drop k _).symm, ?_, ?_, ?_, ?_⟩
    · rcases hstart with hstart | hstart
      · exact Or.inl (by simp [show k = 0 by omega])
      · rcases Nat.eq_zero_or_pos k with hk0 | hkpos
        · exact Or.inl (by simp [hk0])
        · right
          have hidx : start + k - 1 = start + (k - 1) := by omega
          have hlen : ((data.drop start).take k).length - 1 = k - 1 := by
            simp only [List.length_take, List.length_drop]
            omega
          rw [endsLine, List.getLast?_eq_getElem?, hlen, List.getElem?_take_of_lt (by omega),
            List.getElem?_drop, ← hidx, ← hk, hstart]
          rfl
    · rw [← List.length_pos_iff, List.length_drop, List.length_drop]
      omega
    · rw [List.drop_drop, ← hk, htake]
    · rw [List.length_take, List.length_drop, Nat.min_eq_left (by omega)]
      exact hk

/-- A line is read at its place. -/
theorem read_span_of_mem {data : Bytes} {start : Nat} {line : Line}
    (h : line ∈ linesFrom start data) : line.span.read data = line.text := by
  obtain ⟨-, -, -, htext⟩ := mem_linesFrom_iff.1 h
  have hcut : data.drop line.offset = line.text ++ dropLine (data.drop line.offset) := by
    rw [← htext, takeLine_append_dropLine]
  show (data.drop line.offset).take line.text.length = line.text
  rw [hcut, List.take_left]

/-! ## The middle of a region -/

theorem wholeLines_flatten_append {texts : List Bytes} {fragment : Bytes}
    (h : ∀ text ∈ texts, IsLine text) (hf : newline ∉ fragment) :
    wholeLines (texts.flatten ++ fragment) = texts.flatten := by
  have hfrag : ∀ b ∈ fragment.reverse, (b != newline) = true := by
    intro b hb
    rw [bne_iff_ne]
    rintro rfl
    exact hf (List.mem_reverse.1 hb)
  rw [wholeLines, List.reverse_append, List.dropWhile_append_of_pos hfrag]
  by_cases hne : texts = []
  · simp [hne]
  · have hend := endsLine_flatten h hne
    obtain ⟨init, last, heq⟩ : ∃ init last, texts.flatten = init ++ [last] :=
      ⟨_, _, (List.dropLast_concat_getLast (fun e => by simp [e, endsLine] at hend)).symm⟩
    have hlast : last = newline := by simpa [heq, endsLine] using hend
    simp [heq, hlast]

/-- Complete lines in front of a region are its first lines. -/
theorem lines_append_of_endsLine {front : Bytes} (h : front = [] ∨ endsLine front = true)
    (rest : Bytes) : lines (front ++ rest) = lines front ++ lines rest := by
  obtain ⟨texts, hlines, rfl⟩ := exists_flatten_of_endsLine h
  rw [lines_flatten_append hlines, lines_flatten hlines]

theorem newline_notMem_openLine (s : Bytes) : newline ∉ openLine s := by
  intro h
  rw [openLine, List.mem_reverse] at h
  have hne := List.all_eq_true.1 List.all_takeWhile newline h
  simp at hne

theorem endsLine_wholeLines (s : Bytes) : wholeLines s = [] ∨ endsLine (wholeLines s) = true := by
  obtain ⟨texts, fragment, hlines, hf, rfl⟩ := exists_lines_fragment s
  rw [wholeLines_flatten_append hlines hf]
  by_cases hne : texts = []
  · exact Or.inl (by rw [hne, List.flatten_nil])
  · exact Or.inr (endsLine_flatten hlines hne)

/-- **The middle line of a region is one of its lines**, and both sides are made of the others. -/
theorem lines_pivot {region : Bytes} (h : region ≠ []) :
    lines region = lines (Index.Pivot.of region).before
      ++ (Index.Pivot.of region).line :: lines (Index.Pivot.of region).after := by
  have hbefore := Index.Pivot.length_before_of_lt h
  have hrest : region.drop (Index.Pivot.of region).before.length ≠ [] := by
    simpa [List.drop_eq_nil_iff] using hbefore
  have hline : (Index.Pivot.of region).line = takeLine (region.drop (Index.Pivot.of region).before.length) :=
    rfl
  have hafter : (Index.Pivot.of region).after =
      dropLine (region.drop (Index.Pivot.of region).before.length) := rfl
  have hwhole : (Index.Pivot.of region).before = [] ∨ endsLine (Index.Pivot.of region).before = true :=
    endsLine_wholeLines _
  have hjoin := Index.Pivot.join_of region
  rw [List.append_assoc, hline, hafter, takeLine_append_dropLine] at hjoin
  rw [hline, hafter, ← lines_eq_cons hrest, ← lines_append_of_endsLine hwhole, hjoin]

end RecordStore
