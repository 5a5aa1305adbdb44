import Mathlib.Data.List.Forall2
import Mathlib.Tactic.Common
import RecordStore.Proofs.Slots
import RecordStore.Proofs.Tail

/-!
# Lookups agree with a scan

A lookup searches the lines that a sort has placed through their slots and walks through the lines
appended since.  Together the two find exactly what a scan of the whole file finds.

* `naiveScan` — the last live record with a key, found by reading every line.
* `KeepsRouting` — an edit that keeps the newlines and, of each line, its slot and its key.

Principal results: `lookup_sound` and `lookup_isSome` — for routed lines with an unsorted tail;
`lookup_agrees_with_scan` — the same for a file that was sorted, edited and appended to.
-/

set_option autoImplicit false

namespace RecordStore.Index

variable {data key : Bytes} {headLen : Nat}

/-- The last live record with `key`, found by reading every line. -/
def naiveScan (data : Bytes) (headLen : Nat) (key : Bytes) : Option Span :=
  ((liveRecordsFrom headLen data).filter fun r => r.key == key).getLast?.map Record.span

/-- The scan answers the only live record with its key. -/
theorem naiveScan_of_one
    (hone : ((liveRecordsFrom headLen data).filter fun r => r.key == key).length = 1) {r : Record}
    (hr : r ∈ liveRecordsFrom headLen data) (hkey : r.key = key) :
    naiveScan data headLen key = some r.span := by
  obtain ⟨only, honly⟩ := List.length_eq_one_iff.1 hone
  have hmem : r ∈ (liveRecordsFrom headLen data).filter fun r => r.key == key :=
    List.mem_filter.2 ⟨hr, by simp [hkey]⟩
  rw [honly, List.mem_singleton] at hmem
  rw [naiveScan, honly, hmem]
  rfl

/-- **A lookup answers only live records with the key.** -/
theorem lookup_sound {texts : List Bytes} (hline : data[headLen - 1]? = some newline)
    (hlines : ∀ text ∈ texts, IsLine text) (hlen : headLen ≤ data.length)
    (hdata : data.drop headLen = texts.flatten) {span : Span}
    (h : (search data headLen key).or (scanTail data headLen key) = some span) :
    ∃ r ∈ liveRecordsFrom headLen data, r.key = key ∧ r.span = span := by
  rcases Option.or_eq_some_iff.1 h with hsearch | ⟨-, htail⟩
  · unfold search at hsearch
    split at hsearch
    · cases hsearch
    · exact searchRegion_sound hline hsearch
  · rw [scanTail_eq_latest? hlines hdata hlen] at htail
    obtain ⟨r, hmem, hlive, hkey, hspan⟩ := latest?_sound htail
    have hfrom : r.toLine ∈ linesFrom headLen data := List.mem_reverse.1 hmem
    have htext : r.text ∈ texts := by
      rw [linesFrom, hdata, lines_flatten hlines] at hfrom
      rw [← map_text_linesAt headLen texts]
      exact List.mem_map_of_mem hfrom
    exact ⟨r, mem_liveRecordsFrom_iff.2 ⟨hfrom, (hlines _ htext).endsLine, hlive⟩, hkey, hspan⟩

section Placed

variable {placed rest : List Bytes} (hpos : 0 < headLen) (hline : data[headLen - 1]? = some newline)
  (hcut : lines (data.drop headLen) = placed ++ rest)
  (hrouted : Routed (entries (linesAt headLen placed)))
  (hrest : ∀ text ∈ rest, hasSlot text = false ∨ slot? text = some unsorted)

include hpos hline hcut hrouted hrest

/-- **A search finds every key that a placed live record has.** -/
theorem search_isSome {r : Record} (hr : r ∈ liveRecordsFrom headLen data)
    (hmem : r.toLine ∈ linesAt headLen placed) : (search data headLen r.key).isSome = true := by
  obtain ⟨hfrom, hend, hlive⟩ := mem_liveRecordsFrom_iff.1 hr
  have hsub : ∀ line ∈ linesAt headLen placed, line ∈ linesFrom headLen data := by
    intro line hin
    rw [linesFrom, hcut, linesAt_append]
    exact List.mem_append_left _ hin
  have hrec : r ∈ recordsFrom headLen data := mem_recordsFrom_iff.2 ⟨hfrom, hend⟩
  obtain ⟨pivot, hpivot, htarget⟩ := exists_pivot_of_routed hline hrouted hrec hmem
  have hnone : ∀ text ∈ rest, slotTarget? data headLen text = none := fun text ht =>
    slotTarget?_of_unsorted hpos (hrest text ht)
  have horder : (lines (data.drop headLen)).Pairwise (InKeyOrder data headLen) := by
    rw [hcut, List.pairwise_append]
    refine ⟨inKeyOrder_of_routed hline hsub hrouted, ?_, ?_⟩
    · refine List.pairwise_of_forall_mem_list ?_
      intro a ha b _ ra rb hra
      rw [hnone a ha] at hra
      cases hra
    · intro a _ b hb ra rb _ hrb
      rw [hnone b hb] at hrb
      cases hrb
  have hlt := (mem_linesFrom_iff.1 hfrom).2.1
  have hle := (mem_linesFrom_iff.1 hfrom).1
  rw [search, if_neg (by omega)]
  exact searchRegion_isSome horder (hcut ▸ List.mem_append_left _ hpivot) htarget hlive

/-- **A search answers placed records only.** -/
theorem search_placed {span : Span} (h : search data headLen key = some span) :
    ∃ r ∈ liveRecordsFrom headLen data, r.key = key ∧ r.span = span ∧
      r.toLine ∈ linesAt headLen placed := by
  unfold search at h
  split at h
  · cases h
  obtain ⟨pivot, hpivot, r, htarget, hkey, hlive, hspan⟩ := exists_target_of_searchRegion h
  have hrec := mem_of_slotTarget? hline htarget
  refine ⟨r, List.mem_filter.2 ⟨hrec, hlive⟩, hkey, hspan, ?_⟩
  rw [hcut] at hpivot
  rcases List.mem_append.1 hpivot with hin | hin
  · unfold slotTarget? at htarget
    split at htarget
    · next hslot =>
      obtain ⟨v, hv, hat⟩ := Option.bind_eq_some_iff.1 htarget
      obtain ⟨line, hmem, hoff⟩ := exists_line_of_slot hrouted hin hslot hv
      have hfrom : line ∈ linesFrom headLen data := by
        rw [linesFrom, hcut, linesAt_append]
        exact List.mem_append_left _ hmem
      have hroff : r.offset = line.offset := ((recordStartingAt?_eq_some_iff hline).1 hat).2.trans hoff.symm
      rwa [Line.ext_iff.2 ⟨hroff, text_eq_of_mem_linesFrom hfrom hrec hroff⟩]
    · cases htarget
  · rw [slotTarget?_of_unsorted hpos (hrest pivot hin)] at htarget
    cases htarget

omit hline in
/-- **A live record is placed** as soon as its slot names any line. -/
theorem slot_ne_iff_placed {r : Record} (hr : r ∈ liveRecordsFrom headLen data) :
    r.slot ≠ unsorted ↔ r.toLine ∈ linesAt headLen placed := by
  obtain ⟨hfrom, hend, -⟩ := mem_liveRecordsFrom_iff.1 hr
  have hslot := hasSlot_of_defect? r.wellFormed hend
  constructor
  · intro hne
    rw [linesFrom, hcut, linesAt_append] at hfrom
    rcases List.mem_append.1 hfrom with hin | hin
    · exact hin
    · have htext : r.text ∈ rest := by
        rw [← map_text_linesAt (headLen + placed.flatten.length) rest]
        exact List.mem_map_of_mem hin
      rcases hrest r.text htext with hno | hunsorted
      · rw [hslot] at hno
        cases hno
      · exact absurd (by rw [Record.slot, hunsorted]; rfl) hne
  · intro hin hunsorted
    have htext : r.text ∈ placed := by
      rw [← map_text_linesAt headLen placed]
      exact List.mem_map_of_mem hin
    obtain ⟨v, hv⟩ := Option.isSome_iff_exists.1 (slot?_isSome_of_defect? r.wellFormed)
    rw [Record.slot, hv, Option.getD_some] at hunsorted
    exact slot?_ne_of_routed hpos hrouted htext hslot (hunsorted ▸ hv)

end Placed

/-- **A lookup finds every key that a live record has**, through the slots or in the tail. -/
theorem lookup_isSome {placed tail : List Bytes} (hpos : 0 < headLen)
    (hline : data[headLen - 1]? = some newline) (hlines : ∀ text ∈ placed ++ tail, IsLine text)
    (hlen : headLen ≤ data.length) (hdata : data.drop headLen = (placed ++ tail).flatten)
    (hrouted : Routed (entries (linesAt headLen placed)))
    (htail : ∀ text ∈ tail, hasSlot text = false ∨ slot? text = some unsorted) {r : Record}
    (hr : r ∈ liveRecordsFrom headLen data) :
    ((search data headLen r.key).or (scanTail data headLen r.key)).isSome = true := by
  obtain ⟨hfrom, hend, hlive⟩ := mem_liveRecordsFrom_iff.1 hr
  have hcut : lines (data.drop headLen) = placed ++ tail := by rw [hdata, lines_flatten hlines]
  have hall : linesFrom headLen data = linesAt headLen placed
      ++ linesAt (headLen + placed.flatten.length) tail := by
    rw [linesFrom, hcut, linesAt_append]
  rw [Option.isSome_or, Bool.or_eq_true]
  have hmem := hfrom
  rw [hall, List.mem_append] at hmem
  rcases hmem with hmem | hmem
  · -- a placed record: some slot names it
    exact Or.inl (search_isSome hpos hline hcut hrouted htail hr hmem)
  · -- an appended record: no line behind it has a slot
    right
    obtain ⟨front, back, hsplit⟩ := List.append_of_mem hmem
    have hslot : ∀ line ∈ linesAt (headLen + placed.flatten.length) tail,
        ∀ f, Record.ofLine? line = some f → f.slot = unsorted := by
      intro line hin f hf
      obtain ⟨hwell, rfl⟩ := Record.ofLine?_eq_some_iff.1 hf
      have htext : f.text ∈ tail := by
        rw [← map_text_linesAt (headLen + placed.flatten.length) tail]
        exact List.mem_map_of_mem hin
      have hline := hlines f.text (List.mem_append_right _ htext)
      rcases htail f.text htext with h | h
      · rw [hasSlot_of_defect? hwell hline.endsLine] at h
        cases h
      · rw [Record.slot, h, Option.getD_some]
    have hrslot := hslot r.toLine hmem r (Record.ofLine?_eq_some_iff.2 ⟨r.wellFormed, rfl⟩)
    rw [scanTail_eq_latest? hlines hdata hlen, hall, hsplit]
    simp only [List.reverse_append, List.reverse_cons, List.append_assoc, List.singleton_append]
    refine latest?_isSome ?_ hrslot hlive
    intro line hin
    refine hslot line ?_
    rw [hsplit]
    exact List.mem_append_right _ (List.mem_cons_of_mem _ (List.mem_reverse.1 hin))

/-! ## Edits that keep the routing -/

/-- The edit keeps the newlines and, of every line, the eight bytes of its slot and its key. -/
structure KeepsRouting (headLen : Nat) (before after : Bytes) : Prop where
  length_eq : after.length = before.length
  newlines : ∀ i : Nat, after[i]? = some newline ↔ before[i]? = some newline
  slots : ∀ line ∈ linesFrom headLen before,
    ((line.span.read after).drop slotAt).take Hex.wordLen =
      (line.text.drop slotAt).take Hex.wordLen
  keys : ∀ line ∈ linesFrom headLen before, keyOf (line.span.read after) = keyOf line.text

/-- Bytes with newlines at the same places are cut into lines of the same lengths. -/
theorem exists_lines_of_newlines {texts : List Bytes} (hlines : ∀ text ∈ texts, IsLine text)
    {s : Bytes} (hlen : s.length = texts.flatten.length)
    (hnl : ∀ i : Nat, s[i]? = some newline ↔ texts.flatten[i]? = some newline) :
    ∃ texts' : List Bytes, s = texts'.flatten ∧
      List.Forall₂ (fun text text' => IsLine text' ∧ text'.length = text.length) texts texts' := by
  induction texts generalizing s with
  | nil => exact ⟨[], by simpa using hlen, List.Forall₂.nil⟩
  | cons text more ih =>
    simp only [List.mem_cons, forall_eq_or_imp] at hlines
    rw [List.flatten_cons] at hlen hnl
    rw [List.length_append] at hlen
    have hlen' : (s.drop text.length).length = more.flatten.length := by
      rw [List.length_drop]
      omega
    obtain ⟨texts', hrest, hall⟩ := ih hlines.2 hlen' (fun i => by
      rw [List.getElem?_drop, hnl, List.getElem?_append_right (by omega), Nat.add_sub_cancel_left])
    have hcut : (s.take text.length).length = text.length := by
      rw [List.length_take]
      omega
    refine ⟨s.take text.length :: texts', ?_, List.Forall₂.cons ⟨?_, hcut⟩ hall⟩
    · rw [List.flatten_cons, ← hrest, List.take_append_drop]
    · -- the only newline of the first line is its last byte, so it is here too
      obtain ⟨⟨body, hbody, rfl⟩, -⟩ := hlines
      have hbound : (body ++ [newline]).length = body.length + 1 := by simp
      have hlast : s[body.length]? = some newline := by
        rw [hnl, List.getElem?_append_left (by omega)]
        simp
      have hnone : newline ∉ s.take body.length := by
        intro hmem
        obtain ⟨i, hi⟩ := List.mem_iff_getElem?.1 hmem
        have hlt : i < body.length := by
          by_contra hge
          rw [List.getElem?_take_eq_none (by omega)] at hi
          cases hi
        rw [List.getElem?_take_of_lt hlt, hnl, List.getElem?_append_left (by omega),
          List.getElem?_append_left hlt] at hi
        exact hbody (List.mem_of_getElem? hi)
      refine ⟨s.take body.length, hnone, ?_⟩
      rw [hbound, List.take_add_one, hlast]
      rfl

/-- The slots and keys of the stretches under some lines are those of the lines that stand there. -/
theorem forall₂_of_spans {texts texts' : List Bytes}
    (hall : List.Forall₂ (fun text text' => IsLine text' ∧ text'.length = text.length) texts texts')
    (front : Bytes) (h : ∀ line ∈ linesAt front.length texts,
      slot? (line.span.read (front ++ texts'.flatten)) = slot? line.text ∧
        keyOf (line.span.read (front ++ texts'.flatten)) = keyOf line.text) :
    List.Forall₂ (fun text text' => text'.length = text.length ∧ slot? text' = slot? text ∧
      keyOf text' = keyOf text) texts texts' := by
  induction hall generalizing front with
  | nil => exact List.Forall₂.nil
  | @cons text text' more more' hhead _ ih =>
    simp only [linesAt, List.mem_cons, forall_eq_or_imp] at h
    refine List.Forall₂.cons ⟨hhead.2, ?_⟩ (ih (front ++ text') ?_)
    · have := h.1
      simp only [Line.span, Span.read, List.drop_left, List.flatten_cons] at this
      rwa [← hhead.2, List.take_left] at this
    · intro line hline
      rw [List.length_append, hhead.2] at hline
      have := h.2 line hline
      rwa [List.flatten_cons, ← List.append_assoc] at this

/-- Lines of the same lengths, slots and keys have the same entries. -/
theorem entries_congr {texts texts' : List Bytes} (hlines : ∀ text ∈ texts, IsLine text)
    (hlines' : ∀ text ∈ texts', IsLine text)
    (hall : List.Forall₂ (fun text text' => text'.length = text.length ∧
      slot? text' = slot? text ∧ keyOf text' = keyOf text) texts texts') (start : Nat) :
    entries (linesAt start texts') = entries (linesAt start texts) := by
  induction hall generalizing start with
  | nil => rfl
  | @cons text text' more more' hhead _ ih =>
    simp only [List.mem_cons, forall_eq_or_imp] at hlines hlines'
    obtain ⟨hlen, hslot, hkey⟩ := hhead
    have hof : Entry.of? ⟨start, text'⟩ = Entry.of? ⟨start, text⟩ := by
      simp only [Entry.of?, hasSlot, hlen, hslot, hkey, hlines.1.endsLine, hlines'.1.endsLine]
    have hmore := ih hlines.2 hlines'.2 (start + text.length)
    simp only [entries] at hmore
    rw [linesAt, linesAt, entries, entries, List.filterMap_cons, List.filterMap_cons, hof, hlen,
      hmore]

/-- A newline-terminated file, cut behind its header. -/
theorem exists_cut_of_endsLine (hlen : headLen ≤ data.length)
    (hend : endsLine data = true) : ∃ (front : Bytes) (texts : List Bytes), front.length = headLen ∧
      (∀ text ∈ texts, IsLine text) ∧ data = front ++ texts.flatten := by
  have hrest : data.drop headLen = [] ∨ endsLine (data.drop headLen) = true := by
    by_cases hnil : data.drop headLen = []
    · exact Or.inl hnil
    · right
      rw [← List.take_append_drop headLen data, endsLine_append hnil] at hend
      exact hend
  obtain ⟨texts, hlines, hdrop⟩ := exists_flatten_of_endsLine hrest
  refine ⟨data.take headLen, texts, ?_, hlines, ?_⟩
  · rw [List.length_take, Nat.min_eq_left hlen]
  · rw [← hdrop, List.take_append_drop]

/-- The file after a sort. -/
def sortedBytes (data : Bytes) (headLen : Nat) : Bytes :=
  Patch.applyAll ((sortPlan data headLen).map slotPatch) data

/-- A file that was sorted and then edited within its lines: a header, and lines whose slots still
route. -/
theorem exists_routed_of_keepsRouting {edited : Bytes} (hpos : 0 < headLen)
    (hlen : headLen ≤ data.length) (hsmall : data.length < UInt32.size)
    (hline : data[headLen - 1]? = some newline) (hend : endsLine data = true)
    (hedit : KeepsRouting headLen (sortedBytes data headLen) edited) :
    ∃ texts : List Bytes, edited.drop headLen = texts.flatten ∧ headLen ≤ edited.length ∧
      edited[headLen - 1]? = some newline ∧ (∀ text ∈ texts, IsLine text) ∧
      Routed (entries (linesAt headLen texts)) := by
  obtain ⟨front, texts, hfront, hlines, rfl⟩ := exists_cut_of_endsLine hlen hend
  subst hfront
  rw [List.length_append] at hsmall
  have hsorted := applyAll_sortPlan hlines front
  have hrouted := routed_fillSlots hlines (Nat.le_of_lt hsmall)
  rw [← sortedBytes] at hsorted
  generalize hplan : fillSlots texts ((byKey (linesAt front.length texts)).map Line.offset) = placed
    at hsorted hrouted
  have hplaced : ∀ text ∈ placed, IsLine text := hplan ▸ isLine_fillSlots hlines _
  rw [hsorted] at hedit
  have hfrom : linesFrom front.length (front ++ placed.flatten) = linesAt front.length placed := by
    rw [linesFrom, List.drop_left, lines_flatten hplaced]
  obtain ⟨hcount, hnl, hslots, hkeys⟩ := hedit
  rw [hfrom] at hslots hkeys
  rw [List.length_append] at hcount
  -- the edited file has its lines where the sorted one has them
  have hlen' : (edited.drop front.length).length = placed.flatten.length := by
    rw [List.length_drop]
    omega
  obtain ⟨texts', hdrop, hall⟩ := exists_lines_of_newlines hplaced hlen' (fun i => by
    rw [List.getElem?_drop, hnl, List.getElem?_append_right (by omega), Nat.add_sub_cancel_left])
  have htexts' : ∀ text ∈ texts', IsLine text := fun text ht => by
    obtain ⟨_, _, hline, -⟩ := exists_mem_of_forall₂ hall ht
    exact hline
  have hhead : (edited.take front.length).length = front.length := by
    rw [List.length_take]
    omega
  have hspans : ∀ line ∈ linesAt (edited.take front.length).length placed,
      slot? (line.span.read (edited.take front.length ++ texts'.flatten)) = slot? line.text ∧
        keyOf (line.span.read (edited.take front.length ++ texts'.flatten)) = keyOf line.text := by
    intro line hline
    rw [hhead] at hline
    rw [← hdrop, List.take_append_drop, slot?, slot?, hslots line hline]
    exact ⟨rfl, hkeys line hline⟩
  have hsame := forall₂_of_spans hall (edited.take front.length) hspans
  refine ⟨texts', hdrop, by omega, ?_, htexts', ?_⟩
  · rw [hnl, List.getElem?_append_left (by omega)]
    rwa [List.getElem?_append_left (by omega)] at hline
  · rw [entries_congr hplaced htexts' hsame]
    exact hrouted

/-- **Lookups agree with a scan.**  A file is sorted, edited in a way that keeps its newlines, slots
and keys, and then appended to with lines that no sort has placed.  Whatever the lines hold, a
lookup finds a key if and only if a complete, well-formed, live record has it, it answers such a
record, and it answers what the scan does where only one has the key. -/
theorem lookup_agrees_with_scan {edited tail : Bytes} (hpos : 1 ≤ headLen)
    (hlen : headLen ≤ data.length) (hsmall : data.length < UInt32.size)
    (hline : data[headLen - 1]? = some newline) (hend : endsLine data = true)
    (hedit : KeepsRouting headLen (sortedBytes data headLen) edited)
    (htail : tail = [] ∨ endsLine tail = true)
    (hunsorted : ∀ text ∈ lines tail, hasSlot text = false ∨ slot? text = some unsorted)
    (key : Bytes) :
    let file := edited ++ tail
    let found := (search file headLen key).or (scanTail file headLen key)
    (found.isSome = true ↔ ∃ r ∈ liveRecordsFrom headLen file, r.key = key) ∧
      (∀ span, found = some span → ∃ r ∈ liveRecordsFrom headLen file, r.key = key ∧ r.span = span) ∧
      (((liveRecordsFrom headLen file).filter fun r => r.key == key).length = 1 →
        found = naiveScan file headLen key) := by
  intro file found
  obtain ⟨placed, hdrop, hle, hnl, hplaced, hrouted⟩ :=
    exists_routed_of_keepsRouting hpos hlen hsmall hline hend hedit
  obtain ⟨appended, happended, rfl⟩ := exists_flatten_of_endsLine htail
  rw [lines_flatten happended] at hunsorted
  have hlines : ∀ text ∈ placed ++ appended, IsLine text := by
    intro text ht
    rcases List.mem_append.1 ht with ht | ht
    · exact hplaced text ht
    · exact happended text ht
  have hfile : file.drop headLen = (placed ++ appended).flatten := by
    rw [List.drop_append_of_le_length hle, hdrop, List.flatten_append]
  have hlen' : headLen ≤ file.length := by
    rw [List.length_append]
    omega
  have hnl' : file[headLen - 1]? = some newline := by
    rw [List.getElem?_append_left (by omega), hnl]
  have hsound : ∀ span, found = some span →
      ∃ r ∈ liveRecordsFrom headLen file, r.key = key ∧ r.span = span := fun span h =>
    lookup_sound hnl' hlines hlen' hfile h
  have hcomplete : ∀ r ∈ liveRecordsFrom headLen file, r.key = key → found.isSome = true := by
    rintro r hr rfl
    exact lookup_isSome hpos hnl' hlines hlen' hfile hrouted hunsorted hr
  refine ⟨⟨?_, ?_⟩, hsound, ?_⟩
  · intro h
    obtain ⟨span, hspan⟩ := Option.isSome_iff_exists.1 h
    obtain ⟨r, hr, hkey, -⟩ := hsound span hspan
    exact ⟨r, hr, hkey⟩
  · rintro ⟨r, hr, hkey⟩
    exact hcomplete r hr hkey
  · intro hone
    obtain ⟨r, hr⟩ := List.exists_mem_of_length_pos (Nat.lt_of_lt_of_eq Nat.one_pos hone.symm)
    rw [List.mem_filter, beq_iff_eq] at hr
    obtain ⟨span, hspan⟩ := Option.isSome_iff_exists.1 (hcomplete r hr.1 hr.2)
    obtain ⟨r', hlive, hkey, rfl⟩ := hsound span hspan
    rw [hspan, naiveScan_of_one hone hlive hkey]

/-- Junk and two records, the greater key first, behind a header of two bytes. -/
def twoRecords : Bytes :=
  ascii ['v', '\n', 'j', '\n'] ++ encodeRecord (ascii ['b']) [⟨ascii ['x'], ascii ['1']⟩]
    ++ encodeRecord (ascii ['a']) [⟨ascii ['x'], ascii ['2']⟩]

/-- The same lines after a sort. -/
def twoRecordsSorted : Bytes :=
  ascii ['v', '\n', 'j', '\n']
    ++ withSlot (encodeRecord (ascii ['b']) [⟨ascii ['x'], ascii ['1']⟩]) 25
    ++ withSlot (encodeRecord (ascii ['a']) [⟨ascii ['x'], ascii ['2']⟩]) 4

/-- The sorted file with the record of `a` dead. -/
def twoRecordsEdited : Bytes := (⟨25, [deadFlag]⟩ : Patch).apply twoRecordsSorted

theorem sortedBytes_twoRecords : sortedBytes twoRecords 2 = twoRecordsSorted := by
  have hslotted : slotted twoRecords 2
      = [⟨4, takeLine (twoRecords.drop 4)⟩, ⟨25, takeLine (twoRecords.drop 25)⟩] := by
    decide +kernel
  have hafter : (compareKeys (keyOf (takeLine (twoRecords.drop 4)))
      (keyOf (takeLine (twoRecords.drop 25)))).isLE = false := by
    decide +kernel
  have hsorted : sorted twoRecords 2
      = [⟨25, takeLine (twoRecords.drop 25)⟩, ⟨4, takeLine (twoRecords.drop 4)⟩] := by
    rw [sorted, hslotted, List.mergeSort]
    simp [List.MergeSort.Internal.splitInTwo, hafter]
  rw [sortedBytes, sortPlan, hsorted]
  decide +kernel

theorem keepsRouting_twoRecordsEdited :
    KeepsRouting 2 (sortedBytes twoRecords 2) twoRecordsEdited := by
  have hlen : twoRecordsEdited.length = twoRecordsSorted.length := by decide +kernel
  have hinside : ∀ i < twoRecordsSorted.length,
      (twoRecordsEdited[i]? = some newline ↔ twoRecordsSorted[i]? = some newline) := by
    decide +kernel
  rw [sortedBytes_twoRecords]
  refine ⟨hlen, ?_, by decide +kernel, by decide +kernel⟩
  intro i
  by_cases hi : i < twoRecordsSorted.length
  · exact hinside i hi
  · rw [List.getElem?_eq_none (by omega), List.getElem?_eq_none (by omega)]

/-- The record of `a` dies after the sort and is appended anew. -/
theorem lookup_agrees_with_scan_of_newer_copy :
    let file := twoRecordsEdited ++ encodeRecord (ascii ['a']) [⟨ascii ['x'], ascii ['3']⟩]
    (search file 2 (ascii ['a'])).or (scanTail file 2 (ascii ['a'])) =
        naiveScan file 2 (ascii ['a']) ∧ (naiveScan file 2 (ascii ['a'])).isSome = true := by
  have htail : endsLine (encodeRecord (ascii ['a']) [⟨ascii ['x'], ascii ['3']⟩]) = true := by decide
  have h := lookup_agrees_with_scan (by decide) (by decide) (by decide) (by decide) (by decide)
    keepsRouting_twoRecordsEdited (Or.inr htail) (by decide +kernel) (ascii ['a'])
  exact ⟨h.2.2 (by decide +kernel), by decide +kernel⟩

end RecordStore.Index
