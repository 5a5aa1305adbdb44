import Mathlib.Tactic.Common
import RecordStore.Proofs.Lines

/-!
# What the binary search finds

Slots are untrusted, yet a search never answers anything but a live record with the key asked for.
It finds one whenever the keys that the slots lead to are in order along the region: a half that is
dropped then holds no slot that leads to the key.

* `InKeyOrder` — the keys that two lines lead to are in order.

Principal results: `mem_recordsFrom_iff` — which records a file holds; `searchRegion_sound`;
`searchRegion_isSome`.
-/

set_option autoImplicit false

namespace RecordStore

/-! ## The order of keys -/

theorem swap_compareKeys (a b : Bytes) : (compareKeys a b).swap = compareKeys b a := by
  induction a generalizing b with
  | nil => cases b <;> rfl
  | cons x a ih =>
    cases b with
    | nil => rfl
    | cons y b =>
      unfold compareKeys
      by_cases h1 : x < y
      · rw [if_pos h1, if_neg (UInt8.lt_asymm h1), if_pos h1]
        rfl
      · by_cases h2 : y < x
        · rw [if_neg h1, if_pos h2, if_pos h2]
          rfl
        · rw [if_neg h1, if_neg h2, if_neg h2, if_neg h1]
          exact ih b

theorem compareKeys_eq_iff {a b : Bytes} : compareKeys a b = .eq ↔ a = b := by
  induction a generalizing b with
  | nil => cases b <;> simp [compareKeys]
  | cons x a ih =>
    cases b with
    | nil => simp [compareKeys]
    | cons y b =>
      unfold compareKeys
      by_cases h1 : x < y
      · rw [if_pos h1]
        simp [UInt8.ne_of_lt h1]
      · by_cases h2 : y < x
        · rw [if_neg h1, if_pos h2]
          simp [Ne.symm (UInt8.ne_of_lt h2)]
        · have hxy : x = y := UInt8.le_antisymm (UInt8.not_lt.1 h2) (UInt8.not_lt.1 h1)
          rw [if_neg h1, if_neg h2, ih]
          simp [hxy]

theorem isLE_compareKeys_trans {a b c : Bytes} (hab : (compareKeys a b).isLE = true)
    (hbc : (compareKeys b c).isLE = true) : (compareKeys a c).isLE = true := by
  induction a generalizing b c with
  | nil => cases c <;> rfl
  | cons x a ih =>
    cases b with
    | nil => cases hab
    | cons y b =>
      cases c with
      | nil => cases hbc
      | cons z c =>
        unfold compareKeys at hab hbc ⊢
        by_cases hxz : x < z
        · rw [if_pos hxz]
          rfl
        · -- neither step can go up, so the three first bytes are one
          have hyx : ¬ y < x := fun h => by
            rw [if_neg (UInt8.lt_asymm h), if_pos h] at hab
            cases hab
          have hzy : ¬ z < y := fun h => by
            rw [if_neg (UInt8.lt_asymm h), if_pos h] at hbc
            cases hbc
          have hzx : z ≤ x := UInt8.not_lt.1 hxz
          have hxy : x ≤ y := UInt8.not_lt.1 hyx
          have hyz : y ≤ z := UInt8.not_lt.1 hzy
          have h1 : ¬ x < y := UInt8.not_lt.2 (UInt8.le_trans hyz hzx)
          have h2 : ¬ y < z := UInt8.not_lt.2 (UInt8.le_trans hzx hxy)
          have h3 : ¬ z < x := UInt8.not_lt.2 (UInt8.le_trans hxy hyz)
          rw [if_neg h1, if_neg hyx] at hab
          rw [if_neg h2, if_neg hzy] at hbc
          rw [if_neg hxz, if_neg h3]
          exact ih hab hbc

theorem isLE_compareKeys_total (a b : Bytes) :
    ((compareKeys a b).isLE || (compareKeys b a).isLE) = true := by
  rw [← swap_compareKeys a b]
  cases compareKeys a b <;> rfl

/-! ## The records of a file -/

theorem Line.ext_iff {a b : Line} : a = b ↔ a.offset = b.offset ∧ a.text = b.text := by
  cases a
  cases b
  simp

theorem Record.ofLine_eq_ok_iff {line : Line} {r : Record} :
    Record.ofLine line = .ok r ↔ defect? line.text = none ∧ r.toLine = line := by
  unfold Record.ofLine
  split
  · next h =>
    rw [Except.ok.injEq]
    constructor
    · rintro rfl
      exact ⟨h, rfl⟩
    · rintro ⟨-, rfl⟩
      rfl
  · next d h => simp [h]

theorem Record.ofLine?_eq_some_iff {line : Line} {r : Record} :
    Record.ofLine? line = some r ↔ defect? line.text = none ∧ r.toLine = line := by
  rw [← Record.ofLine_eq_ok_iff, Record.ofLine?]
  cases Record.ofLine line <;> simp [Except.toOption]

theorem Record.decode_eq_ok_iff {data : Bytes} {offset : Nat} {r : Record} :
    Record.decode data offset = .ok r ↔ offset < data.length ∧ r.offset = offset ∧
      takeLine (data.drop offset) = r.text := by
  have hok : Record.decode data offset = .ok r ↔
      offset < data.length ∧ Record.ofLine ⟨offset, takeLine (data.drop offset)⟩ = .ok r := by
    unfold Record.decode
    by_cases h : data.length ≤ offset
    · rw [if_pos h]
      simp [Nat.not_lt.2 h]
    · rw [if_neg h]
      cases Record.ofLine ⟨offset, takeLine (data.drop offset)⟩ <;>
        simp [Except.mapError, Nat.not_le.1 h]
  rw [hok, Record.ofLine_eq_ok_iff, Line.ext_iff]
  constructor
  · rintro ⟨hlt, -, hoff, htext⟩
    exact ⟨hlt, hoff, htext.symm⟩
  · rintro ⟨hlt, hoff, htext⟩
    exact ⟨hlt, htext ▸ r.wellFormed, hoff, htext.symm⟩

/-- **The records of a file**: complete, well-formed lines that start where a line starts. -/
theorem mem_recordsFrom_iff {start : Nat} {data : Bytes} {r : Record} :
    r ∈ recordsFrom start data ↔ r.toLine ∈ linesFrom start data ∧ endsLine r.text = true := by
  simp only [recordsFrom, List.mem_filterMap, List.mem_filter, Record.ofLine?_eq_some_iff]
  constructor
  · rintro ⟨line, ⟨hmem, hend⟩, -, rfl⟩
    exact ⟨hmem, hend⟩
  · rintro ⟨hmem, hend⟩
    exact ⟨r.toLine, ⟨hmem, hend⟩, r.wellFormed, rfl⟩

theorem mem_liveRecordsFrom_iff {start : Nat} {data : Bytes} {r : Record} :
    r ∈ liveRecordsFrom start data ↔
      r.toLine ∈ linesFrom start data ∧ endsLine r.text = true ∧ r.isLive = true := by
  rw [liveRecordsFrom, List.mem_filter, mem_recordsFrom_iff, and_assoc]

namespace Index

variable {data : Bytes} {headLen : Nat} {key : Bytes}

/-- What stands at an offset, by the checks of the search alone. -/
theorem recordStartingAt?_eq_some {offset : Nat} {r : Record} :
    recordStartingAt? data headLen offset = some r ↔
      (headLen ≤ offset ∧ offset < data.length ∧ data[offset - 1]? = some newline) ∧
        Record.decode data offset = .ok r ∧ endsLine r.text = true := by
  unfold recordStartingAt?
  split
  · next hin =>
    cases hdec : Record.decode data offset with
    | error e => simp
    | ok r' =>
      dsimp only
      rw [Option.ite_none_right_eq_some, Option.some.injEq, Except.ok.injEq]
      constructor
      · rintro ⟨hend, rfl⟩
        exact ⟨hin, rfl, hend⟩
      · rintro ⟨-, rfl, hend⟩
        exact ⟨hend, rfl⟩
  · next hout => simp [hout]

/-- A slot leads to a record exactly where one stands. -/
theorem recordStartingAt?_eq_some_iff {offset : Nat} {r : Record}
    (hline : data[headLen - 1]? = some newline) :
    recordStartingAt? data headLen offset = some r ↔
      r ∈ recordsFrom headLen data ∧ r.offset = offset := by
  rw [mem_recordsFrom_iff, mem_linesFrom_iff, recordStartingAt?_eq_some, Record.decode_eq_ok_iff]
  constructor
  · rintro ⟨⟨hle, hlt, hnl⟩, ⟨-, rfl, htext⟩, hend⟩
    exact ⟨⟨⟨hle, hlt, Or.inr hnl, htext⟩, hend⟩, rfl⟩
  · rintro ⟨⟨⟨hle, hlt, hstart, htext⟩, hend⟩, rfl⟩
    have hnl : data[r.offset - 1]? = some newline := by
      rcases hstart with hstart | hstart
      · rw [hstart]
        exact hline
      · exact hstart
    exact ⟨⟨hle, hlt, hnl⟩, ⟨hlt, rfl, htext⟩, hend⟩

/-- What a slot leads to stands behind a newline and decodes to the end of its line. -/
theorem decode_of_slotTarget? {pivot : Bytes} {r : Record}
    (h : slotTarget? data headLen pivot = some r) :
    headLen ≤ r.offset ∧ data[r.offset - 1]? = some newline ∧
      Record.decode data r.offset = .ok r ∧ endsLine r.text = true := by
  unfold slotTarget? at h
  split at h
  · obtain ⟨slot, -, hslot⟩ := Option.bind_eq_some_iff.1 h
    obtain ⟨⟨hle, -, hnl⟩, hdec, hend⟩ := recordStartingAt?_eq_some.1 hslot
    rw [← (Record.decode_eq_ok_iff.1 hdec).2.1] at hle hnl hdec
    exact ⟨hle, hnl, hdec, hend⟩
  · cases h

/-! ## Soundness -/

theorem mem_of_slotTarget? {pivot : Bytes} {r : Record}
    (hline : data[headLen - 1]? = some newline) (h : slotTarget? data headLen pivot = some r) :
    r ∈ recordsFrom headLen data := by
  unfold slotTarget? at h
  split at h
  · obtain ⟨slot, -, hslot⟩ := Option.bind_eq_some_iff.1 h
    exact ((recordStartingAt?_eq_some_iff hline).1 hslot).1
  · cases h

theorem Verdict.of_eq_here {target : Option Record} {span : Span}
    (h : Verdict.of key target = .here span) :
    ∃ r, target = some r ∧ r.key = key ∧ r.isLive = true ∧ r.span = span := by
  cases target with
  | none => cases h
  | some r =>
    simp only [Verdict.of] at h
    split at h
    · cases h
    · cases h
    · next hcmp =>
      split at h
      · next hlive =>
        cases h
        exact ⟨r, rfl, (compareKeys_eq_iff.1 hcmp).symm, hlive, rfl⟩
      · cases h

theorem Verdict.of_eq_before {target : Option Record} (h : Verdict.of key target = .before) :
    ∃ r, target = some r ∧ compareKeys key r.key = .lt := by
  cases target with
  | none => cases h
  | some r =>
    simp only [Verdict.of] at h
    split at h
    · next hcmp => exact ⟨r, rfl, hcmp⟩
    · cases h
    · split at h <;> cases h

theorem Verdict.of_eq_after {target : Option Record} (h : Verdict.of key target = .after) :
    ∃ r, target = some r ∧ compareKeys key r.key = .gt := by
  cases target with
  | none => cases h
  | some r =>
    simp only [Verdict.of] at h
    split at h
    · cases h
    · next hcmp => exact ⟨r, rfl, hcmp⟩
    · split at h <;> cases h

theorem Verdict.of_live {r : Record} (h : r.isLive = true) :
    Verdict.of r.key (some r) = .here r.span := by
  simp only [Verdict.of, compareKeys_eq_iff.2 rfl, h, if_true]

/-- A search answers a live record with the key that the slot of some line of the region names. -/
theorem exists_target_of_searchRegion {region : Bytes} {span : Span}
    (h : searchRegion data headLen key region = some span) : ∃ pivot ∈ lines region, ∃ r,
      slotTarget? data headLen pivot = some r ∧ r.key = key ∧ r.isLive = true ∧ r.span = span := by
  induction hn : region.length using Nat.strongRecOn generalizing region with
  | ind n ih =>
    subst hn
    unfold searchRegion at h
    by_cases hr : region = []
    · rw [if_pos hr] at h
      cases h
    · have hbefore := Pivot.length_before_of_lt hr
      have hafter := Pivot.length_after_of_lt hr
      have hinbefore : searchRegion data headLen key (Pivot.of region).before = some span →
          ∃ pivot ∈ lines region, ∃ r, slotTarget? data headLen pivot = some r ∧ r.key = key ∧
            r.isLive = true ∧ r.span = span := by
        intro hfound
        obtain ⟨pivot, hpivot, hr'⟩ := ih _ hbefore hfound rfl
        exact ⟨pivot, lines_pivot hr ▸ List.mem_append_left _ hpivot, hr'⟩
      have hinafter : searchRegion data headLen key (Pivot.of region).after = some span →
          ∃ pivot ∈ lines region, ∃ r, slotTarget? data headLen pivot = some r ∧ r.key = key ∧
            r.isLive = true ∧ r.span = span := by
        intro hfound
        obtain ⟨pivot, hpivot, hr'⟩ := ih _ hafter hfound rfl
        exact ⟨pivot, lines_pivot hr ▸ List.mem_append_right _ (List.mem_cons_of_mem _ hpivot), hr'⟩
      rw [if_neg hr] at h
      dsimp only at h
      split at h
      · next found hv =>
        cases h
        obtain ⟨r, htarget, hr'⟩ := Verdict.of_eq_here hv
        exact ⟨_, lines_pivot hr ▸ List.mem_append_right _ List.mem_cons_self, r, htarget, hr'⟩
      · exact hinbefore h
      · exact hinafter h
      · split at h
        · next found hfound =>
          cases h
          exact hinbefore hfound
        · exact hinafter h

/-- **Whatever the slots say, the search answers only live records with the key.** -/
theorem searchRegion_sound (hline : data[headLen - 1]? = some newline)
    {region : Bytes} {span : Span} (h : searchRegion data headLen key region = some span) :
    ∃ r ∈ liveRecordsFrom headLen data, r.key = key ∧ r.span = span := by
  obtain ⟨pivot, -, r, htarget, hkey, hlive, hspan⟩ := exists_target_of_searchRegion h
  exact ⟨r, List.mem_filter.2 ⟨mem_of_slotTarget? hline htarget, hlive⟩, hkey, hspan⟩

/-- A search answers a place inside the data. -/
theorem offset_lt_of_search {span : Span} (h : search data headLen key = some span) :
    span.offset < data.length := by
  unfold search at h
  split at h
  · cases h
  · obtain ⟨pivot, -, r, htarget, -, -, rfl⟩ := exists_target_of_searchRegion h
    obtain ⟨-, -, hdec, -⟩ := decode_of_slotTarget? htarget
    exact (Record.decode_eq_ok_iff.1 hdec).1

/-! ## Completeness -/

/-- If both lines lead to records, the keys of these are in order. -/
def InKeyOrder (data : Bytes) (headLen : Nat) (a b : Bytes) : Prop :=
  ∀ ra rb, slotTarget? data headLen a = some ra → slotTarget? data headLen b = some rb →
    (compareKeys ra.key rb.key).isLE = true

/-- **A slot that leads to the key is not lost**, if the slots are in the order of keys. -/
theorem searchRegion_isSome {region : Bytes}
    (horder : (lines region).Pairwise (InKeyOrder data headLen)) {pivot : Bytes}
    (hpivot : pivot ∈ lines region) {r : Record}
    (htarget : slotTarget? data headLen pivot = some r) (hlive : r.isLive = true) :
    (searchRegion data headLen r.key region).isSome = true := by
  induction hn : region.length using Nat.strongRecOn generalizing region with
  | ind n ih =>
    subst hn
    have hne : region ≠ [] := by
      rintro rfl
      cases hpivot
    have hbefore := Pivot.length_before_of_lt hne
    have hafter := Pivot.length_after_of_lt hne
    rw [lines_pivot hne] at horder hpivot
    rw [List.pairwise_append, List.pairwise_cons] at horder
    obtain ⟨hfront, ⟨htext, hback⟩, hacross⟩ := horder
    unfold searchRegion
    rw [if_neg hne]
    dsimp only
    rcases List.mem_append.1 hpivot with hmem | hmem
    · -- the pivot wanted stands before the middle line, and that half is searched with success
      have hsome := ih _ hbefore hfront hmem rfl
      split
      · rfl
      · exact hsome
      · next hv =>
        obtain ⟨rt, hrt, hgt⟩ := Verdict.of_eq_after hv
        have hle := hacross pivot hmem _ (List.mem_cons_self ..) r rt htarget hrt
        rw [hgt] at hle
        cases hle
      · obtain ⟨span, hspan⟩ := Option.isSome_iff_exists.1 hsome
        rw [hspan]
        rfl
    · rcases List.mem_cons.1 hmem with rfl | hmem
      · rw [htarget, Verdict.of_live hlive]
        rfl
      · have hsome := ih _ hafter hback hmem rfl
        split
        · rfl
        · next hv =>
          obtain ⟨rt, hrt, hlt⟩ := Verdict.of_eq_before hv
          have hle := htext pivot hmem rt r hrt htarget
          rw [← swap_compareKeys, hlt] at hle
          cases hle
        · exact hsome
        · split
          · rfl
          · exact hsome

end Index

end RecordStore
