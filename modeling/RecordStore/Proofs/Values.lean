import Mathlib.Tactic.Common
import RecordStore.Proofs.Rewriting

/-!
# Values in place

A value is looked up as the first token that starts with its name and a `=`; the fields of a record
are its tokens cut at their first `=`.  For a name without `=` the two agree, and the place found holds
the value and nothing else, so bytes written over it change that one value.

* `Span.Holds` — a place behind the key of a line, inside the line, without delimiters.
* `Record.Exchanges` — a record that differs from another in one value.

Principal results: `Record.holds_fieldSpan?` — where values stand; `Record.exchanges_apply` — a record
written over; `Record.lookup_in_place` — both, for whatever decodes as a record.
-/

set_option autoImplicit false

namespace RecordStore

/-- The place lies inside a line, behind its key, and no delimiter stands in it. -/
structure Span.Holds (place : Span) (text : Bytes) : Prop where
  behind_key : keyAt + (keyOf text).length < place.offset
  inside : place.offset + place.length ≤ text.length
  clean : ∀ b ∈ place.read text, b ≠ space ∧ b ≠ tab ∧ b ≠ newline

theorem ne_of_not_isDelimiter {b : UInt8} (h : isDelimiter b = false) :
    b ≠ space ∧ b ≠ tab ∧ b ≠ newline := by
  simpa [isDelimiter, and_assoc] using h

theorem isDelimiter_of_valueFault? {value : Bytes} (h : valueFault? value = none) :
    ∀ b ∈ value, isDelimiter b = false := by
  unfold valueFault? at h
  split at h
  · cases h
  · exact isDelimiter_of_not_any ‹_›

namespace Record

variable {r : Record} {name value : Bytes} {place : Span}

/-- **Where a value stands**: behind the key, inside the line, in one token. -/
theorem holds_fieldSpan? (h : r.fieldSpan? name = some place) : place.Holds r.text := by
  obtain ⟨front, old, rest, hat⟩ := exists_valueAt h
  have hlt := keyAt_lt_of_defect? r.wellFormed
  obtain ⟨pre, htext, hpre⟩ := hat.exists_split hlt
  have hcount := congrArg List.length htext
  simp only [List.length_append] at hcount
  have hlen : place.length = old.length := by rw [hat.place_eq]
  refine ⟨?_, by omega, fun b hb => ne_of_not_isDelimiter ?_⟩
  · have hoffset := congrArg Span.offset hat.place_eq
    dsimp only at hoffset
    omega
  · rw [hat.read_eq hlt] at hb
    exact hat.word.2 b (List.mem_append_right _ (List.mem_cons_of_mem _ hb))

/-- Another value fits into the token that a name leads to. -/
theorem fits_of_fieldSpan? (h : r.fieldSpan? name = some place) (hname : equals ∉ name)
    (hvalue : ∀ b ∈ value, isDelimiter b = false) : (⟨name, value⟩ : Field).Fits := by
  obtain ⟨front, old, rest, hat⟩ := exists_valueAt h
  exact ⟨hname, fun b hb => hat.value_word b (List.mem_append_left _ hb), hvalue⟩

/-- `patched` stands where `r` stands and is `r` with another value in place of the first one of a
name. -/
structure Exchanges (r patched : Record) (name value : Bytes) : Prop where
  span_eq : patched.span = r.span
  live_eq : patched.isLive = r.isLive
  slot_eq : patched.slot = r.slot
  modCount_eq : patched.modCount = r.modCount
  key_eq : patched.key = r.key
  fields_eq : ∃ before old after, r.fields = before ++ ⟨name, old⟩ :: after ∧
    (∀ field ∈ before, field.name ≠ name) ∧ patched.fields = before ++ ⟨name, value⟩ :: after

/-- **Bytes written over a value change that value alone.** -/
theorem exchanges_apply (h : r.fieldSpan? name = some place) (hname : equals ∉ name)
    (hvalue : ∀ b ∈ value, isDelimiter b = false) (hlen : value.length = place.length) :
    ∃ patched : Record, patched.text = (⟨place.offset, value⟩ : Patch).apply r.text ∧
      patched.offset = r.offset ∧ r.Exchanges patched name value := by
  obtain ⟨front, old, rest, hat⟩ := exists_valueAt h
  have hlt := keyAt_lt_of_defect? r.wellFormed
  obtain ⟨hfits, happly⟩ := hat.apply_eq hlt hlen.symm
  have hcount := Patch.length_apply hfits
  have hhead : (r.text.take keyAt).length = keyAt := by
    rw [List.length_take, Nat.min_eq_left (Nat.le_of_lt hlt)]
  obtain ⟨hkey, hfields⟩ := hat.fields_exchange hhead (fits_of_fieldSpan? h hname hvalue)
  rw [← happly] at hkey hfields
  have hframe : ((⟨place.offset, value⟩ : Patch).apply r.text).take keyAt = r.text.take keyAt := by
    rw [happly, List.take_left' hhead]
  generalize (⟨place.offset, value⟩ : Patch).apply r.text = text at *
  have hwell := (defect?_eq_of_take hframe hlt (by rwa [hcount])).trans r.wellFormed
  refine ⟨⟨⟨r.offset, text⟩, hwell⟩, rfl, rfl, ?_, ?_, ?_, ?_, hkey, ?_⟩
  · rw [span, span, Line.span, Line.span, hcount]
  · rw [isLive, isLive, head?_eq_of_take hframe]
  · rw [slot, slot, slot?_eq_of_take hframe]
  · -- the counter stands in front of the key as well
    have hcounter : ∀ s : Bytes,
        (s.drop modCountAt).take 4 = ((s.take keyAt).drop modCountAt).take 4 := by
      intro s
      rw [List.drop_take, List.take_take, Nat.min_eq_left (by decide)]
    rw [modCount, modCount, hcounter, hcounter r.text, hframe]
  · refine ⟨(words front).filterMap Field.ofToken?, old, (words rest).filterMap Field.ofToken?, ?_,
      hat.name_ne, ?_⟩
    · rw [r.fields_eq, hat.fieldsOf_eq hname]
    · rw [Record.fields_eq, hfields, hat.setField_fieldsOf hname]

/-- A record that was decoded, cut out of what it was decoded from. -/
theorem exists_cut {data : Bytes} {offset : Nat} (h : decode data offset = .ok r) :
    ∃ front rest, data = front ++ (r.text ++ rest) ∧ front.length = offset ∧
      (IsLine r.text ∨ (newline ∉ r.text ∧ rest = [])) := by
  obtain ⟨hlt, -, htext⟩ := decode_eq_ok_iff.1 h
  refine ⟨data.take offset, dropLine (data.drop offset), ?_, ?_, ?_⟩
  · rw [← htext, takeLine_append_dropLine, List.take_append_drop]
  · rw [List.length_take, Nat.min_eq_left (Nat.le_of_lt hlt)]
  · refine (isLine_or_of_decode h).imp_right fun hopen => ⟨hopen, ?_⟩
    by_contra hne
    have hline := isLine_takeLine_of_mem (newline_mem_of_dropLine_ne_nil hne)
    exact hopen (htext ▸ newline_mem_of_endsLine hline.endsLine)

/-- **Values looked up and written over**, in whatever decodes as a record.  For a name without `=` the
value found is that of the first field of the name; the place found lies behind the key, inside the
line, and holds no delimiter; and bytes of its length that pass as a value, written over it, leave a
record that is the old one but for this value. -/
theorem lookup_in_place {data : Bytes} {offset : Nat} (hr : decode data offset = .ok r)
    (hname : equals ∉ name) :
    r.field? name = (r.fields.find? fun field => field.name == name).map Field.value ∧
    (∀ place, r.fieldSpan? name = some place → place.Holds r.text ∧
      ∀ value, value.length = place.length → valueFault? value = none →
        ∃ patched, decode ((⟨offset + place.offset, value⟩ : Patch).apply data) offset = .ok patched ∧
          r.Exchanges patched name value) := by
  refine ⟨field?_eq_valueOf? r hname, fun place hplace => ⟨holds_fieldSpan? hplace, ?_⟩⟩
  intro value hlen hvalue
  have hclean := isDelimiter_of_valueFault? hvalue
  obtain ⟨patched, htext, hoffset, hexchanges⟩ := exchanges_apply hplace hname hclean hlen
  obtain ⟨front, rest, rfl, rfl, hends⟩ := exists_cut hr
  have hinside := (holds_fieldSpan? hplace).inside
  have hfits : (⟨place.offset, value⟩ : Patch).Fits r.text := by
    simp only [Patch.Fits]
    omega
  have hdata : (⟨front.length + place.offset, value⟩ : Patch).apply (front ++ (r.text ++ rest)) =
      front ++ (patched.text ++ rest) := htext ▸ Patch.apply_middle hfits front rest
  have hcount : patched.text.length = r.text.length := htext ▸ Patch.length_apply hfits
  have hlt := keyAt_lt_of_defect? r.wellFormed
  refine ⟨patched, decode_eq_ok_iff.2 ⟨?_, ?_, ?_⟩, hexchanges⟩
  · rw [hdata, List.length_append, List.length_append]
    omega
  · exact hoffset.trans (decode_eq_ok_iff.1 hr).2.1
  · rw [hdata, List.drop_left]
    rcases hends with hline | ⟨hopen, rfl⟩
    · have hfit := fits_of_fieldSpan? hplace hname hclean
      have hline' : IsLine patched.text :=
        htext ▸ (apply_fieldSpan? hline hfit hplace hlen.symm).2.1
      exact takeLine_append hline' rest
    · have hopen' : newline ∉ patched.text := by
        rw [htext, Patch.apply_of_fits hfits, List.mem_append, List.mem_append, not_or, not_or]
        exact ⟨⟨fun hmem => hopen (List.mem_of_mem_take hmem), newline_notMem_of_forall hclean⟩,
          fun hmem => hopen (List.mem_of_mem_drop hmem)⟩
      rw [List.append_nil, takeLine_of_notMem hopen']

/-- A line whose names are prefixes of each other, one of them empty, with a token without `=`. -/
def crowdedLine : Bytes :=
  ascii (['+', '0', '0', '0', '0', '0', '0', '2', '3', '.', '0', '0', '0', '0', ':', 'k', ' ', '=']
    ++ ['x', '\t', 'a', 'b', '=', '1', ' ', 'a', ' ', 'a', '=', 'p', '=', 'q', ' ', 'a', '=', '2', '\n'])

/-- The name `a` leads past `ab=1` and `a` to its first value, which holds a `=`, and that is written
over. -/
theorem lookup_in_place_of_crowded_line : ∃ r patched : Record, decode crowdedLine 0 = .ok r ∧
    r.field? (ascii ['a']) = some (ascii ['p', '=', 'q']) ∧
    r.fieldSpan? (ascii ['a']) = some ⟨29, 3⟩ ∧
    decode ((⟨0 + 29, ascii ['=', '=', 'z']⟩ : Patch).apply crowdedLine) 0 = .ok patched ∧
    r.Exchanges patched (ascii ['a']) (ascii ['=', '=', 'z']) := by
  have hdec : decode crowdedLine 0 = .ok ⟨⟨0, crowdedLine⟩, by decide⟩ := by decide
  obtain ⟨hfield, hplace⟩ := lookup_in_place hdec (show equals ∉ ascii ['a'] by decide)
  obtain ⟨-, hpatch⟩ := hplace ⟨29, 3⟩ (by decide)
  obtain ⟨patched, hpatched, hexchanges⟩ := hpatch (ascii ['=', '=', 'z']) rfl (by decide)
  exact ⟨_, patched, hdec, hfield.trans (by decide), by decide, hpatched, hexchanges⟩

end Record

end RecordStore
