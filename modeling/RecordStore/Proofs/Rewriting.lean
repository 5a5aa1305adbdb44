import Mathlib.Tactic.Common
import RecordStore.Proofs.Fields
import RecordStore.Proofs.Search

/-!
# Copies of a record

A copy with one field set is put together from pieces of the line copied.  Scanned anew it shows the
same key, counter and tokens, but for the one token exchanged or added, whatever bytes the line held
around its tokens and whether or not it had its newline.

* `Record.Rewrites` — what a copy of a record is: which parts are as they were, and which are new.

Principal results: `Record.rewrites_withField` — the line that a copy is made of reads as such a
copy; `Record.decode_withField` — so does what is decoded where it is written.
-/

set_option autoImplicit false

namespace RecordStore

/-- The tokens that carry no field stay, in their order. -/
theorem filter_setToken {field : Field} (texts : List Bytes) :
    (setToken texts field).filter (fun text => equals ∉ text) =
      texts.filter fun text => equals ∉ text := by
  have htoken : equals ∈ field.token := by simp [Field.token]
  induction texts with
  | nil => simp [setToken, htoken]
  | cons text more ih =>
    by_cases hpre : (field.name ++ [equals]).isPrefixOf text = true
    · obtain ⟨value, rfl⟩ := List.isPrefixOf_iff_prefix.1 hpre
      simp [setToken, htoken]
    · rw [setToken, if_neg hpre, List.filter_cons, List.filter_cons, ih]

namespace Record

/-- `copy` is the record `r` with one field set: it is live and in no sort yet, its key, its counter
and its other tokens are those of `r`, and the first token of the name has the new value. -/
structure Rewrites (r copy : Record) (field : Field) : Prop where
  live : copy.isLive = true
  slot_eq : copy.slot = unsorted
  key_eq : copy.key = r.key
  modCount_eq : copy.modCount = r.modCount
  tokens_eq : copy.tokens.map Token.text = setToken (r.tokens.map Token.text) field
  fields_eq : copy.fields = setField r.fields field
  found : copy.field? field.name = some field.value
  others : ∀ name, equals ∉ name → name ≠ field.name → copy.field? name = r.field? name

theorem map_text_tokens (r : Record) : r.tokens.map Token.text = words (tailOf r.text) := by
  rw [tokens_eq, map_text_tokensFrom]

/-- The counter of a copy is read at the bytes it was copied from. -/
theorem modCount_withField {r copy : Record} {rest : Bytes}
    (h : copy.text = freshHead r.text ++ rest) : copy.modCount = r.modCount := by
  have hlt := keyAt_lt_of_defect? r.wellFormed
  have hhead := length_freshHead (Nat.le_of_lt hlt)
  have htake : (r.text.take keyAt).length = keyAt := by
    rw [List.length_take, Nat.min_eq_left (Nat.le_of_lt hlt)]
  have hsame := drop_freshHead r.text 1
  rw [show slotAt + Hex.wordLen + 1 = modCountAt from rfl] at hsame
  rw [modCount, modCount, h, take_drop_append rest (by rw [hhead]; decide), hsame,
    ← take_drop_append (r.text.drop keyAt) (by rw [htake]; decide), List.take_append_drop]

/-- A record that reads as its newline-terminated self is copied like it. -/
theorem Rewrites.of_closed {r closed copy : Record} {field : Field}
    (h : closed.Rewrites copy field) (hkey : closed.key = r.key)
    (hcount : closed.modCount = r.modCount) (htokens : closed.tokens = r.tokens) :
    r.Rewrites copy field := by
  have hfields : closed.fields = r.fields := by rw [fields, fields, htokens]
  refine ⟨h.live, h.slot_eq, h.key_eq.trans hkey, h.modCount_eq.trans hcount, ?_, ?_, h.found, ?_⟩
  · rw [h.tokens_eq, htokens]
  · rw [h.fields_eq, hfields]
  · intro name hplain hne
    rw [h.others name hplain hne, field?_eq_valueOf? _ hplain, field?_eq_valueOf? _ hplain, hfields]

/-- A copy of a complete record. -/
theorem rewrites_withField_of_isLine {r copy : Record} (hline : IsLine r.text) {field : Field}
    (hfit : field.Fits) (htext : copy.text = r.withField field) : r.Rewrites copy field := by
  obtain ⟨tail, hstarts, htail, heq, hwords⟩ := withField_eq hline hfit
  have hfresh := freshLine_withField hline hfit
  rw [← htext] at hfresh heq
  have hhead := length_freshHead (Nat.le_of_lt (keyAt_lt_of_defect? r.wellFormed))
  have htailOf : tailOf copy.text = tail := by
    rw [heq, tailOf_parts hhead (fun _ => isDelimiter_of_mem_keyOf) hstarts]
  have hfields : copy.fields = setField r.fields field := by
    rw [copy.fields_eq, r.fields_eq, hfresh.fields_eq]
  refine ⟨?_, ?_, hfresh.key_eq, modCount_withField heq, ?_, hfields, ?_, ?_⟩
  · rw [isLive, hfresh.live, beq_self_eq_true]
  · rw [slot, hfresh.slot, Option.getD_some]
  · rw [map_text_tokens, map_text_tokens, htailOf, hwords]
  · rw [copy.field?_eq_valueOf? hfit.name_plain, hfields, valueOf?_setField_self]
  · intro name hplain hne
    rw [copy.field?_eq_valueOf? hplain, r.field?_eq_valueOf? hplain, hfields,
      valueOf?_setField_of_ne hne]

/-- **A copy sets one field and keeps all else**, also where the record copied lacks its newline. -/
theorem rewrites_withField {r : Record} (h : IsLine r.text ∨ newline ∉ r.text) {field : Field}
    (hfit : field.Fits) : ∃ hwell : defect? (r.withField field) = none,
      IsLine (r.withField field) ∧
        ∀ offset, r.Rewrites ⟨⟨offset, r.withField field⟩, hwell⟩ field := by
  rcases h with hline | hopen
  · have hfresh := freshLine_withField hline hfit
    exact ⟨hfresh.wellFormed, hfresh.line, fun _ => rewrites_withField_of_isLine hline hfit rfl⟩
  · obtain ⟨closed, htext, hkey, htokens, hcopy⟩ := exists_closed hopen
    have hline : IsLine closed.text := ⟨r.text, hopen, htext⟩
    have hfresh := freshLine_withField hline hfit
    have hcount : closed.modCount = r.modCount := by
      have hlt := keyAt_lt_of_defect? r.wellFormed
      rw [modCount, modCount, htext, take_drop_append]
      simp only [modCountAt, keyAt] at hlt ⊢
      omega
    rw [hcopy] at hfresh
    refine ⟨hfresh.wellFormed, hfresh.line, fun offset => ?_⟩
    have hof : closed.Rewrites ⟨⟨offset, r.withField field⟩, hfresh.wellFormed⟩ field :=
      rewrites_withField_of_isLine hline hfit (hcopy field).symm
    exact hof.of_closed hkey hcount htokens

/-- A record that was decoded is one line, or what follows the last newline. -/
theorem isLine_or_of_decode {data : Bytes} {offset : Nat} {r : Record}
    (h : decode data offset = .ok r) : IsLine r.text ∨ newline ∉ r.text := by
  obtain ⟨-, -, htext⟩ := decode_eq_ok_iff.1 h
  by_cases hmem : newline ∈ data.drop offset
  · exact .inl (htext ▸ isLine_takeLine_of_mem hmem)
  · rw [takeLine_of_notMem hmem] at htext
    exact .inr (htext ▸ hmem)

/-- **A copy of whatever decodes as a record decodes, wherever it is written, as that record with the
one field set.** -/
theorem decode_withField {data : Bytes} {offset : Nat} {r : Record} {field : Field}
    (hr : decode data offset = .ok r) (hname : nameFault? field.name = none)
    (hvalue : valueFault? field.value = none) (front rest : Bytes) :
    IsLine (r.withField field) ∧
      ∃ copy : Record, decode (front ++ (r.withField field ++ rest)) front.length = .ok copy ∧
        copy.text = r.withField field ∧ r.Rewrites copy field ∧
        (copy.tokens.map Token.text).filter (fun text => equals ∉ text) =
          (r.tokens.map Token.text).filter fun text => equals ∉ text := by
  obtain ⟨hwell, hline, hcopy⟩ :=
    rewrites_withField (isLine_or_of_decode hr) (Field.fits_of_faults hname hvalue)
  refine ⟨hline, ⟨⟨front.length, r.withField field⟩, hwell⟩, ?_, rfl, hcopy _, ?_⟩
  · have hpos := hline.length_pos
    refine decode_eq_ok_iff.2 ⟨?_, rfl, ?_⟩
    · rw [List.length_append, List.length_append]
      omega
    · rw [List.drop_left, takeLine_append hline]
  · rw [(hcopy _).tokens_eq, filter_setToken]

/-- A dead line that was sorted once: a tab, a token without `=`, a name twice and no newline. -/
def oddLine : Bytes :=
  ascii (['-', '0', '0', '0', '0', '0', '0', '2', '3', '.', '0', '0', '1', 'f', ':', 'k', '\t']
    ++ ['x', ' ', ' ', 'a', '=', '1', ' ', 'a', '=', '2'])

/-- The first value is set; the tab, the token without `=` and the second value stay. -/
theorem decode_withField_of_odd_line : ∃ r copy : Record, decode oddLine 0 = .ok r ∧
    decode (ascii (['+', '0', '0', '0', '0', '0', '0', '0', '0', '.', '0', '0', '1', 'f', ':', 'k']
      ++ ['\t', 'x', ' ', ' ', 'a', '=', '9', '9', ' ', 'a', '=', '2', '\n'])) 0 = .ok copy ∧
    r.Rewrites copy ⟨ascii ['a'], ascii ['9', '9']⟩ := by
  have hdec : decode oddLine 0 = .ok ⟨⟨0, oddLine⟩, by decide⟩ := by decide
  obtain ⟨-, copy, hcopy, -, hrewrites, -⟩ := decode_withField hdec
    (show nameFault? (⟨ascii ['a'], ascii ['9', '9']⟩ : Field).name = none by decide)
    (by decide) [] []
  exact ⟨_, copy, hdec, hcopy, hrewrites⟩

end Record

end RecordStore
