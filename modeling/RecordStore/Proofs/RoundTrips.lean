import Mathlib.Tactic.Common
import RecordStore.Proofs.Fields
import RecordStore.Proofs.Search

/-!
# New records read back

A new record is put together from a key and fields, and cut apart at its delimiters and at the first
`=` of each token.  Whatever else its tokens look like, and whatever bytes stand around it, the cuts
fall where the line was put together.

* `Storable` — a key and fields that pass the checks made before anything is stored.
* `Record.Restores` — a record that is a new line of a key and its fields, in every part.

Principal results: `encodeRecord_roundTrip` — a new line decodes to what it was made of, whatever
stands before and behind it, the parts of its record make the line again, and no other parts do;
`encodeRecord_restored_iff` — a key and fields come back exactly if no delimiter cuts them and each
name ends at the first `=`, so the checks ask for no less.
-/

set_option autoImplicit false

namespace RecordStore

/-- A key and fields that pass the checks made before anything is stored. -/
structure Storable (key : Bytes) (fields : List Field) : Prop where
  key_ok : keyFault? key = none
  fields_ok : ∀ field ∈ fields, nameFault? field.name = none ∧ valueFault? field.value = none

instance (key : Bytes) (fields : List Field) : Decidable (Storable key fields) :=
  decidable_of_iff (keyFault? key = none ∧
      ∀ field ∈ fields, nameFault? field.name = none ∧ valueFault? field.value = none)
    ⟨fun h => ⟨h.1, h.2⟩, fun h => ⟨h.key_ok, h.fields_ok⟩⟩

theorem Storable.key_word {key : Bytes} {fields : List Field} (h : Storable key fields) :
    ∀ b ∈ key, isDelimiter b = false :=
  isDelimiter_of_keyFault? h.key_ok

theorem Storable.fits {key : Bytes} {fields : List Field} (h : Storable key fields) :
    ∀ field ∈ fields, field.Fits := fun field hmem =>
  Field.fits_of_faults (h.fields_ok field hmem).1 (h.fields_ok field hmem).2

/-- The tokens of some bytes hold no delimiter. -/
theorem isDelimiter_of_mem_words {s word : Bytes} (h : word ∈ words s) :
    ∀ b ∈ word, isDelimiter b = false := by
  obtain ⟨token, hmem, rfl⟩ := List.mem_map.1 h
  obtain ⟨before, after, hsplit⟩ := List.append_of_mem hmem
  obtain ⟨front, rest, -, -, hword, -⟩ := exists_token_split hsplit
  exact hword.2

/-- Every field read off a line fits into a line. -/
theorem Field.fits_of_mem_fieldsOf {text : Bytes} {field : Field} (h : field ∈ fieldsOf text) :
    field.Fits := by
  obtain ⟨word, hmem, hof⟩ := List.mem_filterMap.1 h
  obtain ⟨hplain, hword⟩ := eq_token_of_ofToken? hof
  have hclean := isDelimiter_of_mem_words hmem
  rw [hword] at hclean
  refine ⟨hplain, fun b hb => hclean b ?_, fun b hb => hclean b ?_⟩
  · exact List.mem_append_left _ hb
  · exact List.mem_append_right _ (List.mem_cons_of_mem _ hb)

namespace Record

/-- `r` stands at `offset` and is the new line of a key and its fields: live, placed by no sort,
never modified, with this key and these fields in this order. -/
structure Restores (r : Record) (offset : Nat) (key : Bytes) (fields : List Field) : Prop where
  offset_eq : r.offset = offset
  text_eq : r.text = encodeRecord key fields
  live : r.isLive = true
  slot_eq : r.slot = unsorted
  modCount_eq : r.modCount = 0
  key_eq : r.key = key
  fields_eq : r.fields = fields

/-- The counter of a new line reads zero. -/
theorem parse?_modCount_encodeRecord (key : Bytes) (fields : List Field) :
    Hex.parse? (((encodeRecord key fields).drop modCountAt).take 4) = some 0 := by
  have heq : encodeRecord key fields = newHead
      ++ (key ++ (fields.flatMap (fun field => space :: field.token) ++ [newline])) := by
    simp [encodeRecord, newHead]
  rw [heq, take_drop_append _ (by decide)]
  decide

/-- A record whose line writes down a key and its fields has them, wherever it stands. -/
theorem restores_of_freshLine {r : Record} {key : Bytes} {fields : List Field}
    (h : FreshLine (encodeRecord key fields) key fields) (htext : r.text = encodeRecord key fields) :
    r.Restores r.offset key fields := by
  refine ⟨rfl, htext, ?_, ?_, ?_, ?_, ?_⟩
  · rw [isLive, htext, h.live, beq_self_eq_true]
  · rw [slot, htext, h.slot, Option.getD_some]
  · rw [modCount, htext, parse?_modCount_encodeRecord, Option.getD_some]
  · rw [Record.key, htext, h.key_eq]
  · rw [r.fields_eq, htext, h.fields_eq]

end Record

/-- **A complete line decodes wherever it is written.** -/
theorem Record.decode_append {text : Bytes} (hline : IsLine text) (hwell : defect? text = none)
    (front rest : Bytes) :
    decode (front ++ (text ++ rest)) front.length = .ok ⟨⟨front.length, text⟩, hwell⟩ := by
  have hpos := hline.length_pos
  refine decode_eq_ok_iff.2 ⟨?_, rfl, ?_⟩
  · rw [List.length_append, List.length_append]
    omega
  · rw [List.drop_left, takeLine_append hline]

/-- **New records round-trip**: behind any bytes and before any others a new line decodes to the key
and the fields that it was made of; the key and the fields of a record with such a line make that
line again; and no other key and fields that pass the checks make it. -/
theorem encodeRecord_roundTrip {key : Bytes} {fields : List Field} (h : Storable key fields) :
    (∀ front rest, ∃ r, Record.decode (front ++ (encodeRecord key fields ++ rest)) front.length = .ok r
      ∧ r.Restores front.length key fields) ∧
    (∀ r : Record, r.text = encodeRecord key fields → encodeRecord r.key r.fields = r.text) ∧
    ∀ key' fields', Storable key' fields' →
      encodeRecord key' fields' = encodeRecord key fields → key' = key ∧ fields' = fields := by
  have hfresh := freshLine_encodeRecord h.key_word h.fits
  refine ⟨fun front rest => ?_, fun r htext => ?_, fun key' fields' h' heq => ?_⟩
  · exact ⟨_, Record.decode_append hfresh.line hfresh.wellFormed front rest,
      Record.restores_of_freshLine hfresh rfl⟩
  · have hrestored := Record.restores_of_freshLine hfresh htext
    rw [hrestored.key_eq, hrestored.fields_eq, htext]
  · have hfresh' := freshLine_encodeRecord h'.key_word h'.fits
    rw [heq] at hfresh'
    exact ⟨hfresh'.key_eq.symm.trans hfresh.key_eq, hfresh'.fields_eq.symm.trans hfresh.fields_eq⟩

/-- A key like the head of a record, a name twice, and values that hold `=`, `+`, `:` and `%`. -/
def looksLikeRecord : List Field :=
  [⟨ascii ['+'], ascii ['a', '=', ':', '=']⟩, ⟨ascii ['+'], []⟩,
    ⟨ascii ['-', '0', '.', ':'], ascii ['+', '0', '0', '0', '0', '0', '0', '0', '0', '.', '%']⟩]

/-- Tokens that look like records and separators come back, between bytes that do so too. -/
theorem encodeRecord_roundTrip_of_odd_tokens : ∃ r,
    Record.decode (ascii ['+', '=', ' '] ++ (encodeRecord (ascii ['=', '+', '0', ':']) looksLikeRecord
      ++ ascii ['x', '=', '1'])) 3 = .ok r ∧
    r.Restores 3 (ascii ['=', '+', '0', ':']) looksLikeRecord :=
  (encodeRecord_roundTrip (show Storable (ascii ['=', '+', '0', ':']) looksLikeRecord by decide)).1
    (ascii ['+', '=', ' ']) (ascii ['x', '=', '1'])

/-- **The checks ask for no less**: a new line decodes to its key and its fields exactly if no
delimiter cuts the key or a field and no name holds a `=`. -/
theorem encodeRecord_restored_iff {key : Bytes} {fields : List Field} {front rest : Bytes} :
    (∃ r, Record.decode (front ++ (encodeRecord key fields ++ rest)) front.length = .ok r ∧
      r.key = key ∧ r.fields = fields) ↔
      (∀ b ∈ key, isDelimiter b = false) ∧ ∀ field ∈ fields, field.Fits := by
  constructor
  · rintro ⟨r, -, hkey, hfields⟩
    refine ⟨fun b hb => ?_, fun field hmem => ?_⟩
    · rw [← hkey] at hb
      exact isDelimiter_of_mem_keyOf hb
    · rw [← hfields, r.fields_eq] at hmem
      exact Field.fits_of_mem_fieldsOf hmem
  · rintro ⟨hkey, hfits⟩
    have hfresh := freshLine_encodeRecord hkey hfits
    have hrestored := Record.restores_of_freshLine (r := ⟨⟨front.length, _⟩, hfresh.wellFormed⟩)
      hfresh rfl
    exact ⟨_, Record.decode_append hfresh.line hfresh.wellFormed front rest,
      hrestored.key_eq, hrestored.fields_eq⟩

end RecordStore
