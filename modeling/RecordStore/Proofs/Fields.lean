import Mathlib.Tactic.Common
import RecordStore.Contents
import RecordStore.Proofs.Patches
import RecordStore.Proofs.Tokens

/-!
# Fields of a record line

A line is fifteen bytes of its own, the key, and a tail of tokens.  Setting a field exchanges one
token of the tail or adds one at its end; both the copy of a line and the patch in place do this.

* `tailOf`, `fieldsOf` — what follows the key, and the fields written there.
* `ValueAt` — where the value of a name stands in a line, and what stands around it.
* `Field.Fits` — a field that can be stored.
* `setToken` — what setting a field does to the tokens of a tail.
* `FreshLine` — a live line, in no sort yet, that writes down a key's fields.

Principal results: `Record.freshLine_withField` — a copy has the field set and all else as it was;
`Record.apply_fieldSpan?` — so has the line patched in place; `freshLine_encodeRecord` — a new line
has the fields it was made of; `Record.field?_eq_valueOf?` — looking a name up reads the list of
fields.
-/

set_option autoImplicit false

namespace RecordStore

/-- What follows the key of a line. -/
def tailOf (text : Bytes) : Bytes := text.drop (keyAt + (keyOf text).length)

/-- The fields of a line in order. -/
def fieldsOf (text : Bytes) : List Field := (words (tailOf text)).filterMap Field.ofToken?

theorem Record.fields_eq (r : Record) : r.fields = fieldsOf r.text := by
  rw [fieldsOf, ← map_text_tokensFrom (keyAt + r.key.length), List.filterMap_map]
  rfl

/-! ## The parts of a line -/

/-- The key and the tail of a line put together from its parts. -/
theorem keyOf_parts {head key tail : Bytes} (hh : head.length = keyAt)
    (hk : ∀ b ∈ key, isDelimiter b = false) (ht : StartsApart tail) :
    keyOf (head ++ (key ++ tail)) = key := by
  have hnot : ∀ b ∈ key, (!isDelimiter b) = true := fun b hb => by simp [hk b hb]
  rw [keyOf, ← hh, List.drop_left, List.takeWhile_append_of_pos hnot]
  cases tail with
  | nil => simp
  | cons b tail => simp [ht b rfl]

theorem tailOf_parts {head key tail : Bytes} (hh : head.length = keyAt)
    (hk : ∀ b ∈ key, isDelimiter b = false) (ht : StartsApart tail) :
    tailOf (head ++ (key ++ tail)) = tail := by
  rw [tailOf, keyOf_parts hh hk ht, ← hh, ← List.append_assoc, ← List.length_append, List.drop_left]

theorem isDelimiter_of_mem_keyOf {text : Bytes} {b : UInt8} (h : b ∈ keyOf text) :
    isDelimiter b = false := by
  have := List.all_takeWhile (l := text.drop keyAt) (p := fun b => !isDelimiter b)
  simpa using List.all_eq_true.1 this b h

theorem tailOf_eq_dropWhile (text : Bytes) :
    tailOf text = (text.drop keyAt).dropWhile fun b => !isDelimiter b := by
  have h := List.takeWhile_append_dropWhile (l := text.drop keyAt) (p := fun b => !isDelimiter b)
  rw [tailOf, ← List.drop_drop]
  conv_lhs => rw [← h]
  exact List.drop_left

theorem take_keyAt_append (text : Bytes) : text.take keyAt ++ (keyOf text ++ tailOf text) = text := by
  rw [tailOf_eq_dropWhile, keyOf, List.takeWhile_append_dropWhile, List.take_append_drop]

/-- The key ends inside a line that is long enough to have one. -/
theorem length_keyOf_le {text : Bytes} (h : keyAt ≤ text.length) :
    keyAt + (keyOf text).length ≤ text.length := by
  have hlen := congrArg List.length (take_keyAt_append text)
  rw [List.length_append, List.length_append, List.length_take, Nat.min_eq_left h] at hlen
  omega

theorem startsApart_tailOf (text : Bytes) : StartsApart (tailOf text) := by
  intro b hb
  have := List.head?_dropWhile_not (fun b => !isDelimiter b) (text.drop keyAt)
  rw [tailOf_eq_dropWhile] at hb
  rw [hb] at this
  simpa using this

/-- A line long enough for a key is made of its parts. -/
theorem exists_parts {text : Bytes} (h : keyAt ≤ text.length) : ∃ head, head.length = keyAt ∧
    text = head ++ (keyOf text ++ tailOf text) :=
  ⟨text.take keyAt, by rw [List.length_take, Nat.min_eq_left h], (take_keyAt_append text).symm⟩

theorem take_drop_append {head : Bytes} (rest : Bytes) {start count : Nat}
    (h : start + count ≤ head.length) :
    ((head ++ rest).drop start).take count = (head.drop start).take count := by
  rw [List.drop_append_of_le_length (by omega), List.take_append_of_le_length]
  rw [List.length_drop]
  omega

theorem slot?_append {head : Bytes} (hh : head.length = keyAt) (rest : Bytes) :
    slot? (head ++ rest) = slot? head := by
  rw [slot?, slot?, take_drop_append rest (by rw [hh]; decide)]

/-- The rules of the format look at the bytes before the key only. -/
theorem defect?_append {head rest : Bytes} (hh : head.length = keyAt) (hr : rest ≠ []) :
    defect? (head ++ rest) =
      if head.head? ≠ some liveFlag ∧ head.head? ≠ some deadFlag then some .flag
      else if (slot? head).isNone then some .slot
      else if (Hex.parse? ((head.drop modCountAt).take 4)).isNone then some .counter
      else if head[keyAt - 1]? ≠ some ':'.toUInt8 then some .colon
      else none := by
  have hpos := List.length_pos_iff.2 hr
  have hhead : (head ++ rest).head? = head.head? := by
    cases head with
    | nil => simp [keyAt] at hh
    | cons b head => rfl
  have hcolon : (head ++ rest)[keyAt - 1]? = head[keyAt - 1]? :=
    List.getElem?_append_left (by rw [hh]; decide)
  rw [defect?, if_neg (by rw [List.length_append]; omega), hhead, slot?_append hh, hcolon,
    take_drop_append rest (by rw [hh]; decide)]

theorem defect?_congr {head rest rest' : Bytes} (hh : head.length = keyAt) (hr : rest ≠ [])
    (hr' : rest' ≠ []) : defect? (head ++ rest) = defect? (head ++ rest') := by
  rw [defect?_append hh hr, defect?_append hh hr']

theorem keyAt_lt_of_defect? {text : Bytes} (h : defect? text = none) : keyAt < text.length := by
  unfold defect? at h
  split at h
  · cases h
  · omega

theorem slot?_isSome_of_defect? {text : Bytes} (h : defect? text = none) :
    (slot? text).isSome = true := by
  have hlt := keyAt_lt_of_defect? h
  cases hs : slot? text with
  | some v => rfl
  | none =>
    unfold defect? at h
    rw [if_neg (by omega), hs] at h
    split at h <;> simp at h

theorem flag_of_defect? {text : Bytes} (h : defect? text = none) :
    text.head? = some liveFlag ∨ text.head? = some deadFlag := by
  have hlt := keyAt_lt_of_defect? h
  by_contra hneither
  rw [not_or] at hneither
  rw [defect?, if_neg (by omega), if_pos hneither] at h
  cases h

/-! ## One field among the others -/

theorem takeWhile_name {name : Bytes} (h : equals ∉ name) (value : Bytes) :
    (name ++ equals :: value).takeWhile (· != equals) = name := by
  have hnot : ∀ b ∈ name, (b != equals) = true := fun b hb =>
    bne_iff_ne.2 fun e => h (e ▸ hb)
  rw [List.takeWhile_append_of_pos hnot]
  simp

theorem ofToken?_token {name : Bytes} (h : equals ∉ name) (value : Bytes) :
    Field.ofToken? (name ++ equals :: value) = some ⟨name, value⟩ := by
  have hdrop : (name ++ equals :: value).dropWhile (· != equals) = equals :: value := by
    have := List.takeWhile_append_dropWhile (l := name ++ equals :: value) (p := (· != equals))
    rw [takeWhile_name h] at this
    exact List.append_cancel_left this
  rw [Field.ofToken?, if_pos (by simp), takeWhile_name h, hdrop]
  rfl

/-- A token that carries a field is its name, a `=` and its value. -/
theorem eq_token_of_ofToken? {text : Bytes} {field : Field} (h : Field.ofToken? text = some field) :
    equals ∉ field.name ∧ text = field.name ++ equals :: field.value := by
  by_cases hmem : equals ∈ text
  · obtain ⟨name, value, rfl, hname⟩ := List.eq_append_cons_of_mem hmem
    rw [ofToken?_token hname] at h
    obtain rfl := Option.some.inj h
    exact ⟨hname, rfl⟩
  · rw [Field.ofToken?, if_neg hmem] at h
    cases h

/-- A token that does not start with a name carries no field of that name. -/
theorem name_ne_of_not_isPrefixOf {name text : Bytes} {field : Field}
    (h : (name ++ [equals]).isPrefixOf text = false) (hf : Field.ofToken? text = some field) :
    field.name ≠ name := by
  obtain ⟨-, rfl⟩ := eq_token_of_ofToken? hf
  rintro rfl
  rw [List.isPrefixOf_iff_prefix.2 ⟨field.value, by simp⟩] at h
  cases h

theorem setField_append {front back : List Field} {old field : Field}
    (h : ∀ f ∈ front, f.name ≠ field.name) (hold : old.name = field.name) :
    setField (front ++ old :: back) field = front ++ field :: back := by
  induction front with
  | nil => simp [setField, hold]
  | cons f front ih =>
    simp only [List.mem_cons, forall_eq_or_imp] at h
    simp [setField, h.1, ih h.2]

/-! ## One token among the others -/

/-- Sets the token of a field: the first that starts with its name and a `=` gives way to it, and
the token of a new name goes to the end.  Every other token stays where it is. -/
def setToken : List Bytes → Field → List Bytes
  | [], field => [field.token]
  | text :: more, field =>
    if (field.name ++ [equals]).isPrefixOf text then field.token :: more
    else text :: setToken more field

theorem setToken_append {front back : List Bytes} {old : Bytes} {field : Field}
    (h : ∀ w ∈ front, (field.name ++ [equals]).isPrefixOf w = false)
    (hold : (field.name ++ [equals]).isPrefixOf old = true) :
    setToken (front ++ old :: back) field = front ++ field.token :: back := by
  induction front with
  | nil => simp [setToken, hold]
  | cons w front ih =>
    simp only [List.mem_cons, forall_eq_or_imp] at h
    simp [setToken, h.1, ih h.2]

theorem setToken_of_forall {texts : List Bytes} {field : Field}
    (h : ∀ w ∈ texts, (field.name ++ [equals]).isPrefixOf w = false) :
    setToken texts field = texts ++ [field.token] := by
  induction texts with
  | nil => rfl
  | cons w texts ih =>
    simp only [List.mem_cons, forall_eq_or_imp] at h
    simp [setToken, h.1, ih h.2]

/-- Setting the token of a field sets the field. -/
theorem filterMap_setToken {field : Field} (hname : equals ∉ field.name) (texts : List Bytes) :
    (setToken texts field).filterMap Field.ofToken? =
      setField (texts.filterMap Field.ofToken?) field := by
  have htoken : Field.ofToken? field.token = some field := by
    simpa [Field.token] using ofToken?_token hname field.value
  induction texts with
  | nil => simp [setToken, setField, htoken]
  | cons text more ih =>
    by_cases hpre : (field.name ++ [equals]).isPrefixOf text = true
    · obtain ⟨value, rfl⟩ := List.isPrefixOf_iff_prefix.1 hpre
      have hold : Field.ofToken? (field.name ++ [equals] ++ value) = some ⟨field.name, value⟩ := by
        simpa using ofToken?_token hname value
      rw [setToken, if_pos hpre, List.filterMap_cons_some htoken, List.filterMap_cons_some hold]
      simp [setField]
    · rw [setToken, if_neg hpre]
      cases hold : Field.ofToken? text with
      | none => rw [List.filterMap_cons_none hold, List.filterMap_cons_none hold, ih]
      | some f =>
        have hne := name_ne_of_not_isPrefixOf (Bool.eq_false_iff.2 hpre) hold
        rw [List.filterMap_cons_some hold, List.filterMap_cons_some hold, ih, setField, if_neg hne]

/-! ## Where a value stands -/

theorem fieldsOf_exchange {front word rest : Bytes} (hf : EndsApart front) (hw : IsWord word)
    (hr : StartsApart rest) : words (front ++ (word ++ rest)) = words front ++ word :: words rest := by
  rw [words_append (Or.inl hf), words_word hw hr]

/-- The token that a name leads to, and what stands around it. -/
structure ValueAt (text name : Bytes) (place : Span) (front value rest : Bytes) : Prop where
  tail : tailOf text = front ++ ((name ++ equals :: value) ++ rest)
  front_apart : EndsApart front
  rest_apart : StartsApart rest
  word : IsWord (name ++ equals :: value)
  place_eq : place =
    ⟨keyAt + (keyOf text).length + front.length + (name.length + 1), value.length⟩
  first : ∀ w ∈ words front, (name ++ [equals]).isPrefixOf w = false

theorem Record.tokens_eq (r : Record) :
    r.tokens = tokensFrom (keyAt + (keyOf r.text).length) (tailOf r.text) := rfl

theorem Record.exists_valueAt {r : Record} {name : Bytes} {place : Span}
    (h : r.fieldSpan? name = some place) :
    ∃ front value rest, ValueAt r.text name place front value rest := by
  rw [Record.fieldSpan?, Record.tokens_eq, List.findSome?_eq_some_iff] at h
  obtain ⟨before, token, after, htokens, hplace, hbefore⟩ := h
  obtain ⟨front, rest, htail, hoff, hword, hfront, hrest, hcut, -⟩ := exists_token_split htokens
  by_cases hpre : (name ++ [equals]).isPrefixOf token.text = true
  · obtain ⟨value, hvalue⟩ := List.isPrefixOf_iff_prefix.1 hpre
    rw [List.append_assoc, List.singleton_append] at hvalue
    rw [if_pos hpre, Option.some.injEq] at hplace
    refine ⟨front, value, rest, ?_, hfront, hrest, hvalue ▸ hword, ?_, ?_⟩
    · rw [htail, hvalue]
    · rw [← hplace, ← hvalue, hoff, List.length_append, List.length_cons]
      congr 1
      omega
    · intro w hw
      rw [← map_text_tokensFrom (keyAt + (keyOf r.text).length), hcut] at hw
      obtain ⟨t, ht, rfl⟩ := List.mem_map.1 hw
      have hnone := hbefore t ht
      rw [ite_eq_right_iff] at hnone
      rw [Bool.eq_false_iff]
      exact fun hp => Option.some_ne_none _ (hnone hp)
  · rw [if_neg hpre] at hplace
    cases hplace

theorem Record.not_isPrefixOf_of_fieldSpan?_eq_none {r : Record} {name : Bytes}
    (h : r.fieldSpan? name = none) :
    ∀ w ∈ words (tailOf r.text), (name ++ [equals]).isPrefixOf w = false := by
  intro w hw
  rw [← map_text_tokensFrom (keyAt + (keyOf r.text).length)] at hw
  obtain ⟨token, ht, rfl⟩ := List.mem_map.1 hw
  rw [Record.fieldSpan?, Record.tokens_eq, List.findSome?_eq_none_iff] at h
  have hnone := h token ht
  rw [ite_eq_right_iff] at hnone
  rw [Bool.eq_false_iff]
  exact fun hpre => Option.some_ne_none _ (hnone hpre)

theorem Record.name_ne_of_fieldSpan?_eq_none {r : Record} {name : Bytes}
    (h : r.fieldSpan? name = none) : ∀ f ∈ fieldsOf r.text, f.name ≠ name := by
  intro f hf
  obtain ⟨w, hw, hfw⟩ := List.mem_filterMap.1 hf
  exact name_ne_of_not_isPrefixOf (Record.not_isPrefixOf_of_fieldSpan?_eq_none h w hw) hfw

namespace ValueAt

variable {text name : Bytes} {place : Span} {front value rest : Bytes}

theorem words_eq (h : ValueAt text name place front value rest) :
    words (tailOf text) = words front ++ (name ++ equals :: value) :: words rest := by
  rw [h.tail, fieldsOf_exchange h.front_apart h.word h.rest_apart]

/-- The fields before the one found, which have other names, then it, then the others. -/
theorem fieldsOf_eq (h : ValueAt text name place front value rest) (hn : equals ∉ name) :
    fieldsOf text = (words front).filterMap Field.ofToken?
      ++ ⟨name, value⟩ :: (words rest).filterMap Field.ofToken? := by
  rw [fieldsOf, h.words_eq, List.filterMap_append, List.filterMap_cons, ofToken?_token hn]

theorem name_ne (h : ValueAt text name place front value rest) :
    ∀ f ∈ (words front).filterMap Field.ofToken?, f.name ≠ name := by
  intro f hf
  obtain ⟨w, hw, hfw⟩ := List.mem_filterMap.1 hf
  exact name_ne_of_not_isPrefixOf (h.first w hw) hfw

/-- A tail starts with a delimiter, so some of it stands before any token. -/
theorem front_starts (h : ValueAt text name place front value rest) :
    front ≠ [] ∧ StartsApart front := by
  have htail := startsApart_tailOf text
  rw [h.tail] at htail
  constructor
  · rintro rfl
    exact h.word.not_startsApart rest htail
  · intro b hb
    refine htail b ?_
    cases front with
    | nil => cases hb
    | cons c front => exact hb

theorem starts_exchange (h : ValueAt text name place front value rest) (s : Bytes) :
    StartsApart (front ++ s) := by
  obtain ⟨hne, hs⟩ := h.front_starts
  cases front with
  | nil => exact absurd rfl hne
  | cons b front => exact hs

theorem value_word (h : ValueAt text name place front value rest) :
    ∀ b ∈ name ++ [equals], isDelimiter b = false := by
  intro b hb
  refine h.word.2 b ?_
  rcases List.mem_append.1 hb with hb | hb
  · exact List.mem_append_left _ hb
  · exact List.mem_append_right _ (by simp [List.mem_singleton.1 hb])

/-- The token with another value in place of the one found. -/
theorem isWord_exchange (h : ValueAt text name place front value rest) {new : Bytes}
    (hnew : ∀ b ∈ new, isDelimiter b = false) : IsWord (name ++ equals :: new) := by
  have : IsWord (name ++ [equals]) := ⟨by simp, h.value_word⟩
  simpa using this.append hnew

/-- The bytes before and after the value in the line. -/
theorem exists_split (h : ValueAt text name place front value rest) (hlt : keyAt < text.length) :
    ∃ pre, text = pre ++ (value ++ rest) ∧ pre.length = place.offset := by
  refine ⟨text.take keyAt ++ (keyOf text ++ (front ++ (name ++ [equals]))), ?_, ?_⟩
  · conv_lhs => rw [← take_keyAt_append text, h.tail]
    simp
  · simp only [List.length_append, List.length_take, h.place_eq, List.length_singleton]
    omega

theorem read_eq (h : ValueAt text name place front value rest) (hlt : keyAt < text.length) :
    place.read text = value := by
  obtain ⟨pre, htext, hlen⟩ := h.exists_split hlt
  rw [Span.read, htext, ← hlen, List.drop_left, h.place_eq, List.take_left]

end ValueAt

/-- **Looking a name up reads the list of fields.** -/
theorem Record.field?_eq_valueOf? (r : Record) {name : Bytes} (hn : equals ∉ name) :
    r.field? name = valueOf? r.fields name := by
  rw [Record.field?, Record.fields_eq]
  cases hs : r.fieldSpan? name with
  | none =>
    have hne := Record.name_ne_of_fieldSpan?_eq_none hs
    have : (fieldsOf r.text).find? (fun f => f.name == name) = none := by
      rw [List.find?_eq_none]
      intro f hf
      simpa using hne f hf
    rw [valueOf?, this]
    rfl
  | some place =>
    obtain ⟨front, value, rest, h⟩ := Record.exists_valueAt hs
    have hread := h.read_eq (keyAt_lt_of_defect? r.wellFormed)
    have hfind : (fieldsOf r.text).find? (fun f => f.name == name) = some ⟨name, value⟩ := by
      rw [h.fieldsOf_eq hn, List.find?_append, List.find?_cons_of_pos (by simp)]
      have : ((words front).filterMap Field.ofToken?).find? (fun f => f.name == name) = none := by
        rw [List.find?_eq_none]
        intro f hf
        simpa using h.name_ne f hf
      rw [this]
      rfl
    rw [valueOf?, hfind, Option.map_some, Option.map_some, hread]

/-! ## Lines put together anew -/

theorem isLine_append {front text : Bytes} (hf : newline ∉ front) (h : IsLine text) :
    IsLine (front ++ text) := by
  obtain ⟨body, hb, rfl⟩ := h
  refine ⟨front ++ body, ?_, (List.append_assoc ..).symm⟩
  simp [hf, hb]

/-- What a complete line ends in is a complete line, and no newline stands before it. -/
theorem isLine_of_isLine_append {front rest : Bytes} (h : IsLine (front ++ rest)) (hr : rest ≠ []) :
    newline ∉ front ∧ IsLine rest := by
  obtain ⟨body, hb, heq⟩ := h
  have hrest : rest = rest.dropLast ++ [rest.getLast hr] :=
    (List.dropLast_concat_getLast hr).symm
  rw [hrest, ← List.append_assoc] at heq
  obtain ⟨hbody, hlast⟩ := List.append_inj' heq rfl
  rw [← hbody, List.mem_append, not_or] at hb
  exact ⟨hb.1, rest.dropLast, hb.2, by rw [← hlast, ← hrest]⟩

theorem newline_notMem_of_forall {s : Bytes} (h : ∀ b ∈ s, isDelimiter b = false) : newline ∉ s :=
  fun hm => by simpa [isDelimiter_newline] using h newline hm

theorem newline_notMem_keyOf (text : Bytes) : newline ∉ keyOf text :=
  newline_notMem_of_forall fun _ hb => isDelimiter_of_mem_keyOf hb

/-- The tail of a complete line is one too: it holds the newline at least. -/
theorem isLine_tailOf {text : Bytes} (h : IsLine text) (hlt : keyAt < text.length) :
    newline ∉ text.take keyAt ∧ IsLine (tailOf text) := by
  have hne : keyOf text ++ tailOf text ≠ [] := by
    intro hnil
    have hlen := congrArg List.length (take_keyAt_append text)
    rw [hnil, List.append_nil, List.length_take] at hlen
    omega
  rw [← take_keyAt_append text] at h
  obtain ⟨hhead, hline⟩ := isLine_of_isLine_append h hne
  refine ⟨hhead, (isLine_of_isLine_append hline ?_).2⟩
  intro hnil
  rw [hnil, List.append_nil] at hline
  exact newline_notMem_keyOf text (newline_mem_of_endsLine hline.endsLine)

/-- A field that can be stored: its name ends at the first `=` and no delimiter cuts its token. -/
structure Field.Fits (field : Field) : Prop where
  name_plain : equals ∉ field.name
  name_word : ∀ b ∈ field.name, isDelimiter b = false
  value_word : ∀ b ∈ field.value, isDelimiter b = false

theorem isDelimiter_of_not_any {s : Bytes} (h : ¬ s.any isDelimiter = true) :
    ∀ b ∈ s, isDelimiter b = false := by
  intro b hb
  rw [List.any_eq_true, not_exists] at h
  simpa [hb] using h b

/-- No delimiter stands in a key that passed its check. -/
theorem isDelimiter_of_keyFault? {key : Bytes} (h : keyFault? key = none) :
    ∀ b ∈ key, isDelimiter b = false := by
  unfold keyFault? at h
  split at h
  · cases h
  · split at h
    · cases h
    · exact isDelimiter_of_not_any ‹_›

/-- A field with a valid name and a valid value can be stored. -/
theorem Field.fits_of_faults {field : Field} (hname : nameFault? field.name = none)
    (hvalue : valueFault? field.value = none) : field.Fits := by
  unfold valueFault? at hvalue
  split at hvalue
  · cases hvalue
  · next hvalueWord =>
    unfold nameFault? at hname
    split at hname
    · cases hname
    · split at hname
      · cases hname
      · next hnameWord =>
        split at hname
        · cases hname
        · next hplain =>
          exact ⟨hplain, isDelimiter_of_not_any hnameWord, isDelimiter_of_not_any hvalueWord⟩

theorem Field.Fits.token_word {field : Field} (h : field.Fits) : IsWord field.token := by
  refine ⟨by simp [Field.token], fun b hb => ?_⟩
  simp only [Field.token, List.mem_append, List.mem_singleton] at hb
  rcases hb with (hb | rfl) | hb
  · exact h.name_word b hb
  · exact isDelimiter_equals
  · exact h.value_word b hb

theorem Field.Fits.ofToken? {field : Field} (h : field.Fits) :
    Field.ofToken? field.token = some field := by
  have := ofToken?_token h.name_plain field.value
  simpa [Field.token] using this

/-- The first fifteen bytes of a copy: live and unsorted, all else as in the line copied. -/
def freshHead (text : Bytes) : Bytes :=
  [liveFlag] ++ Hex.word unsorted ++ (text.take keyAt).drop (slotAt + Hex.wordLen)

theorem length_freshHead {text : Bytes} (h : keyAt ≤ text.length) :
    (freshHead text).length = keyAt := by
  simp only [freshHead, List.length_append, Hex.length_word, List.length_drop, List.length_take,
    List.length_singleton, slotAt, Hex.wordLen, keyAt] at h ⊢
  omega

/-- A copy agrees with the line copied from the separator on. -/
theorem drop_freshHead (text : Bytes) (k : Nat) :
    (freshHead text).drop (slotAt + Hex.wordLen + k) =
      (text.take keyAt).drop (slotAt + Hex.wordLen + k) := by
  have hfront : ([liveFlag] ++ Hex.word unsorted).length = slotAt + Hex.wordLen := rfl
  rw [freshHead, ← List.drop_drop, ← hfront, List.drop_left, List.drop_drop]

/-- A slot that was written is read back. -/
theorem slot?_word (flag : UInt8) (v : UInt32) (rest : Bytes) :
    slot? ([flag] ++ Hex.word v ++ rest) = some v := by
  have hdrop : ([flag] ++ Hex.word v ++ rest).drop slotAt = Hex.word v ++ rest := by
    rw [List.append_assoc]
    rfl
  rw [slot?, hdrop, List.take_left' (Hex.length_word v), Hex.parse?_word]

/-- A copy breaks no rule that the line copied keeps. -/
theorem defect?_freshHead_append {text rest : Bytes} (h : defect? text = none) (hr : rest ≠ []) :
    defect? (freshHead text ++ rest) = none := by
  have hlt := keyAt_lt_of_defect? h
  obtain ⟨head, hhead, htext⟩ := exists_parts (Nat.le_of_lt hlt)
  have htail : keyOf text ++ tailOf text ≠ [] := by
    intro hnil
    rw [hnil, List.append_nil] at htext
    rw [htext] at hlt
    omega
  have htake : text.take keyAt = head := by
    rw [htext, ← hhead, List.take_left]
  have hsep := drop_freshHead text
  rw [htake] at hsep
  have hcolon : (freshHead text)[keyAt - 1]? = head[keyAt - 1]? := by
    have := congrArg (·[0]?) (hsep 5)
    rwa [List.getElem?_drop, List.getElem?_drop] at this
  have hslot : slot? (freshHead text) = some unsorted := slot?_word liveFlag unsorted _
  have hcount := hsep 1
  rw [htext, defect?_append hhead htail] at h
  rw [defect?_append (length_freshHead (Nat.le_of_lt hlt)) hr, hcolon, hslot,
    show modCountAt = slotAt + Hex.wordLen + 1 from rfl, hcount, if_neg (by simp [freshHead]),
    if_neg (by simp)]
  split at h
  · cases h
  · split at h
    · cases h
    · exact h

/-! ## Setting a field -/

namespace ValueAt

variable {text name : Bytes} {place : Span} {front value rest : Bytes}

/-- Setting the field found leaves the fields around it alone. -/
theorem setField_fieldsOf (h : ValueAt text name place front value rest) (hn : equals ∉ name)
    (new : Bytes) : setField (fieldsOf text) ⟨name, new⟩ = (words front).filterMap Field.ofToken?
      ++ ⟨name, new⟩ :: (words rest).filterMap Field.ofToken? := by
  have hold : (⟨name, value⟩ : Field).name = (⟨name, new⟩ : Field).name := rfl
  rw [h.fieldsOf_eq hn, setField_append h.name_ne hold]

/-- Setting the token found leaves the tokens around it alone. -/
theorem setToken_words (h : ValueAt text name place front value rest) (new : Bytes) :
    setToken (words (tailOf text)) ⟨name, new⟩ =
      words front ++ (name ++ equals :: new) :: words rest := by
  have hold : (name ++ [equals]).isPrefixOf (name ++ equals :: value) = true :=
    List.isPrefixOf_iff_prefix.2 ⟨value, by simp⟩
  rw [h.words_eq, setToken_append h.first hold]
  simp [Field.token]

/-- The line with another value in place of the one found, behind fifteen bytes of its own. -/
theorem fields_exchange (h : ValueAt text name place front value rest) {head new : Bytes}
    (hh : head.length = keyAt) (hfit : (⟨name, new⟩ : Field).Fits) :
    keyOf (head ++ (keyOf text ++ (front ++ ((name ++ equals :: new) ++ rest)))) = keyOf text ∧
      fieldsOf (head ++ (keyOf text ++ (front ++ ((name ++ equals :: new) ++ rest)))) =
        setField (fieldsOf text) ⟨name, new⟩ := by
  have hkey : ∀ b ∈ keyOf text, isDelimiter b = false := fun _ => isDelimiter_of_mem_keyOf
  have hstarts := h.starts_exchange ((name ++ equals :: new) ++ rest)
  have hword := h.isWord_exchange hfit.value_word
  refine ⟨keyOf_parts hh hkey hstarts, ?_⟩
  rw [fieldsOf, tailOf_parts hh hkey hstarts, fieldsOf_exchange h.front_apart hword h.rest_apart,
    h.setField_fieldsOf hfit.name_plain, List.filterMap_append,
    List.filterMap_cons_some (ofToken?_token hfit.name_plain new)]

theorem isLine_rest (h : ValueAt text name place front value rest) (hline : IsLine text)
    (hlt : keyAt < text.length) : newline ∉ front ∧ IsLine rest := by
  have htail := (isLine_tailOf hline hlt).2
  rw [h.tail] at htail
  have hword : newline ∉ name ++ equals :: value := newline_notMem_of_forall h.word.2
  obtain ⟨hfront, hline⟩ := isLine_of_isLine_append htail (by simp)
  refine ⟨hfront, (isLine_of_isLine_append hline ?_).2⟩
  rintro rfl
  rw [List.append_nil] at hline
  exact hword (newline_mem_of_endsLine hline.endsLine)

end ValueAt

/-- A write over the value found exchanges it for another of its length. -/
theorem ValueAt.apply_eq {text name : Bytes} {place : Span} {front value rest : Bytes}
    (h : ValueAt text name place front value rest) (hlt : keyAt < text.length) {new : Bytes}
    (hlen : place.length = new.length) :
    (⟨place.offset, new⟩ : Patch).Fits text ∧ (⟨place.offset, new⟩ : Patch).apply text =
      text.take keyAt ++ (keyOf text ++ (front ++ ((name ++ equals :: new) ++ rest))) := by
  have hvalue : value.length = new.length := by rw [← hlen, h.place_eq]
  obtain ⟨pre, htext, hpre⟩ := h.exists_split hlt
  have hcount := congrArg List.length htext
  simp only [List.length_append] at hcount
  have hfits : (⟨place.offset, new⟩ : Patch).Fits text := by
    simp only [Patch.Fits]
    omega
  refine ⟨hfits, ?_⟩
  have hpre' : pre = text.take keyAt ++ (keyOf text ++ (front ++ (name ++ [equals]))) := by
    have heq : pre ++ (value ++ rest) = (text.take keyAt
        ++ (keyOf text ++ (front ++ (name ++ [equals])))) ++ (value ++ rest) := by
      rw [← htext]
      conv_lhs => rw [← take_keyAt_append text, h.tail]
      simp
    exact List.append_cancel_right heq
  have htake : text.take place.offset = pre := by rw [htext, ← hpre, List.take_left]
  have hdrop : text.drop (place.offset + new.length) = rest := by
    rw [htext, ← hpre, ← hvalue, ← List.length_append, ← List.append_assoc, List.drop_left]
  rw [Patch.apply_of_fits hfits, htake, hdrop, hpre']
  simp

/-- **Patched in place**: the value of a field gives way to another of its length. -/
theorem Record.apply_fieldSpan? {r : Record} (hline : IsLine r.text) {field : Field}
    (hfit : field.Fits) {place : Span} (hplace : r.fieldSpan? field.name = some place)
    (hlen : place.length = field.value.length) :
    let patch : Patch := ⟨place.offset, field.value⟩
    patch.Fits r.text ∧ IsLine (patch.apply r.text) ∧
      (patch.apply r.text).take keyAt = r.text.take keyAt ∧
      keyOf (patch.apply r.text) = keyOf r.text ∧
      fieldsOf (patch.apply r.text) = setField (fieldsOf r.text) field := by
  intro patch
  obtain ⟨front, value, rest, h⟩ := Record.exists_valueAt hplace
  have hlt := keyAt_lt_of_defect? r.wellFormed
  obtain ⟨hfits, happly⟩ := h.apply_eq hlt hlen
  have hhead : (r.text.take keyAt).length = keyAt := by
    rw [List.length_take, Nat.min_eq_left (Nat.le_of_lt hlt)]
  obtain ⟨hkey, hfields⟩ := h.fields_exchange hhead hfit
  refine ⟨hfits, ?_, ?_, ?_, ?_⟩
  · -- the newline stands behind the value
    obtain ⟨-, hrest⟩ := h.isLine_rest hline hlt
    have hpos := hrest.length_pos
    obtain ⟨pre, htext, hpre⟩ := h.exists_split hlt
    have hcount := congrArg List.length htext
    have hvalue : value.length = field.value.length := by rw [← hlen, h.place_eq]
    refine Patch.isLine_apply hline (newline_notMem_of_forall hfit.value_word) ?_
    simp only [List.length_append, patch] at hcount ⊢
    omega
  · rw [happly, List.take_left' hhead]
  · rw [happly, hkey]
  · rw [happly, hfields]

section WithField

variable {r : Record} (hline : IsLine r.text) {field : Field}

include hline

/-- A line without its newline, put together from its parts. -/
theorem Record.body_of_tailOf {front : Bytes} (htail : tailOf r.text = front ++ [newline]) :
    r.body = r.text.take keyAt ++ (keyOf r.text ++ front) := by
  have htext : r.text = (r.text.take keyAt ++ (keyOf r.text ++ front)) ++ [newline] := by
    conv_lhs => rw [← take_keyAt_append r.text, htail]
    simp
  rw [Record.body, if_pos hline.endsLine]
  conv_lhs => rw [htext]
  exact List.dropLast_concat

/-- A field that the record does not have goes behind the others. -/
theorem Record.withField_eq_of_none (hplace : r.fieldSpan? field.name = none) {body : Bytes}
    (htail : tailOf r.text = body ++ [newline]) : r.withField field = freshHead r.text ++
      (keyOf r.text ++ (body ++ space :: (field.token ++ [newline]))) := by
  have hlt := keyAt_lt_of_defect? r.wellFormed
  have hfront : slotAt + Hex.wordLen ≤ (r.text.take keyAt).length := by
    rw [List.length_take, Nat.min_eq_left (Nat.le_of_lt hlt)]
    decide
  rw [Record.withField, hplace]
  simp only [Record.body_of_tailOf hline htail, freshHead]
  rw [List.drop_append_of_le_length hfront]
  simp

/-- A field that it has gets the new value in its place. -/
theorem Record.withField_eq_of_some {place : Span} (hplace : r.fieldSpan? field.name = some place)
    {front value body : Bytes}
    (h : ValueAt r.text field.name place front value (body ++ [newline])) :
    r.withField field = freshHead r.text ++
      (keyOf r.text ++ (front ++ ((field.name ++ equals :: field.value) ++ (body ++ [newline])))) := by
  have hlt := keyAt_lt_of_defect? r.wellFormed
  have hfront : slotAt + Hex.wordLen ≤ (r.text.take keyAt).length := by
    rw [List.length_take, Nat.min_eq_left (Nat.le_of_lt hlt)]
    decide
  have hbody : r.body = r.text.take keyAt ++ (keyOf r.text ++ (front
      ++ (field.name ++ [equals]))) ++ (value ++ body) := by
    have htail : tailOf r.text = (front ++ (field.name ++ [equals])) ++ (value ++ body) ++ [newline] := by
      rw [h.tail]
      simp
    rw [Record.body_of_tailOf hline htail]
    simp
  have hoff : (r.text.take keyAt ++ (keyOf r.text ++ (front
      ++ (field.name ++ [equals])))).length = place.offset := by
    simp only [List.length_append, List.length_take, h.place_eq, List.length_singleton]
    omega
  have hend : place.offset + place.length = (r.text.take keyAt ++ (keyOf r.text ++ (front
      ++ (field.name ++ [equals]))) ++ value).length := by
    rw [List.length_append, hoff, h.place_eq]
  rw [Record.withField, hplace]
  simp only [hbody, freshHead]
  rw [hend, ← hoff, List.take_left, ← List.append_assoc _ value body, List.drop_left,
    List.drop_append_of_le_length hfront]
  simp

/-- The copy with one field set, put together from its parts. -/
theorem Record.withField_eq (hfit : field.Fits) : ∃ tail, StartsApart tail ∧ IsLine tail ∧
      r.withField field = freshHead r.text ++ (keyOf r.text ++ tail) ∧
      words tail = setToken (words (tailOf r.text)) field := by
  have hlt := keyAt_lt_of_defect? r.wellFormed
  cases hplace : r.fieldSpan? field.name with
  | none =>
    obtain ⟨body, hbody, heq⟩ := (isLine_tailOf hline hlt).2
    have hstarts : StartsApart (body ++ space :: (field.token ++ [newline])) := by
      cases body with
      | nil => exact StartsApart.cons isDelimiter_space _
      | cons b body =>
        have := startsApart_tailOf r.text
        rw [heq] at this
        exact this
    refine ⟨body ++ space :: (field.token ++ [newline]), hstarts, ?_,
      Record.withField_eq_of_none hline hplace heq, ?_⟩
    · refine isLine_append hbody ⟨space :: field.token, ?_, rfl⟩
      have := newline_notMem_of_forall hfit.token_word.2
      simp only [List.mem_cons, not_or]
      exact ⟨by decide, this⟩
    · have hnl : StartsApart [newline] := StartsApart.cons isDelimiter_newline []
      have hnone : words [newline] = [] := words_delimiters (by simp [isDelimiter_newline])
      have hsp : StartsApart (space :: (field.token ++ [newline])) :=
        StartsApart.cons isDelimiter_space _
      have hold : words (tailOf r.text) = words body := by
        rw [heq, words_append (Or.inr hnl), hnone, List.append_nil]
      rw [words_append (Or.inr hsp), words_delimiter isDelimiter_space,
        words_word hfit.token_word hnl, hnone, ← hold,
        setToken_of_forall (Record.not_isPrefixOf_of_fieldSpan?_eq_none hplace)]
  | some place =>
    obtain ⟨front, value, rest, h⟩ := Record.exists_valueAt hplace
    obtain ⟨hnl, hrest⟩ := h.isLine_rest hline hlt
    have hword := h.isWord_exchange hfit.value_word
    refine ⟨front ++ ((field.name ++ equals :: field.value) ++ rest), h.starts_exchange _,
      isLine_append hnl (isLine_append (newline_notMem_of_forall hword.2) hrest), ?_, ?_⟩
    · obtain ⟨body, -, rfl⟩ := hrest
      exact Record.withField_eq_of_some hline hplace h
    · rw [fieldsOf_exchange h.front_apart hword h.rest_apart, h.setToken_words field.value]

end WithField

/-- A complete, well-formed line, live and in no sort yet, that writes down a key's fields. -/
structure FreshLine (text key : Bytes) (fields : List Field) : Prop where
  line : IsLine text
  wellFormed : defect? text = none
  live : text.head? = some liveFlag
  slot : slot? text = some unsorted
  key_eq : keyOf text = key
  fields_eq : fieldsOf text = fields

/-- **A copy has the field set and all else as it was.** -/
theorem Record.freshLine_withField {r : Record} (hline : IsLine r.text) {field : Field}
    (hfit : field.Fits) :
    FreshLine (r.withField field) (keyOf r.text) (setField (fieldsOf r.text) field) := by
  obtain ⟨tail, hstarts, htail, heq, hwords⟩ := Record.withField_eq hline hfit
  have hlt := keyAt_lt_of_defect? r.wellFormed
  have hhead := length_freshHead (Nat.le_of_lt hlt)
  have hkey : ∀ b ∈ keyOf r.text, isDelimiter b = false := fun _ => isDelimiter_of_mem_keyOf
  have hnl : newline ∉ freshHead r.text := by
    have := (isLine_tailOf hline hlt).1
    simp only [freshHead, List.mem_append, List.mem_singleton, not_or]
    exact ⟨⟨by decide, Hex.newline_notMem_word _⟩, fun hm => this (List.mem_of_mem_drop hm)⟩
  refine ⟨?_, ?_, ?_, ?_, ?_, ?_⟩
  · rw [heq]
    exact isLine_append hnl (isLine_append (newline_notMem_keyOf _) htail)
  · rw [heq]
    exact defect?_freshHead_append r.wellFormed (by simp [htail.ne_nil])
  · rw [heq]
    simp [freshHead]
  · rw [heq, freshHead, List.append_assoc]
    exact slot?_word liveFlag unsorted _
  · rw [heq, keyOf_parts hhead hkey hstarts]
  · rw [heq, fieldsOf, tailOf_parts hhead hkey hstarts, hwords, filterMap_setToken hfit.name_plain]
    rfl

/-- The first fifteen bytes of a new line. -/
def newHead : Bytes :=
  [liveFlag] ++ Hex.word unsorted ++ ascii ['.', '0', '0', '0', '0', ':']

theorem words_tokens {fields : List Field} (h : ∀ field ∈ fields, field.Fits) :
    words (fields.flatMap (fun field => space :: field.token) ++ [newline]) =
      fields.map Field.token := by
  induction fields with
  | nil => exact words_delimiters (by simp [isDelimiter_newline])
  | cons field more ih =>
    simp only [List.mem_cons, forall_eq_or_imp] at h
    have hstarts : StartsApart (more.flatMap (fun field => space :: field.token) ++ [newline]) := by
      cases more with
      | nil => exact StartsApart.cons isDelimiter_newline []
      | cons f more => exact StartsApart.cons isDelimiter_space _
    rw [List.flatMap_cons, List.cons_append, List.cons_append, words_delimiter isDelimiter_space,
      List.append_assoc, words_word h.1.token_word hstarts, ih h.2, List.map_cons]

theorem filterMap_ofToken?_token {fields : List Field} (h : ∀ field ∈ fields, field.Fits) :
    (fields.map Field.token).filterMap Field.ofToken? = fields := by
  induction fields with
  | nil => rfl
  | cons field more ih =>
    simp only [List.mem_cons, forall_eq_or_imp] at h
    rw [List.map_cons, List.filterMap_cons_some h.1.ofToken?, ih h.2]

/-- **A new line has the key and the fields that it was made of.** -/
theorem freshLine_encodeRecord {key : Bytes} (hkey : ∀ b ∈ key, isDelimiter b = false)
    {fields : List Field} (hfits : ∀ field ∈ fields, field.Fits) :
    FreshLine (encodeRecord key fields) key fields := by
  have heq : encodeRecord key fields = newHead
      ++ (key ++ (fields.flatMap (fun field => space :: field.token) ++ [newline])) := by
    simp [encodeRecord, newHead]
  have hlen : newHead.length = keyAt := rfl
  have hnl : newline ∉ fields.flatMap fun field => space :: field.token := by
    simp only [List.mem_flatMap, List.mem_cons, not_exists, not_and, not_or]
    exact fun field hf => ⟨by decide, newline_notMem_of_forall (hfits field hf).token_word.2⟩
  have hstarts : StartsApart (fields.flatMap (fun field => space :: field.token) ++ [newline]) := by
    cases fields with
    | nil => exact StartsApart.cons isDelimiter_newline []
    | cons f more => exact StartsApart.cons isDelimiter_space _
  refine ⟨?_, ?_, ?_, ?_, ?_, ?_⟩
  · rw [heq]
    refine isLine_append (by decide) (isLine_append (newline_notMem_of_forall hkey) ?_)
    exact isLine_append hnl ⟨[], by simp, rfl⟩
  · rw [heq, defect?_append hlen (by simp)]
    decide
  · rw [heq]
    rfl
  · rw [heq, slot?_append hlen]
    decide
  · rw [heq, keyOf_parts hlen hkey hstarts]
  · rw [heq, fieldsOf, tailOf_parts hlen hkey hstarts, words_tokens hfits,
      filterMap_ofToken?_token hfits]

/-! ## Lines with the same frame -/

theorem slot?_eq_of_take {text text' : Bytes} (h : text'.take keyAt = text.take keyAt) :
    slot? text' = slot? text := by
  have : ∀ s : Bytes, slot? s = slot? (s.take keyAt) := by
    intro s
    rw [slot?, slot?, List.drop_take, List.take_take, Nat.min_eq_left (by decide)]
  rw [this text', this text, h]

theorem head?_eq_of_take {text text' : Bytes} (h : text'.take keyAt = text.take keyAt) :
    text'.head? = text.head? := by
  have : ∀ s : Bytes, s.head? = (s.take keyAt).head? := by
    intro s
    rw [List.head?_take, if_neg (by decide)]
  rw [this text', this text, h]

theorem defect?_eq_of_take {text text' : Bytes} (h : text'.take keyAt = text.take keyAt)
    (hlt : keyAt < text.length) (hlt' : keyAt < text'.length) : defect? text' = defect? text := by
  have hlen : (text.take keyAt).length = keyAt := by
    rw [List.length_take, Nat.min_eq_left (Nat.le_of_lt hlt)]
  have hdrop : ∀ s : Bytes, keyAt < s.length → s.drop keyAt ≠ [] := by
    intro s hs hnil
    rw [List.drop_eq_nil_iff] at hnil
    omega
  rw [← List.take_append_drop keyAt text', h, ← List.take_append_drop keyAt text,
    List.take_left' hlen]
  exact defect?_congr hlen (hdrop text' hlt') (hdrop text hlt)

/-! ## A line that lacks its newline -/

/-- A record that lacks its newline is copied as it would be with it. -/
theorem Record.exists_closed {r : Record} (h : newline ∉ r.text) : ∃ r' : Record,
    r'.text = r.text ++ [newline] ∧ r'.key = r.key ∧ r'.tokens = r.tokens ∧
      ∀ field, r'.withField field = r.withField field := by
  have hlt := keyAt_lt_of_defect? r.wellFormed
  have hkey : keyOf (r.text ++ [newline]) = keyOf r.text := by
    unfold keyOf
    rw [List.drop_append_of_le_length (Nat.le_of_lt hlt), List.takeWhile_append]
    split
    · next hall =>
      rw [show [newline].takeWhile (fun b => !isDelimiter b) = [] by decide, List.append_nil,
        (List.takeWhile_prefix _).eq_of_length hall]
    · rfl
  have hwell : defect? (r.text ++ [newline]) = none := by
    rw [← r.wellFormed]
    refine defect?_eq_of_take (List.take_append_of_le_length (Nat.le_of_lt hlt)) hlt ?_
    rw [List.length_append]
    omega
  have hbody : (⟨⟨r.offset, r.text ++ [newline]⟩, hwell⟩ : Record).body = r.body := by
    have hopen : endsLine r.text = false := by
      rw [Bool.eq_false_iff]
      exact fun hend => h (newline_mem_of_endsLine hend)
    unfold Record.body
    dsimp only
    rw [hopen, endsLine_append (by simp), if_pos (by decide), List.dropLast_concat]
    rfl
  have hblank : ∀ b ∈ [newline], isDelimiter b = true := by simp [isDelimiter_newline]
  have htokens : (⟨⟨r.offset, r.text ++ [newline]⟩, hwell⟩ : Record).tokens = r.tokens := by
    have hle := length_keyOf_le (Nat.le_of_lt hlt)
    unfold Record.tokens Record.key
    dsimp only
    rw [hkey, List.drop_append_of_le_length (by omega),
      tokensFrom_append (Or.inr (StartsApart.cons isDelimiter_newline [])),
      tokensFrom_delimiters hblank, List.append_nil]
  refine ⟨⟨⟨r.offset, r.text ++ [newline]⟩, hwell⟩, rfl, hkey, htokens, fun field => ?_⟩
  unfold Record.withField Record.fieldSpan?
  rw [hbody, htokens]

/-- A copy of a record read at some place is a complete record again. -/
theorem Record.exists_freshLine_withField {r : Record} (h : IsLine r.text ∨ newline ∉ r.text)
    {field : Field} (hfit : field.Fits) :
    ∃ fields, FreshLine (r.withField field) (keyOf r.text) fields := by
  rcases h with hline | hopen
  · exact ⟨_, Record.freshLine_withField hline hfit⟩
  · obtain ⟨r', htext, hkey, -, hcopy⟩ := Record.exists_closed hopen
    have hline : IsLine r'.text := ⟨r.text, hopen, htext⟩
    rw [← hcopy, show keyOf r.text = keyOf r'.text from hkey.symm]
    exact ⟨_, Record.freshLine_withField hline hfit⟩

end RecordStore
