import Mathlib.Data.List.Forall2
import Mathlib.Tactic.Common
import RecordStore.Proofs.Header
import RecordStore.Proofs.Slots

/-!
# Lines endure

Every write to a file sets a counter of the header, a slot, a flag or a value, or goes behind the last
complete line.  So a complete line stays where it is, and little of it ever changes.

* `Complete` — a complete line behind the header, and where it stands.
* `Ages` — what may become of such a line with time.
* `Endures` — what may become of a file: its complete lines age, its header keeps all but its counters.
* `Bears` — a record stands at a place.
* `Patch.Mild` — the writes of sorts, stamps and publications.

Principal results: `Endures.of_lines`; `endures_applyAll`, `endures_patch`, `endures_append` — every
kind of write; `Endures.legible` and `Bears.endures` — headers stay readable, and records records;
`complete_of_slotted` — which lines a sort writes to, whatever the version bytes of the header are.
-/

set_option autoImplicit false

namespace RecordStore

/-! ## Complete lines -/

/-- A complete line behind the header. -/
def Complete (bytes : Bytes) (line : Line) : Prop :=
  line ∈ linesFrom Header.length bytes ∧ endsLine line.text = true

/-- A first line that is complete is a front part. -/
theorem takeLine_eq_iff {s text : Bytes} (hline : IsLine text) : takeLine s = text ↔ text <+: s := by
  constructor
  · rintro rfl
    exact ⟨dropLine s, takeLine_append_dropLine s⟩
  · rintro ⟨rest, rfl⟩
    exact takeLine_append hline rest

theorem getElem?_of_prefix {s text : Bytes} (h : text <+: s) {i : Nat} (hi : i < text.length) :
    s[i]? = text[i]? := by
  obtain ⟨rest, rfl⟩ := h
  exact List.getElem?_append_left hi

theorem isLine_of_takeLine {s text : Bytes} (h : takeLine s = text) (hend : endsLine text = true) :
    IsLine text := by
  subst h
  refine isLine_takeLine_of_mem ?_
  rw [← takeLine_append_dropLine s]
  exact List.mem_append_left _ (newline_mem_of_endsLine hend)

/-- **Where a complete line stands.** -/
theorem complete_iff {bytes : Bytes} {line : Line} : Complete bytes line ↔
    Header.length ≤ line.offset ∧
      (line.offset = Header.length ∨ bytes[line.offset - 1]? = some newline) ∧
      IsLine line.text ∧ line.text <+: bytes.drop line.offset := by
  rw [Complete, mem_linesFrom_iff]
  constructor
  · rintro ⟨⟨hle, -, hstart, htake⟩, hend⟩
    have hline := isLine_of_takeLine htake hend
    exact ⟨hle, hstart, hline, (takeLine_eq_iff hline).1 htake⟩
  · rintro ⟨hle, hstart, hline, hpre⟩
    have hlen := hpre.length_le
    have hpos := hline.length_pos
    rw [List.length_drop] at hlen
    exact ⟨⟨hle, by omega, hstart, (takeLine_eq_iff hline).2 hpre⟩, hline.endsLine⟩

namespace Complete

variable {bytes : Bytes} {line : Line}

theorem isLine (h : Complete bytes line) : IsLine line.text := (complete_iff.1 h).2.2.1

theorem header_le (h : Complete bytes line) : Header.length ≤ line.offset := (complete_iff.1 h).1

theorem end_le (h : Complete bytes line) : line.offset + line.text.length ≤ bytes.length := by
  have hpos := h.isLine.length_pos
  have hlen := (complete_iff.1 h).2.2.2.length_le
  rw [List.length_drop] at hlen
  omega

/-- A byte of the line is a byte of the file. -/
theorem getElem? (h : Complete bytes line) {i : Nat} (hi : i < line.text.length) :
    bytes[line.offset + i]? = line.text[i]? := by
  rw [← List.getElem?_drop, getElem?_of_prefix (complete_iff.1 h).2.2.2 hi]

end Complete

/-- The complete lines of a front part of a file are those that end in it. -/
theorem complete_take_iff {bytes : Bytes} {n : Nat} {line : Line} : Complete (bytes.take n) line ↔
    Complete bytes line ∧ line.offset + line.text.length ≤ n := by
  rw [complete_iff, complete_iff, List.drop_take, List.prefix_take_iff]
  constructor
  · rintro ⟨hle, hstart, hline, hpre, hlen⟩
    have hpos := hline.length_pos
    rw [List.getElem?_take_of_lt (by omega)] at hstart
    exact ⟨⟨hle, hstart, hline, hpre⟩, by omega⟩
  · rintro ⟨⟨hle, hstart, hline, hpre⟩, hlen⟩
    have hpos := hline.length_pos
    rw [List.getElem?_take_of_lt (by omega)]
    exact ⟨hle, hstart, hline, hpre, by omega⟩

/-! ## What becomes of a line -/

/-- Two lines that differ in their slot fields at most. -/
def SameButSlot (before after : Bytes) : Prop :=
  after.take slotAt = before.take slotAt ∧
    after.drop (slotAt + Hex.wordLen) = before.drop (slotAt + Hex.wordLen)

/-- What may become of a complete line: it gets another slot if it has one, it dies, or, while it is
live, bytes behind its key change. -/
structure Ages (before after : Bytes) : Prop where
  isLine : IsLine before → IsLine after
  length_eq : after.length = before.length
  key_eq : keyOf after = keyOf before
  /-- The separator, the modification counter and the colon. -/
  frame_eq : (after.take keyAt).drop (slotAt + Hex.wordLen) =
    (before.take keyAt).drop (slotAt + Hex.wordLen)
  flag : after.head? = before.head? ∨
    (before.head? = some liveFlag ∧ after.head? = some deadFlag)
  hasSlot_eq : hasSlot after = hasSlot before
  slotless : hasSlot before = false → after = before
  dead : before.head? = some deadFlag → SameButSlot before after

namespace Ages

variable {text before middle after : Bytes}

theorem refl (text : Bytes) : Ages text text :=
  ⟨id, rfl, rfl, rfl, Or.inl rfl, rfl, fun _ => rfl, fun _ => ⟨rfl, rfl⟩⟩

/-- The dead stay dead. -/
theorem stays_dead (h : Ages before after) (hdead : before.head? = some deadFlag) :
    after.head? = some deadFlag := by
  rcases h.flag with hsame | ⟨-, hafter⟩
  · exact hsame.trans hdead
  · exact hafter

theorem trans (h : Ages before middle) (h' : Ages middle after) : Ages before after where
  isLine hline := h'.isLine (h.isLine hline)
  length_eq := h'.length_eq.trans h.length_eq
  key_eq := h'.key_eq.trans h.key_eq
  frame_eq := h'.frame_eq.trans h.frame_eq
  flag := by
    rcases h.flag with hsame | ⟨hlive, hdead⟩
    · rw [← hsame]
      exact h'.flag
    · exact Or.inr ⟨hlive, h'.stays_dead hdead⟩
  hasSlot_eq := h'.hasSlot_eq.trans h.hasSlot_eq
  slotless hnone := (h'.slotless (h.hasSlot_eq.trans hnone)).trans (h.slotless hnone)
  dead hdead := by
    obtain ⟨hflag, hrest⟩ := h.dead hdead
    obtain ⟨hflag', hrest'⟩ := h'.dead (h.stays_dead hdead)
    exact ⟨hflag'.trans hflag, hrest'.trans hrest⟩

/-- **A record stays a record.** -/
theorem defect?_eq_none (h : Ages before after) (hline : IsLine before)
    (hwell : defect? before = none) : defect? after = none := by
  have hslot := Index.hasSlot_of_defect? hwell hline.endsLine
  have hslot' : hasSlot after = true := h.hasSlot_eq.trans hslot
  have hlt := Index.keyAt_lt_of_hasSlot hslot'
  obtain ⟨v, hv⟩ : ∃ v, slot? after = some v := by
    simp only [hasSlot, Bool.and_eq_true] at hslot'
    exact Option.isSome_iff_exists.1 hslot'.2
  have hflag : after.head? = some liveFlag ∨ after.head? = some deadFlag := by
    rcases h.flag with hsame | ⟨-, hdead⟩
    · rw [hsame]
      exact flag_of_defect? hwell
    · exact Or.inr hdead
  -- the counter and the colon lie in the part of the frame that stays
  have hcount : (after.drop modCountAt).take 4 = (before.drop modCountAt).take 4 := by
    have := congrArg (fun s => (s.drop 1).take 4) h.frame_eq
    simp only [List.drop_take, List.drop_drop, List.take_take] at this
    exact this
  have hcolon : after[keyAt - 1]? = before[keyAt - 1]? := by
    have := congrArg (fun s : Bytes => s[5]?) h.frame_eq
    simp only [List.getElem?_drop] at this
    rwa [List.getElem?_take_of_lt (by decide), List.getElem?_take_of_lt (by decide)] at this
  unfold defect? at hwell ⊢
  rw [hcount, hcolon, hv, if_neg (by omega), if_neg (by tauto), if_neg (by simp)]
  rw [h.length_eq] at hlt
  rw [if_neg (by omega)] at hwell
  split at hwell
  · cases hwell
  · split at hwell
    · cases hwell
    · exact hwell

/-- **Another slot.** -/
theorem withSlot (hline : IsLine text) (hslot : hasSlot text = true) (v : UInt32) :
    Ages text (Index.withSlot text v) := by
  have hlt := Index.keyAt_lt_of_hasSlot hslot
  have hfits := Index.fits_slot v hlt
  have hfirst : (Index.withSlot text v).take slotAt = text.take slotAt :=
    Patch.take_apply (Nat.le_refl _) (Nat.le_of_lt (Nat.lt_trans (by decide) hlt))
  have hrest := Index.drop_withSlot v hlt (Nat.le_refl (slotAt + Hex.wordLen))
  refine ⟨Index.isLine_withSlot v hlt, Index.length_withSlot v hlt, Index.keyOf_withSlot v hlt, ?_,
    Or.inl (Index.head?_withSlot v hlt), ?_, ?_, fun _ => ⟨hfirst, hrest⟩⟩
  · rw [List.drop_take, List.drop_take, hrest]
  · rw [Index.hasSlot_withSlot hline hslot, hslot]
  · intro hnone
    rw [hslot] at hnone
    cases hnone

/-- **A death.** -/
theorem death (hline : IsLine text) (hslot : hasSlot text = true)
    (hflag : text.head? = some liveFlag ∨ text.head? = some deadFlag) :
    Ages text ((⟨0, [deadFlag]⟩ : Patch).apply text) := by
  have hlt := Index.keyAt_lt_of_hasSlot hslot
  have hfits : (⟨0, [deadFlag]⟩ : Patch).Fits text := by
    simp only [Patch.Fits, List.length_singleton]
    omega
  have hdrop : ∀ n, 1 ≤ n → ((⟨0, [deadFlag]⟩ : Patch).apply text).drop n = text.drop n :=
    fun n hn => Patch.drop_apply hfits hn
  have hhead : ((⟨0, [deadFlag]⟩ : Patch).apply text).head? = some deadFlag := by
    rw [List.head?_eq_getElem?, Patch.getElem?_apply hfits]
    rfl
  have hlen := Patch.length_apply hfits
  have hisLine : IsLine ((⟨0, [deadFlag]⟩ : Patch).apply text) := by
    refine Patch.isLine_apply hline (by decide) ?_
    simp only [List.length_singleton, keyAt] at hlt ⊢
    omega
  refine ⟨fun _ => hisLine, hlen, ?_, ?_, ?_, ?_, ?_, ?_⟩
  · rw [keyOf, hdrop _ (by decide), keyOf]
  · rw [List.drop_take, List.drop_take, hdrop _ (by decide)]
  · rcases hflag with hlive | hdead
    · exact Or.inr ⟨hlive, hhead⟩
    · exact Or.inl (hhead.trans hdead.symm)
  · rw [hasSlot, hasSlot, hlen, hisLine.endsLine, hline.endsLine, slot?, slot?,
      hdrop slotAt (Nat.le_refl 1)]
  · intro hnone
    rw [hslot] at hnone
    cases hnone
  · intro hdead
    refine ⟨?_, hdrop _ (by decide)⟩
    have htake : ∀ s : Bytes, s.head? = some deadFlag → s.take slotAt = [deadFlag] := by
      rintro (_ | ⟨b, s⟩) h
      · cases h
      · simpa [slotAt] using h
    rw [htake _ hhead, htake _ hdead]

/-- **Another value** in a live record. -/
theorem value {r : Record} (hline : IsLine r.text) (hlive : r.text.head? = some liveFlag)
    {field : Field} (hfit : field.Fits) {place : Span} (hplace : r.fieldSpan? field.name = some place)
    (hlen : place.length = field.value.length) :
    Ages r.text ((⟨place.offset, field.value⟩ : Patch).apply r.text) := by
  obtain ⟨hfits, hisLine, htake, hkey, -⟩ := Record.apply_fieldSpan? hline hfit hplace hlen
  have hcount := Patch.length_apply hfits
  have hslot := Index.hasSlot_of_defect? r.wellFormed hline.endsLine
  refine ⟨fun _ => hisLine, hcount, hkey, congrArg _ htake, Or.inl (head?_eq_of_take htake), ?_, ?_, ?_⟩
  · rw [hasSlot, hasSlot, hcount, hisLine.endsLine, hline.endsLine, slot?_eq_of_take htake]
  · intro hnone
    rw [hslot] at hnone
    cases hnone
  · intro hdead
    rw [hlive] at hdead
    exact absurd (Option.some.inj hdead) (by decide)

end Ages

/-! ## What becomes of a file -/

/-- A byte of one of the header's counters. -/
def InCounter (i : Nat) : Prop := ∃ c : Header.Counter, c.offset ≤ i ∧ i < c.offset + Hex.wordLen

/-- What may become of a byte of the header: in a counter it may give way to a hex digit. -/
def Ticks (i : Nat) (before after : UInt8) : Prop :=
  after = before ∨ (InCounter i ∧ (Hex.digit? after).isSome = true)

/-- What may become of a file: it does not get shorter, its header keeps all but its counters, and
every complete line stays where it is and ages. -/
structure Endures (before after : Bytes) : Prop where
  length_le : before.length ≤ after.length
  header : ∀ i b, i < Header.length → before[i]? = some b →
    ∃ b', after[i]? = some b' ∧ Ticks i b b'
  lines : ∀ line, Complete before line →
    ∃ text, Complete after ⟨line.offset, text⟩ ∧ Ages line.text text

namespace Endures

variable {before middle after : Bytes}

theorem refl (bytes : Bytes) : Endures bytes bytes where
  length_le := Nat.le_refl _
  header _ b _ hb := ⟨b, hb, Or.inl rfl⟩
  lines line hline := ⟨line.text, hline, Ages.refl _⟩

theorem trans (h : Endures before middle) (h' : Endures middle after) : Endures before after where
  length_le := Nat.le_trans h.length_le h'.length_le
  header := by
    intro i b hi hb
    obtain ⟨b₁, hb₁, hticks⟩ := h.header i b hi hb
    obtain ⟨b₂, hb₂, hticks'⟩ := h'.header i b₁ hi hb₁
    refine ⟨b₂, hb₂, ?_⟩
    rcases hticks' with rfl | hdigit
    · exact hticks
    · exact Or.inr hdigit
  lines := by
    intro line hline
    obtain ⟨text, htext, hages⟩ := h.lines line hline
    obtain ⟨text', htext', hages'⟩ := h'.lines _ htext
    exact ⟨text', htext', hages.trans hages'⟩

/-- Nothing is lost of an empty file. -/
theorem of_nil (after : Bytes) : Endures [] after where
  length_le := Nat.zero_le _
  header := by simp
  lines := by
    intro line hline
    have hpos := hline.isLine.length_pos
    have hle := hline.end_le
    simp only [List.length_nil] at hle
    omega

end Endures

theorem length_flatten_of_ages {texts texts' : List Bytes} (h : List.Forall₂ Ages texts texts') :
    texts'.flatten.length = texts.flatten.length :=
  Index.length_flatten_of_forall₂ (h.imp fun _ _ hages => hages.length_eq)

theorem isLine_of_ages {texts texts' : List Bytes} (h : List.Forall₂ Ages texts texts')
    (hlines : ∀ text ∈ texts, IsLine text) : ∀ text ∈ texts', IsLine text := by
  intro text ht
  obtain ⟨old, hold, hages⟩ := Index.exists_mem_of_forall₂ h ht
  exact hages.isLine (hlines old hold)

/-- The complete lines of a file that is taken apart. -/
theorem complete_of_mem {head rest : Bytes} {texts : List Bytes} (hlen : head.length = Header.length)
    (hlines : ∀ text ∈ texts, IsLine text) {line : Line} (h : line ∈ linesAt Header.length texts) :
    Complete (head ++ (texts.flatten ++ rest)) line := by
  constructor
  · rw [linesFrom, ← hlen, List.drop_left, lines_flatten_append hlines, linesAt_append, hlen]
    exact List.mem_append_left _ h
  · obtain ⟨front, back, heq, -⟩ := mem_linesAt_iff.1 h
    exact (hlines line.text (by simp [heq])).endsLine

/-- An open end has no complete line. -/
theorem mem_of_complete {head rest : Bytes} {texts : List Bytes} (hlen : head.length = Header.length)
    (hlines : ∀ text ∈ texts, IsLine text) (hopen : newline ∉ rest) {line : Line}
    (h : Complete (head ++ (texts.flatten ++ rest)) line) : line ∈ linesAt Header.length texts := by
  obtain ⟨hmem, hend⟩ := h
  rw [linesFrom, ← hlen, List.drop_left, lines_flatten_append hlines, linesAt_append, hlen,
    List.mem_append] at hmem
  rcases hmem with hmem | hmem
  · exact hmem
  · obtain ⟨front, back, hcut, -⟩ := mem_linesAt_iff.1 hmem
    have hin : newline ∈ rest := by
      rw [← flatten_lines rest, hcut, List.mem_flatten]
      exact ⟨line.text, by simp, newline_mem_of_endsLine hend⟩
    exact absurd hin hopen

/-- A file with a whole header is that header, complete lines and an open end. -/
theorem exists_cut {bytes : Bytes} (h : Header.length ≤ bytes.length) :
    ∃ (head : Bytes) (texts : List Bytes) (rest : Bytes), head.length = Header.length ∧
      (∀ text ∈ texts, IsLine text) ∧ newline ∉ rest ∧ bytes = head ++ (texts.flatten ++ rest) := by
  obtain ⟨texts, rest, hlines, hopen, hcut⟩ := exists_lines_fragment (bytes.drop Header.length)
  refine ⟨bytes.take Header.length, texts, rest, ?_, hlines, hopen, ?_⟩
  · rw [List.length_take, Nat.min_eq_left h]
  · rw [← hcut, List.take_append_drop]

theorem exists_mem_linesAt_of_ages {texts texts' : List Bytes} (h : List.Forall₂ Ages texts texts')
    {start : Nat} {line : Line} (hmem : line ∈ linesAt start texts) :
    ∃ text, ⟨line.offset, text⟩ ∈ linesAt start texts' ∧ Ages line.text text := by
  induction h generalizing start with
  | nil => cases hmem
  | cons hhead _ ih =>
    rcases List.mem_cons.1 hmem with rfl | hmem
    · exact ⟨_, List.mem_cons_self .., hhead⟩
    · obtain ⟨text, htext, hages⟩ := ih hmem
      rw [← hhead.length_eq] at htext
      exact ⟨text, List.mem_cons_of_mem _ htext, hages⟩

/-- **A file endures** if its header ticks and its lines age, whatever becomes of its open end. -/
theorem Endures.of_lines {head head' rest rest' : Bytes} {texts texts' : List Bytes}
    (hlen : head.length = Header.length) (hlen' : head'.length = Header.length)
    (hheader : ∀ i b, head[i]? = some b → ∃ b', head'[i]? = some b' ∧ Ticks i b b')
    (hlines : ∀ text ∈ texts, IsLine text) (hages : List.Forall₂ Ages texts texts')
    (hopen : newline ∉ rest) (hgrows : rest.length ≤ rest'.length) :
    Endures (head ++ (texts.flatten ++ rest)) (head' ++ (texts'.flatten ++ rest')) where
  length_le := by
    simp only [List.length_append, length_flatten_of_ages hages, hlen, hlen']
    omega
  header := by
    intro i b hi hb
    rw [List.getElem?_append_left (by omega)] at hb ⊢
    exact hheader i b hb
  lines := by
    intro line hline
    obtain ⟨text, htext, hage⟩ :=
      exists_mem_linesAt_of_ages hages (mem_of_complete hlen hlines hopen hline)
    exact ⟨text, complete_of_mem hlen' (isLine_of_ages hages hlines) htext, hage⟩

/-! ## Writes -/

theorem isSome_digit?_of_mem_word {v : UInt32} {b : UInt8} (h : b ∈ Hex.word v) :
    (Hex.digit? b).isSome = true := by
  rw [Hex.word_eq_map_digit] at h
  obtain ⟨d, hd, rfl⟩ := List.mem_map.1 h
  rw [Hex.digit?_digit (Hex.digitsOf_lt v d hd)]
  rfl

section Writes

variable {bytes : Bytes}

/-- **A counter is set.** -/
theorem endures_counter (hlen : Header.length ≤ bytes.length) (c : Header.Counter) (v : UInt32) :
    Endures bytes ((⟨c.offset, Hex.word v⟩ : Patch).apply bytes) := by
  obtain ⟨head, texts, rest, hhead, hlines, hopen, rfl⟩ := exists_cut hlen
  have hend : c.offset + Hex.wordLen ≤ Header.length := by cases c <;> decide
  have hfits : (⟨c.offset, Hex.word v⟩ : Patch).Fits head := by
    rw [Patch.Fits, hhead]
    exact hend
  rw [Patch.apply_front hfits]
  refine .of_lines hhead ((Patch.length_apply hfits).trans hhead) ?_ hlines
    (List.forall₂_same.2 fun text _ => Ages.refl text) hopen (Nat.le_refl _)
  intro i b hb
  rw [Patch.getElem?_apply hfits]
  split
  · next hi =>
    have hlt : i - c.offset < (Hex.word v).length := by
      dsimp only at hi
      omega
    refine ⟨(Hex.word v)[i - c.offset], List.getElem?_eq_getElem hlt, Or.inr ⟨⟨c, hi⟩, ?_⟩⟩
    exact isSome_digit?_of_mem_word (List.getElem_mem hlt)
  · exact ⟨b, hb, Or.inl rfl⟩

/-- **One line ages.** -/
theorem endures_patch {line : Line} (h : Complete bytes line) {patch : Patch}
    (hfits : patch.Fits line.text) (hages : Ages line.text (patch.apply line.text)) :
    Endures bytes ((patch.shift line.offset).apply bytes) := by
  have hlen : Header.length ≤ bytes.length :=
    Nat.le_trans h.header_le (Nat.le_trans (Nat.le_add_right ..) h.end_le)
  obtain ⟨head, texts, rest, hhead, hlines, hopen, rfl⟩ := exists_cut hlen
  obtain ⟨front, back, rfl, hoff⟩ := mem_linesAt_iff.1 (mem_of_complete hhead hlines hopen h)
  have hplace : line.offset = (head ++ front.flatten).length := by
    rw [hoff, List.length_append, hhead]
  have hcut : head ++ ((front ++ line.text :: back).flatten ++ rest) =
      (head ++ front.flatten) ++ (line.text ++ (back.flatten ++ rest)) := by simp
  have hcut' : (head ++ front.flatten) ++ (patch.apply line.text ++ (back.flatten ++ rest)) =
      head ++ ((front ++ patch.apply line.text :: back).flatten ++ rest) := by simp
  rw [hplace, hcut, Patch.apply_middle hfits, hcut', ← hcut]
  refine .of_lines hhead hhead (fun i b hb => ⟨b, hb, Or.inl rfl⟩) hlines ?_ hopen (Nat.le_refl _)
  exact List.rel_append (List.forall₂_same.2 fun text _ => Ages.refl text)
    (List.Forall₂.cons hages (List.forall₂_same.2 fun text _ => Ages.refl text))

theorem wholeLines_append {front rest : Bytes} (hend : endsLine front = true)
    (hopen : newline ∉ rest) : wholeLines (front ++ rest) = front := by
  obtain ⟨texts, hlines, rfl⟩ := exists_flatten_of_endsLine (Or.inr hend)
  exact wholeLines_flatten_append hlines hopen

/-- **Writes behind the last complete line** change none. -/
theorem endures_append (hnewline : bytes[Header.length - 1]? = some newline) {after : Bytes}
    (hlen : bytes.length ≤ after.length)
    (hkept : after.take (wholeLines bytes).length = wholeLines bytes) : Endures bytes after := by
  have hle : Header.length ≤ bytes.length := by
    have := (List.getElem?_eq_some_iff.1 hnewline).1
    simp only [Header.length] at this ⊢
    omega
  obtain ⟨head, texts, rest, hhead, hlines, hopen, rfl⟩ := exists_cut hle
  have hends : endsLine (head ++ texts.flatten) = true := by
    by_cases hnil : texts = []
    · rw [List.getElem?_append_left (by rw [hhead]; decide), ← hhead,
        ← List.getLast?_eq_getElem?] at hnewline
      simp [hnil, endsLine, hnewline]
    · have hflat := endsLine_flatten hlines hnil
      rw [endsLine_append fun e => by simp [e, endsLine] at hflat]
      exact hflat
  rw [← List.append_assoc, wholeLines_append hends hopen] at hkept
  have hafter : after = head ++ (texts.flatten ++ after.drop (head ++ texts.flatten).length) := by
    conv_lhs => rw [← List.take_append_drop (head ++ texts.flatten).length after, hkept]
    rw [List.append_assoc]
  rw [hafter]
  refine .of_lines hhead hhead (fun i b hb => ⟨b, hb, Or.inl rfl⟩) hlines
    (List.forall₂_same.2 fun text _ => Ages.refl text) hopen ?_
  simp only [List.length_append] at hlen
  rw [List.length_drop, List.length_append]
  omega

end Writes

/-! ## Headers that can be read -/

theorem isSome_digits?_iff {s : Bytes} :
    (Hex.digits? s).isSome = true ↔ ∀ b ∈ s, (Hex.digit? b).isSome = true := by
  induction s with
  | nil => simp [Hex.digits?]
  | cons b s ih =>
    rw [List.forall_mem_cons, ← ih, Hex.digits?]
    cases Hex.digit? b <;> cases Hex.digits? s <;> simp

theorem isSome_parse?_iff {s : Bytes} (h : s.length = Hex.wordLen) :
    (Hex.parse? s).isSome = true ↔ ∀ b ∈ s, (Hex.digit? b).isSome = true := by
  have hsize : ¬ (s = [] ∨ 8 < s.length) := by
    rw [h]
    rintro (rfl | hlt)
    · cases h
    · exact absurd hlt (by decide)
  rw [← isSome_digits?_iff, Hex.parse?, if_neg hsize, Option.isSome_map]

/-- A counter can be read exactly if its bytes are hex digits. -/
theorem isSome_counterAt?_iff {bytes : Bytes} {offset : Nat} :
    (Header.counterAt? bytes offset).isSome = true ↔
      ∀ i, offset ≤ i → i < offset + Hex.wordLen →
        ∃ b, bytes[i]? = some b ∧ (Hex.digit? b).isSome = true := by
  unfold Header.counterAt?
  split
  · next hle =>
    have hlen : ((bytes.drop offset).take Hex.wordLen).length = Hex.wordLen := by
      rw [List.length_take, List.length_drop]
      omega
    rw [isSome_parse?_iff hlen]
    constructor
    · intro h i hi hlt
      have hin : i < bytes.length := by omega
      refine ⟨bytes[i], List.getElem?_eq_getElem hin, h _ (List.mem_of_getElem? (i := i - offset) ?_)⟩
      rw [List.getElem?_take_of_lt (by omega), List.getElem?_drop, Nat.add_sub_cancel' hi,
        List.getElem?_eq_getElem hin]
    · intro h b hb
      obtain ⟨k, hk⟩ := List.mem_iff_getElem?.1 hb
      have hlt : k < Hex.wordLen := by
        have := (List.getElem?_eq_some_iff.1 hk).1
        omega
      rw [List.getElem?_take_of_lt hlt, List.getElem?_drop] at hk
      obtain ⟨b', hb', hdigit⟩ := h (offset + k) (Nat.le_add_right ..) (by omega)
      rw [hk, Option.some.injEq] at hb'
      exact hb' ▸ hdigit
  · next hle =>
    refine ⟨by simp, fun h => ?_⟩
    obtain ⟨b, hb, -⟩ := h (offset + Hex.wordLen - 1) (by simp only [Hex.wordLen]; omega)
      (by simp only [Hex.wordLen]; omega)
    have := (List.getElem?_eq_some_iff.1 hb).1
    simp only [Hex.wordLen] at hle this
    omega

/-- The header can be read: its fixed bytes stand, and its counters are hex digits. -/
structure Legible (bytes : Bytes) : Prop where
  framed : Header.framed bytes = true
  digits : ∀ i, InCounter i → ∃ b, bytes[i]? = some b ∧ (Hex.digit? b).isSome = true

theorem legible_iff {bytes : Bytes} : Legible bytes ↔ (Header.decode? bytes).isSome = true := by
  have hdigits : (∀ i, InCounter i → ∃ b, bytes[i]? = some b ∧ (Hex.digit? b).isSome = true) ↔
      ∀ c : Header.Counter, (Header.counterAt? bytes c.offset).isSome = true := by
    simp only [isSome_counterAt?_iff]
    exact ⟨fun h c i hi hlt => h i ⟨c, hi, hlt⟩, fun h i ⟨c, hi, hlt⟩ => h c i hi hlt⟩
  have hlength : Header.framed bytes = true → Header.length ≤ bytes.length := by
    intro h
    simp only [Header.framed, Bool.and_eq_true, beq_iff_eq] at h
    exact (List.getElem?_eq_some_iff.1 h.1.1.1.2).1
  constructor
  · rintro ⟨hframed, hread⟩
    have hcounters := hdigits.1 hread
    obtain ⟨a, ha⟩ := Option.isSome_iff_exists.1 (hcounters .appendSeq)
    obtain ⟨m, hm⟩ := Option.isSome_iff_exists.1 (hcounters .modified)
    obtain ⟨c, hc⟩ := Option.isSome_iff_exists.1 (hcounters .sinceSort)
    simp only [Header.Counter.offset] at ha hm hc
    simp only [Header.decode?, dif_pos (hlength hframed), if_pos hframed, ha, hm, hc, Option.isSome_some]
  · intro h
    unfold Header.decode? at h
    split at h
    · split at h
      · next hframed =>
        split at h
        · next ha hm hc =>
          refine ⟨hframed, hdigits.2 fun c => ?_⟩
          cases c
          · exact Option.isSome_iff_exists.2 ⟨_, ha⟩
          · exact Option.isSome_iff_exists.2 ⟨_, hm⟩
          · exact Option.isSome_iff_exists.2 ⟨_, hc⟩
        · cases h
      · cases h
    · cases h

namespace Legible

variable {bytes : Bytes}

/-- The bytes at fixed places. -/
theorem fixed (h : Legible bytes) : bytes.take 2 = Header.magic ∧ bytes[34]? = some newline ∧
    bytes[7]? = some Header.blank ∧ bytes[16]? = some Header.blank ∧
      bytes[25]? = some Header.blank := by
  have := h.framed
  simp only [Header.framed, Bool.and_eq_true, beq_iff_eq] at this
  tauto

theorem newline_eq (h : Legible bytes) : bytes[Header.length - 1]? = some newline := h.fixed.2.1

theorem length_le (h : Legible bytes) : Header.length ≤ bytes.length :=
  (List.getElem?_eq_some_iff.1 h.fixed.2.1).1

/-- No newline stands in a counter. -/
theorem not_inCounter (h : Legible bytes) {i : Nat} (hi : bytes[i]? = some newline) :
    ¬ InCounter i := by
  intro hin
  obtain ⟨b, hb, hdigit⟩ := h.digits i hin
  rw [hi, Option.some.injEq] at hb
  subst hb
  revert hdigit
  decide

end Legible

section Endures

variable {before after : Bytes}

/-- A byte of the header outside its counters stays. -/
theorem header_eq_of_ticks (h : ∀ i b, i < Header.length → before[i]? = some b →
    ∃ b', after[i]? = some b' ∧ Ticks i b b') {i : Nat} {b : UInt8} (hi : i < Header.length)
    (hout : ¬ InCounter i) (hb : before[i]? = some b) : after[i]? = some b := by
  obtain ⟨b', hb', hticks⟩ := h i b hi hb
  rcases hticks with rfl | ⟨hin, -⟩
  · exact hb'
  · exact absurd hin hout

theorem Endures.header_eq (h : Endures before after) {i : Nat} {b : UInt8} (hi : i < Header.length)
    (hout : ¬ InCounter i) (hb : before[i]? = some b) : after[i]? = some b :=
  header_eq_of_ticks h.header hi hout hb

/-- **A header that can be read stays so.** -/
theorem Legible.of_ticks (hread : Legible before) (h : ∀ i b, i < Header.length →
    before[i]? = some b → ∃ b', after[i]? = some b' ∧ Ticks i b b') : Legible after := by
  have hout : ∀ i, i ∈ [0, 1, 7, 16, 25, 34] → ¬ InCounter i := by
    rintro i hi ⟨c, hle, hlt⟩
    simp only [List.mem_cons, List.not_mem_nil, or_false] at hi
    cases c <;> simp only [Header.Counter.offset, Header.appendSeqAt, Header.modifiedAt,
      Header.sinceSortAt, Hex.wordLen] at hle hlt <;> omega
  obtain ⟨hmagic, h34, h7, h16, h25⟩ := hread.fixed
  have hkeep : ∀ i b, i ∈ [0, 1, 7, 16, 25, 34] → before[i]? = some b → after[i]? = some b := by
    intro i b hi hb
    refine header_eq_of_ticks h ?_ (hout i hi) hb
    simp only [List.mem_cons, List.not_mem_nil, or_false] at hi
    simp only [Header.length]
    omega
  constructor
  · have hzero : before[0]? = some '$'.toUInt8 := by
      have := congrArg (·[0]?) hmagic
      rwa [List.getElem?_take_of_lt (by decide)] at this
    have hone : before[1]? = some 'V'.toUInt8 := by
      have := congrArg (·[1]?) hmagic
      rwa [List.getElem?_take_of_lt (by decide)] at this
    have htake : after.take 2 = Header.magic := by
      have h0 := hkeep 0 _ (by simp) hzero
      have h1 := hkeep 1 _ (by simp) hone
      apply List.ext_getElem?
      rintro (_ | _ | i)
      · rw [List.getElem?_take_of_lt (by decide), h0]
        rfl
      · rw [List.getElem?_take_of_lt (by decide), h1]
        rfl
      · rw [List.getElem?_take_eq_none (by omega), List.getElem?_eq_none (by simp [Header.magic, ascii])]
    simp [Header.framed, htake, hkeep 34 _ (by simp) h34, hkeep 7 _ (by simp) h7,
      hkeep 16 _ (by simp) h16, hkeep 25 _ (by simp) h25]
  · intro i hin
    obtain ⟨b, hb, hdigit⟩ := hread.digits i hin
    have hi : i < Header.length := by
      obtain ⟨c, -, hlt⟩ := hin
      exact Nat.lt_of_lt_of_le hlt (by cases c <;> decide)
    obtain ⟨b', hb', hticks⟩ := h i b hi hb
    refine ⟨b', hb', ?_⟩
    rcases hticks with rfl | ⟨-, hdigit'⟩
    · exact hdigit
    · exact hdigit'

theorem Endures.legible (h : Endures before after) (hread : Legible before) : Legible after :=
  hread.of_ticks h.header

end Endures

/-! ## Records -/

/-- A record stands at a place. -/
def Bears (bytes : Bytes) (span : Span) : Prop := ∃ r : Record, Complete bytes r.toLine ∧ r.span = span

theorem bears_take_iff {bytes : Bytes} {n : Nat} {span : Span} :
    Bears (bytes.take n) span ↔ Bears bytes span ∧ span.offset + span.length ≤ n := by
  unfold Bears
  constructor
  · rintro ⟨r, hr, rfl⟩
    obtain ⟨hline, hle⟩ := complete_take_iff.1 hr
    exact ⟨⟨r, hline, rfl⟩, hle⟩
  · rintro ⟨⟨r, hline, rfl⟩, hle⟩
    exact ⟨r, complete_take_iff.2 ⟨hline, hle⟩, rfl⟩

namespace Bears

variable {before after : Bytes} {span : Span}

/-- **A record stays where it is.** -/
theorem endures (h : Bears before span) (hendures : Endures before after) : Bears after span := by
  obtain ⟨r, hline, rfl⟩ := h
  obtain ⟨text, htext, hages⟩ := hendures.lines _ hline
  refine ⟨⟨⟨r.offset, text⟩, hages.defect?_eq_none hline.isLine r.wellFormed⟩, htext, ?_⟩
  show (⟨r.offset, text.length⟩ : Span) = ⟨r.offset, r.text.length⟩
  rw [hages.length_eq]

theorem header_le (h : Bears before span) : Header.length ≤ span.offset := by
  obtain ⟨r, hline, rfl⟩ := h
  exact hline.header_le

end Bears

/-- A record is read where it stands. -/
theorem decode_of_complete {bytes : Bytes} {r : Record} (h : Complete bytes r.toLine) :
    Record.decode bytes r.offset = .ok r := by
  obtain ⟨-, hlt, -, htext⟩ := mem_linesFrom_iff.1 h.1
  exact Record.decode_eq_ok_iff.2 ⟨hlt, rfl, htext⟩

section Header

variable {bytes : Bytes} {headLen : Nat} {line : Line}

/-- A newline within the header is one of the version bytes. -/
theorem Legible.lt_of_newline (hread : Legible bytes) {n : Nat} (hnewline : bytes[n]? = some newline)
    (hn : n + 1 < Header.length) : n < 7 := by
  obtain ⟨-, -, h7, h16, h25⟩ := hread.fixed
  have hblank : newline ≠ Header.blank := by decide
  have hne : ∀ {k : Nat}, bytes[k]? = some Header.blank → n ≠ k := by
    rintro k hk rfl
    rw [hnewline, Option.some.injEq] at hk
    exact hblank hk
  have h7' := hne h7
  have h16' := hne h16
  have h25' := hne h25
  have hcounters : ∀ c : Header.Counter, ¬ (c.offset ≤ n ∧ n < c.offset + Hex.wordLen) :=
    fun c hc => hread.not_inCounter hnewline ⟨c, hc⟩
  have hseq := hcounters .appendSeq
  have hmod := hcounters .modified
  have hsince := hcounters .sinceSort
  simp only [Header.Counter.offset, Header.appendSeqAt, Header.modifiedAt, Header.sinceSortAt,
    Hex.wordLen] at hseq hmod hsince
  simp only [Header.length] at hn
  omega

/-- A slot that begins early in the header begins behind the blank at place 7. -/
theorem slotAt_of_early (hread : Legible bytes) (hpre : line.text <+: bytes.drop line.offset)
    (hslot : hasSlot line.text = true) (hearly : line.offset ≤ 7) :
    line.offset + slotAt = Header.appendSeqAt := by
  simp only [hasSlot, Bool.and_eq_true, decide_eq_true_eq] at hslot
  obtain ⟨⟨hlong, -⟩, hword⟩ := hslot
  have hcount : ((line.text.drop slotAt).take Hex.wordLen).length = Hex.wordLen := by
    rw [List.length_take, List.length_drop]
    simp only [keyAt, slotAt, Hex.wordLen] at hlong ⊢
    omega
  have hdigits := (isSome_parse?_iff hcount).1 hword
  by_contra hnot
  have hat : line.offset + slotAt ≤ 7 := by
    simp only [slotAt, Header.appendSeqAt] at hnot ⊢
    omega
  -- the blank would be one of the digits
  have hbyte : ((line.text.drop slotAt).take Hex.wordLen)[7 - (line.offset + slotAt)]? =
      some Header.blank := by
    have hin : slotAt + (7 - (line.offset + slotAt)) < line.text.length := by
      simp only [keyAt, slotAt] at hlong hat ⊢
      omega
    rw [List.getElem?_take_of_lt (by simp only [Hex.wordLen]; omega), List.getElem?_drop,
      ← getElem?_of_prefix hpre hin, List.getElem?_drop, ← hread.fixed.2.2.1]
    congr 1
    omega
  have hblank := hdigits _ (List.mem_of_getElem? hbyte)
  revert hblank
  decide

/-- **The lines with a slot** are complete lines behind the header, but for one: the rest of a header
whose version ends in a newline passes for a line, and its append sequence for a slot. -/
theorem complete_of_slotted (hread : Legible bytes)
    (hstart : bytes[headLen - 1]? = some newline) (hline : line ∈ linesFrom headLen bytes)
    (hslot : hasSlot line.text = true) :
    Complete bytes line ∨ line.offset + slotAt = Header.appendSeqAt := by
  obtain ⟨-, -, hbefore, htake⟩ := mem_linesFrom_iff.1 hline
  have hend : endsLine line.text = true := by
    simp only [hasSlot, Bool.and_eq_true] at hslot
    exact hslot.1.2
  have hisLine := isLine_of_takeLine htake hend
  have hpre := (takeLine_eq_iff hisLine).1 htake
  have hnewline : bytes[line.offset - 1]? = some newline := by
    rcases hbefore with heq | hnl
    · rw [heq]
      exact hstart
    · exact hnl
  by_cases hbehind : Header.length ≤ line.offset
  · exact Or.inl (complete_iff.2 ⟨hbehind, Or.inr hnewline, hisLine, hpre⟩)
  · have hearly : line.offset ≤ 7 := by
      by_contra hlate
      have hlt := hread.lt_of_newline hnewline (by omega)
      omega
    exact Or.inr (slotAt_of_early hread hpre hslot hearly)

/-- **The records are behind the header**, whatever its version bytes are. -/
theorem complete_of_record (hread : Legible bytes) (hstart : bytes[headLen - 1]? = some newline)
    {r : Record} (hr : r ∈ recordsFrom headLen bytes) : Complete bytes r.toLine := by
  obtain ⟨hline, hend⟩ := mem_recordsFrom_iff.1 hr
  have hslot := Index.hasSlot_of_defect? r.wellFormed hend
  rcases complete_of_slotted hread hstart hline hslot with hcomplete | hoff
  · exact hcomplete
  · -- the rest of a header starts with a blank
    obtain ⟨-, -, -, htake⟩ := mem_linesFrom_iff.1 hline
    have hisLine := isLine_of_takeLine htake hend
    have hpre := (takeLine_eq_iff hisLine).1 htake
    have hoff : r.offset = 7 := by
      simp only [slotAt, Header.appendSeqAt] at hoff
      omega
    have hhead : r.text.head? = some Header.blank := by
      rw [List.head?_eq_getElem?, ← getElem?_of_prefix hpre hisLine.length_pos, List.getElem?_drop,
        hoff]
      exact hread.fixed.2.2.1
    rcases flag_of_defect? r.wellFormed with hflag | hflag <;> rw [hhead] at hflag <;>
      exact absurd (Option.some.inj hflag) (by decide)

end Header

/-! ## The writes of sorts, stamps and publications -/

/-- A counter, the slot of a line that has one, or the death of a record. -/
inductive Patch.Mild (bytes : Bytes) : Patch → Prop where
  | counter (c : Header.Counter) (v : UInt32) : Mild bytes ⟨c.offset, Hex.word v⟩
  | slot {line : Line} (complete : Complete bytes line) (slotted : hasSlot line.text = true)
    (v : UInt32) : Mild bytes ⟨line.offset + slotAt, Hex.word v⟩
  | death {span : Span} (bears : Bears bytes span) : Mild bytes ⟨span.offset, [deadFlag]⟩

namespace Patch.Mild

variable {bytes bytes' : Bytes} {patch : Patch}

theorem endures (h : patch.Mild bytes) (hlen : Header.length ≤ bytes.length) :
    Endures bytes (patch.apply bytes) := by
  cases h with
  | counter c v => exact endures_counter hlen c v
  | slot complete slotted v =>
    exact endures_patch complete (Index.fits_slot v (Index.keyAt_lt_of_hasSlot slotted))
      (Ages.withSlot complete.isLine slotted v)
  | death bears =>
    obtain ⟨r, hline, rfl⟩ := bears
    have hslot := Index.hasSlot_of_defect? r.wellFormed hline.isLine.endsLine
    have hfits : (⟨0, [deadFlag]⟩ : Patch).Fits r.text := by
      have hpos := hline.isLine.length_pos
      simp only [Patch.Fits, List.length_singleton]
      omega
    exact endures_patch hline hfits
      (Ages.death hline.isLine hslot (flag_of_defect? r.wellFormed))

/-- A write that is mild stays so. -/
theorem mono (h : patch.Mild bytes) (hendures : Endures bytes bytes') : patch.Mild bytes' := by
  cases h with
  | counter c v => exact .counter c v
  | @slot line complete slotted v =>
    obtain ⟨text, htext, hages⟩ := hendures.lines line complete
    exact .slot htext (hages.hasSlot_eq.trans slotted) v
  | death bears => exact .death (bears.endures hendures)

end Patch.Mild

/-- **Mild writes**, one after the other. -/
theorem endures_applyAll {bytes : Bytes} {patches : List Patch} (hlen : Header.length ≤ bytes.length)
    (hmild : ∀ patch ∈ patches, patch.Mild bytes) : Endures bytes (Patch.applyAll patches bytes) := by
  induction patches generalizing bytes with
  | nil => exact Endures.refl bytes
  | cons patch more ih =>
    rw [List.forall_mem_cons] at hmild
    have hfirst := hmild.1.endures hlen
    refine hfirst.trans (ih (Nat.le_trans hlen hfirst.length_le) fun p hp => ?_)
    exact (hmild.2 p hp).mono hfirst

end RecordStore
