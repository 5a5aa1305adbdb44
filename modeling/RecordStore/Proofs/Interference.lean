import Mathlib.Tactic.Common
import RecordStore.Proofs.Scripts
import RecordStore.Proofs.Sequence

/-!
# What others may do meanwhile

Between two steps of a script other clients make theirs.  Whatever they do, they leave the header
readable, move no newline, and only the holder of the structural lock publishes lines or makes the file
longer.  A client relies on that, and its own steps grant the same to all others.

* `Kept` — what every step leaves of the bytes; `Clear` — a place inside lines, which stays one.
* `Board` — the file that all share, and the lines published so far; `Board.Sound` — what holds of it.
* `Carries`, `Yields` — what becomes of the board, and what one holder can rely on there.
* `Session.Poised` — what a client knows between two steps: above all, that every line published
  before it last looked at the append sequence lies in its mapping.
* `Script.Meets` — a script keeps to that, whatever happens between its steps.

Principal results: `Session.Poised.after` — others leave a client poised; `Script.Meets.after` — they
leave its script to keep on; `Script.Meets.bind`, `Script.Meets.atom`, `Script.Meets.write`, … — the
rules by which scripts are put together.
-/

set_option autoImplicit false

namespace RecordStore

/-! ## Bytes -/

/-- What every step leaves of the bytes.  In a quiet run nobody adds bytes from outside. -/
structure Kept (quiet : Prop) (before after : Bytes) : Prop where
  length_le : before.length ≤ after.length
  header : ∀ i b, i < Header.length → before[i]? = some b →
    ∃ b', after[i]? = some b' ∧ Ticks i b b'
  breaks : quiet → ∀ i, i < before.length → (after[i]? = some newline ↔ before[i]? = some newline)

/-- A place behind the header that holds no newline. -/
structure Clear (quiet : Prop) (bytes : Bytes) (span : Span) : Prop where
  behind : Header.length ≤ span.offset
  inside : quiet → span.offset + span.length ≤ bytes.length
  unbroken : quiet → ∀ i, span.offset ≤ i → i < span.offset + span.length →
    bytes[i]? ≠ some newline

section Bytes

variable {quiet : Prop} {before middle after bytes : Bytes}

namespace Kept

theorem refl (quiet : Prop) (bytes : Bytes) : Kept quiet bytes bytes where
  length_le := Nat.le_refl _
  header _ b _ hb := ⟨b, hb, Or.inl rfl⟩
  breaks _ _ _ := Iff.rfl

theorem trans (h : Kept quiet before middle) (h' : Kept quiet middle after) :
    Kept quiet before after where
  length_le := Nat.le_trans h.length_le h'.length_le
  header i b hi hb := by
    obtain ⟨b₁, hb₁, hticks⟩ := h.header i b hi hb
    obtain ⟨b₂, hb₂, hticks'⟩ := h'.header i b₁ hi hb₁
    refine ⟨b₂, hb₂, ?_⟩
    rcases hticks' with rfl | hdigit
    · exact hticks
    · exact Or.inr hdigit
  breaks hquiet i hi :=
    (h'.breaks hquiet i (Nat.lt_of_lt_of_le hi h.length_le)).trans (h.breaks hquiet i hi)

theorem legible (h : Kept quiet before after) (hread : Legible before) : Legible after :=
  hread.of_ticks h.header

/-- A newline of the header stays. -/
theorem newline_eq (h : Kept quiet before after) (hread : Legible before) {i : Nat}
    (hi : i < Header.length) (hb : before[i]? = some newline) : after[i]? = some newline :=
  header_eq_of_ticks h.header hi (hread.not_inCounter hb) hb

/-- The version stays. -/
theorem versionEnd_eq (h : Kept quiet before after) (hread : Legible before) :
    after[Header.versionEnd]? = before[Header.versionEnd]? := by
  have hlt : Header.versionEnd < Header.length := by decide
  have hout : ¬ InCounter Header.versionEnd := by
    rintro ⟨c, hle, -⟩
    revert hle
    cases c <;> decide
  obtain ⟨b, hb⟩ : ∃ b, before[Header.versionEnd]? = some b :=
    ⟨_, List.getElem?_eq_getElem (Nat.lt_of_lt_of_le hlt hread.length_le)⟩
  rw [hb, header_eq_of_ticks h.header hlt hout hb]

end Kept

theorem Clear.kept {span : Span} (h : Clear quiet before span) (hkept : Kept quiet before after) :
    Clear quiet after span where
  behind := h.behind
  inside hquiet := Nat.le_trans (h.inside hquiet) hkept.length_le
  unbroken hquiet i hi hlt := by
    have hin := h.inside hquiet
    rw [ne_eq, hkept.breaks hquiet i (by omega)]
    exact h.unbroken hquiet i hi hlt

/-- What stands before a write behind the header. -/
theorem getElem?_apply_of_behind {patch : Patch} (hlong : Header.length ≤ bytes.length)
    (hbehind : Header.length ≤ patch.offset) {i : Nat} (hi : i < Header.length) :
    (patch.apply bytes)[i]? = bytes[i]? := by
  have htake := congrArg (·[i]?) (Patch.take_apply hbehind hlong)
  simpa only [List.getElem?_take_of_lt hi] using htake

/-- A write behind the header leaves it alone. -/
theorem ticks_of_behind {patch : Patch} (hlong : Header.length ≤ bytes.length)
    (hbehind : Header.length ≤ patch.offset) {i : Nat} {b : UInt8} (hi : i < Header.length)
    (hb : bytes[i]? = some b) : ∃ b', (patch.apply bytes)[i]? = some b' ∧ Ticks i b b' :=
  ⟨b, (getElem?_apply_of_behind hlong hbehind hi).trans hb, Or.inl rfl⟩

/-- **A write inside a line.** -/
theorem Kept.of_clear {patch : Patch} (hlong : Header.length ≤ bytes.length)
    (h : Clear quiet bytes ⟨patch.offset, patch.data.length⟩)
    (hdata : quiet → newline ∉ patch.data) : Kept quiet bytes (patch.apply bytes) where
  length_le := Patch.length_le_length_apply _ _
  header _ _ := ticks_of_behind hlong h.behind
  breaks hquiet i _ := by
    rw [Patch.getElem?_apply (h.inside hquiet)]
    split
    · next hi =>
      have hnew : patch.data[i - patch.offset]? ≠ some newline := fun hat =>
        hdata hquiet (List.mem_of_getElem? hat)
      exact iff_of_false hnew (h.unbroken hquiet i hi.1 hi.2)
    · exact Iff.rfl

/-- **A counter of the header is set.** -/
theorem Kept.of_counter (hread : Legible bytes) (c : Header.Counter) (v : UInt32) :
    Kept quiet bytes ((⟨c.offset, Hex.word v⟩ : Patch).apply bytes) where
  length_le := Patch.length_le_length_apply _ _
  header := (endures_counter hread.length_le c v).header
  breaks _ i _ := by
    have hend : c.offset + Hex.wordLen ≤ Header.length := by cases c <;> decide
    rw [Patch.getElem?_apply (Nat.le_trans hend hread.length_le)]
    split
    · next hi =>
      have hnew : (Hex.word v)[i - c.offset]? ≠ some newline := fun hat =>
        Hex.newline_notMem_word v (List.mem_of_getElem? hat)
      exact iff_of_false hnew fun hat => hread.not_inCounter hat ⟨c, hi⟩
    · exact Iff.rfl

/-- A write behind the append sequence leaves it as it is. -/
theorem appendSeq?_apply {patch : Patch} (hlong : Header.length ≤ bytes.length)
    (hbehind : Header.modifiedAt ≤ patch.offset) :
    appendSeq? (patch.apply bytes) = appendSeq? bytes :=
  appendSeq?_applyAll [patch] hlong (by simpa using hbehind)

/-- Whatever is written lies in the file. -/
theorem end_le_length_apply {patch : Patch} (hdata : patch.data ≠ []) :
    patch.offset + patch.data.length ≤ (patch.apply bytes).length := by
  unfold Patch.apply
  rw [if_neg hdata]
  simp only [List.length_append, List.length_take, List.length_replicate, List.length_drop]
  omega

/-- **A write at the end of the file.** -/
theorem Kept.of_end {patch : Patch} (hlong : Header.length ≤ bytes.length)
    (hbehind : Header.length ≤ patch.offset) (hend : quiet → patch.offset = bytes.length) :
    Kept quiet bytes (patch.apply bytes) where
  length_le := Patch.length_le_length_apply _ _
  header _ _ := ticks_of_behind hlong hbehind
  breaks hquiet i hi := by
    have happly : patch.apply bytes = bytes ++ patch.data := by
      rw [← Patch.apply_end, ← hend hquiet]
    rw [happly, List.getElem?_append_left hi]

end Bytes

theorem endsLine_iff {bytes : Bytes} :
    endsLine bytes = true ↔ bytes[bytes.length - 1]? = some newline := by
  rw [endsLine, beq_iff_eq, List.getLast?_eq_getElem?]

/-- A file that does not get longer ends in a newline as before. -/
theorem Kept.endsLine {quiet : Prop} {before after : Bytes} (h : Kept quiet before after)
    (hlength : after.length = before.length) (hlong : Header.length ≤ before.length)
    (hends : endsLine before = true) (hquiet : quiet) : RecordStore.endsLine after = true := by
  have hpos : 0 < Header.length := by decide
  rw [endsLine_iff, hlength, h.breaks hquiet _ (by omega)]
  exact endsLine_iff.1 hends

/-! ## The board -/

/-- What is known of a whole run. -/
structure Terms where
  /-- Nobody adds bytes from outside. -/
  quiet : Prop
  /-- The version of the header does not end in a newline. -/
  whole : Prop
  /-- How long the file was at the start. -/
  base : Nat

/-- The file that all share, and the lines whose publication has been written. -/
structure Board where
  file : SharedFile
  published : List Line

/-- A line ends within so many bytes. -/
def Line.Within (line : Line) (length : Nat) : Prop := line.offset + line.text.length ≤ length

namespace Board

/-- A holder has the structural lock. -/
def Held (b : Board) (holder : HolderId) : Prop :=
  b.file.locks.holdsExclusive holder structuralOffset = true

/-- What holds of the board at all times. -/
structure Sound (t : Terms) (b : Board) : Prop where
  within : ∀ line ∈ b.published, line.Within b.file.bytes.length
  closed : t.quiet → b.file.bytes = [] ∨ endsLine b.file.bytes = true
  whole : t.whole → b.file.bytes[Header.versionEnd]? ≠ some newline
  base : t.base ≤ b.file.bytes.length
  locks : b.file.locks.Consistent

end Board

/-- What becomes of the board: lines are published one by one, and each raises the append sequence. -/
structure Carries (t : Terms) (before after : Board) : Prop where
  kept : Kept t.quiet before.file.bytes after.file.bytes
  grows : ∃ new, after.published = before.published ++ new ∧
    ∀ v, appendSeq? before.file.bytes = some v →
      appendSeq? after.file.bytes = some (v + UInt32.ofNat new.length)
  sound : after.Sound t

/-- What a holder can rely on: it keeps the structural lock, and while it has that lock nothing is
published and the file does not get longer. -/
structure Yields (t : Terms) (holder : HolderId) (before after : Board) : Prop
    extends Carries t before after where
  own : after.Held holder ↔ before.Held holder
  still : before.Held holder → after.published = before.published ∧
    (t.quiet → after.file.bytes.length = before.file.bytes.length)

section Board

variable {t : Terms} {holder other : HolderId} {before middle after : Board}

theorem Carries.refl {b : Board} (h : b.Sound t) : Carries t b b where
  kept := .refl _ _
  grows := ⟨[], by simp, fun v hv => by simpa using hv⟩
  sound := h

theorem Carries.trans (h : Carries t before middle) (h' : Carries t middle after) :
    Carries t before after where
  kept := h.kept.trans h'.kept
  grows := by
    obtain ⟨new, hnew, hseq⟩ := h.grows
    obtain ⟨new', hnew', hseq'⟩ := h'.grows
    refine ⟨new ++ new', by rw [hnew', hnew, List.append_assoc], fun v hv => ?_⟩
    rw [hseq' _ (hseq v hv), List.length_append, UInt32.ofNat_add, UInt32.add_assoc]
  sound := h'.sound

/-- Locks have changed, and nothing else. -/
theorem Carries.of_locks {b : Board} (h : b.Sound t) {locks : LockTable} (hlocks : locks.Consistent) :
    Carries t b ⟨{ b.file with locks }, b.published⟩ where
  kept := .refl _ _
  grows := (Carries.refl h).grows
  sound := { h with locks := hlocks }

theorem Yields.refl {b : Board} (h : b.Sound t) (holder : HolderId) : Yields t holder b b where
  toCarries := .refl h
  own := Iff.rfl
  still _ := ⟨rfl, fun _ => rfl⟩

theorem Yields.trans (h : Yields t holder before middle) (h' : Yields t holder middle after) :
    Yields t holder before after where
  toCarries := h.toCarries.trans h'.toCarries
  own := h'.own.trans h.own
  still hheld := by
    obtain ⟨hpublished, hlength⟩ := h.still hheld
    obtain ⟨hpublished', hlength'⟩ := h'.still (h.own.2 hheld)
    exact ⟨hpublished'.trans hpublished, fun hquiet =>
      (hlength' hquiet).trans (hlength hquiet)⟩

/-- Nobody else changes the append sequence while a holder has the structural lock. -/
theorem Yields.appendSeq?_eq (h : Yields t holder before after) (hheld : before.Held holder)
    {v : UInt32} (hv : appendSeq? before.file.bytes = some v) :
    appendSeq? after.file.bytes = some v := by
  obtain ⟨new, hnew, hseq⟩ := h.grows
  rw [(h.still hheld).1, List.self_eq_append_right] at hnew
  have hsame := hseq v hv
  rw [hnew] at hsame
  rw [hsame]
  exact congrArg some (UInt32.add_zero v)

/-- A file with a header ends in a newline if nobody adds bytes. -/
theorem Board.Sound.endsLine {b : Board} (h : b.Sound t) (hread : Legible b.file.bytes)
    (hquiet : t.quiet) : RecordStore.endsLine b.file.bytes = true :=
  (h.closed hquiet).resolve_left fun hnil => by
    have hlong := hread.length_le
    rw [hnil] at hlong
    revert hlong
    decide

/-- Two holders never have the structural lock at once. -/
theorem Board.Sound.not_held {b : Board} (h : b.Sound t) (hne : other ≠ holder)
    (hheld : b.Held holder) : ¬ b.Held other := by
  intro hother
  have hblocks := LockTable.blocks_of_holdsExclusive hne hother .exclusive
  rw [Board.Held, h.locks.not_holdsExclusive hblocks] at hheld
  cases hheld

/-- **What one holder does** leaves the others what they rely on if it leaves their locks alone, and if
only the holder of the structural lock publishes or makes the file longer. -/
theorem Carries.yields (h : Carries t before after) (hsound : before.Sound t)
    (hlocks : after.file.locks.others holder = before.file.locks.others holder)
    (halone : before.Held holder ∨ (after.published = before.published ∧
      (t.quiet → after.file.bytes.length = before.file.bytes.length))) (hne : other ≠ holder) :
    Yields t other before after where
  toCarries := h
  own := by
    unfold Board.Held
    rw [LockTable.holdsExclusive_congr hlocks hne]
  still hother := halone.resolve_left fun hheld => hsound.not_held hne hheld hother

end Board

/-! ## A client between two steps -/

/-- The lines are published in two parts: those before the client last looked at the append sequence,
which end within the mapping, and those since, which make up the difference of the sequences.  In the
midst of a refresh the mapping is still to come. -/
def Trails (h : Handle) (mapping : Bool) (bytes : Bytes) (published : List Line) : Prop :=
  ∃ old new, published = old ++ new ∧
    appendSeq? bytes = some (h.seenSeq + UInt32.ofNat new.length) ∧
      (mapping = false → ∀ line ∈ old, line.Within h.view.length)

namespace Session

/-- What a client knows between two steps, and whether it has the structural lock. -/
structure Poised (t : Terms) (locked : Prop) (mapping : Bool) (s : Session) (published : List Line) :
    Prop where
  sound : Board.Sound t ⟨s.file, published⟩
  legible : Legible s.file.bytes
  headLen_pos : 0 < s.handle.headLen
  headLen_le : s.handle.headLen ≤ Header.length
  newline_eq : s.file.bytes[s.handle.headLen - 1]? = some newline
  sees : Header.length ≤ s.handle.view.length
  inside : s.handle.view.length ≤ s.file.bytes.length
  base : t.base ≤ s.handle.view.length
  boundary : t.quiet → s.file.bytes[s.handle.view.length - 1]? = some newline
  cache : ∀ entry, s.handle.cache = some entry → Header.length ≤ entry.span.offset
  trails : Trails s.handle mapping s.file.bytes published
  held : locked → Board.Held ⟨s.file, published⟩ s.holder

/-- Others have made their steps, and the client none. -/
structure After (t : Terms) (s : Session) (published : List Line) (s₁ : Session)
    (published₁ : List Line) : Prop where
  holder : s₁.holder = s.holder
  handle : s₁.handle = s.handle
  yields : Yields t s.holder ⟨s.file, published⟩ ⟨s₁.file, published₁⟩

/-- A client has made a step that its promise to the others allows. -/
structure Grants (t : Terms) (s : Session) (published : List Line) (s' : Session)
    (published' : List Line) : Prop where
  holder : s'.holder = s.holder
  carries : Carries t ⟨s.file, published⟩ ⟨s'.file, published'⟩
  others : ∀ other, other ≠ s.holder →
    Yields t other ⟨s.file, published⟩ ⟨s'.file, published'⟩

variable {t : Terms} {locked locked' : Prop} {mapping : Bool} {s s₁ s₂ s' : Session}
  {p p₁ p₂ p' : List Line}

/-- The mapping shows the append sequence of the file. -/
theorem Poised.counterAt? (h : s.Poised t locked mapping p) (c : Header.Counter) :
    Header.counterAt? s.data c.offset = Header.counterAt? s.file.bytes c.offset :=
  Handle.Mapped.counterAt? (h := { s.handle with headLen := Header.length })
    ⟨rfl, h.sees, h.inside⟩ c

theorem Poised.loosen (h : s.Poised t locked mapping p) (hlocked : locked' → locked) :
    s.Poised t locked' mapping p :=
  { h with held := fun h' => h.held (hlocked h') }

/-- What a client knows stays so whatever the board comes to. -/
theorem Poised.carry (h : s.Poised t locked mapping p) (hholder : s'.holder = s.holder)
    (hhandle : s'.handle = s.handle) (hcarries : Carries t ⟨s.file, p⟩ ⟨s'.file, p'⟩)
    (hheld : locked → Board.Held ⟨s'.file, p'⟩ s.holder) : s'.Poised t locked mapping p' where
  sound := hcarries.sound
  legible := hcarries.kept.legible h.legible
  headLen_pos := hhandle ▸ h.headLen_pos
  headLen_le := hhandle ▸ h.headLen_le
  newline_eq := by
    have hpos := h.headLen_pos
    have hle := h.headLen_le
    rw [hhandle]
    exact hcarries.kept.newline_eq h.legible (by omega) h.newline_eq
  sees := hhandle ▸ h.sees
  inside := hhandle ▸ Nat.le_trans h.inside hcarries.kept.length_le
  base := hhandle ▸ h.base
  boundary hquiet := by
    have hsees := Nat.lt_of_lt_of_le (by decide : 0 < Header.length) h.sees
    have hinside := h.inside
    rw [hhandle]
    exact (hcarries.kept.breaks hquiet _ (by dsimp only; omega)).2 (h.boundary hquiet)
  cache := hhandle ▸ h.cache
  trails := by
    obtain ⟨old, new, hp, hseq, hold⟩ := h.trails
    obtain ⟨more, hmore, hcount⟩ := hcarries.grows
    refine ⟨old, new ++ more, ?_, ?_, hhandle ▸ hold⟩
    · rw [show p' = p ++ more from hmore, hp, List.append_assoc]
    · rw [hhandle, List.length_append, UInt32.ofNat_add, ← UInt32.add_assoc]
      exact hcount _ hseq
  held hlocked := hholder ▸ hheld hlocked

/-- **Others leave a client poised.** -/
theorem Poised.after (h : s.Poised t locked mapping p) (ha : s.After t p s₁ p₁) :
    s₁.Poised t locked mapping p₁ :=
  h.carry ha.holder ha.handle ha.yields.toCarries fun hlocked => ha.yields.own.2 (h.held hlocked)

theorem After.trans (h : s.After t p s₁ p₁) (h' : s₁.After t p₁ s₂ p₂) : s.After t p s₂ p₂ where
  holder := h'.holder.trans h.holder
  handle := h'.handle.trans h.handle
  yields := h.yields.trans (h.holder ▸ h'.yields)

theorem Grants.of_carries (h : s.Poised t locked mapping p) (hholder : s'.holder = s.holder)
    (hcarries : Carries t ⟨s.file, p⟩ ⟨s'.file, p'⟩)
    (hlocks : s'.file.locks.others s.holder = s.file.locks.others s.holder)
    (halone : Board.Held ⟨s.file, p⟩ s.holder ∨
      (p' = p ∧ (t.quiet → s'.file.bytes.length = s.file.bytes.length))) :
    s.Grants t p s' p' where
  holder := hholder
  carries := hcarries
  others _ hne := hcarries.yields h.sound hlocks halone hne

/-- A step that leaves the file alone. -/
theorem Poised.grants_of_file (h : s.Poised t locked mapping p) (hholder : s'.holder = s.holder)
    (hfile : s'.file = s.file) : s.Grants t p s' p := by
  refine .of_carries h hholder ?_ (by rw [hfile]) (.inr ⟨rfl, fun _ => by rw [hfile]⟩)
  rw [hfile]
  exact .refl h.sound

/-! ### Locks -/

/-- The locks of a holder have changed, and nothing else.  If it is to stay so, the structural lock is
still held. -/
structure Relocked (locked : Prop) (s s' : Session) : Prop where
  eq : s' = { s with file := { s.file with locks := s'.file.locks } }
  others : s'.file.locks.others s.holder = s.file.locks.others s.holder
  consistent : s.file.locks.Consistent → s'.file.locks.Consistent
  held : locked → s.file.locks.holdsExclusive s.holder structuralOffset = true →
    s'.file.locks.holdsExclusive s.holder structuralOffset = true

theorem Relocked.refl (locked : Prop) (s : Session) : Relocked locked s s :=
  ⟨rfl, rfl, id, fun _ => id⟩

theorem Relocked.free (s : Session) {offset : Nat}
    (hapart : locked → LockTable.Apart offset structuralOffset) : Relocked locked s (s.free offset) :=
  ⟨rfl, LockTable.others_clear, fun h => h.clear _ _, fun hlocked hheld =>
    (LockTable.holdsExclusive_clear_of_apart (hapart hlocked)).trans hheld⟩

theorem Relocked.hold (s : Session) {offset : Nat} (hfree : ¬ s.Blocked offset) :
    Relocked locked s (s.hold offset) :=
  ⟨rfl, LockTable.others_set, fun h => h.set (Bool.eq_false_iff.2 hfree), fun _ =>
    LockTable.holdsExclusive_set_of_holds⟩

theorem Relocked.carries (hr : Relocked locked' s s') (h : s.Poised t locked mapping p) :
    Carries t ⟨s.file, p⟩ ⟨s'.file, p⟩ := by
  rw [hr.eq]
  exact .of_locks h.sound (hr.consistent h.sound.locks)

theorem Relocked.grants (hr : Relocked locked' s s') (h : s.Poised t locked mapping p) :
    s.Grants t p s' p :=
  .of_carries h (by rw [hr.eq]) (hr.carries h) hr.others (.inr ⟨rfl, fun _ => by rw [hr.eq]⟩)

theorem Relocked.poised (hr : Relocked locked s s') (h : s.Poised t locked mapping p) :
    s'.Poised t locked mapping p :=
  h.carry (by rw [hr.eq]) (by rw [hr.eq]) (hr.carries h) fun hlocked =>
    hr.held hlocked (h.held hlocked)

/-! ### Writes -/

/-- A write that a client may make, and what is published then. -/
structure Permits (t : Terms) (s : Session) (published : List Line) (patch : Patch)
    (published' : List Line) : Prop where
  carries : Carries t ⟨s.file, published⟩ ⟨(s.write patch).file, published'⟩
  alone : Board.Held ⟨s.file, published⟩ s.holder ∨ (published' = published ∧
    (t.quiet → (s.write patch).file.bytes.length = s.file.bytes.length))

variable {patch : Patch}

theorem Permits.grants (hw : s.Permits t p patch p') (h : s.Poised t locked mapping p) :
    s.Grants t p (s.write patch) p' :=
  .of_carries h rfl hw.carries (by rw [write_locks]) hw.alone

theorem Permits.poised (hw : s.Permits t p patch p') (h : s.Poised t locked mapping p) :
    (s.write patch).Poised t locked mapping p' :=
  h.carry rfl rfl hw.carries fun hlocked => by
    unfold Board.Held
    rw [write_locks]
    exact h.held hlocked

theorem Poised.endsLine (h : s.Poised t locked mapping p) (hquiet : t.quiet) :
    RecordStore.endsLine s.file.bytes = true :=
  h.sound.endsLine h.legible hquiet

/-- What a write makes of the board. -/
theorem Poised.carries_write (h : s.Poised t locked mapping p)
    (hkept : Kept t.quiet s.file.bytes (patch.apply s.file.bytes)) {new : List Line}
    (hwithin : ∀ line ∈ new, line.Within (patch.apply s.file.bytes).length)
    (hseq : ∀ v, appendSeq? s.file.bytes = some v →
      appendSeq? (patch.apply s.file.bytes) = some (v + UInt32.ofNat new.length))
    (hclosed : t.quiet → RecordStore.endsLine (patch.apply s.file.bytes) = true) :
    Carries t ⟨s.file, p⟩ ⟨(s.write patch).file, p ++ new⟩ := by
  rw [← write_bytes] at hkept hwithin hseq hclosed
  exact
    { kept := hkept
      grows := ⟨new, rfl, hseq⟩
      sound :=
        { within := fun line hline => (List.mem_append.1 hline).elim
            (fun hold => Nat.le_trans (h.sound.within line hold) hkept.length_le) (hwithin line)
          closed := fun hquiet => .inr (hclosed hquiet)
          whole := fun hwhole => by
            rw [hkept.versionEnd_eq h.legible]
            exact h.sound.whole hwhole
          base := Nat.le_trans h.sound.base hkept.length_le
          locks := by
            rw [write_locks]
            exact h.sound.locks } }

/-- A write that moves no newline and leaves the append sequence alone. -/
theorem Poised.permits (h : s.Poised t locked mapping p)
    (hkept : Kept t.quiet s.file.bytes (patch.apply s.file.bytes))
    (hseq : appendSeq? (patch.apply s.file.bytes) = appendSeq? s.file.bytes)
    (hfits : t.quiet → patch.Fits s.file.bytes) : s.Permits t p patch p := by
  have hlength : t.quiet → (patch.apply s.file.bytes).length = s.file.bytes.length :=
    fun hquiet => Patch.length_apply (hfits hquiet)
  constructor
  · have hcarries : Carries t ⟨s.file, p⟩ ⟨(s.write patch).file, p ++ []⟩ :=
      h.carries_write hkept (by simp) (fun v hv => by simpa [hseq] using hv)
      fun hquiet => hkept.endsLine (hlength hquiet) h.legible.length_le (h.endsLine hquiet) hquiet
    rwa [List.append_nil] at hcarries
  · refine .inr ⟨rfl, fun hquiet => ?_⟩
    rw [write_bytes]
    exact hlength hquiet

/-- **A write inside a line.** -/
theorem Poised.permits_clear (h : s.Poised t locked mapping p)
    (hclear : Clear t.quiet s.file.bytes ⟨patch.offset, patch.data.length⟩)
    (hdata : t.quiet → newline ∉ patch.data) : s.Permits t p patch p :=
  h.permits (.of_clear h.legible.length_le hclear hdata)
    (appendSeq?_apply h.legible.length_le (Nat.le_trans (by decide) hclear.behind)) hclear.inside

/-- **A counter behind the append sequence is set.** -/
theorem Poised.permits_counter (h : s.Poised t locked mapping p) {c : Header.Counter}
    (hc : Header.modifiedAt ≤ c.offset) (v : UInt32) :
    s.Permits t p ⟨c.offset, Hex.word v⟩ p :=
  h.permits (.of_counter h.legible c v) (appendSeq?_apply h.legible.length_le hc) fun _ =>
    Nat.le_trans (by cases c <;> decide : c.offset + Hex.wordLen ≤ Header.length)
      h.legible.length_le

/-- **A line is written** behind the last one. -/
theorem Poised.permits_line (h : s.Poised t locked mapping p) (hheld : Board.Held ⟨s.file, p⟩ s.holder)
    (hbehind : Header.length ≤ patch.offset) (hend : t.quiet → patch.offset = s.file.bytes.length)
    (hline : RecordStore.endsLine patch.data = true) : s.Permits t p patch p := by
  constructor
  · have hsame := appendSeq?_apply h.legible.length_le (Nat.le_trans (by decide) hbehind)
    have hcarries : Carries t ⟨s.file, p⟩ ⟨(s.write patch).file, p ++ []⟩ :=
      h.carries_write (.of_end h.legible.length_le hbehind hend) (by simp)
      (fun v hv => by simpa [hsame] using hv)
      fun hquiet => by
        have hne : patch.data ≠ [] := List.ne_nil_of_length_pos (length_pos_of_endsLine hline)
        have happly : patch.apply s.file.bytes = s.file.bytes ++ patch.data := by
          rw [← Patch.apply_end, ← hend hquiet]
        rw [happly, endsLine_append hne]
        exact hline
    rwa [List.append_nil] at hcarries
  · exact .inl hheld

/-- **A line is published.** -/
theorem Poised.permits_publish (h : s.Poised t locked mapping p)
    (hheld : Board.Held ⟨s.file, p⟩ s.holder) {v : UInt32} (hv : appendSeq? s.file.bytes = some v)
    {line : Line} (hwithin : line.Within s.file.bytes.length) :
    s.Permits t p ⟨Header.appendSeqAt, Hex.word (v + 1)⟩ (p ++ [line]) where
  carries := by
    have hfits : (⟨Header.appendSeqAt, Hex.word (v + 1)⟩ : Patch).Fits s.file.bytes :=
      Nat.le_trans (by decide : Header.appendSeqAt + Hex.wordLen ≤ Header.length) h.legible.length_le
    have hlength := Patch.length_apply hfits
    have hkept : Kept t.quiet s.file.bytes
        ((⟨Header.appendSeqAt, Hex.word (v + 1)⟩ : Patch).apply s.file.bytes) :=
      .of_counter h.legible .appendSeq (v + 1)
    refine h.carries_write hkept ?_ ?_ fun hquiet => ?_
    · rw [hlength]
      simpa using hwithin
    · rintro _ hread
      obtain rfl := Option.some.inj (hread.symm.trans hv)
      exact appendSeq?_apply_word h.legible.length_le _
    · exact hkept.endsLine hlength h.legible.length_le (h.endsLine hquiet) hquiet
  alone := .inl hheld

end Session

/-! ## Scripts -/

/-- What is published once a step is made. -/
def Mark.published (mark : Mark) (published : List Line) : List Line :=
  match mark with
  | .publish line => published ++ [line]
  | .plain | .slot | .remap => published

namespace Script

variable {α β : Type} {t : Terms} {locked locked' : Prop} {s s₁ : Session} {p p₁ : List Line}
  {post : α → Session → List Line → Prop}

/-- Whether the next step is the second one of a refresh. -/
def mapping : Script α → Bool
  | .done _ => false
  | .step mark _ _ => mark == .remap

/-- A script keeps to what it knows and promises, whatever others do between its steps, and ends as
`post` says.  Slots are written behind the header if the version does not end in a newline. -/
def Meets (t : Terms) (locked : Prop) (post : α → Session → List Line → Prop) :
    Script α → Session → List Line → Prop
  | .done (.ok a), s, p => s.Poised t locked false p ∧ post a s p
  | .done (.error _), s, p => s.Poised t locked false p
  | .step mark act next, s, p => s.Poised t locked (mark == .remap) p ∧
      ∀ s₁ p₁, s.After t p s₁ p₁ → (mark = .slot → t.whole) →
        s₁.Grants t p₁ (act s₁) (mark.published p₁) ∧
          Meets t locked post (next s₁) (act s₁) (mark.published p₁)

namespace Meets

/-- **What a client knows in the midst of a script.** -/
theorem poised {script : Script α} (h : script.Meets t locked post s p) :
    s.Poised t locked script.mapping p := by
  cases script with
  | done outcome =>
    cases outcome with
    | ok a => exact h.1
    | error e => exact h
  | step mark act next => exact h.1

/-- **Others leave a script to keep on.** -/
theorem after {script : Script α} (h : script.Meets t locked post s p) (ha : s.After t p s₁ p₁)
    (hpost : ∀ a, post a s p → post a s₁ p₁) : script.Meets t locked post s₁ p₁ := by
  cases script with
  | done outcome =>
    cases outcome with
    | ok a => exact ⟨h.1.after ha, hpost a h.2⟩
    | error e => exact Session.Poised.after h ha
  | step mark act next =>
    exact ⟨h.1.after ha, fun s₂ p₂ ha₂ hslot => h.2 s₂ p₂ (ha.trans ha₂) hslot⟩

theorem pure {a : α} (h : s.Poised t locked false p) (ha : post a s p) :
    (Pure.pure a : Script α).Meets t locked post s p := ⟨h, ha⟩

theorem fail (h : s.Poised t locked false p) (e : Error) : (Script.fail e : Script α).Meets t locked post s p :=
  h

theorem mono {script : Script α} {post' : α → Session → List Line → Prop}
    (h : script.Meets t locked post s p) (hlocked : locked' → locked)
    (hpost : ∀ a s p, s.Poised t locked false p → post a s p → post' a s p) :
    script.Meets t locked' post' s p := by
  induction script generalizing s p with
  | done outcome =>
    cases outcome with
    | ok a => exact ⟨h.1.loosen hlocked, hpost a s p h.1 h.2⟩
    | error e => exact Session.Poised.loosen h hlocked
  | step mark act next ih =>
    refine ⟨h.1.loosen hlocked, fun s₁ p₁ ha hslot => ?_⟩
    obtain ⟨hgrants, hnext⟩ := h.2 s₁ p₁ ha hslot
    exact ⟨hgrants, ih s₁ hnext⟩

/-- **One script after another.** -/
theorem bind {script : Script α} {f : α → Script β} {post' : β → Session → List Line → Prop}
    (h : script.Meets t locked post s p)
    (hf : ∀ a s p, s.Poised t locked false p → post a s p → (f a).Meets t locked post' s p) :
    (script >>= f).Meets t locked post' s p := by
  induction script generalizing s p with
  | done outcome =>
    cases outcome with
    | ok a => exact hf a s p h.1 h.2
    | error e => exact h
  | step mark act next ih =>
    refine ⟨h.1, fun s₁ p₁ ha hslot => ?_⟩
    obtain ⟨hgrants, hnext⟩ := h.2 s₁ p₁ ha hslot
    exact ⟨hgrants, ih s₁ hnext⟩

/-- A failure is handed over as a value. -/
theorem attempt {script : Script α} (h : script.Meets t locked post s p) :
    script.attempt.Meets t locked (fun outcome s p => ∀ a, outcome = .ok a → post a s p) s p := by
  induction script generalizing s p with
  | done outcome =>
    cases outcome with
    | ok a =>
      refine ⟨h.1, ?_⟩
      rintro _ ⟨⟩
      exact h.2
    | error e => exact ⟨h, fun _ he => by cases he⟩
  | step mark act next ih =>
    refine ⟨h.1, fun s₁ p₁ ha hslot => ?_⟩
    obtain ⟨hgrants, hnext⟩ := h.2 s₁ p₁ ha hslot
    exact ⟨hgrants, ih s₁ hnext⟩

/-- **No newline moves** while a script runs, whoever makes the steps. -/
theorem keeps {script : Script α} (h : script.Meets t locked post s p) {bytes : Bytes}
    (hkept : Kept t.quiet bytes s.file.bytes) :
    script.Meets t locked (fun a s' p' => post a s' p' ∧ Kept t.quiet bytes s'.file.bytes) s p := by
  induction script generalizing s p with
  | done outcome =>
    cases outcome with
    | ok a => exact ⟨h.1, h.2, hkept⟩
    | error e => exact h
  | step mark act next ih =>
    refine ⟨h.1, fun s₁ p₁ ha hslot => ?_⟩
    obtain ⟨hgrants, hnext⟩ := h.2 s₁ p₁ ha hslot
    exact ⟨hgrants, ih s₁ hnext ((hkept.trans ha.yields.kept).trans hgrants.carries.kept)⟩

/-- One script after another, with what the first one kept. -/
theorem bindKept {script : Script α} {f : α → Script β} {post' : β → Session → List Line → Prop}
    (h : script.Meets t locked post s p)
    (hf : ∀ a s' p', s'.Poised t locked false p' → post a s' p' →
      Kept t.quiet s.file.bytes s'.file.bytes → (f a).Meets t locked post' s' p') :
    (script >>= f).Meets t locked post' s p :=
  (h.keeps (.refl _ _)).bind fun a s' p' h' hpost => hf a s' p' h' hpost.1 hpost.2

/-! ### Single steps -/

/-- **A computation as one step.** -/
theorem atom {act : SessionM α} (h : s.Poised t locked false p)
    (hact : ∀ s₁ p₁, s₁.Poised t locked false p₁ → s.After t p s₁ p₁ → SessionM.Leads act s₁
      (fun a s' => s₁.Grants t p₁ s' p₁ ∧ s'.Poised t locked false p₁ ∧ post a s' p₁)
      (fun s' => s₁.Grants t p₁ s' p₁ ∧ s'.Poised t locked false p₁)) :
    (Script.atom act).Meets t locked post s p := by
  refine ⟨h, fun s₁ p₁ ha _ => ?_⟩
  have hleads := hact s₁ p₁ (h.after ha) ha
  unfold SessionM.Leads at hleads
  cases hrun : act s₁ with
  | ok a s' =>
    rw [hrun] at hleads
    simp only [SessionM.final_ok hrun, hrun]
    exact hleads
  | error e s' =>
    rw [hrun] at hleads
    simp only [SessionM.final_error hrun, hrun]
    exact hleads

/-- **One look.** -/
theorem inspect {act : SessionM α} (h : s.Poised t locked false p)
    (hact : ∀ s₁ p₁, s₁.Poised t locked false p₁ → s.After t p s₁ p₁ →
      SessionM.Leads act s₁ (fun a s' => s' = s₁ ∧ post a s₁ p₁) (fun s' => s' = s₁)) :
    (Script.atom act).Meets t locked post s p := by
  refine atom h fun s₁ p₁ h₁ ha => (hact s₁ p₁ h₁ ha).mono ?_ ?_
  · rintro a s' ⟨rfl, hpost⟩
    exact ⟨h₁.grants_of_file rfl rfl, h₁, hpost⟩
  · rintro s' rfl
    exact ⟨h₁.grants_of_file rfl rfl, h₁⟩

/-- **A step that changes the handle alone.** -/
theorem move {f : Session → Session} {post : Unit → Session → List Line → Prop}
    (h : s.Poised t locked false p)
    (hf : ∀ s₁ p₁, s₁.Poised t locked false p₁ → s.After t p s₁ p₁ → (f s₁).holder = s₁.holder ∧
      (f s₁).file = s₁.file ∧ (f s₁).Poised t locked false p₁ ∧ post () (f s₁) p₁) :
    (Script.move .plain f).Meets t locked post s p := by
  refine ⟨h, fun s₁ p₁ ha _ => ?_⟩
  have h₁ := h.after ha
  obtain ⟨hholder, hfile, hpoised, hpost⟩ := hf s₁ p₁ h₁ ha
  exact ⟨h₁.grants_of_file hholder hfile, hpoised, hpost⟩

/-- **One write**, of bytes that may depend on the session. -/
theorem moveWrite {mark : Mark} {patch : Session → Patch}
    {post : Unit → Session → List Line → Prop} (hmark : mark ≠ .remap)
    (h : s.Poised t locked false p)
    (hw : ∀ s₁ p₁, s₁.Poised t locked false p₁ → s.After t p s₁ p₁ → (mark = .slot → t.whole) →
      s₁.Permits t p₁ (patch s₁) (mark.published p₁) ∧
        post () (s₁.write (patch s₁)) (mark.published p₁)) :
    (Script.move mark fun s => s.write (patch s)).Meets t locked post s p := by
  refine ⟨by rwa [beq_eq_false_iff_ne.2 hmark], fun s₁ p₁ ha hslot => ?_⟩
  have h₁ := h.after ha
  obtain ⟨hpermits, hpost⟩ := hw s₁ p₁ h₁ ha hslot
  exact ⟨hpermits.grants h₁, hpermits.poised h₁, hpost⟩

theorem write {mark : Mark} {patch : Patch} {post : Unit → Session → List Line → Prop}
    (hmark : mark ≠ .remap) (h : s.Poised t locked false p)
    (hw : ∀ s₁ p₁, s₁.Poised t locked false p₁ → s.After t p s₁ p₁ → (mark = .slot → t.whole) →
      s₁.Permits t p₁ patch (mark.published p₁) ∧
        post () (s₁.write patch) (mark.published p₁)) :
    (Script.write mark patch).Meets t locked post s p :=
  moveWrite hmark h hw

end Meets

end Script

end RecordStore
