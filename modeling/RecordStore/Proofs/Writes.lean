import Mathlib.Tactic.Common
import RecordStore.Proofs.Stretches

/-!
# Writing, deleting and sorting on a sound file

Each of these calls looks its key up first, perhaps waits, and changes the file only in the stretch
that answers.  What it decided before a wait is checked again after it.

* `AppendedLocked` — how a write ends that has the structural lock.

Principal results: `appendLocked_stretch`, `writeLocked_stretch`, `write_stretch`;
`deleteLocked_stretch`; `resortLocked_stretch`.
-/

set_option autoImplicit false

namespace RecordStore

/-- The version of a key is the one that a lookup finds. -/
theorem Image.Sound.find?_of_version {i : Image} (h : i.Sound) {v : Version} (hv : v ∈ i.versions) :
    ∃ line, i.find? v.key = some line ∧ Version.of line = v := by
  obtain ⟨line, hl, hlive, rfl⟩ := mem_versions_iff.1 hv
  exact ⟨line, h.find?_eq_some_iff.2 ⟨List.mem_filter.2 ⟨hl, hlive⟩, rfl⟩, rfl⟩

/-- The line that a lookup finds shows the version of its key. -/
theorem Image.Sound.version_of_find? {i : Image} (h : i.Sound) {key : Bytes} {line : Line}
    (hfind : i.find? key = some line) : Version.of line ∈ i.versions ∧ keyOf line.text = key := by
  obtain ⟨hlive, hkey⟩ := h.find?_eq_some_iff.1 hfind
  exact ⟨List.mem_map_of_mem hlive, hkey⟩

/-- A write without a field leaves a key that is there alone. -/
theorem Image.write_none (i : Image) {key : Bytes} (h : i.find? key ≠ none) :
    i.contents.write key none = i.contents := by
  unfold Contents.write
  rw [contents_eq_find?]
  cases hfind : i.find? key with
  | none => exact absurd hfind h
  | some line => rfl

/-- A write with a field sets it among those of the key. -/
theorem Image.write_some (i : Image) {key : Bytes} {line : Line} (h : i.find? key = some line)
    (field : Field) : i.contents.write key (some field) =
      i.contents.set key (setField (fieldsOf line.text) field) := by
  unfold Contents.write
  rw [contents_eq_find?, h]
  rfl

/-- A handle that sees the line of a key points at it. -/
theorem Image.Sound.points_of_find? {i : Image} (hi : i.Sound) {h : Handle} {key : Bytes} {line : Line}
    (hfind : i.find? key = some line) (hsees : h.Sees line) : h.Points i line.span key :=
  ⟨⟨line, hi.mem_lines_of_find? hfind, rfl, (hi.version_of_find? hfind).2⟩, hsees⟩

/-- Locks of other holders on the versions of other keys bar nothing. -/
theorem Image.Sound.spared_of_framed {s : Session} {i j : Image} (h : i.Sound) {key : Bytes}
    (hframed : ∀ v : Version, v.key ≠ key → (v ∈ j.versions ↔ v ∈ i.versions))
    (hfree : ∀ line, i.find? key = some line → ¬ s.Blocked line.offset) {v : Version}
    (hv : v ∈ i.versions) (hb : s.Blocked v.offset) : v ∈ j.versions := by
  by_cases hkey : v.key = key
  · obtain ⟨line, hfind, rfl⟩ := h.find?_of_version hv
    rw [hkey] at hfind
    exact absurd hb (hfree line hfind)
  · exact (hframed v hkey).2 hv

/-- A holder keeps a lock that does not meet the one it gives up. -/
theorem Session.holds_free {s : Session} {offset kept : Nat} (h : LockTable.Apart offset kept)
    (hheld : s.file.locks.holdsExclusive s.holder kept = true) :
    (s.free offset).file.locks.holdsExclusive (s.free offset).holder kept = true := by
  have := @LockTable.holdsExclusive_clear_of_apart s.file.locks s.holder offset kept h
  exact this.trans hheld

theorem Session.holds_freeAll {s : Session} {held : Option Nat} {kept : Nat}
    (h : ∀ o, held = some o → LockTable.Apart o kept)
    (hheld : s.file.locks.holdsExclusive s.holder kept = true) :
    (s.freeAll held).file.locks.holdsExclusive (s.freeAll held).holder kept = true := by
  cases held with
  | none => exact hheld
  | some offset => exact s.holds_free (h offset rfl) hheld

theorem Session.holds_hold (s : Session) (offset : Nat) :
    (s.hold offset).file.locks.holdsExclusive (s.hold offset).holder offset = true :=
  LockTable.holdsExclusive_set_self

/-- A key's line starts where a lock can be. -/
theorem Image.KeyAt.lockFault?_eq {i : Image} (hsmall : i.bytes.length < UInt32.size) {key : Bytes}
    {o : Nat} (h : i.KeyAt key o) : lockFault? o = none := by
  obtain ⟨line, hl, -, rfl⟩ := h
  exact lockFault?_of_mem hsmall hl

theorem Session.Acts.tryHold {cleared : Nat → Prop} {gained : List Nat} {s s' : Session}
    (h : Session.Acts cleared gained s s') (offset : Nat) :
    Session.Acts cleared (offset :: gained) s (s'.tryHold offset) := by
  by_cases hb : s'.file.locks.blocks s'.holder offset .exclusive = true
  · have hsame : s'.tryHold offset = s' := by
      unfold Session.tryHold
      rw [LockTable.tryTake_of_blocks hb]
    rw [hsame]
    exact ⟨h.holder, h.config, h.others, h.adds.cons offset, h.kept, h.consistent⟩
  · have hsame : s'.tryHold offset = s'.hold offset := by
      unfold Session.tryHold Session.hold
      rw [LockTable.tryTake_of_not_blocks hb]
    rw [hsame]
    exact h.hold fun hb' => hb ((h.blocked_iff offset).2 hb')

namespace SessionM

variable {s s₂ : Session} {i : Image} {request : WriteRequest} {held : Option Nat} {heeds : Prop}
  {gained : List Nat}

theorem structural_lockFault? : lockFault? structuralOffset = none := by decide

/-- A call that is not to wait fails where another holder has locked the record that it found. -/
theorem refused_stretch (hs : s.On i) (call : Call) (hacquires : call.acquires = true) {h : Handle}
    (hlooked : s.handle.Looked h i) {key : Bytes} {line : Line} (hfind : i.find? key = some line)
    (hblocked : s.Blocked line.offset) (hnonblocking : s.handle.config.nonblocking = true) :
    Stretch s i call heeds (.error (.contention line.offset) (s.withHandle h)) := by
  have hbounds := Image.bounds_of_mem (hs.sound.mem_lines_of_find? hfind)
  exact .failed (hs.withHandle hlooked.fits) ((Session.Acts.refl _ s).withHandle hlooked.config)
    ⟨hacquires, hblocked, hnonblocking, Or.inr hbounds.1⟩

/-- A call that is to wait does so at a stage that remembers the record. -/
theorem busy_stretch (hs : s.On i) (stage : Stage) {h : Handle} (hlooked : s.handle.Looked h i)
    (hfits : stage.Fits h i) (hblocked : s.Blocked stage.offset) :
    Stretch s i stage.call heeds (.ok (.waiting stage) (s.withHandle h)) :=
  .waiting (hs.withHandle hlooked.fits) hfits rfl hblocked
    ((Session.Acts.refl _ s).withHandle hlooked.config) (by simp)

/-- What ran under the structural lock has given it up. -/
theorem unlockingStructure_ok {α : Type} {act : SessionM α} {s s' : Session} {a : α}
    (h : act s = .ok a s') :
    unlockingStructure act s = .ok (.ok a) (s'.free structuralOffset) := by
  unfold unlockingStructure
  rw [bind_ok (attempt_ok h), bind_ok (unlock_eq s' structural_lockFault?)]
  rfl

/-- The lock that a write gives up at its end, by its mode. -/
def released (request : WriteRequest) (held : Option Nat) : Option Nat :=
  if request.mode.releases = true then held else none

theorem released_eq_some {o : Nat} (h : released request held = some o) :
    request.mode.releases = true ∧ held = some o := by
  unfold released at h
  split at h
  · next hm => exact ⟨hm, h⟩
  · cases h

/-- The end of a write. -/
theorem answer_done_eq (s : Session) (h : ∀ o, held = some o → lockFault? o = none) :
    (if request.mode.releases = true then (do held.forM unlock; answer .done) else answer .done) s =
      .ok (.answered .done) (s.freeAll (released request held)) := by
  unfold released
  split
  · rw [bind_ok (forM_unlock_eq s h)]
    rfl
  · rfl

/-- What a write under the structural lock comes to.  A key that is there is left alone where no
field is named, and then no record lock is held. -/
inductive AppendedLocked (s : Session) (i : Image) (request : WriteRequest) (held : Option Nat) :
    EStateM.Result Error Session Progress → Prop where
  | present {s' : Session} {j : Image} (fieldless : request.field = none)
    (found : i.find? request.key ≠ none) (unheld : held = none) (on : s'.On j)
    (resorted : Resorted i j) (locks : s'.file.locks = s.file.locks) (holder : s'.holder = s.holder)
    (config : s'.handle.config = s.handle.config) :
    AppendedLocked s i request held (.ok (.answered .done) (s'.free structuralOffset))
  | published {s' : Session} {j : Image} {fields : List Field}
    (named : request.field = none → i.find? request.key = none) (on : s'.On j)
    (publishes : i.Publishes j request.key fields)
    (written : i.contents.write request.key request.field = i.contents.set request.key fields)
    (locks : s'.file.locks = s.file.locks.tryTake s.holder i.bytes.length)
    (holder : s'.holder = s.holder) (config : s'.handle.config = s.handle.config) :
    AppendedLocked s i request held (.ok (.answered .done)
      (((s'.free structuralOffset).freeAll held).freeAll (released request (some i.bytes.length))))

/-- **A write under the structural lock** appends, whatever was decided before. -/
theorem appendLocked_cases {s : Session} (hs : s.On i) (hsmall : i.bytes.length < UInt32.size)
    (hreq : requestFault? request = none)
    (hheld : ∀ o, held = some o → request.field ≠ none ∧ i.KeyAt request.key o) :
    AppendedLocked s i request held (appendLocked request held s) := by
  obtain ⟨hkey, hfits⟩ := WriteRequest.fits_of_requestFault? hreq
  have happend := appendRecord_cases hs hsmall hkey hfits
  have hend : lockFault? i.bytes.length = none := lockFault?_of_lt hsmall
  have hheldFault : ∀ o, held = some o → lockFault? o = none := fun o ho =>
    (hheld o ho).2.lockFault?_eq hsmall
  unfold appendLocked
  generalize happ : appendRecord request.key request.field s = result at happend
  cases happend with
  | @present s' j fieldless found on resorted locks holder config =>
    have hnone : held = none := by
      cases held with
      | none => rfl
      | some o => exact absurd fieldless (hheld o rfl).1
    subst hnone
    rw [bind_ok (unlockingStructure_ok happ)]
    dsimp only
    rw [bind_ok (forM_unlock_eq _ hheldFault), answer_done_eq _ (fun o ho => by cases ho)]
    have hempty : released request none = none := by unfold released; split <;> rfl
    rw [hempty]
    exact .present fieldless found rfl on resorted locks holder config
  | @published s' j fields named on publishes written locks holder config =>
    rw [bind_ok (unlockingStructure_ok happ)]
    dsimp only
    rw [bind_ok (forM_unlock_eq _ hheldFault), answer_done_eq _ (fun o ho => by cases ho; exact hend)]
    exact .published named on publishes written locks holder config

/-- A write that gives no lock up keeps the one on its new line. -/
theorem holds_appended (hi : i.Sound) (hkeeps : ¬ request.mode.releases = true)
    (hheld : ∀ o, held = some o → i.KeyAt request.key o)
    (htaken : s.file.locks.holdsExclusive s.holder i.bytes.length = true) :
    let s' := ((s.free structuralOffset).freeAll held).freeAll (released request (some i.bytes.length))
    s'.file.locks.holdsExclusive s'.holder i.bytes.length = true := by
  have hnone : released request (some i.bytes.length) = none := by
    unfold released
    rw [if_neg hkeeps]
  have hafter : LockTable.Apart structuralOffset i.bytes.length := by
    have hhead : structuralOffset + lockLen ≤ Header.length := by decide
    have hlen := i.length_bytes
    exact Or.inl (by omega)
  have hbefore : ∀ o, held = some o → LockTable.Apart o i.bytes.length := by
    intro o ho
    obtain ⟨line, hl, -, rfl⟩ := hheld o ho
    have hin := (Image.bounds_of_mem hl).2
    have hlen := hi.lockLen_lt hl
    exact Or.inl (by omega)
  rw [hnone]
  exact Session.holds_freeAll (s := s.free structuralOffset) hbefore (s.holds_free hafter htaken)

/-- Under the structural lock the new version goes to the end. -/
theorem appendLocked_stretch (hs : s₂.On i) (hsmall : i.bytes.length < UInt32.size)
    (hreq : requestFault? request = none)
    (hacts : Session.Acts i.DeadAt gained s s₂)
    (hgained : ∀ o ∈ gained, o = structuralOffset ∨ held = some o)
    (hheld : ∀ o, held = some o → request.field ≠ none ∧ i.KeyAt request.key o)
    (hfree : heeds → ∀ line, i.find? request.key = some line → ¬ s.Blocked line.offset)
    (hfound : heeds → request.field = none → i.find? request.key = none) :
    Stretch s i (.write request) heeds (appendLocked request held s₂) := by
  have hstructural : (Call.write request).Clears i structuralOffset := Or.inr (Or.inl rfl)
  have hheldClears : ∀ o, held = some o → (Call.write request).Clears i o := fun o ho =>
    Or.inr (Or.inr (Or.inr (hheld o ho).2))
  have happended := appendLocked_cases hs hsmall hreq hheld
  generalize appendLocked request held s₂ = result at happended
  cases happended with
  | @present s' j fieldless found unheld on resorted locks holder config =>
    subst unheld
    have hacts' : Session.Acts i.DeadAt gained s s' := hacts.congr locks holder config
    refine .answered (on.free _) resorted.extends_ ?_ ⟨hreq, rfl⟩ ?_ ?_
      ((hacts'.mono fun _ => Or.inl).free hstructural) ?_ ?_
    · rw [resorted.contents_eq]
      show i.contents = i.contents.write request.key request.field
      rw [fieldless, i.write_none found]
    · intro v _
      rw [resorted.versions]
    · intro _ v hv _
      rw [resorted.versions]
      exact hv
    · intro o ho
      obtain ⟨ho, hne⟩ := List.mem_filter.1 ho
      rcases hgained o ho with rfl | ho
      · simp at hne
      · cases ho
    · rintro key ⟨rfl, -, howns | ⟨-, hnamed | hheeds | hmissing⟩⟩
      · obtain ⟨v, hv, hvkey, hheld⟩ := howns.of_acts hs.sound hacts'
        refine Or.inl ⟨v, resorted.versions ▸ hv, hvkey, ?_⟩
        exact s'.holds_free (hs.sound.apart_structural hv) hheld
      · exact absurd fieldless hnamed
      · exact absurd (hfound hheeds fieldless) found
      · exact absurd hmissing found
  | @published s' j fields named on publishes written locks holder config =>
    have hacts' : Session.Acts i.DeadAt (i.bytes.length :: gained) s s' :=
      (hacts.tryHold i.bytes.length).congr locks holder config
    have hbounds : Header.length ≤ i.bytes.length := by
      rw [Image.length_bytes]
      exact Nat.le_add_right _ _
    refine .answered ((on.free _).freeAll _ |>.freeAll _) publishes.extends_ ?_ ⟨hreq, rfl⟩ ?_ ?_
      ((((hacts'.mono fun _ => Or.inl).free hstructural).freeAll hheldClears).freeAll ?_) ?_ ?_
    · rw [publishes.contents]
      exact written.symm
    · intro v hv
      exact publishes.mem_versions_iff fun e => hv (congrArg some e.symm)
    · intro hheeds v hv hb
      exact hs.sound.spared_of_framed (fun _ => publishes.mem_versions_iff) (hfree hheeds) hv hb
    · intro o ho
      obtain ⟨-, ho⟩ := released_eq_some ho
      cases ho
      exact Or.inr (Or.inr (Or.inl rfl))
    · intro o ho
      obtain ⟨ho, hkept⟩ := List.mem_filter.1 ho
      obtain ⟨ho, hother⟩ := List.mem_filter.1 ho
      obtain ⟨ho, hne⟩ := List.mem_filter.1 ho
      rcases List.mem_cons.1 ho with rfl | ho
      · refine ⟨?_, hbounds⟩
        rw [← Bool.not_eq_true]
        intro hm
        rw [released, if_pos hm] at hkept
        simp at hkept
      · rcases hgained o ho with rfl | rfl
        · simp at hne
        · simp at hother
    · rintro key ⟨rfl, hmode, -⟩
      by_cases hb : s.Blocked i.bytes.length
      · exact Or.inr ⟨hb, _, publishes.mem_versions, rfl, rfl⟩
      · refine Or.inl ⟨_, publishes.mem_versions, rfl, ?_⟩
        have hnot : ¬ s₂.Blocked i.bytes.length := fun hb' => hb ((hacts.blocked_iff _).1 hb')
        have htaken : s'.file.locks.holdsExclusive s'.holder i.bytes.length = true := by
          rw [locks, holder, LockTable.tryTake_of_not_blocks hnot]
          exact LockTable.holdsExclusive_set_self
        exact holds_appended hs.sound (by simp [hmode]) (fun o ho => (hheld o ho).2) htaken

/-- A write that is about to append takes the structural lock or waits for it. -/
theorem append_stretch (hs : s₂.On i) (hsmall : i.bytes.length < UInt32.size)
    (hreq : requestFault? request = none) (hacts : Session.Acts i.DeadAt gained s s₂)
    (hgained : ∀ o ∈ gained, held = some o)
    (hheld : ∀ o, held = some o → request.field ≠ none ∧ i.KeyAt request.key o)
    (hfree : heeds → ∀ line, i.find? request.key = some line → ¬ s.Blocked line.offset)
    (hfound : heeds → request.field = none → i.find? request.key = none) :
    Stretch s i (.write request) heeds (append request held s₂) := by
  have htry := tryLock_eq s₂ structural_lockFault?
  unfold append
  by_cases hb : s₂.file.locks.blocks s₂.holder structuralOffset .exclusive = true
  · rw [if_pos hb] at htry
    rw [bind_ok htry]
    refine .waiting hs ⟨hreq, fun o ho => ?_⟩ rfl ((hacts.blocked_iff _).1 hb) hacts ?_
    · obtain ⟨hnamed, line, hl, hkey, hoff⟩ := hheld o ho
      exact ⟨hnamed, line.span, ⟨line, hl, rfl, hkey⟩, hoff⟩
    · intro o ho
      obtain ⟨line, hl, -, rfl⟩ := (hheld o (hgained o ho)).2
      exact (Image.bounds_of_mem hl).1
  · rw [if_neg hb] at htry
    rw [bind_ok htry]
    have hunblocked : ¬ s.Blocked structuralOffset := fun hb' => hb ((hacts.blocked_iff _).2 hb')
    refine appendLocked_stretch (hs.hold _) hsmall hreq (hacts.hold hunblocked) ?_ hheld hfree hfound
    intro o ho
    rcases List.mem_cons.1 ho with rfl | ho
    · exact Or.inl rfl
    · exact Or.inr (hgained o ho)

end SessionM

/-! ## Writing in place -/

/-- **A value of the field's length** takes its place in the record. -/
theorem Session.On.write_field {s : Session} {i : Image} (hs : s.On i) {r : Record}
    (hl : r.toLine ∈ i.live) {field : Field} (hfit : field.Fits) {place : Span}
    (hplace : r.fieldSpan? field.name = some place) (hlen : place.length = field.value.length) :
    ∃ j : Image, (s.write ⟨r.offset + place.offset, field.value⟩).On j ∧ i.Extends j ∧
      j.contents = i.contents.set (keyOf r.text) (setField (fieldsOf r.text) field) ∧
      (∀ v, v.key ≠ keyOf r.text → (v ∈ j.versions ↔ v ∈ i.versions)) ∧
      ∃ v ∈ j.versions, v.key = keyOf r.text ∧ v.offset = r.offset := by
  obtain ⟨hmem, hlive⟩ := List.mem_filter.1 hl
  have hline := hs.sound.line _ (Image.text_mem hmem)
  obtain ⟨hfits, hrep, hsame, hfields⟩ := Image.replaces_fieldSpan? hline hfit hplace hlen
  have hlive' := hsame.trans hlive
  obtain ⟨front, back, htexts, hoff⟩ := Image.mem_lines_iff.1 hmem
  obtain ⟨header, texts⟩ := i
  dsimp only at htexts
  subst htexts
  obtain ⟨hsound, hcontents, hframed⟩ := hs.sound.patch hlive hrep hlive'
  have hextends := Image.extends_of_frames (hrep.frames_eq header front back)
  refine ⟨_, ⟨?_, hs.fits.mono hextends, hsound⟩, hextends, ?_, hframed, ?_⟩
  · have hpatch := Image.bytes_exchange header front back hfits
    rw [Session.write_bytes, hs.bytes, hoff]
    exact hpatch
  · rw [hcontents, hfields]
  · refine ⟨⟨r.offset, keyOf r.text, setField (fieldsOf r.text) field⟩, ?_, rfl, rfl⟩
    rw [Image.versions_split header front back hlive', hrep.key_eq, hfields, ← hoff]
    simp

/-- **The death of a record** takes its version away. -/
theorem Session.On.kill {s : Session} {i : Image} (hs : s.On i) {line : Line} (hl : line ∈ i.live) :
    ∃ j : Image, (s.write ⟨line.offset, [deadFlag]⟩).On j ∧ i.Extends j ∧
      j.versions = i.versions.filter fun v => v.key ≠ keyOf line.text := by
  obtain ⟨hmem, hlive⟩ := List.mem_filter.1 hl
  have hline := hs.sound.line _ (Image.text_mem hmem)
  have hwell := hs.sound.wellFormed _ (Image.text_mem hmem)
  obtain ⟨front, back, htexts, hoff⟩ := Image.mem_lines_iff.1 hmem
  obtain ⟨header, texts⟩ := i
  dsimp only at htexts
  subst htexts
  obtain ⟨hsound, hversions⟩ := hs.sound.kill hlive
  have hrep := Image.replaces_deadText hline hwell
  have hextends := Image.extends_of_frames (hrep.frames_eq header front back)
  refine ⟨_, ⟨?_, hs.fits.mono hextends, hsound⟩, hextends, hversions⟩
  have hpatch := Image.bytes_exchange header front back (Image.fits_dead hline.length_pos)
  rw [Session.write_bytes, hs.bytes, hoff]
  exact hpatch

namespace SessionM

variable {s s₂ : Session} {i : Image} {request : WriteRequest} {heeds : Prop} {gained : List Nat}
  {line : Line}

/-- The lock of the record is given up if the mode says so. -/
theorem finishInPlace_eq (request : WriteRequest) (s : Session) {span : Span}
    (hfault : lockFault? span.offset = none) : finishInPlace request span s =
      .ok (.answered .done) (s.freeAll (released request (some span.offset))) := by
  unfold finishInPlace released
  split
  · rw [bind_ok (unlock_eq s hfault)]
    rfl
  · rfl

/-- The end of a write that appended nothing. -/
theorem finishInPlace_stretch {j : Image} (hi : i.Sound) (hsmall : i.bytes.length < UInt32.size)
    (hreq : requestFault? request = none)
    (hfind : i.find? request.key = some line) (hs : s₂.On j) (hextends : i.Extends j)
    (hcontents : j.contents = i.contents.write request.key request.field)
    (hframed : ∀ v, v.key ≠ request.key → (v ∈ j.versions ↔ v ∈ i.versions))
    (hversion : ∃ v ∈ j.versions, v.key = request.key ∧ v.offset = line.offset)
    (hacts : Session.Acts i.DeadAt gained s s₂) (hgained : ∀ o ∈ gained, o = line.offset)
    (hfree : heeds → ¬ s.Blocked line.offset)
    (htake : request.mode = .take →
      s₂.file.locks.holdsExclusive s₂.holder line.offset = true) :
    Stretch s i (.write request) heeds (finishInPlace request line.span s₂) := by
  have hl := hi.mem_lines_of_find? hfind
  have hkeyAt : i.KeyAt request.key line.offset := ⟨line, hl, (hi.version_of_find? hfind).2, rfl⟩
  have heq : finishInPlace request line.span s₂ =
      .ok (.answered .done) (s₂.freeAll (released request (some line.offset))) :=
    finishInPlace_eq request s₂ (Image.lockFault?_of_mem hsmall hl)
  rw [heq]
  refine .answered (hs.freeAll _) hextends hcontents ⟨hreq, rfl⟩ ?_ ?_
    ((hacts.mono fun _ => Or.inl).freeAll ?_) ?_ ?_
  · intro v hv
    exact hframed v fun e => hv (congrArg some e.symm)
  · intro hheeds v hv hb
    refine hi.spared_of_framed hframed (fun line' hfind' => ?_) hv hb
    rw [hfind, Option.some.injEq] at hfind'
    exact hfind' ▸ hfree hheeds
  · intro o ho
    obtain ⟨-, ho⟩ := released_eq_some ho
    cases ho
    exact Or.inr (Or.inr (Or.inr hkeyAt))
  · intro o ho
    obtain ⟨ho, hkept⟩ := List.mem_filter.1 ho
    obtain rfl := hgained o ho
    refine ⟨?_, (Image.bounds_of_mem hl).1⟩
    rw [← Bool.not_eq_true]
    intro hm
    rw [released, if_pos hm] at hkept
    simp at hkept
  · rintro key ⟨rfl, hmode, howns⟩
    obtain ⟨v, hv, hvkey, hvoff⟩ := hversion
    have hnone : released request (some line.offset) = none := by
      unfold released
      rw [if_neg (by simp [hmode])]
    refine Or.inl ⟨v, hv, hvkey, ?_⟩
    rw [hnone, hvoff]
    rcases howns with howns | ⟨hm, -⟩
    · obtain ⟨w, hw, hwkey, hheld⟩ := howns.of_acts hi hacts
      obtain ⟨line', hfind', rfl⟩ := hi.find?_of_version hw
      rw [hwkey, hfind, Option.some.injEq] at hfind'
      rw [hfind']
      exact hheld
    · exact htake hm

/-- **A write to a record that is there** takes place in the record, or goes on to append. -/
theorem update_stretch (hs : s₂.On i) (hsmall : i.bytes.length < UInt32.size)
    (hreq : requestFault? request = none) (hfind : i.find? request.key = some line)
    (hsees : s₂.handle.Sees line) (hacts : Session.Acts i.DeadAt gained s s₂)
    (hgained : ∀ o ∈ gained, o = line.offset) (hfree : heeds → ¬ s.Blocked line.offset)
    (htake : request.mode = .take →
      s₂.file.locks.holdsExclusive s₂.holder line.offset = true) :
    Stretch s i (.write request) heeds (update request line.span s₂) := by
  obtain ⟨hversion, hkey⟩ := hs.sound.version_of_find? hfind
  have hlive := (hs.sound.find?_eq_some_iff.1 hfind).1
  have hl := hs.sound.mem_lines_of_find? hfind
  -- where the value does not fit in, the new version is appended
  have happend : ∀ field, request.field = some field →
      Stretch s i (.write request) heeds (append request (some line.span.offset) s₂) := by
    intro field hfield
    refine append_stretch hs hsmall hreq hacts ?_ ?_ ?_ ?_
    · intro o ho
      exact congrArg some (hgained o ho).symm
    · rintro o ⟨⟩
      exact ⟨by rw [hfield]; simp, line, hl, hkey, rfl⟩
    · intro hheeds line' hfind'
      rw [hfind, Option.some.injEq] at hfind'
      exact hfind' ▸ hfree hheeds
    · intro _ hnone
      rw [hfield] at hnone
      cases hnone
  unfold update
  cases hfield : request.field with
  | none =>
    refine finishInPlace_stretch hs.sound hsmall hreq hfind hs (.refl i) ?_ (fun _ _ => Iff.rfl)
      ⟨_, hversion, hkey, rfl⟩ hacts hgained hfree htake
    rw [hfield, i.write_none (by simp [hfind])]
  | some field =>
    dsimp only
    obtain ⟨r, hr, rfl⟩ := recordAt_eq hs hl hsees
    rw [bind_ok hr]
    cases hplace : r.fieldSpan? field.name with
    | none => exact happend field hfield
    | some place =>
      dsimp only
      split
      · next hlen =>
        have hfit := (WriteRequest.fits_of_requestFault? hreq).2 field hfield
        obtain ⟨j, hon, hextends, hcontents, hframed, hversion'⟩ :=
          hs.write_field hlive hfit hplace hlen
        rw [modify_bind]
        have hmodified : (s₂.write ⟨r.offset + place.offset, field.value⟩).markModified.On j :=
          ⟨hon.bytes, ⟨hon.fits.headLen, hon.fits.view, hon.fits.cache⟩, hon.sound⟩
        have hlocks := s₂.write_locks ⟨r.offset + place.offset, field.value⟩
        refine finishInPlace_stretch hs.sound hsmall hreq hfind hmodified hextends ?_ ?_ ?_
          (hacts.congr hlocks rfl rfl) hgained hfree ?_
        · rw [hcontents, hfield, i.write_some hfind, hkey]
        · rw [← hkey]
          exact hframed
        · rw [← hkey]
          exact hversion'
        · intro hm
          have := htake hm
          rw [← hlocks] at this
          exact this
      · exact happend field hfield

/-- **A write that looked its key up** under the lock of its record. -/
theorem writeLocked_stretch (hs : s.On i) (hsmall : i.bytes.length < UInt32.size)
    (hreq : requestFault? request = none) (hacquires : request.mode.acquires = true)
    {result : EStateM.Result Error Session Locked} (hlocking : Locking s i request.key result)
    {act : SessionM Locked} (hact : act s₂ = result) :
    Stretch s i (.write request) heeds ((act >>= writeLocked request) s₂) := by
  cases hlocking with
  | @absent h looked missing =>
    rw [bind_ok hact]
    refine append_stretch (hs.withHandle looked.fits) hsmall hreq
      ((Session.Acts.refl _ s).withHandle looked.config) (by simp) (by simp) ?_ (fun _ _ => missing)
    intro _ line hfind
    rw [missing] at hfind
    cases hfind
  | @granted h line looked found sees unblocked =>
    rw [bind_ok hact]
    refine update_stretch ((hs.withHandle looked.fits).hold _) hsmall hreq found sees
      (((Session.Acts.refl _ s).withHandle looked.config).hold unblocked) (by simp)
      (fun _ => unblocked) ?_
    intro _
    exact (s.withHandle h).holds_hold line.offset
  | @refused h line looked found blocked nonblocking =>
    rw [bind_error hact]
    exact refused_stretch hs (.write request) hacquires looked found blocked nonblocking
  | @busy h line looked found sees blocked blocking =>
    rw [bind_ok hact]
    exact busy_stretch hs (.writing request line.span) looked
      ⟨hreq, hacquires, hs.sound.points_of_find? found sees⟩ blocked

/-- **A write from its beginning.** -/
theorem write_stretch (hs : s.On i) (hsmall : i.bytes.length < UInt32.size) :
    Stretch s i (.write request) (request.mode.acquires = true) (write request s) := by
  unfold write
  cases hreq : requestFault? request with
  | some fault => exact .failed hs (.refl _ s) ⟨request, rfl, hreq⟩
  | none =>
    dsimp only
    split
    · next hacquires =>
      exact writeLocked_stretch hs hsmall hreq hacquires
        (locateLocking_cases hs hsmall request.key .ifMissing) rfl
    · next hacquires =>
      -- the caller says that it holds the lock
      obtain ⟨h, hlocate, looked, hsees, -⟩ := locate_eq hs request.key .ifMissing
      have hacts : Session.Acts i.DeadAt [] s (s.withHandle h) :=
        (Session.Acts.refl _ s).withHandle looked.config
      rw [bind_ok hlocate]
      cases hfind : i.find? request.key with
      | none =>
        exact append_stretch (hs.withHandle looked.fits) hsmall hreq hacts (by simp) (by simp)
          (fun hheeds => absurd hheeds hacquires) (fun _ _ => hfind)
      | some line =>
        refine update_stretch (hs.withHandle looked.fits) hsmall hreq hfind (hsees line hfind) hacts
          (by simp) (fun hheeds => absurd hheeds hacquires) ?_
        intro hm
        rw [hm] at hacquires
        exact absurd rfl hacquires

/-! ## Deleting and sorting -/

/-- **A delete that looked its key up** under the lock of its record. -/
theorem deleteLocked_stretch (hs : s.On i) (hsmall : i.bytes.length < UInt32.size) {key : Bytes}
    {result : EStateM.Result Error Session Locked} (hlocking : Locking s i key result)
    {act : SessionM Locked} (hact : act s₂ = result) :
    Stretch s i (.delete key) heeds ((act >>= deleteLocked key) s₂) := by
  cases hlocking with
  | @absent h looked missing =>
    rw [bind_ok hact]
    have hnone : i.contents key = none := by rw [Image.contents_eq_find?, missing]; rfl
    refine .answered (hs.withHandle looked.fits) (.refl i) ?_ ?_ (fun _ _ => Iff.rfl)
      (fun _ _ hv _ => hv) ((Session.Acts.refl _ s).withHandle looked.config) (by simp)
      (fun _ h => by cases h)
    · exact (Contents.delete_of_eq_none hnone).symm
    · show Answer.flag false = .flag (i.contents key).isSome
      rw [hnone]
      rfl
  | @granted h line looked found sees unblocked =>
    rw [bind_ok hact]
    obtain ⟨hlive, hkey⟩ := hs.sound.find?_eq_some_iff.1 found
    have hl := hs.sound.mem_lines_of_find? found
    have hoff := Image.lockFault?_of_mem hsmall hl
    have hclears : (Call.delete key).Clears i line.offset := Or.inr ⟨line, hl, hkey, rfl⟩
    obtain ⟨j, hon, hextends, hversions⟩ :=
      ((hs.withHandle looked.fits).hold line.offset).kill hlive
    rw [hkey] at hversions
    have hframed : ∀ v : Version, v.key ≠ key → (v ∈ j.versions ↔ v ∈ i.versions) := by
      intro v hv
      rw [hversions, List.mem_filter]
      simp [hv]
    have hlocks := ((s.withHandle h).hold line.offset).write_locks ⟨line.offset, [deadFlag]⟩
    have hheld : Session.Acts ((Call.delete key).Clears i) [line.offset] s
        ((s.withHandle h).hold line.offset) :=
      ((Session.Acts.refl _ s).withHandle looked.config).hold unblocked
    have hkilled : Session.Acts ((Call.delete key).Clears i) [line.offset] s
        (((s.withHandle h).hold line.offset).write ⟨line.offset, [deadFlag]⟩).forget :=
      hheld.congr hlocks rfl rfl
    have hacts := hkilled.free hclears
    unfold deleteLocked
    dsimp only
    rw [modify_bind, bind_ok (show unlock line.span.offset _ = _ from unlock_eq _ hoff), modify_bind]
    refine .answered (j := j) ⟨hon.bytes, ⟨hon.fits.headLen, hon.fits.view, fun _ h => by cases h⟩,
      hon.sound⟩ hextends ?_ ?_ ?_ ?_ (hacts.congr rfl rfl rfl) (by simp) (fun _ h => by cases h)
    · rw [Image.contents, hversions, Contents.ofVersions_filter]
      rfl
    · show Answer.flag true = .flag (i.contents key).isSome
      rw [Image.contents_eq_find?, found]
      rfl
    · intro v hv
      exact hframed v fun e => hv (congrArg some e.symm)
    · intro _ v hv hb
      refine hs.sound.spared_of_framed hframed (fun line' hfind' => ?_) hv hb
      rw [found, Option.some.injEq] at hfind'
      exact hfind' ▸ unblocked
  | @refused h line looked found blocked nonblocking =>
    rw [bind_error hact]
    exact refused_stretch hs (.delete key) rfl looked found blocked nonblocking
  | @busy h line looked found sees blocked blocking =>
    rw [bind_ok hact]
    exact busy_stretch hs (.deleting key line.span) looked
      (hs.sound.points_of_find? found sees) blocked

/-- **A resort under the structural lock** changes no record. -/
theorem resortLocked_stretch (hs : s.On i) (hsmall : i.bytes.length < UInt32.size)
    (hfree : ¬ s.Blocked structuralOffset) :
    Stretch s i .resort heeds (resortLocked (s.hold structuralOffset)) := by
  obtain ⟨s', j, hr, hon, hresorted, hlocks, hholder, hconfig⟩ := resort_eq (hs.hold _) hsmall
  have hacts : Session.Acts (Call.resort.Clears i) [structuralOffset] s s' :=
    ((Session.Acts.refl _ s).hold hfree).congr hlocks hholder hconfig
  unfold resortLocked
  rw [bind_ok (unlockingStructure_ok hr)]
  refine .answered (hon.free _) hresorted.extends_ hresorted.contents_eq rfl ?_ ?_
    (hacts.free (Or.inr rfl)) (by simp) (fun _ h => by cases h)
  · intro v _
    rw [hresorted.versions]
  · intro _ v hv _
    rw [hresorted.versions]
    exact hv

end SessionM

end RecordStore
