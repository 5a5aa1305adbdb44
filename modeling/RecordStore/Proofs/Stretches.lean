import Mathlib.Tactic.Common
import RecordStore.Call.Run
import RecordStore.Proofs.Appends

/-!
# What a stretch of a call comes to

A call runs in stretches, between waits.  A stretch that answers does to the map what the call says,
at one go; a stretch that waits or fails does nothing to it.

* `Call.Answers` — what the map says to a call.
* `Stage.call`, `Stage.Fits` — the call that waits at a stage; what it remembers goes with the file.
* `Call.Clears`, `Call.Keeps` — the locks that a call may give up; those it may leave behind.
* `Call.Secures` — when the lock of a key is held once a call has its answer.
* `Stretch` — what a stretch does to the file, the map, the records of others and the locks.

Principal results: `Stretch.of_acts` — locks given up before a stretch belong to it;
`SessionM.recheck_locking` — a lock granted after a wait; `Call.apart_of_frees` — calls that leave the
lock of a version alone.
-/

set_option autoImplicit false

namespace RecordStore

/-! ## What is asked -/

/-- The words that a request can be written with. -/
theorem WriteRequest.fits_of_requestFault? {request : WriteRequest}
    (h : SessionM.requestFault? request = none) : (∀ b ∈ request.key, isDelimiter b = false) ∧
      ∀ field, request.field = some field → field.Fits := by
  rw [SessionM.requestFault?, Option.or_eq_none_iff] at h
  obtain ⟨hkey, hfield⟩ := h
  refine ⟨isDelimiter_of_keyFault? hkey, fun field hf => ?_⟩
  rw [hf, Option.bind_some, Option.or_eq_none_iff] at hfield
  exact Field.fits_of_faults hfield.1 hfield.2

/-- What a lookup of a key with these fields may answer.  Of names with `=` nothing is said. -/
def Part.Answers (key : Bytes) : Option (List Field) → Part → Answer → Prop
  | none, part, a => a = part.missing
  | some _, .key, a => a = .bytes (some key)
  | some fields, .field name, a => equals ∉ name → a = .bytes (valueOf? fields name)
  | some fields, .decodedField name, a =>
    equals ∉ name → a = .bytes ((valueOf? fields name).map Percent.decode)
  | some fields, .record, a =>
    ∃ r : Record, a = .record (some r) ∧ r.isLive = true ∧ r.key = key ∧ r.fields = fields

/-- What a call may answer where the store holds the map `c`; a write has an answer only if it can be
written.  The map says nothing of what stands at an offset, of counters and of mappings. -/
def Call.Answers (c : Contents) : Call → Answer → Prop
  | .read key part _, a => part.Answers key (c key) a
  | .records, a => ∃ all, a = .records all ∧ Holds all c
  | .write request, a => SessionM.requestFault? request = none ∧ a = .done
  | .resort, a | .lock _, a | .unlock _, a => a = .done
  | .delete key, a => a = .flag (c key).isSome
  | .readAt _ _, _ | .appendSeq, _ | .sinceSort, _ | .refresh, _ => True

/-- The key whose versions a call may change. -/
def Call.target? : Call → Option Bytes
  | .write request => some request.key
  | .delete key => some key
  | _ => none

/-- Whether a call takes the lock of a record. -/
def Call.acquires : Call → Bool
  | .read _ _ keepLock | .readAt _ keepLock => keepLock
  | .write request => request.mode.acquires
  | .delete _ | .lock _ => true
  | _ => false

/-! ## Where calls wait -/

/-- The call that waits at a stage. -/
def Stage.call : Stage → Call
  | .reading key part _ => .read key part true
  | .readingAt offset => .readAt offset true
  | .locking offset => .lock offset
  | .writing request _ | .appending request _ => .write request
  | .deleting key _ => .delete key
  | .resorting => .resort

/-- A line with this key stands here, and the handle sees it. -/
def Handle.Points (h : Handle) (i : Image) (span : Span) (key : Bytes) : Prop :=
  i.Shows span key ∧ span.offset + span.length ≤ h.view.length

/-- What a waiting call remembers goes with the file. -/
def Stage.Fits (h : Handle) (i : Image) : Stage → Prop
  | .reading key _ span | .deleting key span => h.Points i span key
  | .readingAt offset => Header.length ≤ offset ∧ offset < h.view.length
  | .locking offset => lockFault? offset = none
  | .writing request span => SessionM.requestFault? request = none ∧
    request.mode.acquires = true ∧ h.Points i span request.key
  | .appending request held => SessionM.requestFault? request = none ∧
    ∀ offset, held = some offset → request.field ≠ none ∧
      ∃ span, i.Shows span request.key ∧ span.offset = offset
  | .resorting => True

theorem Stage.Fits.mono {stage : Stage} {h : Handle} {i j : Image} (hfit : stage.Fits h i)
    (hij : i.Extends j) : stage.Fits h j := by
  cases stage with
  | reading key part span => exact ⟨hij.shows hfit.1, hfit.2⟩
  | deleting key span => exact ⟨hij.shows hfit.1, hfit.2⟩
  | writing request span => exact ⟨hfit.1, hfit.2.1, hij.shows hfit.2.2.1, hfit.2.2.2⟩
  | appending request held =>
    refine ⟨hfit.1, fun offset ho => ?_⟩
    obtain ⟨hnamed, span, hs, hoff⟩ := hfit.2 offset ho
    exact ⟨hnamed, span, hij.shows hs, hoff⟩
  | readingAt offset => exact hfit
  | locking offset => exact hfit
  | resorting => exact hfit

/-! ## What becomes of locks -/

/-- A dead line starts here. -/
def Image.DeadAt (i : Image) (offset : Nat) : Prop :=
  ∃ line ∈ i.lines, isLiveText line.text = false ∧ line.offset = offset

/-- A line with this key starts here. -/
def Image.KeyAt (i : Image) (key : Bytes) (offset : Nat) : Prop :=
  ∃ line ∈ i.lines, keyOf line.text = key ∧ line.offset = offset

theorem Image.keyAt_of_shows (i : Image) {key : Bytes} {offset : Nat}
    (h : ∃ span, i.Shows span key ∧ span.offset = offset) : i.KeyAt key offset := by
  obtain ⟨span, ⟨line, hl, rfl, hkey⟩, rfl⟩ := h
  exact ⟨line, hl, hkey, rfl⟩

/-- The locks that a call may give up when it has its answer, besides those of dead lines. -/
def Call.Frees (i : Image) : Call → Nat → Prop
  | .readAt offset keepLock, o => keepLock = true ∧ o = offset ∧ ∀ line ∈ i.lines, line.offset ≠ o
  | .unlock offset, o => o = offset
  | .write request, o => o = structuralOffset ∨ o = i.bytes.length ∨ i.KeyAt request.key o
  | .delete key, o => i.KeyAt key o
  | .resort, o => o = structuralOffset
  | _, _ => False

/-- The locks that a call may give up. -/
def Call.Clears (i : Image) (call : Call) (o : Nat) : Prop := i.DeadAt o ∨ call.Frees i o

/-- The locks that a call may leave behind when it has its answer. -/
def Call.Keeps : Call → Nat → Prop
  | .read _ _ keepLock, o | .readAt _ keepLock, o => keepLock = true ∧ Header.length ≤ o
  | .lock offset, o => o = offset
  | .write request, o => request.mode.releases = false ∧ Header.length ≤ o
  | _, _ => False

/-- The session has the exclusive lock of the live record of a key. -/
def Session.Owns (s : Session) (i : Image) (key : Bytes) : Prop :=
  ∃ v ∈ i.versions, v.key = key ∧ s.file.locks.holdsExclusive s.holder v.offset = true

/-- When a call that gets its answer gets the lock of the record of `key` with it, or keeps it.  A
write that is told to take the lock gets it, unless it names no field, did not look at record locks
(`heeds`) and finds the key there. -/
def Call.Secures (s : Session) (i : Image) (heeds : Prop) (key : Bytes) : Call → Prop
  | .read key' _ keepLock => key' = key ∧ keepLock = true ∧ i.contents key ≠ none
  | .readAt offset keepLock => keepLock = true ∧ ∃ v ∈ i.versions, v.key = key ∧ v.offset = offset
  | .write request => request.key = key ∧ request.mode.releases = false ∧ (s.Owns i key ∨
    (request.mode = .take ∧ (request.field ≠ none ∨ heeds ∨ i.find? key = none)))
  | _ => False

/-- The new version of a key stands where another holder has locked the end of the file. -/
def Session.Crowded (s : Session) (i j : Image) (key : Bytes) : Prop :=
  s.Blocked i.bytes.length ∧ ∃ v ∈ j.versions, v.key = key ∧ v.offset = i.bytes.length

/-- The calls that give up the lock of a version: writes of its key that are told to, the delete of
its key, and whatever unlocks a part of its range.  A locking lookup gives its range up where no
record starts. -/
def Call.GivesUp (v : Version) : Call → Prop
  | .write request => request.key = v.key ∧ request.mode.releases = true
  | .delete key => key = v.key
  | .unlock offset => ¬ LockTable.Apart offset v.offset
  | .readAt offset keepLock => keepLock = true ∧ offset ≠ v.offset ∧
    ¬ LockTable.Apart offset v.offset
  | _ => False

/-! ## Locks that do not meet -/

section Apart

variable {i : Image} (h : i.Sound)

include h

/-- A line is longer than the range of a lock. -/
theorem Image.Sound.lockLen_lt {line : Line} (hl : line ∈ i.lines) : lockLen < line.text.length := by
  have := keyAt_lt_of_defect? (h.wellFormed _ (text_mem hl))
  have : lockLen < keyAt := by decide
  omega

/-- The locks of two lines do not meet. -/
theorem Image.Sound.apart {line line' : Line} (hl : line ∈ i.lines) (hl' : line' ∈ i.lines)
    (hne : line.offset ≠ line'.offset) : LockTable.Apart line.offset line'.offset := by
  have hlen := h.lockLen_lt hl
  have hlen' := h.lockLen_lt hl'
  obtain ⟨front, back, htexts, hoff⟩ := mem_lines_iff.1 hl
  obtain ⟨front', back', htexts', hoff'⟩ := mem_lines_iff.1 hl'
  rw [htexts] at htexts'
  unfold LockTable.Apart
  rcases List.append_eq_append_iff.1 htexts' with ⟨mid, hfront, hmid⟩ | ⟨mid, hfront, hmid⟩
  · cases mid with
    | nil =>
      rw [hfront, List.append_nil] at hoff'
      omega
    | cons first mid =>
      rw [List.cons_append, List.cons.injEq] at hmid
      rw [hfront, ← hmid.1, List.flatten_append, List.length_append, List.flatten_cons,
        List.length_append] at hoff'
      omega
  · cases mid with
    | nil =>
      rw [hfront, List.append_nil] at hoff
      omega
    | cons first mid =>
      rw [List.cons_append, List.cons.injEq] at hmid
      rw [hfront, ← hmid.1, List.flatten_append, List.length_append, List.flatten_cons,
        List.length_append] at hoff
      omega

variable {v : Version} (hv : v ∈ i.versions)

include hv

theorem Image.Sound.version_bounds :
    Header.length ≤ v.offset ∧ v.offset + lockLen ≤ i.bytes.length := by
  obtain ⟨line, hl, -, rfl⟩ := mem_versions_iff.1 hv
  have hbounds := bounds_of_mem hl
  have := h.lockLen_lt hl
  exact ⟨hbounds.1, by simp only [Version.of]; omega⟩

theorem Image.Sound.apart_dead {o : Nat} (ho : i.DeadAt o) : LockTable.Apart o v.offset := by
  obtain ⟨line, hl, hlive, rfl⟩ := mem_versions_iff.1 hv
  obtain ⟨dead, hdead, hflag, rfl⟩ := ho
  refine h.apart hdead hl fun he => ?_
  rw [eq_of_offset h.line hdead hl he, hlive] at hflag
  cases hflag

theorem Image.Sound.apart_key {key : Bytes} (hkey : v.key ≠ key) {o : Nat} (ho : i.KeyAt key o) :
    LockTable.Apart o v.offset := by
  obtain ⟨line, hl, hlive, rfl⟩ := mem_versions_iff.1 hv
  obtain ⟨other, hother, rfl, rfl⟩ := ho
  refine h.apart hother hl fun he => hkey ?_
  rw [eq_of_offset h.line hother hl he]
  rfl

theorem Image.Sound.apart_end : LockTable.Apart i.bytes.length v.offset :=
  Or.inr (h.version_bounds hv).2

theorem Image.Sound.apart_structural : LockTable.Apart structuralOffset v.offset := by
  have := (h.version_bounds hv).1
  have : structuralOffset + lockLen ≤ Header.length := by decide
  exact Or.inl (by omega)

end Apart

/-- **Calls about other keys** leave the lock of a version alone, unless they give it up. -/
theorem Call.apart_of_frees {i : Image} (h : i.Sound) {v : Version} (hv : v ∈ i.versions)
    {call : Call} (hkey : call.target? ≠ some v.key) (hkeep : ¬ call.GivesUp v) {o : Nat}
    (ho : call.Frees i o) : LockTable.Apart o v.offset := by
  cases call with
  | readAt offset keepLock =>
    obtain ⟨hlock, rfl, hnone⟩ := ho
    obtain ⟨line, hl, -, rfl⟩ := Image.mem_versions_iff.1 hv
    by_contra hmeets
    exact hkeep ⟨hlock, fun e => hnone line hl e.symm, hmeets⟩
  | unlock offset =>
    obtain rfl : o = offset := ho
    by_contra hmeets
    exact hkeep hmeets
  | write request =>
    rcases ho with rfl | rfl | ho
    · exact h.apart_structural hv
    · exact h.apart_end hv
    · exact h.apart_key hv (fun e => hkey (congrArg some e.symm)) ho
  | delete key => exact h.apart_key hv (fun e => hkey (congrArg some e.symm)) ho
  | resort =>
    obtain rfl : o = structuralOffset := ho
    exact h.apart_structural hv
  | _ => cases ho

/-- Why a call may be refused. -/
def Call.Refused (s : Session) (call : Call) : Error → Prop
  | .contention offset => call.acquires = true ∧ s.Blocked offset ∧
    s.handle.config.nonblocking = true ∧ (call = .lock offset ∨ Header.length ≤ offset)
  | .invalidData fault => ∃ request, call = .write request ∧
    SessionM.requestFault? request = some fault
  | .lock fault => ∃ offset, (call = .lock offset ∨ call = .unlock offset) ∧
    lockFault? offset = some fault
  | _ => False

/-- What a stretch of a call comes to.  A stretch that `heeds` record locks spares the records that
other holders have locked. -/
inductive Stretch (s : Session) (i : Image) (call : Call) (heeds : Prop) :
    EStateM.Result Error Session Progress → Prop where
  | answered {s' : Session} {j : Image} {answer : Answer} {gained : List Nat} (on : s'.On j)
    (extends_ : i.Extends j) (contents : j.contents = i.contents.after call)
    (answers : call.Answers i.contents answer)
    (framed : ∀ v, call.target? ≠ some v.key → (v ∈ j.versions ↔ v ∈ i.versions))
    (spared : heeds → ∀ v ∈ i.versions, s.Blocked v.offset → v ∈ j.versions)
    (acts : Session.Acts (call.Clears i) gained s s')
    (keeps : ∀ o ∈ gained, call.Keeps o)
    (secures : ∀ key, call.Secures s i heeds key → s'.Owns j key ∨ s.Crowded i j key) :
    Stretch s i call heeds (.ok (.answered answer) s')
  | waiting {s' : Session} {stage : Stage} {gained : List Nat} (on : s'.On i)
    (fits : stage.Fits s'.handle i) (same : stage.call = call) (blocked : s.Blocked stage.offset)
    (acts : Session.Acts i.DeadAt gained s s') (keeps : ∀ o ∈ gained, Header.length ≤ o) :
    Stretch s i call heeds (.ok (.waiting stage) s')
  | failed {s' : Session} {error : Error} (on : s'.On i) (acts : Session.Acts i.DeadAt [] s s')
    (refused : call.Refused s error) : Stretch s i call heeds (.error error s')

/-- A session keeps what it owns while only dead lines are unlocked. -/
theorem Session.Owns.of_acts {s s₁ : Session} {i : Image} {key : Bytes} {gained : List Nat}
    (h : s.Owns i key) (hi : i.Sound) (hacts : Session.Acts i.DeadAt gained s s₁) :
    s₁.Owns i key := by
  obtain ⟨v, hv, hkey, hheld⟩ := h
  refine ⟨v, hv, hkey, ?_⟩
  rw [hacts.holder]
  exact hacts.kept v.offset hheld fun o ho => hi.apart_dead hv ho

/-- A lock granted after a wait is rechecked by a session that gained nothing before. -/
theorem SessionM.recheck_locking {s : Session} {i : Image} (hs : s.On i)
    (hsmall : i.bytes.length < UInt32.size) {key : Bytes} {span : Span}
    (hpoints : s.handle.Points i span key) (hfree : ¬ s.Blocked span.offset) :
    ∃ s₁ : Session, s₁.On i ∧ Session.Acts i.DeadAt [] s s₁ ∧
      Locking s₁ i key (recheck key span (s.hold span.offset)) := by
  obtain ⟨⟨line, hl, rfl, hkey⟩, hsees⟩ := hpoints
  rcases recheck_cases hs hsmall hl hkey hsees hfree with hlocking | ⟨hdead, hlocking⟩
  · exact ⟨s, hs, .refl _ s, hlocking⟩
  · refine ⟨(s.hold line.offset).free line.offset, (hs.hold _).free _, ?_, hlocking⟩
    have hfree' : ¬ s.Blocked line.offset := hfree
    have hacts := ((Session.Acts.refl i.DeadAt s).hold hfree').free ⟨line, hl, hdead, rfl⟩
    simpa using hacts

/-- **Giving up the locks of dead lines first** belongs to the stretch. -/
theorem Stretch.of_acts {s s₁ : Session} {i : Image} {call : Call} {heeds : Prop}
    {result : EStateM.Result Error Session Progress} (hi : i.Sound)
    (hacts : Session.Acts i.DeadAt [] s s₁) (h : Stretch s₁ i call heeds result) :
    Stretch s i call heeds result := by
  cases h with
  | answered on extends_ contents answers framed spared acts keeps secures =>
    refine .answered on extends_ contents answers framed ?_ ?_ keeps ?_
    · intro hheeds v hv hb
      exact spared hheeds v hv ((hacts.blocked_iff _).2 hb)
    · exact (hacts.mono fun o ho => Or.inl ho).trans acts
    · intro key hsec
      have hsec' : call.Secures s₁ i heeds key := by
        cases call with
        | write request =>
          obtain ⟨hkey, hmode, howns⟩ := hsec
          exact ⟨hkey, hmode, howns.imp_left fun ho => ho.of_acts hi hacts⟩
        | _ => exact hsec
      unfold Session.Crowded
      rw [← hacts.blocked_iff]
      exact secures key hsec'
  | waiting on fits same blocked acts keeps =>
    exact .waiting on fits same ((hacts.blocked_iff _).1 blocked) (hacts.trans acts) keeps
  | failed on acts refused =>
    refine .failed on (hacts.trans acts) ?_
    unfold Call.Refused at refused ⊢
    split at refused
    · rw [hacts.blocked_iff, hacts.config] at refused
      exact refused
    · exact refused
    · exact refused
    · exact refused

end RecordStore
