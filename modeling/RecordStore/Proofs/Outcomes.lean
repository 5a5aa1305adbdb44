import Mathlib.Tactic.Common
import RecordStore.Proofs.Publishing

/-!
# What a stretch of a call comes to on any file

Each ending of a stretch goes with what it has written by then: nothing, while it looks, waits or is
refused; a value in place; the death of a record; the slots of a sort; a line at the end, and the
counters and the death of the old record behind it.

* `Wrote`, `Read`, `Deleted`, `Sorted`, `Glanced` — how a stretch of each kind of call ends; `Ran` —
  of any call.

Principal results: `write_wrote`; `Call.start_ran` and `Stage.resume_ran` — every call, from its
beginning and on from a wait.
-/

set_option autoImplicit false

namespace RecordStore

/-! ## Writing -/

/-- How a stretch of a write ends. -/
inductive Wrote (s : Session) (request : WriteRequest) (waited : Option Span) :
    EStateM.Result Error Session Progress → Prop where
  | waiting {s' : Session} {stage : Stage} (waits : Waits s s' (.write request) waited stage) :
    Wrote s request waited (.ok (.waiting stage) s')
  | refused {s' : Session} {e : Error} (looks : s.Looks s')
    (kept : e = .invalidHeader → ¬ s.Strands waited request.key) :
    Wrote s request waited (.error e s')
  | untouched {s' : Session} {span : Span} (looks : s.Looks s')
    (aims : s'.Aims waited request.key span) (fieldless : request.field = none) :
    Wrote s request waited (.ok (.answered .done) s')
  | patched {s₁ s' : Session} {span place : Span} {r : Record} {field : Field} (looks : s.Looks s₁)
    (aims : s₁.Aims waited request.key span) (named : request.field = some field)
    (record : Record.decode s₁.data span.offset = .ok r)
    (placed : r.fieldSpan? field.name = some place) (fits : place.length = field.value.length)
    (relocks : (s₁.write ⟨span.offset + place.offset, field.value⟩).markModified.Relocks s') :
    Wrote s request waited (.ok (.answered .done) s')
  | present {s₁ s₂ s' : Session} {span : Span} {count : UInt32} (looks : s.Looks s₁)
    (prepared : Prepared s₁ request.key (some span) count s₂) (fieldless : request.field = none)
    (relocks : s₂.Relocks s') : Wrote s request waited (.ok (.answered .done) s')
  | damaged {s₁ s₂ s' : Session} {old : Option Span} {count : UInt32} {e : Error}
    (looks : s.Looks s₁) (prepared : Prepared s₁ request.key old count s₂)
    (other : e ≠ .invalidHeader) (relocks : s₂.Relocks s') : Wrote s request waited (.error e s')
  | stranded {s₁ s₂ s₃ s' : Session} {old : Option Span} {count : UInt32} {line : Bytes}
    (strands : s.Strands waited request.key) (looks : s.Looks s₁)
    (prepared : Prepared s₁ request.key old count s₂)
    (drafted : Drafted s₂.data request.key request.field old line)
    (locked : s₂.sealed.Relocks s₃) (relocks : (s₃.writeLine line).Relocks s') :
    Wrote s request waited (.error .invalidHeader s')
  | published {s₁ s₂ s₃ s' : Session} {old : Option Span} {count seq : UInt32} {line : Bytes}
    (looks : s.Looks s₁) (prepared : Prepared s₁ request.key old count s₂)
    (drafted : Drafted s₂.data request.key request.field old line)
    (locked : s₂.sealed.Relocks s₃)
    (read : Header.counterAt? (s₃.writeLine line).file.bytes Header.appendSeqAt = some seq)
    (relocks : ((s₃.writeLine line).publish seq count old).Relocks s') :
    Wrote s request waited (.ok (.answered .done) s')

theorem Session.relocks_free (s : Session) (offset : Nat) : s.Relocks (s.free offset) := .mk _

theorem Session.relocks_freeAll (s : Session) (held : Option Nat) : s.Relocks (s.freeAll held) := by
  cases held with
  | none => exact .refl s
  | some offset => exact s.relocks_free offset

namespace SessionM

variable {s s₁ : Session} {request : WriteRequest} {waited : Option Span} {held : Option Nat}

theorem unlockingStructure_error {α : Type} {act : SessionM α} {s s' : Session} {e : Error}
    (h : act s = .error e s') :
    unlockingStructure act s = .ok (.error e) (s'.free structuralOffset) := by
  unfold unlockingStructure
  rw [bind_ok (attempt_error h), bind_ok (unlock_eq s' structural_lockFault?)]
  rfl

/-- **A write under the structural lock.** -/
theorem appendLocked_wrote (hled : s.Led s₁ waited request.key) (hs : s₁.Mapped)
    (hlock : s₁.Lockable) (hheld : ∀ o, held = some o → lockFault? o = none) :
    Wrote s request waited (appendLocked request held s₁) := by
  have happend := appendRecord_appends hs hlock request.key request.field
  -- after a failure the record lock held is given up, unless the caller keeps it
  have hfailed : ∀ {e : Error} {s' : Session},
      appendRecord request.key request.field s₁ = .error e s' →
      ∃ s'', appendLocked request held s₁ = .error e s'' ∧ s'.Relocks s'' := by
    intro e s' happ
    unfold appendLocked
    rw [bind_ok (unlockingStructure_error happ)]
    dsimp only
    have hfree := s'.relocks_free structuralOffset
    by_cases hmode : request.mode ≠ .keep
    · rw [if_pos hmode, bind_ok (forM_unlock_eq _ hheld)]
      exact ⟨_, rfl, hfree.trans (Session.relocks_freeAll _ held)⟩
    · rw [if_neg hmode]
      exact ⟨_, rfl, hfree⟩
  -- after a success it is given up, and the new record's by the mode
  have hdone : ∀ {appended : Option Nat} {s' : Session},
      appendRecord request.key request.field s₁ = .ok appended s' →
      (∀ o, appended = some o → lockFault? o = none) →
      ∃ s'', appendLocked request held s₁ = .ok (.answered .done) s'' ∧ s'.Relocks s'' := by
    intro appended s' happ hfault
    unfold appendLocked
    rw [bind_ok (unlockingStructure_ok happ)]
    dsimp only
    rw [bind_ok (forM_unlock_eq _ hheld), answer_done_eq _ hfault]
    exact ⟨_, rfl, ((s'.relocks_free structuralOffset).trans (Session.relocks_freeAll _ held)).trans
      (Session.relocks_freeAll _ _)⟩
  generalize hresult : appendRecord request.key request.field s₁ = result at happend
  cases happend with
  | refused kept =>
    obtain ⟨s', heq, hrel⟩ := hfailed hresult
    rw [heq]
    exact .refused (hled.looks.trans hrel.looks) fun he hstrands => kept he (hled.strands.2 hstrands)
  | damaged prepared other =>
    obtain ⟨s', heq, hrel⟩ := hfailed hresult
    rw [heq]
    exact .damaged hled.looks prepared other hrel
  | present prepared fieldless =>
    obtain ⟨s', heq, hrel⟩ := hdone hresult (by simp)
    rw [heq]
    exact .present hled.looks prepared fieldless hrel
  | stranded strands prepared drafted locked relocks =>
    obtain ⟨s', heq, hrel⟩ := hfailed hresult
    rw [heq]
    exact .stranded (hled.strands.1 strands) hled.looks prepared drafted locked (relocks.trans hrel)
  | @published s₂ s₃ old count seq line prepared drafted locked read =>
    have hfault : lockFault? s₂.sealed.file.bytes.length = none :=
      (prepared.lockable hs hlock).lockFault? (sealed_length s₂)
    obtain ⟨s', heq, hrel⟩ := hdone hresult (by rintro o ⟨⟩; exact hfault)
    rw [heq]
    exact .published hled.looks prepared drafted locked read hrel

/-- **A write that is about to append** takes the structural lock or waits for it. -/
theorem append_wrote (hled : s.Led s₁ waited request.key) (hs : s₁.Mapped) (hlock : s₁.Lockable)
    (hreq : requestFault? request = none) (hheld : ∀ o, held = some o → lockFault? o = none) :
    Wrote s request waited (append request held s₁) := by
  unfold append
  have htry := tryLock_eq s₁ structural_lockFault?
  split at htry
  · rw [bind_ok htry]
    refine .waiting ⟨hled.looks, rfl, by rintro span ⟨⟩, ⟨?_, hheld⟩⟩
    rintro request' heq
    cases heq
    exact hreq
  · rw [bind_ok htry]
    have hrel : s₁.Relocks (s₁.hold structuralOffset) := .mk _
    exact appendLocked_wrote (hled.relocks hrel) (hs.of_looks hrel.looks)
      (hlock.of_looks hrel.looks) hheld

/-- **A write to a record that is there** patches it, or goes on to append. -/
theorem update_wrote (hled : s.Led s₁ waited request.key) (hs : s₁.Mapped) (hlock : s₁.Lockable)
    (hreq : requestFault? request = none) {span : Span} (haims : s₁.Aims waited request.key span)
    (hfault : lockFault? span.offset = none) :
    Wrote s request waited (update request span s₁) := by
  have happend : Wrote s request waited (append request (some span.offset) s₁) :=
    append_wrote hled hs hlock hreq (by rintro o ⟨⟩; exact hfault)
  unfold update
  cases hfield : request.field with
  | none =>
    have hrel := s₁.relocks_freeAll (released request (some span.offset))
    dsimp only
    rw [finishInPlace_eq request s₁ hfault]
    exact .untouched (hled.looks.trans hrel.looks) (haims.relocks hrel) hfield
  | some field =>
    dsimp only
    have hrecord := recordAt_eq_match s₁ span
    cases hdec : Record.decode s₁.data span.offset with
    | error e =>
      rw [hdec] at hrecord
      rw [bind_error hrecord]
      exact .refused hled.looks fun he => absurd he (ne_invalidHeader_of_decode hdec)
    | ok r =>
      rw [hdec] at hrecord
      rw [bind_ok hrecord]
      cases hplace : r.fieldSpan? field.name with
      | none => exact happend
      | some place =>
        dsimp only
        split
        · next hfits =>
          rw [modify_bind, finishInPlace_eq request _ hfault]
          exact .patched hled.looks haims hfield hdec hplace hfits (Session.relocks_freeAll _ _)
        · exact happend

/-- **A write that looked its key up** under the lock of its record. -/
theorem writeLocked_wrote {s₀ : Session} (hs : s.Mapped) (hlock : s.Lockable)
    (hreq : requestFault? request = none) {act : SessionM Locked}
    (hlooked : Looked s waited request.key (act s₀)) :
    Wrote s request waited ((act >>= writeLocked request) s₀) := by
  generalize hact : act s₀ = result at hlooked
  cases hlooked with
  | failed looks blamed =>
    rw [bind_error hact]
    exact .refused looks fun he hstrands => (blamed he).2 hstrands.trusts
  | absent looks missing fresh =>
    rw [bind_ok hact]
    refine append_wrote ⟨looks, fun hb => ?_⟩ (hs.of_looks looks) (hlock.of_looks looks) hreq (by simp)
    exact absurd (looks.broken.2 hb) fresh.not_broken
  | granted looks aims lockable trusted =>
    rw [bind_ok hact]
    exact update_wrote ⟨looks, trusted⟩ (hs.of_looks looks) (hlock.of_looks looks) hreq aims lockable
  | busy looks found =>
    rw [bind_ok hact]
    refine .waiting (.of_found looks found rfl rfl rfl ⟨?_, by rintro o ⟨⟩⟩)
    rintro request' heq
    cases heq
    exact hreq

/-- **A write from its beginning.** -/
theorem write_wrote (hs : s.Mapped) (hlock : s.Lockable) (request : WriteRequest) :
    Wrote s request none (write request s) := by
  unfold write
  cases hreq : requestFault? request with
  | some fault => exact .refused (.refl s) fun he => by cases he
  | none =>
    dsimp only
    split
    · exact writeLocked_wrote hs hlock hreq (locateLocking_looked hs request.key)
    · -- the caller says that it holds the lock
      have hloc := locate_cases hs request.key .ifMissing
      generalize hres : locate request.key .ifMissing s = result at hloc
      cases hloc with
      | unreadable broken asked =>
        rw [bind_error hres]
        refine .refused (.refl s) fun _ hstrands => ?_
        rcases asked with hask | hnone
        · cases hask
        · exact hstrands.trusts.found hnone
      | @located h looks fresh trusted =>
        have hlooks : s.Looks (s.withHandle h) := .withHandle looks
        have hled : s.Led (s.withHandle h) none request.key :=
          ⟨hlooks, fun hb => ⟨fun _ => ⟨(trusted hb).1, by simp⟩, fun _ => (trusted hb).2⟩⟩
        rw [bind_ok hres]
        cases hfound : (s.withHandle h).found? request.key with
        | none =>
          exact append_wrote hled (hs.of_looks hlooks) (hlock.of_looks hlooks) hreq (by simp)
        | some span =>
          exact update_wrote hled (hs.of_looks hlooks) (hlock.of_looks hlooks) hreq (.found hfound)
            ((hlock.of_looks hlooks).found hfound)

/-! ## Reading, deleting and sorting -/

end SessionM

/-- How a stretch of a lookup that answers ends. -/
inductive Read (s : Session) (key : Bytes) (part : Part) (keepLock : Bool) (waited : Option Span) :
    EStateM.Result Error Session Progress → Prop where
  | waiting {s' : Session} {stage : Stage}
    (waits : Waits s s' (.read key part keepLock) waited stage) :
    Read s key part keepLock waited (.ok (.waiting stage) s')
  | refused {s' : Session} {e : Error} (looks : s.Looks s') :
    Read s key part keepLock waited (.error e s')
  | missed {s' : Session} (looks : s.Looks s') (missing : s'.found? key = none) (fresh : s'.Fresh) :
    Read s key part keepLock waited (.ok (.answered part.missing) s')
  | found {s' : Session} {span : Span} {r : Record} (looks : s.Looks s')
    (aims : s'.Aims waited key span) (record : Record.decode s'.data span.offset = .ok r) :
    Read s key part keepLock waited (.ok (.answered (part.of r)) s')

/-- How a stretch of a delete ends. -/
inductive Deleted (s : Session) (key : Bytes) (waited : Option Span) :
    EStateM.Result Error Session Progress → Prop where
  | waiting {s' : Session} {stage : Stage} (waits : Waits s s' (.delete key) waited stage) :
    Deleted s key waited (.ok (.waiting stage) s')
  | refused {s' : Session} {e : Error} (looks : s.Looks s') : Deleted s key waited (.error e s')
  | missed {s' : Session} (looks : s.Looks s') (missing : s'.found? key = none) (fresh : s'.Fresh) :
    Deleted s key waited (.ok (.answered (.flag false)) s')
  | killed {s₁ s' : Session} {span : Span} (looks : s.Looks s₁) (aims : s₁.Aims waited key span)
    (relocks : (s₁.write ⟨span.offset, [deadFlag]⟩).forget.markModified.Relocks s') :
    Deleted s key waited (.ok (.answered (.flag true)) s')

/-- How a stretch of a resort ends. -/
inductive Sorted (s : Session) (waited : Option Span) :
    EStateM.Result Error Session Progress → Prop where
  | waiting {s' : Session} {stage : Stage} (waits : Waits s s' .resort waited stage) :
    Sorted s waited (.ok (.waiting stage) s')
  | refused {s' : Session} {e : Error} (looks : s.Looks s') : Sorted s waited (.error e s')
  | sorted {s₁ s' : Session} (looks : s.Looks s₁) (fresh : s₁.Fresh) (relocks : s₁.sort.Relocks s') :
    Sorted s waited (.ok (.answered .done) s')

/-- How a stretch that only looks ends. -/
inductive Glanced (s : Session) (call : Call) (waited : Option Span) :
    EStateM.Result Error Session Progress → Prop where
  | waiting {s' : Session} {stage : Stage} (waits : Waits s s' call waited stage) :
    Glanced s call waited (.ok (.waiting stage) s')
  | refused {s' : Session} {e : Error} (looks : s.Looks s') : Glanced s call waited (.error e s')
  | answered {s' : Session} {a : Answer} (looks : s.Looks s') :
    Glanced s call waited (.ok (.answered a) s')

/-- How a stretch of any call ends. -/
inductive Ran (s : Session) (waited : Option Span) :
    Call → EStateM.Result Error Session Progress → Prop where
  | write {request : WriteRequest} {result : EStateM.Result Error Session Progress}
    (wrote : Wrote s request waited result) : Ran s waited (.write request) result
  | delete {key : Bytes} {result : EStateM.Result Error Session Progress}
    (deleted : Deleted s key waited result) : Ran s waited (.delete key) result
  | resort {result : EStateM.Result Error Session Progress} (sorted : Sorted s waited result) :
    Ran s waited .resort result
  | read {key : Bytes} {part : Part} {keepLock : Bool}
    {result : EStateM.Result Error Session Progress} (read : Read s key part keepLock waited result) :
    Ran s waited (.read key part keepLock) result
  | glance {call : Call} {result : EStateM.Result Error Session Progress}
    (keyless : call.key? = none) (glanced : Glanced s call waited result) : Ran s waited call result

/-- A stretch of a write is a write. -/
theorem Ran.wrote {s : Session} {waited : Option Span} {request : WriteRequest}
    {result : EStateM.Result Error Session Progress} (h : Ran s waited (.write request) result) :
    Wrote s request waited result := by
  cases h with
  | write wrote => exact wrote
  | glance keyless => cases keyless

/-- Locks taken or given up before a lookup belong to it. -/
theorem SessionM.Looked.of_relocks {s s₁ : Session} {waited : Option Span} {key : Bytes}
    {result : EStateM.Result Error Session SessionM.Locked} (hr : s.Relocks s₁)
    (h : SessionM.Looked s₁ waited key result) : SessionM.Looked s waited key result := by
  cases hr with
  | mk locks =>
    have hlooks : s.Looks (s.seen s.handle locks) := .mk (.refl _)
    have htrusts : (s.seen s.handle locks).Trusts waited key ↔ s.Trusts waited key :=
      ⟨fun ⟨hf, hl⟩ => ⟨hf, hl⟩, fun ⟨hf, hl⟩ => ⟨hf, hl⟩⟩
    cases h with
    | failed looks blamed =>
      refine .failed (hlooks.trans looks) fun he => ?_
      rw [← htrusts]
      exact blamed he
    | absent looks missing fresh => exact .absent (hlooks.trans looks) missing fresh
    | granted looks aims lockable trusted =>
      refine .granted (hlooks.trans looks) aims lockable fun hb => ?_
      rw [← htrusts]
      exact trusted hb
    | busy looks found => exact .busy (hlooks.trans looks) found

namespace SessionM

variable {s s₀ : Session} {key : Bytes} {waited : Option Span}

theorem readFound_eq_match (s : Session) (part : Part) (span : Span) : readFound part (some span) s =
    match Record.decode s.data span.offset with
    | .ok r => .ok (.answered (part.of r)) s
    | .error e => .error e s := by
  have hrecord := recordAt_eq_match s span
  show (recordAt span >>= fun r => answer (part.of r)) s = _
  cases hdec : Record.decode s.data span.offset with
  | ok r =>
    rw [hdec] at hrecord
    rw [bind_ok hrecord]
    rfl
  | error e =>
    rw [hdec] at hrecord
    rw [bind_error hrecord]

theorem readFound_read {s' : Session} {part : Part} {keepLock : Bool} {span : Span}
    (hlooks : s.Looks s') (haims : s'.Aims waited key span) :
    Read s key part keepLock waited (readFound part (some span) s') := by
  rw [readFound_eq_match]
  cases hdec : Record.decode s'.data span.offset with
  | ok r => exact .found hlooks haims hdec
  | error e => exact .refused hlooks

/-- **A lookup that answers** under the lock of the record. -/
theorem readLocked_read {part : Part} {act : SessionM Locked}
    (hlooked : Looked s waited key (act s₀)) :
    Read s key part true waited ((act >>= readLocked key part) s₀) := by
  generalize hact : act s₀ = result at hlooked
  cases hlooked with
  | failed looks blamed =>
    rw [bind_error hact]
    exact .refused looks
  | absent looks missing fresh =>
    rw [bind_ok hact]
    exact .missed looks missing fresh
  | granted looks aims lockable trusted =>
    rw [bind_ok hact]
    exact readFound_read looks aims
  | busy looks found =>
    rw [bind_ok hact]
    exact .waiting (.of_found looks found rfl rfl rfl ⟨by rintro request ⟨⟩, by rintro o ⟨⟩⟩)

theorem read_read (hs : s.Mapped) (key : Bytes) (part : Part) (keepLock : Bool) :
    Read s key part keepLock none (read key part keepLock s) := by
  unfold read
  cases keepLock with
  | true => exact readLocked_read (locateLocking_looked hs key)
  | false =>
    rw [if_neg (by simp)]
    have hloc := locate_cases hs key .ifMissing
    generalize hres : locate key .ifMissing s = result at hloc
    cases hloc with
    | unreadable broken asked =>
      rw [bind_error hres]
      exact .refused (.refl s)
    | @located h looks fresh trusted =>
      have hlooks : s.Looks (s.withHandle h) := .withHandle looks
      rw [bind_ok hres]
      cases hfound : (s.withHandle h).found? key with
      | none => exact .missed hlooks hfound (fresh (Or.inr hfound))
      | some span => exact readFound_read hlooks (.found hfound)

/-- **A delete that looked its key up** under the lock of its record. -/
theorem deleteLocked_deleted {act : SessionM Locked} (hlooked : Looked s waited key (act s₀)) :
    Deleted s key waited ((act >>= deleteLocked key) s₀) := by
  generalize hact : act s₀ = result at hlooked
  cases hlooked with
  | failed looks blamed =>
    rw [bind_error hact]
    exact .refused looks
  | absent looks missing fresh =>
    rw [bind_ok hact]
    exact .missed looks missing fresh
  | @granted s' span looks aims lockable trusted =>
    rw [bind_ok hact]
    unfold deleteLocked
    dsimp only
    rw [modify_bind, bind_ok (unlock_eq _ lockable), modify_bind]
    exact .killed looks aims (.mk _)
  | busy looks found =>
    rw [bind_ok hact]
    exact .waiting (.of_found looks found rfl rfl rfl ⟨by rintro request ⟨⟩, by rintro o ⟨⟩⟩)

/-- **A resort under the structural lock.** -/
theorem resortLocked_sorted {s₁ : Session} (hlooks : s.Looks s₁) (hs : s₁.Mapped) :
    Sorted s waited (resortLocked s₁) := by
  unfold resortLocked
  rcases refresh_cases hs with ⟨hbroken, hr⟩ | ⟨changed, h, hr, hlook, hfresh⟩
  · have hresort : resort s₁ = .error .invalidHeader s₁ := bind_error hr
    rw [bind_ok (unlockingStructure_error hresort)]
    exact .refused (hlooks.trans (s₁.relocks_free structuralOffset).looks)
  · have hresort : resort s₁ = .ok () (s₁.withHandle h).sort := bind_ok hr
    rw [bind_ok (unlockingStructure_ok hresort)]
    exact .sorted (hlooks.trans (.withHandle hlook)) hfresh (Session.relocks_free _ _)

/-! ## All calls -/

/-- A computation that only looks and never waits. -/
theorem glanced_of_onlyLooks {call : Call} {α : Type} {act : SessionM α} (f : α → Answer)
    (h : OnlyLooks act) (s : Session) :
    Glanced s call waited ((act >>= fun a => answer (f a)) s) := by
  have hlooks := h s
  cases hact : act s with
  | ok a s' =>
    rw [final_ok hact] at hlooks
    rw [bind_ok hact]
    exact .answered hlooks
  | error e s' =>
    rw [final_error hact] at hlooks
    rw [bind_error hact]
    exact .refused hlooks

theorem onlyRelocks_counter (offset : Nat) : OnlyRelocks (counter offset) := by
  intro s
  unfold final
  rw [counter_eq_match]
  cases Header.counterAt? s.data offset <;> exact .refl s

/-- The record at an offset is answered, if there is one. -/
theorem decodeAt_glanced {call : Call} (s : Session) (offset : Nat) (locked : Bool) :
    Glanced s call waited (decodeAt offset locked s) := by
  unfold decodeAt
  rw [get_bind]
  cases Record.decode s.data offset with
  | ok r => exact .answered (.refl s)
  | error e =>
    cases locked with
    | false => exact .answered (.refl s)
    | true => exact glanced_of_onlyLooks (fun _ => .record none) (onlyRelocks_unlock offset).onlyLooks s

/-- What was seen before a stretch that only looks belongs to it. -/
theorem glanced_of_looks {s₁ : Session} {call : Call}
    {result : EStateM.Result Error Session Progress} (hlooks : s.Looks s₁)
    (h : Glanced s₁ call none result) : Glanced s call none result := by
  cases h with
  | waiting waits =>
    exact .waiting ⟨hlooks.trans waits.looks, waits.same, waits.span, waits.sane⟩
  | refused looks => exact .refused (hlooks.trans looks)
  | answered looks => exact .answered (hlooks.trans looks)

theorem onlyLooks_bind_glanced {call : Call} {α : Type} {act : SessionM α}
    {next : α → SessionM Progress} (h : OnlyLooks act)
    (hnext : ∀ a s', Glanced s' call none (next a s')) (s : Session) :
    Glanced s call none ((act >>= next) s) := by
  have hlooks := h s
  cases hact : act s with
  | ok a s' =>
    rw [final_ok hact] at hlooks
    rw [bind_ok hact]
    exact glanced_of_looks hlooks (hnext a s')
  | error e s' =>
    rw [final_error hact] at hlooks
    rw [bind_error hact]
    exact .refused hlooks

theorem readMapped_glanced (s : Session) (offset : Nat) (keepLock : Bool) :
    Glanced s (.readAt offset keepLock) none (readMapped offset keepLock s) := by
  unfold readMapped
  rw [get_bind]
  split
  · exact .answered (.refl s)
  · split
    · next hkeep =>
      refine onlyLooks_bind_glanced (onlyRelocks_acquireRecord offset).onlyLooks ?_ s
      intro granted s'
      cases granted with
      | true => exact decodeAt_glanced s' offset true
      | false =>
        refine .waiting ⟨.refl s', ?_, by rintro span ⟨⟩, ⟨by rintro request ⟨⟩, by rintro o ⟨⟩⟩⟩
        rw [hkeep]
        rfl
    · exact decodeAt_glanced s offset false

theorem readAt_glanced (s : Session) (offset : Nat) (keepLock : Bool) :
    Glanced s (.readAt offset keepLock) none (readAt offset keepLock s) := by
  rw [readAt_eq, get_bind]
  split
  · exact onlyLooks_bind_glanced onlyLooks_refresh
      (fun _ s' => readMapped_glanced s' offset keepLock) s
  · exact readMapped_glanced s offset keepLock

end SessionM

open SessionM in
/-- **Every call from its beginning**, on any file. -/
theorem Call.start_ran {s : Session} (hs : s.Mapped) (hlock : s.Lockable) (call : Call) :
    Ran s none call (call.start s) := by
  cases call with
  | write request => exact .write (write_wrote hs hlock request)
  | delete key => exact .delete (deleteLocked_deleted (locateLocking_looked hs key))
  | read key part keepLock => exact .read (read_read hs key part keepLock)
  | resort =>
    refine .resort ?_
    have htry := tryLock_eq s structural_lockFault?
    show Sorted s none ((tryLock structuralOffset .exclusive >>= fun granted =>
      if granted = true then resortLocked else wait .resorting) s)
    split at htry
    · rw [bind_ok htry]
      exact .waiting ⟨.refl s, rfl, by rintro span ⟨⟩, ⟨by rintro request ⟨⟩, by rintro o ⟨⟩⟩⟩
    · rw [bind_ok htry]
      have hrel : s.Relocks (s.hold structuralOffset) := .mk _
      exact resortLocked_sorted hrel.looks (hs.of_looks hrel.looks)
  | readAt offset keepLock => exact .glance rfl (readAt_glanced s offset keepLock)
  | records =>
    refine .glance rfl (onlyLooks_bind_glanced onlyLooks_refresh ?_ s)
    intro _ s'
    exact .answered (.refl s')
  | appendSeq =>
    exact .glance rfl (glanced_of_onlyLooks .count (onlyRelocks_counter _).onlyLooks s)
  | sinceSort =>
    exact .glance rfl (glanced_of_onlyLooks .count (onlyRelocks_counter _).onlyLooks s)
  | refresh => exact .glance rfl (glanced_of_onlyLooks .flag onlyLooks_refresh s)
  | lock offset =>
    refine .glance rfl (onlyLooks_bind_glanced (onlyRelocks_acquireRecord offset).onlyLooks ?_ s)
    intro granted s'
    cases granted with
    | true => exact .answered (.refl s')
    | false =>
      exact .waiting ⟨.refl s', rfl, by rintro span ⟨⟩, ⟨by rintro request ⟨⟩, by rintro o ⟨⟩⟩⟩
  | unlock offset =>
    exact .glance rfl (glanced_of_onlyLooks (fun _ => .done) (onlyRelocks_unlock offset).onlyLooks s)

/-- A stretch that is refused the lock that it waits for goes on waiting. -/
theorem Stage.waits_again {s : Session} {stage : Stage} (hsane : stage.Sane) :
    Waits s s stage.call stage.span? stage :=
  ⟨.refl s, rfl, fun _ h => Or.inl h, hsane⟩

open SessionM in
/-- **Every call on from where it waits**, on any file. -/
theorem Stage.resume_ran {s : Session} (hs : s.Mapped) (hlock : s.Lockable) {stage : Stage}
    (hsane : stage.Sane) : Ran s stage.span? stage.call (stage.resume s) := by
  unfold Stage.resume
  cases hfault : lockFault? stage.offset with
  | some fault =>
    have htry : tryLock stage.offset .exclusive s = .error (.lock fault) s := by
      unfold tryLock
      rw [hfault]
      rfl
    rw [bind_error htry]
    cases stage with
    | reading key part span => exact .read (.refused (.refl s))
    | readingAt offset => exact .glance rfl (.refused (.refl s))
    | locking offset => exact .glance rfl (.refused (.refl s))
    | writing request span => exact .write (.refused (.refl s) fun he => by cases he)
    | deleting key span => exact .delete (.refused (.refl s))
    | appending request held => exact .write (.refused (.refl s) fun he => by cases he)
    | resorting => exact .resort (.refused (.refl s))
  | none =>
    have htry := tryLock_eq s hfault
    have hwaits := Stage.waits_again (s := s) hsane
    split at htry
    · rw [bind_ok htry]
      cases stage with
      | reading key part span => exact .read (.waiting hwaits)
      | readingAt offset => exact .glance rfl (.waiting hwaits)
      | locking offset => exact .glance rfl (.waiting hwaits)
      | writing request span => exact .write (.waiting hwaits)
      | deleting key span => exact .delete (.waiting hwaits)
      | appending request held => exact .write (.waiting hwaits)
      | resorting => exact .resort (.waiting hwaits)
    · rw [bind_ok htry]
      have hrel : s.Relocks (s.hold stage.offset) := .mk _
      have hheld := hs.of_looks hrel.looks
      cases stage with
      | reading key part span =>
        exact .read (readLocked_read ((recheck_looked hheld key hfault).of_relocks hrel))
      | readingAt offset =>
        have hglanced : Glanced _ (.readAt offset true) none _ :=
          decodeAt_glanced (s.hold (Stage.readingAt offset).offset) offset true
        exact .glance rfl (glanced_of_looks hrel.looks hglanced)
      | locking offset => exact .glance rfl (.answered hrel.looks)
      | writing request span =>
        exact .write (writeLocked_wrote hs hlock (hsane.request request rfl)
          ((recheck_looked hheld request.key hfault).of_relocks hrel))
      | deleting key span =>
        exact .delete (deleteLocked_deleted ((recheck_looked hheld key hfault).of_relocks hrel))
      | appending request held =>
        have hled := (Session.Led.refl s request.key).relocks hrel
        exact .write (appendLocked_wrote hled hheld (hlock.of_looks hrel.looks)
          fun o ho => hsane.held o ho)
      | resorting => exact .resort (resortLocked_sorted hrel.looks hheld)

end RecordStore
