import Mathlib.Tactic.Common
import RecordStore.Proofs.Endings

/-!
# What a failed call leaves locked

Whatever a file holds, and whatever is written to it meanwhile, a call that fails gives up what it has
locked, with one exception: a locked read, or a write of a field, that has found and locked the record
of its key and then cannot read it.

* `Stage.Owes` — what a waiting call has locked, and can give up.
* `Call.Locates` — a stretch has found and locked the record that it goes on to read.
* `Session.Meanwhile`, `Course` — what happens while a call waits; how a call comes to a stretch.

Principal results: `Call.stretch_brings` — every stretch of every call; `failed_call_locks` — every
failure of every call.
-/

set_option autoImplicit false

namespace RecordStore

/-! ## Writing -/

/-- The record lock that a write has taken itself. -/
def LockMode.owed (mode : LockMode) (held : Option Nat) : List Nat :=
  if mode.acquires then held.toList else []

theorem LockMode.owed_of_not_acquires {mode : LockMode} (h : ¬ mode.acquires = true) (held : Option Nat) :
    mode.owed held = [] := if_neg h

/-- The record lock that a waiting call has taken itself. -/
def Stage.owed : Stage → List Nat
  | .appending request held => request.mode.owed held
  | _ => []

/-- What a stage knows about the locks of its call. -/
structure Stage.Owes (stage : Stage) (s s₀ : Session) : Prop where
  holds : s.Holds s₀ stage.owed
  lockable : ∀ p ∈ stage.owed, lockFault? p = none
  inside : ∀ p, stage.held? = some p → p ≤ s.file.bytes.length
  acquires : ∀ request span, stage = .writing request span → request.mode.acquires = true

theorem lockFault?_of_le {offset larger : Nat} (hle : offset ≤ larger)
    (h : lockFault? larger = none) : lockFault? offset = none := by
  unfold lockFault? at h ⊢
  split at h
  · cases h
  · split at h
    · cases h
    · rw [if_neg (by omega), if_neg (by omega)]

namespace SessionM

variable {s s₀ : Session} {request : WriteRequest} {held : Option Nat}

/-- The stages of a call know about its locks. -/
def Owing (call : Call) (s₀ : Session) (progress : Progress) (s : Session) : Prop :=
  ∀ stage, progress = .waiting stage → stage.call = call ∧ stage.Owes s s₀

theorem owing_answered {call : Call} {a : Answer} : Owing call s₀ (.answered a) s := by
  rintro stage ⟨⟩

theorem owing_waiting (stage : Stage) (h : stage.Owes s s₀) : Owing stage.call s₀ (.waiting stage) s := by
  rintro _ ⟨⟩
  exact ⟨rfl, h⟩

/-- Giving up the lock that a call may hold. -/
theorem forM_unlock_holds {offsets offsets' : List Nat} (h : s.Holds s₀ offsets)
    (hfault : ∀ p, held = some p → lockFault? p = none)
    (hsub : offsets ⊆ held.toList ++ offsets') :
    Brings (held.forM unlock : SessionM PUnit) s (fun _ s' => s'.Holds s₀ offsets')
      (fun _ _ => False) := by
  cases held with
  | none => exact .of_ok rfl (h.mono hsub)
  | some p => exact unlock_brings h (hfault p rfl) hsub

/-- Giving up the record lock that a write knows of gives up the one that it has taken itself.  It can
only fail at a lock that the write has not taken. -/
theorem forM_unlock_owed {offsets : List Nat} (h : s.Holds s₀ (offsets ++ request.mode.owed held))
    (hfault : ∀ p ∈ request.mode.owed held, lockFault? p = none) :
    Brings (held.forM unlock : SessionM PUnit) s (fun _ s' => s'.Holds s₀ offsets)
      (fun _ s' => s'.Holds s₀ offsets ∧ ∃ p, held = some p ∧ lockFault? p ≠ none) := by
  cases held with
  | none =>
    refine .of_ok rfl (h.mono fun x hx => ?_)
    rw [LockMode.owed, Option.toList_none, ite_self, List.append_nil] at hx
    exact hx
  | some p =>
    by_cases hacq : request.mode.acquires = true
    · rw [LockMode.owed, if_pos hacq] at h hfault
      refine (unlock_brings h (hfault p (List.mem_singleton_self p)) ?_).mono (fun _ _ => id) (by simp)
      intro x hx
      rcases List.mem_append.1 hx with hx | hx
      · exact List.mem_cons_of_mem _ hx
      · exact List.mem_cons.2 (Or.inl (List.mem_singleton.1 hx))
    · rw [LockMode.owed_of_not_acquires hacq, List.append_nil] at h
      exact (unlock_tries h p).mono (fun _ _ => id) fun _ _ ⟨h', hp⟩ => ⟨h', p, rfl, hp⟩

/-- The lock of a new record is given up by the mode. -/
theorem release_brings {appended : Option Nat} (h : s.Holds s₀ appended.toList)
    (hfault : ∀ p, appended = some p → lockFault? p = none) :
    Brings (do
      if request.mode.releases then appended.forM unlock
      answer .done : SessionM Progress) s (Owing (.write request) s₀) (fun _ s' => s'.Holds s₀ []) := by
  split
  · have hsub : appended.toList ⊆ appended.toList ++ [] := List.subset_append_left _ _
    exact ((forM_unlock_holds h hfault hsub).mono (fun _ _ => id) (by simp)).bind
      fun _ s' _ => .of_ok rfl owing_answered
  · exact .of_ok rfl owing_answered

/-- **A write under the structural lock** gives up what it has taken, if it fails. -/
theorem appendLocked_brings (h : s.Holds s₀ (structuralOffset :: request.mode.owed held))
    (hfault : ∀ p ∈ request.mode.owed held, lockFault? p = none)
    (hinside : ∀ p, held = some p → p ≤ s.file.bytes.length) :
    Brings (appendLocked request held) s (Owing (.write request) s₀)
      (fun _ s' => s'.Holds s₀ []) := by
  unfold appendLocked
  refine ((unlockingStructure_brings
    (appendRecord_brings h request.key request.field)).mono (fun _ _ => id) (by simp)).bind ?_
  rintro (e | appended) s' h'
  · have h'' : s'.Holds s₀ ([] ++ request.mode.owed held) := h'
    dsimp only
    split
    · exact ((forM_unlock_owed h'' hfault).mono (fun _ _ => id) fun _ _ => And.left).bind
        fun _ _ hholds => .of_error rfl hholds
    · next hkeep =>
      have hacq : ¬ request.mode.acquires = true := by
        rw [not_not.1 hkeep]
        decide
      rw [LockMode.owed_of_not_acquires hacq] at h'
      exact .of_error rfl h'
  · obtain ⟨hholds, hnew⟩ := h'
    refine ((forM_unlock_owed hholds hfault).mono (fun _ _ => id) ?_).bind
      fun _ s'' h'' => release_brings h'' fun p hp => (hnew p hp).1
    -- a record too far out to be locked leaves no room for a line behind it
    rintro _ s'' ⟨h'', p, hp, hfar⟩
    cases appended with
    | none => exact h''
    | some offset =>
      obtain ⟨hoffset, hle⟩ := hnew offset rfl
      exact absurd (lockFault?_of_le (Nat.le_trans (hinside p hp) hle) hoffset) hfar

theorem append_brings (h : s.Holds s₀ (request.mode.owed held))
    (hfault : ∀ p ∈ request.mode.owed held, lockFault? p = none)
    (hinside : ∀ p, held = some p → p ≤ s.file.bytes.length) :
    Brings (append request held) s (Owing (.write request) s₀) (fun _ s' => s'.Holds s₀ []) :=
  .of_structural (appendLocked_brings (h.hold structuralOffset) hfault hinside)
    (.of_ok rfl (owing_waiting (.appending request held) ⟨h, hfault, hinside, by rintro _ _ ⟨⟩⟩))

/-- How a call fails: with nothing left locked, or with the lock of a record that it could not read. -/
def Fails (s₀ : Session) (located : Span → Session → Prop) (e : Error) (s : Session) : Prop :=
  s.Holds s₀ [] ∨ ∃ span, located span s ∧ Record.decode s.data span.offset = .error e ∧
    s.Holds s₀ [span.offset]

theorem finishInPlace_brings {span : Span} (h : s.Holds s₀ (request.mode.owed (some span.offset)))
    (hfault : ∀ p ∈ request.mode.owed (some span.offset), lockFault? p = none) :
    Brings (finishInPlace request span) s (Owing (.write request) s₀) (fun _ s' => s'.Holds s₀ []) := by
  unfold finishInPlace
  split
  · by_cases hacq : request.mode.acquires = true
    · rw [LockMode.owed, if_pos hacq] at h hfault
      refine ((unlock_brings h (hfault _ (List.mem_singleton_self _)) (List.Subset.refl _)).mono
        (fun _ _ => id) (by simp)).bind ?_
      exact fun _ s' _ => .of_ok rfl owing_answered
    · rw [LockMode.owed_of_not_acquires hacq] at h
      exact (unlock_holds h span.offset).bind fun _ s' _ => .of_ok rfl owing_answered
  · exact .of_ok rfl owing_answered

/-- **A write to a record that is there** keeps its lock if the record cannot be read. -/
theorem update_brings {span : Span} (h : s.Holds s₀ (request.mode.owed (some span.offset)))
    (hfault : ∀ p ∈ request.mode.owed (some span.offset), lockFault? p = none)
    (hinside : span.offset ≤ s.file.bytes.length) {located : Span → Session → Prop}
    (hlocated : request.mode.acquires = true → request.field ≠ none → located span s) :
    Brings (update request span) s (Owing (.write request) s₀) (Fails s₀ located) := by
  have happend : Brings (append request (some span.offset)) s (Owing (.write request) s₀)
      (Fails s₀ located) := by
    refine (append_brings h hfault ?_).mono (fun _ _ => id) fun _ _ => Or.inl
    rintro p ⟨⟩
    exact hinside
  unfold update
  cases hfield : request.field with
  | none => exact (finishInPlace_brings h hfault).mono (fun _ _ => id) fun _ _ => Or.inl
  | some field =>
    dsimp only
    refine ((recordAt_brings s span).mono (fun _ _ => id) ?_).bind ?_
    · rintro e _ ⟨rfl, hdec⟩
      by_cases hacq : request.mode.acquires = true
      · rw [LockMode.owed, if_pos hacq] at h
        exact Or.inr ⟨span, hlocated hacq (by simp [hfield]), hdec, h⟩
      · rw [LockMode.owed_of_not_acquires hacq] at h
        exact Or.inl h
    · rintro r _ rfl
      cases r.fieldSpan? field.name with
      | none => exact happend
      | some place =>
        dsimp only
        split
        · refine .modify_bind ((finishInPlace_brings ((h.write _).withHandle _) hfault).mono
            (fun _ _ => id) fun _ _ => Or.inl)
        · exact happend

/-- **A write that looked its key up** under the lock of its record. -/
theorem writeLocked_brings {locked : Locked} (h : locked.Holds s s₀ [])
    (hacq : request.mode.acquires = true) {located : Span → Session → Prop}
    (hlocated : ∀ span, locked = .granted span → request.field ≠ none → located span s) :
    Brings (writeLocked request locked) s (Owing (.write request) s₀) (Fails s₀ located) := by
  have howed : ∀ held : Option Nat, request.mode.owed held = held.toList := fun held => if_pos hacq
  cases locked with
  | absent =>
    have happend : Brings (append request none) s (Owing (.write request) s₀)
        (fun _ s' => s'.Holds s₀ []) := by
      refine append_brings (by rw [howed]; exact h) ?_ (by rintro p ⟨⟩)
      rw [howed]
      rintro p ⟨⟩
    exact happend.mono (fun _ _ => id) fun _ _ => Or.inl
  | granted span =>
    obtain ⟨hholds, hfault, hinside, -⟩ := h
    refine update_brings (by rw [howed]; exact hholds) ?_ hinside fun _ => hlocated span rfl
    rw [howed]
    intro p hp
    rw [List.mem_singleton.1 hp]
    exact hfault
  | busy span =>
    refine .of_ok rfl (owing_waiting (.writing request span)
      ⟨h, by rintro p ⟨⟩, by rintro p ⟨⟩, ?_⟩)
    rintro _ _ ⟨⟩
    exact hacq

/-! ## Reading, deleting and sorting -/

/-- What comes to rest, or fails with nothing left locked. -/
theorem onlySees_answers {call : Call} {α : Type} {act : SessionM α} {f : α → Answer}
    (hsees : OnlySees act) (h : s.Holds s₀ []) : Brings (act >>= fun a => answer (f a)) s
      (Owing call s₀) (fun _ s' => s'.Holds s₀ []) :=
  (hsees.holds h).bind fun _ _ _ => .of_ok rfl owing_answered

/-- **A lookup that locks** keeps the lock of a record that it cannot read. -/
theorem readLocked_brings {key : Bytes} {part : Part} {locked : Locked} (h : locked.Holds s s₀ [])
    {located : Span → Session → Prop} (hlocated : ∀ span, locked = .granted span → located span s) :
    Brings (readLocked key part locked) s (Owing (.read key part true) s₀) (Fails s₀ located) := by
  cases locked with
  | absent => exact .of_ok rfl owing_answered
  | granted span =>
    refine ((recordAt_brings s span).mono (fun _ _ => id) ?_).bind
      fun r s' _ => .of_ok rfl owing_answered
    rintro e _ ⟨rfl, hdec⟩
    exact Or.inr ⟨span, hlocated span rfl, hdec, h.1⟩
  | busy span =>
    refine .of_ok rfl (owing_waiting (.reading key part span)
      ⟨h, by rintro p ⟨⟩, by rintro p ⟨⟩, ?_⟩)
    rintro _ _ ⟨⟩

theorem decodeAt_brings {call : Call} {offset : Nat} {locked : Bool}
    (h : s.Holds s₀ (if locked then [offset] else []))
    (hfault : locked = true → lockFault? offset = none) :
    Brings (decodeAt offset locked) s (Owing call s₀) (fun _ s' => s'.Holds s₀ []) := by
  unfold decodeAt
  refine .get_bind ?_
  split
  · exact .of_ok rfl owing_answered
  · split
    · next hlocked =>
      rw [if_pos hlocked] at h
      refine ((unlock_brings h (hfault hlocked) (List.Subset.refl _)).mono (fun _ _ => id)
        (by simp)).bind ?_
      exact fun _ _ _ => .of_ok rfl owing_answered
    · exact .of_ok rfl owing_answered

theorem readMapped_brings (h : s.Holds s₀ []) (offset : Nat) (keepLock : Bool) :
    Brings (readMapped offset keepLock) s (Owing (.readAt offset keepLock) s₀)
      (fun _ s' => s'.Holds s₀ []) := by
  unfold readMapped
  refine .get_bind ?_
  dsimp only
  split
  · exact .of_ok rfl owing_answered
  · split
    · next hkeep =>
      subst hkeep
      exact .of_acquireRecord (fun hfault => decodeAt_brings (h.hold offset) fun _ => hfault)
        (.of_ok rfl (owing_waiting (.readingAt offset)
          ⟨h, by rintro p ⟨⟩, by rintro p ⟨⟩, by rintro _ _ ⟨⟩⟩)) fun _ => h
    · exact decodeAt_brings h (by rintro ⟨⟩)

theorem readAt_brings (h : s.Holds s₀ []) (offset : Nat) (keepLock : Bool) :
    Brings (readAt offset keepLock) s (Owing (.readAt offset keepLock) s₀)
      (fun _ s' => s'.Holds s₀ []) := by
  rw [readAt_eq]
  refine .get_bind ?_
  split
  · exact (onlySees_refresh.holds h).bind fun _ s' h' => readMapped_brings h' offset keepLock
  · exact readMapped_brings h offset keepLock

/-- **A delete** gives up the lock of the record that it kills. -/
theorem deleteLocked_brings {key : Bytes} {locked : Locked} (h : locked.Holds s s₀ []) :
    Brings (deleteLocked key locked) s (Owing (.delete key) s₀) (fun _ s' => s'.Holds s₀ []) := by
  cases locked with
  | absent => exact .of_ok rfl owing_answered
  | granted span =>
    obtain ⟨hholds, hfault, -⟩ := h
    have hfreed : Brings (unlock span.offset) (s.write ⟨span.offset, [deadFlag]⟩).forget
        (fun _ s' => s'.Holds s₀ []) (fun _ _ => False) :=
      unlock_brings ((hholds.write _).withHandle _) hfault (List.Subset.refl _)
    refine .modify_bind ((hfreed.mono (fun _ _ => id) (by simp)).bind ?_)
    exact fun _ s' _ => .modify_bind (.of_ok rfl owing_answered)
  | busy span =>
    refine .of_ok rfl (owing_waiting (.deleting key span)
      ⟨h, by rintro p ⟨⟩, by rintro p ⟨⟩, ?_⟩)
    rintro _ _ ⟨⟩

/-- **A sort** gives up the structural lock. -/
theorem resortLocked_brings (h : s.Holds s₀ [structuralOffset]) :
    Brings resortLocked s (Owing .resort s₀) (fun _ s' => s'.Holds s₀ []) := by
  have hsorts : Brings resort s
      (fun _ s' => s'.Holds s₀ ([] ++ structuralOffset :: []) ∧ True)
      (fun _ s' => s'.Holds s₀ [structuralOffset]) :=
    (onlySees_refresh.holds h).bind fun _ _ h' =>
      .of_ok rfl ⟨(h'.writeAll _).withHandle _, trivial⟩
  unfold resortLocked
  refine ((unlockingStructure_brings hsorts).mono (fun _ _ => id) (by simp)).bind ?_
  rintro (e | ⟨⟩) s' h'
  · exact .of_error rfl h'
  · exact .of_ok rfl owing_answered

end SessionM

/-! ## Stretches -/

open SessionM in
/-- The stretch has found and locked the record that it goes on to read. -/
inductive Call.Locates : Call → Option Stage → Session → Span → Session → Prop where
  | read {key : Bytes} {part : Part} {s s' : Session} {span : Span}
    (found : locateLocking key .ifMissing s = .ok (.granted span) s') :
    Locates (.read key part true) none s span s'
  | reading {key : Bytes} {part : Part} {s s₁ s' : Session} {waited span : Span}
    (locked : tryLock waited.offset .exclusive s = .ok true s₁)
    (found : recheck key waited s₁ = .ok (.granted span) s') :
    Locates (.read key part true) (some (.reading key part waited)) s span s'
  | write {request : WriteRequest} {s s' : Session} {span : Span}
    (sound : requestFault? request = none) (acquires : request.mode.acquires = true)
    (named : request.field ≠ none)
    (found : locateLocking request.key .ifMissing s = .ok (.granted span) s') :
    Locates (.write request) none s span s'
  | writing {request : WriteRequest} {s s₁ s' : Session} {waited span : Span}
    (named : request.field ≠ none) (locked : tryLock waited.offset .exclusive s = .ok true s₁)
    (found : recheck request.key waited s₁ = .ok (.granted span) s') :
    Locates (.write request) (some (.writing request waited)) s span s'

section Stretches

open SessionM

variable {s s₀ : Session}

/-- **A write from its beginning.** -/
theorem SessionM.write_brings (h : s.Holds s₀ []) (request : WriteRequest) :
    Brings (SessionM.write request) s (Owing (.write request) s₀)
      (Fails s₀ ((Call.write request).Locates none s)) := by
  unfold SessionM.write
  cases hreq : requestFault? request with
  | some fault => exact .of_error rfl (Or.inl h)
  | none =>
    dsimp only
    split
    · next hacq =>
      refine ((locateLocking_brings h request.key .ifMissing).with_eq.mono (fun _ _ => id)
        fun _ _ => Or.inl).bind ?_
      rintro locked s' ⟨hfound, h'⟩
      refine writeLocked_brings h' hacq ?_
      rintro span rfl hnamed
      exact .write hreq hacq hnamed hfound
    · next hacq =>
      have howed : ∀ held : Option Nat, request.mode.owed held = [] := LockMode.owed_of_not_acquires hacq
      have hnone : ∀ held : Option Nat, ∀ p ∈ request.mode.owed held, lockFault? p = none := by
        intro held
        rw [howed]
        rintro p ⟨⟩
      refine ((locate_brings s request.key .ifMissing).mono (fun _ _ => id)
        fun _ _ hsame => Or.inl (h.frame hsame)).bind ?_
      rintro found s' ⟨hsame, hle⟩
      have h' := h.frame hsame
      cases found with
      | none =>
        exact (append_brings (by rw [howed]; exact h') (hnone none) (by rintro p ⟨⟩)).mono
          (fun _ _ => id) fun _ _ => Or.inl
      | some span =>
        exact update_brings (by rw [howed]; exact h') (hnone _) (hle span rfl)
          fun hacq' => absurd hacq' hacq

/-- **Every call from its beginning.** -/
theorem Call.start_brings (h : s.Holds s₀ []) (call : Call) :
    Brings call.start s (Owing call s₀) (Fails s₀ (call.Locates none s)) := by
  have hleft : ∀ {act : SessionM Progress}, Brings act s (Owing call s₀) (fun _ s' => s'.Holds s₀ []) →
      Brings act s (Owing call s₀) (Fails s₀ (call.Locates none s)) :=
    fun hact => hact.mono (fun _ _ => id) fun _ _ => Or.inl
  cases call with
  | read key part keepLock =>
    show Brings (SessionM.read key part keepLock) s _ _
    unfold SessionM.read
    split
    · next hkeep =>
      subst hkeep
      refine ((locateLocking_brings h key .ifMissing).with_eq.mono (fun _ _ => id)
        fun _ _ => Or.inl).bind ?_
      rintro locked s' ⟨hfound, h'⟩
      refine readLocked_brings h' ?_
      rintro span rfl
      exact .read hfound
    · refine hleft (Brings.bind ((onlySees_locate key .ifMissing).holds h) ?_)
      rintro (_ | span) s' h'
      · exact .of_ok rfl owing_answered
      · exact onlySees_answers (onlySees_recordAt span) h'
  | readAt offset keepLock => exact hleft (readAt_brings h offset keepLock)
  | records =>
    exact hleft ((onlySees_refresh.holds h).bind fun _ _ _ => .of_ok rfl owing_answered)
  | appendSeq => exact hleft (onlySees_answers (onlySees_counter _) h)
  | sinceSort => exact hleft (onlySees_answers (onlySees_counter _) h)
  | refresh => exact hleft (onlySees_answers onlySees_refresh h)
  | lock offset =>
    exact hleft (.of_acquireRecord (fun _ => .of_ok rfl owing_answered)
      (.of_ok rfl (owing_waiting (.locking offset)
        ⟨h, by rintro p ⟨⟩, by rintro p ⟨⟩, by rintro _ _ ⟨⟩⟩)) fun _ => h)
  | unlock offset =>
    exact hleft ((unlock_holds h offset).bind fun _ _ _ => .of_ok rfl owing_answered)
  | write request => exact write_brings h request
  | delete key =>
    exact hleft ((locateLocking_brings h key .ifMissing).bind fun _ _ h' => deleteLocked_brings h')
  | resort =>
    exact hleft (.of_structural (resortLocked_brings (h.hold structuralOffset))
      (.of_ok rfl (owing_waiting .resorting
        ⟨h, by rintro p ⟨⟩, by rintro p ⟨⟩, by rintro _ _ ⟨⟩⟩)))

/-- **A stage whose lock was granted.** -/
theorem Stage.granted_brings {stage : Stage} (h : stage.Owes s s₀)
    (hfault : lockFault? stage.offset = none)
    (hlocked : tryLock stage.offset .exclusive s = .ok true (s.hold stage.offset)) :
    Brings stage.granted (s.hold stage.offset) (Owing stage.call s₀)
      (Fails s₀ (stage.call.Locates (some stage) s)) := by
  have hleft : ∀ {act : SessionM Progress} {s' : Session},
      Brings act s' (Owing stage.call s₀) (fun _ s' => s'.Holds s₀ []) →
      Brings act s' (Owing stage.call s₀) (Fails s₀ (stage.call.Locates (some stage) s)) :=
    fun hact => hact.mono (fun _ _ => id) fun _ _ => Or.inl
  cases stage with
  | reading key part waited =>
    refine ((recheck_brings h.holds key waited hfault).with_eq.mono (fun _ _ => id)
      fun _ _ => Or.inl).bind ?_
    rintro locked s' ⟨hfound, h'⟩
    refine readLocked_brings h' ?_
    rintro span rfl
    exact .reading hlocked hfound
  | readingAt offset => exact hleft (decodeAt_brings (h.holds.hold offset) fun _ => hfault)
  | locking offset => exact .of_ok rfl owing_answered
  | writing request waited =>
    refine ((recheck_brings h.holds request.key waited hfault).with_eq.mono (fun _ _ => id)
      fun _ _ => Or.inl).bind ?_
    rintro locked s' ⟨hfound, h'⟩
    refine writeLocked_brings h' (h.acquires request waited rfl) ?_
    rintro span rfl hnamed
    exact .writing hnamed hlocked hfound
  | deleting key waited =>
    exact hleft ((recheck_brings h.holds key waited hfault).bind fun _ _ h' => deleteLocked_brings h')
  | appending request held =>
    exact hleft (appendLocked_brings (h.holds.hold structuralOffset) h.lockable
      fun p hp => h.inside p hp)
  | resorting => exact hleft (resortLocked_brings (h.holds.hold structuralOffset))

/-- **Every stage run on.** -/
theorem Stage.resume_brings {stage : Stage} (h : stage.Owes s s₀) :
    Brings stage.resume s (Owing stage.call s₀)
      (Fails s₀ (stage.call.Locates (some stage) s)) := by
  unfold Stage.resume
  refine ((tryLock_brings s stage.offset).with_eq.mono (fun _ _ => id) ?_).bind ?_
  · rintro _ _ ⟨rfl, hfault⟩
    -- a stage that has locked a record waits for the structural lock
    have howed : stage.owed = [] := by
      cases stage with
      | appending | resorting => exact absurd structural_lockFault? hfault
      | _ => rfl
    exact Or.inl (howed ▸ h.holds)
  · rintro granted s' ⟨htry, hfault, hs'⟩
    cases granted with
    | true =>
      obtain rfl : s' = s.hold stage.offset := hs'
      exact Stage.granted_brings h hfault htry
    | false =>
      obtain rfl : s' = s := hs'
      exact .of_ok rfl (owing_waiting stage h)

/-- **Every stretch of every call.** -/
theorem Call.stretch_brings {call : Call} {pending : Option Stage}
    (hstart : pending = none → s.Holds s₀ [])
    (hwaited : ∀ stage, pending = some stage → stage.call = call ∧ stage.Owes s s₀) :
    Brings (call.stretch pending) s (Owing call s₀) (Fails s₀ (call.Locates pending s)) := by
  cases pending with
  | none => exact Call.start_brings (hstart rfl) call
  | some stage =>
    obtain ⟨rfl, howes⟩ := hwaited stage rfl
    exact Stage.resume_brings howes

end Stretches

/-! ## Calls -/

/-- While a call waits its holder does nothing.  Anything may be written to the file, but it is not
cut short, and others may lock and unlock. -/
structure Session.Meanwhile (s s' : Session) : Prop where
  holder : s'.holder = s.holder
  handle : s'.handle = s.handle
  length_le : s.file.bytes.length ≤ s'.file.bytes.length
  locks : ∀ lock : ByteLock, lock.holder = s.holder →
    (lock ∈ s'.file.locks.held ↔ lock ∈ s.file.locks.held)

/-- How a call that began in `s₀` comes to its next stretch: it has just begun, or it has waited. -/
inductive Course (call : Call) (s₀ : Session) : Option Stage → Session → Prop where
  | begun : Course call s₀ none s₀
  | waited {pending : Option Stage} {stage : Stage} {s s₁ s' : Session}
    (before : Course call s₀ pending s) (waits : call.stretch pending s = .ok (.waiting stage) s₁)
    (meanwhile : s₁.Meanwhile s') : Course call s₀ (some stage) s'

theorem Stage.Owes.meanwhile {stage : Stage} {s s' s₀ : Session} (h : stage.Owes s s₀)
    (hwhile : s.Meanwhile s') : stage.Owes s' s₀ where
  holds :=
    { holder := hwhile.holder.trans h.holds.holder
      locks := fun lock hl hown =>
        h.holds.locks lock ((hwhile.locks lock (hown.trans h.holds.holder.symm)).1 hl) hown }
  lockable := h.lockable
  inside p hp := Nat.le_trans (h.inside p hp) hwhile.length_le
  acquires := h.acquires

namespace Course

variable {call : Call} {s₀ s : Session} {pending : Option Stage}

theorem eq_of_begun (h : Course call s₀ none s) : s = s₀ := by
  cases h
  rfl

/-- A waiting call knows about its locks. -/
theorem owes (h : Course call s₀ pending s) {stage : Stage} (hstage : pending = some stage) :
    stage.call = call ∧ stage.Owes s s₀ := by
  induction h generalizing stage with
  | begun => cases hstage
  | waited before waits meanwhile ih =>
    cases hstage
    have hbrings := Call.stretch_brings
      (fun hnone => by subst hnone; rw [before.eq_of_begun]; exact .refl s₀)
      fun stage' hstage' => ih hstage'
    obtain ⟨hcall, howes⟩ := hbrings.ok waits _ rfl
    exact ⟨hcall, howes.meanwhile meanwhile⟩

theorem brings (h : Course call s₀ pending s) : SessionM.Brings (call.stretch pending) s
    (SessionM.Owing call s₀) (SessionM.Fails s₀ (call.Locates pending s)) := by
  refine Call.stretch_brings ?_ fun stage hstage => h.owes hstage
  rintro rfl
  rw [h.eq_of_begun]
  exact .refl s₀

end Course

/-! ## Failures -/

section Locating

open SessionM

variable {call : Call} {pending : Option Stage} {s s' : Session} {span : Span}

theorem locateLocking_granted {key : Bytes} {freshness : Freshness}
    (h : locateLocking key freshness s = .ok (.granted span) s') :
    s'.file.locks.holdsExclusive s'.holder span.offset = true :=
  ((locateLocking_brings (Session.Holds.refl s) key freshness).ok h).2.2.2

theorem recheck_granted {key : Bytes} {waited : Span} {s₁ : Session}
    (hlocked : tryLock waited.offset .exclusive s = .ok true s₁)
    (h : recheck key waited s₁ = .ok (.granted span) s') :
    s'.file.locks.holdsExclusive s'.holder span.offset = true := by
  obtain ⟨hfault, rfl⟩ := (tryLock_brings s waited.offset).ok hlocked
  exact ((recheck_brings (Session.Holds.refl s) key waited hfault).ok h).2.2.2

/-- The record that a stretch goes on to read is locked. -/
theorem Call.Locates.holds (h : call.Locates pending s span s') :
    s'.file.locks.holdsExclusive s'.holder span.offset = true := by
  cases h with
  | read found => exact locateLocking_granted found
  | reading locked found => exact recheck_granted locked found
  | write sound acquires named found => exact locateLocking_granted found
  | writing named locked found => exact recheck_granted locked found

theorem update_error {request : WriteRequest} {e : Error} (hnamed : request.field ≠ none)
    (hdec : Record.decode s.data span.offset = .error e) : update request span s = .error e s := by
  obtain ⟨field, hfield⟩ := Option.ne_none_iff_exists'.1 hnamed
  unfold update
  rw [hfield]
  refine bind_error ?_
  rw [recordAt_eq_match, hdec]

theorem readLocked_error {key : Bytes} {part : Part} {e : Error}
    (hdec : Record.decode s.data span.offset = .error e) :
    readLocked key part (.granted span) s = .error e s := by
  refine bind_error ?_
  rw [recordAt_eq_match, hdec]

/-- A stretch fails if the record that it goes on to read cannot be read. -/
theorem Call.Locates.fails (h : call.Locates pending s span s') {e : Error}
    (hdec : Record.decode s'.data span.offset = .error e) : call.stretch pending s = .error e s' := by
  cases h with
  | read found =>
    show (locateLocking _ _ >>= readLocked _ _) s = _
    rw [bind_ok found]
    exact readLocked_error hdec
  | reading locked found =>
    refine (bind_ok locked).trans ?_
    show (recheck _ _ >>= readLocked _ _) _ = _
    rw [bind_ok found]
    exact readLocked_error hdec
  | write sound acquires named found =>
    show SessionM.write _ s = _
    unfold SessionM.write
    rw [sound]
    dsimp only
    rw [if_pos acquires, bind_ok found]
    exact update_error named hdec
  | writing named locked found =>
    refine (bind_ok locked).trans ?_
    show (recheck _ _ >>= writeLocked _) _ = _
    rw [bind_ok found]
    exact update_error named hdec

end Locating

/-- **A call that fails leaves nothing locked that its holder had not locked before**, whatever the file
holds and whatever is written to it meanwhile, unless it has found and locked the record that it was to
read and cannot read it.  Then it fails, and the record stays locked. -/
theorem failed_call_locks {call : Call} {s₀ s : Session} {pending : Option Stage}
    (h : Course call s₀ pending s) :
    (∀ e s', call.stretch pending s = .error e s' → s'.Holds s₀ [] ∨
      ∃ span, call.Locates pending s span s' ∧ Record.decode s'.data span.offset = .error e ∧
        s'.Holds s₀ [span.offset]) ∧
    ∀ e span s', call.Locates pending s span s' → Record.decode s'.data span.offset = .error e →
      call.stretch pending s = .error e s' ∧
        s'.file.locks.holdsExclusive s'.holder span.offset = true := by
  refine ⟨fun e s' herror => h.brings.error herror, fun e span s' hlocates hdec =>
    ⟨hlocates.fails hdec, hlocates.holds⟩⟩

/-- One client has written a record and read it; then the `:` before its key was overwritten. -/
def misreadStore : Store :=
  let store := ((Store.ofBytes [] 0).run [⟨0, 1, .opening (.ofPath Config.defaultPath)⟩,
    ⟨0, 1, .call (.write ⟨ascii ['k'], some ⟨ascii ['f'], ascii ['1']⟩, .transient⟩)⟩,
    ⟨0, 1, .call (.read (ascii ['k']) (.field (ascii ['f'])) false)⟩]).1
  { store with file := store.file.patch 0 ⟨Header.length + (keyAt - 1), ascii ['x']⟩ }

/-- What that client remembers. -/
def misreadHandle : Handle :=
  ⟨.ofPath Config.defaultPath, Header.length, 1, ⟨56, 1⟩, some ⟨1, ⟨Header.length, 21⟩⟩, true⟩

/-- Its next locked read fails, and leaves a lock that it had not before. -/
theorem failed_call_locks_of_misread : misreadStore.client? 1 = some (.idle misreadHandle) ∧
    (misreadStore.session 0 1 misreadHandle).file.locks.holdsExclusive 1 Header.length = false ∧
    ∃ s', (Call.read (ascii ['k']) (.field (ascii ['f'])) true).stretch none
        (misreadStore.session 0 1 misreadHandle) = .error (.malformed Header.length .colon) s' ∧
      s'.file.locks.holdsExclusive 1 Header.length = true := by
  refine ⟨by decide +kernel, by decide +kernel, ?_⟩
  have hlocks : (match SessionM.locateLocking (ascii ['k']) .ifMissing
        (misreadStore.session 0 1 misreadHandle) with
      | .ok (.granted span) s => decide (span.offset = Header.length ∧ s.holder = 1 ∧
          Record.decode s.data span.offset = .error (.malformed Header.length .colon))
      | _ => false) = true := by decide +kernel
  split at hlocks
  · next span s hfound =>
    obtain ⟨hoffset, hholder, hdec⟩ := of_decide_eq_true hlocks
    have hcourse : Course (.read (ascii ['k']) (.field (ascii ['f'])) true)
        (misreadStore.session 0 1 misreadHandle) none (misreadStore.session 0 1 misreadHandle) := .begun
    obtain ⟨hfails, hheld⟩ := (failed_call_locks hcourse).2 _ _ _ (.read hfound) hdec
    rw [hoffset, hholder] at hheld
    exact ⟨s, hfails, hheld⟩
  · cases hlocks

end RecordStore
