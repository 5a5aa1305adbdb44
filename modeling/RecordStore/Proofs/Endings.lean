import Mathlib.Tactic.Common
import RecordStore.Proofs.Turns

/-!
# What a stretch has locked when it ends

Each step of a stretch can say which locks its holder has beyond those it had before, whether the step
succeeds or fails, and whatever the file holds and whatever its length.

* `SessionM.Brings` — what a computation ends in, with the error that it fails with.
* `SessionM.OnlySees` — a computation that touches neither the file nor its locks.
* `Session.SameLocks` — a session has the locks of another one.
* `Session.Holds` — what a call has locked beyond what its holder had before it.

Principal results: `locateLocking_takes`, `recheck_brings` — a lookup locks nothing but the record it
found; `appendRecord_takes` — an append locks nothing but its new line; `unlockingStructure_brings` —
the structural lock is given up in any case.
-/

set_option autoImplicit false

namespace RecordStore

/-! ## Endings -/

namespace SessionM

/-- From this session a computation ends in one with `post`, or it fails with an error and in a session
with `fail`. -/
def Brings {α : Type} (act : SessionM α) (s : Session) (post : α → Session → Prop)
    (fail : Error → Session → Prop) : Prop :=
  match act s with
  | .ok a s' => post a s'
  | .error e s' => fail e s'

namespace Brings

variable {α β : Type} {act : SessionM α} {s : Session} {post post' : α → Session → Prop}
  {fail fail' : Error → Session → Prop}

theorem of_ok {a : α} {s' : Session} (h : act s = .ok a s') (hpost : post a s') :
    Brings act s post fail := by
  unfold Brings
  rw [h]
  exact hpost

theorem of_error {e : Error} {s' : Session} (h : act s = .error e s') (hfail : fail e s') :
    Brings act s post fail := by
  unfold Brings
  rw [h]
  exact hfail

theorem ok (h : Brings act s post fail) {a : α} {s' : Session} (hact : act s = .ok a s') : post a s' := by
  unfold Brings at h
  rwa [hact] at h

theorem error (h : Brings act s post fail) {e : Error} {s' : Session} (hact : act s = .error e s') :
    fail e s' := by
  unfold Brings at h
  rwa [hact] at h

theorem mono (h : Brings act s post fail) (hpost : ∀ a s', post a s' → post' a s')
    (hfail : ∀ e s', fail e s' → fail' e s') : Brings act s post' fail' := by
  cases hact : act s with
  | ok a s' => exact .of_ok hact (hpost a s' (h.ok hact))
  | error e s' => exact .of_error hact (hfail e s' (h.error hact))

/-- **One step after the other.** -/
theorem bind {next : α → SessionM β} {last : β → Session → Prop} (h : Brings act s post fail)
    (hnext : ∀ a s', post a s' → Brings (next a) s' last fail) :
    Brings (act >>= next) s last fail := by
  cases hact : act s with
  | ok a s' =>
    unfold Brings
    rw [bind_ok hact]
    exact hnext a s' (h.ok hact)
  | error e s' => exact of_error (bind_error hact) (h.error hact)

theorem get_bind {next : Session → SessionM α} (h : Brings (next s) s post fail) :
    Brings (get >>= next) s post fail := h

theorem modify_bind {f : Session → Session} {next : PUnit → SessionM α}
    (h : Brings (next ⟨⟩) (f s) post fail) : Brings (modify f >>= next) s post fail := h

theorem attempt (h : Brings act s post fail) : Brings (attempt act) s
    (fun result s' => match result with
      | .ok a => post a s'
      | .error e => fail e s') fail' := by
  cases hact : act s with
  | ok a s' => exact of_ok (attempt_ok hact) (h.ok hact)
  | error e s' => exact of_ok (attempt_error hact) (h.error hact)

end Brings

/-- What a computation ends in, and that it does. -/
theorem Brings.with_eq {α : Type} {act : SessionM α} {s : Session} {post : α → Session → Prop}
    {fail : Error → Session → Prop} (h : Brings act s post fail) :
    Brings act s (fun a s' => act s = .ok a s' ∧ post a s') fail := by
  cases hact : act s with
  | ok a s' => exact .of_ok hact ⟨rfl, h.ok hact⟩
  | error e s' => exact .of_error hact (h.error hact)

/-- What holds of the session that a computation ends in. -/
theorem brings_of_final {α : Type} {act : SessionM α} {s : Session} {post : Session → Prop}
    (h : post (final act s)) : Brings act s (fun _ => post) fun _ => post := by
  unfold final at h
  unfold Brings
  cases hact : act s with
  | ok a s' | error e s' =>
    rw [hact] at h
    exact h

/-! ### Computations that touch neither the file nor its locks -/

/-- A computation that changes nothing but what the handle remembers. -/
def OnlySees {α : Type} (act : SessionM α) : Prop := ∀ s : Session, ∃ h, final act s = s.withHandle h

section Seeing

variable {α β : Type} {act : SessionM α} {next : α → SessionM β}

theorem OnlySees.bind (h : OnlySees act) (hnext : ∀ a, OnlySees (next a)) : OnlySees (act >>= next) :=
  final_bind (p := fun s s' => ∃ h, s' = s.withHandle h)
    (by rintro a b c ⟨h, rfl⟩ ⟨h', rfl⟩; exact ⟨h', rfl⟩) h hnext

theorem OnlySees.get_bind {next : Session → SessionM β}
    (h : ∀ s : Session, ∃ h, final (next s) s = s.withHandle h) : OnlySees (get >>= next) := fun s => h s

theorem OnlySees.brings (h : OnlySees act) (s : Session) : Brings act s
    (fun _ s' => ∃ h, s' = s.withHandle h) (fun _ s' => ∃ h, s' = s.withHandle h) :=
  brings_of_final (h s)

end Seeing

theorem onlySees_counter (offset : Nat) : OnlySees (counter offset) := by
  intro s
  unfold final
  rw [counter_eq_match]
  cases Header.counterAt? s.data offset <;> exact ⟨s.handle, rfl⟩

theorem onlySees_refresh : OnlySees refresh := by
  refine (onlySees_counter Header.appendSeqAt).bind fun seq s => ?_
  unfold final
  rw [SessionM.get_bind]
  by_cases hsame : seq = s.handle.seenSeq
  · rw [if_pos hsame]
    exact ⟨s.handle, rfl⟩
  · rw [if_neg hsame, SessionM.modify_bind]
    exact ⟨_, rfl⟩

theorem onlySees_find (key : Bytes) : OnlySees (find key) := by
  intro s
  obtain ⟨h, heq, -⟩ := find_cases s key
  exact ⟨h, final_ok heq⟩

theorem onlySees_locate (key : Bytes) (freshness : Freshness) : OnlySees (locate key freshness) := by
  refine .get_bind fun s => ?_
  dsimp only
  split
  · exact (onlySees_refresh.bind fun _ => onlySees_find key) s
  · exact onlySees_find key s

theorem onlySees_recordAt (span : Span) : OnlySees (recordAt span) := by
  refine .get_bind fun s => ?_
  cases Record.decode s.data span.offset <;> exact ⟨s.handle, rfl⟩

theorem onlySees_lineToAppend (key : Bytes) (field : Option Field) (old : Option Span) :
    OnlySees (lineToAppend key field old) := by
  have hpure : ∀ a : Option Bytes, OnlySees (pure a : SessionM (Option Bytes)) :=
    fun a s => ⟨s.handle, rfl⟩
  rcases old with _ | span
  · exact hpure _
  · cases field with
    | none => exact hpure none
    | some field => exact (onlySees_recordAt span).bind fun _ => hpure _

end SessionM

/-! ## What is locked -/

/-- The session once the lock of an appended line was tried. -/
def Session.took (s : Session) : Option Nat → Session
  | none => s
  | some offset => s.tryHold offset

/-- A session has the holder and the locks of another one. -/
structure Session.SameLocks (s s₀ : Session) : Prop where
  holder : s.holder = s₀.holder
  locks : s.file.locks = s₀.file.locks

namespace Session.SameLocks

variable {s s' s₀ : Session}

theorem refl (s : Session) : s.SameLocks s := ⟨rfl, rfl⟩

theorem trans (h : s'.SameLocks s) (h₀ : s.SameLocks s₀) : s'.SameLocks s₀ :=
  ⟨h.holder.trans h₀.holder, h.locks.trans h₀.locks⟩

theorem withHandle (h : s.SameLocks s₀) (handle : Handle) : (s.withHandle handle).SameLocks s₀ :=
  ⟨h.holder, h.locks⟩

theorem write (h : s.SameLocks s₀) (patch : Patch) : (s.write patch).SameLocks s₀ :=
  ⟨h.holder, (s.write_locks patch).trans h.locks⟩

theorem writeAll (h : s.SameLocks s₀) (patches : List Patch) : (s.writeAll patches).SameLocks s₀ := by
  obtain ⟨hlocks, -, hholder⟩ := s.writeAll_frame patches
  exact ⟨hholder.trans h.holder, hlocks.trans h.locks⟩

theorem sealed (h : s.SameLocks s₀) : s.sealed.SameLocks s₀ := by
  unfold Session.sealed
  split
  · exact h
  · exact (h.writeAll _).withHandle _

theorem hold (h : s.SameLocks s₀) (offset : Nat) : (s.hold offset).SameLocks (s₀.hold offset) :=
  ⟨h.holder, by simp only [Session.hold, h.holder, h.locks]⟩

theorem tryHold (h : s.SameLocks s₀) (offset : Nat) : (s.tryHold offset).SameLocks (s₀.tryHold offset) :=
  ⟨h.holder, by simp only [Session.tryHold, h.holder, h.locks]⟩

theorem free (h : s.SameLocks s₀) (offset : Nat) : (s.free offset).SameLocks (s₀.free offset) :=
  ⟨h.holder, by simp only [Session.free, SharedFile.unlock, h.holder, h.locks]⟩

end Session.SameLocks

/-- Beyond what its holder had locked in `s₀`, a session has at most the locks at `offsets`. -/
structure Session.Holds (s s₀ : Session) (offsets : List Nat) : Prop where
  holder : s.holder = s₀.holder
  locks : ∀ lock ∈ s.file.locks.held, lock.holder = s₀.holder →
    lock ∈ s₀.file.locks.held ∨ ∃ offset ∈ offsets, LockTable.covers offset lock.byte = true

namespace Session.Holds

variable {s s' s₀ : Session} {offsets offsets' : List Nat}

theorem refl (s : Session) : s.Holds s [] := ⟨rfl, fun _ hl _ => Or.inl hl⟩

theorem mono (h : s.Holds s₀ offsets) (hsub : offsets ⊆ offsets') : s.Holds s₀ offsets' where
  holder := h.holder
  locks lock hl hown := (h.locks lock hl hown).imp id fun ⟨o, ho, hcov⟩ => ⟨o, hsub ho, hcov⟩

/-- A session that changes no lock holds what it held. -/
theorem frame (h : s.Holds s₀ offsets) (hsame : s'.SameLocks s) : s'.Holds s₀ offsets where
  holder := hsame.holder.trans h.holder
  locks := by
    rw [hsame.locks]
    exact h.locks

theorem withHandle (h : s.Holds s₀ offsets) (handle : Handle) :
    (s.withHandle handle).Holds s₀ offsets := h.frame ((SameLocks.refl s).withHandle handle)

theorem write (h : s.Holds s₀ offsets) (patch : Patch) : (s.write patch).Holds s₀ offsets :=
  h.frame ((SameLocks.refl s).write patch)

theorem writeAll (h : s.Holds s₀ offsets) (patches : List Patch) :
    (s.writeAll patches).Holds s₀ offsets := h.frame ((SameLocks.refl s).writeAll patches)

/-- A lock is taken. -/
theorem hold (h : s.Holds s₀ offsets) (offset : Nat) :
    (s.hold offset).Holds s₀ (offset :: offsets) where
  holder := h.holder
  locks lock hl hown := by
    rcases LockTable.mem_set_iff.1 hl with ⟨-, hcov, -⟩ | hclear
    · exact Or.inr ⟨offset, List.mem_cons_self, hcov⟩
    · exact (h.locks lock (LockTable.mem_clear_iff.1 hclear).1 hown).imp id
        fun ⟨o, ho, hcov⟩ => ⟨o, List.mem_cons_of_mem _ ho, hcov⟩

/-- A lock is taken if it is free. -/
theorem tryHold (h : s.Holds s₀ offsets) (offset : Nat) :
    (s.tryHold offset).Holds s₀ (offset :: offsets) := by
  unfold Session.tryHold LockTable.tryTake
  split
  · exact h.mono (List.subset_cons_self ..)
  · exact h.hold offset

/-- A lock is given up. -/
theorem free (h : s.Holds s₀ offsets) {offset : Nat} (hsub : offsets ⊆ offset :: offsets') :
    (s.free offset).Holds s₀ offsets' where
  holder := h.holder
  locks lock hl hown := by
    obtain ⟨hmem, hnot⟩ := LockTable.mem_clear_iff.1 hl
    rcases h.locks lock hmem hown with hold | ⟨o, ho, hcov⟩
    · exact Or.inl hold
    · rcases List.mem_cons.1 (hsub ho) with rfl | ho'
      · exact absurd ⟨hown.trans h.holder.symm, hcov⟩ hnot
      · exact Or.inr ⟨o, ho', hcov⟩

end Session.Holds

namespace SessionM

section Steps

variable {s s₀ : Session} {offsets offsets' : List Nat}

/-- A lock is granted or not, or it cannot be taken at all. -/
theorem tryLock_brings (s : Session) (offset : Nat) : Brings (tryLock offset .exclusive) s
    (fun granted s' => lockFault? offset = none ∧
      s' = if granted then s.hold offset else s)
    (fun _ s' => s' = s ∧ lockFault? offset ≠ none) := by
  cases hfault : lockFault? offset with
  | some fault =>
    refine .of_error (e := .lock fault) ?_ ⟨rfl, by simp⟩
    unfold tryLock
    rw [hfault]
    rfl
  | none =>
    have htry := tryLock_eq s hfault
    split at htry
    · exact .of_ok htry ⟨rfl, rfl⟩
    · exact .of_ok htry ⟨rfl, rfl⟩

/-- A lock is taken if it is free, where it can be taken at all. -/
theorem tryLock_tries (s : Session) (offset : Nat) : Brings (tryLock offset .exclusive) s
    (fun _ s' => lockFault? offset = none ∧ s' = s.tryHold offset) (fun _ s' => s' = s) := by
  cases hfault : lockFault? offset with
  | some fault =>
    refine .of_error (e := .lock fault) ?_ rfl
    unfold tryLock
    rw [hfault]
    rfl
  | none =>
    obtain ⟨granted, htry⟩ := tryLock_tryHold s hfault
    exact .of_ok htry ⟨rfl, rfl⟩

theorem acquireRecord_brings (s : Session) (offset : Nat) : Brings (acquireRecord offset) s
    (fun granted s' => lockFault? offset = none ∧ s' = if granted then s.hold offset else s)
    (fun _ s' => s' = s) := by
  unfold acquireRecord
  refine ((tryLock_brings s offset).mono (fun _ _ => id) fun _ _ => And.left).bind ?_
  rintro granted s' ⟨hfault, hs'⟩
  refine .get_bind ?_
  cases granted with
  | true => exact .of_ok rfl ⟨hfault, hs'⟩
  | false =>
    split
    · exact .of_error rfl hs'
    · exact .of_ok rfl ⟨hfault, hs'⟩

section Granting

variable {α : Type} {act other : SessionM α} {post : α → Session → Prop} {fail : Error → Session → Prop}

/-- What is done under the structural lock, or else while another one has it. -/
theorem Brings.of_structural (hact : Brings act (s.hold structuralOffset) post fail)
    (hother : Brings other s post fail) :
    Brings (do if ← tryLock structuralOffset .exclusive then act else other) s post fail := by
  refine ((tryLock_brings s structuralOffset).mono (fun _ _ => id)
    fun _ _ hf => absurd structural_lockFault? hf.2).bind ?_
  rintro granted _ ⟨-, rfl⟩
  cases granted with
  | true => exact hact
  | false => exact hother

/-- What is done with a record locked, or else while another one has it. -/
theorem Brings.of_acquireRecord {offset : Nat}
    (hact : lockFault? offset = none → Brings act (s.hold offset) post fail)
    (hother : Brings other s post fail) (hfail : ∀ e, fail e s) :
    Brings (do if ← acquireRecord offset then act else other) s post fail := by
  refine ((acquireRecord_brings s offset).mono (fun _ _ => id) ?_).bind ?_
  · rintro e _ rfl
    exact hfail e
  · rintro granted _ ⟨hfault, rfl⟩
    cases granted with
    | true => exact hact hfault
    | false => exact hother

end Granting

theorem recordAt_brings (s : Session) (span : Span) : Brings (recordAt span) s (fun _ s' => s' = s)
    (fun e s' => s' = s ∧ Record.decode s.data span.offset = .error e) := by
  unfold Brings
  rw [recordAt_eq_match]
  cases Record.decode s.data span.offset with
  | ok r => rfl
  | error e => exact ⟨rfl, rfl⟩

/-- Giving a lock up, where it can be locked at all. -/
theorem unlock_brings (h : s.Holds s₀ offsets) {offset : Nat} (hfault : lockFault? offset = none)
    (hsub : offsets ⊆ offset :: offsets') :
    Brings (unlock offset) s (fun _ s' => s'.Holds s₀ offsets') (fun _ _ => False) :=
  .of_ok (unlock_eq s hfault) (h.free hsub)

/-- Giving up whatever lock gains none, and can only fail where no lock can be. -/
theorem unlock_tries (h : s.Holds s₀ offsets) (offset : Nat) : Brings (unlock offset) s
    (fun _ s' => s'.Holds s₀ offsets)
    (fun _ s' => s'.Holds s₀ offsets ∧ lockFault? offset ≠ none) := by
  cases hfault : lockFault? offset with
  | some fault =>
    refine .of_error (e := .lock fault) ?_ ⟨h, by simp⟩
    unfold unlock
    rw [hfault]
    rfl
  | none => exact .of_ok (unlock_eq s hfault) (h.free (List.subset_cons_self ..))

theorem unlock_holds (h : s.Holds s₀ offsets) (offset : Nat) : Brings (unlock offset) s
    (fun _ s' => s'.Holds s₀ offsets) (fun _ s' => s'.Holds s₀ offsets) :=
  (unlock_tries h offset).mono (fun _ _ => id) fun _ _ => And.left

theorem OnlySees.sameLocks {α : Type} {act : SessionM α} (hsees : OnlySees act) :
    Brings act s (fun _ s' => s'.SameLocks s) (fun _ s' => s'.SameLocks s) := by
  refine (hsees.brings s).mono ?_ ?_
  · rintro _ _ ⟨handle, rfl⟩
    exact .withHandle (.refl s) handle
  · rintro _ _ ⟨handle, rfl⟩
    exact .withHandle (.refl s) handle

theorem OnlySees.holds {α : Type} {act : SessionM α} (hsees : OnlySees act) (h : s.Holds s₀ offsets) :
    Brings act s (fun _ s' => s'.Holds s₀ offsets) (fun _ s' => s'.Holds s₀ offsets) :=
  hsees.sameLocks.mono (fun _ _ => h.frame) fun _ _ => h.frame

/-- **A lookup** locks nothing, and finds nothing behind the end of the file. -/
theorem locate_brings (s : Session) (key : Bytes) (freshness : Freshness) :
    Brings (locate key freshness) s
      (fun found s' => s'.SameLocks s ∧
        ∀ span, found = some span → span.offset ≤ s'.file.bytes.length)
      (fun _ s' => s'.SameLocks s) := by
  have hfind : ∀ s' : Session, s'.SameLocks s → Brings (find key) s'
      (fun found s' => s'.SameLocks s ∧
        ∀ span, found = some span → span.offset ≤ s'.file.bytes.length)
      (fun _ s' => s'.SameLocks s) := by
    intro s' h'
    obtain ⟨handle, heq, -⟩ := find_cases s' key
    refine .of_ok heq ⟨h'.withHandle handle, fun span hfound => ?_⟩
    have hle := Handle.offset_le_of_find? hfound
    exact Nat.le_trans hle (List.take_sublist _ _).length_le
  unfold locate
  refine .get_bind ?_
  dsimp only
  split
  · exact onlySees_refresh.sameLocks.bind fun _ s' h' => hfind s' h'
  · exact hfind s (.refl s)

/-- What is locked after a lookup that locks. -/
def Locked.Holds (s s₀ : Session) (offsets : List Nat) : Locked → Prop
  | .absent | .busy _ => s.Holds s₀ offsets
  | .granted span => s.Holds s₀ (span.offset :: offsets) ∧ lockFault? span.offset = none ∧
      span.offset ≤ s.file.bytes.length ∧
        s.file.locks.holdsExclusive s.holder span.offset = true

/-- **A lookup that locks** takes the lock of the record that it finds, and no other. -/
theorem locateLocking_takes (s : Session) (key : Bytes) (freshness : Freshness) :
    Brings (locateLocking key freshness) s
      (fun locked s' => match locked with
        | .absent | .busy _ => s'.SameLocks s
        | .granted span => s'.SameLocks (s.hold span.offset) ∧ lockFault? span.offset = none ∧
            span.offset ≤ s'.file.bytes.length)
      (fun _ s' => s'.SameLocks s) := by
  unfold locateLocking
  refine (locate_brings s key freshness).bind ?_
  rintro (_ | span) s₁ ⟨h₁, hle⟩
  · exact .of_ok rfl h₁
  · refine ((acquireRecord_brings s₁ span.offset).mono (fun _ _ => id) ?_).bind ?_
    · rintro _ s' rfl
      exact h₁
    · rintro granted s₂ ⟨hfault, hs₂⟩
      cases granted with
      | true =>
        obtain rfl : s₂ = s₁.hold span.offset := hs₂
        exact .of_ok rfl ⟨h₁.hold span.offset, hfault, hle span rfl⟩
      | false =>
        obtain rfl : s₂ = s₁ := hs₂
        exact .of_ok rfl h₁

theorem locateLocking_brings (h : s.Holds s₀ offsets) (key : Bytes) (freshness : Freshness) :
    Brings (locateLocking key freshness) s (fun locked s' => locked.Holds s' s₀ offsets)
      (fun _ s' => s'.Holds s₀ offsets) := by
  refine (locateLocking_takes s key freshness).mono (fun locked s' h' => ?_) fun _ _ => h.frame
  cases locked with
  | absent | busy => exact h.frame h'
  | granted span =>
    obtain ⟨hsame, hfault, hle⟩ := h'
    refine ⟨(h.hold span.offset).frame hsame, hfault, hle, ?_⟩
    rw [hsame.locks, hsame.holder]
    exact LockTable.holdsExclusive_set_self

/-- **A lock granted after a wait** is given up again for a record that died. -/
theorem recheck_brings (h : s.Holds s₀ offsets) (key : Bytes) (span : Span)
    (hfault : lockFault? span.offset = none) :
    Brings (recheck key span) (s.hold span.offset) (fun locked s' => locked.Holds s' s₀ offsets)
      (fun _ s' => s'.Holds s₀ offsets) := by
  have hheld := h.hold span.offset
  unfold recheck
  refine .get_bind ?_
  split
  · next hlive =>
    have hlt := (List.getElem?_eq_some_iff.1 hlive).1
    have hle : span.offset ≤ s.file.bytes.length :=
      Nat.le_trans (Nat.le_of_lt hlt) (List.take_sublist _ _).length_le
    exact .of_ok rfl ⟨hheld, hfault, hle, LockTable.holdsExclusive_set_self⟩
  · refine ((unlock_brings hheld hfault (List.Subset.refl _)).mono (fun _ _ => id) (by simp)).bind ?_
    intro _ s' h'
    exact .modify_bind (locateLocking_brings (h'.withHandle _) key .always)

theorem length_le_sealed (s : Session) : s.file.bytes.length ≤ s.sealed.file.bytes.length := by
  unfold Session.sealed
  split
  · exact Nat.le_refl _
  · show _ ≤ (s.writeAll (sealPatches s.file.bytes s.handle.headLen)).file.bytes.length
    rw [Session.writeAll_bytes]
    exact Patch.length_le_length_applyAll _ _

theorem commitLine_sameLocks (s : Session) (offset : Nat) (line : Bytes) (count : UInt32)
    (old : Option Span) : Brings (commitLine offset line count old) s
      (fun _ s' => s'.SameLocks s) (fun _ s' => s'.SameLocks s) := by
  have hwritten : (s.write ⟨offset, line⟩).SameLocks s := .write (.refl s) _
  unfold commitLine
  refine .modify_bind (Brings.bind ((onlySees_counter Header.appendSeqAt).sameLocks.mono
    (fun _ _ h => h.trans hwritten) fun _ _ h => h.trans hwritten) ?_)
  exact fun seq s' h' => .of_ok rfl ((h'.writeAll _).withHandle _)

/-- **An append** takes the lock of its new line, if that is free, and no other; the line goes behind all
that was there. -/
theorem appendRecord_takes (s : Session) (key : Bytes) (field : Option Field) :
    Brings (appendRecord key field) s
      (fun appended s' => s'.SameLocks (s.took appended) ∧
        ∀ offset, appended = some offset →
          lockFault? offset = none ∧ s.file.bytes.length ≤ offset)
      (fun _ s' => s'.SameLocks s ∨ ∃ offset, s'.SameLocks ((s.tryHold offset).free offset)) := by
  -- what only sees leaves the file as long as it was
  have hsees : ∀ {α : Type} {act : SessionM α} {s' : Session}, OnlySees act → s'.SameLocks s →
      Brings act s' (fun _ s'' => s''.SameLocks s ∧ s''.file.bytes.length = s'.file.bytes.length)
        (fun _ s'' => s''.SameLocks s ∨ ∃ offset, s''.SameLocks ((s.tryHold offset).free offset)) := by
    intro α act s' hact h'
    refine (hact.brings s').mono ?_ ?_
    · rintro _ _ ⟨handle, rfl⟩
      exact ⟨h'.withHandle handle, rfl⟩
    · rintro _ _ ⟨handle, rfl⟩
      exact Or.inl (h'.withHandle handle)
  unfold appendRecord
  refine Brings.bind (hsees (onlySees_counter Header.sinceSortAt) (.refl s))
    fun count s₁ ⟨h₁, hlen₁⟩ => ?_
  refine .get_bind ?_
  dsimp only
  refine (hsees (onlySees_locate key _) h₁).bind fun old s₂ ⟨h₂, hlen₂⟩ => ?_
  unfold Brings
  rw [ite_modify_bind]
  obtain ⟨s₃, hs₃, h₃, hlen₃⟩ :
      ∃ s₃, (if s₁.handle.config.resortLimit < count then s₂.sort else s₂) = s₃ ∧
        s₃.SameLocks s ∧ s₂.file.bytes.length ≤ s₃.file.bytes.length := by
    refine ⟨_, rfl, ?_⟩
    split
    · refine ⟨(h₂.writeAll _).withHandle _, ?_⟩
      show _ ≤ (s₂.writeAll s₂.sortPatches).file.bytes.length
      rw [Session.writeAll_bytes]
      exact Patch.length_le_length_applyAll _ _
    · exact ⟨h₂, Nat.le_refl _⟩
  rw [hs₃]
  refine Brings.bind (hsees (onlySees_lineToAppend key field old) h₃) ?_
  rintro (_ | line) s₄ ⟨h₄, hlen₄⟩
  · exact .of_ok rfl ⟨h₄, by rintro offset ⟨⟩⟩
  -- the line goes to the end of the file, which now ends in a newline
  have hsealed : Brings sealTail s₄ (fun offset s₅ => offset = s₅.file.bytes.length ∧ s₅.SameLocks s ∧
      s₄.file.bytes.length ≤ s₅.file.bytes.length) (fun _ _ => False) :=
    .of_ok (sealTail_sealed s₄) ⟨rfl, h₄.sealed, length_le_sealed s₄⟩
  refine (hsealed.mono (fun _ _ => id) (by simp)).bind ?_
  rintro _ s₅ ⟨rfl, h₅, hlen₅⟩
  refine ((tryLock_tries s₅ _).mono (fun _ _ => id) ?_).bind ?_
  · rintro _ _ rfl
    exact Or.inl h₅
  rintro _ _ ⟨hfault, rfl⟩
  have h₆ := h₅.tryHold s₅.file.bytes.length
  refine (commitLine_sameLocks _ _ line _ old).attempt.bind ?_
  rintro (e | _) s₇ h₇
  · refine .of_error (bind_ok (unlock_eq s₇ hfault)) ?_
    exact Or.inr ⟨_, (h₇.trans h₆).free _⟩
  · refine .of_ok rfl ⟨h₇.trans h₆, ?_⟩
    rintro offset ⟨⟩
    exact ⟨hfault, by omega⟩

theorem appendRecord_brings (h : s.Holds s₀ offsets) (key : Bytes) (field : Option Field) :
    Brings (appendRecord key field) s
      (fun appended s' => s'.Holds s₀ (appended.toList ++ offsets) ∧
        ∀ offset, appended = some offset →
          lockFault? offset = none ∧ s.file.bytes.length ≤ offset)
      (fun _ s' => s'.Holds s₀ offsets) := by
  refine (appendRecord_takes s key field).mono ?_ ?_
  · rintro (_ | offset) s' ⟨hsame, hnew⟩
    · exact ⟨h.frame hsame, hnew⟩
    · exact ⟨(h.tryHold offset).frame hsame, hnew⟩
  · rintro e s' (hsame | ⟨offset, hsame⟩)
    · exact h.frame hsame
    · exact ((h.tryHold offset).free (List.Subset.refl _)).frame hsame

/-- What runs under the structural lock gives it up. -/
theorem unlockingStructure_brings {α : Type} {act : SessionM α} {gained : α → List Nat} {p : α → Prop}
    (h : Brings act s
      (fun a s' => s'.Holds s₀ (gained a ++ structuralOffset :: offsets) ∧ p a)
      (fun _ s' => s'.Holds s₀ (structuralOffset :: offsets))) :
    Brings (unlockingStructure act) s
      (fun outcome s' => match outcome with
        | .ok a => s'.Holds s₀ (gained a ++ offsets) ∧ p a
        | .error _ => s'.Holds s₀ offsets)
      (fun _ _ => False) := by
  unfold unlockingStructure
  refine h.attempt.bind ?_
  rintro (e | a) s' h'
  · exact (unlock_brings h' structural_lockFault? (List.Subset.refl _)).bind
      fun _ _ h'' => .of_ok rfl h''
  · obtain ⟨hholds, hp⟩ := h'
    have hsub : gained a ++ structuralOffset :: offsets ⊆
        structuralOffset :: (gained a ++ offsets) := by
      intro x hx
      simp only [List.mem_append, List.mem_cons] at hx ⊢
      tauto
    exact (unlock_brings hholds structural_lockFault? hsub).bind fun _ _ h'' => .of_ok rfl ⟨h'', hp⟩

end Steps

end SessionM

end RecordStore
