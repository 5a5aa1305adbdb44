import Mathlib.Tactic.Common
import RecordStore.Proofs.Endings
import RecordStore.Proofs.Lasting
import RecordStore.Proofs.Made

/-!
# What a client may have locked

In a store that the library alone has made, a call locks nothing before the first record but what it is
told to, and the structural lock for as long as it appends or sorts.  So between its calls a client has
the structural lock only where it has asked for its offset itself.

* `Call.Licenses` — the offsets at which a call may leave a lock behind.
* `SessionM.Licensed` — a computation that leaves no other lock behind.
* `Client.Licenses`, `Store.Licensed` — the offsets at which a client may have a lock, and all clients.

Principal results: `Call.stretch_licensed` — every stretch of every call; `Store.Licensed.run` — the
invariant of all runs; `Store.Licensed.told_of_structural` — the structural lock.
-/

set_option autoImplicit false

namespace RecordStore

/-- A call leaves locks behind the header, and where it is told to. -/
def Call.Licenses (call : Call) (offset : Nat) : Prop :=
  Header.length ≤ offset ∨ call = .lock offset

/-- Beyond what its holder had locked in `s₀`, a session has at most locks that the call may leave. -/
def Session.Licensed (s s₀ : Session) (call : Call) : Prop :=
  ∃ offsets, s.Holds s₀ offsets ∧ ∀ o ∈ offsets, call.Licenses o

/-- A stage waits for a lock before the first record only if its call is told to take it, or for the
structural lock. -/
def Stage.Licensed (stage : Stage) : Prop := ∀ offset, stage = .readingAt offset → Header.length ≤ offset

theorem Session.Holds.licensed {s s₀ : Session} {offsets : List Nat} (h : s.Holds s₀ offsets)
    {call : Call} (hall : ∀ o ∈ offsets, call.Licenses o) : s.Licensed s₀ call := ⟨offsets, h, hall⟩

namespace SessionM

/-- However the computation ends, it leaves only locks behind that the call may leave. -/
def Licensed (act : SessionM Progress) (s s₀ : Session) (call : Call) : Prop :=
  Brings act s (fun progress s' => s'.Licensed s₀ call ∧
    ∀ stage, progress = .waiting stage → stage.Licensed) (fun _ s' => s'.Licensed s₀ call)

namespace Licensed

variable {α : Type} {s s' s₀ : Session} {call : Call} {offsets : List Nat}

theorem answer (h : s.Licensed s₀ call) (a : Answer) : Licensed (answer a) s s₀ call :=
  .of_ok rfl ⟨h, by rintro stage ⟨⟩⟩

theorem wait (h : s.Licensed s₀ call) {stage : Stage} (hstage : stage.Licensed) :
    Licensed (wait stage) s s₀ call :=
  .of_ok rfl ⟨h, by rintro _ ⟨⟩; exact hstage⟩

theorem throw (h : s.Licensed s₀ call) (e : Error) : Licensed (throw e) s s₀ call := .of_error rfl h

theorem bind {act : SessionM α} {next : α → SessionM Progress} {post : α → Session → Prop}
    (h : Brings act s post (fun _ s' => s'.Licensed s₀ call))
    (hnext : ∀ a s', post a s' → Licensed (next a) s' s₀ call) :
    Licensed (act >>= next) s s₀ call := Brings.bind h hnext

theorem get_bind {next : Session → SessionM Progress} (h : Licensed (next s) s s₀ call) :
    Licensed (get >>= next) s s₀ call := h

theorem modify_bind {f : Session → Session} {next : PUnit → SessionM Progress}
    (h : Licensed (next ⟨⟩) (f s) s₀ call) : Licensed (modify f >>= next) s s₀ call := h

/-- What takes no lock comes first. -/
theorem bind_of_holds {act : SessionM α} {next : α → SessionM Progress}
    (hact : Brings act s (fun _ s' => s'.Holds s₀ offsets) (fun _ s' => s'.Holds s₀ offsets))
    (hall : ∀ o ∈ offsets, call.Licenses o)
    (hnext : ∀ a s', act s = .ok a s' → s'.Holds s₀ offsets → Licensed (next a) s' s₀ call) :
    Licensed (act >>= next) s s₀ call :=
  .bind (hact.with_eq.mono (fun _ _ => id) fun _ _ h => h.licensed hall)
    fun a s' h => hnext a s' h.1 h.2

end Licensed

section Steps

variable {s s₀ : Session} {call : Call} {request : WriteRequest} {offsets : List Nat}
  {held : Option Nat} {span : Span}

theorem forM_unlock_frees (h : s.Holds s₀ offsets) (held : Option Nat) :
    Brings (held.forM unlock : SessionM PUnit) s (fun _ s' => s'.Holds s₀ offsets)
      (fun _ s' => s'.Holds s₀ offsets) := by
  cases held with
  | none => exact .of_ok rfl h
  | some offset => exact unlock_holds h offset

/-! ### Writing -/

theorem appendLocked_licensed (h : s.Holds s₀ (structuralOffset :: offsets))
    (hall : ∀ o ∈ offsets, call.Licenses o) (hlen : Header.length ≤ s.file.bytes.length)
    (held : Option Nat) : Licensed (appendLocked request held) s s₀ call := by
  unfold appendLocked
  refine .bind ((unlockingStructure_brings
    (appendRecord_brings h request.key request.field)).mono (fun _ _ => id) (by simp)) ?_
  rintro (e | appended) s' h'
  · dsimp only
    split
    · exact .bind_of_holds (forM_unlock_frees h' held) hall fun _ _ _ h'' => .throw (h''.licensed hall) e
    · exact .throw (h'.licensed hall) e
  · obtain ⟨hholds, hnew⟩ := h'
    have hall' : ∀ o ∈ appended.toList ++ offsets, call.Licenses o := by
      intro o ho
      rcases List.mem_append.1 ho with ho | ho
      · exact Or.inl (Nat.le_trans hlen (hnew o (Option.mem_toList.1 ho)).2)
      · exact hall o ho
    refine .bind_of_holds (forM_unlock_frees hholds held) hall' fun _ s₁ _ h₁ => ?_
    split
    · exact .bind_of_holds (forM_unlock_frees h₁ appended) hall'
        fun _ _ _ h₂ => .answer (h₂.licensed hall') .done
    · exact .answer (h₁.licensed hall') .done

theorem append_licensed (h : s.Holds s₀ offsets) (hall : ∀ o ∈ offsets, call.Licenses o)
    (hlen : Header.length ≤ s.file.bytes.length) (held : Option Nat) :
    Licensed (append request held) s s₀ call :=
  Brings.of_structural (appendLocked_licensed (h.hold structuralOffset) hall hlen held)
    (Licensed.wait (h.licensed hall) (by rintro offset ⟨⟩))

theorem finishInPlace_licensed (h : s.Holds s₀ offsets) (hall : ∀ o ∈ offsets, call.Licenses o)
    (span : Span) : Licensed (finishInPlace request span) s s₀ call := by
  unfold finishInPlace
  split
  · exact .bind_of_holds (unlock_holds h span.offset) hall fun _ _ _ h' => .answer (h'.licensed hall) _
  · exact .answer (h.licensed hall) _

theorem update_licensed (h : s.Holds s₀ offsets) (hall : ∀ o ∈ offsets, call.Licenses o)
    (hlen : Header.length ≤ s.file.bytes.length) (span : Span) :
    Licensed (update request span) s s₀ call := by
  unfold update
  cases request.field with
  | none => exact finishInPlace_licensed h hall span
  | some field =>
    refine .bind ((recordAt_brings s span).mono (fun _ _ => id) ?_) ?_
    · rintro _ _ ⟨rfl, -⟩
      exact h.licensed hall
    · rintro r _ rfl
      cases r.fieldSpan? field.name with
      | none => exact append_licensed h hall hlen _
      | some place =>
        dsimp only
        split
        · exact .modify_bind (finishInPlace_licensed ((h.write _).withHandle _) hall span)
        · exact append_licensed h hall hlen _

/-- A lookup that locks has locked a record behind the header, or nothing. -/
theorem Locked.Holds.licensed {locked : Locked} (h : locked.Holds s s₀ [])
    (hspan : ∀ span, locked = .granted span → Header.length ≤ span.offset) :
    ∃ offsets, s.Holds s₀ offsets ∧ ∀ o ∈ offsets, call.Licenses o := by
  cases locked with
  | absent | busy => exact ⟨[], h, by simp⟩
  | granted span =>
    refine ⟨[span.offset], h.1, ?_⟩
    intro o ho
    rw [List.mem_singleton.1 ho]
    exact Or.inl (hspan span rfl)

theorem writeLocked_licensed {locked : Locked} (h : locked.Holds s s₀ [])
    (hspan : ∀ span, locked = .granted span → Header.length ≤ span.offset)
    (hlen : Header.length ≤ s.file.bytes.length) : Licensed (writeLocked request locked) s s₀ call := by
  obtain ⟨offsets, hholds, hall⟩ := h.licensed hspan
  cases locked with
  | absent => exact append_licensed hholds hall hlen none
  | granted span => exact update_licensed hholds hall hlen span
  | busy span => exact .wait ⟨offsets, hholds, hall⟩ (by rintro offset ⟨⟩)

/-! ### Reading, deleting and sorting -/

theorem readLocked_licensed {key : Bytes} {part : Part} {locked : Locked} (h : locked.Holds s s₀ [])
    (hspan : ∀ span, locked = .granted span → Header.length ≤ span.offset) :
    Licensed (readLocked key part locked) s s₀ call := by
  obtain ⟨offsets, hholds, hall⟩ := h.licensed hspan
  cases locked with
  | absent => exact .answer ⟨offsets, hholds, hall⟩ _
  | granted span =>
    exact .bind_of_holds ((onlySees_recordAt span).holds hholds) hall
      fun _ _ _ h' => .answer (h'.licensed hall) _
  | busy span => exact .wait ⟨offsets, hholds, hall⟩ (by rintro offset ⟨⟩)

theorem decodeAt_licensed (h : s.Holds s₀ offsets) (hall : ∀ o ∈ offsets, call.Licenses o)
    (offset : Nat) (locked : Bool) : Licensed (decodeAt offset locked) s s₀ call := by
  unfold decodeAt
  refine .get_bind ?_
  split
  · exact .answer (h.licensed hall) _
  · split
    · exact .bind_of_holds (unlock_holds h offset) hall fun _ _ _ h' => .answer (h'.licensed hall) _
    · exact .answer (h.licensed hall) _

/-- **A lookup by offset** that may lock looks behind the header. -/
theorem readMapped_licensed {offset : Nat} (h : s.Holds s₀ []) (hheadLen : s.handle.headLen = Header.length)
    (keepLock : Bool) :
    Licensed (readMapped offset keepLock) s s₀ (.readAt offset keepLock) := by
  have hnone : ∀ o ∈ ([] : List Nat), (Call.readAt offset keepLock).Licenses o := by simp
  unfold readMapped
  refine .get_bind ?_
  dsimp only
  split
  · exact .answer (h.licensed hnone) _
  · next hinside =>
    rw [hheadLen, Bool.or_eq_true, decide_eq_true_iff, not_or] at hinside
    have hle : Header.length ≤ offset := Nat.not_lt.1 hinside.1
    split
    · have hlicenses : ∀ o ∈ [offset], (Call.readAt offset keepLock).Licenses o := by
        simp [Call.Licenses, hle]
      refine Brings.of_acquireRecord (fun _ => decodeAt_licensed (h.hold offset) hlicenses offset true)
        (Licensed.wait (h.licensed hnone) ?_) fun _ => h.licensed hnone
      rintro _ ⟨⟩
      exact hle
    · exact decodeAt_licensed h hnone offset false

theorem deleteLocked_licensed {key : Bytes} {locked : Locked} (h : locked.Holds s s₀ [])
    (hspan : ∀ span, locked = .granted span → Header.length ≤ span.offset) :
    Licensed (deleteLocked key locked) s s₀ call := by
  obtain ⟨offsets, hholds, hall⟩ := h.licensed hspan
  cases locked with
  | absent => exact .answer ⟨offsets, hholds, hall⟩ _
  | granted span =>
    have hkilled : (s.write ⟨span.offset, [deadFlag]⟩).forget.Holds s₀ offsets :=
      (hholds.write _).withHandle _
    exact .modify_bind (.bind_of_holds (unlock_holds hkilled span.offset) hall
      fun _ _ _ h' => .modify_bind (.answer ((h'.withHandle _).licensed hall) _))
  | busy span => exact .wait ⟨offsets, hholds, hall⟩ (by rintro offset ⟨⟩)

theorem resortLocked_licensed (h : s.Holds s₀ [structuralOffset]) :
    Licensed resortLocked s s₀ call := by
  have hnone : ∀ o ∈ ([] : List Nat), call.Licenses o := by simp
  have hsorts : Brings resort s (fun _ s' => s'.Holds s₀ ([] ++ structuralOffset :: []) ∧ True)
      (fun _ s' => s'.Holds s₀ [structuralOffset]) :=
    (onlySees_refresh.holds h).bind fun _ _ h' => .of_ok rfl ⟨(h'.writeAll _).withHandle _, trivial⟩
  unfold resortLocked
  refine .bind ((unlockingStructure_brings hsorts).mono (fun _ _ => id) (by simp)) ?_
  rintro (e | ⟨⟩) s' h'
  · exact .throw (h'.licensed hnone) e
  · exact .answer (h'.1.licensed hnone) _

end Steps

/-- A lookup that locks has found a record of the file. -/
theorem Looked.le_offset {s s₁ : Session} {i : Image} {waited : Option Span} {key : Bytes} {span : Span}
    (h : Looked s waited key (.ok (.granted span) s₁)) (hs : s.Follows i)
    (hawaits : s.handle.Awaits i waited key) : Header.length ≤ span.offset := by
  cases h with
  | granted looks aims =>
    obtain ⟨line, hlive, -, rfl, -⟩ := hs.aims_of_looks hawaits looks aims
    exact (Image.bounds_of_mem (List.mem_filter.1 hlive).1).1

end SessionM

section Stretches

open SessionM

variable {s : Session} {i : Image} (hs : s.Follows i)

include hs

theorem Session.Follows.length_le : Header.length ≤ s.file.bytes.length := by
  rw [hs.bytes, Image.length_bytes]
  exact Nat.le_add_right _ _

/-- **A lookup under a lock**, and what follows it. -/
theorem Session.Follows.looked_licensed {s₀ : Session} {waited : Option Span} {key : Bytes} {call : Call}
    {act : SessionM Locked} {next : Locked → SessionM Progress} (hawaits : s.handle.Awaits i waited key)
    (hlooked : Looked s waited key (act s))
    (hholds : Brings act s (fun locked s' => locked.Holds s' s₀ []) (fun _ s' => s'.Holds s₀ []))
    (hnext : ∀ locked s', locked.Holds s' s₀ [] →
      (∀ span, locked = .granted span → Header.length ≤ span.offset) →
      Header.length ≤ s'.file.bytes.length → SessionM.Licensed (next locked) s' s₀ call) :
    SessionM.Licensed (act >>= next) s s₀ call := by
  refine .bind (hholds.with_eq.mono (fun _ _ => id) fun _ _ h => h.licensed (by simp)) ?_
  rintro locked s' ⟨hact, h'⟩
  rw [hact] at hlooked
  refine hnext locked s' h' ?_ ?_
  · rintro span rfl
    exact hlooked.le_offset hs hawaits
  · have hlooks : s.Looks s' := by cases hlooked <;> assumption
    rw [hlooks.bytes]
    exact hs.length_le

/-- **A lookup that locks at the beginning of a call**, and what follows it. -/
theorem Session.Follows.locateLocking_licensed {key : Bytes} {call : Call}
    {next : Locked → SessionM Progress}
    (hnext : ∀ locked s', locked.Holds s' s [] →
      (∀ span, locked = .granted span → Header.length ≤ span.offset) →
      Header.length ≤ s'.file.bytes.length → SessionM.Licensed (next locked) s' s call) :
    SessionM.Licensed (locateLocking key .ifMissing >>= next) s s call :=
  hs.looked_licensed (by rintro span ⟨⟩) (locateLocking_looked hs.mapped key)
    (locateLocking_brings (Session.Holds.refl s) key .ifMissing) hnext

theorem SessionM.read_licensed (key : Bytes) (part : Part) (keepLock : Bool) :
    SessionM.Licensed (read key part keepLock) s s (.read key part keepLock) := by
  have hnone : ∀ o ∈ ([] : List Nat), (Call.read key part keepLock).Licenses o := by simp
  unfold read
  split
  · exact hs.locateLocking_licensed fun locked s' h hspan _ => readLocked_licensed h hspan
  · refine .bind_of_holds ((onlySees_locate key .ifMissing).holds (.refl s)) hnone fun found s' _ h' => ?_
    cases found with
    | none => exact .answer (h'.licensed hnone) _
    | some span =>
      exact .bind_of_holds ((onlySees_recordAt span).holds h') hnone
        fun _ _ _ h'' => .answer (h''.licensed hnone) _

theorem SessionM.readAt_licensed (offset : Nat) (keepLock : Bool) :
    SessionM.Licensed (readAt offset keepLock) s s (.readAt offset keepLock) := by
  rw [readAt_eq]
  refine .get_bind ?_
  split
  · refine .bind_of_holds (onlySees_refresh.holds (.refl s)) (by simp) fun changed s' hact h' => ?_
    have hlooks := onlyLooks_refresh s
    rw [final_ok hact] at hlooks
    exact readMapped_licensed h' (hs.of_looks hlooks).1.tracks.headLen keepLock
  · exact readMapped_licensed (.refl s) hs.tracks.headLen keepLock

theorem SessionM.write_licensed (request : WriteRequest) :
    SessionM.Licensed (write request) s s (.write request) := by
  have hnone : ∀ o ∈ ([] : List Nat), (Call.write request).Licenses o := by simp
  unfold write
  cases requestFault? request with
  | some fault => exact .throw ((Session.Holds.refl s).licensed hnone) _
  | none =>
    dsimp only
    split
    · exact hs.locateLocking_licensed fun locked s' h hspan hlen => writeLocked_licensed h hspan hlen
    · refine .bind_of_holds ((onlySees_locate request.key .ifMissing).holds (.refl s)) hnone
        fun found s' hact h' => ?_
      have hlooks := onlyLooks_locate request.key .ifMissing s
      rw [final_ok hact] at hlooks
      have hlen : Header.length ≤ s'.file.bytes.length := hlooks.bytes ▸ hs.length_le
      cases found with
      | none => exact append_licensed h' hnone hlen none
      | some span => exact update_licensed h' hnone hlen span

/-- **Every call from its beginning.** -/
theorem Call.start_licensed (call : Call) : SessionM.Licensed call.start s s call := by
  have hnone : ∀ o ∈ ([] : List Nat), call.Licenses o := by simp
  have hrefl := Session.Holds.refl s
  have hsees : ∀ {α : Type} {act : SessionM α} {f : α → Answer}, OnlySees act →
      SessionM.Licensed (act >>= fun a => answer (f a)) s s call := fun hact =>
    .bind_of_holds (hact.holds hrefl) hnone fun _ _ _ h => .answer (h.licensed hnone) _
  cases call with
  | read key part keepLock => exact SessionM.read_licensed hs key part keepLock
  | readAt offset keepLock => exact SessionM.readAt_licensed hs offset keepLock
  | records =>
    refine .bind_of_holds (onlySees_refresh.holds hrefl) hnone fun _ s' _ h' => .get_bind ?_
    exact .answer (h'.licensed hnone) _
  | appendSeq => exact hsees (onlySees_counter _)
  | sinceSort => exact hsees (onlySees_counter _)
  | refresh => exact hsees onlySees_refresh
  | lock offset =>
    exact Brings.of_acquireRecord
      (fun _ => Licensed.answer ((hrefl.hold offset).licensed (by simp [Call.Licenses])) _)
      (Licensed.wait (hrefl.licensed hnone) (by rintro _ ⟨⟩)) fun _ => hrefl.licensed hnone
  | unlock offset =>
    exact .bind_of_holds (unlock_holds hrefl offset) hnone fun _ _ _ h => .answer (h.licensed hnone) _
  | write request => exact SessionM.write_licensed hs request
  | delete key =>
    exact hs.locateLocking_licensed fun locked s' h hspan _ => deleteLocked_licensed h hspan
  | resort =>
    exact Brings.of_structural (resortLocked_licensed (hrefl.hold structuralOffset))
      (Licensed.wait (hrefl.licensed hnone) (by rintro _ ⟨⟩))

/-- **Every stage run on.** -/
theorem Stage.resume_licensed {stage : Stage} (hstage : stage.Licensed)
    (hawaits : ∀ key, stage.call.key? = some key → s.handle.Awaits i stage.span? key) :
    SessionM.Licensed stage.resume s s stage.call := by
  have hnone : ∀ o ∈ ([] : List Nat), stage.call.Licenses o := by simp
  have hrefl := Session.Holds.refl s
  unfold Stage.resume
  refine .bind ((tryLock_brings s stage.offset).mono (fun _ _ => id) ?_) ?_
  · rintro _ _ ⟨rfl, -⟩
    exact hrefl.licensed hnone
  rintro granted _ ⟨hfault, rfl⟩
  cases granted with
  | false => exact .wait (hrefl.licensed hnone) hstage
  | true =>
    have hs' : (s.hold stage.offset).Follows i := ⟨hs.bytes, hs.tracks, hs.formed⟩
    have hheld : (s.hold stage.offset).Holds s [stage.offset] := hrefl.hold stage.offset
    rw [if_pos rfl, if_pos rfl]
    cases stage with
    | reading key part span =>
      exact hs'.looked_licensed (hawaits key rfl) (recheck_looked hs'.mapped key hfault)
        (recheck_brings hrefl key span hfault) fun locked s' h hspan _ => readLocked_licensed h hspan
    | readingAt offset =>
      exact decodeAt_licensed hheld (by simp [Call.Licenses, Stage.offset, hstage offset rfl]) offset true
    | locking offset =>
      exact .answer (hheld.licensed (by simp [Call.Licenses, Stage.offset, Stage.call])) _
    | writing request span =>
      exact hs'.looked_licensed (hawaits request.key rfl) (recheck_looked hs'.mapped request.key hfault)
        (recheck_brings hrefl request.key span hfault)
        fun locked s' h hspan hlen => writeLocked_licensed h hspan hlen
    | deleting key span =>
      exact hs'.looked_licensed (hawaits key rfl) (recheck_looked hs'.mapped key hfault)
        (recheck_brings hrefl key span hfault) fun locked s' h hspan _ => deleteLocked_licensed h hspan
    | appending request held => exact appendLocked_licensed hheld hnone hs.length_le held
    | resorting => exact resortLocked_licensed hheld

/-- **Every stretch of every call.** -/
theorem Call.stretch_licensed {call : Call} {pending : Option Stage}
    (hpending : ∀ stage, pending = some stage → stage.call = call ∧ stage.Licensed)
    (hawaits : ∀ key, call.key? = some key → s.handle.Awaits i (pending.bind Stage.span?) key) :
    SessionM.Licensed (call.stretch pending) s s call := by
  cases pending with
  | none => exact Call.start_licensed hs call
  | some stage =>
    obtain ⟨rfl, hstage⟩ := hpending stage rfl
    exact Stage.resume_licensed hs hstage hawaits

end Stretches

/-- A session has what its holder had locked before, and what it has locked since. -/
theorem Session.Holds.within {s s₀ : Session} {gained offsets : List Nat} (h : s.Holds s₀ gained)
    (hown : s₀.file.locks.Within s₀.holder offsets) :
    s.file.locks.Within s₀.holder (gained ++ offsets) := by
  intro lock hl hholder
  rcases h.locks lock hl hholder with hold | ⟨o, ho, hcov⟩
  · rcases hown lock hold hholder with hpresence | ⟨o, ho, hcov⟩
    · exact Or.inl hpresence
    · exact Or.inr ⟨o, List.mem_append_right _ ho, hcov⟩
  · exact Or.inr ⟨o, List.mem_append_left _ ho, hcov⟩

/-! ## Runs -/

/-- In one of these turns the client asked for the lock at this offset. -/
def Told (turns : List Turn) (id : HolderId) (offset : Nat) : Prop :=
  ∃ turn ∈ turns, turn.holder = id ∧ turn.request = .call (.lock offset)

theorem Told.mono {turns turns' : List Turn} {id : HolderId} {offset : Nat} (h : Told turns id offset)
    (hsub : turns ⊆ turns') : Told turns' id offset := by
  obtain ⟨turn, hturn, hasked⟩ := h
  exact ⟨turn, hsub hturn, hasked⟩

/-- The offsets at which a client may have a lock after these turns, besides its presence lock. -/
def Client.Licenses (turns : List Turn) (id : HolderId) : Option Client → Nat → Prop
  | none, _ => False
  | some (.opening _ stage), o => o ∈ stage.held
  | some (.idle _), o | some (.busy _ _), o => Header.length ≤ o ∨ Told turns id o

theorem Client.Licenses.mono {turns turns' : List Turn} {id : HolderId} {client : Option Client}
    {offset : Nat} (h : Client.Licenses turns id client offset) (hsub : turns ⊆ turns') :
    Client.Licenses turns' id client offset := by
  rcases client with _ | (⟨config, stage⟩ | handle | ⟨handle, stage⟩)
  · exact h
  · exact h
  · exact Or.imp_right (fun htold => htold.mono hsub) h
  · exact Or.imp_right (fun htold => htold.mono hsub) h

/-- What the stage of a client may wait for. -/
def Client.Waits (turns : List Turn) (id : HolderId) : Client → Prop
  | .busy _ stage => stage.Licensed ∧ ∀ o, stage.call = .lock o → Told turns id o
  | .opening _ _ | .idle _ => True

theorem Client.Waits.mono {turns turns' : List Turn} {id : HolderId} {client : Client}
    (h : client.Waits turns id) (hsub : turns ⊆ turns') : client.Waits turns' id := by
  cases client with
  | opening | idle => trivial
  | busy handle stage => exact ⟨h.1, fun o ho => (h.2 o ho).mono hsub⟩

namespace Store

/-- After these turns no client has more than it may have. -/
structure Licensed (store : Store) (turns : List Turn) : Prop where
  own : ∀ id, ∃ offsets, store.file.locks.Within id offsets ∧
    ∀ o ∈ offsets, Client.Licenses turns id (store.client? id) o
  waits : ∀ id client, store.client? id = some client → client.Waits turns id

namespace Licensed

variable {store : Store} {turns turns' : List Turn} {turn : Turn} {i : Image} {id : HolderId}

theorem ofBytes (bytes : Bytes) (mtime : Int) : (Store.ofBytes bytes mtime).Licensed [] where
  own id := ⟨[], by rintro lock ⟨⟩, by simp⟩
  waits := by rintro id client ⟨⟩

theorem mono (h : store.Licensed turns) (hsub : turns ⊆ turns') : store.Licensed turns' where
  own id := by
    obtain ⟨offsets, hown, hall⟩ := h.own id
    exact ⟨offsets, hown, fun o ho => (hall o ho).mono hsub⟩
  waits id client hclient := (h.waits id client hclient).mono hsub

/-- One client and its locks are replaced. -/
theorem update (h : store.Licensed turns) {file : SharedFile} {client : Client}
    (hothers : file.locks.others id = store.file.locks.others id) {offsets : List Nat}
    (hown : file.locks.Within id offsets) (hall : ∀ o ∈ offsets, Client.Licenses turns id (some client) o)
    (hwaits : client.Waits turns id) : (store.update id file client).Licensed turns where
  own other := by
    by_cases hid : other = id
    · rw [hid, client?_update_self]
      exact ⟨offsets, hown, hall⟩
    · obtain ⟨offsets, hother, hall⟩ := h.own other
      rw [client?_update_of_ne _ hid]
      exact ⟨offsets, hother.of_others hothers hid, hall⟩
  waits other := by
    by_cases hid : other = id
    · rw [hid, client?_update_self]
      rintro _ ⟨⟩
      exact hwaits
    · rw [client?_update_of_ne _ hid]
      exact h.waits other

/-- One client goes. -/
theorem remove (h : store.Licensed turns) {file : SharedFile}
    (hothers : file.locks.others id = store.file.locks.others id) (hown : file.locks.Within id []) :
    (({ store with file } : Store).remove id).Licensed turns where
  own other := by
    by_cases hid : other = id
    · rw [hid]
      exact ⟨[], hown, by simp⟩
    · obtain ⟨offsets, hother, hall⟩ := h.own other
      rw [client?_remove_of_ne _ hid]
      exact ⟨offsets, hother.of_others hothers hid, hall⟩
  waits other client hclient := by
    by_cases hid : other = id
    · rw [hid, client?_remove_self] at hclient
      cases hclient
    · rw [client?_remove_of_ne _ hid] at hclient
      exact h.waits other client hclient

/-- **The end of an opening.** -/
theorem settleOpen (h : store.Licensed turns) {config : Config} {result : SharedFile × Opening}
    (hadmits : Admits (store.file.outset id) [] result) :
    (store.settleOpen id config result).1.Licensed turns := by
  cases hadmits with
  | opened keeps => exact h.update keeps.others keeps.own (by simp) trivial
  | failed endures others own => exact h.remove others own
  | @waiting file stage bytes others blocked own =>
    rw [List.append_nil] at own
    exact h.update others own (fun o ho => ho) trivial

/-- **The end of a stretch.** -/
theorem settleCall (h : store.Licensed turns) {handle : Handle} {now : Nat} {call : Call}
    {pending : Option Stage} (hclient : store.client? id = some (.atStage handle pending))
    (hended : SessionM.Licensed (call.stretch pending) (store.session now id handle)
      (store.session now id handle) call)
    (hothers : (SessionM.final (call.stretch pending) (store.session now id handle)).file.locks.others
      id = store.file.locks.others id)
    (hsame : ∀ stage s', call.stretch pending (store.session now id handle) =
      .ok (.waiting stage) s' → stage.call = call)
    (htold : ∀ o, call = .lock o → Told turns id o) :
    (store.settleCall id (call.stretch pending (store.session now id handle))).1.Licensed turns := by
  obtain ⟨offsets, hown, hall⟩ := h.own id
  rw [hclient] at hall
  -- a client that runs calls may have locks behind the header, and where it was told to
  have hgained : ∀ s' : Session, s'.Licensed (store.session now id handle) call →
      ∃ offsets, s'.file.locks.Within id offsets ∧
        ∀ o ∈ offsets, Header.length ≤ o ∨ Told turns id o := by
    rintro s' ⟨gained, hholds, hlicenses⟩
    refine ⟨gained ++ offsets, hholds.within hown, fun o ho => ?_⟩
    rcases List.mem_append.1 ho with ho | ho
    · exact (hlicenses o ho).imp_right (htold o)
    · cases pending <;> exact hall o ho
  unfold SessionM.Licensed SessionM.Brings at hended
  unfold SessionM.final at hothers
  cases hresult : call.stretch pending (store.session now id handle) with
  | error e s' =>
    rw [hresult] at hended hothers
    obtain ⟨offsets, hown, hall⟩ := hgained s' hended
    exact h.update hothers hown hall trivial
  | ok progress s' =>
    rw [hresult] at hended hothers
    obtain ⟨offsets, hown, hall⟩ := hgained s' hended.1
    cases progress with
    | answered a => exact h.update hothers hown hall trivial
    | waiting stage =>
      refine h.update hothers hown hall ⟨hended.2 stage rfl, fun o ho => htold o ?_⟩
      exact (hsame stage s' hresult).symm.trans ho

/-- **One turn.** -/
theorem serve (h : store.Licensed turns) (hsteady : store.Steady) (htracks : store.Tracks i)
    (hsmall : store.file.bytes.length < UInt32.size) (turn : Turn) :
    (store.serve turn).1.Licensed (turns ++ [turn]) := by
  have h' : store.Licensed (turns ++ [turn]) := h.mono (List.subset_append_left ..)
  obtain ⟨offsets, hown, hall⟩ := h.own turn.holder
  have hserved := store.serve_served turn
  generalize store.serve turn = result at hserved ⊢
  cases hserved with
  | unavailable => exact h'
  | opening quiet client =>
    rw [client] at hall
    exact h'.settleOpen (openFile_admits (hown.mono fun o ho => (hall o ho).elim))
  | @reopening config stage quiet client =>
    rw [client] at hall
    exact h'.settleOpen (resumeOpen_admits (hown.mono fun o ho => List.mem_append_left _ (hall o ho)))
  | @closed handle quiet client =>
    refine h'.remove ?_ ?_
    · rw [closeFile_locks, LockTable.others_release]
    · rw [closeFile_locks]
      exact .release _ _
  | @ran handle call pending runs =>
    obtain ⟨hpending, hfollows, hawaits⟩ := htracks.follows runs
    have hwaits := h'.waits _ _ runs.client
    have hlicensed := Call.stretch_licensed hfollows
      (fun stage hp => ⟨runs.same stage hp, by subst hp; exact hwaits.1⟩) hawaits
    refine h'.settleCall runs.client hlicensed (hsteady.stretch_others runs) ?_ ?_
    · intro stage s' hresult
      have hended := Call.stretch_ended hfollows (htracks.small hsmall) hpending hawaits
      rw [hresult] at hended
      cases hended with
      | waiting follows pending => exact (pending stage rfl).1
    · rintro o rfl
      cases pending with
      | none => exact ⟨turn, by simp, rfl, runs.request⟩
      | some stage => exact hwaits.2 o (runs.same stage rfl)

/-- **A run.** -/
theorem run (h : store.Licensed turns) (hmade : store.Made) (hsteady : store.Steady)
    {more : List Turn} (hsmall : store.Small more) : (store.run more).1.Licensed (turns ++ more) := by
  induction more generalizing store turns with
  | nil => exact h.mono (List.subset_append_left ..)
  | cons turn more ih =>
    obtain ⟨hhere, hrest⟩ := hsmall
    obtain ⟨i, htracks, -⟩ := hmade.tracks
    have hlast := ih (h.serve hsteady htracks hhere turn) (hmade.served hhere turn)
      (hsteady.serve turn).2 hrest
    rwa [List.append_assoc] at hlast

/-- **The structural lock**: between its calls, and while it waits, a client has no more of it than it
was told to lock. -/
theorem told_of_structural (h : store.Licensed turns) (hpresent : store.Present id)
    {lock : ByteLock} (hlock : lock ∈ store.file.locks.held) (hholder : lock.holder = id)
    (hcovers : LockTable.covers structuralOffset lock.byte = true) :
    ∃ offset, Told turns id offset ∧ LockTable.covers offset lock.byte = true := by
  obtain ⟨offsets, hown, hall⟩ := h.own id
  have hbyte := LockTable.covers_iff.1 hcovers
  rcases hown lock hlock hholder with ⟨hpresence, -⟩ | ⟨o, ho, hcov⟩
  · exact absurd hbyte.1 (Nat.not_le.2 hpresence)
  · have hlicense : Header.length ≤ o ∨ Told turns id o := by
      have ho := hall o ho
      obtain ⟨handle, hidle | ⟨stage, hbusy⟩⟩ := hpresent
      · rwa [hidle] at ho
      · rwa [hbusy] at ho
    rcases hlicense with hbehind | htold
    · -- no record stands where the structural lock is
      have hend : structuralOffset + lockLen ≤ Header.length := by decide
      have hstart := (LockTable.covers_iff.1 hcov).1
      omega
    · exact ⟨o, htold, hcov⟩

end Licensed

end Store

end RecordStore
