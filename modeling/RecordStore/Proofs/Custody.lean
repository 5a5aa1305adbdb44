import Mathlib.Tactic.Common
import RecordStore.Proofs.Endings

/-!
# What a call may leave locked

A write moves the lock of its record to the new line, gives it up or keeps it, by its mode; a locking
read leaves the record of its key locked; a delete leaves nothing of its record locked; and a call that
is refused leaves the locks as they were.

* `LockMode.Leaves` — what a write leaves locked of the old and the new record of its key.
* `Call.Leaves`, `Call.Promises` — what any call leaves locked, when it answers or is refused.
* `SessionM.Unrefusing` — a computation that does not refuse its call.

Principal results: `LockMode.leaves_in_place`, `LockMode.leaves_appended` — the locks of a write;
`SessionM.unrefusing_writeFound` — what refuses a write does so before it has looked its key up.
-/

set_option autoImplicit false

namespace RecordStore

/-! ## What is left locked -/

namespace LockTable

variable {table table' : LockTable} {holder : HolderId} {offset : Nat} {offsets offsets' : List Nat}

/-- The holder has no lock in the range at `offset`. -/
def Lacks (table : LockTable) (holder : HolderId) (offset : Nat) : Prop :=
  ∀ lock ∈ table.held, lock.holder = holder → covers offset lock.byte = false

theorem lacks_clear (table : LockTable) (holder : HolderId) (offset : Nat) :
    (table.clear holder offset).Lacks holder offset := by
  intro lock hl hown
  have hnot := (mem_clear_iff.1 hl).2
  rw [not_and, Bool.not_eq_true] at hnot
  exact hnot hown

theorem Lacks.clear (h : table.Lacks holder offset) (other : Nat) :
    (table.clear holder other).Lacks holder offset :=
  fun lock hl => h lock (mem_clear_iff.1 hl).1

theorem Adds.mono (h : table.Adds table' holder offsets) (hsub : offsets ⊆ offsets') :
    table.Adds table' holder offsets' := fun lock hl =>
  (h lock hl).imp_right fun ⟨hholder, o, ho, hcov⟩ => ⟨hholder, o, hsub ho, hcov⟩

/-- A lock that was added is given up again. -/
theorem Adds.clear_of_subset (h : table.Adds table' holder offsets) (hsub : offsets ⊆ offset :: offsets') :
    table.Adds (table'.clear holder offset) holder offsets' := by
  refine (h.clear offset).mono fun o ho => ?_
  obtain ⟨ho, hne⟩ := List.mem_filter.1 ho
  exact (List.mem_cons.1 (hsub ho)).resolve_left (of_decide_eq_true hne)

/-- Gives up what `holder` has at an offset that there may be. -/
def clearAll (table : LockTable) (holder : HolderId) : Option Nat → LockTable
  | none => table
  | some offset => table.clear holder offset

theorem Lacks.clearAll (h : table.Lacks holder offset) (held : Option Nat) :
    (table.clearAll holder held).Lacks holder offset := by
  cases held with
  | none => exact h
  | some other => exact h.clear other

theorem Adds.clearAll (h : table.Adds table' holder offsets) {held : Option Nat}
    (hsub : offsets ⊆ held.toList ++ offsets') :
    table.Adds (table'.clearAll holder held) holder offsets' := by
  cases held with
  | none => exact h.mono hsub
  | some offset => exact h.clear_of_subset hsub

theorem holdsExclusive_clearAll_of_apart {held : Option Nat}
    (h : ∀ o, held = some o → Apart o offset) :
    (table.clearAll holder held).holdsExclusive holder offset = table.holdsExclusive holder offset := by
  cases held with
  | none => rfl
  | some o => exact holdsExclusive_clear_of_apart (h o rfl)

end LockTable

theorem Session.freeAll_locks (s : Session) (held : Option Nat) :
    (s.freeAll held).file.locks = s.file.locks.clearAll s.holder held := by
  cases held <;> rfl

theorem Session.freeAll_holder (s : Session) (held : Option Nat) : (s.freeAll held).holder = s.holder := by
  cases held <;> rfl

/-- What a write of this mode leaves locked.  The record of its key stood at `old` and stands at `new`,
and the locks of `table` have become those of `table'`. -/
structure LockMode.Leaves (mode : LockMode) (id : HolderId) (old new : Option Nat)
    (table table' : LockTable) : Prop where
  stands : new ≠ none
  superseded : ∀ o, old = some o → new ≠ some o → table'.Lacks id o
  released : mode.releases = true → ∀ o, new = some o → table'.Lacks id o
  held : mode.releases = false →
    (mode.acquires = true ∨ ∀ o, old = some o → table.holdsExclusive id o = true) →
      ∀ o, new = some o → table'.holdsExclusive id o = true
  adds : table.Adds table' id (if mode.releases then [] else new.toList)

section Modes

open SessionM

variable {request : WriteRequest} {id : HolderId} {table table' : LockTable}

/-- **A record that stays where it is.** -/
theorem LockMode.leaves_in_place {o : Nat} (hadds : table.Adds table' id [o])
    (hheld : request.mode.acquires = true ∨ table.holdsExclusive id o = true →
      table'.holdsExclusive id o = true) :
    request.mode.Leaves id (some o) (some o) table (table'.clearAll id (released request (some o))) := by
  unfold SessionM.released
  refine ⟨by simp, ?_, ?_, ?_, ?_⟩
  · rintro p ⟨⟩ hne
    exact absurd rfl hne
  · rintro hmode p ⟨⟩
    rw [if_pos hmode]
    exact LockTable.lacks_clear _ _ _
  · rintro hmode howned p ⟨⟩
    rw [hmode]
    exact hheld (howned.imp_right fun h => h _ rfl)
  · split
    · exact hadds.clearAll (List.Subset.refl _)
    · exact hadds

/-- **A record that gives way to a new line.** -/
theorem LockMode.leaves_appended {old : Option Nat} {new : Nat} (hadds : table.Adds table' id old.toList)
    (hstructural : LockTable.Apart structuralOffset new)
    (hold : ∀ o, old = some o → LockTable.Apart o new) :
    request.mode.Leaves id old (some new) table
      ((((((table'.set id structuralOffset .exclusive).set id new .exclusive).clear id
        structuralOffset).clearAll id old).clearAll id (released request (some new)))) := by
  have hfirst : new :: structuralOffset :: old.toList ⊆ structuralOffset :: new :: old.toList := by
    intro o ho
    simp only [List.mem_cons] at ho ⊢
    tauto
  have hsecond : new :: old.toList ⊆ old.toList ++ [new] := by
    intro o ho
    simp only [List.mem_cons, List.mem_append, List.not_mem_nil, or_false] at ho ⊢
    tauto
  have hmoved := (((hadds.set structuralOffset .exclusive).set new .exclusive).clear_of_subset
    hfirst).clearAll hsecond
  unfold SessionM.released
  refine ⟨by simp, ?_, ?_, ?_, ?_⟩
  · rintro o rfl -
    exact (LockTable.lacks_clear _ _ _).clearAll _
  · rintro hmode p ⟨⟩
    rw [if_pos hmode]
    exact LockTable.lacks_clear _ _ _
  · rintro hmode - p ⟨⟩
    rw [hmode, if_neg (by decide), LockTable.clearAll, LockTable.holdsExclusive_clearAll_of_apart hold,
      LockTable.holdsExclusive_clear_of_apart hstructural]
    exact LockTable.holdsExclusive_set_self
  · split
    · exact hmoved.clearAll (List.Subset.refl _)
    · exact hmoved

end Modes

/-- What an answered call leaves locked.  These were the live records of the keys, and these are; the
locks of `table` have become those of `table'`. -/
def Call.Leaves (id : HolderId) (before after : Bytes → Option Record) (table table' : LockTable) :
    Call → Answer → Prop
  | .write request, _ => request.mode.Leaves id ((before request.key).map fun r => r.offset)
    ((after request.key).map fun r => r.offset) table table'
  | .read key part true, a => match after key with
    | some r => a = part.of r ∧ table'.holdsExclusive id r.offset = true ∧
      table.Adds table' id [r.offset]
    | none => a = part.missing ∧ table' = table
  | .readAt offset true, .record (some r) => r.offset = offset ∧
    table'.holdsExclusive id offset = true ∧ table.Adds table' id [offset]
  | .delete key, _ => after key = none ∧ table.Adds table' id [] ∧
    ∀ r, before key = some r → table'.Lacks id r.offset
  | .lock offset, _ => table'.holdsExclusive id offset = true ∧ table.Adds table' id [offset]
  | _, _ => table.Adds table' id []

/-- A call is refused for a lock that another holder has, or for what cannot be written. -/
def Error.Refuses : Error → Prop
  | .contention _ | .invalidData _ => True
  | .io _ | .invalidHeader | .malformed _ _ | .lock _ => False

/-- What a call leaves locked when it has not waited. -/
def Call.Promises (id : HolderId) (before after : Bytes → Option Record) (table table' : LockTable)
    (call : Call) : Outcome → Prop
  | .answered a => call.Leaves id before after table table' a
  | .failed e => e.Refuses → table' = table
  | .opened | .waiting | .unavailable => True

/-! ## Computations that refuse nothing -/

namespace SessionM

/-- A computation that does not refuse its call. -/
def Unrefusing {α : Type} (act : SessionM α) : Prop := ∀ s e s', act s = .error e s' → ¬ e.Refuses

section Refusals

variable {α β : Type} {act : SessionM α} {next : α → SessionM β}

theorem Unrefusing.bind (h : Unrefusing act) (hnext : ∀ a, Unrefusing (next a)) :
    Unrefusing (act >>= next) := by
  intro s e s' herror
  cases hact : act s with
  | ok a s₁ =>
    rw [bind_ok hact] at herror
    exact hnext a s₁ e s' herror
  | error e₁ s₁ =>
    rw [bind_error hact] at herror
    cases herror
    exact h s e s' hact

theorem Unrefusing.get_bind {next : Session → SessionM β} (h : ∀ s, Unrefusing (next s)) :
    Unrefusing (get >>= next) := fun s => h s s

theorem Unrefusing.modify_bind {f : Session → Session} {next : PUnit → SessionM β}
    (h : Unrefusing (next ⟨⟩)) : Unrefusing (modify f >>= next) := fun s => h (f s)

/-- A failure is handed on. -/
theorem Unrefusing.attempt_bind {next : Except Error α → SessionM β} (h : Unrefusing act)
    (hok : ∀ a, Unrefusing (next (.ok a))) (herr : ∀ e, ¬ e.Refuses → Unrefusing (next (.error e))) :
    Unrefusing (attempt act >>= next) := by
  intro s e s' herror
  cases hact : act s with
  | ok a s₁ =>
    rw [bind_ok (attempt_ok hact)] at herror
    exact hok a s₁ e s' herror
  | error e₁ s₁ =>
    rw [bind_ok (attempt_error hact)] at herror
    exact herr e₁ (h s e₁ s₁ hact) s₁ e s' herror

theorem unrefusing_pure (a : α) : Unrefusing (pure a : SessionM α) := by
  rintro s e s' ⟨⟩

theorem unrefusing_throw {e : Error} (h : ¬ e.Refuses) : Unrefusing (throw e : SessionM α) := by
  rintro s _ s' ⟨⟩
  exact h

end Refusals

theorem unrefusing_counter (offset : Nat) : Unrefusing (counter offset) := by
  intro s e s' herror
  rw [counter_eq_match] at herror
  cases hread : Header.counterAt? s.data offset with
  | some value =>
    rw [hread] at herror
    cases herror
  | none =>
    rw [hread] at herror
    cases herror
    exact id

theorem unrefusing_refresh : Unrefusing refresh := by
  refine (unrefusing_counter Header.appendSeqAt).bind fun seq => .get_bind fun s => ?_
  split
  · exact unrefusing_pure _
  · exact .modify_bind (unrefusing_pure _)

theorem unrefusing_find (key : Bytes) : Unrefusing (find key) := by
  intro s e s' herror
  obtain ⟨h, heq, -⟩ := find_cases s key
  rw [heq] at herror
  cases herror

theorem unrefusing_locate (key : Bytes) (freshness : Freshness) : Unrefusing (locate key freshness) := by
  refine .get_bind fun s => ?_
  dsimp only
  split
  · exact unrefusing_refresh.bind fun _ => unrefusing_find key
  · exact unrefusing_find key

theorem not_refuses_of_decode {data : Bytes} {offset : Nat} {e : Error}
    (h : Record.decode data offset = .error e) : ¬ e.Refuses := by
  unfold Record.decode at h
  split at h
  · cases h
    exact id
  · cases hline : Record.ofLine ⟨offset, takeLine (data.drop offset)⟩ with
    | ok r =>
      rw [hline] at h
      cases h
    | error d =>
      rw [hline] at h
      cases h
      exact id

theorem unrefusing_recordAt (span : Span) : Unrefusing (recordAt span) := by
  intro s e s' herror
  rw [recordAt_eq_match] at herror
  cases hdec : Record.decode s.data span.offset with
  | ok r =>
    rw [hdec] at herror
    cases herror
  | error e₁ =>
    rw [hdec] at herror
    cases herror
    exact not_refuses_of_decode hdec

theorem unrefusing_lineToAppend (key : Bytes) (field : Option Field) (old : Option Span) :
    Unrefusing (lineToAppend key field old) := by
  unfold lineToAppend
  split
  · exact unrefusing_pure _
  · exact (unrefusing_recordAt _).bind fun _ => unrefusing_pure _
  · exact unrefusing_pure _

theorem unrefusing_tryLock (offset : Nat) (kind : LockKind) : Unrefusing (tryLock offset kind) := by
  unfold tryLock
  split
  · exact unrefusing_throw id
  · refine .get_bind fun s => ?_
    split
    · exact .modify_bind (unrefusing_pure _)
    · exact unrefusing_pure _

theorem unrefusing_unlock (offset : Nat) : Unrefusing (unlock offset) := by
  unfold unlock
  split
  · exact unrefusing_throw id
  · rintro s e s' ⟨⟩

theorem unrefusing_sealTail : Unrefusing sealTail := by
  intro s e s' herror
  rw [sealTail_sealed] at herror
  cases herror

theorem unrefusing_commitLine (offset : Nat) (line : Bytes) (count : UInt32) (old : Option Span) :
    Unrefusing (commitLine offset line count old) := by
  refine .modify_bind ((unrefusing_counter Header.appendSeqAt).bind fun seq => ?_)
  rintro s e s' ⟨⟩

/-- **An append** is not refused. -/
theorem unrefusing_appendRecord (key : Bytes) (field : Option Field) :
    Unrefusing (appendRecord key field) := by
  unfold appendRecord
  refine (unrefusing_counter Header.sinceSortAt).bind fun count => .get_bind fun s => ?_
  refine (unrefusing_locate key _).bind fun old s' => ?_
  rw [ite_modify_bind]
  refine ((unrefusing_lineToAppend key field old).bind fun line => ?_) _
  split
  · exact unrefusing_pure _
  · refine unrefusing_sealTail.bind fun offset => (unrefusing_tryLock offset .exclusive).bind fun _ => ?_
    refine (unrefusing_commitLine offset _ _ old).attempt_bind (fun _ => unrefusing_pure _) fun e he => ?_
    exact (unrefusing_unlock offset).bind fun _ => unrefusing_throw he

/-! ### Writes behind the lookup -/

theorem unrefusing_unlockingStructure {α : Type} (act : SessionM α) :
    Unrefusing (unlockingStructure act) := by
  refine Unrefusing.bind (fun s e s' h => ?_) fun outcome =>
    (unrefusing_unlock structuralOffset).bind fun _ => unrefusing_pure _
  cases hact : act s with
  | ok a s₁ => cases (attempt_ok hact).symm.trans h
  | error e₁ s₁ => cases (attempt_error hact).symm.trans h

theorem unrefusing_forM_unlock (held : Option Nat) : Unrefusing (held.forM unlock : SessionM PUnit) := by
  cases held with
  | none => exact unrefusing_pure _
  | some offset => exact unrefusing_unlock offset

section Writes

variable (request : WriteRequest)

theorem unrefusing_appendLocked (held : Option Nat) : Unrefusing (appendLocked request held) := by
  intro s e s' herror
  have happend := unrefusing_appendRecord request.key request.field s
  unfold appendLocked at herror
  cases hact : appendRecord request.key request.field s with
  | ok appended s₁ =>
    rw [bind_ok (unlockingStructure_ok hact)] at herror
    refine ((unrefusing_forM_unlock held).bind fun _ => ?_) _ e s' herror
    split
    · exact (unrefusing_forM_unlock appended).bind fun _ => unrefusing_pure _
    · exact unrefusing_pure _
  | error e₁ s₁ =>
    have hthrow := unrefusing_throw (α := Progress) (happend e₁ s₁ hact)
    rw [bind_ok (unlockingStructure_error hact)] at herror
    dsimp only at herror
    split at herror
    · exact ((unrefusing_forM_unlock held).bind fun _ => hthrow) _ e s' herror
    · exact hthrow _ e s' herror

theorem unrefusing_append (held : Option Nat) : Unrefusing (append request held) := by
  refine (unrefusing_tryLock structuralOffset .exclusive).bind fun granted => ?_
  split
  · exact unrefusing_appendLocked request held
  · exact unrefusing_pure _

theorem unrefusing_finishInPlace (span : Span) : Unrefusing (finishInPlace request span) := by
  unfold finishInPlace
  split
  · exact (unrefusing_unlock span.offset).bind fun _ => unrefusing_pure _
  · exact unrefusing_pure _

theorem unrefusing_update (span : Span) : Unrefusing (update request span) := by
  unfold update
  split
  · exact unrefusing_finishInPlace request span
  · refine (unrefusing_recordAt span).bind fun record => ?_
    split
    · split
      · exact .modify_bind (unrefusing_finishInPlace request span)
      · exact unrefusing_append request _
    · exact unrefusing_append request _

/-- **A write that has looked its key up** is not refused any more. -/
theorem unrefusing_writeFound (found : Option Span) : Unrefusing (writeFound request found) := by
  cases found with
  | none => exact unrefusing_append request none
  | some span => exact unrefusing_update request span

theorem unrefusing_writeLocked (locked : Locked) : Unrefusing (writeLocked request locked) := by
  cases locked with
  | absent => exact unrefusing_writeFound request none
  | granted span => exact unrefusing_writeFound request (some span)
  | busy span => exact unrefusing_pure _

end Writes

end SessionM

end RecordStore
