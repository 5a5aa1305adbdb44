import Mathlib.Tactic.Common
import RecordStore.Proofs.Endings
import RecordStore.Proofs.Glances
import RecordStore.Proofs.Lasting
import RecordStore.Proofs.Sequence

/-!
# When closing stamps the file

A handle carries a mark that closing has to stamp the file.  No call takes it off.  A call that gets its
answer, or stops at a stage, leaves it on if it wrote anything at all, and so does every write of a
field, every delete of a record and every sort that is answered.

* `Session.Marked`, `Session.Accounts` — the mark is on; what was written between two sessions is
  accounted for.
* `SessionM.Accounts` — a computation that accounts for what it writes.
* `Call.Alters`, `Store.Alters` — the calls that change the store, and the turns in which they do.

Principal results: `Call.stretch_accounts` — every stretch of every call, from every session;
`Store.Steady.close_stamps` — the stamp of a client that has changed the store.
-/

set_option autoImplicit false

namespace RecordStore

/-! ## The mark -/

namespace Session

/-- Closing the session's handle has to stamp the file. -/
def Marked (s : Session) : Prop := s.handle.modified = true

/-- Between two sessions the mark is not taken off, and it is on if anything was written. -/
structure Accounts (s s' : Session) : Prop where
  stays : s.Marked → s'.Marked
  tells : s'.journal ≠ s.journal → s'.Marked

variable {s s' s'' : Session}

theorem Marked.accounts (h : s'.Marked) (s : Session) : s.Accounts s' := ⟨fun _ => h, fun _ => h⟩

theorem Looks.marked_iff (h : s.Looks s') : s'.Marked ↔ s.Marked := by
  rw [Marked, Marked, h.handle.frame.2.2]

theorem Looks.accounts (h : s.Looks s') : s.Accounts s' :=
  ⟨h.marked_iff.2, fun hne => absurd h.journal hne⟩

theorem Accounts.trans (h : s.Accounts s') (h' : s'.Accounts s'') : s.Accounts s'' where
  stays hs := h'.stays (h.stays hs)
  tells hne := by
    by_cases hsame : s''.journal = s'.journal
    · rw [hsame] at hne
      exact h'.stays (h.tells hne)
    · exact h'.tells hsame

theorem sort_marked (s : Session) : s.sort.Marked := rfl

theorem marked_sealed (s : Session) : s.sealed.Marked ↔ s.Marked := by
  unfold sealed
  split
  · rfl
  · show (s.writeAll (sealPatches s.file.bytes s.handle.headLen)).Marked ↔ s.Marked
    rw [Marked, (s.writeAll_frame _).2.1, Marked]

end Session

/-! ## Computations that account for what they write -/

namespace SessionM

variable {α β : Type} {act : SessionM α} {next : α → SessionM β} {p q : α → Prop} {r : β → Prop}

/-- Wherever the computation starts and ends, it does not take the mark off.  If it ends well, what it
wrote is accounted for, and the mark is on where the result is one of `p`. -/
def Accounts (act : SessionM α) (p : α → Prop) : Prop :=
  ∀ s : Session, Brings act s (fun a s' => s.Accounts s' ∧ (p a → s'.Marked))
    fun _ s' => s.Marked → s'.Marked

/-- A computation that fails, with the mark where it was. -/
def MustFail (act : SessionM α) : Prop :=
  ∀ s : Session, Brings act s (fun _ _ => False) fun _ s' => s.Marked → s'.Marked

/-- What is given up, and then the failure. -/
theorem mustFail_of_looks {e : Error} (h : OnlyLooks act) : MustFail (act >>= fun _ => throw e : SessionM β) :=
  fun s => ((brings_of_final (h s)).mono (fun _ _ => id) fun _ _ hlooks => hlooks.marked_iff.2).bind
    fun _ _ hlooks => .of_error rfl hlooks.marked_iff.2

namespace Accounts

theorem mono (h : Accounts act q) (hpq : ∀ a, p a → q a) : Accounts act p :=
  fun s => (h s).mono (fun a _ ⟨haccounts, hmarked⟩ => ⟨haccounts, fun ha => hmarked (hpq a ha)⟩)
    fun _ _ => id

/-- What follows where the mark is on already if `c` holds. -/
theorem follow {c : Prop} {s s' : Session} (h : Accounts act fun a => p a ∧ ¬ c)
    (haccounts : s.Accounts s') (hmarked : c → s'.Marked) :
    Brings act s' (fun a s'' => s.Accounts s'' ∧ (p a → s''.Marked)) fun _ s'' => s.Marked → s''.Marked := by
  refine (h s').mono ?_ fun _ s'' hstays hs => hstays (haccounts.stays hs)
  intro a s'' ⟨hrest, hlast⟩
  refine ⟨haccounts.trans hrest, fun ha => ?_⟩
  by_cases hc : c
  · exact hrest.stays (hmarked hc)
  · exact hlast ⟨ha, hc⟩

theorem pure {a : α} (ha : ¬ p a) : Accounts (pure a) p :=
  fun s => .of_ok rfl ⟨(Session.Looks.refl s).accounts, fun h => absurd h ha⟩

/-- A computation that writes nothing. -/
theorem of_looks (h : OnlyLooks act) (hp : ∀ a, ¬ p a) : Accounts act p :=
  fun s => (brings_of_final (h s)).mono (fun a _ hlooks => ⟨hlooks.accounts, fun ha => absurd ha (hp a)⟩)
    fun _ _ hlooks => hlooks.marked_iff.2

/-- What follows a look with a result of `p`. -/
theorem looking_bind
    (h : ∀ s : Session, Brings act s (fun a s' => s.Looks s' ∧ p a) fun _ s' => s.Looks s')
    (hnext : ∀ a, p a → Accounts (next a) r) : Accounts (act >>= next) r := by
  intro s
  refine ((h s).mono (fun _ _ => id) fun _ _ hlooks => hlooks.marked_iff.2).bind ?_
  intro a s' ⟨hlooks, ha⟩
  exact ((hnext a ha).mono fun _ => And.left).follow (c := False) hlooks.accounts False.elim

theorem looks_bind (h : OnlyLooks act) (hnext : ∀ a, Accounts (next a) r) : Accounts (act >>= next) r :=
  looking_bind (p := fun _ => True)
    (fun s => (brings_of_final (h s)).mono (fun _ _ hlooks => ⟨hlooks, trivial⟩) fun _ _ => id)
    fun a _ => hnext a

theorem get_bind {next : Session → SessionM β} (h : ∀ s, Accounts (next s) r) :
    Accounts (get >>= next) r := fun s => h s s

theorem modify_bind {f : Session → Session} {next : PUnit → SessionM β} (hf : ∀ s : Session, s.Accounts (f s))
    (h : Accounts (next ⟨⟩) r) : Accounts (modify f >>= next) r :=
  fun s => .modify_bind ((h.mono fun _ => And.left).follow (c := False) (hf s) False.elim)

/-- A step that is taken at most. -/
theorem ite_modify_bind {c : Prop} [Decidable c] {f : Session → Session} {next : PUnit → SessionM β}
    (hf : ∀ s : Session, s.Accounts (f s)) (h : Accounts (next ⟨⟩) r) :
    Accounts (if c then modify f >>= next else next ⟨⟩) r := by
  split
  · exact .modify_bind hf h
  · exact h

/-- A step that puts the mark on, and nothing but looks after it. -/
theorem mark_bind {f : Session → Session} {next : PUnit → SessionM β} (hf : ∀ s, (f s).Marked)
    (h : OnlyLooks (next ⟨⟩)) : Accounts (modify f >>= next) r :=
  fun s => .modify_bind ((of_looks h fun _ hr => hr.2 trivial).follow (c := True)
    ((hf s).accounts s) fun _ => hf s)

/-- What is written before the mark is put on. -/
theorem before (h : ∀ s : Session, s.Marked → (final act s).Marked)
    (hnext : ∀ a, Accounts (next a) fun _ => True) : Accounts (act >>= next) r := by
  intro s
  refine (brings_of_final (h s)).bind fun a s' hs' => (hnext a s').mono ?_ fun _ s'' hstays hs =>
    hstays (hs' hs)
  intro b s'' ⟨_, hmarked⟩
  exact ⟨(hmarked trivial).accounts s, fun _ => hmarked trivial⟩

/-! ### Failures that are handed on -/

/-- Where a computation ends that hands its failure on. -/
def Hands (p : α → Prop) (s : Session) (result : Except Error α) (s' : Session) : Prop :=
  match result with
  | .ok a => s.Accounts s' ∧ (p a → s'.Marked)
  | .error _ => s.Marked → s'.Marked

theorem Hands.stays {s s' : Session} {result : Except Error α} (h : Hands p s result s') :
    s.Marked → s'.Marked := by
  cases result with
  | ok a => exact h.1.stays
  | error e => exact h

theorem Hands.looks {s s' s'' : Session} {result : Except Error α} (h : Hands p s result s')
    (hlooks : s'.Looks s'') : Hands p s result s'' := by
  cases result with
  | ok a => exact ⟨h.1.trans hlooks.accounts, fun ha => hlooks.marked_iff.2 (h.2 ha)⟩
  | error e => exact fun hs => hlooks.marked_iff.2 (h hs)

theorem attempt (h : Accounts act p) (s : Session) :
    Brings (attempt act) s (Hands p s) fun _ s' => s.Marked → s'.Marked :=
  (h s).attempt.mono (fun result _ hresult => by cases result <;> exact hresult) fun _ _ => id

theorem unlockingStructure (h : Accounts act p) (s : Session) :
    Brings (unlockingStructure act) s (Hands p s) fun _ s' => s.Marked → s'.Marked := by
  refine (h.attempt s).bind fun result s' hresult => ?_
  have hunlock := brings_of_final ((onlyRelocks_unlock structuralOffset).onlyLooks s')
  refine (hunlock.mono (fun _ _ => id) fun _ s'' hlooks => (hresult.looks hlooks).stays).bind ?_
  exact fun _ s'' hlooks => .of_ok rfl (hresult.looks hlooks)

/-- What is done with a failure that was handed on is to fail. -/
theorem hands_bind {act : SessionM (Except Error α)} {next : Except Error α → SessionM β}
    (h : ∀ s, Brings act s (Hands p s) fun _ s' => s.Marked → s'.Marked)
    (hok : ∀ a, Accounts (next (.ok a)) fun b => r b ∧ ¬ p a) (herror : ∀ e, MustFail (next (.error e))) :
    Accounts (act >>= next) r := by
  intro s
  refine (h s).bind fun result s' hresult => ?_
  cases result with
  | ok a => exact (hok a).follow hresult.1 hresult.2
  | error e =>
    exact (herror e s').mono (fun _ _ => False.elim) fun _ s'' hstays hs => hstays (hresult hs)

end Accounts

/-! ## Writing -/

section Writes

variable {request : WriteRequest} {span : Span} {key : Bytes} {offset : Nat}

/-- Nothing is to be appended only where no field is named. -/
theorem lineToAppend_brings (key : Bytes) (field : Option Field) (old : Option Span) (s : Session) :
    Brings (lineToAppend key field old) s (fun line s' => s.Looks s' ∧ (line = none → field = none))
      fun _ s' => s.Looks s' := by
  unfold lineToAppend
  split
  · exact .of_ok rfl ⟨.refl s, fun _ => rfl⟩
  · refine (brings_of_final ((onlyRelocks_recordAt _).onlyLooks s)).bind fun r s' hlooks => ?_
    exact .of_ok rfl ⟨hlooks, nofun⟩
  · exact .of_ok rfl ⟨.refl s, nofun⟩

/-- A published line puts the mark on. -/
theorem commitLine_accounts (line : Bytes) (count : UInt32) (old : Option Span) :
    Accounts (commitLine offset line count old) fun _ => True := by
  unfold commitLine
  refine .before (fun s => id) fun _ => .before ?_ fun seq => ?_
  · exact fun s hs => ((onlyRelocks_counter Header.appendSeqAt).onlyLooks s).marked_iff.2 hs
  · exact .mark_bind (fun s => rfl) Session.Looks.refl

/-- **An append** accounts for what it writes, and puts the mark on if a field is named. -/
theorem appendRecord_accounts (key : Bytes) (field : Option Field) :
    Accounts (appendRecord key field) fun _ => field ≠ none := by
  unfold appendRecord
  refine .looks_bind (onlyRelocks_counter Header.sinceSortAt).onlyLooks fun count => .get_bind fun s => ?_
  refine .looks_bind (onlyLooks_locate key _) fun old => ?_
  refine .ite_modify_bind (fun s => s.sort_marked.accounts s) ?_
  refine .looking_bind (lineToAppend_brings key field old) fun line hline => ?_
  cases line with
  | none => exact .of_looks Session.Looks.refl fun _ hne => hne (hline rfl)
  | some line =>
    -- the newline that the last line lacks is written before the mark is put on
    refine .before (fun s hs => ?_) fun offset => .before (fun s hs => ?_) fun granted => ?_
    · rw [final_ok (sealTail_sealed s)]
      exact s.marked_sealed.2 hs
    · exact ((onlyRelocks_tryLock offset .exclusive).onlyLooks s).marked_iff.2 hs
    · refine .hands_bind (commitLine_accounts line _ old).attempt (fun _ => ?_) fun e => ?_
      · exact .of_looks Session.Looks.refl fun _ h => h.2 trivial
      · exact mustFail_of_looks (onlyRelocks_unlock offset).onlyLooks

theorem appendLocked_accounts (request : WriteRequest) (held : Option Nat) :
    Accounts (appendLocked request held) fun _ => request.field ≠ none := by
  unfold appendLocked
  refine .hands_bind (appendRecord_accounts request.key request.field).unlockingStructure
    (fun appended => ?_) fun e => ?_
  · refine .looks_bind (onlyRelocks_forM_unlock held).onlyLooks fun _ => ?_
    refine .of_looks ?_ fun _ h => h.2 h.1
    split
    · exact (onlyRelocks_forM_unlock appended).onlyLooks.bind fun _ => Session.Looks.refl
    · exact Session.Looks.refl
  · dsimp only
    split
    · exact mustFail_of_looks (onlyRelocks_forM_unlock held).onlyLooks
    · exact fun s => .of_error rfl id

end Writes

end SessionM

/-! ## Calls -/

/-- A call changes the store for sure: it is answered, and it is a write that names a field, a delete
that has found its key, or a sort. -/
def Call.Alters : Call → Progress → Prop
  | .write request, .answered _ => request.field ≠ none
  | .delete _, .answered a => a = .flag true
  | .resort, .answered _ => True
  | _, _ => False

theorem Call.not_alters_waiting (call : Call) (stage : Stage) : ¬ call.Alters (.waiting stage) := by
  cases call <;> exact id

theorem Call.not_alters_of_glances {call : Call} (h : call.Glances) (progress : Progress) :
    ¬ call.Alters progress := by
  cases call with
  | write | delete | resort => exact h.elim
  | _ => exact id

theorem WriteRequest.named_of_alters {request : WriteRequest} {progress : Progress}
    (h : (Call.write request).Alters progress) : request.field ≠ none := by
  cases progress with
  | answered => exact h
  | waiting stage => exact absurd h (Call.not_alters_waiting _ stage)

namespace SessionM

variable {request : WriteRequest} {span : Span}

theorem append_accounts (held : Option Nat) :
    Accounts (append request held) (Call.write request).Alters := by
  refine .looks_bind (onlyRelocks_tryLock structuralOffset .exclusive).onlyLooks fun granted => ?_
  split
  · exact (appendLocked_accounts request held).mono fun _ => WriteRequest.named_of_alters
  · exact .pure (Call.not_alters_waiting _ _)

theorem update_accounts : Accounts (update request span) (Call.write request).Alters := by
  unfold update
  split
  · next hfield =>
    refine .of_looks (onlyRelocks_finishInPlace request span).onlyLooks fun _ halters => ?_
    exact WriteRequest.named_of_alters halters hfield
  · refine .looks_bind (onlyRelocks_recordAt span).onlyLooks fun record => ?_
    split
    · split
      · exact .mark_bind (fun s => rfl) (onlyRelocks_finishInPlace request span).onlyLooks
      · exact append_accounts _
    · exact append_accounts _

theorem writeFound_accounts (found : Option Span) :
    Accounts (writeFound request found) (Call.write request).Alters := by
  cases found with
  | none => exact append_accounts none
  | some span => exact update_accounts

theorem writeLocked_accounts (locked : Locked) :
    Accounts (writeLocked request locked) (Call.write request).Alters := by
  cases locked with
  | absent => exact writeFound_accounts none
  | granted span => exact writeFound_accounts (some span)
  | busy span => exact .pure (Call.not_alters_waiting _ _)

theorem write_accounts : Accounts (write request) (Call.write request).Alters := by
  unfold write
  split
  · exact fun s => .of_error rfl id
  · split
    · exact .looks_bind (onlyLooks_locateLocking request.key .ifMissing) writeLocked_accounts
    · exact .looks_bind (onlyLooks_locate request.key .ifMissing) writeFound_accounts

/-- **A delete** puts the mark on once the record is dead and its lock given up. -/
theorem deleteLocked_accounts (key : Bytes) (locked : Locked) :
    Accounts (deleteLocked key locked) (Call.delete key).Alters := by
  cases locked with
  | absent => exact .pure nofun
  | busy span => exact .pure (Call.not_alters_waiting _ _)
  | granted span =>
    refine .before (fun s => id) fun _ => .before (fun s hs => ?_) fun _ => ?_
    · exact ((onlyRelocks_unlock span.offset).onlyLooks s).marked_iff.2 hs
    · exact .mark_bind (fun s => rfl) Session.Looks.refl

theorem resortLocked_accounts : Accounts resortLocked Call.resort.Alters := by
  have hresort : Accounts resort fun _ => True :=
    .looks_bind onlyLooks_refresh fun _ => .mark_bind Session.sort_marked Session.Looks.refl
  unfold resortLocked
  refine .hands_bind hresort.unlockingStructure (fun _ => ?_) fun e s => .of_error rfl id
  exact .pure fun h => h.2 trivial

end SessionM

section Calls

open SessionM

theorem Call.start_accounts (call : Call) : Accounts call.start call.Alters := by
  cases call with
  | write request => exact write_accounts
  | delete key =>
    exact .looks_bind (onlyLooks_locateLocking key .ifMissing) (deleteLocked_accounts key)
  | resort =>
    refine .looks_bind (onlyRelocks_tryLock structuralOffset .exclusive).onlyLooks fun granted => ?_
    split
    · exact resortLocked_accounts
    · exact .pure (Call.not_alters_waiting _ _)
  | _ => exact .of_looks (Call.onlyLooks_start trivial) (Call.not_alters_of_glances trivial)

theorem Stage.granted_accounts (stage : Stage) : Accounts stage.granted stage.call.Alters := by
  cases stage with
  | writing request span =>
    exact .looks_bind (onlyLooks_recheck request.key span) writeLocked_accounts
  | deleting key span => exact .looks_bind (onlyLooks_recheck key span) (deleteLocked_accounts key)
  | appending request held =>
    exact (appendLocked_accounts request held).mono fun _ => WriteRequest.named_of_alters
  | resorting => exact resortLocked_accounts
  | _ => exact .of_looks (Stage.onlyLooks_granted trivial) (Call.not_alters_of_glances trivial)

/-- **Every stretch of every call**, from every session, accounts for what it writes, and puts the mark
on if the call changes the store. -/
theorem Call.stretch_accounts {call : Call} {pending : Option Stage}
    (hsame : ∀ stage, pending = some stage → stage.call = call) :
    Accounts (call.stretch pending) call.Alters := by
  cases pending with
  | none => exact call.start_accounts
  | some stage =>
    obtain rfl := hsame stage rfl
    refine .looks_bind (onlyRelocks_tryLock stage.offset .exclusive).onlyLooks fun granted => ?_
    split
    · exact stage.granted_accounts
    · exact .pure (Call.not_alters_waiting _ _)

end Calls

/-! ## Clients -/

namespace Store

variable {store : Store} {turn : Turn} {id : HolderId}

/-- The client has the store open, and closing its handle has to stamp the file. -/
def Marked (store : Store) (id : HolderId) : Prop :=
  ∃ handle pending, store.client? id = some (.atStage handle pending) ∧ handle.modified = true

/-- A call is answered in this turn that changes the store: a write that names a field or has written
anything, a delete that has found its key, or a sort. -/
def Alters (store : Store) (turn : Turn) : Prop :=
  ∃ call a, store.running? turn = some call ∧ (store.serve turn).2 = .answered a ∧
    (call.Alters (.answered a) ∨ store.journal turn ≠ [])

/-- A client stays marked through a stretch, and is marked if the stretch has changed the store. -/
theorem Runs.marked {handle : Handle} {call : Call} {pending : Option Stage}
    (h : store.Runs turn handle call pending)
    (hmark : handle.modified = true ∨ store.Alters turn) :
    (store.serve turn).1.Marked turn.holder := by
  have haccounts := Call.stretch_accounts h.same (store.session turn.now turn.holder handle)
  obtain ⟨pending', hclient⟩ := store.settleCall_client? turn.holder (call.stretch pending)
    (store.session turn.now turn.holder handle)
  rw [← h.serve] at hclient
  refine ⟨_, pending', hclient, ?_⟩
  show (SessionM.final (call.stretch pending) (store.session turn.now turn.holder handle)).Marked
  have hjournal := h.journal
  cases hresult : call.stretch pending (store.session turn.now turn.holder handle) with
  | error e s' =>
    rw [SessionM.final_error hresult]
    refine haccounts.error hresult (hmark.resolve_right fun halters => ?_)
    obtain ⟨_, a, _, hanswered, _⟩ := halters
    rw [h.serve, hresult] at hanswered
    cases hanswered
  | ok progress s' =>
    rw [SessionM.final_ok hresult] at hjournal ⊢
    obtain ⟨hall, hcertain⟩ := haccounts.ok hresult
    rcases hmark with hmark | ⟨call', a, hrunning, hanswered, halters⟩
    · exact hall.stays hmark
    · obtain rfl := Option.some.inj (h.running.symm.trans hrunning)
      rcases halters with halters | hwrote
      · refine hcertain ?_
        rw [h.serve, hresult] at hanswered
        cases progress with
        | answered a' =>
          cases hanswered
          exact halters
        | waiting stage => cases hanswered
      · rw [hjournal] at hwrote
        exact hall.tells hwrote

/-- **A client that has changed the store** is marked. -/
theorem Alters.marked (h : store.Alters turn) : (store.serve turn).1.Marked turn.holder := by
  obtain ⟨call, a, hrunning, hrest⟩ := id h
  obtain ⟨handle, pending, hruns, -⟩ := runs_of_running hrunning
  exact hruns.marked (.inr h)

/-- A marked client stays so until it closes its handle. -/
theorem Marked.serve (h : store.Marked id) (hstays : turn.holder = id → turn.request ≠ .close) :
    (store.serve turn).1.Marked id := by
  obtain ⟨handle, pending, hclient, hmark⟩ := h
  by_cases hid : turn.holder = id
  · subst hid
    cases hrunning : store.running? turn with
    | some call =>
      obtain ⟨handle', pending', hruns, -⟩ := runs_of_running hrunning
      have hsame := hclient.symm.trans hruns.client
      refine hruns.marked (.inl ?_)
      cases pending <;> cases pending' <;> cases hsame <;> exact hmark
    | none =>
      rw [serve_of_not_running hclient hrunning (hstays rfl)]
      exact ⟨handle, pending, hclient, hmark⟩
  · exact ⟨handle, pending, (store.serve_client?_of_ne (Ne.symm hid)).trans hclient, hmark⟩

theorem Marked.run (h : store.Marked id) {turns : List Turn}
    (hstays : ∀ turn ∈ turns, turn.holder = id → turn.request ≠ .close) :
    (store.run turns).1.Marked id := by
  induction turns generalizing store with
  | nil => exact h
  | cons turn more ih =>
    exact ih (h.serve (hstays turn List.mem_cons_self)) fun later hlater =>
      hstays later (List.mem_cons_of_mem _ hlater)

/-- What closing writes: nothing, or the stamp over the old one. -/
theorem serve_close_bytes {handle : Handle} (hclient : store.client? id = some (.idle handle))
    (now : Nat) : (store.serve ⟨now, id, .close⟩).1.file.bytes = if handle.modified then
      (⟨Header.modifiedAt, Hex.word (UInt32.ofNat now)⟩ : Patch).apply store.file.bytes
    else store.file.bytes := by
  simp only [Store.serve, hclient, Store.close, closeFile, closingPatch?]
  cases handle.modified with
  | false => rfl
  | true => exact store.file.patch_bytes now _

/-- **Closing stamps the file** if the client is marked. -/
theorem Steady.close_stamps (hs : store.Steady) (h : store.Marked id) {now : Nat}
    (hcloses : (store.serve ⟨now, id, .close⟩).2 = .answered .done) :
    Header.counterAt? (store.serve ⟨now, id, .close⟩).1.file.bytes Header.modifiedAt =
      some (UInt32.ofNat now) := by
  obtain ⟨handle, pending, hclient, hmark⟩ := h
  have hlen := (hs id _ hclient).atStage.1.legible.length_le
  cases pending with
  | some stage => simp [Store.serve, hclient, Client.atStage] at hcloses
  | none =>
    rw [serve_close_bytes hclient now, if_pos hmark]
    exact counterAt?_apply_word (Nat.le_trans (by decide) hlen) _

end Store

end RecordStore
