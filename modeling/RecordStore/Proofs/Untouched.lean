import Mathlib.Tactic.Common
import RecordStore.Proofs.Custody
import RecordStore.Proofs.Staleness
import RecordStore.Proofs.Stamping

/-!
# Sessions that change nothing

A client that gets its handle without a sort, and then only looks, names no field in writes of keys that
it finds, deletes keys that are not there and has its other writes refused, leaves no trace: no byte of
the file changes, not even the stamp.

* `Store.Enters` — a client gets its handle on a file that it neither sets up nor sorts.
* `Stage.Spares`, `SessionM.Spares` — a stage, and a stretch, behind which nothing is written.
* `Store.Spares` — a turn that changes nothing.
* `Client.Clean` — a client that closing has nothing to stamp for.

Principal results: `Store.Enters.enters` — such an opening; `SessionM.write_spares`,
`SessionM.delete_spares` — calls that might have written; `Store.Steady.run_rests` — every run;
`Store.untouched_or_stamped` — sessions that change nothing, and sessions that do.
-/

set_option autoImplicit false

namespace RecordStore

/-! ## Openings that change nothing -/

section Openings

variable {now : Nat} {holder : HolderId} {config : Config} {file file' : SharedFile} {handle : Handle}

/-- An opener that has no reason to sort leaves the file as it is. -/
theorem finishOpen_rests {first : Bool}
    (h : finishOpen now holder config first file = (file', .opened handle)) (hfilled : file.bytes ≠ [])
    (hrests : first = true → ∀ header, Header.decode? file.bytes = some header →
      ¬ header.Stale file.mtime config.resortLimit) :
    handle.modified = false ∧ file'.bytes = file.bytes := by
  have hfresh : file.bytes.isEmpty = false := List.isEmpty_eq_false_iff.2 hfilled
  unfold finishOpen at h
  dsimp only at h
  rw [hfresh, if_neg Bool.false_ne_true] at h
  cases hmake : makeHandle config file.bytes false with
  | none =>
    rw [hmake] at h
    cases h
  | some made =>
    obtain ⟨header, handle₀⟩ := made
    obtain ⟨hheader, headLen, -, rfl⟩ := makeHandle_eq_some_iff.1 hmake
    have hneeds : ¬ (first && needsSort header file.mtime config.resortLimit) = true := by
      rw [Bool.and_eq_true, needsSort_iff]
      exact fun hsorts => hrests hsorts.1 header hheader hsorts.2
    rw [hmake] at h
    dsimp only at h
    rw [if_neg hneeds] at h
    cases h
    exact ⟨rfl, rfl⟩

theorem sharePresence_opened {first : Bool}
    (h : sharePresence now holder config first file = (file', .opened handle)) :
    ∃ locks, finishOpen now holder config first { file with locks } = (file', .opened handle) := by
  unfold sharePresence at h
  rcases file.acquire?_cases holder presenceOffset .shared with ⟨-, heq⟩ | ⟨-, heq⟩
  · rw [heq] at h
    cases h
  · rw [heq] at h
    exact ⟨_, h⟩

/-- An opener that has its handle has found out whether anybody else was there. -/
theorem openFile_opened (h : openFile now holder config file = (file', .opened handle)) :
    ∃ locks, finishOpen now holder config (!file.locks.blocks holder presenceOffset .exclusive)
      { file with locks } = (file', .opened handle) := by
  unfold openFile at h
  rcases file.acquire?_cases holder structuralOffset .exclusive with ⟨-, heq⟩ | ⟨-, heq⟩
  · rw [heq] at h
    cases h
  · have hblocks : (file.locks.set holder structuralOffset .exclusive).blocks holder presenceOffset
        .exclusive = file.locks.blocks holder presenceOffset .exclusive := by
      rw [← LockTable.blocks_others, LockTable.others_set, LockTable.blocks_others]
    rw [heq] at h
    dsimp only at h
    unfold probePresence at h
    rcases (file.hold holder structuralOffset .exclusive).acquire?_cases holder presenceOffset
      .exclusive with ⟨hothers, heq⟩ | ⟨halone, heq⟩
    · rw [heq] at h
      rw [show file.locks.blocks holder presenceOffset .exclusive = true from hblocks.symm.trans hothers]
      obtain ⟨locks, hfinish⟩ := sharePresence_opened h
      exact ⟨locks, hfinish⟩
    · rw [heq] at h
      rw [show file.locks.blocks holder presenceOffset .exclusive = false from hblocks.symm.trans halone]
      obtain ⟨locks, hfinish⟩ := sharePresence_opened h
      exact ⟨locks, hfinish⟩

end Openings

namespace Store

variable {store : Store} {turn : Turn} {config : Config}

/-- Whether an opener that gets its handle takes itself for the first one: nobody else has locked the
bytes that those share who have the store open.  One that has waited for its share goes by what it had
found before. -/
def alone (store : Store) (turn : Turn) : Bool :=
  match store.client? turn.holder with
  | some (.opening _ (.presence first)) => first
  | _ => !store.file.locks.blocks turn.holder presenceOffset .exclusive

/-- A client gets its handle in this turn, on a file that is not empty, and has no reason to sort. -/
structure Enters (store : Store) (turn : Turn) (config : Config) : Prop where
  opener : store.opener? turn = some config
  opened : (store.serve turn).2 = .opened
  filled : store.file.bytes ≠ []
  rests : store.alone turn = true → ∀ header, Header.decode? store.file.bytes = some header →
    ¬ header.Stale store.file.mtime config.resortLimit

/-- **An opening that succeeds** runs to its end once the client has its share. -/
theorem finishOpen_of_opener (hopener : store.opener? turn = some config)
    (hopened : (store.serve turn).2 = .opened) : ∃ locks file' handle,
      finishOpen turn.now turn.holder config (store.alone turn) { store.file with locks } =
        (file', .opened handle) ∧
      store.serve turn = (store.update turn.holder file' (.idle handle), .opened) := by
  obtain ⟨now, id, request⟩ := turn
  unfold opener? at hopener
  have hsettled : ∀ result, (∀ file' handle, result = (file', .opened handle) → ∃ locks,
      finishOpen now id config (store.alone ⟨now, id, request⟩) { store.file with locks } =
        (file', .opened handle)) → store.serve ⟨now, id, request⟩ = store.settleOpen id config result →
      ∃ locks file' handle,
        finishOpen now id config (store.alone ⟨now, id, request⟩) { store.file with locks } =
          (file', .opened handle) ∧
        store.serve ⟨now, id, request⟩ = (store.update id file' (.idle handle), .opened) := by
    intro ⟨file', opening⟩ hfinish hserve
    rw [hserve] at hopened ⊢
    cases opening with
    | opened handle =>
      obtain ⟨locks, hlocks⟩ := hfinish file' handle rfl
      exact ⟨locks, file', handle, hlocks, rfl⟩
    | failed | waiting => cases hopened
  split at hopener
  · next config' hrequest hclient =>
    dsimp only at hrequest hclient
    subst hrequest
    obtain rfl := Option.some.inj hopener
    refine hsettled (openFile now id config' store.file) (fun file' handle h => ?_) ?_
    · simp only [alone, hclient]
      exact openFile_opened h
    · simp only [serve, openFor, hclient]
  · next config' stage hrequest hclient =>
    dsimp only at hrequest hclient
    subst hrequest
    obtain rfl := Option.some.inj hopener
    refine hsettled (resumeOpen now id config' store.file stage) (fun file' handle h => ?_) ?_
    · cases stage with
      | structural =>
        simp only [alone, hclient]
        exact openFile_opened h
      | presence first =>
        simp only [alone, hclient]
        exact sharePresence_opened h
    · simp only [serve, Store.resume, hclient]
  · cases hopener

/-- **Such an opening** changes no byte, and its handle has nothing to stamp. -/
theorem Enters.enters (h : store.Enters turn config) :
    (store.serve turn).1.file.bytes = store.file.bytes ∧
      ∃ handle, (store.serve turn).1.client? turn.holder = some (.idle handle) ∧
        handle.modified = false := by
  obtain ⟨locks, file', handle, hfinish, hserve⟩ := finishOpen_of_opener h.opener h.opened
  obtain ⟨hmodified, hbytes⟩ := finishOpen_rests hfinish h.filled h.rests
  rw [hserve]
  exact ⟨hbytes, handle, client?_update_self store _ file' _, hmodified⟩

end Store

/-! ## Stretches that change nothing -/

/-- A stage that nothing is written behind: that of a call that only looks, or of a write that names no
field and waits for a record that is live. -/
def Stage.Spares (data : Bytes) (stage : Stage) : Prop :=
  stage.call.Glances ∨ ∃ request span, stage = .writing request span ∧ request.field = none ∧
    data[span.offset]? = some liveFlag

theorem Session.Looks.steady {s s' : Session} (h : s.Looks s') (hs : s.handle.Steady s.file.bytes) :
    s'.handle.Steady s'.file.bytes := by
  rw [h.bytes]
  exact hs.looks h.handle

/-- What a handle finds in a steady session stands in the file. -/
theorem Session.exists_record_of_found? {s : Session} {key : Bytes} {span : Span}
    (hs : s.handle.Steady s.file.bytes) (hfound : s.found? key = some span) :
    s.data[span.offset]? = some liveFlag ∧
      ∃ r ∈ liveRecordsFrom Header.length s.file.bytes, r.key = key := by
  obtain ⟨r, hr, hlive, hkey, rfl⟩ := hs.find?_record hfound
  have hfile : Complete s.file.bytes r.toLine := (complete_take_iff.1 hr).1
  refine ⟨?_, r, mem_liveRecordsFrom_iff.2 ⟨hfile.1, hfile.2, hlive⟩, hkey⟩
  have hflag := hr.getElem? hr.isLine.length_pos
  rw [← List.head?_eq_getElem?] at hflag
  exact hflag.trans (beq_iff_eq.1 hlive)

namespace SessionM

/-- Behind looks since `s₀`, the computation only looks, and stops at most where nothing is written
behind. -/
def Spares (act : SessionM Progress) (s₀ s : Session) : Prop :=
  Brings act s
    (fun progress s' => s₀.Looks s' ∧ ∀ stage, progress = .waiting stage → stage.Spares s'.data)
    fun _ s' => s₀.Looks s'

variable {α : Type} {s₀ s s₁ : Session} {request : WriteRequest} {key : Bytes} {span : Span}

namespace Spares

theorem answer (h : s₀.Looks s) (a : Answer) : Spares (answer a) s₀ s := .of_ok rfl ⟨h, nofun⟩

theorem wait {stage : Stage} (h : s₀.Looks s) (hstage : stage.Spares s.data) :
    Spares (wait stage) s₀ s := by
  refine .of_ok rfl ⟨h, fun stage' hsame => ?_⟩
  cases hsame
  exact hstage

/-- What follows a step that does nothing but lock and unlock. -/
theorem relocks_bind {act : SessionM α} {next : α → SessionM Progress} (hact : OnlyRelocks act)
    (h : s₀.Looks s) (hnext : ∀ a s', s.Relocks s' → Spares (next a) s₀ s') :
    Spares (act >>= next) s₀ s :=
  ((brings_of_final (hact s)).mono (fun _ _ => id) fun _ _ hrelocks => h.trans hrelocks.looks).bind hnext

end Spares

/-- A lookup comes to what the handle finds in the end. -/
theorem locate_found (s : Session) (key : Bytes) (freshness : Freshness) :
    Brings (locate key freshness) s (fun found s' => s.Looks s' ∧ s'.found? key = found)
      fun _ s' => s.Looks s' := by
  have hfind : ∀ s' : Session, s.Looks s' → Brings (find key) s'
      (fun found s'' => s.Looks s'' ∧ s''.found? key = found) fun _ s'' => s.Looks s'' := by
    intro s' hlooks
    obtain ⟨h, heq, hlook, hsame, -⟩ := find_cases s' key
    exact .of_ok heq ⟨hlooks.trans (.withHandle hlook), hsame⟩
  refine .get_bind ?_
  dsimp only
  split
  · exact (brings_of_final (onlyLooks_refresh s)).bind fun _ s' hlooks => hfind s' hlooks
  · exact hfind s (.refl s)

/-! ### Writes that name no field -/

/-- A write that names no field has come to its record. -/
theorem update_spares (h : s₀.Looks s) (hfield : request.field = none) (span : Span) :
    Spares (update request span) s₀ s := by
  have hupdate : update request span = finishInPlace request span := by
    unfold update
    rw [hfield]
  rw [hupdate]
  unfold finishInPlace
  split
  · exact .relocks_bind (onlyRelocks_unlock span.offset) h fun _ s' hrelocks =>
      .answer (h.trans hrelocks.looks) _
  · exact .answer h _

/-- **A write that names no field**, of a key that is found. -/
theorem write_spares (hs : s.handle.Steady s.file.bytes) (hfield : request.field = none)
    (hfound : locate request.key .ifMissing s = .ok (some span) s₁) : Spares (write request) s s := by
  obtain ⟨hlooks, hkey⟩ := (locate_found s request.key .ifMissing).ok hfound
  have hlive := (Session.exists_record_of_found? (hlooks.steady hs) hkey).1
  have hlocking : Brings (locateLocking request.key .ifMissing) s
      (fun locked s' => s₁.Relocks s' ∧ (locked = .granted span ∨ locked = .busy span))
      fun _ s' => s.Looks s' := by
    unfold locateLocking Brings
    rw [bind_ok hfound]
    refine Brings.bind ((brings_of_final (onlyRelocks_acquireRecord span.offset s₁)).mono
      (fun _ _ => id) fun _ _ hrelocks => hlooks.trans hrelocks.looks) fun granted s₂ hrelocks => ?_
    cases granted with
    | true => exact .of_ok rfl ⟨hrelocks, .inl rfl⟩
    | false => exact .of_ok rfl ⟨hrelocks, .inr rfl⟩
  unfold write
  split
  · exact .of_error rfl (.refl s)
  · split
    · refine hlocking.bind fun locked s₂ ⟨hrelocks, hlocked⟩ => ?_
      have hlooks₂ := hlooks.trans hrelocks.looks
      rcases hlocked with rfl | rfl
      · exact update_spares hlooks₂ hfield span
      · exact Spares.wait hlooks₂ (.inr ⟨request, span, rfl, hfield, hrelocks.data ▸ hlive⟩)
    · unfold Spares Brings
      rw [bind_ok hfound]
      exact update_spares hlooks hfield span

/-- Such a write on from where it waits for its record. -/
theorem writing_spares (hfield : request.field = none) (hlive : s.data[span.offset]? = some liveFlag) :
    Spares (Stage.writing request span).resume s s := by
  refine .relocks_bind (onlyRelocks_tryLock span.offset .exclusive) (.refl s)
    fun granted s₁ hrelocks => ?_
  have hlooks := hrelocks.looks
  rw [← hrelocks.data] at hlive
  cases granted with
  | false => exact .wait hlooks (.inr ⟨request, span, rfl, hfield, hlive⟩)
  | true =>
    have hrecheck : recheck request.key span s₁ = .ok (.granted span) s₁ := by
      unfold recheck
      rw [SessionM.get_bind, if_pos hlive]
      rfl
    show Spares (recheck request.key span >>= writeLocked request) s s₁
    unfold Spares Brings
    rw [bind_ok hrecheck]
    exact update_spares hlooks hfield span

/-! ### Calls that come to nothing -/

/-- What refuses nothing and comes behind looks. -/
theorem Unrefusing.brings {act : SessionM Progress} (h : Unrefusing act) (s₀ s : Session) :
    Brings act s (fun _ _ => True) fun e s' => e.Refuses → s₀.Looks s' := by
  cases hact : act s with
  | ok progress s' => exact .of_ok hact trivial
  | error e s' => exact .of_error hact fun hrefuses => absurd hrefuses (h s e s' hact)

/-- **A write that is refused** has only looked. -/
theorem write_refused (request : WriteRequest) (s : Session) :
    Brings (write request) s (fun _ _ => True) fun e s' => e.Refuses → s.Looks s' := by
  have hbehind : ∀ {α : Type} {act : SessionM α}, OnlyLooks act →
      Brings act s (fun _ _ => True) fun e s' => e.Refuses → s.Looks s' := fun h =>
    (brings_of_final (h s)).mono (fun _ _ _ => trivial) fun _ _ hlooks _ => hlooks
  unfold write
  split
  · exact .of_error rfl fun _ => .refl s
  · split
    · exact (hbehind (onlyLooks_locateLocking request.key .ifMissing)).bind fun locked s₁ _ =>
        (unrefusing_writeLocked request locked).brings s s₁
    · exact (hbehind (onlyLooks_locate request.key .ifMissing)).bind fun found s₁ _ =>
        (unrefusing_writeFound request found).brings s s₁

/-- **A delete of a key that is not there.** -/
theorem delete_spares (hs : s.handle.Steady s.file.bytes)
    (habsent : ∀ r ∈ liveRecordsFrom Header.length s.file.bytes, r.key ≠ key) :
    Spares (Call.delete key).start s s := by
  have hlocking : Brings (locateLocking key .ifMissing) s
      (fun locked s' => s.Looks s' ∧ locked = .absent) fun _ s' => s.Looks s' := by
    refine (locate_found s key .ifMissing).bind fun found s₁ ⟨hlooks, hfound⟩ => ?_
    cases found with
    | none => exact .of_ok rfl ⟨hlooks, rfl⟩
    | some span =>
      obtain ⟨-, r, hr, hkey⟩ := Session.exists_record_of_found? (hlooks.steady hs) hfound
      rw [hlooks.bytes] at hr
      exact absurd hkey (habsent r hr)
  refine hlocking.bind fun locked s₁ ⟨hlooks, hlocked⟩ => ?_
  subst hlocked
  exact Spares.answer hlooks _

/-- A lookup that answers a record has found its key. -/
theorem locate_of_read {r : Record} {s' : Session}
    (h : read key .record false s = .ok (.answered (.record (some r))) s') :
    ∃ span s₁, locate key .ifMissing s = .ok (some span) s₁ := by
  unfold read at h
  rw [if_neg Bool.false_ne_true] at h
  cases hlocate : locate key .ifMissing s with
  | error e s₁ =>
    rw [bind_error hlocate] at h
    cases h
  | ok found s₁ =>
    cases found with
    | some span => exact ⟨span, s₁, rfl⟩
    | none =>
      rw [bind_ok hlocate] at h
      cases h

end SessionM

/-- **A call that only looks** stops at most where nothing is written behind. -/
theorem Call.stretch_spares {s : Session} {call : Call} {pending : Option Stage} (h : call.Glances)
    (hs : s.handle.Steady s.file.bytes)
    (hpending : ∀ stage, pending = some stage → stage.call = call ∧ stage.Steady s.data) :
    SessionM.Spares (call.stretch pending) s s := by
  have hlooks := Call.onlyLooks_stretch h fun stage hp => (hpending stage hp).1
  have hends := Call.stretch_ends (Session.keeps_of_steady hs) hpending fun h : False => h.elim
  have hfinal := SessionM.brings_of_final (hlooks s)
  cases hresult : call.stretch pending s with
  | error e s' => exact .of_error hresult (hfinal.error hresult)
  | ok progress s' =>
    refine .of_ok hresult ⟨hfinal.ok hresult, fun stage hwaits => ?_⟩
    subst hwaits
    unfold SessionM.Leads at hends
    rw [hresult] at hends
    cases hends with
    | waiting keeps same =>
      left
      rw [same]
      exact h

/-! ## Clients -/

/-- A client has the store open, closing has nothing to stamp for it, and nothing is written behind the
stage at which it waits. -/
def Client.Clean (bytes : Bytes) : Client → Prop
  | .opening _ _ => False
  | .idle handle => handle.modified = false
  | .busy handle stage => handle.modified = false ∧ stage.Spares (handle.view.read bytes)

theorem Client.Clean.atStage {handle : Handle} {pending : Option Stage} {bytes : Bytes}
    (h : (Client.atStage handle pending).Clean bytes) : handle.modified = false ∧
      ∀ stage, pending = some stage → stage.Spares (handle.view.read bytes) := by
  cases pending with
  | none => exact ⟨h, nofun⟩
  | some stage =>
    refine ⟨h.1, fun stage' hsame => ?_⟩
    cases hsame
    exact h.2

theorem Client.Clean.exists_atStage {client : Client} {bytes : Bytes} (h : client.Clean bytes) :
    ∃ handle pending, client = .atStage handle pending := by
  cases client with
  | opening => exact h.elim
  | idle handle => exact ⟨handle, none, rfl⟩
  | busy handle stage => exact ⟨handle, some stage, rfl⟩

namespace Store

variable {store : Store} {turn : Turn} {id : HolderId} {client : Client}

/-- What the client asks for in this turn changes nothing: it goes on with a call or starts one that only
looks, its write is refused, or names no field and has a key that a lookup finds at this moment, or it
deletes a key that no complete live record has. -/
def Spares (store : Store) (turn : Turn) : Prop :=
  match turn.request with
  | .call (.write request) =>
    (∃ e, (store.serve turn).2 = .failed e ∧ e.Refuses) ∨
      (request.field = none ∧ ∃ r, (store.call turn.now turn.holder (.read request.key .record false)).2 =
        .answered (.record (some r)))
  | .call (.delete key) => ∀ r ∈ liveRecordsFrom Header.length store.file.bytes, r.key ≠ key
  | .call asked => asked.Glances
  | .resume => True
  | .opening _ | .close => False

/-- A turn in which client `id` changes nothing, and no other client changes the file. -/
def Rests (store : Store) (id : HolderId) (turn : Turn) : Prop :=
  if turn.holder = id then store.Spares turn
  else (store.serve turn).1.file.bytes = store.file.bytes

/-- A lookup that is answered a record has found its key. -/
theorem exists_locate_of_call {now : Nat} {handle : Handle} {key : Bytes} {r : Record}
    (hclient : store.client? id = some (.idle handle))
    (h : (store.call now id (.read key .record false)).2 = .answered (.record (some r))) :
    ∃ span s₁, SessionM.locate key .ifMissing (store.session now id handle) = .ok (some span) s₁ := by
  unfold Store.call at h
  rw [hclient] at h
  dsimp only at h
  cases hresult : (Call.read key .record false).start (store.session now id handle) with
  | error e s' =>
    rw [show (Call.read key .record false).start.run (store.session now id handle) = _ from hresult] at h
    cases h
  | ok progress s' =>
    rw [show (Call.read key .record false).start.run (store.session now id handle) = _ from hresult] at h
    cases progress with
    | answered a =>
      cases h
      exact SessionM.locate_of_read hresult
    | waiting stage => cases h

/-- **Every stretch of such a client** only looks. -/
theorem Steady.stretch_spares (hs : store.Steady) {handle : Handle} {call : Call}
    {pending : Option Stage} (hruns : store.Runs turn handle call pending)
    (hclean : (Client.atStage handle pending).Clean store.file.bytes) (hspares : store.Spares turn) :
    SessionM.Spares (call.stretch pending) (store.session turn.now turn.holder handle)
      (store.session turn.now turn.holder handle) := by
  obtain ⟨hsteady, hstage⟩ := (hs _ _ hruns.client).atStage
  cases pending with
  | some stage =>
    obtain rfl := hruns.same stage rfl
    rcases hclean.atStage.2 stage rfl with hglances | ⟨request, span, rfl, hfield, hlive⟩
    · exact Call.stretch_spares hglances hsteady fun stage' hsame =>
        ⟨hruns.same stage' hsame, hstage stage' hsame⟩
    · exact SessionM.writing_spares hfield hlive
  | none =>
    have hglancing : call.Glances → SessionM.Spares (call.stretch none)
        (store.session turn.now turn.holder handle) (store.session turn.now turn.holder handle) :=
      fun h => Call.stretch_spares h hsteady nofun
    unfold Spares at hspares
    rw [hruns.request] at hspares
    cases call with
    | write request =>
      rcases hspares with ⟨e, hfailed, hrefuses⟩ | ⟨hfield, r, hread⟩
      · rw [hruns.serve] at hfailed
        cases hresult : (Call.write request).stretch none
          (store.session turn.now turn.holder handle) with
        | error e' s' =>
          rw [hresult] at hfailed
          cases hfailed
          exact .of_error hresult ((SessionM.write_refused request _).error hresult hrefuses)
        | ok progress s' =>
          rw [hresult] at hfailed
          cases progress <;> cases hfailed
      · obtain ⟨span, s₁, hfound⟩ := exists_locate_of_call hruns.client hread
        exact SessionM.write_spares hsteady hfield hfound
    | delete key => exact SessionM.delete_spares hsteady hspares
    | resort => exact hspares.elim
    | _ => exact hglancing trivial

/-- What such a stretch leaves behind. -/
theorem settleCall_clean {now : Nat} {handle : Handle} {act : SessionM Progress}
    (h : SessionM.Spares act (store.session now id handle) (store.session now id handle))
    (hmodified : handle.modified = false) :
    let result := store.settleCall id (act (store.session now id handle))
    result.1.file.bytes = store.file.bytes ∧
      ∃ client, result.1.client? id = some client ∧ client.Clean result.1.file.bytes := by
  have hclean : ∀ {s' : Session}, (store.session now id handle).Looks s' →
      s'.file.bytes = store.file.bytes ∧ s'.handle.modified = false := fun hlooks =>
    ⟨hlooks.bytes, hlooks.handle.frame.2.2.trans hmodified⟩
  dsimp only
  cases hresult : act (store.session now id handle) with
  | error e s' =>
    obtain ⟨hbytes, hunmarked⟩ := hclean (h.error hresult)
    exact ⟨hbytes, _, client?_update_self store id s'.file _, hunmarked⟩
  | ok progress s' =>
    obtain ⟨hlooks, hstage⟩ := h.ok hresult
    obtain ⟨hbytes, hunmarked⟩ := hclean hlooks
    cases progress with
    | answered a => exact ⟨hbytes, _, client?_update_self store id s'.file _, hunmarked⟩
    | waiting stage =>
      exact ⟨hbytes, _, client?_update_self store id s'.file _, hunmarked, hstage stage rfl⟩

/-- **One turn** in which the client changes nothing, and no other one changes the file. -/
theorem Steady.serve_rests (hs : store.Steady) (hclient : store.client? id = some client)
    (hclean : client.Clean store.file.bytes) (hrests : store.Rests id turn) :
    (store.serve turn).1.file.bytes = store.file.bytes ∧
      ∃ client', (store.serve turn).1.client? id = some client' ∧
        client'.Clean (store.serve turn).1.file.bytes := by
  unfold Rests at hrests
  split at hrests
  · next hid =>
    subst hid
    cases hrunning : store.running? turn with
    | some call =>
      obtain ⟨handle, pending, hruns, hserve⟩ := runs_of_running hrunning
      obtain rfl := Option.some.inj (hclient.symm.trans hruns.client)
      rw [hserve]
      exact settleCall_clean (hs.stretch_spares hruns hclean hrests) hclean.atStage.1
    | none =>
      obtain ⟨handle, pending, rfl⟩ := hclean.exists_atStage
      have hstays : turn.request ≠ .close := by
        intro hcloses
        unfold Spares at hrests
        rw [hcloses] at hrests
        exact hrests
      rw [serve_of_not_running hclient hrunning hstays]
      exact ⟨rfl, _, hclient, hclean⟩
  · next hid =>
    rw [serve_client?_of_ne store (Ne.symm hid), hrests]
    exact ⟨rfl, client, hclient, hclean⟩

/-- **A run** of such turns. -/
theorem Steady.run_rests (hs : store.Steady) (hclient : store.client? id = some client)
    (hclean : client.Clean store.file.bytes) {turns : List Turn}
    (hrests : store.Always (fun s turn => s.Rests id turn) turns) :
    (store.run turns).1.file.bytes = store.file.bytes ∧
      ∃ client', (store.run turns).1.client? id = some client' ∧
        client'.Clean (store.run turns).1.file.bytes := by
  induction turns generalizing store client with
  | nil => exact ⟨rfl, client, hclient, hclean⟩
  | cons turn more ih =>
    obtain ⟨hbytes, client₁, hclient₁, hclean₁⟩ := hs.serve_rests hclient hclean hrests.1
    obtain ⟨hmore, hlast⟩ := ih (hs.serve turn).2 hclient₁ hclean₁ hrests.2
    exact ⟨hmore.trans hbytes, hlast⟩

/-- Closing leaves the bytes of the file as they are if there is nothing to stamp. -/
theorem close_of_clean (hclient : store.client? id = some client)
    (hclean : client.Clean store.file.bytes) (now : Nat) :
    (store.serve ⟨now, id, .close⟩).1.file.bytes = store.file.bytes := by
  cases client with
  | opening => exact hclean.elim
  | busy => simp only [serve, hclient]
  | idle handle =>
    have hunmarked : ¬ handle.modified = true := ne_true_of_eq_false hclean
    rw [serve_close_bytes hclient now, if_neg hunmarked]

/-- **Sessions that change nothing write nothing**, whatever the file held and whatever its clients have
done before.  From an opening that finds a header and no reason to sort, through turns in which the client
changes nothing and the others leave the file alone, to the end of the handle no byte changes, not even in
the stamp.  A client that has changed the store leaves the second in which it closes as the stamp,
whatever it and the others do in between. -/
theorem untouched_or_stamped {store : Store}
    (hcomes : ∃ bytes mtime before, ((ofBytes bytes mtime).run before).1 = store) (id : HolderId) :
    (∀ opening config turns now, opening.holder = id → store.Enters opening config →
      (store.serve opening).1.Always (fun s turn => s.Rests id turn) turns →
        (((store.serve opening).1.run turns).1.serve ⟨now, id, .close⟩).1.file.bytes =
          store.file.bytes) ∧
    ∀ turn turns now, turn.holder = id → store.Alters turn →
      (∀ later ∈ turns, later.holder = id → later.request ≠ .close) →
      (((store.serve turn).1.run turns).1.serve ⟨now, id, .close⟩).2 = .answered .done →
        Header.counterAt? (((store.serve turn).1.run turns).1.serve ⟨now, id, .close⟩).1.file.bytes
          Header.modifiedAt = some (UInt32.ofNat now) := by
  obtain ⟨bytes, mtime, before, rfl⟩ := hcomes
  have hsteady := ((Steady.ofBytes bytes mtime).run before).2
  constructor
  · intro opening config turns now hid henters hrests
    obtain ⟨hbytes, handle, hclient, hunmarked⟩ := henters.enters
    rw [hid] at hclient
    obtain ⟨hsame, client, hlast, hclean⟩ :=
      (hsteady.serve opening).2.run_rests hclient hunmarked hrests
    rw [close_of_clean hlast hclean now, hsame, hbytes]
  · intro turn turns now hid halters hstays hcloses
    have hmarked := halters.marked
    rw [hid] at hmarked
    exact ((hsteady.serve turn).2.run turns).2.close_stamps (hmarked.run hstays) hcloses

/-- A record of `k` whose slot names it, behind the stamp of the 100th second. -/
def searchable : Bytes :=
  { Header.fresh with appendSeq := 1, modified := 100, sinceSort := 0 }.encode
    ++ Index.withSlot (encodeRecord (ascii ['k']) [⟨ascii ['f'], ascii ['1']⟩]) 35

/-- A client that does not wait opens the store. -/
def entering : Turn := ⟨101, 1, .opening { Config.ofPath Config.defaultPath with nonblocking := true }⟩

/-- Another client locks the record; the first one is refused a write and, once the lock is free, writes
no field, deletes a key that is not there, and looks. -/
def resting : List Turn :=
  [⟨102, 2, .opening (.ofPath Config.defaultPath)⟩, ⟨102, 2, .call (.lock 35)⟩,
    ⟨103, 1, .call (.write ⟨ascii ['k'], some ⟨ascii ['f'], ascii ['2']⟩, .transient⟩)⟩,
    ⟨104, 2, .call (.unlock 35)⟩, ⟨105, 1, .call (.write ⟨ascii ['k'], none, .take⟩)⟩,
    ⟨106, 1, .call (.delete (ascii ['x']))⟩, ⟨107, 1, .call .records⟩]

/-- The client writes a value in place. -/
def altering : Turn :=
  ⟨108, 1, .call (.write ⟨ascii ['k'], some ⟨ascii ['f'], ascii ['2']⟩, .transient⟩)⟩

/-- The first session leaves the file as it was; after a value was written in place and another client
has looked at it, the stamp is the second of the closing. -/
theorem untouched_or_stamped_of_searchable_record :
    (((((ofBytes searchable 100).serve entering).1.run resting).1.serve ⟨109, 1, .close⟩).1.file.bytes =
      searchable) ∧
    Header.counterAt? ((((((ofBytes searchable 100).serve entering).1.serve altering).1.run
      [⟨110, 2, .opening (.ofPath Config.defaultPath)⟩]).1.serve ⟨111, 1, .close⟩).1.file.bytes)
        Header.modifiedAt = some 111 := by
  have hcomes : ∃ bytes mtime before, ((ofBytes bytes mtime).run before).1 = ofBytes searchable 100 :=
    ⟨searchable, 100, [], rfl⟩
  have hheader : Header.decode? searchable =
      some { Header.fresh with appendSeq := 1, modified := 100, sinceSort := 0 } := by decide +kernel
  have henters : (ofBytes searchable 100).Enters entering
      { Config.ofPath Config.defaultPath with nonblocking := true } := by
    refine ⟨rfl, by decide +kernel, by decide +kernel, fun _ header hdec => ?_⟩
    obtain rfl := Option.some.inj (hdec.symm.trans hheader)
    rw [← needsSort_iff]
    decide +kernel
  have hrests : ((ofBytes searchable 100).serve entering).1.Always (fun s turn => s.Rests 1 turn) resting := by
    refine ⟨?_, ?_, ?_, ?_, ?_, ?_, ?_, trivial⟩
    · show SharedFile.bytes _ = _
      decide +kernel
    · show SharedFile.bytes _ = _
      decide +kernel
    · exact .inl ⟨.contention 35, by decide +kernel, trivial⟩
    · show SharedFile.bytes _ = _
      decide +kernel
    · exact .inr ⟨rfl, ⟨⟨35, Index.withSlot (encodeRecord (ascii ['k']) [⟨ascii ['f'], ascii ['1']⟩]) 35⟩,
        by decide +kernel⟩, by decide +kernel⟩
    · show ∀ r ∈ liveRecordsFrom Header.length _, r.key ≠ ascii ['x']
      decide +kernel
    · exact trivial
  have hreached : ∃ bytes mtime before, ((ofBytes bytes mtime).run before).1 =
      ((ofBytes searchable 100).serve entering).1 := ⟨searchable, 100, [entering], rfl⟩
  refine ⟨(untouched_or_stamped hcomes 1).1 entering _ resting 109 rfl henters hrests, ?_⟩
  refine (untouched_or_stamped hreached 1).2 altering _ 111 rfl ?_ (by decide) (by decide +kernel)
  exact ⟨_, .done, rfl, by decide +kernel, .inl nofun⟩

/-- Records of `z` and `k` whose slots both name the first one, so that no search finds `k`. -/
def misplaced : Bytes :=
  { Header.fresh with appendSeq := 2, modified := 100, sinceSort := 0 }.encode
    ++ Index.withSlot (encodeRecord (ascii ['z']) [⟨ascii ['f'], ascii ['1']⟩]) 35
    ++ Index.withSlot (encodeRecord (ascii ['k']) [⟨ascii ['f'], ascii ['1']⟩]) 35

/-- A client writes no field of `k`. -/
def touching : Turn := ⟨102, 1, .call (.write ⟨ascii ['k'], none, .transient⟩)⟩

/-- A write that names no field, of a key that has a live record which no lookup finds, appends another
one and stamps the file. -/
theorem fieldless_write_of_misplaced_record :
    (ofBytes misplaced 100).Enters entering
      { Config.ofPath Config.defaultPath with nonblocking := true } ∧
    (∃ r ∈ liveRecordsFrom Header.length ((ofBytes misplaced 100).serve entering).1.file.bytes,
      r.key = ascii ['k']) ∧
    (((ofBytes misplaced 100).serve entering).1.serve touching).2 = .answered .done ∧
    ((ofBytes misplaced 100).run [entering, touching, ⟨103, 1, .close⟩]).1.file.bytes ≠ misplaced := by
  have hheader : Header.decode? misplaced =
      some { Header.fresh with appendSeq := 2, modified := 100, sinceSort := 0 } := by decide +kernel
  refine ⟨⟨rfl, by decide +kernel, by decide +kernel, fun _ header hdec => ?_⟩, by decide +kernel,
    by decide +kernel, by decide +kernel⟩
  obtain rfl := Option.some.inj (hdec.symm.trans hheader)
  rw [← needsSort_iff]
  decide +kernel

end Store

end RecordStore
