import Mathlib.Tactic.Common
import RecordStore.Proofs.Openings
import RecordStore.Proofs.Reads
import RecordStore.Store

/-!
# Runs of a store

Clients take turns in any order.  In a turn a client opens the store, starts a call, goes on with
what it waits for, or closes.  As long as the file stays small enough for its slots, it stays sound,
and what every client remembers goes with it.

* `Request`, `Turn`, `Event` — what a client does in a turn, and what came of it.
* `Store.serve`, `Store.run` — one turn, and a run of them.
* `Store.Small` — the file is short enough for its slots before every turn.
* `Store.Stands` — the store's file is sound, and every client goes with it.
* `Dispatched` — which part of the store serves a turn; `Turned` — what the turn comes to.

Principal results: `Store.serve_dispatched`; `Store.Stands.serve_turned` — what a turn does;
`Turned.stands`, `Store.Stands.run` — the invariant of all runs; `Turned.locks` — a turn leaves the
locks of other clients alone; `Store.Stands.holds` — the file holds the map of its image.
-/

set_option autoImplicit false

namespace RecordStore

/-- What a client does in a turn. -/
inductive Request where
  | opening (config : Config)
  | call (call : Call)
  /-- Goes on with what it waits for, if it can. -/
  | resume
  | close
  deriving DecidableEq, Repr

structure Turn where
  /-- The current second. -/
  now : Nat
  holder : HolderId
  request : Request
  deriving DecidableEq, Repr

structure Event where
  holder : HolderId
  request : Request
  outcome : Outcome
  deriving DecidableEq, Repr

namespace Store

/-- One turn.  Only newcomers open the store, and only idle clients close it. -/
def serve (store : Store) (turn : Turn) : Store × Outcome :=
  match turn.request, store.client? turn.holder with
  | .opening config, none => store.openFor turn.now turn.holder config
  | .opening _, some _ => (store, .unavailable)
  | .call call, _ => store.call turn.now turn.holder call
  | .resume, _ => store.resume turn.now turn.holder
  | .close, some (.idle _) => (store.close turn.now turn.holder, .answered .done)
  | .close, _ => (store, .unavailable)

/-- A run: where it ends, and what came of every turn. -/
def run (store : Store) : List Turn → Store × List Event
  | [] => (store, [])
  | turn :: more =>
    let (store', outcome) := store.serve turn
    let (last, events) := store'.run more
    (last, ⟨turn.holder, turn.request, outcome⟩ :: events)

/-- The file is short enough for its slots before every turn: a slot has room for 32 bits of an
offset. -/
def Small (store : Store) : List Turn → Prop
  | [] => True
  | turn :: more => store.file.bytes.length < UInt32.size ∧ (store.serve turn).1.Small more

instance decidableSmall (store : Store) (turns : List Turn) : Decidable (store.Small turns) :=
  match turns with
  | [] => inferInstanceAs (Decidable True)
  | turn :: more =>
    have := decidableSmall (store.serve turn).1 more
    inferInstanceAs (Decidable (_ ∧ _))

/-! ## Clients -/

theorem client?_update_self (store : Store) (id : HolderId) (file : SharedFile) (client : Client) :
    (store.update id file client).client? id = some client := by
  unfold client? update
  exact List.lookup_cons_self

theorem client?_remove_self (store : Store) (id : HolderId) : (store.remove id).client? id = none := by
  rw [client?, remove, List.lookup_eq_none_iff]
  intro entry he
  have hne := (List.mem_filter.1 he).2
  rw [bne_iff_ne] at hne
  simpa using Ne.symm hne

theorem client?_remove_of_ne (store : Store) {id other : HolderId} (h : other ≠ id) :
    (store.remove id).client? other = store.client? other := by
  unfold client? remove
  dsimp only
  induction store.clients with
  | nil => rfl
  | cons entry more ih =>
    obtain ⟨holder, client⟩ := entry
    by_cases hid : holder = id
    · subst hid
      rw [List.filter_cons, if_neg (by simp), ih, List.lookup_cons, beq_false_of_ne h]
    · rw [List.filter_cons, if_pos (by simpa using hid), List.lookup_cons, List.lookup_cons, ih]

theorem client?_update_of_ne (store : Store) {id other : HolderId} (h : other ≠ id)
    (file : SharedFile) (client : Client) :
    (store.update id file client).client? other = store.client? other := by
  rw [← store.client?_remove_of_ne h]
  unfold client? update
  rw [List.lookup_cons, beq_false_of_ne h]

theorem settleCall_client?_of_ne (store : Store) {id other : HolderId} (h : other ≠ id)
    (result : EStateM.Result Error Session Progress) :
    (store.settleCall id result).1.client? other = store.client? other := by
  unfold Store.settleCall
  split <;> exact store.client?_update_of_ne h _ _

theorem settleOpen_client?_of_ne (store : Store) {id other : HolderId} (h : other ≠ id) (config : Config)
    (result : SharedFile × Opening) :
    (store.settleOpen id config result).1.client? other = store.client? other := by
  unfold Store.settleOpen
  split
  · exact store.client?_update_of_ne h _ _
  · exact client?_remove_of_ne _ h
  · exact store.client?_update_of_ne h _ _

section Clients

variable {store : Store} {p p' : Client → Prop}
  (h : ∀ id client, store.client? id = some client → p client) (hmono : ∀ client, p client → p' client)

include h hmono

/-- A client's step keeps what holds of the others. -/
theorem forall_client_update (id : HolderId) (file : SharedFile) {client : Client}
    (hclient : p' client) (other : HolderId) (client' : Client)
    (hlookup : (store.update id file client).client? other = some client') : p' client' := by
  by_cases hid : other = id
  · rw [hid, client?_update_self, Option.some.injEq] at hlookup
    exact hlookup ▸ hclient
  · rw [client?_update_of_ne _ hid] at hlookup
    exact hmono client' (h other client' hlookup)

theorem forall_client_remove (id : HolderId) (file : SharedFile) (other : HolderId) (client' : Client)
    (hlookup : (({ store with file } : Store).remove id).client? other = some client') :
    p' client' := by
  by_cases hid : other = id
  · rw [hid, client?_remove_self] at hlookup
    cases hlookup
  · rw [client?_remove_of_ne _ hid] at hlookup
    exact hmono client' (h other client' hlookup)

end Clients

end Store

/-! ## The invariant -/

/-- What a client remembers goes with the file.  Who is still opening it remembers nothing. -/
def Client.Fits (file : SharedFile) (i : Image) : Client → Prop
  | .opening _ _ => True
  | .idle handle => file.bytes = i.bytes ∧ handle.Fits i
  | .busy handle stage => file.bytes = i.bytes ∧ handle.Fits i ∧ stage.Fits handle i

theorem Client.Fits.mono {client : Client} {file file' : SharedFile} {i j : Image}
    (h : client.Fits file i) (hbytes : file.bytes = i.bytes → file'.bytes = j.bytes)
    (hij : i.Extends j) : client.Fits file' j := by
  cases client with
  | opening config stage => trivial
  | idle handle => exact ⟨hbytes h.1, h.2.mono hij⟩
  | busy handle stage => exact ⟨hbytes h.1, h.2.1.mono hij, h.2.2.mono hij⟩

/-- The store's file is a sound image, and every client goes with it. -/
structure Store.Stands (store : Store) (i : Image) : Prop where
  shows : store.file.Shows i
  sound : i.Sound
  clients : ∀ id client, store.client? id = some client → client.Fits store.file i

namespace Store

variable {store : Store} {i j : Image} {id : HolderId} {handle : Handle} {stage : Stage}

/-- A file that nobody has opened yet. -/
theorem Stands.ofBytes (mtime : Int) : (Store.ofBytes [] mtime).Stands .fresh where
  shows := Or.inr ⟨rfl, rfl⟩
  sound := .fresh
  clients := by
    intro id client h
    cases h

theorem Stands.small (h : store.Stands i) (hsmall : store.file.bytes.length < UInt32.size) :
    i.bytes.length < UInt32.size := by
  rcases h.shows with hsame | ⟨-, rfl⟩
  · rwa [← hsame]
  · decide

/-- A client's step keeps the others. -/
theorem Stands.update (h : store.Stands i) {file : SharedFile} {client : Client}
    (hshows : file.Shows j) (hsound : j.Sound)
    (hbytes : store.file.bytes = i.bytes → file.bytes = j.bytes) (hij : i.Extends j)
    (hfits : client.Fits file j) : (store.update id file client).Stands j where
  shows := hshows
  sound := hsound
  clients := forall_client_update h.clients (fun _ hclient => hclient.mono hbytes hij) id file hfits

theorem Stands.remove (h : store.Stands i) {file : SharedFile} (hshows : file.Shows j)
    (hsound : j.Sound) (hbytes : store.file.bytes = i.bytes → file.bytes = j.bytes)
    (hij : i.Extends j) : (({ store with file } : Store).remove id).Stands j where
  shows := hshows
  sound := hsound
  clients := forall_client_remove h.clients (fun _ hclient => hclient.mono hbytes hij) id file

/-- The session of an idle client works on the file. -/
theorem Stands.on_of_idle (h : store.Stands i) (hclient : store.client? id = some (.idle handle))
    (now : Nat) : (store.session now id handle).On i :=
  ⟨(h.clients id _ hclient).1, (h.clients id _ hclient).2, h.sound⟩

theorem Stands.on_of_busy (h : store.Stands i) (hclient : store.client? id = some (.busy handle stage))
    (now : Nat) : (store.session now id handle).On i ∧ stage.Fits handle i :=
  ⟨⟨(h.clients id _ hclient).1, (h.clients id _ hclient).2.1, h.sound⟩,
    (h.clients id _ hclient).2.2⟩

/-- The client is in a state for its turn. -/
def Ready (store : Store) (turn : Turn) : Prop :=
  match turn.request, store.client? turn.holder with
  | .opening _, none | .call _, some (.idle _) | .close, some (.idle _)
  | .resume, some (.opening _ _) | .resume, some (.busy _ _) => True
  | _, _ => False

end Store

/-! ## Turns -/

/-- What runs in a turn, by the state of the client. -/
inductive Dispatched (store : Store) : Turn → Store × Outcome → Prop where
  | unavailable {turn : Turn} (unready : ¬ store.Ready turn) :
    Dispatched store turn (store, .unavailable)
  | opening {now : Nat} {id : HolderId} {config : Config} (client : store.client? id = none) :
    Dispatched store ⟨now, id, .opening config⟩
      (store.settleOpen id config (openFile now id config store.file))
  | reopening {now : Nat} {id : HolderId} {config : Config} {stage : OpenStage}
    (client : store.client? id = some (.opening config stage)) :
    Dispatched store ⟨now, id, .resume⟩
      (store.settleOpen id config (resumeOpen now id config store.file stage))
  | calling {now : Nat} {id : HolderId} {call : Call} {handle : Handle}
    (client : store.client? id = some (.idle handle)) :
    Dispatched store ⟨now, id, .call call⟩
      (store.settleCall id (call.start (store.session now id handle)))
  | resuming {now : Nat} {id : HolderId} {handle : Handle} {stage : Stage}
    (client : store.client? id = some (.busy handle stage)) :
    Dispatched store ⟨now, id, .resume⟩
      (store.settleCall id (stage.resume (store.session now id handle)))
  | closing {now : Nat} {id : HolderId} {handle : Handle}
    (client : store.client? id = some (.idle handle)) :
    Dispatched store ⟨now, id, .close⟩
      (({ store with file := closeFile now id handle store.file } : Store).remove id,
        .answered .done)

/-- What a turn comes to. -/
inductive Turned (store : Store) (i : Image) : Turn → Store × Outcome → Prop where
  | unavailable {turn : Turn} (unready : ¬ store.Ready turn) :
    Turned store i turn (store, .unavailable)
  | opening {now : Nat} {id : HolderId} {config : Config} (client : store.client? id = none)
    (opens : Opens id config store.file i (openFile now id config store.file)) :
    Turned store i ⟨now, id, .opening config⟩
      (store.settleOpen id config (openFile now id config store.file))
  | reopening {now : Nat} {id : HolderId} {config : Config} {stage : OpenStage}
    (client : store.client? id = some (.opening config stage))
    (opens : Opens id config store.file i (resumeOpen now id config store.file stage)) :
    Turned store i ⟨now, id, .resume⟩
      (store.settleOpen id config (resumeOpen now id config store.file stage))
  | calling {now : Nat} {id : HolderId} {call : Call} {handle : Handle}
    (client : store.client? id = some (.idle handle))
    (on : (store.session now id handle).On i)
    (stretch : Stretch (store.session now id handle) i call call.Heeds
      (call.start (store.session now id handle))) :
    Turned store i ⟨now, id, .call call⟩
      (store.settleCall id (call.start (store.session now id handle)))
  | resuming {now : Nat} {id : HolderId} {handle : Handle} {stage : Stage}
    (client : store.client? id = some (.busy handle stage))
    (on : (store.session now id handle).On i) (fits : stage.Fits handle i)
    (stretch : Stretch (store.session now id handle) i stage.call stage.Heeds
      (stage.resume (store.session now id handle))) :
    Turned store i ⟨now, id, .resume⟩
      (store.settleCall id (stage.resume (store.session now id handle)))
  | closing {now : Nat} {id : HolderId} {handle : Handle}
    (client : store.client? id = some (.idle handle)) (bytes : store.file.bytes = i.bytes) :
    Turned store i ⟨now, id, .close⟩
      (({ store with file := closeFile now id handle store.file } : Store).remove id,
        .answered .done)

namespace Store

variable {store : Store} {i j : Image} {id : HolderId} {handle : Handle} {stage : Stage}

/-- A turn that a client is not in a state for does nothing. -/
theorem serve_of_unready {turn : Turn} (h : ¬ store.Ready turn) :
    store.serve turn = (store, .unavailable) := by
  obtain ⟨now, id, request⟩ := turn
  unfold Ready at h
  cases hclient : store.client? id with
  | none =>
    cases request with
    | opening config => simp [hclient] at h
    | call call => simp only [serve, Store.call, hclient]
    | resume => simp only [serve, Store.resume, hclient]
    | close => simp only [serve, hclient]
  | some client =>
    cases client with
    | opening config stage =>
      cases request with
      | resume => simp [hclient] at h
      | call call => simp only [serve, Store.call, hclient]
      | _ => simp only [serve, hclient]
    | idle handle =>
      cases request with
      | call call => simp [hclient] at h
      | close => simp [hclient] at h
      | resume => simp only [serve, Store.resume, hclient]
      | opening config => simp only [serve, hclient]
    | busy handle stage =>
      cases request with
      | resume => simp [hclient] at h
      | call call => simp only [serve, Store.call, hclient]
      | _ => simp only [serve, hclient]

/-- **Every turn is served by one part of the store**, or its client is in no state for it. -/
theorem serve_dispatched (store : Store) (turn : Turn) :
    Dispatched store turn (store.serve turn) := by
  by_cases hready : store.Ready turn
  · obtain ⟨now, id, request⟩ := turn
    unfold Ready at hready
    split at hready
    · next config hrequest hclient =>
      dsimp only at hrequest hclient
      subst hrequest
      simp only [serve, openFor, hclient]
      exact .opening hclient
    · next call handle hrequest hclient =>
      dsimp only at hrequest hclient
      subst hrequest
      simp only [serve, Store.call, hclient]
      exact .calling hclient
    · next handle hrequest hclient =>
      dsimp only at hrequest hclient
      subst hrequest
      simp only [serve, Store.close, hclient]
      exact .closing hclient
    · next config stage hrequest hclient =>
      dsimp only at hrequest hclient
      subst hrequest
      simp only [serve, Store.resume, hclient]
      exact .reopening hclient
    · next handle stage hrequest hclient =>
      dsimp only at hrequest hclient
      subst hrequest
      simp only [serve, Store.resume, hclient]
      exact .resuming hclient
    · exact hready.elim
  · rw [serve_of_unready hready]
    exact .unavailable hready

/-- **Every turn** comes to what a turn may come to. -/
theorem Stands.serve_turned (h : store.Stands i) (hsmall : store.file.bytes.length < UInt32.size)
    (turn : Turn) : Turned store i turn (store.serve turn) := by
  have hsmall' := h.small hsmall
  have hdispatched := store.serve_dispatched turn
  generalize store.serve turn = result at hdispatched
  cases hdispatched with
  | unavailable unready => exact .unavailable unready
  | opening client => exact .opening client (openFile_opens h.shows h.sound hsmall')
  | reopening client => exact .reopening client (resumeOpen_opens h.shows h.sound hsmall' _)
  | @calling now id call handle client =>
    have hon := h.on_of_idle client now
    exact .calling client hon (Call.start_stretch hon hsmall' call)
  | @resuming now id handle stage client =>
    obtain ⟨hon, hfits⟩ := h.on_of_busy client now
    exact .resuming client hon hfits (Stage.resume_stretch hon hsmall' hfits)
  | closing client => exact .closing client (h.clients _ _ client).1

theorem Stands.settle_idle (h : store.Stands i) {s : Session} (hon : s.On j) (hij : i.Extends j) :
    (store.update id s.file (.idle s.handle)).Stands j :=
  h.update (Or.inl hon.bytes) hon.sound (fun _ => hon.bytes) hij ⟨hon.bytes, hon.fits⟩

theorem Stands.settle_busy (h : store.Stands i) {s : Session} (hon : s.On i)
    (hfits : stage.Fits s.handle i) : (store.update id s.file (.busy s.handle stage)).Stands i :=
  h.update (Or.inl hon.bytes) hon.sound (fun _ => hon.bytes) (.refl i) ⟨hon.bytes, hon.fits, hfits⟩

/-- A step of an open keeps the store on its feet. -/
theorem Stands.settleOpen (h : store.Stands i) {config : Config} {result : SharedFile × Opening}
    (hopens : Opens id config store.file i result) :
    ∃ j, (store.settleOpen id config result).1.Stands j ∧ i.Extends j ∧ j.versions = i.versions := by
  cases hopens with
  | opened opened others =>
    refine ⟨_, ?_, opened.extends_, opened.versions⟩
    exact h.update (Or.inl opened.bytes) opened.sound (fun _ => opened.bytes) opened.extends_
      ⟨opened.bytes, opened.fits⟩
  | @waiting file' stage bytes others =>
    refine ⟨i, ?_, .refl i, rfl⟩
    refine h.update ?_ h.sound (fun hb => bytes.trans hb) (.refl i) trivial
    unfold SharedFile.Shows
    rw [bytes]
    exact h.shows

theorem Stands.closing (h : store.Stands i) (hbytes : store.file.bytes = i.bytes) (now : Nat)
    (handle : Handle) : ∃ j,
      (({ store with file := closeFile now id handle store.file } : Store).remove id).Stands j ∧
        i.Extends j ∧ j.versions = i.versions := by
  obtain ⟨j, hj, hsound, hij, hversions⟩ :=
    @closeFile_shows now id store.file i handle hbytes h.sound
  exact ⟨j, h.remove (Or.inl hj) hsound (fun _ => hj) hij, hij, hversions⟩

end Store

/-- **A turn** keeps the store on its feet. -/
theorem Turned.stands {store : Store} {i : Image} {turn : Turn} {result : Store × Outcome}
    (ht : Turned store i turn result) (h : store.Stands i) :
    ∃ j, result.1.Stands j ∧ i.Extends j := by
  have hsettle : ∀ {id : HolderId} {s : Session} {call : Call} {heeds : Prop}
      {r : EStateM.Result Error Session Progress}, Stretch s i call heeds r →
      ∃ j, (store.settleCall id r).1.Stands j ∧ i.Extends j := by
    intro id s call heeds r hstretch
    cases hstretch with
    | answered on extends_ => exact ⟨_, h.settle_idle on extends_, extends_⟩
    | waiting on fits => exact ⟨i, h.settle_busy on fits, .refl i⟩
    | failed on => exact ⟨i, h.settle_idle on (.refl i), .refl i⟩
  cases ht with
  | unavailable => exact ⟨i, h, .refl i⟩
  | opening client opens =>
    obtain ⟨j, hj, hij, -⟩ := h.settleOpen opens
    exact ⟨j, hj, hij⟩
  | reopening client opens =>
    obtain ⟨j, hj, hij, -⟩ := h.settleOpen opens
    exact ⟨j, hj, hij⟩
  | calling client on stretch => exact hsettle stretch
  | resuming client on fits stretch => exact hsettle stretch
  | @closing now id handle client bytes =>
    obtain ⟨j, hj, hij, -⟩ := h.closing bytes now handle
    exact ⟨j, hj, hij⟩

section Turns

variable {store : Store} {i : Image} {turn : Turn} {result : Store × Outcome}

/-- A turn leaves the locks of others alone, and takes none that does not go with them. -/
theorem Turned.locks (ht : Turned store i turn result) :
    result.1.file.locks.others turn.holder = store.file.locks.others turn.holder ∧
      (store.file.locks.Consistent → result.1.file.locks.Consistent) := by
  have hopen : ∀ {id : HolderId} {config : Config} {r : SharedFile × Opening},
      Opens id config store.file i r →
      (store.settleOpen id config r).1.file.locks.others id = store.file.locks.others id ∧
        (store.file.locks.Consistent → (store.settleOpen id config r).1.file.locks.Consistent) := by
    intro id config r hopens
    cases hopens with
    | opened opened others consistent => exact ⟨others, consistent⟩
    | waiting bytes others consistent => exact ⟨others, consistent⟩
  have hcall : ∀ {id : HolderId} {now : Nat} {handle : Handle} {call : Call} {heeds : Prop}
      {r : EStateM.Result Error Session Progress},
      Stretch (store.session now id handle) i call heeds r →
      (store.settleCall id r).1.file.locks.others id = store.file.locks.others id ∧
        (store.file.locks.Consistent → (store.settleCall id r).1.file.locks.Consistent) := by
    intro id now handle call heeds r hstretch
    cases hstretch with
    | answered on extends_ contents answers framed spared acts => exact ⟨acts.others, acts.consistent⟩
    | waiting on fits same blocked acts => exact ⟨acts.others, acts.consistent⟩
    | failed on acts => exact ⟨acts.others, acts.consistent⟩
  cases ht with
  | unavailable => exact ⟨rfl, id⟩
  | opening client opens => exact hopen opens
  | reopening client opens => exact hopen opens
  | calling client on stretch => exact hcall stretch
  | resuming client on fits stretch => exact hcall stretch
  | @closing now id handle client bytes =>
    show (closeFile now id handle store.file).locks.others id = _ ∧
      (_ → (closeFile now id handle store.file).locks.Consistent)
    rw [closeFile_locks]
    exact ⟨LockTable.others_release, fun hc => hc.release id⟩

/-- A turn leaves the others at what they were at. -/
theorem Turned.client?_of_ne (ht : Turned store i turn result) {other : HolderId}
    (hne : other ≠ turn.holder) : result.1.client? other = store.client? other := by
  cases ht with
  | unavailable => rfl
  | opening | reopening => exact store.settleOpen_client?_of_ne hne _ _
  | calling | resuming => exact store.settleCall_client?_of_ne hne _
  | closing => exact Store.client?_remove_of_ne _ hne

end Turns

namespace Store

variable {store : Store} {i : Image}

/-- **The invariant of all runs**: the store stands on a sound image throughout. -/
theorem Stands.run (h : store.Stands i) {turns : List Turn} (hsmall : store.Small turns) :
    ∃ j, (store.run turns).1.Stands j ∧ i.Extends j := by
  induction turns generalizing store i with
  | nil => exact ⟨i, h, .refl i⟩
  | cons turn more ih =>
    obtain ⟨hfirst, hmore⟩ := hsmall
    obtain ⟨j, hj, hij⟩ := (h.serve_turned hfirst turn).stands h
    obtain ⟨k, hk, hjk⟩ := ih hj hmore
    exact ⟨k, hk, hij.trans hjk⟩

/-- **The file of a store holds the map of its image.** -/
theorem Stands.holds (h : store.Stands i) :
    Holds (liveRecordsFrom Header.length store.file.bytes) i.contents := by
  rcases h.shows with hsame | ⟨hempty, rfl⟩
  · rw [hsame]
    exact h.sound.holds_contents
  · rw [hempty]
    exact Holds.nil

end Store

end RecordStore
