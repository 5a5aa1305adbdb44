import Mathlib.Logic.Relation
import Mathlib.Tactic.Common
import RecordStore.Proofs.Lasting

/-!
# Waiting without deadlock

Clients that are to keep no record lock can be broken off wherever they take a lock.  While they wait,
an opener has the structural lock at most, and a write that is about to append the lock of one record;
the locks that they wait for come before these in one order.  So clients never wait in a circle, and
one of them can always go on to its end.

* `Request.Transient` — what a client asks for that is to keep no record lock.
* `Store.interrupt` — a turn that is broken off where the client comes to a lock.
* `Store.Interleaved` — the stores that such clients come to.
* `Store.Calm` — what each client has locked while others take their turns.
* `Store.WaitsFor` — a client is in the way of another.

Principal results: `Store.Calm.serve` — one turn; `Store.Calm.in_way` — who is in the way;
`Store.never_deadlocked`.
-/

set_option autoImplicit false

namespace RecordStore

/-! ## Turns that are broken off -/

/-- A request that is to keep no record lock. -/
def Request.Transient : Request → Prop
  | .call asked => asked.Transient
  | .opening _ | .resume | .close => True

/-- The lock that a client waits for. -/
def Client.wants? : Client → Option (Nat × LockKind)
  | .opening _ stage => some stage.wants
  | .idle _ => none
  | .busy _ stage => some (stage.offset, .exclusive)

namespace Store

/-- A stranger has locks at these offsets. -/
def amid (store : Store) (stranger : HolderId) (offsets : List Nat) : Store :=
  { store with file := { store.file with
      locks := offsets.foldl (fun table offset => table.set stranger offset .exclusive)
        store.file.locks } }

/-- A turn that is broken off where the client comes to a lock at one of these offsets: it has to wait
for a stranger, who is gone after the turn. -/
def interrupt (store : Store) (stranger : HolderId) (offsets : List Nat) (turn : Turn) :
    Store × Outcome :=
  let (store', outcome) := (store.amid stranger offsets).serve turn
  ({ store' with file := store'.file.release stranger }, outcome)

/-- What clients that are to keep no record lock may come to: in any order they take turns, some of
which are broken off. -/
inductive Interleaved (bytes : Bytes) (mtime : Int) : Store → Prop where
  | start : Interleaved bytes mtime (.ofBytes bytes mtime)
  | turn {store : Store} (before : Interleaved bytes mtime store) (turn : Turn)
    (transient : turn.request.Transient) : Interleaved bytes mtime (store.serve turn).1
  | interrupted {store : Store} (before : Interleaved bytes mtime store) (turn : Turn)
    (transient : turn.request.Transient) (stranger : HolderId) (offsets : List Nat)
    (unknown : store.client? stranger = none) (other : stranger ≠ turn.holder) :
    Interleaved bytes mtime (store.interrupt stranger offsets turn).1

/-- The lock that a client waits for, if it waits for one. -/
def wants? (store : Store) (id : HolderId) : Option (Nat × LockKind) :=
  (store.client? id).bind Client.wants?

/-- Client `id` waits for a lock, and client `other` has one that is in its way. -/
def WaitsFor (store : Store) (id other : HolderId) : Prop :=
  ∃ offset kind, store.wants? id = some (offset, kind) ∧ other ≠ id ∧
    ∃ lock ∈ store.file.locks.held, lock.holder = other ∧
      LockTable.covers offset lock.byte = true ∧ (lock.kind = .exclusive ∨ kind = .exclusive)

/-- The client, once it is let go on, comes to the end of what it does. -/
def Proceeds (store : Store) (id : HolderId) : Prop :=
  ∀ now, (store.serve ⟨now, id, .resume⟩).2 ≠ .waiting ∧
    (store.serve ⟨now, id, .resume⟩).2 ≠ .unavailable

end Store

/-! ## What clients have locked -/

/-- The offsets of the locks that a client has while others take their turns. -/
def Client.held : Client → List Nat
  | .opening _ stage => stage.held
  | .idle _ => []
  | .busy _ stage => stage.held?.toList

/-- A client whose call is to keep no lock. -/
def Client.Plain : Client → Prop
  | .busy _ stage => stage.call.Transient ∧ stage.Rightful
  | .opening _ _ | .idle _ => True

theorem Client.held_atStage (handle : Handle) (pending : Option Stage) :
    (Client.atStage handle pending).held = (pending.bind Stage.held?).toList := by
  cases pending <;> rfl

namespace Store

/-- The offsets of the locks of a client. -/
def held (store : Store) (id : HolderId) : List Nat := ((store.client? id).map Client.held).getD []

/-- Every client finds what it relies on, its call is to keep no lock, and nobody but strangers has a
lock besides. -/
structure Calm (store : Store) (stranger : HolderId → Prop) : Prop where
  steady : store.Steady
  plain : ∀ id client, store.client? id = some client → client.Plain
  own : ∀ id, ¬ stranger id → store.file.locks.Within id (store.held id)

variable {store : Store} {stranger : HolderId → Prop}

theorem held_eq {id : HolderId} {client : Client} (h : store.client? id = some client) :
    store.held id = client.held := by
  rw [held, h]
  rfl

theorem held_of_none {id : HolderId} (h : store.client? id = none) : store.held id = [] := by
  rw [held, h]
  rfl

/-- What becomes of the others while one client takes its turn. -/
theorem Calm.others (h : store.Calm stranger) {id other : HolderId} (hne : other ≠ id)
    (hother : ¬ stranger other) {file : SharedFile}
    (hothers : file.locks.others id = store.file.locks.others id) {store' : Store}
    (hclient : store'.client? other = store.client? other) :
    file.locks.Within other (store'.held other) := by
  rw [held, hclient]
  exact (h.own other hother).of_others hothers hne

theorem Calm.update (h : store.Calm stranger) {id : HolderId} {file : SharedFile} {client : Client}
    (hendures : Endures store.file.bytes file.bytes) (hsteady : client.Steady file.bytes)
    (hplain : client.Plain) (hothers : file.locks.others id = store.file.locks.others id)
    (hown : file.locks.Within id client.held) : (store.update id file client).Calm stranger where
  steady := h.steady.update id hendures hsteady
  plain := forall_client_update h.plain (fun _ hp => hp) id file hplain
  own other hother := by
    by_cases hid : other = id
    · rw [hid, held_eq (store.client?_update_self id file client)]
      exact hown
    · exact h.others hid hother hothers (store.client?_update_of_ne hid file client)

theorem Calm.remove (h : store.Calm stranger) {id : HolderId} {file : SharedFile}
    (hendures : Endures store.file.bytes file.bytes)
    (hothers : file.locks.others id = store.file.locks.others id) (hown : file.locks.Within id []) :
    (({ store with file } : Store).remove id).Calm stranger where
  steady := h.steady.remove id hendures
  plain := forall_client_remove h.plain (fun _ hp => hp) id file
  own other hother := by
    by_cases hid : other = id
    · rw [hid, held_of_none (client?_remove_self _ id)]
      exact hown
    · exact h.others hid hother hothers (client?_remove_of_ne _ hid)

/-! ## One turn -/

theorem Calm.settleOpen (h : store.Calm stranger) {id : HolderId} {config : Config}
    {result : SharedFile × Opening} (hadmits : Admits (store.file.outset id) [] result) :
    (store.settleOpen id config result).1.Calm stranger := by
  cases hadmits with
  | opened keeps => exact h.update keeps.endures keeps.steady trivial keeps.others keeps.own
  | failed endures others own => exact h.remove endures others own
  | @waiting file stage bytes others blocked own =>
    have hsame : Endures store.file.bytes file.bytes := bytes ▸ Endures.refl _
    rw [List.append_nil] at own
    exact h.update hsame trivial trivial others own

theorem Calm.settleCall (h : store.Calm stranger) {id : HolderId} {call : Call}
    {act : SessionM Progress} {s : Session} (hcall : call.Transient)
    (hends : SessionM.Leads act s (Ends (store.file.outset id) True call)
      (fun s' => s'.Finished (store.file.outset id) True)) :
    (store.settleCall id (act s)).1.Calm stranger := by
  have hfinished : ∀ s' : Session, s'.Finished (store.file.outset id) True →
      (store.update id s'.file (.idle s'.handle)).Calm stranger := by
    rintro s' ⟨owned, keeps, hnone⟩
    obtain rfl := hnone trivial
    exact h.update keeps.endures keeps.steady trivial keeps.others keeps.own
  unfold SessionM.Leads at hends
  cases hact : act s with
  | error e s' =>
    rw [hact] at hends
    exact hfinished s' hends
  | ok progress s' =>
    rw [hact] at hends
    cases hends with
    | answered finished => exact hfinished s' finished
    | waiting keeps same blocked steady held =>
      obtain ⟨howned, hrightful⟩ := held trivial
      exact h.update keeps.endures ⟨keeps.steady, steady⟩ ⟨same ▸ hcall, hrightful⟩ keeps.others
        (keeps.own.mono howned)

/-- The call that a client runs keeps no lock. -/
theorem Calm.transient_of_runs (h : store.Calm stranger) {turn : Turn}
    (hrequest : turn.request.Transient) {handle : Handle} {call : Call} {pending : Option Stage}
    (hruns : store.Runs turn handle call pending) : call.Transient := by
  have hrunning := hruns.running
  unfold running? at hrunning
  split at hrunning
  · next hcall _ =>
    rw [hcall] at hrequest
    exact Option.some.inj hrunning ▸ hrequest
  · next hclient => exact Option.some.inj hrunning ▸ (h.plain _ _ hclient).1
  · cases hrunning

/-- A stretch of a call from where its client stands. -/
theorem Calm.stretch_ends (h : store.Calm stranger) {id : HolderId} (hid : ¬ stranger id)
    {handle : Handle} {call : Call} {pending : Option Stage}
    (hclient : store.client? id = some (.atStage handle pending))
    (hsame : ∀ stage, pending = some stage → stage.call = call) (hcall : call.Transient) (now : Nat) :
    SessionM.Leads (call.stretch pending) (store.session now id handle)
      (Ends (store.file.outset id) True call)
      (fun s' => s'.Finished (store.file.outset id) True) := by
  obtain ⟨hhandle, hstage⟩ := (h.steady _ _ hclient).atStage
  have hown := h.own id hid
  rw [held_eq hclient, Client.held_atStage] at hown
  refine Call.stretch_ends (keeps_session now hhandle hown)
    (fun stage hp => ⟨hsame stage hp, hstage stage hp⟩) fun _ => ⟨hcall, List.Subset.refl _, ?_⟩
  rintro stage rfl
  exact (h.plain _ _ hclient).2

/-- **One turn** leaves a client with at most the locks of its stage. -/
theorem Calm.serve (h : store.Calm stranger) (turn : Turn) (hrequest : turn.request.Transient)
    (hturn : ¬ stranger turn.holder) : (store.serve turn).1.Calm stranger := by
  have hserved := store.serve_served turn
  generalize store.serve turn = result at hserved ⊢
  cases hserved with
  | unavailable => exact h
  | opening quiet client =>
    have hown := h.own _ hturn
    rw [held_of_none client] at hown
    exact h.settleOpen (openFile_admits hown)
  | @reopening config stage quiet client =>
    have hown := h.own _ hturn
    rw [held_eq client] at hown
    exact h.settleOpen (resumeOpen_admits (by rwa [List.append_nil]))
  | @closed handle quiet client =>
    have hsteady : handle.Steady store.file.bytes := h.steady _ _ client
    refine h.remove (closeFile_endures hsteady.legible.length_le) ?_ ?_
    · rw [closeFile_locks, LockTable.others_release]
    · rw [closeFile_locks]
      exact .release _ _
  | ran runs =>
    have hcall := h.transient_of_runs hrequest runs
    exact h.settleCall hcall (h.stretch_ends hturn runs.client runs.same hcall turn.now)

/-- Strangers come. -/
theorem Calm.amid (h : store.Calm fun _ => False) (guest : HolderId) (offsets : List Nat) :
    (store.amid guest offsets).Calm (· = guest) where
  steady := h.steady
  plain := h.plain
  own id hid := by
    have hothers : ∀ (offsets : List Nat) (table : LockTable),
        (offsets.foldl (fun table offset => table.set guest offset .exclusive) table).others guest =
          table.others guest := by
      intro offsets
      induction offsets with
      | nil => exact fun _ => rfl
      | cons offset more ih => exact fun table => (ih _).trans LockTable.others_set
    exact (h.own id not_false).of_others (hothers offsets _) hid

/-- Strangers go. -/
theorem Calm.release {guest : HolderId} (h : store.Calm (· = guest)) :
    ({ store with file := store.file.release guest } : Store).Calm fun _ => False where
  steady := h.steady
  plain := h.plain
  own id _ := by
    by_cases hid : id = guest
    · rw [hid]
      exact (LockTable.Within.release _ guest).mono (List.nil_subset _)
    · exact (h.own id hid).of_others LockTable.others_release hid

theorem Interleaved.run {bytes : Bytes} {mtime : Int} (h : Interleaved bytes mtime store)
    {turns : List Turn} (hturns : ∀ turn ∈ turns, turn.request.Transient) :
    Interleaved bytes mtime (store.run turns).1 := by
  induction turns generalizing store with
  | nil => exact h
  | cons turn more ih =>
    exact ih (h.turn turn (hturns turn (List.mem_cons_self ..)))
      fun later hlater => hturns later (List.mem_cons_of_mem _ hlater)

/-- **Every interleaving** leaves each client with at most the locks of its stage. -/
theorem Interleaved.calm {bytes : Bytes} {mtime : Int} (h : Interleaved bytes mtime store) :
    store.Calm fun _ => False := by
  induction h with
  | start =>
    refine ⟨.ofBytes bytes mtime, ?_, ?_⟩
    · rintro id client ⟨⟩
    · intro id _ lock hl
      cases hl
  | turn _ turn transient ih => exact ih.serve turn transient id
  | interrupted _ turn transient stranger offsets _ other ih =>
    exact ((ih.amid stranger offsets).serve turn transient (Ne.symm other)).release

end Store

/-! ## The order of the locks -/

/-- The place of a lock in the order: presence, the structural lock, records. -/
inductive Ranks : Nat → LockKind → Nat → Prop where
  | presence : Ranks presenceOffset .shared 0
  | structural : Ranks structuralOffset .exclusive 1
  | record {offset : Nat} (behind : Header.length ≤ offset) : Ranks offset .exclusive 2

/-- The place of the lock that a client waits for. -/
def Client.rank : Client → Nat
  | .opening _ (.presence _) | .idle _ => 0
  | .opening _ .structural => 1
  | .busy _ stage => if stage.offset = structuralOffset then 1 else 2

theorem Client.rank_busy (handle : Handle) (stage : Stage) :
    (Client.busy handle stage).rank = 1 ∨ (Client.busy handle stage).rank = 2 := by
  by_cases hstructural : stage.offset = structuralOffset
  · exact Or.inl (if_pos hstructural)
  · exact Or.inr (if_neg hstructural)

theorem OpenStage.ranks (stage : OpenStage) (config : Config) :
    Ranks stage.wants.1 stage.wants.2 (Client.opening config stage).rank := by
  cases stage with
  | structural => exact .structural
  | presence first => exact .presence

/-- A stage of a call that is to keep no lock waits for the structural lock or that of a record. -/
theorem Stage.ranks {stage : Stage} {data : Bytes} (hsteady : stage.Steady data)
    (hcall : stage.call.Transient) (handle : Handle) :
    Ranks stage.offset .exclusive (Client.busy handle stage).rank ∧
      ((Client.busy handle stage).rank = 1 → stage.Structural) := by
  have hrecord : ∀ span, stage.span? = some span → stage.offset = span.offset →
      Ranks stage.offset .exclusive (Client.busy handle stage).rank ∧
        ((Client.busy handle stage).rank = 1 → stage.Structural) := by
    intro span hspan hoffset
    have hle := (hsteady.bears span hspan).header_le
    have hne : stage.offset ≠ structuralOffset := by
      have : structuralOffset < Header.length := by decide
      omega
    have hrank : (Client.busy handle stage).rank = 2 := if_neg hne
    rw [hrank]
    exact ⟨.record (hoffset ▸ hle), by rintro ⟨⟩⟩
  cases stage with
  | reading key part span => exact hrecord span rfl rfl
  | writing request span => exact hrecord span rfl rfl
  | deleting key span => exact hrecord span rfl rfl
  | readingAt offset => cases (show true = false from hcall)
  | locking offset => exact hcall.elim
  | appending request held => exact ⟨.structural, fun _ => trivial⟩
  | resorting => exact ⟨.structural, fun _ => trivial⟩

namespace Store

variable {store : Store} {id : HolderId} {client : Client}

/-- Whose locks there are. -/
theorem Calm.lock_cases (h : store.Calm fun _ => False) {lock : ByteLock}
    (hl : lock ∈ store.file.locks.held) : (lock.byte < lockLen ∧ lock.kind = .shared) ∨
      (∃ config first, store.client? lock.holder = some (.opening config (.presence first)) ∧
        LockTable.covers structuralOffset lock.byte = true) ∨
      ∃ handle request offset, store.client? lock.holder =
        some (.busy handle (.appending request (some offset))) ∧ Header.length ≤ offset ∧
          LockTable.covers offset lock.byte = true := by
  rcases h.own lock.holder not_false lock hl rfl with hshared | ⟨offset, hmem, hcov⟩
  · exact Or.inl hshared
  refine Or.inr ?_
  cases hclient : store.client? lock.holder with
  | none =>
    rw [held_of_none hclient] at hmem
    cases hmem
  | some client =>
    rw [held_eq hclient] at hmem
    cases client with
    | idle handle => cases hmem
    | opening config stage =>
      cases stage with
      | structural => cases hmem
      | presence first =>
        obtain rfl := List.mem_singleton.1 hmem
        exact Or.inl ⟨config, first, rfl, hcov⟩
    | busy handle stage =>
      rw [Client.held, Option.mem_toList] at hmem
      have hrightful := (h.plain _ _ hclient).2 offset hmem
      cases stage with
      | appending request held =>
        obtain rfl : held = some offset := hmem
        exact Or.inr ⟨handle, request, offset, rfl, hrightful.1, hcov⟩
      | _ => cases hmem

/-- **Who is in the way** waits for a lock of a lower place. -/
theorem Calm.in_way (h : store.Calm fun _ => False) {offset rank : Nat} {kind : LockKind}
    (hranks : Ranks offset kind rank) {lock : ByteLock} (hl : lock ∈ store.file.locks.held)
    (hcov : LockTable.covers offset lock.byte = true)
    (hkind : lock.kind = .exclusive ∨ kind = .exclusive) :
    ∃ other, store.client? lock.holder = some other ∧ (∃ want, other.wants? = some want) ∧
      other.rank < rank := by
  obtain ⟨hfrom, hto⟩ := LockTable.covers_iff.1 hcov
  have horder : presenceOffset + lockLen = structuralOffset ∧
      structuralOffset + lockLen < Header.length := by decide
  rcases h.lock_cases hl with ⟨hbyte, hshared⟩ | ⟨config, first, hclient, hown⟩ |
    ⟨handle, request, place, hclient, hplace, hown⟩
  · -- shared presence is in nobody's way
    cases hranks with
    | presence =>
      rw [hshared] at hkind
      rcases hkind with hkind | hkind <;> cases hkind
    | structural | record => omega
  · have hown := LockTable.covers_iff.1 hown
    cases hranks with
    | presence => omega
    | structural => exact ⟨_, hclient, ⟨_, rfl⟩, Nat.one_pos⟩
    | record => omega
  · have hown := LockTable.covers_iff.1 hown
    cases hranks with
    | presence | structural => omega
    | record => exact ⟨_, hclient, ⟨_, rfl⟩, Nat.one_lt_two⟩

/-- The lock that a client waits for has the client's place. -/
theorem Calm.ranks {stranger : HolderId → Prop} (h : store.Calm stranger)
    (hclient : store.client? id = some client) {offset : Nat} {kind : LockKind}
    (hwants : client.wants? = some (offset, kind)) : Ranks offset kind client.rank := by
  cases client with
  | opening config stage =>
    have hstage := stage.ranks config
    rw [Option.some.inj hwants] at hstage
    exact hstage
  | idle handle => cases hwants
  | busy handle stage =>
    obtain ⟨rfl, rfl⟩ := Prod.mk.inj (Option.some.inj hwants)
    exact (Stage.ranks (h.steady _ _ hclient).2 (h.plain _ _ hclient).1 handle).1

/-- **A client waits for clients of lower places**, on and on. -/
theorem Calm.rank_lt (h : store.Calm fun _ => False) {other : HolderId}
    (hwaits : Relation.TransGen store.WaitsFor id other) : ∃ client client',
      store.client? id = some client ∧ store.client? other = some client' ∧
        client'.rank < client.rank := by
  have hstep : ∀ {a b : HolderId}, store.WaitsFor a b → ∃ client client',
      store.client? a = some client ∧ store.client? b = some client' ∧
        client'.rank < client.rank := by
    rintro a _ ⟨offset, kind, hwants, -, lock, hl, rfl, hcov, hkind⟩
    obtain ⟨client, hclient, hwants⟩ := Option.bind_eq_some_iff.1 hwants
    obtain ⟨other, hother, -, hlt⟩ := h.in_way (h.ranks hclient hwants) hl hcov hkind
    exact ⟨client, other, hclient, hother, hlt⟩
  induction hwaits with
  | single hone => exact hstep hone
  | tail _ hlast ih =>
    obtain ⟨client, client', hclient, hclient', hlt⟩ := ih
    obtain ⟨middle, last, hmiddle, hlast, hlt'⟩ := hstep hlast
    obtain rfl := Option.some.inj (hclient'.symm.trans hmiddle)
    exact ⟨client, last, hclient, hlast, Nat.lt_trans hlt' hlt⟩

/-! ## Going on -/

/-- An opener that has the structural lock waits for presence at most. -/
theorem sharePresence_waiting {now : Nat} {holder : HolderId} {config : Config} {first : Bool}
    {file file' : SharedFile} {stage : OpenStage}
    (h : sharePresence now holder config first file = (file', .waiting stage)) :
    stage = .presence first := by
  unfold sharePresence at h
  split at h
  · cases h
    rfl
  · unfold finishOpen at h
    dsimp only at h
    split at h <;> cases h

theorem settleOpen_outcome (store : Store) (id : HolderId) (config : Config)
    (result : SharedFile × Opening) : (store.settleOpen id config result).2 ≠ .unavailable ∧
      ((store.settleOpen id config result).2 = .waiting →
        ∃ file stage, result = (file, .waiting stage)) := by
  obtain ⟨file, opening⟩ := result
  cases opening with
  | opened handle => exact ⟨by rintro ⟨⟩, by rintro ⟨⟩⟩
  | failed error => exact ⟨by rintro ⟨⟩, by rintro ⟨⟩⟩
  | waiting stage => exact ⟨by rintro ⟨⟩, fun _ => ⟨file, stage, rfl⟩⟩

theorem settleCall_outcome (store : Store) (id : HolderId)
    (result : EStateM.Result Error Session Progress) :
    (store.settleCall id result).2 ≠ .unavailable ∧
      ((store.settleCall id result).2 = .waiting → ∃ stage s', result = .ok (.waiting stage) s') := by
  cases result with
  | error e s' => exact ⟨by rintro ⟨⟩, by rintro ⟨⟩⟩
  | ok progress s' =>
    cases progress with
    | answered a => exact ⟨by rintro ⟨⟩, by rintro ⟨⟩⟩
    | waiting stage => exact ⟨by rintro ⟨⟩, fun _ => ⟨stage, s', rfl⟩⟩

/-- An opener that goes on and has to wait again is blocked at no higher place. -/
theorem Calm.opening_blocked (h : store.Calm fun _ => False) {config : Config} {stage : OpenStage}
    (hclient : store.client? id = some (.opening config stage)) {now : Nat} {file : SharedFile}
    {stage' : OpenStage} (hopen : resumeOpen now id config store.file stage = (file, .waiting stage')) :
    ∃ offset kind rank, Ranks offset kind rank ∧ rank ≤ (Client.opening config stage).rank ∧
      store.file.locks.blocks id offset kind = true := by
  have hown := h.own id not_false
  rw [held_eq hclient] at hown
  have hadmits : Admits (store.file.outset id) [] (resumeOpen now id config store.file stage) :=
    resumeOpen_admits (by rwa [List.append_nil])
  rw [hopen] at hadmits
  cases hadmits with
  | waiting bytes others blocked own =>
    rw [SharedFile.outset, LockTable.blocks_others] at blocked
    refine ⟨_, _, _, stage'.ranks config, ?_, blocked⟩
    cases stage with
    | structural =>
      cases stage' with
      | structural => exact Nat.le_refl _
      | presence first => exact Nat.zero_le _
    | presence first =>
      obtain rfl := sharePresence_waiting hopen
      exact Nat.le_refl _

/-- A call that goes on and has to wait again is blocked at no higher place. -/
theorem Calm.busy_blocked (h : store.Calm fun _ => False) {handle : Handle} {stage : Stage}
    (hclient : store.client? id = some (.busy handle stage)) {now : Nat} {stage' : Stage} {s' : Session}
    (hresume : stage.resume (store.session now id handle) = .ok (.waiting stage') s') :
    ∃ offset kind rank, Ranks offset kind rank ∧ rank ≤ (Client.busy handle stage).rank ∧
      store.file.locks.blocks id offset kind = true := by
  obtain ⟨hhandle, hsteady⟩ := h.steady _ _ hclient
  obtain ⟨hcall, hrightful⟩ := h.plain _ _ hclient
  obtain ⟨hranks, hstructural⟩ := Stage.ranks hsteady hcall handle
  by_cases hblocked : store.file.locks.blocks id stage.offset .exclusive = true
  · exact ⟨_, _, _, hranks, Nat.le_refl _, hblocked⟩
  by_cases hrank : (Client.busy handle stage).rank = 1
  · -- the structural lock is granted, and the call comes to rest
    have hstage := hstructural hrank
    have hfault : lockFault? stage.offset = none := by
      cases stage with
      | appending | resorting => exact SessionM.structural_lockFault?
      | _ => exact hstage.elim
    have hfree : ¬ (store.session now id handle).file.locks.blocks
        (store.session now id handle).holder stage.offset .exclusive = true := hblocked
    have htry := SessionM.tryLock_eq (store.session now id handle) hfault
    rw [if_neg hfree] at htry
    have hgranted : stage.resume (store.session now id handle) =
        stage.granted ((store.session now id handle).hold stage.offset) := by
      unfold Stage.resume
      rw [SessionM.bind_ok htry]
      rfl
    have hown := h.own id not_false
    rw [held_eq hclient] at hown
    have hkeeps := keeps_session now hhandle hown
    have hsettles := Stage.granted_settles (hkeeps.hold stage.offset) hstage
      (fun _ : True => ⟨hcall, List.Subset.refl _, hrightful⟩)
    unfold SessionM.Settles SessionM.Leads at hsettles
    rw [← hgranted, hresume] at hsettles
    obtain ⟨⟨a, ha⟩, -⟩ := hsettles
    cases ha
  · -- whatever the call waits for now is the lock of a record or comes before them
    have hsame : ∀ stage', some stage = some stage' → stage'.call = stage.call := by
      rintro _ ⟨⟩
      rfl
    have hends := h.stretch_ends not_false hclient hsame hcall now
    unfold SessionM.Leads at hends
    have hstretch : stage.call.stretch (some stage) (store.session now id handle) =
        .ok (.waiting stage') s' := hresume
    rw [hstretch] at hends
    cases hends with
    | waiting keeps same blocked steady held =>
      rw [Outset.Blocks, SharedFile.outset, LockTable.blocks_others] at blocked
      have htop : (Client.busy handle stage).rank = 2 :=
        (Client.rank_busy handle stage).resolve_left hrank
      refine ⟨_, _, _, (Stage.ranks steady (same ▸ hcall) handle).1, ?_, blocked⟩
      rw [htop]
      rcases Client.rank_busy handle stage' with hlow | htop'
      · rw [hlow]
        exact Nat.le_succ 1
      · exact Nat.le_of_eq htop'

/-- **Somebody can go on**: who waits, or who is in the way, and so on down the order. -/
theorem Calm.exists_proceeds (h : store.Calm fun _ => False) (rank : Nat) :
    ∀ {id : HolderId} {client : Client}, store.client? id = some client →
      (∃ want, client.wants? = some want) → client.rank ≤ rank →
        ∃ other, store.wants? other ≠ none ∧ store.Proceeds other := by
  induction rank using Nat.strongRecOn with
  | _ rank ih =>
    intro id client hclient hwants hle
    by_cases hproceeds : store.Proceeds id
    · obtain ⟨want, hwant⟩ := hwants
      refine ⟨id, ?_, hproceeds⟩
      rw [wants?, hclient, Option.bind_some, hwant]
      exact Option.some_ne_none want
    -- it has to wait again, and somebody is in its way
    obtain ⟨offset, kind, place, hranks, hplace, hblocked⟩ : ∃ offset kind place,
        Ranks offset kind place ∧ place ≤ client.rank ∧
          store.file.locks.blocks id offset kind = true := by
      unfold Proceeds at hproceeds
      push Not at hproceeds
      obtain ⟨now, hout⟩ := hproceeds
      cases client with
      | idle handle =>
        obtain ⟨want, hwant⟩ := hwants
        cases hwant
      | opening config stage =>
        have hserve : store.serve ⟨now, id, .resume⟩ =
            store.settleOpen id config (resumeOpen now id config store.file stage) := by
          simp only [Store.serve, Store.resume, hclient]
        rw [hserve] at hout
        obtain ⟨havailable, hwaiting⟩ := store.settleOpen_outcome id config
          (resumeOpen now id config store.file stage)
        by_cases hwait : (store.settleOpen id config
            (resumeOpen now id config store.file stage)).2 = .waiting
        · obtain ⟨file, stage', hopen⟩ := hwaiting hwait
          exact h.opening_blocked hclient hopen
        · exact absurd (hout hwait) havailable
      | busy handle stage =>
        have hserve : store.serve ⟨now, id, .resume⟩ =
            store.settleCall id (stage.resume.run (store.session now id handle)) := by
          simp only [Store.serve, Store.resume, hclient]
        rw [hserve] at hout
        obtain ⟨havailable, hwaiting⟩ :=
          store.settleCall_outcome id (stage.resume.run (store.session now id handle))
        by_cases hwait : (store.settleCall id
            (stage.resume.run (store.session now id handle))).2 = .waiting
        · obtain ⟨stage', s', hresume⟩ := hwaiting hwait
          exact h.busy_blocked hclient hresume
        · exact absurd (hout hwait) havailable
    rw [LockTable.blocks, List.any_eq_true] at hblocked
    obtain ⟨lock, hl, hlock⟩ := hblocked
    simp only [Bool.and_eq_true, Bool.or_eq_true, beq_iff_eq] at hlock
    obtain ⟨other, hother, hwaits, hlt⟩ := h.in_way hranks hl hlock.1.2 hlock.2
    exact ih other.rank (by omega) hother hwaits (Nat.le_refl _)

/-- **Calls that keep no lock never deadlock**, on any file and for any number of clients, wherever
their turns are broken off.  If one of them waits, then one that waits comes to its end once it is let
go on.  A client that waits for the lock of a record has nothing of the structural lock.  No client
waits, at first or second hand, for itself. -/
theorem never_deadlocked {bytes : Bytes} {mtime : Int} (h : Interleaved bytes mtime store) :
    ((∃ id, store.wants? id ≠ none) → ∃ id, store.wants? id ≠ none ∧ store.Proceeds id) ∧
      (∀ id handle stage, store.client? id = some (.busy handle stage) →
        stage.offset ≠ structuralOffset → ∀ lock ∈ store.file.locks.held, lock.holder = id →
          LockTable.covers structuralOffset lock.byte = false) ∧
      ∀ id, ¬ Relation.TransGen store.WaitsFor id id := by
  have hcalm := h.calm
  refine ⟨?_, ?_, ?_⟩
  · rintro ⟨id, hwaits⟩
    obtain ⟨want, hwant⟩ := Option.ne_none_iff_exists'.1 hwaits
    obtain ⟨client, hclient, hwant⟩ := Option.bind_eq_some_iff.1 hwant
    exact hcalm.exists_proceeds client.rank hclient ⟨want, hwant⟩ (Nat.le_refl _)
  · rintro id handle stage hclient hoffset lock hl rfl
    have horder : lockLen ≤ structuralOffset ∧ structuralOffset + lockLen < Header.length := by decide
    rw [← Bool.not_eq_true, LockTable.covers_iff]
    rcases hcalm.lock_cases hl with ⟨hbyte, -⟩ | ⟨config, first, hopening, -⟩ |
      ⟨_, _, place, -, hplace, hown⟩
    · omega
    · rw [hclient] at hopening
      cases hopening
    · have := (LockTable.covers_iff.1 hown).1
      omega
  · intro id hcycle
    obtain ⟨client, client', hclient, hclient', hlt⟩ := hcalm.rank_lt hcycle
    obtain rfl := Option.some.inj (hclient.symm.trans hclient')
    exact Nat.lt_irrefl _ hlt

/-- A writer was broken off before it appends a longer value, and so has the lock of the record that
another client wants to delete. -/
def crossed : Store :=
  let key := ascii ['k']
  let name := ascii ['f']
  let opened := ((ofBytes [] 0).run [⟨1, 1, .opening (.ofPath Config.defaultPath)⟩,
    ⟨1, 1, .call (.write ⟨key, some ⟨name, ascii ['1']⟩, .transient⟩)⟩]).1
  let broken := (opened.interrupt 9 [structuralOffset]
    ⟨1, 1, .call (.write ⟨key, some ⟨name, ascii ['2', '2']⟩, .transient⟩)⟩).1
  (broken.run [⟨1, 2, .opening (.ofPath Config.defaultPath)⟩, ⟨1, 2, .call (.delete key)⟩]).1

/-- One client waits for the other there, and the other can go on. -/
theorem never_deadlocked_where_calls_cross : Interleaved [] 0 crossed ∧ crossed.WaitsFor 2 1 ∧
    crossed.wants? 1 = some (structuralOffset, .exclusive) ∧
    (∃ id, crossed.wants? id ≠ none ∧ crossed.Proceeds id) ∧
      ∀ id, ¬ Relation.TransGen crossed.WaitsFor id id := by
  have hreached : Interleaved [] 0 crossed := by
    refine .run (.interrupted (.run .start ?_) _ ?_ 9 _ (by decide +kernel) (by decide)) ?_
    · simp [Request.Transient, Call.Transient]
    · rfl
    · simp [Request.Transient, Call.Transient]
  have hwants : crossed.wants? 2 = some (Header.length, .exclusive) := by decide +kernel
  have hblocked : ∃ lock ∈ crossed.file.locks.held, lock.holder = 1 ∧
      LockTable.covers Header.length lock.byte = true ∧
        (lock.kind = .exclusive ∨ LockKind.exclusive = .exclusive) := by decide +kernel
  obtain ⟨hproceeds, -, hacyclic⟩ := never_deadlocked hreached
  exact ⟨hreached, ⟨_, _, hwants, by decide, hblocked⟩, by decide +kernel,
    hproceeds ⟨2, by rw [hwants]; exact Option.some_ne_none _⟩, hacyclic⟩

end Store

end RecordStore
