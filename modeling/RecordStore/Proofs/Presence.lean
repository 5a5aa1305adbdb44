import Mathlib.Tactic.Common
import RecordStore.Proofs.Sparing

/-!
# Who has a store open

Every client shares the lock of the first bytes for as long as it has the store open, and an opener
tries to have these bytes for itself.  So long as nobody locks them otherwise, it can have them just
where no other client has the store open, and it never waits for its share.

* `Store.Manned` — the locks of the first bytes are those of the clients that have the store open.
* `Store.Attended` — the stores that clients come to who leave these bytes alone, while anybody else
  may write to the file behind its header line.

Principal results: `openFile_decides` — what an opener learns; `Store.Manned.serve` — one turn;
`Store.Attended.manned` — every history.
-/

set_option autoImplicit false

namespace RecordStore

/-! ## Openings -/

namespace LockTable

variable {table : LockTable} {holder : HolderId} {lock : ByteLock}

/-- Who takes a share has it, and nothing else, on the first bytes. -/
theorem mem_presence_share : lock ∈ (table.set holder presenceOffset .shared).presence ↔
    (lock.holder = holder ∧ lock.byte < lockLen ∧ lock.kind = .shared) ∨
      (lock ∈ table.presence ∧ lock.holder ≠ holder) := by
  have hcov : covers presenceOffset lock.byte = true ↔ lock.byte < lockLen := by
    rw [covers_iff, presenceOffset, Nat.zero_add]
    exact and_iff_right (Nat.zero_le _)
  rw [mem_presence_iff, mem_presence_iff, mem_set_iff, mem_clear_iff, hcov]
  tauto

/-- What others have on the first bytes. -/
theorem mem_presence_of_others {table' : LockTable} (h : table'.others holder = table.others holder)
    (hne : lock.holder ≠ holder) : lock ∈ table'.presence ↔ lock ∈ table.presence := by
  have hothers : ∀ t : LockTable, lock ∈ t.held ↔ lock ∈ t.others holder := by
    intro t
    rw [others, List.mem_filter, bne_iff_ne]
    exact (and_iff_left hne).symm
  rw [mem_presence_iff, mem_presence_iff, hothers table', hothers table, h]

theorem mem_presence_release :
    lock ∈ (table.release holder).presence ↔ lock ∈ table.presence ∧ lock.holder ≠ holder := by
  rw [mem_presence_iff, mem_presence_iff, release, List.mem_filter, bne_iff_ne]
  tauto

/-- A share is free where nobody has more than one. -/
theorem not_blocks_share (h : ∀ lock ∈ table.presence, lock.kind = .shared) :
    table.blocks holder presenceOffset .shared = false := by
  rw [blocks, List.any_eq_false]
  intro lock hl hblocks
  simp only [Bool.and_eq_true, covers_iff, presenceOffset, Nat.zero_add] at hblocks
  have hshared := h lock (mem_presence_iff.2 ⟨hl, hblocks.1.2.2⟩)
  rw [hshared] at hblocks
  exact absurd hblocks.2 (by decide)

end LockTable

/-- What an opener comes to that has its share: a handle, or the end of all its locks. -/
inductive Admitted (holder : HolderId) (file : SharedFile) : SharedFile × Opening → Prop where
  | opened {file' : SharedFile} {handle : Handle} (line : HeaderLine file'.bytes)
    (behind : handle.Behind) (locks : file'.locks.presence = file.locks.presence) :
    Admitted holder file (file', .opened handle)
  | failed {file' : SharedFile} {e : Error} (line : HeaderLine file'.bytes)
    (locks : file'.locks = file.locks.release holder) :
    Admitted holder file (file', .failed e)

section Openings

variable {now : Nat} {holder : HolderId} {config : Config} {file : SharedFile}

/-- A handle begins behind the header line. -/
theorem makeHandle_behind {bytes : Bytes} {fresh : Bool} {header : Header} {handle : Handle}
    (hline : HeaderLine bytes) (h : makeHandle config bytes fresh = some (header, handle)) :
    handle.Behind := by
  obtain ⟨-, n, hn, rfl⟩ := makeHandle_eq_some_iff.1 h
  exact ⟨Option.some.inj (hn.symm.trans hline), hline.length_le, by rintro entry ⟨⟩⟩

theorem finishOpen_admitted (hfile : HeaderLine file.bytes ∨ file.bytes = []) (first : Bool) :
    Admitted holder file (finishOpen now holder config first file) := by
  unfold finishOpen
  dsimp only
  generalize hfile' : (if file.bytes.isEmpty then file.patch now ⟨0, Header.encode .fresh⟩ else file) =
    file'
  have hline : HeaderLine file'.bytes ∧ file'.locks = file.locks := by
    rcases hfile with hline | hempty
    · rw [← hfile', if_neg (by simpa using hline.ne_nil)]
      exact ⟨hline, rfl⟩
    · rw [← hfile', if_pos (by rw [hempty]; rfl)]
      refine ⟨?_, file.patch_locks now _⟩
      rw [SharedFile.patch_bytes, hempty]
      exact headLength?_encode (by decide) []
  cases hmake : makeHandle config file'.bytes file.bytes.isEmpty with
  | none => exact .failed hline.1 (congrArg (·.release holder) hline.2)
  | some pair =>
    obtain ⟨header, handle⟩ := pair
    have hbehind : (⟨now, holder, handle, file', []⟩ : Session).Behind file.locks.presence :=
      ⟨makeHandle_behind hline.1 hmake, hline.1, congrArg LockTable.presence hline.2⟩
    dsimp only
    split
    · exact .opened hbehind.sort.line hbehind.sort.handle
        ((LockTable.presence_clear (Nat.le_refl _)).trans hbehind.sort.presence)
    · exact .opened hbehind.line hbehind.handle
        ((LockTable.presence_clear (Nat.le_refl _)).trans hbehind.presence)

/-- What an opener that found the structural lock free learns: it has its share of the first bytes, and
knows whether anybody else has one. -/
structure Learns (holder : HolderId) (file : SharedFile) (first : Bool) (locks : LockTable) : Prop where
  first_iff : first = true ↔ file.locks.presence = []
  others : locks.others holder = file.locks.others holder
  mem_iff : ∀ lock, lock ∈ locks.presence ↔ lock ∈ file.locks.presence ∨
    (lock.holder = holder ∧ lock.byte < lockLen ∧ lock.kind = .shared)

/-- **What an opener learns** where the first bytes are but shared, and not with itself: it waits for
the structural lock, or it runs through. -/
theorem openFile_decides (hshared : ∀ lock ∈ file.locks.presence, lock.kind = .shared)
    (hnew : ∀ lock ∈ file.locks.presence, lock.holder ≠ holder) :
    (file.locks.blocks holder structuralOffset .exclusive = true ∧
      openFile now holder config file = (file, .waiting .structural)) ∨
    ∃ first locks, Learns holder file first locks ∧
      openFile now holder config file = finishOpen now holder config first { file with locks } := by
  unfold openFile
  rcases file.acquire?_cases holder structuralOffset .exclusive with ⟨hblocks, hacq⟩ | ⟨-, hacq⟩
  · rw [hacq]
    exact .inl ⟨hblocks, rfl⟩
  right
  rw [hacq]
  dsimp only
  -- whatever the opener took before, its share is free
  have hshare : ∀ (file₁ : SharedFile) (first : Bool),
      file₁.locks.others holder = file.locks.others holder →
      (file₁.bytes = file.bytes ∧ file₁.mtime = file.mtime) →
      (first = true ↔ file.locks.presence = []) →
      ∃ first' locks, Learns holder file first' locks ∧
        sharePresence now holder config first file₁ =
          finishOpen now holder config first' { file with locks } := by
    intro file₁ first hothers ⟨hbytes, hmtime⟩ hfirst
    have hfree : file₁.locks.blocks holder presenceOffset .shared = false := by
      rw [LockTable.blocks_congr hothers]
      exact LockTable.not_blocks_share hshared
    refine ⟨first, (file₁.hold holder presenceOffset .shared).locks,
      ⟨hfirst, LockTable.others_set.trans hothers, fun lock => ?_⟩, ?_⟩
    · show lock ∈ (file₁.locks.set holder presenceOffset .shared).presence ↔ _
      rw [LockTable.mem_presence_share, Or.comm]
      refine or_congr ⟨fun h => ?_, fun h => ?_⟩ Iff.rfl
      · exact (LockTable.mem_presence_of_others hothers h.2).1 h.1
      · exact ⟨(LockTable.mem_presence_of_others hothers (hnew lock h)).2 h, hnew lock h⟩
    · unfold sharePresence
      rcases file₁.acquire?_cases holder presenceOffset .shared with ⟨hblocks, -⟩ | ⟨-, hacq⟩
      · rw [hfree] at hblocks
        cases hblocks
      · rw [hacq, ← hbytes, ← hmtime]
        rfl
  have hothers : (file.hold holder structuralOffset .exclusive).locks.others holder =
      file.locks.others holder := LockTable.others_set
  have hprobe : (file.hold holder structuralOffset .exclusive).locks.blocks holder presenceOffset
      .exclusive = true ↔ ∃ lock ∈ file.locks.presence, lock.holder ≠ holder := by
    rw [LockTable.blocks_congr hothers, LockTable.blocks_presence_exclusive_iff]
  unfold probePresence
  rcases (file.hold holder structuralOffset .exclusive).acquire?_cases holder presenceOffset
    .exclusive with ⟨hblocks, hacq⟩ | ⟨hfree, hacq⟩
  · rw [hacq]
    obtain ⟨lock, hl, -⟩ := hprobe.1 hblocks
    refine hshare _ false hothers ⟨rfl, rfl⟩ (iff_of_false (by decide) fun hnone => ?_)
    rw [hnone] at hl
    cases hl
  · rw [hacq]
    refine hshare _ true (LockTable.others_set.trans hothers) ⟨rfl, rfl⟩ (iff_of_true rfl ?_)
    refine List.eq_nil_iff_forall_not_mem.2 fun lock hl => ?_
    rw [hprobe.2 ⟨lock, hl, hnew lock hl⟩] at hfree
    cases hfree

end Openings

/-! ## Clients -/

/-- A client that looks and waits behind the header line, or opens without its share. -/
def Client.Behind : Client → Prop
  | .opening _ stage => stage = .structural
  | .idle handle => handle.Behind
  | .busy handle stage => handle.Behind ∧ stage.Behind

theorem Client.Behind.atStage {handle : Handle} {pending : Option Stage}
    (h : (Client.atStage handle pending).Behind) :
    handle.Behind ∧ ∀ stage, pending = some stage → stage.Behind := by
  cases pending with
  | none => exact ⟨h, by rintro stage ⟨⟩⟩
  | some stage => exact ⟨h.1, by rintro _ ⟨⟩; exact h.2⟩

/-- A request that is not told to lock or unlock any of the first bytes. -/
def Request.SparesPresence : Request → Prop
  | .call asked => asked.SparesPresence
  | .opening _ | .resume | .close => True

instance : DecidablePred Request.SparesPresence
  | .call asked => inferInstanceAs (Decidable asked.SparesPresence)
  | .opening _ | .resume | .close => isTrue trivial

namespace Store

/-- Every client stays behind the header line, and the locks of the first bytes are the shares of those
that have the store open. -/
structure Manned (store : Store) : Prop where
  line : HeaderLine store.file.bytes ∨ (store.file.bytes = [] ∧ ∀ id, ¬ store.Present id)
  behind : ∀ id client, store.client? id = some client → client.Behind
  shared : ∀ lock ∈ store.file.locks.presence, lock.kind = .shared ∧ store.Present lock.holder
  shares : ∀ id, store.Present id → ∃ lock ∈ store.file.locks.presence, lock.holder = id

variable {store : Store} {id other : HolderId}

/-! ### Who is there -/

theorem present_of_atStage {handle : Handle} {pending : Option Stage}
    (h : store.client? id = some (.atStage handle pending)) : store.Present id := by
  cases pending with
  | none => exact ⟨handle, .inl h⟩
  | some stage => exact ⟨handle, .inr ⟨stage, h⟩⟩

theorem not_present_of_none (h : store.client? id = none) : ¬ store.Present id := by
  rintro ⟨handle, hidle | ⟨stage, hbusy⟩⟩
  · cases h.symm.trans hidle
  · cases h.symm.trans hbusy

theorem not_present_of_opening {config : Config} {stage : OpenStage}
    (h : store.client? id = some (.opening config stage)) : ¬ store.Present id := by
  rintro ⟨handle, hidle | ⟨stage', hbusy⟩⟩
  · cases h.symm.trans hidle
  · cases h.symm.trans hbusy

theorem present_congr {store' : Store} (h : store'.client? other = store.client? other) :
    store'.Present other ↔ store.Present other := by
  unfold Present
  rw [h]

/-- Somebody is there just where the first bytes are locked. -/
theorem Manned.presence_eq_nil_iff (h : store.Manned) :
    store.file.locks.presence = [] ↔ ∀ id, ¬ store.Present id := by
  rw [List.eq_nil_iff_forall_not_mem]
  constructor
  · intro hnone id hpresent
    obtain ⟨lock, hl, -⟩ := h.shares id hpresent
    exact hnone lock hl
  · intro hnobody lock hl
    exact hnobody lock.holder (h.shared lock hl).2

theorem Manned.line_of_present (h : store.Manned) (hpresent : store.Present id) :
    HeaderLine store.file.bytes :=
  h.line.resolve_right fun hempty => hempty.2 id hpresent

theorem Manned.line_or_nil (h : store.Manned) :
    HeaderLine store.file.bytes ∨ store.file.bytes = [] := h.line.imp_right And.left

/-- Who has not opened the store has no share. -/
theorem Manned.holder_ne (h : store.Manned) (habsent : ¬ store.Present id) :
    ∀ lock ∈ store.file.locks.presence, lock.holder ≠ id :=
  fun lock hl heq => habsent (heq ▸ (h.shared lock hl).2)

/-! ### One turn -/

/-- A client that stays goes on behind the header line. -/
theorem Manned.stay (h : store.Manned) (hpresent : store.Present id) {file : SharedFile}
    {handle : Handle} {pending : Option Stage} (hline : HeaderLine file.bytes)
    (hlocks : file.locks.presence = store.file.locks.presence)
    (hclient : (Client.atStage handle pending).Behind) :
    (store.update id file (.atStage handle pending)).Manned := by
  have hsame : ∀ other, (store.update id file (.atStage handle pending)).Present other ↔
      store.Present other := by
    intro other
    by_cases hother : other = id
    · rw [hother]
      exact iff_of_true (present_of_atStage (client?_update_self _ _ _ _)) hpresent
    · exact present_congr (client?_update_of_ne _ hother _ _)
  refine ⟨.inl hline, forall_client_update h.behind (fun _ hc => hc) id file hclient, ?_, ?_⟩
  · intro lock hl
    rw [show (store.update id file _).file.locks.presence = _ from hlocks] at hl
    rw [hsame]
    exact h.shared lock hl
  · intro other hother
    obtain ⟨lock, hl, heq⟩ := h.shares other ((hsame other).1 hother)
    exact ⟨lock, hlocks ▸ hl, heq⟩

/-- A client that goes takes its locks with it. -/
theorem Manned.leave (h : store.Manned) {file : SharedFile} (hline : HeaderLine file.bytes)
    (hlocks : ∀ lock, lock ∈ file.locks.presence ↔
      lock ∈ store.file.locks.presence ∧ lock.holder ≠ id) :
    (({ store with file } : Store).remove id).Manned := by
  have hsame : ∀ other, other ≠ id →
      ((({ store with file } : Store).remove id).Present other ↔ store.Present other) :=
    fun other hother => present_congr (client?_remove_of_ne { store with file } hother)
  refine ⟨.inl hline, forall_client_remove h.behind (fun _ hc => hc) id file, ?_, ?_⟩
  · intro lock hl
    obtain ⟨hold, hne⟩ := (hlocks lock).1 hl
    rw [hsame _ hne]
    exact h.shared lock hold
  · intro other hother
    have hne : other ≠ id := by
      rintro rfl
      exact not_present_of_none (client?_remove_self _ _) hother
    obtain ⟨lock, hl, rfl⟩ := h.shares other ((hsame other hne).1 hother)
    exact ⟨lock, (hlocks lock).2 ⟨hl, hne⟩, rfl⟩

/-- A client that waits for its turn to open has no share yet. -/
theorem Manned.queue (h : store.Manned) (habsent : ¬ store.Present id) (config : Config) :
    (store.update id store.file (.opening config .structural)).Manned := by
  have hsame : ∀ other, (store.update id store.file (.opening config .structural)).Present other ↔
      store.Present other := by
    intro other
    by_cases hother : other = id
    · rw [hother]
      exact iff_of_false (not_present_of_opening (client?_update_self _ _ _ _)) habsent
    · exact present_congr (client?_update_of_ne _ hother _ _)
  refine ⟨?_, forall_client_update h.behind (fun _ hc => hc) id store.file rfl, ?_, ?_⟩
  · refine h.line.imp_right fun hempty => ⟨hempty.1, fun other => ?_⟩
    rw [hsame]
    exact hempty.2 other
  · intro lock hl
    rw [hsame]
    exact h.shared lock hl
  · intro other hother
    exact h.shares other ((hsame other).1 hother)

/-- A client that has opened the store has its share. -/
theorem Manned.arrive (h : store.Manned) (habsent : ¬ store.Present id) {first : Bool}
    {locks : LockTable} (hlearns : Learns id store.file first locks) {file : SharedFile}
    {handle : Handle} (hline : HeaderLine file.bytes) (hhandle : handle.Behind)
    (hlocks : file.locks.presence = locks.presence) :
    (store.update id file (.idle handle)).Manned := by
  have hself : (store.update id file (.idle handle)).Present id :=
    ⟨handle, .inl (client?_update_self _ _ _ _)⟩
  have hsame : ∀ other, other ≠ id →
      ((store.update id file (.idle handle)).Present other ↔ store.Present other) :=
    fun other hother => present_congr (client?_update_of_ne _ hother _ _)
  refine ⟨.inl hline, forall_client_update h.behind (fun _ hc => hc) id file hhandle, ?_, ?_⟩
  · intro lock hl
    rw [show (store.update id file _).file.locks.presence = _ from hlocks, hlearns.mem_iff] at hl
    rcases hl with hold | ⟨rfl, -, hkind⟩
    · rw [hsame _ (h.holder_ne habsent lock hold)]
      exact h.shared lock hold
    · exact ⟨hkind, hself⟩
  · intro other hother
    rw [show (store.update id file _).file.locks.presence = _ from hlocks]
    by_cases hid : other = id
    · refine ⟨⟨id, presenceOffset, .shared⟩, (hlearns.mem_iff _).2 (.inr ⟨rfl, ?_, rfl⟩), hid.symm⟩
      exact (by decide : presenceOffset < lockLen)
    · obtain ⟨lock, hl, heq⟩ := h.shares other ((hsame other hid).1 hother)
      exact ⟨lock, (hlearns.mem_iff lock).2 (.inl hl), heq⟩

/-- **An opening** leaves the locks of the first bytes with those that have the store open. -/
theorem Manned.settleOpen (h : store.Manned) (habsent : ¬ store.Present id) (now : Nat)
    (config : Config) :
    (store.settleOpen id config (openFile now id config store.file)).1.Manned := by
  rcases openFile_decides (fun lock hl => (h.shared lock hl).1) (h.holder_ne habsent) with
    ⟨-, hopen⟩ | ⟨first, locks, hlearns, hopen⟩
  · rw [hopen]
    exact h.queue habsent config
  · rw [hopen]
    have hadmitted := @finishOpen_admitted now id config { store.file with locks } h.line_or_nil first
    generalize finishOpen now id config first { store.file with locks } = result at hadmitted
    cases hadmitted with
    | opened line behind hlocks => exact h.arrive habsent hlearns line behind hlocks
    | @failed file e line hlocks =>
      refine h.leave line fun lock => ?_
      rw [hlocks, LockTable.mem_presence_release]
      refine and_congr_left fun hne => ?_
      exact LockTable.mem_presence_of_others hlearns.others hne

/-- **One turn** that spares the first bytes. -/
theorem Manned.serve (h : store.Manned) (turn : Turn) (hspares : turn.request.SparesPresence) :
    (store.serve turn).1.Manned := by
  have hserved := store.serve_served turn
  generalize store.serve turn = result at hserved
  cases hserved with
  | unavailable => exact h
  | opening quiet client => exact h.settleOpen (not_present_of_none client) turn.now _
  | @reopening config stage quiet client =>
    obtain rfl : stage = .structural := h.behind _ _ client
    exact h.settleOpen (not_present_of_opening client) turn.now config
  | @closed handle quiet client =>
    have hline := h.line_of_present ⟨handle, .inl client⟩
    refine h.leave ?_ fun lock => ?_
    · unfold closeFile
      cases hpatch : closingPatch? turn.now handle with
      | none => exact hline
      | some patch =>
        obtain ⟨-, hstamp⟩ := Option.ite_none_right_eq_some.1 hpatch
        obtain rfl := Option.some.inj hstamp
        show HeaderLine (store.file.patch turn.now _).bytes
        rw [SharedFile.patch_bytes]
        exact hline.apply (tame_word (by decide) _)
    · rw [closeFile_locks]
      exact LockTable.mem_presence_release
  | @ran handle call pending runs =>
    have hpresent := present_of_atStage runs.client
    obtain ⟨hhandle, hstage⟩ := (h.behind _ _ runs.client).atStage
    have hsession : (store.session turn.now turn.holder handle).Behind store.file.locks.presence :=
      ⟨hhandle, h.line_of_present hpresent, rfl⟩
    have hcall : pending = none → call.SparesPresence := by
      rintro rfl
      have hrequest := runs.request
      rw [hrequest] at hspares
      exact hspares
    have hends := Call.stretch_behind hcall hstage _ _ hsession
    unfold SessionM.Brings at hends
    revert hends
    generalize call.stretch pending (store.session turn.now turn.holder handle) = result
    intro hends
    cases result with
    | error e s' => exact @stay _ _ h hpresent _ _ none hends.line hends.presence hends.handle
    | ok progress s' =>
      obtain ⟨hends, hprogress⟩ := hends
      cases progress with
      | answered answer => exact @stay _ _ h hpresent _ _ none hends.line hends.presence hends.handle
      | waiting stage =>
        exact @stay _ _ h hpresent _ _ (some stage) hends.line hends.presence
          ⟨hends.handle, hprogress⟩

/-! ### Histories -/

/-- Somebody else writes to the file, and may set its change time. -/
def edit (store : Store) (bytes : Bytes) (mtime : Int) : Store :=
  { store with file := { store.file with bytes, mtime } }

theorem Manned.edit (h : store.Manned) {bytes : Bytes} (hline : HeaderLine bytes) (mtime : Int) :
    (store.edit bytes mtime).Manned := ⟨.inl hline, h.behind, h.shared, h.shares⟩

theorem Manned.ofBytes {bytes : Bytes} (hbytes : HeaderLine bytes ∨ bytes = []) (mtime : Int) :
    (Store.ofBytes bytes mtime).Manned where
  line := hbytes.imp_right fun hempty => ⟨hempty, fun id => not_present_of_none rfl⟩
  behind := by rintro id client ⟨⟩
  shared := by intro lock hl; cases hl
  shares id hpresent := absurd hpresent (not_present_of_none rfl)

/-- What a file may come to whose header line stays as long as a header: clients open and close it and
do anything between but lock or unlock its first bytes, while anybody else writes to it. -/
inductive Attended : Store → Prop where
  | start {bytes : Bytes} (line : HeaderLine bytes ∨ bytes = []) (mtime : Int) :
    Attended (.ofBytes bytes mtime)
  | turn {store : Store} (before : Attended store) (turn : Turn)
    (spares : turn.request.SparesPresence) : Attended (store.serve turn).1
  | edited {store : Store} (before : Attended store) {bytes : Bytes} (line : HeaderLine bytes)
    (mtime : Int) : Attended (store.edit bytes mtime)

theorem Attended.run {store : Store} (h : store.Attended) {turns : List Turn}
    (hspares : ∀ turn ∈ turns, turn.request.SparesPresence) : (store.run turns).1.Attended := by
  induction turns generalizing store with
  | nil => exact h
  | cons turn more ih =>
    rw [List.forall_mem_cons] at hspares
    exact ih (h.turn turn hspares.1) hspares.2

/-- **Every history** leaves the locks of the first bytes with those that have the store open. -/
theorem Attended.manned (h : store.Attended) : store.Manned := by
  induction h with
  | start line mtime => exact .ofBytes line mtime
  | turn _ turn spares ih => exact ih.serve turn spares
  | edited _ line mtime ih => exact ih.edit line mtime

end Store

end RecordStore
