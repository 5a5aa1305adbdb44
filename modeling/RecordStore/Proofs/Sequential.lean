import Mathlib.Tactic.Common
import RecordStore.Proofs.Runs

/-!
# One call at a time

While every call runs to its end before the next one starts, a store is a map.  Whoever asks, and
however long ago that handle last looked at the file, the answers are those of one map from keys to
ordered lists of fields.

* `Request.Plain` — opening, closing, transient writes, deletes, lookups by key, the list of all
  records and resorts.
* `MapServer` — a map with the clients that it serves.
* `MapServer.Serves` — what the map answers to the requests of its clients, in order.
* `Store.Matches` — a store that shows its clients what the map does.

Principal result: `Store.serves_as_map`.
-/

set_option autoImplicit false

namespace RecordStore

/-- Opening, closing, transient writes, deletes, lookups by key, the list of all records and
resorts. -/
def Request.Plain : Request → Prop
  | .opening _ | .close => True
  | .call (.read _ _ _) | .call .records | .call (.delete _) | .call .resort => True
  | .call (.write request) => request.mode = .transient
  | _ => False

/-- Whether a call is told to lock what it looks up. -/
def Call.locks : Call → Bool
  | .read _ _ keepLock => keepLock
  | _ => false

/-! ## Fields of distinct names -/

/-- Every key has fields of distinct names. -/
def Contents.NamesDistinct (c : Contents) : Prop :=
  ∀ key fields, c key = some fields → (fields.map Field.name).Nodup

/-- Setting a field adds no name but its own. -/
theorem mem_names_setField {fields : List Field} {field : Field} {name : Bytes}
    (h : name ∈ (setField fields field).map Field.name) :
    name ∈ fields.map Field.name ∨ name = field.name := by
  induction fields with
  | nil => exact Or.inr (by simpa [setField] using h)
  | cons f more ih =>
    unfold setField at h
    split at h
    · rw [List.map_cons, List.mem_cons] at h ⊢
      rcases h with h | h
      · exact Or.inr h
      · exact Or.inl (Or.inr h)
    · rw [List.map_cons, List.mem_cons] at h ⊢
      rcases h with h | h
      · exact Or.inl (Or.inl h)
      · exact (ih h).imp_left Or.inr

theorem nodup_names_setField {fields : List Field} (h : (fields.map Field.name).Nodup)
    (field : Field) : ((setField fields field).map Field.name).Nodup := by
  induction fields with
  | nil => simp [setField]
  | cons f more ih =>
    rw [List.map_cons, List.nodup_cons] at h
    unfold setField
    split
    · next hf =>
      rw [List.map_cons, List.nodup_cons, ← hf]
      exact h
    · next hf =>
      rw [List.map_cons, List.nodup_cons]
      refine ⟨fun hmem => ?_, ih h.2⟩
      rcases mem_names_setField hmem with hmem | hname
      · exact h.1 hmem
      · exact hf hname

namespace Contents

variable {c : Contents}

theorem NamesDistinct.set (h : c.NamesDistinct) (key : Bytes) {fields : List Field}
    (hfields : (fields.map Field.name).Nodup) : (c.set key fields).NamesDistinct := by
  intro other found hfound
  unfold Contents.set at hfound
  split at hfound
  · cases hfound
    exact hfields
  · exact h other found hfound

/-- Calls keep the names of a key distinct. -/
theorem NamesDistinct.after (h : c.NamesDistinct) (call : Call) : (c.after call).NamesDistinct := by
  cases call with
  | write request =>
    show (c.write request.key request.field).NamesDistinct
    unfold Contents.write
    split
    · exact h
    · next hfound _ => exact h.set _ (nodup_names_setField (h _ _ hfound) _)
    · refine h.set _ ?_
      cases request.field <;> simp
  | delete key =>
    intro other fields hfound
    change (if other = key then none else c other) = some fields at hfound
    split at hfound
    · cases hfound
    · exact h other fields hfound
  | _ => exact h

end Contents

/-! ## The map and its clients -/

/-- Where a client is with the map. -/
inductive Presence where
  | away
  | here
  /-- Its call cannot go on, since another client has locked the record. -/
  | stuck
  deriving DecidableEq, Repr

structure MapServer where
  contents : Contents
  presence : HolderId → Presence
  /-- Whether some lookup was told to lock what it found. -/
  locking : Bool

namespace MapServer

/-- The empty map, which nobody has open. -/
def start : MapServer := ⟨.empty, fun _ => .away, false⟩

def put (m : MapServer) (id : HolderId) (presence : Presence) : MapServer :=
  { m with presence := fun other => if other = id then presence else m.presence other }

/-- What a call that has its answer makes of the server. -/
def after (m : MapServer) (call : Call) : MapServer :=
  { m with contents := m.contents.after call, locking := m.locking || call.locks }

/-- Only those who are away open, and only those who are here call and close. -/
def Expects (m : MapServer) (id : HolderId) : Request → Prop
  | .opening _ => m.presence id = .away
  | .call _ | .close => m.presence id = .here
  | .resume => m.presence id = .stuck

/-- What the map answers to its clients, request after request.  A call is refused or kept waiting
only if it takes the lock of a record and some lookup was told to keep one; a write that cannot be
written is refused. -/
inductive Serves : MapServer → List Event → MapServer → Prop where
  | done (m : MapServer) : Serves m [] m
  | opened {m m' : MapServer} {id : HolderId} {config : Config} {more : List Event}
    (away : m.presence id = .away) (rest : Serves (m.put id .here) more m') :
    Serves m (⟨id, .opening config, .opened⟩ :: more) m'
  | closed {m m' : MapServer} {id : HolderId} {more : List Event} (here : m.presence id = .here)
    (rest : Serves (m.put id .away) more m') :
    Serves m (⟨id, .close, .answered .done⟩ :: more) m'
  | answered {m m' : MapServer} {id : HolderId} {call : Call} {answer : Answer} {more : List Event}
    (here : m.presence id = .here) (answers : call.Answers m.contents answer)
    (rest : Serves (m.after call) more m') :
    Serves m (⟨id, .call call, .answered answer⟩ :: more) m'
  | invalid {m m' : MapServer} {id : HolderId} {request : WriteRequest} {fault : TokenFault}
    {more : List Event} (here : m.presence id = .here)
    (faulty : SessionM.requestFault? request = some fault) (rest : Serves m more m') :
    Serves m (⟨id, .call (.write request), .failed (.invalidData fault)⟩ :: more) m'
  | refused {m m' : MapServer} {id : HolderId} {call : Call} {offset : Nat} {more : List Event}
    (here : m.presence id = .here) (locking : m.locking = true) (acquires : call.acquires = true)
    (rest : Serves m more m') : Serves m (⟨id, .call call, .failed (.contention offset)⟩ :: more) m'
  | stuck {m m' : MapServer} {id : HolderId} {call : Call} {more : List Event}
    (here : m.presence id = .here) (locking : m.locking = true) (acquires : call.acquires = true)
    (rest : Serves (m.put id .stuck) more m') : Serves m (⟨id, .call call, .waiting⟩ :: more) m'
  | unavailable {m m' : MapServer} {id : HolderId} {request : Request} {more : List Event}
    (unexpected : ¬ m.Expects id request) (rest : Serves m more m') :
    Serves m (⟨id, request, .unavailable⟩ :: more) m'

/-- No key ever has a name twice. -/
theorem Serves.namesDistinct {m m' : MapServer} {events : List Event} (h : Serves m events m')
    (hm : m.contents.NamesDistinct) : m'.contents.NamesDistinct := by
  induction h with
  | done m => exact hm
  | answered _ _ _ ih => exact ih (hm.after _)
  | opened _ _ ih | closed _ _ ih | unavailable _ _ ih => exact ih hm
  | invalid _ _ _ ih => exact ih hm
  | refused _ _ _ _ ih | stuck _ _ _ _ ih => exact ih hm

end MapServer

/-! ## A store that is such a map -/

/-- Where a client of the store is. -/
def Client.presence : Option Client → Presence
  | none => .away
  | some (.idle _) => .here
  | some (.busy _ _) | some (.opening _ _) => .stuck

/-- The store shows its clients what the map does.  Nobody is held up while opening, and there are
only shared presence locks, and those of records if some lookup was told to lock. -/
structure Store.Matches (store : Store) (m : MapServer) (i : Image) : Prop where
  stands : store.Stands i
  contents : i.contents = m.contents
  presence : ∀ id, m.presence id = Client.presence (store.client? id)
  noneOpening : ∀ id config stage, store.client? id ≠ some (.opening config stage)
  quiet : store.file.locks.Quiet fun byte => m.locking = true ∧ Header.length ≤ byte

namespace Store

variable {store : Store} {m m' : MapServer} {i j : Image} {id : HolderId}

/-- A new store matches the empty map. -/
theorem Matches.ofBytes (mtime : Int) : (Store.ofBytes [] mtime).Matches .start .fresh where
  stands := .ofBytes mtime
  contents := rfl
  presence := fun _ => rfl
  noneOpening := by
    intro id config stage h
    cases h
  quiet := by
    intro lock hl
    cases hl

/-- One client's step, as far as clients go. -/
theorem Matches.update (h : store.Matches m i) {file : SharedFile} {client : Client}
    (hstands : (store.update id file client).Stands j) (hcontents : j.contents = m'.contents)
    (hpresence : m'.presence = (m.put id (Client.presence (some client))).presence)
    (hclient : ∀ config stage, client ≠ .opening config stage)
    (hquiet : file.locks.Quiet fun byte => m'.locking = true ∧ Header.length ≤ byte) :
    (store.update id file client).Matches m' j where
  stands := hstands
  contents := hcontents
  presence := by
    intro other
    rw [hpresence, MapServer.put]
    by_cases hid : other = id
    · rw [hid, client?_update_self]
      simp
    · rw [client?_update_of_ne _ hid, ← h.presence other]
      simp [hid]
  noneOpening := by
    intro other config stage hother
    by_cases hid : other = id
    · rw [hid, client?_update_self, Option.some.injEq] at hother
      exact hclient config stage hother
    · rw [client?_update_of_ne _ hid] at hother
      exact h.noneOpening other config stage hother
  quiet := hquiet

theorem Matches.expects_of_ready (h : store.Matches m i) {turn : Turn}
    (hexpects : m.Expects turn.holder turn.request) : store.Ready turn := by
  obtain ⟨now, id, request⟩ := turn
  have hpresence := h.presence id
  unfold Ready
  unfold MapServer.Expects at hexpects
  dsimp only at hexpects ⊢
  cases hclient : store.client? id with
  | none => cases request <;> simp_all [Client.presence]
  | some client => cases client <;> cases request <;> simp_all [Client.presence]

/-- Only an explicit lock waits for the bytes of the presence lock. -/
theorem lockLen_le_offset {stage : Stage} {handle : Handle} (hfit : stage.Fits handle i)
    (hlock : ∀ offset, stage.call ≠ .lock offset) : lockLen ≤ stage.offset := by
  have hhead : lockLen ≤ Header.length := by decide
  have hshows : ∀ {span : Span} {key : Bytes}, i.Shows span key → lockLen ≤ span.offset := by
    rintro span key ⟨line, hl, rfl, -⟩
    exact Nat.le_trans hhead (Image.bounds_of_mem hl).1
  cases stage with
  | reading key part span => exact hshows hfit.1
  | deleting key span => exact hshows hfit.1
  | writing request span => exact hshows hfit.2.2.1
  | readingAt offset => exact Nat.le_trans hhead hfit.1
  | locking offset => exact absurd rfl (hlock offset)
  | appending request held => exact Nat.le_refl _
  | resorting => exact Nat.le_refl _

/-- A call that waits anywhere but at the structural lock takes the lock of a record. -/
theorem acquires_of_offset {stage : Stage} {handle : Handle} (hfit : stage.Fits handle i)
    (hoff : stage.offset ≠ structuralOffset) : stage.call.acquires = true := by
  cases stage with
  | writing request span => exact hfit.2.1
  | appending request held => exact absurd rfl hoff
  | resorting => exact absurd rfl hoff
  | _ => rfl

/-- Where something is in the way, some lookup has locked it. -/
theorem Matches.locking_of_blocked (h : store.Matches m i) {now : Nat} {handle : Handle}
    {offset : Nat} (hoff : lockLen ≤ offset) (hb : (store.session now id handle).Blocked offset) :
    m.locking = true ∧ offset ≠ structuralOffset := by
  unfold Session.Blocked at hb
  constructor
  · by_contra hnot
    have hfree : store.file.locks.blocks id offset .exclusive = false :=
      h.quiet.not_blocks hoff fun byte _ hbyte => hnot hbyte.1
    exact Bool.false_ne_true (hfree.symm.trans hb)
  · rintro rfl
    have hhead : structuralOffset + lockLen ≤ Header.length := by decide
    have hfree : store.file.locks.blocks id structuralOffset .exclusive = false := by
      refine h.quiet.not_blocks hoff fun byte hcov hbyte => ?_
      have hlt := (LockTable.covers_iff.1 hcov).2
      have hge := hbyte.2
      omega
    exact Bool.false_ne_true (hfree.symm.trans hb)

/-- A plain call leaves no lock behind, unless it is a lookup that was told to. -/
theorem locks_of_keeps {call : Call} (hplain : (Request.call call).Plain) {o : Nat}
    (hkeeps : call.Keeps o) : call.locks = true ∧ Header.length ≤ o := by
  cases call with
  | read key part keepLock => exact hkeeps
  | write request =>
    have hmode : request.mode = .transient := hplain
    have hnot := hkeeps.1
    rw [hmode] at hnot
    cases hnot
  | readAt offset keepLock => exact hplain.elim
  | lock offset => exact hplain.elim
  | _ => exact hkeeps.elim

/-- **A plain call** answers as the map does, or is held up by a locked record. -/
theorem Matches.settleCall (h : store.Matches m i) {now : Nat} {handle : Handle} {call : Call}
    {heeds : Prop} {result : EStateM.Result Error Session Progress}
    (hclient : store.client? id = some (.idle handle)) (hplain : (Request.call call).Plain)
    (hstretch : Stretch (store.session now id handle) i call heeds result) :
    ∃ m' j, (store.settleCall id result).1.Matches m' j ∧ ∀ more m'', m'.Serves more m'' →
      m.Serves (⟨id, .call call, (store.settleCall id result).2⟩ :: more) m'' := by
  have here : m.presence id = .here := by rw [h.presence id, hclient]; rfl
  have hsame : m.presence = (m.put id .here).presence := by
    funext other
    by_cases hid : other = id
    · simp [MapServer.put, hid, here]
    · simp [MapServer.put, hid]
  have hnotLock : ∀ offset, call ≠ .lock offset := by
    rintro offset rfl
    exact hplain
  cases hstretch with
  | @answered s' j answer gained on extends_ contents answers framed spared acts keeps secures =>
    refine ⟨m.after call, j, h.update (h.stands.settle_idle on extends_) ?_ ?_ (by simp) ?_, ?_⟩
    · rw [contents, h.contents]
      rfl
    · exact hsame
    · have hquiet : store.file.locks.Quiet
          fun byte => (m.locking || call.locks) = true ∧ Header.length ≤ byte :=
        h.quiet.mono fun byte hbyte => ⟨by rw [hbyte.1]; rfl, hbyte.2⟩
      refine hquiet.of_adds acts.adds fun o ho byte hcov => ?_
      obtain ⟨hlocks, hhead⟩ := locks_of_keeps hplain (keeps o ho)
      exact ⟨by rw [hlocks, Bool.or_true], Nat.le_trans hhead (LockTable.covers_iff.1 hcov).1⟩
    · intro more m'' hrest
      refine .answered here ?_ hrest
      rw [← h.contents]
      exact answers
  | @waiting s' stage gained on fits same blocked acts keeps =>
    subst same
    obtain ⟨hlocking, hoff⟩ := h.locking_of_blocked (lockLen_le_offset fits hnotLock) blocked
    have hacquires := acquires_of_offset fits hoff
    refine ⟨m.put id .stuck, i, h.update (h.stands.settle_busy on fits) h.contents rfl (by simp) ?_,
      fun more m'' hrest => .stuck here hlocking hacquires hrest⟩
    refine h.quiet.of_adds acts.adds fun o ho byte hcov => ⟨hlocking, ?_⟩
    exact Nat.le_trans (keeps o ho) (LockTable.covers_iff.1 hcov).1
  | @failed s' error on acts refused =>
    refine ⟨m, i, h.update (h.stands.settle_idle on (.refl i)) h.contents hsame (by simp) ?_, ?_⟩
    · exact h.quiet.of_adds acts.adds (by simp)
    · intro more m'' hrest
      cases error with
      | contention offset =>
        obtain ⟨hacquires, hb, -, hoff | hoff⟩ := refused
        · exact absurd hoff (hnotLock offset)
        · have hhead : lockLen ≤ Header.length := by decide
          have hlocking := (h.locking_of_blocked (Nat.le_trans hhead hoff) hb).1
          exact .refused here hlocking hacquires hrest
      | invalidData fault =>
        obtain ⟨request, rfl, hfault⟩ := refused
        exact .invalid here hfault hrest
      | lock fault =>
        obtain ⟨offset, rfl | rfl, -⟩ := refused
        · exact hplain.elim
        · exact hplain.elim
      | _ => exact refused.elim

/-- **One turn of the store is one of the map.** -/
theorem Matches.serve (h : store.Matches m i) {turn : Turn}
    (hsmall : store.file.bytes.length < UInt32.size) (hplain : turn.request.Plain) :
    ∃ m' j, (store.serve turn).1.Matches m' j ∧ ∀ more m'', m'.Serves more m'' →
      m.Serves (⟨turn.holder, turn.request, (store.serve turn).2⟩ :: more) m'' := by
  have hturned := h.stands.serve_turned hsmall turn
  generalize store.serve turn = result at hturned
  cases hturned with
  | unavailable unready =>
    exact ⟨m, i, h, fun more m'' hrest =>
      .unavailable (fun hexpects => unready (h.expects_of_ready hexpects)) hrest⟩
  | @opening now id config client opens =>
    obtain ⟨file', handle, hopen, hquiet⟩ := @openFile_quiet now id config store.file i _
      (fun _ hbyte => hbyte.2) h.quiet h.stands.shows h.stands.sound (h.stands.small hsmall)
    rw [hopen] at opens ⊢
    obtain ⟨j, hstands, -, hversions⟩ := h.stands.settleOpen opens
    have away : m.presence id = .away := by rw [h.presence id, client]; rfl
    refine ⟨m.put id .here, j, h.update hstands ?_ rfl (by simp) hquiet,
      fun more m'' hrest => .opened away hrest⟩
    rw [Image.contents, hversions]
    exact h.contents
  | @reopening now id config stage client opens =>
    exact absurd client (h.noneOpening id config stage)
  | calling client on stretch => exact h.settleCall client hplain stretch
  | resuming client on fits stretch => exact hplain.elim
  | @closing now id handle client bytes =>
    obtain ⟨j, hstands, -, hversions⟩ := @Stands.closing store i id h.stands bytes now handle
    have here : m.presence id = .here := by rw [h.presence id, client]; rfl
    refine ⟨m.put id .away, j, ⟨hstands, ?_, ?_, ?_, ?_⟩, fun more m'' hrest => .closed here hrest⟩
    · rw [Image.contents, hversions]
      exact h.contents
    · intro other
      by_cases hid : other = id
      · rw [hid, client?_remove_self]
        simp [MapServer.put, Client.presence]
      · rw [client?_remove_of_ne _ hid]
        simp only [MapServer.put, hid, if_false]
        exact h.presence other
    · intro other config stage hother
      by_cases hid : other = id
      · rw [hid, client?_remove_self] at hother
        cases hother
      · rw [client?_remove_of_ne _ hid] at hother
        exact h.noneOpening other config stage hother
    · show (closeFile now id handle store.file).locks.Quiet _
      rw [closeFile_locks]
      exact h.quiet.release id

theorem Matches.run (h : store.Matches m i) {turns : List Turn} (hsmall : store.Small turns)
    (hplain : ∀ turn ∈ turns, turn.request.Plain) : ∃ m' j,
      (store.run turns).1.Matches m' j ∧ m.Serves (store.run turns).2 m' := by
  induction turns generalizing store m i with
  | nil => exact ⟨m, i, h, .done m⟩
  | cons turn more ih =>
    obtain ⟨hfirst, hmore⟩ := hsmall
    obtain ⟨m₁, j, hmatches, hserves⟩ := h.serve hfirst (hplain turn (List.mem_cons_self ..))
    obtain ⟨m', k, hlast, hrest⟩ := ih hmatches hmore
      fun turn' hturn' => hplain turn' (List.mem_cons_of_mem _ hturn')
    exact ⟨m', k, hlast, hserves _ _ hrest⟩

/-- **A store is a map.**  Its clients take turns on a file that nobody has written yet, in any
order; every call ends before the next one starts.  Then all answers are those of one map from keys
to fields of distinct names, and in the end the file holds that map. -/
theorem serves_as_map (mtime : Int) (turns : List Turn)
    (hsmall : (Store.ofBytes [] mtime).Small turns)
    (hplain : ∀ turn ∈ turns, turn.request.Plain) : ∃ m : MapServer,
      MapServer.start.Serves ((Store.ofBytes [] mtime).run turns).2 m ∧ m.contents.NamesDistinct ∧
        Holds (liveRecordsFrom Header.length ((Store.ofBytes [] mtime).run turns).1.file.bytes)
          m.contents := by
  obtain ⟨m, i, hmatches, hserves⟩ := (Matches.ofBytes mtime).run hsmall hplain
  refine ⟨m, hserves, hserves.namesDistinct (fun _ _ h => by cases h), ?_⟩
  rw [← hmatches.contents]
  exact hmatches.stands.holds

/-- Two clients that see each other's writes: one in place, one at the end of the file, one after a
delete and one by a client that has come back. -/
def twoClients : List Turn :=
  let config : Config := .ofPath Config.defaultPath
  let key : Bytes := ascii ['k']
  let write (value : List Char) : Request :=
    .call (.write ⟨key, some ⟨ascii ['f'], ascii value⟩, .transient⟩)
  let read : Request := .call (.read key (.field (ascii ['f'])) false)
  [⟨9, 1, .opening config⟩, ⟨9, 2, .opening config⟩, ⟨9, 1, write ['1']⟩, ⟨9, 2, read⟩,
    ⟨9, 2, write ['2']⟩, ⟨9, 1, read⟩, ⟨9, 1, write ['3', '3']⟩, ⟨9, 2, read⟩,
    ⟨9, 2, .call (.delete key)⟩, ⟨9, 1, read⟩, ⟨9, 1, .call (.delete key)⟩, ⟨9, 1, .close⟩,
    ⟨9, 1, .opening config⟩, ⟨9, 1, write ['4']⟩, ⟨9, 2, read⟩, ⟨9, 2, .close⟩]

theorem serves_as_map_of_two_clients :
    (Store.ofBytes [] 9).Small twoClients ∧ (∀ turn ∈ twoClients, turn.request.Plain) ∧
      ∃ m : MapServer,
        MapServer.start.Serves ((Store.ofBytes [] 9).run twoClients).2 m ∧
          m.contents.NamesDistinct ∧
          Holds (liveRecordsFrom Header.length ((Store.ofBytes [] 9).run twoClients).1.file.bytes)
            m.contents := by
  have hsmall : (Store.ofBytes [] 9).Small twoClients := by decide +kernel
  have hplain : ∀ turn ∈ twoClients, turn.request.Plain := by
    simp [twoClients, Request.Plain]
  exact ⟨hsmall, hplain, serves_as_map 9 twoClients hsmall hplain⟩

end Store

end RecordStore
