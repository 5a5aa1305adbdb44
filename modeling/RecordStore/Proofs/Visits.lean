import Mathlib.Tactic.Common
import RecordStore.Disk
import RecordStore.Proofs.Offsets
import RecordStore.Proofs.Solitude

/-!
# Visits of a client that is alone

A client opens a store that nobody else has open, makes its calls and closes it.  Nothing stands in
its way: the store holds what the calls make of the map, and in the end nobody has it open again, and
nothing in it is locked.

* `Store.Keeps` — a store that holds a map, no key twice.
* `Store.Closed` — it does, and nobody has it open; `Store.Hosts` — one client has.
* `Contents.attempt` — what a call makes of the map, which may be refused.
* `Disk.Lasts` — every file of a disk is still there, no shorter than before.

Principal results: `Store.Closed.openFor`, `Store.Hosts.call`, `Store.Hosts.close` — the three kinds of
steps, and the same on a disk; `Store.Keeps.holds`; `Store.Made.closed`.
-/

set_option autoImplicit false

namespace RecordStore

/-- What is wrong with a call itself. -/
def Call.fault? : Call → Option TokenFault
  | .write request => SessionM.requestFault? request
  | _ => none

/-- What a call makes of the map: nothing if it is refused for itself. -/
def Contents.attempt (c : Contents) (call : Call) : Contents :=
  if call.fault? = none then c.after call else c

/-- What comes of a call: its answer, or the refusal of the call for itself. -/
def Call.Yields (c : Contents) (call : Call) : Outcome → Prop
  | .answered a => call.fault? = none ∧ call.Answers c a
  | .failed e => ∃ fault, call.fault? = some fault ∧ e = .invalidData fault
  | _ => False

theorem Call.fault?_of_answers {c : Contents} {call : Call} {a : Answer} (h : call.Answers c a) :
    call.fault? = none := by
  cases call with
  | write request => exact h.1
  | _ => rfl

namespace Store

/-- Every client goes with a recovered file that holds the map, no key twice. -/
structure Keeps (store : Store) (c : Contents) : Prop where
  tracks : ∃ i, store.Tracks i
  distinct : (store.versions.map Version.key).Nodup
  contents : Contents.ofVersions store.versions = c
  steady : store.Steady

/-- Nobody has the store open, and nothing in it is locked. -/
structure Closed (store : Store) (c : Contents) : Prop extends store.Keeps c where
  nobody : store.clients = []
  unlocked : store.file.locks = .empty

/-- One client has the store open, and makes no call. -/
structure Hosts (store : Store) (id : HolderId) (c : Contents) : Prop extends store.Keeps c where
  client : ∃ handle, store.clients = [(id, .idle handle)]
  others : store.file.locks.others id = []

variable {store : Store} {c : Contents} {id : HolderId}

/-! ## What is held -/

namespace Keeps

/-- **The file holds the map.** -/
theorem holds (h : store.Keeps c) : Holds (liveRecordsFrom Header.length store.file.bytes) c where
  distinct := by
    have hkeys := h.distinct
    rwa [Store.versions, List.map_map] at hkeys
  agrees := by
    rw [← h.contents]
    funext key
    rw [Contents.ofRecords, Contents.ofVersions, Store.versions, List.find?_map, Option.map_map]
    rfl

theorem ofBytes_eq (h : store.Keeps c) : Contents.ofBytes store.file.bytes Header.length = c :=
  h.holds.agrees

/-- A turn that runs no call leaves the map as it is. -/
theorem serve (h : store.Keeps c) (hsmall : store.file.bytes.length < UInt32.size) (turn : Turn)
    (hquiet : store.running? turn = none) : (store.serve turn).1.Keeps c := by
  obtain ⟨i, htracks⟩ := h.tracks
  obtain ⟨j, hj, -, ⟨call, answer, hrunning, -⟩ | ⟨-, hsame⟩⟩ := htracks.serve hsmall turn
  · rw [hquiet] at hrunning
    cases hrunning
  · rw [← hj.versions_eq, ← htracks.versions_eq] at hsame
    exact ⟨⟨j, hj⟩, hsame ▸ h.distinct, hsame ▸ h.contents, (h.steady.serve turn).2⟩

/-- **A turn of a simple call** that is answered does what the call does to the map; else it leaves the
map as it is. -/
theorem serve_call (h : store.Keeps c) (hsmall : store.file.bytes.length < UInt32.size)
    (turn : Turn) {call : Call} (hrunning : store.running? turn = some call)
    (hsimple : call.Simple) :
    (∀ a, (store.serve turn).2 = .answered a →
      (store.serve turn).1.Keeps (c.after call) ∧ call.Answers c a) ∧
    ((∀ a, (store.serve turn).2 ≠ .answered a) → (store.serve turn).1.Keeps c) := by
  obtain ⟨i, htracks⟩ := h.tracks
  have hsteady := (h.steady.serve turn).2
  obtain ⟨j, hj, -, heffect⟩ := htracks.serve hsmall turn
  rw [← hj.versions_eq, ← htracks.versions_eq] at heffect
  rcases heffect with ⟨call', answer, hrunning', hanswer, hdoes⟩ | ⟨hnot, hsame⟩
  · rw [hrunning, Option.some.injEq] at hrunning'
    subst hrunning'
    obtain ⟨hanswers, hafter⟩ := hdoes.serves h.distinct hsimple
    rw [h.contents] at hanswers hafter
    refine ⟨fun a ha => ?_, fun hnone => absurd hanswer (hnone answer)⟩
    rw [hanswer, Outcome.answered.injEq] at ha
    subst ha
    exact ⟨⟨⟨j, hj⟩, hdoes.nodup h.distinct, hafter, hsteady⟩, hanswers⟩
  · refine ⟨fun a ha => absurd ⟨hrunning, a, ha⟩ (hnot call), fun _ => ?_⟩
    exact ⟨⟨j, hj⟩, hsame ▸ h.distinct, hsame ▸ h.contents, hsteady⟩

end Keeps

/-- **A store that the library made**, once everybody has left it. -/
theorem Made.closed (h : store.Made) (mtime : Int) : (Store.ofBytes store.file.bytes mtime).Closed
    (Contents.ofBytes store.file.bytes Header.length) := by
  obtain ⟨i, htracks, hdistinct⟩ := h.tracks
  have hrecovered : ∃ j, (Store.ofBytes store.file.bytes mtime).Tracks j := by
    rcases htracks.shows with hsame | ⟨hempty, -⟩
    · exact ⟨i, hsame ▸ .ofBytes htracks.formed mtime⟩
    · exact ⟨.fresh, hempty ▸ .ofNothing mtime⟩
  rw [← htracks.versions_eq] at hdistinct
  have hkeeps : (Store.ofBytes store.file.bytes mtime).Keeps _ :=
    ⟨hrecovered, hdistinct, rfl, .ofBytes _ mtime⟩
  exact ⟨hkeeps.ofBytes_eq ▸ hkeeps, rfl, rfl⟩

/-- A store that is not yet written. -/
theorem Closed.ofNothing (mtime : Int) : (Store.ofBytes [] mtime).Closed .empty :=
  (Made.created mtime).closed mtime

/-! ## Steps -/

theorem serve_call (store : Store) (now : Nat) (id : HolderId) (call : Call) :
    store.serve ⟨now, id, .call call⟩ = store.call now id call := by
  simp only [serve]

theorem Closed.eq_ofBytes (h : store.Closed c) : store = .ofBytes store.file.bytes store.file.mtime := by
  obtain ⟨⟨bytes, mtime, locks⟩, clients⟩ := store
  obtain rfl : clients = [] := h.nobody
  obtain rfl : locks = .empty := h.unlocked
  rfl

/-- **The client opens the store.** -/
theorem Closed.openFor (h : store.Closed c) (hsmall : store.file.bytes.length < UInt32.size)
    (now : Nat) (id : HolderId) (config : Config) :
    ∃ store', store.openFor now id config = (store', .opened) ∧ store'.Hosts id c := by
  have hnone : store.client? id = none := by rw [client?, h.nobody]; rfl
  have hserve : store.serve ⟨now, id, .opening config⟩ = store.openFor now id config := by
    simp only [serve, hnone]
  -- it gets its handle
  obtain ⟨i, htracks⟩ := h.tracks
  obtain ⟨file, handle, hopen⟩ : ∃ file handle,
      openFile now id config store.file = (file, .opened handle) := by
    have hfile : store.file = .ofBytes store.file.bytes store.file.mtime :=
      congrArg Store.file h.eq_ofBytes
    obtain ⟨locks, hlocks⟩ := openFile_ofBytes now id config store.file.bytes store.file.mtime
    rw [← hfile] at hlocks
    obtain ⟨file, handle, j, hfinish, -⟩ := @finishOpen_enters now id config
      ⟨store.file.bytes, store.file.mtime, locks⟩ i [] htracks.formed.toLined.whole (by simp)
      htracks.torn true
    exact ⟨file, handle, hlocks.trans hfinish⟩
  have hopened : store.openFor now id config = (store.update id file (.idle handle), .opened) := by
    rw [Store.openFor, hopen]
    rfl
  -- nothing else has changed
  have hkeeps := h.toKeeps.serve hsmall ⟨now, id, .opening config⟩ (by simp only [running?])
  have hothers := h.steady.serve_others ⟨now, id, .opening config⟩
  rw [hserve, hopened] at hkeeps hothers
  refine ⟨_, hopened, hkeeps, ⟨handle, ?_⟩, hothers.trans ?_⟩
  · rw [update, remove, h.nobody]
    rfl
  · rw [h.unlocked]
    rfl

namespace Hosts

theorem client? (h : store.Hosts id c) : ∃ handle, store.client? id = some (.idle handle) := by
  obtain ⟨handle, hclients⟩ := h.client
  exact ⟨handle, by rw [Store.client?, hclients]; exact List.lookup_cons_self⟩

theorem remove_clients (h : store.Hosts id c) : (store.remove id).clients = [] := by
  obtain ⟨handle, hclients⟩ := h.client
  rw [remove, hclients]
  simp

/-- The session of its client is that of a client that is alone. -/
theorem alone (h : store.Hosts id c) (hsmall : store.file.bytes.length < UInt32.size) (now : Nat)
    {handle : Handle} (hclient : store.client? id = some (.idle handle)) :
    ∃ i, (store.session now id handle).Alone i := by
  obtain ⟨i, htracks⟩ := h.tracks
  obtain ⟨hbytes, hhandle⟩ := htracks.clients _ _ hclient
  exact ⟨i, ⟨hbytes, hhandle, htracks.formed⟩, htracks.small hsmall, h.others⟩

/-- **The client makes a simple call.** -/
theorem call (h : store.Hosts id c) (hsmall : store.file.bytes.length < UInt32.size) (now : Nat)
    {call : Call} (hsimple : call.Simple) :
    (store.call now id call).1.Hosts id (c.attempt call) ∧
      call.Yields c (store.call now id call).2 := by
  obtain ⟨handle, hclient⟩ := h.client?
  have hcall : store.call now id call =
      store.settleCall id (call.start (store.session now id handle)) := by
    simp only [Store.call, hclient]
    rfl
  obtain ⟨hdone, hundone⟩ := h.toKeeps.serve_call hsmall ⟨now, id, .call call⟩
    (by simp only [running?, hclient]) hsimple
  have hothers := (h.steady.serve_others ⟨now, id, .call call⟩).trans h.others
  rw [serve_call, hcall] at hdone hundone hothers
  rw [hcall]
  have hidle : ∀ (file : SharedFile) (handle : Handle),
      ∃ handle', (store.update id file (.idle handle)).clients = [(id, .idle handle')] :=
    fun file handle => ⟨handle, by rw [update, h.remove_clients]⟩
  obtain ⟨i, halone⟩ := h.alone hsmall now hclient
  rcases Call.start_alone halone hsimple with ⟨a, s', hstart⟩ | ⟨request, fault, rfl, hfault, hstart⟩
  · rw [hstart] at hdone hothers ⊢
    obtain ⟨hkeeps, hanswers⟩ := hdone a rfl
    have hnone := Call.fault?_of_answers hanswers
    rw [Contents.attempt, if_pos hnone]
    exact ⟨⟨hkeeps, hidle _ _, hothers⟩, hnone, hanswers⟩
  · rw [hstart] at hundone hothers ⊢
    have hsome : (Call.write request).fault? = some fault := hfault
    rw [Contents.attempt, if_neg (by rw [hsome]; simp)]
    exact ⟨⟨hundone (by rintro a ⟨⟩), hidle _ _, hothers⟩, fault, hsome, rfl⟩

/-- **The client leaves.** -/
theorem close (h : store.Hosts id c) (hsmall : store.file.bytes.length < UInt32.size) (now : Nat) :
    (store.close now id).Closed c := by
  obtain ⟨handle, hclient⟩ := h.client?
  have hserve : store.serve ⟨now, id, .close⟩ = (store.close now id, .answered .done) := by
    simp only [Store.serve, hclient]
  have hkeeps := h.toKeeps.serve hsmall ⟨now, id, .close⟩ (by simp only [running?])
  rw [hserve] at hkeeps
  have hclose : store.close now id =
      ({ store with file := closeFile now id handle store.file } : Store).remove id := by
    simp only [Store.close, hclient]
  refine ⟨hkeeps, ?_, ?_⟩
  · rw [hclose]
    exact h.remove_clients
  · rw [hclose]
    show (closeFile now id handle store.file).locks = .empty
    rw [closeFile_locks, LockTable.release_of_others h.others]

end Hosts

end Store

/-! ## On a disk -/

namespace Disk

variable {disk disk' : Disk} {index : Nat} {ref : HandleRef} {store : Store} {c : Contents}

/-- The names lead where they did, and every file whose clients find what they rely on is there, no
shorter, with clients that do. -/
structure Lasts (disk disk' : Disk) : Prop where
  tree : disk'.tree = disk.tree
  file : ∀ (index : Nat) (store : Store), disk.files[index]? = some store → store.Steady →
    ∃ store', disk'.files[index]? = some store' ∧ store'.Steady ∧
      store.file.bytes.length ≤ store'.file.bytes.length

/-- The file at an index, short enough for slots. -/
def Short (disk : Disk) (index : Nat) : Prop :=
  ∀ store, disk.files[index]? = some store → store.file.bytes.length < UInt32.size

/-- Nobody has the file at an index open, and it holds the map. -/
def Closed (disk : Disk) (index : Nat) (c : Contents) : Prop :=
  ∃ store, disk.files[index]? = some store ∧ store.Closed c

/-- The client of a handle has its file for itself, and the file holds the map. -/
def Hosts (disk : Disk) (ref : HandleRef) (c : Contents) : Prop :=
  ∃ store, disk.files[ref.file]? = some store ∧ store.Hosts ref.client c

theorem files_setFile (hfile : disk.files[index]? = some store) (store' : Store) :
    (disk.setFile index store').files[index]? = some store' :=
  List.getElem?_set_self (List.getElem?_eq_some_iff.1 hfile).1

namespace Lasts

theorem refl (disk : Disk) : disk.Lasts disk :=
  ⟨rfl, fun _ store hfile hsteady => ⟨store, hfile, hsteady, Nat.le_refl _⟩⟩

theorem trans {disk'' : Disk} (h : disk.Lasts disk') (h' : disk'.Lasts disk'') :
    disk.Lasts disk'' := by
  refine ⟨h'.tree.trans h.tree, fun index store hfile hsteady => ?_⟩
  obtain ⟨store', hfile', hsteady', hle⟩ := h.file index store hfile hsteady
  obtain ⟨store'', hfile'', hsteady'', hle'⟩ := h'.file index store' hfile' hsteady'
  exact ⟨store'', hfile'', hsteady'', Nat.le_trans hle hle'⟩

/-- One file goes on. -/
theorem setFile (hfile : disk.files[index]? = some store) {store' : Store}
    (hgoes : store.Steady → Endures store.file.bytes store'.file.bytes ∧ store'.Steady) :
    disk.Lasts (disk.setFile index store') := by
  refine ⟨rfl, fun other store₁ hother hsteady => ?_⟩
  by_cases hindex : index = other
  · subst hindex
    obtain rfl : store = store₁ := Option.some.inj (hfile.symm.trans hother)
    obtain ⟨hendures, hsteady'⟩ := hgoes hsteady
    exact ⟨store', files_setFile hfile store', hsteady', hendures.length_le⟩
  · exact ⟨store₁, (List.getElem?_set_ne hindex).trans hother, hsteady, Nat.le_refl _⟩

/-- What is short in the end was short before. -/
theorem short (h : disk.Lasts disk') (hfile : disk.files[index]? = some store) (hsteady : store.Steady)
    (hshort : disk'.Short index) : disk.Short index := by
  intro store₁ hfile₁
  obtain rfl : store = store₁ := Option.some.inj (hfile.symm.trans hfile₁)
  obtain ⟨store', hfile', -, hle⟩ := h.file index store hfile hsteady
  exact Nat.lt_of_le_of_lt hle (hshort store' hfile')

end Lasts

/-! ### Every step -/

theorem stepFile_of_file (hfile : disk.files[ref.file]? = some store) (step : Store → Store × Outcome) :
    disk.stepFile ref step = (disk.setFile ref.file (step store).1, (step store).2) := by
  unfold stepFile
  rw [hfile]

theorem stepFile_lasts {step : Store → Store × Outcome} (hstep : ∀ store : Store, store.Steady →
      Endures store.file.bytes (step store).1.file.bytes ∧ (step store).1.Steady) :
    disk.Lasts (disk.stepFile ref step).1 := by
  cases hfile : disk.files[ref.file]? with
  | none =>
    rw [stepFile, hfile]
    exact .refl disk
  | some store =>
    rw [stepFile_of_file hfile]
    exact .setFile hfile (hstep store)

theorem call_lasts (disk : Disk) (ref : HandleRef) (call : Call) :
    disk.Lasts (disk.call ref call).1 :=
  stepFile_lasts fun store hsteady => by
    rw [← Store.serve_call]
    exact hsteady.serve _

theorem close_lasts (disk : Disk) (ref : HandleRef) : disk.Lasts (disk.close ref) :=
  stepFile_lasts fun store hsteady => by
    cases hclient : store.client? ref.client with
    | none =>
      simp only [Store.close, hclient]
      exact ⟨.refl _, hsteady⟩
    | some client =>
      cases client with
      | opening | busy =>
        simp only [Store.close, hclient]
        exact ⟨.refl _, hsteady⟩
      | idle handle =>
        have hserve : store.serve ⟨disk.now, ref.client, .close⟩ =
            (store.close disk.now ref.client, .answered .done) := by
          simp only [Store.serve, hclient]
        have hserved := hsteady.serve ⟨disk.now, ref.client, .close⟩
        rw [hserve] at hserved
        exact hserved

theorem openIndex_lasts (disk : Disk) (index : Nat) (config : Config) :
    disk.Lasts (disk.openIndex index config).1 := by
  unfold openIndex
  dsimp only
  cases hfile : disk.files[index]? with
  | none => exact ⟨rfl, (Lasts.refl disk).file⟩
  | some store =>
    have hopens : disk.Lasts (disk.setFile index (store.openFor disk.now disk.nextClient config).1) :=
      .setFile hfile fun hsteady =>
        hsteady.settleOpen (openFile_admits (store.file.locks.within_held _))
    exact ⟨rfl, hopens.file⟩

/-! ### A visit -/

theorem Closed.openIndex (h : disk.Closed index c) (hshort : disk.Short index) (config : Config) :
    ∃ disk', disk.openIndex index config = (disk', .opened, ⟨index, disk.nextClient⟩) ∧
      disk'.Hosts ⟨index, disk.nextClient⟩ c := by
  obtain ⟨store, hfile, hclosed⟩ := h
  obtain ⟨store', hopen, hhosts⟩ := hclosed.openFor (hshort store hfile) disk.now disk.nextClient config
  generalize hnext : { disk with nextClient := disk.nextClient + 1 } = next
  have hnextFile : next.files[index]? = some store := by rw [← hnext]; exact hfile
  refine ⟨next.setFile index store', ?_, store', files_setFile hnextFile store', hhosts⟩
  rw [← hnext]
  simp only [Disk.openIndex, hfile, hopen]

theorem Hosts.call (h : disk.Hosts ref c) (hshort : disk.Short ref.file) {call : Call}
    (hsimple : call.Simple) : (disk.call ref call).1.Hosts ref (c.attempt call) ∧
      call.Yields c (disk.call ref call).2 := by
  obtain ⟨store, hfile, hhosts⟩ := h
  obtain ⟨hhosts', hyields⟩ := hhosts.call (hshort store hfile) disk.now hsimple
  rw [Disk.call, stepFile_of_file hfile]
  exact ⟨⟨_, files_setFile hfile _, hhosts'⟩, hyields⟩

theorem Hosts.close (h : disk.Hosts ref c) (hshort : disk.Short ref.file) :
    (disk.close ref).Closed ref.file c := by
  obtain ⟨store, hfile, hhosts⟩ := h
  rw [Disk.close, stepFile_of_file hfile]
  exact ⟨_, files_setFile hfile _, hhosts.close (hshort store hfile) disk.now⟩

/-- What is short in the end was short while a client was alone with it. -/
theorem Hosts.short (h : disk.Hosts ref c) (hlasts : disk.Lasts disk') (hshort : disk'.Short ref.file) :
    disk.Short ref.file := by
  obtain ⟨store, hfile, hhosts⟩ := h
  exact hlasts.short hfile hhosts.steady hshort

theorem Closed.short (h : disk.Closed index c) (hlasts : disk.Lasts disk') (hshort : disk'.Short index) :
    disk.Short index := by
  obtain ⟨store, hfile, hclosed⟩ := h
  exact hlasts.short hfile hclosed.steady hshort

end Disk

end RecordStore
