import RecordStore.Call.Run
import RecordStore.Open

/-!
# A store and its clients

A store is one shared file with everybody who has it open.  A client is opening it, is idle between
calls, or has a call that waits for a lock.  One step runs one client as far as it gets: other
clients act only while it waits.

* `Store.openFor`, `Store.call`, `Store.close` — a client's requests.
* `Store.resume` — runs a waiting client on, if its lock is free.
* `Outcome` — what a step came to.
-/

set_option autoImplicit false

namespace RecordStore

/-- A holder of the file and what it is doing. -/
inductive Client where
  | opening (config : Config) (stage : OpenStage)
  | idle (handle : Handle)
  | busy (handle : Handle) (stage : Stage)
  deriving DecidableEq, Repr

structure Store where
  file : SharedFile
  clients : List (HolderId × Client)
  deriving DecidableEq, Repr

/-- What a step of a client came to. -/
inductive Outcome where
  | opened
  | answered (answer : Answer)
  | failed (error : Error)
  | waiting
  /-- There is no such client, or it is not in a state for this step. -/
  | unavailable
  deriving DecidableEq, Repr

namespace Store

/-- A file with these bytes that nobody has open. -/
def ofBytes (bytes : Bytes) (mtime : Int) : Store := ⟨.ofBytes bytes mtime, []⟩

def client? (store : Store) (id : HolderId) : Option Client := store.clients.lookup id

def remove (store : Store) (id : HolderId) : Store :=
  { store with clients := store.clients.filter fun entry => entry.1 != id }

/-- Replaces the file and one client. -/
def update (store : Store) (id : HolderId) (file : SharedFile) (client : Client) : Store :=
  { file, clients := (id, client) :: (store.remove id).clients }

/-- Records how far an open has come. -/
def settleOpen (store : Store) (id : HolderId) (config : Config) :
    SharedFile × Opening → Store × Outcome
  | (file, .opened handle) => (store.update id file (.idle handle), .opened)
  | (file, .failed error) => (({ store with file }).remove id, .failed error)
  | (file, .waiting stage) => (store.update id file (.opening config stage), .waiting)

/-- Opens the store for the new client `id`. -/
def openFor (store : Store) (now : Nat) (id : HolderId) (config : Config) : Store × Outcome :=
  store.settleOpen id config (openFile now id config store.file)

/-- The session of a client's next stretch of work. -/
def session (store : Store) (now : Nat) (id : HolderId) (handle : Handle) : Session :=
  ⟨now, id, handle, store.file, []⟩

/-- Records how far a call has come. -/
def settleCall (store : Store) (id : HolderId) :
    EStateM.Result Error Session Progress → Store × Outcome
  | .ok (.answered answer) s => (store.update id s.file (.idle s.handle), .answered answer)
  | .ok (.waiting stage) s => (store.update id s.file (.busy s.handle stage), .waiting)
  | .error error s => (store.update id s.file (.idle s.handle), .failed error)

/-- Starts a call of an idle client. -/
def call (store : Store) (now : Nat) (id : HolderId) (call : Call) : Store × Outcome :=
  match store.client? id with
  | some (.idle handle) => store.settleCall id (call.start.run (store.session now id handle))
  | _ => (store, .unavailable)

/-- Runs a waiting client on. -/
def resume (store : Store) (now : Nat) (id : HolderId) : Store × Outcome :=
  match store.client? id with
  | some (.opening config stage) =>
    store.settleOpen id config (resumeOpen now id config store.file stage)
  | some (.busy handle stage) =>
    store.settleCall id (stage.resume.run (store.session now id handle))
  | _ => (store, .unavailable)

/-- Closes the handle of an idle client. -/
def close (store : Store) (now : Nat) (id : HolderId) : Store :=
  match store.client? id with
  | some (.idle handle) => ({ store with file := closeFile now id handle store.file }).remove id
  | _ => store

/-- The configuration of a client. -/
def config? (store : Store) (id : HolderId) : Option Config :=
  (store.client? id).map fun
    | .opening config _ => config
    | .idle handle | .busy handle _ => handle.config

end Store

end RecordStore
