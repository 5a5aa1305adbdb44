import RecordStore.Session

/-!
# Calls on a handle

A call runs until it has its answer or until it needs a lock that another holder has.  In the
second case it stops at a stage, which is plain data, and is resumed once the lock is free.

* `Call`, `Answer` — what can be asked of a handle, and what comes back.
* `Stage` — where a call waits, and for which lock: `Stage.offset`.
* `Progress` — how a run of a call ends: with the answer, or at a stage.
-/

set_option autoImplicit false

namespace RecordStore

/-- How a write treats the lock of its record. -/
inductive LockMode where
  /-- Take the lock for the duration of the write only. -/
  | transient
  /-- Take the lock and keep it. -/
  | take
  /-- The caller holds the lock already and keeps it. -/
  | keep
  /-- The caller holds the lock already; it is given up after the write. -/
  | giveUp
  deriving DecidableEq, Repr

def LockMode.acquires : LockMode → Bool
  | .transient | .take => true
  | .keep | .giveUp => false

def LockMode.releases : LockMode → Bool
  | .transient | .giveUp => true
  | .take | .keep => false

/-- What a lookup wants of the record it finds. -/
inductive Part where
  | key
  | field (name : Bytes)
  | decodedField (name : Bytes)
  | record
  deriving DecidableEq, Repr

structure WriteRequest where
  key : Bytes
  field : Option Field
  mode : LockMode
  deriving DecidableEq, Repr

inductive Call where
  | read (key : Bytes) (part : Part) (keepLock : Bool)
  | readAt (offset : Nat) (keepLock : Bool)
  | records
  | appendSeq
  | sinceSort
  | refresh
  | lock (offset : Nat)
  | unlock (offset : Nat)
  | write (request : WriteRequest)
  | delete (key : Bytes)
  | resort
  deriving DecidableEq, Repr

/-- A write of a value that may hold any bytes. -/
def Call.writeEncoded (key name raw : Bytes) (mode : LockMode) : Call :=
  .write ⟨key, some ⟨name, Percent.encode raw⟩, mode⟩

inductive Answer where
  | done
  | bytes (value : Option Bytes)
  | record (value : Option Record)
  | records (all : List Record)
  | count (value : UInt32)
  | flag (value : Bool)
  deriving DecidableEq, Repr

/-- Where a call waits for a lock. -/
inductive Stage where
  | reading (key : Bytes) (part : Part) (span : Span)
  | readingAt (offset : Nat)
  | locking (offset : Nat)
  | writing (request : WriteRequest) (span : Span)
  | deleting (key : Bytes) (span : Span)
  /-- A write that is about to append, and the record lock it holds or was told is held. -/
  | appending (request : WriteRequest) (held : Option Nat)
  | resorting
  deriving DecidableEq, Repr

/-- The offset of the lock that a stage waits for.  It is always an exclusive lock. -/
def Stage.offset : Stage → Nat
  | .reading _ _ span | .writing _ span | .deleting _ span => span.offset
  | .readingAt offset | .locking offset => offset
  | .appending _ _ | .resorting => structuralOffset

inductive Progress where
  | answered (answer : Answer)
  | waiting (stage : Stage)
  deriving DecidableEq, Repr

/-- What a lookup answers about the record it finds. -/
def Part.of (record : Record) : Part → Answer
  | .key => .bytes (some record.key)
  | .field name => .bytes (record.field? name)
  | .decodedField name => .bytes (record.fieldDecoded? name)
  | .record => .record (some record)

/-- What a lookup that finds nothing answers. -/
def Part.missing : Part → Answer
  | .record => .record none
  | .key | .field _ | .decodedField _ => .bytes none

namespace SessionM

def answer (a : Answer) : SessionM Progress := pure (.answered a)

def wait (stage : Stage) : SessionM Progress := pure (.waiting stage)

/-- Runs an action under the structural lock, which is given up even if the action fails. -/
def unlockingStructure {α : Type} (act : SessionM α) : SessionM (Except Error α) := do
  let outcome ← attempt act
  unlock structuralOffset
  pure outcome

end SessionM

end RecordStore
