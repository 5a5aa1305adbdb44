import RecordStore.Append
import RecordStore.Call

/-!
# Writing, deleting and sorting

A write looks its key up, under the lock of the record unless the caller says that it holds it.  A
value of the field's length is patched in place; anything else is appended under the structural
lock, where the key is looked up once more, so that a stale first answer does no harm.
-/

set_option autoImplicit false

namespace RecordStore.SessionM

/-- The fault that keeps a request from being written. -/
def requestFault? (request : WriteRequest) : Option TokenFault :=
  (keyFault? request.key).or (request.field.bind fun field =>
    (nameFault? field.name).or (valueFault? field.value))

/-- Appends under the structural lock.  On failure the record lock held is given up, unless the
caller keeps it; on success the old record's lock is given up, and the new one's by the mode. -/
def appendLocked (request : WriteRequest) (held : Option Nat) : SessionM Progress := do
  match ← unlockingStructure (appendRecord request.key request.field) with
  | .error e =>
    if request.mode ≠ .keep then held.forM unlock
    throw e
  | .ok appended =>
    held.forM unlock
    if request.mode.releases then appended.forM unlock
    answer .done

def append (request : WriteRequest) (held : Option Nat) : SessionM Progress := do
  if ← tryLock structuralOffset .exclusive then appendLocked request held
  else wait (.appending request held)

/-- Gives up the record's lock if the mode says so, and answers. -/
def finishInPlace (request : WriteRequest) (span : Span) : SessionM Progress := do
  if request.mode.releases then unlock span.offset
  answer .done

/-- Writes to a record that exists: in place if the value has the field's length, else by
appending. -/
def update (request : WriteRequest) (span : Span) : SessionM Progress := do
  match request.field with
  | none => finishInPlace request span
  | some field =>
    let record ← recordAt span
    match record.fieldSpan? field.name with
    | some place =>
      if place.length = field.value.length then
        modify fun s => (s.write ⟨span.offset + place.offset, field.value⟩).markModified
        finishInPlace request span
      else append request (some span.offset)
    | none => append request (some span.offset)

def writeFound (request : WriteRequest) : Option Span → SessionM Progress
  | none => append request none
  | some span => update request span

def writeLocked (request : WriteRequest) : Locked → SessionM Progress
  | .absent => writeFound request none
  | .granted span => writeFound request (some span)
  | .busy span => wait (.writing request span)

def write (request : WriteRequest) : SessionM Progress := do
  match requestFault? request with
  | some fault => throw (.invalidData fault)
  | none =>
    if request.mode.acquires then writeLocked request (← locateLocking request.key .ifMissing)
    else writeFound request (← locate request.key .ifMissing)

/-! ## Deleting and sorting -/

def deleteLocked (key : Bytes) : Locked → SessionM Progress
  | .absent => answer (.flag false)
  | .busy span => wait (.deleting key span)
  | .granted span => do
    modify fun s => (s.write ⟨span.offset, [deadFlag]⟩).forget
    unlock span.offset
    modify Session.markModified
    answer (.flag true)

def resortLocked : SessionM Progress := do
  match ← unlockingStructure resort with
  | .error e => throw e
  | .ok () => answer .done

end RecordStore.SessionM
