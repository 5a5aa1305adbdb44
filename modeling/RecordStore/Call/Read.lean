import RecordStore.Call

/-!
# Reading

Lookups by key and by offset, and the list of all live records.  A lookup that locks keeps the lock
of the record it finds, also when the record lacks the field asked for.
-/

set_option autoImplicit false

namespace RecordStore.SessionM

def readFound (part : Part) : Option Span → SessionM Progress
  | none => answer (Part.missing part)
  | some span => do answer (Part.of (← recordAt span) part)

def readLocked (key : Bytes) (part : Part) : Locked → SessionM Progress
  | .absent => readFound part none
  | .granted span => readFound part (some span)
  | .busy span => wait (.reading key part span)

def read (key : Bytes) (part : Part) (keepLock : Bool) : SessionM Progress := do
  if keepLock then readLocked key part (← locateLocking key .ifMissing)
  else readFound part (← locate key .ifMissing)

/-- Answers the record at `offset`; where there is none, a lock taken for it is given up. -/
def decodeAt (offset : Nat) (locked : Bool) : SessionM Progress := do
  match Record.decode (← get).data offset with
  | .ok record => answer (.record (some record))
  | .error _ =>
    if locked then unlock offset
    answer (.record none)

/-- Answers the record that starts at `offset`, live or not. -/
def readAt (offset : Nat) (keepLock : Bool) : SessionM Progress := do
  if (← get).handle.view.length ≤ offset then
    let _ ← refresh
  let h := (← get).handle
  if offset < h.headLen || h.view.length ≤ offset then answer (.record none)
  else if keepLock then
    if ← acquireRecord offset then decodeAt offset true else wait (.readingAt offset)
  else decodeAt offset false

/-- The live records in file order, those of other handles included. -/
def records : SessionM Progress := do
  let _ ← refresh
  let s ← get
  answer (.records (liveRecordsFrom s.handle.headLen s.data))

end RecordStore.SessionM
