import RecordStore.Call.Read
import RecordStore.Call.Write

/-!
# Running calls

* `Call.start` — runs a call from its beginning.
* `Stage.granted` — runs a call on from a stage whose lock it was granted.
* `Stage.resume` — takes the lock that a stage waits for, if it can, and runs on.
-/

set_option autoImplicit false

namespace RecordStore

open SessionM in
/-- Runs a call until it has its answer or has to wait. -/
def Call.start : Call → SessionM Progress
  | .read key part keepLock => SessionM.read key part keepLock
  | .readAt offset keepLock => SessionM.readAt offset keepLock
  | .records => SessionM.records
  | .appendSeq => do answer (.count (← SessionM.appendSeq))
  | .sinceSort => do answer (.count (← SessionM.sinceSort))
  | .refresh => do answer (.flag (← SessionM.refresh))
  | .lock offset => do
    if ← acquireRecord offset then answer .done else wait (.locking offset)
  | .unlock offset => do
    SessionM.unlock offset
    answer .done
  | .write request => SessionM.write request
  | .delete key => do deleteLocked key (← locateLocking key .ifMissing)
  | .resort => do
    if ← tryLock structuralOffset .exclusive then resortLocked else wait .resorting

open SessionM in
/-- Runs on from a stage whose lock was just granted. -/
def Stage.granted : Stage → SessionM Progress
  | .reading key part span => do readLocked key part (← recheck key span)
  | .readingAt offset => decodeAt offset true
  | .locking _ => answer .done
  | .writing request span => do writeLocked request (← recheck request.key span)
  | .deleting key span => do deleteLocked key (← recheck key span)
  | .appending request held => appendLocked request held
  | .resorting => resortLocked

open SessionM in
/-- Takes the lock that a stage waits for and runs on; while another holder has it, the call goes on
waiting. -/
def Stage.resume (stage : Stage) : SessionM Progress := do
  if ← tryLock stage.offset .exclusive then stage.granted else wait stage

end RecordStore
