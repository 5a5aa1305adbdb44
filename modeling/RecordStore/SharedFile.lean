import RecordStore.Lock

/-!
# The shared file

All handles on a store share one file: its bytes, the second of its last change and its locks.
Every change is a positional write.  A handle sees the file through a view: the current bytes, but
only as far as the file reached when the view was last mapped.

* `Patch` — a positional write; `Patch.applyAll` applies several in order.
* `SharedFile.patch` — a write stamps the change time, unless it writes nothing.
* `View` — how far a handle sees, and how often it has mapped the file.
-/

set_option autoImplicit false

namespace RecordStore

/-- Bytes to be written at an offset. -/
structure Patch where
  offset : Nat
  data : Bytes
  deriving DecidableEq, Repr

namespace Patch

/-- Writes past the end fill the gap with zeros; writing nothing changes nothing. -/
def apply (patch : Patch) (bytes : Bytes) : Bytes :=
  if patch.data = [] then bytes
  else bytes.take patch.offset ++ List.replicate (patch.offset - bytes.length) 0 ++ patch.data
    ++ bytes.drop (patch.offset + patch.data.length)

/-- Applies patches in order. -/
def applyAll (patches : List Patch) (bytes : Bytes) : Bytes :=
  patches.foldl (fun acc patch => patch.apply acc) bytes

end Patch

structure SharedFile where
  bytes : Bytes
  mtime : Int
  locks : LockTable
  deriving DecidableEq, Repr

namespace SharedFile

/-- A file with these bytes that nobody has open. -/
def ofBytes (bytes : Bytes) (mtime : Int) : SharedFile := ⟨bytes, mtime, .empty⟩

/-- Writes at the second `now`. -/
def patch (file : SharedFile) (now : Nat) (patch : Patch) : SharedFile :=
  if patch.data = [] then file
  else { file with bytes := patch.apply file.bytes, mtime := now }

/-- Takes a lock, unless another holder is in the way. -/
def acquire? (file : SharedFile) (holder : HolderId) (offset : Nat) (kind : LockKind) :
    Option SharedFile :=
  (file.locks.acquire? holder offset kind).map fun locks => { file with locks }

def unlock (file : SharedFile) (holder : HolderId) (offset : Nat) : SharedFile :=
  { file with locks := file.locks.clear holder offset }

/-- Gives up every lock of `holder`. -/
def release (file : SharedFile) (holder : HolderId) : SharedFile :=
  { file with locks := file.locks.release holder }

end SharedFile

/-- How far a handle sees the file, and how often it has mapped it again. -/
structure View where
  length : Nat
  generation : Nat
  deriving DecidableEq, Repr

namespace View

/-- The first mapping of a file. -/
def ofBytes (bytes : Bytes) : View := ⟨bytes.length, 0⟩

/-- Maps the file again at its current length. -/
def remap (view : View) (bytes : Bytes) : View := ⟨bytes.length, view.generation + 1⟩

/-- What is seen of the current bytes. -/
def read (view : View) (bytes : Bytes) : Bytes := bytes.take view.length

end View

end RecordStore
