import RecordStore.Session

/-!
# Opening a store

Opening runs under the structural lock.  The opener first probes whether any other handle is there,
by trying the presence lock exclusively, and then keeps that lock shared.  An empty file gets a
fresh header.  A first opener sorts if the file was edited behind the library's back, which its
change time betrays, or if a sort is overdue.

* `Opening` — how an open ends: with a handle, an error, or a wait for one of the two locks.
* `openFile`, `resumeOpen` — opening from the beginning, and on from a wait.
* `needsSort` — the decision of a first opener.
-/

set_option autoImplicit false

namespace RecordStore

/-- Where an open waits for a lock. -/
inductive OpenStage where
  | structural
  /-- Waits for the shared presence lock; `first` tells whether the probe found nobody. -/
  | presence (first : Bool)
  deriving DecidableEq, Repr

/-- The offset and the kind of the lock that an open waits for. -/
def OpenStage.wants : OpenStage → Nat × LockKind
  | .structural => (structuralOffset, .exclusive)
  | .presence _ => (presenceOffset, .shared)

inductive Opening where
  | opened (handle : Handle)
  | failed (error : Error)
  | waiting (stage : OpenStage)
  deriving DecidableEq, Repr

/-- A file time in 32-bit seconds; times before the epoch count as zero. -/
def seconds32 (mtime : Int) : UInt32 := UInt32.ofNat mtime.toNat

/-- By how many seconds the header's stamp is ahead of the file's change time, in 32-bit
arithmetic. -/
def drift (header : Header) (mtime : Int) : Int :=
  Int.bmod (header.modified.toNat - (seconds32 mtime).toNat : Int) UInt32.size

/-- Whether a first opener sorts: the file changed over a second after its stamp, or more appends
than the limit were made since the last sort. -/
def needsSort (header : Header) (mtime : Int) (limit : UInt32) : Bool :=
  drift header mtime < -1 || limit < header.sinceSort

/-- The first newline's position plus one. -/
def headLength? (bytes : Bytes) : Option Nat := (bytes.idxOf? newline).map (· + 1)

/-- The handle of an opener that holds both locks. -/
def makeHandle (config : Config) (bytes : Bytes) (fresh : Bool) : Option (Header × Handle) := do
  let header ← Header.decode? bytes
  let headLen ← headLength? bytes
  pure (header, ⟨config, headLen, header.appendSeq, .ofBytes bytes, none, fresh⟩)

/-- Runs on once both locks are held. -/
def finishOpen (now : Nat) (holder : HolderId) (config : Config) (first : Bool)
    (file : SharedFile) : SharedFile × Opening :=
  let fresh := file.bytes.isEmpty
  let file := if fresh then file.patch now ⟨0, Header.encode .fresh⟩ else file
  match makeHandle config file.bytes fresh with
  | none => (file.release holder, .failed .invalidHeader)
  | some (header, handle) =>
    let s : Session := ⟨now, holder, handle, file, []⟩
    let s := if first && needsSort header file.mtime config.resortLimit then s.sort else s
    (s.file.unlock holder structuralOffset, .opened s.handle)

/-- Takes the shared presence lock. -/
def sharePresence (now : Nat) (holder : HolderId) (config : Config) (first : Bool)
    (file : SharedFile) : SharedFile × Opening :=
  match file.acquire? holder presenceOffset .shared with
  | none => (file, .waiting (.presence first))
  | some file => finishOpen now holder config first file

/-- Probes whether the opener is alone. -/
def probePresence (now : Nat) (holder : HolderId) (config : Config) (file : SharedFile) :
    SharedFile × Opening :=
  match file.acquire? holder presenceOffset .exclusive with
  | none => sharePresence now holder config false file
  | some file => sharePresence now holder config true file

/-- Opens an existing file for `holder`. -/
def openFile (now : Nat) (holder : HolderId) (config : Config) (file : SharedFile) :
    SharedFile × Opening :=
  match file.acquire? holder structuralOffset .exclusive with
  | none => (file, .waiting .structural)
  | some file => probePresence now holder config file

/-- Takes the lock that an open waits for, if it can, and runs on. -/
def resumeOpen (now : Nat) (holder : HolderId) (config : Config) (file : SharedFile) :
    OpenStage → SharedFile × Opening
  | .structural => openFile now holder config file
  | .presence first => sharePresence now holder config first file

/-- The last write of a handle that changed anything: the modification second. -/
def closingPatch? (now : Nat) (handle : Handle) : Option Patch :=
  if handle.modified then some ⟨Header.modifiedAt, Hex.word (UInt32.ofNat now)⟩ else none

/-- Closes a handle: stamps the header if anything was modified and gives up every lock. -/
def closeFile (now : Nat) (holder : HolderId) (handle : Handle) (file : SharedFile) : SharedFile :=
  let file := match closingPatch? now handle with
    | some patch => file.patch now patch
    | none => file
  file.release holder

end RecordStore
