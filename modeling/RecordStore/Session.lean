import RecordStore.Config
import RecordStore.Header
import RecordStore.Index.Search
import RecordStore.Index.Tail
import RecordStore.SharedFile

/-!
# Handles and sessions

A handle is what one opener keeps between calls.  A session is a stretch of one call that runs
without waiting: the handle, the shared file and the journal of the positional writes made so far.

* `Handle.find?` — where a key stands, as far as the handle sees: cache, slots, unsorted tail.
* `SessionM` — a computation in a session that may fail; a failure keeps what was done before it.
* `refresh`, `locate` — mapping the file again, and looking a key up.
* `tryLock`, `acquireRecord`, `unlock` — the locks of the session's holder.
* `Session.sort` — every slot set by the sort plan.
-/

set_option autoImplicit false

namespace RecordStore

/-- The last record found, good for one mapping of the file. -/
structure CachedSpan where
  generation : Nat
  span : Span
  deriving DecidableEq, Repr

structure Handle where
  config : Config
  /-- The length of the header line. -/
  headLen : Nat
  /-- The append sequence that this handle last looked at. -/
  seenSeq : UInt32
  view : View
  cache : Option CachedSpan
  /-- Whether closing has to stamp the header. -/
  modified : Bool
  deriving DecidableEq, Repr

namespace Handle

/-- The cached span, if it still holds a live record with `key`. -/
def cached? (h : Handle) (data key : Bytes) : Option Span :=
  h.cache.bind fun entry =>
    let text := entry.span.read data
    if entry.generation = h.view.generation ∧ entry.span.offset + entry.span.length ≤ data.length
        ∧ text.head? = some liveFlag ∧ keyOf text = key then
      some entry.span
    else none

/-- Where `key` stands in what the handle sees. -/
def find? (h : Handle) (data key : Bytes) : Option Span :=
  match h.cached? data key with
  | some span => some span
  | none =>
    match Index.search data h.headLen key with
    | some span => some span
    | none => Index.scanTail data h.headLen key

end Handle

structure Session where
  /-- The current second. -/
  now : Nat
  holder : HolderId
  handle : Handle
  file : SharedFile
  /-- The positional writes made so far, in order. -/
  journal : List Patch
  deriving DecidableEq, Repr

namespace Session

/-- What the handle sees of the file. -/
def data (s : Session) : Bytes := s.handle.view.read s.file.bytes

def write (s : Session) (patch : Patch) : Session :=
  { s with file := s.file.patch s.now patch, journal := s.journal ++ [patch] }

def writeAll (s : Session) (patches : List Patch) : Session := patches.foldl write s

def markModified (s : Session) : Session := { s with handle := { s.handle with modified := true } }

def forget (s : Session) : Session := { s with handle := { s.handle with cache := none } }

/-- Remembers a span for the current mapping. -/
def remember (s : Session) (span : Span) : Session :=
  { s with handle := { s.handle with cache := some ⟨s.handle.view.generation, span⟩ } }

def remap (s : Session) : Session :=
  { s with handle := { s.handle with view := s.handle.view.remap s.file.bytes } }

/-- The header's modification second, as written by a session. -/
def stamp (s : Session) : Patch := ⟨Header.modifiedAt, Hex.word (UInt32.ofNat s.now)⟩

/-- The writes of a sort: every slot by the plan, no appends since, the modification second. -/
def sortPatches (s : Session) : List Patch :=
  (Index.sortPlan s.data s.handle.headLen).map
      (fun (line, target) => ⟨line + slotAt, Hex.word (UInt32.ofNat target)⟩)
    ++ [⟨Header.sinceSortAt, Hex.word 0⟩, s.stamp]

/-- Sets every slot by the plan.  The session has to hold the structural lock and see the whole
file. -/
def sort (s : Session) : Session := (s.writeAll s.sortPatches).markModified

end Session

/-- A computation in a session.  A failure keeps the session as it was when it arose. -/
abbrev SessionM := EStateM Error Session

namespace SessionM

/-- Runs an action and hands its failure over as a value. -/
def attempt {α : Type} (act : SessionM α) : SessionM (Except Error α) := fun s =>
  match act s with
  | .ok a s => .ok (.ok a) s
  | .error e s => .ok (.error e) s

/-- Fails with `e` where there is no value. -/
def require {α : Type} (value : Option α) (e : Error) : SessionM α :=
  match value with
  | some a => pure a
  | none => throw e

/-- A header counter as seen now. -/
def counter (offset : Nat) : SessionM UInt32 := do
  require (Header.counterAt? (← get).data offset) .invalidHeader

/-- Appends made to the store by any handle. -/
def appendSeq : SessionM UInt32 := counter Header.appendSeqAt

/-- Appends since the last sort. -/
def sinceSort : SessionM UInt32 := counter Header.sinceSortAt

/-! ## Locks -/

/-- Takes a lock without waiting; the answer tells whether it was granted. -/
def tryLock (offset : Nat) (kind : LockKind) : SessionM Bool := do
  match lockFault? offset with
  | some fault => throw (.lock fault)
  | none =>
    let s ← get
    match s.file.acquire? s.holder offset kind with
    | some file => set { s with file }; pure true
    | none => pure false

def unlock (offset : Nat) : SessionM Unit := do
  match lockFault? offset with
  | some fault => throw (.lock fault)
  | none => modify fun s => { s with file := s.file.unlock s.holder offset }

/-- Takes the exclusive lock of a record.  Where it is not granted, a nonblocking handle refuses
and any other has to wait. -/
def acquireRecord (offset : Nat) : SessionM Bool := do
  let granted ← tryLock offset .exclusive
  if !granted && (← get).handle.config.nonblocking then throw (.contention offset)
  else pure granted

/-! ## Lookup -/

/-- Maps the file again if anyone has appended since this handle last looked. -/
def refresh : SessionM Bool := do
  let seq ← appendSeq
  if seq = (← get).handle.seenSeq then pure false
  else
    modify fun s => (({ s with handle := { s.handle with seenSeq := seq } }).forget).remap
    pure true

/-- When a lookup compares the append sequence before it trusts its answer. -/
inductive Freshness where
  | ifMissing
  | always
  deriving DecidableEq, Repr

/-- Looks `key` up in the current mapping and remembers where it stands. -/
def find (key : Bytes) : SessionM (Option Span) := do
  let s ← get
  match s.handle.find? s.data key with
  | some span => set (s.remember span); pure (some span)
  | none => pure none

/-- Looks `key` up, mapping the file again first where `freshness` asks for it and anyone has
appended. -/
def locate (key : Bytes) (freshness : Freshness) : SessionM (Option Span) := do
  let s ← get
  let found := (s.handle.find? s.data key).isSome
  if freshness == .always || !found then
    let _ ← refresh
  find key

/-- The record at a span that a lookup gave. -/
def recordAt (span : Span) : SessionM Record := do
  match Record.decode (← get).data span.offset with
  | .ok record => pure record
  | .error e => throw e

/-- What a lookup that locks came to. -/
inductive Locked where
  | absent
  | granted (span : Span)
  /-- Found, but another holder has the lock. -/
  | busy (span : Span)
  deriving DecidableEq, Repr

/-- Looks `key` up and takes the lock of its record.  A record just found is live, so a lock that
is granted at once needs no second look. -/
def locateLocking (key : Bytes) (freshness : Freshness) : SessionM Locked := do
  match ← locate key freshness with
  | none => pure .absent
  | some span => if ← acquireRecord span.offset then pure (.granted span) else pure (.busy span)

/-- Goes on once the lock of a record was granted after a wait: if the record died meanwhile, its
lock is given up and the key looked up anew. -/
def recheck (key : Bytes) (span : Span) : SessionM Locked := do
  if (← get).data[span.offset]? = some liveFlag then pure (.granted span)
  else
    unlock span.offset
    modify Session.forget
    locateLocking key .always

end SessionM

end RecordStore
