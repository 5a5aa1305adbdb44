import RecordStore.Session

/-!
# Appending

A record that cannot be patched in place is appended as a whole new line; the copy it replaces dies
only after the new line and the header counters are written.  All of this runs under the structural
lock.

* `sealPatches` — closes an unfinished last line, so that its fragment never reads as a live record.
* `publishPatches` — the writes that publish a line: itself, the counters, the death of the old copy.
* `SessionM.appendRecord` — the whole append; it returns the new record's offset, locked.
-/

set_option autoImplicit false

namespace RecordStore

/-- The writes that close an unfinished last line: the newline it lacks, then the dead flag if the
fragment claims to be live and lies after the header. -/
def sealPatches (bytes : Bytes) (headLen : Nat) : List Patch :=
  let start := (wholeLines bytes).length
  ⟨bytes.length, [newline]⟩ ::
    if headLen ≤ start ∧ (openLine bytes).head? = some liveFlag then [⟨start, [deadFlag]⟩] else []

/-- One more append; the count sticks at its greatest value. -/
def countAppend (sinceSort : UInt32) : UInt32 :=
  if sinceSort = 0xFFFFFFFF then sinceSort else sinceSort + 1

/-- The writes that follow a new line: the next append sequence, the appends since the last sort,
and the dead flag of the record that the line replaces. -/
def publishPatches (appendSeq sinceSort : UInt32) (old : Option Span) : List Patch :=
  [⟨Header.appendSeqAt, Hex.word (appendSeq + 1)⟩,
    ⟨Header.sinceSortAt, Hex.word (countAppend sinceSort)⟩]
    ++ (old.map fun span => (⟨span.offset, [deadFlag]⟩ : Patch)).toList

namespace SessionM

/-- Makes the file end in a newline and returns the offset at which the next line goes. -/
def sealTail : SessionM Nat := do
  let s ← get
  let bytes := s.file.bytes
  if endsLine bytes then pure bytes.length
  else
    set ((s.writeAll (sealPatches bytes s.handle.headLen)).remap.forget)
    pure (bytes.length + 1)

/-- Writes a line at the end of the file and publishes it.  The append sequence is read only once
the line is written, so a damaged one leaves the line behind. -/
def commitLine (offset : Nat) (line : Bytes) (sinceSort : UInt32) (old : Option Span) :
    SessionM Unit := do
  modify fun s => s.write ⟨offset, line⟩
  let seq ← appendSeq
  modify fun s => (s.writeAll (publishPatches seq sinceSort old)).markModified

/-- The line that a write appends: nothing if the key exists and no field is named. -/
def lineToAppend (key : Bytes) (field : Option Field) (old : Option Span) :
    SessionM (Option Bytes) :=
  match old, field with
  | some _, none => pure none
  | some span, some field => do
    let record ← recordAt span
    pure (some (record.withField field))
  | none, field => pure (some (encodeRecord key field.toList))

/-- Appends the new version of `key`, sorting first if a sort is overdue.  The session holds the
structural lock; the lock of the new record is held on return, unless another holder has it. -/
def appendRecord (key : Bytes) (field : Option Field) : SessionM (Option Nat) := do
  let count ← sinceSort
  let overdue := (← get).handle.config.resortLimit < count
  let old ← locate key (if overdue then .always else .ifMissing)
  if overdue then modify Session.sort
  let count := if overdue then 0 else count
  match ← lineToAppend key field old with
  | none => pure none
  | some line =>
    let offset ← sealTail
    let _ ← tryLock offset .exclusive
    match ← attempt (commitLine offset line count old) with
    | .ok () => pure (some offset)
    | .error e => unlock offset; throw e

/-- Maps the file again if it has grown, and sorts it. -/
def resort : SessionM Unit := do
  let _ ← refresh
  modify Session.sort

end SessionM

end RecordStore
