import RecordStore.Call.Run
import RecordStore.Proofs.Publishing
import RecordStore.Proofs.Walks

/-!
# Calls in single steps

A stretch of a call makes many accesses to the file and its locks, and other clients can make theirs
between any two of them.  A script is a stretch cut into steps that nothing can come between: one look
at the mapping, one positional write, one lock taken or given up, one mapping of the file.

* `Script` — a computation in single steps; `Mark` — what a step is to those who watch the file.
* `Script.run` — its steps one after the other, with nothing in between.
* `Script.refresh`, `Script.sort`, `Script.sealTail`, `Script.commitLine`, … — the parts of calls.
* `Call.script`, `Stage.script` — every call, from its beginning and on from a stage.

A record may die between the look that finds it and the lock that is taken for it, so a lookup that
locks looks at the flag again even if it had not to wait.  Where the record is dead by then, the call
goes on from the stage of a wait, which gives the lock up and looks the key up anew.

Principal results: `Call.run_script`, `Stage.run_script` — run without interruption, a script is the
stretch of the call.
-/

set_option autoImplicit false

namespace RecordStore

/-- What a step is to those who watch the file. -/
inductive Mark where
  | plain
  /-- Writes the slot of a line, for a sort. -/
  | slot
  /-- Writes the append sequence behind a new line. -/
  | publish (line : Line)
  /-- The second step of a refresh: maps the file again. -/
  | remap
  deriving DecidableEq, Repr

/-- A computation in single steps.  What follows a step is decided by the session as it was when the
step was made. -/
inductive Script (α : Type) where
  | done (outcome : Except Error α)
  | step (mark : Mark) (act : Session → Session) (next : Session → Script α)

namespace Script

variable {α β : Type}

def bind : Script α → (α → Script β) → Script β
  | .done (.ok a), f => f a
  | .done (.error e), _ => .done (.error e)
  | .step mark act next, f => .step mark act fun s => (next s).bind f

instance : Monad Script where
  pure a := .done (.ok a)
  bind := bind

def fail (e : Error) : Script α := .done (.error e)

/-- Makes all steps, one after the other. -/
def run : Script α → SessionM α
  | .done (.ok a), s => .ok a s
  | .done (.error e), s => .error e s
  | .step _ act next, s => (next s).run (act s)

/-- Hands a failure over as a value. -/
def attempt : Script α → Script (Except Error α)
  | .done outcome => .done (.ok outcome)
  | .step mark act next => .step mark act fun s => (next s).attempt

/-- A computation as one step. -/
def atom (act : SessionM α) : Script α :=
  .step .plain (SessionM.final act) fun s =>
    match act s with
    | .ok a _ => .done (.ok a)
    | .error e _ => .done (.error e)

/-- One look at the session. -/
def look : Script Session := atom get

/-- A step that always succeeds. -/
def move (mark : Mark) (act : Session → Session) : Script Unit :=
  .step mark act fun _ => pure ()

/-- One positional write. -/
def write (mark : Mark) (patch : Patch) : Script Unit := move mark fun s => s.write patch

/-- Positional writes, each of them a step. -/
def writeAll (mark : Mark) : List Patch → Script Unit
  | [] => pure ()
  | patch :: more => do
    write mark patch
    writeAll mark more

/-- Does something only if it is asked for. -/
def onlyIf (asked : Bool) (script : Script Unit) : Script Unit :=
  if asked then script else pure ()

/-! ## Looking up -/

/-- The first step of a refresh: reads the append sequence, and keeps it if it is not the one that was
last looked at. -/
def noteSeq : SessionM Bool := do
  let seq ← SessionM.appendSeq
  if seq = (← get).handle.seenSeq then pure false
  else
    modify fun s => ({ s with handle := { s.handle with seenSeq := seq } }).forget
    pure true

/-- Maps the file again if anyone has appended since this handle last looked. -/
def refresh : Script Bool := do
  if ← atom noteSeq then
    move .remap Session.remap
    pure true
  else pure false

def refreshIf (asked : Bool) : Script Bool := if asked then refresh else pure false

/-- Takes what a lookup found before the append sequence was compared. -/
def settle (found : Option Span) : Script (Option Span) :=
  match found with
  | some span => do
    move .plain fun s => s.remember span
    pure (some span)
  | none => pure none

/-- Looks `key` up, and once more in a new mapping where `freshness` asks for it and anyone has
appended. -/
def locate (key : Bytes) (freshness : SessionM.Freshness) : Script (Option Span) := do
  let s ← look
  let found := s.handle.find? s.data key
  let changed ← refreshIf (freshness == .always || found.isNone)
  if changed then atom (SessionM.find key) else settle found

/-- Whether the record at `offset` is live now. -/
def looksLive (offset : Nat) : SessionM Bool := do
  pure ((← get).data[offset]? == some liveFlag)

/-- Looks `key` up, takes the lock of its record, and looks whether it is still live. -/
def locateLocking (key : Bytes) (freshness : SessionM.Freshness) : Script SessionM.Locked := do
  match ← locate key freshness with
  | none => pure .absent
  | some span =>
    if ← atom (SessionM.acquireRecord span.offset) then
      if ← atom (looksLive span.offset) then pure (.granted span) else pure (.busy span)
    else pure (.busy span)

/-- Goes on once the lock of a record was granted. -/
def recheck (key : Bytes) (span : Span) : Script SessionM.Locked := do
  if ← atom (looksLive span.offset) then pure (.granted span)
  else
    atom (SessionM.unlock span.offset)
    move .plain Session.forget
    locateLocking key .always

/-! ## Sorting and appending -/

/-- The writes of a sort that set slots. -/
def slotPatches (s : Session) : List Patch :=
  (Index.sortPlan s.data s.handle.headLen).map
    fun (line, target) => ⟨line + slotAt, Hex.word (UInt32.ofNat target)⟩

/-- Makes a plan and writes it, slot by slot. -/
def sort : Script Unit := do
  let s ← look
  writeAll .slot (slotPatches s)
  write .plain ⟨Header.sinceSortAt, Hex.word 0⟩
  move .plain fun s => s.write s.stamp
  move .plain Session.markModified

/-- The dead flag that a fragment gets if it claims to be live and lies after the header.  The fragment
stood behind the last newline of the first `length` bytes. -/
def fragmentDeath (s : Session) (length : Nat) : List Patch :=
  let start := (wholeLines (s.data.take length)).length
  if s.handle.headLen ≤ start ∧ s.data[start]? = some liveFlag then [⟨start, [deadFlag]⟩] else []

/-- Makes the file end in a newline and returns the offset at which the next line goes. -/
def sealTail : Script Nat := do
  let s ← look
  let length := s.file.bytes.length
  if endsLine s.file.bytes then pure length
  else
    write .plain ⟨length, [newline]⟩
    move .plain fun s => s.remap.forget
    let s ← look
    writeAll .plain (fragmentDeath s length)
    pure (length + 1)

/-- Writes a line at the end of the file and publishes it. -/
def commitLine (offset : Nat) (line : Bytes) (count : UInt32) (old : Option Span) : Script Unit := do
  write .plain ⟨offset, line⟩
  let seq ← atom SessionM.appendSeq
  write (.publish ⟨offset, line⟩) ⟨Header.appendSeqAt, Hex.word (seq + 1)⟩
  write .plain ⟨Header.sinceSortAt, Hex.word (countAppend count)⟩
  move .plain Session.markModified
  writeAll .plain (old.map fun span => (⟨span.offset, [deadFlag]⟩ : Patch)).toList

/-- Appends a line behind the last one, and takes the lock of its record. -/
def appendLine (line : Bytes) (count : UInt32) (old : Option Span) : Script (Option Nat) := do
  let offset ← sealTail
  let _ ← atom (SessionM.tryLock offset .exclusive)
  match ← attempt (commitLine offset line count old) with
  | .ok () => pure (some offset)
  | .error e => do
    atom (SessionM.unlock offset)
    fail e

/-- Appends the new version of `key`, sorting first if a sort is overdue. -/
def appendRecord (key : Bytes) (field : Option Field) : Script (Option Nat) := do
  let count ← atom SessionM.sinceSort
  let s ← look
  let overdue : Bool := s.handle.config.resortLimit < count
  let old ← locate key (if overdue then .always else .ifMissing)
  onlyIf overdue sort
  match ← atom (SessionM.lineToAppend key field old) with
  | none => pure none
  | some line => appendLine line (if overdue then 0 else count) old

/-- Maps the file again if it has grown, and sorts it. -/
def resort : Script Unit := do
  let _ ← refresh
  sort

/-- Gives up a lock, if there is one to be given up. -/
def unlockHeld (held : Option Nat) : Script Unit :=
  match held with
  | none => pure ()
  | some offset => atom (SessionM.unlock offset)

/-- Runs a script under the structural lock, which is given up even if the script fails. -/
def unlockingStructure (script : Script α) : Script (Except Error α) := do
  let outcome ← attempt script
  atom (SessionM.unlock structuralOffset)
  pure outcome

/-! ## Calls -/

def answer (a : Answer) : Script Progress := pure (.answered a)

def wait (stage : Stage) : Script Progress := pure (.waiting stage)

def appendLocked (request : WriteRequest) (held : Option Nat) : Script Progress := do
  match ← unlockingStructure (appendRecord request.key request.field) with
  | .error e => do
    onlyIf (request.mode ≠ .keep) (unlockHeld held)
    fail e
  | .ok appended => do
    unlockHeld held
    onlyIf request.mode.releases (unlockHeld appended)
    answer .done

def append (request : WriteRequest) (held : Option Nat) : Script Progress := do
  if ← atom (SessionM.tryLock structuralOffset .exclusive) then appendLocked request held
  else wait (.appending request held)

def finishInPlace (request : WriteRequest) (span : Span) : Script Progress := do
  onlyIf request.mode.releases (atom (SessionM.unlock span.offset))
  answer .done

def update (request : WriteRequest) (span : Span) : Script Progress :=
  match request.field with
  | none => finishInPlace request span
  | some field => do
    let record ← atom (SessionM.recordAt span)
    match record.fieldSpan? field.name with
    | some place =>
      if place.length = field.value.length then do
        write .plain ⟨span.offset + place.offset, field.value⟩
        move .plain Session.markModified
        finishInPlace request span
      else append request (some span.offset)
    | none => append request (some span.offset)

def writeFound (request : WriteRequest) : Option Span → Script Progress
  | none => append request none
  | some span => update request span

def writeLocked (request : WriteRequest) : SessionM.Locked → Script Progress
  | .absent => writeFound request none
  | .granted span => writeFound request (some span)
  | .busy span => wait (.writing request span)

/-- A write of a request that has no fault. -/
def writeSane (request : WriteRequest) : Script Progress :=
  if request.mode.acquires then do writeLocked request (← locateLocking request.key .ifMissing)
  else do writeFound request (← locate request.key .ifMissing)

def writeRequest (request : WriteRequest) : Script Progress :=
  match SessionM.requestFault? request with
  | some fault => fail (.invalidData fault)
  | none => writeSane request

def deleteLocked (key : Bytes) : SessionM.Locked → Script Progress
  | .absent => answer (.flag false)
  | .busy span => wait (.deleting key span)
  | .granted span => do
    write .plain ⟨span.offset, [deadFlag]⟩
    move .plain Session.forget
    atom (SessionM.unlock span.offset)
    move .plain Session.markModified
    answer (.flag true)

def resortLocked : Script Progress := do
  match ← unlockingStructure resort with
  | .error e => fail e
  | .ok () => answer .done

def readLocked (key : Bytes) (part : Part) : SessionM.Locked → Script Progress
  | .absent => atom (SessionM.readFound part none)
  | .granted span => atom (SessionM.readFound part (some span))
  | .busy span => wait (.reading key part span)

def read (key : Bytes) (part : Part) (keepLock : Bool) : Script Progress :=
  if keepLock then do readLocked key part (← locateLocking key .ifMissing)
  else do
    let found ← locate key .ifMissing
    atom (SessionM.readFound part found)

/-- Answers the record at `offset`; where there is none, a lock taken for it is given up. -/
def decodeAt (offset : Nat) (locked : Bool) : Script Progress := do
  let s ← look
  match Record.decode s.data offset with
  | .ok record => answer (.record (some record))
  | .error _ => do
    onlyIf locked (atom (SessionM.unlock offset))
    answer (.record none)

/-- Answers the record at `offset` as far as the mapping reaches. -/
def readMapped (offset : Nat) (keepLock : Bool) : Script Progress := do
  let s ← look
  if offset < s.handle.headLen || s.handle.view.length ≤ offset then answer (.record none)
  else if keepLock then do
    if ← atom (SessionM.acquireRecord offset) then decodeAt offset true
    else wait (.readingAt offset)
  else decodeAt offset false

def readAt (offset : Nat) (keepLock : Bool) : Script Progress := do
  let s ← look
  if s.handle.view.length ≤ offset then do
    let _ ← refresh
    readMapped offset keepLock
  else readMapped offset keepLock

def records : Script Progress := do
  let _ ← refresh
  let s ← look
  answer (.records (liveRecordsFrom s.handle.headLen s.data))

end Script

open Script in
/-- A call, from its beginning. -/
def Call.script : Call → Script Progress
  | .read key part keepLock => Script.read key part keepLock
  | .readAt offset keepLock => Script.readAt offset keepLock
  | .records => Script.records
  | .appendSeq => do answer (.count (← atom SessionM.appendSeq))
  | .sinceSort => do answer (.count (← atom SessionM.sinceSort))
  | .refresh => do answer (.flag (← Script.refresh))
  | .lock offset => do
    if ← atom (SessionM.acquireRecord offset) then answer .done else wait (.locking offset)
  | .unlock offset => do
    atom (SessionM.unlock offset)
    answer .done
  | .write request => writeRequest request
  | .delete key => do deleteLocked key (← locateLocking key .ifMissing)
  | .resort => do
    if ← atom (SessionM.tryLock structuralOffset .exclusive) then resortLocked
    else wait .resorting

open Script in
/-- A call that goes on from a stage whose lock was granted. -/
def Stage.grantedScript : Stage → Script Progress
  | .reading key part span => do readLocked key part (← recheck key span)
  | .readingAt offset => decodeAt offset true
  | .locking _ => answer .done
  | .writing request span => do writeLocked request (← recheck request.key span)
  | .deleting key span => do deleteLocked key (← recheck key span)
  | .appending request held => appendLocked request held
  | .resorting => resortLocked

open Script in
/-- A call that goes on from a stage. -/
def Stage.script (stage : Stage) : Script Progress := do
  if ← atom (SessionM.tryLock stage.offset .exclusive) then stage.grantedScript else wait stage

/-! ## Without interruption -/

namespace Script

variable {α β : Type}

theorem run_pure (a : α) : (pure a : Script α).run = pure a := rfl

theorem run_fail (e : Error) : (fail e : Script α).run = throw e := rfl

theorem run_bind (script : Script α) (f : α → Script β) :
    (script >>= f).run = script.run >>= fun a => (f a).run := by
  funext s
  induction script generalizing s with
  | done outcome => cases outcome <;> rfl
  | step mark act next ih => exact ih s (act s)

theorem run_atom (act : SessionM α) : (atom act).run = act := by
  funext s
  cases h : act s with
  | ok a s' => simp only [atom, run, h, SessionM.final_ok h]
  | error e s' => simp only [atom, run, h, SessionM.final_error h]

theorem run_look : look.run = get := run_atom get

theorem run_move (mark : Mark) (act : Session → Session) : (move mark act).run = modify act := rfl

theorem run_attempt (script : Script α) : (attempt script).run = SessionM.attempt script.run := by
  funext s
  induction script generalizing s with
  | done outcome => cases outcome <;> rfl
  | step mark act next ih => exact ih s (act s)

theorem run_onlyIf (asked : Bool) (script : Script Unit) :
    (onlyIf asked script).run = if asked then script.run else pure () := by
  cases asked <;> rfl

theorem run_writeAll (mark : Mark) (patches : List Patch) :
    (writeAll mark patches).run = modify fun s => s.writeAll patches := by
  induction patches with
  | nil => rfl
  | cons patch more ih =>
    rw [writeAll, run_bind, write, run_move]
    simp only [ih]
    rfl

theorem run_unlockHeld (held : Option Nat) :
    (unlockHeld held).run = held.forM SessionM.unlock := by
  cases held with
  | none => rfl
  | some offset => exact run_atom _

/-! ### Lookups -/

/-- What the first step of a refresh comes to. -/
theorem noteSeq_eq_match (s : Session) : noteSeq s =
    match Header.counterAt? s.data Header.appendSeqAt with
    | none => .error .invalidHeader s
    | some seq =>
      if seq = s.handle.seenSeq then .ok false s
      else .ok true ({ s with handle := { s.handle with seenSeq := seq } }).forget := by
  have hread : SessionM.appendSeq s = _ := SessionM.counter_eq_match s Header.appendSeqAt
  unfold noteSeq
  cases hseq : Header.counterAt? s.data Header.appendSeqAt with
  | none =>
    rw [hseq] at hread
    rw [SessionM.bind_error hread]
  | some seq =>
    rw [hseq] at hread
    rw [SessionM.bind_ok hread, SessionM.get_bind]
    dsimp only
    split <;> rfl

theorem run_refresh : refresh.run = SessionM.refresh := by
  funext s
  have hread : SessionM.appendSeq s = _ := SessionM.counter_eq_match s Header.appendSeqAt
  have hnote := noteSeq_eq_match s
  rw [refresh, run_bind, run_atom, SessionM.refresh]
  cases hseq : Header.counterAt? s.data Header.appendSeqAt with
  | none =>
    rw [hseq] at hread hnote
    rw [SessionM.bind_error hnote, SessionM.bind_error hread]
  | some seq =>
    rw [hseq] at hread hnote
    rw [SessionM.bind_ok hread, SessionM.get_bind]
    by_cases hsame : seq = s.handle.seenSeq
    · rw [if_pos hsame, SessionM.bind_ok (hnote.trans (if_pos hsame))]
      rfl
    · rw [if_neg hsame, SessionM.bind_ok (hnote.trans (if_neg hsame))]
      rfl

/-- Looking a key up once more where nobody has appended finds the same. -/
theorem run_settle (s : Session) (key : Bytes) :
    (settle (s.handle.find? s.data key)).run s = SessionM.find key s := by
  unfold SessionM.find
  rw [SessionM.get_bind]
  cases s.handle.find? s.data key <;> rfl

/-- A refresh that finds nothing new changes nothing. -/
theorem refresh_of_false {s s' : Session} (h : SessionM.refresh s = .ok false s') : s' = s := by
  rw [← run_refresh, refresh, run_bind, run_atom] at h
  have hnote := noteSeq_eq_match s
  cases hseq : Header.counterAt? s.data Header.appendSeqAt with
  | none =>
    rw [hseq] at hnote
    rw [SessionM.bind_error hnote] at h
    cases h
  | some seq =>
    rw [hseq] at hnote
    dsimp only at hnote
    split at hnote
    · rw [SessionM.bind_ok hnote] at h
      exact (EStateM.Result.ok.inj h).2.symm
    · rw [SessionM.bind_ok hnote] at h
      exact absurd (EStateM.Result.ok.inj h).1 (by decide)

theorem run_locate (key : Bytes) (freshness : SessionM.Freshness) :
    (locate key freshness).run = SessionM.locate key freshness := by
  funext s
  simp only [locate, run_bind, run_look, SessionM.locate, SessionM.get_bind]
  have hchecks : (freshness == .always || (s.handle.find? s.data key).isNone) =
      (freshness == .always || !(s.handle.find? s.data key).isSome) := by simp
  rw [hchecks, refreshIf]
  split
  · rw [run_refresh]
    cases hrefresh : SessionM.refresh s with
    | error e s' => rw [SessionM.bind_error hrefresh, SessionM.bind_error hrefresh]
    | ok changed s' =>
      rw [SessionM.bind_ok hrefresh, SessionM.bind_ok hrefresh]
      cases changed with
      | true => rw [if_pos rfl, run_atom]
      | false =>
        obtain rfl := refresh_of_false hrefresh
        exact run_settle _ key
  · exact run_settle s key

/-- A span whose text begins with a live flag. -/
theorem getElem?_of_head? {data : Bytes} {span : Span}
    (h : (span.read data).head? = some liveFlag) : data[span.offset]? = some liveFlag := by
  rw [Span.read, List.head?_take, List.head?_drop] at h
  split at h
  · cases h
  · exact h

/-- A key that is found is live where it is found. -/
theorem live_of_find? {h : Handle} {data key : Bytes} {span : Span}
    (hf : h.find? data key = some span) : data[span.offset]? = some liveFlag := by
  rw [Handle.find?_eq_or, Option.or_eq_some_iff, Option.or_eq_some_iff] at hf
  apply getElem?_of_head?
  have hnamed : Index.Names data h.headLen key span → (span.read data).head? = some liveFlag := by
    intro hnames
    obtain ⟨r, -, htext, hlive, -⟩ := hnames.live
    rw [← htext]
    exact beq_iff_eq.1 hlive
  rcases hf with hcached | ⟨-, hsearch | ⟨-, htail⟩⟩
  · obtain ⟨entry, -, hcheck⟩ := Option.bind_eq_some_iff.1 hcached
    dsimp only at hcheck
    split at hcheck
    · next hok =>
      obtain rfl := Option.some.inj hcheck
      exact hok.2.2.1
    · cases hcheck
  · exact hnamed (Index.names_of_search hsearch).1
  · exact hnamed (Index.names_of_scanTail htail).1

/-- Whatever a lookup finds is live as long as nothing comes between. -/
theorem live_of_locate {s s' : Session} {key : Bytes} {freshness : SessionM.Freshness} {span : Span}
    (h : SessionM.locate key freshness s = .ok (some span) s') :
    s'.data[span.offset]? = some liveFlag := by
  have hfind : ∀ {s : Session}, SessionM.find key s = .ok (some span) s' →
      s'.data[span.offset]? = some liveFlag := by
    intro s h
    obtain ⟨handle, hfind, -, hagain, -⟩ := SessionM.find_cases s key
    obtain ⟨hfound, rfl⟩ := EStateM.Result.ok.inj (hfind.symm.trans h)
    exact live_of_find? (hagain.trans hfound)
  unfold SessionM.locate at h
  rw [SessionM.get_bind] at h
  split at h
  · cases hrefresh : SessionM.refresh s with
    | error e s₁ =>
      rw [SessionM.bind_error hrefresh] at h
      cases h
    | ok changed s₁ =>
      rw [SessionM.bind_ok hrefresh] at h
      exact hfind h
  · exact hfind h

theorem run_locateLocking (key : Bytes) (freshness : SessionM.Freshness) :
    (locateLocking key freshness).run = SessionM.locateLocking key freshness := by
  funext s
  rw [locateLocking, run_bind, run_locate, SessionM.locateLocking]
  cases hlocate : SessionM.locate key freshness s with
  | error e s' => rw [SessionM.bind_error hlocate, SessionM.bind_error hlocate]
  | ok found s' =>
    rw [SessionM.bind_ok hlocate, SessionM.bind_ok hlocate]
    cases found with
    | none => rfl
    | some span =>
      have hlive := live_of_locate hlocate
      dsimp only
      rw [run_bind, run_atom]
      cases hlock : SessionM.acquireRecord span.offset s' with
      | error e s₁ => rw [SessionM.bind_error hlock, SessionM.bind_error hlock]
      | ok granted s₁ =>
        rw [SessionM.bind_ok hlock, SessionM.bind_ok hlock]
        cases granted with
        | false => rfl
        | true =>
          -- taking the lock changed no byte
          have hsame : s₁.data = s'.data := by
            have hrelocks := SessionM.onlyRelocks_acquireRecord span.offset s'
            rw [SessionM.final_ok hlock] at hrelocks
            exact hrelocks.data
          have hlooks : looksLive span.offset s₁ = .ok true s₁ := by
            unfold looksLive
            rw [SessionM.get_bind, hsame, hlive]
            rfl
          rw [if_pos rfl, if_pos rfl, run_bind, run_atom, SessionM.bind_ok hlooks]
          rfl

theorem run_recheck (key : Bytes) (span : Span) :
    (recheck key span).run = SessionM.recheck key span := by
  funext s
  rw [recheck, run_bind, run_atom, SessionM.recheck, SessionM.get_bind]
  have hlooks : looksLive span.offset s =
      .ok (s.data[span.offset]? == some liveFlag) s := rfl
  rw [SessionM.bind_ok hlooks]
  by_cases hlive : s.data[span.offset]? = some liveFlag
  · rw [if_pos (beq_iff_eq.2 hlive), if_pos hlive]
    rfl
  · rw [if_neg (by simpa using hlive), if_neg hlive]
    simp only [run_bind, run_atom, run_move, run_locateLocking]

/-! ### Sorting and appending -/

theorem writeAll_now (s : Session) (patches : List Patch) : (s.writeAll patches).now = s.now := by
  induction patches generalizing s with
  | nil => rfl
  | cons patch more ih => exact ih (s.write patch)

theorem run_sort : sort.run = modify Session.sort := by
  funext s
  simp only [sort, write, run_bind, run_look, run_writeAll, run_move, SessionM.get_bind,
    SessionM.modify_bind]
  have hwrites : s.sort = ((((s.writeAll (slotPatches s)).write
      ⟨Header.sinceSortAt, Hex.word 0⟩).write s.stamp).markModified) := by
    rw [Session.sort, Session.sortPatches, Session.writeAll, List.foldl_append]
    rfl
  have hstamp : ((s.writeAll (slotPatches s)).write ⟨Header.sinceSortAt, Hex.word 0⟩).stamp =
      s.stamp := by
    rw [Session.stamp, Session.stamp]
    exact congrArg (fun now => (⟨Header.modifiedAt, Hex.word (UInt32.ofNat now)⟩ : Patch))
      (writeAll_now s (slotPatches s))
  rw [hstamp]
  exact congrArg (EStateM.Result.ok ()) hwrites.symm

/-- The dead flag of a fragment is decided by the bytes behind the last newline. -/
theorem fragmentDeath_eq {s : Session} {bytes : Bytes} (h : s.data = bytes ++ [newline]) :
    fragmentDeath s bytes.length = if s.handle.headLen ≤ (wholeLines bytes).length ∧
      (openLine bytes).head? = some liveFlag then [⟨(wholeLines bytes).length, [deadFlag]⟩] else [] := by
  have htake : s.data.take bytes.length = bytes := by rw [h, List.take_left]
  have hget : s.data[(wholeLines bytes).length]? = some liveFlag ↔
      (openLine bytes).head? = some liveFlag := by
    rw [h]
    have hsplit : bytes ++ [newline] = wholeLines bytes ++ (openLine bytes ++ [newline]) := by
      rw [← List.append_assoc, wholeLines_append_openLine]
    rw [hsplit, List.getElem?_append_right (Nat.le_refl _), Nat.sub_self, ← List.head?_eq_getElem?,
      List.head?_append]
    cases openLine bytes with
    | nil => decide
    | cons b rest => rfl
  simp only [fragmentDeath, htake, hget]

/-- Mapping the file and forgetting go before a write inside it as well as behind. -/
theorem write_remap_forget {s : Session} {patch : Patch} (h : patch.Fits s.file.bytes) :
    (s.remap.forget).write patch = (s.write patch).remap.forget := by
  have hlen : (s.write patch).file.bytes.length = s.file.bytes.length := by
    rw [Session.write_bytes, Patch.length_apply h]
  simp only [Session.remap, Session.forget, View.remap, hlen]
  rfl

theorem run_sealTail : sealTail.run = SessionM.sealTail := by
  funext s
  rw [sealTail, run_bind, run_look, SessionM.get_bind, SessionM.sealTail, SessionM.get_bind]
  by_cases hends : endsLine s.file.bytes = true
  · rw [if_pos hends, if_pos hends]
    rfl
  · rw [if_neg hends, if_neg hends]
    simp only [write, run_bind, run_look, run_writeAll, run_move, run_pure, SessionM.get_bind,
      SessionM.modify_bind]
    have hbytes : (s.write ⟨s.file.bytes.length, [newline]⟩).file.bytes = s.file.bytes ++ [newline] := by
      rw [Session.write_bytes, Patch.apply_end]
    have hdata : ((s.write ⟨s.file.bytes.length, [newline]⟩).remap.forget).data =
        s.file.bytes ++ [newline] := by
      rw [← hbytes]
      exact List.take_length
    have hwrites : (((s.write ⟨s.file.bytes.length, [newline]⟩).remap.forget).writeAll
        (fragmentDeath ((s.write ⟨s.file.bytes.length, [newline]⟩).remap.forget)
          s.file.bytes.length)) =
        (s.writeAll (sealPatches s.file.bytes s.handle.headLen)).remap.forget := by
      rw [fragmentDeath_eq hdata, sealPatches, Session.writeAll_cons]
      by_cases hdeath : s.handle.headLen ≤ (wholeLines s.file.bytes).length ∧
          (openLine s.file.bytes).head? = some liveFlag
      · rw [if_pos hdeath]
        refine (congrArg (Session.writeAll _) (if_pos hdeath)).trans (write_remap_forget ?_)
        show (wholeLines s.file.bytes).length + 1 ≤ _
        rw [hbytes, List.length_append]
        exact Nat.add_le_add_right (length_wholeLines_le _) 1
      · rw [if_neg hdeath]
        exact congrArg (Session.writeAll _) (if_neg hdeath)
    exact congrArg (EStateM.Result.ok _) hwrites

theorem run_commitLine (offset : Nat) (line : Bytes) (count : UInt32) (old : Option Span) :
    (commitLine offset line count old).run = SessionM.commitLine offset line count old := by
  funext s
  simp only [commitLine, write, run_bind, run_move, run_atom, run_writeAll, SessionM.commitLine,
    SessionM.modify_bind]
  cases hseq : SessionM.appendSeq (s.write ⟨offset, line⟩) with
  | error e s' => rw [SessionM.bind_error hseq, SessionM.bind_error hseq]
  | ok seq s' =>
    rw [SessionM.bind_ok hseq, SessionM.bind_ok hseq]
    cases old <;> rfl

theorem run_unlockingStructure {α : Type} (script : Script α) :
    (unlockingStructure script).run = SessionM.unlockingStructure script.run := by
  simp only [unlockingStructure, run_bind, run_attempt, run_atom, run_pure,
    SessionM.unlockingStructure]

theorem run_resort : resort.run = SessionM.resort := by
  simp only [resort, run_bind, run_refresh, run_sort, SessionM.resort]

theorem run_appendLine (line : Bytes) (count : UInt32) (old : Option Span) :
    (appendLine line count old).run = (do
      let offset ← SessionM.sealTail
      let _ ← SessionM.tryLock offset .exclusive
      match ← SessionM.attempt (SessionM.commitLine offset line count old) with
      | .ok () => pure (some offset)
      | .error e => SessionM.unlock offset; throw e) := by
  simp only [appendLine, run_bind, run_sealTail, run_atom, run_attempt, run_commitLine]
  congr! 6 with offset _ outcome
  cases outcome with
  | ok => rfl
  | error e => rw [run_bind, run_atom, run_fail]

theorem run_appendRecord (key : Bytes) (field : Option Field) :
    (appendRecord key field).run = SessionM.appendRecord key field := by
  simp only [appendRecord, run_bind, run_atom, run_look, run_locate, run_onlyIf, run_sort,
    SessionM.appendRecord, decide_eq_true_eq]
  congr! 6 with count s old
  have hdrafted : ∀ (count : UInt32) (line : Option Bytes),
      (match line with
        | none => pure none
        | some line => appendLine line count old : Script (Option Nat)).run = match line with
        | none => pure none
        | some line => (appendLine line count old).run := by
    intro count line
    cases line <;> rfl
  simp only [hdrafted, run_appendLine]
  split
  · rfl
  · rfl

theorem run_appendLocked (request : WriteRequest) (held : Option Nat) :
    (appendLocked request held).run = SessionM.appendLocked request held := by
  simp only [appendLocked, run_bind, run_unlockingStructure, run_appendRecord,
    SessionM.appendLocked]
  congr! 2 with outcome
  cases outcome with
  | error e =>
    simp only [run_bind, run_onlyIf, run_unlockHeld, run_fail, decide_eq_true_eq]
    split <;> rfl
  | ok appended =>
    simp only [run_bind, run_onlyIf, run_unlockHeld]
    congr! 2
    split <;> rfl

theorem run_append (request : WriteRequest) (held : Option Nat) :
    (append request held).run = SessionM.append request held := by
  simp only [append, run_bind, run_atom, SessionM.append]
  congr! 2 with granted
  cases granted with
  | true => exact run_appendLocked request held
  | false => rfl

/-! ### Calls -/

theorem run_finishInPlace (request : WriteRequest) (span : Span) :
    (finishInPlace request span).run = SessionM.finishInPlace request span := by
  simp only [finishInPlace, run_bind, run_onlyIf, run_atom, SessionM.finishInPlace]
  split <;> rfl

theorem run_update (request : WriteRequest) (span : Span) :
    (update request span).run = SessionM.update request span := by
  unfold update SessionM.update
  cases request.field with
  | none => exact run_finishInPlace request span
  | some field =>
    simp only [run_bind, run_atom]
    congr! 2 with record
    cases record.fieldSpan? field.name with
    | none => exact run_append request _
    | some place =>
      dsimp only
      split
      · simp only [write, run_bind, run_move, run_finishInPlace]
        rfl
      · exact run_append request _

theorem run_writeFound (request : WriteRequest) (found : Option Span) :
    (writeFound request found).run = SessionM.writeFound request found := by
  cases found with
  | none => exact run_append request none
  | some span => exact run_update request span

theorem run_writeLocked (request : WriteRequest) (locked : SessionM.Locked) :
    (writeLocked request locked).run = SessionM.writeLocked request locked := by
  cases locked with
  | absent => exact run_writeFound request none
  | granted span => exact run_writeFound request (some span)
  | busy span => rfl

theorem run_writeRequest (request : WriteRequest) :
    (writeRequest request).run = SessionM.write request := by
  unfold writeRequest SessionM.write
  cases SessionM.requestFault? request with
  | some fault => rfl
  | none =>
    dsimp only [writeSane]
    split
    · simp only [run_bind, run_locateLocking, run_writeLocked]
    · simp only [run_bind, run_locate, run_writeFound]

theorem run_deleteLocked (key : Bytes) (locked : SessionM.Locked) :
    (deleteLocked key locked).run = SessionM.deleteLocked key locked := by
  cases locked with
  | absent => rfl
  | busy span => rfl
  | granted span =>
    simp only [deleteLocked, write, run_bind, run_move, run_atom, SessionM.deleteLocked]
    rfl

theorem run_resortLocked : resortLocked.run = SessionM.resortLocked := by
  simp only [resortLocked, run_bind, run_unlockingStructure, run_resort, SessionM.resortLocked]
  congr! 2 with outcome
  rcases outcome with e | _ <;> rfl

theorem run_readLocked (key : Bytes) (part : Part) (locked : SessionM.Locked) :
    (readLocked key part locked).run = SessionM.readLocked key part locked := by
  cases locked with
  | absent => exact run_atom _
  | granted span => exact run_atom _
  | busy span => rfl

theorem run_read (key : Bytes) (part : Part) (keepLock : Bool) :
    (read key part keepLock).run = SessionM.read key part keepLock := by
  unfold read SessionM.read
  split
  · simp only [run_bind, run_locateLocking, run_readLocked]
  · simp only [run_bind, run_locate, run_atom]

theorem run_decodeAt (offset : Nat) (locked : Bool) :
    (decodeAt offset locked).run = SessionM.decodeAt offset locked := by
  simp only [decodeAt, run_bind, run_look, SessionM.decodeAt]
  congr! 2 with s
  cases Record.decode s.data offset with
  | ok record => rfl
  | error e =>
    simp only [run_bind, run_onlyIf, run_atom]
    split <;> rfl

theorem run_readMapped (offset : Nat) (keepLock : Bool) :
    (readMapped offset keepLock).run = SessionM.readMapped offset keepLock := by
  simp only [readMapped, run_bind, run_look, SessionM.readMapped]
  congr! 2 with s
  split
  · rfl
  · split
    · simp only [run_bind, run_atom]
      congr! 2 with granted
      cases granted with
      | true => exact run_decodeAt offset true
      | false => rfl
    · exact run_decodeAt offset false

theorem run_readAt (offset : Nat) (keepLock : Bool) :
    (readAt offset keepLock).run = SessionM.readAt offset keepLock := by
  simp only [readAt, run_bind, run_look, SessionM.readAt_eq]
  congr! 2 with s
  split
  · simp only [run_bind, run_refresh, run_readMapped]
  · exact run_readMapped offset keepLock

theorem run_records : records.run = SessionM.records := by
  simp only [records, run_bind, run_refresh, run_look, SessionM.records]
  rfl

end Script

open Script in
/-- **A call that is not interrupted** does what its stretch does. -/
theorem Call.run_script (call : Call) : call.script.run = call.start := by
  cases call with
  | read key part keepLock => exact run_read key part keepLock
  | readAt offset keepLock => exact run_readAt offset keepLock
  | records => exact run_records
  | appendSeq => exact (run_bind _ _).trans (by rw [run_atom]; rfl)
  | sinceSort => exact (run_bind _ _).trans (by rw [run_atom]; rfl)
  | refresh => exact (run_bind _ _).trans (by rw [run_refresh]; rfl)
  | lock offset =>
    simp only [Call.script, run_bind, run_atom, Call.start]
    congr! 2 with granted
    cases granted <;> rfl
  | unlock offset => exact (run_bind _ _).trans (by rw [run_atom]; rfl)
  | write request => exact run_writeRequest request
  | delete key => simp only [Call.script, run_bind, run_locateLocking, run_deleteLocked, Call.start]
  | resort =>
    simp only [Call.script, run_bind, run_atom, Call.start]
    congr! 2 with granted
    cases granted with
    | true => exact run_resortLocked
    | false => rfl

open Script in
theorem Stage.run_grantedScript (stage : Stage) : stage.grantedScript.run = stage.granted := by
  cases stage with
  | reading key part span =>
    simp only [Stage.grantedScript, run_bind, run_recheck, run_readLocked, Stage.granted]
  | readingAt offset => exact run_decodeAt offset true
  | locking offset => rfl
  | writing request span =>
    simp only [Stage.grantedScript, run_bind, run_recheck, run_writeLocked, Stage.granted]
  | deleting key span =>
    simp only [Stage.grantedScript, run_bind, run_recheck, run_deleteLocked, Stage.granted]
  | appending request held => exact run_appendLocked request held
  | resorting => exact run_resortLocked

open Script in
/-- **A call that goes on from a wait** and is not interrupted does what its stretch does. -/
theorem Stage.run_script (stage : Stage) : stage.script.run = stage.resume := by
  simp only [Stage.script, run_bind, run_atom, Stage.resume]
  congr! 2 with granted
  cases granted with
  | true => exact stage.run_grantedScript
  | false => rfl

end RecordStore
