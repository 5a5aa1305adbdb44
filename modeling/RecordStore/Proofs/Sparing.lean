import Mathlib.Tactic.Common
import RecordStore.Proofs.Boundaries
import RecordStore.Proofs.Endings

/-!
# What calls leave alone

Whatever a call writes or locks stands behind the header line, apart from the counters in the header,
the structural lock, and the locks that it is told to take.  This needs no record to be sound: a handle
that starts behind the header line finds nothing before it, whatever is written to the file meanwhile.

* `HeaderLine` — the first line of a file is as long as a header.
* `LockTable.presence` — the locks of the first bytes, which clients share while they have a store open.
* `Session.Behind` — a session that looks behind the header line.
* `SessionM.Behind` — a computation that stays there and leaves the locks of the first bytes alone.

Principal result: `Call.stretch_behind` — every stretch of every call.
-/

set_option autoImplicit false

namespace RecordStore

/-! ## The header line -/

/-- The first line of a file is as long as a header. -/
def HeaderLine (bytes : Bytes) : Prop := headLength? bytes = some Header.length

/-- A write to the records, or to a part of the header that is not its last byte. -/
def Patch.Tame (patch : Patch) : Prop :=
  Header.length ≤ patch.offset ∨
    (patch.offset + patch.data.length < Header.length ∧ newline ∉ patch.data)

namespace HeaderLine

variable {bytes : Bytes}

theorem newline (h : HeaderLine bytes) : bytes[Header.length - 1]? = some RecordStore.newline :=
  (headLength?_eq_some_iff.1 h).2.1

theorem length_le (h : HeaderLine bytes) : Header.length ≤ bytes.length := by
  have hlt := (List.getElem?_eq_some_iff.1 h.newline).1
  have hpos : 0 < Header.length := by decide
  omega

theorem ne_nil (h : HeaderLine bytes) : bytes ≠ [] :=
  List.ne_nil_of_length_pos (Nat.lt_of_lt_of_le (by decide) h.length_le)

theorem apply (h : HeaderLine bytes) {patch : Patch} (hpatch : patch.Tame) :
    HeaderLine (patch.apply bytes) := by
  obtain ⟨hpos, hat, hbefore⟩ := headLength?_eq_some_iff.1 h
  rcases hpatch with hbehind | ⟨hinside, hfree⟩
  · have hsame : ∀ i, i < Header.length → (patch.apply bytes)[i]? = bytes[i]? := by
      intro i hi
      have htake := congrArg (·[i]?) (Patch.take_apply hbehind h.length_le)
      rwa [List.getElem?_take_of_lt hi, List.getElem?_take_of_lt hi] at htake
    refine headLength?_eq_some_iff.2 ⟨hpos, (hsame _ (by decide)).trans hat, fun i hi => ?_⟩
    rw [hsame i (Nat.lt_of_lt_of_le hi (Nat.sub_le _ _))]
    exact hbefore i hi
  · have hfits : patch.Fits bytes := Nat.le_trans (Nat.le_of_lt hinside) h.length_le
    refine headLength?_eq_some_iff.2 ⟨hpos, ?_, fun i hi => ?_⟩
    · rw [Patch.getElem?_apply hfits, if_neg (by omega)]
      exact hat
    · rw [Patch.getElem?_apply hfits]
      split
      · exact fun hnewline => hfree (List.mem_of_getElem? hnewline)
      · exact hbefore i hi

theorem applyAll (h : HeaderLine bytes) {patches : List Patch}
    (hpatches : ∀ patch ∈ patches, patch.Tame) : HeaderLine (Patch.applyAll patches bytes) := by
  induction patches generalizing bytes with
  | nil => exact h
  | cons patch more ih =>
    rw [List.forall_mem_cons] at hpatches
    exact ih (h.apply hpatches.1) hpatches.2

/-- What is seen of the file has the same header line. -/
theorem take (h : HeaderLine bytes) {n : Nat} (hn : Header.length ≤ n) : HeaderLine (bytes.take n) :=
  headLength?_take h hn

end HeaderLine

/-- The counters are tame. -/
theorem tame_word {offset : Nat} (h : offset + Hex.wordLen < Header.length) (v : UInt32) :
    (⟨offset, Hex.word v⟩ : Patch).Tame :=
  .inr ⟨by rw [Hex.length_word]; exact h, Hex.newline_notMem_word v⟩

/-- A sort writes slots of lines behind the header, and two counters. -/
theorem tame_sort (data : Bytes) (now : Nat) :
    ∀ patch ∈ (Index.sortPlan data Header.length).map Index.slotPatch ++
      [⟨Header.sinceSortAt, Hex.word 0⟩, ⟨Header.modifiedAt, Hex.word (UInt32.ofNat now)⟩],
      patch.Tame := by
  intro patch hpatch
  rcases List.mem_append.1 hpatch with hslot | hcounter
  · obtain ⟨⟨offset, target⟩, hplace, rfl⟩ := List.mem_map.1 hslot
    obtain ⟨line, hline, rfl⟩ := List.mem_map.1 (List.of_mem_zip hplace).1
    have hle := (mem_linesFrom_iff.1 (List.mem_filter.1 hline).1).1
    exact .inl (Nat.le_trans hle (Nat.le_add_right _ _))
  · simp only [List.mem_cons, List.not_mem_nil, or_false] at hcounter
    rcases hcounter with rfl | rfl
    · exact tame_word (by decide) 0
    · exact tame_word (by decide) _

/-! ## The locks of the first bytes -/

namespace LockTable

variable {table : LockTable} {holder : HolderId} {offset : Nat} {kind : LockKind}

/-- The locks of the bytes that every client shares while it has the store open. -/
def presence (table : LockTable) : List ByteLock := table.held.filter fun lock => lock.byte < lockLen

theorem mem_presence_iff {lock : ByteLock} :
    lock ∈ table.presence ↔ lock ∈ table.held ∧ lock.byte < lockLen := by
  rw [presence, List.mem_filter, decide_eq_true_iff]

theorem presence_clear (h : lockLen ≤ offset) : (table.clear holder offset).presence = table.presence := by
  rw [presence, presence, clear, List.filter_filter]
  refine List.filter_congr fun lock _ => ?_
  by_cases hbyte : lock.byte < lockLen
  · simp [covers, Nat.not_le.2 (Nat.lt_of_lt_of_le hbyte h)]
  · simp [hbyte]

theorem presence_set (h : lockLen ≤ offset) :
    (table.set holder offset kind).presence = table.presence := by
  have hnew : ((List.range' offset lockLen).map fun byte => (⟨holder, byte, kind⟩ : ByteLock)).filter
      (fun lock => lock.byte < lockLen) = [] := by
    rw [List.filter_eq_nil_iff]
    intro lock hl
    obtain ⟨byte, hbyte, rfl⟩ := List.mem_map.1 hl
    have hle := (List.mem_range'_1.1 hbyte).1
    simp only [decide_eq_true_eq]
    omega
  rw [← @presence_clear table holder offset h, presence, set, List.filter_append, hnew,
    List.nil_append]
  rfl

/-- Nobody else has a lock on the first bytes just where an exclusive lock of them is free. -/
theorem blocks_presence_exclusive_iff : table.blocks holder presenceOffset .exclusive = true ↔
    ∃ lock ∈ table.presence, lock.holder ≠ holder := by
  simp only [blocks, List.any_eq_true, Bool.and_eq_true, bne_iff_ne, covers_iff, mem_presence_iff]
  constructor
  · rintro ⟨lock, hl, ⟨hne, hcov⟩, -⟩
    exact ⟨lock, ⟨hl, by simpa [presenceOffset] using hcov.2⟩, hne⟩
  · rintro ⟨lock, ⟨hl, hbyte⟩, hne⟩
    exact ⟨lock, hl, ⟨hne, ⟨Nat.zero_le _, by simpa [presenceOffset] using hbyte⟩⟩, by simp⟩

end LockTable

/-! ## Sessions behind the header line -/

/-- A handle that knows the length of the header line, and looks behind it. -/
structure Handle.Behind (h : Handle) : Prop where
  headLen : h.headLen = Header.length
  sees : Header.length ≤ h.view.length
  cache : ∀ entry, h.cache = some entry → Header.length ≤ entry.span.offset

namespace Handle.Behind

variable {h h' : Handle} {bytes key : Bytes}

/-- What such a handle finds stands behind the header line. -/
theorem find? (hh : h.Behind) (hline : HeaderLine bytes) {span : Span}
    (hfound : h.find? (h.view.read bytes) key = some span) : Header.length ≤ span.offset := by
  have hdata := hline.take hh.sees
  rw [find?_eq_or, hh.headLen, Option.or_eq_some_iff, Option.or_eq_some_iff] at hfound
  rcases hfound with hcached | ⟨-, hsearch | ⟨-, htail⟩⟩
  · obtain ⟨entry, hentry, hcheck⟩ := Option.bind_eq_some_iff.1 hcached
    dsimp only at hcheck
    split at hcheck
    · obtain rfl := Option.some.inj hcheck
      exact hh.cache entry hentry
    · cases hcheck
  · unfold Index.search at hsearch
    split at hsearch
    · cases hsearch
    · obtain ⟨r, hr, -, rfl⟩ := Index.searchRegion_sound hdata.newline hsearch
      exact (mem_linesFrom_iff.1 (mem_liveRecordsFrom_iff.1 hr).1).1
  · obtain ⟨r, hr, -, -, rfl⟩ := Index.scanTail_sound hdata.length_le htail
    exact (mem_linesFrom_iff.1 (mem_recordsFrom_iff.1 hr).1).1

theorem looks (hh : h.Behind) (hline : HeaderLine bytes) (hl : h.Looks bytes h') : h'.Behind := by
  refine hl.preserves ?_ hh
  intro a b hab ha
  cases hab with
  | remap => exact ⟨ha.headLen, hline.length_le, by rintro _ ⟨⟩⟩
  | remember found => exact ⟨ha.headLen, ha.sees, by rintro _ ⟨⟩; exact ha.find? hline found⟩
  | forget => exact ⟨ha.headLen, ha.sees, by rintro _ ⟨⟩⟩

end Handle.Behind

/-- The session's handle looks behind the header line, and these are the locks of the first bytes. -/
structure Session.Behind (s : Session) (presence : List ByteLock) : Prop where
  handle : s.handle.Behind
  line : HeaderLine s.file.bytes
  presence : s.file.locks.presence = presence

namespace Session.Behind

variable {s : Session} {presence : List ByteLock}

theorem withHandle (h : s.Behind presence) {handle : Handle} (hh : handle.Behind) :
    (s.withHandle handle).Behind presence := ⟨hh, h.line, h.presence⟩

theorem markModified (h : s.Behind presence) : s.markModified.Behind presence :=
  h.withHandle ⟨h.handle.headLen, h.handle.sees, h.handle.cache⟩

theorem forget (h : s.Behind presence) : s.forget.Behind presence :=
  h.withHandle ⟨h.handle.headLen, h.handle.sees, by rintro _ ⟨⟩⟩

theorem remap (h : s.Behind presence) : s.remap.Behind presence :=
  h.withHandle ⟨h.handle.headLen, h.line.length_le, h.handle.cache⟩

theorem writeAll (h : s.Behind presence) {patches : List Patch}
    (hpatches : ∀ patch ∈ patches, patch.Tame) : (s.writeAll patches).Behind presence := by
  obtain ⟨hlocks, hhandle, -⟩ := s.writeAll_frame patches
  refine ⟨?_, ?_, ?_⟩
  · rw [hhandle]
    exact h.handle
  · rw [s.writeAll_bytes]
    exact h.line.applyAll hpatches
  · rw [hlocks]
    exact h.presence

theorem write (h : s.Behind presence) {patch : Patch} (hpatch : patch.Tame) :
    (s.write patch).Behind presence :=
  h.writeAll fun _ hmem => List.mem_singleton.1 hmem ▸ hpatch

theorem hold (h : s.Behind presence) {offset : Nat} (ho : lockLen ≤ offset) :
    (s.hold offset).Behind presence :=
  ⟨h.handle, h.line, (LockTable.presence_set ho).trans h.presence⟩

theorem free (h : s.Behind presence) {offset : Nat} (ho : lockLen ≤ offset) :
    (s.free offset).Behind presence :=
  ⟨h.handle, h.line, (LockTable.presence_clear ho).trans h.presence⟩

theorem sort (h : s.Behind presence) : s.sort.Behind presence := by
  have hpatches : s.sortPatches = (Index.sortPlan s.data Header.length).map Index.slotPatch ++
      [⟨Header.sinceSortAt, Hex.word 0⟩, ⟨Header.modifiedAt, Hex.word (UInt32.ofNat s.now)⟩] := by
    rw [Session.sortPatches, h.handle.headLen]
    rfl
  refine (h.writeAll ?_).markModified
  rw [hpatches]
  exact tame_sort s.data s.now

/-- The last line is closed at the end of the file, and it dies behind the header. -/
theorem sealed (h : s.Behind presence) : s.sealed.Behind presence := by
  unfold Session.sealed
  split
  · exact h
  · refine ((h.writeAll fun patch hpatch => ?_).remap).forget
    rcases List.mem_cons.1 hpatch with rfl | hdead
    · exact .inl h.line.length_le
    · split at hdead
      · next hlive =>
        rw [List.mem_singleton.1 hdead]
        exact .inl (h.handle.headLen ▸ hlive.1)
      · cases hdead

end Session.Behind

/-! ## Computations behind the header line -/

/-- A stage that waits for no lock of the first bytes, and goes on behind the header line. -/
def Stage.Behind : Stage → Prop
  | .reading _ _ span | .writing _ span | .deleting _ span => Header.length ≤ span.offset
  | .readingAt offset => Header.length ≤ offset
  | .locking offset => lockLen ≤ offset
  | .appending _ held => ∀ offset, held = some offset → Header.length ≤ offset
  | .resorting => True

/-- A call that waits does so behind the header line. -/
def Progress.Behind : Progress → Prop
  | .answered _ => True
  | .waiting stage => stage.Behind

theorem lockLen_le_of_header_le {offset : Nat} (h : Header.length ≤ offset) : lockLen ≤ offset :=
  Nat.le_trans (by decide) h

namespace SessionM

/-- Wherever the computation ends, its session is behind the header line and the locks of the first
bytes are what they were. -/
def Behind {α : Type} (act : SessionM α) (post : α → Prop) : Prop :=
  ∀ s presence, s.Behind presence →
    Brings act s (fun a s' => s'.Behind presence ∧ post a) fun _ s' => s'.Behind presence

namespace Behind

variable {α β : Type} {act : SessionM α} {next : α → SessionM β} {post : α → Prop}
  {last : β → Prop}

theorem pure {a : α} (ha : post a) : Behind (pure a) post := fun _ _ h => .of_ok rfl ⟨h, ha⟩

theorem throw (e : Error) : Behind (throw e) post := fun _ _ h => .of_error rfl h

theorem bind (h : Behind act post) (hnext : ∀ a, post a → Behind (next a) last) :
    Behind (act >>= next) last :=
  fun s presence hs => (h s presence hs).bind fun a s' ha => hnext a ha.2 s' presence ha.1

theorem get_bind {next : Session → SessionM α} (h : ∀ s, Behind (next s) post) :
    Behind (get >>= next) post := fun s presence hs => .get_bind (h s s presence hs)

theorem modify_bind {f : Session → Session} {next : PUnit → SessionM α}
    (hf : ∀ s presence, s.Behind presence → (f s).Behind presence) (h : Behind (next ⟨⟩) post) :
    Behind (modify f >>= next) post := fun s presence hs => .modify_bind (h _ _ (hf s presence hs))

/-- A step that is taken at most. -/
theorem ite_modify_bind {c : Prop} [Decidable c] {f : Session → Session} {next : PUnit → SessionM α}
    (hf : ∀ s presence, s.Behind presence → (f s).Behind presence) (h : Behind (next ⟨⟩) post) :
    Behind (if c then modify f >>= next else next ⟨⟩) post := by
  split
  · exact .modify_bind hf h
  · exact h

theorem attempt (h : Behind act post) :
    Behind (attempt act) fun result => ∀ a, result = .ok a → post a := by
  intro s presence hs
  refine (h s presence hs).attempt.mono ?_ (fun _ _ => id)
  rintro (e | a) s' h'
  · exact ⟨h', by rintro _ ⟨⟩⟩
  · exact ⟨h'.1, by rintro _ ⟨⟩; exact h'.2⟩

/-- A computation that only looks, and takes no lock. -/
theorem of_looks (hlooks : OnlyLooks act) (hsees : OnlySees act) : Behind act fun _ => True := by
  intro s presence hs
  have hlook := hlooks s
  obtain ⟨handle, hsee⟩ := hsees s
  have hbehind : (final act s).Behind presence := by
    have hhandle := hlook.handle
    rw [hsee] at hhandle ⊢
    exact hs.withHandle (hs.handle.looks hs.line hhandle)
  unfold Brings
  cases hact : act s with
  | ok a s' =>
    rw [final_ok hact] at hbehind
    exact ⟨hbehind, trivial⟩
  | error e s' => rwa [final_error hact] at hbehind

end Behind

section Steps

variable {request : WriteRequest} {span : Span} {key : Bytes} {offset : Nat}

/-! ### Locks -/

theorem behind_tryLock (ho : lockLen ≤ offset) : Behind (tryLock offset .exclusive) fun _ => True := by
  intro s presence hs
  refine (tryLock_brings s offset).mono ?_ ?_
  · rintro granted s' ⟨-, rfl⟩
    refine ⟨?_, trivial⟩
    split
    · exact hs.hold ho
    · exact hs
  · rintro _ _ ⟨rfl, -⟩
    exact hs

theorem behind_unlock (ho : lockLen ≤ offset) : Behind (unlock offset) fun _ => True := by
  intro s presence hs
  cases hfault : lockFault? offset with
  | some fault =>
    refine .of_error (e := .lock fault) ?_ hs
    unfold unlock
    rw [hfault]
    rfl
  | none => exact .of_ok (unlock_eq s hfault) ⟨hs.free ho, trivial⟩

theorem behind_forM_unlock {held : Option Nat} (hheld : ∀ o, held = some o → lockLen ≤ o) :
    Behind (held.forM unlock : SessionM PUnit) fun _ => True := by
  cases held with
  | none => exact .pure trivial
  | some offset => exact behind_unlock (hheld offset rfl)

theorem behind_acquireRecord (ho : lockLen ≤ offset) : Behind (acquireRecord offset) fun _ => True := by
  refine (behind_tryLock ho).bind fun granted _ => .get_bind fun s => ?_
  split
  · exact .throw _
  · exact .pure trivial

theorem behind_unlockingStructure {α : Type} {act : SessionM α} {post : α → Prop}
    (h : Behind act post) :
    Behind (unlockingStructure act) fun result => ∀ a, result = .ok a → post a :=
  h.attempt.bind fun _ hresult =>
    (behind_unlock (Nat.le_refl _)).bind fun _ _ => .pure hresult

/-! ### Lookups -/

theorem behind_counter (offset : Nat) : Behind (counter offset) fun _ => True :=
  .of_looks (onlyRelocks_counter offset).onlyLooks (onlySees_counter offset)

theorem behind_refresh : Behind refresh fun _ => True := .of_looks onlyLooks_refresh onlySees_refresh

theorem behind_find (key : Bytes) :
    Behind (find key) fun found => ∀ span, found = some span → Header.length ≤ span.offset := by
  intro s presence hs
  obtain ⟨h, heq, hlooks, -, -⟩ := find_cases s key
  exact .of_ok heq ⟨hs.withHandle (hs.handle.looks hs.line hlooks),
    fun span hfound => hs.handle.find? hs.line hfound⟩

theorem behind_locate (key : Bytes) (freshness : Freshness) : Behind (locate key freshness)
    fun found => ∀ span, found = some span → Header.length ≤ span.offset := by
  refine .get_bind fun s => ?_
  dsimp only
  split
  · exact behind_refresh.bind fun _ _ => behind_find key
  · exact behind_find key

theorem behind_recordAt (span : Span) : Behind (recordAt span) fun _ => True := by
  refine .get_bind fun s => ?_
  cases Record.decode s.data span.offset with
  | ok record => exact .pure trivial
  | error e => exact .throw e

/-- What a lookup that locks comes to stands behind the header line. -/
def BehindLocked : Locked → Prop
  | .absent => True
  | .granted span | .busy span => Header.length ≤ span.offset

theorem behind_locateLocking (key : Bytes) (freshness : Freshness) :
    Behind (locateLocking key freshness) BehindLocked := by
  refine (behind_locate key freshness).bind fun found hfound => ?_
  cases found with
  | none => exact .pure trivial
  | some span =>
    have hspan := hfound span rfl
    refine (behind_acquireRecord (lockLen_le_of_header_le hspan)).bind fun granted _ => ?_
    cases granted <;> exact .pure hspan

theorem behind_recheck (hspan : Header.length ≤ span.offset) (key : Bytes) :
    Behind (recheck key span) BehindLocked := by
  refine .get_bind fun s => ?_
  split
  · exact .pure hspan
  · exact (behind_unlock (lockLen_le_of_header_le hspan)).bind fun _ _ =>
      .modify_bind (fun _ _ => Session.Behind.forget) (behind_locateLocking key .always)

/-! ### Appending -/

theorem behind_lineToAppend (key : Bytes) (field : Option Field) (old : Option Span) :
    Behind (lineToAppend key field old) fun _ => True := by
  cases old with
  | none => exact .pure trivial
  | some span =>
    cases field with
    | none => exact .pure trivial
    | some field => exact (behind_recordAt span).bind fun _ _ => .pure trivial

/-- The last line is closed behind the header line, and the next one goes there. -/
theorem behind_sealTail : Behind sealTail fun offset => Header.length ≤ offset := fun s _ hs =>
  .of_ok (sealTail_sealed s) ⟨hs.sealed, hs.sealed.line.length_le⟩

theorem tame_publishPatches (seq count : UInt32) {old : Option Span}
    (hold : ∀ span, old = some span → Header.length ≤ span.offset) :
    ∀ patch ∈ publishPatches seq count old, patch.Tame := by
  intro patch hpatch
  simp only [publishPatches, List.mem_append, List.mem_cons, List.not_mem_nil, or_false,
    Option.mem_toList, Option.map_eq_some_iff] at hpatch
  rcases hpatch with (rfl | rfl) | ⟨span, hspan, rfl⟩
  · exact tame_word (by decide) _
  · exact tame_word (by decide) _
  · exact .inl (hold span hspan)

theorem behind_commitLine (ho : Header.length ≤ offset) (line : Bytes) (count : UInt32)
    {old : Option Span} (hold : ∀ span, old = some span → Header.length ≤ span.offset) :
    Behind (commitLine offset line count old) fun _ => True := by
  refine .modify_bind (fun _ _ hs => hs.write (.inl ho)) ?_
  refine (behind_counter _).bind fun seq _ => ?_
  intro s presence hs
  exact .of_ok rfl ⟨(hs.writeAll (tame_publishPatches seq count hold)).markModified, trivial⟩

theorem behind_appendRecord (key : Bytes) (field : Option Field) : Behind (appendRecord key field)
    fun appended => ∀ o, appended = some o → Header.length ≤ o := by
  refine (behind_counter _).bind fun count _ => .get_bind fun s => ?_
  refine (behind_locate key _).bind fun old hold => ?_
  refine .ite_modify_bind (fun _ _ => Session.Behind.sort) ?_
  refine (behind_lineToAppend key field old).bind fun line _ => ?_
  cases line with
  | none => exact .pure (by rintro o ⟨⟩)
  | some line =>
    refine behind_sealTail.bind fun offset ho => ?_
    refine (behind_tryLock (lockLen_le_of_header_le ho)).bind fun _ _ => ?_
    refine (behind_commitLine ho line _ hold).attempt.bind fun result _ => ?_
    cases result with
    | ok _ => exact .pure (by rintro _ ⟨⟩; exact ho)
    | error e => exact (behind_unlock (lockLen_le_of_header_le ho)).bind fun _ _ => .throw e

/-! ### Writing -/

theorem behind_answer (a : Answer) : Behind (answer a) Progress.Behind := .pure trivial

theorem behind_wait {stage : Stage} (h : stage.Behind) : Behind (wait stage) Progress.Behind := .pure h

theorem behind_appendLocked {held : Option Nat} (hheld : ∀ o, held = some o → Header.length ≤ o) :
    Behind (appendLocked request held) Progress.Behind := by
  have hfree : Behind (held.forM unlock : SessionM PUnit) fun _ => True :=
    behind_forM_unlock fun o ho => lockLen_le_of_header_le (hheld o ho)
  refine (behind_unlockingStructure (behind_appendRecord request.key request.field)).bind
    fun result hresult => ?_
  cases result with
  | error e =>
    dsimp only
    split
    · exact hfree.bind fun _ _ => .throw e
    · exact .throw e
  | ok appended =>
    have hnew : ∀ o, appended = some o → lockLen ≤ o :=
      fun o ho => lockLen_le_of_header_le (hresult appended rfl o ho)
    refine hfree.bind fun _ _ => ?_
    split
    · exact (behind_forM_unlock hnew).bind fun _ _ => behind_answer .done
    · exact behind_answer .done

theorem behind_append {held : Option Nat} (hheld : ∀ o, held = some o → Header.length ≤ o) :
    Behind (append request held) Progress.Behind := by
  refine (behind_tryLock (Nat.le_refl _)).bind fun granted _ => ?_
  split
  · exact behind_appendLocked hheld
  · exact behind_wait hheld

theorem behind_finishInPlace (hspan : Header.length ≤ span.offset) :
    Behind (finishInPlace request span) Progress.Behind := by
  unfold finishInPlace
  split
  · exact (behind_unlock (lockLen_le_of_header_le hspan)).bind fun _ _ => behind_answer .done
  · exact behind_answer .done

theorem behind_update (hspan : Header.length ≤ span.offset) :
    Behind (update request span) Progress.Behind := by
  have hheld : ∀ o, some span.offset = some o → Header.length ≤ o := by
    rintro _ ⟨⟩
    exact hspan
  unfold update
  cases request.field with
  | none => exact behind_finishInPlace hspan
  | some field =>
    refine (behind_recordAt span).bind fun record _ => ?_
    cases record.fieldSpan? field.name with
    | none => exact behind_append hheld
    | some place =>
      dsimp only
      split
      · refine .modify_bind (fun _ _ hs => (hs.write ?_).markModified) (behind_finishInPlace hspan)
        exact .inl (Nat.le_trans hspan (Nat.le_add_right _ _))
      · exact behind_append hheld

theorem behind_writeFound (found : Option Span)
    (h : ∀ span, found = some span → Header.length ≤ span.offset) :
    Behind (writeFound request found) Progress.Behind := by
  cases found with
  | none => exact behind_append (by rintro o ⟨⟩)
  | some span => exact behind_update (h span rfl)

theorem behind_writeLocked {locked : Locked} (h : BehindLocked locked) :
    Behind (writeLocked request locked) Progress.Behind := by
  cases locked with
  | absent => exact behind_writeFound none (by rintro span ⟨⟩)
  | granted span => exact behind_writeFound (some span) (by rintro _ ⟨⟩; exact h)
  | busy span => exact behind_wait h

theorem behind_write (request : WriteRequest) : Behind (write request) Progress.Behind := by
  unfold write
  split
  · exact .throw _
  · split
    · exact (behind_locateLocking request.key .ifMissing).bind fun _ => behind_writeLocked
    · exact (behind_locate request.key .ifMissing).bind fun found => behind_writeFound found

theorem behind_deleteLocked {locked : Locked} (h : BehindLocked locked) (key : Bytes) :
    Behind (deleteLocked key locked) Progress.Behind := by
  cases locked with
  | absent => exact behind_answer _
  | busy span => exact behind_wait h
  | granted span =>
    have hspan : Header.length ≤ span.offset := h
    refine .modify_bind (fun _ _ hs => (hs.write (.inl hspan)).forget) ?_
    exact (behind_unlock (lockLen_le_of_header_le hspan)).bind fun _ _ =>
      .modify_bind (fun _ _ => Session.Behind.markModified) (behind_answer _)

theorem behind_resortLocked : Behind resortLocked Progress.Behind := by
  have hresort : Behind resort fun _ => True := behind_refresh.bind fun _ _ s presence hs =>
    .of_ok rfl ⟨hs.sort, trivial⟩
  refine (behind_unlockingStructure hresort).bind fun result _ => ?_
  cases result with
  | error e => exact .throw e
  | ok _ => exact behind_answer .done

/-! ### Reading -/

theorem behind_readFound (part : Part) (found : Option Span) :
    Behind (readFound part found) Progress.Behind := by
  cases found with
  | none => exact behind_answer _
  | some span => exact (behind_recordAt span).bind fun _ _ => behind_answer _

theorem behind_readLocked {locked : Locked} (h : BehindLocked locked) (key : Bytes) (part : Part) :
    Behind (readLocked key part locked) Progress.Behind := by
  cases locked with
  | absent => exact behind_readFound part none
  | granted span => exact behind_readFound part (some span)
  | busy span => exact behind_wait h

theorem behind_decodeAt {locked : Bool} (ho : locked = true → Header.length ≤ offset) :
    Behind (decodeAt offset locked) Progress.Behind := by
  refine .get_bind fun s => ?_
  cases Record.decode s.data offset with
  | ok record => exact behind_answer _
  | error e =>
    dsimp only
    split
    · next hlocked =>
      exact (behind_unlock (lockLen_le_of_header_le (ho hlocked))).bind fun _ _ => behind_answer _
    · exact behind_answer _

/-- A lookup by offset refuses what stands before the records. -/
theorem behind_readMapped (offset : Nat) (keepLock : Bool) :
    Behind (readMapped offset keepLock) Progress.Behind := by
  intro s presence hs
  unfold readMapped
  refine .get_bind ?_
  dsimp only
  by_cases hout : (offset < s.handle.headLen || s.handle.view.length ≤ offset) = true
  · rw [if_pos hout]
    exact behind_answer _ s presence hs
  · rw [if_neg hout]
    have hbehind : Header.length ≤ offset := by
      rw [Bool.or_eq_true, not_or, decide_eq_true_iff, hs.handle.headLen] at hout
      exact Nat.not_lt.1 hout.1
    cases keepLock with
    | false => exact behind_decodeAt (by rintro ⟨⟩) s presence hs
    | true =>
      refine ((behind_acquireRecord (lockLen_le_of_header_le hbehind)).bind fun granted _ => ?_)
        s presence hs
      split
      · exact behind_decodeAt fun _ => hbehind
      · exact behind_wait hbehind

theorem behind_readAt (offset : Nat) (keepLock : Bool) :
    Behind (readAt offset keepLock) Progress.Behind := by
  rw [readAt_eq]
  refine .get_bind fun s => ?_
  split
  · exact behind_refresh.bind fun _ _ => behind_readMapped offset keepLock
  · exact behind_readMapped offset keepLock

end Steps

end SessionM

/-! ## Calls -/

/-- A call that is not told to lock or unlock any of the first bytes. -/
def Call.SparesPresence : Call → Prop
  | .lock offset | .unlock offset => lockLen ≤ offset
  | _ => True

instance : DecidablePred Call.SparesPresence
  | .lock offset | .unlock offset => inferInstanceAs (Decidable (lockLen ≤ offset))
  | .read .. | .readAt .. | .records | .appendSeq | .sinceSort | .refresh | .write _ | .delete _
  | .resort => isTrue trivial

section Calls

open SessionM

theorem Call.start_behind {call : Call} (hcall : call.SparesPresence) :
    SessionM.Behind call.start Progress.Behind := by
  cases call with
  | read key part keepLock =>
    show SessionM.Behind (SessionM.read key part keepLock) _
    unfold SessionM.read
    split
    · exact (behind_locateLocking key .ifMissing).bind fun _ h => behind_readLocked h key part
    · exact (behind_locate key .ifMissing).bind fun _ _ => behind_readFound part _
  | readAt offset keepLock => exact behind_readAt offset keepLock
  | records => exact behind_refresh.bind fun _ _ => .get_bind fun s => behind_answer _
  | appendSeq => exact (behind_counter _).bind fun _ _ => behind_answer _
  | sinceSort => exact (behind_counter _).bind fun _ _ => behind_answer _
  | refresh => exact behind_refresh.bind fun _ _ => behind_answer _
  | lock offset =>
    refine (behind_acquireRecord hcall).bind fun granted _ => ?_
    split
    · exact behind_answer _
    · exact behind_wait hcall
  | unlock offset => exact (behind_unlock hcall).bind fun _ _ => behind_answer _
  | write request => exact behind_write request
  | delete key =>
    exact (behind_locateLocking key .ifMissing).bind fun _ h => behind_deleteLocked h key
  | resort =>
    refine (behind_tryLock (Nat.le_refl _)).bind fun granted _ => ?_
    split
    · exact behind_resortLocked
    · exact behind_wait trivial

theorem Stage.granted_behind {stage : Stage} (h : stage.Behind) :
    SessionM.Behind stage.granted Progress.Behind := by
  cases stage with
  | reading key part span => exact (behind_recheck h key).bind fun _ h => behind_readLocked h key part
  | readingAt offset => exact behind_decodeAt fun _ => h
  | locking offset => exact behind_answer _
  | writing request span =>
    exact (behind_recheck h request.key).bind fun _ => behind_writeLocked
  | deleting key span => exact (behind_recheck h key).bind fun _ h => behind_deleteLocked h key
  | appending request held => exact behind_appendLocked h
  | resorting => exact behind_resortLocked

theorem Stage.Behind.lockLen_le {stage : Stage} (h : stage.Behind) : lockLen ≤ stage.offset := by
  cases stage with
  | reading | readingAt | writing | deleting => exact lockLen_le_of_header_le h
  | locking => exact h
  | appending | resorting => exact Nat.le_refl _

theorem Stage.resume_behind {stage : Stage} (h : stage.Behind) :
    SessionM.Behind stage.resume Progress.Behind := by
  refine (behind_tryLock h.lockLen_le).bind fun granted _ => ?_
  split
  · exact Stage.granted_behind h
  · exact behind_wait h

/-- **Every stretch of every call** that spares the first bytes stays behind the header line. -/
theorem Call.stretch_behind {call : Call} {pending : Option Stage}
    (hcall : pending = none → call.SparesPresence)
    (hpending : ∀ stage, pending = some stage → stage.Behind) :
    SessionM.Behind (call.stretch pending) Progress.Behind := by
  cases pending with
  | none => exact Call.start_behind (hcall rfl)
  | some stage => exact stage.resume_behind (hpending stage rfl)

end Calls

end RecordStore
