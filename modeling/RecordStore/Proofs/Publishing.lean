import Mathlib.Tactic.Common
import RecordStore.Proofs.Patches
import RecordStore.Proofs.Sessions
import RecordStore.Proofs.Writes

/-!
# Appending to any file

An append reads the appends since the last sort, looks its key up, makes a sort that is overdue,
closes an unfinished last line, writes its own line at the end and publishes it.  On a file that
holds anything it may end behind each of these steps.

* `Waits` — a stretch that stops at a stage; `Stage.Sane` — what such a stage remembers.
* `Session.sealed`, `writeLine`, `publish` — the session behind the last three steps.
* `Prepared`, `Drafted`, `Appends` — an append up to its line, the line, and the whole append.
* `Session.Strands` — when a write leaves its line behind unpublished.

Principal results: `sort_cut` — what a sort makes of any file; `appendRecord_appends`.
-/

set_option autoImplicit false

namespace RecordStore

/-! ## Waiting -/

/-- The record whose lock a stage waits for. -/
def Stage.span? : Stage → Option Span
  | .reading _ _ span | .writing _ span | .deleting _ span => some span
  | .readingAt _ | .locking _ | .appending _ _ | .resorting => none

/-- The record lock that a waiting append gives up in the end. -/
def Stage.held? : Stage → Option Nat
  | .appending _ held => held
  | _ => none

/-- The key that a call is about. -/
def Call.key? : Call → Option Bytes
  | .read key _ _ | .delete key => some key
  | .write request => some request.key
  | _ => none

/-- What every stage that a call ever waits at remembers: a request that can be written, and an
offset that can be unlocked. -/
structure Stage.Sane (stage : Stage) : Prop where
  request : ∀ request, stage.call = .write request → SessionM.requestFault? request = none
  held : ∀ offset, stage.held? = some offset → lockFault? offset = none

/-- A stretch of a call looked at the file and stopped at a stage.  It remembers the record that it
waited for before, or where it has just found its key. -/
structure Waits (s s' : Session) (call : Call) (waited : Option Span) (stage : Stage) : Prop where
  looks : s.Looks s'
  same : stage.call = call
  span : ∀ span, stage.span? = some span →
    waited = some span ∨ ∃ key, call.key? = some key ∧ s'.found? key = some span
  sane : stage.Sane

/-- A stretch waits for the record that it found. -/
theorem Waits.of_found {s s' : Session} {call : Call} {waited : Option Span} {stage : Stage}
    {key : Bytes} {span : Span} (looks : s.Looks s') (found : s'.found? key = some span)
    (same : stage.call = call) (hspan : stage.span? = some span) (hkey : call.key? = some key)
    (sane : stage.Sane) : Waits s s' call waited stage := by
  refine ⟨looks, same, fun awaited hawaited => Or.inr ⟨key, hkey, ?_⟩, sane⟩
  rw [found, ← hspan, hawaited]

/-! ## What a session writes -/

namespace Session

/-- The session after it has closed an unfinished last line. -/
def sealed (s : Session) : Session :=
  if endsLine s.file.bytes then s
  else (s.writeAll (sealPatches s.file.bytes s.handle.headLen)).remap.forget

/-- The session after it has written a line at the end of the file. -/
def writeLine (s : Session) (line : Bytes) : Session := s.write ⟨s.file.bytes.length, line⟩

/-- The session after it has published that line. -/
def publish (s : Session) (seq count : UInt32) (old : Option Span) : Session :=
  (s.writeAll (publishPatches seq count old)).markModified

/-- A stretch of a write of `key` gets as far as writing its line and no further. -/
structure Strands (s : Session) (waited : Option Span) (key : Bytes) : Prop where
  broken : s.Broken
  rested : ∃ count, Header.counterAt? s.file.bytes Header.sinceSortAt = some count ∧
    ¬ s.handle.config.resortLimit < count
  trusts : s.Trusts waited key

/-- A stretch looked its key up, at once if the append sequence cannot be read. -/
structure Led (s s₁ : Session) (waited : Option Span) (key : Bytes) : Prop where
  looks : s.Looks s₁
  trusted : s.Broken → (s₁.found? key ≠ none ↔ s.Trusts waited key)

theorem Led.relocks {s s₁ s₂ : Session} {waited : Option Span} {key : Bytes}
    (h : s.Led s₁ waited key) (hr : s₁.Relocks s₂) : s.Led s₂ waited key :=
  ⟨h.looks.trans hr.looks, fun hb => by rw [hr.found? key]; exact h.trusted hb⟩

theorem Led.refl (s : Session) (key : Bytes) : s.Led s none key :=
  ⟨.refl s, fun _ => ⟨fun hf => ⟨hf, by simp⟩, (·.found)⟩⟩

/-- A line is stranded after a lookup exactly if it is stranded before. -/
theorem Led.strands {s s₁ : Session} {waited : Option Span} {key : Bytes}
    (h : s.Led s₁ waited key) : s₁.Strands none key ↔ s.Strands waited key := by
  constructor
  · rintro ⟨hbroken, hrested, htrusts⟩
    have hb := h.looks.broken.1 hbroken
    rw [h.looks.bytes, h.looks.config] at hrested
    exact ⟨hb, hrested, (h.trusted hb).1 htrusts.found⟩
  · rintro ⟨hbroken, hrested, htrusts⟩
    refine ⟨h.looks.broken.2 hbroken, ?_, ⟨(h.trusted hbroken).2 htrusts, by simp⟩⟩
    rw [h.looks.bytes, h.looks.config]
    exact hrested

/-- Every place up to a little behind the end of the file can be locked. -/
def Lockable (s : Session) : Prop := s.file.bytes.length + lockLen < offsetLimit

theorem lockable_of_small {s : Session} (hsmall : s.file.bytes.length < UInt32.size) :
    s.Lockable := by
  have hlimit : UInt32.size + lockLen ≤ offsetLimit := by decide
  unfold Lockable
  omega

theorem Lockable.of_looks {s s' : Session} (hs : s.Lockable) (h : s.Looks s') : s'.Lockable := by
  unfold Lockable
  rw [h.bytes]
  exact hs

theorem Lockable.lockFault? {s : Session} (hs : s.Lockable) {offset : Nat}
    (h : offset ≤ s.file.bytes.length + 1) : RecordStore.lockFault? offset = none := by
  unfold Lockable at hs
  unfold RecordStore.lockFault?
  rw [if_neg (by simp only [lockLen] at *; omega), if_neg (by omega)]

/-- What a session finds can be locked. -/
theorem Lockable.found {s : Session} (hs : s.Lockable) {key : Bytes} {span : Span}
    (h : s.found? key = some span) : RecordStore.lockFault? span.offset = none := by
  have hle := Handle.offset_le_of_find? h
  rw [data, View.read, List.length_take] at hle
  exact hs.lockFault? (by omega)

end Session

/-! ## Appending -/

/-- An append up to its line: the appends since the last sort are read, the key is looked up, and an
overdue sort is made. -/
inductive Prepared (s : Session) (key : Bytes) : Option Span → UInt32 → Session → Prop where
  | rested {h : Handle} {count : UInt32}
    (read : Header.counterAt? s.file.bytes Header.sinceSortAt = some count)
    (rested : ¬ s.handle.config.resortLimit < count) (looks : s.handle.Looks s.file.bytes h)
    (fresh : (s.withHandle h).found? key = none → (s.withHandle h).Fresh) :
    Prepared s key ((s.withHandle h).found? key) count (s.withHandle h)
  | sorted {h : Handle} {count : UInt32}
    (read : Header.counterAt? s.file.bytes Header.sinceSortAt = some count)
    (overdue : s.handle.config.resortLimit < count) (looks : s.handle.Looks s.file.bytes h)
    (fresh : (s.withHandle h).Fresh) :
    Prepared s key ((s.withHandle h).found? key) 0 (s.withHandle h).sort

/-- The line that an append writes: a copy of the record found with the field set, or a new record. -/
inductive Drafted (data key : Bytes) : Option Field → Option Span → Bytes → Prop where
  | fresh (field : Option Field) : Drafted data key field none (encodeRecord key field.toList)
  | copy {r : Record} {field : Field} {span : Span}
    (record : Record.decode data span.offset = .ok r) :
    Drafted data key (some field) (some span) (r.withField field)

/-- How an append under the structural lock ends. -/
inductive Appends (s : Session) (key : Bytes) (field : Option Field) :
    EStateM.Result Error Session (Option Nat) → Prop where
  | refused {e : Error} (kept : e = .invalidHeader → ¬ s.Strands none key) :
    Appends s key field (.error e s)
  | damaged {s₂ : Session} {old : Option Span} {count : UInt32} {e : Error}
    (prepared : Prepared s key old count s₂) (other : e ≠ .invalidHeader) :
    Appends s key field (.error e s₂)
  | present {s₂ : Session} {span : Span} {count : UInt32}
    (prepared : Prepared s key (some span) count s₂) (fieldless : field = none) :
    Appends s key field (.ok none s₂)
  | stranded {s₂ s₃ s' : Session} {old : Option Span} {count : UInt32} {line : Bytes}
    (strands : s.Strands none key) (prepared : Prepared s key old count s₂)
    (drafted : Drafted s₂.data key field old line) (locked : s₂.sealed.Relocks s₃)
    (relocks : (s₃.writeLine line).Relocks s') : Appends s key field (.error .invalidHeader s')
  | published {s₂ s₃ : Session} {old : Option Span} {count seq : UInt32} {line : Bytes}
    (prepared : Prepared s key old count s₂) (drafted : Drafted s₂.data key field old line)
    (locked : s₂.sealed.Relocks s₃)
    (read : Header.counterAt? (s₃.writeLine line).file.bytes Header.appendSeqAt = some seq) :
    Appends s key field
      (.ok (some s₂.sealed.file.bytes.length) ((s₃.writeLine line).publish seq count old))

namespace SessionM

variable {s : Session}

/-! ### What the header shows after writes behind it -/

/-- The counter of a file is in its first bytes. -/
theorem counterAt?_congr {bytes bytes' : Bytes} {offset : Nat}
    (h : bytes'.take (offset + Hex.wordLen) = bytes.take (offset + Hex.wordLen)) :
    Header.counterAt? bytes' offset = Header.counterAt? bytes offset := by
  have hread : ∀ b : Bytes, Header.counterAt? b offset =
      Header.counterAt? (b.take (offset + Hex.wordLen)) offset := by
    intro b
    unfold Header.counterAt?
    rw [List.length_take, List.drop_take, List.take_take]
    by_cases hle : offset + Hex.wordLen ≤ b.length
    · rw [if_pos hle, if_pos (by omega), Nat.min_eq_left (by omega)]
    · rw [if_neg hle, if_neg (by omega)]
  rw [hread bytes', hread bytes, h]

theorem writeAll_mapped (hs : s.Mapped) (patches : List Patch) : (s.writeAll patches).Mapped := by
  obtain ⟨-, hhandle, -⟩ := s.writeAll_frame patches
  have hle := Patch.length_le_length_applyAll patches s.file.bytes
  rw [← Session.writeAll_bytes] at hle
  exact ⟨by rw [hhandle]; exact hs.headLen, by rw [hhandle]; exact hs.sees,
    by rw [hhandle]; exact Nat.le_trans hs.inside hle⟩

theorem writeLine_mapped (hs : s.Mapped) (line : Bytes) : (s.writeLine line).Mapped :=
  writeAll_mapped hs [_]

theorem sort_mapped (hs : s.Mapped) : s.sort.Mapped := by
  obtain ⟨hheadLen, hsees, hinside⟩ := writeAll_mapped hs s.sortPatches
  exact ⟨hheadLen, hsees, hinside⟩

theorem sealed_mapped (hs : s.Mapped) : s.sealed.Mapped := by
  unfold Session.sealed
  split
  · exact hs
  · obtain ⟨hheadLen, hsees, hinside⟩ :=
      writeAll_mapped hs (sealPatches s.file.bytes s.handle.headLen)
    exact ⟨hheadLen, Nat.le_trans hsees hinside, Nat.le_refl _⟩

/-- A sort writes behind the append sequence. -/
theorem sort_broken (hs : s.Mapped) : s.sort.Broken ↔ s.Broken := by
  have hbytes : s.sort.file.bytes = Patch.applyAll s.sortPatches s.file.bytes :=
    s.writeAll_bytes _
  have hend : Header.appendSeqAt + Hex.wordLen ≤ Header.length := by decide
  have hsees := hs.sees
  have hinside := hs.inside
  unfold Session.Broken
  rw [hbytes, counterAt?_congr (Patch.take_applyAll ?_ (by omega))]
  intro patch hp
  rcases List.mem_append.1 hp with hp | hp
  · obtain ⟨⟨line, target⟩, hplan, rfl⟩ := List.mem_map.1 hp
    have hline := (List.of_mem_zip hplan).1
    obtain ⟨l, hl, rfl⟩ := List.mem_map.1 hline
    have hstart := (mem_linesFrom_iff.1 (List.mem_filter.1 hl).1).1
    rw [hs.headLen] at hstart
    dsimp only
    omega
  · simp only [List.mem_cons, List.not_mem_nil, or_false] at hp
    rcases hp with rfl | rfl
    · decide
    · exact (by decide : Header.appendSeqAt + Hex.wordLen ≤ Header.modifiedAt)

/-- Closing the last line writes behind the append sequence. -/
theorem sealed_broken (hs : s.Mapped) : s.sealed.Broken ↔ s.Broken := by
  unfold Session.sealed
  split
  · exact Iff.rfl
  · have hbytes : (s.writeAll (sealPatches s.file.bytes s.handle.headLen)).file.bytes = _ :=
      s.writeAll_bytes _
    have hend : Header.appendSeqAt + Hex.wordLen ≤ Header.length := by decide
    have hsees := hs.sees
    have hinside := hs.inside
    unfold Session.Broken
    show Header.counterAt? (s.writeAll _).file.bytes _ = none ↔ _
    rw [hbytes, counterAt?_congr (Patch.take_applyAll ?_ (by omega))]
    intro patch hp
    unfold sealPatches at hp
    rcases List.mem_cons.1 hp with rfl | hp
    · dsimp only
      omega
    · split at hp
      · next hlive =>
        obtain rfl := List.mem_singleton.1 hp
        have hlate := hlive.1
        rw [hs.headLen] at hlate
        dsimp only
        omega
      · cases hp

theorem writeLine_broken (hs : s.Mapped) (line : Bytes) : (s.writeLine line).Broken ↔ s.Broken := by
  have hend : Header.appendSeqAt + Hex.wordLen ≤ Header.length := by decide
  have hsees := hs.sees
  have hinside := hs.inside
  unfold Session.Broken Session.writeLine
  rw [Session.write_bytes, counterAt?_congr (Patch.take_apply _ (by omega))]
  dsimp only
  omega

/-! ### The parts of an append -/

/-- Closing the last line makes the file one byte longer. -/
theorem length_sealPatches (bytes : Bytes) (headLen : Nat) :
    (Patch.applyAll (sealPatches bytes headLen) bytes).length = bytes.length + 1 := by
  have hfirst : ((⟨bytes.length, [newline]⟩ : Patch).apply bytes).length = bytes.length + 1 := by
    rw [Patch.apply_end, List.length_append, List.length_singleton]
  unfold sealPatches
  dsimp only
  rw [Patch.applyAll_cons]
  split
  · have hle := length_wholeLines_le bytes
    rw [Patch.applyAll_cons, Patch.applyAll, List.foldl_nil, Patch.length_apply, hfirst]
    simp only [Patch.Fits, hfirst, List.length_singleton]
    omega
  · exact hfirst

theorem sealTail_sealed (s : Session) :
    sealTail s = .ok s.sealed.file.bytes.length s.sealed := by
  unfold sealTail Session.sealed
  rw [get_bind]
  by_cases hend : endsLine s.file.bytes = true
  · rw [if_pos hend, if_pos hend]
    rfl
  · rw [if_neg hend, if_neg hend]
    have hlen := length_sealPatches s.file.bytes s.handle.headLen
    rw [← Session.writeAll_bytes] at hlen
    rw [← hlen]
    rfl

theorem sealed_length (s : Session) : s.sealed.file.bytes.length ≤ s.file.bytes.length + 1 := by
  unfold Session.sealed
  split
  · exact Nat.le_succ _
  · have hlen := length_sealPatches s.file.bytes s.handle.headLen
    rw [← Session.writeAll_bytes] at hlen
    exact Nat.le_of_eq hlen

/-- A damaged record is never blamed on the header. -/
theorem ne_invalidHeader_of_decode {data : Bytes} {offset : Nat} {e : Error}
    (h : Record.decode data offset = .error e) : e ≠ .invalidHeader := by
  rintro rfl
  unfold Record.decode at h
  split at h
  · cases h
  · cases hline : Record.ofLine ⟨offset, takeLine (data.drop offset)⟩ with
    | ok r =>
      rw [hline] at h
      cases h
    | error d =>
      rw [hline] at h
      cases h

theorem recordAt_eq_match (s : Session) (span : Span) : recordAt span s =
    match Record.decode s.data span.offset with
    | .ok r => .ok r s
    | .error e => .error e s := by
  unfold recordAt
  rw [get_bind]
  cases Record.decode s.data span.offset <;> rfl

/-- What a write appends, if anything. -/
theorem lineToAppend_drafted (s : Session) (key : Bytes) (field : Option Field)
    (old : Option Span) :
    (∃ line, lineToAppend key field old s = .ok (some line) s ∧ Drafted s.data key field old line) ∨
    (∃ span, old = some span ∧ field = none ∧ lineToAppend key field old s = .ok none s) ∨
    ∃ e, lineToAppend key field old s = .error e s ∧ e ≠ .invalidHeader := by
  cases old with
  | none => exact Or.inl ⟨_, rfl, .fresh field⟩
  | some span =>
    cases field with
    | none => exact Or.inr (Or.inl ⟨span, rfl, rfl, rfl⟩)
    | some field =>
      have hrecord := recordAt_eq_match s span
      unfold lineToAppend
      dsimp only
      cases hdec : Record.decode s.data span.offset with
      | ok r =>
        rw [hdec] at hrecord
        exact Or.inl ⟨r.withField field, bind_ok hrecord, .copy hdec⟩
      | error e =>
        rw [hdec] at hrecord
        exact Or.inr (Or.inr ⟨e, bind_error hrecord, ne_invalidHeader_of_decode hdec⟩)

/-- A line written is published, unless the append sequence cannot be read. -/
theorem commitLine_cases (hs : s.Mapped) (line : Bytes) (count : UInt32) (old : Option Span) :
    (s.Broken ∧ commitLine s.file.bytes.length line count old s =
      .error .invalidHeader (s.writeLine line)) ∨
    ∃ seq, Header.counterAt? (s.writeLine line).file.bytes Header.appendSeqAt = some seq ∧
      commitLine s.file.bytes.length line count old s =
        .ok () ((s.writeLine line).publish seq count old) := by
  have hmapped := writeLine_mapped hs line
  unfold commitLine
  rw [modify_bind]
  cases hseq : Header.counterAt? (s.writeLine line).file.bytes Header.appendSeqAt with
  | none =>
    left
    exact ⟨(writeLine_broken hs line).1 hseq, bind_error (counter_error hmapped .appendSeq hseq)⟩
  | some seq =>
    right
    exact ⟨seq, rfl, bind_ok (counter_ok hmapped .appendSeq hseq)⟩

theorem attempt_error {α : Type} {act : SessionM α} {s s' : Session} {e : Error}
    (h : act s = .error e s') : attempt act s = .ok (.error e) s' := by
  simp only [attempt, h]

/-- **What a sort makes of any file**: other counters in the header, and slots in complete lines. -/
theorem sort_cut (hs : s.Mapped) : ∃ (head head' : Bytes) (texts : List Bytes) (targets : List Nat)
    (rest : Bytes), head.length = Header.length ∧ head'.length = Header.length ∧
      (∀ text ∈ texts, IsLine text) ∧ s.file.bytes = head ++ (texts.flatten ++ rest) ∧
      s.sort.file.bytes = head' ++ ((Index.fillSlots texts targets).flatten ++ rest) := by
  have hsees := hs.sees
  have hinside := hs.inside
  obtain ⟨texts, fragment, hlines, hf, hdrop⟩ := exists_lines_fragment (s.data.drop Header.length)
  have hhead : (s.data.take Header.length).length = Header.length := by
    rw [Session.data, View.read, List.length_take, List.length_take]
    omega
  have hdata : s.data = s.data.take Header.length ++ (texts.flatten ++ fragment) := by
    rw [← hdrop, List.take_append_drop]
  have hbytes : s.file.bytes = s.data.take Header.length ++
      (texts.flatten ++ (fragment ++ s.file.bytes.drop s.handle.view.length)) := by
    conv_lhs => rw [← List.take_append_drop s.handle.view.length s.file.bytes]
    rw [show s.file.bytes.take s.handle.view.length = s.data from rfl]
    conv_lhs => rw [hdata]
    simp only [List.append_assoc]
  generalize hrest : fragment ++ s.file.bytes.drop s.handle.view.length = rest at hbytes
  generalize hfront : s.data.take Header.length = head at hhead hdata hbytes
  have hplan := Index.applyAll_sortPlan_view hlines hf head rest
  rw [← hdata, ← hbytes, hhead] at hplan
  -- the two counters are written into the header
  have hsince : (⟨Header.sinceSortAt, Hex.word 0⟩ : Patch).Fits head := by
    unfold Patch.Fits
    rw [hhead]
    decide
  have hstamp : s.stamp.Fits ((⟨Header.sinceSortAt, Hex.word 0⟩ : Patch).apply head) := by
    unfold Patch.Fits
    rw [Patch.length_apply hsince, hhead]
    exact (by decide : Header.modifiedAt + Hex.wordLen ≤ Header.length)
  refine ⟨head, s.stamp.apply ((⟨Header.sinceSortAt, Hex.word 0⟩ : Patch).apply head), texts,
    (Index.byKey (linesAt Header.length texts)).map Line.offset, rest, hhead, ?_, hlines, hbytes, ?_⟩
  · rw [Patch.length_apply hstamp, Patch.length_apply hsince, hhead]
  · have hall : s.sort.file.bytes = Patch.applyAll s.sortPatches s.file.bytes := s.writeAll_bytes _
    have hpatches : s.sortPatches = (Index.sortPlan s.data Header.length).map Index.slotPatch
        ++ [⟨Header.sinceSortAt, Hex.word 0⟩, s.stamp] := by
      rw [Session.sortPatches, hs.headLen]
      rfl
    rw [hall, hpatches, Patch.applyAll_append, hplan, Patch.applyAll_cons, Patch.applyAll_cons,
      Patch.apply_front hsince, Patch.apply_front hstamp]
    rfl

theorem length_sort (hs : s.Mapped) : s.sort.file.bytes.length = s.file.bytes.length := by
  obtain ⟨head, head', texts, targets, rest, hhead, hhead', -, hbytes, hsort⟩ := sort_cut hs
  rw [hbytes, hsort]
  simp only [List.length_append, Index.length_flatten_fillSlots, hhead, hhead']

end SessionM

section Prepared

variable {s s₂ : Session} {key : Bytes} {old : Option Span} {count : UInt32}

/-- Behind the lookup of an append, the session after a sort that is overdue. -/
theorem Prepared.of_located {h : Handle}
    (read : Header.counterAt? s.file.bytes Header.sinceSortAt = some count)
    (looks : s.handle.Looks s.file.bytes h)
    (fresh : s.handle.config.resortLimit < count ∨ (s.withHandle h).found? key = none →
      (s.withHandle h).Fresh) : ∃ s₂, s₂ = (if s.handle.config.resortLimit < count then
        (s.withHandle h).sort else s.withHandle h) ∧
      Prepared s key ((s.withHandle h).found? key)
        (if s.handle.config.resortLimit < count then 0 else count) s₂ := by
  refine ⟨_, rfl, ?_⟩
  by_cases ho : s.handle.config.resortLimit < count
  · rw [if_pos ho, if_pos ho]
    exact .sorted read ho looks (fresh (Or.inl ho))
  · rw [if_neg ho, if_neg ho]
    exact .rested read ho looks fun hnone => fresh (Or.inr hnone)

/-- A session prepared for an append still sees the header. -/
theorem Prepared.mapped (h : Prepared s key old count s₂) (hs : s.Mapped) : s₂.Mapped := by
  cases h with
  | rested read rested looks fresh => exact hs.of_looks (.withHandle looks)
  | sorted read overdue looks fresh => exact SessionM.sort_mapped (hs.of_looks (.withHandle looks))

theorem Prepared.length_eq (h : Prepared s key old count s₂) (hs : s.Mapped) :
    s₂.file.bytes.length = s.file.bytes.length := by
  cases h with
  | rested read rested looks fresh => rfl
  | sorted read overdue looks fresh => exact SessionM.length_sort (hs.of_looks (.withHandle looks))

theorem Prepared.lockable (h : Prepared s key old count s₂) (hs : s.Mapped) (hlock : s.Lockable) :
    s₂.Lockable := by
  unfold Session.Lockable
  rw [h.length_eq hs]
  exact hlock

/-- If the append sequence cannot be read behind the preparation, no sort was made, and the key was
found at once. -/
theorem Prepared.strands (h : Prepared s key old count s₂) (hb : s₂.Broken)
    (htrusted : s.Broken → s.found? key ≠ none) (hs : s.Mapped) : s.Strands none key := by
  cases h with
  | rested read rested looks fresh =>
    have hbroken : s.Broken := hb
    exact ⟨hbroken, ⟨_, read, rested⟩, ⟨htrusted hbroken, by simp⟩⟩
  | sorted read overdue looks fresh =>
    exact absurd ((SessionM.sort_broken (hs.of_looks (.withHandle looks))).1 hb) fresh.not_broken

end Prepared

namespace SessionM

variable {s : Session}

/-- Once the last line is closed, the place behind it is locked, or another holder has locked it. -/
theorem tryLock_sealed (hs : s.Mapped)
    (hfault : lockFault? s.sealed.file.bytes.length = none) : ∃ granted s₃,
      tryLock s.sealed.file.bytes.length .exclusive s.sealed = .ok granted s₃ ∧ s₃.Mapped ∧
        s.sealed.Relocks s₃ ∧ s₃.file.bytes.length = s.sealed.file.bytes.length := by
  obtain ⟨granted, htry⟩ := tryLock_tryHold s.sealed hfault
  have hrel := onlyRelocks_tryLock s.sealed.file.bytes.length .exclusive s.sealed
  rw [final_ok htry] at hrel
  exact ⟨granted, _, htry, (sealed_mapped hs).of_looks hrel.looks, hrel,
    congrArg List.length hrel.looks.bytes⟩

/-- **An append under the structural lock**, on any file. -/
theorem appendRecord_appends (hs : s.Mapped) (hlock : s.Lockable) (key : Bytes)
    (field : Option Field) : Appends s key field (appendRecord key field s) := by
  unfold appendRecord
  cases hsince : Header.counterAt? s.file.bytes Header.sinceSortAt with
  | none =>
    rw [bind_error (show sinceSort s = _ from counter_error hs .sinceSort hsince)]
    refine .refused fun _ hstrands => ?_
    obtain ⟨count, hread, -⟩ := hstrands.rested
    rw [hsince] at hread
    cases hread
  | some count =>
    rw [bind_ok (show sinceSort s = _ from counter_ok hs .sinceSort hsince), get_bind]
    dsimp only
    have hloc := locate_cases hs key
      (if s.handle.config.resortLimit < count then .always else .ifMissing)
    generalize hres : locate key (if s.handle.config.resortLimit < count then .always
      else .ifMissing) s = result at hloc
    cases hloc with
    | unreadable broken asked =>
      rw [bind_error hres]
      refine .refused fun _ hstrands => ?_
      obtain ⟨count', hread, hrested⟩ := hstrands.rested
      rw [hsince, Option.some.injEq] at hread
      subst hread
      rw [if_neg hrested] at asked
      rcases asked with hask | hnone
      · cases hask
      · exact hstrands.trusts.found hnone
    | @located h looks fresh trusted =>
      rw [bind_ok hres, ite_modify_bind]
      -- the session after an overdue sort
      obtain ⟨s₂, hs₂, hprep⟩ := Prepared.of_located hsince looks
        fun hwhy => fresh (hwhy.imp_left fun ho => by rw [if_pos ho])
      rw [← hs₂]
      generalize (if s.handle.config.resortLimit < count then 0 else count) = count' at hprep ⊢
      generalize (s.withHandle h).found? key = old at hprep ⊢
      have hmapped := hprep.mapped hs
      rcases lineToAppend_drafted s₂ key field old with ⟨line, heq, hdraft⟩ |
        ⟨span, rfl, hnone, heq⟩ | ⟨e, heq, hne⟩
      · rw [bind_ok heq]
        dsimp only
        rw [bind_ok (sealTail_sealed s₂)]
        have hfault : lockFault? s₂.sealed.file.bytes.length = none :=
          (hprep.lockable hs hlock).lockFault? (sealed_length s₂)
        obtain ⟨granted, s₃, htry, hmapped₃, hrel, hlen⟩ := tryLock_sealed hmapped hfault
        rw [bind_ok htry, ← hlen]
        rcases commitLine_cases hmapped₃ line count' old with ⟨hbroken, hcommit⟩ |
          ⟨seq, hread, hcommit⟩
        · rw [bind_ok (attempt_error hcommit)]
          dsimp only
          rw [hlen, bind_ok (unlock_eq _ hfault)]
          have hstrands := hprep.strands
            ((sealed_broken hmapped).1 (hrel.looks.broken.1 hbroken))
            (fun hb => (trusted hb).1) hs
          exact .stranded hstrands hprep hdraft hrel (.mk _)
        · rw [bind_ok (attempt_ok hcommit)]
          dsimp only
          rw [hlen]
          exact .published hprep hdraft hrel hread
      · rw [bind_ok heq]
        exact .present hprep hnone
      · rw [bind_error heq]
        exact .damaged hprep hne

end SessionM

end RecordStore
