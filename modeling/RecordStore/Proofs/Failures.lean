import Mathlib.Tactic.Common
import RecordStore.Proofs.Bare
import RecordStore.Proofs.Outcomes

/-!
# Writes that fail

A write may fail while it looks its key up, at a damaged record, behind a sort, or once its line is
written and the append sequence turns out to be unreadable.  Only the last failure changes what the
file holds: the line stays behind, live, beside the record that it was to replace.

* `Call.stretch` — a call from its beginning, or on from a stage; `Call.Pending` — such a stage.
* `Session.Strands` (of the appends) — when the line stays behind.

Principal results: `Prepared.bareRecords_eq` — a sort that is overdue changes no record;
`stranded_records` — a stranded line is one record more; `failed_write_records` — every failure of a
write, on any file.
-/

set_option autoImplicit false

namespace RecordStore

/-! ## Stretches of a call -/

/-- One stretch of a call: from its beginning, or on from a stage that it waits at. -/
def Call.stretch (call : Call) : Option Stage → SessionM Progress
  | none => call.start
  | some stage => stage.resume

/-- A stage that a stretch of this call stops at. -/
def Call.Pending (call : Call) (pending : Option Stage) : Prop :=
  ∀ stage, pending = some stage → stage.call = call ∧ stage.Sane

/-- **One stretch of any call**, on any file. -/
theorem Call.stretch_ran {s : Session} (hs : s.Mapped) (hlock : s.Lockable) {call : Call}
    {pending : Option Stage} (hpending : call.Pending pending) :
    Ran s (pending.bind Stage.span?) call (call.stretch pending s) := by
  cases pending with
  | none => exact call.start_ran hs hlock
  | some stage =>
    obtain ⟨rfl, hsane⟩ := hpending stage rfl
    exact stage.resume_ran hs hlock hsane

theorem Waits.pending {s s' : Session} {call : Call} {waited : Option Span} {stage : Stage}
    (h : Waits s s' call waited stage) : call.Pending (some stage) := by
  rintro _ ⟨⟩
  exact ⟨h.same, h.sane⟩

/-- A request at fault is refused at once. -/
theorem SessionM.write_of_fault {request : WriteRequest} {fault : TokenFault}
    (h : SessionM.requestFault? request = some fault) (s : Session) :
    SessionM.write request s = .error (.invalidData fault) s := by
  unfold SessionM.write
  rw [h]
  rfl

/-- A stretch of a write whose request is at fault is its first, and is refused. -/
theorem Call.stretch_of_fault {request : WriteRequest} {pending : Option Stage}
    (hpending : (Call.write request).Pending pending) {fault : TokenFault}
    (h : SessionM.requestFault? request = some fault) (s : Session) :
    (Call.write request).stretch pending s = .error (.invalidData fault) s := by
  cases pending with
  | none => exact SessionM.write_of_fault h s
  | some stage =>
    obtain ⟨hcall, hsane⟩ := hpending stage rfl
    rw [hsane.request request hcall] at h
    cases h

theorem Call.requestFault?_of_answered {request : WriteRequest} {pending : Option Stage}
    (hpending : (Call.write request).Pending pending) {s s' : Session} {a : Answer}
    (h : (Call.write request).stretch pending s = .ok (.answered a) s') :
    SessionM.requestFault? request = none := by
  cases hfault : SessionM.requestFault? request with
  | none => rfl
  | some fault =>
    rw [Call.stretch_of_fault hpending hfault] at h
    cases h

/-! ## What each part of an append makes of the records -/

section Parts

variable {s : Session}

/-- **A sort changes no record.** -/
theorem bareRecords_sort (hs : s.Mapped) :
    bareRecords s.sort.file.bytes = bareRecords s.file.bytes := by
  obtain ⟨head, head', texts, targets, rest, hhead, hhead', hlines, hbytes, hsort⟩ :=
    SessionM.sort_cut hs
  have hfilled := Index.isLine_fillSlots hlines targets
  rw [hbytes, hsort, bareRecords_append hhead hlines, bareRecords_append hhead' hfilled,
    bareAt_fillSlots hlines, Index.length_flatten_fillSlots]

theorem Prepared.bareRecords_eq {s₂ : Session} {key : Bytes} {old : Option Span} {count : UInt32}
    (h : Prepared s key old count s₂) (hs : s.Mapped) :
    bareRecords s₂.file.bytes = bareRecords s.file.bytes := by
  cases h with
  | rested read rested looks fresh => rfl
  | sorted read overdue looks fresh => exact bareRecords_sort (hs.of_looks (.withHandle looks))

/-- Closing the last line leaves the records before it alone.  A line that begins in the header may
become one. -/
theorem bareRecords_sealed (hs : s.Mapped) : endsLine s.sealed.file.bytes = true ∧
    ∃ added, bareRecords s.sealed.file.bytes = bareRecords s.file.bytes ++ added := by
  unfold Session.sealed
  split
  · next hend => exact ⟨hend, [], (List.append_nil _).symm⟩
  · next hopen =>
    show endsLine (s.writeAll _).file.bytes = true ∧ ∃ added,
      bareRecords (s.writeAll _).file.bytes = bareRecords s.file.bytes ++ added
    rw [Session.writeAll_bytes, hs.headLen]
    have hlen := Nat.le_trans hs.sees hs.inside
    obtain ⟨texts, fragment, hlines, hf, hbytes⟩ := exists_lines_fragment s.file.bytes
    by_cases hlate : Header.length ≤ texts.flatten.length
    · have hend : endsLine texts.flatten = true := by
        refine endsLine_flatten hlines ?_
        rintro rfl
        exact absurd hlate (by decide)
      have hne : fragment ≠ [] := by
        rintro rfl
        rw [hbytes, List.append_nil] at hopen
        exact hopen hend
      have hclosed := isLine_closed hf
      have hone : lines (closed fragment) = [closed fragment] := by
        simpa [lines] using lines_append hclosed []
      rw [hbytes, applyAll_sealPatches hend hf hlate, endsLine_append hclosed.ne_nil,
        bareRecords_append_of_not hend hlate (fun _ => isLiveRecord_of_notMem hf),
        bareRecords_append_of_not hend hlate (by simp [hone, isLiveRecord_closed hne])]
      exact ⟨hclosed.endsLine, [], (List.append_nil _).symm⟩
    · -- no line ends behind the header, and the flag of the fragment is not looked at
      have hnone : bareRecords s.file.bytes = [] := by
        rw [bareRecords_eq]
        refine bareAt_of_forall_not (fun text ht => isLiveRecord_of_notMem ?_ ht) _
        rw [hbytes, List.drop_append, List.drop_eq_nil_of_le (by omega), List.nil_append]
        exact fun hm => hf (List.mem_of_mem_drop hm)
      have hpatches : sealPatches s.file.bytes Header.length =
          [⟨s.file.bytes.length, [newline]⟩] := by
        unfold sealPatches
        dsimp only
        rw [if_neg]
        rw [hbytes, wholeLines_flatten_append hlines hf]
        exact fun h => hlate h.1
      rw [hpatches, Patch.applyAll_cons, Patch.apply_end, hnone]
      exact ⟨endsLine_append (by simp), _, rfl⟩

/-- The line that a write appends is a live record. -/
theorem Drafted.live {data key : Bytes} {field : Option Field} {old : Option Span} {line : Bytes}
    (h : Drafted data key field old line) (hkey : ∀ b ∈ key, isDelimiter b = false)
    (hfits : ∀ f, field = some f → f.Fits) : IsLine line ∧ isLiveRecord line = true := by
  obtain ⟨key', fields, hfresh⟩ : ∃ key fields, FreshLine line key fields := by
    cases h with
    | fresh =>
      refine ⟨_, _, freshLine_encodeRecord hkey fun f hf => hfits f ?_⟩
      rwa [Option.mem_toList] at hf
    | @copy r field span record =>
      obtain ⟨-, -, htext⟩ := Record.decode_eq_ok_iff.1 record
      refine ⟨_, Record.exists_freshLine_withField ?_ (hfits field rfl)⟩
      rw [← htext]
      by_cases hm : newline ∈ data.drop span.offset
      · exact Or.inl (isLine_takeLine_of_mem hm)
      · exact Or.inr (by rwa [takeLine_of_notMem hm])
  exact ⟨hfresh.line, isLiveRecord_of_freshLine hfresh⟩

/-- **A stranded line** is one record more, and nothing else changes. -/
theorem stranded_records {s₁ s₂ s₃ s' : Session} {request : WriteRequest} {old : Option Span}
    {count : UInt32} {line : Bytes} (hs : s.Mapped) (hreq : SessionM.requestFault? request = none)
    (looks : s.Looks s₁) (prepared : Prepared s₁ request.key old count s₂)
    (drafted : Drafted s₂.data request.key request.field old line)
    (locked : s₂.sealed.Relocks s₃) (relocks : (s₃.writeLine line).Relocks s') :
    ∃ added, bareRecords s'.file.bytes = bareRecords s.file.bytes ++ added ∧ added ≠ [] := by
  obtain ⟨hkey, hfits⟩ := WriteRequest.fits_of_requestFault? hreq
  obtain ⟨hline, hlive⟩ := drafted.live hkey hfits
  have hs₁ := hs.of_looks looks
  have hs₂ := prepared.mapped hs₁
  obtain ⟨hend, added, hadded⟩ := bareRecords_sealed hs₂
  have hsealed := SessionM.sealed_mapped hs₂
  have hlen := Nat.le_trans hsealed.sees hsealed.inside
  refine ⟨added ++ [⟨s₂.sealed.file.bytes.length, clearSlot line⟩], ?_, by simp⟩
  rw [relocks.looks.bytes, Session.writeLine, Session.write_bytes, Patch.apply_end,
    locked.looks.bytes, bareRecords_append_line hend hlen hline hlive, hadded,
    prepared.bareRecords_eq hs₁, looks.bytes, List.append_assoc]

end Parts

/-! ## Failures -/

/-- **A write that fails leaves the records as they were**, unless it strands its line: then the
append sequence cannot be read, no sort was overdue, and the key was found without it.  While the
write waits it has written nothing. -/
theorem failed_write_records {s : Session} (hs : s.Mapped) (hlock : s.Lockable)
    {request : WriteRequest} {pending : Option Stage}
    (hpending : (Call.write request).Pending pending) :
    (∀ stage s', (Call.write request).stretch pending s = .ok (.waiting stage) s' →
      s'.file.bytes = s.file.bytes ∧ (Call.write request).Pending (some stage)) ∧
    ∀ e s', (Call.write request).stretch pending s = .error e s' →
      ∃ added, bareRecords s'.file.bytes = bareRecords s.file.bytes ++ added ∧
        (added ≠ [] ↔
          e = .invalidHeader ∧ s.Strands (pending.bind Stage.span?) request.key) := by
  have wrote := (Call.stretch_ran hs hlock hpending).wrote
  constructor
  · intro stage s' heq
    rw [heq] at wrote
    cases wrote with
    | waiting waits => exact ⟨waits.looks.bytes, waits.pending⟩
  · intro e s' heq
    -- nothing is added, and the line is not stranded
    have hkept : bareRecords s'.file.bytes = bareRecords s.file.bytes →
        ¬ (e = .invalidHeader ∧ s.Strands (pending.bind Stage.span?) request.key) →
        ∃ added, bareRecords s'.file.bytes = bareRecords s.file.bytes ++ added ∧ (added ≠ [] ↔
          e = .invalidHeader ∧ s.Strands (pending.bind Stage.span?) request.key) :=
      fun hsame hnot => ⟨[], by rw [hsame, List.append_nil], by simpa using hnot⟩
    have hresult := heq
    rw [heq] at wrote
    cases wrote with
    | refused looks kept =>
      exact hkept (by rw [looks.bytes]) fun h => kept h.1 h.2
    | damaged looks prepared other relocks =>
      refine hkept ?_ fun h => other h.1
      rw [relocks.looks.bytes, prepared.bareRecords_eq (hs.of_looks looks), looks.bytes]
    | stranded strands looks prepared drafted locked relocks =>
      have hreq : SessionM.requestFault? request = none := by
        cases hreq : SessionM.requestFault? request with
        | none => rfl
        | some fault =>
          rw [Call.stretch_of_fault hpending hreq] at hresult
          cases hresult
      obtain ⟨added, hadded, hne⟩ :=
        stranded_records hs hreq looks prepared drafted locked relocks
      exact ⟨added, hadded, fun _ => ⟨rfl, strands⟩, fun _ => hne⟩

/-- A record behind a header whose append sequence was overwritten, and a handle that sees both. -/
def unreadableSeq : Session :=
  let bytes := ascii ['$', 'V', '0', '0', '.', '0', '0', ' ', 'z', 'z', 'z', 'z', 'z', 'z', 'z', 'z', ' ']
    ++ Hex.word 9 ++ [Header.blank] ++ Hex.word 1 ++ [newline]
    ++ encodeRecord (ascii ['k']) [⟨ascii ['f'], ascii ['1']⟩]
  ⟨9, 1, ⟨.ofPath Config.defaultPath, Header.length, 1, .ofBytes bytes, none, true⟩,
    .ofBytes bytes 9, []⟩

/-- A longer value for the field of that record. -/
def longerValue : WriteRequest :=
  ⟨ascii ['k'], some ⟨ascii ['f'], ascii ['2', '2']⟩, .transient⟩

/-- The longer value is written beside the old one before the write fails. -/
theorem failed_write_records_of_unreadable_sequence : ∃ s' added,
    (Call.write longerValue).stretch none unreadableSeq = .error .invalidHeader s' ∧
      bareRecords s'.file.bytes = bareRecords unreadableSeq.file.bytes ++ added ∧ added ≠ [] := by
  have hs : unreadableSeq.Mapped := by constructor <;> decide +kernel
  have hlock : unreadableSeq.Lockable := by unfold Session.Lockable; decide +kernel
  have hstrands : unreadableSeq.Strands none longerValue.key :=
    ⟨by unfold Session.Broken; decide +kernel, ⟨1, by decide +kernel, by decide +kernel⟩,
      ⟨by decide +kernel, by rintro _ ⟨⟩⟩⟩
  have hfails : ∃ s', (Call.write longerValue).stretch none unreadableSeq =
      .error .invalidHeader s' := by
    have hout : (match (Call.write longerValue).stretch none unreadableSeq with
        | .ok _ _ => none
        | .error e _ => some e) = some .invalidHeader := by decide +kernel
    cases hresult : (Call.write longerValue).stretch none unreadableSeq with
    | ok progress s' =>
      rw [hresult] at hout
      cases hout
    | error e s' =>
      rw [hresult] at hout
      cases hout
      exact ⟨s', rfl⟩
  obtain ⟨s', hfails⟩ := hfails
  obtain ⟨added, hadded, hne⟩ :=
    (failed_write_records hs hlock (by rintro _ ⟨⟩)).2 .invalidHeader s' hfails
  exact ⟨s', added, hfails, hadded, hne.2 ⟨rfl, hstrands⟩⟩

end RecordStore
