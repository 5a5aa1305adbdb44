import Mathlib.Tactic.Common
import RecordStore.Proofs.Effects
import RecordStore.Proofs.Facing
import RecordStore.Proofs.Replacing

/-!
# Writes behind a fragment

A write that has to append closes the fragment first, so that no later line joins it.  Which record
it takes the place of was decided before: one that a sort had placed is replaced, and one that the
fragment hid stays where it is, beside the new one.

Principal results: `Session.Faces.prepared` — a sort that is overdue; `Session.Faces.sealed_bytes` —
the fragment is closed; `Wrote.behind_fragment` — what a write makes of the records.
-/

set_option autoImplicit false

namespace RecordStore

variable {s s' : Session} {i : Image} {fragment key : Bytes}

namespace Session.Faces

/-- **A sort** places every record and leaves the fragment as it is. -/
theorem sort (hs : s.Faces i fragment) (hsmall : s.file.bytes.length < UInt32.size) :
    s.sort.Faces (i.sorted s.now) fragment ∧
      Rests (i.bytes ++ fragment) ((i.sorted s.now).bytes ++ fragment) := by
  have hview : s.handle.view.length = s.file.bytes.length := by rw [hs.handle.view, hs.bytes]
  have hsmall' : i.bytes.length < UInt32.size := by
    rw [hs.bytes, List.length_append] at hsmall
    omega
  obtain ⟨hordered, hrests⟩ :=
    hs.breaks.ordered.rests_sorted hs.breaks.newline_notMem hsmall' s.now
  obtain ⟨-, -, hhandle⟩ := s.sort_frame
  have hfaces : s.sort.handle.Faces (i.bytes ++ fragment) := by
    rw [hhandle]
    exact ⟨hs.handle.headLen, hs.handle.view, hs.handle.cache⟩
  exact ⟨⟨Session.sort_bytes_append hs.breaks.ordered.toWhole hs.breaks.newline_notMem hs.bytes
    hs.handle.headLen hview, hfaces.rests hrests,
    ⟨hordered, hs.breaks.newline_notMem, hs.breaks.ne_nil⟩⟩, hrests⟩

/-- **An append up to its line.**  What it is to replace was looked up before the sort. -/
theorem prepared (hs : s.Faces i fragment) (hsmall : s.file.bytes.length < UInt32.size)
    {old : Option Span} {count : UInt32} (h : Prepared s key old count s') :
    ∃ j, s'.Faces j fragment ∧ Rests (i.bytes ++ fragment) (j.bytes ++ fragment) ∧
      (old = none → ∀ span, ¬ PlacedAt (i.bytes ++ fragment) span key) ∧
      ∀ span, old = some span → PlacedAt (i.bytes ++ fragment) span key := by
  cases h with
  | rested read rested looks fresh =>
    have hs' := hs.of_looks (.withHandle looks)
    exact ⟨i, hs', .refl _, hs'.absent, fun _ => hs'.found⟩
  | @sorted h count read overdue looks fresh =>
    have hs' := hs.of_looks (.withHandle looks)
    obtain ⟨hsorted, hrests⟩ := hs'.sort hsmall
    exact ⟨_, hsorted, hrests, hs'.absent, fun _ => hs'.found⟩

/-- **The fragment is closed.** -/
theorem sealed_bytes (hs : s.Faces i fragment) :
    s.sealed.file.bytes = i.bytes ++ closed fragment := by
  have hopen : endsLine s.file.bytes = false := by
    rw [hs.bytes, endsLine_append hs.breaks.ne_nil, Bool.eq_false_iff]
    exact fun hend => hs.breaks.newline_notMem (newline_mem_of_endsLine hend)
  unfold Session.sealed
  rw [if_neg (by rw [hopen]; decide)]
  refine (s.writeAll_bytes _).trans ?_
  rw [hs.bytes, hs.handle.headLen]
  refine applyAll_sealPatches hs.breaks.ordered.toWhole.endsLine_bytes hs.breaks.newline_notMem ?_
  rw [Image.length_bytes]
  exact Nat.le_add_right _ _

/-- The line that a write appends, and the record that it takes the place of. -/
theorem drafts (hs : s.Faces i fragment) {field : Field} {old : Option Span} {line : Bytes}
    (hdrafted : Drafted s.data key (some field) old line) (hkey : ∀ b ∈ key, isDelimiter b = false)
    (hfit : field.Fits) (hold : ∀ span, old = some span → PlacedAt (i.bytes ++ fragment) span key) :
    ∃ record : Option Record, record.map Record.span = old ∧
      (∀ r, record = some r → r ∈ liveRecordsFrom Header.length (i.bytes ++ fragment) ∧ r.key = key) ∧
      FreshLine line key (setField ((record.map Record.fields).getD []) field) := by
  cases hdrafted with
  | fresh =>
    refine ⟨none, rfl, by simp, freshLine_encodeRecord hkey fun f hf => ?_⟩
    rw [Option.toList_some, List.mem_singleton] at hf
    exact hf ▸ hfit
  | @copy r f span record =>
    obtain ⟨r', hr, -, rfl, hspan, hdecode⟩ := hs.decode (hold span rfl)
    rw [record] at hdecode
    obtain rfl := Except.ok.inj hdecode
    refine ⟨some r, by rw [Option.map_some, hspan], ?_, ?_⟩
    · rintro r' ⟨⟩
      exact ⟨hr, rfl⟩
    · rw [Option.map_some, Option.getD_some, r.fields_eq]
      exact Record.freshLine_withField (isLine_of_mem_liveRecords hr) hfit

/-- What the file holds once a line is published behind the fragment. -/
theorem publish_bytes (hs : s.Faces i fragment) {s₃ : Session} (hlocked : s.sealed.Relocks s₃)
    (line : Bytes) (seq count : UInt32) (old : Option Span) :
    ((s₃.writeLine line).publish seq count old).file.bytes =
      Patch.applyAll (publishPatches seq count old) (i.bytes ++ (closed fragment ++ line)) := by
  have hline : (s₃.writeLine line).file.bytes = i.bytes ++ (closed fragment ++ line) := by
    rw [Session.writeLine, Session.write_bytes, Patch.apply_end, hlocked.looks.bytes,
      hs.sealed_bytes, List.append_assoc]
  rw [← hline]
  exact (s₃.writeLine line).writeAll_bytes _

/-- A value in place of a record that a sort had placed. -/
theorem patch_rewrites (hs : s.Faces i fragment) {span place : Span}
    (hplaced : PlacedAt (i.bytes ++ fragment) span key) {r : Record}
    (hrecord : Record.decode s.data span.offset = .ok r) {field : Field} (hfit : field.Fits)
    (hplace : r.fieldSpan? field.name = some place) (hlen : place.length = field.value.length) :
    Rewrites key (some field) (versionsIn (i.bytes ++ fragment))
      (versionsIn (s.write ⟨span.offset + place.offset, field.value⟩).file.bytes) := by
  obtain ⟨r', hr, -, hown, rfl, hdecode⟩ := hs.decode hplaced
  rw [hrecord] at hdecode
  obtain rfl := Except.ok.inj hdecode
  obtain ⟨before, after, hbefore, hafter⟩ := versionsIn_fieldSpan hr hfit hplace hlen
  rw [Session.write_bytes, hs.bytes, hbefore, show r.span.offset = r.offset from rfl, hafter, hown]
  exact .patched rfl rfl hown

end Session.Faces

/-- **A write behind a fragment.**  If a sort had placed the key's record, the write sets the field
there; a record that the fragment hides is not touched, and the field alone makes another one. -/
theorem Wrote.behind_fragment {request : WriteRequest} {field : Field} {waited : Option Span}
    (h : Wrote s request waited (.ok (.answered .done) s')) (hs : s.Faces i fragment)
    (hsmall : s.file.bytes.length < UInt32.size) (hnamed : request.field = some field)
    (hreq : SessionM.requestFault? request = none)
    (hwaited : ∀ span, waited = some span → PlacedAt (i.bytes ++ fragment) span request.key) :
    ((∃ span, PlacedAt (i.bytes ++ fragment) span request.key) ∧
        Rewrites request.key (some field) (versionsIn (i.bytes ++ fragment))
          (versionsIn s'.file.bytes)) ∨
      (∀ span, ¬ PlacedAt (i.bytes ++ fragment) span request.key) ∧ ∃ offset,
        versionsIn s'.file.bytes =
          versionsIn (i.bytes ++ fragment) ++ [⟨offset, request.key, [field]⟩] := by
  obtain ⟨hkey, hfits⟩ := WriteRequest.fits_of_requestFault? hreq
  have hfit := hfits field hnamed
  cases h with
  | untouched looks aims fieldless =>
    rw [fieldless] at hnamed
    cases hnamed
  | present looks prepared fieldless relocks =>
    rw [fieldless] at hnamed
    cases hnamed
  | @patched s₁ _ span place r f looks aims named record placed fits relocks =>
    obtain rfl : f = field := Option.some.inj (named.symm.trans hnamed)
    have hs₁ := hs.of_looks looks
    have hplaced := hs₁.aims hwaited aims
    refine Or.inl ⟨⟨_, hplaced⟩, ?_⟩
    rw [relocks.looks.bytes]
    exact hs₁.patch_rewrites hplaced record hfit placed fits
  | @published s₁ s₂ s₃ _ old count seq line looks prepared drafted locked read relocks =>
    have hs₁ := hs.of_looks looks
    obtain ⟨j, hs₂, hrests, hnone, hsome⟩ := hs₁.prepared (looks.bytes ▸ hsmall) prepared
    rw [hnamed] at drafted
    obtain ⟨record, rfl, hrecord, hfresh⟩ :=
      hs₂.drafts drafted hkey hfit fun span hspan => hrests.placedAt (hsome span hspan)
    have hwhole := hs₂.breaks.ordered.toWhole
    obtain ⟨before, after, offset, hbefore, hafter⟩ := hwhole.versionsIn_publish
      hs₂.breaks.newline_notMem hs₂.breaks.ne_nil hfresh seq count fun r hr =>
        ⟨hwhole.toLine_mem hs₂.breaks.newline_notMem (hrecord r hr).1,
          (mem_liveRecordsFrom_iff.1 (hrecord r hr).1).2.2⟩
    have hbytes := relocks.looks.bytes.trans
      (hs₂.publish_bytes locked line seq count (record.map Record.span))
    have hsame : versionsIn (j.bytes ++ fragment) = versionsIn (i.bytes ++ fragment) := by
      rw [versionsIn_eq, versionsIn_eq, hrests.bare]
    rw [hsame] at hbefore
    rw [hbytes, hafter, hbefore]
    cases record with
    | none =>
      refine Or.inr ⟨hnone rfl, offset, ?_⟩
      simp [setField]
    | some r =>
      obtain ⟨-, hown⟩ := hrecord r rfl
      refine Or.inl ⟨⟨_, hsome _ rfl⟩, ?_⟩
      rw [List.append_assoc before]
      exact .moved rfl rfl hown offset

end RecordStore
