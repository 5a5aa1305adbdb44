import Mathlib.Tactic.Common
import RecordStore.Append
import RecordStore.Proofs.Lookups

/-!
# Sorting and appending

On a sound file that a session has structurally locked, a sort leaves every version as it is, and an
append puts the new version of its key at the end of the file in place of the old one.

* `Image.sorted` — an image after a sort; `Resorted` — two images that only a sort tells apart.
* `Image.Publishes` — a key's new version takes the place of its old one.
* `Appended` — what appending the new version of a key comes to.

Principal results: `Session.On.sort`; `commitLine_none`, `commitLine_some` — the writes that publish
a line; `appendRecord_cases` — the whole append; `resort_eq`.
-/

set_option autoImplicit false

namespace RecordStore

/-! ## Writes of a session -/

namespace Session

/-- The holder has taken an exclusive lock if it was free. -/
def tryHold (s : Session) (offset : Nat) : Session :=
  { s with file := { s.file with locks := s.file.locks.tryTake s.holder offset } }

theorem On.tryHold {s : Session} {i : Image} (hs : s.On i) (offset : Nat) :
    (s.tryHold offset).On i :=
  ⟨hs.bytes, hs.fits, hs.sound⟩

theorem write_bytes (s : Session) (patch : Patch) :
    (s.write patch).file.bytes = patch.apply s.file.bytes :=
  s.file.patch_bytes s.now patch

theorem write_locks (s : Session) (patch : Patch) : (s.write patch).file.locks = s.file.locks :=
  s.file.patch_locks s.now patch

theorem writeAll_bytes (s : Session) (patches : List Patch) :
    (s.writeAll patches).file.bytes = Patch.applyAll patches s.file.bytes := by
  induction patches generalizing s with
  | nil => rfl
  | cons patch more ih =>
    have := ih (s.write patch)
    rw [write_bytes] at this
    exact this

theorem writeAll_cons (s : Session) (patch : Patch) (more : List Patch) :
    s.writeAll (patch :: more) = (s.write patch).writeAll more := rfl

theorem writeAll_journal (s : Session) (patches : List Patch) :
    (s.writeAll patches).journal = s.journal ++ patches := by
  induction patches generalizing s with
  | nil => exact (List.append_nil _).symm
  | cons patch more ih =>
    rw [writeAll_cons, ih, write, List.append_assoc]
    rfl

/-- Writes change the bytes, and nothing else that a call looks at. -/
theorem writeAll_frame (s : Session) (patches : List Patch) :
    (s.writeAll patches).file.locks = s.file.locks ∧ (s.writeAll patches).handle = s.handle ∧
      (s.writeAll patches).holder = s.holder := by
  induction patches generalizing s with
  | nil => exact ⟨rfl, rfl, rfl⟩
  | cons patch more ih =>
    obtain ⟨hlocks, hhandle, hholder⟩ := ih (s.write patch)
    exact ⟨hlocks.trans (write_locks s patch), hhandle, hholder⟩

end Session

/-! ## Sorting -/

namespace Image

/-- The image after a sort in the second `now`. -/
def sorted (i : Image) (now : Nat) : Image :=
  ⟨{ i.header with sinceSort := 0, modified := UInt32.ofNat now }, i.sortTexts⟩

theorem Whole.sorted {i : Image} (h : i.Whole) (now : Nat) : (i.sorted now).Whole :=
  ⟨h.version, Index.isLine_fillSlots h.line _⟩

theorem Sound.sorted {i : Image} (h : i.Sound) (hsmall : i.bytes.length < UInt32.size) (now : Nat) :
    (i.sorted now).Sound ∧ (i.sorted now).versions = i.versions :=
  h.sort hsmall rfl rfl

theorem extends_sorted (i : Image) (now : Nat) : i.Extends (i.sorted now) :=
  extends_of_frames (frames_fillSlots _ i _)

theorem length_sorted (i : Image) (now : Nat) : (i.sorted now).bytes.length = i.bytes.length := by
  have := length_flatten_of_frames (frames_fillSlots i.header i ((Index.byKey i.lines).map Line.offset))
  rw [length_bytes, length_bytes]
  exact congrArg (Header.length + ·) this

/-- Where versions are the same and lines have stayed, live lines stand at the same places. -/
theorem exists_live_of_versions {i j : Image} (hj : j.Lined) (hij : i.Extends j)
    (hversions : j.versions = i.versions) {line : Line} (hlive : line ∈ i.live) :
    ∃ line' ∈ j.live, line'.span = line.span ∧ Version.of line' = Version.of line := by
  obtain ⟨hl, -⟩ := List.mem_filter.1 hlive
  have hv : Version.of line ∈ j.versions := hversions ▸ List.mem_map_of_mem hlive
  obtain ⟨line', hl', hlive', hof⟩ := mem_versions_iff.1 hv
  obtain ⟨line'', hl'', hspan, -⟩ := hij.shows ⟨line, hl, rfl, rfl⟩
  have hoff : line''.offset = line'.offset := by
    rw [show line''.offset = line.offset from congrArg Span.offset hspan]
    exact (congrArg Version.offset hof).symm
  obtain rfl := eq_of_offset hj.line hl'' hl' hoff
  exact ⟨line'', List.mem_filter.2 ⟨hl', hlive'⟩, hspan, hof⟩

/-- Where versions are the same and lines have stayed, keys are found at the same places. -/
theorem find?_of_versions {i j : Image} (hi : i.Sound) (hj : j.Sound) (hij : i.Extends j)
    (hversions : j.versions = i.versions) (key : Bytes) :
    (j.find? key = none ↔ i.find? key = none) ∧
      ∀ line, i.find? key = some line → ∃ line', j.find? key = some line' ∧
        line'.span = line.span ∧ fieldsOf line'.text = fieldsOf line.text := by
  have hsome : ∀ line, i.find? key = some line → ∃ line', j.find? key = some line' ∧
      line'.span = line.span ∧ fieldsOf line'.text = fieldsOf line.text := by
    intro line hline
    obtain ⟨hlive, rfl⟩ := hi.find?_eq_some_iff.1 hline
    obtain ⟨line', hlive', hspan, hof⟩ :=
      exists_live_of_versions hj.formed.toLined hij hversions hlive
    refine ⟨line', hj.find?_eq_some_iff.2 ⟨hlive', congrArg Version.key hof⟩, hspan, ?_⟩
    exact congrArg Version.fields hof
  refine ⟨⟨?_, ?_⟩, hsome⟩
  · intro hnone
    cases hline : i.find? key with
    | none => rfl
    | some line =>
      obtain ⟨line', hline', -⟩ := hsome line hline
      rw [hnone] at hline'
      cases hline'
  · intro hnone
    have hcontents : j.contents key = i.contents key := by rw [contents, contents, hversions]
    rw [contents_eq_find?, contents_eq_find?, hnone] at hcontents
    exact Option.map_eq_none_iff.1 hcontents

end Image

/-- The writes of a sort by a session that sees these lines: the slots, one by one, then two header
fields.  A last line without its newline has no slot. -/
theorem Session.sortPatches_of_data {s : Session} {i : Image} {fragment : Bytes} (hi : i.Whole)
    (hf : newline ∉ fragment) (hdata : s.data = i.bytes ++ fragment)
    (hheadLen : s.handle.headLen = Header.length) :
    s.sortPatches = (((i.lines.filter fun line => hasSlot line.text).map Line.offset).zip
        ((Index.byKey i.lines).map Line.offset)).map Index.slotPatch ++
      [⟨Header.Counter.sinceSort.offset, Hex.word 0⟩,
        ⟨Header.Counter.modified.offset, Hex.word (UInt32.ofNat s.now)⟩] := by
  rw [Image.bytes, List.append_assoc] at hdata
  have hplan : Index.sortPlan s.data s.handle.headLen =
      ((i.lines.filter fun line => hasSlot line.text).map Line.offset).zip
        ((Index.byKey i.lines).map Line.offset) := by
    rw [Index.sortPlan, Index.physicalRecords, Index.sorted, hdata, hheadLen, ← i.header.length_encode,
      Index.slotted_append_fragment hi.line hf, Header.length_encode]
    rfl
  rw [sortPatches, hplan]
  rfl

/-- The writes of a sort by a session that sees the whole file. -/
theorem Session.sortPatches_eq {s : Session} {i : Image} {fragment : Bytes} (hi : i.Whole)
    (hf : newline ∉ fragment) (hbytes : s.file.bytes = i.bytes ++ fragment)
    (hheadLen : s.handle.headLen = Header.length)
    (hcur : s.handle.view.length = s.file.bytes.length) :
    s.sortPatches = (((i.lines.filter fun line => hasSlot line.text).map Line.offset).zip
        ((Index.byKey i.lines).map Line.offset)).map Index.slotPatch ++
      [⟨Header.Counter.sinceSort.offset, Hex.word 0⟩,
        ⟨Header.Counter.modified.offset, Hex.word (UInt32.ofNat s.now)⟩] := by
  refine sortPatches_of_data hi hf ?_ hheadLen
  rw [data, View.read, hcur, List.take_length, hbytes]

/-- New slots for the lines of an image, from the first one on. -/
theorem Image.applyAll_slotPatches (i : Image) (targets : List Nat) (fragment : Bytes) :
    Patch.applyAll ((((i.lines.filter fun line => hasSlot line.text).map Line.offset).zip
        targets).map Index.slotPatch) (i.bytes ++ fragment) =
      (⟨i.header, Index.fillSlots i.texts targets⟩ : Image).bytes ++ fragment := by
  have hslots := Index.applyAll_slotPatches i.texts targets i.header.encode fragment
  rw [Header.length_encode, ← List.append_assoc, ← List.append_assoc] at hslots
  exact hslots

/-- **A sort by a session that sees these lines** makes of them what a sort of the image is, and leaves
what follows as it is. -/
theorem Session.sort_bytes_of_data {s : Session} {i : Image} {seen rest : Bytes} (hi : i.Whole)
    (hf : newline ∉ seen) (hdata : s.data = i.bytes ++ seen) (hbytes : s.file.bytes = i.bytes ++ rest)
    (hheadLen : s.handle.headLen = Header.length) :
    s.sort.file.bytes = (i.sorted s.now).bytes ++ rest := by
  have hcut : ∀ j : Image, j.bytes ++ rest = j.header.encode ++ (j.texts.flatten ++ rest) :=
    fun j => List.append_assoc ..
  have hall : s.sort.file.bytes = Patch.applyAll s.sortPatches s.file.bytes := s.writeAll_bytes _
  rw [hall, Session.sortPatches_of_data hi hf hdata hheadLen, hbytes, Patch.applyAll_append,
    Image.applyAll_slotPatches, hcut, Patch.applyAll_cons, Patch.applyAll_cons, Header.apply_counter,
    Header.apply_counter, hcut]
  rfl

/-- **A sort by a session that sees the whole file.**  A last line without its newline is left as it
is. -/
theorem Session.sort_bytes_append {s : Session} {i : Image} {fragment : Bytes} (hi : i.Whole)
    (hf : newline ∉ fragment) (hbytes : s.file.bytes = i.bytes ++ fragment)
    (hheadLen : s.handle.headLen = Header.length)
    (hcur : s.handle.view.length = s.file.bytes.length) :
    s.sort.file.bytes = (i.sorted s.now).bytes ++ fragment := by
  refine sort_bytes_of_data hi hf ?_ hbytes hheadLen
  rw [data, View.read, hcur, List.take_length, hbytes]

theorem Session.sort_bytes {s : Session} {i : Image} (hi : i.Lined) (hbytes : s.file.bytes = i.bytes)
    (hheadLen : s.handle.headLen = Header.length) (hcur : s.handle.Current i) :
    s.sort.file.bytes = (i.sorted s.now).bytes := by
  have hnil : i.bytes ++ [] = i.bytes := List.append_nil _
  rw [sort_bytes_append hi.whole (by simp) (hbytes.trans hnil.symm) hheadLen (by rw [hbytes]; exact hcur),
    List.append_nil]

/-- A sort leaves the locks and what the handle sees alone. -/
theorem Session.sort_frame (s : Session) : s.sort.file.locks = s.file.locks ∧
    s.sort.holder = s.holder ∧ s.sort.handle = { s.handle with modified := true } := by
  obtain ⟨hlocks, hhandle, hholder⟩ := s.writeAll_frame s.sortPatches
  refine ⟨hlocks, hholder, ?_⟩
  simp only [Session.sort, Session.markModified, hhandle]

theorem Session.On.sort {s : Session} {i : Image} (hs : s.On i)
    (hsmall : i.bytes.length < UInt32.size) (hcur : s.handle.Current i) :
    s.sort.On (i.sorted s.now) := by
  obtain ⟨-, -, hhandle⟩ := s.sort_frame
  have hfits : s.sort.handle.Fits i := by
    rw [hhandle]
    exact ⟨hs.fits.headLen, hs.fits.view, hs.fits.cache⟩
  exact ⟨Session.sort_bytes hs.sound.formed.toLined hs.bytes hs.fits.headLen hcur,
    hfits.mono (i.extends_sorted _), (hs.sound.sorted hsmall _).1⟩

/-! ## Publishing a line -/

/-- The version of a new line takes the place of the old version of its key. -/
structure Image.Publishes (i j : Image) (key : Bytes) (fields : List Field) : Prop where
  sound : j.Sound
  extends_ : i.Extends j
  versions : j.versions = (i.versions.filter fun v => v.key ≠ key) ++ [⟨i.bytes.length, key, fields⟩]

theorem Image.Publishes.contents {i j : Image} {key : Bytes} {fields : List Field}
    (h : i.Publishes j key fields) : j.contents = i.contents.set key fields := by
  have hne : ∀ w ∈ i.versions.filter (fun v => v.key ≠ key), w.key ≠ key := by
    intro w hw
    simpa using (List.mem_filter.1 hw).2
  rw [Image.contents, h.versions, Contents.ofVersions_concat hne, Contents.ofVersions_filter,
    Contents.set_delete]
  rfl

/-- The versions of other keys stay. -/
theorem Image.Publishes.mem_versions_iff {i j : Image} {key : Bytes} {fields : List Field}
    (h : i.Publishes j key fields) {v : Version} (hv : v.key ≠ key) :
    v ∈ j.versions ↔ v ∈ i.versions := by
  rw [h.versions, List.mem_append, List.mem_filter, List.mem_singleton]
  constructor
  · rintro (⟨hm, -⟩ | rfl)
    · exact hm
    · exact absurd rfl hv
  · intro hm
    exact Or.inl ⟨hm, by simpa using hv⟩

/-- The new version is one of them. -/
theorem Image.Publishes.mem_versions {i j : Image} {key : Bytes} {fields : List Field}
    (h : i.Publishes j key fields) : (⟨i.bytes.length, key, fields⟩ : Version) ∈ j.versions := by
  rw [h.versions]
  exact List.mem_append_right _ (List.mem_singleton_self _)

namespace Image

theorem Whole.endsLine_bytes {i : Image} (h : i.Whole) : endsLine i.bytes = true := by
  have hhead := (Header.isLine_encode h.version).endsLine
  by_cases hnil : i.texts = []
  · simpa [bytes, hnil] using hhead
  · have hend := endsLine_flatten h.line hnil
    rw [bytes, endsLine_append fun e => by simp [e, endsLine] at hend]
    exact hend

/-- The bytes with a new line at the end. -/
theorem bytes_concat (i : Image) (line : Bytes) :
    (⟨i.bytes.length, line⟩ : Patch).apply i.bytes = (⟨i.header, i.texts ++ [line]⟩ : Image).bytes := by
  rw [Patch.apply_end]
  simp [bytes]

end Image

namespace SessionM

variable {s : Session} {i : Image} {line key : Bytes} {fields : List Field}

/-- What a session is after it published a line. -/
structure Published (s s' : Session) (i j : Image) (key : Bytes) (fields : List Field) : Prop where
  on : s'.On j
  publishes : i.Publishes j key fields
  locks : s'.file.locks = s.file.locks
  holder : s'.holder = s.holder
  config : s'.handle.config = s.handle.config

/-- The counters after an append. -/
def publishedHeader (header : Header) (count : UInt32) : Header :=
  { header with appendSeq := header.appendSeq + 1, sinceSort := countAppend count }

theorem commitLine_eq (hs : s.On i) {j : Image} (count : UInt32) (old : Option Span)
    (hbytes : Patch.applyAll (publishPatches i.header.appendSeq count old)
      (⟨i.header, i.texts ++ [line]⟩ : Image).bytes = j.bytes)
    (hpub : i.Publishes j key fields) :
    ∃ s', commitLine i.bytes.length line count old s = .ok () s' ∧ Published s s' i j key fields := by
  have hwritten : (s.write ⟨i.bytes.length, line⟩).file.bytes =
      (⟨i.header, i.texts ++ [line]⟩ : Image).bytes := by
    rw [Session.write_bytes, hs.bytes, Image.bytes_concat]
  have hfits : (s.write ⟨i.bytes.length, line⟩).handle.Fits ⟨i.header, i.texts ++ [line]⟩ :=
    hs.fits.mono (i.extends_append _ _)
  obtain ⟨hlocks, hhandle, hholder⟩ := (s.write ⟨i.bytes.length, line⟩).writeAll_frame
    (publishPatches i.header.appendSeq count old)
  refine ⟨((s.write ⟨i.bytes.length, line⟩).writeAll
    (publishPatches i.header.appendSeq count old)).markModified, ?_, ⟨⟨?_, ?_, hpub.sound⟩, hpub, ?_,
    hholder, ?_⟩⟩
  · unfold commitLine
    rw [modify_bind, bind_ok (appendSeq_eq hwritten hfits)]
    rfl
  · simp only [Session.markModified]
    rw [Session.writeAll_bytes, hwritten, hbytes]
  · have hf := hs.fits.mono hpub.extends_
    simp only [Session.markModified, hhandle]
    exact ⟨hf.headLen, hf.view, hf.cache⟩
  · exact hlocks.trans (Session.write_locks _ _)
  · simp only [Session.markModified, hhandle]
    rfl

theorem applyAll_counters (header : Header) (texts : List Bytes) (count : UInt32)
    (patches : List Patch) :
    Patch.applyAll ([⟨Header.appendSeqAt, Hex.word (header.appendSeq + 1)⟩,
        ⟨Header.sinceSortAt, Hex.word (countAppend count)⟩] ++ patches)
        (⟨header, texts⟩ : Image).bytes =
      Patch.applyAll patches (⟨publishedHeader header count, texts⟩ : Image).bytes := by
  have h1 := Image.bytes_counter ⟨header, texts⟩ .appendSeq (header.appendSeq + 1)
  have h2 := Image.bytes_counter ⟨{ header with appendSeq := header.appendSeq + 1 }, texts⟩ .sinceSort
    (countAppend count)
  simp only [Header.Counter.offset, Header.Counter.set] at h1 h2
  rw [List.cons_append, List.cons_append, List.nil_append, Patch.applyAll_cons, h1,
    Patch.applyAll_cons, h2]
  rfl

/-- The counters of a new line, and the death of the line that it replaces. -/
theorem applyAll_publishPatches (header : Header) (front back : List Bytes) {old : Line}
    (hline : IsLine old.text) (hoff : old.offset = Header.length + front.flatten.length)
    (count : UInt32) (line : Bytes) :
    Patch.applyAll (publishPatches header.appendSeq count (some old.span))
        (⟨header, (front ++ old.text :: back) ++ [line]⟩ : Image).bytes =
      (⟨publishedHeader header count,
        (front ++ Image.deadText old.text :: back) ++ [line]⟩ : Image).bytes := by
  have hkill := Image.bytes_exchange (publishedHeader header count) front (back ++ [line])
    (Image.fits_dead hline.length_pos)
  have hpatches : publishPatches header.appendSeq count (some old.span) =
      [⟨Header.appendSeqAt, Hex.word (header.appendSeq + 1)⟩,
        ⟨Header.sinceSortAt, Hex.word (countAppend count)⟩] ++ [⟨old.offset, [deadFlag]⟩] := rfl
  rw [hpatches, applyAll_counters, hoff]
  simp only [List.append_assoc, List.cons_append]
  exact hkill

/-- **A new key**: its line is written and counted. -/
theorem commitLine_none (hs : s.On i) (hsmall : i.bytes.length < UInt32.size) (count : UInt32)
    (hfresh : FreshLine line key fields) (hnone : i.find? key = none) :
    ∃ j s', commitLine i.bytes.length line count none s = .ok () s' ∧
      Published s s' i j key fields := by
  have hkey : ∀ v ∈ i.versions, v.key ≠ key := by
    intro v hv hvkey
    obtain ⟨l, hl, hlive, rfl⟩ := Image.mem_versions_iff.1 hv
    have := hs.sound.find?_eq_some_iff.2 ⟨List.mem_filter.2 ⟨hl, hlive⟩, hvkey⟩
    rw [hnone] at this
    cases this
  refine ⟨⟨publishedHeader i.header count, i.texts ++ [line]⟩, ?_⟩
  refine commitLine_eq hs count none ?_ ⟨?_, ?_, ?_⟩
  · exact applyAll_counters _ _ _ []
  · exact hs.sound.append hsmall (publishedHeader i.header count) rfl rfl hfresh hkey
  · exact i.extends_append _ _
  · rw [Image.versions_concat i _ hfresh, List.filter_eq_self.2 (by simpa using hkey)]

/-- **A new version**: its line is written and counted, and then the old record dies. -/
theorem commitLine_some (hs : s.On i) (hsmall : i.bytes.length < UInt32.size) (count : UInt32)
    (hfresh : FreshLine line key fields) {old : Line} (hold : i.find? key = some old) :
    ∃ j s', commitLine i.bytes.length line count (some old.span) s = .ok () s' ∧
      Published s s' i j key fields := by
  obtain ⟨hin, rfl⟩ := hs.sound.find?_eq_some_iff.1 hold
  obtain ⟨hl, hlive⟩ := List.mem_filter.1 hin
  obtain ⟨front, back, htexts, hoff⟩ := Image.mem_lines_iff.1 hl
  obtain ⟨header, texts⟩ := i
  dsimp only at htexts
  subst htexts
  obtain ⟨hkilled, hversions⟩ := hs.sound.kill hlive
  have hwell := hs.sound.wellFormed old.text (by simp)
  have hrep := Image.replaces_deadText (hs.sound.line old.text (by simp)) hwell
  have hframes := hrep.frames_eq header front back
  have hlen : (⟨header, front ++ Image.deadText old.text :: back⟩ : Image).bytes.length =
      (⟨header, front ++ old.text :: back⟩ : Image).bytes.length := by
    rw [Image.length_bytes, Image.length_bytes]
    exact congrArg (Header.length + ·) (Image.length_flatten_of_frames hframes)
  have hkey : ∀ v ∈ (⟨header, front ++ Image.deadText old.text :: back⟩ : Image).versions,
      v.key ≠ keyOf old.text := by
    intro v hv
    rw [hversions] at hv
    simpa using (List.mem_filter.1 hv).2
  refine ⟨⟨publishedHeader header count, (front ++ Image.deadText old.text :: back) ++ [line]⟩, ?_⟩
  refine commitLine_eq hs count (some old.span) ?_ ⟨?_, ?_, ?_⟩
  · exact applyAll_publishPatches header front back (hs.sound.line old.text (by simp)) hoff count line
  · exact hkilled.append (hlen ▸ hsmall) (publishedHeader header count) rfl rfl hfresh hkey
  · exact (Image.extends_of_frames hframes).trans (Image.extends_append _ _ _)
  · have := Image.versions_concat ⟨header, front ++ Image.deadText old.text :: back⟩
      (publishedHeader header count) hfresh
    rw [hversions, hlen] at this
    exact this

/-! ## The whole append -/

/-- A sound file ends in a newline already. -/
theorem sealTail_eq (hs : s.On i) : sealTail s = .ok i.bytes.length s := by
  unfold sealTail
  rw [get_bind, hs.bytes, if_pos (hs.sound.formed.toLined.whole.endsLine_bytes)]
  rfl

/-- The lock of a place is tried, and the answer does not matter. -/
theorem tryLock_tryHold (s : Session) {offset : Nat} (hoff : lockFault? offset = none) :
    ∃ granted, tryLock offset .exclusive s = .ok granted (s.tryHold offset) := by
  have htry := tryLock_eq s hoff
  unfold Session.tryHold LockTable.tryTake
  by_cases hb : s.file.locks.blocks s.holder offset .exclusive = true
  · rw [if_pos hb] at htry ⊢
    exact ⟨false, htry⟩
  · rw [if_neg hb] at htry ⊢
    exact ⟨true, htry⟩

/-- Two images that only a sort tells apart. -/
structure Resorted (i j : Image) : Prop where
  extends_ : i.Extends j
  versions : j.versions = i.versions
  length : j.bytes.length = i.bytes.length

/-- What appending a key's new version comes to.  A key that is there is left alone where no field
is named. -/
inductive Appended (s : Session) (i : Image) (key : Bytes) (field : Option Field) :
    EStateM.Result Error Session (Option Nat) → Prop where
  | present {s' : Session} {j : Image} (fieldless : field = none) (found : i.find? key ≠ none)
    (on : s'.On j) (resorted : Resorted i j) (locks : s'.file.locks = s.file.locks)
    (holder : s'.holder = s.holder) (config : s'.handle.config = s.handle.config) :
    Appended s i key field (.ok none s')
  | published {s' : Session} {j : Image} {fields : List Field} (named : field = none → i.find? key = none)
    (on : s'.On j) (publishes : i.Publishes j key fields)
    (written : i.contents.write key field = i.contents.set key fields)
    (locks : s'.file.locks = s.file.locks.tryTake s.holder i.bytes.length)
    (holder : s'.holder = s.holder) (config : s'.handle.config = s.handle.config) :
    Appended s i key field (.ok (some i.bytes.length) s')

/-- The line that a write appends, and what it writes down. -/
theorem lineToAppend_cases (hs : s.On i) (hkey : ∀ b ∈ key, isDelimiter b = false)
    {field : Option Field} (hfits : ∀ f, field = some f → f.Fits)
    (hsees : ∀ old, i.find? key = some old → s.handle.Sees old) :
    (field = none ∧ i.find? key ≠ none ∧
      lineToAppend key field ((i.find? key).map Line.span) s = .ok none s) ∨
    ∃ (line : Bytes) (fields : List Field),
      lineToAppend key field ((i.find? key).map Line.span) s = .ok (some line) s ∧
        FreshLine line key fields ∧ i.contents.write key field = i.contents.set key fields ∧
        (field = none → i.find? key = none) := by
  cases hfind : i.find? key with
  | none =>
    right
    refine ⟨encodeRecord key field.toList, field.toList, rfl, ?_, ?_, fun _ => rfl⟩
    · refine freshLine_encodeRecord hkey fun f hf => hfits f ?_
      rwa [Option.mem_toList] at hf
    · unfold Contents.write
      rw [Image.contents_eq_find?, hfind]
      rfl
  | some old =>
    cases field with
    | none => exact Or.inl ⟨rfl, by simp, rfl⟩
    | some f =>
      right
      have hl := hs.sound.mem_lines_of_find? hfind
      have hline := hs.sound.line _ (Image.text_mem hl)
      obtain ⟨r, hr, rfl⟩ := recordAt_eq hs hl (hsees old hfind)
      have hfresh := Record.freshLine_withField hline (hfits f rfl)
      have hrkey : keyOf r.text = key := (hs.sound.find?_eq_some_iff.1 hfind).2
      rw [hrkey] at hfresh
      refine ⟨r.withField f, setField (fieldsOf r.text) f, ?_, hfresh, ?_, by simp⟩
      · unfold lineToAppend
        simp only [Option.map_some]
        rw [bind_ok hr]
        rfl
      · unfold Contents.write
        rw [Image.contents_eq_find?, hfind]
        rfl

/-- An overdue sort, by a session that sees the whole file. -/
theorem exists_resorted (hs : s.On i) (hsmall : i.bytes.length < UInt32.size) (overdue : Prop)
    [Decidable overdue] (hcur : overdue → s.handle.Current i) :
    ∃ j, (if overdue then s.sort else s).On j ∧ Resorted i j := by
  by_cases ho : overdue
  · rw [if_pos ho]
    exact ⟨i.sorted s.now, hs.sort hsmall (hcur ho),
      ⟨i.extends_sorted _, (hs.sound.sorted hsmall _).2, i.length_sorted _⟩⟩
  · rw [if_neg ho]
    exact ⟨i, hs, ⟨.refl i, rfl, rfl⟩⟩

/-- Keys are found in the same places after a sort. -/
theorem Resorted.map_span_find? {i j : Image} (h : Resorted i j) (hi : i.Sound) (hj : j.Sound)
    (key : Bytes) : (j.find? key).map Line.span = (i.find? key).map Line.span := by
  obtain ⟨hnone, hsome⟩ := Image.find?_of_versions hi hj h.extends_ h.versions key
  cases hf : i.find? key with
  | none => rw [hnone.2 hf]
  | some line =>
    obtain ⟨line', hf', hspan, -⟩ := hsome line hf
    rw [hf', Option.map_some, Option.map_some, hspan]

/-- What is found before a sort is seen after it. -/
theorem Resorted.sees {i j : Image} (h : Resorted i j) (hi : i.Sound) (hj : j.Sound) {s : Session}
    {seen : Handle} (hview : s.handle.view = seen.view)
    (hsees : ∀ line, i.find? key = some line → seen.Sees line) :
    ∀ line, j.find? key = some line → s.handle.Sees line := by
  intro line hfind
  have hspan := h.map_span_find? hi hj key
  rw [hfind, Option.map_some, eq_comm, Option.map_eq_some_iff] at hspan
  obtain ⟨first, hfirst, hsame⟩ := hspan
  rw [Line.span, Line.span, Span.mk.injEq] at hsame
  have hseen := hsees first hfirst
  rw [Handle.Sees, hsame.1, hsame.2] at hseen
  rw [Handle.Sees, hview]
  exact hseen

/-- A sort, overdue or not, touches no lock and no mapping. -/
theorem overdue_frame (s : Session) (overdue : Prop) [Decidable overdue] :
    (if overdue then s.sort else s).file.locks = s.file.locks ∧
      (if overdue then s.sort else s).holder = s.holder ∧
      (if overdue then s.sort else s).handle.config = s.handle.config ∧
      (if overdue then s.sort else s).handle.view = s.handle.view := by
  split
  · obtain ⟨hlocks, hholder, hhandle⟩ := s.sort_frame
    rw [hhandle]
    exact ⟨hlocks, hholder, rfl, rfl⟩
  · exact ⟨rfl, rfl, rfl, rfl⟩

theorem Resorted.contents_eq {i j : Image} (h : Resorted i j) : j.contents = i.contents := by
  rw [Image.contents, Image.contents, h.versions]

theorem Resorted.publishes {i i' j : Image} (h : Resorted i i') (hpub : i'.Publishes j key fields) :
    i.Publishes j key fields := by
  refine ⟨hpub.sound, h.extends_.trans hpub.extends_, ?_⟩
  rw [hpub.versions, h.versions, h.length]

theorem ite_modify_bind {β : Type} (c : Prop) [Decidable c] (f : Session → Session)
    (next : PUnit → SessionM β) (s : Session) :
    (if c then ((modify f : SessionM PUnit) >>= next) else next ⟨⟩) s =
      next ⟨⟩ (if c then f s else s) := by
  split
  · rfl
  · rfl

/-- **An append under the structural lock** puts the key's new version at the end, or leaves the key
alone where no field is named; an overdue sort goes before. -/
theorem appendRecord_cases (hs : s.On i) (hsmall : i.bytes.length < UInt32.size)
    (hkey : ∀ b ∈ key, isDelimiter b = false) {field : Option Field}
    (hfits : ∀ f, field = some f → f.Fits) :
    Appended s i key field (appendRecord key field s) := by
  unfold appendRecord
  rw [bind_ok (sinceSort_eq hs), get_bind]
  dsimp only
  generalize s.handle.config.resortLimit = limit
  generalize i.header.sinceSort = count
  obtain ⟨h, hlocate, hlook, hsees, hcur⟩ := locate_eq hs key
    (if limit < count then .always else .ifMissing)
  rw [bind_ok hlocate, ite_modify_bind]
  -- the session after an overdue sort
  obtain ⟨i', hs', hsort⟩ := exists_resorted (hs.withHandle hlook.fits) hsmall (limit < count)
    (fun ho => hcur (by rw [if_pos ho]))
  obtain ⟨hlocks, hholder, hconfig, hview⟩ := overdue_frame (s.withHandle h) (limit < count)
  generalize (if limit < count then (s.withHandle h).sort else s.withHandle h) = s₁
    at hs' hlocks hholder hconfig hview ⊢
  replace hlocks : s₁.file.locks = s.file.locks := hlocks
  replace hholder : s₁.holder = s.holder := hholder
  replace hconfig : s₁.handle.config = s.handle.config := hconfig.trans hlook.config
  have hsees' := hsort.sees hs.sound hs'.sound hview hsees
  have hspan := hsort.map_span_find? hs.sound hs'.sound key
  have hmissing : i'.find? key = none ↔ i.find? key = none := by
    rw [← Option.map_eq_none_iff (f := Line.span), hspan, Option.map_eq_none_iff]
  rw [← hspan]
  rcases lineToAppend_cases hs' hkey hfits hsees' with ⟨hnone, hfound, hline⟩ |
    ⟨line, fields, hline, hfresh, hwritten, hnamed⟩
  · rw [bind_ok hline]
    exact .present hnone (fun h => hfound (hmissing.2 h)) hs' hsort hlocks hholder hconfig
  · rw [bind_ok hline]
    dsimp only
    rw [bind_ok (sealTail_eq hs')]
    have hsmall' : i'.bytes.length < UInt32.size := hsort.length ▸ hsmall
    obtain ⟨granted, htry⟩ := tryLock_tryHold s₁ (lockFault?_of_lt hsmall')
    rw [bind_ok htry]
    have hheld := hs'.tryHold i'.bytes.length
    obtain ⟨j, s', hcommit, hpub⟩ : ∃ j s', commitLine i'.bytes.length line
        (if limit < count then 0 else count) ((i'.find? key).map Line.span)
        (s₁.tryHold i'.bytes.length) = .ok () s' ∧
          Published (s₁.tryHold i'.bytes.length) s' i' j key fields := by
      cases hfind : i'.find? key with
      | none => exact commitLine_none hheld hsmall' _ hfresh hfind
      | some old => exact commitLine_some hheld hsmall' _ hfresh hfind
    rw [bind_ok (attempt_ok hcommit), hsort.length]
    refine .published (fun hf => hmissing.1 (hnamed hf)) hpub.on (hsort.publishes hpub.publishes) ?_ ?_
      (hpub.holder.trans hholder) (hpub.config.trans hconfig)
    · rw [← hsort.contents_eq]
      exact hwritten
    · rw [hpub.locks, Session.tryHold, hlocks, hholder, hsort.length]

/-- **A resort** by a session that has the structural lock. -/
theorem resort_eq (hs : s.On i) (hsmall : i.bytes.length < UInt32.size) : ∃ s' j,
    resort s = .ok () s' ∧ s'.On j ∧ Resorted i j ∧ s'.file.locks = s.file.locks ∧
      s'.holder = s.holder ∧ s'.handle.config = s.handle.config := by
  unfold resort
  obtain ⟨changed, h, hr, hlook, hcur⟩ := refresh_eq hs
  obtain ⟨hlocks, hholder, hhandle⟩ := (s.withHandle h).sort_frame
  refine ⟨(s.withHandle h).sort, i.sorted s.now, ?_, (hs.withHandle hlook.fits).sort hsmall hcur,
    ⟨i.extends_sorted _, (hs.sound.sorted hsmall _).2, i.length_sorted _⟩, hlocks, hholder, ?_⟩
  · rw [bind_ok hr]
    rfl
  · rw [hhandle]
    exact hlook.config

end SessionM

end RecordStore
