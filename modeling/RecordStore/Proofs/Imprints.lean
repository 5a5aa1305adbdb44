import Mathlib.Tactic.Common
import RecordStore.Proofs.Endings
import RecordStore.Proofs.Pace

/-!
# What a write leaves in the file

A write of a field either puts the value in place of one of the same length, and leaves every other byte
alone, or it appends: a fragment at the end is closed, the new line follows, the counters go on, and the
record that the line replaces dies.  A sort that is overdue goes before all this, and places the lines
that are mapped then.

* `Image.written`, `Image.appended` — the file that a write leaves, from the one it found.
* `Session.Meets` — a session that sees whole lines, and maybe not the fragment behind them.
* `SessionM.Imprints` — what the file holds once a stretch has its answer.
* `Store.Trails` — a fragment was added to a store's file behind the back of its clients.

Principal results: `Session.Meets.appendRecord_bytes` — an append; `Call.stretch_imprints` — every
stretch of a write; `Store.write_imprint`.
-/

set_option autoImplicit false

namespace RecordStore

/-! ## The file that a write leaves -/

namespace Image

variable {i : Image} {key : Bytes}

/-- The live record of a key. -/
def record? (i : Image) (key : Bytes) : Option Record := (i.find? key).bind fun line => Record.ofLine? line

/-- Where the file has the value of a field, if that is as long as the new one. -/
def place? (i : Image) (key : Bytes) (field : Field) : Option Nat := do
  let r ← i.record? key
  let place ← r.fieldSpan? field.name
  if place.length = field.value.length then some (r.offset + place.offset) else none

/-- The line that a write appends: a copy of the key's record with the field set, or a first record. -/
def nextLine (i : Image) (key : Bytes) (field : Field) : Bytes :=
  match i.record? key with
  | some r => r.withField field
  | none => encodeRecord key [field]

/-- The lines once the live record of a key has died. -/
def buried (i : Image) (key : Bytes) : List Bytes :=
  i.texts.map fun text => if isLiveText text ∧ keyOf text = key then deadText text else text

/-- What an append sets out from: a sort, if more appends than the limit are counted. -/
def readied (i : Image) (limit : UInt32) (now : Nat) : Image :=
  if limit < i.header.sinceSort then i.sorted now else i

/-- The file after an append to these lines and the fragment behind them. -/
def appended (i : Image) (key : Bytes) (field : Field) (fragment : Bytes) : Bytes :=
  (⟨{ i.header with appendSeq := i.header.appendSeq + 1, sinceSort := i.header.sinceSort + 1 },
    i.buried key⟩ : Image).bytes ++
    ((if fragment = [] then [] else closed fragment) ++ i.nextLine key field)

/-- The file after a write to these lines and the fragment behind them. -/
def written (i : Image) (limit : UInt32) (now : Nat) (key : Bytes) (field : Field) (fragment : Bytes) :
    Bytes :=
  match i.place? key field with
  | some offset => (⟨offset, field.value⟩ : Patch).apply (i.bytes ++ fragment)
  | none => (i.readied limit now).appended key field fragment

/-- The file after the last stretch of a write.  One that has waited for the structural lock has decided
before that it appends. -/
def imprint (i : Image) (pending : Option Stage) (limit : UInt32) (now : Nat) (key : Bytes)
    (field : Field) (fragment : Bytes) : Bytes :=
  match pending with
  | some (.appending _ _) => (i.readied limit now).appended key field fragment
  | _ => i.written limit now key field fragment

theorem written_of_absent (hnone : i.find? key = none) (limit : UInt32) (now : Nat) (field : Field)
    (fragment : Bytes) :
    i.written limit now key field fragment = (i.readied limit now).appended key field fragment := by
  rw [written, place?, record?, hnone]
  rfl

/-- The slots that a sort sets are those of its plan, and the header fields those of a sort. -/
theorem Whole.bytes_sorted (hi : i.Whole) (now : Nat) :
    (i.sorted now).bytes = Patch.applyAll
      ((Index.sortPlan i.bytes Header.length).map
          (fun (line, target) => (⟨line + slotAt, Hex.word (UInt32.ofNat target)⟩ : Patch))
        ++ [⟨Header.sinceSortAt, Hex.word 0⟩, ⟨Header.modifiedAt, Hex.word (UInt32.ofNat now)⟩])
      i.bytes := by
  -- a session that does nothing but sort the file
  obtain ⟨s, hnow, hbytes, hdata, hheadLen⟩ : ∃ s : Session, s.now = now ∧ s.file.bytes = i.bytes ∧
      s.data = i.bytes ∧ s.handle.headLen = Header.length :=
    ⟨⟨now, 0, ⟨.ofPath [], Header.length, 0, ⟨i.bytes.length, 0⟩, none, false⟩,
      .ofBytes i.bytes 0, []⟩, rfl, rfl, List.take_length, rfl⟩
  have hnil : i.bytes = i.bytes ++ [] := (List.append_nil _).symm
  have hsort := Session.sort_bytes_of_data hi (by simp) (hdata.trans hnil) (hbytes.trans hnil) hheadLen
  have hall : s.sort.file.bytes = Patch.applyAll s.sortPatches s.file.bytes := s.writeAll_bytes _
  rw [List.append_nil, hall, Session.sortPatches, Session.stamp, hdata, hheadLen, hbytes, hnow] at hsort
  exact hsort.symm

section Distinct

variable (hi : i.Lined) (hdistinct : (i.versions.map Version.key).Nodup)

include hi

include hdistinct

/-- A sort leaves every record where it is. -/
theorem Lined.span_find?_sorted (now : Nat) (key : Bytes) :
    ((i.sorted now).find? key).map Line.span = (i.find? key).map Line.span := by
  have hsorted := hi.sorted now
  have hversions : (i.sorted now).versions = i.versions := i.versions_sort _
  have hdistinct' := hdistinct
  rw [← hversions] at hdistinct'
  cases hfound : i.find? key with
  | some line =>
    obtain ⟨hlive, hkey⟩ := (hi.find?_eq_some_iff hdistinct).1 hfound
    obtain ⟨line', hlive', hspan, hof⟩ :=
      exists_live_of_versions hsorted (i.extends_sorted now) hversions hlive
    rw [(hsorted.find?_eq_some_iff hdistinct').2 ⟨hlive', (congrArg Version.key hof).trans hkey⟩,
      Option.map_some, Option.map_some, hspan]
  | none =>
    cases hfound' : (i.sorted now).find? key with
    | none => rfl
    | some line' =>
      obtain ⟨hlive', hkey⟩ := (hsorted.find?_eq_some_iff hdistinct').1 hfound'
      have hback : (i.sorted now).Extends i :=
        Image.extends_of_frames (frames_fillSlots _ i _).symm
      obtain ⟨line, hlive, -, hof⟩ := exists_live_of_versions hi hback hversions.symm hlive'
      rw [(hi.find?_eq_some_iff hdistinct).2 ⟨hlive, (congrArg Version.key hof).trans hkey⟩] at hfound
      cases hfound

/-- A line elsewhere is dead or has another key. -/
theorem Lined.not_live_key {line : Line} (hfound : i.find? key = some line) {front back : List Bytes}
    {text : Bytes} (htexts : i.texts = front ++ text :: back)
    (hoffset : Header.length + front.flatten.length ≠ line.offset) :
    ¬ (isLiveText text = true ∧ keyOf text = key) := by
  rintro ⟨hflag, hkey'⟩
  obtain ⟨hlive, hkey⟩ := (hi.find?_eq_some_iff hdistinct).1 hfound
  have hmem : (⟨Header.length + front.flatten.length, text⟩ : Line) ∈ i.live :=
    List.mem_filter.2 ⟨mem_lines_iff.2 ⟨front, back, htexts, rfl⟩, hflag⟩
  exact hoffset (congrArg Line.offset (hi.live_unique hdistinct hmem hlive (hkey'.trans hkey.symm)))

/-- The death of the key's record, and of no other line. -/
theorem Lined.buried_eq {line : Line} (hfound : i.find? key = some line) {front back : List Bytes}
    (htexts : i.texts = front ++ line.text :: back)
    (hoffset : line.offset = Header.length + front.flatten.length) :
    i.buried key = front ++ deadText line.text :: back := by
  obtain ⟨hlive, hkey⟩ := (hi.find?_eq_some_iff hdistinct).1 hfound
  have hpos : ∀ text ∈ i.texts, 0 < text.length := fun text ht => (hi.line text ht).length_pos
  have hkept : ∀ texts : List Bytes, (∀ text ∈ texts, ¬ (isLiveText text = true ∧ keyOf text = key)) →
      texts.map (fun text => if isLiveText text = true ∧ keyOf text = key then deadText text else text) =
        texts := by
    intro texts hall
    conv_rhs => rw [← List.map_id texts]
    exact List.map_congr_left fun text ht => if_neg (hall text ht)
  have hfront : ∀ text ∈ front, ¬ (isLiveText text = true ∧ keyOf text = key) := by
    intro text ht
    obtain ⟨before, after, rfl⟩ := List.append_of_mem ht
    have htextPos := hpos text (by rw [htexts]; simp)
    refine hi.not_live_key hdistinct hfound
      (show i.texts = before ++ text :: (after ++ line.text :: back) by
        rw [htexts, List.append_assoc]; rfl) ?_
    simp only [List.flatten_append, List.flatten_cons, List.length_append] at hoffset
    omega
  have hback : ∀ text ∈ back, ¬ (isLiveText text = true ∧ keyOf text = key) := by
    intro text ht
    obtain ⟨before, after, rfl⟩ := List.append_of_mem ht
    have hlinePos := hpos line.text (by rw [htexts]; simp)
    refine hi.not_live_key hdistinct hfound
      (show i.texts = (front ++ line.text :: before) ++ text :: after by
        rw [htexts, List.append_assoc]; rfl) ?_
    simp only [List.flatten_append, List.flatten_cons, List.length_append]
    omega
  rw [buried, htexts, List.map_append, List.map_cons, hkept front hfront, hkept back hback,
    if_pos ⟨(List.mem_filter.1 hlive).2, hkey⟩]

end Distinct

theorem buried_of_none (hnone : i.find? key = none) : i.buried key = i.texts := by
  rw [buried]
  conv_rhs => rw [← List.map_id i.texts]
  refine List.map_congr_left fun text ht => if_neg ?_
  rintro ⟨hflag, hkey⟩
  rw [← i.map_text_lines] at ht
  obtain ⟨line, hl, rfl⟩ := List.mem_map.1 ht
  have hmiss := List.find?_eq_none.1 hnone line (List.mem_filter.2 ⟨hl, hflag⟩)
  exact hmiss (beq_iff_eq.2 hkey)

end Image

/-! ## Sessions that may not see what was added -/

/-- The session with the file that the image is. -/
def Session.whole (s : Session) (i : Image) : Session :=
  { s with file := { s.file with bytes := i.bytes } }

/-- The session works on whole lines and a fragment behind them.  If there is one, it came when the
handle had mapped all lines. -/
structure Session.Meets (s : Session) (i : Image) (fragment : Bytes) : Prop where
  bytes : s.file.bytes = i.bytes ++ fragment
  tracks : s.handle.Tracks i
  formed : i.Formed
  newline_notMem : newline ∉ fragment
  current : fragment ≠ [] → s.handle.Current i ∧ s.handle.seenSeq = i.header.appendSeq

namespace Session.Meets

variable {s s' : Session} {i : Image} {fragment key : Bytes} {span : Span} {waited : Option Span}

theorem follows (hs : s.Meets i fragment) : (s.whole i).Follows i := ⟨rfl, hs.tracks, hs.formed⟩

/-- The fragment is not seen. -/
theorem read_view (hs : s.Meets i fragment) : s.handle.view.read s.file.bytes =
    s.handle.view.read i.bytes := by
  rw [hs.bytes, View.read, View.read, List.take_append_of_le_length hs.tracks.views.view_le]

theorem data_eq (hs : s.Meets i fragment) : s.data = (s.whole i).data := hs.read_view

theorem found?_eq (hs : s.Meets i fragment) (key : Bytes) : s.found? key = (s.whole i).found? key := by
  rw [found?, hs.data_eq]
  rfl

theorem mapped (hs : s.Meets i fragment) : s.Mapped where
  headLen := hs.tracks.headLen
  sees := hs.follows.mapped.sees
  inside := by
    rw [hs.bytes, List.length_append]
    exact Nat.le_add_right_of_le hs.follows.mapped.inside

theorem counterAt? (hs : s.Meets i fragment) (c : Header.Counter) :
    Header.counterAt? s.file.bytes c.offset = some (c.read i.header) := by
  rw [hs.bytes, Image.bytes, List.append_assoc]
  exact Header.counterAt?_encode i.header c _

theorem fresh_iff (hs : s.Meets i fragment) : s.Fresh ↔ s.handle.seenSeq = i.header.appendSeq := by
  have hread := hs.counterAt? .appendSeq
  rw [Fresh, show Header.appendSeqAt = Header.Counter.appendSeq.offset from rfl, hread, Option.some.injEq]
  exact eq_comm

/-- Whatever looks at the file never maps the fragment. -/
theorem looks (hs : s.Meets i fragment) {h : Handle} (hlooks : s.handle.Looks s.file.bytes h) :
    s.handle.Looks i.bytes h ∧ (s.withHandle h).Meets i fragment ∧
      s.handle.view.length ≤ h.view.length := by
  refine hlooks.preserves (p := fun h => s.handle.Looks i.bytes h ∧ (s.withHandle h).Meets i fragment ∧
    s.handle.view.length ≤ h.view.length) ?_ ⟨.refl _, hs, Nat.le_refl _⟩
  rintro a b hab ⟨hto, ha, hle⟩
  have hview : a.view.read s.file.bytes = a.view.read i.bytes := ha.read_view
  -- without a fragment the file is that of the lines, and with one nothing has changed
  obtain ⟨hlook, hkept⟩ : Handle.Look i.bytes a b ∧
      (fragment ≠ [] → b.view = a.view ∧ b.seenSeq = a.seenSeq) := by
    cases hab with
    | @remap seq read changed =>
      have hnil : fragment = [] := by
        by_contra hne
        have hseq := read.symm.trans
          ((ha.mapped.counterAt? .appendSeq).trans (ha.counterAt? .appendSeq))
        exact changed ((Option.some.inj hseq).trans (ha.current hne).2.symm)
      have hbytes := hs.bytes
      rw [hnil, List.append_nil] at hbytes
      rw [hbytes] at read ⊢
      exact ⟨.remap read changed, fun hne => absurd hnil hne⟩
    | remember found =>
      rw [hview] at found
      exact ⟨.remember found, fun _ => ⟨rfl, rfl⟩⟩
    | forget => exact ⟨.forget, fun _ => ⟨rfl, rfl⟩⟩
  obtain ⟨htracks, hle'⟩ := ha.tracks.look hs.formed.toLined hlook
  refine ⟨hto.trans hlook.looks, ⟨hs.bytes, htracks, hs.formed, hs.newline_notMem, fun hne => ?_⟩,
    Nat.le_trans hle hle'⟩
  obtain ⟨hview', hseq⟩ := hkept hne
  obtain ⟨hcur, hseen⟩ := ha.current hne
  exact ⟨(congrArg View.length hview').trans hcur, hseq.trans hseen⟩

theorem of_looks (hs : s.Meets i fragment) (h : s.Looks s') :
    s'.Meets i fragment ∧ s.handle.view.length ≤ s'.handle.view.length := by
  obtain ⟨-, hmeets, hle⟩ := hs.looks h.handle
  exact ⟨⟨h.bytes.trans hs.bytes, hmeets.tracks, hs.formed, hs.newline_notMem, hmeets.current⟩, hle⟩

/-- **What a stretch believes the place of a key** is the place of its live record. -/
theorem aims (hs : s.Meets i fragment) (hwaited : s.handle.Awaits i waited key)
    (ha : s.Aims waited key span) :
    ∃ line ∈ i.live, keyOf line.text = key ∧ line.span = span ∧ s.handle.Sees line := by
  refine hs.follows.aims hwaited ?_
  cases ha with
  | found found => exact .found ((hs.found?_eq key).symm.trans found)
  | waited waited live => exact .waited waited (hs.data_eq ▸ live)

theorem decode (hs : s.Meets i fragment) {line : Line} (hl : line ∈ i.lines)
    (hsees : s.handle.Sees line) :
    ∃ r : Record, Record.decode s.data line.offset = .ok r ∧ r.toLine = line := by
  rw [hs.data_eq]
  exact hs.follows.decode hl hsees

section Lookups

variable (hs : s.Meets i fragment) (hdistinct : (i.versions.map Version.key).Nodup)

include hs

theorem find?_of_aims (hwaited : s.handle.Awaits i waited key) (ha : s.Aims waited key span)
    (hdistinct : (i.versions.map Version.key).Nodup) :
    ∃ line, i.find? key = some line ∧ line.span = span ∧ s.handle.Sees line := by
  obtain ⟨line, hlive, hkey, hspan, hsees⟩ := hs.aims hwaited ha
  exact ⟨line, (hs.formed.toLined.find?_eq_some_iff hdistinct).2 ⟨hlive, hkey⟩, hspan, hsees⟩

theorem find?_of_missing (hsmall : i.bytes.length < UInt32.size) (hmissing : s.found? key = none)
    (hfresh : s.Fresh) : i.find? key = none := by
  have hwhole : (s.whole i).Fresh := (hs.follows.counterAt? .appendSeq).trans
    (congrArg some (hs.fresh_iff.1 hfresh).symm)
  rw [hs.found?_eq] at hmissing
  exact hs.follows.find?_of_missing hsmall hmissing hwhole

end Lookups

/-! ### Appends -/

/-- **A sort** by a session that has just looked at the append sequence places the lines, and leaves
the fragment as it is. -/
theorem sort (hs : s.Meets i fragment) (hsmall : i.bytes.length < UInt32.size) (hfresh : s.Fresh) :
    s.sort.Meets (i.sorted s.now) fragment := by
  have hseq := hs.fresh_iff.1 hfresh
  have hcur : s.handle.Current i :=
    hs.tracks.current_of_seenSeq hs.formed.toLined hsmall hseq.symm
  have hdata : s.data = i.bytes ++ [] := by
    rw [hs.data_eq, List.append_nil]
    show s.handle.view.read i.bytes = i.bytes
    rw [View.read, hcur, List.take_length]
  obtain ⟨-, -, hhandle⟩ := s.sort_frame
  have hgrows : i.Grows (i.sorted s.now) := Image.grows_of_frames (Image.frames_fillSlots _ i _) rfl
  refine ⟨?_, ?_, hs.formed.toLined.sort (fun _ => Image.offset_lt_of_small hsmall) rfl,
    hs.newline_notMem, fun _ => ?_⟩
  · exact Session.sort_bytes_of_data hs.formed.toLined.whole (by simp) hdata hs.bytes hs.tracks.headLen
  · rw [hhandle]
    exact (hs.tracks.mono hgrows).markModified
  · rw [hhandle]
    exact ⟨hcur.trans (i.length_sorted _).symm, hseq⟩

/-- **An append up to its line**: the lines are placed if a sort is overdue, and the key's record is
known. -/
theorem prepared (hs : s.Meets i fragment) (hdistinct : (i.versions.map Version.key).Nodup)
    (hsmall : i.bytes.length < UInt32.size) {old : Option Span} {count : UInt32} {j : Image}
    (hj : j = i.readied s.handle.config.resortLimit s.now) (h : Prepared s key old count s') :
    s'.Meets j fragment ∧ count = j.header.sinceSort ∧ (old = none → j.find? key = none) ∧
      ∀ span, old = some span → ∃ line, j.find? key = some line ∧ line.span = span ∧
        s'.handle.Sees line := by
  have hfound : ∀ {handle : Handle} {span : Span}, s.handle.Looks s.file.bytes handle →
      (s.withHandle handle).found? key = some span → ∃ line, i.find? key = some line ∧
        line.span = span ∧ handle.Sees line := by
    intro handle span hlooks hfound
    have haims : (s.withHandle handle).Aims none key span := .found hfound
    exact (hs.looks hlooks).2.1.find?_of_aims (by rintro _ ⟨⟩) haims hdistinct
  have hcount : ∀ {count : UInt32}, Header.counterAt? s.file.bytes Header.sinceSortAt = some count →
      count = i.header.sinceSort := fun hread =>
    Option.some.inj (hread.symm.trans (hs.counterAt? .sinceSort))
  cases h with
  | @rested handle count read rested looks fresh =>
    obtain rfl := hcount read
    have hmeets := (hs.looks looks).2.1
    rw [Image.readied, if_neg rested] at hj
    subst hj
    exact ⟨hmeets, rfl, fun hnone => hmeets.find?_of_missing hsmall hnone (fresh hnone),
      fun span hsome => hfound looks hsome⟩
  | @sorted handle count read overdue looks fresh =>
    obtain rfl := hcount read
    have hmeets := (hs.looks looks).2.1
    rw [Image.readied, if_pos overdue] at hj
    subst hj
    have hspans := hs.formed.toLined.span_find?_sorted hdistinct s.now key
    obtain ⟨-, -, hhandle⟩ := (s.withHandle handle).sort_frame
    refine ⟨hmeets.sort hsmall fresh, rfl, fun hnone => ?_, fun span hsome => ?_⟩
    · rw [hmeets.find?_of_missing hsmall hnone fresh, Option.map_none] at hspans
      exact Option.map_eq_none_iff.1 hspans
    · obtain ⟨line, hfind, rfl, hsees⟩ := hfound looks hsome
      rw [hfind, Option.map_some] at hspans
      obtain ⟨line', hfind', hspan⟩ := Option.map_eq_some_iff.1 hspans
      refine ⟨line', hfind', hspan, ?_⟩
      have hend : line'.offset + line'.text.length = line.offset + line.text.length := by
        rw [show line'.offset = line.offset from congrArg Span.offset hspan,
          show line'.text.length = line.text.length from congrArg Span.length hspan]
      unfold Handle.Sees
      rw [hhandle, hend]
      exact hsees

/-- The fragment is closed. -/
theorem sealed_bytes (hs : s.Meets i fragment) : s.sealed.file.bytes =
    i.bytes ++ (if fragment = [] then [] else closed fragment) := by
  have hend := hs.formed.toLined.whole.endsLine_bytes
  unfold Session.sealed
  by_cases hnil : fragment = []
  · have hbytes := hs.bytes
    rw [hnil, List.append_nil] at hbytes
    rw [if_pos hnil, List.append_nil, hbytes, if_pos hend, hbytes]
  · have hopen : endsLine s.file.bytes = false := by
      rw [hs.bytes, endsLine_append hnil, Bool.eq_false_iff]
      exact fun hends => hs.newline_notMem (newline_mem_of_endsLine hends)
    rw [if_neg hnil, if_neg (by rw [hopen]; decide)]
    refine (s.writeAll_bytes _).trans ?_
    rw [hs.bytes, hs.tracks.headLen]
    refine applyAll_sealPatches hend hs.newline_notMem ?_
    rw [Image.length_bytes]
    exact Nat.le_add_right _ _

/-- The line that a write appends. -/
theorem drafts (hs : s.Meets i fragment) {field : Field} {old : Option Span} {line : Bytes}
    (hdrafted : Drafted s.data key (some field) old line) (hnone : old = none → i.find? key = none)
    (hsome : ∀ span, old = some span → ∃ line, i.find? key = some line ∧ line.span = span ∧
      s.handle.Sees line) : line = i.nextLine key field := by
  unfold Image.nextLine
  cases hdrafted with
  | fresh =>
    rw [Image.record?, hnone rfl]
    rfl
  | copy record =>
    obtain ⟨l, hfind, rfl, hsees⟩ := hsome _ rfl
    obtain ⟨r', hr', rfl⟩ := hs.decode (List.mem_filter.1 (List.mem_of_find?_eq_some hfind)).1 hsees
    obtain rfl := Except.ok.inj (record.symm.trans hr')
    rw [Image.record?, hfind, Option.bind_some, Record.ofLine?_eq_some_iff.2 ⟨Record.wellFormed _, rfl⟩]

/-- **The line is published**, and the record that it replaces dies. -/
theorem publish_bytes (hs : s.Meets i fragment) (hdistinct : (i.versions.map Version.key).Nodup)
    (hcount : countAppend i.header.sinceSort = i.header.sinceSort + 1) {field : Field}
    {old : Option Span} {seq : UInt32} {s₁ : Session}
    (hnone : old = none → i.find? key = none)
    (hsome : ∀ span, old = some span → ∃ line, i.find? key = some line ∧ line.span = span)
    (hlocked : s.sealed.Relocks s₁)
    (hread : Header.counterAt? (s₁.writeLine (i.nextLine key field)).file.bytes Header.appendSeqAt =
      some seq) :
    ((s₁.writeLine (i.nextLine key field)).publish seq i.header.sinceSort old).file.bytes =
      i.appended key field fragment := by
  have hheader : SessionM.publishedHeader i.header i.header.sinceSort =
      { i.header with appendSeq := i.header.appendSeq + 1, sinceSort := i.header.sinceSort + 1 } := by
    rw [SessionM.publishedHeader, hcount]
  have hcut : ∀ (header : Header) (texts : List Bytes) (tail : Bytes),
      (⟨header, texts ++ [tail]⟩ : Image).bytes = (⟨header, texts⟩ : Image).bytes ++ tail := by
    intro header texts tail
    simp [Image.bytes]
  -- what is added behind the lines counts as one more of them
  unfold Image.appended
  rw [← hheader]
  generalize htail : (if fragment = [] then [] else closed fragment) ++ i.nextLine key field = tail
  have hwritten : (s₁.writeLine (i.nextLine key field)).file.bytes =
      (⟨i.header, i.texts ++ [tail]⟩ : Image).bytes := by
    rw [Session.writeLine, Session.write_bytes, Patch.apply_end, hlocked.looks.bytes, hs.sealed_bytes,
      hcut, List.append_assoc, htail]
  have hseq : seq = i.header.appendSeq := by
    rw [hwritten] at hread
    exact Option.some.inj (hread.symm.trans (Image.counterAt?_bytes ⟨i.header, _⟩ .appendSeq))
  have hbytes : ((s₁.writeLine (i.nextLine key field)).publish seq i.header.sinceSort old).file.bytes =
      Patch.applyAll (publishPatches seq i.header.sinceSort old)
        (⟨i.header, i.texts ++ [tail]⟩ : Image).bytes := by
    rw [← hwritten]
    exact (s₁.writeLine _).writeAll_bytes _
  rw [hbytes, hseq, ← hcut]
  cases old with
  | none =>
    rw [Image.buried_of_none (hnone rfl)]
    exact SessionM.applyAll_counters i.header (i.texts ++ [tail]) i.header.sinceSort []
  | some span =>
    obtain ⟨line, hfind, rfl⟩ := hsome span rfl
    have hl := (List.mem_filter.1 (List.mem_of_find?_eq_some hfind)).1
    obtain ⟨front, back, htexts, hoffset⟩ := Image.mem_lines_iff.1 hl
    rw [hs.formed.toLined.buried_eq hdistinct hfind htexts hoffset, htexts]
    exact SessionM.applyAll_publishPatches i.header front back
      (hs.formed.line _ (Image.text_mem hl)) hoffset i.header.sinceSort tail

/-- **An append.** -/
theorem appendRecord_bytes (hs : s.Meets i fragment) (hdistinct : (i.versions.map Version.key).Nodup)
    (hpaced : i.Paced) (hsmall : s.file.bytes.length < UInt32.size) {field : Field}
    {appended : Option Nat} (h : SessionM.appendRecord key (some field) s = .ok appended s') :
    s'.file.bytes =
      (i.readied s.handle.config.resortLimit s.now).appended key field fragment := by
  have hsmall' : i.bytes.length < UInt32.size := by
    rw [hs.bytes, List.length_append] at hsmall
    omega
  have happends := SessionM.appendRecord_appends hs.mapped (Session.lockable_of_small hsmall) key
    (some field)
  generalize hj : i.readied s.handle.config.resortLimit s.now = j
  rw [h] at happends
  cases happends with
  | present prepared fieldless => cases fieldless
  | @published s₂ s₃ old count seq line prepared drafted locked read =>
    obtain ⟨hmeets, rfl, hnone, hsome⟩ := hs.prepared hdistinct hsmall' hj.symm prepared
    have hready : (j.versions.map Version.key).Nodup ∧
        countAppend j.header.sinceSort = j.header.sinceSort + 1 := by
      rw [← hj, Image.readied]
      split
      · have hversions : (i.sorted s.now).versions = i.versions := i.versions_sort _
        exact ⟨by rw [hversions]; exact hdistinct, rfl⟩
      · exact ⟨hdistinct, hpaced.countAppend_eq hs.formed.toLined hsmall'⟩
    obtain rfl := hmeets.drafts drafted hnone hsome
    refine hmeets.publish_bytes hready.1 hready.2 hnone (fun span hspan => ?_) locked read
    obtain ⟨line, hfind, hline, -⟩ := hsome span hspan
    exact ⟨line, hfind, hline⟩

end Session.Meets

/-! ## Stretches of a write -/

/-- The session a write of this limit and second goes on in. -/
structure Session.Starts (s : Session) (i : Image) (fragment : Bytes) (limit : UInt32) (now : Nat) :
    Prop where
  meets : s.Meets i fragment
  limit : s.handle.config.resortLimit = limit
  now : s.now = now

theorem Session.Looks.now {s s' : Session} (h : s.Looks s') : s'.now = s.now := by
  cases h
  rfl

theorem Session.Starts.of_looks {s s' : Session} {i : Image} {fragment : Bytes} {limit : UInt32}
    {now : Nat} (h : s.Starts i fragment limit now) (hlooks : s.Looks s') :
    s'.Starts i fragment limit now :=
  ⟨(h.meets.of_looks hlooks).1, (congrArg Config.resortLimit hlooks.config).trans h.limit,
    hlooks.now.trans h.now⟩

namespace SessionM

/-- Once the computation has its answer, the file holds these bytes. -/
def Imprints (act : SessionM Progress) (s : Session) (bytes : Bytes) : Prop :=
  ∀ a s', act s = .ok (.answered a) s' → s'.file.bytes = bytes

namespace Imprints

variable {α : Type} {act : SessionM α} {next : α → SessionM Progress} {s : Session} {bytes : Bytes}

theorem bind (h : ∀ a s', act s = .ok a s' → Imprints (next a) s' bytes) :
    Imprints (act >>= next) s bytes := by
  intro a s' hresult
  cases hact : act s with
  | ok x s₁ =>
    rw [bind_ok hact] at hresult
    exact h x s₁ hact a s' hresult
  | error e s₁ =>
    rw [bind_error hact] at hresult
    cases hresult

theorem of_onlyLooks {act : SessionM Progress} (h : OnlyLooks act) (s : Session) :
    Imprints act s s.file.bytes := by
  intro a s' hresult
  have hlooks := h s
  rw [final_ok hresult] at hlooks
  exact hlooks.bytes

theorem throw (e : Error) : Imprints (throw e) s bytes := by
  rintro a s' ⟨⟩

theorem wait (stage : Stage) : Imprints (wait stage) s bytes := by
  rintro a s' ⟨⟩

end Imprints

section Write

variable {s s' : Session} {i : Image} {fragment : Bytes} {limit : UInt32} {now : Nat}
  {request : WriteRequest} {field : Field} {waited : Option Span}
  (hdistinct : (i.versions.map Version.key).Nodup) (hpaced : i.Paced)
  (hsmall : (i.bytes ++ fragment).length < UInt32.size) (hnamed : request.field = some field)

include hdistinct hpaced hsmall hnamed

/-- **A write under the structural lock** appends. -/
theorem appendLocked_imprints (hs : s.Starts i fragment limit now) (held : Option Nat) :
    Imprints (appendLocked request held) s
      ((i.readied limit now).appended request.key field fragment) := by
  have hbytes := hs.meets.bytes
  refine .bind fun outcome s₁ houtcome => ?_
  cases happ : appendRecord request.key request.field s with
  | error e s₂ =>
    obtain ⟨rfl, rfl⟩ := EStateM.Result.ok.inj ((unlockingStructure_error happ).symm.trans houtcome)
    dsimp only
    split
    · exact .bind fun _ _ _ => .throw e
    · exact .throw e
  | ok appended s₂ =>
    obtain ⟨rfl, rfl⟩ := EStateM.Result.ok.inj ((unlockingStructure_ok happ).symm.trans houtcome)
    rw [hnamed] at happ
    have happended := hs.meets.appendRecord_bytes hdistinct hpaced (hbytes ▸ hsmall) happ
    rw [hs.limit, hs.now] at happended
    rw [← happended]
    dsimp only
    show Imprints _ (s₂.free structuralOffset) (s₂.free structuralOffset).file.bytes
    refine .of_onlyLooks ((onlyRelocks_forM_unlock held).onlyLooks.bind fun _ => ?_) _
    split
    · exact (onlyRelocks_forM_unlock appended).onlyLooks.bind fun _ => Session.Looks.refl
    · exact Session.Looks.refl

theorem append_imprints (hs : s.Starts i fragment limit now) (held : Option Nat) :
    Imprints (append request held) s
      ((i.readied limit now).appended request.key field fragment) := by
  refine .bind fun granted s₁ htry => ?_
  have hlooks := (onlyRelocks_tryLock structuralOffset .exclusive).onlyLooks s
  rw [final_ok htry] at hlooks
  split
  · exact appendLocked_imprints hdistinct hpaced hsmall hnamed (hs.of_looks hlooks) held
  · exact .wait _

/-- **A write to a record that is there** puts the value in place, if it fits, or appends. -/
theorem update_imprints (hs : s.Starts i fragment limit now) {line : Line}
    (hfind : i.find? request.key = some line) (hsees : s.handle.Sees line) :
    Imprints (update request line.span) s (i.written limit now request.key field fragment) := by
  have hl := (List.mem_filter.1 (List.mem_of_find?_eq_some hfind)).1
  obtain ⟨r, hdec, rfl⟩ := hs.meets.decode hl hsees
  have hrecord : i.record? request.key = some r := by
    rw [Image.record?, hfind, Option.bind_some]
    exact Record.ofLine?_eq_some_iff.2 ⟨r.wellFormed, rfl⟩
  have happend := append_imprints hdistinct hpaced hsmall hnamed hs (some r.offset)
  unfold update
  rw [hnamed]
  refine .bind fun r' s₁ hrecordAt => ?_
  have hdec' : Record.decode s.data r.toLine.span.offset = .ok r := hdec
  rw [recordAt_eq_match, hdec'] at hrecordAt
  obtain ⟨rfl, rfl⟩ := EStateM.Result.ok.inj hrecordAt
  have hplace : i.place? request.key field = (r.fieldSpan? field.name).bind fun place =>
      if place.length = field.value.length then some (r.offset + place.offset) else none := by
    rw [Image.place?, hrecord]
    rfl
  unfold Image.written
  rw [hplace]
  cases r.fieldSpan? field.name with
  | none => exact happend
  | some place =>
    rw [Option.bind_some]
    dsimp only
    split
    · dsimp only
      rw [← hs.meets.bytes, ← s.write_bytes]
      refine .bind fun _ s₂ hmodify => ?_
      obtain ⟨-, rfl⟩ := EStateM.Result.ok.inj hmodify
      exact .of_onlyLooks (onlyRelocks_finishInPlace request r.toLine.span).onlyLooks _
    · exact happend

/-- **A write that looked its key up** under the lock of its record. -/
theorem writeLocked_imprints (hs : s.Starts i fragment limit now)
    (hawaits : s.handle.Awaits i waited request.key) {act : SessionM Locked} {s₀ : Session}
    (hlooked : Looked s waited request.key (act s₀)) :
    Imprints (act >>= writeLocked request) s₀ (i.written limit now request.key field fragment) := by
  have hsmall' : i.bytes.length < UInt32.size := by
    rw [List.length_append] at hsmall
    omega
  refine .bind fun locked s₁ hact => ?_
  rw [hact] at hlooked
  cases hlooked with
  | absent looks missing fresh =>
    have hs₁ := hs.of_looks looks
    rw [Image.written_of_absent (hs₁.meets.find?_of_missing hsmall' missing fresh)]
    exact append_imprints hdistinct hpaced hsmall hnamed hs₁ none
  | granted looks aims =>
    have hs₁ := hs.of_looks looks
    have hawaits₁ : s₁.handle.Awaits i waited request.key := fun span hw =>
      ⟨(hawaits span hw).1, Nat.le_trans (hawaits span hw).2 (hs.meets.of_looks looks).2⟩
    obtain ⟨line, hfind, rfl, hsees⟩ := hs₁.meets.find?_of_aims hawaits₁ aims hdistinct
    exact update_imprints hdistinct hpaced hsmall hnamed hs₁ hfind hsees
  | busy looks found => exact .wait _

/-- **A write from its beginning.** -/
theorem write_imprints (hs : s.Starts i fragment limit now) :
    Imprints (write request) s (i.written limit now request.key field fragment) := by
  have hsmall' : i.bytes.length < UInt32.size := by
    rw [List.length_append] at hsmall
    omega
  have hnothing : ∀ s : Session, s.handle.Awaits i none request.key := by
    rintro s span ⟨⟩
  unfold write
  cases requestFault? request with
  | some fault => exact .throw _
  | none =>
    dsimp only
    split
    · exact writeLocked_imprints hdistinct hpaced hsmall hnamed hs (hnothing s)
        (locateLocking_looked hs.meets.mapped request.key)
    · -- the caller says that it holds the lock
      refine .bind fun found s₁ hfound => ?_
      have hlocated := locate_cases hs.meets.mapped request.key .ifMissing
      rw [hfound] at hlocated
      cases hlocated with
      | @located handle looks fresh trusted =>
        have hs₁ := hs.of_looks (.withHandle looks)
        cases hspan : (s.withHandle handle).found? request.key with
        | none =>
          rw [Image.written_of_absent
            (hs₁.meets.find?_of_missing hsmall' hspan (fresh (Or.inr hspan)))]
          exact append_imprints hdistinct hpaced hsmall hnamed hs₁ none
        | some span =>
          obtain ⟨line, hfind, rfl, hsees⟩ :=
            hs₁.meets.find?_of_aims (hnothing _) (.found hspan) hdistinct
          exact update_imprints hdistinct hpaced hsmall hnamed hs₁ hfind hsees

end Write

end SessionM

open SessionM in
/-- **Every stretch of a write** that answers leaves this file. -/
theorem Call.stretch_imprints {s : Session} {i : Image} {fragment : Bytes} {limit : UInt32} {now : Nat}
    {request : WriteRequest} {field : Field} (hdistinct : (i.versions.map Version.key).Nodup)
    (hpaced : i.Paced) (hsmall : (i.bytes ++ fragment).length < UInt32.size)
    (hnamed : request.field = some field) (hs : s.Starts i fragment limit now) {pending : Option Stage}
    (hsame : ∀ stage, pending = some stage → stage.call = .write request)
    (hawaits : s.handle.Awaits i (pending.bind Stage.span?) request.key) :
    Imprints ((Call.write request).stretch pending) s
      (i.imprint pending limit now request.key field fragment) := by
  cases pending with
  | none => exact write_imprints hdistinct hpaced hsmall hnamed hs
  | some stage =>
    -- the lock that the stage waits for is granted, or it waits on
    refine .bind fun granted s₁ htry => ?_
    obtain ⟨hfault, rfl⟩ := (tryLock_brings s stage.offset).ok htry
    cases granted with
    | false => exact .wait _
    | true =>
      rw [if_pos rfl, if_pos rfl]
      have hrelocks : s.Relocks (s.hold stage.offset) := .mk _
      have hs₁ := hs.of_looks hrelocks.looks
      have hcall := hsame stage rfl
      cases stage with
      | writing request' span =>
        cases hcall
        exact writeLocked_imprints hdistinct hpaced hsmall hnamed hs₁ hawaits
          (recheck_looked hs₁.meets.mapped request.key hfault)
      | appending request' held =>
        cases hcall
        exact appendLocked_imprints hdistinct hpaced hsmall hnamed hs₁ held
      | reading | readingAt | locking | deleting | resorting => cases hcall

/-! ## Stores -/

/-- A fragment was added to the file of a store, and nothing else has happened to its clients. -/
structure Store.Trails (store torn : Store) (fragment : Bytes) : Prop where
  clients : torn.clients = store.clients
  bytes : torn.file.bytes = store.file.bytes ++ fragment
  newline_notMem : newline ∉ fragment

/-- The client's handle has mapped the whole file and has seen its append sequence. -/
def Store.Seen (store : Store) (handle : Handle) : Prop :=
  handle.view.length = store.file.bytes.length ∧
    Header.counterAt? store.file.bytes Header.appendSeqAt = some handle.seenSeq

namespace Store

variable {store torn : Store} {fragment : Bytes} {turn : Turn} {handle : Handle}
  {request : WriteRequest} {pending : Option Stage} {field : Field} {a : Answer}

/-- **The exact effect of a write of a field** on the file of a store that the library alone has made,
also where a fragment was added behind the back of a handle that had seen everything: the file is the
old one but for what a write changes. -/
theorem write_imprint (hmade : store.Made) (htrails : store.Trails torn fragment)
    (hsmall : torn.file.bytes.length < UInt32.size)
    (hruns : torn.Runs turn handle (.write request) pending) (hnamed : request.field = some field)
    (hseen : fragment ≠ [] → store.Seen handle) (hdone : (torn.serve turn).2 = .answered a) :
    ∃ i : Image, i.Lined ∧ (i.versions.map Version.key).Nodup ∧ store.file.bytes = i.bytes ∧
      (torn.serve turn).1.file.bytes =
        i.imprint pending handle.config.resortLimit turn.now request.key field fragment := by
  obtain ⟨i, htracks, hdistinct, hpaced⟩ := hmade.paced
  have hclient : store.client? turn.holder = some (.atStage handle pending) := by
    rw [← hruns.client, client?, client?, htrails.clients]
  have hmember := htracks.clients _ _ hclient
  obtain ⟨hbytes, htracked, hawaits⟩ : store.file.bytes = i.bytes ∧ handle.Tracks i ∧
      handle.Awaits i (pending.bind Stage.span?) request.key := by
    cases pending with
    | none => exact ⟨hmember.1, hmember.2, by rintro span ⟨⟩⟩
    | some stage =>
      obtain ⟨hbytes, htracked, -, hawaits⟩ := hmember
      exact ⟨hbytes, htracked, hawaits _ (by rw [hruns.same stage rfl]; rfl)⟩
  have hstarts : (torn.session turn.now turn.holder handle).Starts i fragment
      handle.config.resortLimit turn.now := by
    refine ⟨⟨htrails.bytes.trans (by rw [hbytes]), htracked, htracks.formed, htrails.newline_notMem,
      fun hne => ?_⟩, rfl, rfl⟩
    obtain ⟨hview, hseq⟩ := hseen hne
    rw [hbytes] at hview hseq
    exact ⟨hview, Option.some.inj (hseq.symm.trans (i.counterAt?_bytes .appendSeq))⟩
  have himprints := Call.stretch_imprints hdistinct hpaced
    (by rwa [← hbytes, ← htrails.bytes]) hnamed hstarts hruns.same hawaits
  refine ⟨i, htracks.formed.toLined, hdistinct, hbytes, ?_⟩
  rw [hruns.serve] at hdone ⊢
  cases hstretch : (Call.write request).stretch pending (torn.session turn.now turn.holder handle) with
  | error e s' =>
    rw [hstretch] at hdone
    cases hdone
  | ok progress s' =>
    rw [hstretch] at hdone
    cases progress with
    | waiting stage => cases hdone
    | answered a' => exact himprints a' s' hstretch

/-- The key `k` gets a value for the field `f`. -/
def setting (value : List Char) : WriteRequest :=
  ⟨ascii ['k'], some ⟨ascii ['f'], ascii value⟩, .transient⟩

/-- One client has written a record, and has mapped the file again. -/
def upToDate : Store :=
  ((Store.ofBytes [] 100).run [⟨100, 1, .opening (.ofPath Config.defaultPath)⟩,
    ⟨100, 1, .call (.write (setting ['1']))⟩, ⟨100, 1, .call .refresh⟩]).1

/-- What its client remembers. -/
def upToDateHandle : Handle := ⟨.ofPath Config.defaultPath, Header.length, 1, ⟨56, 1⟩, none, true⟩

/-- The start of a line was added to its file. -/
def overtaken : Store :=
  { upToDate with file := upToDate.file.patch 100 ⟨upToDate.file.bytes.length, ascii ['+', '0', '0']⟩ }

/-- A longer value: the line is closed and dead, the new one follows, and the old one is dead. -/
theorem write_imprint_of_torn_line : ∃ i : Image, i.Lined ∧ (i.versions.map Version.key).Nodup ∧
    upToDate.file.bytes = i.bytes ∧
    (overtaken.serve ⟨200, 1, .call (.write (setting ['2', '2']))⟩).1.file.bytes =
      i.imprint none Config.defaultResortLimit 200 (ascii ['k']) ⟨ascii ['f'], ascii ['2', '2']⟩
        (ascii ['+', '0', '0']) ∧
    (overtaken.serve ⟨200, 1, .call (.write (setting ['2', '2']))⟩).1.file.bytes.drop Header.length =
      deadFlag :: (encodeRecord (ascii ['k']) [⟨ascii ['f'], ascii ['1']⟩]).tail ++
        (ascii ['-', '0', '0'] ++ [newline] ++
          encodeRecord (ascii ['k']) [⟨ascii ['f'], ascii ['2', '2']⟩]) := by
  have hmade : upToDate.Made :=
    .served (.served (.served (.created 100) (by decide +kernel)
      ⟨100, 1, .opening (.ofPath Config.defaultPath)⟩) (by decide +kernel)
      ⟨100, 1, .call (.write (setting ['1']))⟩) (by decide +kernel) ⟨100, 1, .call .refresh⟩
  have hclient : overtaken.client? 1 = some (.idle upToDateHandle) := by decide +kernel
  have hruns : overtaken.Runs ⟨200, 1, .call (.write (setting ['2', '2']))⟩ upToDateHandle
      (.write (setting ['2', '2'])) none :=
    ⟨by simp only [running?, hclient], hclient, by rintro stage ⟨⟩,
      by simp only [journal, hclient]; rfl⟩
  have htrails : upToDate.Trails overtaken (ascii ['+', '0', '0']) :=
    ⟨rfl, by decide +kernel, by decide +kernel⟩
  obtain ⟨i, hlined, hdistinct, hbytes, himprint⟩ := write_imprint hmade htrails
    (by decide +kernel) hruns rfl (fun _ => ⟨by decide +kernel, by decide +kernel⟩)
    (show _ = Outcome.answered .done by decide +kernel)
  exact ⟨i, hlined, hdistinct, hbytes, himprint, by decide +kernel⟩

end Store

end RecordStore
