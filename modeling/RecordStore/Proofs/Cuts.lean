import Mathlib.Tactic.Common
import RecordStore.Proofs.Bare
import RecordStore.Proofs.Effects

/-!
# Writes that are cut off

A call writes to the file piece by piece, and may be cut off between any two of its writes.  What
is then left is an image again, and says of every key what the file said before the write or says
after it.  If the cut goes through a sort, the slots are of no use, but the header still asks for
that sort.

* `Patch.Cuts` — a property of the file at every point where its writes may be cut off.
* `Session.Cuts` — the same for what a session has written since an earlier one.
* `othersAt` — the live records of all keys but one, their slots aside.
* `Image.Remains` — what a write of a key leaves where it is cut off.

Principal results: `Image.Formed.cuts_sort` — a sort; `Image.Formed.cuts_publish` — a new line with
what follows it; `Wrote.cuts` — every stretch of a write.
-/

set_option autoImplicit false

namespace RecordStore

/-! ## Points where writes are cut off -/

namespace Patch

/-- `p` holds of the bytes wherever the patches are cut off, before the first and after the last
included. -/
def Cuts (p : Bytes → Prop) (patches : List Patch) (bytes : Bytes) : Prop :=
  ∀ n, p (applyAll (patches.take n) bytes)

variable {p : Bytes → Prop} {patch : Patch} {front back : List Patch} {bytes : Bytes}

theorem cuts_nil : Cuts p [] bytes ↔ p bytes :=
  ⟨fun h => h 0, fun h n => by rwa [List.take_nil]⟩

theorem cuts_cons : Cuts p (patch :: back) bytes ↔ p bytes ∧ Cuts p back (patch.apply bytes) := by
  refine ⟨fun h => ⟨h 0, fun n => h (n + 1)⟩, ?_⟩
  rintro ⟨hp, hmore⟩ n
  cases n with
  | zero => exact hp
  | succ n => exact hmore n

theorem cuts_append : Cuts p (front ++ back) bytes ↔
    Cuts p front bytes ∧ Cuts p back (applyAll front bytes) := by
  induction front generalizing bytes with
  | nil =>
    rw [List.nil_append, cuts_nil]
    exact ⟨fun h => ⟨h 0, h⟩, And.right⟩
  | cons patch more ih => rw [List.cons_append, cuts_cons, ih, cuts_cons, applyAll_cons, and_assoc]

end Patch

namespace Session

variable {p : Bytes → Prop} {s s' s'' : Session}

/-- What `s'` has written since `s`, with `p` wherever that may be cut off. -/
def Cuts (p : Bytes → Prop) (s s' : Session) : Prop :=
  ∃ patches, s'.journal = s.journal ++ patches ∧
    s'.file.bytes = Patch.applyAll patches s.file.bytes ∧ Patch.Cuts p patches s.file.bytes

theorem Cuts.of_same (hjournal : s'.journal = s.journal) (hbytes : s'.file.bytes = s.file.bytes)
    (hp : p s.file.bytes) : s.Cuts p s' :=
  ⟨[], by rw [hjournal, List.append_nil], hbytes, Patch.cuts_nil.2 hp⟩

theorem Cuts.of_looks (h : s.Looks s') (hp : p s.file.bytes) : s.Cuts p s' :=
  .of_same h.journal h.bytes hp

theorem Cuts.trans (h : s.Cuts p s') (h' : s'.Cuts p s'') : s.Cuts p s'' := by
  obtain ⟨front, hjournal, hbytes, hcuts⟩ := h
  obtain ⟨back, hjournal', hbytes', hcuts'⟩ := h'
  refine ⟨front ++ back, by rw [hjournal', hjournal, List.append_assoc],
    by rw [hbytes', hbytes, Patch.applyAll_append], Patch.cuts_append.2 ⟨hcuts, ?_⟩⟩
  rwa [← hbytes]

theorem Cuts.first (h : s.Cuts p s') : p s.file.bytes := by
  obtain ⟨patches, -, -, hcuts⟩ := h
  exact hcuts 0

/-- A session holds at its end what holds wherever it may be cut off. -/
theorem Cuts.last (h : s.Cuts p s') : p s'.file.bytes := by
  obtain ⟨patches, -, hbytes, hcuts⟩ := h
  rw [hbytes, ← patches.take_length]
  exact hcuts _

theorem Cuts.mono {q : Bytes → Prop} (hpq : ∀ bytes, p bytes → q bytes) (h : s.Cuts p s') :
    s.Cuts q s' := by
  obtain ⟨patches, hjournal, hbytes, hcuts⟩ := h
  exact ⟨patches, hjournal, hbytes, fun n => hpq _ (hcuts n)⟩

/-- Looks before the writes make no difference. -/
theorem Cuts.after (h : s'.Cuts p s'') (hlooks : s.Looks s') : s.Cuts p s'' :=
  (Cuts.of_looks hlooks (hlooks.bytes ▸ h.first)).trans h

/-- Neither do locks behind them. -/
theorem Cuts.between {s₁ s₂ : Session} (h : s₁.Cuts p s₂) (hlooks : s.Looks s₁)
    (hrelocks : s₂.Relocks s') : s.Cuts p s' :=
  (h.trans (.of_looks hrelocks.looks h.last)).after hlooks

theorem Cuts.writeAll {patches : List Patch} (h : Patch.Cuts p patches s.file.bytes) :
    s.Cuts p (s.writeAll patches).markModified :=
  ⟨patches, s.writeAll_journal patches, s.writeAll_bytes patches, h⟩

end Session

/-! ## Records apart from one key -/

/-- The live records among these lines that have another key, their slots aside. -/
def othersAt (key : Bytes) (start : Nat) (texts : List Bytes) : List Line :=
  (bareAt start texts).filter fun line => keyOf line.text ≠ key

section Others

variable {key : Bytes} (start : Nat)

theorem othersAt_append (front back : List Bytes) : othersAt key start (front ++ back) =
    othersAt key start front ++ othersAt key (start + front.flatten.length) back := by
  rw [othersAt, bareAt_append, List.filter_append]
  rfl

/-- A line with the key itself is none of the others. -/
theorem othersAt_cons_own {text : Bytes} (h : keyOf text = key) (more : List Bytes) :
    othersAt key start (text :: more) = othersAt key (start + text.length) more := by
  unfold othersAt
  cases hlive : isLiveRecord text with
  | true =>
    rw [bareAt_cons_of_live hlive, List.filter_cons_of_neg]
    simp [keyOf_clearSlot, h]
  | false => rw [bareAt_cons_of_not hlive]

theorem othersAt_concat {text : Bytes} (h : keyOf text = key) (texts : List Bytes) :
    othersAt key start (texts ++ [text]) = othersAt key start texts := by
  rw [othersAt_append, othersAt_cons_own _ h]
  exact List.append_nil _

/-- A line with the key may give way to another of its length. -/
theorem othersAt_exchange {text text' : Bytes} (h : keyOf text = key) (h' : keyOf text' = key)
    (hlen : text'.length = text.length) (front back : List Bytes) :
    othersAt key start (front ++ text' :: back) = othersAt key start (front ++ text :: back) := by
  rw [othersAt_append, othersAt_append, othersAt_cons_own _ h, othersAt_cons_own _ h', hlen]

theorem othersAt_fillSlots {texts : List Bytes} (hlines : ∀ text ∈ texts, IsLine text)
    (targets : List Nat) :
    othersAt key start (Index.fillSlots texts targets) = othersAt key start texts := by
  rw [othersAt, bareAt_fillSlots hlines, othersAt]

end Others

/-! ## What a cut-off write leaves -/

namespace Image

variable {i j : Image} {key : Bytes} {field : Option Field} {limit : UInt32}

/-- What a write of `key` leaves of an image where it is cut off.  Either the slots can be searched,
or a first opener with the same limit sorts. -/
structure Remains (i : Image) (key : Bytes) (field : Option Field) (limit : UInt32) (j : Image) :
    Prop where
  lined : j.Lined
  low : ∀ line ∈ j.lines, line.offset < UInt32.size
  searchable : j.Formed ∨ limit < j.header.sinceSort
  others : othersAt key Header.length j.texts = othersAt key Header.length i.texts
  kept : (∃ v ∈ i.versions, v.key = key) → ∃ v ∈ j.versions, v.key = key
  written : ∀ v ∈ j.versions, v ∈ i.versions ∨
    v.key = key ∧ i.contents.write key field key = some v.fields

/-- What is left depends on the records alone. -/
theorem Remains.of_same {k : Image} (h : j.Remains key field limit k)
    (hothers : othersAt key Header.length j.texts = othersAt key Header.length i.texts)
    (hversions : j.versions = i.versions) : i.Remains key field limit k where
  lined := h.lined
  low := h.low
  searchable := h.searchable
  others := h.others.trans hothers
  kept := hversions ▸ h.kept
  written := by
    have hcontents : j.contents = i.contents := by rw [contents, hversions, contents]
    rw [← hversions, ← hcontents]
    exact h.written

/-- The same lines, whatever their slots. -/
theorem Lined.remains_fillSlots (hi : i.Lined) (hsmall : i.bytes.length < UInt32.size)
    {header : Header} (hversion : header.version = i.header.version) (targets : List Nat)
    (hsearch : (⟨header, Index.fillSlots i.texts targets⟩ : Image).Formed ∨
      limit < header.sinceSort) :
    i.Remains key field limit ⟨header, Index.fillSlots i.texts targets⟩ where
  lined := hi.fillSlots hversion targets
  low := by
    refine fun _ => offset_lt_of_small ?_
    rw [length_bytes, Index.length_flatten_fillSlots, ← length_bytes]
    exact hsmall
  searchable := hsearch
  others := othersAt_fillSlots _ hi.line targets
  kept := by
    rw [show (⟨header, _⟩ : Image).versions = i.versions from versionsAt_fillSlots ..]
    exact id
  written := by
    rw [show (⟨header, _⟩ : Image).versions = i.versions from versionsAt_fillSlots ..]
    exact fun v hv => Or.inl hv

/-- The same lines behind another header. -/
theorem Formed.remains_withHeader (hi : i.Formed) (hsmall : i.bytes.length < UInt32.size)
    {header : Header} (hversion : header.version = i.header.version) :
    i.Remains key field limit ⟨header, i.texts⟩ := by
  have hsame : (⟨header, Index.fillSlots i.texts []⟩ : Image).Formed ∨ limit < header.sinceSort →
      i.Remains key field limit ⟨header, Index.fillSlots i.texts []⟩ :=
    hi.toLined.remains_fillSlots hsmall hversion []
  rw [Index.fillSlots_nil] at hsame
  exact hsame (Or.inl (hi.withHeader hversion))

theorem Formed.remains (hi : i.Formed) (hsmall : i.bytes.length < UInt32.size) :
    i.Remains key field limit i := hi.remains_withHeader hsmall rfl

theorem low_concat {header : Header} {texts : List Bytes} {text : Bytes}
    (hsmall : Header.length + texts.flatten.length < UInt32.size) :
    ∀ line ∈ (⟨header, texts ++ [text]⟩ : Image).lines, line.offset < UInt32.size := by
  intro line hl
  obtain ⟨front, back, htexts, hoff⟩ := mem_lines_iff.1 hl
  have hle : front.length ≤ texts.length := by
    have := congrArg List.length htexts
    simp only [List.length_append, List.length_cons, List.length_nil] at this
    omega
  have hfront : front <+: texts :=
    List.prefix_of_prefix_length_le ⟨_, htexts.symm⟩ (List.prefix_append _ _) hle
  obtain ⟨rest, rfl⟩ := hfront
  rw [List.flatten_append, List.length_append] at hsmall
  omega

/-- A new line, with the old one of its key still there. -/
theorem Formed.remains_concat (hi : i.Formed) (hsmall : i.bytes.length < UInt32.size)
    {header : Header} (hversion : header.version = i.header.version) {line : Bytes}
    {fields : List Field} (hfresh : FreshLine line key fields)
    (hwrite : i.contents.write key field key = some fields) :
    i.Remains key field limit ⟨header, i.texts ++ [line]⟩ where
  lined := (hi.append hversion hfresh).toLined
  low := low_concat (i.length_bytes ▸ hsmall)
  searchable := Or.inl (hi.append hversion hfresh)
  others := othersAt_concat _ hfresh.key_eq i.texts
  kept := by
    rw [versions_concat i header hfresh]
    exact fun _ => ⟨_, List.mem_append_right _ (List.mem_singleton.2 rfl), rfl⟩
  written := by
    rw [versions_concat i header hfresh]
    intro v hv
    rcases List.mem_append.1 hv with hv | hv
    · exact Or.inl hv
    · rw [List.mem_singleton.1 hv]
      exact Or.inr ⟨rfl, hwrite⟩

/-- A value written over another of its length, in the one record of its key. -/
theorem Formed.remains_patch {header : Header} {front back : List Bytes} {text text' : Bytes}
    (hi : (⟨header, front ++ text :: back⟩ : Image).Formed)
    (hsmall : (⟨header, front ++ text :: back⟩ : Image).bytes.length < UInt32.size)
    (hlive : isLiveText text = true) (hkey : keyOf text = key) (hr : Replaces text text')
    (hlive' : isLiveText text' = true)
    (hwrite : (⟨header, front ++ text :: back⟩ : Image).contents.write key field key =
      some (fieldsOf text')) :
    (⟨header, front ++ text :: back⟩ : Image).Remains key field limit
      ⟨header, front ++ text' :: back⟩ where
  lined := (hi.exchange hr).toLined
  low := by
    refine fun _ => offset_lt_of_small ?_
    rw [length_bytes, length_flatten_of_frames (hr.frames_eq header front back), ← length_bytes]
    exact hsmall
  searchable := Or.inl (hi.exchange hr)
  others := othersAt_exchange _ hkey (hr.key_eq.trans hkey) hr.length_eq front back
  kept := by
    rw [versions_split header front back hlive']
    exact fun _ => ⟨_, List.mem_append_right _ List.mem_cons_self, hr.key_eq.trans hkey⟩
  written := by
    rw [versions_split header front back hlive, versions_split header front back hlive', hr.length_eq]
    intro v hv
    rcases List.mem_append.1 hv with hv | hv
    · exact Or.inl (List.mem_append_left _ hv)
    rcases List.mem_cons.1 hv with rfl | hv
    · exact Or.inr ⟨hr.key_eq.trans hkey, hwrite⟩
    · exact Or.inl (List.mem_append_right _ (List.mem_cons_of_mem _ hv))

/-- A new line, with the old one of its key dead. -/
theorem Formed.remains_moved {header header' : Header} {front back : List Bytes} {text line : Bytes}
    {fields : List Field} (hi : (⟨header, front ++ text :: back⟩ : Image).Formed)
    (hsmall : (⟨header, front ++ text :: back⟩ : Image).bytes.length < UInt32.size)
    (hversion : header'.version = header.version) (hlive : isLiveText text = true)
    (hkey : keyOf text = key) (hfresh : FreshLine line key fields)
    (hwrite : (⟨header, front ++ text :: back⟩ : Image).contents.write key field key =
      some fields) :
    (⟨header, front ++ text :: back⟩ : Image).Remains key field limit
      ⟨header', (front ++ deadText text :: back) ++ [line]⟩ := by
  have hmem : text ∈ (⟨header, front ++ text :: back⟩ : Image).texts := by simp
  have hline := hi.line _ hmem
  have hwell := hi.wellFormed _ hmem
  have hr := replaces_deadText hline hwell
  have hkilled := hi.exchange hr
  have hversions := versions_concat ⟨header, front ++ deadText text :: back⟩ header' hfresh
  rw [versions_kill header front back hline hwell] at hversions
  have hformed := hkilled.append hversion hfresh
  refine ⟨hformed.toLined, low_concat ?_, Or.inl hformed, ?_, ?_, ?_⟩
  · rw [length_flatten_of_frames (hr.frames_eq header front back)]
    rwa [length_bytes] at hsmall
  · rw [othersAt_concat _ hfresh.key_eq]
    exact othersAt_exchange _ hkey (hr.key_eq.trans hkey) hr.length_eq front back
  · rw [hversions]
    exact fun _ => ⟨_, List.mem_append_right _ (List.mem_singleton.2 rfl), rfl⟩
  · rw [hversions, versions_split header front back hlive]
    intro v hv
    rcases List.mem_append.1 hv with hv | hv
    · refine Or.inl (List.mem_append.2 ((List.mem_append.1 hv).imp_right ?_))
      exact List.mem_cons_of_mem _
    · rw [List.mem_singleton.1 hv]
      exact Or.inr ⟨rfl, hwrite⟩

/-- What is left at each of some bytes. -/
def Leaves (i : Image) (key : Bytes) (field : Option Field) (limit : UInt32) (bytes : Bytes) : Prop :=
  ∃ j : Image, j.bytes = bytes ∧ i.Remains key field limit j

theorem Remains.leaves (h : i.Remains key field limit j) : i.Leaves key field limit j.bytes :=
  ⟨j, rfl, h⟩

theorem Leaves.of_same {bytes : Bytes} (h : j.Leaves key field limit bytes)
    (hothers : othersAt key Header.length j.texts = othersAt key Header.length i.texts)
    (hversions : j.versions = i.versions) : i.Leaves key field limit bytes := by
  obtain ⟨k, hbytes, hremains⟩ := h
  exact ⟨k, hbytes, hremains.of_same hothers hversions⟩

theorem take_zip_eq {α β : Type} (as : List α) (bs : List β) (n : Nat) :
    (as.zip bs).take n = as.zip (bs.take n) := by
  induction as generalizing bs n with
  | nil => simp
  | cons a more ih =>
    cases bs with
    | nil => simp
    | cons b rest =>
      cases n with
      | zero => simp
      | succ n => simp [ih]

/-- **A sort that is cut off** leaves the header asking for it, until all slots are set. -/
theorem Formed.cuts_sort {s : Session} (hi : i.Formed) (hsmall : i.bytes.length < UInt32.size)
    (hbytes : s.file.bytes = i.bytes) (hheadLen : s.handle.headLen = Header.length)
    (hcur : s.handle.Current i) (hoverdue : limit < i.header.sinceSort) :
    Patch.Cuts (i.Leaves key field limit) s.sortPatches i.bytes := by
  have hslots : ∀ targets, Patch.applyAll ((((i.lines.filter fun line => hasSlot line.text).map
      Line.offset).zip targets).map Index.slotPatch) i.bytes =
        (⟨i.header, Index.fillSlots i.texts targets⟩ : Image).bytes := by
    intro targets
    have := i.applyAll_slotPatches targets []
    rwa [List.append_nil, List.append_nil] at this
  have hpatches := Session.sortPatches_eq hi.toLined.whole (List.not_mem_nil (a := newline))
    (hbytes.trans (List.append_nil _).symm) hheadLen (by rw [hbytes]; exact hcur)
  rw [hpatches, Patch.cuts_append]
  constructor
  · intro n
    rw [← List.map_take, take_zip_eq, hslots]
    exact (hi.toLined.remains_fillSlots hsmall rfl _ (Or.inr hoverdue)).leaves
  · rw [hslots, Patch.cuts_cons, bytes_counter, Patch.cuts_cons, bytes_counter, Patch.cuts_nil]
    have hsorted : ∀ header : Header, header.version = i.header.version →
        i.Leaves key field limit (⟨header, i.sortTexts⟩ : Image).bytes := fun header hversion =>
      (hi.toLined.remains_fillSlots hsmall hversion _ (Or.inl
        (hi.toLined.sort (fun _ => offset_lt_of_small hsmall) hversion))).leaves
    exact ⟨(hi.toLined.remains_fillSlots hsmall rfl _ (Or.inr hoverdue)).leaves,
      hsorted _ rfl, hsorted _ rfl⟩

/-- **A new line and what follows it**: the counters, and the death of the record that it replaces. -/
theorem Formed.cuts_publish (hi : i.Formed) (hsmall : i.bytes.length < UInt32.size) {line : Bytes}
    {fields : List Field} (hfresh : FreshLine line key fields) (count : UInt32) {old : Option Span}
    (hold : ∀ span, old = some span → ∃ l ∈ i.live, keyOf l.text = key ∧ l.span = span)
    (hwrite : i.contents.write key field key = some fields) :
    Patch.Cuts (i.Leaves key field limit)
      (⟨i.bytes.length, line⟩ :: publishPatches i.header.appendSeq count old) i.bytes := by
  have hconcat : ∀ header : Header, header.version = i.header.version →
      i.Leaves key field limit (⟨header, i.texts ++ [line]⟩ : Image).bytes := fun header hversion =>
    (hi.remains_concat hsmall hversion hfresh hwrite).leaves
  have hseq := bytes_counter ⟨i.header, i.texts ++ [line]⟩ .appendSeq (i.header.appendSeq + 1)
  have hsince := bytes_counter
    ⟨{ i.header with appendSeq := i.header.appendSeq + 1 }, i.texts ++ [line]⟩ .sinceSort
    (countAppend count)
  simp only [Header.Counter.offset, Header.Counter.set] at hseq hsince
  rw [publishPatches, List.cons_append, List.cons_append, List.nil_append, Patch.cuts_cons,
    bytes_concat, Patch.cuts_cons, hseq, Patch.cuts_cons, hsince]
  refine ⟨(hi.remains hsmall).leaves, hconcat _ rfl, hconcat _ rfl, ?_⟩
  cases old with
  | none => exact Patch.cuts_nil.2 (hconcat _ rfl)
  | some span =>
    obtain ⟨l, hlive, hkey, rfl⟩ := hold _ rfl
    obtain ⟨hl, hflag⟩ := List.mem_filter.1 hlive
    obtain ⟨front, back, htexts, hoff⟩ := mem_lines_iff.1 hl
    have hkill := bytes_exchange (SessionM.publishedHeader i.header count) front (back ++ [line])
      (fits_dead (hi.line _ (text_mem hl)).length_pos)
    refine Patch.cuts_cons.2 ⟨hconcat _ rfl, Patch.cuts_nil.2 ?_⟩
    obtain ⟨header, texts⟩ := i
    dsimp only at htexts hoff hkill ⊢
    subst htexts
    have hmoved : Remains ⟨header, front ++ l.text :: back⟩ key field limit
        ⟨SessionM.publishedHeader header count, (front ++ deadText l.text :: back) ++ [line]⟩ :=
      hi.remains_moved hsmall rfl hflag hkey hfresh hwrite
    refine ⟨_, ?_, hmoved⟩
    rw [List.append_assoc, List.cons_append, List.append_assoc, List.cons_append]
    refine hkill.symm.trans ?_
    rw [show l.span.offset = Header.length + front.flatten.length from hoff]
    rfl

end Image

/-! ## A write that is cut off -/

section Writes

variable {s s' : Session} {i : Image} {key : Bytes} {field : Option Field}

theorem Image.contents_of_live (hdistinct : (i.versions.map Version.key).Nodup) {line : Line}
    (hlive : line ∈ i.live) : i.contents (keyOf line.text) = some (fieldsOf line.text) :=
  (Image.contents_eq_some_iff hdistinct).2 ⟨Version.of line, List.mem_map_of_mem hlive, rfl, rfl⟩

/-- **An append up to its line.** -/
theorem Session.Follows.prepared_cuts (hs : s.Follows i) (hsmall : i.bytes.length < UInt32.size)
    {old : Option Span} {count : UInt32} (h : Prepared s key old count s') :
    s.Cuts (i.Leaves key field s.handle.config.resortLimit) s' := by
  have hsame : i.Leaves key field s.handle.config.resortLimit s.file.bytes := by
    rw [hs.bytes]
    exact (hs.formed.remains hsmall).leaves
  cases h with
  | rested read rested looks fresh => exact .of_looks (.withHandle looks) hsame
  | @sorted handle count read overdue looks fresh =>
    obtain ⟨hfollows, -⟩ := hs.of_looks (.withHandle looks)
    refine (Session.Cuts.of_looks (.withHandle looks) hsame).trans (.writeAll ?_)
    have hcount : i.header.sinceSort = count :=
      Option.some.inj ((hs.counterAt? .sinceSort).symm.trans read)
    rw [hfollows.bytes]
    refine hs.formed.cuts_sort hsmall hfollows.bytes hfollows.tracks.headLen
      (hfollows.current hsmall fresh) (hcount ▸ overdue)

/-- **A value patched in place.** -/
theorem Session.Follows.patch_cuts {limit : UInt32} (hs : s.Follows i)
    (hsmall : i.bytes.length < UInt32.size) (hdistinct : (i.versions.map Version.key).Nodup)
    {line : Line} (hlive : line ∈ i.live) {r : Record} (hr : r.toLine = line) {f : Field}
    (hfit : f.Fits) {place : Span} (hplace : r.fieldSpan? f.name = some place)
    (hlen : place.length = f.value.length) :
    s.Cuts (i.Leaves (keyOf line.text) (some f) limit)
      (s.write ⟨line.offset + place.offset, f.value⟩).markModified := by
  subst hr
  obtain ⟨hl, hflag⟩ := List.mem_filter.1 hlive
  obtain ⟨hfits, hrep, hflag', hfields⟩ :=
    Image.replaces_fieldSpan? (hs.formed.line _ (Image.text_mem hl)) hfit hplace hlen
  have hwrite := Contents.write_self_of_some (Image.contents_of_live hdistinct hlive) f
  rw [← hfields] at hwrite
  obtain ⟨front, back, htexts, hoff⟩ := Image.mem_lines_iff.1 hl
  have hpatch := Image.bytes_exchange i.header front back hfits
  have hall : Patch.Cuts (i.Leaves (keyOf r.text) (some f) limit)
      [⟨r.offset + place.offset, f.value⟩] s.file.bytes → s.Cuts _ _ := .writeAll
  refine hall ?_
  rw [hs.bytes, Patch.cuts_cons, Patch.cuts_nil]
  refine ⟨(hs.formed.remains hsmall).leaves, ?_⟩
  have hformed := hs.formed
  obtain ⟨header, texts⟩ := i
  dsimp only at htexts hoff hpatch ⊢
  subst htexts
  refine ⟨_, hpatch.symm.trans ?_, hformed.remains_patch hsmall hflag rfl hrep
    (hflag'.trans hflag) hwrite⟩
  rw [hoff]
  rfl

/-- **A line at the end**, with the counters and the death of the record that it replaces. -/
theorem Session.Follows.publish_cuts {limit : UInt32} (hs : s.Follows i)
    (hsmall : i.bytes.length < UInt32.size) (hdistinct : (i.versions.map Version.key).Nodup)
    {old : Option Span} {line : Bytes}
    (hdrafted : Drafted s.data key field old line) (hkey : ∀ b ∈ key, isDelimiter b = false)
    (hfits : ∀ f, field = some f → f.Fits)
    (hold : ∀ span, old = some span → ∃ l ∈ i.live, keyOf l.text = key ∧ l.span = span ∧
      s.handle.Sees l) (hnone : old = none → ∀ l ∈ i.live, keyOf l.text ≠ key)
    {seq : UInt32} (count : UInt32)
    (hread : Header.counterAt? (s.writeLine line).file.bytes Header.appendSeqAt = some seq) :
    s.Cuts (i.Leaves key field limit) ((s.writeLine line).publish seq count old) := by
  obtain rfl := hs.seq_eq hread
  obtain ⟨fields, hfresh, hwrite⟩ : ∃ fields, FreshLine line key fields ∧
      i.contents.write key field key = some fields := by
    rcases hs.drafts hdrafted hkey hfits hold with ⟨rfl, hfresh⟩ |
      ⟨l, hlive, f, rfl, rfl, rfl, hfresh⟩
    · refine ⟨_, hfresh, Contents.write_self_of_none ?_ field⟩
      rw [Image.contents_eq_find?, Image.find?,
        List.find?_eq_none.2 fun l hl => by simpa using hnone rfl l hl]
      rfl
    · exact ⟨_, hfresh, Contents.write_self_of_some (Image.contents_of_live hdistinct hlive) f⟩
  rw [Session.publish, Session.writeLine, ← Session.writeAll_cons, hs.bytes]
  refine .writeAll ?_
  rw [hs.bytes]
  refine hs.formed.cuts_publish hsmall hfresh count (fun span hsome => ?_) hwrite
  obtain ⟨l, hlive, hkeyOf, hspan, -⟩ := hold span hsome
  exact ⟨l, hlive, hkeyOf, hspan⟩

/-- **A whole append**, with the sort before it and the counters behind its line. -/
theorem Session.Follows.append_cuts {s₂ s₃ : Session} (hs : s.Follows i)
    (hsmall : i.bytes.length < UInt32.size) (hdistinct : (i.versions.map Version.key).Nodup)
    {old : Option Span} {count seq : UInt32} {line : Bytes} (hprepared : Prepared s key old count s₂)
    (hdrafted : Drafted s₂.data key field old line) (hlocked : s₂.sealed.Relocks s₃)
    (hread : Header.counterAt? (s₃.writeLine line).file.bytes Header.appendSeqAt = some seq)
    (hkey : ∀ b ∈ key, isDelimiter b = false) (hfits : ∀ f, field = some f → f.Fits) :
    s.Cuts (i.Leaves key field s.handle.config.resortLimit)
      ((s₃.writeLine line).publish seq count old) := by
  obtain ⟨j, hsorted, hj, -, hversions, hnone, hfound⟩ := hs.prepared hsmall hprepared
  rw [hj.sealed_eq] at hlocked
  rw [← hlocked.data] at hdrafted
  have hsmall' : j.bytes.length < UInt32.size := by
    rcases hsorted with rfl | rfl
    · exact hsmall
    · rwa [Image.length_sorted]
  have hothers : othersAt key Header.length j.texts = othersAt key Header.length i.texts := by
    rcases hsorted with rfl | rfl
    · rfl
    · exact othersAt_fillSlots _ hs.formed.line _
  have hfound' : ∀ span, old = some span → ∃ l ∈ j.live, keyOf l.text = key ∧ l.span = span ∧
      s₃.handle.Sees l := by
    cases hlocked
    exact hfound
  have hpublished : s₃.Cuts (j.Leaves key field s.handle.config.resortLimit)
      ((s₃.writeLine line).publish seq count old) :=
    (hj.of_relocks hlocked).publish_cuts hsmall' (hversions ▸ hdistinct) hdrafted hkey hfits hfound'
      hnone count hread
  -- what is left of the sorted file is left of the file before the sort
  have hafter := (hpublished.mono fun _ hleft => hleft.of_same hothers hversions).after hlocked.looks
  exact (hs.prepared_cuts hsmall hprepared).trans hafter

/-- **Every stretch of a write**, wherever it is cut off. -/
theorem Wrote.cuts {request : WriteRequest} {waited : Option Span} {act : SessionM Progress}
    (h : Wrote s request waited (act s)) (hs : s.Follows i) (hsmall : i.bytes.length < UInt32.size)
    (hdistinct : (i.versions.map Version.key).Nodup)
    (hreq : ∀ a s', act s = .ok (.answered a) s' → SessionM.requestFault? request = none)
    (hawaits : s.handle.Awaits i waited request.key) :
    s.Cuts (i.Leaves request.key request.field s.handle.config.resortLimit)
      (SessionM.final act s) := by
  have hsame : i.Leaves request.key request.field s.handle.config.resortLimit s.file.bytes := by
    rw [hs.bytes]
    exact (hs.formed.remains hsmall).leaves
  have hprepared : ∀ {s₁ s₂ : Session} {old : Option Span} {count : UInt32}, s.Looks s₁ →
      Prepared s₁ request.key old count s₂ →
      s₁.Cuts (i.Leaves request.key request.field s.handle.config.resortLimit) s₂ := by
    intro s₁ s₂ old count looks prepared
    rw [← looks.config]
    exact (hs.of_looks looks).1.prepared_cuts hsmall prepared
  generalize hresult : act s = result at h
  cases h with
  | waiting waits =>
    rw [SessionM.final_ok hresult]
    exact .of_looks waits.looks hsame
  | refused looks kept =>
    rw [SessionM.final_error hresult]
    exact .of_looks looks hsame
  | untouched looks aims fieldless =>
    rw [SessionM.final_ok hresult]
    exact .of_looks looks hsame
  | @patched s₁ s' span place r field looks aims named record placed fits relocks =>
    rw [SessionM.final_ok hresult]
    have hfault := hreq _ _ hresult
    obtain ⟨hfollows, -⟩ := hs.of_looks looks
    obtain ⟨hlive, hkey, rfl⟩ := hs.record_of_aims hawaits looks aims record
    rw [← hkey, named]
    exact (hfollows.patch_cuts hsmall hdistinct hlive rfl
      ((WriteRequest.fits_of_requestFault? hfault).2 field named) placed fits).between looks relocks
  | present looks prepared fieldless relocks =>
    rw [SessionM.final_ok hresult]
    exact (hprepared looks prepared).between looks relocks
  | damaged looks prepared other relocks =>
    rw [SessionM.final_error hresult]
    exact (hprepared looks prepared).between looks relocks
  | stranded strands => exact absurd strands.broken hs.not_broken
  | @published s₁ s₂ s₃ s' old count seq line looks prepared drafted locked read relocks =>
    rw [SessionM.final_ok hresult]
    obtain ⟨hkey, hfits⟩ := WriteRequest.fits_of_requestFault? (hreq _ _ hresult)
    rw [← looks.config]
    exact ((hs.of_looks looks).1.append_cuts hsmall hdistinct prepared drafted locked read hkey
      hfits).between looks relocks

end Writes

end RecordStore
