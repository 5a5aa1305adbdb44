import Mathlib.Tactic.Common
import RecordStore.Proofs.Outcomes

/-!
# Handles on a recovered file

A recovered file may hold two live records of one key, and its append sequence need not be the
number of its lines.  Handles get along with both: what they find is a live record of the key, and
the append sequence tells them how many lines they have not seen, whatever it started from.

* `Image.surplus` — by how much the append sequence is ahead of the lines; `Image.Grows` — lines stay
  in place, and those that join them are counted.
* `Handle.Tracks` — what a handle remembers goes with the file.
* `Session.Follows` — a session on the file that an image is.

Principal results: `Handle.Tracks.current_of_seenSeq`; `Session.Follows.of_looks` — looks keep a
handle on track; `Session.Follows.aims`, `Session.Follows.absent` — what a stretch believes of a key;
`Session.Follows.exchange`, `Session.Follows.sort`, `Session.Follows.publish_none`,
`Session.Follows.publish_some` — the writes.
-/

set_option autoImplicit false

namespace RecordStore

namespace Image

/-! ## Growth -/

/-- By how much the append sequence is ahead of the number of lines. -/
def surplus (i : Image) : UInt32 := i.header.appendSeq - UInt32.ofNat i.texts.length

/-- Lines stay in place, and those that join them are counted. -/
structure Grows (i j : Image) : Prop where
  extends_ : i.Extends j
  counted : j.surplus = i.surplus

theorem Grows.refl (i : Image) : i.Grows i := ⟨.refl i, rfl⟩

theorem Grows.trans {i j k : Image} (hij : i.Grows j) (hjk : j.Grows k) : i.Grows k :=
  ⟨hij.extends_.trans hjk.extends_, hjk.counted.trans hij.counted⟩

/-- A counter of a file is that of its header. -/
theorem counterAt?_bytes (i : Image) (c : Header.Counter) :
    Header.counterAt? i.bytes c.offset = some (c.read i.header) :=
  Header.counterAt?_encode i.header c i.texts.flatten

/-- Lines of the same lengths and keys, behind a header with the same append sequence. -/
theorem grows_of_frames {i j : Image} (h : j.frames = i.frames)
    (hseq : j.header.appendSeq = i.header.appendSeq) : i.Grows j := by
  have hlen := congrArg List.length h
  rw [frames, frames, List.length_map, List.length_map] at hlen
  exact ⟨extends_of_frames h, by rw [surplus, surplus, hseq, hlen]⟩

/-- A line at the end, once it is counted. -/
theorem grows_concat (i : Image) {header : Header}
    (hseq : header.appendSeq = i.header.appendSeq + 1) (line : Bytes) :
    i.Grows ⟨header, i.texts ++ [line]⟩ := by
  refine ⟨i.extends_append header [line], ?_⟩
  rw [surplus, surplus, hseq, List.length_append, List.length_singleton, UInt32.ofNat_add]
  have hone : UInt32.ofNat 1 = 1 := rfl
  grind

end Image

/-! ## Handles -/

/-- What a handle remembers goes with the file: its mapping ends where a line ends, its cache holds
the place of a line, and the append sequence that it saw is ahead of the lines that it saw by as much
as the file's is ahead of all lines. -/
structure Handle.Tracks (h : Handle) (i : Image) : Prop where
  headLen : h.headLen = Header.length
  view : ∃ seen unseen, i.texts = seen ++ unseen ∧
    h.view.length = Header.length + seen.flatten.length ∧
    h.seenSeq - UInt32.ofNat seen.length = i.surplus
  cache : ∀ entry, h.cache = some entry → ∃ key, i.Shows entry.span key

namespace Handle.Tracks

variable {h : Handle} {i : Image}

theorem views (ht : h.Tracks i) : h.Views i where
  headLen := ht.headLen
  view := by
    obtain ⟨seen, unseen, htexts, hview, -⟩ := ht.view
    exact ⟨seen, unseen, htexts, hview⟩
  cache := ht.cache

theorem mono {j : Image} (ht : h.Tracks i) (hij : i.Grows j) : h.Tracks j := by
  obtain ⟨seen, unseen, htexts, hview, hseq⟩ := ht.view
  obtain ⟨seen', unseen', htexts', hframes⟩ := hij.extends_.exists_cut htexts
  have hcount := congrArg List.length hframes
  rw [List.length_map, List.length_map] at hcount
  refine ⟨ht.headLen, ⟨seen', unseen', htexts', ?_, ?_⟩, (ht.views.mono hij.extends_).cache⟩
  · rw [Image.length_flatten_of_frames hframes, hview]
  · rw [hcount, hij.counted, hseq]

/-- Closing remembers nothing but that something was written. -/
theorem markModified (ht : h.Tracks i) : ({ h with modified := true } : Handle).Tracks i :=
  ⟨ht.headLen, ht.view, ht.cache⟩

theorem forget (ht : h.Tracks i) : ({ h with cache := none } : Handle).Tracks i :=
  ⟨ht.headLen, ht.view, by rintro entry ⟨⟩⟩

theorem mapped (ht : h.Tracks i) : h.Mapped i.bytes where
  headLen := ht.headLen
  sees := by
    obtain ⟨seen, unseen, -, hview, -⟩ := ht.view
    rw [hview]
    exact Nat.le_add_right _ _
  inside := ht.views.view_le

/-- **If the append sequence is the one last seen, nothing is missed.** -/
theorem current_of_seenSeq (ht : h.Tracks i) (hi : i.Lined)
    (hsmall : i.bytes.length < UInt32.size) (hseq : i.header.appendSeq = h.seenSeq) :
    h.Current i := by
  obtain ⟨seen, unseen, htexts, hview, hcounted⟩ := ht.view
  have hfew := hi.length_texts_lt hsmall
  have hsame : UInt32.ofNat seen.length = UInt32.ofNat i.texts.length := by
    rw [Image.surplus, hseq] at hcounted
    grind
  have hlen := congrArg UInt32.toNat hsame
  rw [htexts, List.length_append] at hfew hlen
  rw [UInt32.toNat_ofNat_of_lt' (by omega), UInt32.toNat_ofNat_of_lt' (by omega)] at hlen
  have hnone : unseen = [] := List.length_eq_zero_iff.1 (by omega)
  rw [Handle.Current, hview, Image.length_bytes, htexts, hnone, List.append_nil]

/-- A look keeps a handle on track, and it sees no less than before. -/
theorem look {h' : Handle} (ht : h.Tracks i) (hi : i.Lined) (hl : Handle.Look i.bytes h h') :
    h'.Tracks i ∧ h.view.length ≤ h'.view.length := by
  cases hl with
  | @remap seq read =>
    have hseq := ht.views.counterAt? .appendSeq
    rw [show Header.counterAt? _ Header.Counter.appendSeq.offset = _ from read,
      Option.some.injEq] at hseq
    refine ⟨⟨ht.headLen, ⟨i.texts, [], by simp, ?_, ?_⟩, by rintro entry ⟨⟩⟩, ht.views.view_le⟩
    · exact i.length_bytes
    · rw [hseq]
      rfl
  | remember found =>
    obtain ⟨line, hlive, hkey, hspan, -⟩ := ht.views.find?_sound hi found
    refine ⟨⟨ht.headLen, ht.view, ?_⟩, Nat.le_refl _⟩
    rintro entry ⟨⟩
    exact ⟨keyOf line.text, line, (List.mem_filter.1 hlive).1, hspan, rfl⟩
  | forget => exact ⟨ht.forget, Nat.le_refl _⟩

theorem looks {h' : Handle} (ht : h.Tracks i) (hi : i.Lined) (hl : h.Looks i.bytes h') :
    h'.Tracks i ∧ h.view.length ≤ h'.view.length := by
  refine hl.preserves (p := fun h' => h'.Tracks i ∧ h.view.length ≤ h'.view.length) ?_
    ⟨ht, Nat.le_refl _⟩
  intro a b hab ⟨ha, hle⟩
  obtain ⟨hb, hle'⟩ := ha.look hi hab
  exact ⟨hb, Nat.le_trans hle hle'⟩

end Handle.Tracks

/-! ## Sessions -/

/-- The session works on the file that the image is. -/
structure Session.Follows (s : Session) (i : Image) : Prop where
  bytes : s.file.bytes = i.bytes
  tracks : s.handle.Tracks i
  formed : i.Formed

/-- The record whose lock a stretch has waited for stands where the handle sees it. -/
def Handle.Awaits (h : Handle) (i : Image) (waited : Option Span) (key : Bytes) : Prop :=
  ∀ span, waited = some span → h.Points i span key

namespace Session.Follows

variable {s s' : Session} {i : Image} {key : Bytes} {span : Span} {waited : Option Span}

theorem mapped (hs : s.Follows i) : s.Mapped := by
  unfold Session.Mapped
  rw [hs.bytes]
  exact hs.tracks.mapped

theorem lockable (hs : s.Follows i) (hsmall : i.bytes.length < UInt32.size) : s.Lockable :=
  Session.lockable_of_small (by rw [hs.bytes]; exact hsmall)

theorem data_eq (hs : s.Follows i) : s.data = s.handle.view.read i.bytes := by
  rw [Session.data, hs.bytes]

/-- The counters of the file are those of the header. -/
theorem counterAt? (hs : s.Follows i) (c : Header.Counter) :
    Header.counterAt? s.file.bytes c.offset = some (c.read i.header) := by
  rw [hs.bytes]
  exact i.counterAt?_bytes c

theorem not_broken (hs : s.Follows i) : ¬ s.Broken := by
  intro hb
  have hread := hs.counterAt? .appendSeq
  rw [show Header.counterAt? _ Header.Counter.appendSeq.offset = none from hb] at hread
  cases hread

/-- **Looks keep a handle on track.** -/
theorem of_looks (hs : s.Follows i) (h : s.Looks s') :
    s'.Follows i ∧ s.handle.view.length ≤ s'.handle.view.length := by
  have hlooks := h.handle
  rw [hs.bytes] at hlooks
  obtain ⟨htracks, hle⟩ := hs.tracks.looks hs.formed.toLined hlooks
  exact ⟨⟨h.bytes.trans hs.bytes, htracks, hs.formed⟩, hle⟩

theorem of_relocks (hs : s.Follows i) (h : s.Relocks s') : s'.Follows i :=
  (hs.of_looks h.looks).1

/-- A session that has just looked at the append sequence sees the whole file. -/
theorem current (hs : s.Follows i) (hsmall : i.bytes.length < UInt32.size) (hfresh : s.Fresh) :
    s.handle.Current i := by
  refine hs.tracks.current_of_seenSeq hs.formed.toLined hsmall ?_
  have hread := hs.counterAt? .appendSeq
  rw [show Header.counterAt? _ Header.Counter.appendSeq.offset = _ from hfresh,
    Option.some.injEq] at hread
  exact hread.symm

/-- What is found is a live record of the key. -/
theorem found (hs : s.Follows i) (hfound : s.found? key = some span) :
    ∃ line ∈ i.live, keyOf line.text = key ∧ line.span = span ∧ s.handle.Sees line := by
  rw [Session.found?, hs.data_eq] at hfound
  exact hs.tracks.views.find?_sound hs.formed.toLined hfound

/-- **What a stretch believes the place of a key** is the place of a live record of it. -/
theorem aims (hs : s.Follows i) (hwaited : s.handle.Awaits i waited key)
    (ha : s.Aims waited key span) :
    ∃ line ∈ i.live, keyOf line.text = key ∧ line.span = span ∧ s.handle.Sees line := by
  cases ha with
  | found hfound => exact hs.found hfound
  | waited hw hlive =>
    obtain ⟨⟨line, hl, rfl, hkey⟩, hsees⟩ := hwaited span hw
    refine ⟨line, List.mem_filter.2 ⟨hl, ?_⟩, hkey, rfl, hsees⟩
    have htext : line.span.read s.data = line.text := by
      rw [hs.data_eq]
      exact Image.read_span_of_seen hl hsees
    have hpos := (hs.formed.line _ (Image.text_mem hl)).length_pos
    rw [isLiveText, ← htext, Span.read, List.head?_take, if_neg (by simp only [Line.span]; omega),
      List.head?_drop, hlive]
    rfl

/-- **A key that is missed** by a handle that sees the whole file has no live record. -/
theorem absent_of_current (hs : s.Follows i) (hmissing : s.found? key = none)
    (hcur : s.handle.Current i) : ∀ line ∈ i.live, keyOf line.text ≠ key := by
  rintro line hlive rfl
  have hsome := hs.tracks.views.find?_isSome hs.formed hcur hlive
  rw [Session.found?, hs.data_eq] at hmissing
  rw [hmissing] at hsome
  cases hsome

/-- **A key that is missed** behind a look at the append sequence has no live record. -/
theorem absent (hs : s.Follows i) (hsmall : i.bytes.length < UInt32.size)
    (hmissing : s.found? key = none) (hfresh : s.Fresh) :
    ∀ line ∈ i.live, keyOf line.text ≠ key :=
  hs.absent_of_current hmissing (hs.current hsmall hfresh)

/-- A record that is seen is decoded as it stands. -/
theorem decode (hs : s.Follows i) {line : Line} (hl : line ∈ i.lines) (hsees : s.handle.Sees line) :
    ∃ r : Record, Record.decode s.data line.offset = .ok r ∧ r.toLine = line := by
  rw [hs.data_eq]
  exact hs.tracks.views.decode hs.formed.toLined hl hsees

/-- What decodes where the handle sees a line is that line. -/
theorem toLine_of_decode (hs : s.Follows i) {line : Line} (hl : line ∈ i.lines)
    (hsees : s.handle.Sees line) {r : Record} (hr : Record.decode s.data line.offset = .ok r) :
    r.toLine = line := by
  obtain ⟨r', hr', rfl⟩ := hs.decode hl hsees
  rw [hr] at hr'
  cases hr'
  rfl

/-! ### Writes -/

/-- A session that has written follows the image of what it wrote. -/
theorem of_grows {j : Image} (hbytes : s'.file.bytes = j.bytes)
    (htracks : s'.handle.Tracks i) (hj : j.Formed) (hij : i.Grows j) : s'.Follows j :=
  ⟨hbytes, htracks.mono hij, hj⟩

/-- **A line gives way to another.** -/
theorem exchange (hs : s.Follows i) {line : Line} (hl : line ∈ i.lines) {patch : Patch}
    (hfits : patch.Fits line.text) (hr : Image.Replaces line.text (patch.apply line.text)) :
    ∃ front back, i.texts = front ++ line.text :: back ∧
      line.offset = Header.length + front.flatten.length ∧
      (s.write (patch.shift line.offset)).Follows
        ⟨i.header, front ++ patch.apply line.text :: back⟩ ∧
      i.Grows ⟨i.header, front ++ patch.apply line.text :: back⟩ := by
  obtain ⟨front, back, htexts, hoff⟩ := Image.mem_lines_iff.1 hl
  obtain ⟨header, texts⟩ := i
  dsimp only at htexts
  subst htexts
  have hgrows : Image.Grows ⟨header, front ++ line.text :: back⟩
      ⟨header, front ++ patch.apply line.text :: back⟩ :=
    Image.grows_of_frames (hr.frames_eq header front back) rfl
  refine ⟨front, back, rfl, hoff, of_grows ?_ hs.tracks (hs.formed.exchange hr) hgrows, hgrows⟩
  rw [Session.write_bytes, hs.bytes, hoff]
  exact Image.bytes_exchange header front back hfits

theorem markModified (hs : s.Follows i) : s.markModified.Follows i :=
  ⟨hs.bytes, hs.tracks.markModified, hs.formed⟩

theorem forget (hs : s.Follows i) : s.forget.Follows i :=
  ⟨hs.bytes, hs.tracks.forget, hs.formed⟩

/-- **A sort** by a session that has just looked at the append sequence. -/
theorem sort (hs : s.Follows i) (hsmall : i.bytes.length < UInt32.size) (hfresh : s.Fresh) :
    s.sort.Follows (i.sorted s.now) ∧ i.Grows (i.sorted s.now) := by
  obtain ⟨-, -, hhandle⟩ := s.sort_frame
  have hgrows : i.Grows (i.sorted s.now) :=
    Image.grows_of_frames (Image.frames_fillSlots _ i _) rfl
  refine ⟨of_grows ?_ ?_ ?_ hgrows, hgrows⟩
  · exact Session.sort_bytes hs.formed.toLined hs.bytes hs.tracks.headLen (hs.current hsmall hfresh)
  · rw [hhandle]
    exact hs.tracks.markModified
  · exact hs.formed.toLined.sort (fun _ => Image.offset_lt_of_small hsmall) rfl

/-- Complete lines need not be closed. -/
theorem sealed_eq (hs : s.Follows i) : s.sealed = s := by
  unfold Session.sealed
  rw [hs.bytes, if_pos hs.formed.toLined.whole.endsLine_bytes]

/-- A line written at the end, not yet counted. -/
theorem writeLine_bytes (hs : s.Follows i) (line : Bytes) :
    (s.writeLine line).file.bytes = (⟨i.header, i.texts ++ [line]⟩ : Image).bytes := by
  rw [Session.writeLine, Session.write_bytes, hs.bytes]
  exact i.bytes_concat line

/-- The append sequence that a line is counted with is that of the header. -/
theorem seq_eq (hs : s.Follows i) {line : Bytes} {seq : UInt32}
    (hread : Header.counterAt? (s.writeLine line).file.bytes Header.appendSeqAt = some seq) :
    seq = i.header.appendSeq := by
  have hseq := Image.counterAt?_bytes ⟨i.header, i.texts ++ [line]⟩ .appendSeq
  rw [hs.writeLine_bytes line] at hread
  rw [show Header.counterAt? _ Header.Counter.appendSeq.offset = _ from hread,
    Option.some.injEq] at hseq
  exact hseq

theorem publish_bytes (hs : s.Follows i) (line : Bytes) (seq count : UInt32) (old : Option Span) :
    ((s.writeLine line).publish seq count old).file.bytes =
      Patch.applyAll (publishPatches seq count old)
        (⟨i.header, i.texts ++ [line]⟩ : Image).bytes := by
  rw [← hs.writeLine_bytes line]
  exact (s.writeLine line).writeAll_bytes _

theorem publish_handle (hs : s.Follows i) (line : Bytes) (seq count : UInt32) (old : Option Span) :
    ((s.writeLine line).publish seq count old).handle.Tracks i := by
  obtain ⟨-, hhandle, -⟩ := (s.writeLine line).writeAll_frame (publishPatches seq count old)
  show Handle.Tracks { ((s.writeLine line).writeAll _).handle with modified := true } i
  rw [hhandle]
  exact hs.tracks.markModified

/-- **A new line** is written and counted. -/
theorem publish_none (hs : s.Follows i) {line key : Bytes} {fields : List Field}
    (hfresh : FreshLine line key fields) {seq : UInt32} (count : UInt32)
    (hread : Header.counterAt? (s.writeLine line).file.bytes Header.appendSeqAt = some seq) :
    ((s.writeLine line).publish seq count none).Follows
        ⟨SessionM.publishedHeader i.header count, i.texts ++ [line]⟩ ∧
      i.Grows ⟨SessionM.publishedHeader i.header count, i.texts ++ [line]⟩ := by
  obtain rfl := hs.seq_eq hread
  have hgrows : i.Grows ⟨SessionM.publishedHeader i.header count, i.texts ++ [line]⟩ :=
    i.grows_concat rfl line
  refine ⟨of_grows ?_ (hs.publish_handle ..) (hs.formed.append (by rfl) hfresh) hgrows, hgrows⟩
  rw [hs.publish_bytes]
  exact SessionM.applyAll_counters i.header (i.texts ++ [line]) count []

/-- **A new line that replaces an old one** is written and counted, and then the old record dies. -/
theorem publish_some (hs : s.Follows i) {old : Line} (hl : old ∈ i.lines) {line key : Bytes}
    {fields : List Field} (hfresh : FreshLine line key fields) {seq : UInt32} (count : UInt32)
    (hread : Header.counterAt? (s.writeLine line).file.bytes Header.appendSeqAt = some seq) :
    ∃ front back, i.texts = front ++ old.text :: back ∧
      old.offset = Header.length + front.flatten.length ∧
      ((s.writeLine line).publish seq count (some old.span)).Follows
        ⟨SessionM.publishedHeader i.header count,
          (front ++ Image.deadText old.text :: back) ++ [line]⟩ ∧
      i.Grows ⟨SessionM.publishedHeader i.header count,
        (front ++ Image.deadText old.text :: back) ++ [line]⟩ := by
  obtain rfl := hs.seq_eq hread
  have hline := hs.formed.line _ (Image.text_mem hl)
  have hr := Image.replaces_deadText hline (hs.formed.wellFormed _ (Image.text_mem hl))
  obtain ⟨front, back, htexts, hoff⟩ := Image.mem_lines_iff.1 hl
  have hbytes := hs.publish_bytes line i.header.appendSeq count (some old.span)
  have htracks := hs.publish_handle line i.header.appendSeq count (some old.span)
  have hformed := hs.formed
  generalize (s.writeLine line).publish i.header.appendSeq count (some old.span) = s' at hbytes htracks
  obtain ⟨header, texts⟩ := i
  dsimp only at htexts hbytes ⊢
  subst htexts
  have hkilled : Image.Grows ⟨header, front ++ old.text :: back⟩
      ⟨header, front ++ Image.deadText old.text :: back⟩ :=
    Image.grows_of_frames (hr.frames_eq header front back) rfl
  have hgrows : Image.Grows ⟨header, front ++ old.text :: back⟩
      ⟨SessionM.publishedHeader header count, (front ++ Image.deadText old.text :: back) ++ [line]⟩ :=
    hkilled.trans (Image.grows_concat _ (by rfl) line)
  refine ⟨front, back, rfl, hoff, of_grows ?_ htracks ?_ hgrows, hgrows⟩
  · rw [hbytes]
    exact SessionM.applyAll_publishPatches header front back hline hoff count line
  · exact (hformed.exchange hr).append (by rfl) hfresh

end Session.Follows

end RecordStore
