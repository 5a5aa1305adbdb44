import Mathlib.Tactic.Common
import RecordStore.Proofs.Recovery

/-!
# Counters and the lines that they count

A line is appended without a place in the order of the keys; a sort gives one to every line.  The
header counts the lines that have none, and its append sequence counts all that were ever appended.

* `Image.unplaced` — how many lines have no place; `Image.Counts` — the header counts them.
* `Image.Stays`, `Image.Advances` — what a stretch makes of the counters, without and with a new line.
* `Tallies` — how a stretch of a call ends.

Principal results: `Image.Formed.exists_suffix` — the lines without a place are the last ones;
`Call.stretch_tallies` — every stretch of every call.
-/

set_option autoImplicit false

namespace RecordStore

namespace Image

/-! ## Lines without a place -/

/-- How many lines no sort has placed. -/
def unplaced (i : Image) : Nat := (i.texts.filter fun text => slot? text == some unsorted).length

/-- The header counts the lines that no sort has placed. -/
def Counts (i : Image) : Prop := i.header.sinceSort.toNat = i.unplaced

theorem unplaced_append (header : Header) (front back : List Bytes) :
    (⟨header, front ++ back⟩ : Image).unplaced =
      (⟨header, front⟩ : Image).unplaced + (⟨header, back⟩ : Image).unplaced := by
  simp only [unplaced, List.filter_append, List.length_append]

theorem unplaced_le (i : Image) : i.unplaced ≤ i.texts.length := List.length_filter_le _ _

/-- **The lines without a place are the last ones.** -/
theorem Formed.exists_suffix {i : Image} (h : i.Formed) : ∃ placed tail, i.texts = placed ++ tail ∧
    (∀ text ∈ placed, slot? text ≠ some unsorted) ∧ (∀ text ∈ tail, slot? text = some unsorted) ∧
      tail.length = i.unplaced := by
  obtain ⟨placed, tail, htexts, hrouted, htail⟩ := h.routed
  have hplaced : ∀ text ∈ placed, slot? text ≠ some unsorted := by
    intro text ht
    have hmem : text ∈ i.texts := htexts ▸ List.mem_append_left _ ht
    exact Index.slot?_ne_of_routed (by decide) hrouted ht
      (Index.hasSlot_of_defect? (h.wellFormed _ hmem) (h.line _ hmem).endsLine)
  refine ⟨placed, tail, htexts, hplaced, htail, ?_⟩
  rw [unplaced, htexts, List.filter_append, List.filter_eq_nil_iff.2, List.nil_append,
    List.filter_eq_self.2]
  · intro text ht
    rw [htail text ht]
    exact beq_self_eq_true _
  · intro text ht
    rw [beq_iff_eq]
    exact hplaced text ht

theorem Lined.sorted {i : Image} (h : i.Lined) (now : Nat) : (i.sorted now).Lined :=
  ⟨h.version, Index.isLine_fillSlots h.line _,
    (h.fillSlots (by rfl) ((Index.byKey i.lines).map Line.offset)).wellFormed⟩

/-- A sort places every line. -/
theorem Lined.unplaced_sorted {i : Image} (h : i.Lined) (hsmall : i.bytes.length < UInt32.size)
    (now : Nat) : (i.sorted now).unplaced = 0 := by
  have hrouted : Index.Routed (Index.entries (linesAt Header.length i.sortTexts)) :=
    Index.routed_fillSlots_of_offsets h.line fun _ => offset_lt_of_small hsmall
  have hlined := h.sorted now
  rw [unplaced, List.length_eq_zero_iff, List.filter_eq_nil_iff]
  intro text ht
  rw [beq_iff_eq]
  exact Index.slot?_ne_of_routed (by decide) hrouted ht
    (Index.hasSlot_of_defect? (hlined.wellFormed _ ht) (hlined.line _ ht).endsLine)

/-- A line and one of the same slot count the same. -/
theorem Replaces.unplaced_eq {text text' : Bytes} (h : Replaces text text') (header header' : Header)
    (front back : List Bytes) : (⟨header', front ++ text' :: back⟩ : Image).unplaced =
      (⟨header, front ++ text :: back⟩ : Image).unplaced := by
  simp only [unplaced, List.filter_append, List.filter_cons, h.slot_eq]
  split <;> simp only [List.length_append, List.length_cons]

theorem unplaced_concat (header header' : Header) (texts : List Bytes) {line : Bytes}
    (h : slot? line = some unsorted) :
    (⟨header', texts ++ [line]⟩ : Image).unplaced = (⟨header, texts⟩ : Image).unplaced + 1 := by
  rw [unplaced_append]
  simp [unplaced, h]

/-- Bytes are the bytes of one image at most. -/
theorem Lined.eq_of_bytes {i j : Image} (hi : i.Lined) (hj : j.Lined) (h : i.bytes = j.bytes) :
    i = j := by
  obtain ⟨header, texts⟩ := i
  obtain ⟨header', texts'⟩ := j
  have hheader : header = header' := by
    have hread := Header.decode?_encode header texts.flatten
    rw [show header.encode ++ texts.flatten = header'.encode ++ texts'.flatten from h,
      Header.decode?_encode] at hread
    exact (Option.some.inj hread).symm
  subst hheader
  have hflat : texts.flatten = texts'.flatten := List.append_cancel_left h
  have htexts := lines_flatten hi.line
  dsimp only at htexts
  rw [hflat, lines_flatten hj.line] at htexts
  exact congrArg _ htexts.symm

/-! ## Steps of the counters -/

/-- The lines stay, and so does the append sequence; no line loses its place. -/
structure Stays (i j : Image) : Prop where
  frames : j.frames = i.frames
  seq : j.header.appendSeq = i.header.appendSeq
  counts : j.Counts
  unplaced_le : j.unplaced ≤ i.unplaced

/-- The file gets longer, and the append sequence grows by one; no more lines than the limit allows
were without a place before. -/
structure Advances (limit : UInt32) (i j : Image) : Prop where
  longer : i.bytes.length < j.bytes.length
  seq : j.header.appendSeq = i.header.appendSeq + 1
  counts : j.Counts
  unplaced_le : j.unplaced ≤ limit.toNat + 1

theorem Stays.refl {i : Image} (h : i.Counts) : i.Stays i := ⟨rfl, rfl, h, Nat.le_refl _⟩

/-- Lines of the same lengths make a file of the same length. -/
theorem Stays.length_eq {i j : Image} (h : i.Stays j) : j.bytes.length = i.bytes.length := by
  rw [length_bytes, length_bytes, length_flatten_of_frames h.frames]

theorem Stays.advances {i j k : Image} {limit : UInt32} (h : i.Stays j) (h' : j.Advances limit k) :
    i.Advances limit k :=
  ⟨h.length_eq ▸ h'.longer, h.seq ▸ h'.seq, h'.counts, h'.unplaced_le⟩

theorem stays_sorted {i : Image} (h : i.Lined) (hsmall : i.bytes.length < UInt32.size) (now : Nat) :
    i.Stays (i.sorted now) where
  frames := frames_fillSlots _ i _
  seq := rfl
  counts := (h.unplaced_sorted hsmall now).symm
  unplaced_le := by
    rw [h.unplaced_sorted hsmall now]
    exact Nat.zero_le _

theorem stays_exchange {header : Header} {front back : List Bytes} {text text' : Bytes}
    (h : (⟨header, front ++ text :: back⟩ : Image).Counts) (hr : Replaces text text') :
    Stays ⟨header, front ++ text :: back⟩ ⟨header, front ++ text' :: back⟩ where
  frames := hr.frames_eq header front back
  seq := rfl
  counts := h.trans (hr.unplaced_eq header header front back).symm
  unplaced_le := Nat.le_of_eq (hr.unplaced_eq header header front back)

/-- A line at the end is counted. -/
theorem advances_concat {i : Image} {texts : List Bytes} {limit : UInt32} (h : i.Counts)
    (hfew : i.texts.length + 1 < UInt32.size) (hrest : ¬ limit < i.header.sinceSort)
    (hlength : i.texts.flatten.length = texts.flatten.length)
    (hunplaced : (⟨i.header, texts⟩ : Image).unplaced = i.unplaced) {line : Bytes}
    (hline : IsLine line) (hslot : slot? line = some unsorted) :
    i.Advances limit ⟨SessionM.publishedHeader i.header i.header.sinceSort, texts ++ [line]⟩ := by
  have hone : (1 : UInt32).toNat = 1 := rfl
  have hall := i.unplaced_le
  have hcount : i.header.sinceSort.toNat = i.unplaced := h
  -- the count is far from its greatest value
  have hroom : (countAppend i.header.sinceSort).toNat = i.unplaced + 1 := by
    have hne : i.header.sinceSort ≠ 0xFFFFFFFF := by
      intro hmax
      have hvalue := congrArg UInt32.toNat hmax
      rw [hcount, show (0xFFFFFFFF : UInt32).toNat = UInt32.size - 1 from rfl] at hvalue
      omega
    rw [countAppend, if_neg hne, UInt32.toNat_add, hone, hcount, Nat.mod_eq_of_lt]
    show i.unplaced + 1 < UInt32.size
    omega
  have hlast := unplaced_concat i.header (SessionM.publishedHeader i.header i.header.sinceSort) texts
    hslot
  rw [hunplaced] at hlast
  refine ⟨?_, rfl, hroom.trans hlast.symm, ?_⟩
  · have := hline.length_pos
    rw [length_bytes, length_bytes, List.flatten_append, List.length_append, List.flatten_singleton]
    omega
  · rw [UInt32.lt_iff_toNat_lt, hcount] at hrest
    omega

end Image

/-! ## Stretches -/

theorem Session.publish_config (s : Session) (seq count : UInt32) (old : Option Span) :
    (s.publish seq count old).handle.config = s.handle.config := by
  obtain ⟨-, hhandle, -⟩ := s.writeAll_frame (publishPatches seq count old)
  show { (s.writeAll _).handle with modified := true }.config = _
  rw [hhandle]

/-- How a stretch of a call ends: the counters rest, or a write that is answered has appended. -/
inductive Tallies (s : Session) (i : Image) (call : Call) :
    EStateM.Result Error Session Progress → Prop where
  | answered {s' : Session} {j : Image} {progress : Progress} (follows : s'.Follows j)
    (config : s'.handle.config = s.handle.config) (stays : i.Stays j) :
    Tallies s i call (.ok progress s')
  | failed {s' : Session} {j : Image} {e : Error} (follows : s'.Follows j)
    (config : s'.handle.config = s.handle.config) (stays : i.Stays j) :
    Tallies s i call (.error e s')
  | appended {s' : Session} {j : Image} {a : Answer} (follows : s'.Follows j)
    (config : s'.handle.config = s.handle.config) (write : ∃ request, call = .write request)
    (advances : i.Advances s.handle.config.resortLimit j) : Tallies s i call (.ok (.answered a) s')

section Stretches

variable {s s' : Session} {i : Image} {call : Call} {waited : Option Span}

namespace Session.Follows

/-- A stretch that only looks. -/
theorem looks_tallies (hs : s.Follows i) (hcounts : i.Counts) (hlooks : s.Looks s')
    (progress : Progress) : Tallies s i call (.ok progress s') :=
  .answered (hs.of_looks hlooks).1 hlooks.config (.refl hcounts)

theorem refused_tallies (hs : s.Follows i) (hcounts : i.Counts) (hlooks : s.Looks s') (e : Error) :
    Tallies s i call (.error e s') :=
  .failed (hs.of_looks hlooks).1 hlooks.config (.refl hcounts)

/-- **An append up to its line**: a sort that is overdue places every line. -/
theorem prepared_stays (hs : s.Follows i) (hsmall : i.bytes.length < UInt32.size)
    (hcounts : i.Counts) {key : Bytes} {old : Option Span} {count : UInt32}
    (h : Prepared s key old count s') {j : Image} (hj : s'.Follows j) :
    i.Stays j ∧ count = j.header.sinceSort ∧ ¬ s.handle.config.resortLimit < count ∧
      s'.handle.config = s.handle.config := by
  cases h with
  | @rested handle count read rested looks fresh =>
    have hbytes : i.bytes = j.bytes := hs.bytes.symm.trans hj.bytes
    obtain rfl := hs.formed.toLined.eq_of_bytes hj.formed.toLined hbytes
    have hread := hs.counterAt? .sinceSort
    rw [show Header.counterAt? _ Header.Counter.sinceSort.offset = _ from read,
      Option.some.injEq] at hread
    exact ⟨.refl hcounts, hread, rested, looks.frame.1⟩
  | @sorted handle count read overdue looks fresh =>
    obtain ⟨hfollows, -⟩ := hs.of_looks (.withHandle looks)
    obtain ⟨hsorted, -⟩ := hfollows.sort hsmall fresh
    obtain rfl := hsorted.formed.toLined.eq_of_bytes hj.formed.toLined
      (hsorted.bytes.symm.trans hj.bytes)
    obtain ⟨-, -, hhandle⟩ := (s.withHandle handle).sort_frame
    refine ⟨Image.stays_sorted hs.formed.toLined hsmall _, rfl, by simp, ?_⟩
    rw [hhandle]
    exact looks.frame.1

/-- **A line that gives way** to one with its slot. -/
theorem exchange_stays (hs : s.Follows i) (hcounts : i.Counts) {line : Line} (hl : line ∈ i.lines)
    {patch : Patch} (hfits : patch.Fits line.text)
    (hr : Image.Replaces line.text (patch.apply line.text)) :
    ∃ j, (s.write (patch.shift line.offset)).Follows j ∧ i.Stays j := by
  obtain ⟨front, back, htexts, -, hfollows, -⟩ := hs.exchange hl hfits hr
  refine ⟨_, hfollows, ?_⟩
  obtain ⟨header, texts⟩ := i
  dsimp only at htexts
  subst htexts
  exact Image.stays_exchange hcounts hr

/-- **A line at the end** is counted. -/
theorem publish_advances (hs : s.Follows i) (hsmall : i.bytes.length < UInt32.size)
    (hcounts : i.Counts) {limit : UInt32} (hrest : ¬ limit < i.header.sinceSort) {key : Bytes}
    {field : Option Field} {old : Option Span} {line : Bytes}
    (hdrafted : Drafted s.data key field old line) (hkey : ∀ b ∈ key, isDelimiter b = false)
    (hfits : ∀ f, field = some f → f.Fits)
    (hold : ∀ span, old = some span → ∃ l ∈ i.live, keyOf l.text = key ∧ l.span = span ∧
      s.handle.Sees l) {seq : UInt32}
    (hread : Header.counterAt? (s.writeLine line).file.bytes Header.appendSeqAt = some seq) :
    ∃ j, ((s.writeLine line).publish seq i.header.sinceSort old).Follows j ∧ i.Advances limit j := by
  have hfew := hs.formed.toLined.length_texts_lt hsmall
  rcases hs.drafts hdrafted hkey hfits hold with ⟨rfl, hfresh⟩ |
    ⟨l, hlive, f, rfl, rfl, rfl, hfresh⟩
  · obtain ⟨hfollows, -⟩ := hs.publish_none hfresh i.header.sinceSort hread
    exact ⟨_, hfollows, Image.advances_concat hcounts hfew hrest rfl rfl hfresh.line hfresh.slot⟩
  · have hl := (List.mem_filter.1 hlive).1
    have hr := Image.replaces_deadText (hs.formed.line _ (Image.text_mem hl))
      (hs.formed.wellFormed _ (Image.text_mem hl))
    obtain ⟨front, back, htexts, -, hfollows, -⟩ :=
      hs.publish_some hl hfresh i.header.sinceSort hread
    refine ⟨_, hfollows, ?_⟩
    obtain ⟨header, texts⟩ := i
    dsimp only at htexts
    subst htexts
    exact Image.advances_concat hcounts hfew hrest
      (Image.length_flatten_of_frames (hr.frames_eq header front back)).symm
      (hr.unplaced_eq header header front back) hfresh.line hfresh.slot

end Session.Follows

/-- **A stretch of a write.** -/
theorem Wrote.tallies {request : WriteRequest} {result : EStateM.Result Error Session Progress}
    (h : Wrote s request waited result) (hs : s.Follows i) (hsmall : i.bytes.length < UInt32.size)
    (hcounts : i.Counts)
    (hreq : ∀ a s', result = .ok (.answered a) s' → SessionM.requestFault? request = none)
    (hawaits : s.handle.Awaits i waited request.key) : Tallies s i (.write request) result := by
  cases h with
  | waiting waits => exact hs.looks_tallies hcounts waits.looks _
  | refused looks => exact hs.refused_tallies hcounts looks _
  | untouched looks => exact hs.looks_tallies hcounts looks _
  | @patched s₁ s' span place r field looks aims named record placed fits relocks =>
    obtain ⟨hfollows, -⟩ := hs.of_looks looks
    obtain ⟨hlive, -, rfl⟩ := hs.record_of_aims hawaits looks aims record
    have hl := (List.mem_filter.1 hlive).1
    obtain ⟨hfits, hr, -, -⟩ := Image.replaces_fieldSpan? (hs.formed.line _ (Image.text_mem hl))
      ((WriteRequest.fits_of_requestFault? (hreq _ _ rfl)).2 field named) placed fits
    obtain ⟨j, hj, hstays⟩ := hfollows.exchange_stays hcounts hl hfits hr
    exact .answered (hj.markModified.of_relocks relocks) (relocks.looks.config.trans looks.config)
      hstays
  | present looks prepared fieldless relocks =>
    obtain ⟨hfollows, -⟩ := hs.of_looks looks
    obtain ⟨j, -, hj, -⟩ := hfollows.prepared hsmall prepared
    obtain ⟨hstays, -, -, hconfig⟩ := hfollows.prepared_stays hsmall hcounts prepared hj
    exact .answered (hj.of_relocks relocks)
      (relocks.looks.config.trans (hconfig.trans looks.config)) hstays
  | damaged looks prepared other relocks =>
    obtain ⟨hfollows, -⟩ := hs.of_looks looks
    obtain ⟨j, -, hj, -⟩ := hfollows.prepared hsmall prepared
    obtain ⟨hstays, -, -, hconfig⟩ := hfollows.prepared_stays hsmall hcounts prepared hj
    exact .failed (hj.of_relocks relocks)
      (relocks.looks.config.trans (hconfig.trans looks.config)) hstays
  | stranded strands => exact absurd strands.broken hs.not_broken
  | @published s₁ s₂ s₃ s' old count seq line looks prepared drafted locked read relocks =>
    obtain ⟨hkey, hfits⟩ := WriteRequest.fits_of_requestFault? (hreq _ _ rfl)
    obtain ⟨hfollows, -⟩ := hs.of_looks looks
    obtain ⟨j, -, hj, hij, -, -, hfound⟩ := hfollows.prepared hsmall prepared
    obtain ⟨hstays, rfl, hrest, hconfig⟩ := hfollows.prepared_stays hsmall hcounts prepared hj
    rw [hj.sealed_eq] at locked
    have hdata := locked.data
    rw [← hdata] at drafted
    have hj' := hj.of_relocks locked
    obtain ⟨k, hk, hadvances⟩ := hj'.publish_advances (hstays.length_eq ▸ hsmall) hstays.counts hrest
      drafted hkey hfits (fun span hsome => by cases locked; exact hfound span hsome) read
    have hpublished := (s₃.writeLine line).publish_config seq j.header.sinceSort old
    rw [looks.config] at hadvances
    refine .appended (hk.of_relocks relocks) ?_ ⟨request, rfl⟩ (hstays.advances hadvances)
    exact relocks.looks.config.trans (hpublished.trans
      (locked.looks.config.trans (hconfig.trans looks.config)))

/-- **Every stretch of every call.** -/
theorem Call.stretch_tallies (hs : s.Follows i) (hsmall : i.bytes.length < UInt32.size)
    (hcounts : i.Counts) {pending : Option Stage} (hpending : call.Pending pending)
    (hawaits : ∀ key, call.key? = some key → s.handle.Awaits i (pending.bind Stage.span?) key) :
    Tallies s i call (call.stretch pending s) := by
  have hran := Call.stretch_ran hs.mapped (hs.lockable hsmall) hpending
  generalize hresult : call.stretch pending s = result at hran
  cases hran with
  | @write request _ wrote =>
    exact wrote.tallies hs hsmall hcounts (fun a s' hanswered =>
      Call.requestFault?_of_answered hpending (hresult.trans hanswered)) (hawaits _ rfl)
  | delete deleted =>
    cases deleted with
    | waiting waits => exact hs.looks_tallies hcounts waits.looks _
    | refused looks => exact hs.refused_tallies hcounts looks _
    | missed looks => exact hs.looks_tallies hcounts looks _
    | @killed s₁ s' span looks aims relocks =>
      obtain ⟨hfollows, -⟩ := hs.of_looks looks
      obtain ⟨line, hlive, -, rfl, -⟩ := hs.aims_of_looks (hawaits _ rfl) looks aims
      have hl := (List.mem_filter.1 hlive).1
      have hline := hs.formed.line _ (Image.text_mem hl)
      obtain ⟨j, hj, hstays⟩ := hfollows.exchange_stays hcounts hl
        (Image.fits_dead hline.length_pos)
        (Image.replaces_deadText hline (hs.formed.wellFormed _ (Image.text_mem hl)))
      exact .answered (hj.forget.markModified.of_relocks relocks)
        (relocks.looks.config.trans looks.config) hstays
  | read read =>
    cases read with
    | waiting waits => exact hs.looks_tallies hcounts waits.looks _
    | refused looks => exact hs.refused_tallies hcounts looks _
    | missed looks => exact hs.looks_tallies hcounts looks _
    | found looks => exact hs.looks_tallies hcounts looks _
  | resort sorted =>
    cases sorted with
    | waiting waits => exact hs.looks_tallies hcounts waits.looks _
    | refused looks => exact hs.refused_tallies hcounts looks _
    | @sorted s₁ s' looks fresh relocks =>
      obtain ⟨hfollows, -⟩ := hs.of_looks looks
      obtain ⟨hsorted, -⟩ := hfollows.sort hsmall fresh
      obtain ⟨-, -, hhandle⟩ := s₁.sort_frame
      refine .answered (hsorted.of_relocks relocks) ?_
        (Image.stays_sorted hs.formed.toLined hsmall _)
      rw [relocks.looks.config, hhandle]
      exact looks.config
  | glance keyless glanced =>
    cases glanced with
    | waiting waits => exact hs.looks_tallies hcounts waits.looks _
    | refused looks => exact hs.refused_tallies hcounts looks _
    | answered looks => exact hs.looks_tallies hcounts looks _

end Stretches

end RecordStore
