import Mathlib.Tactic.Common
import RecordStore.Proofs.Failures
import RecordStore.Proofs.Reads
import RecordStore.Proofs.Tracking

/-!
# What calls do on a recovered file

Where a key lives twice, a call goes by the copy that its handle finds.  A write lets that copy give
way to the new one, a delete drops it, and a lookup tells what it holds; the other copies stay as they
are.

* `Rewrites`, `Drops` — what a write and a delete make of the live records of a file.
* `Call.Does` — what any call makes of them, and what it answers.
* `Ended` — how a stretch of a call ends on a recovered file.

Principal results: `Session.Follows.patches`, `Session.Follows.kills`, `Session.Follows.publishes` —
the writes; `Call.stretch_ended` — every stretch of every call.
-/

set_option autoImplicit false

namespace RecordStore

/-! ## Live records before and after -/

/-- What a write makes of the live records: none has the key and the new record comes in, or one of
those that have it gives way. -/
inductive Rewrites (key : Bytes) (field : Option Field) (before : List Version) :
    List Version → Prop where
  | kept (present : ∃ v ∈ before, v.key = key) (fieldless : field = none) :
    Rewrites key field before before
  | created (absent : ∀ v ∈ before, v.key ≠ key) (offset : Nat) :
    Rewrites key field before (before ++ [⟨offset, key, field.toList⟩])
  | patched {front back : List Version} {v : Version} {f : Field} (named : field = some f)
    (split : before = front ++ v :: back) (own : v.key = key) :
    Rewrites key field before (front ++ ⟨v.offset, key, setField v.fields f⟩ :: back)
  | moved {front back : List Version} {v : Version} {f : Field} (named : field = some f)
    (split : before = front ++ v :: back) (own : v.key = key) (offset : Nat) :
    Rewrites key field before (front ++ back ++ [⟨offset, key, setField v.fields f⟩])

/-- What a delete makes of the live records, and whether it tells that it found one. -/
inductive Drops (key : Bytes) (before : List Version) : Bool → List Version → Prop where
  | missed (absent : ∀ v ∈ before, v.key ≠ key) : Drops key before false before
  | killed {front back : List Version} {v : Version} (split : before = front ++ v :: back)
    (own : v.key = key) : Drops key before true (front ++ back)

/-- What a lookup tells of the live records: what one of those with the key holds. -/
def Part.Tells (part : Part) (key : Bytes) (versions : List Version) (a : Answer) : Prop :=
  ((∀ v ∈ versions, v.key ≠ key) ∧ a = part.missing) ∨
    ∃ v ∈ versions, v.key = key ∧ part.Answers key (some v.fields) a

/-- What a call makes of the live records, and what it answers. -/
def Call.Does (before after : List Version) : Call → Answer → Prop
  | .write request, a => SessionM.requestFault? request = none ∧ a = .done ∧
    Rewrites request.key request.field before after
  | .delete key, a => ∃ flag, a = .flag flag ∧ Drops key before flag after
  | .read key part _, a => after = before ∧ part.Tells key before a
  | _, _ => after = before

/-- A new line is live, and stands behind the others. -/
theorem Image.mem_live_concat (header : Header) (texts : List Bytes) {text key : Bytes}
    {fields : List Field} (h : FreshLine text key fields) :
    (⟨Header.length + texts.flatten.length, text⟩ : Line) ∈
      (⟨header, texts ++ [text]⟩ : Image).live :=
  List.mem_filter.2 ⟨mem_lines_iff.2 ⟨texts, [], rfl, rfl⟩, by rw [isLiveText, h.live]; rfl⟩

namespace Session.Follows

variable {s s' : Session} {i : Image} {key : Bytes}

/-! ## Lookups -/

/-- A lookup of the place of a key looks at the file, and has an answer. -/
theorem locate_eq (hs : s.Follows i) (key : Bytes) (freshness : SessionM.Freshness) : ∃ handle,
    SessionM.locate key freshness s =
        .ok ((s.withHandle handle).found? key) (s.withHandle handle) ∧
      s.handle.Looks s.file.bytes handle ∧
      (freshness = .always ∨ (s.withHandle handle).found? key = none →
        (s.withHandle handle).Fresh) := by
  have hlocated := SessionM.locate_cases hs.mapped key freshness
  generalize hresult : SessionM.locate key freshness s = result at hlocated
  cases hlocated with
  | unreadable broken => exact absurd broken hs.not_broken
  | @located handle looks fresh => exact ⟨handle, rfl, looks, fresh⟩

/-- A line in view is read as the record that it is. -/
theorem recordAt_eq (hs : s.Follows i) {line : Line} (hl : line ∈ i.lines)
    (hsees : s.handle.Sees line) :
    ∃ r : Record, SessionM.recordAt line.span s = .ok r s ∧ r.toLine = line := by
  obtain ⟨r, hr, hline⟩ := hs.decode hl hsees
  refine ⟨r, ?_, hline⟩
  rw [SessionM.recordAt_eq_match, show line.span.offset = line.offset from rfl, hr]

/-- **A lookup that takes no lock** answers a live record of the key, or that none was found. -/
theorem read_cases (hs : s.Follows i) (key : Bytes) (part : Part) : ∃ s', s.Looks s' ∧
    ((∃ r : Record, r.toLine ∈ i.live ∧ r.key = key ∧
        SessionM.read key part false s = .ok (.answered (part.of r)) s') ∨
      s'.found? key = none ∧
        SessionM.read key part false s = .ok (.answered part.missing) s') := by
  obtain ⟨handle, hlocate, looks, -⟩ := hs.locate_eq key .ifMissing
  have hfollows := (hs.of_looks (.withHandle looks)).1
  have hread : SessionM.read key part false s =
      SessionM.readFound part ((s.withHandle handle).found? key) (s.withHandle handle) :=
    SessionM.bind_ok hlocate
  refine ⟨s.withHandle handle, .withHandle looks, ?_⟩
  cases hfound : (s.withHandle handle).found? key with
  | none =>
    rw [hfound] at hread
    exact Or.inr ⟨rfl, hread⟩
  | some span =>
    obtain ⟨line, hlive, hkey, rfl, hsees⟩ := hfollows.found hfound
    obtain ⟨r, hr, rfl⟩ := hfollows.recordAt_eq (List.mem_filter.1 hlive).1 hsees
    rw [hfound] at hread
    exact Or.inl ⟨r, hlive, hkey, hread.trans (SessionM.bind_ok hr)⟩

/-! ## The writes -/

/-- **A value in place** changes the fields of its record, which stays where it is. -/
theorem patches (hs : s.Follows i) {line : Line} (hlive : line ∈ i.live) {r : Record}
    (hr : r.toLine = line) {field : Field} (hfit : field.Fits) {place : Span}
    (hplace : r.fieldSpan? field.name = some place) (hlen : place.length = field.value.length) :
    ∃ j, (s.write ⟨line.offset + place.offset, field.value⟩).Follows j ∧ i.Grows j ∧
      Rewrites (keyOf line.text) (some field) i.versions j.versions ∧
      ∃ l ∈ j.live, keyOf l.text = keyOf line.text ∧ l.offset = line.offset := by
  subst hr
  obtain ⟨hl, hflag⟩ := List.mem_filter.1 hlive
  obtain ⟨hfits, hrep, hflag', hfields⟩ :=
    Image.replaces_fieldSpan? (hs.formed.line _ (Image.text_mem hl)) hfit hplace hlen
  obtain ⟨front, back, htexts, hoffset, hfollows, hgrows⟩ := hs.exchange hl hfits hrep
  refine ⟨_, hfollows, hgrows, ?_, ⟨Header.length + front.flatten.length, _⟩, List.mem_filter.2
    ⟨Image.mem_lines_iff.2 ⟨front, back, rfl, rfl⟩, hflag'.trans hflag⟩, hrep.key_eq, hoffset.symm⟩
  obtain ⟨header, texts⟩ := i
  dsimp only at htexts
  subst htexts
  rw [Image.versions_split header front back hflag,
    Image.versions_split header front back (hflag'.trans hflag), hrep.key_eq, hrep.length_eq, hfields]
  exact .patched rfl rfl rfl

/-- **The death of a record** drops it. -/
theorem kills (hs : s.Follows i) {line : Line} (hlive : line ∈ i.live) :
    ∃ j, (s.write ⟨line.offset, [deadFlag]⟩).Follows j ∧ i.Grows j ∧
      Drops (keyOf line.text) i.versions true j.versions := by
  obtain ⟨hl, hflag⟩ := List.mem_filter.1 hlive
  have hline := hs.formed.line _ (Image.text_mem hl)
  have hwell := hs.formed.wellFormed _ (Image.text_mem hl)
  obtain ⟨front, back, htexts, -, hfollows, hgrows⟩ :=
    hs.exchange hl (Image.fits_dead hline.length_pos) (Image.replaces_deadText hline hwell)
  refine ⟨_, hfollows, hgrows, ?_⟩
  obtain ⟨header, texts⟩ := i
  dsimp only at htexts
  subst htexts
  have hafter := Image.versions_kill header front back hline hwell
  rw [Image.deadText] at hafter
  rw [Image.versions_split header front back hflag, hafter]
  exact .killed rfl rfl

/-- The line that a write appends, and the record that it takes the place of. -/
theorem drafts (hs : s.Follows i) {field : Option Field} {old : Option Span} {line : Bytes}
    (hdrafted : Drafted s.data key field old line) (hkey : ∀ b ∈ key, isDelimiter b = false)
    (hfits : ∀ f, field = some f → f.Fits)
    (hold : ∀ span, old = some span → ∃ l ∈ i.live, keyOf l.text = key ∧ l.span = span ∧
      s.handle.Sees l) :
    (old = none ∧ FreshLine line key field.toList) ∨
      ∃ l ∈ i.live, ∃ f, keyOf l.text = key ∧ old = some l.span ∧ field = some f ∧
        FreshLine line key (setField (fieldsOf l.text) f) := by
  cases hdrafted with
  | fresh =>
    refine Or.inl ⟨rfl, freshLine_encodeRecord hkey fun f hf => hfits f ?_⟩
    rwa [Option.mem_toList] at hf
  | @copy r field span record =>
    obtain ⟨l, hlive, rfl, rfl, hsees⟩ := hold span rfl
    have hl := (List.mem_filter.1 hlive).1
    obtain rfl := hs.toLine_of_decode hl hsees record
    exact Or.inr ⟨_, hlive, field, rfl, rfl, rfl,
      Record.freshLine_withField (hs.formed.line _ (Image.text_mem hl)) (hfits field rfl)⟩

/-- **A line at the end** takes the place of one record with its key, or of none if there is none, and
is a record of the key itself. -/
theorem publishes (hs : s.Follows i) {field : Option Field} {old : Option Span} {line : Bytes}
    (hdrafted : Drafted s.data key field old line) (hkey : ∀ b ∈ key, isDelimiter b = false)
    (hfits : ∀ f, field = some f → f.Fits)
    (hold : ∀ span, old = some span → ∃ l ∈ i.live, keyOf l.text = key ∧ l.span = span ∧
      s.handle.Sees l) (hnone : old = none → ∀ l ∈ i.live, keyOf l.text ≠ key)
    {seq : UInt32} (count : UInt32)
    (hread : Header.counterAt? (s.writeLine line).file.bytes Header.appendSeqAt = some seq) :
    ∃ j, ((s.writeLine line).publish seq count old).Follows j ∧ i.Grows j ∧
      Rewrites key field i.versions j.versions ∧
      ∃ l ∈ j.live, keyOf l.text = key ∧ l.offset = i.bytes.length := by
  rcases hs.drafts hdrafted hkey hfits hold with ⟨rfl, hfresh⟩ |
    ⟨l, hlive, f, rfl, rfl, rfl, hfresh⟩
  · obtain ⟨hfollows, hgrows⟩ := hs.publish_none hfresh count hread
    refine ⟨_, hfollows, hgrows, ?_, _, Image.mem_live_concat _ i.texts hfresh, hfresh.key_eq,
      i.length_bytes.symm⟩
    rw [Image.versions_concat i _ hfresh]
    refine .created ?_ _
    intro v hv
    obtain ⟨l, hl, rfl⟩ := List.mem_map.1 hv
    exact hnone rfl l hl
  · obtain ⟨hl, hflag⟩ := List.mem_filter.1 hlive
    have hline := hs.formed.line _ (Image.text_mem hl)
    have hwell := hs.formed.wellFormed _ (Image.text_mem hl)
    obtain ⟨front, back, htexts, -, hfollows, hgrows⟩ := hs.publish_some hl hfresh count hread
    have hend : i.bytes.length =
        Header.length + (front ++ Image.deadText l.text :: back).flatten.length := by
      rw [Image.length_bytes, htexts]
      simp [(Image.replaces_deadText hline hwell).length_eq]
    refine ⟨_, hfollows, hgrows, ?_, _, Image.mem_live_concat _ _ hfresh, hfresh.key_eq, hend.symm⟩
    obtain ⟨header, texts⟩ := i
    dsimp only at htexts
    subst htexts
    have hafter := Image.versions_concat ⟨header, front ++ Image.deadText l.text :: back⟩
      (SessionM.publishedHeader header count) hfresh
    dsimp only at hafter
    rw [hafter, Image.versions_kill header front back hline hwell,
      Image.versions_split header front back hflag]
    exact .moved (v := ⟨_, keyOf l.text, fieldsOf l.text⟩) rfl rfl rfl _

/-! ## Up to the line of an append -/

/-- **An append up to its line**: the records are as they were, and the key was found, or missed for
good. -/
theorem prepared (hs : s.Follows i) (hsmall : i.bytes.length < UInt32.size) {old : Option Span}
    {count : UInt32} (h : Prepared s key old count s') :
    ∃ j, (j = i ∨ j = i.sorted s.now) ∧ s'.Follows j ∧ i.Grows j ∧ j.versions = i.versions ∧
      (old = none → ∀ l ∈ j.live, keyOf l.text ≠ key) ∧
      ∀ span, old = some span → ∃ l ∈ j.live, keyOf l.text = key ∧ l.span = span ∧
        s'.handle.Sees l := by
  cases h with
  | @rested handle count read rested looks fresh =>
    obtain ⟨hfollows, -⟩ := hs.of_looks (.withHandle looks)
    exact ⟨i, Or.inl rfl, hfollows, .refl i, rfl, fun hnone => hfollows.absent hsmall hnone (fresh hnone),
      fun span hsome => hfollows.found hsome⟩
  | @sorted handle count read overdue looks fresh =>
    obtain ⟨hfollows, -⟩ := hs.of_looks (.withHandle looks)
    obtain ⟨hsorted, hgrows⟩ := hfollows.sort hsmall fresh
    have hversions : (i.sorted (s.withHandle handle).now).versions = i.versions :=
      i.versions_sort _
    refine ⟨_, Or.inr rfl, hsorted, hgrows, hversions, ?_, ?_⟩
    · intro hnone l hlive
      obtain ⟨l', hlive', -, hof⟩ := Image.exists_live_of_versions hs.formed.toLined
        (j := i) (i := i.sorted _) (Image.extends_of_frames (Image.frames_fillSlots _ i _).symm)
        hversions.symm hlive
      rw [← show keyOf l'.text = keyOf l.text from congrArg Version.key hof]
      exact hfollows.absent hsmall hnone fresh l' hlive'
    · intro span hsome
      obtain ⟨l, hlive, hkey, hspan, hsees⟩ := hfollows.found hsome
      obtain ⟨l', hlive', hspan', hof⟩ := Image.exists_live_of_versions hsorted.formed.toLined
        hgrows.extends_ hversions hlive
      obtain ⟨-, -, hhandle⟩ := (s.withHandle handle).sort_frame
      refine ⟨l', hlive', (congrArg Version.key hof).trans hkey, hspan'.trans hspan, ?_⟩
      have hend : l'.offset + l'.text.length = l.offset + l.text.length := by
        rw [show l'.offset = l.offset from congrArg Span.offset hspan',
          show l'.text.length = l.text.length from congrArg Span.length hspan']
      unfold Handle.Sees
      rw [hhandle, hend]
      exact hsees

end Session.Follows

/-! ## Calls -/

/-- How a stretch of a call ends on a recovered file. -/
inductive Ended (i : Image) (call : Call) : EStateM.Result Error Session Progress → Prop where
  | waiting {s' : Session} {stage : Stage} (follows : s'.Follows i)
    (pending : call.Pending (some stage))
    (awaits : ∀ key, call.key? = some key → s'.handle.Awaits i stage.span? key) :
    Ended i call (.ok (.waiting stage) s')
  | failed {s' : Session} {j : Image} {e : Error} (follows : s'.Follows j) (grows : i.Grows j)
    (versions : j.versions = i.versions) : Ended i call (.error e s')
  | answered {s' : Session} {j : Image} {a : Answer} (follows : s'.Follows j) (grows : i.Grows j)
    (does : call.Does i.versions j.versions a) : Ended i call (.ok (.answered a) s')

section Stretches

variable {s : Session} {i : Image} {call : Call} {waited : Option Span}

/-- A stretch that is refused has written nothing. -/
theorem Session.Follows.refused (hs : s.Follows i) {s' : Session} (hlooks : s.Looks s') (e : Error) :
    Ended i call (.error e s') :=
  .failed (hs.of_looks hlooks).1 (.refl i) rfl

/-- A stretch that waits remembers a record that stands where the handle sees it. -/
theorem Session.Follows.waits (hs : s.Follows i)
    (hawaits : ∀ key, call.key? = some key → s.handle.Awaits i waited key) {s' : Session}
    {stage : Stage} (hwaits : Waits s s' call waited stage) :
    Ended i call (.ok (.waiting stage) s') := by
  obtain ⟨hfollows, hle⟩ := hs.of_looks hwaits.looks
  refine .waiting hfollows hwaits.pending fun key hkey span hspan => ?_
  rcases hwaits.span span hspan with hw | ⟨key', hkey', hfound⟩
  · obtain ⟨hshows, hsees⟩ := hawaits key hkey span hw
    exact ⟨hshows, Nat.le_trans hsees hle⟩
  · rw [hkey, Option.some.injEq] at hkey'
    subst hkey'
    obtain ⟨line, hlive, hkeyOf, rfl, hsees⟩ := hfollows.found hfound
    exact ⟨⟨line, (List.mem_filter.1 hlive).1, rfl, hkeyOf⟩, hsees⟩

/-- What a stretch awaited stands where it aims, once it has looked. -/
theorem Session.Follows.aims_of_looks (hs : s.Follows i) {key : Bytes}
    (hawaits : s.handle.Awaits i waited key) {s' : Session} (hlooks : s.Looks s') {span : Span}
    (haims : s'.Aims waited key span) : ∃ line ∈ i.live, keyOf line.text = key ∧
      line.span = span ∧ s'.handle.Sees line := by
  obtain ⟨hfollows, hle⟩ := hs.of_looks hlooks
  refine hfollows.aims (fun span hw => ?_) haims
  obtain ⟨hshows, hsees⟩ := hawaits span hw
  exact ⟨hshows, Nat.le_trans hsees hle⟩

/-- The record that a stretch decodes where it aims is the live one there. -/
theorem Session.Follows.record_of_aims (hs : s.Follows i) {key : Bytes}
    (hawaits : s.handle.Awaits i waited key) {s' : Session} (hlooks : s.Looks s') {span : Span}
    (haims : s'.Aims waited key span) {r : Record}
    (hrecord : Record.decode s'.data span.offset = .ok r) :
    r.toLine ∈ i.live ∧ keyOf r.text = key ∧ r.span = span := by
  obtain ⟨line, hlive, hkey, rfl, hsees⟩ := hs.aims_of_looks hawaits hlooks haims
  obtain rfl := (hs.of_looks hlooks).1.toLine_of_decode (List.mem_filter.1 hlive).1 hsees hrecord
  exact ⟨hlive, hkey, rfl⟩

/-- Where no key lives twice, that is the one live record of the key. -/
theorem Session.Follows.find?_of_aims (hs : s.Follows i)
    (hdistinct : (i.versions.map Version.key).Nodup) {key : Bytes}
    (hawaits : s.handle.Awaits i waited key) {s' : Session} (hlooks : s.Looks s') {span : Span}
    (haims : s'.Aims waited key span) :
    ∃ line, i.find? key = some line ∧ line.span = span ∧ s'.handle.Sees line := by
  obtain ⟨line, hlive, hkey, hspan, hsees⟩ := hs.aims_of_looks hawaits hlooks haims
  exact ⟨line, (hs.formed.toLined.find?_eq_some_iff hdistinct).2 ⟨hlive, hkey⟩, hspan, hsees⟩

/-- What is missed by a session that has just looked at the append sequence is not there. -/
theorem Session.Follows.find?_of_missing (hs : s.Follows i) (hsmall : i.bytes.length < UInt32.size)
    {key : Bytes} (hmissing : s.found? key = none) (hfresh : s.Fresh) : i.find? key = none :=
  List.find?_eq_none.2 fun line hlive => by simpa using hs.absent hsmall hmissing hfresh line hlive

theorem Image.exists_version {i : Image} {line : Line} (hlive : line ∈ i.live) {key : Bytes}
    (hkey : keyOf line.text = key) : ∃ v ∈ i.versions, v.key = key :=
  ⟨Version.of line, List.mem_map_of_mem hlive, hkey⟩

theorem Image.forall_versions {i : Image} {key : Bytes} (h : ∀ line ∈ i.live, keyOf line.text ≠ key) :
    ∀ v ∈ i.versions, v.key ≠ key := by
  intro v hv
  obtain ⟨line, hlive, rfl⟩ := List.mem_map.1 hv
  exact h line hlive

/-- **A stretch of a write.** -/
theorem Wrote.ended {request : WriteRequest} {result : EStateM.Result Error Session Progress}
    (h : Wrote s request waited result) (hs : s.Follows i) (hsmall : i.bytes.length < UInt32.size)
    (hreq : ∀ a s', result = .ok (.answered a) s' → SessionM.requestFault? request = none)
    (hawaits : s.handle.Awaits i waited request.key) : Ended i (.write request) result := by
  cases h with
  | waiting waits =>
    refine hs.waits (fun key hkey => ?_) waits
    obtain rfl := Option.some.inj hkey
    exact hawaits
  | refused looks kept => exact hs.refused looks _
  | untouched looks aims fieldless =>
    obtain ⟨line, hlive, hkey, -, -⟩ := hs.aims_of_looks hawaits looks aims
    exact .answered (hs.of_looks looks).1 (.refl i)
      ⟨hreq _ _ rfl, rfl, .kept (Image.exists_version hlive hkey) fieldless⟩
  | @patched s₁ s' span place r field looks aims named record placed fits relocks =>
    have hfault := hreq _ _ rfl
    obtain ⟨hfollows, -⟩ := hs.of_looks looks
    obtain ⟨hlive, hkey, rfl⟩ := hs.record_of_aims hawaits looks aims record
    obtain ⟨j, hj, hgrows, hrewrites, -⟩ := hfollows.patches hlive rfl
      ((WriteRequest.fits_of_requestFault? hfault).2 field named) placed fits
    rw [hkey, ← named] at hrewrites
    exact .answered (hj.markModified.of_relocks relocks) hgrows ⟨hfault, rfl, hrewrites⟩
  | present looks prepared fieldless relocks =>
    obtain ⟨hfollows, -⟩ := hs.of_looks looks
    obtain ⟨j, -, hj, hgrows, hversions, -, hfound⟩ := hfollows.prepared hsmall prepared
    obtain ⟨line, hlive, hkey, -, -⟩ := hfound _ rfl
    refine .answered (hj.of_relocks relocks) hgrows ⟨hreq _ _ rfl, rfl, ?_⟩
    rw [← hversions]
    exact .kept (Image.exists_version hlive hkey) fieldless
  | damaged looks prepared other relocks =>
    obtain ⟨hfollows, -⟩ := hs.of_looks looks
    obtain ⟨j, -, hj, hgrows, hversions, -, -⟩ := hfollows.prepared hsmall prepared
    exact .failed (hj.of_relocks relocks) hgrows hversions
  | stranded strands => exact absurd strands.broken hs.not_broken
  | published looks prepared drafted locked read relocks =>
    have hfault := hreq _ _ rfl
    obtain ⟨hkey, hfits⟩ := WriteRequest.fits_of_requestFault? hfault
    obtain ⟨hfollows, -⟩ := hs.of_looks looks
    obtain ⟨j, -, hj, hij, hversions, hnone, hfound⟩ := hfollows.prepared hsmall prepared
    rw [hj.sealed_eq] at locked
    have hdata := locked.data
    rw [← hdata] at drafted
    have hj' := hj.of_relocks locked
    obtain ⟨k, hk, hjk, hrewrites, -⟩ := hj'.publishes drafted hkey hfits
      (fun span hsome => by cases locked; exact hfound span hsome) hnone _ read
    rw [hversions] at hrewrites
    exact .answered (hk.of_relocks relocks) (hij.trans hjk) ⟨hfault, rfl, hrewrites⟩

/-- **A stretch of a lookup.** -/
theorem Read.ended {key : Bytes} {part : Part} {keepLock : Bool}
    {result : EStateM.Result Error Session Progress} (h : Read s key part keepLock waited result)
    (hs : s.Follows i) (hsmall : i.bytes.length < UInt32.size)
    (hawaits : s.handle.Awaits i waited key) : Ended i (.read key part keepLock) result := by
  cases h with
  | waiting waits =>
    refine hs.waits (fun key' hkey => ?_) waits
    obtain rfl := Option.some.inj hkey
    exact hawaits
  | refused looks => exact hs.refused looks _
  | missed looks missing fresh =>
    obtain ⟨hfollows, -⟩ := hs.of_looks looks
    exact .answered hfollows (.refl i)
      ⟨rfl, Or.inl ⟨Image.forall_versions (hfollows.absent hsmall missing fresh), rfl⟩⟩
  | @found s' span r looks aims record =>
    obtain ⟨hfollows, -⟩ := hs.of_looks looks
    obtain ⟨hlive, rfl, rfl⟩ := hs.record_of_aims hawaits looks aims record
    exact .answered hfollows (.refl i) ⟨rfl, Or.inr
      ⟨_, List.mem_map_of_mem hlive, rfl, Part.answers_of (List.mem_filter.1 hlive).2 part⟩⟩

/-- **A stretch of a delete.** -/
theorem Deleted.ended {key : Bytes} {result : EStateM.Result Error Session Progress}
    (h : Deleted s key waited result) (hs : s.Follows i) (hsmall : i.bytes.length < UInt32.size)
    (hawaits : s.handle.Awaits i waited key) : Ended i (.delete key) result := by
  cases h with
  | waiting waits =>
    refine hs.waits (fun key' hkey => ?_) waits
    obtain rfl := Option.some.inj hkey
    exact hawaits
  | refused looks => exact hs.refused looks _
  | missed looks missing fresh =>
    obtain ⟨hfollows, -⟩ := hs.of_looks looks
    exact .answered hfollows (.refl i)
      ⟨false, rfl, .missed (Image.forall_versions (hfollows.absent hsmall missing fresh))⟩
  | @killed s₁ s' span looks aims relocks =>
    obtain ⟨hfollows, -⟩ := hs.of_looks looks
    obtain ⟨line, hlive, rfl, rfl, -⟩ := hs.aims_of_looks hawaits looks aims
    obtain ⟨j, hj, hgrows, hdrops⟩ := hfollows.kills hlive
    exact .answered (hj.forget.markModified.of_relocks relocks) hgrows ⟨true, rfl, hdrops⟩

/-- **Every stretch of every call**, on a recovered file. -/
theorem Call.stretch_ended (hs : s.Follows i) (hsmall : i.bytes.length < UInt32.size)
    {pending : Option Stage} (hpending : call.Pending pending)
    (hawaits : ∀ key, call.key? = some key → s.handle.Awaits i (pending.bind Stage.span?) key) :
    Ended i call (call.stretch pending s) := by
  have hran := Call.stretch_ran hs.mapped (hs.lockable hsmall) hpending
  generalize hresult : call.stretch pending s = result at hran
  cases hran with
  | @write request _ wrote =>
    exact wrote.ended hs hsmall (fun a s' hanswered =>
      Call.requestFault?_of_answered hpending (hresult.trans hanswered)) (hawaits _ rfl)
  | delete deleted => exact deleted.ended hs hsmall (hawaits _ rfl)
  | read read => exact read.ended hs hsmall (hawaits _ rfl)
  | resort sorted =>
    cases sorted with
    | waiting waits => exact hs.waits (by rintro key ⟨⟩) waits
    | refused looks => exact hs.refused looks _
    | @sorted s₁ s' looks fresh relocks =>
      obtain ⟨hsorted, hgrows⟩ := (hs.of_looks looks).1.sort hsmall fresh
      exact .answered (hsorted.of_relocks relocks) hgrows (i.versions_sort _)
  | glance keyless glanced =>
    cases glanced with
    | waiting waits => exact hs.waits (by rw [keyless]; rintro key ⟨⟩) waits
    | refused looks => exact hs.refused looks _
    | answered looks =>
      refine .answered (hs.of_looks looks).1 (.refl i) ?_
      cases call with
      | read | write | delete => cases keyless
      | _ => rfl

end Stretches

end RecordStore
