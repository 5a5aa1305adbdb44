import Mathlib.Tactic.Common
import RecordStore.Proofs.Boundaries
import RecordStore.Proofs.Glances
import RecordStore.Proofs.Holding

/-!
# Who changes the append sequence

Whatever a file holds that an opener accepts, a stretch leaves the append sequence as it is, unless it
publishes a line, which raises it by one.  The one exception is a sort where the version of the header
ends in a newline.

* `appendSeq?` — the append sequence that a file tells.
* `Session.Tells` — where a session's records begin, and the append sequence; `Session.Advances` — the
  same, or the next one.

Principal results: `Call.stretch_tells` — every call but a write; `Call.stretch_advances` — every call;
`Session.sort_appendSeq?_of_splits` — the exception.
-/

set_option autoImplicit false

namespace RecordStore

/-! ## What a stretch keeps to -/

/-- The append sequence that a file tells. -/
def appendSeq? (bytes : Bytes) : Option UInt32 := Header.counterAt? bytes Header.appendSeqAt

/-- Where the records of the session begin, and the append sequence, unless the header splits. -/
structure Session.Tells (s : Session) (headLen : Nat) (seq : Option UInt32) : Prop where
  steady : s.handle.Steady s.file.bytes
  headLen : s.handle.headLen = headLen
  seq : s.file.bytes[Header.versionEnd]? ≠ some newline → appendSeq? s.file.bytes = seq

/-- The first bytes of a file tell its append sequence. -/
theorem appendSeq?_congr {bytes bytes' : Bytes}
    (h : bytes'.take Header.modifiedAt = bytes.take Header.modifiedAt) :
    appendSeq? bytes' = appendSeq? bytes := by
  have htake := congrArg (·.take (Header.appendSeqAt + Hex.wordLen)) h
  simp only [List.take_take] at htake
  exact SessionM.counterAt?_congr htake

/-- Writes behind the append sequence leave it as it is. -/
theorem appendSeq?_applyAll {bytes : Bytes} (patches : List Patch)
    (hlong : Header.length ≤ bytes.length)
    (hbehind : ∀ patch ∈ patches, Header.modifiedAt ≤ patch.offset) :
    appendSeq? (Patch.applyAll patches bytes) = appendSeq? bytes :=
  appendSeq?_congr (Patch.take_applyAll hbehind (Nat.le_trans (by decide) hlong))

/-- A counter that was just written is read. -/
theorem counterAt?_apply_word {bytes : Bytes} {offset : Nat}
    (hfits : offset + Hex.wordLen ≤ bytes.length) (v : UInt32) :
    Header.counterAt? ((⟨offset, Hex.word v⟩ : Patch).apply bytes) offset = some v := by
  have hpatch : (⟨offset, Hex.word v⟩ : Patch).Fits bytes := hfits
  rw [Header.counterAt?, Patch.length_apply hpatch, if_pos hfits]
  exact (congrArg Hex.parse? (Patch.take_drop_apply_self hpatch)).trans (Hex.parse?_word v)

theorem appendSeq?_apply_word {bytes : Bytes} (hlong : Header.length ≤ bytes.length) (v : UInt32) :
    appendSeq? ((⟨Header.appendSeqAt, Hex.word v⟩ : Patch).apply bytes) = some v :=
  counterAt?_apply_word (Nat.le_trans (by decide) hlong) v

theorem appendSeq?_of_decode? {bytes : Bytes} {header : Header}
    (hdec : Header.decode? bytes = some header) : appendSeq? bytes = some header.appendSeq := by
  unfold Header.decode? at hdec
  split at hdec
  · split at hdec
    · split at hdec
      · next hseq _ _ =>
        obtain rfl := Option.some.inj hdec
        exact hseq
      · cases hdec
    · cases hdec
  · cases hdec

theorem Handle.Steady.looks {h h' : Handle} {bytes : Bytes} (hs : h.Steady bytes)
    (hl : h.Looks bytes h') : h'.Steady bytes := by
  refine hl.preserves (p := fun h => h.Steady bytes) ?_ hs
  intro a b hab ha
  cases hab with
  | remap => exact ha.remap _
  | remember found => exact ha.remember (ha.find?_sound found).bears
  | forget => exact ha.forget

/-- Whatever ends in a newline is part of the whole lines. -/
theorem lt_length_wholeLines {s : Bytes} {i : Nat} (h : s[i]? = some newline) :
    i < (wholeLines s).length := by
  by_contra hle
  rw [← wholeLines_append_openLine s, List.getElem?_append_right (by omega)] at h
  exact newline_notMem_openLine s (List.mem_of_getElem? h)

/-- A counter read through a mapping is the counter of the file. -/
theorem Handle.Steady.counterAt? {h : Handle} {bytes : Bytes} (hs : h.Steady bytes)
    (c : Header.Counter) :
    Header.counterAt? (h.view.read bytes) c.offset = Header.counterAt? bytes c.offset :=
  Handle.Mapped.counterAt? (h := { h with headLen := Header.length }) ⟨rfl, hs.sees, hs.inside⟩ c

namespace Session

variable {s s' : Session} {n : Nat} {seq : Option UInt32}

/-- A session whose handle is steady keeps to what it has. -/
theorem keeps_of_steady (hs : s.handle.Steady s.file.bytes) :
    s.Keeps ⟨s.holder, s.file.bytes, s.file.locks.others s.holder⟩
      (s.file.locks.held.map ByteLock.byte) [] where
  holder := rfl
  steady := hs
  endures := Endures.refl _
  others := rfl
  own lock hl _ := Or.inr ⟨lock.byte, List.mem_map_of_mem hl,
    LockTable.covers_iff.2 ⟨Nat.le_refl _, Nat.lt_add_of_pos_right (by decide)⟩⟩
  bears := by simp

namespace Tells

theorem of_keeps {o : Outset} {owned : List Nat} {seen : List Span} {f : Option UInt32 → Option UInt32}
    (h : s.Tells n seq) (hkeeps : s'.Keeps o owned seen) (ho : o.bytes = s.file.bytes)
    (hlen : s'.handle.headLen = s.handle.headLen)
    (hseq : s.file.bytes[Header.versionEnd]? ≠ some newline →
      appendSeq? s'.file.bytes = f (appendSeq? s.file.bytes)) : s'.Tells n (f seq) where
  steady := hkeeps.steady
  headLen := hlen.trans h.headLen
  seq hnot := by
    have hsame := (ho ▸ hkeeps.endures).versionEnd_iff h.steady.legible
    rw [ne_eq, hsame] at hnot
    rw [hseq hnot, h.seq hnot]

theorem looks (h : s.Tells n seq) (hl : s.Looks s') : s'.Tells n seq where
  steady := by
    rw [hl.bytes]
    exact h.steady.looks hl.handle
  headLen := hl.handle.frame.2.1.trans h.headLen
  seq := by
    rw [hl.bytes]
    exact h.seq

/-- **A sort** leaves the append sequence, unless the header splits. -/
theorem sort (h : s.Tells n seq) : s.sort.Tells n seq := by
  have hlen : s.sort.handle.headLen = s.handle.headLen := by
    show (s.writeAll s.sortPatches).handle.headLen = _
    rw [(s.writeAll_frame s.sortPatches).2.1]
  refine h.of_keeps (f := id) (keeps_of_steady h.steady).sort rfl hlen fun hwhole => ?_
  have hbytes : s.sort.file.bytes = Patch.applyAll s.sortPatches s.file.bytes :=
    s.writeAll_bytes s.sortPatches
  rw [hbytes]
  refine appendSeq?_applyAll _ h.steady.legible.length_le fun patch hp => ?_
  rcases List.mem_append.1 hp with hp | hp
  · obtain ⟨⟨place, target⟩, hplan, rfl⟩ := List.mem_map.1 hp
    obtain ⟨line, hline, rfl⟩ := List.mem_map.1 (List.of_mem_zip hplan).1
    have hseen : s.data[Header.versionEnd]? = s.file.bytes[Header.versionEnd]? :=
      List.getElem?_take_of_lt (Nat.lt_of_lt_of_le (by decide) h.steady.sees)
    rcases Index.offset_of_slotted h.steady.legible_view h.steady.newline_view hline with
      hle | ⟨-, hsplit⟩
    · exact Nat.le_trans (Nat.le_trans (by decide) hle) (Nat.le_add_right _ _)
    · exact absurd (hseen ▸ hsplit) hwhole
  · simp only [List.mem_cons, List.not_mem_nil, or_false] at hp
    rcases hp with rfl | rfl
    · exact (by decide : Header.modifiedAt ≤ Header.sinceSortAt)
    · exact Nat.le_refl _

/-- Closing the last line touches nothing of the header. -/
theorem sealed (h : s.Tells n seq) : s.sealed.Tells n seq := by
  have hkeeps := (keeps_of_steady h.steady).sealTail
  have hkept := h.of_keeps (f := id) hkeeps rfl
  unfold Session.sealed at hkept ⊢
  split
  · exact h
  · next hopen =>
    rw [if_neg hopen] at hkept
    have hlong := h.steady.legible.length_le
    -- what follows the last newline follows that of the header
    have hwhole : Header.length ≤ (wholeLines s.file.bytes).length :=
      lt_length_wholeLines h.steady.legible.newline_eq
    have hlen : (s.writeAll (sealPatches s.file.bytes s.handle.headLen)).handle.headLen =
        s.handle.headLen := by
      rw [(s.writeAll_frame _).2.1]
    refine hkept hlen fun _ => ?_
    show appendSeq? (s.writeAll (sealPatches s.file.bytes s.handle.headLen)).file.bytes = _
    rw [s.writeAll_bytes]
    refine appendSeq?_applyAll _ hlong fun patch hp => ?_
    unfold sealPatches at hp
    rcases List.mem_cons.1 hp with rfl | hp
    · exact Nat.le_trans (by decide) hlong
    · split at hp
      · obtain rfl := List.mem_singleton.1 hp
        exact Nat.le_trans (by decide) hwhole
      · cases hp

/-- A write behind the header. -/
theorem write (h : s.Tells n seq) (patch : Patch) (hbehind : Header.length ≤ patch.offset)
    (hendures : Endures s.file.bytes (patch.apply s.file.bytes)) : (s.write patch).Tells n seq := by
  refine h.of_keeps (f := id) ((keeps_of_steady h.steady).write hendures) rfl rfl fun _ => ?_
  rw [Session.write_bytes]
  exact appendSeq?_applyAll [patch] h.steady.legible.length_le
    (by simpa using Nat.le_trans (by decide) hbehind)

theorem writeLine (h : s.Tells n seq) (line : Bytes) : (s.writeLine line).Tells n seq := by
  refine h.of_keeps (f := id) ((keeps_of_steady h.steady).writeLine line) rfl rfl fun _ => ?_
  rw [Session.writeLine, Session.write_bytes]
  exact appendSeq?_applyAll [_] h.steady.legible.length_le
    (by simpa using Nat.le_trans (by decide) h.steady.legible.length_le)

theorem markModified (h : s.Tells n seq) : s.markModified.Tells n seq :=
  h.of_keeps (f := id) (keeps_of_steady h.steady).markModified rfl rfl fun _ => rfl

/-- **A publication** raises the append sequence by one. -/
theorem publish (h : s.Tells n seq) {next count : UInt32} {old : Option Span}
    (hread : appendSeq? s.file.bytes = some next) (hold : ∀ span, old = some span → Bears s.data span) :
    (s.publish next count old).Tells n (seq.map (· + 1)) := by
  have hseen : s.Keeps _ _ old.toList :=
    { keeps_of_steady h.steady with
      bears := fun span hs => hold span (Option.mem_toList.1 hs) }
  have hlen : (s.publish next count old).handle.headLen = s.handle.headLen := by
    show (s.writeAll (publishPatches next count old)).handle.headLen = _
    rw [(s.writeAll_frame _).2.1]
  refine h.of_keeps (hseen.publish next count fun span hs => Option.mem_toList.2 hs) rfl hlen
    fun _ => ?_
  have hlong := h.steady.legible.length_le
  show appendSeq? (s.writeAll (publishPatches next count old)).file.bytes = _
  rw [s.writeAll_bytes, hread, publishPatches, List.cons_append, Patch.applyAll_cons]
  refine (appendSeq?_applyAll _ ?_ fun patch hp => ?_).trans ?_
  · exact Nat.le_trans hlong (Patch.length_le_length_apply _ _)
  · rw [List.singleton_append, List.mem_cons, Option.mem_toList, Option.map_eq_some_iff] at hp
    rcases hp with rfl | ⟨span, hspan, rfl⟩
    · exact (by decide : Header.modifiedAt ≤ Header.sinceSortAt)
    · exact Nat.le_trans (by decide) (hold span hspan).header_le
  · rw [appendSeq?_apply_word hlong]
    rfl

end Tells

end Session

namespace SessionM

variable {s : Session} {n : Nat} {seq : Option UInt32}

theorem OnlyLooks.leads {α : Type} {act : SessionM α} (h : OnlyLooks act) (s : Session) :
    Leads act s (fun _ s' => s.Looks s') (fun s' => s.Looks s') := by
  have hlooks := h s
  unfold Leads
  cases hact : act s with
  | ok a s' => rwa [final_ok hact] at hlooks
  | error e s' => rwa [final_error hact] at hlooks

/-- What holds wherever a computation ends. -/
theorem Leads.final {α : Type} {act : SessionM α} {p : Session → Prop}
    (h : Leads act s (fun _ s' => p s') p) : p (final act s) := by
  unfold Leads at h
  unfold SessionM.final
  cases hact : act s with
  | ok a s' => rwa [hact] at h
  | error e s' => rwa [hact] at h

/-- What a computation that only looks ends in, and that it only looked. -/
theorem Leads.and_looks {α : Type} {act : SessionM α} {post : α → Session → Prop}
    {fail : Session → Prop} (h : Leads act s post fail) (hlooks : OnlyLooks act) :
    Leads act s (fun a s' => post a s' ∧ s.Looks s') (fun s' => s.Looks s') := by
  have hleads := hlooks.leads s
  unfold Leads at h hleads ⊢
  cases hact : act s with
  | ok a s' =>
    rw [hact] at h hleads
    exact ⟨h, hleads⟩
  | error e s' =>
    rw [hact] at hleads
    exact hleads

end SessionM

/-- A stretch leaves the append sequence, or raises it by one. -/
def Session.Advances (s : Session) (n : Nat) (seq : Option UInt32) : Prop :=
  s.Tells n seq ∨ s.Tells n (seq.map (· + 1))

theorem Session.Advances.looks {s s' : Session} {n : Nat} {seq : Option UInt32}
    (h : s.Advances n seq) (hl : s.Looks s') : s'.Advances n seq :=
  h.imp (·.looks hl) (·.looks hl)

namespace SessionM

variable {s : Session} {n : Nat} {seq : Option UInt32}

theorem locate_tells (h : s.Tells n seq) (key : Bytes) (freshness : Freshness) :
    Leads (locate key freshness) s
      (fun found s' => s'.Tells n seq ∧ ∀ span, found = some span → LiveAt s'.data span)
      (fun s' => s'.Tells n seq) :=
  ((locate_leads (Session.keeps_of_steady h.steady) key freshness).and_looks
    (onlyLooks_locate key freshness)).mono (fun _ _ h' => ⟨h.looks h'.2, h'.1.2⟩) fun _ => h.looks

/-- What a lookup that locks leaves behind. -/
theorem Leads.tells_locked {act : SessionM Locked} {o : Outset} {owned : List Nat} {seen : List Span}
    {fail : Session → Prop} (hact : Leads act s (fun locked s' => locked.Keeps o owned seen s') fail)
    (hlooks : OnlyLooks act) (h : s.Tells n seq) :
    Leads act s (fun locked s' => s'.Tells n seq ∧ ∀ span, locked = .granted span → LiveAt s'.data span)
      (fun s' => s'.Tells n seq) := by
  refine (hact.and_looks hlooks).mono ?_ fun _ => h.looks
  rintro locked s' ⟨hkeeps, hl⟩
  refine ⟨h.looks hl, ?_⟩
  rintro span rfl
  exact hkeeps.2.1

/-- A counter that is read is that of the file. -/
theorem appendSeq_leads (h : s.Tells n seq) : Leads appendSeq s
    (fun v s' => s' = s ∧ appendSeq? s.file.bytes = some v) (fun s' => s' = s) := by
  have hread : appendSeq? s.file.bytes = Header.counterAt? s.data Header.appendSeqAt :=
    (h.steady.counterAt? .appendSeq).symm
  unfold Leads
  rw [hread, show appendSeq s = _ from counter_eq_match s Header.appendSeqAt]
  cases Header.counterAt? s.data Header.appendSeqAt with
  | none => rfl
  | some v => exact ⟨rfl, rfl⟩

/-- A line is written, and its publication raises the append sequence. -/
theorem commitLine_advances (h : s.Tells n seq) (line : Bytes) (count : UInt32) {old : Option Span}
    (hold : ∀ span, old = some span → Bears s.data span) :
    Leads (commitLine s.file.bytes.length line count old) s (fun _ s' => s'.Advances n seq)
      (fun s' => s'.Tells n seq) := by
  have hwritten := h.writeLine line
  have hseen : s.Keeps _ _ old.toList :=
    { Session.keeps_of_steady h.steady with
      bears := fun span hs => hold span (Option.mem_toList.1 hs) }
  unfold commitLine
  refine .modify_bind (((appendSeq_leads hwritten).mono (fun _ _ => id) ?_).bind ?_)
  · rintro s' rfl
    exact hwritten
  · rintro v s' ⟨rfl, hread⟩
    refine .of_ok rfl (Or.inr (hwritten.publish hread fun span hs => ?_))
    exact (hseen.writeLine line).bears span (Option.mem_toList.2 hs)

/-- **An append** raises the append sequence by one, if it appends. -/
theorem appendRecord_advances (h : s.Tells n seq) (key : Bytes) (field : Option Field) :
    Leads (appendRecord key field) s (fun _ s' => s'.Advances n seq) (fun s' => s'.Tells n seq) := by
  unfold appendRecord
  refine ((counter_leads s Header.sinceSortAt).mono (fun _ _ => id) ?_).bind ?_
  · rintro s' rfl
    exact h
  rintro count s' rfl
  refine .get_bind ?_
  dsimp only
  refine (locate_tells h key _).bind ?_
  rintro old s₁ ⟨h₁, hold⟩
  have hseen : s₁.Keeps _ _ old.toList :=
    { Session.keeps_of_steady h₁.steady with
      bears := fun span hs => (hold span (Option.mem_toList.1 hs)).bears }
  unfold Leads
  rw [ite_modify_bind]
  obtain ⟨s₂, hs₂, h₂, hkeeps₂⟩ :
      ∃ s₂, (if s'.handle.config.resortLimit < count then s₁.sort else s₁) = s₂ ∧
        s₂.Tells n seq ∧ s₂.Keeps _ _ old.toList := by
    refine ⟨_, rfl, ?_⟩
    split
    · exact ⟨h₁.sort, hseen.sort⟩
    · exact ⟨h₁, hseen⟩
  rw [hs₂]
  refine ((lineToAppend_leads s₂ key field old).mono (fun _ _ => id) ?_).bind ?_
  · rintro s' rfl
    exact h₂
  rintro (_ | line) s' rfl
  · exact .of_ok rfl (Or.inl h₂)
  have hsealed : Leads sealTail s' (fun offset s₃ => offset = s₃.file.bytes.length ∧
      s₃.Tells n seq ∧ s₃.Keeps _ _ old.toList) (fun s' => s'.Tells n seq) :=
    .of_ok (sealTail_sealed s') ⟨rfl, h₂.sealed, hkeeps₂.sealTail⟩
  refine hsealed.bind ?_
  rintro _ s₃ ⟨rfl, h₃, hkeeps₃⟩
  refine (((tryLock_leads hkeeps₃ _).mono (fun _ _ => id) fun _ hfault => ?_)).bind ?_
  · obtain ⟨rfl, -⟩ := hfault
    exact h₃
  rintro granted s₄ ⟨hfault, hgranted⟩
  obtain ⟨h₄, hkeeps₄, hlen⟩ : s₄.Tells n seq ∧ (∀ span ∈ old.toList, Bears s₄.data span) ∧
      s₃.file.bytes.length = s₄.file.bytes.length := by
    rcases hgranted with ⟨-, rfl⟩ | ⟨-, rfl, -⟩
    · exact ⟨h₃.looks (.mk (.refl _)), hkeeps₃.bears, rfl⟩
    · exact ⟨h₃, hkeeps₃.bears, rfl⟩
  rw [hlen] at hfault ⊢
  refine (commitLine_advances h₄ line _ fun span hs => hkeeps₄ span (Option.mem_toList.2 hs)).attempt.bind
    ?_
  rintro (e | _) s₅ h₅
  · exact .of_error (bind_ok (unlock_eq s₅ hfault)) (h₅.looks (.mk (.refl _)))
  · exact .of_ok rfl h₅

/-- **A write under the structural lock.** -/
theorem appendLocked_advances (h : s.Tells n seq) (request : WriteRequest) (held : Option Nat) :
    Leads (appendLocked request held) s (fun _ s' => s'.Advances n seq)
      (fun s' => s'.Advances n seq) := by
  have happended : Leads (unlockingStructure (appendRecord request.key request.field)) s
      (fun _ s' => s'.Advances n seq) (fun s' => s'.Advances n seq) := by
    unfold unlockingStructure
    refine (appendRecord_advances h request.key request.field).attempt.bind ?_
    intro outcome s' h'
    have hadvances : s'.Advances n seq := by
      cases outcome with
      | error e => exact Or.inl h'
      | ok appended => exact h'
    exact (((onlyRelocks_unlock structuralOffset).onlyLooks.leads s').mono
      (fun _ _ => hadvances.looks) fun _ => hadvances.looks).bind fun _ _ h'' => .of_ok rfl h''
  -- once the record is appended, locks alone are given up
  have hrest : ∀ {act : SessionM Progress} {s' : Session}, OnlyRelocks act → s'.Advances n seq →
      Leads act s' (fun _ s' => s'.Advances n seq) (fun s' => s'.Advances n seq) :=
    fun hact h' => (hact.onlyLooks.leads _).mono (fun _ _ => h'.looks) fun _ => h'.looks
  refine happended.bind fun outcome s' h' => ?_
  cases outcome with
  | error e =>
    dsimp only
    split
    · exact hrest ((onlyRelocks_forM_unlock held).bind fun _ => onlyRelocks_throw e) h'
    · exact hrest (onlyRelocks_throw e) h'
  | ok appended =>
    refine hrest ((onlyRelocks_forM_unlock held).bind fun _ => ?_) h'
    split
    · exact (onlyRelocks_forM_unlock appended).bind fun _ => Session.Relocks.refl
    · exact Session.Relocks.refl

theorem append_advances (h : s.Tells n seq) (request : WriteRequest) (held : Option Nat) :
    Leads (append request held) s (fun _ s' => s'.Advances n seq) (fun s' => s'.Advances n seq) := by
  unfold append
  refine (((onlyRelocks_tryLock structuralOffset .exclusive).onlyLooks.leads s).mono
    (fun _ _ => h.looks) fun _ hl => Or.inl (h.looks hl)).bind fun granted s' h' => ?_
  split
  · exact appendLocked_advances h' request held
  · exact .of_ok rfl (Or.inl h')

/-- **A write to a record that is there** patches it behind the header, or goes on to append. -/
theorem update_advances (h : s.Tells n seq) {request : WriteRequest} {span : Span}
    (hlive : LiveAt s.data span) (hreq : requestFault? request = none) :
    Leads (update request span) s (fun _ s' => s'.Advances n seq) (fun s' => s'.Advances n seq) := by
  have hfinish : ∀ {s' : Session}, s'.Tells n seq → Leads (finishInPlace request span) s'
      (fun _ s' => s'.Advances n seq) (fun s' => s'.Advances n seq) := fun h' =>
    ((onlyRelocks_finishInPlace request span).onlyLooks.leads _).mono
      (fun _ _ hl => Or.inl (h'.looks hl)) fun _ hl => Or.inl (h'.looks hl)
  exact update_leads hlive hreq (hfinish h)
    (fun patch hbehind hendures => hfinish (h.write patch hbehind hendures).markModified)
    (append_advances h request (some span.offset))

/-- **A write that looked its key up** under the lock of its record. -/
theorem writeLocked_advances (h : s.Tells n seq) {request : WriteRequest} {locked : Locked}
    (hgranted : ∀ span, locked = .granted span → LiveAt s.data span)
    (hreq : requestFault? request = none) : Leads (writeLocked request locked) s
      (fun _ s' => s'.Advances n seq) (fun s' => s'.Advances n seq) := by
  cases locked with
  | absent => exact append_advances h request none
  | granted span => exact update_advances h (hgranted span rfl) hreq
  | busy span => exact .of_ok rfl (Or.inl h)

/-- **A write from its beginning.** -/
theorem write_advances (h : s.Tells n seq) (request : WriteRequest) :
    Leads (write request) s (fun _ s' => s'.Advances n seq) (fun s' => s'.Advances n seq) := by
  unfold write
  cases hreq : requestFault? request with
  | some fault => exact .of_error rfl (Or.inl h)
  | none =>
    dsimp only
    split
    · refine (((locateLocking_leads (Session.keeps_of_steady h.steady) request.key
        .ifMissing).tells_locked (onlyLooks_locateLocking _ _) h).mono (fun _ _ => id)
          fun _ => Or.inl).bind ?_
      exact fun locked s' h' => writeLocked_advances h'.1 h'.2 hreq
    · refine ((locate_tells h request.key .ifMissing).mono (fun _ _ => id) fun _ => Or.inl).bind ?_
      rintro (_ | span) s' ⟨h', hfound⟩
      · exact append_advances h' request none
      · exact update_advances h' (hfound span rfl) hreq

/-- **A delete** touches nothing of the header. -/
theorem deleteLocked_tells (h : s.Tells n seq) (key : Bytes) {locked : Locked}
    (hgranted : ∀ span, locked = .granted span → LiveAt s.data span) :
    Leads (deleteLocked key locked) s (fun _ s' => s'.Tells n seq) (fun s' => s'.Tells n seq) := by
  cases locked with
  | absent => exact .of_ok rfl h
  | busy span => exact .of_ok rfl h
  | granted span =>
    have hbears := (hgranted span rfl).bears
    have hdead := h.write ⟨span.offset, [deadFlag]⟩ hbears.header_le
      ((Patch.Mild.death (Session.Keeps.bears_file hbears)).endures h.steady.legible.length_le)
    have hforgot : (s.write ⟨span.offset, [deadFlag]⟩).forget.Tells n seq :=
      hdead.looks (.mk Handle.Look.forget.looks)
    refine .modify_bind ((((onlyRelocks_unlock span.offset).onlyLooks.leads _).mono
      (fun _ _ => hforgot.looks) fun _ => hforgot.looks).bind fun _ s' h' => ?_)
    exact .modify_bind (.of_ok rfl h'.markModified)

/-- **A resort** leaves the append sequence, unless the header splits. -/
theorem resortLocked_tells (h : s.Tells n seq) :
    Leads resortLocked s (fun _ s' => s'.Tells n seq) (fun s' => s'.Tells n seq) := by
  have hresort : Leads resort s (fun _ s' => s'.Tells n seq) (fun s' => s'.Tells n seq) :=
    ((onlyLooks_refresh.leads s).mono (fun _ _ => h.looks) fun _ => h.looks).bind
      fun _ _ h' => .of_ok rfl h'.sort
  unfold resortLocked
  have hunlocks : Leads (unlockingStructure resort) s (fun _ s' => s'.Tells n seq)
      (fun s' => s'.Tells n seq) := by
    unfold unlockingStructure
    refine hresort.attempt.bind ?_
    intro outcome s' h'
    have htells : s'.Tells n seq := by cases outcome <;> exact h'
    exact (((onlyRelocks_unlock structuralOffset).onlyLooks.leads s').mono
      (fun _ _ => htells.looks) fun _ => htells.looks).bind fun _ _ h'' => .of_ok rfl h''
  refine hunlocks.bind ?_
  rintro (e | ⟨⟩) s' h'
  · exact .of_error rfl h'
  · exact .of_ok rfl h'

/-- A stretch that goes on from a wait has the lock, or it waits on, or it fails at once. -/
theorem resume_leads (h : s.Tells n seq) {stage : Stage} {post : Progress → Session → Prop}
    {fail : Session → Prop} (hwait : post (.waiting stage) s) (hfail : fail s)
    (hgranted : lockFault? stage.offset = none → Leads stage.granted (s.hold stage.offset) post fail) :
    Leads stage.resume s post fail := by
  unfold Stage.resume
  refine ((tryLock_leads (Session.keeps_of_steady h.steady) stage.offset).mono (fun _ _ => id)
    fun s' hfault => ?_).bind ?_
  · rw [hfault.1]
    exact hfail
  · rintro granted s' ⟨hfault, ⟨rfl, rfl⟩ | ⟨rfl, rfl, -⟩⟩
    · exact hgranted hfault
    · exact .of_ok rfl hwait

/-- A lookup that goes on from a wait. -/
theorem recheck_tells (h : s.Tells n seq) (key : Bytes) {span : Span} (hspan : Bears s.data span)
    (hfault : lockFault? span.offset = none) : Leads (recheck key span) s
      (fun locked s' => s'.Tells n seq ∧ ∀ span, locked = .granted span → LiveAt s'.data span)
      (fun s' => s'.Tells n seq) :=
  (recheck_leads ((Session.keeps_of_steady h.steady).mono (List.subset_cons_self ..)
    (List.Subset.refl _)) key hspan hfault).tells_locked (onlyLooks_recheck key span) h

end SessionM

open SessionM in
/-- **A call that is no write** leaves the append sequence as it is. -/
theorem Call.stretch_tells {s : Session} {n : Nat} {seq : Option UInt32} (h : s.Tells n seq)
    {call : Call} {pending : Option Stage}
    (hpending : ∀ stage, pending = some stage → stage.call = call ∧ stage.Steady s.data)
    (hcall : ∀ request, call ≠ .write request) : Leads (call.stretch pending) s
      (fun _ s' => s'.Tells n seq) (fun s' => s'.Tells n seq) := by
  have hlooks : call.Glances → Leads (call.stretch pending) s (fun _ s' => s'.Tells n seq)
      (fun s' => s'.Tells n seq) := fun hglances =>
    ((Call.onlyLooks_stretch hglances fun stage hp => (hpending stage hp).1).leads s).mono
      (fun _ _ => h.looks) fun _ => h.looks
  have hheld : ∀ offset, (s.hold offset).Tells n seq := fun offset => h.looks (.mk (.refl _))
  cases call with
  | write request => exact absurd rfl (hcall request)
  | delete key =>
    cases pending with
    | none =>
      exact ((locateLocking_leads (Session.keeps_of_steady h.steady) key .ifMissing).tells_locked
        (onlyLooks_locateLocking key .ifMissing) h).bind
          fun locked s' h' => deleteLocked_tells h'.1 key h'.2
    | some stage =>
      obtain ⟨hcall, hsteady⟩ := hpending stage rfl
      refine resume_leads h h h fun hfault => ?_
      cases stage with
      | deleting key' span =>
        exact (recheck_tells (hheld span.offset) key' (hsteady.bears span rfl) hfault).bind
          fun locked s' h' => deleteLocked_tells h'.1 key' h'.2
      | _ => cases hcall
  | resort =>
    cases pending with
    | none =>
      refine (((onlyRelocks_tryLock structuralOffset .exclusive).onlyLooks.leads s).mono
        (fun _ _ => h.looks) fun _ => h.looks).bind fun granted s' h' => ?_
      split
      · exact resortLocked_tells h'
      · exact .of_ok rfl h'
    | some stage =>
      obtain ⟨hcall, -⟩ := hpending stage rfl
      refine resume_leads h h h fun _ => ?_
      cases stage with
      | resorting => exact resortLocked_tells (hheld structuralOffset)
      | _ => cases hcall
  | _ => exact hlooks trivial

open SessionM in
/-- **Every call** leaves the append sequence as it is, or raises it by one. -/
theorem Call.stretch_advances {s : Session} {n : Nat} {seq : Option UInt32} (h : s.Tells n seq)
    {call : Call} {pending : Option Stage}
    (hpending : ∀ stage, pending = some stage → stage.call = call ∧ stage.Steady s.data) :
    Leads (call.stretch pending) s (fun _ s' => s'.Advances n seq)
      (fun s' => s'.Advances n seq) := by
  by_cases hwrite : ∃ request, call = .write request
  · obtain ⟨request, rfl⟩ := hwrite
    cases pending with
    | none => exact write_advances h request
    | some stage =>
      obtain ⟨hcall, hsteady⟩ := hpending stage rfl
      have hheld : ∀ offset, (s.hold offset).Tells n seq := fun offset => h.looks (.mk (.refl _))
      refine resume_leads h (Or.inl h) (Or.inl h) fun hfault => ?_
      cases stage with
      | writing request' span =>
        refine ((recheck_tells (hheld span.offset) request'.key (hsteady.bears span rfl)
          hfault).mono (fun _ _ => id) fun _ => Or.inl).bind ?_
        exact fun locked s' h' =>
          writeLocked_advances h'.1 h'.2 (hsteady.request request' rfl)
      | appending request' held =>
        exact appendLocked_advances (hheld structuralOffset) request' held
      | _ => cases hcall
  · refine (Call.stretch_tells h hpending fun request hcall => hwrite ⟨request, hcall⟩).mono
      (fun _ _ => Or.inl) fun _ => Or.inl

/-- **A sort of a split header** overwrites the append sequence with the place of the line that is
first in the order of keys. -/
theorem Session.sort_appendSeq?_of_splits {s : Session} (hs : s.handle.Steady s.file.bytes)
    (hn : headLength? s.file.bytes = some s.handle.headLen)
    (hsplit : s.file.bytes[Header.versionEnd]? = some newline) :
    appendSeq? s.sort.file.bytes = (Index.sorted s.data s.handle.headLen).head?.map
      fun line => UInt32.ofNat line.offset := by
  have hlong := hs.legible.length_le
  have hseen : s.data[Header.versionEnd]? = some newline :=
    (List.getElem?_take_of_lt (Nat.lt_of_lt_of_le (by decide) hs.sees)).trans hsplit
  obtain ⟨behind, hphysical, hbehind⟩ : ∃ behind,
      Index.physicalRecords s.data s.handle.headLen = (Header.versionEnd + 1) :: behind ∧
        ∀ offset ∈ behind, Header.length ≤ offset :=
    Index.physicalRecords_of_newline hs.legible_view
      (headLength?_take hn (Nat.le_trans hs.headLen_le hs.sees)) hseen
  have hcount : (Index.sorted s.data s.handle.headLen).length = behind.length + 1 := by
    have hlen := congrArg List.length hphysical
    rw [Index.physicalRecords, List.length_map, List.length_cons] at hlen
    rw [Index.sorted, List.length_mergeSort, hlen]
  obtain ⟨first, rest, hsorted⟩ := List.exists_cons_of_length_eq_add_one hcount
  -- the first write goes to the append sequence, and all others behind it
  have hbytes : s.sort.file.bytes = Patch.applyAll s.sortPatches s.file.bytes :=
    s.writeAll_bytes s.sortPatches
  rw [hbytes, Session.sortPatches, Index.sortPlan, hphysical, hsorted, List.map_cons,
    List.zip_cons_cons, List.map_cons, List.cons_append, Patch.applyAll_cons]
  refine (appendSeq?_applyAll _ ?_ fun patch hp => ?_).trans
    (appendSeq?_apply_word hlong _)
  · exact Nat.le_trans hlong (Patch.length_le_length_apply _ _)
  · rcases List.mem_append.1 hp with hp | hp
    · obtain ⟨⟨place, target⟩, hplan, rfl⟩ := List.mem_map.1 hp
      exact Nat.le_trans (Nat.le_trans (by decide) (hbehind place (List.of_mem_zip hplan).1))
        (Nat.le_add_right _ _)
    · simp only [List.mem_cons, List.not_mem_nil, or_false] at hp
      rcases hp with rfl | rfl
      · exact (by decide : Header.modifiedAt ≤ Header.sinceSortAt)
      · exact Nat.le_refl _

end RecordStore
