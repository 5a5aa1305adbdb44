import Mathlib.Tactic.Common
import RecordStore.Proofs.Made
import RecordStore.Proofs.Tallies

/-!
# How far the count of appends gets

The count of appends since the last sort sticks at its greatest value.  In a store that the library
alone has made it never gets there: it starts with what a fresh header says, grows with every line, and
a file has room for so many lines only.

* `Image.Paced` — the count is no greater than the lines of the file account for.

Principal results: `Call.stretch_paced` — every stretch of every call; `Store.Made.paced` — the
invariant; `Image.Paced.countAppend_eq` — one more append is counted.
-/

set_option autoImplicit false

namespace RecordStore

namespace Image

/-- No more appends are counted than a fresh header says and there are lines. -/
def Paced (i : Image) : Prop :=
  i.header.sinceSort.toNat ≤ Header.freshSinceSort.toNat + i.texts.length

variable {i j : Image}

theorem Paced.of_le (h : i.Paced) (hsince : j.header.sinceSort.toNat ≤ i.header.sinceSort.toNat)
    (hlines : i.texts.length ≤ j.texts.length) : j.Paced :=
  Nat.le_trans hsince (Nat.le_trans h (Nat.add_le_add_left hlines _))

theorem bytes_ne_nil (i : Image) : i.bytes ≠ [] := by
  intro hnil
  have hlength := i.length_bytes
  have hpos : 0 < Header.length := by decide
  rw [hnil, List.length_nil] at hlength
  omega

theorem length_texts_of_frames (h : j.frames = i.frames) : j.texts.length = i.texts.length := by
  simpa [frames] using congrArg List.length h

theorem Paced.sorted (h : i.Paced) (now : Nat) : (i.sorted now).Paced :=
  h.of_le (Nat.zero_le _) (Nat.le_of_eq (length_texts_of_frames (frames_fillSlots _ i _)).symm)

theorem toNat_countAppend_le (count : UInt32) : (countAppend count).toNat ≤ count.toNat + 1 := by
  unfold countAppend
  split
  · exact Nat.le_succ _
  · rw [UInt32.toNat_add]
    exact Nat.mod_le _ _

/-- A line more is counted. -/
theorem Paced.publish (h : i.Paced) {texts : List Bytes} (hlines : texts.length = i.texts.length)
    (line : Bytes) :
    (⟨SessionM.publishedHeader i.header i.header.sinceSort, texts ++ [line]⟩ : Image).Paced := by
  have hcount := toNat_countAppend_le i.header.sinceSort
  unfold Paced at h ⊢
  rw [List.length_append, hlines, List.length_singleton]
  exact Nat.le_trans hcount (Nat.succ_le_succ h)

/-- A file has room for so many lines only. -/
theorem Lined.length_texts_le (h : i.Lined) : (keyAt + 1) * i.texts.length ≤ i.bytes.length := by
  have hline : ∀ text ∈ i.texts, keyAt + 1 ≤ text.length := fun text ht =>
    Index.keyAt_lt_of_hasSlot (Index.hasSlot_of_defect? (h.wellFormed text ht) (h.line text ht).endsLine)
  have hsum : ∀ texts : List Bytes, (∀ text ∈ texts, keyAt + 1 ≤ text.length) →
      (keyAt + 1) * texts.length ≤ texts.flatten.length := by
    intro texts
    induction texts with
    | nil => exact fun _ => Nat.le_refl _
    | cons text more ih =>
      intro hall
      have hfirst := hall text List.mem_cons_self
      have hmore := ih fun t ht => hall t (List.mem_cons_of_mem _ ht)
      rw [List.flatten_cons, List.length_append, List.length_cons, Nat.mul_succ]
      omega
  rw [length_bytes]
  exact Nat.le_trans (hsum _ hline) (Nat.le_add_left _ _)

/-- **One more append is counted**: there is room for the count. -/
theorem Paced.countAppend_eq (h : i.Paced) (hi : i.Lined) (hsmall : i.bytes.length < UInt32.size) :
    countAppend i.header.sinceSort = i.header.sinceSort + 1 := by
  have hlines := hi.length_texts_le
  have hfresh : Header.freshSinceSort.toNat = 0x0FFFFFFF := rfl
  have hsize : UInt32.size = 0x100000000 := rfl
  unfold countAppend
  rw [if_neg]
  intro hmax
  rw [Paced, hmax, hfresh, show (0xFFFFFFFF : UInt32).toNat = 0xFFFFFFFF from rfl] at h
  unfold keyAt at hlines
  omega

end Image

/-! ## Stretches -/

/-- A stretch leaves a file whose count of appends is not too great. -/
def Paced : EStateM.Result Error Session Progress → Prop
  | .ok _ s | .error _ s => ∃ i, s.Follows i ∧ i.Paced

section Stretches

variable {s s' : Session} {i : Image} {call : Call} {waited : Option Span}

namespace Session.Follows

theorem looks_paced (hs : s.Follows i) (hpaced : i.Paced) (hlooks : s.Looks s') :
    ∃ j, s'.Follows j ∧ j.Paced := ⟨i, (hs.of_looks hlooks).1, hpaced⟩

/-- **A line that gives way** to one with its slot. -/
theorem exchange_paced (hs : s.Follows i) (hpaced : i.Paced) {line : Line} (hl : line ∈ i.lines)
    {patch : Patch} (hfits : patch.Fits line.text)
    (hr : Image.Replaces line.text (patch.apply line.text)) :
    ∃ j, (s.write (patch.shift line.offset)).Follows j ∧ j.Paced := by
  obtain ⟨front, back, htexts, -, hfollows, -⟩ := hs.exchange hl hfits hr
  refine ⟨_, hfollows, hpaced.of_le (Nat.le_refl _) ?_⟩
  rw [htexts]
  simp

/-- **An append up to its line**: what it will count is what the file says. -/
theorem prepared_paced (hs : s.Follows i) (hsmall : i.bytes.length < UInt32.size)
    (hpaced : i.Paced) {key : Bytes} {old : Option Span} {count : UInt32}
    (h : Prepared s key old count s') :
    ∃ j, s'.Follows j ∧ j.Paced ∧ count = j.header.sinceSort ∧ j.bytes.length = i.bytes.length ∧
      ∀ span, old = some span → ∃ l ∈ j.live, keyOf l.text = key ∧ l.span = span ∧
        s'.handle.Sees l := by
  obtain ⟨j, hj, hfollows, -, -, -, hfound⟩ := hs.prepared hsmall h
  have hcount : count = j.header.sinceSort := by
    cases h with
    | rested read => exact Option.some.inj (read.symm.trans (hfollows.counterAt? .sinceSort))
    | @sorted handle count read overdue looks fresh =>
      obtain ⟨hsorted, -⟩ := (hs.of_looks (.withHandle looks)).1.sort hsmall fresh
      obtain rfl := hsorted.formed.toLined.eq_of_bytes hfollows.formed.toLined
        (hsorted.bytes.symm.trans hfollows.bytes)
      rfl
  refine ⟨j, hfollows, ?_, hcount, ?_, hfound⟩
  · rcases hj with rfl | rfl
    · exact hpaced
    · exact hpaced.sorted _
  · rcases hj with rfl | rfl
    · rfl
    · exact i.length_sorted _

/-- **A line at the end** is counted. -/
theorem publish_paced (hs : s.Follows i) (hpaced : i.Paced) {key : Bytes} {field : Option Field}
    {old : Option Span} {line : Bytes} (hdrafted : Drafted s.data key field old line)
    (hkey : ∀ b ∈ key, isDelimiter b = false) (hfits : ∀ f, field = some f → f.Fits)
    (hold : ∀ span, old = some span → ∃ l ∈ i.live, keyOf l.text = key ∧ l.span = span ∧
      s.handle.Sees l) {seq : UInt32}
    (hread : Header.counterAt? (s.writeLine line).file.bytes Header.appendSeqAt = some seq) :
    ∃ j, ((s.writeLine line).publish seq i.header.sinceSort old).Follows j ∧ j.Paced := by
  rcases hs.drafts hdrafted hkey hfits hold with ⟨rfl, hfresh⟩ |
    ⟨l, hlive, f, rfl, rfl, rfl, hfresh⟩
  · obtain ⟨hfollows, -⟩ := hs.publish_none hfresh i.header.sinceSort hread
    exact ⟨_, hfollows, hpaced.publish rfl line⟩
  · obtain ⟨front, back, htexts, -, hfollows, -⟩ :=
      hs.publish_some (List.mem_filter.1 hlive).1 hfresh i.header.sinceSort hread
    refine ⟨_, hfollows, hpaced.publish ?_ line⟩
    rw [htexts]
    simp

end Session.Follows

/-- **A stretch of a write.** -/
theorem Wrote.paced {request : WriteRequest} {result : EStateM.Result Error Session Progress}
    (h : Wrote s request waited result) (hs : s.Follows i) (hsmall : i.bytes.length < UInt32.size)
    (hpaced : i.Paced)
    (hreq : ∀ a s', result = .ok (.answered a) s' → SessionM.requestFault? request = none)
    (hawaits : s.handle.Awaits i waited request.key) : Paced result := by
  cases h with
  | waiting waits => exact hs.looks_paced hpaced waits.looks
  | refused looks => exact hs.looks_paced hpaced looks
  | untouched looks => exact hs.looks_paced hpaced looks
  | @patched s₁ s' span place r field looks aims named record placed fits relocks =>
    obtain ⟨hfollows, -⟩ := hs.of_looks looks
    obtain ⟨hlive, -, rfl⟩ := hs.record_of_aims hawaits looks aims record
    have hl := (List.mem_filter.1 hlive).1
    obtain ⟨hfits, hr, -, -⟩ := Image.replaces_fieldSpan? (hs.formed.line _ (Image.text_mem hl))
      ((WriteRequest.fits_of_requestFault? (hreq _ _ rfl)).2 field named) placed fits
    obtain ⟨j, hj, hjpaced⟩ := hfollows.exchange_paced hpaced hl hfits hr
    exact ⟨j, hj.markModified.of_relocks relocks, hjpaced⟩
  | present looks prepared fieldless relocks =>
    obtain ⟨j, hj, hjpaced, -⟩ := (hs.of_looks looks).1.prepared_paced hsmall hpaced prepared
    exact ⟨j, hj.of_relocks relocks, hjpaced⟩
  | damaged looks prepared other relocks =>
    obtain ⟨j, hj, hjpaced, -⟩ := (hs.of_looks looks).1.prepared_paced hsmall hpaced prepared
    exact ⟨j, hj.of_relocks relocks, hjpaced⟩
  | stranded strands => exact absurd strands.broken hs.not_broken
  | @published s₁ s₂ s₃ s' old count seq line looks prepared drafted locked read relocks =>
    obtain ⟨hkey, hfits⟩ := WriteRequest.fits_of_requestFault? (hreq _ _ rfl)
    obtain ⟨j, hj, hjpaced, rfl, hlength, hfound⟩ :=
      (hs.of_looks looks).1.prepared_paced hsmall hpaced prepared
    rw [hj.sealed_eq] at locked
    rw [← locked.data] at drafted
    obtain ⟨k, hk, hkpaced⟩ := (hj.of_relocks locked).publish_paced hjpaced drafted hkey hfits
      (fun span hsome => by cases locked; exact hfound span hsome) read
    exact ⟨k, hk.of_relocks relocks, hkpaced⟩

/-- **Every stretch of every call.** -/
theorem Call.stretch_paced (hs : s.Follows i) (hsmall : i.bytes.length < UInt32.size)
    (hpaced : i.Paced) {pending : Option Stage} (hpending : call.Pending pending)
    (hawaits : ∀ key, call.key? = some key → s.handle.Awaits i (pending.bind Stage.span?) key) :
    Paced (call.stretch pending s) := by
  have hran := Call.stretch_ran hs.mapped (hs.lockable hsmall) hpending
  generalize hresult : call.stretch pending s = result at hran
  cases hran with
  | @write request _ wrote =>
    exact wrote.paced hs hsmall hpaced (fun a s' hanswered =>
      Call.requestFault?_of_answered hpending (hresult.trans hanswered)) (hawaits _ rfl)
  | delete deleted =>
    cases deleted with
    | waiting waits => exact hs.looks_paced hpaced waits.looks
    | refused looks => exact hs.looks_paced hpaced looks
    | missed looks => exact hs.looks_paced hpaced looks
    | killed looks aims relocks =>
      obtain ⟨line, hlive, -, rfl, -⟩ := hs.aims_of_looks (hawaits _ rfl) looks aims
      have hl := (List.mem_filter.1 hlive).1
      have hline := hs.formed.line _ (Image.text_mem hl)
      obtain ⟨j, hj, hjpaced⟩ := (hs.of_looks looks).1.exchange_paced hpaced hl
        (Image.fits_dead hline.length_pos)
        (Image.replaces_deadText hline (hs.formed.wellFormed _ (Image.text_mem hl)))
      exact ⟨j, hj.forget.markModified.of_relocks relocks, hjpaced⟩
  | read read =>
    cases read with
    | waiting waits => exact hs.looks_paced hpaced waits.looks
    | refused looks => exact hs.looks_paced hpaced looks
    | missed looks => exact hs.looks_paced hpaced looks
    | found looks => exact hs.looks_paced hpaced looks
  | resort sorted =>
    cases sorted with
    | waiting waits => exact hs.looks_paced hpaced waits.looks
    | refused looks => exact hs.looks_paced hpaced looks
    | sorted looks fresh relocks =>
      obtain ⟨hsorted, -⟩ := (hs.of_looks looks).1.sort hsmall fresh
      exact ⟨_, hsorted.of_relocks relocks, hpaced.sorted _⟩
  | glance keyless glanced =>
    cases glanced with
    | waiting waits => exact hs.looks_paced hpaced waits.looks
    | refused looks => exact hs.looks_paced hpaced looks
    | answered looks => exact hs.looks_paced hpaced looks

end Stretches

/-! ## Stores -/

namespace Store

variable {store : Store} {i j : Image}

/-- A store has one image. -/
theorem Tracks.eq (h : store.Tracks i) (h' : store.Tracks j) : i = j := by
  rcases h.shows with hsame | ⟨hempty, rfl⟩
  · rcases h'.shows with hsame' | ⟨hempty, -⟩
    · exact h.formed.toLined.eq_of_bytes h'.formed.toLined (hsame.symm.trans hsame')
    · exact absurd (hsame.symm.trans hempty) i.bytes_ne_nil
  · rcases h'.shows with hsame' | ⟨-, rfl⟩
    · exact absurd (hsame'.symm.trans hempty) j.bytes_ne_nil
    · rfl

/-- **One turn.** -/
theorem Tracks.serve_paced (h : store.Tracks i) (hsmall : store.file.bytes.length < UInt32.size)
    (hpaced : i.Paced) (turn : Turn) : ∃ j, (store.serve turn).1.Tracks j ∧ j.Paced := by
  obtain ⟨k, hk, -⟩ := h.serve hsmall turn
  -- the image of what the turn leaves behind is the one with its bytes
  have hsame : ∀ j : Image, j.Lined → j.Paced → (store.serve turn).1.file.bytes = j.bytes →
      ∃ j, (store.serve turn).1.Tracks j ∧ j.Paced := by
    intro j hj hjpaced hbytes
    refine ⟨k, hk, ?_⟩
    rcases hk.shows with hshows | ⟨-, rfl⟩
    · rwa [hk.formed.toLined.eq_of_bytes hj (hshows.symm.trans hbytes)]
    · exact Nat.le_add_right _ _
  have henters : ∀ {config : Config} {result : SharedFile × Opening},
      Enters turn.now config store.file.bytes i [] result →
      store.serve turn = store.settleOpen turn.holder config result →
      ∃ j, (store.serve turn).1.Tracks j ∧ j.Paced := by
    intro config result hresult hserve
    have hfile := store.settleOpen_file turn.holder config result
    rw [← hserve] at hfile
    cases hresult with
    | waiting bytes =>
      rcases h.shows with hshows | ⟨hempty, rfl⟩
      · exact hsame i h.formed.toLined hpaced ((congrArg _ hfile).trans (bytes.trans hshows))
      · refine ⟨k, hk, ?_⟩
        rcases hk.shows with hshows | ⟨-, rfl⟩
        · exact absurd (hshows.symm.trans ((congrArg _ hfile).trans (bytes.trans hempty)))
            k.bytes_ne_nil
        · exact hpaced
    | @opened file' handle j bytes arrives image =>
      rw [List.append_nil] at bytes
      rcases image with rfl | rfl
      · exact hsame _ h.formed.toLined hpaced ((congrArg _ hfile).trans bytes)
      · exact hsame _ (h.formed.toLined.sorted _) (hpaced.sorted _) ((congrArg _ hfile).trans bytes)
  have hserved := store.serve_served turn
  generalize hresult : store.serve turn = result at hserved
  rw [hresult] at hsame henters
  cases hserved with
  | unavailable quiet => exact ⟨i, h, hpaced⟩
  | opening quiet => exact henters (openFile_enters h.formed.toLined.whole (by simp) h.torn) rfl
  | reopening quiet => exact henters (resumeOpen_enters h.formed.toLined.whole (by simp) h.torn _) rfl
  | @closed handle quiet client =>
    have hclosed := @closeFile_bytes_eq turn.now turn.holder store.file i handle []
      ((h.clients _ _ client).1.trans (List.append_nil _).symm)
    obtain ⟨hversion, -, hsince⟩ := closedHeader_frame turn.now handle i.header
    exact hsame ⟨closedHeader turn.now handle i.header, i.texts⟩
      ⟨hversion ▸ h.formed.version, h.formed.line, h.formed.wellFormed⟩
      (hpaced.of_le (Nat.le_of_eq (congrArg UInt32.toNat hsince)) (Nat.le_refl _))
      (hclosed.trans (List.append_nil _))
  | ran runs =>
    obtain ⟨hpending, hfollows, hawaits⟩ := h.follows runs
    have hstretch := Call.stretch_paced hfollows (h.small hsmall) hpaced hpending hawaits
    generalize Call.stretch _ _ _ = stretched at hstretch hsame ⊢
    cases stretched with
    | ok progress s' =>
      obtain ⟨j, hj, hjpaced⟩ := hstretch
      refine hsame j hj.formed.toLined hjpaced ?_
      cases progress <;> exact hj.bytes
    | error e s' =>
      obtain ⟨j, hj, hjpaced⟩ := hstretch
      exact hsame j hj.formed.toLined hjpaced hj.bytes

/-- **The invariant** of stores that the library alone has made. -/
theorem Made.paced (h : store.Made) :
    ∃ i, store.Tracks i ∧ (i.versions.map Version.key).Nodup ∧ i.Paced := by
  obtain ⟨i, hi, hdistinct⟩ := h.tracks
  refine ⟨i, hi, hdistinct, ?_⟩
  obtain ⟨j, hj, hpaced⟩ : ∃ j, store.Tracks j ∧ j.Paced := by
    clear hi hdistinct
    induction h with
    | created mtime => exact ⟨.fresh, .ofNothing mtime, Nat.le_refl _⟩
    | served made small turn ih =>
      obtain ⟨j, hj, hpaced⟩ := ih
      exact hj.serve_paced small hpaced turn
    | trimmed made copied mtime ih =>
      obtain ⟨j, hj, -⟩ := ih
      rcases hj.shows with hsame | ⟨hempty, -⟩
      · have hcopy := hj.formed.toLined.trimBytes?_eq
        rw [← hsame, copied, Option.map_some, Option.some.injEq] at hcopy
        dsimp only at hcopy
        rw [hcopy]
        exact ⟨j.trimmed, .ofBytes hj.formed.toLined.trimmed mtime, Nat.le_add_right _ _⟩
      · have hnone : trimBytes? [] = none := rfl
        rw [hempty, hnone] at copied
        cases copied
  rwa [hi.eq hj]

end Store

end RecordStore
