import Mathlib.Tactic.Common
import RecordStore.Proofs.Writes

/-!
# Reading on a sound file, and calls as a whole

A lookup answers what the map says, whatever the handle had mapped and cached before.  With reads,
writes and the rest together, every stretch of every call comes to what a stretch may come to.

* `Call.Heeds`, `Stage.Heeds` — whether a stretch looks at the record lock of its key.

Principal results: `Call.start_stretch`; `Stage.resume_stretch`.
-/

set_option autoImplicit false

namespace RecordStore

/-- What a live record tells is what the map says. -/
theorem Part.answers_of {r : Record} (hlive : r.isLive = true) (part : Part) :
    part.Answers (keyOf r.text) (some (fieldsOf r.text)) (part.of r) := by
  cases part with
  | key => rfl
  | field name =>
    intro hn
    rw [Part.of, r.field?_eq_valueOf? hn, r.fields_eq]
  | decodedField name =>
    intro hn
    rw [Part.of, Record.fieldDecoded?, r.field?_eq_valueOf? hn, r.fields_eq]
  | record => exact ⟨r, rfl, hlive, rfl, r.fields_eq⟩

namespace SessionM

variable {s s₂ : Session} {i : Image} {heeds : Prop}

/-- A lookup that finds a record answers what the map says. -/
theorem readFound_eq (hs : s.On i) {key : Bytes} {line : Line} (hfind : i.find? key = some line)
    (hsees : s.handle.Sees line) (part : Part) : ∃ a,
      readFound part (some line.span) s = .ok (.answered a) s ∧
        part.Answers key (i.contents key) a := by
  have hl := hs.sound.mem_lines_of_find? hfind
  obtain ⟨hlive, hkey⟩ := hs.sound.find?_eq_some_iff.1 hfind
  obtain ⟨r, hr, rfl⟩ := recordAt_eq hs hl hsees
  refine ⟨part.of r, ?_, ?_⟩
  · unfold readFound
    dsimp only
    rw [bind_ok hr]
    rfl
  · rw [Image.contents_eq_find?, hfind, Option.map_some, ← hkey]
    exact Part.answers_of (List.mem_filter.1 hlive).2 part

/-- A stretch that only answers. -/
theorem answered_stretch {s' : Session} {call : Call} {a : Answer} {gained : List Nat} (hs : s'.On i)
    (hsame : i.contents.after call = i.contents) (hanswers : call.Answers i.contents a)
    (hacts : Session.Acts (call.Clears i) gained s s') (hkeeps : ∀ o ∈ gained, call.Keeps o)
    (hsecures : ∀ key, call.Secures s i heeds key → s'.Owns i key) :
    Stretch s i call heeds (.ok (.answered a) s') :=
  .answered hs (.refl i) hsame.symm hanswers (fun _ _ => Iff.rfl) (fun _ _ hv _ => hv) hacts hkeeps
    fun key hsec => Or.inl (hsecures key hsec)

/-- **A locking lookup** answers what the map says, with the lock of the record that it found. -/
theorem readLocked_stretch (hs : s.On i) {key : Bytes}
    {result : EStateM.Result Error Session Locked} (hlocking : Locking s i key result)
    {act : SessionM Locked} (hact : act s₂ = result) (part : Part) :
    Stretch s i (.read key part true) heeds ((act >>= readLocked key part) s₂) := by
  cases hlocking with
  | @absent h looked missing =>
    rw [bind_ok hact]
    have hnone : i.contents key = none := by rw [Image.contents_eq_find?, missing]; rfl
    refine answered_stretch (hs.withHandle looked.fits) rfl ?_
      ((Session.Acts.refl _ s).withHandle looked.config) (by simp) ?_
    case refine_2 =>
      rintro other ⟨rfl, -, hfound⟩
      exact absurd hnone hfound
    show part.Answers key (i.contents key) part.missing
    rw [hnone]
    rfl
  | @granted h line looked found sees unblocked =>
    rw [bind_ok hact]
    have hheld := (hs.withHandle looked.fits).hold line.offset
    have hl := hs.sound.mem_lines_of_find? found
    obtain ⟨a, ha, hanswers⟩ := readFound_eq hheld found sees part
    unfold readLocked
    dsimp only
    rw [ha]
    refine answered_stretch hheld rfl hanswers
      (((Session.Acts.refl _ s).withHandle looked.config).hold unblocked) ?_ ?_
    · intro o ho
      rw [List.mem_singleton.1 ho]
      exact ⟨rfl, (Image.bounds_of_mem hl).1⟩
    · rintro other ⟨rfl, -⟩
      obtain ⟨hversion, hkey⟩ := hs.sound.version_of_find? found
      exact ⟨Version.of line, hversion, hkey, (s.withHandle h).holds_hold line.offset⟩
  | @refused h line looked found blocked nonblocking =>
    rw [bind_error hact]
    exact refused_stretch hs (.read key part true) rfl looked found blocked nonblocking
  | @busy h line looked found sees blocked blocking =>
    rw [bind_ok hact]
    exact busy_stretch hs (.reading key part line.span) looked
      (hs.sound.points_of_find? found sees) blocked

/-- **A lookup by key.** -/
theorem read_stretch (hs : s.On i) (hsmall : i.bytes.length < UInt32.size) (key : Bytes) (part : Part)
    (keepLock : Bool) : Stretch s i (.read key part keepLock) heeds (read key part keepLock s) := by
  unfold read
  cases keepLock with
  | true => exact readLocked_stretch hs (locateLocking_cases hs hsmall key .ifMissing) rfl part
  | false =>
    obtain ⟨h, hlocate, looked, hsees, -⟩ := locate_eq hs key .ifMissing
    have hacts : Session.Acts ((Call.read key part false).Clears i) [] s (s.withHandle h) :=
      (Session.Acts.refl _ s).withHandle looked.config
    have hon := hs.withHandle looked.fits
    rw [if_neg (by simp), bind_ok hlocate]
    cases hfind : i.find? key with
    | none =>
      refine answered_stretch hon rfl ?_ hacts (by simp) (fun _ hsec => by cases hsec.2.1)
      show part.Answers key (i.contents key) part.missing
      rw [Image.contents_eq_find?, hfind]
      rfl
    | some line =>
      obtain ⟨a, ha, hanswers⟩ := readFound_eq hon hfind (hsees line hfind) part
      rw [Option.map_some, ha]
      exact answered_stretch hon rfl hanswers hacts (by simp) (fun _ hsec => by cases hsec.2.1)

/-- The end of a lookup by offset.  A lock that was taken is kept where a record starts. -/
theorem decodeAt_stretch {s' : Session} {gained : List Nat} (hs : s'.On i) {offset : Nat}
    (hoff : lockFault? offset = none) (hbounds : Header.length ≤ offset)
    (hview : offset < s'.handle.view.length) (keepLock : Bool)
    (hacts : Session.Acts ((Call.readAt offset keepLock).Clears i) gained s s')
    (hgained : ∀ o ∈ gained, keepLock = true ∧ o = offset)
    (htaken : keepLock = true → s'.file.locks.holdsExclusive s'.holder offset = true) :
    Stretch s i (.readAt offset keepLock) heeds (decodeAt offset keepLock s') := by
  have hkeeps : ∀ o ∈ gained, (Call.readAt offset keepLock).Keeps o := by
    intro o ho
    obtain ⟨hk, rfl⟩ := hgained o ho
    exact ⟨hk, hbounds⟩
  unfold decodeAt
  rw [get_bind]
  cases hdecode : Record.decode s'.data offset with
  | ok r =>
    refine answered_stretch hs rfl trivial hacts hkeeps ?_
    rintro key ⟨hlock, v, hv, hkey, rfl⟩
    exact ⟨v, hv, hkey, htaken hlock⟩
  | error e =>
    have hnone : ∀ line ∈ i.lines, line.offset ≠ offset := by
      rintro line hl rfl
      obtain ⟨r, hr, -⟩ := hs.fits.views.decode hs.sound.formed.toLined hl
        (hs.fits.views.sees_of_lt hl hview)
      rw [← hs.data_eq, hdecode] at hr
      cases hr
    have hnever : ∀ key, ¬ (Call.readAt offset keepLock).Secures s i heeds key := by
      rintro key ⟨-, v, hv, -, rfl⟩
      obtain ⟨line, hl, -, rfl⟩ := Image.mem_versions_iff.1 hv
      exact hnone line hl rfl
    dsimp only
    cases keepLock with
    | false => exact answered_stretch hs rfl trivial hacts hkeeps (fun key h => absurd h (hnever key))
    | true =>
      rw [if_pos rfl, bind_ok (unlock_eq s' hoff)]
      refine answered_stretch (hs.free offset) rfl trivial (hacts.free (Or.inr ⟨rfl, rfl, hnone⟩)) ?_
        (fun key h => absurd h (hnever key))
      intro o ho
      exact hkeeps o (List.mem_filter.1 ho).1

theorem ite_refresh_bind {β : Type} (c : Prop) [Decidable c] (next : SessionM β) {s s' : Session}
    {changed : Bool} (h : refresh s = .ok changed s') :
    (if c then (do let _ ← refresh; next) else next) s = next (if c then s' else s) := by
  split
  · rw [bind_ok h]
  · rfl

/-- **A lookup by offset.** -/
theorem readAt_stretch (hs : s.On i) (hsmall : i.bytes.length < UInt32.size) (offset : Nat)
    (keepLock : Bool) : Stretch s i (.readAt offset keepLock) heeds (readAt offset keepLock s) := by
  obtain ⟨changed, h, hr, looked, hcur⟩ := refresh_eq hs
  unfold readAt
  rw [get_bind, ite_refresh_bind _ _ hr]
  -- the handle, after it has perhaps mapped the file again
  obtain ⟨h', hs', looked', hcur'⟩ : ∃ h' : Handle,
      (if s.handle.view.length ≤ offset then s.withHandle h else s) = s.withHandle h' ∧
        s.handle.Looked h' i ∧ (h'.view.length ≤ offset → h'.Current i) := by
    split
    · exact ⟨h, rfl, looked, fun _ => hcur⟩
    · next hin => exact ⟨s.handle, rfl, .refl hs.fits, fun hout => absurd hout hin⟩
  have hon := hs.withHandle looked'.fits
  have hacts : Session.Acts ((Call.readAt offset keepLock).Clears i) [] s (s.withHandle h') :=
    (Session.Acts.refl _ s).withHandle looked'.config
  rw [hs']
  dsimp only
  rw [get_bind]
  by_cases hout : (decide (offset < (s.withHandle h').handle.headLen) ||
      decide ((s.withHandle h').handle.view.length ≤ offset)) = true
  · rw [if_pos hout]
    refine answered_stretch hon rfl trivial hacts (by simp) ?_
    -- where a record starts, the handle sees it
    rintro key ⟨-, v, hv, -, rfl⟩
    obtain ⟨line, hl, -, rfl⟩ := Image.mem_versions_iff.1 hv
    obtain ⟨hhead, hend⟩ := Image.bounds_of_mem hl
    have hpos := (hs.sound.line _ (Image.text_mem hl)).length_pos
    have hlen : h'.headLen = Header.length := hon.fits.headLen
    simp only [Bool.or_eq_true, decide_eq_true_eq] at hout
    rcases hout with hout | hout
    · have : line.offset < h'.headLen := hout
      omega
    · have hcurrent : h'.view.length = i.bytes.length := hcur' hout
      have : h'.view.length ≤ line.offset := hout
      omega
  · rw [if_neg hout]
    simp only [Bool.or_eq_true, decide_eq_true_eq, not_or, Nat.not_lt, Nat.not_le] at hout
    obtain ⟨hhead, hview⟩ := hout
    rw [hon.fits.headLen] at hhead
    have hoff : lockFault? offset = none := by
      have := hon.fits.view_le
      exact lockFault?_of_lt (by omega)
    cases keepLock with
    | false =>
      rw [if_neg (by simp)]
      exact decodeAt_stretch hon hoff hhead hview false hacts (by simp) (by simp)
    | true =>
      rw [if_pos rfl]
      rcases acquireRecord_cases (s.withHandle h') hoff with ⟨hfree, hacq⟩ | ⟨hb, hn, hacq⟩ |
        ⟨hb, -, hacq⟩
      · rw [bind_ok hacq]
        exact decodeAt_stretch (hon.hold offset) hoff hhead hview true (hacts.hold hfree) (by simp)
          (fun _ => (s.withHandle h').holds_hold offset)
      · rw [bind_error hacq]
        exact .failed hon ((Session.Acts.refl _ s).withHandle looked'.config)
          ⟨rfl, hb, looked'.config ▸ hn, Or.inr hhead⟩
      · rw [bind_ok hacq]
        exact .waiting hon ⟨hhead, hview⟩ rfl hb ((Session.Acts.refl _ s).withHandle looked'.config)
          (by simp)

/-- **The list of all records** is the map. -/
theorem records_stretch (hs : s.On i) : Stretch s i .records heeds (records s) := by
  obtain ⟨changed, h, hr, looked, hcur⟩ := refresh_eq hs
  unfold records
  rw [bind_ok hr, get_bind]
  have hdata : (s.withHandle h).data = i.bytes := by
    rw [(hs.withHandle looked.fits).data_eq, View.read]
    exact List.take_of_length_le (Nat.le_of_eq hcur.symm)
  have hhead : (s.withHandle h).handle.headLen = Header.length := looked.fits.headLen
  rw [hdata, hhead]
  exact answered_stretch (hs.withHandle looked.fits) rfl ⟨_, rfl, hs.sound.holds_contents⟩
    ((Session.Acts.refl _ s).withHandle looked.config) (by simp) (fun _ h => by cases h)

end SessionM

/-! ## Calls as a whole -/

/-- Whether a call looks at the record lock of its key from its beginning on. -/
def Call.Heeds : Call → Prop
  | .write request => request.mode.acquires = true
  | _ => True

/-- Whether a call that goes on from a stage has looked at the record lock of its key, or is going
to.  A write that waited to append does not look at it again. -/
def Stage.Heeds : Stage → Prop
  | .appending _ _ => False
  | _ => True

section Whole

open SessionM

variable {s : Session} {i : Image}

/-- An explicit lock is granted, refused or has to be waited for. -/
theorem lock_stretch (hs : s.On i) (offset : Nat) :
    Stretch s i (.lock offset) True ((Call.lock offset).start s) := by
  unfold Call.start
  dsimp only
  cases hfault : lockFault? offset with
  | some fault =>
    have hacq : acquireRecord offset s = .error (.lock fault) s := by
      unfold acquireRecord tryLock
      rw [hfault]
      rfl
    rw [bind_error hacq]
    exact .failed hs (.refl _ s) ⟨offset, Or.inl rfl, hfault⟩
  | none =>
    rcases acquireRecord_cases s hfault with ⟨hfree, hacq⟩ | ⟨hb, hn, hacq⟩ | ⟨hb, -, hacq⟩
    · rw [bind_ok hacq]
      refine answered_stretch (hs.hold offset) rfl rfl ((Session.Acts.refl _ s).hold hfree) ?_
        (fun _ h => by cases h)
      intro o ho
      exact List.mem_singleton.1 ho
    · rw [bind_error hacq]
      exact .failed hs (.refl _ s) ⟨rfl, hb, hn, Or.inl rfl⟩
    · rw [bind_ok hacq]
      exact .waiting hs hfault rfl hb (.refl _ s) (by simp)

theorem unlock_stretch (hs : s.On i) (offset : Nat) :
    Stretch s i (.unlock offset) True ((Call.unlock offset).start s) := by
  unfold Call.start
  dsimp only
  cases hfault : lockFault? offset with
  | some fault =>
    have hunlock : unlock offset s = .error (.lock fault) s := by
      unfold unlock
      rw [hfault]
      rfl
    rw [bind_error hunlock]
    exact .failed hs (.refl _ s) ⟨offset, Or.inr rfl, hfault⟩
  | none =>
    rw [bind_ok (unlock_eq s hfault)]
    exact answered_stretch (hs.free offset) rfl rfl ((Session.Acts.refl _ s).free (Or.inr rfl))
      (by simp) (fun _ h => by cases h)

/-- **Every call from its beginning.** -/
theorem Call.start_stretch (hs : s.On i) (hsmall : i.bytes.length < UInt32.size) (call : Call) :
    Stretch s i call call.Heeds (call.start s) := by
  have hcounter : ∀ (call : Call) (a : Answer), i.contents.after call = i.contents →
      call.Answers i.contents a → (∀ key, ¬ call.Secures s i call.Heeds key) →
      Stretch s i call call.Heeds (.ok (.answered a) s) := fun call a hsame hanswers hnot =>
    answered_stretch hs hsame hanswers (.refl _ s) (by simp) (fun key hsec => absurd hsec (hnot key))
  cases call with
  | read key part keepLock => exact read_stretch hs hsmall key part keepLock
  | readAt offset keepLock => exact readAt_stretch hs hsmall offset keepLock
  | records => exact records_stretch hs
  | appendSeq =>
    unfold Call.start
    dsimp only
    rw [bind_ok (appendSeq_eq hs.bytes hs.fits)]
    exact hcounter .appendSeq _ rfl trivial (fun _ => id)
  | sinceSort =>
    unfold Call.start
    dsimp only
    rw [bind_ok (sinceSort_eq hs)]
    exact hcounter .sinceSort _ rfl trivial (fun _ => id)
  | refresh =>
    obtain ⟨changed, h, hr, looked, -⟩ := refresh_eq hs
    unfold Call.start
    dsimp only
    rw [bind_ok hr]
    exact answered_stretch (hs.withHandle looked.fits) rfl trivial
      ((Session.Acts.refl _ s).withHandle looked.config) (by simp) (fun _ h => by cases h)
  | lock offset => exact lock_stretch hs offset
  | unlock offset => exact unlock_stretch hs offset
  | write request => exact write_stretch hs hsmall
  | delete key =>
    exact deleteLocked_stretch hs hsmall (locateLocking_cases hs hsmall key .ifMissing) rfl
  | resort =>
    have htry := tryLock_eq s structural_lockFault?
    unfold Call.start
    dsimp only
    by_cases hb : s.file.locks.blocks s.holder structuralOffset .exclusive = true
    · rw [if_pos hb] at htry
      rw [bind_ok htry]
      exact .waiting hs trivial rfl hb (.refl _ s) (by simp)
    · rw [if_neg hb] at htry
      rw [bind_ok htry]
      exact resortLocked_stretch hs hsmall hb

/-- The lock that a stage waits for can be taken. -/
theorem Stage.Fits.lockFault?_eq {stage : Stage} (hfit : stage.Fits s.handle i) (hs : s.On i)
    (hsmall : i.bytes.length < UInt32.size) : lockFault? stage.offset = none := by
  have hpoints : ∀ {span : Span} {key : Bytes}, i.Shows span key → lockFault? span.offset = none := by
    rintro span key ⟨line, hl, rfl, -⟩
    exact Image.lockFault?_of_mem hsmall hl
  cases stage with
  | reading key part span => exact hpoints hfit.1
  | deleting key span => exact hpoints hfit.1
  | writing request span => exact hpoints hfit.2.2.1
  | readingAt offset =>
    have hle := hs.fits.view_le
    have hlt := hfit.2
    show lockFault? offset = none
    exact lockFault?_of_lt (by omega)
  | locking offset => exact hfit
  | appending request held => exact structural_lockFault?
  | resorting => exact structural_lockFault?

/-- **Every call on from where it waited**, once its lock is granted. -/
theorem Stage.granted_stretch (hs : s.On i) (hsmall : i.bytes.length < UInt32.size) {stage : Stage}
    (hfit : stage.Fits s.handle i) (hfree : ¬ s.Blocked stage.offset) :
    Stretch s i stage.call stage.Heeds (stage.granted (s.hold stage.offset)) := by
  cases stage with
  | reading key part span =>
    obtain ⟨s₁, hs₁, hacts, hlocking⟩ := recheck_locking hs hsmall hfit hfree
    exact (readLocked_stretch hs₁ hlocking rfl part).of_acts hs.sound hacts
  | deleting key span =>
    obtain ⟨s₁, hs₁, hacts, hlocking⟩ := recheck_locking hs hsmall hfit hfree
    exact (deleteLocked_stretch hs₁ hsmall hlocking rfl).of_acts hs.sound hacts
  | writing request span =>
    obtain ⟨hreq, hacquires, hpoints⟩ := hfit
    obtain ⟨s₁, hs₁, hacts, hlocking⟩ := recheck_locking hs hsmall hpoints hfree
    exact (writeLocked_stretch hs₁ hsmall hreq hacquires hlocking rfl).of_acts hs.sound hacts
  | readingAt offset =>
    have hoff := hfit.lockFault?_eq hs hsmall
    refine decodeAt_stretch (hs.hold offset) hoff hfit.1 hfit.2 true
      ((Session.Acts.refl _ s).hold hfree) ?_ (fun _ => s.holds_hold offset)
    intro o ho
    exact ⟨rfl, List.mem_singleton.1 ho⟩
  | locking offset =>
    refine answered_stretch (hs.hold offset) rfl rfl ((Session.Acts.refl _ s).hold hfree) ?_
      (fun _ h => by cases h)
    intro o ho
    exact List.mem_singleton.1 ho
  | appending request held =>
    obtain ⟨hreq, hheld⟩ := hfit
    refine appendLocked_stretch (hs.hold _) hsmall hreq ((Session.Acts.refl _ s).hold hfree) ?_ ?_
      (fun h => by cases h) (fun h => by cases h)
    · intro o ho
      exact Or.inl (List.mem_singleton.1 ho)
    · exact fun o ho => ⟨(hheld o ho).1, i.keyAt_of_shows (hheld o ho).2⟩
  | resorting => exact resortLocked_stretch hs hsmall hfree

/-- While its lock is not free, a call goes on waiting. -/
theorem Stage.resume_of_blocked {stage : Stage} (hoff : lockFault? stage.offset = none)
    (hb : s.Blocked stage.offset) : stage.resume s = .ok (.waiting stage) s := by
  have htry := tryLock_eq s hoff
  unfold Session.Blocked at hb
  rw [if_pos hb] at htry
  unfold Stage.resume
  rw [bind_ok htry]
  rfl

theorem Stage.resume_of_not_blocked {stage : Stage} (hoff : lockFault? stage.offset = none)
    (hfree : ¬ s.Blocked stage.offset) : stage.resume s = stage.granted (s.hold stage.offset) := by
  have htry := tryLock_eq s hoff
  unfold Session.Blocked at hfree
  rw [if_neg hfree] at htry
  unfold Stage.resume
  rw [bind_ok htry]
  rfl

/-- **Every call on from where it waits**, its lock being granted or not. -/
theorem Stage.resume_stretch (hs : s.On i) (hsmall : i.bytes.length < UInt32.size) {stage : Stage}
    (hfit : stage.Fits s.handle i) : Stretch s i stage.call stage.Heeds (stage.resume s) := by
  have hoff := hfit.lockFault?_eq hs hsmall
  by_cases hb : s.Blocked stage.offset
  · rw [Stage.resume_of_blocked hoff hb]
    exact .waiting hs hfit rfl hb (.refl _ s) (by simp)
  · rw [Stage.resume_of_not_blocked hoff hb]
    exact Stage.granted_stretch hs hsmall hfit hb

/-- **A write that waited to append** does so whatever has become of the record since. -/
theorem Stage.resume_appending (hs : s.On i) (hsmall : i.bytes.length < UInt32.size)
    {request : WriteRequest} {held : Option Nat}
    (hfit : (Stage.appending request held).Fits s.handle i) (hfree : ¬ s.Blocked structuralOffset) :
    AppendedLocked (s.hold structuralOffset) i request held
      ((Stage.appending request held).resume s) := by
  obtain ⟨hreq, hheld⟩ := hfit
  have hoff : lockFault? (Stage.appending request held).offset = none := structural_lockFault?
  rw [Stage.resume_of_not_blocked hoff hfree]
  exact appendLocked_cases (hs.hold _) hsmall hreq fun o ho =>
    ⟨(hheld o ho).1, i.keyAt_of_shows (hheld o ho).2⟩

end Whole

end RecordStore
