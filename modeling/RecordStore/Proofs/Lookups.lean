import Mathlib.Tactic.Common
import RecordStore.Proofs.Handles
import RecordStore.Proofs.Locks

/-!
# Operations that change no byte

On a sound file every lookup, by whatever handle, answers where the live record of the key stands,
and changes nothing but what the handle remembers.  Taking and giving up locks changes the lock
table only.

* `Session.On` — a session on the file that an image is.
* `Session.withHandle`, `Session.hold`, `Session.free` — a session with another handle; one that
  took a lock; one that gave one up.
* `Session.Acts` — what a stretch of a call does to the locks.
* `Locking` — what a lookup that locks comes to.

Principal results: `refresh_eq`, `locate_eq`, `recordAt_eq`; `tryLock_eq`, `acquireRecord_cases`,
`unlock_eq`; `locateLocking_cases`, `recheck_cases`.
-/

set_option autoImplicit false

namespace RecordStore

/-- The session works on the file that the image is. -/
structure Session.On (s : Session) (i : Image) : Prop where
  bytes : s.file.bytes = i.bytes
  fits : s.handle.Fits i
  sound : i.Sound

namespace Session

def withHandle (s : Session) (h : Handle) : Session := { s with handle := h }

/-- The holder has taken an exclusive lock. -/
def hold (s : Session) (offset : Nat) : Session :=
  { s with file := { s.file with locks := s.file.locks.set s.holder offset .exclusive } }

/-- The holder has given a lock up. -/
def free (s : Session) (offset : Nat) : Session :=
  { s with file := s.file.unlock s.holder offset }

/-- The holder has given up a lock that it may have. -/
def freeAll (s : Session) : Option Nat → Session
  | none => s
  | some offset => s.free offset

/-- Another holder keeps this one from an exclusive lock. -/
def Blocked (s : Session) (offset : Nat) : Prop :=
  s.file.locks.blocks s.holder offset .exclusive = true

variable {s : Session} {i : Image}

theorem On.withHandle (hs : s.On i) {h : Handle} (hf : h.Fits i) : (s.withHandle h).On i :=
  ⟨hs.bytes, hf, hs.sound⟩

theorem On.hold (hs : s.On i) (offset : Nat) : (s.hold offset).On i :=
  ⟨hs.bytes, hs.fits, hs.sound⟩

theorem On.free (hs : s.On i) (offset : Nat) : (s.free offset).On i :=
  ⟨hs.bytes, hs.fits, hs.sound⟩

theorem On.freeAll (hs : s.On i) (held : Option Nat) : (s.freeAll held).On i := by
  cases held with
  | none => exact hs
  | some offset => exact hs.free offset

theorem On.data_eq (hs : s.On i) : s.data = s.handle.view.read i.bytes := by
  rw [data, hs.bytes]

end Session

/-- A line ends inside what a handle sees. -/
def Handle.Sees (h : Handle) (line : Line) : Prop := line.offset + line.text.length ≤ h.view.length

/-- The handle has looked at the file again, which changes only what it remembers of it. -/
structure Handle.Looked (h h' : Handle) (i : Image) : Prop where
  fits : h'.Fits i
  config : h'.config = h.config
  modified : h'.modified = h.modified
  grown : h.view.length ≤ h'.view.length

theorem Handle.Looked.refl {h : Handle} {i : Image} (hf : h.Fits i) : h.Looked h i :=
  ⟨hf, rfl, rfl, Nat.le_refl _⟩

theorem Handle.Looked.trans {h h' h'' : Handle} {i : Image} (hab : h.Looked h' i)
    (hbc : h'.Looked h'' i) : h.Looked h'' i :=
  ⟨hbc.fits, hbc.config.trans hab.config, hbc.modified.trans hab.modified,
    Nat.le_trans hab.grown hbc.grown⟩

theorem Image.mem_seen {i : Image} {seen unseen : List Bytes} (htexts : i.texts = seen ++ unseen)
    (hlines : ∀ text ∈ i.texts, IsLine text) {line : Line} (hl : line ∈ i.lines)
    (hle : line.offset + line.text.length ≤ Header.length + seen.flatten.length) :
    line ∈ (⟨i.header, seen⟩ : Image).lines := by
  have hpos := (hlines _ (text_mem hl)).length_pos
  rw [lines, htexts, linesAt_append, List.mem_append] at hl
  rcases hl with hl | hl
  · exact hl
  · obtain ⟨front, back, -, hoff⟩ := mem_linesAt_iff.1 hl
    omega

/-- A handle sees to the end whatever line it sees the beginning of. -/
theorem Handle.Views.sees_of_lt {h : Handle} {i : Image} (hv : h.Views i) {line : Line}
    (hl : line ∈ i.lines) (hlt : line.offset < h.view.length) : h.Sees line := by
  obtain ⟨seen, unseen, htexts, hview⟩ := hv.view
  unfold Handle.Sees
  rw [Image.lines, htexts, linesAt_append, List.mem_append] at hl
  rcases hl with hl | hl
  · have hend := (Image.bounds_of_mem (i := ⟨i.header, seen⟩) hl).2
    rw [Image.length_bytes, ← hview] at hend
    exact hend
  · obtain ⟨front, back, -, hoff⟩ := mem_linesAt_iff.1 hl
    omega

/-- A record that a handle sees is decoded as it stands in the file. -/
theorem Handle.Views.decode {h : Handle} {i : Image} (hv : h.Views i) (hi : i.Lined) {line : Line}
    (hl : line ∈ i.lines) (hsees : h.Sees line) : ∃ r : Record,
      Record.decode (h.view.read i.bytes) line.offset = .ok r ∧ r.toLine = line := by
  obtain ⟨seen, unseen, htexts, hview⟩ := hv.view
  have hseen := Image.mem_seen htexts hi.line hl (hview ▸ hsees)
  have hlines : ∀ text ∈ seen, IsLine text := fun text ht => hi.line text (by simp [htexts, ht])
  rw [Image.read_view htexts hview]
  exact Image.decode_of_mem hlines hseen (hi.wellFormed _ (Image.text_mem hl))

theorem lockFault?_of_lt {offset : Nat} (h : offset < UInt32.size) : lockFault? offset = none := by
  have hlimit : UInt32.size + lockLen ≤ offsetLimit := by decide
  unfold lockFault?
  rw [if_neg (by omega), if_neg (by omega)]

namespace SessionM

/-! ## Running computations -/

theorem bind_ok {α β : Type} {act : SessionM α} {next : α → SessionM β} {s s' : Session} {a : α}
    (h : act s = .ok a s') : (act >>= next) s = next a s' := by
  simp only [bind, EStateM.bind, h]

theorem bind_error {α β : Type} {act : SessionM α} {next : α → SessionM β} {s s' : Session}
    {e : Error} (h : act s = .error e s') : (act >>= next) s = .error e s' := by
  simp only [bind, EStateM.bind, h]

theorem get_bind {β : Type} (next : Session → SessionM β) (s : Session) :
    ((get : SessionM Session) >>= next) s = next s s := rfl

theorem modify_bind {β : Type} (f : Session → Session) (next : PUnit → SessionM β) (s : Session) :
    ((modify f : SessionM PUnit) >>= next) s = next ⟨⟩ (f s) := rfl

theorem attempt_ok {α : Type} {act : SessionM α} {s s' : Session} {a : α} (h : act s = .ok a s') :
    attempt act s = .ok (.ok a) s' := by
  simp only [attempt, h]

/-! ## Locks -/

variable {s : Session} {i : Image}

theorem tryLock_eq (s : Session) {offset : Nat} (hoff : lockFault? offset = none) :
    tryLock offset .exclusive s = if s.file.locks.blocks s.holder offset .exclusive
      then .ok false s else .ok true (s.hold offset) := by
  unfold tryLock
  rw [hoff]
  dsimp only
  rw [get_bind, SharedFile.acquire?, LockTable.acquire?]
  split
  · rfl
  · rfl

theorem unlock_eq (s : Session) {offset : Nat} (hoff : lockFault? offset = none) :
    unlock offset s = .ok () (s.free offset) := by
  unfold unlock
  rw [hoff]
  rfl

theorem forM_unlock_eq (s : Session) {held : Option Nat}
    (h : ∀ o, held = some o → lockFault? o = none) :
    (held.forM unlock : SessionM PUnit) s = .ok ⟨⟩ (s.freeAll held) := by
  cases held with
  | none => rfl
  | some offset => exact unlock_eq s (h offset rfl)

/-- The lock of a record is granted, refused or has to be waited for. -/
theorem acquireRecord_cases (s : Session) {offset : Nat} (hoff : lockFault? offset = none) :
    (¬ s.Blocked offset ∧ acquireRecord offset s = .ok true (s.hold offset)) ∨
      (s.Blocked offset ∧ s.handle.config.nonblocking = true ∧
        acquireRecord offset s = .error (.contention offset) s) ∨
      (s.Blocked offset ∧ s.handle.config.nonblocking = false ∧
        acquireRecord offset s = .ok false s) := by
  have htry := tryLock_eq s hoff
  unfold Session.Blocked acquireRecord
  by_cases hb : s.file.locks.blocks s.holder offset .exclusive = true
  · right
    rw [if_pos hb] at htry
    rw [bind_ok htry, get_bind]
    cases hn : s.handle.config.nonblocking with
    | true => exact Or.inl ⟨hb, rfl, rfl⟩
    | false => exact Or.inr ⟨hb, rfl, rfl⟩
  · left
    rw [if_neg hb] at htry
    rw [bind_ok htry, get_bind]
    exact ⟨hb, rfl⟩

/-! ## Lookups -/

theorem counter_eq (hbytes : s.file.bytes = i.bytes) (hfits : s.handle.Fits i)
    (c : Header.Counter) : counter c.offset s = .ok (c.read i.header) s := by
  have := hfits.counterAt? c
  rw [← hbytes] at this
  unfold counter
  rw [get_bind, Session.data, this]
  rfl

theorem appendSeq_eq (hbytes : s.file.bytes = i.bytes) (hfits : s.handle.Fits i) :
    appendSeq s = .ok i.header.appendSeq s :=
  counter_eq hbytes hfits .appendSeq

theorem sinceSort_eq (hs : s.On i) : sinceSort s = .ok i.header.sinceSort s :=
  counter_eq hs.bytes hs.fits .sinceSort

/-- **After a refresh the handle sees the whole file.** -/
theorem refresh_eq (hs : s.On i) : ∃ (changed : Bool) (h : Handle),
    refresh s = .ok changed (s.withHandle h) ∧ s.handle.Looked h i ∧ h.Current i := by
  unfold refresh
  rw [bind_ok (appendSeq_eq hs.bytes hs.fits), get_bind]
  by_cases hseq : i.header.appendSeq = s.handle.seenSeq
  · rw [if_pos hseq]
    exact ⟨false, s.handle, rfl, .refl hs.fits, hs.fits.current_of_seenSeq hs.sound hseq⟩
  · rw [if_neg hseq, modify_bind]
    refine ⟨true, _, rfl, ⟨⟨hs.fits.headLen, ⟨i.texts, [], by simp, ?_, ?_⟩, ?_⟩, rfl, rfl, ?_⟩, ?_⟩
    · simp only [Session.forget, View.remap, hs.bytes, Image.length_bytes]
    · exact Nat.le_of_eq hs.sound.count
    · rintro entry ⟨⟩
    · simp only [Session.forget, View.remap, hs.bytes]
      exact hs.fits.view_le
    · simp only [Handle.Current, Session.forget, View.remap, hs.bytes]

/-- Remembering where a line stands. -/
theorem Session.On.remember (hs : s.On i) {line : Line} (hl : line ∈ i.lines) :
    s.handle.Looked (s.remember line.span).handle i := by
  refine ⟨⟨hs.fits.headLen, hs.fits.view, ?_⟩, rfl, rfl, Nat.le_refl _⟩
  rintro entry ⟨⟩
  exact ⟨keyOf line.text, line, hl, rfl, rfl⟩

/-- What a lookup in the current mapping comes to. -/
theorem find_eq (hs : s.On i) (key : Bytes) : ∃ h : Handle,
    find key s = .ok (s.handle.find? s.data key) (s.withHandle h) ∧ s.handle.Looked h i := by
  unfold find
  rw [get_bind]
  cases hf : s.handle.find? s.data key with
  | none => exact ⟨s.handle, rfl, .refl hs.fits⟩
  | some span =>
    rw [hs.data_eq] at hf
    obtain ⟨line, hline, rfl, -⟩ := hs.fits.find?_sound hs.sound hf
    have hl := (List.mem_filter.1 (hs.sound.find?_eq_some_iff.1 hline).1).1
    exact ⟨(s.remember line.span).handle, rfl, Session.On.remember hs hl⟩

/-- **A lookup answers where the live record of the key stands**, however old the mapping was. -/
theorem locate_eq (hs : s.On i) (key : Bytes) (freshness : Freshness) : ∃ h : Handle,
    locate key freshness s = .ok ((i.find? key).map Line.span) (s.withHandle h) ∧
      s.handle.Looked h i ∧ (∀ line, i.find? key = some line → h.Sees line) ∧
      (freshness = .always → h.Current i) := by
  -- a lookup by a handle that sees the whole file
  have hcurrent : ∀ h' : Handle, s.handle.Looked h' i → h'.Current i → ∃ h : Handle,
      find key (s.withHandle h') = .ok ((i.find? key).map Line.span) (s.withHandle h) ∧
        s.handle.Looked h i ∧ (∀ line, i.find? key = some line → h.Sees line) ∧ h.Current i := by
    intro h' hlook hcur
    have hs' : (s.withHandle h').On i := hs.withHandle hlook.fits
    obtain ⟨h, heq, hh⟩ := find_eq hs' key
    have hfound := hlook.fits.find?_of_current hs.sound hcur key
    have hview : h.Current i := Nat.le_antisymm hh.fits.view_le (hcur ▸ hh.grown)
    refine ⟨h, ?_, hlook.trans hh, ?_, hview⟩
    · rw [heq, hs'.data_eq]
      exact congrArg (fun found => EStateM.Result.ok found _) hfound
    · intro line hline
      have hl := (List.mem_filter.1 (hs.sound.find?_eq_some_iff.1 hline).1).1
      rw [Handle.Sees, hview]
      exact (Image.bounds_of_mem hl).2
  unfold locate
  rw [get_bind]
  dsimp only
  by_cases hrefresh : (freshness == .always || !(s.handle.find? s.data key).isSome) = true
  · rw [if_pos hrefresh]
    obtain ⟨changed, h', hr, hlook, hcur⟩ := refresh_eq hs
    rw [bind_ok hr]
    obtain ⟨h, heq, hlook', hsees, hview⟩ := hcurrent h' hlook hcur
    exact ⟨h, heq, hlook', hsees, fun _ => hview⟩
  · rw [if_neg hrefresh]
    rw [Bool.not_eq_true, Bool.or_eq_false_iff] at hrefresh
    obtain ⟨span, hspan⟩ : ∃ span, s.handle.find? s.data key = some span := by
      rw [← Option.isSome_iff_exists]
      simpa using hrefresh.2
    have hf := hspan
    rw [hs.data_eq] at hf
    obtain ⟨line, hline, hlspan, hsees⟩ := hs.fits.find?_sound hs.sound hf
    obtain ⟨h, heq, hh⟩ := find_eq hs key
    refine ⟨h, ?_, hh, ?_, ?_⟩
    · rw [heq, hspan, hline, Option.map_some, hlspan]
    · intro line' hline'
      rw [hline, Option.some.injEq] at hline'
      exact hline' ▸ Nat.le_trans hsees hh.grown
    · rintro rfl
      cases hrefresh.1

/-- The record that a lookup found is there. -/
theorem recordAt_eq (hs : s.On i) {line : Line} (hl : line ∈ i.lines) (hsees : s.handle.Sees line) :
    ∃ r : Record, recordAt line.span s = .ok r s ∧ r.toLine = line := by
  obtain ⟨r, hr, hline⟩ := hs.fits.views.decode hs.sound.formed.toLined hl hsees
  refine ⟨r, ?_, hline⟩
  rw [← hs.data_eq] at hr
  unfold recordAt
  rw [get_bind]
  simp only [Line.span, hr]
  rfl

end SessionM

/-! ## What a stretch of a call does to the locks -/

/-- A stretch of a call by one holder.  Other holders keep their locks, this one gains locks only at
`gained` and only where they go with those of others, and it keeps an exclusive lock unless a lock at
one of the offsets `cleared` overlaps. -/
structure Session.Acts (cleared : Nat → Prop) (gained : List Nat) (s s' : Session) : Prop where
  holder : s'.holder = s.holder
  config : s'.handle.config = s.handle.config
  others : s'.file.locks.others s.holder = s.file.locks.others s.holder
  adds : s.file.locks.Adds s'.file.locks s.holder gained
  kept : ∀ offset, s.file.locks.holdsExclusive s.holder offset = true →
    (∀ o, cleared o → LockTable.Apart o offset) →
      s'.file.locks.holdsExclusive s.holder offset = true
  consistent : s.file.locks.Consistent → s'.file.locks.Consistent

namespace Session.Acts

variable {cleared : Nat → Prop} {gained : List Nat} {s s' : Session}

theorem refl (cleared : Nat → Prop) (s : Session) : Acts cleared [] s s :=
  ⟨rfl, rfl, rfl, .refl _ _, fun _ h _ => h, id⟩

theorem mono (h : Acts cleared gained s s') {cleared' : Nat → Prop} (hc : ∀ o, cleared o → cleared' o) :
    Acts cleared' gained s s' :=
  ⟨h.holder, h.config, h.others, h.adds, fun o ho hapart => h.kept o ho fun o' ho' =>
    hapart o' (hc o' ho'), h.consistent⟩

/-- Steps that gained nothing go before others. -/
theorem trans {s₁ : Session} (h₁ : Acts cleared [] s s₁) (h₂ : Acts cleared gained s₁ s') :
    Acts cleared gained s s' := by
  refine ⟨h₂.holder.trans h₁.holder, h₂.config.trans h₁.config, ?_, ?_, ?_,
    fun hc => h₂.consistent (h₁.consistent hc)⟩
  · have hothers := h₂.others
    rw [h₁.holder] at hothers
    exact hothers.trans h₁.others
  · have hadds := h₂.adds
    rw [h₁.holder] at hadds
    intro lock hl
    rcases hadds lock hl with hl | hnew
    · rcases h₁.adds lock hl with hl | ⟨-, o, ho, -⟩
      · exact Or.inl hl
      · cases ho
    · exact Or.inr hnew
  · intro o ho hapart
    have hkept := h₂.kept o
    rw [h₁.holder] at hkept
    exact hkept (h₁.kept o ho hapart) hapart

/-- Steps that leave the locks alone. -/
theorem congr (h : Acts cleared gained s s') {s'' : Session} (hlocks : s''.file.locks = s'.file.locks)
    (hholder : s''.holder = s'.holder) (hconfig : s''.handle.config = s'.handle.config) :
    Acts cleared gained s s'' := by
  refine ⟨hholder.trans h.holder, hconfig.trans h.config, ?_, ?_, ?_, ?_⟩
  · rw [hlocks]
    exact h.others
  · rw [hlocks]
    exact h.adds
  · rw [hlocks]
    exact h.kept
  · rw [hlocks]
    exact h.consistent

theorem withHandle (h : Acts cleared gained s s') {handle : Handle}
    (hconfig : handle.config = s'.handle.config) :
    Acts cleared gained s (s'.withHandle handle) :=
  h.congr rfl rfl hconfig

theorem blocked_iff (h : Acts cleared gained s s') (offset : Nat) :
    s'.Blocked offset ↔ s.Blocked offset := by
  unfold Session.Blocked
  rw [h.holder, LockTable.blocks_congr h.others]

theorem hold (h : Acts cleared gained s s') {offset : Nat} (hfree : ¬ s.Blocked offset) :
    Acts cleared (offset :: gained) s (s'.hold offset) := by
  have hfree' : s'.file.locks.blocks s'.holder offset .exclusive = false :=
    Bool.eq_false_iff.2 fun hb => hfree ((h.blocked_iff offset).1 hb)
  refine ⟨h.holder, h.config, ?_, ?_, ?_, fun hc => (h.consistent hc).set hfree'⟩
  · simp only [Session.hold, h.holder, LockTable.others_set]
    exact h.others
  · simp only [Session.hold, h.holder]
    exact h.adds.set offset .exclusive
  · intro o ho hd
    simp only [Session.hold, h.holder]
    exact LockTable.holdsExclusive_set_of_holds (h.kept o ho hd)

theorem free (h : Acts cleared gained s s') {offset : Nat} (hc : cleared offset) :
    Acts cleared (gained.filter (· ≠ offset)) s (s'.free offset) := by
  refine ⟨h.holder, h.config, ?_, ?_, ?_, fun hcons => (h.consistent hcons).clear _ _⟩
  · simp only [Session.free, SharedFile.unlock, h.holder, LockTable.others_clear]
    exact h.others
  · simp only [Session.free, SharedFile.unlock, h.holder]
    exact h.adds.clear offset
  · intro o ho hd
    simp only [Session.free, SharedFile.unlock, h.holder]
    rw [LockTable.holdsExclusive_clear_of_apart (hd offset hc)]
    exact h.kept o ho hd

/-- A lock that may be held already. -/
theorem freeAll (h : Acts cleared gained s s') {held : Option Nat}
    (hc : ∀ o, held = some o → cleared o) :
    Acts cleared (gained.filter fun o => some o ≠ held) s (s'.freeAll held) := by
  cases held with
  | none => simpa [Session.freeAll] using h
  | some offset => simpa [Session.freeAll] using h.free (hc offset rfl)

end Session.Acts

/-! ## Lookups that lock -/

/-- What a lookup that locks comes to: nothing has changed but what the handle remembers, and the
lock of the live record of the key is granted, refused or has to be waited for. -/
inductive Locking (s : Session) (i : Image) (key : Bytes) :
    EStateM.Result Error Session SessionM.Locked → Prop where
  | absent {h : Handle} (looked : s.handle.Looked h i) (missing : i.find? key = none) :
    Locking s i key (.ok .absent (s.withHandle h))
  | granted {h : Handle} {line : Line} (looked : s.handle.Looked h i)
    (found : i.find? key = some line) (sees : h.Sees line) (unblocked : ¬ s.Blocked line.offset) :
    Locking s i key (.ok (.granted line.span) ((s.withHandle h).hold line.offset))
  | refused {h : Handle} {line : Line} (looked : s.handle.Looked h i)
    (found : i.find? key = some line) (blocked : s.Blocked line.offset)
    (nonblocking : s.handle.config.nonblocking = true) :
    Locking s i key (.error (.contention line.offset) (s.withHandle h))
  | busy {h : Handle} {line : Line} (looked : s.handle.Looked h i)
    (found : i.find? key = some line) (sees : h.Sees line) (blocked : s.Blocked line.offset)
    (blocking : s.handle.config.nonblocking = false) :
    Locking s i key (.ok (.busy line.span) (s.withHandle h))

theorem Locking.of_looked {s : Session} {i : Image} {key : Bytes} {h : Handle}
    {result : EStateM.Result Error Session SessionM.Locked} (hlook : s.handle.Looked h i)
    (hl : Locking (s.withHandle h) i key result) : Locking s i key result := by
  cases hl with
  | absent looked missing => exact .absent (hlook.trans looked) missing
  | granted looked found sees unblocked => exact .granted (hlook.trans looked) found sees unblocked
  | refused looked found blocked nonblocking =>
    exact .refused (hlook.trans looked) found blocked (hlook.config ▸ nonblocking)
  | busy looked found sees blocked blocking =>
    exact .busy (hlook.trans looked) found sees blocked (hlook.config ▸ blocking)

/-- Offsets inside a small file can be locked. -/
theorem Image.lockFault?_of_mem {i : Image} (hsmall : i.bytes.length < UInt32.size) {line : Line}
    (hl : line ∈ i.lines) : lockFault? line.offset = none := by
  have := (bounds_of_mem hl).2
  exact lockFault?_of_lt (by omega)

theorem Image.Sound.mem_lines_of_find? {i : Image} (hi : i.Sound) {key : Bytes} {line : Line}
    (h : i.find? key = some line) : line ∈ i.lines :=
  (List.mem_filter.1 (hi.find?_eq_some_iff.1 h).1).1

namespace SessionM

variable {s : Session} {i : Image}

theorem locateLocking_cases (hs : s.On i) (hsmall : i.bytes.length < UInt32.size) (key : Bytes)
    (freshness : Freshness) : Locking s i key (locateLocking key freshness s) := by
  obtain ⟨h, heq, hlook, hsees, -⟩ := locate_eq hs key freshness
  unfold locateLocking
  rw [bind_ok heq]
  cases hfind : i.find? key with
  | none => exact .absent hlook hfind
  | some line =>
    have hoff := Image.lockFault?_of_mem hsmall (hs.sound.mem_lines_of_find? hfind)
    dsimp only [Option.map_some]
    rcases acquireRecord_cases (s.withHandle h) hoff with ⟨hb, hacq⟩ | ⟨hb, hn, hacq⟩ | ⟨hb, hn, hacq⟩
    · rw [bind_ok (show acquireRecord line.span.offset (s.withHandle h) = _ from hacq)]
      exact .granted hlook hfind (hsees line hfind) hb
    · rw [bind_error (show acquireRecord line.span.offset (s.withHandle h) = _ from hacq)]
      exact .refused hlook hfind hb (hlook.config ▸ hn)
    · rw [bind_ok (show acquireRecord line.span.offset (s.withHandle h) = _ from hacq)]
      exact .busy hlook hfind (hsees line hfind) hb (hlook.config ▸ hn)

/-- The flag of a line, read through the mapping. -/
theorem flag_eq (hs : s.On i) {line : Line} (hl : line ∈ i.lines) (hsees : s.handle.Sees line) :
    s.data[line.span.offset]? = line.text.head? := by
  have hpos := (hs.sound.line _ (Image.text_mem hl)).length_pos
  have hne : ¬ line.span.length = 0 := Nat.ne_of_gt hpos
  rw [hs.data_eq, View.read, ← Image.read_span_of_seen hl hsees, Span.read, List.head?_take,
    if_neg hne, List.head?_drop]

/-- **A granted lock is rechecked**: either the record still lives and is the one looked for, or its
lock is given up and the key is looked up anew. -/
theorem recheck_cases (hs : s.On i) (hsmall : i.bytes.length < UInt32.size) {key : Bytes}
    {line : Line} (hl : line ∈ i.lines) (hkey : keyOf line.text = key) (hsees : s.handle.Sees line)
    (hfree : ¬ s.Blocked line.offset) :
    Locking s i key (recheck key line.span (s.hold line.offset)) ∨
      (isLiveText line.text = false ∧ Locking ((s.hold line.offset).free line.offset) i key
        (recheck key line.span (s.hold line.offset))) := by
  have hflag := flag_eq (hs.hold line.offset) hl hsees
  have hoff := Image.lockFault?_of_mem hsmall hl
  unfold recheck
  rw [get_bind]
  by_cases hlive : line.text.head? = some liveFlag
  · left
    rw [if_pos (hflag.trans hlive)]
    have hfind : i.find? key = some line :=
      hs.sound.find?_eq_some_iff.2 ⟨List.mem_filter.2 ⟨hl, by simp [isLiveText, hlive]⟩, hkey⟩
    exact .granted (.refl hs.fits) hfind hsees hfree
  · right
    refine ⟨by simp [isLiveText, hlive], ?_⟩
    have hunlock : unlock line.span.offset (s.hold line.offset) = _ := unlock_eq _ hoff
    rw [if_neg (fun h => hlive (hflag.symm.trans h)), bind_ok hunlock, modify_bind]
    have hforget : ((s.hold line.offset).free line.offset).handle.Looked
        (((s.hold line.offset).free line.offset).forget).handle i :=
      ⟨⟨hs.fits.headLen, hs.fits.view, fun _ h => by cases h⟩, rfl, rfl, Nat.le_refl _⟩
    refine Locking.of_looked hforget ?_
    exact locateLocking_cases (((hs.hold _).free _).withHandle hforget.fits) hsmall key .always

end SessionM

end RecordStore
