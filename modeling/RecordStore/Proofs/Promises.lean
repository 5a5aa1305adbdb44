import Mathlib.Tactic.Common
import RecordStore.Proofs.Copies
import RecordStore.Proofs.Custody
import RecordStore.Proofs.Licences

/-!
# What calls leave locked

On a file that the store itself keeps, an answered call has left the locks that its kind and its mode
promise, and a refused one has left them as they were.

* `liveRecord?` — the live record of a key in a file.
* `SessionM.Delivers` — what holds once a computation has answered or refused its call.
* `Session.Ready` — a session that goes on with a write.

Principal results: `SessionM.write_delivers`; `Call.start_delivers` — every call;
`Store.promised_locks`.
-/

set_option autoImplicit false

namespace RecordStore

/-! ## Live records -/

/-- The live record of a key in a file. -/
def liveRecord? (bytes key : Bytes) : Option Record :=
  (liveRecordsFrom Header.length bytes).find? fun r => r.key == key

/-- Where the live record of a key stands. -/
def Image.offset? (i : Image) (key : Bytes) : Option Nat := (i.find? key).map Line.offset

theorem Image.absent_of_offset? {i : Image} {key : Bytes} (hnone : i.offset? key = none) :
    ∀ line ∈ i.live, keyOf line.text ≠ key := fun line hlive hkey =>
  List.find?_eq_none.1 (Option.map_eq_none_iff.1 hnone) line hlive (beq_iff_eq.2 hkey)

section Records

variable {i : Image} (hi : i.Lined) (key : Bytes)

include hi

theorem Image.Lined.map_toLine_liveRecord? :
    (liveRecord? i.bytes key).map Record.toLine = i.find? key := by
  rw [Image.find?, ← hi.map_toLine_liveRecordsFrom, List.find?_map]
  rfl

theorem Image.Lined.liveRecord?_offset :
    (liveRecord? i.bytes key).map (fun r => r.offset) = i.offset? key := by
  rw [Image.offset?, ← hi.map_toLine_liveRecord? key, Option.map_map]
  rfl

/-- The live record of a key is the one that was read where it stands. -/
theorem Image.Lined.liveRecord?_eq_some {line : Line} (hfind : i.find? key = some line) {r : Record}
    (hr : r.toLine = line) : liveRecord? i.bytes key = some r := by
  subst hr
  rw [← hi.map_toLine_liveRecord? key] at hfind
  obtain ⟨r', hr', hline⟩ := Option.map_eq_some_iff.1 hfind
  rw [hr', ← Record.ofLine?_eq_some_iff.2 ⟨r.wellFormed, hline⟩]
  exact Record.ofLine?_eq_some_iff.2 ⟨r.wellFormed, rfl⟩

theorem Image.Lined.liveRecord?_eq_none (hnone : i.find? key = none) :
    liveRecord? i.bytes key = none := by
  rw [← hi.map_toLine_liveRecord? key] at hnone
  exact Option.map_eq_none_iff.1 hnone

/-- The lock of a record does not meet that of the next line. -/
theorem Image.Lined.apart_end {key : Bytes} {offset : Nat} (hoffset : i.offset? key = some offset) :
    LockTable.Apart offset i.bytes.length := by
  obtain ⟨line, hfind, rfl⟩ := Option.map_eq_some_iff.1 hoffset
  have hl := (List.mem_filter.1 (List.mem_of_find?_eq_some hfind)).1
  have hbound := (Image.bounds_of_mem hl).2
  have hlong := keyAt_lt_of_defect? (hi.wellFormed _ (Image.text_mem hl))
  have hrange : lockLen < keyAt := by decide
  exact Or.inl (by omega)

end Records

theorem Image.apart_structural_end (i : Image) : LockTable.Apart structuralOffset i.bytes.length := by
  have hrange : structuralOffset + lockLen ≤ Header.length := by decide
  rw [Image.length_bytes]
  exact Or.inl (by omega)

/-- What a write leaves locked, on a file that the store keeps. -/
def WriteRequest.Leaves (request : WriteRequest) (id : HolderId) (i : Image) (table : LockTable)
    (s : Session) : Prop :=
  ∃ j : Image, s.file.bytes = j.bytes ∧ j.Lined ∧
    request.mode.Leaves id (i.offset? request.key) (j.offset? request.key) table s.file.locks

/-- A record that was dropped is gone. -/
theorem Drops.find?_eq_none {key : Bytes} {i j : Image} (h : Drops key i.versions true j.versions)
    (hdistinct : (i.versions.map Version.key).Nodup) : j.find? key = none := by
  generalize i.versions = before at h hdistinct
  generalize hafter : j.versions = after at h
  cases h with
  | @killed front back v split own =>
    refine List.find?_eq_none.2 fun line hlive hkey => ?_
    have hmem : Version.of line ∈ front ++ back := hafter ▸ List.mem_map_of_mem hlive
    rw [split, List.map_append, List.map_cons, List.nodup_middle, List.nodup_cons, ← List.map_append,
      own] at hdistinct
    exact hdistinct.1 (List.mem_map.2 ⟨_, hmem, beq_iff_eq.1 hkey⟩)

/-! ## Delivering -/

namespace SessionM

/-- Once the computation has its answer, this holds of it; and if it refuses its call, the locks are
those of `table`. -/
def Delivers (act : SessionM Progress) (s : Session) (table : LockTable)
    (post : Answer → Session → Prop) : Prop :=
  Brings act s (fun progress s' => ∀ a, progress = .answered a → post a s')
    (fun e s' => e.Refuses → s'.file.locks = table)

namespace Delivers

variable {α : Type} {act : SessionM α} {next : α → SessionM Progress} {s : Session} {table : LockTable}
  {post : Answer → Session → Prop}

theorem answer {a : Answer} (h : post a s) : Delivers (answer a) s table post :=
  .of_ok rfl (by rintro _ ⟨⟩; exact h)

theorem wait (stage : Stage) : Delivers (wait stage) s table post :=
  .of_ok rfl (by rintro _ ⟨⟩)

theorem throw {e : Error} (h : e.Refuses → s.file.locks = table) : Delivers (throw e) s table post :=
  .of_error rfl h

theorem bind {p : α → Session → Prop}
    (h : Brings act s p (fun e s' => e.Refuses → s'.file.locks = table))
    (hnext : ∀ a s', p a s' → Delivers (next a) s' table post) :
    Delivers (act >>= next) s table post := Brings.bind h hnext

theorem get_bind {next : Session → SessionM Progress} (h : Delivers (next s) s table post) :
    Delivers (get >>= next) s table post := h

theorem modify_bind {f : Session → Session} {next : PUnit → SessionM Progress}
    (h : Delivers (next ⟨⟩) (f s) table post) : Delivers (modify f >>= next) s table post := h

/-- After a step that refuses nothing. -/
theorem bind_of_unrefusing (h : Unrefusing act)
    (hnext : ∀ a s', act s = .ok a s' → Delivers (next a) s' table post) :
    Delivers (act >>= next) s table post := by
  unfold Delivers Brings
  cases hact : act s with
  | ok a s' =>
    rw [bind_ok hact]
    exact hnext a s' hact
  | error e s' =>
    rw [bind_error hact]
    exact fun hrefuses => absurd hrefuses (h s e s' hact)

/-- After a step that keeps the locks. -/
theorem bind_of_sees (h : OnlySees act) (hlocks : s.file.locks = table)
    (hnext : ∀ a s', act s = .ok a s' → s'.SameLocks s → Delivers (next a) s' table post) :
    Delivers (act >>= next) s table post :=
  .bind (h.sameLocks.with_eq.mono (fun _ _ => id) fun _ _ hsame _ => hsame.locks.trans hlocks)
    fun a s' hact => hnext a s' hact.1 hact.2

theorem mono {whole : SessionM Progress} {post' : Answer → Session → Prop}
    (h : Delivers whole s table post) (hpost : ∀ a s', post a s' → post' a s') :
    Delivers whole s table post' :=
  Brings.mono h (fun _ s' hp a ha => hpost a s' (hp a ha)) fun _ _ => id

end Delivers

end SessionM

/-! ## Steps of a call -/

namespace SessionM

section Steps

variable {s : Session} {i : Image} {table : LockTable} {post : Answer → Session → Prop}

/-- **What goes on with a looked up and locked record.** -/
theorem Delivers.of_locateLocking (hs : s.Follows i) (hdistinct : (i.versions.map Version.key).Nodup)
    (hsmall : i.bytes.length < UInt32.size) (key : Bytes) {next : Locked → SessionM Progress}
    (habsent : ∀ s', s.Looks s' → s'.SameLocks s → i.find? key = none →
      Delivers (next .absent) s' s.file.locks post)
    (hgranted : ∀ line s', s.Looks s' → s'.SameLocks (s.hold line.offset) → i.find? key = some line →
      s'.handle.Sees line → lockFault? line.span.offset = none →
        Delivers (next (.granted line.span)) s' s.file.locks post)
    (hbusy : ∀ span s', Delivers (next (.busy span)) s' s.file.locks post) :
    Delivers (locateLocking key .ifMissing >>= next) s s.file.locks post := by
  have hlooked := locateLocking_looked hs.mapped key
  refine .bind ((locateLocking_takes s key .ifMissing).with_eq.mono (fun _ _ => id)
    fun _ _ hsame _ => hsame.locks) ?_
  rintro locked s' ⟨hact, htakes⟩
  rw [hact] at hlooked
  cases hlooked with
  | absent looks missing fresh =>
    exact habsent s' looks htakes ((hs.of_looks looks).1.find?_of_missing hsmall missing fresh)
  | granted looks aims lockable =>
    obtain ⟨line, hfind, rfl, hsees⟩ := hs.find?_of_aims hdistinct (by rintro span ⟨⟩) looks aims
    exact hgranted line s' looks htakes.1 hfind hsees lockable
  | busy => exact hbusy _ s'

/-- **What was done under the structural lock**, which is given up in any case. -/
theorem Delivers.bind_unlockingStructure {α : Type} {act : SessionM α} {next : Except Error α →
    SessionM Progress} (hunrefusing : Unrefusing act)
    (hok : ∀ a s', act s = .ok a s' → Delivers (next (.ok a)) (s'.free structuralOffset) table post)
    (herror : ∀ e s', ¬ e.Refuses → Delivers (next (.error e)) s' table post) :
    Delivers (unlockingStructure act >>= next) s table post := by
  refine .bind_of_unrefusing (unrefusing_unlockingStructure act) fun outcome s₁ houtcome => ?_
  cases hact : act s with
  | ok a s₂ =>
    obtain ⟨rfl, rfl⟩ := EStateM.Result.ok.inj ((unlockingStructure_ok hact).symm.trans houtcome)
    exact hok a s₂ hact
  | error e s₂ =>
    obtain ⟨rfl, rfl⟩ := EStateM.Result.ok.inj ((unlockingStructure_error hact).symm.trans houtcome)
    exact herror e _ (hunrefusing _ _ _ hact)

end Steps

end SessionM

/-! ## Writes -/

/-- A session that goes on with a write to this key: beyond what is in `table` its holder has at most the
lock of the key's record, and nobody else is where the next line goes. -/
structure Session.Ready (s : Session) (i : Image) (key : Bytes) (table : LockTable) (id : HolderId) :
    Prop where
  follows : s.Follows i
  holder : s.holder = id
  adds : table.Adds s.file.locks id (i.offset? key).toList
  room : s.file.locks.blocks id i.bytes.length .exclusive = false

namespace Session.Ready

variable {s s' : Session} {i : Image} {key : Bytes} {table : LockTable} {id : HolderId}

/-- Looks that leave the locks. -/
theorem of_sameLocks (h : s.Ready i key table id) (hlooks : s.Looks s') (hsame : s'.SameLocks s) :
    s'.Ready i key table id where
  follows := (h.follows.of_looks hlooks).1
  holder := hsame.holder.trans h.holder
  adds := hsame.locks ▸ h.adds
  room := hsame.locks ▸ h.room

/-- Looks that take the lock of the key's record. -/
theorem of_hold (h : s.Ready i key s.file.locks id) {offset : Nat} (hoffset : i.offset? key = some offset)
    (hlooks : s.Looks s') (hsame : s'.SameLocks (s.hold offset)) :
    s'.Ready i key s.file.locks id where
  follows := (h.follows.of_looks hlooks).1
  holder := hsame.holder.trans h.holder
  adds := by
    rw [hsame.locks, hoffset, ← h.holder]
    exact (LockTable.Adds.refl _ _).set offset .exclusive
  room := by
    rw [hsame.locks]
    refine (LockTable.blocks_congr ?_ _ _).trans h.room
    rw [← h.holder]
    exact LockTable.others_set

/-- The locks once a line was appended and the structural lock was given up. -/
theorem moved (h : s.Ready i key table id)
    (hsame : s'.SameLocks ((s.hold structuralOffset).tryHold i.bytes.length)) :
    (s'.free structuralOffset).holder = id ∧ (s'.free structuralOffset).file.locks =
      ((s.file.locks.set id structuralOffset .exclusive).set id i.bytes.length .exclusive).clear id
        structuralOffset := by
  have hroom : ¬ (s.file.locks.set s.holder structuralOffset .exclusive).blocks s.holder
      i.bytes.length .exclusive = true := by
    rw [LockTable.blocks_congr LockTable.others_set, h.holder, h.room]
    decide
  have hown : s'.holder = id := hsame.holder.trans h.holder
  refine ⟨hown, ?_⟩
  show s'.file.locks.clear s'.holder structuralOffset = _
  rw [hsame.locks, hown, ← h.holder]
  exact congrArg (LockTable.clear · s.holder structuralOffset) (LockTable.tryTake_of_not_blocks hroom)

end Session.Ready

namespace SessionM

section Writes

variable {s : Session} {i : Image} {request : WriteRequest} {table : LockTable} {id : HolderId}
  (hdistinct : (i.versions.map Version.key).Nodup) (hsmall : i.bytes.length < UInt32.size)
  (hreq : requestFault? request = none)

include hdistinct hsmall hreq

/-- **A write under the structural lock** moves the lock of the record to the new line. -/
theorem appendLocked_delivers (hs : s.Ready i request.key table id)
    (hnamed : i.offset? request.key ≠ none → request.field ≠ none) :
    Delivers (appendLocked request (i.offset? request.key)) (s.hold structuralOffset) table
      (fun _ s' => request.Leaves id i table s') := by
  have hheld : (s.hold structuralOffset).Follows i := hs.follows.of_relocks (.mk _)
  have hlined := hs.follows.formed.toLined
  have hfault : ∀ o, i.offset? request.key = some o → lockFault? o = none := by
    intro o ho
    obtain ⟨line, hfind, rfl⟩ := Option.map_eq_some_iff.1 ho
    exact Image.lockFault?_of_mem hsmall (List.mem_filter.1 (List.mem_of_find?_eq_some hfind)).1
  refine .bind_unlockingStructure (unrefusing_appendRecord _ _) (fun appended s₂ happ => ?appended)
    fun e s₂ hnot => ?failed
  case failed =>
    have hthrow : ∀ s', Delivers (throw e) s' table (fun _ s' => request.Leaves id i table s') :=
      fun s' => .throw fun h => absurd h hnot
    dsimp only
    split
    · exact .bind_of_unrefusing (unrefusing_forM_unlock _) fun _ s' _ => hthrow s'
    · exact hthrow _
  case appended =>
    have happends := appendRecord_appends hheld.mapped (hheld.lockable hsmall) request.key request.field
    rw [happ] at happends
    obtain ⟨hsame, hnew⟩ :=
      (appendRecord_takes (s.hold structuralOffset) request.key request.field).ok happ
    cases happends with
    | present prepared fieldless =>
      -- the record was there before, so that a field is named
      obtain ⟨j, -, -, -, hversions, -, hfound⟩ := hheld.prepared hsmall prepared
      obtain ⟨line, hlive, hkey, -, -⟩ := hfound _ rfl
      refine absurd fieldless (hnamed fun hnone => ?_)
      obtain ⟨v, hv, hvkey⟩ := Image.exists_version hlive hkey
      exact Image.forall_versions (Image.absent_of_offset? hnone) v (hversions ▸ hv) hvkey
    | @published s₃ s₄ old count seq line prepared drafted locked read =>
      obtain ⟨i', hi', hj, -, hversions, hnone, hfound⟩ := hheld.prepared hsmall prepared
      have hlength : i'.bytes.length = i.bytes.length := by
        rcases hi' with rfl | rfl
        · rfl
        · exact i.length_sorted _
      rw [hj.sealed_eq] at locked hsame hnew ⊢
      rw [hj.bytes, hlength] at hsame hnew ⊢
      rw [← locked.data] at drafted
      obtain ⟨hkey, hfits⟩ := WriteRequest.fits_of_requestFault? hreq
      obtain ⟨k, hk, -, hrewrites, line', hlive', hkey', hoffset'⟩ := (hj.of_relocks locked).publishes
        drafted hkey hfits (fun span hsome => by cases locked; exact hfound span hsome) hnone count read
      rw [hversions] at hrewrites
      have hdoes : (Call.write request).Does i.versions k.versions .done := ⟨hreq, rfl, hrewrites⟩
      have hnext : k.offset? request.key = some i.bytes.length := by
        rw [Image.offset?, (hk.formed.toLined.find?_eq_some_iff (hdoes.nodup hdistinct)).2
          ⟨hlive', hkey'⟩, Option.map_some, hoffset', hlength]
      dsimp only
      refine .of_ok ((bind_ok (forM_unlock_eq _ hfault)).trans
        (answer_done_eq _ fun o ho => (hnew o ho).1)) ?_
      rintro _ ⟨⟩
      refine ⟨k, ?_, hk.formed.toLined, ?_⟩
      · exact (((Session.relocks_free _ _).trans (Session.relocks_freeAll _ _)).trans
          (Session.relocks_freeAll _ _)).looks.bytes.trans hk.bytes
      · obtain ⟨hown, hlocks⟩ := hs.moved hsame
        rw [hnext, Session.freeAll_locks, Session.freeAll_locks, Session.freeAll_holder, hown, hlocks]
        exact LockMode.leaves_appended hs.adds i.apart_structural_end fun o => hlined.apart_end

theorem append_delivers (hs : s.Ready i request.key table id)
    (hnamed : i.offset? request.key ≠ none → request.field ≠ none) :
    Delivers (append request (i.offset? request.key)) s table
      (fun _ s' => request.Leaves id i table s') :=
  Brings.of_structural (appendLocked_delivers hdistinct hsmall hreq hs hnamed) (Delivers.wait _)

omit hdistinct hsmall hreq in
/-- **A record that stays where it is** keeps its lock, or gives it up by the mode. -/
theorem finishInPlace_delivers {j : Image} (hbytes : s.file.bytes = j.bytes) (hj : j.Lined) {span : Span}
    (hfault : lockFault? span.offset = none) (hbefore : i.offset? request.key = some span.offset)
    (hafter : j.offset? request.key = some span.offset) (hholder : s.holder = id)
    (hadds : table.Adds s.file.locks id [span.offset])
    (hheld : request.mode.acquires = true ∨ table.holdsExclusive id span.offset = true →
      s.file.locks.holdsExclusive id span.offset = true) :
    Delivers (finishInPlace request span) s table (fun _ s' => request.Leaves id i table s') := by
  refine .of_ok (finishInPlace_eq request s hfault) ?_
  rintro _ ⟨⟩
  refine ⟨j, (s.relocks_freeAll _).looks.bytes.trans hbytes, hj, ?_⟩
  rw [hbefore, hafter, Session.freeAll_locks, hholder]
  exact LockMode.leaves_in_place hadds hheld

/-- **A write to a record that is there.** -/
theorem update_delivers (hs : s.Ready i request.key table id) {line : Line}
    (hfind : i.find? request.key = some line) (hsees : s.handle.Sees line)
    (hheld : request.mode.acquires = true ∨ table.holdsExclusive id line.offset = true →
      s.file.locks.holdsExclusive id line.offset = true) :
    Delivers (update request line.span) s table (fun _ s' => request.Leaves id i table s') := by
  have hlined := hs.follows.formed.toLined
  obtain ⟨hlive, hkey⟩ := (hlined.find?_eq_some_iff hdistinct).1 hfind
  have hl := (List.mem_filter.1 hlive).1
  have hfault : lockFault? line.span.offset = none := Image.lockFault?_of_mem hsmall hl
  have hoffset : i.offset? request.key = some line.offset := by rw [Image.offset?, hfind]; rfl
  have hadds := hs.adds
  rw [hoffset] at hadds
  unfold update
  cases hfield : request.field with
  | none =>
    exact finishInPlace_delivers hs.follows.bytes hlined hfault hoffset hoffset hs.holder hadds hheld
  | some field =>
    have happend := append_delivers hdistinct hsmall hreq hs fun _ => by simp [hfield]
    rw [hoffset] at happend
    obtain ⟨r, hr, hline⟩ := hs.follows.recordAt_eq hl hsees
    refine .bind_of_unrefusing (unrefusing_recordAt _) fun r' s₁ hrecord => ?_
    rw [hr] at hrecord
    obtain ⟨rfl, rfl⟩ := EStateM.Result.ok.inj hrecord
    cases hplace : r.fieldSpan? field.name with
    | none => exact happend
    | some place =>
      dsimp only
      split
      · next hlen =>
        -- the value goes in place, and the record with it stands where it stood
        obtain ⟨j, hj, -, hrewrites, line', hlive', hkey', hoffset'⟩ := hs.follows.patches hlive hline
          ((WriteRequest.fits_of_requestFault? hreq).2 field hfield) hplace hlen
        rw [hkey, ← hfield] at hrewrites
        have hdoes : (Call.write request).Does i.versions j.versions .done := ⟨hreq, rfl, hrewrites⟩
        have hafter : j.offset? request.key = some line.offset := by
          rw [Image.offset?, (hj.formed.toLined.find?_eq_some_iff (hdoes.nodup hdistinct)).2
            ⟨hlive', hkey'.trans hkey⟩, Option.map_some, hoffset']
        have hlocks : (s.write ⟨line.offset + place.offset, field.value⟩).markModified.file.locks =
            s.file.locks := s.write_locks _
        rw [← hlocks] at hadds hheld
        exact .modify_bind (finishInPlace_delivers hj.markModified.bytes hj.formed.toLined hfault hoffset
          hafter hs.holder hadds hheld)
      · exact happend

/-- **A write**, by its mode. -/
theorem write_delivers (hs : s.Follows i)
    (hroom : s.file.locks.blocks s.holder i.bytes.length .exclusive = false) :
    Delivers (write request) s s.file.locks
      (fun _ s' => request.Leaves s.holder i s.file.locks s') := by
  have hready : s.Ready i request.key s.file.locks s.holder :=
    ⟨hs, rfl, (LockTable.Adds.refl _ _).mono (List.nil_subset _), hroom⟩
  have habsent : ∀ s' : Session, s'.Ready i request.key s.file.locks s.holder →
      i.find? request.key = none → Delivers (append request none) s' s.file.locks
        (fun _ s' => request.Leaves s.holder i s.file.locks s') := by
    intro s' h hnone
    have hoffset : i.offset? request.key = none := by rw [Image.offset?, hnone]; rfl
    have happend := append_delivers hdistinct hsmall hreq h fun hsome => absurd hoffset hsome
    rwa [hoffset] at happend
  unfold write
  rw [hreq]
  dsimp only
  split
  · next hacquires =>
    refine .of_locateLocking hs hdistinct hsmall request.key
      (fun s' looks hsame hnone => habsent s' (hready.of_sameLocks looks hsame) hnone)
      (fun line s' looks hsame hfind hsees _ => ?_) fun _ _ => .wait _
    refine update_delivers hdistinct hsmall hreq
      (hready.of_hold (by rw [Image.offset?, hfind]; rfl) looks hsame) hfind hsees fun _ => ?_
    rw [hsame.locks]
    exact LockTable.holdsExclusive_set_self
  · next hacquires =>
    refine .bind_of_sees (onlySees_locate _ _) rfl fun found s' hact hsame => ?_
    have hlocated := locate_cases hs.mapped request.key .ifMissing
    rw [hact] at hlocated
    cases hlocated with
    | located looks fresh =>
      have hready' := hready.of_sameLocks (.withHandle looks) hsame
      cases hspan : (s.withHandle _).found? request.key with
      | none =>
        exact habsent _ hready' (hready'.follows.find?_of_missing hsmall hspan (fresh (Or.inr hspan)))
      | some span =>
        obtain ⟨line, hfind, rfl, hsees⟩ := hs.find?_of_aims hdistinct
          (show s.handle.Awaits i none request.key by rintro waited ⟨⟩) (.withHandle looks)
          (.found hspan)
        refine update_delivers hdistinct hsmall hreq hready' hfind hsees fun hheld => ?_
        rw [hsame.locks]
        exact hheld.resolve_left hacquires

end Writes

/-! ## Other calls -/

section Calls

variable {s s' : Session} {i : Image}

theorem unlock_frees (s : Session) (offset : Nat) : Brings (unlock offset) s
    (fun _ s' => s' = s.free offset) (fun _ s' => s' = s) := by
  cases hfault : lockFault? offset with
  | some fault =>
    refine .of_error (e := .lock fault) ?_ rfl
    unfold unlock
    rw [hfault]
    rfl
  | none => exact .of_ok (unlock_eq s hfault) rfl

/-- What a call leaves locked that began in this session. -/
def Promising (call : Call) (s : Session) (a : Answer) (s' : Session) : Prop :=
  call.Leaves s.holder (liveRecord? s.file.bytes) (liveRecord? s'.file.bytes) s.file.locks s'.file.locks a

theorem Delivers.of_sees {α : Type} {act : SessionM α} (h : OnlySees act) {f : α → Answer} {call : Call}
    (hcall : ∀ (a : Answer) (s' : Session),
      s.file.locks.Adds s'.file.locks s.holder [] → Promising call s a s') :
    Delivers (act >>= fun a => SessionM.answer (f a)) s s.file.locks (Promising call s) :=
  .bind_of_sees h rfl fun a s' _ hsame => .answer (hcall _ _ (by rw [hsame.locks]; exact .refl _ _))

theorem locate_delivers (key : Bytes) (part : Part) : Delivers (read key part false) s s.file.locks
    (Promising (.read key part false) s) := by
  unfold read
  refine .bind_of_sees (onlySees_locate key .ifMissing) rfl fun found s' _ hsame => ?_
  cases found with
  | none => exact .answer (by rw [Promising, hsame.locks]; exact .refl _ _)
  | some span =>
    refine .bind_of_sees (onlySees_recordAt span) hsame.locks fun r s'' _ hsame' => .answer ?_
    rw [Promising, hsame'.locks, hsame.locks]
    exact .refl _ _

/-- **A locking lookup** leaves the record of its key locked. -/
theorem read_delivers (hs : s.Follows i) (hdistinct : (i.versions.map Version.key).Nodup)
    (hsmall : i.bytes.length < UInt32.size) (key : Bytes) (part : Part) :
    Delivers (read key part true) s s.file.locks (Promising (.read key part true) s) := by
  have hlined := hs.formed.toLined
  unfold read
  refine .of_locateLocking hs hdistinct hsmall key (fun s' looks hsame hnone => ?absent)
    (fun line s' looks hsame hfind hsees _ => ?granted) fun _ _ => .wait _
  case absent =>
    refine .answer ?_
    rw [Promising, Call.Leaves, (hs.of_looks looks).1.bytes, hlined.liveRecord?_eq_none key hnone]
    exact ⟨rfl, hsame.locks⟩
  case granted =>
    have hfollows := (hs.of_looks looks).1
    have hlive := List.mem_of_find?_eq_some hfind
    obtain ⟨r, hr, hline⟩ := hfollows.recordAt_eq (List.mem_filter.1 hlive).1 hsees
    have hsome := hlined.liveRecord?_eq_some key hfind hline
    refine .bind_of_unrefusing (unrefusing_recordAt _) fun r' s'' hrecord => .answer ?_
    rw [hr] at hrecord
    obtain ⟨rfl, rfl⟩ := EStateM.Result.ok.inj hrecord
    subst hline
    rw [Promising, Call.Leaves, hfollows.bytes, hsome, hsame.locks]
    exact ⟨rfl, LockTable.holdsExclusive_set_self, (LockTable.Adds.refl _ _).set r.offset .exclusive⟩

/-- **A locking lookup by offset** leaves the record locked that it answers. -/
theorem decodeAt_delivers {offset : Nat} (hfault : lockFault? offset = none)
    (hsame : s'.SameLocks (s.hold offset)) :
    Delivers (decodeAt offset true) s' s.file.locks (Promising (.readAt offset true) s) := by
  have hadds : s.file.locks.Adds s'.file.locks s.holder [offset] := by
    rw [hsame.locks]
    exact (LockTable.Adds.refl _ _).set offset .exclusive
  refine .get_bind ?_
  cases hdec : Record.decode s'.data offset with
  | ok r =>
    refine .answer ⟨(Record.decode_eq_ok_iff.1 hdec).2.1, ?_, hadds⟩
    rw [hsame.locks]
    exact LockTable.holdsExclusive_set_self
  | error e =>
    refine .bind_of_unrefusing (unrefusing_unlock offset) fun _ s'' hunlock => .answer ?_
    obtain ⟨-, rfl⟩ := EStateM.Result.ok.inj ((unlock_eq s' hfault).symm.trans hunlock)
    have hown : s'.holder = s.holder := hsame.holder
    show s.file.locks.Adds (s'.file.locks.clear s'.holder offset) s.holder []
    rw [hown]
    exact hadds.clear_of_subset (List.Subset.refl _)

theorem readMapped_delivers (offset : Nat) (keepLock : Bool) (hsame : s'.SameLocks s) :
    Delivers (readMapped offset keepLock) s' s.file.locks (Promising (.readAt offset keepLock) s) := by
  have hnothing : Promising (.readAt offset keepLock) s (.record none) s' := by
    cases keepLock <;> (rw [Promising, hsame.locks]; exact .refl _ _)
  unfold readMapped
  refine .get_bind ?_
  dsimp only
  split
  · exact .answer hnothing
  · split
    · next hkeep =>
      subst hkeep
      exact Brings.of_acquireRecord (fun hfault => decodeAt_delivers hfault (hsame.hold offset))
        (Delivers.wait _) fun _ _ => hsame.locks
    · next hkeep =>
      rw [Bool.not_eq_true] at hkeep
      subst hkeep
      refine .get_bind ?_
      cases Record.decode s'.data offset with
      | ok r => exact .answer (by rw [Promising, hsame.locks]; exact .refl _ _)
      | error e => exact .answer hnothing

theorem readAt_delivers (offset : Nat) (keepLock : Bool) : Delivers (readAt offset keepLock) s
    s.file.locks (Promising (.readAt offset keepLock) s) := by
  rw [readAt_eq]
  refine .get_bind ?_
  split
  · exact .bind_of_sees onlySees_refresh rfl fun _ s' _ hsame => readMapped_delivers offset keepLock hsame
  · exact readMapped_delivers offset keepLock (.refl s)

/-- **A delete** leaves nothing locked of the record that it found. -/
theorem delete_delivers (hs : s.Follows i) (hdistinct : (i.versions.map Version.key).Nodup)
    (hsmall : i.bytes.length < UInt32.size) (key : Bytes) :
    Delivers (locateLocking key .ifMissing >>= deleteLocked key) s s.file.locks
      (Promising (.delete key) s) := by
  have hlined := hs.formed.toLined
  refine .of_locateLocking hs hdistinct hsmall key (fun s' looks hsame hnone => ?absent)
    (fun line s' looks hsame hfind _ lockable => ?granted) fun _ _ => .wait _
  case absent =>
    refine .answer ?_
    rw [Promising, Call.Leaves, (hs.of_looks looks).1.bytes, hs.bytes,
      hlined.liveRecord?_eq_none key hnone, hsame.locks]
    exact ⟨rfl, .refl _ _, by rintro r ⟨⟩⟩
  case granted =>
    obtain ⟨hlive, rfl⟩ := (hlined.find?_eq_some_iff hdistinct).1 hfind
    obtain ⟨j, hj, -, hdrops⟩ := (hs.of_looks looks).1.kills hlive
    have hgone : liveRecord? j.bytes (keyOf line.text) = none :=
      hj.formed.toLined.liveRecord?_eq_none _ (hdrops.find?_eq_none hdistinct)
    refine .modify_bind (.bind_of_unrefusing (unrefusing_unlock _) fun _ s'' hunlock => .modify_bind
      (.answer ?_))
    obtain ⟨-, rfl⟩ := EStateM.Result.ok.inj ((unlock_eq _ lockable).symm.trans hunlock)
    have hlocks : ((s'.write ⟨line.span.offset, [deadFlag]⟩).forget.free
        line.span.offset).markModified.file.locks =
          (s.file.locks.set s.holder line.offset .exclusive).clear s.holder line.offset := by
      show (s'.write _).file.locks.clear s'.holder line.span.offset = _
      rw [s'.write_locks, hsame.locks, show s'.holder = s.holder from hsame.holder]
      rfl
    rw [Promising, Call.Leaves, hlocks]
    refine ⟨(congrArg (liveRecord? · _) hj.bytes).trans hgone,
      ((LockTable.Adds.refl _ _).set line.offset .exclusive).clear_of_subset (List.Subset.refl _),
      fun r hr => ?_⟩
    have hoffset := hlined.liveRecord?_offset (keyOf line.text)
    rw [← hs.bytes, hr, Image.offset?, hfind, Option.map_some, Option.map_some,
      Option.some.injEq] at hoffset
    rw [hoffset]
    exact LockTable.lacks_clear _ _ _

theorem unrefusing_resort : Unrefusing resort :=
  unrefusing_refresh.bind fun _ => .modify_bind (unrefusing_pure _)

theorem resort_sameLocks (s : Session) :
    Brings resort s (fun _ s' => s'.SameLocks s) (fun _ s' => s'.SameLocks s) :=
  onlySees_refresh.sameLocks.bind fun _ _ h => .of_ok rfl ((h.writeAll _).withHandle _)

theorem resort_delivers : Delivers (do
    if ← tryLock structuralOffset .exclusive then resortLocked else wait .resorting : SessionM Progress) s
    s.file.locks (Promising .resort s) := by
  refine Brings.of_structural (Delivers.bind_unlockingStructure unrefusing_resort
    (fun _ s' hact => .answer ?_) fun e s' hnot => .throw fun h => absurd h hnot) (Delivers.wait _)
  have hsame := (resort_sameLocks (s.hold structuralOffset)).ok hact
  show s.file.locks.Adds (s'.file.locks.clear s'.holder structuralOffset) s.holder []
  rw [hsame.locks, show s'.holder = s.holder from hsame.holder]
  exact ((LockTable.Adds.refl _ _).set structuralOffset .exclusive).clear_of_subset
    (List.Subset.refl _)

end Calls

end SessionM

open SessionM in
/-- **Every call from its beginning.** -/
theorem Call.start_delivers {s : Session} {i : Image} (hs : s.Follows i)
    (hdistinct : (i.versions.map Version.key).Nodup) (hsmall : i.bytes.length < UInt32.size) (call : Call)
    (hroom : ∀ request, call = .write request →
      s.file.locks.blocks s.holder i.bytes.length .exclusive = false) :
    Delivers call.start s s.file.locks (Promising call s) := by
  cases call with
  | read key part keepLock =>
    cases keepLock with
    | true => exact read_delivers hs hdistinct hsmall key part
    | false => exact locate_delivers key part
  | readAt offset keepLock => exact readAt_delivers offset keepLock
  | records =>
    refine .bind_of_sees onlySees_refresh rfl fun _ s' _ hsame => .get_bind (.answer ?_)
    rw [Promising, hsame.locks]
    exact .refl _ _
  | appendSeq => exact .of_sees (onlySees_counter _) fun _ _ => id
  | sinceSort => exact .of_sees (onlySees_counter _) fun _ _ => id
  | refresh => exact .of_sees onlySees_refresh fun _ _ => id
  | lock offset =>
    exact Brings.of_acquireRecord (fun _ => Delivers.answer
        ⟨LockTable.holdsExclusive_set_self, (LockTable.Adds.refl _ _).set offset .exclusive⟩)
      (Delivers.wait _) fun _ _ => rfl
  | unlock offset =>
    refine .bind_of_unrefusing (unrefusing_unlock offset) fun _ s' hunlock => .answer ?_
    obtain rfl := (unlock_frees s offset).ok hunlock
    exact (LockTable.Adds.refl _ _).clear_of_subset (List.nil_subset _)
  | write request =>
    cases hreq : requestFault? request with
    | some fault =>
      show Delivers (SessionM.write request) _ _ _
      unfold SessionM.write
      rw [hreq]
      exact .throw fun _ => rfl
    | none =>
      refine (write_delivers hdistinct hsmall hreq hs (hroom request rfl)).mono ?_
      rintro a s' ⟨j, hbytes, hj, hleaves⟩
      rw [Promising, Call.Leaves, hbytes, hs.bytes, hs.formed.toLined.liveRecord?_offset,
        hj.liveRecord?_offset]
      exact hleaves
  | delete key => exact delete_delivers hs hdistinct hsmall key
  | resort => exact resort_delivers

/-! ## Stores -/

/-- The outcome of a call is told by how its stretch ended. -/
theorem Store.settleCall_promises {store : Store} {turn : Turn} {handle : Handle} {call : Call}
    (h : SessionM.Delivers (call.stretch none) (store.session turn.now turn.holder handle)
      store.file.locks (SessionM.Promising call (store.session turn.now turn.holder handle))) :
    call.Promises turn.holder (liveRecord? store.file.bytes)
      (liveRecord? (store.settleCall turn.holder (call.stretch none
        (store.session turn.now turn.holder handle))).1.file.bytes) store.file.locks
      (store.settleCall turn.holder (call.stretch none
        (store.session turn.now turn.holder handle))).1.file.locks
      (store.settleCall turn.holder (call.stretch none
        (store.session turn.now turn.holder handle))).2 := by
  cases hact : call.stretch none (store.session turn.now turn.holder handle) with
  | ok progress s' =>
    cases progress with
    | answered a => exact SessionM.Brings.ok h hact a rfl
    | waiting stage => trivial
  | error e s' => exact SessionM.Brings.error h hact

namespace Store

variable {store : Store} {turn : Turn}

theorem Made.run (h : store.Made) {turns : List Turn} (hsmall : store.Small turns) :
    (store.run turns).1.Made := by
  induction turns generalizing store with
  | nil => exact h
  | cons turn more ih => exact ih (h.served hsmall.1 turn) hsmall.2

/-- **Calls leave the locks that they promise.**  A call of an idle client that goes through at once
leaves of the record of its key, and of the one that it replaced, exactly the locks that its kind and its
mode call for, and if it is refused it leaves all locks as they were; and after every turn, whoever has
the file open holds no more of the structural lock than it was told to lock. -/
theorem promised_locks {bytes : Bytes} {mtime : Int} {turns : List Turn}
    (hmade : (Store.ofBytes bytes mtime).Made)
    (hsmall : (Store.ofBytes bytes mtime).Small (turns ++ [turn]))
    (hstore : ((Store.ofBytes bytes mtime).run turns).1 = store) :
    (∀ handle call, store.Runs turn handle call none →
      (∀ request, call = .write request →
        store.file.locks.blocks turn.holder store.file.bytes.length .exclusive = false) →
      call.Promises turn.holder (liveRecord? store.file.bytes)
        (liveRecord? (store.serve turn).1.file.bytes) store.file.locks
        (store.serve turn).1.file.locks (store.serve turn).2) ∧
    ∀ id, (store.serve turn).1.Present id → ∀ lock ∈ (store.serve turn).1.file.locks.held,
      lock.holder = id → LockTable.covers structuralOffset lock.byte = true →
        ∃ offset, Told (turns ++ [turn]) id offset ∧ LockTable.covers offset lock.byte = true := by
  obtain ⟨hturns, hturn⟩ := hsmall.of_append
  rw [hstore] at hturn
  have hlicensed := (Licensed.ofBytes bytes mtime).run hmade (Steady.ofBytes bytes mtime) hturns
  have hsteady := ((Steady.ofBytes bytes mtime).run turns).2
  have hstoreMade := hmade.run hturns
  rw [hstore] at hlicensed hsteady hstoreMade
  obtain ⟨i, htracks, hdistinct⟩ := hstoreMade.tracks
  refine ⟨fun handle call hruns hroom => ?_, fun id hpresent lock hlock hholder hcovers =>
    (hlicensed.serve hsteady htracks hturn.1 turn).told_of_structural hpresent hlock hholder hcovers⟩
  obtain ⟨hbytes, htracked⟩ : store.file.bytes = i.bytes ∧ handle.Tracks i :=
    htracks.clients _ _ hruns.client
  have hfollows : (store.session turn.now turn.holder handle).Follows i :=
    ⟨hbytes, htracked, htracks.formed⟩
  rw [hruns.serve]
  refine settleCall_promises (Call.start_delivers hfollows hdistinct ?_ call fun request hcall => ?_)
  · rw [← hbytes]
    exact hturn.1
  · rw [← hbytes]
    exact hroom request hcall

/-- The key `k` gets a value for the field `f`. -/
def valued (value : List Char) (mode : LockMode) : Call :=
  .write ⟨ascii ['k'], some ⟨ascii ['f'], ascii value⟩, mode⟩

/-- A client opens an absent file and writes a record. -/
def first (mode : LockMode) : List Turn :=
  [⟨100, 1, .opening (.ofPath Config.defaultPath)⟩, ⟨100, 1, .call (valued ['1'] mode)⟩]

/-- The store then. -/
def afterFirst (mode : LockMode) : Store := ((Store.ofBytes [] 100).run (first mode)).1

/-- What its client remembers. -/
def firstHandle : Handle := ⟨.ofPath Config.defaultPath, Header.length, 0, ⟨35, 0⟩, none, true⟩

/-- The client writes a longer value, and says that it holds the lock. -/
def longer : Turn := ⟨100, 1, .call (valued ['2', '2'] .keep)⟩

/-- It does hold the lock, which goes to the new line. -/
theorem promised_locks_of_longer_value :
    (valued ['2', '2'] .keep).Promises 1 (liveRecord? (afterFirst .take).file.bytes)
      (liveRecord? ((afterFirst .take).serve longer).1.file.bytes) (afterFirst .take).file.locks
      ((afterFirst .take).serve longer).1.file.locks ((afterFirst .take).serve longer).2 ∧
    ((afterFirst .take).serve longer).2 = .answered .done ∧
    (afterFirst .take).file.locks.holdsExclusive 1 35 = true ∧
    ((afterFirst .take).serve longer).1.file.locks.holdsExclusive 1 56 = true := by
  have hclient : (afterFirst .take).client? 1 = some (.idle firstHandle) := by decide +kernel
  have hruns : (afterFirst .take).Runs longer firstHandle (valued ['2', '2'] .keep) none :=
    ⟨by simp only [longer, running?, hclient], hclient, by rintro stage ⟨⟩,
      by simp only [longer, journal, hclient]; rfl⟩
  have hroom : (afterFirst .take).file.locks.blocks 1 (afterFirst .take).file.bytes.length .exclusive =
      false := by decide +kernel
  have hsmall : (Store.ofBytes [] 100).Small (first .take ++ [longer]) := by decide +kernel
  have hpromised := promised_locks (.created 100) hsmall (rfl : _ = afterFirst .take)
  exact ⟨hpromised.1 _ _ hruns fun _ _ => hroom, by decide +kernel, by decide +kernel, by decide +kernel⟩

/-- A locking read that answers nothing may add a lock all the same: the record is there, and lacks the
field. -/
theorem locked_read_of_absent_field :
    ((afterFirst .transient).serve
      ⟨100, 1, .call (.read (ascii ['k']) (.field (ascii ['g'])) true)⟩).2 = .answered (.bytes none) ∧
    (afterFirst .transient).file.locks.holdsExclusive 1 35 = false ∧
    ((afterFirst .transient).serve ⟨100, 1, .call (.read (ascii ['k']) (.field (ascii ['g']))
      true)⟩).1.file.locks.holdsExclusive 1 35 = true := by
  refine ⟨?_, ?_, ?_⟩ <;> decide +kernel

end Store

end RecordStore
