import Mathlib.Tactic.Common
import RecordStore.Proofs.Made
import RecordStore.Proofs.Resorting

/-!
# Calls of a client that is alone

Where nobody else has locked anything, no call has to wait and no lock is refused.  What a handle
remembers goes with its file, so that nothing else stands in the way either: a lookup, a transient
write that can be written, and a delete come to an answer.

* `Session.Alone` — a session that goes with its file, while nobody else has locked anything.
* `SessionM.Answers` — a computation that comes to an answer.
* `Call.Simple` — lookups that lock nothing, transient writes, deletes.

Principal results: `SessionM.appendRecord_follows`, `SessionM.write_alone`; `Call.start_alone` — every
simple call; `Call.Does.serves` — what it does to the map and what it answers.
-/

set_option autoImplicit false

namespace RecordStore

/-- The session goes with its file, which is short enough for slots, and nobody else has locked
anything. -/
structure Session.Alone (s : Session) (i : Image) : Prop extends s.Follows i where
  small : i.bytes.length < UInt32.size
  others : s.file.locks.others s.holder = []

/-- A lookup that locks nothing, a transient write, or a delete. -/
def Call.Simple : Call → Prop
  | .read _ _ keepLock => keepLock = false
  | .write request => request.mode = .transient
  | .delete _ => True
  | _ => False

namespace Session.Alone

variable {s : Session} {i : Image}

theorem withHandle (h : s.Alone i) {handle : Handle} (looks : s.handle.Looks s.file.bytes handle) :
    (s.withHandle handle).Alone i :=
  ⟨(h.of_looks (.withHandle looks)).1, h.small, h.others⟩

theorem hold (h : s.Alone i) (offset : Nat) : (s.hold offset).Alone i :=
  ⟨h.of_relocks (.mk _), h.small, LockTable.others_set.trans h.others⟩

end Session.Alone

namespace SessionM

/-- The computation comes to an answer. -/
def Answers (act : SessionM Progress) (s : Session) : Prop := ∃ a s', act s = .ok (.answered a) s'

variable {s : Session} {i : Image} {key : Bytes} {request : WriteRequest}

theorem Answers.of_bind {α : Type} {act : SessionM α} {next : α → SessionM Progress} {a : α}
    {s' : Session} (hact : act s = .ok a s') (h : Answers (next a) s') : Answers (act >>= next) s := by
  unfold Answers
  rw [bind_ok hact]
  exact h

/-! ## Steps -/

theorem tryLock_alone (hs : s.Alone i) {offset : Nat} (hfault : lockFault? offset = none) :
    tryLock offset .exclusive s = .ok true (s.hold offset) := by
  rw [tryLock_eq s hfault, if_neg (by rw [LockTable.not_blocks_of_others hs.others]; decide)]

theorem acquireRecord_alone (hs : s.Alone i) {offset : Nat} (hfault : lockFault? offset = none) :
    acquireRecord offset s = .ok true (s.hold offset) := by
  unfold acquireRecord
  rw [bind_ok (tryLock_alone hs hfault)]
  rfl

theorem lockFault?_of_live (hs : s.Alone i) {line : Line} (hlive : line ∈ i.live) :
    lockFault? line.span.offset = none :=
  Image.lockFault?_of_mem hs.small (List.mem_filter.1 hlive).1

/-! ## Appending -/

/-- The line of an append can be made. -/
theorem lineToAppend_follows (hs : s.Follows i) {old : Option Span}
    (hold : ∀ span, old = some span → ∃ l ∈ i.live, keyOf l.text = key ∧ l.span = span ∧
      s.handle.Sees l) (field : Option Field) : ∃ line, lineToAppend key field old s = .ok line s := by
  cases old with
  | none => exact ⟨_, rfl⟩
  | some span =>
    cases field with
    | none => exact ⟨none, rfl⟩
    | some field =>
      obtain ⟨l, hlive, -, rfl, hsees⟩ := hold span rfl
      obtain ⟨r, hr, -⟩ := hs.recordAt_eq (List.mem_filter.1 hlive).1 hsees
      exact ⟨some (r.withField field), bind_ok hr⟩

/-- **An append succeeds** on a file that the handle goes with. -/
theorem appendRecord_follows (hs : s.Follows i) (hsmall : i.bytes.length < UInt32.size) (key : Bytes)
    (field : Option Field) : ∃ appended s', appendRecord key field s = .ok appended s' ∧
      ∀ offset, appended = some offset → lockFault? offset = none := by
  have hread := hs.counterAt? .sinceSort
  generalize Header.Counter.read i.header .sinceSort = count at hread
  obtain ⟨handle, hlocate, looks, fresh⟩ :=
    hs.locate_eq key (if s.handle.config.resortLimit < count then .always else .ifMissing)
  obtain ⟨s₂, hs₂, hprepared⟩ := Prepared.of_located hread looks
    fun hwhy => fresh (hwhy.imp_left fun ho => by rw [if_pos ho])
  obtain ⟨j, hj, hfollows, -, -, -, hfound⟩ := hs.prepared hsmall hprepared
  have hlength : j.bytes.length = i.bytes.length := by
    rcases hj with rfl | rfl
    · rfl
    · exact i.length_sorted _
  obtain ⟨line, hline⟩ := lineToAppend_follows hfollows hfound field
  unfold appendRecord
  rw [bind_ok (show sinceSort s = _ from counter_ok hs.mapped .sinceSort hread), get_bind]
  dsimp only
  rw [bind_ok hlocate, ite_modify_bind, ← hs₂, bind_ok hline]
  cases line with
  | none => exact ⟨none, s₂, rfl, by simp⟩
  | some text =>
    have hfault : lockFault? s₂.file.bytes.length = none := by
      refine lockFault?_of_lt ?_
      rw [hfollows.bytes, hlength]
      exact hsmall
    obtain ⟨granted, htry⟩ := tryLock_tryHold s₂ hfault
    have hheld : (s₂.tryHold s₂.file.bytes.length).Follows j := hfollows.of_relocks (.mk _)
    have hsealed := sealTail_sealed s₂
    rw [hfollows.sealed_eq] at hsealed
    dsimp only
    rw [bind_ok hsealed, bind_ok htry]
    obtain ⟨s', hcommit⟩ : ∃ s', commitLine s₂.file.bytes.length text
        (if s.handle.config.resortLimit < count then 0 else count) ((s.withHandle handle).found? key)
        (s₂.tryHold s₂.file.bytes.length) = .ok () s' := by
      rcases commitLine_cases hheld.mapped text _ _ with ⟨hbroken, -⟩ | ⟨seq, -, hcommit⟩
      · exact absurd hbroken hheld.not_broken
      · exact ⟨_, hcommit⟩
    rw [bind_ok (attempt_ok hcommit)]
    refine ⟨_, _, rfl, ?_⟩
    rintro offset ⟨⟩
    exact hfault

theorem append_alone (hs : s.Alone i) {held : Option Nat}
    (hheld : ∀ offset, held = some offset → lockFault? offset = none) :
    Answers (append request held) s := by
  have hlocked := hs.hold structuralOffset
  obtain ⟨appended, s', happend, hnew⟩ :=
    appendRecord_follows hlocked.toFollows hs.small request.key request.field
  unfold append
  refine .of_bind (tryLock_alone hs structural_lockFault?) ?_
  show Answers (appendLocked request held) _
  unfold appendLocked
  refine .of_bind (unlockingStructure_ok happend) ?_
  refine .of_bind (forM_unlock_eq _ hheld) ?_
  exact ⟨_, _, answer_done_eq _ hnew⟩

/-! ## Writing, reading and deleting -/

/-- A lookup that locks finds no key, or its record. -/
theorem locateLocking_alone (hs : s.Alone i) (key : Bytes) :
    (∃ s', locateLocking key .ifMissing s = .ok .absent s' ∧ s'.Alone i) ∨
      ∃ line s', locateLocking key .ifMissing s = .ok (.granted line.span) s' ∧ s'.Alone i ∧
        line ∈ i.live ∧ s'.handle.Sees line := by
  obtain ⟨handle, hlocate, looks, -⟩ := hs.toFollows.locate_eq key .ifMissing
  have halone := hs.withHandle looks
  unfold locateLocking
  rw [bind_ok hlocate]
  cases hfound : (s.withHandle handle).found? key with
  | none => exact Or.inl ⟨_, rfl, halone⟩
  | some span =>
    obtain ⟨line, hlive, -, rfl, hsees⟩ := halone.found hfound
    dsimp only
    rw [bind_ok (acquireRecord_alone halone (lockFault?_of_live halone hlive))]
    exact Or.inr ⟨line, _, rfl, halone.hold _, hlive, hsees⟩

theorem update_alone (hs : s.Alone i) {line : Line} (hlive : line ∈ i.live)
    (hsees : s.handle.Sees line) : Answers (update request line.span) s := by
  have hfault := lockFault?_of_live hs hlive
  have hfinish : ∀ s' : Session, Answers (finishInPlace request line.span) s' := fun s' =>
    ⟨_, _, finishInPlace_eq request s' hfault⟩
  have happend : Answers (append request (some line.span.offset)) s :=
    append_alone hs (by rintro offset ⟨⟩; exact hfault)
  unfold update
  cases request.field with
  | none => exact hfinish s
  | some field =>
    obtain ⟨r, hr, -⟩ := hs.toFollows.recordAt_eq (List.mem_filter.1 hlive).1 hsees
    refine .of_bind hr ?_
    cases r.fieldSpan? field.name with
    | none => exact happend
    | some place =>
      dsimp only
      split
      · exact hfinish _
      · exact happend

/-- **A transient write that can be written.** -/
theorem write_alone (hs : s.Alone i) (hmode : request.mode = .transient)
    (hreq : requestFault? request = none) : Answers (write request) s := by
  have hacquires : request.mode.acquires = true := by rw [hmode]; rfl
  unfold write
  rw [hreq]
  dsimp only
  rw [if_pos hacquires]
  rcases locateLocking_alone hs request.key with ⟨s', hlocate, halone⟩ |
    ⟨line, s', hlocate, halone, hlive, hsees⟩
  · exact .of_bind hlocate (append_alone halone (by simp))
  · exact .of_bind hlocate (update_alone halone hlive hsees)

theorem delete_alone (hs : s.Alone i) (key : Bytes) : Answers (Call.delete key).start s := by
  show Answers (locateLocking key .ifMissing >>= deleteLocked key) s
  rcases locateLocking_alone hs key with ⟨s', hlocate, -⟩ | ⟨line, s', hlocate, halone, hlive, -⟩
  · exact .of_bind hlocate ⟨_, _, rfl⟩
  · refine .of_bind hlocate ?_
    show Answers (modify _ >>= fun _ => unlock line.span.offset >>= _) s'
    refine .of_bind rfl (.of_bind (unlock_eq _ (lockFault?_of_live halone hlive)) ⟨_, _, rfl⟩)

theorem read_alone (hs : s.Alone i) (key : Bytes) (part : Part) : Answers (read key part false) s := by
  obtain ⟨s', -, ⟨r, -, -, hread⟩ | ⟨-, hread⟩⟩ := hs.toFollows.read_cases key part
  · exact ⟨_, s', hread⟩
  · exact ⟨_, s', hread⟩

end SessionM

/-- **A simple call of a client that is alone** comes to an answer, unless it is a write that cannot be
written. -/
theorem Call.start_alone {s : Session} {i : Image} (hs : s.Alone i) {call : Call}
    (hsimple : call.Simple) : SessionM.Answers call.start s ∨ ∃ request fault, call = .write request ∧
      SessionM.requestFault? request = some fault ∧
      call.start s = .error (.invalidData fault) s := by
  cases call with
  | read key part keepLock =>
    obtain rfl : keepLock = false := hsimple
    exact Or.inl (SessionM.read_alone hs key part)
  | write request =>
    cases hreq : SessionM.requestFault? request with
    | none => exact Or.inl (SessionM.write_alone hs hsimple hreq)
    | some fault => exact Or.inr ⟨request, fault, rfl, hreq, SessionM.write_of_fault hreq s⟩
  | delete key => exact Or.inl (SessionM.delete_alone hs key)
  | readAt | records | appendSeq | sinceSort | refresh | lock | unlock | resort => exact hsimple.elim

/-! ## Under distinct keys the live records are a map -/

section Maps

variable {key : Bytes} {before after : List Version}

theorem ofVersions_eq_none (absent : ∀ v ∈ before, v.key ≠ key) :
    Contents.ofVersions before key = none := by
  rw [Contents.ofVersions, List.find?_eq_none.2 (by simpa using absent)]
  rfl

variable (hdistinct : (before.map Version.key).Nodup)

include hdistinct

/-- Around a record no other one has its key. -/
theorem forall_key_ne_of_split {front back : List Version} {v : Version}
    (split : before = front ++ v :: back) : ∀ w ∈ front ++ back, w.key ≠ v.key := by
  rw [split, List.map_append, List.map_cons, List.nodup_middle, List.nodup_cons, ← List.map_append]
    at hdistinct
  exact fun w hw hkey => hdistinct.1 (List.mem_map.2 ⟨w, hw, hkey⟩)

/-- Without a record, its key is gone. -/
theorem ofVersions_erase {front back : List Version} {v : Version}
    (split : before = front ++ v :: back) :
    Contents.ofVersions (front ++ back) = (Contents.ofVersions before).delete v.key := by
  have hother := forall_key_ne_of_split hdistinct split
  rw [split]
  funext k
  by_cases hk : k = v.key
  · rw [hk, Contents.delete_self, Contents.ofVersions, List.find?_eq_none.2 (by simpa using hother)]
    rfl
  · rw [Contents.delete_of_ne hk, Contents.ofVersions_append_cons_of_ne (Ne.symm hk)]

theorem ofVersions_split {front back : List Version} {v : Version}
    (split : before = front ++ v :: back) : Contents.ofVersions before v.key = some v.fields := by
  rw [split]
  exact Contents.ofVersions_append_cons_self fun w hw =>
    forall_key_ne_of_split hdistinct split w (List.mem_append_left _ hw)

/-- **A write sets its field**, of a key that is there or is created. -/
theorem Rewrites.contents {field : Option Field} (h : Rewrites key field before after) :
    Contents.ofVersions after = (Contents.ofVersions before).write key field := by
  cases h with
  | kept present fieldless =>
    obtain ⟨v, hv, hkey⟩ := present
    have hsome := (Contents.ofVersions_eq_some_iff hdistinct).2 ⟨v, hv, hkey, rfl⟩
    simp only [Contents.write, hsome, fieldless]
  | created absent offset =>
    rw [Contents.ofVersions_concat absent]
    simp only [Contents.write, ofVersions_eq_none absent]
  | @patched front back v f named split own =>
    subst named own
    have hother := forall_key_ne_of_split hdistinct split
    have hset : Contents.ofVersions (front ++ ⟨v.offset, v.key, setField v.fields f⟩ :: back) =
        (Contents.ofVersions (front ++ v :: back)).set v.key (setField v.fields f) :=
      Contents.ofVersions_exchange rfl fun w hw => hother w (List.mem_append_left _ hw)
    simp only [Contents.write, ofVersions_split hdistinct split]
    rw [hset, ← split]
  | @moved front back v f named split own offset =>
    subst named own
    have hother := forall_key_ne_of_split hdistinct split
    have hset := Contents.ofVersions_concat (v := ⟨offset, v.key, setField v.fields f⟩) hother
    simp only [Contents.write, ofVersions_split hdistinct split]
    rw [hset, ofVersions_erase hdistinct split, Contents.set_delete]

/-- **A delete drops its key**, and tells whether it was there. -/
theorem Drops.contents {flag : Bool} (h : Drops key before flag after) :
    Contents.ofVersions after = (Contents.ofVersions before).delete key ∧
      flag = (Contents.ofVersions before key).isSome := by
  cases h with
  | missed absent =>
    have hnone := ofVersions_eq_none absent
    exact ⟨(Contents.delete_of_eq_none hnone).symm, by rw [hnone]; rfl⟩
  | @killed front back v split own =>
    subst own
    exact ⟨ofVersions_erase hdistinct split, by rw [ofVersions_split hdistinct split]; rfl⟩

/-- **A lookup tells** what the map holds. -/
theorem Part.Tells.answers {part : Part} {a : Answer} (h : part.Tells key before a) :
    part.Answers key (Contents.ofVersions before key) a := by
  rcases h with ⟨absent, rfl⟩ | ⟨v, hv, hkey, hanswers⟩
  · rw [ofVersions_eq_none absent]
    rfl
  · rwa [(Contents.ofVersions_eq_some_iff hdistinct).2 ⟨v, hv, hkey, rfl⟩]

/-- **What a simple call does to the live records** it does to the map, and what it answers the map
says. -/
theorem Call.Does.serves {call : Call} (hsimple : call.Simple) {a : Answer}
    (h : call.Does before after a) : call.Answers (Contents.ofVersions before) a ∧
      Contents.ofVersions after = (Contents.ofVersions before).after call := by
  cases call with
  | read key part keepLock =>
    obtain ⟨rfl, htells⟩ := h
    exact ⟨htells.answers hdistinct, rfl⟩
  | write request =>
    obtain ⟨hreq, rfl, hrewrites⟩ := h
    exact ⟨⟨hreq, rfl⟩, hrewrites.contents hdistinct⟩
  | delete key =>
    obtain ⟨flag, rfl, hdrops⟩ := h
    obtain ⟨hafter, rfl⟩ := hdrops.contents hdistinct
    exact ⟨rfl, hafter⟩
  | readAt | records | appendSeq | sinceSort | refresh | lock | unlock | resort => exact hsimple.elim

end Maps

end RecordStore
