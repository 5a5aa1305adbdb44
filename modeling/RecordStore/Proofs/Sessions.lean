import Mathlib.Logic.Relation
import Mathlib.Tactic.Common
import RecordStore.Call.Run
import RecordStore.Proofs.Lookups

/-!
# Sessions on any file

Whatever a file holds, a lookup changes no byte of it.  A session that only looks takes and gives up
locks, maps the file again and remembers what it found; everything else it leaves as it was.

* `Handle.Look`, `Handle.Looks` — one look at the file, and any number of them.
* `Session.Looks` — what a session without a write comes to; `SessionM.OnlyLooks` — a computation
  of which this is all.
* `Session.Mapped` — the handle sees the header, and nothing behind the end of the file.
* `Session.Fresh`, `Session.Broken` — the append sequence is the one last seen; it cannot be read.
* `Session.Aims` — where a stretch believes the live record of a key.

Principal results: `locate_cases` — a lookup on any file; `locateLocking_looked`, `recheck_looked` —
the same under the lock of the record.
-/

set_option autoImplicit false

namespace RecordStore

/-! ## Looking at a file -/

/-- A handle looks at the file: it maps it again and notes the append sequence, if that has changed;
it remembers where it found a key, or it forgets that. -/
inductive Handle.Look (bytes : Bytes) : Handle → Handle → Prop where
  | remap {h : Handle} {seq : UInt32}
    (read : Header.counterAt? (h.view.read bytes) Header.appendSeqAt = some seq)
    (changed : seq ≠ h.seenSeq) :
    Look bytes h { h with seenSeq := seq, view := h.view.remap bytes, cache := none }
  | remember {h : Handle} {key : Bytes} {span : Span}
    (found : h.find? (h.view.read bytes) key = some span) :
    Look bytes h { h with cache := some ⟨h.view.generation, span⟩ }
  | forget {h : Handle} : Look bytes h { h with cache := none }

/-- Any number of looks. -/
def Handle.Looks (bytes : Bytes) : Handle → Handle → Prop := Relation.ReflTransGen (Handle.Look bytes)

namespace Handle

theorem Look.frame {bytes : Bytes} {h h' : Handle} (hl : Look bytes h h') :
    h'.config = h.config ∧ h'.headLen = h.headLen ∧ h'.modified = h.modified := by
  cases hl <;> exact ⟨rfl, rfl, rfl⟩

theorem Looks.refl {bytes : Bytes} (h : Handle) : h.Looks bytes h := Relation.ReflTransGen.refl

theorem Looks.trans {bytes : Bytes} {h h' h'' : Handle} (hab : h.Looks bytes h')
    (hbc : h'.Looks bytes h'') : h.Looks bytes h'' := Relation.ReflTransGen.trans hab hbc

theorem Look.looks {bytes : Bytes} {h h' : Handle} (hl : Look bytes h h') : h.Looks bytes h' :=
  Relation.ReflTransGen.single hl

/-- What holds of a handle and survives one look survives any number of them. -/
theorem Looks.preserves {bytes : Bytes} {p : Handle → Prop}
    (hstep : ∀ h h', Look bytes h h' → p h → p h') {h h' : Handle} (hl : h.Looks bytes h')
    (hp : p h) : p h' := by
  induction hl with
  | refl => exact hp
  | tail _ hlast ih => exact hstep _ _ hlast ih

theorem Looks.frame {bytes : Bytes} {h h' : Handle} (hl : h.Looks bytes h') :
    h'.config = h.config ∧ h'.headLen = h.headLen ∧ h'.modified = h.modified := by
  refine hl.preserves (p := fun h' => h'.config = h.config ∧ h'.headLen = h.headLen ∧
    h'.modified = h.modified) ?_ ⟨rfl, rfl, rfl⟩
  intro a b hab ⟨hconfig, hheadLen, hmodified⟩
  obtain ⟨h1, h2, h3⟩ := hab.frame
  exact ⟨h1.trans hconfig, h2.trans hheadLen, h3.trans hmodified⟩

/-- The handle sees the header line, and nothing behind the end of the file. -/
structure Mapped (h : Handle) (bytes : Bytes) : Prop where
  headLen : h.headLen = Header.length
  sees : Header.length ≤ h.view.length
  inside : h.view.length ≤ bytes.length

theorem Mapped.looks {bytes : Bytes} {h h' : Handle} (hm : h.Mapped bytes)
    (hl : h.Looks bytes h') : h'.Mapped bytes := by
  refine hl.preserves (p := fun h => h.Mapped bytes) ?_ hm
  intro a b hab hm
  cases hab with
  | remap => exact ⟨hm.headLen, Nat.le_trans hm.sees hm.inside, Nat.le_refl _⟩
  | remember => exact ⟨hm.headLen, hm.sees, hm.inside⟩
  | forget => exact ⟨hm.headLen, hm.sees, hm.inside⟩

/-- A counter read through a mapping is the counter of the file. -/
theorem Mapped.counterAt? {bytes : Bytes} {h : Handle} (hm : h.Mapped bytes) (c : Header.Counter) :
    Header.counterAt? (h.view.read bytes) c.offset = Header.counterAt? bytes c.offset := by
  have hc : c.offset + Hex.wordLen ≤ Header.length := by cases c <;> decide
  have hview := hm.sees
  have hlen := hm.inside
  have hread : (h.view.read bytes).length = h.view.length := by
    rw [View.read, List.length_take, Nat.min_eq_left hlen]
  unfold Header.counterAt?
  rw [if_pos (by omega), if_pos (by omega), View.read, List.drop_take, List.take_take,
    Nat.min_eq_left (by omega)]

/-- What was found and is remembered is found again. -/
theorem find?_remember {h : Handle} {data key : Bytes} {span : Span}
    (hf : h.find? data key = some span) :
    ({ h with cache := some ⟨h.view.generation, span⟩ } : Handle).find? data key = some span := by
  have hcached : ({ h with cache := some ⟨h.view.generation, span⟩ } : Handle).cached? data key =
      if span.offset + span.length ≤ data.length ∧ (span.read data).head? = some liveFlag ∧
        keyOf (span.read data) = key then some span else none := by
    simp only [cached?, Option.bind_some, true_and]
  rw [find?_eq_or, Option.or_eq_some_iff] at hf
  rw [find?_eq_or, hcached]
  rcases hf with hold | ⟨-, hlookup⟩
  · -- the old entry held the same span, which was checked then
    obtain ⟨entry, -, hcheck⟩ := Option.bind_eq_some_iff.1 hold
    dsimp only at hcheck
    split at hcheck
    · next hok =>
      obtain rfl := Option.some.inj hcheck
      rw [if_pos hok.2, Option.some_or]
    · cases hcheck
  · split
    · rw [Option.some_or]
    · rw [Option.none_or]
      exact hlookup

/-- What a handle finds starts inside what it sees. -/
theorem offset_le_of_find? {h : Handle} {data key : Bytes} {span : Span}
    (hf : h.find? data key = some span) : span.offset ≤ data.length := by
  rw [find?_eq_or, Option.or_eq_some_iff, Option.or_eq_some_iff] at hf
  rcases hf with hcached | ⟨-, hsearch | ⟨-, htail⟩⟩
  · obtain ⟨entry, -, hcheck⟩ := Option.bind_eq_some_iff.1 hcached
    dsimp only at hcheck
    split at hcheck
    · next hok =>
      obtain rfl := Option.some.inj hcheck
      exact Nat.le_trans (Nat.le_add_right ..) hok.2.1
    · cases hcheck
  · exact Nat.le_of_lt (Index.offset_lt_of_search hsearch)
  · exact Index.offset_le_of_scanBack htail

end Handle

namespace Session

/-- The session with what its handle remembers and the locks replaced. -/
def seen (s : Session) (h : Handle) (locks : LockTable) : Session :=
  { s with handle := h, file := { s.file with locks } }

/-- Nothing happened but looks at the file, and locks taken or given up. -/
inductive Looks (s : Session) : Session → Prop where
  | mk {h : Handle} {locks : LockTable} (handle : s.handle.Looks s.file.bytes h) :
    Looks s (s.seen h locks)

/-- Nothing happened but locks taken or given up. -/
inductive Relocks (s : Session) : Session → Prop where
  | mk (locks : LockTable) : Relocks s (s.seen s.handle locks)

theorem Relocks.refl (s : Session) : s.Relocks s := .mk s.file.locks

theorem Relocks.trans {s s' s'' : Session} (hab : s.Relocks s') (hbc : s'.Relocks s'') :
    s.Relocks s'' := by
  cases hab
  cases hbc with
  | mk locks => exact .mk locks

theorem Relocks.looks {s s' : Session} (h : s.Relocks s') : s.Looks s' := by
  cases h
  exact .mk (.refl _)

theorem Looks.refl (s : Session) : s.Looks s := (Relocks.refl s).looks

theorem Looks.trans {s s' s'' : Session} (hab : s.Looks s') (hbc : s'.Looks s'') : s.Looks s'' := by
  cases hab with
  | mk ha =>
    cases hbc with
    | mk hb => exact .mk (ha.trans hb)

theorem Looks.withHandle {s : Session} {h : Handle} (hl : s.handle.Looks s.file.bytes h) :
    s.Looks (s.withHandle h) := .mk hl

theorem Looks.bytes {s s' : Session} (h : s.Looks s') : s'.file.bytes = s.file.bytes := by
  cases h
  rfl

theorem Looks.journal {s s' : Session} (h : s.Looks s') : s'.journal = s.journal := by
  cases h
  rfl

theorem Looks.handle {s s' : Session} (h : s.Looks s') : s.handle.Looks s.file.bytes s'.handle := by
  cases h with
  | mk hl => exact hl

theorem Looks.config {s s' : Session} (h : s.Looks s') : s'.handle.config = s.handle.config :=
  h.handle.frame.1

/-- The session's handle sees the header line, and nothing behind the end of the file. -/
abbrev Mapped (s : Session) : Prop := s.handle.Mapped s.file.bytes

theorem Mapped.of_looks {s s' : Session} (hm : s.Mapped) (h : s.Looks s') : s'.Mapped := by
  have := Handle.Mapped.looks hm h.handle
  unfold Mapped
  rwa [h.bytes]

/-- The append sequence of the file is the one that the handle last looked at. -/
def Fresh (s : Session) : Prop :=
  Header.counterAt? s.file.bytes Header.appendSeqAt = some s.handle.seenSeq

/-- The append sequence of the file cannot be read. -/
def Broken (s : Session) : Prop := Header.counterAt? s.file.bytes Header.appendSeqAt = none

theorem Fresh.not_broken {s : Session} (h : s.Fresh) : ¬ s.Broken := fun hb => by
  rw [Fresh, show Header.counterAt? _ _ = none from hb] at h
  cases h

theorem Looks.broken {s s' : Session} (h : s.Looks s') : s'.Broken ↔ s.Broken := by
  rw [Broken, Broken, h.bytes]

/-- Where the session finds a key. -/
def found? (s : Session) (key : Bytes) : Option Span := s.handle.find? s.data key

theorem Relocks.found? {s s' : Session} (h : s.Relocks s') (key : Bytes) :
    s'.found? key = s.found? key := by
  cases h
  rfl

theorem Relocks.data {s s' : Session} (h : s.Relocks s') : s'.data = s.data := by
  cases h
  rfl

/-- What a stretch believes the place of the live record of `key`: it has just found it there, or
it waited for the lock of the record there, which is still live. -/
inductive Aims (s : Session) (waited : Option Span) (key : Bytes) (span : Span) : Prop where
  | found (found : s.found? key = some span)
  | waited (waited : waited = some span) (live : s.data[span.offset]? = some liveFlag)

theorem Aims.relocks {s s' : Session} {waited : Option Span} {key : Bytes} {span : Span}
    (ha : s.Aims waited key span) (h : s.Relocks s') : s'.Aims waited key span := by
  cases h
  cases ha with
  | found hf => exact .found hf
  | waited hw hl => exact .waited hw hl

/-- The stretch goes by what it finds at once, without comparing the append sequence: the key is
found, and a record waited for is still live. -/
structure Trusts (s : Session) (waited : Option Span) (key : Bytes) : Prop where
  found : s.found? key ≠ none
  live : ∀ span, waited = some span → s.data[span.offset]? = some liveFlag

end Session

namespace SessionM

variable {s s' : Session}

/-! ## Computations that only look -/

/-- The session in which a computation ends. -/
def final {α : Type} (act : SessionM α) (s : Session) : Session :=
  match act s with
  | .ok _ s' | .error _ s' => s'

theorem final_ok {α : Type} {act : SessionM α} {a : α} (h : act s = .ok a s') : final act s = s' := by
  rw [final, h]

theorem final_error {α : Type} {act : SessionM α} {e : Error} (h : act s = .error e s') :
    final act s = s' := by
  rw [final, h]

/-- A computation that writes nothing. -/
def OnlyLooks {α : Type} (act : SessionM α) : Prop := ∀ s : Session, s.Looks (final act s)

/-- A computation that touches nothing but locks. -/
def OnlyRelocks {α : Type} (act : SessionM α) : Prop := ∀ s : Session, s.Relocks (final act s)

section Sequences

variable {α β : Type} {act : SessionM α} {next : α → SessionM β}

/-- A sequence ends where its first part fails, or where its second part ends. -/
theorem final_bind {p : Session → Session → Prop}
    (htrans : ∀ {a b c : Session}, p a b → p b c → p a c) (h : ∀ s, p s (final act s))
    (hnext : ∀ a s, p s (final (next a) s)) (s : Session) : p s (final (act >>= next) s) := by
  have hfirst := h s
  cases hact : act s with
  | ok a s' =>
    rw [final_ok hact] at hfirst
    have hrest := hnext a s'
    rw [final, bind_ok hact]
    exact htrans hfirst hrest
  | error e s' =>
    rw [final_error hact] at hfirst
    rw [final, bind_error hact]
    exact hfirst

theorem OnlyRelocks.bind (h : OnlyRelocks act) (hnext : ∀ a, OnlyRelocks (next a)) :
    OnlyRelocks (act >>= next) :=
  final_bind Session.Relocks.trans h hnext

theorem OnlyRelocks.onlyLooks (h : OnlyRelocks act) : OnlyLooks act := fun s => (h s).looks

theorem OnlyLooks.bind (h : OnlyLooks act) (hnext : ∀ a, OnlyLooks (next a)) :
    OnlyLooks (act >>= next) :=
  final_bind Session.Looks.trans h hnext

theorem OnlyLooks.get_bind {next : Session → SessionM β}
    (h : ∀ s : Session, s.Looks (final (next s) s)) : OnlyLooks (get >>= next) := fun s => h s

/-- A computation that looks at the session first. -/
theorem OnlyRelocks.get_bind {next : Session → SessionM β}
    (h : ∀ s : Session, s.Relocks (final (next s) s)) : OnlyRelocks (get >>= next) := fun s => h s

theorem onlyRelocks_throw (e : Error) : OnlyRelocks (throw e : SessionM α) := fun s => .refl s

end Sequences

theorem onlyRelocks_tryLock (offset : Nat) (kind : LockKind) : OnlyRelocks (tryLock offset kind) := by
  unfold tryLock
  cases lockFault? offset with
  | some fault => exact onlyRelocks_throw _
  | none =>
    refine .get_bind fun s => ?_
    unfold SharedFile.acquire?
    cases s.file.locks.acquire? s.holder offset kind with
    | none => exact .refl s
    | some locks => exact .mk locks

theorem onlyRelocks_unlock (offset : Nat) : OnlyRelocks (unlock offset) := by
  unfold unlock
  cases lockFault? offset with
  | some fault => exact onlyRelocks_throw _
  | none => exact fun s => .mk _

theorem onlyRelocks_acquireRecord (offset : Nat) : OnlyRelocks (acquireRecord offset) := by
  unfold acquireRecord
  refine (onlyRelocks_tryLock offset .exclusive).bind fun granted => .get_bind fun s => ?_
  split
  · exact .refl s
  · exact .refl s

theorem onlyRelocks_forM_unlock (held : Option Nat) :
    OnlyRelocks (held.forM unlock : SessionM PUnit) := by
  cases held with
  | none => exact Session.Relocks.refl
  | some offset => exact onlyRelocks_unlock offset

theorem onlyRelocks_finishInPlace (request : WriteRequest) (span : Span) :
    OnlyRelocks (finishInPlace request span) := by
  unfold finishInPlace
  split
  · exact (onlyRelocks_unlock span.offset).bind fun _ => Session.Relocks.refl
  · exact Session.Relocks.refl

/-! ## Lookups -/

theorem counter_eq_match (s : Session) (offset : Nat) : counter offset s =
    match Header.counterAt? s.data offset with
    | some v => .ok v s
    | none => .error .invalidHeader s := by
  unfold counter
  rw [SessionM.get_bind]
  cases Header.counterAt? s.data offset <;> rfl

/-- A counter that the file shows is read. -/
theorem counter_ok (hs : s.Mapped) (c : Header.Counter) {v : UInt32}
    (h : Header.counterAt? s.file.bytes c.offset = some v) : counter c.offset s = .ok v s := by
  have hdata : Header.counterAt? s.data c.offset = some v := (hs.counterAt? c).trans h
  rw [counter_eq_match, hdata]

/-- A counter that the file does not show is the end of a computation. -/
theorem counter_error (hs : s.Mapped) (c : Header.Counter)
    (h : Header.counterAt? s.file.bytes c.offset = none) :
    counter c.offset s = .error .invalidHeader s := by
  have hdata : Header.counterAt? s.data c.offset = none := (hs.counterAt? c).trans h
  rw [counter_eq_match, hdata]

/-- A refresh brings the handle up to date, unless the append sequence cannot be read. -/
theorem refresh_cases (hs : s.Mapped) : (s.Broken ∧ refresh s = .error .invalidHeader s) ∨
    ∃ changed h, refresh s = .ok changed (s.withHandle h) ∧ s.handle.Looks s.file.bytes h ∧
      (s.withHandle h).Fresh := by
  cases hseq : Header.counterAt? s.file.bytes Header.appendSeqAt with
  | none =>
    left
    exact ⟨hseq, bind_error (counter_error hs .appendSeq hseq)⟩
  | some seq =>
    right
    have hread : Header.counterAt? (s.handle.view.read s.file.bytes) Header.appendSeqAt = some seq :=
      (hs.counterAt? .appendSeq).trans hseq
    unfold refresh
    rw [bind_ok (show SessionM.appendSeq s = _ from counter_ok hs .appendSeq hseq), SessionM.get_bind]
    by_cases hsame : seq = s.handle.seenSeq
    · rw [if_pos hsame]
      exact ⟨false, s.handle, rfl, .refl _, hseq.trans (congrArg some hsame)⟩
    · rw [if_neg hsame, modify_bind]
      exact ⟨true, _, rfl, (Handle.Look.remap hread hsame).looks, hseq⟩

theorem onlyLooks_refresh : OnlyLooks refresh := by
  intro s
  have hread : SessionM.appendSeq s = _ := counter_eq_match s Header.appendSeqAt
  cases hseq : Header.counterAt? s.data Header.appendSeqAt with
  | none =>
    rw [hseq] at hread
    have hrefresh : refresh s = .error .invalidHeader s := bind_error hread
    rw [final_error hrefresh]
    exact .refl s
  | some seq =>
    rw [hseq] at hread
    unfold final refresh
    rw [bind_ok hread, SessionM.get_bind]
    by_cases hsame : seq = s.handle.seenSeq
    · rw [if_pos hsame]
      exact .refl s
    · rw [if_neg hsame, modify_bind]
      exact .mk (Handle.Look.remap hseq hsame).looks

/-- Looking a key up in the current mapping remembers where it was found. -/
theorem find_cases (s : Session) (key : Bytes) : ∃ h, find key s = .ok (s.found? key) (s.withHandle h) ∧
    s.handle.Looks s.file.bytes h ∧ (s.withHandle h).found? key = s.found? key ∧
      ((s.withHandle h).Fresh ↔ s.Fresh) := by
  unfold find
  rw [SessionM.get_bind]
  cases hf : s.handle.find? s.data key with
  | none => exact ⟨s.handle, by rw [Session.found?, hf]; rfl, .refl _, rfl, Iff.rfl⟩
  | some span =>
    refine ⟨(s.remember span).handle, by rw [Session.found?, hf]; rfl,
      (Handle.Look.remember hf).looks, ?_, Iff.rfl⟩
    exact (Handle.find?_remember hf).trans hf.symm

theorem onlyLooks_find (key : Bytes) : OnlyLooks (find key) := by
  intro s
  obtain ⟨h, heq, hlook, -⟩ := find_cases s key
  rw [final_ok heq]
  exact .withHandle hlook

theorem onlyLooks_locate (key : Bytes) (freshness : Freshness) : OnlyLooks (locate key freshness) := by
  refine .get_bind fun s => ?_
  dsimp only
  split
  · exact (onlyLooks_refresh.bind fun _ => onlyLooks_find key) s
  · exact onlyLooks_find key s

/-- How a lookup ends: it may need the append sequence and not be able to read it. -/
inductive Located (s : Session) (key : Bytes) (freshness : Freshness) :
    EStateM.Result Error Session (Option Span) → Prop where
  | unreadable (broken : s.Broken) (asked : freshness = .always ∨ s.found? key = none) :
    Located s key freshness (.error .invalidHeader s)
  | located {h : Handle} (looks : s.handle.Looks s.file.bytes h)
    (fresh : freshness = .always ∨ (s.withHandle h).found? key = none → (s.withHandle h).Fresh)
    (trusted : s.Broken → s.found? key ≠ none ∧ (s.withHandle h).found? key ≠ none) :
    Located s key freshness (.ok ((s.withHandle h).found? key) (s.withHandle h))

/-- **A lookup on any file** finds what the handle finds, once it has mapped the file again where
this was asked for or the key was missed. -/
theorem locate_cases (hs : s.Mapped) (key : Bytes) (freshness : Freshness) :
    Located s key freshness (locate key freshness s) := by
  unfold locate
  rw [SessionM.get_bind]
  dsimp only
  by_cases hask : (freshness == .always || !(s.handle.find? s.data key).isSome) = true
  · have hasked : freshness = .always ∨ s.found? key = none := by
      rw [Bool.or_eq_true] at hask
      rcases hask with hask | hask
      · exact Or.inl (by simpa using hask)
      · exact Or.inr (by simpa [Session.found?] using hask)
    rw [if_pos hask]
    rcases refresh_cases hs with ⟨hbroken, hr⟩ | ⟨changed, h, hr, hlook, hfresh⟩
    · rw [bind_error hr]
      exact .unreadable hbroken hasked
    · obtain ⟨h', heq, hlook', hfound, hfresh'⟩ := find_cases (s.withHandle h) key
      rw [bind_ok hr, heq, ← hfound]
      refine .located (hlook.trans hlook') (fun _ => hfresh'.2 hfresh) fun hb => ?_
      exact absurd hb hfresh.not_broken
  · rw [if_neg hask]
    rw [Bool.not_eq_true, Bool.or_eq_false_iff] at hask
    have hsome : s.found? key ≠ none := by
      intro hnone
      have hmiss := hask.2
      rw [show s.handle.find? s.data key = none from hnone] at hmiss
      cases hmiss
    obtain ⟨h, heq, hlook, hfound, -⟩ := find_cases s key
    rw [heq, ← hfound]
    refine .located hlook (fun hwhy => ?_) (fun _ => ⟨hsome, hfound ▸ hsome⟩)
    rcases hwhy with rfl | hnone
    · cases hask.1
    · exact absurd (hfound ▸ hnone) hsome

/-! ## Lookups under a lock -/

/-- A lookup by offset in what is mapped. -/
def readMapped (offset : Nat) (keepLock : Bool) : SessionM Progress := do
  let h := (← get).handle
  if offset < h.headLen || h.view.length ≤ offset then answer (.record none)
  else if keepLock then
    if ← acquireRecord offset then decodeAt offset true else wait (.readingAt offset)
  else decodeAt offset false

/-- A lookup by offset maps the file anew if the offset is behind what is mapped. -/
theorem readAt_eq (offset : Nat) (keepLock : Bool) : readAt offset keepLock = get >>= fun s =>
    if s.handle.view.length ≤ offset then refresh >>= fun _ => readMapped offset keepLock
    else readMapped offset keepLock := by
  funext s
  rw [readAt, get_bind, get_bind]
  split <;> rfl

/-- How a lookup under the lock of the record ends, at the start of a call or after a wait for that
lock. -/
inductive Looked (s : Session) (waited : Option Span) (key : Bytes) :
    EStateM.Result Error Session Locked → Prop where
  | failed {s' : Session} {e : Error} (looks : s.Looks s')
    (blamed : e = .invalidHeader → s.Broken ∧ ¬ s.Trusts waited key) :
    Looked s waited key (.error e s')
  | absent {s' : Session} (looks : s.Looks s') (missing : s'.found? key = none) (fresh : s'.Fresh) :
    Looked s waited key (.ok .absent s')
  | granted {s' : Session} {span : Span} (looks : s.Looks s') (aims : s'.Aims waited key span)
    (lockable : lockFault? span.offset = none)
    (trusted : s.Broken → (s'.found? key ≠ none ↔ s.Trusts waited key)) :
    Looked s waited key (.ok (.granted span) s')
  | busy {s' : Session} {span : Span} (looks : s.Looks s') (found : s'.found? key = some span) :
    Looked s waited key (.ok (.busy span) s')

/-- The lock of a record is granted, refused or has to be waited for; only a refusal for what stands
in the file would be a broken header. -/
theorem acquireRecord_relocks (s : Session) (offset : Nat) :
    (∃ granted s', acquireRecord offset s = .ok granted s' ∧ s.Relocks s' ∧
      lockFault? offset = none) ∨
    ∃ e s', acquireRecord offset s = .error e s' ∧ s.Relocks s' ∧ e ≠ .invalidHeader := by
  cases hf : lockFault? offset with
  | some fault =>
    right
    refine ⟨.lock fault, s, ?_, .refl s, by simp⟩
    unfold acquireRecord
    refine bind_error ?_
    unfold tryLock
    rw [hf]
    rfl
  | none =>
    rcases acquireRecord_cases s hf with ⟨-, h⟩ | ⟨-, -, h⟩ | ⟨-, -, h⟩
    · exact Or.inl ⟨true, _, h, .mk _, rfl⟩
    · exact Or.inr ⟨_, s, h, .refl s, by simp⟩
    · exact Or.inl ⟨false, s, h, .refl s, rfl⟩

/-- What follows a lookup that locks. -/
theorem locateLocking_of_located {waited : Option Span} {key : Bytes} {freshness : Freshness}
    {s₁ : Session} (hlooks : s.Looks s₁) (hs : s₁.Mapped)
    (hblamed : s₁.Broken → freshness = .always ∨ s₁.found? key = none → ¬ s.Trusts waited key)
    (htrusted : s₁.Broken → freshness = .ifMissing → s₁.found? key ≠ none → s.Trusts waited key) :
    Looked s waited key (locateLocking key freshness s₁) := by
  unfold locateLocking
  have hloc := locate_cases hs key freshness
  generalize hres : locate key freshness s₁ = result at hloc
  cases hloc with
  | unreadable broken asked =>
    rw [bind_error hres]
    exact .failed hlooks fun _ => ⟨hlooks.broken.1 broken, hblamed broken asked⟩
  | @located h looks fresh trusted =>
    rw [bind_ok hres]
    have hlooks' : s.Looks (s₁.withHandle h) := hlooks.trans (.withHandle looks)
    cases hfound : (s₁.withHandle h).found? key with
    | none => exact .absent hlooks' hfound (fresh (Or.inr hfound))
    | some span =>
      dsimp only
      rcases acquireRecord_relocks (s₁.withHandle h) span.offset with
        ⟨granted, s₂, hacq, hrel, hlock⟩ | ⟨e, s₂, hacq, hrel, hne⟩
      · have hfound₂ : s₂.found? key = some span := (hrel.found? key).trans hfound
        rw [bind_ok hacq]
        cases granted with
        | true =>
          refine .granted (hlooks'.trans hrel.looks) (.found hfound₂) hlock fun hb => ?_
          rw [hfound₂]
          refine ⟨fun _ => ?_, fun _ => by simp⟩
          have hb₁ := hlooks.broken.2 hb
          refine htrusted hb₁ ?_ (trusted hb₁).1
          cases freshness with
          | ifMissing => rfl
          | always => exact absurd hb₁ (fresh (Or.inl rfl)).not_broken
        | false => exact .busy (hlooks'.trans hrel.looks) hfound₂
      · rw [bind_error hacq]
        exact .failed (hlooks'.trans hrel.looks) fun he => absurd he hne

theorem onlyLooks_locateLocking (key : Bytes) (freshness : Freshness) :
    OnlyLooks (locateLocking key freshness) := by
  refine (onlyLooks_locate key freshness).bind ?_
  rintro (_ | span)
  · exact Session.Looks.refl
  · refine (onlyRelocks_acquireRecord span.offset).onlyLooks.bind fun granted => ?_
    cases granted <;> exact Session.Looks.refl

theorem onlyLooks_recheck (key : Bytes) (span : Span) : OnlyLooks (recheck key span) := by
  refine .get_bind fun s => ?_
  split
  · exact .refl s
  · refine ((onlyRelocks_unlock span.offset).onlyLooks.bind fun _ => ?_) s
    intro s'
    exact Session.Looks.trans (.mk Handle.Look.forget.looks)
      (onlyLooks_locateLocking key .always s'.forget)

/-- **A lookup that locks**, at the start of a call. -/
theorem locateLocking_looked (hs : s.Mapped) (key : Bytes) :
    Looked s none key (locateLocking key .ifMissing s) := by
  refine locateLocking_of_located (.refl s) hs ?_ ?_
  · rintro - (hask | hnone) htrust
    · cases hask
    · exact htrust.found hnone
  · intro _ _ hfound
    exact ⟨hfound, by simp⟩

/-- **A lock granted after a wait** holds for a record that is still live; else the key is looked up
anew. -/
theorem recheck_looked (hs : s.Mapped) (key : Bytes) {span : Span}
    (hlock : lockFault? span.offset = none) : Looked s (some span) key (recheck key span s) := by
  unfold recheck
  rw [SessionM.get_bind]
  by_cases hlive : s.data[span.offset]? = some liveFlag
  · rw [if_pos hlive]
    refine .granted (.refl s) (.waited rfl hlive) hlock fun _ => ⟨fun hf => ⟨hf, ?_⟩, (·.found)⟩
    rintro _ ⟨⟩
    exact hlive
  · rw [if_neg hlive, bind_ok (unlock_eq s hlock), modify_bind]
    have hlooks : s.Looks (s.free span.offset).forget := .mk Handle.Look.forget.looks
    refine locateLocking_of_located hlooks (hs.of_looks hlooks) ?_ ?_
    · rintro - - htrust
      exact hlive (htrust.live span rfl)
    · intro _ hask _
      cases hask

end SessionM

end RecordStore
