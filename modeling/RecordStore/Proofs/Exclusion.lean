import Mathlib.Tactic.Common
import RecordStore.Proofs.Runs

/-!
# What a held record lock keeps off

A client gets the lock of a key's record from a write that is told to take it or from a lookup that
locks, and keeps it until it gives it up.  Meanwhile no call of another client changes the record,
with one exception: a write that found the key absent or unlocked, and then waited to append, no
longer looks at record locks when it goes on.

* `Store.versions` — the live records that the file writes down.
* `Store.Owns` — a client has the lock of the live record of a key.
* `Store.Gains`, `Store.GivesUp`, `Store.Feigns` — turns that get a lock, that give it up, and that
  pretend to have it.
* `Store.Overtakes`, `Store.Crowds`, `Store.Slips` — turns that get past a lock or end without it.
* `Store.Guarded` — the lock holds, and keeps others off, in a whole run.

Principal results: `Stands.other_turn`, `Stands.own_turn`, `Stands.gaining_turn` — one turn;
`Stands.guarded_iff`, `Store.lock_guards_iff` — whole runs.
-/

set_option autoImplicit false

namespace RecordStore

/-- The version that a record shows. -/
def Record.version (r : Record) : Version := ⟨r.offset, r.key, r.fields⟩

theorem Record.version_eq (r : Record) : r.version = Version.of r.toLine := by
  rw [Record.version, r.fields_eq]
  rfl

/-- The live records of a file show its versions. -/
theorem Image.Lined.map_version_liveRecordsFrom {i : Image} (h : i.Lined) :
    (liveRecordsFrom Header.length i.bytes).map Record.version = i.versions := by
  rw [Image.versions, ← h.map_toLine_liveRecordsFrom, List.map_map]
  exact List.map_congr_left fun r _ => r.version_eq

namespace Store

/-- The live records that the file writes down. -/
def versions (store : Store) : List Version :=
  (liveRecordsFrom Header.length store.file.bytes).map Record.version

/-- Client `id` has the exclusive lock of the live record of `key`. -/
def Owns (store : Store) (id : HolderId) (key : Bytes) : Prop :=
  ∃ v ∈ store.versions, v.key = key ∧ store.file.locks.holdsExclusive id v.offset = true

/-! ## Turns and calls -/

/-- The call that a client starts or goes on with in a turn. -/
def running? (store : Store) (turn : Turn) : Option Call :=
  match turn.request, store.client? turn.holder with
  | .call call, some (.idle _) => some call
  | .resume, some (.busy _ stage) => some stage.call
  | _, _ => none

/-- The call gets its answer in this turn. -/
def Finishes (store : Store) (turn : Turn) (call : Call) : Prop :=
  store.running? turn = some call ∧ ∃ answer, (store.serve turn).2 = .answered answer

/-- A write that is told to take the lock of `key`, or a lookup of its live record that locks. -/
def Gains (store : Store) (key : Bytes) (turn : Turn) : Prop :=
  (∃ field, store.Finishes turn (.write ⟨key, field, .take⟩)) ∨
    ∃ v ∈ store.versions, v.key = key ∧
      ((∃ part, store.Finishes turn (.read key part true)) ∨
        store.Finishes turn (.readAt v.offset true))

/-- The client gives up the lock of `key`, by closing or by a call. -/
def GivesUp (store : Store) (key : Bytes) (turn : Turn) : Prop :=
  turn.request = .close ∨ ∃ call, store.Finishes turn call ∧
    ∃ v ∈ store.versions, v.key = key ∧ call.GivesUp v

/-- A write of `key` by a client that says it has the lock already. -/
def Feigns (store : Store) (key : Bytes) (turn : Turn) : Prop :=
  ∃ request, store.Finishes turn (.write request) ∧ request.key = key ∧
    request.mode.acquires = false

/-- A write of a field of `key` that has waited to append, and goes on to. -/
def Overtakes (store : Store) (key : Bytes) (turn : Turn) : Prop :=
  ∃ handle request held, store.client? turn.holder = some (.busy handle (.appending request held)) ∧
    request.key = key ∧ request.field ≠ none ∧ store.Finishes turn (.write request)

/-- The client puts a new version of `key` where another one has locked the end of the file. -/
def Crowds (store : Store) (key : Bytes) (turn : Turn) : Prop :=
  store.file.locks.blocks turn.holder store.file.bytes.length .exclusive = true ∧
    ∃ v ∈ (store.serve turn).1.versions, v.key = key ∧ v.offset = store.file.bytes.length

/-- A write without a field that has waited to append, since the key was absent, and now finds it
there, not locked by its own client. -/
def Slips (store : Store) (key : Bytes) (turn : Turn) : Prop :=
  (∃ handle held,
    store.client? turn.holder = some (.busy handle (.appending ⟨key, none, .take⟩ held))) ∧
    (∃ v ∈ store.versions, v.key = key) ∧ ¬ store.Owns turn.holder key

/-- A client that has the store open. -/
def Present (store : Store) (id : HolderId) : Prop :=
  ∃ handle, store.client? id = some (.idle handle) ∨
    ∃ stage, store.client? id = some (.busy handle stage)

variable {store : Store} {i j : Image} {id : HolderId} {key : Bytes}

theorem Stands.versions_eq (h : store.Stands i) : store.versions = i.versions := by
  unfold versions
  rcases h.shows with hsame | ⟨hempty, rfl⟩
  · rw [hsame, h.sound.formed.map_version_liveRecordsFrom]
  · rw [hempty]
    rfl

/-- A key has one version at most. -/
theorem Stands.eq_of_key (h : store.Stands i) {v w : Version} (hv : v ∈ store.versions)
    (hw : w ∈ store.versions) (hkey : v.key = w.key) : v = w := by
  rw [h.versions_eq] at hv hw
  exact RecordStore.eq_of_key_eq h.sound.distinct hv hw hkey

/-- Versions lie inside the file. -/
theorem Stands.version_lt (h : store.Stands i) {v : Version} (hv : v ∈ store.versions) :
    v.offset < store.file.bytes.length := by
  have hlen : 0 < lockLen := by decide
  rw [h.versions_eq] at hv
  rcases h.shows with hsame | ⟨-, rfl⟩
  · have hend := (h.sound.version_bounds hv).2
    rw [hsame]
    omega
  · cases hv

/-! ## One turn -/

section OneTurn

variable {store : Store} {i j : Image} {id : HolderId} {key : Bytes} {now : Nat} {handle : Handle}
  {call : Call} {heeds : Prop} {result : EStateM.Result Error Session Progress}

/-- What a session owns is what its client does. -/
theorem Stands.owns_iff (h : store.Stands i) {s : Session} (hfile : s.file = store.file)
    (hholder : s.holder = id) : s.Owns i key ↔ store.Owns id key := by
  unfold Session.Owns Owns
  rw [h.versions_eq, hfile, hholder]

/-- The versions after a call that has its answer. -/
theorem Stands.versions_answered (h : store.Stands i) {s : Session} (hon : s.On j)
    (hij : i.Extends j) (id : HolderId) (answer : Answer) :
    (store.settleCall id (.ok (.answered answer) s)).1.versions = j.versions :=
  Stands.versions_eq (h.settle_idle hon hij)

/-- A client that ran a call has the store open still. -/
theorem present_settleCall (store : Store) (id : HolderId)
    (result : EStateM.Result Error Session Progress) :
    (store.settleCall id result).1.Present id := by
  unfold Store.settleCall
  split
  · exact ⟨_, Or.inl (store.client?_update_self id _ _)⟩
  · exact ⟨_, Or.inr ⟨_, store.client?_update_self id _ _⟩⟩
  · exact ⟨_, Or.inl (store.client?_update_self id _ _)⟩

/-- A stretch that does not end a call, looks at record locks or is about another key spares the
record that another client has locked. -/
theorem Stands.spared_of_stretch (h : store.Stands i)
    (hstretch : Stretch (store.session now id handle) i call heeds result) {v : Version}
    (hv : v ∈ store.versions) (hb : store.file.locks.blocks id v.offset .exclusive = true)
    (hspares : heeds ∨ call.target? ≠ some v.key ∨
      ∀ answer, (store.settleCall id result).2 ≠ .answered answer) :
    v ∈ (store.settleCall id result).1.versions := by
  rw [h.versions_eq] at hv
  cases hstretch with
  | @answered s' j answer gained on extends_ contents answers framed spared =>
    rw [h.versions_answered on extends_]
    rcases hspares with hheeds | htarget | hnot
    · exact spared hheeds v hv hb
    · exact (framed v htarget).2 hv
    · exact absurd rfl (hnot answer)
  | @waiting s' stage gained on fits =>
    show v ∈ (store.update id s'.file (.busy s'.handle stage)).versions
    rw [(h.settle_busy on fits).versions_eq]
    exact hv
  | @failed s' error on =>
    show v ∈ (store.update id s'.file (.idle s'.handle)).versions
    rw [(h.settle_idle on (.refl i)).versions_eq]
    exact hv

/-- A call that gets its answer gets the lock that it secures, unless the end of the file is
locked. -/
theorem Stands.owns_or_crowds_of_secures (h : store.Stands i)
    (hon : (store.session now id handle).On i)
    (hstretch : Stretch (store.session now id handle) i call heeds result) {answer : Answer}
    (hanswered : (store.settleCall id result).2 = .answered answer)
    (hsecures : call.Secures (store.session now id handle) i heeds key) :
    (store.settleCall id result).1.Owns id key ∨
      store.file.locks.blocks id store.file.bytes.length .exclusive = true ∧
        ∃ v ∈ (store.settleCall id result).1.versions, v.key = key ∧
          v.offset = store.file.bytes.length := by
  have hlength : store.file.bytes.length = i.bytes.length := congrArg List.length hon.bytes
  cases hstretch with
  | @answered s' j answer' gained on extends_ contents answers framed spared acts keeps secures =>
    have hstands : (store.update id s'.file (.idle s'.handle)).Stands j := h.settle_idle on extends_
    rcases secures key hsecures with howns | ⟨hb, hnew⟩
    · exact Or.inl ((hstands.owns_iff rfl acts.holder).1 howns)
    · right
      show _ ∧ ∃ v ∈ (store.update id s'.file (.idle s'.handle)).versions, _
      rw [hstands.versions_eq, hlength]
      exact ⟨hb, hnew⟩
  | waiting => cases hanswered
  | failed => cases hanswered

/-- **A call that gives nothing up** keeps the lock, unless the end of the file is locked. -/
theorem Stands.owns_or_crowds_of_stretch (h : store.Stands i)
    (hon : (store.session now id handle).On i)
    (hstretch : Stretch (store.session now id handle) i call heeds result)
    (howns : store.Owns id key) (hkeep : ∀ answer, (store.settleCall id result).2 = .answered answer →
      ∀ v ∈ store.versions, v.key = key → ¬ call.GivesUp v) :
    (store.settleCall id result).1.Owns id key ∨
      store.file.locks.blocks id store.file.bytes.length .exclusive = true ∧
        ∃ v ∈ (store.settleCall id result).1.versions, v.key = key ∧
          v.offset = store.file.bytes.length := by
  have howns' : (store.session now id handle).Owns i key := (h.owns_iff rfl rfl).2 howns
  have hstretch' := hstretch
  cases hstretch with
  | @answered s' j answer gained on extends_ contents answers framed spared acts keeps secures =>
    have hkeep' := hkeep answer rfl
    rw [h.versions_eq] at hkeep'
    obtain ⟨v, hv, hvkey, hheld⟩ := howns'
    by_cases htarget : call.target? = some key
    · refine h.owns_or_crowds_of_secures hon hstretch' rfl ?_
      cases call with
      | write request =>
        obtain rfl : request.key = key := Option.some.inj htarget
        refine ⟨rfl, ?_, Or.inl ⟨v, hv, hvkey, hheld⟩⟩
        rw [← Bool.not_eq_true]
        exact fun hreleases => hkeep' v hv hvkey ⟨hvkey.symm, hreleases⟩
      | delete key' =>
        obtain rfl : key' = key := Option.some.inj htarget
        exact absurd hvkey.symm (hkeep' v hv hvkey)
      | _ => cases htarget
    · left
      have hother : call.target? ≠ some v.key := fun e => htarget (hvkey ▸ e)
      refine ((h.settle_idle on extends_).owns_iff rfl acts.holder).1
        ⟨v, (framed v hother).2 hv, hvkey, ?_⟩
      rw [acts.holder]
      refine acts.kept v.offset hheld fun o ho => ?_
      rcases ho with hdead | hfrees
      · exact hon.sound.apart_dead hv hdead
      · exact Call.apart_of_frees hon.sound hv hother (hkeep' v hv hvkey) hfrees
  | @waiting s' stage gained on fits same blocked acts =>
    exact Or.inl (((h.settle_busy on fits).owns_iff rfl acts.holder).1
      (howns'.of_acts hon.sound acts))
  | @failed s' error on acts =>
    exact Or.inl (((h.settle_idle on (.refl i)).owns_iff rfl acts.holder).1
      (howns'.of_acts hon.sound acts))

/-- Nobody owns a record where another has locked its place. -/
theorem Stands.not_owns_of_blocks (h : store.Stands i) (hcons : store.file.locks.Consistent)
    {offset : Nat} (hb : store.file.locks.blocks id offset .exclusive = true)
    (hnew : ∃ v ∈ store.versions, v.key = key ∧ v.offset = offset) : ¬ store.Owns id key := by
  rintro ⟨w, hw, hwkey, hheld⟩
  obtain ⟨v, hv, hvkey, rfl⟩ := hnew
  obtain rfl := h.eq_of_key hv hw (hvkey.trans hwkey.symm)
  rw [hcons.not_holdsExclusive hb] at hheld
  cases hheld

/-- Nothing but a write that waited to append overtakes. -/
theorem not_overtakes_of_client {turn : Turn} (hclient : ∀ handle request held,
    store.client? turn.holder ≠ some (.busy handle (.appending request held))) :
    ¬ store.Overtakes key turn := by
  rintro ⟨handle, request, held, hbusy, -⟩
  exact hclient handle request held hbusy

theorem overtakes_iff {request : WriteRequest} {held : Option Nat}
    (hclient : store.client? id = some (.busy handle (.appending request held))) :
    store.Overtakes key ⟨now, id, .resume⟩ ↔ request.key = key ∧ request.field ≠ none ∧
      ∃ answer, (store.serve ⟨now, id, .resume⟩).2 = .answered answer := by
  constructor
  · rintro ⟨handle', request', held', hbusy, hkey, hnamed, -, hanswer⟩
    rw [hclient] at hbusy
    cases hbusy
    exact ⟨hkey, hnamed, hanswer⟩
  · rintro ⟨hkey, hnamed, hanswer⟩
    refine ⟨handle, request, held, hclient, hkey, hnamed, ?_, hanswer⟩
    simp only [running?, hclient]
    rfl

/-- Where a key has a version, a lookup finds it. -/
theorem Stands.find?_ne_none (h : store.Stands i) {v : Version} (hv : v ∈ store.versions) :
    i.find? v.key ≠ none := by
  rw [h.versions_eq] at hv
  obtain ⟨line, hfind, -⟩ := h.sound.find?_of_version hv
  rw [hfind]
  simp

/-- **A write that goes on to append** spares the record that another client has locked if it names no
field, and only then. -/
theorem Stands.appending_turn (h : store.Stands i) (hsmall : store.file.bytes.length < UInt32.size)
    {request : WriteRequest} {held : Option Nat}
    (hclient : store.client? id = some (.busy handle (.appending request held))) {v : Version}
    (hv : v ∈ store.versions) (hkey : request.key = v.key)
    (hfree : ¬ (store.session now id handle).Blocked structuralOffset) :
    (store.settleCall id ((Stage.appending request held).resume (store.session now id handle))).2 =
        .answered .done ∧
      (v ∈ (store.settleCall id
          ((Stage.appending request held).resume (store.session now id handle))).1.versions ↔
        request.field = none) := by
  obtain ⟨hon, hfits⟩ := h.on_of_busy hclient now
  have hlt := h.version_lt hv
  have hfound := h.find?_ne_none hv
  rw [← hkey] at hfound
  have happended := Stage.resume_appending hon (h.small hsmall) hfits hfree
  generalize (Stage.appending request held).resume (store.session now id handle) = result
    at happended
  rw [h.versions_eq] at hv
  refine ⟨by cases happended <;> rfl, ?_⟩
  cases happended with
  | @present s' j fieldless found unheld on resorted locks holder config =>
    refine iff_of_true ?_ fieldless
    rw [h.versions_answered (on.free structuralOffset) resorted.extends_, resorted.versions]
    exact hv
  | @published s' j fields named on publishes written locks holder config =>
    have hon' := ((on.free structuralOffset).freeAll held).freeAll
      (SessionM.released request (some i.bytes.length))
    refine iff_of_false ?_ fun hnone => hfound (named hnone)
    rw [h.versions_answered hon' publishes.extends_, publishes.versions, List.mem_append,
      List.mem_filter, List.mem_singleton]
    rintro (⟨-, hne⟩ | rfl)
    · simp [hkey] at hne
    · have hlength : store.file.bytes.length = i.bytes.length := congrArg List.length hon.bytes
      exact absurd hlt (hlength ▸ Nat.lt_irrefl _)

/-- A turn that goes on with an append spares the record that another client has locked, unless it
overtakes the lock. -/
theorem Stands.appending_spares (h : store.Stands i)
    (hsmall : store.file.bytes.length < UInt32.size) {request : WriteRequest} {held : Option Nat}
    (hclient : store.client? id = some (.busy handle (.appending request held)))
    (hstretch : Stretch (store.session now id handle) i (.write request) heeds
      ((Stage.appending request held).resume (store.session now id handle))) {v : Version}
    (hv : v ∈ store.versions) (hb : store.file.locks.blocks id v.offset .exclusive = true) :
    v ∈ (store.serve ⟨now, id, .resume⟩).1.versions ↔
      ¬ store.Overtakes v.key ⟨now, id, .resume⟩ := by
  have hserve : store.serve ⟨now, id, .resume⟩ = store.settleCall id
      ((Stage.appending request held).resume (store.session now id handle)) := by
    simp only [serve, Store.resume, hclient]
    rfl
  rw [overtakes_iff hclient, hserve]
  by_cases hkey : request.key = v.key
  · by_cases hfree : (store.session now id handle).Blocked structuralOffset
    · -- it goes on waiting
      have hoff : lockFault? (Stage.appending request held).offset = none :=
        SessionM.structural_lockFault?
      have hnever : ∀ answer, (store.settleCall id ((Stage.appending request held).resume
          (store.session now id handle))).2 ≠ .answered answer := by
        intro answer
        rw [Stage.resume_of_blocked hoff hfree]
        simp [Store.settleCall]
      refine iff_of_true (h.spared_of_stretch hstretch hv hb (Or.inr (Or.inr hnever))) ?_
      rintro ⟨-, -, answer, hanswer⟩
      exact hnever answer hanswer
    · obtain ⟨hanswer, hspared⟩ := h.appending_turn hsmall hclient hv hkey hfree
      rw [hspared]
      refine ⟨fun hnone hovertakes => hovertakes.2.1 hnone, fun hnot => ?_⟩
      by_contra hnamed
      exact hnot ⟨hkey, hnamed, .done, hanswer⟩
  · have hother : (Call.write request).target? ≠ some v.key := fun e => hkey (Option.some.inj e)
    exact iff_of_true (h.spared_of_stretch hstretch hv hb (Or.inr (Or.inl hother)))
      fun hovertakes => hkey hovertakes.1

/-- **A turn of another client** leaves the lock of a record alone, and the record too, unless it
overtakes the lock. -/
theorem Stands.other_turn (h : store.Stands i) (hsmall : store.file.bytes.length < UInt32.size)
    {turn : Turn} {v : Version} (hv : v ∈ store.versions)
    (hheld : store.file.locks.holdsExclusive id v.offset = true) (hother : turn.holder ≠ id)
    (hhonest : ¬ store.Feigns v.key turn) :
    (store.serve turn).1.file.locks.holdsExclusive id v.offset = true ∧
      (v ∈ (store.serve turn).1.versions ↔ ¬ store.Overtakes v.key turn) := by
  have hturned := h.serve_turned hsmall turn
  refine ⟨?_, ?_⟩
  · rw [LockTable.holdsExclusive_congr hturned.locks.1 (Ne.symm hother)]
    exact hheld
  have hb := LockTable.blocks_of_holdsExclusive (Ne.symm hother) hheld .exclusive
  generalize hserve : store.serve turn = result at hturned
  cases hturned with
  | unavailable unready =>
    refine iff_of_true hv ?_
    rintro ⟨-, -, -, -, -, -, -, answer, hanswer⟩
    rw [hserve] at hanswer
    cases hanswer
  | @opening now other config client opens =>
    obtain ⟨j, hstands, -, hversions⟩ := h.settleOpen opens
    refine iff_of_true ?_ (not_overtakes_of_client (by simp [client]))
    rw [hstands.versions_eq, hversions, ← h.versions_eq]
    exact hv
  | @reopening now other config stage client opens =>
    obtain ⟨j, hstands, -, hversions⟩ := h.settleOpen opens
    refine iff_of_true ?_ (not_overtakes_of_client (by simp [client]))
    rw [hstands.versions_eq, hversions, ← h.versions_eq]
    exact hv
  | @closing now other handle client bytes =>
    obtain ⟨j, hstands, -, hversions⟩ := @Stands.closing store i other h bytes now handle
    refine iff_of_true ?_ (not_overtakes_of_client (by simp [client]))
    show v ∈ (Store.remove _ _).versions
    rw [hstands.versions_eq, hversions, ← h.versions_eq]
    exact hv
  | @calling now other call handle client on stretch =>
    refine iff_of_true ?_ (not_overtakes_of_client (by simp [client]))
    refine h.spared_of_stretch stretch hv hb ?_
    by_cases hheeds : call.Heeds
    · exact Or.inl hheeds
    · right
      cases call with
      | write request =>
        by_cases hkey : request.key = v.key
        · right
          intro answer hanswer
          refine hhonest ⟨request, ⟨?_, answer, ?_⟩, hkey, Bool.eq_false_iff.2 hheeds⟩
          · simp only [running?, client]
          · rw [hserve]
            exact hanswer
        · exact Or.inl fun e => hkey (Option.some.inj e)
      | _ => exact absurd trivial hheeds
  | @resuming now other handle stage client on fits stretch =>
    by_cases hheeds : stage.Heeds
    · refine iff_of_true (h.spared_of_stretch stretch hv hb (Or.inl hheeds)) ?_
      refine not_overtakes_of_client fun handle' request held hbusy => ?_
      rw [client] at hbusy
      cases hbusy
      exact hheeds
    · cases stage with
      | appending request held =>
        rw [← hserve]
        exact h.appending_spares hsmall client stretch hv hb
      | _ => exact absurd trivial hheeds

/-- The turn in which a call gets its answer runs a stretch of it.  One that does not look at record
locks goes on to append, or says that it has the lock. -/
theorem Stands.stretch_of_finishes (h : store.Stands i)
    (hsmall : store.file.bytes.length < UInt32.size) {turn : Turn} (hfin : store.Finishes turn call) :
    ∃ (handle : Handle) (heeds : Prop) (result : EStateM.Result Error Session Progress),
      store.serve turn = store.settleCall turn.holder result ∧
        (store.session turn.now turn.holder handle).On i ∧
        Stretch (store.session turn.now turn.holder handle) i call heeds result ∧
        (heeds ∨ (∃ request, call = .write request ∧ request.mode.acquires = false) ∨
          ∃ request held, call = .write request ∧
            store.client? turn.holder = some (.busy handle (.appending request held))) := by
  obtain ⟨hrunning, answer, hanswer⟩ := hfin
  have hturned := h.serve_turned hsmall turn
  generalize hserve : store.serve turn = result at hturned
  cases hturned with
  | unavailable unready =>
    rw [hserve] at hanswer
    cases hanswer
  | @opening now id config client opens => simp [running?] at hrunning
  | @reopening now id config stage client opens => simp [running?, client] at hrunning
  | @closing now id handle client bytes => simp [running?] at hrunning
  | @calling now id call' handle client on stretch =>
    simp only [running?, client, Option.some.injEq] at hrunning
    subst hrunning
    refine ⟨handle, call'.Heeds, _, rfl, on, stretch, ?_⟩
    by_cases hheeds : call'.Heeds
    · exact Or.inl hheeds
    · cases call' with
      | write request => exact Or.inr (Or.inl ⟨request, rfl, Bool.eq_false_iff.2 hheeds⟩)
      | _ => exact absurd trivial hheeds
  | @resuming now id handle stage client on fits stretch =>
    simp only [running?, client, Option.some.injEq] at hrunning
    subst hrunning
    refine ⟨handle, stage.Heeds, _, rfl, on, stretch, ?_⟩
    cases stage with
    | appending request held => exact Or.inr (Or.inr ⟨request, held, rfl, client⟩)
    | _ => exact Or.inl trivial

/-- Who has put a record where another has locked its place does not own it. -/
theorem not_owns_of_crowds {turn : Turn}
    (ht : Turned store i turn (store.serve turn)) (h : (store.serve turn).1.Stands j)
    (hcons : store.file.locks.Consistent) (hcrowds : store.Crowds key turn) :
    ¬ (store.serve turn).1.Owns turn.holder key := by
  obtain ⟨hothers, hcons'⟩ := ht.locks
  obtain ⟨hb, hnew⟩ := hcrowds
  rw [← LockTable.blocks_congr hothers] at hb
  exact h.not_owns_of_blocks (hcons' hcons) hb hnew

/-- **A turn of the client itself** that does not give the lock up keeps it, unless the end of the
file is locked. -/
theorem Stands.own_turn (h : store.Stands i) (hsmall : store.file.bytes.length < UInt32.size)
    (hcons : store.file.locks.Consistent) {turn : Turn} (howns : store.Owns turn.holder key)
    (hpresent : store.Present turn.holder) (hkeep : ¬ store.GivesUp key turn) :
    (store.serve turn).1.Present turn.holder ∧
      ((store.serve turn).1.Owns turn.holder key ↔ ¬ store.Crowds key turn) := by
  have hturned := h.serve_turned hsmall turn
  obtain ⟨j, hstands, -⟩ := hturned.stands h
  have hcrowded : store.Crowds key turn → ¬ (store.serve turn).1.Owns turn.holder key :=
    not_owns_of_crowds hturned hstands hcons
  suffices hsuff : (store.serve turn).1.Present turn.holder ∧
      ((store.serve turn).1.Owns turn.holder key ∨ store.Crowds key turn) from
    ⟨hsuff.1, fun howns' hcrowds => hcrowded hcrowds howns', hsuff.2.resolve_right⟩
  obtain ⟨handle', hclient'⟩ := hpresent
  unfold Crowds
  unfold GivesUp at hkeep
  generalize hserve : store.serve turn = result at hturned
  cases hturned with
  | unavailable unready => exact ⟨⟨handle', hclient'⟩, Or.inl howns⟩
  | @opening now id config client opens => simp [client] at hclient'
  | @reopening now id config stage client opens => simp [client] at hclient'
  | @closing now id handle client bytes => exact absurd (Or.inl rfl) hkeep
  | @calling now id call handle client on stretch =>
    refine ⟨present_settleCall store id _, h.owns_or_crowds_of_stretch on stretch howns ?_⟩
    intro answer hanswer v hv hvkey hgives
    refine hkeep (Or.inr ⟨call, ⟨?_, answer, ?_⟩, v, hv, hvkey, hgives⟩)
    · simp only [running?, client]
    · rw [hserve]
      exact hanswer
  | @resuming now id handle stage client on fits stretch =>
    refine ⟨present_settleCall store id _, h.owns_or_crowds_of_stretch on stretch howns ?_⟩
    intro answer hanswer v hv hvkey hgives
    refine hkeep (Or.inr ⟨stage.call, ⟨?_, answer, ?_⟩, v, hv, hvkey, hgives⟩)
    · simp only [running?, client]
    · rw [hserve]
      exact hanswer

/-- A write without a field that waited to append takes no lock of a key that is there. -/
theorem Stands.not_owns_of_slips (h : store.Stands i)
    (hsmall : store.file.bytes.length < UInt32.size) {turn : Turn} (hslips : store.Slips key turn)
    {call : Call} (hfin : store.Finishes turn call) :
    ¬ (store.serve turn).1.Owns turn.holder key := by
  obtain ⟨⟨handle, held, hclient⟩, ⟨v, hv, hvkey⟩, hnot⟩ := hslips
  obtain ⟨now, id, request⟩ := turn
  dsimp only at hclient hnot ⊢
  obtain ⟨hrunning, answer, hanswer⟩ := hfin
  cases request with
  | resume =>
    simp only [serve, Store.resume, hclient] at hanswer ⊢
    obtain ⟨hon, hfits⟩ := h.on_of_busy hclient now
    have hfound := h.find?_ne_none hv
    have hoff : lockFault? (Stage.appending ⟨key, none, .take⟩ held).offset = none :=
      SessionM.structural_lockFault?
    by_cases hb : (store.session now id handle).Blocked structuralOffset
    · have hwaits := Stage.resume_of_blocked hoff hb
      rw [show (Stage.appending ⟨key, none, .take⟩ held).resume.run (store.session now id handle) = _
        from hwaits] at hanswer
      cases hanswer
    · have happended := Stage.resume_appending hon (h.small hsmall) hfits hb
      change ¬ (store.settleCall id ((Stage.appending ⟨key, none, .take⟩ held).resume
        (store.session now id handle))).1.Owns id key
      generalize (Stage.appending ⟨key, none, .take⟩ held).resume (store.session now id handle) =
        result at happended
      cases happended with
      | @present s' j fieldless found unheld on resorted locks holder config =>
        rintro ⟨w, hw, hwkey, hheld⟩
        rw [h.versions_answered (on.free structuralOffset) resorted.extends_, resorted.versions] at hw
        refine hnot ⟨w, h.versions_eq ▸ hw, hwkey, ?_⟩
        have hapart := hon.sound.apart_structural hw
        change (s'.file.locks.clear s'.holder structuralOffset).holdsExclusive id w.offset = true
          at hheld
        rw [locks, holder] at hheld
        change (LockTable.clear (store.file.locks.set id structuralOffset .exclusive) id
          structuralOffset).holdsExclusive id w.offset = true at hheld
        rw [LockTable.holdsExclusive_clear_of_apart hapart,
          LockTable.holdsExclusive_set_of_apart hapart] at hheld
        exact hheld
      | published named => exact absurd (named rfl) (hvkey ▸ hfound)
  | call call => simp [running?, hclient] at hrunning
  | opening config => simp [running?] at hrunning
  | close => simp [running?] at hrunning

theorem Gains.finishes {turn : Turn} (hgains : store.Gains key turn) :
    ∃ call, store.Finishes turn call := by
  rcases hgains with ⟨field, hfin⟩ | ⟨v, -, -, ⟨part, hfin⟩ | hfin⟩
  · exact ⟨_, hfin⟩
  · exact ⟨_, hfin⟩
  · exact ⟨_, hfin⟩

/-- A turn that gains a lock runs a call that secures it. -/
theorem Stands.secures_of_gains (h : store.Stands i)
    (hsmall : store.file.bytes.length < UInt32.size) {turn : Turn} (hgains : store.Gains key turn)
    (hslips : ¬ store.Slips key turn) :
    (store.serve turn).1.Owns turn.holder key ∨ store.Crowds key turn := by
  have hsettled : ∀ {call : Call}, store.Finishes turn call →
      (∀ (handle : Handle) (heeds : Prop), (heeds ∨
        (∃ request, call = .write request ∧ request.mode.acquires = false) ∨
          ∃ request held, call = .write request ∧
            store.client? turn.holder = some (.busy handle (.appending request held))) →
        call.Secures (store.session turn.now turn.holder handle) i heeds key) →
      (store.serve turn).1.Owns turn.holder key ∨ store.Crowds key turn := by
    intro call hfin hsecures
    obtain ⟨handle, heeds, result, hserve, hon, hstretch, hheeds⟩ := h.stretch_of_finishes hsmall hfin
    obtain ⟨-, answer, hanswer⟩ := hfin
    unfold Crowds
    rw [hserve] at hanswer ⊢
    exact h.owns_or_crowds_of_secures hon hstretch hanswer (hsecures handle heeds hheeds)
  rcases hgains with ⟨field, hfin⟩ | ⟨v, hv, rfl, ⟨part, hfin⟩ | hfin⟩
  · refine hsettled hfin fun handle heeds hheeds => ⟨rfl, rfl, ?_⟩
    by_cases howns : store.Owns turn.holder key
    · exact Or.inl ((h.owns_iff rfl rfl).2 howns)
    · refine Or.inr ⟨rfl, ?_⟩
      rcases hheeds with hheeds | ⟨request, hrequest, hmode⟩ | ⟨request, held, hrequest, hclient⟩
      · exact Or.inr (Or.inl hheeds)
      · cases hrequest
        cases hmode
      · cases hrequest
        cases field with
        | some f => exact Or.inl (by simp)
        | none =>
          right
          right
          cases hfind : i.find? key with
          | none => rfl
          | some line =>
            obtain ⟨hversion, hkey⟩ := h.sound.version_of_find? hfind
            exact absurd ⟨⟨handle, held, hclient⟩, ⟨_, h.versions_eq ▸ hversion, hkey⟩, howns⟩ hslips
  · refine hsettled hfin fun handle heeds _ => ⟨rfl, rfl, ?_⟩
    rw [Image.contents_eq_find?, Ne, Option.map_eq_none_iff]
    exact h.find?_ne_none hv
  · exact hsettled hfin fun handle heeds _ => ⟨rfl, v, h.versions_eq ▸ hv, rfl, rfl⟩

/-- **A turn that gains a lock** has it, but for two cases. -/
theorem Stands.gaining_turn (h : store.Stands i) (hsmall : store.file.bytes.length < UInt32.size)
    (hcons : store.file.locks.Consistent) {turn : Turn} (hgains : store.Gains key turn) :
    (store.serve turn).1.Present turn.holder ∧
      ((store.serve turn).1.Owns turn.holder key ↔
        ¬ store.Crowds key turn ∧ ¬ store.Slips key turn) := by
  have hturned := h.serve_turned hsmall turn
  obtain ⟨j, hstands, -⟩ := hturned.stands h
  obtain ⟨call, hfin⟩ := hgains.finishes
  refine ⟨?_, fun howns => ⟨?_, fun hslips => h.not_owns_of_slips hsmall hslips hfin howns⟩, ?_⟩
  · obtain ⟨handle, heeds, result, hserve, -⟩ := h.stretch_of_finishes hsmall hfin
    rw [hserve]
    exact present_settleCall store turn.holder result
  · exact fun hcrowds => not_owns_of_crowds hturned hstands hcons hcrowds howns
  · rintro ⟨hcrowds, hslips⟩
    exact (h.secures_of_gains hsmall hgains hslips).resolve_right hcrowds

end OneTurn

/-! ## Whole runs -/

/-- A run on a new file leads here. -/
def Reached (store : Store) : Prop :=
  ∃ (mtime : Int) (turns : List Turn), (Store.ofBytes [] mtime).Small turns ∧
    ((Store.ofBytes [] mtime).run turns).1 = store

/-- Every turn of a run is one of `p`. -/
def Always (p : Store → Turn → Prop) (store : Store) : List Turn → Prop
  | [] => True
  | turn :: more => p store turn ∧ (store.serve turn).1.Always p more

/-- Throughout a run client `id` has the lock of the live record of `key`, and no turn of another
client changes a field of that record, kills it or brings another version of the key. -/
def Guarded (store : Store) (id : HolderId) (key : Bytes) : List Turn → Prop
  | [] => store.Owns id key
  | turn :: more => store.Owns id key ∧
    (turn.holder ≠ id → ∀ v : Version, v.key = key →
      (v ∈ (store.serve turn).1.versions ↔ v ∈ store.versions)) ∧
    (store.serve turn).1.Guarded id key more

/-- A turn that leaves the client `id` its lock of `key`, and the record as it is: the client's own
turns do not append where another has locked the end of the file, and no write of another goes on to
append. -/
def Respects (id : HolderId) (key : Bytes) (store : Store) (turn : Turn) : Prop :=
  (turn.holder = id → ¬ store.Crowds key turn) ∧ (turn.holder ≠ id → ¬ store.Overtakes key turn)

variable {store : Store} {i : Image} {id : HolderId} {key : Bytes}

theorem Guarded.owns {turns : List Turn} (h : store.Guarded id key turns) : store.Owns id key := by
  cases turns with
  | nil => exact h
  | cons turn more => exact h.1

/-- In all runs a lock held exclusively is held by one client only. -/
theorem Stands.consistent_run (h : store.Stands i) (hcons : store.file.locks.Consistent)
    {turns : List Turn} (hsmall : store.Small turns) :
    (store.run turns).1.file.locks.Consistent := by
  induction turns generalizing store i with
  | nil => exact hcons
  | cons turn more ih =>
    obtain ⟨hfirst, hmore⟩ := hsmall
    have hturned := h.serve_turned hfirst turn
    obtain ⟨j, hj, -⟩ := hturned.stands h
    exact ih hj (hturned.locks.2 hcons) hmore

theorem Reached.stands (h : store.Reached) :
    ∃ i, store.Stands i ∧ store.file.locks.Consistent := by
  obtain ⟨mtime, turns, hsmall, rfl⟩ := h
  have hfirst := Stands.ofBytes mtime
  obtain ⟨i, hi, -⟩ := hfirst.run hsmall
  exact ⟨i, hi, hfirst.consistent_run .empty hsmall⟩

/-- **A lock once held** guards its record as long as every turn respects it, and no longer. -/
theorem Stands.guarded_iff (h : store.Stands i) (hcons : store.file.locks.Consistent)
    {after : List Turn} (hsmall : store.Small after) (howns : store.Owns id key)
    (hpresent : store.Present id)
    (hkeeps : store.Always (fun s turn => turn.holder = id → ¬ s.GivesUp key turn) after)
    (hhonest : store.Always (fun s turn => turn.holder ≠ id → ¬ s.Feigns key turn) after) :
    store.Guarded id key after ↔ store.Always (Respects id key) after := by
  induction after generalizing store i with
  | nil => exact iff_of_true howns trivial
  | cons turn more ih =>
    obtain ⟨hfirst, hmore⟩ := hsmall
    obtain ⟨hkeep, hkeeps⟩ := hkeeps
    obtain ⟨hhonest₁, hhonest⟩ := hhonest
    have hturned := h.serve_turned hfirst turn
    obtain ⟨j, hj, -⟩ := hturned.stands h
    have hcons' := hturned.locks.2 hcons
    by_cases hid : turn.holder = id
    · subst hid
      obtain ⟨hpresent', howns'⟩ := h.own_turn hfirst hcons howns hpresent (hkeep rfl)
      by_cases hcrowds : store.Crowds key turn
      · refine iff_of_false (fun hguarded => ?_) (fun hall => hall.1.1 rfl hcrowds)
        exact howns'.1 hguarded.2.2.owns hcrowds
      · have hrest := ih hj hcons' hmore (howns'.2 hcrowds) hpresent' hkeeps hhonest
        constructor
        · intro hguarded
          exact ⟨⟨fun _ => hcrowds, fun hne => absurd rfl hne⟩, hrest.1 hguarded.2.2⟩
        · intro hall
          exact ⟨howns, fun hne => absurd rfl hne, hrest.2 hall.2⟩
    · obtain ⟨v, hv, rfl, hheld⟩ := howns
      obtain ⟨hheld', hspared⟩ := h.other_turn hfirst hv hheld hid (hhonest₁ hid)
      by_cases hovertakes : store.Overtakes v.key turn
      · refine iff_of_false (fun hguarded => ?_) (fun hall => hall.1.2 hid hovertakes)
        exact hspared.1 ((hguarded.2.1 hid v rfl).2 hv) hovertakes
      · have hv' := hspared.2 hovertakes
        have hpresent' : (store.serve turn).1.Present id := by
          unfold Present
          rw [hturned.client?_of_ne (Ne.symm hid)]
          exact hpresent
        have hrest := ih hj hcons' hmore ⟨v, hv', rfl, hheld'⟩ hpresent' hkeeps hhonest
        constructor
        · intro hguarded
          exact ⟨⟨fun he => absurd he hid, fun _ => hovertakes⟩, hrest.1 hguarded.2.2⟩
        · intro hall
          refine ⟨⟨v, hv, rfl, hheld⟩, fun _ w hw => ?_, hrest.2 hall.2⟩
          constructor
          · intro hmem
            rw [hj.eq_of_key hmem hv' hw]
            exact hv
          · intro hmem
            rw [h.eq_of_key hmem hv hw]
            exact hv'

/-- **A record lock keeps others off**, from the write or lookup that gains it until its client gives
it up: exactly where that turn neither puts the record where another has locked the end of the file
nor slips past a key that is there, and every later turn respects the lock. -/
theorem lock_guards_iff (hreached : store.Reached) {gain : Turn} {after : List Turn}
    (hsmall : store.Small (gain :: after)) (hgains : store.Gains key gain)
    (hkeeps : (store.serve gain).1.Always
      (fun s turn => turn.holder = gain.holder → ¬ s.GivesUp key turn) after)
    (hhonest : (store.serve gain).1.Always
      (fun s turn => turn.holder ≠ gain.holder → ¬ s.Feigns key turn) after) :
    (store.serve gain).1.Guarded gain.holder key after ↔
      (¬ store.Crowds key gain ∧ ¬ store.Slips key gain) ∧
        (store.serve gain).1.Always (Respects gain.holder key) after := by
  obtain ⟨i, h, hcons⟩ := hreached.stands
  obtain ⟨hfirst, hmore⟩ := hsmall
  have hturned := h.serve_turned hfirst gain
  obtain ⟨j, hj, -⟩ := hturned.stands h
  obtain ⟨hpresent, howns⟩ := h.gaining_turn hfirst hcons hgains
  by_cases hgood : ¬ store.Crowds key gain ∧ ¬ store.Slips key gain
  · have hrest := hj.guarded_iff (hturned.locks.2 hcons) hmore (howns.2 hgood) hpresent hkeeps hhonest
    rw [hrest]
    exact (and_iff_right hgood).symm
  · exact iff_of_false (fun hguarded => hgood (howns.1 hguarded.owns)) fun hall => hgood hall.1

/-- The second client has found the key absent and waits to append it. -/
def waitingToAppend : Store :=
  ((Store.ofBytes [] 9).run [⟨9, 1, .opening (.ofPath Config.defaultPath)⟩,
    ⟨9, 2, .opening (.ofPath Config.defaultPath)⟩, ⟨9, 1, .call (.lock structuralOffset)⟩,
    ⟨9, 2, .call (.write ⟨ascii ['k'], some ⟨ascii ['f'], ascii ['2', '2']⟩, .transient⟩)⟩]).1

/-- The first client creates the key meanwhile, and is told to keep the lock of its record. -/
def createLocked : Turn :=
  ⟨9, 1, .call (.write ⟨ascii ['k'], some ⟨ascii ['f'], ascii ['1']⟩, .take⟩)⟩

/-- The lock guards the new record only until the second client goes on. -/
theorem lock_guards_iff_of_waiting_append :
    waitingToAppend.Reached ∧ waitingToAppend.Small [createLocked, ⟨9, 2, .resume⟩] ∧
      waitingToAppend.Gains (ascii ['k']) createLocked ∧
      (waitingToAppend.serve createLocked).1.Guarded 1 (ascii ['k']) [] ∧
      ¬ (waitingToAppend.serve createLocked).1.Guarded 1 (ascii ['k']) [⟨9, 2, .resume⟩] := by
  have hreached : waitingToAppend.Reached := ⟨9, _, by decide +kernel, rfl⟩
  have hsmall : waitingToAppend.Small [createLocked, ⟨9, 2, .resume⟩] := by decide +kernel
  have hgains : waitingToAppend.Gains (ascii ['k']) createLocked :=
    Or.inl ⟨some ⟨ascii ['f'], ascii ['1']⟩, by decide +kernel, .done, by decide +kernel⟩
  have hidle : waitingToAppend.client? 1 =
      some (.idle ⟨.ofPath Config.defaultPath, 35, 0, ⟨35, 0⟩, none, true⟩) := by decide +kernel
  have hbusy : (waitingToAppend.serve createLocked).1.client? 2 =
      some (.busy ⟨.ofPath Config.defaultPath, 35, 0, ⟨35, 0⟩, none, false⟩
        (.appending ⟨ascii ['k'], some ⟨ascii ['f'], ascii ['2', '2']⟩, .transient⟩ none)) := by
    decide +kernel
  have hfirst : waitingToAppend.Small [createLocked] := ⟨hsmall.1, trivial⟩
  refine ⟨hreached, hsmall, hgains, ?_, ?_⟩
  · refine (lock_guards_iff hreached hfirst hgains trivial trivial).2 ⟨⟨?_, ?_⟩, trivial⟩
    · rintro ⟨hb, -⟩
      revert hb
      decide +kernel
    · rintro ⟨⟨handle, held, hclient⟩, -⟩
      have hclient' := hidle.symm.trans hclient
      cases hclient'
  · intro hguarded
    refine ((lock_guards_iff hreached hsmall hgains ⟨fun h => absurd h (by decide), trivial⟩
      ⟨fun _ => ?_, trivial⟩).1 hguarded).2.1.2 (by decide) ((overtakes_iff hbusy).2 ?_)
    · rintro ⟨request, ⟨hrunning, -⟩, -, hmode⟩
      simp only [running?, hbusy, Stage.call, Option.some.injEq, Call.write.injEq] at hrunning
      subst hrunning
      cases hmode
    · exact ⟨rfl, by simp, .done, by decide +kernel⟩

end Store

end RecordStore
