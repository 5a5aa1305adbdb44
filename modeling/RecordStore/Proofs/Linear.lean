import Mathlib.Tactic.Common
import RecordStore.Proofs.Runs

/-!
# Calls take effect at one moment

Calls of several clients overlap: a call that waits for a lock lets others run.  All the same, every
call that has its answer has acted on the map exactly once, at one moment between its beginning and
its end, and a call that was refused has not acted at all.

* `Visible`, `Event.visible`, `history` — what the clients of a run see of it.
* `AtomicMap` — a map on which every call acts at one moment, unseen.
* `AtomicMap.Run` — the histories of such a map.
* `Store.Follows` — a store that has come as far as the map.

Principal results: `Store.Follows.serve`, `Store.linearizable`.
-/

set_option autoImplicit false

namespace RecordStore

/-! ## What clients see -/

/-- What a client sees of a call: that it asked, and what came back in the end. -/
inductive Visible where
  | asked (id : HolderId) (call : Call)
  | answered (id : HolderId) (answer : Answer)
  | refused (id : HolderId) (error : Error)
  deriving DecidableEq, Repr

/-- What an outcome shows of a call that was asked before. -/
def Outcome.visible (id : HolderId) : Outcome → List Visible
  | .answered answer => [.answered id answer]
  | .failed error => [.refused id error]
  | .opened | .waiting | .unavailable => []

/-- What an event shows of calls.  Opening and closing are none. -/
def Event.visible (event : Event) : List Visible :=
  match event.request, event.outcome with
  | .call _, .unavailable | .opening _, _ | .close, _ => []
  | .call call, outcome => .asked event.holder call :: outcome.visible event.holder
  | .resume, outcome => outcome.visible event.holder

theorem Event.visible_call {id : HolderId} {call : Call} {outcome : Outcome}
    (h : outcome ≠ .unavailable) :
    Event.visible ⟨id, .call call, outcome⟩ = .asked id call :: outcome.visible id := by
  cases outcome with
  | unavailable => exact absurd rfl h
  | _ => rfl

def history (events : List Event) : List Visible := events.flatMap Event.visible

/-! ## The atomic map -/

/-- How far a call has come: it is still to act, or it has acted and knows its answer. -/
inductive Doing where
  | asked (call : Call)
  | done (answer : Answer)
  deriving DecidableEq, Repr

structure AtomicMap where
  contents : Contents
  /-- What every client is at. -/
  doing : HolderId → Option Doing

/-- Why a call may be refused: a lock that it needs is not free, or it cannot be done at all. -/
def Call.MayFail (call : Call) : Error → Prop
  | .contention _ => call.acquires = true
  | .invalidData fault => ∃ request, call = .write request ∧
    SessionM.requestFault? request = some fault
  | .lock fault => ∃ offset, (call = .lock offset ∨ call = .unlock offset) ∧
    lockFault? offset = some fault
  | _ => False

theorem Call.mayFail_of_refused {s : Session} {error : Error} (call : Call)
    (h : call.Refused s error) : call.MayFail error := by
  cases error with
  | contention offset => exact h.1
  | _ => exact h

namespace AtomicMap

/-- The empty map, with no calls. -/
def start : AtomicMap := ⟨.empty, fun _ => none⟩

def put (m : AtomicMap) (id : HolderId) (doing : Option Doing) : AtomicMap :=
  { m with doing := fun other => if other = id then doing else m.doing other }

/-- The call of a client acts, and has this answer. -/
def act (m : AtomicMap) (id : HolderId) (call : Call) (answer : Answer) : AtomicMap :=
  { m.put id (some (.done answer)) with contents := m.contents.after call }

/-- The histories of the map.  A call that was asked acts once, at any moment before it is answered;
what it answers is what the map says at that moment.  A refused call does not act. -/
inductive Run : AtomicMap → List Visible → AtomicMap → Prop where
  | nil (m : AtomicMap) : Run m [] m
  | ask {m m' : AtomicMap} {id : HolderId} {call : Call} {more : List Visible}
    (idle : m.doing id = none) (rest : Run (m.put id (some (.asked call))) more m') :
    Run m (.asked id call :: more) m'
  | act {m m' : AtomicMap} {id : HolderId} {call : Call} {answer : Answer} {more : List Visible}
    (asked : m.doing id = some (.asked call)) (answers : call.Answers m.contents answer)
    (rest : Run (m.act id call answer) more m') : Run m more m'
  | answer {m m' : AtomicMap} {id : HolderId} {answer : Answer} {more : List Visible}
    (done : m.doing id = some (.done answer)) (rest : Run (m.put id none) more m') :
    Run m (.answered id answer :: more) m'
  | refuse {m m' : AtomicMap} {id : HolderId} {call : Call} {error : Error} {more : List Visible}
    (asked : m.doing id = some (.asked call)) (fails : call.MayFail error)
    (rest : Run (m.put id none) more m') : Run m (.refused id error :: more) m'

variable {m : AtomicMap} {id : HolderId} {doing : Option Doing}

theorem doing_put_self (m : AtomicMap) (id : HolderId) (doing : Option Doing) :
    (m.put id doing).doing id = doing := by
  simp [put]

theorem doing_put_of_ne {other : HolderId} (h : other ≠ id) :
    (m.put id doing).doing other = m.doing other := by
  simp [put, h]

theorem put_put (m : AtomicMap) (id : HolderId) (doing doing' : Option Doing) :
    (m.put id doing).put id doing' = m.put id doing' := by
  simp only [put, mk.injEq, true_and]
  funext other
  split <;> rfl

theorem put_eq_self (h : m.doing id = doing) : m.put id doing = m := by
  obtain ⟨contents, doings⟩ := m
  simp only [put, mk.injEq, true_and]
  funext other
  split
  · next hid => rw [hid, ← h]
  · rfl

/-- A call that was asked acts and is answered at once. -/
theorem Run.act_answer {m' : AtomicMap} {call : Call} {answer : Answer} {more : List Visible}
    (hasked : m.doing id = some (.asked call)) (hanswers : call.Answers m.contents answer)
    (hrest : Run { m.put id none with contents := m.contents.after call } more m') :
    Run m (.answered id answer :: more) m' := by
  refine .act hasked hanswers (.answer (doing_put_self m id _) ?_)
  have hdoing := congrArg doing (m.put_put id (some (.done answer)) none)
  show Run ⟨m.contents.after call, ((m.put id (some (.done answer))).put id none).doing⟩ more m'
  rw [hdoing]
  exact hrest

end AtomicMap

/-! ## A store that follows such a map -/

namespace Store

/-- The call that a client waits with. -/
def calling? (store : Store) (id : HolderId) : Option Call :=
  match store.client? id with
  | some (.busy _ stage) => some stage.call
  | _ => none

/-- The store holds what the map does, and its waiting calls are those that are still to act. -/
structure Follows (store : Store) (m : AtomicMap) (i : Image) : Prop where
  stands : store.Stands i
  contents : i.contents = m.contents
  doing : ∀ id, m.doing id = (store.calling? id).map .asked

variable {store store' : Store} {m : AtomicMap} {i j : Image} {id : HolderId}

theorem Follows.ofBytes (mtime : Int) : (Store.ofBytes [] mtime).Follows .start .fresh where
  stands := .ofBytes mtime
  contents := rfl
  doing := fun _ => rfl

theorem calling?_update_of_ne (store : Store) {other : HolderId} (h : other ≠ id) (file : SharedFile)
    (client : Client) : (store.update id file client).calling? other = store.calling? other := by
  unfold calling?
  rw [client?_update_of_ne _ h]

theorem calling?_remove (store : Store) (file : SharedFile) {other : HolderId} (h : other ≠ id) :
    (({ store with file } : Store).remove id).calling? other = store.calling? other := by
  unfold calling?
  rw [client?_remove_of_ne _ h]
  rfl

/-- A client that runs has something to show for it. -/
theorem settleCall_ne_unavailable (store : Store) (id : HolderId)
    (result : EStateM.Result Error Session Progress) :
    (store.settleCall id result).2 ≠ .unavailable := by
  unfold Store.settleCall
  split <;> simp

/-- One client has come on. -/
theorem Follows.update (h : ∀ other, m.doing other = (store.calling? other).map .asked)
    {file : SharedFile} {client : Client} {contents : Contents} {doing : Option Doing}
    (hstands : (store.update id file client).Stands j) (hcontents : j.contents = contents)
    (hself : doing = ((store.update id file client).calling? id).map .asked) :
    (store.update id file client).Follows { m.put id doing with contents } j where
  stands := hstands
  contents := hcontents
  doing := by
    intro other
    show (m.put id doing).doing other = _
    by_cases hid : other = id
    · rw [hid, AtomicMap.doing_put_self, hself]
    · rw [AtomicMap.doing_put_of_ne hid, calling?_update_of_ne _ hid, h other]

/-- A step that no call takes. -/
theorem Follows.frame (h : store.Follows m i) (hstands : store'.Stands j)
    (hversions : j.versions = i.versions)
    (hcalling : ∀ other, store'.calling? other = store.calling? other) : store'.Follows m j where
  stands := hstands
  contents := by
    rw [Image.contents, hversions]
    exact h.contents
  doing := by
    intro other
    rw [hcalling other]
    exact h.doing other

/-- A step of an open is none of a call. -/
theorem Follows.settleOpen (h : store.Follows m i) {config : Config}
    {result : SharedFile × Opening} (hclient : store.calling? id = none)
    (hopens : Opens id config store.file i result) :
    (∃ j, (store.settleOpen id config result).1.Follows m j) ∧
      (store.settleOpen id config result).2.visible id = [] := by
  obtain ⟨j, hstands, -, hversions⟩ := h.stands.settleOpen hopens
  have hcalling : ∀ other,
      (store.settleOpen id config result).1.calling? other = store.calling? other := by
    intro other
    by_cases hid : other = id
    · subst hid
      rw [hclient]
      cases hopens <;> simp only [Store.settleOpen, calling?, client?_update_self]
    · cases hopens <;> exact calling?_update_of_ne _ hid _ _
  refine ⟨⟨j, h.frame hstands hversions hcalling⟩, ?_⟩
  cases hopens <;> rfl

/-- **A stretch of a call** is an effect and an answer, a refusal, or nothing yet. -/
theorem Follows.settleCall (h : store.Follows m i) {now : Nat} {handle : Handle} {call : Call}
    {heeds : Prop} {result : EStateM.Result Error Session Progress}
    (hstretch : Stretch (store.session now id handle) i call heeds result) :
    ∃ m' j, (store.settleCall id result).1.Follows m' j ∧ ∀ more m'', m'.Run more m'' →
      (m.put id (some (.asked call))).Run ((store.settleCall id result).2.visible id ++ more) m'' := by
  have hasked := m.doing_put_self id (some (.asked call))
  have hsame := m.put_put id (some (.asked call)) none
  cases hstretch with
  | @answered s' j answer gained on extends_ contents answers =>
    refine ⟨{ m.put id none with contents := m.contents.after call }, j, ?_, ?_⟩
    · refine Follows.update h.doing (h.stands.settle_idle on extends_) ?_ ?_
      · rw [contents, h.contents]
      · simp only [calling?, client?_update_self, Option.map_none]
    · intro more m'' hrest
      refine .act_answer hasked (h.contents ▸ answers) ?_
      rw [hsame]
      exact hrest
  | @waiting s' stage gained on fits same blocked acts keeps =>
    subst same
    refine ⟨m.put id (some (.asked stage.call)), i, ?_, fun more m'' hrest => hrest⟩
    refine Follows.update h.doing (h.stands.settle_busy on fits) h.contents ?_
    simp only [calling?, client?_update_self, Option.map_some]
  | @failed s' error on acts refused =>
    refine ⟨m.put id none, i, ?_, fun more m'' hrest => ?_⟩
    · refine Follows.update h.doing (h.stands.settle_idle on (.refl i)) h.contents ?_
      simp only [calling?, client?_update_self, Option.map_none]
    · refine .refuse hasked (call.mayFail_of_refused refused) ?_
      rw [hsame]
      exact hrest

/-- **One turn of the store** is a step of the map, as far as clients see. -/
theorem Follows.serve (h : store.Follows m i) (hsmall : store.file.bytes.length < UInt32.size)
    (turn : Turn) : ∃ m' j, (store.serve turn).1.Follows m' j ∧ ∀ more m'', m'.Run more m'' →
      m.Run (Event.visible ⟨turn.holder, turn.request, (store.serve turn).2⟩ ++ more) m'' := by
  have hturned := h.stands.serve_turned hsmall turn
  generalize store.serve turn = result at hturned
  cases hturned with
  | unavailable unready =>
    refine ⟨m, i, h, fun more m'' hrest => ?_⟩
    cases hrequest : turn.request <;> exact hrest
  | @opening now id config client opens =>
    obtain ⟨⟨j, hfollows⟩, -⟩ := h.settleOpen (by simp only [calling?, client]) opens
    exact ⟨m, j, hfollows, fun more m'' hrest => hrest⟩
  | @reopening now id config stage client opens =>
    obtain ⟨⟨j, hfollows⟩, hnothing⟩ := h.settleOpen (by simp only [calling?, client]) opens
    refine ⟨m, j, hfollows, fun more m'' hrest => ?_⟩
    show m.Run (Outcome.visible id _ ++ more) m''
    rw [hnothing]
    exact hrest
  | @calling now id call handle client on stretch =>
    obtain ⟨m', j, hfollows, hrun⟩ := h.settleCall stretch
    have hidle : m.doing id = none := by
      rw [h.doing id]
      simp only [calling?, client, Option.map_none]
    refine ⟨m', j, hfollows, fun more m'' hrest => ?_⟩
    rw [Event.visible_call (store.settleCall_ne_unavailable id _)]
    exact .ask hidle (hrun more m'' hrest)
  | @resuming now id handle stage client on fits stretch =>
    obtain ⟨m', j, hfollows, hrun⟩ := h.settleCall stretch
    have hasked : m.doing id = some (.asked stage.call) := by
      rw [h.doing id]
      simp only [calling?, client, Option.map_some]
    rw [AtomicMap.put_eq_self hasked] at hrun
    exact ⟨m', j, hfollows, hrun⟩
  | @closing now id handle client bytes =>
    obtain ⟨j, hstands, -, hversions⟩ := @Stands.closing store i id h.stands bytes now handle
    refine ⟨m, j, h.frame hstands hversions fun other => ?_, fun more m'' hrest => hrest⟩
    by_cases hid : other = id
    · subst hid
      simp only [calling?, client?_remove_self, client]
    · exact store.calling?_remove _ hid

theorem Follows.run (h : store.Follows m i) {turns : List Turn} (hsmall : store.Small turns) :
    ∃ m' j, (store.run turns).1.Follows m' j ∧ m.Run (history (store.run turns).2) m' := by
  induction turns generalizing store m i with
  | nil => exact ⟨m, i, h, .nil m⟩
  | cons turn more ih =>
    obtain ⟨hfirst, hmore⟩ := hsmall
    obtain ⟨m₁, j, hfollows, hserves⟩ := h.serve hfirst turn
    obtain ⟨m', k, hlast, hrest⟩ := ih hfollows hmore
    exact ⟨m', k, hlast, hserves _ _ hrest⟩

/-- **Calls are linearizable.**  Clients take turns on a file that nobody has written yet, in any
order, and others go on while a call waits.  What they see is a history of the atomic map; what still
waits is still to act; and the file holds the map, no key twice.

Before every turn the file must have less than 2³² bytes: a slot has no room for the offset of a line
behind them. -/
theorem linearizable (mtime : Int) (turns : List Turn)
    (hsmall : (Store.ofBytes [] mtime).Small turns) : ∃ m : AtomicMap,
      AtomicMap.start.Run (history ((Store.ofBytes [] mtime).run turns).2) m ∧
        (∀ id, m.doing id = (((Store.ofBytes [] mtime).run turns).1.calling? id).map .asked) ∧
        Holds (liveRecordsFrom Header.length ((Store.ofBytes [] mtime).run turns).1.file.bytes)
          m.contents := by
  obtain ⟨m, i, hfollows, hrun⟩ := (Follows.ofBytes mtime).run hsmall
  refine ⟨m, hrun, hfollows.doing, ?_⟩
  rw [← hfollows.contents]
  exact hfollows.stands.holds

/-- The second client finds a key absent and has to wait; the first one creates the key meanwhile, and
the write that waited replaces that version.  Then the first client locks the record: a delete waits
for it, and the third client is refused. -/
def overlapping : List Turn :=
  let config : Config := .ofPath Config.defaultPath
  let key : Bytes := ascii ['k']
  let write (value : List Char) (mode : LockMode) : Request :=
    .call (.write ⟨key, some ⟨ascii ['f'], ascii value⟩, mode⟩)
  [⟨9, 1, .opening config⟩, ⟨9, 2, .opening config⟩,
    ⟨9, 3, .opening { config with nonblocking := true }⟩, ⟨9, 1, .call (.lock structuralOffset)⟩,
    ⟨9, 2, write ['2', '2'] .transient⟩, ⟨9, 2, .resume⟩, ⟨9, 1, write ['1'] .transient⟩,
    ⟨9, 2, .resume⟩, ⟨9, 1, .call (.read key (.field (ascii ['f'])) true)⟩,
    ⟨9, 2, .call (.delete key)⟩, ⟨9, 3, write ['3'] .transient⟩, ⟨9, 1, write ['4', '4'] .giveUp⟩,
    ⟨9, 2, .resume⟩, ⟨9, 3, .call (.read key .record false)⟩]

theorem linearizable_of_overlapping :
    (Store.ofBytes [] 9).Small overlapping ∧ ∃ m : AtomicMap,
      AtomicMap.start.Run (history ((Store.ofBytes [] 9).run overlapping).2) m ∧
        (∀ id, m.doing id =
          (((Store.ofBytes [] 9).run overlapping).1.calling? id).map .asked) ∧
        Holds (liveRecordsFrom Header.length ((Store.ofBytes [] 9).run overlapping).1.file.bytes)
          m.contents := by
  have hsmall : (Store.ofBytes [] 9).Small overlapping := by decide +kernel
  exact ⟨hsmall, linearizable 9 overlapping hsmall⟩

end Store

end RecordStore
