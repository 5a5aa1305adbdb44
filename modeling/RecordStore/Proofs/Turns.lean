import Mathlib.Tactic.Common
import RecordStore.Proofs.Exclusion
import RecordStore.Proofs.Failures

/-!
# What a turn comes to

Whatever the file holds, a turn is an opening, the end of a handle, one stretch of a call, or nothing.

* `Store.journal` — the writes to the file that a client makes in a turn.
* `Store.Runs` — a client runs one stretch of a call.
* `Served` — what a turn comes to.

Principal result: `Store.serve_served` — every turn comes to one of these.
-/

set_option autoImplicit false

namespace RecordStore

/-- A client between calls, or at a stage of one. -/
def Client.atStage (handle : Handle) : Option Stage → Client
  | none => .idle handle
  | some stage => .busy handle stage

namespace Store

/-- The writes to the file that a client makes in a turn with a call, in order. -/
def journal (store : Store) (turn : Turn) : List Patch :=
  match turn.request, store.client? turn.holder with
  | .call call, some (.idle handle) =>
    (SessionM.final call.start (store.session turn.now turn.holder handle)).journal
  | .resume, some (.busy handle stage) =>
    (SessionM.final stage.resume (store.session turn.now turn.holder handle)).journal
  | _, _ => []

/-- In this turn a client runs one stretch of a call, from its beginning or on from a stage. -/
structure Runs (store : Store) (turn : Turn) (handle : Handle) (call : Call)
    (pending : Option Stage) : Prop where
  running : store.running? turn = some call
  client : store.client? turn.holder = some (.atStage handle pending)
  same : ∀ stage, pending = some stage → stage.call = call
  journal : store.journal turn = (SessionM.final (call.stretch pending)
    (store.session turn.now turn.holder handle)).journal

theorem Runs.config {store : Store} {turn : Turn} {handle : Handle} {call : Call}
    {pending : Option Stage} (h : store.Runs turn handle call pending) :
    store.config? turn.holder = some handle.config := by
  rw [config?, h.client]
  cases pending <;> rfl

/-- A call that has just begun is what the turn asks for. -/
theorem Runs.request {store : Store} {turn : Turn} {handle : Handle} {call : Call}
    (h : store.Runs turn handle call none) : turn.request = .call call := by
  have hrunning := h.running
  have hclient := h.client
  unfold running? at hrunning
  split at hrunning
  · next hrequest _ => exact hrequest.trans (congrArg Request.call (Option.some.inj hrunning))
  · next hbusy =>
    rw [hbusy] at hclient
    cases hclient
  · cases hrunning

end Store

/-- What a turn comes to. -/
inductive Served (store : Store) (turn : Turn) : Store × Outcome → Prop where
  | unavailable (quiet : store.running? turn = none) : Served store turn (store, .unavailable)
  | opening {config : Config} (quiet : store.running? turn = none)
    (client : store.client? turn.holder = none) (asked : turn.request = .opening config) :
    Served store turn
      (store.settleOpen turn.holder config (openFile turn.now turn.holder config store.file))
  | reopening {config : Config} {stage : OpenStage} (quiet : store.running? turn = none)
    (client : store.client? turn.holder = some (.opening config stage)) :
    Served store turn
      (store.settleOpen turn.holder config (resumeOpen turn.now turn.holder config store.file stage))
  | closed {handle : Handle} (quiet : store.running? turn = none)
    (client : store.client? turn.holder = some (.idle handle)) :
    Served store turn (({ store with
      file := closeFile turn.now turn.holder handle store.file } : Store).remove turn.holder,
      .answered .done)
  | ran {handle : Handle} {call : Call} {pending : Option Stage}
    (runs : store.Runs turn handle call pending) :
    Served store turn (store.settleCall turn.holder
      (call.stretch pending (store.session turn.now turn.holder handle)))

namespace Store

theorem ready_of_running {store : Store} {turn : Turn} {call : Call}
    (h : store.running? turn = some call) : store.Ready turn := by
  unfold running? at h
  unfold Ready
  split at h
  · next hrequest hclient => simp only [hrequest, hclient]
  · next hrequest hclient => simp only [hrequest, hclient]
  · cases h

/-- **Every turn comes to one of these.** -/
theorem serve_served (store : Store) (turn : Turn) : Served store turn (store.serve turn) := by
  have hdispatched := store.serve_dispatched turn
  generalize store.serve turn = result at hdispatched
  cases hdispatched with
  | unavailable unready =>
    refine .unavailable ?_
    cases hrunning : store.running? turn with
    | none => rfl
    | some call => exact absurd (ready_of_running hrunning) unready
  | opening client => exact .opening (by simp only [running?]) client rfl
  | reopening client => exact .reopening (by simp only [running?, client]) client
  | closing client => exact .closed (by simp only [running?]) client
  | @calling now id call handle client =>
    have hruns : store.Runs ⟨now, id, .call call⟩ handle call none := by
      refine ⟨by simp only [running?, client], client, by rintro stage ⟨⟩, ?_⟩
      simp only [journal, client]
      rfl
    exact .ran hruns
  | @resuming now id handle stage client =>
    have hruns : store.Runs ⟨now, id, .resume⟩ handle stage.call (some stage) := by
      refine ⟨by simp only [running?, client], client, by rintro _ ⟨⟩; rfl, ?_⟩
      simp only [journal, client]
      rfl
    exact .ran hruns

/-- A turn with a call runs one stretch of it. -/
theorem runs_of_running {store : Store} {turn : Turn} {call : Call}
    (h : store.running? turn = some call) : ∃ handle pending, store.Runs turn handle call pending ∧
      store.serve turn = store.settleCall turn.holder
        (call.stretch pending (store.session turn.now turn.holder handle)) := by
  have hserved := store.serve_served turn
  generalize hresult : store.serve turn = result at hserved
  cases hserved with
  | unavailable quiet | opening quiet | reopening quiet | closed quiet =>
    rw [quiet] at h
    cases h
  | ran runs =>
    obtain rfl := Option.some.inj (runs.running.symm.trans h)
    exact ⟨_, _, runs, rfl⟩

/-- A turn with a call is settled as that stretch of the call. -/
theorem Runs.serve {store : Store} {turn : Turn} {handle : Handle} {call : Call}
    {pending : Option Stage} (h : store.Runs turn handle call pending) : store.serve turn =
      store.settleCall turn.holder
        (call.stretch pending (store.session turn.now turn.holder handle)) := by
  obtain ⟨handle', pending', hruns, hserve⟩ := runs_of_running h.running
  have hclient := h.client.symm.trans hruns.client
  cases pending <;> cases pending' <;> cases hclient <;> exact hserve

theorem settleCall_file (store : Store) (id : HolderId) (act : SessionM Progress) (s : Session) :
    (store.settleCall id (act s)).1.file = (SessionM.final act s).file := by
  unfold SessionM.final
  cases act s with
  | ok progress s' => cases progress <;> rfl
  | error e s' => rfl

theorem settleOpen_file (store : Store) (id : HolderId) (config : Config)
    (result : SharedFile × Opening) : (store.settleOpen id config result).1.file = result.1 := by
  obtain ⟨file, opening⟩ := result
  cases opening <;> rfl

/-- After a stretch the client has the handle that the stretch ends with. -/
theorem settleCall_client? (store : Store) (id : HolderId) (act : SessionM Progress) (s : Session) :
    ∃ pending, (store.settleCall id (act s)).1.client? id =
      some (.atStage (SessionM.final act s).handle pending) := by
  unfold SessionM.final
  cases act s with
  | error e s' => exact ⟨none, client?_update_self store id s'.file _⟩
  | ok progress s' =>
    cases progress with
    | answered a => exact ⟨none, client?_update_self store id s'.file _⟩
    | waiting stage => exact ⟨some stage, client?_update_self store id s'.file _⟩

/-- A turn leaves the other clients at what they were at. -/
theorem serve_client?_of_ne (store : Store) {turn : Turn} {other : HolderId} (hne : other ≠ turn.holder) :
    (store.serve turn).1.client? other = store.client? other := by
  have hserved := store.serve_served turn
  generalize store.serve turn = result at hserved ⊢
  cases hserved with
  | unavailable => rfl
  | opening | reopening => exact store.settleOpen_client?_of_ne hne _ _
  | closed => exact client?_remove_of_ne _ hne
  | ran => exact store.settleCall_client?_of_ne hne _

/-- A client that has the store open, and neither runs a call nor closes, does nothing. -/
theorem serve_of_not_running {store : Store} {turn : Turn} {handle : Handle} {pending : Option Stage}
    (hclient : store.client? turn.holder = some (.atStage handle pending))
    (hrunning : store.running? turn = none) (hstays : turn.request ≠ .close) :
    store.serve turn = (store, .unavailable) := by
  refine serve_of_unready fun hready => ?_
  obtain ⟨now, holder, request⟩ := turn
  unfold Ready at hready
  unfold running? at hrunning
  cases pending <;> cases request <;> simp_all [Client.atStage]

end Store

end RecordStore
