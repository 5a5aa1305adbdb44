import Mathlib.Tactic.Common
import RecordStore.Proofs.Turns

/-!
# Stretches that write nothing

A stretch of a call enters every write into its journal.  If the journal stays empty, the stretch has
only looked at the file, whatever the call is and however it ends.

* `Session.Logs` — what was done between two sessions stands in the journal.

Principal results: `Ran.logs` — one stretch of any call, on any file; `Ran.waits` — how a stretch
stops at a stage.
-/

set_option autoImplicit false

namespace RecordStore

namespace Session

variable {s s' s'' : Session}

/-- What was done between two sessions stands in the journal: where that is nothing, the second one
has only looked. -/
def Logs (s s' : Session) : Prop :=
  ∃ patches, s'.journal = s.journal ++ patches ∧ (patches = [] → s.Looks s')

theorem Looks.logs (h : s.Looks s') : s.Logs s' :=
  ⟨[], h.journal.trans (List.append_nil _).symm, fun _ => h⟩

theorem Logs.trans (h : s.Logs s') (h' : s'.Logs s'') : s.Logs s'' := by
  obtain ⟨patches, hjournal, hlooks⟩ := h
  obtain ⟨patches', hjournal', hlooks'⟩ := h'
  refine ⟨patches ++ patches', by rw [hjournal', hjournal, List.append_assoc], fun hnil => ?_⟩
  obtain ⟨hnone, hnone'⟩ := List.append_eq_nil_iff.1 hnil
  exact (hlooks hnone).trans (hlooks' hnone')

/-- Writes stand in the journal. -/
theorem logs_of_writes {patches : List Patch} (hjournal : s'.journal = s.journal ++ patches)
    (hne : patches ≠ []) : s.Logs s' :=
  ⟨patches, hjournal, fun hnil => absurd hnil hne⟩

theorem Logs.looks (h : s.Logs s') (hjournal : s'.journal = s.journal) : s.Looks s' := by
  obtain ⟨patches, hadded, hlooks⟩ := h
  rw [hjournal] at hadded
  exact hlooks (List.self_eq_append_right.1 hadded)

theorem logs_sort (s : Session) : s.Logs s.sort :=
  logs_of_writes (s.writeAll_journal s.sortPatches) (by simp [sortPatches])

theorem logs_sealed (s : Session) : s.Logs s.sealed := by
  unfold sealed
  split
  · exact (Looks.refl s).logs
  · exact logs_of_writes (s.writeAll_journal _) (by simp [sealPatches])

theorem logs_writeLine (s : Session) (line : Bytes) : s.Logs (s.writeLine line) :=
  logs_of_writes rfl (by simp)

theorem logs_publish (s : Session) (seq count : UInt32) (old : Option Span) :
    s.Logs (s.publish seq count old) :=
  logs_of_writes (s.writeAll_journal _) (by simp [publishPatches])

end Session

section Stretches

variable {s s' : Session} {waited : Option Span}

theorem Prepared.logs {key : Bytes} {old : Option Span} {count : UInt32}
    (h : Prepared s key old count s') : s.Logs s' := by
  cases h with
  | rested read rested looks fresh => exact (Session.Looks.withHandle looks).logs
  | sorted read overdue looks fresh =>
    exact (Session.Looks.withHandle looks).logs.trans (Session.logs_sort _)

theorem Wrote.logs {request : WriteRequest} {act : SessionM Progress}
    (h : Wrote s request waited (act s)) : s.Logs (SessionM.final act s) := by
  generalize hresult : act s = result at h
  cases h with
  | waiting waits =>
    rw [SessionM.final_ok hresult]
    exact waits.looks.logs
  | refused looks kept =>
    rw [SessionM.final_error hresult]
    exact looks.logs
  | untouched looks aims fieldless =>
    rw [SessionM.final_ok hresult]
    exact looks.logs
  | @patched s₁ s' span place r field looks aims named record placed fits relocks =>
    rw [SessionM.final_ok hresult]
    have hpatch : s₁.Logs (s₁.write ⟨span.offset + place.offset, field.value⟩).markModified :=
      Session.logs_of_writes rfl (by simp)
    exact (looks.logs.trans hpatch).trans relocks.looks.logs
  | present looks prepared fieldless relocks =>
    rw [SessionM.final_ok hresult]
    exact (looks.logs.trans prepared.logs).trans relocks.looks.logs
  | damaged looks prepared other relocks =>
    rw [SessionM.final_error hresult]
    exact (looks.logs.trans prepared.logs).trans relocks.looks.logs
  | @stranded s₁ s₂ s₃ s' old count line strands looks prepared drafted locked relocks =>
    rw [SessionM.final_error hresult]
    have hsealed := ((looks.logs.trans prepared.logs).trans s₂.logs_sealed).trans locked.looks.logs
    exact (hsealed.trans (s₃.logs_writeLine line)).trans relocks.looks.logs
  | @published s₁ s₂ s₃ s' old count seq line looks prepared drafted locked read relocks =>
    rw [SessionM.final_ok hresult]
    have hsealed := ((looks.logs.trans prepared.logs).trans s₂.logs_sealed).trans locked.looks.logs
    exact ((hsealed.trans (s₃.logs_writeLine line)).trans (Session.logs_publish _ seq count old)).trans
      relocks.looks.logs

/-- **One stretch of any call**, on any file. -/
theorem Ran.logs {call : Call} {act : SessionM Progress} (h : Ran s waited call (act s)) :
    s.Logs (SessionM.final act s) := by
  generalize hresult : act s = result at h
  cases h with
  | write wrote => exact (hresult ▸ wrote).logs
  | delete deleted =>
    cases deleted with
    | waiting waits => exact SessionM.final_ok hresult ▸ waits.looks.logs
    | refused looks => exact SessionM.final_error hresult ▸ looks.logs
    | missed looks missing fresh => exact SessionM.final_ok hresult ▸ looks.logs
    | @killed s₁ s' span looks aims relocks =>
      rw [SessionM.final_ok hresult]
      have hkill : s₁.Logs (s₁.write ⟨span.offset, [deadFlag]⟩).forget.markModified :=
        Session.logs_of_writes rfl (by simp)
      exact (looks.logs.trans hkill).trans relocks.looks.logs
  | resort sorted =>
    cases sorted with
    | waiting waits => exact SessionM.final_ok hresult ▸ waits.looks.logs
    | refused looks => exact SessionM.final_error hresult ▸ looks.logs
    | sorted looks fresh relocks =>
      rw [SessionM.final_ok hresult]
      exact (looks.logs.trans (Session.logs_sort _)).trans relocks.looks.logs
  | read read =>
    cases read with
    | waiting waits => exact SessionM.final_ok hresult ▸ waits.looks.logs
    | refused looks => exact SessionM.final_error hresult ▸ looks.logs
    | missed looks missing fresh => exact SessionM.final_ok hresult ▸ looks.logs
    | found looks aims record => exact SessionM.final_ok hresult ▸ looks.logs
  | glance keyless glanced =>
    cases glanced with
    | waiting waits => exact SessionM.final_ok hresult ▸ waits.looks.logs
    | refused looks => exact SessionM.final_error hresult ▸ looks.logs
    | answered looks => exact SessionM.final_ok hresult ▸ looks.logs

/-- A stretch that stops at a stage has only looked. -/
theorem Ran.waits {call : Call} {stage : Stage}
    (h : Ran s waited call (.ok (.waiting stage) s')) : Waits s s' call waited stage := by
  cases h with
  | write wrote => cases wrote with | waiting waits => exact waits
  | delete deleted => cases deleted with | waiting waits => exact waits
  | resort sorted => cases sorted with | waiting waits => exact waits
  | read read => cases read with | waiting waits => exact waits
  | glance keyless glanced => cases glanced with | waiting waits => exact waits

end Stretches

end RecordStore
