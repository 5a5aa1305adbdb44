import Mathlib.Tactic.Common
import RecordStore.Proofs.Failures

/-!
# Calls that only look

Whatever a file holds, a read, a look at the counters, a refresh and a lock change no byte of it.

* `Call.Glances` — the calls that only look.

Principal result: `Call.onlyLooks_stretch` — each stretch of such a call only looks.
-/

set_option autoImplicit false

namespace RecordStore

namespace SessionM

theorem onlyRelocks_recordAt (span : Span) : OnlyRelocks (recordAt span) := by
  refine .get_bind fun s => ?_
  cases Record.decode s.data span.offset <;> exact .refl s

theorem onlyRelocks_readLocked (key : Bytes) (part : Part) (locked : Locked) :
    OnlyRelocks (readLocked key part locked) := by
  cases locked with
  | granted span => exact (onlyRelocks_recordAt span).bind fun _ => Session.Relocks.refl
  | absent | busy => exact Session.Relocks.refl

theorem onlyLooks_of_glanced {act : SessionM Progress} {call : Call} {waited : Option Span}
    (h : ∀ s, Glanced s call waited (act s)) : OnlyLooks act := by
  intro s
  have hglanced := h s
  unfold final
  generalize act s = result at hglanced
  cases hglanced with
  | waiting waits => exact waits.looks
  | refused looks | answered looks => exact looks

end SessionM

/-- A call that only looks at the file. -/
def Call.Glances : Call → Prop
  | .write _ | .delete _ | .resort => False
  | .read _ _ _ | .readAt _ _ | .records | .appendSeq | .sinceSort | .refresh | .lock _ | .unlock _ =>
    True

section Calls

open SessionM

/-- **A call that only looks** does so from its beginning. -/
theorem Call.onlyLooks_start {call : Call} (h : call.Glances) : OnlyLooks call.start := by
  cases call with
  | read key part keepLock =>
    show OnlyLooks (SessionM.read key part keepLock)
    unfold SessionM.read
    split
    · exact (onlyLooks_locateLocking key .ifMissing).bind fun locked =>
        (onlyRelocks_readLocked key part locked).onlyLooks
    · refine (onlyLooks_locate key .ifMissing).bind ?_
      rintro (_ | span)
      · exact Session.Looks.refl
      · exact (onlyRelocks_readLocked key part (.granted span)).onlyLooks
  | readAt offset keepLock => exact onlyLooks_of_glanced fun s => readAt_glanced s offset keepLock
  | records => exact onlyLooks_refresh.bind fun _ => Session.Looks.refl
  | appendSeq | sinceSort => exact (onlyRelocks_counter _).onlyLooks.bind fun _ => Session.Looks.refl
  | refresh => exact onlyLooks_refresh.bind fun _ => Session.Looks.refl
  | lock offset =>
    refine (onlyRelocks_acquireRecord offset).onlyLooks.bind fun granted => ?_
    cases granted <;> exact Session.Looks.refl
  | unlock offset => exact (onlyRelocks_unlock offset).onlyLooks.bind fun _ => Session.Looks.refl
  | write | delete | resort => exact h.elim

/-- **A call that only looks** does so, on from where it waits. -/
theorem Stage.onlyLooks_granted {stage : Stage} (h : stage.call.Glances) : OnlyLooks stage.granted := by
  cases stage with
  | reading key part span =>
    exact (onlyLooks_recheck key span).bind fun locked =>
      (onlyRelocks_readLocked key part locked).onlyLooks
  | readingAt offset =>
    have hglanced : ∀ s : Session, Glanced s (.readAt offset true) none (decodeAt offset true s) :=
      fun s => decodeAt_glanced s offset true
    exact onlyLooks_of_glanced hglanced
  | locking offset => exact Session.Looks.refl
  | writing | deleting | appending | resorting => exact h.elim

theorem Stage.onlyLooks_resume {stage : Stage} (h : stage.call.Glances) : OnlyLooks stage.resume := by
  refine (onlyRelocks_tryLock stage.offset .exclusive).onlyLooks.bind fun granted => ?_
  split
  · exact Stage.onlyLooks_granted h
  · exact Session.Looks.refl

/-- **A call that only looks** does so in each of its stretches. -/
theorem Call.onlyLooks_stretch {call : Call} {pending : Option Stage} (h : call.Glances)
    (hsame : ∀ stage, pending = some stage → stage.call = call) : OnlyLooks (call.stretch pending) := by
  cases pending with
  | none => exact Call.onlyLooks_start h
  | some stage =>
    obtain rfl := hsame stage rfl
    exact Stage.onlyLooks_resume h

end Calls

end RecordStore
