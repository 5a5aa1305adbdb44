import Mathlib.Tactic.Common
import RecordStore.Proofs.Conduct

/-!
# What a stretch holds at its end

A call that is to keep no lock has given all of them up when it answers or fails.  While it waits it
has at most one, that of the record whose new version it is about to append.

* `Call.Transient` — the calls that are to keep no lock.
* `Stage.Steady`, `Stage.Rightful` — what a waiting stage remembers, and the lock that it may have.
* `Session.Finished`, `Ends` — how a stretch leaves the file and the locks.

Principal result: `Call.stretch_ends` — every stretch of every call.
-/

set_option autoImplicit false

namespace RecordStore

/-- A call that is to keep no record lock: a transient write, a delete, a read without a lock, a
resort, or a look at the counters. -/
def Call.Transient : Call → Prop
  | .read _ _ keepLock | .readAt _ keepLock => keepLock = false
  | .write request => request.mode = .transient
  | .lock _ | .unlock _ => False
  | .records | .appendSeq | .sinceSort | .refresh | .delete _ | .resort => True

/-- What a stage remembers: a record in view, and a request that can be written. -/
structure Stage.Steady (stage : Stage) (data : Bytes) : Prop where
  bears : ∀ span, stage.span? = some span → Bears data span
  request : ∀ request, stage.call = .write request → SessionM.requestFault? request = none

/-- The lock that a waiting append has is that of a record, and it can be given up. -/
def Stage.Rightful (stage : Stage) : Prop :=
  ∀ offset, stage.held? = some offset → Header.length ≤ offset ∧ lockFault? offset = none

/-- A stretch has come to its end with an answer or a failure; one that is `plain` holds no lock. -/
def Session.Finished (s : Session) (o : Outset) (plain : Prop) : Prop :=
  ∃ owned, s.Keeps o owned [] ∧ (plain → owned = [])

/-- How a stretch ends: at rest, or at a stage whose lock another holder is in the way of. -/
inductive Ends (o : Outset) (plain : Prop) (call : Call) : Progress → Session → Prop where
  | answered {a : Answer} {s : Session} (finished : s.Finished o plain) :
    Ends o plain call (.answered a) s
  | waiting {stage : Stage} {s : Session} {owned : List Nat} (keeps : s.Keeps o owned [])
    (same : stage.call = call) (blocked : o.Blocks stage.offset) (steady : stage.Steady s.data)
    (held : plain → owned ⊆ stage.held?.toList ∧ stage.Rightful) :
    Ends o plain call (.waiting stage) s

theorem Session.Keeps.finished {s : Session} {o : Outset} {plain : Prop} {owned : List Nat}
    {seen : List Span} (h : s.Keeps o owned seen) (howned : plain → owned ⊆ []) :
    s.Finished o plain :=
  ⟨owned, h.mono (List.Subset.refl _) (List.nil_subset _),
    fun ht => List.subset_nil.1 (howned ht)⟩

namespace SessionM

variable {s : Session} {o : Outset} {plain : Prop} {owned : List Nat} {seen : List Span}
  {call : Call} {request : WriteRequest} {held : Option Nat}

/-- What comes to rest without waiting. -/
def Settles (act : SessionM Progress) (s : Session) (o : Outset) (plain : Prop) : Prop :=
  Leads act s (fun progress s' => (∃ a, progress = .answered a) ∧ s'.Finished o plain)
    (fun s' => s'.Finished o plain)

theorem Settles.ends {act : SessionM Progress} (h : Settles act s o plain) :
    Leads act s (Ends o plain call) (fun s' => s'.Finished o plain) := by
  refine h.mono ?_ fun _ => id
  rintro _ s' ⟨⟨a, rfl⟩, finished⟩
  exact .answered finished

theorem Settles.of_ok {act : SessionM Progress} {a : Answer} {s' : Session}
    (h : act s = .ok (.answered a) s') (finished : s'.Finished o plain) : Settles act s o plain :=
  Leads.of_ok h ⟨⟨a, rfl⟩, finished⟩

/-- What answers after all that may fail. -/
theorem Leads.answer {α : Type} {act : SessionM α} {f : α → Answer}
    (h : Leads act s (fun _ s' => s'.Finished o plain) (fun s' => s'.Finished o plain)) :
    Settles (act >>= fun a => answer (f a)) s o plain :=
  h.bind fun _ _ h' => Settles.of_ok rfl h'

/-! ## Writing -/

theorem forM_unlock_leads (h : s.Keeps o owned seen) (hfault : ∀ p, held = some p → lockFault? p = none)
    {owned' : List Nat} (hown : owned ⊆ held.toList ++ owned') :
    Leads (held.forM unlock : SessionM PUnit) s (fun _ s' => s'.Keeps o owned' seen)
      (fun _ => False) := by
  cases held with
  | none => exact .of_ok rfl (h.mono hown (List.Subset.refl _))
  | some p => exact unlock_leads h (hfault p rfl) hown

theorem forM_unlock_keeps (h : s.Keeps o owned seen) (held : Option Nat) :
    Leads (held.forM unlock : SessionM PUnit) s (fun _ s' => s'.Keeps o owned seen)
      (fun s' => s'.Keeps o owned seen) := by
  cases held with
  | none => exact .of_ok rfl h
  | some p => exact unlock_keeps h p

/-- What runs under the structural lock gives it up. -/
theorem unlockingStructure_leads {α : Type} {act : SessionM α} {gained : α → List Nat}
    {p : α → Prop}
    (h : Leads act s
      (fun a s' => s'.Keeps o (gained a ++ structuralOffset :: owned) seen ∧ p a)
      (fun s' => s'.Keeps o (structuralOffset :: owned) seen)) :
    Leads (unlockingStructure act) s
      (fun outcome s' => match outcome with
        | .ok a => s'.Keeps o (gained a ++ owned) seen ∧ p a
        | .error _ => s'.Keeps o owned seen)
      (fun _ => False) := by
  unfold unlockingStructure
  refine h.attempt.bind ?_
  rintro (e | a) s' h'
  · exact (unlock_leads h' structural_lockFault? (List.Subset.refl _)).bind
      fun _ _ h'' => .of_ok rfl h''
  · obtain ⟨hkeeps, hp⟩ := h'
    have hsub : gained a ++ structuralOffset :: owned ⊆ structuralOffset :: (gained a ++ owned) := by
      intro x hx
      simp only [List.mem_append, List.mem_cons] at hx ⊢
      tauto
    exact (unlock_leads hkeeps structural_lockFault? hsub).bind
      fun _ _ h'' => .of_ok rfl ⟨h'', hp⟩

/-- **A write under the structural lock.** -/
theorem appendLocked_settles (h : s.Keeps o (structuralOffset :: owned) seen)
    (hplain : plain → request.mode = .transient ∧ owned ⊆ held.toList ∧
      ∀ p, held = some p → lockFault? p = none) :
    Settles (appendLocked request held) s o plain := by
  unfold appendLocked
  refine ((unlockingStructure_leads
    (appendRecord_leads h request.key request.field)).mono (fun _ _ => id) (by simp)).bind ?_
  by_cases hp : plain
  · obtain ⟨hmode, howned, hfault⟩ := hplain hp
    rintro (e | appended) s' h'
    · dsimp only
      rw [if_pos (by simp [hmode])]
      refine ((forM_unlock_leads h' hfault (List.append_nil held.toList ▸ howned)).mono
        (fun _ _ => id) (by simp)).bind ?_
      intro _ s'' h''
      exact .of_error rfl (h''.finished fun _ => List.Subset.refl _)
    · obtain ⟨hkeeps, hnew⟩ := h'
      have hsub : appended.toList ++ owned ⊆ held.toList ++ appended.toList := by
        intro x hx
        rcases List.mem_append.1 hx with hx | hx
        · exact List.mem_append_right _ hx
        · exact List.mem_append_left _ (howned hx)
      dsimp only
      refine ((forM_unlock_leads hkeeps hfault hsub).mono (fun _ _ => id) (by simp)).bind ?_
      intro _ s'' h''
      rw [if_pos (by rw [hmode]; rfl)]
      refine ((forM_unlock_leads h'' hnew
        (by rw [List.append_nil]; exact List.Subset.refl _)).mono (fun _ _ => id) (by simp)).bind ?_
      intro _ s₃ h₃
      exact Settles.of_ok rfl (h₃.finished fun _ => List.Subset.refl _)
  · -- what is kept does not matter
    have hfinished : ∀ {s' : Session} {owned' : List Nat}, s'.Keeps o owned' seen → s'.Finished o plain :=
      fun hkeeps => hkeeps.finished fun ht => absurd ht hp
    rintro (e | appended) s' h'
    · dsimp only
      split
      · refine ((forM_unlock_keeps h' held).mono (fun _ _ => id) (fun _ => hfinished)).bind ?_
        intro _ s'' h''
        exact .of_error rfl (hfinished h'')
      · exact .of_error rfl (hfinished h')
    · dsimp only
      refine ((forM_unlock_keeps h'.1 held).mono (fun _ _ => id) (fun _ => hfinished)).bind ?_
      intro _ s'' h''
      split
      · refine ((forM_unlock_keeps h'' appended).mono (fun _ _ => id) (fun _ => hfinished)).bind ?_
        intro _ s₃ h₃
        exact Settles.of_ok rfl (hfinished h₃)
      · exact Settles.of_ok rfl (hfinished h'')

/-- **A write that is about to append** takes the structural lock or waits for it. -/
theorem append_ends (h : s.Keeps o owned seen) (hreq : requestFault? request = none)
    (hplain : plain → request.mode = .transient ∧ owned ⊆ held.toList ∧
      ∀ p, held = some p → Header.length ≤ p ∧ lockFault? p = none) :
    Leads (append request held) s (Ends o plain (.write request)) (fun s' => s'.Finished o plain) := by
  unfold append
  refine ((tryLock_leads h structuralOffset).mono (fun _ _ => id)
    fun _ hfault => absurd structural_lockFault? hfault.2).bind ?_
  rintro granted s' ⟨-, ⟨rfl, rfl⟩ | ⟨rfl, rfl, hblocks⟩⟩
  · refine (appendLocked_settles (h.hold structuralOffset) fun hp => ?_).ends
    obtain ⟨hmode, howned, hrightful⟩ := hplain hp
    exact ⟨hmode, howned, fun p hheld => (hrightful p hheld).2⟩
  · refine .of_ok rfl (.waiting (h.mono (List.Subset.refl _) (List.nil_subset _)) rfl hblocks ?_
      fun hp => (hplain hp).2)
    refine ⟨by rintro span ⟨⟩, ?_⟩
    rintro _ ⟨⟩
    exact hreq

theorem finishInPlace_settles {span : Span} (h : s.Keeps o owned seen)
    (hplain : plain → request.mode = .transient ∧ owned ⊆ [span.offset] ∧
      lockFault? span.offset = none) :
    Settles (finishInPlace request span) s o plain := by
  unfold finishInPlace
  by_cases hp : plain
  · obtain ⟨hmode, howned, hfault⟩ := hplain hp
    rw [if_pos (by rw [hmode]; rfl)]
    refine ((unlock_leads h hfault howned).mono (fun _ _ => id) (by simp)).bind ?_
    intro _ s' h'
    exact Settles.of_ok rfl (h'.finished fun _ => List.Subset.refl _)
  · have hfinished : ∀ {s' : Session}, s'.Keeps o owned seen → s'.Finished o plain :=
      fun hkeeps => hkeeps.finished fun ht => absurd ht hp
    split
    · refine ((unlock_keeps h span.offset).mono (fun _ _ => id) (fun _ => hfinished)).bind ?_
      intro _ s' h'
      exact Settles.of_ok rfl (hfinished h')
    · exact Settles.of_ok rfl (hfinished h)

/-- **A write to a record that is there** patches it, or goes on to append. -/
theorem update_ends {span : Span} (h : s.Keeps o owned seen) (hlive : LiveAt s.data span)
    (hreq : requestFault? request = none)
    (hplain : plain → request.mode = .transient ∧ owned ⊆ [span.offset] ∧
      lockFault? span.offset = none) :
    Leads (update request span) s (Ends o plain (.write request))
      (fun s' => s'.Finished o plain) := by
  refine update_leads hlive hreq (finishInPlace_settles h hplain).ends
    (fun patch _ hendures => (finishInPlace_settles (h.write hendures).markModified hplain).ends) ?_
  refine append_ends h hreq fun hp => ?_
  obtain ⟨hmode, howned, hfault⟩ := hplain hp
  refine ⟨hmode, howned, ?_⟩
  rintro _ ⟨⟩
  exact ⟨hlive.bears.header_le, hfault⟩

/-- **A write that looked its key up** under the lock of its record. -/
theorem writeLocked_ends {locked : Locked} (h : locked.Keeps o owned seen s)
    (hreq : requestFault? request = none) (hplain : plain → request.mode = .transient ∧ owned = []) :
    Leads (writeLocked request locked) s (Ends o plain (.write request))
      (fun s' => s'.Finished o plain) := by
  cases locked with
  | absent =>
    refine append_ends h hreq fun hp => ⟨(hplain hp).1, ?_, by rintro p ⟨⟩⟩
    rw [(hplain hp).2]
    exact List.nil_subset _
  | granted span =>
    obtain ⟨hkeeps, hlive, hfault⟩ := h
    refine update_ends hkeeps hlive hreq fun hp => ⟨(hplain hp).1, ?_, hfault⟩
    rw [(hplain hp).2]
    exact List.Subset.refl _
  | busy span =>
    obtain ⟨hkeeps, hspan, hblocks⟩ := h
    refine .of_ok rfl (.waiting (hkeeps.mono (List.Subset.refl _) (List.nil_subset _)) rfl hblocks ?_
      fun hp => ⟨?_, by rintro p ⟨⟩⟩)
    · refine ⟨?_, ?_⟩
      · rintro _ ⟨⟩
        exact hspan
      · rintro _ ⟨⟩
        exact hreq
    · rw [(hplain hp).2]
      exact List.nil_subset _

/-- **A write from its beginning.** -/
theorem write_ends (h : s.Keeps o owned seen)
    (hplain : plain → request.mode = .transient ∧ owned = []) :
    Leads (write request) s (Ends o plain (.write request)) (fun s' => s'.Finished o plain) := by
  have hfinished : ∀ {s' : Session}, s'.Keeps o owned seen → s'.Finished o plain :=
    fun hkeeps => hkeeps.finished fun hp => (hplain hp).2 ▸ List.Subset.refl _
  unfold write
  cases hreq : requestFault? request with
  | some fault => exact .of_error rfl (hfinished h)
  | none =>
    dsimp only
    split
    · refine ((locateLocking_leads h request.key .ifMissing).mono (fun _ _ => id)
        (fun _ => hfinished)).bind ?_
      exact fun locked s' h' => writeLocked_ends h' hreq hplain
    · next hacquires =>
      have hnot : ¬ plain := fun hp => hacquires (by rw [(hplain hp).1]; rfl)
      refine ((locate_leads h request.key .ifMissing).mono (fun _ _ => id)
        (fun _ => hfinished)).bind ?_
      rintro (_ | span) s' ⟨h', hfound⟩
      · exact append_ends h' hreq fun hp => absurd hp hnot
      · exact update_ends h' (hfound span rfl) hreq fun hp => absurd hp hnot

/-! ## Reading, deleting and sorting -/

/-- A record that was found is answered; the record of a locked lookup stays locked. -/
theorem readFound_settles {part : Part} {found : Option Span} (h : s.Keeps o owned seen)
    (hlive : ∀ span, found = some span → LiveAt s.data span) (hplain : plain → owned = []) :
    Settles (readFound part found) s o plain := by
  have hfinished : s.Finished o plain := h.finished fun hp => hplain hp ▸ List.Subset.refl _
  cases found with
  | none => exact Settles.of_ok rfl hfinished
  | some span =>
    refine ((recordAt_leads (hlive span rfl)).mono (fun _ _ => id) (by simp)).bind ?_
    rintro r s' ⟨rfl, -⟩
    exact Settles.of_ok rfl hfinished

/-- **A lookup that locks** and answers. -/
theorem readLocked_ends {key : Bytes} {part : Part} {locked : Locked}
    (h : locked.Keeps o owned seen s) (hplain : ¬ plain) :
    Leads (readLocked key part locked) s (Ends o plain (.read key part true))
      (fun s' => s'.Finished o plain) := by
  cases locked with
  | absent =>
    have hnone : ∀ span, none = some span → LiveAt s.data span := by simp
    exact (readFound_settles h hnone fun hp => absurd hp hplain).ends
  | granted span =>
    have hsome : ∀ span', some span = some span' → LiveAt s.data span' := by
      rintro _ ⟨⟩
      exact h.2.1
    exact (readFound_settles h.1 hsome fun hp => absurd hp hplain).ends
  | busy span =>
    obtain ⟨hkeeps, hspan, hblocks⟩ := h
    refine .of_ok rfl (.waiting (hkeeps.mono (List.Subset.refl _) (List.nil_subset _)) rfl hblocks ?_
      fun hp => absurd hp hplain)
    refine ⟨?_, by rintro request ⟨⟩⟩
    rintro _ ⟨⟩
    exact hspan

theorem read_ends (h : s.Keeps o owned seen) (key : Bytes) (part : Part) (keepLock : Bool)
    (hplain : plain → keepLock = false ∧ owned = []) :
    Leads (read key part keepLock) s (Ends o plain (.read key part keepLock))
      (fun s' => s'.Finished o plain) := by
  have hfinished : ∀ {s' : Session}, s'.Keeps o owned seen → s'.Finished o plain :=
    fun hkeeps => hkeeps.finished fun hp => (hplain hp).2 ▸ List.Subset.refl _
  unfold read
  cases keepLock with
  | true =>
    rw [if_pos rfl]
    refine ((locateLocking_leads h key .ifMissing).mono (fun _ _ => id) (fun _ => hfinished)).bind ?_
    exact fun locked s' h' => readLocked_ends h' fun hp => by cases (hplain hp).1
  | false =>
    rw [if_neg (by simp)]
    refine ((locate_leads h key .ifMissing).mono (fun _ _ => id) (fun _ => hfinished)).bind ?_
    exact fun found s' h' => (readFound_settles h'.1 h'.2 fun hp => (hplain hp).2).ends

theorem decodeAt_settles (h : s.Keeps o owned seen) (offset : Nat) (locked : Bool)
    (hplain : plain → owned = []) :
    Settles (decodeAt offset locked) s o plain := by
  have hfinished : ∀ {s' : Session}, s'.Keeps o owned seen → s'.Finished o plain :=
    fun hkeeps => hkeeps.finished fun hp => hplain hp ▸ List.Subset.refl _
  unfold decodeAt
  refine .get_bind ?_
  split
  · exact Settles.of_ok rfl (hfinished h)
  · cases locked with
    | true =>
      rw [if_pos rfl]
      refine ((unlock_keeps h offset).mono (fun _ _ => id) (fun _ => hfinished)).bind ?_
      exact fun _ s' h' => Settles.of_ok rfl (hfinished h')
    | false => exact Settles.of_ok rfl (hfinished h)

theorem readMapped_ends (h : s.Keeps o owned seen) (offset : Nat) (keepLock : Bool)
    (hplain : plain → keepLock = false ∧ owned = []) :
    Leads (readMapped offset keepLock) s (Ends o plain (.readAt offset keepLock))
      (fun s' => s'.Finished o plain) := by
  have hfinished : s.Finished o plain := h.finished fun hp => (hplain hp).2 ▸ List.Subset.refl _
  unfold readMapped
  refine .get_bind ?_
  dsimp only
  split
  · exact .of_ok rfl (.answered hfinished)
  · split
    · next hkeep =>
      have hnot : ¬ plain := fun hp => by
        rw [(hplain hp).1] at hkeep
        cases hkeep
      refine ((acquireRecord_leads h offset).mono (fun _ _ => id) ?_).bind ?_
      · rintro _ rfl
        exact hfinished
      · rintro granted s' ⟨-, ⟨rfl, rfl⟩ | ⟨rfl, rfl, hblocks⟩⟩
        · exact (decodeAt_settles (h.hold offset) offset true fun hp => absurd hp hnot).ends
        · refine .of_ok rfl (.waiting (h.mono (List.Subset.refl _) (List.nil_subset _)) ?_ hblocks
            ⟨by rintro span ⟨⟩, by rintro request ⟨⟩⟩ fun hp => absurd hp hnot)
          rw [hkeep]
          rfl
    · exact (decodeAt_settles h offset false fun hp => (hplain hp).2).ends

theorem readAt_ends (h : s.Keeps o owned seen) (offset : Nat) (keepLock : Bool)
    (hplain : plain → keepLock = false ∧ owned = []) :
    Leads (readAt offset keepLock) s (Ends o plain (.readAt offset keepLock))
      (fun s' => s'.Finished o plain) := by
  rw [readAt_eq]
  refine .get_bind ?_
  split
  · refine ((refresh_leads h).mono (fun _ _ => id) fun _ hkeeps => ?_).bind
      fun _ s' h' => readMapped_ends h' offset keepLock hplain
    exact hkeeps.finished fun hp => (hplain hp).2 ▸ List.Subset.refl _
  · exact readMapped_ends h offset keepLock hplain

/-- **A delete that looked its key up** under the lock of its record. -/
theorem deleteLocked_ends {key : Bytes} {locked : Locked} (h : locked.Keeps o owned seen s)
    (hplain : plain → owned = []) :
    Leads (deleteLocked key locked) s (Ends o plain (.delete key)) (fun s' => s'.Finished o plain) := by
  have hfinished : ∀ {s' : Session}, s'.Keeps o owned seen → s'.Finished o plain :=
    fun hkeeps => hkeeps.finished fun hp => hplain hp ▸ List.Subset.refl _
  cases locked with
  | absent => exact .of_ok rfl (.answered (hfinished h))
  | granted span =>
    obtain ⟨hkeeps, hlive, hfault⟩ := h
    have hdead := hkeeps.write ((Patch.Mild.death (Session.Keeps.bears_file hlive.bears)).endures
      hkeeps.steady.legible.length_le)
    refine .modify_bind (((unlock_leads hdead.forget hfault (List.Subset.refl _)).mono
      (fun _ _ => id) (by simp)).bind ?_)
    intro _ s' h'
    exact .modify_bind (.of_ok rfl (.answered (hfinished h'.markModified)))
  | busy span =>
    obtain ⟨hkeeps, hspan, hblocks⟩ := h
    refine .of_ok rfl (.waiting (hkeeps.mono (List.Subset.refl _) (List.nil_subset _)) rfl hblocks ?_
      fun hp => ⟨hplain hp ▸ List.nil_subset _, by rintro p ⟨⟩⟩)
    refine ⟨?_, by rintro request ⟨⟩⟩
    rintro _ ⟨⟩
    exact hspan

/-- **A sort under the structural lock.** -/
theorem resortLocked_settles (h : s.Keeps o (structuralOffset :: owned) seen)
    (hplain : plain → owned = []) :
    Settles resortLocked s o plain := by
  have hfinished : ∀ {s' : Session}, s'.Keeps o owned seen → s'.Finished o plain :=
    fun hkeeps => hkeeps.finished fun hp => hplain hp ▸ List.Subset.refl _
  have hsorts : Leads resort s
      (fun _ s' => s'.Keeps o ([] ++ structuralOffset :: owned) seen ∧ True)
      (fun s' => s'.Keeps o (structuralOffset :: owned) seen) :=
    (resort_leads h).mono (fun _ _ h' => ⟨h', trivial⟩) fun _ => id
  unfold resortLocked
  refine ((unlockingStructure_leads hsorts).mono (fun _ _ => id) (by simp)).bind ?_
  rintro (e | ⟨⟩) s' h'
  · exact .of_error rfl (hfinished h')
  · exact Settles.of_ok rfl (hfinished h'.1)

end SessionM

/-! ## Stretches -/

section Stretches

open SessionM

variable {s : Session} {o : Outset} {plain : Prop} {owned : List Nat}

/-- **A call from its beginning.** -/
theorem Call.start_ends (h : s.Keeps o owned []) (call : Call)
    (hplain : plain → call.Transient ∧ owned = []) :
    Leads call.start s (Ends o plain call) (fun s' => s'.Finished o plain) := by
  have howned : plain → owned = [] := fun hp => (hplain hp).2
  have hfinished : ∀ {s' : Session}, s'.Keeps o owned [] → s'.Finished o plain :=
    fun hkeeps => hkeeps.finished fun hp => howned hp ▸ List.Subset.refl _
  have hcounter : ∀ offset, Leads (counter offset) s (fun _ s' => s'.Finished o plain)
      (fun s' => s'.Finished o plain) := by
    intro offset
    refine (counter_leads s offset).mono ?_ ?_
    · rintro _ _ rfl
      exact hfinished h
    · rintro _ rfl
      exact hfinished h
  cases call with
  | read key part keepLock => exact read_ends h key part keepLock hplain
  | readAt offset keepLock => exact readAt_ends h offset keepLock hplain
  | records =>
    refine ((refresh_leads h).mono (fun _ _ => id) (fun _ => hfinished)).bind ?_
    exact fun _ s' h' => .of_ok rfl (.answered (hfinished h'))
  | appendSeq => exact (hcounter _).answer.ends
  | sinceSort => exact (hcounter _).answer.ends
  | refresh => exact ((refresh_leads h).mono (fun _ _ => hfinished) (fun _ => hfinished)).answer.ends
  | lock offset =>
    have hnot : ¬ plain := fun hp => (hplain hp).1
    refine ((acquireRecord_leads h offset).mono (fun _ _ => id) ?_).bind ?_
    · rintro _ rfl
      exact hfinished h
    · rintro granted s' ⟨-, ⟨rfl, rfl⟩ | ⟨rfl, rfl, hblocks⟩⟩
      · exact .of_ok rfl (.answered ((h.hold offset).finished fun hp => absurd hp hnot))
      · exact .of_ok rfl (.waiting h rfl hblocks ⟨by rintro span ⟨⟩, by rintro request ⟨⟩⟩
          fun hp => absurd hp hnot)
  | unlock offset =>
    refine ((unlock_keeps h offset).mono (fun _ _ => id) (fun _ => hfinished)).bind ?_
    exact fun _ s' h' => .of_ok rfl (.answered (hfinished h'))
  | write request => exact write_ends h hplain
  | delete key =>
    refine ((locateLocking_leads h key .ifMissing).mono (fun _ _ => id) (fun _ => hfinished)).bind ?_
    exact fun locked s' h' => deleteLocked_ends h' howned
  | resort =>
    refine ((tryLock_leads h structuralOffset).mono (fun _ _ => id)
      fun _ hfault => absurd structural_lockFault? hfault.2).bind ?_
    rintro granted s' ⟨-, ⟨rfl, rfl⟩ | ⟨rfl, rfl, hblocks⟩⟩
    · exact (resortLocked_settles (h.hold structuralOffset) howned).ends
    · exact .of_ok rfl (.waiting h rfl hblocks ⟨by rintro span ⟨⟩, by rintro request ⟨⟩⟩
        fun hp => ⟨howned hp ▸ List.nil_subset _, by rintro p ⟨⟩⟩)

/-- A stage that waits for the structural lock. -/
def Stage.Structural : Stage → Prop
  | .appending _ _ | .resorting => True
  | .reading _ _ _ | .readingAt _ | .locking _ | .writing _ _ | .deleting _ _ => False

/-- **A call that got the structural lock** comes to rest. -/
theorem Stage.granted_settles {stage : Stage} (h : s.Keeps o (stage.offset :: owned) [])
    (hstructural : stage.Structural)
    (hplain : plain → stage.call.Transient ∧ owned ⊆ stage.held?.toList ∧ stage.Rightful) :
    Settles stage.granted s o plain := by
  cases stage with
  | appending request held =>
    refine appendLocked_settles h fun hp => ?_
    obtain ⟨hmode, howned, hrightful⟩ := hplain hp
    exact ⟨hmode, howned, fun p hheld => (hrightful p hheld).2⟩
  | resorting => exact resortLocked_settles h fun hp => List.subset_nil.1 (hplain hp).2.1
  | _ => exact hstructural.elim

/-- **A call that goes on**, once it has the lock that it waited for. -/
theorem Stage.granted_ends {stage : Stage} (h : s.Keeps o (stage.offset :: owned) [])
    (hfault : lockFault? stage.offset = none) (hsteady : stage.Steady s.data)
    (hplain : plain → stage.call.Transient ∧ owned ⊆ stage.held?.toList ∧ stage.Rightful) :
    Leads stage.granted s (Ends o plain stage.call) (fun s' => s'.Finished o plain) := by
  cases stage with
  | reading key part span =>
    have hnot : ¬ plain := fun hp => by cases (show true = false from (hplain hp).1)
    refine ((recheck_leads h key (hsteady.bears span rfl) hfault).mono (fun _ _ => id) ?_).bind ?_
    · exact fun _ h' => h'.finished fun hp => absurd hp hnot
    · exact fun locked s' h' => readLocked_ends h' hnot
  | readingAt offset =>
    have hnot : ¬ plain := fun hp => by cases (show true = false from (hplain hp).1)
    exact (decodeAt_settles h offset true fun hp => absurd hp hnot).ends
  | locking offset =>
    have hnot : ¬ plain := fun hp => (hplain hp).1
    exact (Settles.of_ok rfl (h.finished fun hp => absurd hp hnot)).ends
  | writing request span =>
    have howned : plain → owned = [] := fun hp => List.subset_nil.1 (hplain hp).2.1
    refine ((recheck_leads h request.key (hsteady.bears span rfl) hfault).mono (fun _ _ => id) ?_).bind
      ?_
    · exact fun _ h' => h'.finished fun hp => howned hp ▸ List.Subset.refl _
    · exact fun locked s' h' => writeLocked_ends h' (hsteady.request request rfl)
        fun hp => ⟨(hplain hp).1, howned hp⟩
  | deleting key span =>
    have howned : plain → owned = [] := fun hp => List.subset_nil.1 (hplain hp).2.1
    refine ((recheck_leads h key (hsteady.bears span rfl) hfault).mono (fun _ _ => id) ?_).bind ?_
    · exact fun _ h' => h'.finished fun hp => howned hp ▸ List.Subset.refl _
    · exact fun locked s' h' => deleteLocked_ends h' howned
  | appending request held => exact (Stage.granted_settles h trivial hplain).ends
  | resorting => exact (Stage.granted_settles h trivial hplain).ends

/-- A plain stage waits for a lock that can be taken. -/
theorem Stage.resume_ends {stage : Stage} (h : s.Keeps o owned []) (hsteady : stage.Steady s.data)
    (hplain : plain → stage.call.Transient ∧ owned ⊆ stage.held?.toList ∧ stage.Rightful) :
    Leads stage.resume s (Ends o plain stage.call) (fun s' => s'.Finished o plain) := by
  unfold Stage.resume
  refine ((tryLock_leads h stage.offset).mono (fun _ _ => id) ?_).bind ?_
  · rintro _ ⟨rfl, hfault⟩
    refine h.finished fun hp => ?_
    -- an append waits for the structural lock, and any other stage has nothing
    cases stage with
    | appending | resorting => exact absurd structural_lockFault? hfault
    | _ => exact (hplain hp).2.1
  · rintro granted s' ⟨hfault, ⟨rfl, rfl⟩ | ⟨rfl, rfl, hblocks⟩⟩
    · exact Stage.granted_ends (h.hold stage.offset) hfault hsteady hplain
    · exact .of_ok rfl (.waiting h rfl hblocks hsteady fun hp => (hplain hp).2)

/-- **Every stretch of every call** lets the file endure, and ends at rest or at a stage. -/
theorem Call.stretch_ends {call : Call} {pending : Option Stage} (h : s.Keeps o owned [])
    (hsame : ∀ stage, pending = some stage → stage.call = call ∧ stage.Steady s.data)
    (hplain : plain → call.Transient ∧ owned ⊆ (pending.bind Stage.held?).toList ∧
      ∀ stage, pending = some stage → stage.Rightful) :
    Leads (call.stretch pending) s (Ends o plain call) (fun s' => s'.Finished o plain) := by
  cases pending with
  | none => exact Call.start_ends h call fun hp => ⟨(hplain hp).1, List.subset_nil.1 (hplain hp).2.1⟩
  | some stage =>
    obtain ⟨rfl, hsteady⟩ := hsame stage rfl
    refine Stage.resume_ends h hsteady fun hp => ?_
    obtain ⟨hcall, howned, hrightful⟩ := hplain hp
    exact ⟨hcall, howned, hrightful stage rfl⟩

end Stretches

end RecordStore
