import Mathlib.Tactic.Common
import RecordStore.Proofs.Interference
import RecordStore.Proofs.Values

/-!
# Calls amid interference

Every call, cut into its single steps, keeps its promise to the others and stays poised, whatever the
others do between two of its steps.

* `Span.flag`, `Patch.place` — the places that writes go to.
* `Stage.Fair` — what holds of a wait, whoever goes on from it and whenever.

Principal results: `Script.refresh_meets` — both steps of a refresh; `Script.sort_meets`,
`Script.commitLine_meets`, `Script.appendRecord_meets` — what runs under the structural lock;
`Call.script_meets`, `Stage.script_meets` — every call.
-/

set_option autoImplicit false

namespace RecordStore

/-- Where the flag of a record stands. -/
def Span.flag (span : Span) : Span := ⟨span.offset, 1⟩

/-- Where a write goes. -/
def Patch.place (patch : Patch) : Span := ⟨patch.offset, patch.data.length⟩

/-- What holds of a wait, whoever goes on from it and whenever: its record stands behind the header, and
its request has no fault. -/
structure Stage.Fair (stage : Stage) : Prop where
  behind : ∀ span, stage.span? = some span → Header.length ≤ span.offset
  request : ∀ request, stage.call = .write request → SessionM.requestFault? request = none

/-- A byte that is seen is a byte of the file. -/
theorem View.getElem?_of_read {view : View} {bytes : Bytes} {i : Nat} {b : UInt8}
    (h : (view.read bytes)[i]? = some b) : bytes[i]? = some b := by
  rw [← h]
  exact getElem?_of_prefix (List.take_prefix _ _) (List.getElem?_eq_some_iff.1 h).1

namespace Session

variable {t : Terms} {locked : Prop} {mapping : Bool} {s : Session} {p : List Line}

/-! ## What a client finds -/

theorem getElem?_data {i : Nat} (hi : i < s.data.length) : s.data[i]? = s.file.bytes[i]? :=
  Eq.symm <| getElem?_of_prefix (List.take_prefix _ _) hi

/-- A place behind the header where a live flag is seen. -/
theorem clear_of_live {span : Span} (hbehind : Header.length ≤ span.offset)
    (hlive : s.data[span.offset]? = some liveFlag) : Clear t.quiet s.file.bytes span.flag where
  behind := hbehind
  inside _ := (List.getElem?_eq_some_iff.1 (View.getElem?_of_read hlive)).1
  unbroken _ i hi hlt := by
    obtain rfl : i = span.offset := Nat.le_antisymm (Nat.le_of_lt_succ hlt) hi
    rw [View.getElem?_of_read hlive]
    decide

/-- The place of a value that is seen holds no newline. -/
theorem clear_of_value {span place : Span} {r : Record} {name : Bytes}
    (hbehind : Header.length ≤ span.offset) (hdec : Record.decode s.data span.offset = .ok r)
    (hplace : r.fieldSpan? name = some place) :
    Clear t.quiet s.file.bytes ⟨span.offset + place.offset, place.length⟩ := by
  obtain ⟨hlt, -, htext⟩ := Record.decode_eq_ok_iff.1 hdec
  have hholds := Record.holds_fieldSpan? hplace
  have hinside := hholds.inside
  have hprefix : r.text <+: s.data.drop span.offset := by
    rw [← htext]
    exact ⟨_, takeLine_append_dropLine _⟩
  have hcount := hprefix.length_le
  have hview : s.data.length ≤ s.file.bytes.length := (List.take_prefix _ _).length_le
  rw [List.length_drop] at hcount
  refine ⟨Nat.le_trans hbehind (Nat.le_add_right _ _), fun _ => by dsimp only; omega, ?_⟩
  intro _ i hi hend hnewline
  dsimp only at hi hend
  -- the byte is one of the record's text
  obtain ⟨k, rfl⟩ := Nat.exists_eq_add_of_le hi
  have hk : place.offset + k < r.text.length := by omega
  have hat : r.text[place.offset + k]? = some newline := by
    rw [← getElem?_of_prefix hprefix hk, List.getElem?_drop, ← Nat.add_assoc,
      getElem?_data (by omega)]
    exact hnewline
  have hread : newline ∈ place.read r.text := by
    refine List.mem_of_getElem? (i := k) ?_
    rw [Span.read, List.getElem?_take_of_lt (by omega), List.getElem?_drop]
    exact hat
  exact (hholds.clean _ hread).2.2 rfl

namespace Poised

/-- A handle that remembers nothing is steady. -/
theorem steady (h : s.Poised t locked mapping p) :
    ({ s.handle with cache := none } : Handle).Steady s.file.bytes where
  legible := h.legible
  headLen_pos := h.headLen_pos
  headLen_le := h.headLen_le
  newline_eq := h.newline_eq
  sees := h.sees
  inside := h.inside
  cache := by simp

/-- **Whatever a client finds** stands behind the header, and its flag is no newline. -/
theorem find? (h : s.Poised t locked mapping p) {key : Bytes} {span : Span}
    (hfound : s.handle.find? s.data key = some span) :
    Clear t.quiet s.file.bytes span.flag := by
  have hbehind : Header.length ≤ span.offset := by
    have hlookup := hfound
    rw [Handle.find?_eq_or, Option.or_eq_some_iff] at hlookup
    rcases hlookup with hcached | ⟨-, hlookup⟩
    · obtain ⟨entry, hentry, hcheck⟩ := Option.bind_eq_some_iff.1 hcached
      dsimp only at hcheck
      split at hcheck
      · obtain rfl := Option.some.inj hcheck
        exact h.cache entry hentry
      · cases hcheck
    · obtain ⟨r, hr, -, -, rfl⟩ := h.steady.find?_record
        (show ({ s.handle with cache := none } : Handle).find? s.data key = some span by
          rw [Handle.find?_eq_or]
          exact hlookup)
      exact hr.header_le
  exact clear_of_live hbehind (Script.live_of_find? hfound)

/-! ## Steps of the handle -/

theorem markModified (h : s.Poised t locked mapping p) : s.markModified.Poised t locked mapping p := { h with }

theorem forget (h : s.Poised t locked mapping p) : s.forget.Poised t locked mapping p :=
  { h with cache := by simp [Session.forget] }

theorem remember (h : s.Poised t locked mapping p) {span : Span} (hbehind : Header.length ≤ span.offset) :
    (s.remember span).Poised t locked mapping p :=
  { h with
    cache := by
      rintro entry ⟨⟩
      exact hbehind }

/-- The first step of a refresh: whatever is published by now has to come into the mapping. -/
theorem noteSeq (h : s.Poised t locked mapping p) {seq : UInt32}
    (hseq : appendSeq? s.file.bytes = some seq) :
    (({ s with handle := { s.handle with seenSeq := seq } } : Session).forget).Poised t locked true p :=
  { h with
    cache := by simp [Session.forget]
    trails := by
      refine ⟨p, [], (List.append_nil p).symm, ?_, by simp⟩
      show appendSeq? s.file.bytes = some (seq + 0)
      rw [hseq, UInt32.add_zero] }

/-- **The second step of a refresh**: whatever was published by the first one comes into the mapping. -/
theorem remap (h : s.Poised t locked mapping p) : s.remap.Poised t locked false p :=
  { h with
    sees := h.legible.length_le
    inside := Nat.le_refl _
    base := h.sound.base
    boundary := fun hquiet => endsLine_iff.1 (h.endsLine hquiet)
    trails := by
      obtain ⟨old, new, hp, hseq, -⟩ := h.trails
      refine ⟨old, new, hp, hseq, fun _ line hline => h.sound.within line ?_⟩
      rw [show p = old ++ new from hp]
      exact List.mem_append_left _ hline }

end Poised

end Session

namespace Script

open SessionM (Leads)

variable {t : Terms} {locked : Prop} {s : Session} {p : List Line}

/-- What is not asked about. -/
abbrev anyhow {α : Type} : α → Session → List Line → Prop := fun _ _ _ => True

theorem look_meets (h : s.Poised t locked false p) :
    look.Meets t locked (fun a s _ => a = s) s p :=
  .inspect h fun _ _ _ _ => .of_ok rfl ⟨rfl, rfl⟩

theorem onlyIf_meets {asked : Bool} {script : Script Unit} (h : s.Poised t locked false p)
    (hscript : script.Meets t locked anyhow s p) :
    (onlyIf asked script).Meets t locked anyhow s p := by
  cases asked with
  | true => exact hscript
  | false => exact .pure h trivial

/-- A step that changes the handle alone. -/
theorem move_meets (h : s.Poised t locked false p) {f : Session → Session}
    (hf : ∀ s p, s.Poised t locked false p → (f s).holder = s.holder ∧ (f s).file = s.file ∧
      (f s).Poised t locked false p) : (move .plain f).Meets t locked anyhow s p :=
  .move h fun s₁ p₁ h₁ _ =>
    have hmoved := hf s₁ p₁ h₁
    ⟨hmoved.1, hmoved.2.1, hmoved.2.2, trivial⟩

/-- **Writes inside lines**, one by one. -/
theorem writeAll_meets {mark : Mark} {patches : List Patch} (hmark : mark = .plain ∨ mark = .slot)
    (h : s.Poised t locked false p) (hplaces : (mark = .slot → t.whole) → ∀ patch ∈ patches,
      Clear t.quiet s.file.bytes patch.place ∧ newline ∉ patch.data) :
    (writeAll mark patches).Meets t locked anyhow s p := by
  induction patches generalizing s p with
  | nil => exact .pure h trivial
  | cons patch more ih =>
    have hkeeps : mark ≠ .remap ∧ ∀ p, mark.published p = p := by
      rcases hmark with rfl | rfl <;> exact ⟨by decide, fun _ => rfl⟩
    have hwrite : (write mark patch).Meets t locked
        (fun _ s' _ => Kept t.quiet s.file.bytes s'.file.bytes) s p := by
      refine .write hkeeps.1 h fun s₁ p₁ h₁ ha hslot => ?_
      have hplace := hplaces hslot patch (List.mem_cons_self ..)
      have hpermits := h₁.permits_clear (hplace.1.kept ha.yields.kept) fun _ => hplace.2
      rw [hkeeps.2]
      exact ⟨hpermits, ha.yields.kept.trans hpermits.carries.kept⟩
    refine hwrite.bind fun _ s₂ p₂ h₂ hkept => ih h₂ fun hslot patch hp => ?_
    have hplace := hplaces hslot patch (List.mem_cons_of_mem _ hp)
    exact ⟨hplace.1.kept hkept, hplace.2⟩

/-- A counter is read. -/
theorem counterLook_meets (h : s.Poised t locked false p) (offset : Nat) :
    (atom (SessionM.counter offset)).Meets t locked anyhow s p :=
  .inspect h fun s₁ _ _ _ => (SessionM.counter_leads s₁ offset).mono (fun _ _ hs => ⟨hs, trivial⟩)
    fun _ => id

/-- **A counter behind the append sequence** is set. -/
theorem counter_meets (h : s.Poised t locked false p) {c : Header.Counter}
    (hc : Header.modifiedAt ≤ c.offset) (v : UInt32) :
    (write .plain ⟨c.offset, Hex.word v⟩).Meets t locked anyhow s p :=
  .write (by decide) h fun _ _ h₁ _ _ => ⟨h₁.permits_counter hc v, trivial⟩

/-! ## Lookups -/

/-- **Both steps of a refresh.** -/
theorem refresh_meets (h : s.Poised t locked false p) : refresh.Meets t locked anyhow s p := by
  refine ⟨h, fun s₁ p₁ ha _ => ?_⟩
  have h₁ := h.after ha
  have hnote := noteSeq_eq_match s₁
  have hread : Header.counterAt? s₁.data Header.appendSeqAt = appendSeq? s₁.file.bytes :=
    h₁.counterAt? .appendSeq
  obtain ⟨old, new, -, hseq, -⟩ := h₁.trails
  rw [hread, hseq] at hnote
  generalize s₁.handle.seenSeq + UInt32.ofNat new.length = seq at hseq hnote
  dsimp only at hnote
  split at hnote
  · simp only [SessionM.final_ok hnote, hnote]
    exact ⟨h₁.grants_of_file rfl rfl, h₁, trivial⟩
  · simp only [SessionM.final_ok hnote, hnote]
    refine ⟨h₁.grants_of_file rfl rfl, h₁.noteSeq hseq, fun s₂ p₂ ha₂ _ => ?_⟩
    have h₂ := (h₁.noteSeq hseq).after ha₂
    exact ⟨h₂.grants_of_file rfl rfl, h₂.remap, trivial⟩

theorem refreshIf_meets (h : s.Poised t locked false p) (asked : Bool) :
    (refreshIf asked).Meets t locked anyhow s p := by
  cases asked with
  | true => exact refresh_meets h
  | false => exact .pure h trivial

/-- What a lookup finds. -/
def Finds (t : Terms) (found : Option Span) (s : Session) (_ : List Line) : Prop :=
  ∀ span, found = some span → Clear t.quiet s.file.bytes span.flag

theorem find_meets (h : s.Poised t locked false p) (key : Bytes) :
    (atom (SessionM.find key)).Meets t locked (Finds t) s p := by
  refine .atom h fun s₁ p₁ h₁ _ => ?_
  unfold SessionM.find
  refine .get_bind ?_
  cases hfound : s₁.handle.find? s₁.data key with
  | none => exact .of_ok rfl ⟨h₁.grants_of_file rfl rfl, h₁, fun _ hnone => by cases hnone⟩
  | some span =>
    have hclear := h₁.find? hfound
    refine .of_ok rfl ⟨h₁.grants_of_file rfl rfl, h₁.remember hclear.behind, ?_⟩
    rintro _ ⟨⟩
    exact hclear

theorem settle_meets (h : s.Poised t locked false p) {found : Option Span} (hfound : Finds t found s p) :
    (settle found).Meets t locked (Finds t) s p := by
  cases found with
  | none => exact .pure h hfound
  | some span =>
    have hbehind : Header.length ≤ span.offset := (hfound span rfl).behind
    have hremember : (move .plain fun s => s.remember span).Meets t locked
        (fun _ => Finds t (some span)) s p := by
      refine .move h fun s₁ p₁ h₁ ha => ⟨rfl, rfl, h₁.remember hbehind, fun found hsome => ?_⟩
      exact (hfound found hsome).kept ha.yields.kept
    exact hremember.bind fun _ _ _ h₂ hfound₂ => .pure h₂ hfound₂

/-- **A lookup** finds places inside lines. -/
theorem locate_meets (h : s.Poised t locked false p) (key : Bytes) (freshness : SessionM.Freshness) :
    (locate key freshness).Meets t locked (Finds t) s p := by
  refine (look_meets h).bind ?_
  rintro s₁ _ p₁ h₁ rfl
  have hfound : Finds t (s₁.handle.find? s₁.data key) s₁ p₁ := fun span hspan => h₁.find? hspan
  refine ((refreshIf_meets h₁ _).keeps (.refl _ _)).bind ?_
  rintro changed s₂ p₂ h₂ ⟨-, hkept⟩
  split
  · exact find_meets h₂ key
  · exact settle_meets h₂ fun span hspan => (hfound span hspan).kept hkept

/-- What a lookup that locks comes to. -/
def Comes (t : Terms) (locked : SessionM.Locked) (s : Session) (_ : List Line) : Prop :=
  match locked with
  | .absent => True
  | .granted span => Clear t.quiet s.file.bytes span.flag
  | .busy span => Header.length ≤ span.offset

/-- Whether a record is still live. -/
theorem looksLive_meets (h : s.Poised t locked false p) {span : Span}
    (hbehind : Header.length ≤ span.offset) : (atom (looksLive span.offset)).Meets t locked
      (fun live s _ => live = true → Clear t.quiet s.file.bytes span.flag) s p :=
  .inspect h fun _ _ _ _ => .of_ok rfl ⟨rfl, fun hlive =>
    Session.clear_of_live hbehind (beq_iff_eq.1 hlive)⟩

/-! ### Locks -/

/-- **A step that changes locks alone.**  While the client has the structural lock, a quiet run makes
the file no longer. -/
theorem relock_meets {α : Type} {act : SessionM α} (post : α → Session → Prop)
    (h : s.Poised t locked false p)
    (hact : ∀ s, Leads act s (fun a s' => s.Relocked locked s' ∧ post a s')
      (fun s' => s.Relocked locked s')) :
    (atom act).Meets t locked (fun a s' _ => post a s' ∧
      (locked → t.quiet → s'.file.bytes.length = s.file.bytes.length)) s p := by
  refine .atom h fun s₁ p₁ h₁ ha => (hact s₁).mono ?_ fun s' hr => ⟨hr.grants h₁, hr.poised h₁⟩
  rintro a s' ⟨hr, hpost⟩
  refine ⟨hr.grants h₁, hr.poised h₁, hpost, fun hlocked hquiet => ?_⟩
  have hsame := (ha.yields.still (h.held hlocked)).2 hquiet
  rw [hr.eq]
  exact hsame

/-- What a client has once a lock was asked for. -/
def Granted (offset : Nat) (granted : Bool) (s : Session) : Prop :=
  granted = true → s.file.locks.holdsExclusive s.holder offset = true

theorem tryLock_relocks (locked : Prop) (s : Session) (offset : Nat) :
    Leads (SessionM.tryLock offset .exclusive) s
      (fun granted s' => s.Relocked locked s' ∧ Granted offset granted s')
      (fun s' => s.Relocked locked s') := by
  cases hfault : lockFault? offset with
  | some fault =>
    refine .of_error (e := .lock fault) ?_ (.refl _ _)
    unfold SessionM.tryLock
    rw [hfault]
    rfl
  | none =>
    have htry := SessionM.tryLock_eq s hfault
    split at htry
    · exact .of_ok htry ⟨.refl _ _, fun hgranted => absurd hgranted (by decide)⟩
    · next hfree => exact .of_ok htry ⟨.hold s hfree, fun _ => LockTable.holdsExclusive_set_self⟩

theorem tryLock_meets (h : s.Poised t locked false p) (offset : Nat) :
    (atom (SessionM.tryLock offset .exclusive)).Meets t locked (fun granted s' _ =>
      Granted offset granted s' ∧
        (locked → t.quiet → s'.file.bytes.length = s.file.bytes.length)) s p :=
  relock_meets (Granted offset) h fun s => tryLock_relocks locked s offset

theorem acquireRecord_meets (h : s.Poised t locked false p) (offset : Nat) :
    (atom (SessionM.acquireRecord offset)).Meets t locked anyhow s p := by
  refine (relock_meets (fun _ _ => True) h fun s => ?_).mono id fun _ _ _ _ _ => trivial
  refine (tryLock_relocks locked s offset).bind fun granted s' hr => .get_bind ?_
  split
  · exact .of_error rfl hr.1
  · exact .of_ok rfl ⟨hr.1, trivial⟩

theorem unlock_meets (h : s.Poised t locked false p) {offset : Nat}
    (hapart : locked → LockTable.Apart offset structuralOffset) :
    (atom (SessionM.unlock offset)).Meets t locked anyhow s p := by
  refine (relock_meets (fun _ _ => True) h fun s => ?_).mono id fun _ _ _ _ _ => trivial
  cases hfault : lockFault? offset with
  | some fault =>
    refine .of_error (e := .lock fault) ?_ (.refl _ _)
    unfold SessionM.unlock
    rw [hfault]
    rfl
  | none => exact .of_ok (SessionM.unlock_eq s hfault) ⟨.free s hapart, trivial⟩

theorem unlockHeld_meets (h : s.Poised t False false p) (held : Option Nat) :
    (unlockHeld held).Meets t False anyhow s p := by
  cases held with
  | none => exact .pure h trivial
  | some offset => exact unlock_meets h False.elim

/-- **A lookup that locks** finds live records, or has to wait. -/
theorem locateLocking_meets (h : s.Poised t locked false p) (key : Bytes)
    (freshness : SessionM.Freshness) : (locateLocking key freshness).Meets t locked (Comes t) s p := by
  refine (locate_meets h key freshness).bind ?_
  rintro (_ | span) s₁ p₁ h₁ hfound
  · exact .pure h₁ trivial
  · have hbehind : Header.length ≤ span.offset := (hfound span rfl).behind
    refine (acquireRecord_meets h₁ span.offset).bind fun granted s₂ p₂ h₂ _ => ?_
    cases granted with
    | false => exact .pure h₂ hbehind
    | true =>
      refine (looksLive_meets h₂ hbehind).bind fun live s₃ p₃ h₃ hlive => ?_
      cases live with
      | false => exact .pure h₃ hbehind
      | true => exact .pure h₃ (hlive rfl)

/-- **A lookup that goes on from a wait.** -/
theorem recheck_meets (h : s.Poised t False false p) (key : Bytes) {span : Span}
    (hbehind : Header.length ≤ span.offset) : (recheck key span).Meets t False (Comes t) s p := by
  refine (looksLive_meets h hbehind).bind fun live s₁ p₁ h₁ hlive => ?_
  cases live with
  | true => exact .pure h₁ (hlive rfl)
  | false =>
    refine (unlock_meets h₁ False.elim).bind fun _ s₂ p₂ h₂ _ => ?_
    exact (move_meets h₂ (f := Session.forget) fun _ _ h => ⟨rfl, rfl, h.forget⟩).bind fun _ _ _ h₃ _ =>
      locateLocking_meets h₃ key .always

/-! ## Sorting -/

/-- The slots that a sort writes stand inside lines, unless the version ends in a newline. -/
theorem clear_slotPatches (h : s.Poised t locked false p) (hwhole : t.whole) {patch : Patch}
    (hpatch : patch ∈ slotPatches s) :
    Clear t.quiet s.file.bytes patch.place ∧ newline ∉ patch.data := by
  obtain ⟨⟨offset, target⟩, hplan, rfl⟩ := List.mem_map.1 hpatch
  obtain ⟨line, hline, rfl⟩ := List.mem_map.1 (List.of_mem_zip hplan).1
  refine ⟨?_, Hex.newline_notMem_word _⟩
  have hread := h.steady.legible_view
  have hstart := h.steady.newline_view
  have hsplit : s.data[Header.versionEnd]? ≠ some newline := fun hat =>
    h.sound.whole hwhole (View.getElem?_of_read hat)
  obtain ⟨hmem, hslot⟩ := List.mem_filter.1 hline
  have hbehind := (Index.offset_of_slotted hread hstart hline).resolve_right fun hearly =>
    hsplit hearly.2
  have hcomplete : Complete s.data line := (complete_of_slotted hread hstart hmem hslot).resolve_right
    fun hearly => by
      simp only [Header.length, slotAt, Header.appendSeqAt] at hbehind hearly
      omega
  have hline := (complete_take_iff.1 hcomplete).1
  obtain ⟨body, hbody, htext⟩ := hline.isLine
  have hlong : keyAt < body.length + 1 := by
    simp only [hasSlot, htext, Bool.and_eq_true, decide_eq_true_eq, List.length_append,
      List.length_singleton] at hslot
    exact hslot.1.1
  have hend := hline.end_le
  simp only [htext, List.length_append, List.length_singleton] at hend
  have hslots : slotAt + Hex.wordLen < keyAt := by decide
  have hword : (⟨line.offset + slotAt, Hex.word (UInt32.ofNat target)⟩ : Patch).place.length =
      Hex.wordLen := rfl
  refine ⟨Nat.le_trans hbehind (Nat.le_add_right _ _), fun _ => ?_, fun _ i hi hlt hat => ?_⟩
  · simp only [Patch.place, Hex.length_word]
    omega
  · simp only [Patch.place, Hex.length_word] at hi hlt
    obtain ⟨k, rfl⟩ := Nat.exists_eq_add_of_le (Nat.le_trans (Nat.le_add_right _ _) hi)
    have hk : k < body.length := by omega
    rw [hline.getElem? (by rw [htext, List.length_append]; omega), htext,
      List.getElem?_append_left hk] at hat
    exact hbody (List.mem_of_getElem? hat)

/-- **A sort**, slot by slot. -/
theorem sort_meets (h : s.Poised t locked false p) : sort.Meets t locked anyhow s p := by
  refine (look_meets h).bind ?_
  rintro s₁ _ p₁ h₁ rfl
  refine (writeAll_meets (.inr rfl) h₁ fun hslot _ hp =>
    clear_slotPatches h₁ (hslot rfl) hp).bind fun _ s₂ p₂ h₂ _ => ?_
  refine (counter_meets h₂ (c := .sinceSort) (by decide) 0).bind fun _ s₃ p₃ h₃ _ => ?_
  have hstamp : (move .plain fun s => s.write s.stamp).Meets t locked anyhow s₃ p₃ :=
    .moveWrite (by decide) h₃ fun s _ h _ _ =>
      ⟨h.permits_counter (c := .modified) (by decide) (UInt32.ofNat s.now), trivial⟩
  exact hstamp.bind fun _ _ _ h₄ _ =>
    move_meets h₄ (f := Session.markModified) fun _ _ h => ⟨rfl, rfl, h.markModified⟩

/-- **A resort** sees the whole file, and sorts. -/
theorem resort_meets (h : s.Poised t locked false p) : resort.Meets t locked anyhow s p :=
  (refresh_meets h).bind fun _ _ _ h₁ _ => sort_meets h₁

/-! ## Appending -/

/-- A line that is appended ends in a newline. -/
theorem endsLine_of_drafted {data key line : Bytes} {field : Option Field} {old : Option Span}
    (h : Drafted data key field old line) : endsLine line = true := by
  cases h with
  | fresh field => exact endsLine_append (by simp)
  | copy record => exact endsLine_append (by simp)

theorem lineToAppend_meets (h : s.Poised t locked false p) (key : Bytes) (field : Option Field)
    (old : Option Span) : (atom (SessionM.lineToAppend key field old)).Meets t locked
      (fun drafted _ _ => ∀ line, drafted = some line → endsLine line = true) s p := by
  refine .inspect h fun s₁ p₁ _ _ => ?_
  rcases SessionM.lineToAppend_drafted s₁ key field old with ⟨line, heq, hdrafted⟩ | ⟨span, -, -, heq⟩ |
    ⟨e, heq, -⟩
  · refine .of_ok heq ⟨rfl, ?_⟩
    rintro _ ⟨⟩
    exact endsLine_of_drafted hdrafted
  · exact .of_ok heq ⟨rfl, fun _ hnone => by cases hnone⟩
  · exact .of_error heq rfl

/-- Where the next line goes. -/
def Next (t : Terms) (offset : Nat) (s : Session) (_ : List Line) : Prop :=
  Header.length ≤ offset ∧ (t.quiet → offset = s.file.bytes.length)

/-- **The end of the file is sealed**, and a quiet run never has to. -/
theorem sealTail_meets (h : s.Poised t locked false p) : sealTail.Meets t locked (Next t) s p := by
  refine (look_meets h).bind ?_
  rintro s₁ _ p₁ h₁ rfl
  have hlong := h₁.legible.length_le
  split
  · exact .pure h₁ ⟨hlong, fun _ => rfl⟩
  · next hopen =>
    have hforeign : ¬ t.quiet := fun hquiet => hopen (h₁.endsLine hquiet)
    have hnewline : (write .plain ⟨s₁.file.bytes.length, [newline]⟩).Meets t locked anyhow s₁ p₁ :=
      .write (by decide) h₁ fun _ _ h _ _ =>
        ⟨h.permits_clear ⟨hlong, fun hquiet => absurd hquiet hforeign,
          fun hquiet => absurd hquiet hforeign⟩ fun hquiet => absurd hquiet hforeign, trivial⟩
    refine hnewline.bind fun _ s₂ p₂ h₂ _ => ?_
    refine (move_meets h₂ (f := fun s => s.remap.forget) fun _ _ h =>
      ⟨rfl, rfl, h.remap.forget⟩).bind fun _ s₃ p₃ h₃ _ => ?_
    refine (look_meets h₃).bind ?_
    rintro s₄ _ p₄ h₄ rfl
    refine (writeAll_meets (.inl rfl) h₄ fun _ patch hpatch => ?_).bind fun _ s₅ p₅ h₅ _ =>
      .pure h₅ ⟨Nat.le_succ_of_le hlong, fun hquiet => absurd hquiet hforeign⟩
    -- the fragment stands behind the newline of the header
    unfold fragmentDeath at hpatch
    dsimp only at hpatch
    split at hpatch
    · obtain rfl := List.mem_singleton.1 hpatch
      refine ⟨⟨?_, fun hquiet => absurd hquiet hforeign, fun hquiet => absurd hquiet hforeign⟩,
        (by decide : newline ∉ [deadFlag])⟩
      have hread := h₄.steady.legible_view
      refine lt_length_wholeLines (i := Header.length - 1) ?_
      rw [List.getElem?_take_of_lt (Nat.lt_of_lt_of_le (by decide) hlong)]
      exact hread.newline_eq
    · cases hpatch

/-- **A line is written** where the next one goes. -/
theorem writeLine_meets (h : s.Poised t True false p) (line : Line) (hnext : Next t line.offset s p)
    (hline : endsLine line.text = true) : (write .plain ⟨line.offset, line.text⟩).Meets t True
      (fun _ s' _ => line.Within s'.file.bytes.length) s p := by
  refine .write (by decide) h fun s₁ p₁ h₁ ha _ => ?_
  have hend : t.quiet → line.offset = s₁.file.bytes.length := fun hquiet =>
    (hnext.2 hquiet).trans ((ha.yields.still (h.held trivial)).2 hquiet).symm
  have hpermits : s₁.Permits t p₁ ⟨line.offset, line.text⟩ p₁ :=
    h₁.permits_line (h₁.held trivial) hnext.1 hend hline
  have hne : line.text ≠ [] := List.ne_nil_of_length_pos (length_pos_of_endsLine hline)
  refine ⟨hpermits, ?_⟩
  rw [Session.write_bytes]
  exact (end_le_length_apply hne :
    (⟨line.offset, line.text⟩ : Patch).offset + line.text.length ≤ _)

theorem appendSeq_meets (h : s.Poised t locked false p) : (atom SessionM.appendSeq).Meets t locked
    (fun v s _ => appendSeq? s.file.bytes = some v) s p := by
  refine .inspect h fun s₁ p₁ h₁ _ => ?_
  have hread : Header.counterAt? s₁.data Header.appendSeqAt = appendSeq? s₁.file.bytes :=
    h₁.counterAt? .appendSeq
  have hcounter : SessionM.appendSeq s₁ = _ := SessionM.counter_eq_match s₁ Header.appendSeqAt
  rw [hread] at hcounter
  cases hseq : appendSeq? s₁.file.bytes with
  | none =>
    rw [hseq] at hcounter
    exact .of_error hcounter rfl
  | some v =>
    rw [hseq] at hcounter
    exact .of_ok hcounter ⟨rfl, rfl⟩

/-- **The append sequence behind a line is written.**  What was read is still that of the file, because
the client has the structural lock. -/
theorem publish_meets (h : s.Poised t True false p) {v : UInt32} {line : Line}
    (hv : appendSeq? s.file.bytes = some v) (hwithin : line.Within s.file.bytes.length) :
    (write (.publish line) ⟨Header.appendSeqAt, Hex.word (v + 1)⟩).Meets t True anyhow s p :=
  .write (by simp) h fun _ _ h₁ ha _ =>
    ⟨h₁.permits_publish (h₁.held trivial) (ha.yields.appendSeq?_eq (h.held trivial) hv)
      (Nat.le_trans hwithin ha.yields.kept.length_le), trivial⟩

/-- The old copies that a publication buries. -/
theorem bury_meets (h : s.Poised t locked false p) {old : Option Span} (hold : Finds t old s p) :
    (writeAll .plain (old.map fun span => (⟨span.offset, [deadFlag]⟩ : Patch)).toList).Meets t locked
      anyhow s p := by
  refine writeAll_meets (.inl rfl) h fun _ patch hpatch => ?_
  rw [Option.mem_toList, Option.map_eq_some_iff] at hpatch
  obtain ⟨span, hspan, rfl⟩ := hpatch
  exact ⟨hold span hspan, (by decide : newline ∉ [deadFlag])⟩

/-- **The steps of a publication**: the line, the append sequence, the count, the death of the old
copy. -/
theorem commitLine_meets (h : s.Poised t True false p) {offset : Nat} {line : Bytes}
    (hnext : Next t offset s p) (hline : endsLine line = true) (count : UInt32) {old : Option Span}
    (hold : Finds t old s p) : (commitLine offset line count old).Meets t True anyhow s p := by
  refine (writeLine_meets h ⟨offset, line⟩ hnext hline).bindKept
    fun _ s₁ p₁ h₁ hwithin hk₁ => ?_
  refine (appendSeq_meets h₁).bindKept fun seq s₂ p₂ h₂ hseq hk₂ => ?_
  refine (publish_meets h₂ hseq (Nat.le_trans hwithin hk₂.length_le)).bindKept
    fun _ s₃ p₃ h₃ _ hk₃ => ?_
  refine (counter_meets h₃ (c := .sinceSort) (by decide) (countAppend count)).bindKept
    fun _ s₄ p₄ h₄ _ hk₄ => ?_
  refine (move_meets h₄ (f := Session.markModified) fun _ _ h => ⟨rfl, rfl, h.markModified⟩).bindKept
    fun _ s₅ p₅ h₅ _ hk₅ => ?_
  have hkept := (((hk₁.trans hk₂).trans hk₃).trans hk₄).trans hk₅
  exact bury_meets h₅ fun span hspan => (hold span hspan).kept hkept

/-- **A line behind the last one**, published under its lock. -/
theorem appendLine_meets (h : s.Poised t True false p) {line : Bytes} (hline : endsLine line = true)
    (count : UInt32) {old : Option Span} (hold : Finds t old s p) :
    (appendLine line count old).Meets t True anyhow s p := by
  refine (sealTail_meets h).bindKept fun offset s₁ p₁ h₁ hnext hk₁ => ?_
  refine (tryLock_meets h₁ offset).bindKept fun _ s₂ p₂ h₂ hlength hk₂ => ?_
  have hnext₂ : Next t offset s₂ p₂ :=
    ⟨hnext.1, fun hquiet => (hnext.2 hquiet).trans (hlength.2 trivial hquiet).symm⟩
  refine (commitLine_meets h₂ hnext₂ hline count fun span hspan =>
    (hold span hspan).kept (hk₁.trans hk₂)).attempt.bind fun outcome s₃ p₃ h₃ _ => ?_
  cases outcome with
  | ok _ => exact .pure h₃ trivial
  | error e =>
    have hapart : LockTable.Apart offset structuralOffset := by
      have hbehind := hnext.1
      simp only [Header.length] at hbehind
      simp only [LockTable.Apart, structuralOffset, lockLen]
      omega
    exact (unlock_meets h₃ fun _ => hapart).bind fun _ _ _ h₄ _ => .fail h₄ e

/-- **An append under the structural lock**, from the first look to the last write. -/
theorem appendRecord_meets (h : s.Poised t True false p) (key : Bytes) (field : Option Field) :
    (appendRecord key field).Meets t True anyhow s p := by
  refine (counterLook_meets h Header.sinceSortAt).bind fun count s₁ p₁ h₁ _ => ?_
  refine (look_meets h₁).bind ?_
  rintro s₂ _ p₂ h₂ rfl
  refine (locate_meets h₂ key _).bindKept fun old s₃ p₃ h₃ hold _ => ?_
  refine (onlyIf_meets h₃ (sort_meets h₃)).bindKept fun _ s₄ p₄ h₄ _ hk₄ => ?_
  refine (lineToAppend_meets h₄ key field old).bindKept fun drafted s₅ p₅ h₅ hline hk₅ => ?_
  cases drafted with
  | none => exact .pure h₅ trivial
  | some line => exact appendLine_meets h₅ (hline line rfl) _ fun span hspan =>
      (hold span hspan).kept (hk₄.trans hk₅)

/-- What runs under the structural lock gives it up. -/
theorem unlockingStructure_meets {α : Type} {script : Script α} {post : α → Session → List Line → Prop}
    (h : script.Meets t True post s p) : (unlockingStructure script).Meets t False anyhow s p := by
  refine (h.attempt.mono False.elim fun _ _ _ _ _ => trivial).bind fun outcome s₁ p₁ h₁ _ => ?_
  exact (unlock_meets h₁ False.elim).bind fun _ _ _ h₂ _ => .pure h₂ trivial

/-! ## Calls -/

/-- How a call ends or waits. -/
def Settled (progress : Progress) (_ : Session) (_ : List Line) : Prop :=
  ∀ stage, progress = .waiting stage → stage.Fair

theorem answer_meets (h : s.Poised t locked false p) (a : Answer) :
    (answer a).Meets t locked Settled s p :=
  .pure h fun _ hwait => by cases hwait

theorem wait_meets (h : s.Poised t locked false p) {stage : Stage} (hfair : stage.Fair) :
    (wait stage).Meets t locked Settled s p := by
  refine .pure h ?_
  rintro _ ⟨⟩
  exact hfair

/-- A client that was granted the structural lock has it. -/
theorem poised_of_granted (h : s.Poised t False false p)
    (hgranted : Granted structuralOffset true s) : s.Poised t True false p :=
  { h with held := fun _ => hgranted rfl }

/-! ### Writing -/

theorem appendLocked_meets (h : s.Poised t True false p) (request : WriteRequest)
    (held : Option Nat) : (appendLocked request held).Meets t False Settled s p := by
  refine (unlockingStructure_meets (appendRecord_meets h request.key request.field)).bind
    fun outcome s₁ p₁ h₁ _ => ?_
  cases outcome with
  | error e =>
    exact (onlyIf_meets h₁ (unlockHeld_meets h₁ held)).bind fun _ _ _ h₂ _ => .fail h₂ e
  | ok appended =>
    refine (unlockHeld_meets h₁ held).bind fun _ s₂ p₂ h₂ _ => ?_
    exact (onlyIf_meets h₂ (unlockHeld_meets h₂ appended)).bind fun _ _ _ h₃ _ =>
      answer_meets h₃ .done

theorem append_meets (h : s.Poised t False false p) {request : WriteRequest}
    (hrequest : SessionM.requestFault? request = none) (held : Option Nat) :
    (append request held).Meets t False Settled s p := by
  refine (tryLock_meets h structuralOffset).bind fun granted s₁ p₁ h₁ hgranted => ?_
  cases granted with
  | true => exact appendLocked_meets (poised_of_granted h₁ hgranted.1) request held
  | false =>
    refine wait_meets h₁ ⟨by simp [Stage.span?], ?_⟩
    rintro _ ⟨⟩
    exact hrequest

theorem finishInPlace_meets (h : s.Poised t False false p) (request : WriteRequest) (span : Span) :
    (finishInPlace request span).Meets t False Settled s p :=
  (onlyIf_meets h (unlock_meets h False.elim)).bind fun _ _ _ h₁ _ => answer_meets h₁ .done

/-- A record is read where it is seen. -/
theorem recordAt_meets (h : s.Poised t locked false p) {span : Span}
    (hbehind : Header.length ≤ span.offset) : (atom (SessionM.recordAt span)).Meets t locked
      (fun r s _ => ∀ name place, r.fieldSpan? name = some place →
        Clear t.quiet s.file.bytes ⟨span.offset + place.offset, place.length⟩) s p := by
  refine .inspect h fun s₁ p₁ _ _ => ?_
  have hread := SessionM.recordAt_eq_match s₁ span
  cases hdec : Record.decode s₁.data span.offset with
  | ok r =>
    rw [hdec] at hread
    exact .of_ok hread ⟨rfl, fun _ _ hplace => Session.clear_of_value hbehind hdec hplace⟩
  | error e =>
    rw [hdec] at hread
    exact .of_error hread rfl

/-- **A write to a record that is there.** -/
theorem update_meets (h : s.Poised t False false p) {request : WriteRequest}
    (hrequest : SessionM.requestFault? request = none) {span : Span}
    (hbehind : Header.length ≤ span.offset) : (update request span).Meets t False Settled s p := by
  unfold update
  cases hfield : request.field with
  | none => exact finishInPlace_meets h request span
  | some field =>
    refine (recordAt_meets h hbehind).bind fun r s₁ p₁ h₁ hvalues => ?_
    cases hplace : r.fieldSpan? field.name with
    | none => exact append_meets h₁ hrequest _
    | some place =>
      dsimp only
      split
      · next hlength =>
        have hclear := hvalues field.name place hplace
        rw [hlength] at hclear
        have hvalue : (write .plain ⟨span.offset + place.offset, field.value⟩).Meets t False anyhow
            s₁ p₁ := by
          refine .write (by decide) h₁ fun s₂ p₂ h₂ ha _ => ⟨?_, trivial⟩
          have hfit := (WriteRequest.fits_of_requestFault? hrequest).2 field hfield
          exact h₂.permits_clear (hclear.kept ha.yields.kept) fun _ =>
            newline_notMem_of_forall hfit.value_word
        refine hvalue.bind fun _ s₂ p₂ h₂ _ => ?_
        exact (move_meets h₂ (f := Session.markModified) fun _ _ h =>
          ⟨rfl, rfl, h.markModified⟩).bind fun _ _ _ h₃ _ => finishInPlace_meets h₃ request span
      · exact append_meets h₁ hrequest _

theorem writeFound_meets (h : s.Poised t False false p) {request : WriteRequest}
    (hrequest : SessionM.requestFault? request = none) {found : Option Span}
    (hfound : Finds t found s p) : (writeFound request found).Meets t False Settled s p := by
  cases found with
  | none => exact append_meets h hrequest none
  | some span => exact update_meets h hrequest (hfound span rfl).behind

theorem writeLocked_meets (h : s.Poised t False false p) {request : WriteRequest}
    (hrequest : SessionM.requestFault? request = none) {lookup : SessionM.Locked}
    (hlookup : Comes t lookup s p) : (writeLocked request lookup).Meets t False Settled s p := by
  cases lookup with
  | absent => exact append_meets h hrequest none
  | granted span => exact update_meets h hrequest hlookup.behind
  | busy span =>
    refine wait_meets h ⟨?_, ?_⟩
    · rintro _ ⟨⟩
      exact hlookup
    · rintro _ ⟨⟩
      exact hrequest

theorem writeRequest_meets (h : s.Poised t False false p) (request : WriteRequest) :
    (writeRequest request).Meets t False Settled s p := by
  unfold writeRequest
  cases hrequest : SessionM.requestFault? request with
  | some fault => exact .fail h _
  | none =>
    dsimp only [writeSane]
    split
    · exact (locateLocking_meets h request.key .ifMissing).bind fun _ _ _ h₁ hlookup =>
        writeLocked_meets h₁ hrequest hlookup
    · exact (locate_meets h request.key .ifMissing).bind fun _ _ _ h₁ hfound =>
        writeFound_meets h₁ hrequest hfound

/-! ### Deleting and sorting -/

theorem deleteLocked_meets (h : s.Poised t False false p) (key : Bytes) {lookup : SessionM.Locked}
    (hlookup : Comes t lookup s p) : (deleteLocked key lookup).Meets t False Settled s p := by
  cases lookup with
  | absent => exact answer_meets h _
  | busy span =>
    refine wait_meets h ⟨?_, by simp [Stage.call]⟩
    rintro _ ⟨⟩
    exact hlookup
  | granted span =>
    have hdeath : (write .plain ⟨span.offset, [deadFlag]⟩).Meets t False anyhow s p :=
      .write (by decide) h fun s₁ p₁ h₁ ha _ => ⟨h₁.permits_clear (hlookup.kept ha.yields.kept)
        fun _ => (by decide : newline ∉ [deadFlag]), trivial⟩
    refine hdeath.bind fun _ s₁ p₁ h₁ _ => ?_
    refine (move_meets h₁ (f := Session.forget) fun _ _ h => ⟨rfl, rfl, h.forget⟩).bind
      fun _ s₂ p₂ h₂ _ => ?_
    refine (unlock_meets h₂ False.elim).bind fun _ s₃ p₃ h₃ _ => ?_
    exact (move_meets h₃ (f := Session.markModified) fun _ _ h => ⟨rfl, rfl, h.markModified⟩).bind
      fun _ _ _ h₄ _ => answer_meets h₄ _

theorem resortLocked_meets (h : s.Poised t True false p) :
    resortLocked.Meets t False Settled s p := by
  refine (unlockingStructure_meets (resort_meets h)).bind fun outcome s₁ p₁ h₁ _ => ?_
  cases outcome with
  | error e => exact .fail h₁ e
  | ok _ => exact answer_meets h₁ .done

/-! ### Reading -/

theorem readFound_meets (h : s.Poised t locked false p) (part : Part) (found : Option Span) :
    (atom (SessionM.readFound part found)).Meets t locked Settled s p := by
  refine .inspect h fun s₁ p₁ _ _ => ?_
  cases found with
  | none => exact .of_ok rfl ⟨rfl, fun _ hwait => by cases hwait⟩
  | some span =>
    have hread := SessionM.recordAt_eq_match s₁ span
    cases hdec : Record.decode s₁.data span.offset with
    | ok r =>
      rw [hdec] at hread
      exact .of_ok (SessionM.bind_ok hread) ⟨rfl, fun _ hwait => by cases hwait⟩
    | error e =>
      rw [hdec] at hread
      exact .of_error (SessionM.bind_error hread) rfl

theorem readLocked_meets (h : s.Poised t False false p) (key : Bytes) (part : Part)
    {lookup : SessionM.Locked} (hlookup : Comes t lookup s p) :
    (readLocked key part lookup).Meets t False Settled s p := by
  cases lookup with
  | absent => exact readFound_meets h part none
  | granted span => exact readFound_meets h part (some span)
  | busy span =>
    refine wait_meets h ⟨?_, by simp [Stage.call]⟩
    rintro _ ⟨⟩
    exact hlookup

theorem read_meets (h : s.Poised t False false p) (key : Bytes) (part : Part) (keepLock : Bool) :
    (read key part keepLock).Meets t False Settled s p := by
  unfold read
  split
  · exact (locateLocking_meets h key .ifMissing).bind fun _ _ _ h₁ hlookup =>
      readLocked_meets h₁ key part hlookup
  · exact (locate_meets h key .ifMissing).bind fun found _ _ h₁ _ => readFound_meets h₁ part found

theorem decodeAt_meets (h : s.Poised t False false p) (offset : Nat) (taken : Bool) :
    (decodeAt offset taken).Meets t False Settled s p := by
  refine (look_meets h).bind ?_
  rintro s₁ _ p₁ h₁ rfl
  cases Record.decode s₁.data offset with
  | ok r => exact answer_meets h₁ _
  | error e =>
    exact (onlyIf_meets h₁ (unlock_meets h₁ False.elim)).bind fun _ _ _ h₂ _ => answer_meets h₂ _

theorem readMapped_meets (h : s.Poised t False false p) (offset : Nat) (keepLock : Bool) :
    (readMapped offset keepLock).Meets t False Settled s p := by
  refine (look_meets h).bind ?_
  rintro s₁ _ p₁ h₁ rfl
  split
  · exact answer_meets h₁ _
  · split
    · refine (acquireRecord_meets h₁ offset).bind fun granted s₂ p₂ h₂ _ => ?_
      cases granted with
      | true => exact decodeAt_meets h₂ offset true
      | false => exact wait_meets h₂ ⟨by simp [Stage.span?], by simp [Stage.call]⟩
    · exact decodeAt_meets h₁ offset false

theorem readAt_meets (h : s.Poised t False false p) (offset : Nat) (keepLock : Bool) :
    (readAt offset keepLock).Meets t False Settled s p := by
  refine (look_meets h).bind ?_
  rintro s₁ _ p₁ h₁ rfl
  split
  · exact (refresh_meets h₁).bind fun _ _ _ h₂ _ => readMapped_meets h₂ offset keepLock
  · exact readMapped_meets h₁ offset keepLock

theorem records_meets (h : s.Poised t False false p) : records.Meets t False Settled s p := by
  refine (refresh_meets h).bind fun _ s₁ p₁ h₁ _ => ?_
  refine (look_meets h₁).bind ?_
  rintro s₂ _ p₂ h₂ rfl
  exact answer_meets h₂ _

end Script

section Calls

open Script

variable {t : Terms} {s : Session} {p : List Line}

/-- **Every call keeps its promise**, whatever others do between its steps. -/
theorem Call.script_meets (h : s.Poised t False false p) (call : Call) :
    call.script.Meets t False Settled s p := by
  cases call with
  | read key part keepLock => exact read_meets h key part keepLock
  | readAt offset keepLock => exact readAt_meets h offset keepLock
  | records => exact records_meets h
  | appendSeq => exact (counterLook_meets h _).bind fun _ _ _ h₁ _ => answer_meets h₁ _
  | sinceSort => exact (counterLook_meets h _).bind fun _ _ _ h₁ _ => answer_meets h₁ _
  | refresh => exact (refresh_meets h).bind fun _ _ _ h₁ _ => answer_meets h₁ _
  | lock offset =>
    refine (acquireRecord_meets h offset).bind fun granted s₁ p₁ h₁ _ => ?_
    cases granted with
    | true => exact answer_meets h₁ .done
    | false => exact wait_meets h₁ ⟨by simp [Stage.span?], by simp [Stage.call]⟩
  | unlock offset => exact (unlock_meets h False.elim).bind fun _ _ _ h₁ _ => answer_meets h₁ .done
  | write request => exact writeRequest_meets h request
  | delete key =>
    exact (locateLocking_meets h key .ifMissing).bind fun _ _ _ h₁ hlookup =>
      deleteLocked_meets h₁ key hlookup
  | resort =>
    refine (tryLock_meets h structuralOffset).bind fun granted s₁ p₁ h₁ hgranted => ?_
    cases granted with
    | true => exact resortLocked_meets (poised_of_granted h₁ hgranted.1)
    | false => exact wait_meets h₁ ⟨by simp [Stage.span?], by simp [Stage.call]⟩

/-- **A call that goes on from a wait** keeps its promise. -/
theorem Stage.script_meets (h : s.Poised t False false p) {stage : Stage} (hfair : stage.Fair) :
    stage.script.Meets t False Settled s p := by
  refine (tryLock_meets h stage.offset).bind fun granted s₁ p₁ h₁ hgranted => ?_
  cases granted with
  | false => exact wait_meets h₁ hfair
  | true =>
    cases stage with
    | reading key part span =>
      exact (recheck_meets h₁ key (hfair.behind span rfl)).bind fun _ _ _ h₂ hlookup =>
        readLocked_meets h₂ key part hlookup
    | readingAt offset => exact decodeAt_meets h₁ offset true
    | locking offset => exact answer_meets h₁ .done
    | writing request span =>
      exact (recheck_meets h₁ request.key (hfair.behind span rfl)).bind fun _ _ _ h₂ hlookup =>
        writeLocked_meets h₂ (hfair.request request rfl) hlookup
    | deleting key span =>
      exact (recheck_meets h₁ key (hfair.behind span rfl)).bind fun _ _ _ h₂ hlookup =>
        deleteLocked_meets h₂ key hlookup
    | appending request held =>
      exact appendLocked_meets (poised_of_granted h₁ hgranted.1) request held
    | resorting => exact resortLocked_meets (poised_of_granted h₁ hgranted.1)

end Calls

end RecordStore
