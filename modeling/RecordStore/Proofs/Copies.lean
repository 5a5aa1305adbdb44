import Mathlib.Data.List.Perm.Basic
import Mathlib.Tactic.Common
import RecordStore.Proofs.Recovery

/-!
# Reading one's own writes where a key lives twice

An append that was cut off between its line and the death of the old record leaves two copies of a
key.  A later write or delete changes one copy, and it depends on slots, mappings and caches which
one; a lookup tells what one of them holds.  So the value that was written is read back for sure only
if no other copy was left, and a deleted key is gone only if it lived once.

* `copiesOf`, `Store.copies` — what the copies of a key hold.
* `Store.Changes` — a turn that completes a write or a delete of a key.
* `Store.Lookups` — what all lookups of a key in a run answer.

Principal results: `Call.Does.copies_eq`, `Rewrites.copies`, `Drops.copies` — what becomes of the
copies; `Store.Tracks.lookups` — lookups while nothing changes; `Store.Tracks.lookups_written`,
`Store.own_writes` — lookups after a write or a delete.
-/

set_option autoImplicit false

namespace RecordStore

/-- What the copies of a key hold, in the order of the file. -/
def copiesOf (key : Bytes) (versions : List Version) : List (List Field) :=
  (versions.filter fun v => v.key = key).map Version.fields

section Copies

variable {key : Bytes} {before after : List Version}

theorem copiesOf_append (key : Bytes) (front back : List Version) :
    copiesOf key (front ++ back) = copiesOf key front ++ copiesOf key back := by
  rw [copiesOf, List.filter_append, List.map_append]
  rfl

theorem copiesOf_cons_self {v : Version} (h : v.key = key) (more : List Version) :
    copiesOf key (v :: more) = v.fields :: copiesOf key more := by
  rw [copiesOf, List.filter_cons, if_pos (by simpa using h), List.map_cons]
  rfl

theorem copiesOf_cons_of_ne {v : Version} (h : v.key ≠ key) (more : List Version) :
    copiesOf key (v :: more) = copiesOf key more := by
  rw [copiesOf, List.filter_cons, if_neg (by simpa using h)]
  rfl

theorem mem_copiesOf_iff {fields : List Field} :
    fields ∈ copiesOf key before ↔ ∃ v ∈ before, v.key = key ∧ v.fields = fields := by
  simp [copiesOf, and_assoc]

theorem copiesOf_eq_nil_iff : copiesOf key before = [] ↔ ∀ v ∈ before, v.key ≠ key := by
  rw [copiesOf, List.map_eq_nil_iff, List.filter_eq_nil_iff]
  simp

/-- **A write** sets the field in one copy, or makes the first copy, and leaves the others. -/
theorem Rewrites.copies {field : Field} (h : Rewrites key (some field) before after) :
    ∃ (old : Option (List Field)) (others : List (List Field)),
      (copiesOf key before).Perm (old.toList ++ others) ∧ (old = none → others = []) ∧
        (copiesOf key after).Perm (setField (old.getD []) field :: others) := by
  cases h with
  | kept present fieldless => cases fieldless
  | created absent offset =>
    have hnone := copiesOf_eq_nil_iff.2 absent
    refine ⟨none, [], by rw [hnone]; rfl, fun _ => rfl, ?_⟩
    rw [copiesOf_append, hnone, copiesOf_cons_self (by rfl)]
    rfl
  | @patched front back v f named split own =>
    cases named
    refine ⟨some v.fields, copiesOf key front ++ copiesOf key back, ?_, by rintro ⟨⟩, ?_⟩
    · rw [split, copiesOf_append, copiesOf_cons_self own]
      exact List.perm_middle
    · rw [copiesOf_append, copiesOf_cons_self (by rfl)]
      exact List.perm_middle
  | @moved front back v f named split own offset =>
    cases named
    refine ⟨some v.fields, copiesOf key front ++ copiesOf key back, ?_, by rintro ⟨⟩, ?_⟩
    · rw [split, copiesOf_append, copiesOf_cons_self own]
      exact List.perm_middle
    · rw [copiesOf_append, copiesOf_append, copiesOf_cons_self (by rfl)]
      exact List.perm_append_singleton _ _

/-- With no key twice, a key has one copy at most. -/
theorem exists_copiesOf_eq (hdistinct : (before.map Version.key).Nodup) (key : Bytes) :
    ∃ old : Option (List Field), copiesOf key before = old.toList := by
  cases hcopies : copiesOf key before with
  | nil => exact ⟨none, rfl⟩
  | cons fields more =>
    refine ⟨some fields, ?_⟩
    have hcount : (copiesOf key before).length = (before.map Version.key).count key := by
      rw [copiesOf, List.length_map, List.count_eq_countP, List.countP_map,
        ← List.countP_eq_length_filter]
      refine List.countP_congr fun v _ => ?_
      simp
    have hone := List.nodup_iff_count_le_one.1 hdistinct key
    rw [← hcount, hcopies, List.length_cons] at hone
    rw [List.length_eq_zero_iff.1 (show more.length = 0 by omega)]
    rfl

/-- **A write to the only copy**, or of a key that has none, leaves one. -/
theorem Rewrites.only_copy {field : Field} (h : Rewrites key (some field) before after)
    {old : Option (List Field)} (hold : copiesOf key before = old.toList) :
    copiesOf key after = [setField (old.getD []) field] := by
  obtain ⟨old', others, hbefore, hnone, hafter⟩ := h.copies
  rw [hold] at hbefore
  have hsame : old' = old ∧ others = [] := by
    cases old' with
    | none =>
      rw [hnone rfl] at hbefore
      cases old with
      | none => exact ⟨rfl, hnone rfl⟩
      | some fields => cases hbefore.symm.nil_eq
    | some fields' =>
      cases old with
      | none => cases hbefore.nil_eq
      | some fields =>
        obtain ⟨rfl, rfl⟩ := List.cons.inj (List.singleton_perm.1 hbefore)
        exact ⟨rfl, rfl⟩
  obtain ⟨rfl, rfl⟩ := hsame
  exact List.perm_singleton.1 hafter

/-- **A delete** that finds the key drops one copy. -/
theorem Drops.copies {flag : Bool} (h : Drops key before flag after) :
    (flag = false ∧ copiesOf key before = [] ∧ copiesOf key after = []) ∨
      (flag = true ∧ ∃ fields, (copiesOf key before).Perm (fields :: copiesOf key after)) := by
  cases h with
  | missed absent => exact Or.inl ⟨rfl, copiesOf_eq_nil_iff.2 absent, copiesOf_eq_nil_iff.2 absent⟩
  | @killed front back v split own =>
    refine Or.inr ⟨rfl, v.fields, ?_⟩
    rw [split, copiesOf_append, copiesOf_cons_self own, copiesOf_append]
    exact List.perm_middle

/-- **A call about another key**, or one that only looks, leaves the copies as they are. -/
theorem Call.Does.copies_eq {call : Call} {answer : Answer} (h : call.Does before after answer)
    (hother : call.target? ≠ some key) : copiesOf key after = copiesOf key before := by
  cases call with
  | write request =>
    have hne : request.key ≠ key := fun he => hother (congrArg some he)
    obtain ⟨-, -, hrewrites⟩ := h
    cases hrewrites with
    | kept => rfl
    | created absent offset =>
      rw [copiesOf_append, copiesOf_cons_of_ne (by exact hne)]
      exact List.append_nil _
    | patched named split own =>
      rw [split, copiesOf_append, copiesOf_append, copiesOf_cons_of_ne (by exact hne),
        copiesOf_cons_of_ne (by rw [own]; exact hne)]
    | moved named split own offset =>
      rw [split, copiesOf_append, copiesOf_append, copiesOf_append,
        copiesOf_cons_of_ne (by exact hne), copiesOf_cons_of_ne (by rw [own]; exact hne)]
      exact List.append_nil _
  | delete other =>
    have hne : other ≠ key := fun he => hother (congrArg some he)
    obtain ⟨flag, -, hdrops⟩ := h
    cases hdrops with
    | missed => rfl
    | killed split own =>
      rw [split, copiesOf_append, copiesOf_append, copiesOf_cons_of_ne (by rw [own]; exact hne)]
  | read other part keepLock => rw [h.1]
  | _ => rw [show after = before from h]

/-- Without a write no copy comes in. -/
theorem Call.Does.copies_nil {call : Call} {answer : Answer} (h : call.Does before after answer)
    (hno : ∀ request, call = .write request → request.key ≠ key)
    (hnil : copiesOf key before = []) : copiesOf key after = [] := by
  by_cases htarget : call.target? = some key
  · cases call with
    | write request => exact absurd (Option.some.inj htarget) (hno request rfl)
    | delete other =>
      obtain rfl := Option.some.inj htarget
      obtain ⟨flag, -, hdrops⟩ := h
      rcases hdrops.copies with ⟨-, -, hafter⟩ | ⟨-, fields, hperm⟩
      · exact hafter
      · rw [hnil] at hperm
        cases hperm.symm.eq_nil
    | _ => cases htarget
  · rw [h.copies_eq htarget, hnil]

/-- What a lookup tells, by the copies. -/
theorem Part.Tells.copies {part : Part} {answer : Answer} (h : part.Tells key before answer) :
    (copiesOf key before = [] ∧ answer = part.missing) ∨
      ∃ fields ∈ copiesOf key before, part.Answers key (some fields) answer := by
  rcases h with ⟨habsent, rfl⟩ | ⟨v, hv, hkey, hanswers⟩
  · exact Or.inl ⟨copiesOf_eq_nil_iff.2 habsent, rfl⟩
  · exact Or.inr ⟨v.fields, mem_copiesOf_iff.2 ⟨v, hv, hkey, rfl⟩, hanswers⟩

end Copies

/-! ## Runs -/

namespace Store

/-- What the copies of a key hold, in the order of the file. -/
def copies (store : Store) (key : Bytes) : List (List Field) := copiesOf key store.versions

/-- A call that has this answer in this turn. -/
def Gives (store : Store) (turn : Turn) (call : Call) (answer : Answer) : Prop :=
  store.running? turn = some call ∧ (store.serve turn).2 = .answered answer

/-- A write or a delete of the key gets its answer in this turn. -/
def Changes (store : Store) (key : Bytes) (turn : Turn) : Prop :=
  ∃ call, store.Finishes turn call ∧ call.target? = some key

/-- A write of the key gets its answer in this turn. -/
def Writes (store : Store) (key : Bytes) (turn : Turn) : Prop :=
  ∃ request, store.Finishes turn (.write request) ∧ request.key = key

/-- What the lookups of a key in a run answer. -/
def Lookups (store : Store) (key : Bytes) (p : Part → Answer → Prop) (turns : List Turn) : Prop :=
  store.Always (fun s turn => ∀ part keepLock answer, s.Gives turn (.read key part keepLock) answer →
    p part answer) turns

variable {store : Store} {i : Image} {key : Bytes} {turn : Turn} {turns : List Turn}

theorem Lookups.mono {p q : Part → Answer → Prop} (h : store.Lookups key p turns)
    (hpq : ∀ part answer, p part answer → q part answer) : store.Lookups key q turns := by
  induction turns generalizing store with
  | nil => trivial
  | cons turn more ih =>
    exact ⟨fun part keepLock answer hgives => hpq _ _ (h.1 part keepLock answer hgives), ih h.2⟩

/-- What a call does that has its answer in this turn. -/
theorem Tracks.does (h : store.Tracks i) (hsmall : store.file.bytes.length < UInt32.size) {call : Call}
    {answer : Answer} (hgives : store.Gives turn call answer) :
    call.Does store.versions (store.serve turn).1.versions answer := by
  obtain ⟨j, hj, -, heffect⟩ := h.serve hsmall turn
  rw [h.versions_eq, hj.versions_eq]
  rcases heffect with ⟨call', answer', hrunning, hanswered, hdoes⟩ | ⟨hnot, -⟩
  · obtain rfl := Option.some.inj (hrunning.symm.trans hgives.1)
    rw [hgives.2, Outcome.answered.injEq] at hanswered
    exact hanswered ▸ hdoes
  · exact absurd ⟨hgives.1, answer, hgives.2⟩ (hnot call)

/-- A turn that answers no call that `p` lets through keeps what such calls and no others change. -/
theorem Tracks.serve_preserves (h : store.Tracks i) (hsmall : store.file.bytes.length < UInt32.size)
    {p : List Version → Prop} (hp : p store.versions)
    (hstep : ∀ call answer after, store.Finishes turn call → call.Does store.versions after answer →
      p after) :
    p (store.serve turn).1.versions := by
  obtain ⟨j, hj, -, heffect⟩ := h.serve hsmall turn
  rw [h.versions_eq] at hp hstep
  rw [hj.versions_eq]
  rcases heffect with ⟨call, answer, hrunning, hanswered, hdoes⟩ | ⟨-, hsame⟩
  · exact hstep call answer _ ⟨hrunning, answer, hanswered⟩ hdoes
  · rwa [hsame]

/-- **While nothing changes a key**, lookups tell what one of its copies holds. -/
theorem Tracks.lookups (h : store.Tracks i) (hsmall : store.Small turns) {copies : List (List Field)}
    (hcopies : store.copies key = copies)
    (hquiet : store.Always (fun s turn => ¬ s.Changes key turn) turns) :
    store.Lookups key (fun part answer => (copies = [] ∧ answer = part.missing) ∨
      ∃ fields ∈ copies, part.Answers key (some fields) answer) turns := by
  induction turns generalizing store i with
  | nil => trivial
  | cons turn more ih =>
    obtain ⟨hfirst, hmore⟩ := hsmall
    obtain ⟨hrest, hquiet⟩ := hquiet
    obtain ⟨j, hj, -⟩ := h.serve hfirst turn
    have hsame : (store.serve turn).1.copies key = copies := by
      refine h.serve_preserves (p := fun versions => copiesOf key versions = copies) hfirst hcopies ?_
      intro call answer after hfinishes hdoes
      rw [hdoes.copies_eq fun htarget => hrest ⟨call, hfinishes, htarget⟩]
      exact hcopies
    refine ⟨fun part keepLock answer hgives => ?_, ih hj hmore hsame hquiet⟩
    obtain ⟨-, htells⟩ := h.does hfirst hgives
    have hcases := htells.copies
    rw [show copiesOf key store.versions = copies from hcopies] at hcases
    exact hcases

/-- **While nobody writes a key that is gone**, lookups find nothing. -/
theorem Tracks.lookups_missing (h : store.Tracks i) (hsmall : store.Small turns)
    (hnone : store.copies key = [])
    (hquiet : store.Always (fun s turn => ¬ s.Writes key turn) turns) :
    store.Lookups key (fun part answer => answer = part.missing) turns := by
  induction turns generalizing store i with
  | nil => trivial
  | cons turn more ih =>
    obtain ⟨hfirst, hmore⟩ := hsmall
    obtain ⟨hrest, hquiet⟩ := hquiet
    obtain ⟨j, hj, -⟩ := h.serve hfirst turn
    have hsame : (store.serve turn).1.copies key = [] := by
      refine h.serve_preserves (p := fun versions => copiesOf key versions = []) hfirst hnone ?_
      intro call answer after hfinishes hdoes
      refine hdoes.copies_nil ?_ hnone
      rintro request rfl hkey
      exact hrest ⟨request, hfinishes, hkey⟩
    refine ⟨fun part keepLock answer hgives => ?_, ih hj hmore hsame hquiet⟩
    obtain ⟨-, htells⟩ := h.does hfirst hgives
    rcases htells.copies with ⟨-, hmissing⟩ | ⟨fields, hfields, -⟩
    · exact hmissing
    · rw [show copiesOf key store.versions = [] from hnone] at hfields
      cases hfields

/-- **After a write of a field**, and while nothing changes the key, lookups tell what the new copy
holds, or what another copy does that was there before. -/
theorem Tracks.lookups_written (h : store.Tracks i) (hsmall : store.Small (turn :: turns))
    {field : Field} {mode : LockMode} (hwrite : store.Finishes turn (.write ⟨key, some field, mode⟩))
    (hquiet : (store.serve turn).1.Always (fun s turn => ¬ s.Changes key turn) turns) :
    equals ∉ field.name ∧ ∃ (old : Option (List Field)) (others : List (List Field)),
      (store.copies key).Perm (old.toList ++ others) ∧ (old = none → others = []) ∧
        (store.serve turn).1.Lookups key (fun part answer =>
          part.Answers key (some (setField (old.getD []) field)) answer ∨
            ∃ fields ∈ others, part.Answers key (some fields) answer) turns := by
  obtain ⟨hfirst, hafter⟩ := hsmall
  obtain ⟨j, hj, -⟩ := h.serve hfirst turn
  obtain ⟨hrunning, a, hanswered⟩ := hwrite
  obtain ⟨hfault, -, hrewrites⟩ := h.does hfirst ⟨hrunning, hanswered⟩
  obtain ⟨old, others, hold, hnone, hnew⟩ := hrewrites.copies
  refine ⟨((WriteRequest.fits_of_requestFault? hfault).2 field rfl).name_plain, old, others, hold,
    hnone, (hj.lookups hafter rfl hquiet).mono ?_⟩
  rintro part answer (⟨hnil, -⟩ | ⟨fields, hfields, hanswers⟩)
  · rw [show copiesOf key (store.serve turn).1.versions = [] from hnil] at hnew
    exact absurd hnew.length_eq (by simp)
  · rcases List.mem_cons.1 (hnew.mem_iff.1 hfields) with rfl | hother
    · exact Or.inl hanswers
    · exact Or.inr ⟨fields, hother, hanswers⟩

theorem Small.of_append {front back : List Turn} (h : store.Small (front ++ back)) :
    store.Small front ∧ (store.run front).1.Small back := by
  induction front generalizing store with
  | nil => exact ⟨trivial, h⟩
  | cons turn more ih =>
    obtain ⟨hmore, hback⟩ := ih h.2
    exact ⟨⟨h.1, hmore⟩, hback⟩

/-- **A run on a recovered file** is on track after any of its turns. -/
theorem Tracks.of_recovered (formed : i.Formed) {mtime : Int} {before later : List Turn}
    (hsmall : (Store.ofBytes i.bytes mtime).Small (before ++ later))
    (hreached : ((Store.ofBytes i.bytes mtime).run before).1 = store) :
    ∃ j, store.Tracks j ∧ store.Small later := by
  obtain ⟨hbefore, hlater⟩ := hsmall.of_append
  obtain ⟨j, h, -⟩ := (Tracks.ofBytes formed mtime).run hbefore
  rw [hreached] at h hlater
  exact ⟨j, h, hlater⟩

/-- **Own writes on a recovered file.**  After a write of a field, and until a write or delete of the
key, lookups of that field tell the value that was written or that of another copy, which was there
before; without another copy they tell the value that was written.  After a delete, and until a write
of the key, lookups find nothing if the key lived once; if it lived more often, they find what
another copy holds. -/
theorem own_writes {i : Image} (hi : i.Formed) (mtime : Int) {before after : List Turn} {turn : Turn}
    {key : Bytes} (hsmall : (Store.ofBytes i.bytes mtime).Small (before ++ turn :: after))
    {store : Store} (hstore : ((Store.ofBytes i.bytes mtime).run before).1 = store) :
    (∀ field mode, store.Finishes turn (.write ⟨key, some field, mode⟩) →
      (store.serve turn).1.Always (fun s turn => ¬ s.Changes key turn) after →
      ∃ (old : Option (List Field)) (others : List (List Field)),
        (store.copies key).Perm (old.toList ++ others) ∧ (old = none → others = []) ∧
          (store.serve turn).1.Lookups key (fun part answer => part = .field field.name →
            answer = .bytes (some field.value) ∨
              ∃ fields ∈ others, answer = .bytes (valueOf? fields field.name)) after) ∧
    (store.Finishes turn (.delete key) →
      ((store.copies key).length ≤ 1 →
        (store.serve turn).1.Always (fun s turn => ¬ s.Writes key turn) after →
        (store.serve turn).1.Lookups key (fun part answer => answer = part.missing) after) ∧
      (2 ≤ (store.copies key).length →
        (store.serve turn).1.Always (fun s turn => ¬ s.Changes key turn) after →
        (store.serve turn).1.Lookups key (fun part answer =>
          ∃ fields ∈ store.copies key, part.Answers key (some fields) answer) after)) := by
  obtain ⟨i₁, h, hthen⟩ := Tracks.of_recovered hi hsmall hstore
  refine ⟨?_, ?_⟩
  · intro field mode hwrite hquiet
    obtain ⟨hname, old, others, hold, hnone, hlookups⟩ := h.lookups_written hthen hwrite hquiet
    refine ⟨old, others, hold, hnone, hlookups.mono ?_⟩
    rintro part answer (hnew | ⟨fields, hother, hanswers⟩) rfl
    · refine Or.inl ?_
      rw [hnew hname, valueOf?_setField_self]
    · exact Or.inr ⟨fields, hother, hanswers hname⟩
  · obtain ⟨hfirst, hafter⟩ := hthen
    obtain ⟨j, hj, -⟩ := h.serve hfirst turn
    rintro ⟨hrunning, answer, hanswered⟩
    obtain ⟨flag, -, hdrops⟩ := h.does hfirst ⟨hrunning, hanswered⟩
    have hcopies := hdrops.copies
    refine ⟨fun hone hquiet => ?_, fun htwo hquiet => ?_⟩
    · refine hj.lookups_missing hafter ?_ hquiet
      rcases hcopies with ⟨-, -, hnil⟩ | ⟨-, fields, hperm⟩
      · exact hnil
      · have hlen : (store.copies key).length = ((store.serve turn).1.copies key).length + 1 :=
          hperm.length_eq
        exact List.length_eq_zero_iff.1 (by omega)
    · refine (hj.lookups hafter rfl hquiet).mono ?_
      rcases hcopies with ⟨-, hnil, -⟩ | ⟨-, fields, hperm⟩
      · rw [show store.copies key = [] from hnil] at htwo
        cases htwo
      · rintro part answer' (⟨hnil, -⟩ | ⟨fields', hfields', hanswers⟩)
        · have hlen : (store.copies key).length = ((store.serve turn).1.copies key).length + 1 :=
            hperm.length_eq
          rw [hnil] at hlen
          simp only [List.length_nil] at hlen
          omega
        · exact ⟨fields', hperm.mem_iff.2 (List.mem_cons_of_mem _ hfields'), hanswers⟩

/-- A call that is about another key, or about none, changes nothing. -/
theorem not_changes {call : Call} (hrunning : store.running? turn = some call)
    (hother : call.target? ≠ some key) : ¬ store.Changes key turn := by
  rintro ⟨call', ⟨hrunning', -⟩, htarget⟩
  obtain rfl := Option.some.inj (hrunning.symm.trans hrunning')
  exact hother htarget

/-- A record of a key that lives twice, as a sort places it. -/
def placedCopy (slot : UInt32) (value : Char) : Bytes :=
  Index.withSlot (encodeRecord (ascii ['k']) [⟨ascii ['f'], ascii [value]⟩]) slot

/-- A file that holds a key twice, sorted after an append was cut off. -/
def twoCopies : Image :=
  ⟨{ Header.fresh with appendSeq := 2, modified := 100, sinceSort := 0 },
    [placedCopy 35 '1', placedCopy 56 '2']⟩

theorem twoCopies_formed : twoCopies.Formed := by
  have hcopy : ∀ slot value, (∀ b ∈ ascii [value], isDelimiter b = false) →
      IsLine (placedCopy slot value) ∧ defect? (placedCopy slot value) = none := by
    intro slot value hvalue
    have hname : equals ∉ ascii ['f'] ∧ ∀ b ∈ ascii ['f'], isDelimiter b = false := by
      decide +kernel
    have hfresh : FreshLine (encodeRecord (ascii ['k']) [⟨ascii ['f'], ascii [value]⟩])
        (ascii ['k']) [⟨ascii ['f'], ascii [value]⟩] := by
      refine freshLine_encodeRecord (by decide +kernel) fun field hf => ?_
      rw [List.mem_singleton.1 hf]
      exact ⟨hname.1, hname.2, hvalue⟩
    exact ⟨Index.isLine_withSlot slot (keyAt_lt_of_defect? hfresh.wellFormed) hfresh.line,
      Index.defect?_withSlot slot hfresh.wellFormed⟩
  have hfirst := hcopy 35 '1' (by decide +kernel)
  have hsecond := hcopy 56 '2' (by decide +kernel)
  refine ⟨⟨by decide, ?_, ?_⟩, twoCopies.texts, [], (List.append_nil _).symm, ?_, by simp⟩
  · simp only [twoCopies, List.mem_cons, List.not_mem_nil, or_false, forall_eq_or_imp, forall_eq]
    exact ⟨hfirst.1, hsecond.1⟩
  · simp only [twoCopies, List.mem_cons, List.not_mem_nil, or_false, forall_eq_or_imp, forall_eq]
    exact ⟨hfirst.2, hsecond.2⟩
  · exact ⟨[(35, ascii ['k']), (56, ascii ['k'])], .of_eq (by decide), by decide, by decide⟩

/-- The store that holds the key twice, with one client. -/
def doubled : Store :=
  ((Store.ofBytes twoCopies.bytes 100).run [⟨100, 1, .opening (.ofPath Config.defaultPath)⟩]).1

def longerField : Field := ⟨ascii ['f'], ascii ['3', '3']⟩

def deleteDoubled : Turn := ⟨100, 1, .call (.delete (ascii ['k']))⟩

def writeDoubled : Turn := ⟨100, 1, .call (.write ⟨ascii ['k'], some longerField, .transient⟩)⟩

/-- The lookup that follows. -/
def lookUpDoubled : Call := .read (ascii ['k']) (.field longerField.name) false

def readDoubled : Turn := ⟨100, 1, .call lookUpDoubled⟩

/-- The deleted key is found again, and the value that was written is not. -/
theorem own_writes_of_two_copies :
    ((doubled.serve deleteDoubled).1.Gives readDoubled lookUpDoubled (.bytes (some (ascii ['1']))) ∧
      ∃ fields ∈ doubled.copies (ascii ['k']), valueOf? fields longerField.name = ascii ['1']) ∧
    ((doubled.serve writeDoubled).1.Gives readDoubled lookUpDoubled (.bytes (some (ascii ['1']))) ∧
      ∃ (old : Option (List Field)) (others : List (List Field)),
        (doubled.copies (ascii ['k'])).Perm (old.toList ++ others) ∧
          ∃ fields ∈ others, valueOf? fields longerField.name = ascii ['1']) := by
  have hread : ∀ store : Store, store.running? readDoubled = some lookUpDoubled →
      ¬ store.Changes (ascii ['k']) readDoubled :=
    fun store hrunning => not_changes hrunning (by decide)
  constructor
  · have hsmall : (Store.ofBytes twoCopies.bytes 100).Small
        ([⟨100, 1, .opening (.ofPath Config.defaultPath)⟩] ++ deleteDoubled :: [readDoubled]) := by
      decide +kernel
    have hgives : (doubled.serve deleteDoubled).1.Gives readDoubled lookUpDoubled
        (.bytes (some (ascii ['1']))) := ⟨by decide +kernel, by decide +kernel⟩
    have hdelete : doubled.Finishes deleteDoubled (.delete (ascii ['k'])) :=
      ⟨by decide +kernel, .flag true, by decide +kernel⟩
    have hlookups := ((own_writes twoCopies_formed 100 hsmall rfl).2 hdelete).2 (by decide +kernel)
      ⟨hread _ hgives.1, trivial⟩
    obtain ⟨fields, hfields, hanswer⟩ := hlookups.1 _ _ _ hgives
    refine ⟨hgives, fields, hfields, ?_⟩
    have hvalue := hanswer (by decide)
    rw [Answer.bytes.injEq] at hvalue
    exact hvalue.symm
  · have hsmall : (Store.ofBytes twoCopies.bytes 100).Small
        ([⟨100, 1, .opening (.ofPath Config.defaultPath)⟩] ++ writeDoubled :: [readDoubled]) := by
      decide +kernel
    have hgives : (doubled.serve writeDoubled).1.Gives readDoubled lookUpDoubled
        (.bytes (some (ascii ['1']))) := ⟨by decide +kernel, by decide +kernel⟩
    have hwrite : doubled.Finishes writeDoubled
        (.write ⟨ascii ['k'], some longerField, .transient⟩) :=
      ⟨by decide +kernel, .done, by decide +kernel⟩
    obtain ⟨old, others, hperm, -, hlookups⟩ := (own_writes twoCopies_formed 100 hsmall rfl).1
      longerField .transient hwrite ⟨hread _ hgives.1, trivial⟩
    refine ⟨hgives, old, others, hperm, ?_⟩
    rcases hlookups.1 _ _ _ hgives rfl with hnew | ⟨fields, hfields, hold⟩
    · exact absurd hnew (by decide)
    · rw [Answer.bytes.injEq] at hold
      exact ⟨fields, hfields, hold.symm⟩

end Store

end RecordStore
