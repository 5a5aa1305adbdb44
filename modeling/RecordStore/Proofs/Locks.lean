import Mathlib.Tactic.Common
import RecordStore.Lock

/-!
# Lock tables

Taking and giving up locks changes what one holder has, in the range of the lock.

* `LockTable.tryTake` — a lock taken if it is free.
* `LockTable.Apart` — two locks whose ranges do not meet.
* `LockTable.others` — what everybody but one holder has.
* `LockTable.Adds` — what one holder has gained, at some offsets.
* `LockTable.Consistent` — holders that share a byte share a shared lock.
* `LockTable.Quiet` — there is nothing but shared presence locks and locks on some bytes.
* `LockTable.Within` — the same of one holder, and locks at some offsets.

Principal results: `others_set`, `others_clear` — other holders are left alone;
`holdsExclusive_set_self` and `holdsExclusive_clear_of_apart` — a lock taken is held until it is
given up; `Consistent.not_holdsExclusive` — nobody else has a lock that is held exclusively;
`Quiet.not_blocks` — nothing is refused while all is quiet.
-/

set_option autoImplicit false

namespace RecordStore.LockTable

variable {table : LockTable} {holder other : HolderId} {offset : Nat} {kind : LockKind}

/-- Takes an exclusive lock if nobody else is in the way. -/
def tryTake (table : LockTable) (holder : HolderId) (offset : Nat) : LockTable :=
  if table.blocks holder offset .exclusive then table else table.set holder offset .exclusive

/-- The ranges of two locks do not meet. -/
def Apart (offset other : Nat) : Prop := offset + lockLen ≤ other ∨ other + lockLen ≤ offset

/-- What everybody but `holder` has. -/
def others (table : LockTable) (holder : HolderId) : List ByteLock :=
  table.held.filter fun lock => lock.holder != holder

theorem covers_iff {byte : Nat} :
    covers offset byte = true ↔ offset ≤ byte ∧ byte < offset + lockLen := by
  simp [covers]

theorem mem_range_iff {byte : Nat} :
    byte ∈ List.range' offset lockLen ↔ covers offset byte = true := by
  rw [covers_iff, List.mem_range'_1]

theorem mem_clear_iff {lock : ByteLock} : lock ∈ (table.clear holder offset).held ↔
    lock ∈ table.held ∧ ¬ (lock.holder = holder ∧ covers offset lock.byte = true) := by
  rw [clear, List.mem_filter, Bool.not_eq_true', ← Bool.not_eq_true, Bool.and_eq_true, beq_iff_eq]

theorem mem_set_iff {lock : ByteLock} : lock ∈ (table.set holder offset kind).held ↔
    (lock.holder = holder ∧ covers offset lock.byte = true ∧ lock.kind = kind) ∨
      lock ∈ (table.clear holder offset).held := by
  simp only [set, List.mem_append, List.mem_map, mem_range_iff]
  constructor
  · rintro (⟨byte, hbyte, rfl⟩ | h)
    · exact Or.inl ⟨rfl, hbyte, rfl⟩
    · exact Or.inr h
  · rintro (⟨rfl, hbyte, rfl⟩ | h)
    · exact Or.inl ⟨lock.byte, hbyte, rfl⟩
    · exact Or.inr h

/-! ## Other holders -/

theorem others_clear : (table.clear holder offset).others holder = table.others holder := by
  rw [others, others, clear, List.filter_filter]
  apply List.filter_congr
  intro lock _
  by_cases h : lock.holder = holder <;> simp [h]

theorem others_set : (table.set holder offset kind).others holder = table.others holder := by
  rw [← @others_clear table holder offset]
  have : ((List.range' offset lockLen).map fun byte => (⟨holder, byte, kind⟩ : ByteLock)).filter
      (fun lock => lock.holder != holder) = [] := by
    rw [List.filter_eq_nil_iff]
    intro lock hl
    obtain ⟨byte, -, rfl⟩ := List.mem_map.1 hl
    simp
  rw [others, others, set, List.filter_append, this, List.nil_append]

theorem others_release : (table.release holder).others holder = table.others holder := by
  rw [others, others, release, List.filter_filter]
  apply List.filter_congr
  intro lock _
  simp

theorem tryTake_of_not_blocks (h : ¬ table.blocks holder offset .exclusive = true) :
    table.tryTake holder offset = table.set holder offset .exclusive := by
  unfold tryTake
  exact if_neg h

theorem tryTake_of_blocks (h : table.blocks holder offset .exclusive = true) :
    table.tryTake holder offset = table := by
  unfold tryTake
  exact if_pos h

/-- What one holder has depends on what is not another's. -/
theorem kindAt?_congr {table' : LockTable} (h : table'.others holder = table.others holder)
    (hne : other ≠ holder) (byte : Nat) : table'.kindAt? other byte = table.kindAt? other byte := by
  have hfind : ∀ t : LockTable, t.kindAt? other byte =
      ((t.others holder).find? fun lock => lock.holder == other && lock.byte == byte).map
        ByteLock.kind := by
    intro t
    rw [kindAt?, others, List.find?_filter]
    congr 2
    funext lock
    rw [Bool.eq_iff_iff]
    by_cases hl : lock.holder = other
    · simp [hl, hne]
    · simp [hl]
  rw [hfind, hfind, h]

theorem holdsExclusive_congr {table' : LockTable} (h : table'.others holder = table.others holder)
    (hne : other ≠ holder) (offset : Nat) :
    table'.holdsExclusive other offset = table.holdsExclusive other offset := by
  unfold holdsExclusive
  congr 1
  funext byte
  rw [kindAt?_congr h hne]

/-! ## The holder itself -/

theorem kindAt?_set_of_covers {byte : Nat} (h : covers offset byte = true) :
    (table.set holder offset kind).kindAt? holder byte = some kind := by
  have hsome : ((List.range' offset lockLen).map fun byte => (⟨holder, byte, kind⟩ : ByteLock)).find?
      (fun lock => lock.holder == holder && lock.byte == byte) = some ⟨holder, byte, kind⟩ := by
    have hex : (((List.range' offset lockLen).map fun byte => (⟨holder, byte, kind⟩ : ByteLock)).find?
        (fun lock => lock.holder == holder && lock.byte == byte)).isSome = true := by
      rw [List.find?_isSome]
      exact ⟨⟨holder, byte, kind⟩, List.mem_map.2 ⟨byte, mem_range_iff.2 h, rfl⟩, by simp⟩
    obtain ⟨lock, hlock⟩ := Option.isSome_iff_exists.1 hex
    obtain ⟨b, -, rfl⟩ := List.mem_map.1 (List.mem_of_find?_eq_some hlock)
    have hb := List.find?_some hlock
    simp only [beq_self_eq_true, Bool.true_and, beq_iff_eq] at hb
    rw [hlock, hb]
  rw [kindAt?, set, List.find?_append, hsome]
  rfl

theorem kindAt?_clear_of_not_covers {byte : Nat} (h : covers offset byte = false) :
    (table.clear holder offset).kindAt? holder byte = table.kindAt? holder byte := by
  rw [kindAt?, clear, List.find?_filter, kindAt?]
  congr 2
  funext lock
  rw [Bool.eq_iff_iff]
  by_cases hl : lock.byte = byte
  · simp [hl, h]
  · simp [hl]

theorem kindAt?_set_of_not_covers {byte : Nat} (h : covers offset byte = false) :
    (table.set holder offset kind).kindAt? holder byte = table.kindAt? holder byte := by
  have hnone : ((List.range' offset lockLen).map fun byte => (⟨holder, byte, kind⟩ : ByteLock)).find?
      (fun lock => lock.holder == holder && lock.byte == byte) = none := by
    rw [List.find?_eq_none]
    intro lock hl
    obtain ⟨b, hb, rfl⟩ := List.mem_map.1 hl
    simp only [beq_self_eq_true, Bool.true_and, beq_iff_eq]
    rintro rfl
    exact Bool.false_ne_true (h.symm.trans (mem_range_iff.1 hb))
  have hclear := @kindAt?_clear_of_not_covers table holder offset byte h
  rw [kindAt?, set, List.find?_append, hnone, Option.none_or]
  exact hclear

theorem not_covers_of_apart {kept : Nat} (hd : Apart offset kept) {byte : Nat}
    (hb : byte ∈ List.range' kept lockLen) : covers offset byte = false := by
  have hrange := covers_iff.1 (mem_range_iff.1 hb)
  rw [Bool.eq_false_iff, Ne, covers_iff]
  unfold Apart at hd
  omega

theorem holdsExclusive_set_self :
    (table.set holder offset .exclusive).holdsExclusive holder offset = true := by
  rw [holdsExclusive, List.all_eq_true]
  intro byte hb
  rw [kindAt?_set_of_covers (mem_range_iff.1 hb)]
  rfl

/-- A lock is not lost with another one whose range is apart from its own. -/
theorem holdsExclusive_clear_of_apart {kept : Nat} (hd : Apart offset kept) :
    (table.clear holder offset).holdsExclusive holder kept = table.holdsExclusive holder kept := by
  unfold holdsExclusive
  rw [Bool.eq_iff_iff, List.all_eq_true, List.all_eq_true]
  refine forall₂_congr fun byte hb => ?_
  rw [kindAt?_clear_of_not_covers (not_covers_of_apart hd hb)]

/-- Nor is it gained with one. -/
theorem holdsExclusive_set_of_apart {kept : Nat} (hd : Apart offset kept) :
    (table.set holder offset kind).holdsExclusive holder kept = table.holdsExclusive holder kept := by
  unfold holdsExclusive
  rw [Bool.eq_iff_iff, List.all_eq_true, List.all_eq_true]
  refine forall₂_congr fun byte hb => ?_
  rw [kindAt?_set_of_not_covers (not_covers_of_apart hd hb)]

/-- An exclusive lock taken leaves other exclusive locks of the holder alone. -/
theorem holdsExclusive_set_of_holds {kept : Nat} (h : table.holdsExclusive holder kept = true) :
    (table.set holder offset .exclusive).holdsExclusive holder kept = true := by
  rw [holdsExclusive, List.all_eq_true] at h ⊢
  intro byte hb
  by_cases hc : covers offset byte = true
  · rw [kindAt?_set_of_covers hc]
    rfl
  · rw [kindAt?_set_of_not_covers (Bool.eq_false_iff.2 hc)]
    exact h byte hb

/-- Nobody takes a lock that another holder has exclusively. -/
theorem blocks_of_holdsExclusive (hne : other ≠ holder) (h : table.holdsExclusive other offset = true)
    (kind : LockKind) : table.blocks holder offset kind = true := by
  rw [holdsExclusive, List.all_eq_true] at h
  have hself : covers offset offset = true := by simp [covers, lockLen]
  have hfirst := h offset (mem_range_iff.2 hself)
  rw [beq_iff_eq, kindAt?, Option.map_eq_some_iff] at hfirst
  obtain ⟨lock, hfind, hkind⟩ := hfirst
  have hp := List.find?_some hfind
  simp only [Bool.and_eq_true, beq_iff_eq] at hp
  rw [blocks, List.any_eq_true]
  refine ⟨lock, List.mem_of_find?_eq_some hfind, ?_⟩
  simp [hp.1, hne, hp.2, hself, hkind]

/-- Whether a lock is in the way depends on what others have. -/
theorem blocks_congr {table' : LockTable} (h : table'.others holder = table.others holder)
    (offset : Nat) (kind : LockKind) :
    table'.blocks holder offset kind = table.blocks holder offset kind := by
  have hany : ∀ t : LockTable, t.blocks holder offset kind = (t.others holder).any fun lock =>
      covers offset lock.byte && (lock.kind == .exclusive || kind == .exclusive) := by
    intro t
    rw [blocks, others, List.any_filter]
    simp only [Bool.and_assoc]
  rw [hany, hany, h]

/-- The locks of others decide. -/
theorem blocks_others (table : LockTable) (holder : HolderId) (offset : Nat) (kind : LockKind) :
    (⟨table.others holder⟩ : LockTable).blocks holder offset kind = table.blocks holder offset kind := by
  refine blocks_congr ?_ offset kind
  rw [others, others, List.filter_filter]
  exact List.filter_congr fun lock _ => by simp

/-- Who is in the way of a shared lock is in the way of an exclusive one. -/
theorem blocks_exclusive_of_blocks (h : table.blocks holder offset kind = true) :
    table.blocks holder offset .exclusive = true := by
  rw [blocks, List.any_eq_true] at h ⊢
  obtain ⟨lock, hl, hlock⟩ := h
  rw [Bool.and_eq_true] at hlock
  exact ⟨lock, hl, by simp [hlock.1]⟩

/-! ## What is added -/

/-- Beyond what was there, there are only locks of `holder` at these offsets. -/
def Adds (table table' : LockTable) (holder : HolderId) (offsets : List Nat) : Prop :=
  ∀ lock ∈ table'.held, lock ∈ table.held ∨
    (lock.holder = holder ∧ ∃ offset ∈ offsets, covers offset lock.byte = true)

variable {table' : LockTable} {offsets : List Nat}

theorem Adds.refl (table : LockTable) (holder : HolderId) : table.Adds table holder [] :=
  fun _ hl => Or.inl hl

theorem Adds.cons (h : table.Adds table' holder offsets) (offset : Nat) :
    table.Adds table' holder (offset :: offsets) := by
  intro lock hl
  rcases h lock hl with hl | ⟨hholder, o, ho, hcov⟩
  · exact Or.inl hl
  · exact Or.inr ⟨hholder, o, List.mem_cons_of_mem _ ho, hcov⟩

theorem Adds.set (h : table.Adds table' holder offsets) (offset : Nat) (kind : LockKind) :
    table.Adds (table'.set holder offset kind) holder (offset :: offsets) := by
  intro lock hl
  rcases mem_set_iff.1 hl with ⟨hholder, hcov, -⟩ | hl
  · exact Or.inr ⟨hholder, offset, List.mem_cons_self .., hcov⟩
  · exact h.cons offset lock (mem_clear_iff.1 hl).1

theorem Adds.clear (h : table.Adds table' holder offsets) (offset : Nat) :
    table.Adds (table'.clear holder offset) holder (offsets.filter (· ≠ offset)) := by
  intro lock hl
  obtain ⟨hl, hnot⟩ := mem_clear_iff.1 hl
  rcases h lock hl with hl | ⟨hholder, o, ho, hcov⟩
  · exact Or.inl hl
  · have hne : o ≠ offset := by
      rintro rfl
      exact hnot ⟨hholder, hcov⟩
    exact Or.inr ⟨hholder, o, List.mem_filter.2 ⟨ho, by simpa using hne⟩, hcov⟩

/-! ## Locks that go together -/

/-- Two holders have nothing but shared locks on the same byte. -/
def Consistent (table : LockTable) : Prop :=
  ∀ lock ∈ table.held, ∀ lock' ∈ table.held, lock.byte = lock'.byte → lock.holder ≠ lock'.holder →
    lock.kind = .shared ∧ lock'.kind = .shared

theorem Consistent.empty : empty.Consistent := by
  intro lock hl
  cases hl

theorem Consistent.clear (h : table.Consistent) (holder : HolderId) (offset : Nat) :
    (table.clear holder offset).Consistent :=
  fun lock hl lock' hl' => h lock (mem_clear_iff.1 hl).1 lock' (mem_clear_iff.1 hl').1

theorem Consistent.release (h : table.Consistent) (holder : HolderId) :
    (table.release holder).Consistent :=
  fun lock hl lock' hl' => h lock (List.mem_filter.1 hl).1 lock' (List.mem_filter.1 hl').1

/-- A lock that nobody is in the way of shares its bytes with shared locks only. -/
theorem shared_of_not_blocks (hfree : table.blocks holder offset kind = false) {lock : ByteLock}
    (hl : lock ∈ table.held) (hne : lock.holder ≠ holder) (hcov : covers offset lock.byte = true) :
    lock.kind = .shared ∧ kind = .shared := by
  rw [blocks, List.any_eq_false] at hfree
  have hnot := hfree lock hl
  simp only [hcov, Bool.and_true, Bool.and_eq_true, bne_iff_ne, Bool.or_eq_true, beq_iff_eq,
    not_and, not_or] at hnot
  obtain ⟨hlock, hkind⟩ := hnot hne
  refine ⟨?_, ?_⟩
  · cases hk : lock.kind with
    | shared => rfl
    | exclusive => exact absurd hk hlock
  · cases kind with
    | shared => rfl
    | exclusive => exact absurd rfl hkind

/-- A lock is taken only where it goes with those of others. -/
theorem Consistent.set (h : table.Consistent) (hfree : table.blocks holder offset kind = false) :
    (table.set holder offset kind).Consistent := by
  intro lock hl lock' hl' hbyte hne
  rcases mem_set_iff.1 hl with ⟨hholder, hcov, hkind⟩ | hl
  · rcases mem_set_iff.1 hl' with ⟨hholder', -, -⟩ | hl'
    · exact absurd (hholder.trans hholder'.symm) hne
    · obtain ⟨hother, hself⟩ := shared_of_not_blocks hfree (mem_clear_iff.1 hl').1
        (fun e => hne (hholder.trans e.symm)) (hbyte ▸ hcov)
      exact ⟨hkind.trans hself, hother⟩
  · rcases mem_set_iff.1 hl' with ⟨hholder, hcov, hkind⟩ | hl'
    · obtain ⟨hother, hself⟩ := shared_of_not_blocks hfree (mem_clear_iff.1 hl).1
        (fun e => hne (e.trans hholder.symm)) (hbyte ▸ hcov)
      exact ⟨hother, hkind.trans hself⟩
    · exact h lock (mem_clear_iff.1 hl).1 lock' (mem_clear_iff.1 hl').1 hbyte hne

/-- **Nobody has an exclusive lock where another is in the way.** -/
theorem Consistent.not_holdsExclusive (h : table.Consistent)
    (hb : table.blocks holder offset kind = true) : table.holdsExclusive holder offset = false := by
  rw [blocks, List.any_eq_true] at hb
  obtain ⟨lock, hl, hlock⟩ := hb
  simp only [Bool.and_eq_true, bne_iff_ne] at hlock
  rw [← Bool.not_eq_true, holdsExclusive, List.all_eq_true]
  intro hall
  have hbyte := hall lock.byte (mem_range_iff.2 hlock.1.2)
  rw [beq_iff_eq, kindAt?, Option.map_eq_some_iff] at hbyte
  obtain ⟨own, hfind, hkind⟩ := hbyte
  have hown := List.find?_some hfind
  simp only [Bool.and_eq_true, beq_iff_eq] at hown
  have hshared := h own (List.mem_of_find?_eq_some hfind) lock hl hown.2
    (fun e => hlock.1.1 (e.symm.trans hown.1))
  rw [hkind] at hshared
  cases hshared.1

/-! ## Locks of some bytes only -/

variable {p : Nat → Prop}

/-- Beyond shared locks on the presence bytes there are only locks on the bytes of `p`. -/
def Quiet (p : Nat → Prop) (table : LockTable) : Prop :=
  ∀ lock ∈ table.held, (lock.byte < lockLen ∧ lock.kind = .shared) ∨ p lock.byte

theorem Quiet.mono (h : table.Quiet p) {p' : Nat → Prop} (hp : ∀ byte, p byte → p' byte) :
    table.Quiet p' :=
  fun lock hl => (h lock hl).imp_right (hp lock.byte)

theorem Quiet.of_adds (h : table.Quiet p) (hadds : table.Adds table' holder offsets)
    (hp : ∀ offset ∈ offsets, ∀ byte, covers offset byte = true → p byte) : table'.Quiet p := by
  intro lock hl
  rcases hadds lock hl with hl | ⟨-, o, ho, hcov⟩
  · exact h lock hl
  · exact Or.inr (hp o ho lock.byte hcov)

theorem Quiet.release (h : table.Quiet p) (holder : HolderId) : (table.release holder).Quiet p :=
  fun lock hl => h lock (List.mem_filter.1 hl).1

/-- In a quiet table no lock apart from presence and from `p` is refused. -/
theorem Quiet.not_blocks (h : table.Quiet p) (hoff : lockLen ≤ offset)
    (hp : ∀ byte, covers offset byte = true → ¬ p byte) :
    table.blocks holder offset kind = false := by
  rw [blocks, List.any_eq_false]
  intro lock hl hb
  simp only [Bool.and_eq_true, bne_iff_ne] at hb
  rcases h lock hl with ⟨hbyte, -⟩ | hbyte
  · have := (covers_iff.1 hb.1.2).1
    omega
  · exact hp lock.byte hb.1.2 hbyte

/-- In a quiet table no shared lock apart from `p` is refused. -/
theorem Quiet.not_blocks_shared (h : table.Quiet p)
    (hp : ∀ byte, covers offset byte = true → ¬ p byte) :
    table.blocks holder offset .shared = false := by
  rw [blocks, List.any_eq_false]
  intro lock hl hb
  simp only [Bool.and_eq_true, bne_iff_ne] at hb
  rcases h lock hl with ⟨-, hkind⟩ | hbyte
  · simp [hkind] at hb
  · exact hp lock.byte hb.1.2 hbyte

/-! ## Locks of one holder -/

/-- Beyond shared locks on the presence bytes, this holder has locks at these offsets only. -/
def Within (table : LockTable) (holder : HolderId) (offsets : List Nat) : Prop :=
  ∀ lock ∈ table.held, lock.holder = holder → (lock.byte < lockLen ∧ lock.kind = .shared) ∨
    ∃ offset ∈ offsets, covers offset lock.byte = true

section Within

variable {offsets' : List Nat}

theorem Within.mono (h : table.Within holder offsets) (hsub : offsets ⊆ offsets') :
    table.Within holder offsets' := by
  intro lock hl hholder
  rcases h lock hl hholder with hshared | ⟨o, ho, hcov⟩
  · exact Or.inl hshared
  · exact Or.inr ⟨o, hsub ho, hcov⟩

theorem Within.set (h : table.Within holder offsets) (offset : Nat) (kind : LockKind) :
    (table.set holder offset kind).Within holder (offset :: offsets) := by
  intro lock hl hholder
  rcases mem_set_iff.1 hl with ⟨-, hcov, -⟩ | hl
  · exact Or.inr ⟨offset, List.mem_cons_self .., hcov⟩
  · exact h.mono (List.subset_cons_self ..) lock (mem_clear_iff.1 hl).1 hholder

theorem Within.clear (h : table.Within holder offsets) {offset : Nat}
    (hsub : offsets ⊆ offset :: offsets') : (table.clear holder offset).Within holder offsets' := by
  intro lock hl hholder
  obtain ⟨hl, hnot⟩ := mem_clear_iff.1 hl
  rcases h lock hl hholder with hshared | ⟨o, ho, hcov⟩
  · exact Or.inl hshared
  · rcases List.mem_cons.1 (hsub ho) with rfl | hin
    · exact absurd ⟨hholder, hcov⟩ hnot
    · exact Or.inr ⟨o, hin, hcov⟩

/-- A shared presence lock takes the place of an exclusive one. -/
theorem Within.share (h : table.Within holder offsets)
    (hsub : offsets ⊆ presenceOffset :: offsets') :
    (table.set holder presenceOffset .shared).Within holder offsets' := by
  intro lock hl hholder
  rcases mem_set_iff.1 hl with ⟨-, hcov, hkind⟩ | hl
  · exact Or.inl ⟨(covers_iff.1 hcov).2, hkind⟩
  · exact h.clear hsub lock hl hholder

/-- What another holder does changes nothing of it. -/
theorem Within.of_others (h : table.Within other offsets)
    (hothers : table'.others holder = table.others holder) (hne : other ≠ holder) :
    table'.Within other offsets := by
  intro lock hl hholder
  have hmem : lock ∈ table'.others holder := List.mem_filter.2 ⟨hl, by simpa [hholder] using hne⟩
  rw [hothers] at hmem
  exact h lock (List.mem_filter.1 hmem).1 hholder

/-- Whatever the holder has locked. -/
theorem within_held (table : LockTable) (holder : HolderId) :
    table.Within holder (table.held.map ByteLock.byte) :=
  fun lock hl _ => Or.inr ⟨lock.byte, List.mem_map_of_mem hl,
    covers_iff.2 ⟨Nat.le_refl _, Nat.lt_add_of_pos_right (by decide)⟩⟩

theorem Within.release (table : LockTable) (holder : HolderId) :
    (table.release holder).Within holder [] := by
  intro lock hl hholder
  have hne := (List.mem_filter.1 hl).2
  rw [bne_iff_ne] at hne
  exact absurd hholder hne

end Within

end RecordStore.LockTable
