import Mathlib.Tactic.Common
import RecordStore.Open
import RecordStore.Proofs.Appends

/-!
# Opening and closing on a sound file

An opener that has both locks gets a handle that sees the whole file.  It changes no record: an empty
file gets a header, and a first opener may sort.

* `Image.fresh` — a store without records.
* `SharedFile.Shows` — what an opener may find: a sound file, or an empty one.
* `Opens` — what an open comes to.

Principal results: `openFile_opens`, `resumeOpen_opens`; `closeFile_shows`.
-/

set_option autoImplicit false

namespace RecordStore

/-- A store without records. -/
def Image.fresh : Image := ⟨.fresh, []⟩

theorem Image.Sound.fresh : Image.fresh.Sound where
  version := by decide
  line := by simp [Image.fresh]
  wellFormed := by simp [Image.fresh]
  count := rfl
  routed := ⟨[], [], rfl, Index.Routed.nil, by simp⟩
  distinct := List.nodup_nil

/-- The bytes are those of the image; an empty file counts as a store without records. -/
def SharedFile.Shows (file : SharedFile) (i : Image) : Prop :=
  file.bytes = i.bytes ∨ (file.bytes = [] ∧ i = .fresh)

/-! ## Locks on the file -/

/-- A holder has taken a lock. -/
def SharedFile.hold (file : SharedFile) (holder : HolderId) (offset : Nat) (kind : LockKind) :
    SharedFile :=
  { file with locks := file.locks.set holder offset kind }

theorem SharedFile.acquire?_cases (file : SharedFile) (holder : HolderId) (offset : Nat)
    (kind : LockKind) :
    (file.locks.blocks holder offset kind = true ∧ file.acquire? holder offset kind = none) ∨
      (file.locks.blocks holder offset kind = false ∧
        file.acquire? holder offset kind = some (file.hold holder offset kind)) := by
  unfold SharedFile.acquire? LockTable.acquire?
  cases file.locks.blocks holder offset kind with
  | true => exact Or.inl ⟨rfl, rfl⟩
  | false => exact Or.inr ⟨rfl, rfl⟩

/-! ## What an open comes to -/

/-- A handle on a file with the records of the image: it sees all of it. -/
structure Opened (config : Config) (file : SharedFile) (i j : Image) (handle : Handle) : Prop where
  bytes : file.bytes = j.bytes
  sound : j.Sound
  fits : handle.Fits j
  config : handle.config = config
  extends_ : i.Extends j
  versions : j.versions = i.versions

/-- What an open comes to: a handle, or a wait that leaves the file as it is.  Other holders keep
their locks, and those of the opener go with them. -/
inductive Opens (holder : HolderId) (config : Config) (file : SharedFile) (i : Image) :
    SharedFile × Opening → Prop where
  | opened {file' : SharedFile} {handle : Handle} {j : Image} (opened : Opened config file' i j handle)
    (others : file'.locks.others holder = file.locks.others holder)
    (consistent : file.locks.Consistent → file'.locks.Consistent) :
    Opens holder config file i (file', .opened handle)
  | waiting {file' : SharedFile} {stage : OpenStage} (bytes : file'.bytes = file.bytes)
    (others : file'.locks.others holder = file.locks.others holder)
    (consistent : file.locks.Consistent → file'.locks.Consistent) :
    Opens holder config file i (file', .waiting stage)

/-- A lock that the opener takes before belongs to the open. -/
theorem Opens.of_hold {holder : HolderId} {config : Config} {file : SharedFile} {i : Image}
    {offset : Nat} {kind : LockKind} {result : SharedFile × Opening}
    (hfree : file.locks.blocks holder offset kind = false)
    (h : Opens holder config (file.hold holder offset kind) i result) :
    Opens holder config file i result := by
  have hothers : (file.hold holder offset kind).locks.others holder = file.locks.others holder :=
    LockTable.others_set
  cases h with
  | opened opened others consistent =>
    exact .opened opened (others.trans hothers) fun hc => consistent (hc.set hfree)
  | waiting bytes others consistent =>
    exact .waiting bytes (others.trans hothers) fun hc => consistent (hc.set hfree)

section Opening

variable {now : Nat} {holder : HolderId} {config : Config} {file : SharedFile} {i : Image}

/-- What the handle of an opener is made of. -/
theorem makeHandle_eq_some_iff {bytes : Bytes} {fresh : Bool} {header : Header} {handle : Handle} :
    makeHandle config bytes fresh = some (header, handle) ↔ Header.decode? bytes = some header ∧
      ∃ headLen, headLength? bytes = some headLen ∧
        handle = ⟨config, headLen, header.appendSeq, .ofBytes bytes, none, fresh⟩ := by
  unfold makeHandle
  cases hdec : Header.decode? bytes with
  | none => simp
  | some header' =>
    cases hlen : headLength? bytes with
    | none => simp
    | some headLen =>
      constructor
      · intro h
        cases h
        exact ⟨rfl, headLen, rfl, rfl⟩
      · intro ⟨hheader, n, hn, hhandle⟩
        cases hheader
        cases hn
        rw [hhandle]
        rfl

/-- The handle of an opener sees the whole file. -/
theorem makeHandle_eq (hi : i.Sound) (config : Config) (fresh : Bool) :
    ∃ handle, makeHandle config i.bytes fresh = some (i.header, handle) ∧ handle.Fits i ∧
      handle.config = config ∧ handle.Current i := by
  have hdecode := Header.decode?_encode i.header i.texts.flatten
  have hlength := headLength?_encode hi.version i.texts.flatten
  refine ⟨⟨config, Header.length, i.header.appendSeq, .ofBytes i.bytes, none, fresh⟩,
    makeHandle_eq_some_iff.2 ⟨hdecode, _, hlength, rfl⟩,
    ⟨rfl, ⟨i.texts, [], by simp, ?_, Nat.le_of_eq hi.count⟩, by simp⟩, rfl, rfl⟩
  · simp only [View.ofBytes, Image.length_bytes]

/-- **An opener that has both locks** gets its handle, and gives the structural lock up. -/
theorem finishOpen_eq (hfile : file.Shows i) (hi : i.Sound)
    (hsmall : i.bytes.length < UInt32.size) (first : Bool) :
    ∃ (file' : SharedFile) (handle : Handle) (j : Image),
      finishOpen now holder config first file = (file', .opened handle) ∧
        Opened config file' i j handle ∧ file'.locks = file.locks.clear holder structuralOffset := by
  -- the file with its header
  obtain ⟨file₁, hfile₁, hbytes, hlocks⟩ : ∃ file₁ : SharedFile, file₁ =
      (if file.bytes.isEmpty then file.patch now ⟨0, Header.encode .fresh⟩ else file) ∧
        file₁.bytes = i.bytes ∧ file₁.locks = file.locks := by
    have hpos : 0 < i.bytes.length := by
      rw [Image.length_bytes]
      exact Nat.lt_of_lt_of_le (by decide) (Nat.le_add_right _ _)
    refine ⟨_, rfl, ?_⟩
    rcases hfile with hsame | ⟨hempty, rfl⟩
    · have hne : ¬ file.bytes.isEmpty = true := by
        rw [hsame, List.isEmpty_iff]
        exact List.ne_nil_of_length_pos hpos
      rw [if_neg hne]
      exact ⟨hsame, rfl⟩
    · rw [if_pos (by rw [hempty]; rfl), SharedFile.patch, if_neg (by decide), hempty]
      have happly : (⟨0, Header.encode .fresh⟩ : Patch).apply [] = Image.fresh.bytes := by decide
      exact ⟨happly, rfl⟩
  obtain ⟨handle, hmake, hfits, hconfig, hcurrent⟩ := makeHandle_eq hi config file.bytes.isEmpty
  have hon : (⟨now, holder, handle, file₁, []⟩ : Session).On i := ⟨hbytes, hfits, hi⟩
  obtain ⟨j, hon', hresorted⟩ := SessionM.exists_resorted hon hsmall
    ((first && needsSort i.header file₁.mtime config.resortLimit) = true) (fun _ => hcurrent)
  unfold finishOpen
  dsimp only
  rw [← hfile₁, hbytes, hmake]
  dsimp only
  obtain ⟨hframe, -, hhandle⟩ := (⟨now, holder, handle, file₁, []⟩ : Session).sort_frame
  generalize hs : (if (first && needsSort i.header file₁.mtime config.resortLimit) = true then
    (⟨now, holder, handle, file₁, []⟩ : Session).sort else ⟨now, holder, handle, file₁, []⟩) = s
    at hon'
  have hs' : s.file.locks = file.locks ∧ s.handle.config = config := by
    rw [← hs]
    split
    · rw [hframe, hhandle]
      exact ⟨hlocks, hconfig⟩
    · exact ⟨hlocks, hconfig⟩
  refine ⟨_, _, j, rfl, ⟨hon'.bytes, hon'.sound, hon'.fits, hs'.2, hresorted.extends_,
    hresorted.versions⟩, ?_⟩
  simp only [SharedFile.unlock, hs'.1]

theorem sharePresence_opens (hfile : file.Shows i) (hi : i.Sound)
    (hsmall : i.bytes.length < UInt32.size) (first : Bool) :
    Opens holder config file i (sharePresence now holder config first file) := by
  unfold sharePresence
  rcases file.acquire?_cases holder presenceOffset .shared with ⟨-, hacq⟩ | ⟨hfree, hacq⟩
  · rw [hacq]
    exact .waiting rfl rfl id
  · rw [hacq]
    have hheld : (file.hold holder presenceOffset .shared).Shows i := hfile
    obtain ⟨file', handle, j, hfinish, hopened, hlocks⟩ :=
      @finishOpen_eq now holder config _ i hheld hi hsmall first
    dsimp only
    rw [hfinish]
    refine .opened hopened ?_ fun hc => ?_
    · rw [hlocks, LockTable.others_clear]
      exact LockTable.others_set
    · rw [hlocks]
      exact (hc.set hfree).clear _ _

theorem probePresence_opens (hfile : file.Shows i) (hi : i.Sound)
    (hsmall : i.bytes.length < UInt32.size) :
    Opens holder config file i (probePresence now holder config file) := by
  unfold probePresence
  rcases file.acquire?_cases holder presenceOffset .exclusive with ⟨-, hacq⟩ | ⟨hfree, hacq⟩
  · rw [hacq]
    exact sharePresence_opens hfile hi hsmall false
  · rw [hacq]
    have hheld : (file.hold holder presenceOffset .exclusive).Shows i := hfile
    exact .of_hold hfree (sharePresence_opens hheld hi hsmall true)

/-- **An open from its beginning.** -/
theorem openFile_opens (hfile : file.Shows i) (hi : i.Sound)
    (hsmall : i.bytes.length < UInt32.size) :
    Opens holder config file i (openFile now holder config file) := by
  unfold openFile
  rcases file.acquire?_cases holder structuralOffset .exclusive with ⟨-, hacq⟩ | ⟨hfree, hacq⟩
  · rw [hacq]
    exact .waiting rfl rfl id
  · rw [hacq]
    have hheld : (file.hold holder structuralOffset .exclusive).Shows i := hfile
    exact .of_hold hfree (probePresence_opens hheld hi hsmall)

/-- **An open on from where it waits.** -/
theorem resumeOpen_opens (hfile : file.Shows i) (hi : i.Sound)
    (hsmall : i.bytes.length < UInt32.size) (stage : OpenStage) :
    Opens holder config file i (resumeOpen now holder config file stage) := by
  cases stage with
  | structural => exact openFile_opens hfile hi hsmall
  | presence first => exact sharePresence_opens hfile hi hsmall first

/-! ## Opening while all is quiet -/

/-- The bytes that an opener locks. -/
theorem not_of_covers {p : Nat → Prop} (hp : ∀ byte, p byte → Header.length ≤ byte) {offset : Nat}
    (hoff : offset ≤ structuralOffset) {byte : Nat} (hcov : LockTable.covers offset byte = true) :
    ¬ p byte := by
  intro hb
  have hlt := (LockTable.covers_iff.1 hcov).2
  have hle := hp byte hb
  have : structuralOffset + lockLen < Header.length := by decide
  omega

/-- An opener whose only new locks are the structural and the presence lock gets its handle, and
shares the presence lock alone. -/
theorem sharePresence_quiet {p : Nat → Prop} (hp : ∀ byte, p byte → Header.length ≤ byte)
    {table : LockTable} (hquiet : table.Quiet p) {offsets : List Nat}
    (hadds : table.Adds file.locks holder offsets)
    (hoffsets : ∀ o ∈ offsets, o = presenceOffset ∨ o = structuralOffset)
    (hothers : file.locks.others holder = table.others holder) (hfile : file.Shows i) (hi : i.Sound)
    (hsmall : i.bytes.length < UInt32.size) (first : Bool) : ∃ file' handle,
      sharePresence now holder config first file = (file', .opened handle) ∧ file'.locks.Quiet p := by
  have hfree : file.locks.blocks holder presenceOffset .shared = false := by
    rw [LockTable.blocks_congr hothers]
    exact hquiet.not_blocks_shared fun _ => not_of_covers hp (by decide)
  have hheld : (file.hold holder presenceOffset .shared).Shows i := hfile
  obtain ⟨file', handle, j, hfinish, -, hlocks⟩ :=
    @finishOpen_eq now holder config _ i hheld hi hsmall first
  refine ⟨file', handle, ?_, ?_⟩
  · unfold sharePresence
    rcases file.acquire?_cases holder presenceOffset .shared with ⟨hb, -⟩ | ⟨-, hacq⟩
    · rw [hfree] at hb
      cases hb
    · rw [hacq]
      exact hfinish
  · intro lock hl
    rw [hlocks] at hl
    obtain ⟨hl, hstructural⟩ := LockTable.mem_clear_iff.1 hl
    rcases LockTable.mem_set_iff.1 hl with ⟨-, hcov, hkind⟩ | hl
    · exact Or.inl ⟨(LockTable.covers_iff.1 hcov).2, hkind⟩
    · obtain ⟨hl, hpresence⟩ := LockTable.mem_clear_iff.1 hl
      rcases hadds lock hl with hl | ⟨hholder, o, ho, hcov⟩
      · exact hquiet lock hl
      · rcases hoffsets o ho with rfl | rfl
        · exact absurd ⟨hholder, hcov⟩ hpresence
        · exact absurd ⟨hholder, hcov⟩ hstructural

/-- **In a quiet table an open goes through**, and leaves the table quiet. -/
theorem openFile_quiet {p : Nat → Prop} (hp : ∀ byte, p byte → Header.length ≤ byte)
    (hquiet : file.locks.Quiet p) (hfile : file.Shows i) (hi : i.Sound)
    (hsmall : i.bytes.length < UInt32.size) : ∃ file' handle,
      openFile now holder config file = (file', .opened handle) ∧ file'.locks.Quiet p := by
  have hfree : file.locks.blocks holder structuralOffset .exclusive = false :=
    hquiet.not_blocks (by decide) fun _ => not_of_covers hp (Nat.le_refl _)
  unfold openFile
  rcases file.acquire?_cases holder structuralOffset .exclusive with ⟨hb, -⟩ | ⟨-, hacq⟩
  · rw [hfree] at hb
    cases hb
  · rw [hacq]
    dsimp only
    have hothers : (file.hold holder structuralOffset .exclusive).locks.others holder =
        file.locks.others holder := LockTable.others_set
    have hadds := (LockTable.Adds.refl file.locks holder).set structuralOffset .exclusive
    have hheld : (file.hold holder structuralOffset .exclusive).Shows i := hfile
    unfold probePresence
    rcases SharedFile.acquire?_cases (file.hold holder structuralOffset .exclusive) holder
      presenceOffset .exclusive with ⟨-, hprobe⟩ | ⟨-, hprobe⟩
    · have hoffsets : ∀ o ∈ [structuralOffset], o = presenceOffset ∨ o = structuralOffset := by simp
      rw [hprobe]
      exact sharePresence_quiet hp hquiet hadds hoffsets hothers hheld hi hsmall false
    · have hoffsets : ∀ o ∈ [presenceOffset, structuralOffset],
          o = presenceOffset ∨ o = structuralOffset := by simp
      have hothers' : (SharedFile.hold (file.hold holder structuralOffset .exclusive) holder
          presenceOffset .exclusive).locks.others holder = file.locks.others holder :=
        LockTable.others_set.trans hothers
      rw [hprobe]
      exact sharePresence_quiet hp hquiet (hadds.set presenceOffset .exclusive) hoffsets hothers'
        hheld hi hsmall true

/-! ## Closing -/

/-- Closing gives up every lock. -/
theorem closeFile_locks (now : Nat) (holder : HolderId) (handle : Handle) (file : SharedFile) :
    (closeFile now holder handle file).locks = file.locks.release holder := by
  unfold closeFile
  cases closingPatch? now handle with
  | none => rfl
  | some patch => exact congrArg (·.release holder) (file.patch_locks now patch)

/-- The header that a closing handle leaves. -/
def closedHeader (now : Nat) (handle : Handle) (header : Header) : Header :=
  if handle.modified then { header with modified := UInt32.ofNat now } else header

/-- Closing changes the modification second alone. -/
theorem closedHeader_frame (now : Nat) (handle : Handle) (header : Header) :
    (closedHeader now handle header).version = header.version ∧
      (closedHeader now handle header).appendSeq = header.appendSeq ∧
      (closedHeader now handle header).sinceSort = header.sinceSort := by
  unfold closedHeader
  split <;> exact ⟨rfl, rfl, rfl⟩

/-- **Closing** stamps the header if anything was modified, whatever stands behind the lines. -/
theorem closeFile_bytes_eq {handle : Handle} {rest : Bytes}
    (hbytes : file.bytes = i.bytes ++ rest) : (closeFile now holder handle file).bytes =
      (⟨closedHeader now handle i.header, i.texts⟩ : Image).bytes ++ rest := by
  have hcut : ∀ header : Header, (⟨header, i.texts⟩ : Image).bytes ++ rest =
      header.encode ++ (i.texts.flatten ++ rest) := fun _ => List.append_assoc ..
  unfold closeFile closingPatch? closedHeader
  by_cases hm : handle.modified = true
  · rw [if_pos hm, if_pos hm]
    have hstamp := Header.apply_counter i.header .modified (UInt32.ofNat now)
      (i.texts.flatten ++ rest)
    rw [← hcut, ← hcut, ← hbytes] at hstamp
    exact (file.patch_bytes now _).trans hstamp
  · rw [if_neg hm, if_neg hm]
    exact hbytes

theorem closeFile_bytes_append {handle : Handle} {rest : Bytes}
    (hbytes : file.bytes = i.bytes ++ rest) :
    ∃ header : Header, header.version = i.header.version ∧ header.appendSeq = i.header.appendSeq ∧
      (closeFile now holder handle file).bytes = (⟨header, i.texts⟩ : Image).bytes ++ rest := by
  obtain ⟨hversion, hseq, -⟩ := closedHeader_frame now handle i.header
  exact ⟨_, hversion, hseq, closeFile_bytes_eq hbytes⟩

theorem closeFile_bytes {handle : Handle} (hbytes : file.bytes = i.bytes) :
    ∃ header : Header, header.version = i.header.version ∧ header.appendSeq = i.header.appendSeq ∧
      (closeFile now holder handle file).bytes = (⟨header, i.texts⟩ : Image).bytes := by
  have hnil : ∀ j : Image, j.bytes ++ [] = j.bytes := fun j => List.append_nil _
  obtain ⟨header, hversion, hseq, hclosed⟩ :=
    @closeFile_bytes_append now holder file i handle [] (hbytes.trans (hnil i).symm)
  exact ⟨header, hversion, hseq, hclosed.trans (hnil _)⟩

theorem closeFile_shows {handle : Handle} (hbytes : file.bytes = i.bytes) (hi : i.Sound) :
    ∃ j : Image, (closeFile now holder handle file).bytes = j.bytes ∧ j.Sound ∧ i.Extends j ∧
      j.versions = i.versions := by
  obtain ⟨header, hversion, hseq, hclosed⟩ :=
    @closeFile_bytes now holder file i handle hbytes
  exact ⟨⟨header, i.texts⟩, hclosed, hi.withHeader hversion hseq, Image.extends_of_frames rfl, rfl⟩

end Opening

end RecordStore
