import Mathlib.Tactic.Common
import RecordStore.Proofs.Openings
import RecordStore.Proofs.Tracking

/-!
# Opening a recovered file

What an opener finds may end in a line without its newline, hold a key twice, or carry slots that a
sort has left half done.  The opener sees all of it, and if it sorts, the complete lines get their
slots and the rest stays as it is.

* `Handle.Arrives` — a handle that has just been opened.
* `Enters` — what an open comes to.

Principal results: `finishOpen_enters` — an opener that has both locks; `openFile_enters`,
`resumeOpen_enters`; `openFile_ofBytes` — an opener that is alone.
-/

set_option autoImplicit false

namespace RecordStore

/-- A handle that has just been opened on these bytes, behind the header of the image. -/
structure Handle.Arrives (h : Handle) (config : Config) (i : Image) (bytes : Bytes) : Prop where
  headLen : h.headLen = Header.length
  config : h.config = config
  view : h.view.length = bytes.length
  seenSeq : h.seenSeq = i.header.appendSeq
  cache : h.cache = none

/-- A handle that has just been opened sees all complete lines. -/
theorem Handle.Arrives.tracks {h : Handle} {config : Config} {i : Image}
    (ha : h.Arrives config i i.bytes) : h.Tracks i where
  headLen := ha.headLen
  view := by
    refine ⟨i.texts, [], (List.append_nil _).symm, ha.view.trans i.length_bytes, ?_⟩
    rw [ha.seenSeq]
    rfl
  cache := by
    rw [ha.cache]
    rintro entry ⟨⟩

/-- What an open of complete lines and a fragment behind them comes to.  A first opener sorts if more
appends than the limit were made since the last sort. -/
inductive Enters (now : Nat) (config : Config) (before : Bytes) (i : Image) (fragment : Bytes) :
    SharedFile × Opening → Prop where
  | waiting {file' : SharedFile} {stage : OpenStage} (bytes : file'.bytes = before) :
    Enters now config before i fragment (file', .waiting stage)
  | opened {file' : SharedFile} {handle : Handle} {j : Image}
    (bytes : file'.bytes = j.bytes ++ fragment) (arrives : handle.Arrives config j file'.bytes)
    (image : j = i ∨ j = i.sorted now) :
    Enters now config before i fragment (file', .opened handle)

section Opening

variable {now : Nat} {holder : HolderId} {config : Config} {file : SharedFile} {i : Image}
  {fragment : Bytes}

/-- What an opener may find: complete lines and a fragment behind them, or nothing at all. -/
def SharedFile.Torn (file : SharedFile) (i : Image) (fragment : Bytes) : Prop :=
  file.bytes = i.bytes ++ fragment ∨ (file.bytes = [] ∧ i = .fresh ∧ fragment = [])

/-- **An opener that has both locks** gets its handle. -/
theorem finishOpen_enters (hi : i.Whole) (hf : newline ∉ fragment) (hfile : file.Torn i fragment)
    (first : Bool) : ∃ (file' : SharedFile) (handle : Handle) (j : Image),
      finishOpen now holder config first file = (file', .opened handle) ∧
        file'.bytes = j.bytes ++ fragment ∧ handle.Arrives config j file'.bytes ∧
        (j = i.sorted now ∨
          j = i ∧ ¬ (first = true ∧ config.resortLimit < i.header.sinceSort)) := by
  -- the file with its header
  obtain ⟨file₁, hfile₁, hbytes⟩ : ∃ file₁ : SharedFile, file₁ =
      (if file.bytes.isEmpty then file.patch now ⟨0, Header.encode .fresh⟩ else file) ∧
        file₁.bytes = i.bytes ++ fragment := by
    have hpos : 0 < (i.bytes ++ fragment).length := by
      rw [List.length_append, Image.length_bytes, Nat.add_assoc]
      exact Nat.lt_of_lt_of_le (by decide) (Nat.le_add_right _ _)
    refine ⟨_, rfl, ?_⟩
    rcases hfile with hsame | ⟨hempty, rfl, rfl⟩
    · have hne : ¬ file.bytes.isEmpty = true := by
        rw [hsame, List.isEmpty_iff]
        exact List.ne_nil_of_length_pos hpos
      rw [if_neg hne]
      exact hsame
    · rw [if_pos (by rw [hempty]; rfl), SharedFile.patch, if_neg (by decide), hempty]
      exact (by decide : (⟨0, Header.encode .fresh⟩ : Patch).apply [] = Image.fresh.bytes ++ [])
  have hcut : i.bytes ++ fragment = i.header.encode ++ (i.texts.flatten ++ fragment) :=
    List.append_assoc ..
  have hmake : makeHandle config file₁.bytes file.bytes.isEmpty = some (i.header,
      ⟨config, Header.length, i.header.appendSeq, .ofBytes file₁.bytes, none,
        file.bytes.isEmpty⟩) := by
    refine makeHandle_eq_some_iff.2 ⟨?_, _, ?_, rfl⟩
    · rw [hbytes, hcut, Header.decode?_encode]
    · rw [hbytes, hcut, headLength?_encode hi.version]
  unfold finishOpen
  dsimp only
  rw [← hfile₁, hmake]
  dsimp only
  generalize hs : (⟨now, holder, ⟨config, Header.length, i.header.appendSeq, .ofBytes file₁.bytes,
    none, file.bytes.isEmpty⟩, file₁, []⟩ : Session) = s
  have hhandle : s.handle.Arrives config i (i.bytes ++ fragment) := by
    rw [← hs, ← hbytes]
    exact ⟨rfl, rfl, rfl, rfl, rfl⟩
  have hfile : s.file.bytes = i.bytes ++ fragment := by rw [← hs]; exact hbytes
  have hnow : s.now = now := by rw [← hs]
  split
  · have hsort := Session.sort_bytes_append hi hf hfile hhandle.headLen
      (by rw [hhandle.view, hfile])
    obtain ⟨-, -, hsorted⟩ := s.sort_frame
    refine ⟨_, _, i.sorted s.now, rfl, hsort, ?_, Or.inl (by rw [hnow])⟩
    rw [hsorted]
    refine ⟨hhandle.headLen, hhandle.config, hhandle.view.trans ?_, hhandle.seenSeq, hhandle.cache⟩
    show _ = s.sort.file.bytes.length
    rw [hsort, List.length_append, List.length_append, Image.length_sorted]
  · next hrest =>
    refine ⟨_, _, i, rfl, hfile, ?_, Or.inr ⟨rfl, fun hdue => hrest ?_⟩⟩
    · show s.handle.Arrives config i s.file.bytes
      rw [hfile]
      exact hhandle
    · simp [hdue.1, needsSort, hdue.2]

theorem sharePresence_enters (hi : i.Whole) (hf : newline ∉ fragment) (hfile : file.Torn i fragment)
    (first : Bool) : Enters now config file.bytes i fragment
      (sharePresence now holder config first file) := by
  unfold sharePresence
  rcases file.acquire?_cases holder presenceOffset .shared with ⟨-, hacq⟩ | ⟨-, hacq⟩
  · rw [hacq]
    exact .waiting rfl
  · rw [hacq]
    obtain ⟨file', handle, j, hfinish, hbytes, harrives, himage⟩ :=
      @finishOpen_enters now holder config (file.hold holder presenceOffset .shared) i fragment hi hf
        hfile first
    dsimp only
    rw [hfinish]
    exact .opened hbytes harrives (himage.symm.imp_left And.left)

/-- **An open from its beginning.** -/
theorem openFile_enters (hi : i.Whole) (hf : newline ∉ fragment) (hfile : file.Torn i fragment) :
    Enters now config file.bytes i fragment (openFile now holder config file) := by
  unfold openFile
  rcases file.acquire?_cases holder structuralOffset .exclusive with ⟨-, hacq⟩ | ⟨-, hacq⟩
  · rw [hacq]
    exact .waiting rfl
  · rw [hacq]
    dsimp only
    unfold probePresence
    have hheld : (file.hold holder structuralOffset .exclusive).Torn i fragment := hfile
    rcases SharedFile.acquire?_cases (file.hold holder structuralOffset .exclusive) holder
      presenceOffset .exclusive with ⟨-, hprobe⟩ | ⟨-, hprobe⟩
    · rw [hprobe]
      exact sharePresence_enters hi hf hheld false
    · rw [hprobe]
      have hprobed : (SharedFile.hold (file.hold holder structuralOffset .exclusive) holder
        presenceOffset .exclusive).Torn i fragment := hfile
      exact sharePresence_enters hi hf hprobed true

/-- **An open on from where it waits.** -/
theorem resumeOpen_enters (hi : i.Whole) (hf : newline ∉ fragment) (hfile : file.Torn i fragment)
    (stage : OpenStage) : Enters now config file.bytes i fragment
      (resumeOpen now holder config file stage) := by
  cases stage with
  | structural => exact openFile_enters hi hf hfile
  | presence first => exact sharePresence_enters hi hf hfile first

end Opening

/-- **An opener that is alone** gets both locks at once. -/
theorem openFile_ofBytes (now : Nat) (holder : HolderId) (config : Config) (bytes : Bytes)
    (mtime : Int) : ∃ locks, openFile now holder config (.ofBytes bytes mtime) =
      finishOpen now holder config true ⟨bytes, mtime, locks⟩ := by
  refine ⟨((LockTable.empty.set holder structuralOffset .exclusive).set holder presenceOffset
    .exclusive).set holder presenceOffset .shared, ?_⟩
  have hown : ∀ (table : LockTable) (offset : Nat) (kind : LockKind),
      (∀ lock ∈ table.held, lock.holder = holder) → table.blocks holder offset kind = false := by
    intro table offset kind hall
    rw [LockTable.blocks, List.any_eq_false]
    intro lock hl
    simp [hall lock hl]
  have hset : ∀ (table : LockTable) (offset : Nat) (kind : LockKind),
      (∀ lock ∈ table.held, lock.holder = holder) →
      ∀ lock ∈ (table.set holder offset kind).held, lock.holder = holder := by
    intro table offset kind hall lock hl
    rcases LockTable.mem_set_iff.1 hl with ⟨hholder, -⟩ | hl
    · exact hholder
    · exact hall lock (LockTable.mem_clear_iff.1 hl).1
  have hempty : ∀ lock ∈ LockTable.empty.held, lock.holder = holder := by
    rintro lock ⟨⟩
  simp only [openFile, probePresence, sharePresence, SharedFile.ofBytes, SharedFile.acquire?,
    LockTable.acquire?, hown _ structuralOffset .exclusive hempty,
    hown _ presenceOffset .exclusive (hset _ structuralOffset .exclusive hempty),
    hown _ presenceOffset .shared
      (hset _ presenceOffset .exclusive (hset _ structuralOffset .exclusive hempty)),
    Bool.false_eq_true, if_false, Option.map_some]

end RecordStore
