import Mathlib.Tactic.Common
import RecordStore.Proofs.Holding
import RecordStore.Proofs.Turns

/-!
# What lasts in a store

Openings, calls and closings let the file endure, whatever it held when the first client came and
however the clients take turns.  So a record that was there at some moment stands in its place ever
after.

* `Admits` — how an open ends.
* `Client.Steady`, `Store.Steady` — what the clients of a store rely on.

Principal results: `openFile_admits`; `Store.Steady.serve` — one turn; `run_endures` — every run.
-/

set_option autoImplicit false

namespace RecordStore

/-- Where a holder sets out on a file. -/
def SharedFile.outset (file : SharedFile) (holder : HolderId) : Outset :=
  ⟨holder, file.bytes, file.locks.others holder⟩

/-! ## Openings -/

/-- The offsets of the exclusive locks that a waiting opener has. -/
def OpenStage.held : OpenStage → List Nat
  | .structural => []
  | .presence _ => [structuralOffset]

/-- How an open ends: with a session that can go on, with an error and no lock, or where another
holder is in its way. -/
inductive Admits (o : Outset) (owned : List Nat) : SharedFile × Opening → Prop where
  | opened {s : Session} (keeps : s.Keeps o owned []) : Admits o owned (s.file, .opened s.handle)
  | failed {file : SharedFile} {e : Error} (endures : Endures o.bytes file.bytes)
    (others : file.locks.others o.holder = o.others) (own : file.locks.Within o.holder []) :
    Admits o owned (file, .failed e)
  | waiting {file : SharedFile} {stage : OpenStage} (bytes : file.bytes = o.bytes)
    (others : file.locks.others o.holder = o.others)
    (blocked : (⟨o.others⟩ : LockTable).blocks o.holder stage.wants.1 stage.wants.2 = true)
    (own : file.locks.Within o.holder (stage.held ++ owned)) : Admits o owned (file, .waiting stage)

section Openings

variable {now : Nat} {holder : HolderId} {config : Config} {file : SharedFile} {o : Outset}
  {owned : List Nat}

/-- The handle of an opener sees the whole file. -/
theorem makeHandle_steady {bytes : Bytes} {fresh : Bool} {header : Header} {handle : Handle}
    (h : makeHandle config bytes fresh = some (header, handle)) : handle.Steady bytes := by
  obtain ⟨hdec, headLen, hlen, rfl⟩ := makeHandle_eq_some_iff.1 h
  have hlegible : Legible bytes := legible_iff.2 (by rw [hdec]; rfl)
  -- the first newline is no later than the one that ends the header
  obtain ⟨place, hplace, rfl⟩ := Option.map_eq_some_iff.1 hlen
  obtain ⟨hlt, hnewline, hfirst⟩ := List.idxOf?_eq_some_iff.1 hplace
  have hle : place + 1 ≤ Header.length := by
    have hpos : 0 < Header.length := by decide
    obtain ⟨hin, hend⟩ := List.getElem?_eq_some_iff.1 hlegible.newline_eq
    by_contra hgt
    exact hfirst (Header.length - 1) (by omega) hend
  exact
    { legible := hlegible
      headLen_pos := Nat.succ_pos _
      headLen_le := hle
      newline_eq := by
        rw [Nat.add_sub_cancel]
        exact List.getElem?_eq_some_iff.2 ⟨hlt, hnewline⟩
      sees := hlegible.length_le
      inside := Nat.le_refl _
      cache := by simp }

/-- **An opener that has both locks** sorts at most, unless the header cannot be read. -/
theorem finishOpen_admits (hbytes : file.bytes = o.bytes)
    (hothers : file.locks.others o.holder = o.others)
    (hown : file.locks.Within o.holder (structuralOffset :: owned)) (first : Bool) :
    Admits o owned (finishOpen now o.holder config first file) := by
  -- the file with its header
  obtain ⟨file₁, hfile₁, hendures, hlocks⟩ : ∃ file₁ : SharedFile, file₁ =
      (if file.bytes.isEmpty then file.patch now ⟨0, Header.encode .fresh⟩ else file) ∧
        Endures o.bytes file₁.bytes ∧ file₁.locks = file.locks := by
    refine ⟨_, rfl, ?_⟩
    rw [← hbytes]
    split
    · next hempty =>
      rw [List.isEmpty_iff.1 hempty]
      exact ⟨Endures.of_nil _, SharedFile.patch_locks _ _ _⟩
    · exact ⟨Endures.refl _, rfl⟩
  unfold finishOpen
  dsimp only
  rw [← hfile₁]
  cases hmake : makeHandle config file₁.bytes file.bytes.isEmpty with
  | none =>
    dsimp only
    refine .failed hendures ?_ ?_
    · rw [SharedFile.release, LockTable.others_release, hlocks, hothers]
    · exact .release _ _
  | some made =>
    obtain ⟨header, handle⟩ := made
    dsimp only
    have hkeeps : (⟨now, o.holder, handle, file₁, []⟩ : Session).Keeps o (structuralOffset :: owned)
        [] :=
      { holder := rfl
        steady := makeHandle_steady hmake
        endures := hendures
        others := by rw [hlocks, hothers]
        own := by
          rw [hlocks]
          exact hown
        bears := by simp }
    -- a first opener may sort
    generalize hs : (if (first && needsSort header file₁.mtime config.resortLimit) = true then
      (⟨now, o.holder, handle, file₁, []⟩ : Session).sort else ⟨now, o.holder, handle, file₁, []⟩) = s
    have hsorted : s.Keeps o (structuralOffset :: owned) [] := by
      rw [← hs]
      split
      · exact hkeeps.sort
      · exact hkeeps
    rw [← hsorted.holder]
    exact .opened (hsorted.free (List.Subset.refl _))

theorem sharePresence_admits (hbytes : file.bytes = o.bytes)
    (hothers : file.locks.others o.holder = o.others)
    (hown : file.locks.Within o.holder (presenceOffset :: structuralOffset :: owned)) (first : Bool)
    (hwaits : file.locks.blocks o.holder presenceOffset .shared = true →
      file.locks.Within o.holder (structuralOffset :: owned)) :
    Admits o owned (sharePresence now o.holder config first file) := by
  unfold sharePresence
  rcases file.acquire?_cases o.holder presenceOffset .shared with ⟨hblocked, hacq⟩ | ⟨-, hacq⟩
  · rw [hacq]
    refine .waiting hbytes hothers ?_ (hwaits hblocked)
    rw [← hothers, LockTable.blocks_others]
    exact hblocked
  · have hheld : (file.hold o.holder presenceOffset .shared).bytes = o.bytes := hbytes
    have hsame : (file.hold o.holder presenceOffset .shared).locks.others o.holder = o.others :=
      LockTable.others_set.trans hothers
    rw [hacq]
    exact finishOpen_admits hheld hsame (hown.share (List.Subset.refl _)) first

/-- An opener that is alone shares its presence at once. -/
theorem probePresence_admits (hbytes : file.bytes = o.bytes)
    (hothers : file.locks.others o.holder = o.others)
    (hown : file.locks.Within o.holder (structuralOffset :: owned)) :
    Admits o owned (probePresence now o.holder config file) := by
  unfold probePresence
  rcases file.acquire?_cases o.holder presenceOffset .exclusive with ⟨-, hacq⟩ | ⟨hfree, hacq⟩
  · rw [hacq]
    exact sharePresence_admits hbytes hothers (hown.mono (List.subset_cons_self ..)) false
      fun _ => hown
  · have hheld : (file.hold o.holder presenceOffset .exclusive).bytes = o.bytes := hbytes
    have hsame : (file.hold o.holder presenceOffset .exclusive).locks.others o.holder =
        file.locks.others o.holder := LockTable.others_set
    rw [hacq]
    refine sharePresence_admits hheld (hsame.trans hothers) (hown.set presenceOffset .exclusive) true
      fun hblocks => ?_
    rw [LockTable.blocks_congr hsame] at hblocks
    rw [LockTable.blocks_exclusive_of_blocks hblocks] at hfree
    cases hfree

/-- **Every open from its beginning.** -/
theorem openFile_admits (hown : file.locks.Within holder owned) :
    Admits (file.outset holder) owned (openFile now holder config file) := by
  unfold openFile
  rcases file.acquire?_cases holder structuralOffset .exclusive with ⟨hblocked, hacq⟩ | ⟨-, hacq⟩
  · rw [hacq]
    refine .waiting rfl rfl ?_ hown
    rw [SharedFile.outset, LockTable.blocks_others]
    exact hblocked
  · rw [hacq]
    have hheld : (file.hold holder structuralOffset .exclusive).locks.others holder =
        file.locks.others holder := LockTable.others_set
    exact probePresence_admits (o := file.outset holder) rfl hheld
      (hown.set structuralOffset .exclusive)

/-- **Every open on from where it waits.** -/
theorem resumeOpen_admits {stage : OpenStage} (hown : file.locks.Within holder (stage.held ++ owned)) :
    Admits (file.outset holder) owned (resumeOpen now holder config file stage) := by
  cases stage with
  | structural => exact openFile_admits hown
  | presence first =>
    exact sharePresence_admits (o := file.outset holder) rfl rfl
      (hown.mono (List.subset_cons_self ..)) first fun _ => hown

/-- **Closing** stamps the header at most. -/
theorem closeFile_endures {handle : Handle} (hlen : Header.length ≤ file.bytes.length) :
    Endures file.bytes (closeFile now holder handle file).bytes := by
  unfold closeFile closingPatch?
  by_cases hmodified : handle.modified = true
  · rw [if_pos hmodified]
    show Endures file.bytes (file.patch now _).bytes
    rw [SharedFile.patch_bytes]
    exact endures_counter hlen .modified _
  · rw [if_neg hmodified]
    exact Endures.refl _

end Openings

/-! ## Clients -/

/-- What a client relies on.  Who is still opening the store relies on nothing. -/
def Client.Steady (bytes : Bytes) : Client → Prop
  | .opening _ _ => True
  | .idle handle => handle.Steady bytes
  | .busy handle stage => handle.Steady bytes ∧ stage.Steady (handle.view.read bytes)

theorem Client.Steady.endures {client : Client} {bytes bytes' : Bytes} (h : client.Steady bytes)
    (hendures : Endures bytes bytes') : client.Steady bytes' := by
  cases client with
  | opening config stage => trivial
  | idle handle => exact Handle.Steady.endures h hendures
  | busy handle stage =>
    exact ⟨h.1.endures hendures, fun span hspan => bears_view (h.2.bears span hspan) hendures (Nat.le_refl _),
      h.2.request⟩

theorem Client.Steady.atStage {handle : Handle} {pending : Option Stage} {bytes : Bytes}
    (h : (Client.atStage handle pending).Steady bytes) : handle.Steady bytes ∧
      ∀ stage, pending = some stage → stage.Steady (handle.view.read bytes) := by
  cases pending with
  | none => exact ⟨h, by rintro stage ⟨⟩⟩
  | some stage =>
    refine ⟨h.1, ?_⟩
    rintro _ ⟨⟩
    exact h.2

namespace Store

/-- Every client finds what it relies on. -/
def Steady (store : Store) : Prop :=
  ∀ id client, store.client? id = some client → client.Steady store.file.bytes

variable {store : Store}

theorem Steady.ofBytes (bytes : Bytes) (mtime : Int) : (Store.ofBytes bytes mtime).Steady := by
  intro id client h
  cases h

theorem Steady.update (h : store.Steady) (id : HolderId) {file : SharedFile} {client : Client}
    (hendures : Endures store.file.bytes file.bytes) (hclient : client.Steady file.bytes) :
    (store.update id file client).Steady :=
  forall_client_update h (fun _ hc => hc.endures hendures) id file hclient

theorem Steady.remove (h : store.Steady) (id : HolderId) {file : SharedFile}
    (hendures : Endures store.file.bytes file.bytes) :
    (({ store with file } : Store).remove id).Steady :=
  forall_client_remove h (fun _ hc => hc.endures hendures) id file

/-! ## Turns -/

/-- What an open leaves behind. -/
theorem Steady.settleOpen (h : store.Steady) {id : HolderId} {config : Config} {owned : List Nat}
    {result : SharedFile × Opening} (hadmits : Admits (store.file.outset id) owned result) :
    Endures store.file.bytes (store.settleOpen id config result).1.file.bytes ∧
      (store.settleOpen id config result).1.Steady := by
  cases hadmits with
  | opened keeps => exact ⟨keeps.endures, h.update id keeps.endures keeps.steady⟩
  | failed endures => exact ⟨endures, h.remove id endures⟩
  | @waiting file stage bytes =>
    have hsame : Endures store.file.bytes file.bytes := bytes ▸ Endures.refl _
    exact ⟨hsame, h.update id hsame trivial⟩

/-- What a stretch of a call leaves behind. -/
theorem Steady.settleCall (h : store.Steady) {id : HolderId} {plain : Prop} {call : Call}
    {act : SessionM Progress} {s : Session}
    (hends : SessionM.Leads act s (Ends (store.file.outset id) plain call)
      (fun s' => s'.Finished (store.file.outset id) plain)) :
    Endures store.file.bytes (store.settleCall id (act s)).1.file.bytes ∧
      (store.settleCall id (act s)).1.Steady := by
  unfold SessionM.Leads at hends
  cases hact : act s with
  | error e s' =>
    rw [hact] at hends
    obtain ⟨owned, keeps, -⟩ := hends
    exact ⟨keeps.endures, h.update id keeps.endures keeps.steady⟩
  | ok progress s' =>
    rw [hact] at hends
    cases hends with
    | answered finished =>
      obtain ⟨owned, keeps, -⟩ := finished
      exact ⟨keeps.endures, h.update id keeps.endures keeps.steady⟩
    | waiting keeps same blocked steady held =>
      exact ⟨keeps.endures, h.update id keeps.endures ⟨keeps.steady, steady⟩⟩

/-- The session of a client sets out. -/
theorem keeps_session {id : HolderId} {handle : Handle} {owned : List Nat} (now : Nat)
    (hsteady : handle.Steady store.file.bytes) (hown : store.file.locks.Within id owned) :
    (store.session now id handle).Keeps (store.file.outset id) owned [] where
  holder := rfl
  steady := hsteady
  endures := Endures.refl _
  others := rfl
  own := hown
  bears := by simp

/-- A stretch leaves the locks of other clients alone. -/
theorem Steady.stretch_others (h : store.Steady) {turn : Turn} {handle : Handle} {call : Call}
    {pending : Option Stage} (hruns : store.Runs turn handle call pending) :
    (SessionM.final (call.stretch pending)
      (store.session turn.now turn.holder handle)).file.locks.others turn.holder =
        store.file.locks.others turn.holder := by
  have hown := store.file.locks.within_held turn.holder
  obtain ⟨hhandle, hstage⟩ := (h _ _ hruns.client).atStage
  have hends := Call.stretch_ends (keeps_session turn.now hhandle hown)
    (fun stage hp => ⟨hruns.same stage hp, hstage stage hp⟩) fun hplain : False => hplain.elim
  unfold SessionM.Leads at hends
  unfold SessionM.final
  cases hresult : call.stretch pending (store.session turn.now turn.holder handle) with
  | error e s' =>
    rw [hresult] at hends
    obtain ⟨owned, keeps, -⟩ := hends
    exact keeps.others
  | ok progress s' =>
    rw [hresult] at hends
    cases hends with
    | answered finished =>
      obtain ⟨owned, keeps, -⟩ := finished
      exact keeps.others
    | waiting keeps => exact keeps.others

/-- **One turn** lets the file endure, and every client goes with it. -/
theorem Steady.serve (h : store.Steady) (turn : Turn) :
    Endures store.file.bytes (store.serve turn).1.file.bytes ∧ (store.serve turn).1.Steady := by
  have hown := store.file.locks.within_held turn.holder
  have hserved := store.serve_served turn
  generalize store.serve turn = result at hserved ⊢
  cases hserved with
  | unavailable => exact ⟨Endures.refl _, h⟩
  | opening => exact h.settleOpen (openFile_admits hown)
  | reopening => exact h.settleOpen (resumeOpen_admits (hown.mono (List.subset_append_right _ _)))
  | @closed handle quiet client =>
    have hsteady : handle.Steady store.file.bytes := h _ _ client
    have hendures : Endures store.file.bytes (closeFile turn.now turn.holder handle store.file).bytes :=
      closeFile_endures hsteady.legible.length_le
    exact ⟨hendures, h.remove turn.holder hendures⟩
  | ran runs =>
    obtain ⟨hhandle, hstage⟩ := (h _ _ runs.client).atStage
    have hkeeps := keeps_session turn.now hhandle hown
    have hpending := fun stage hp => And.intro (runs.same stage hp) (hstage stage hp)
    exact h.settleCall (Call.stretch_ends hkeeps hpending False.elim)

/-- **A run** lets the file endure. -/
theorem Steady.run (h : store.Steady) (turns : List Turn) :
    Endures store.file.bytes (store.run turns).1.file.bytes ∧ (store.run turns).1.Steady := by
  induction turns generalizing store with
  | nil => exact ⟨Endures.refl _, h⟩
  | cons turn more ih =>
    obtain ⟨hendures, hsteady⟩ := h.serve turn
    obtain ⟨hrest, hlast⟩ := ih hsteady
    exact ⟨hendures.trans hrest, hlast⟩

end Store

/-- **Records never move, shrink or come back.**  Whatever a file holds, and whatever its clients do
with it in which order, it endures from every moment on: every complete line stays where it is and as
long as it is, with its key, separator and modification counter; it dies at most, and a dead one
changes in its slot alone; a line without a slot does not change; and the header changes in its
counters alone. -/
theorem run_endures (bytes : Bytes) (mtime : Int) (before later : List Turn) :
    Endures ((Store.ofBytes bytes mtime).run before).1.file.bytes
      (((Store.ofBytes bytes mtime).run before).1.run later).1.file.bytes :=
  ((Store.Steady.ofBytes bytes mtime).run before).2.run later |>.1

end RecordStore
