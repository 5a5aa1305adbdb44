import Mathlib.Logic.Function.Basic
import Mathlib.Tactic.Common
import RecordStore.Proofs.Poise
import RecordStore.Proofs.Regions

/-!
# Mappings amid appends

Any number of clients have a file open, and make their steps in any order.  A handle that has seen the
current append sequence has every published line in its mapping, and its mapping ends with a line, if
nobody adds bytes from outside.

* `Actor`, `Scene` — clients between two of their steps, and the file that they share.
* `Scene.step` — the next step of a client; opening is cut into its steps as well.
* `Happening`, `Scene.run` — what happens, in the order in which it does.
* `Scene.Sound` — what every client knows, whatever the others do.

Principal results: `finishOpen_eq_steps`, `Scene.resumeOpen_eq_acquire` — the steps of an open are what
an open does; `Actor.Sound.after` — what others do leaves a client what it knows; `Scene.Sound.act`,
`Scene.Sound.run` — one happening, and all; `Scene.published_in_mapping`.
-/

set_option autoImplicit false

namespace RecordStore

/-! ## Opening in single steps -/

/-- The file with a header, which an opener writes if the file is empty. -/
def SharedFile.headed (now : Nat) (file : SharedFile) : SharedFile :=
  if file.bytes.isEmpty then file.patch now ⟨0, Header.encode .fresh⟩ else file

/-- What an opener makes of its mapping: a handle, and whether it has to sort. -/
def readHeader (config : Config) (first fresh : Bool) (view : View) (file : SharedFile) :
    Option (Handle × Bool) :=
  (makeHandle config (view.read file.bytes) fresh).map fun (header, handle) =>
    (handle, first && needsSort header file.mtime config.resortLimit)

/-- What is left of an open once there is a handle: a sort, if it is due, under the structural lock. -/
def Script.arrive (due : Bool) : Script Progress := do
  onlyIf due sort
  atom (SessionM.unlock structuralOffset)
  answer .done

/-- **An opener that has both locks** writes a header if there is none, maps the file, reads the header
in the mapping, and arrives. -/
theorem finishOpen_eq_steps (now : Nat) (holder : HolderId) (config : Config) (first : Bool)
    (file : SharedFile) : finishOpen now holder config first file =
      match readHeader config first file.bytes.isEmpty (.ofBytes (file.headed now).bytes)
        (file.headed now) with
      | none => ((file.headed now).release holder, .failed .invalidHeader)
      | some (handle, due) =>
        let s := SessionM.final (Script.arrive due).run ⟨now, holder, handle, file.headed now, []⟩
        (s.file, .opened s.handle) := by
  have hheaded : (if file.bytes.isEmpty then file.patch now ⟨0, Header.encode .fresh⟩ else file) =
      file.headed now := rfl
  have hread : (View.ofBytes (file.headed now).bytes).read (file.headed now).bytes =
      (file.headed now).bytes := List.take_length
  have harrive : ∀ due s, SessionM.final (Script.arrive due).run s =
      (if due then s.sort else s).free structuralOffset := by
    intro due s
    simp only [Script.arrive, Script.run_bind, Script.run_onlyIf, Script.run_sort, Script.run_atom]
    cases due <;> rfl
  unfold finishOpen readHeader
  dsimp only
  rw [hheaded, hread]
  generalize file.headed now = file
  cases makeHandle config file.bytes _ with
  | none => rfl
  | some made =>
    obtain ⟨header, handle⟩ := made
    simp only [Option.map_some, harrive]
    split
    · obtain ⟨-, hholder, -⟩ := (⟨now, holder, handle, file, []⟩ : Session).sort_frame
      simp only [Session.free, hholder]
    · rfl

/-! ## Clients between two of their steps -/

/-- What a client is at. -/
inductive Actor where
  /-- Waits for a lock that its open needs. -/
  | opening (config : Config) (stage : OpenStage)
  /-- Has both locks of its open, and has not mapped the file yet. -/
  | admitted (config : Config) (first : Bool)
  /-- Has mapped the file, and has not read the header yet. -/
  | mapped (config : Config) (first fresh : Bool) (view : View)
  | idle (handle : Handle)
  /-- Waits for a lock that its call needs. -/
  | busy (handle : Handle) (stage : Stage)
  /-- Is in the midst of a call, or of what is left of its open. -/
  | running (handle : Handle) (journal : List Patch) (script : Script Progress)

namespace Actor

/-- The client has come to the end of a script. -/
def ended (handle : Handle) : Except Error Progress → Actor
  | .ok (.answered _) | .error _ => .idle handle
  | .ok (.waiting stage) => .busy handle stage

def handle? : Actor → Option Handle
  | .opening _ _ | .admitted _ _ | .mapped _ _ _ _ => none
  | .idle handle | .busy handle _ | .running handle _ _ => some handle

/-- Whether the client is between the two steps of a refresh. -/
def refreshing : Actor → Bool
  | .running _ _ script => script.mapping
  | .opening _ _ | .admitted _ _ | .mapped _ _ _ _ | .idle _ | .busy _ _ => false

end Actor

/-- The file, the lines published so far, and everybody who has the file open. -/
structure Scene extends Board where
  actors : HolderId → Option Actor
  /-- Whether anyone has written a slot. -/
  sorted : Bool

namespace Scene

/-- A file with these bytes that nobody has open. -/
def ofBytes (bytes : Bytes) (mtime : Int) : Scene := ⟨⟨.ofBytes bytes mtime, []⟩, fun _ => none, false⟩

/-- One client is at another point, and the board is another perhaps. -/
def put (scene : Scene) (id : HolderId) (board : Board) (actor : Option Actor) : Scene :=
  { scene with toBoard := board, actors := Function.update scene.actors id actor }

/-- Takes the lock that an open waits for, if it can.  Who has the structural lock looks whether anyone
else is there. -/
def acquire (scene : Scene) (id : HolderId) (config : Config) : OpenStage → Scene
  | .structural =>
    match scene.file.acquire? id structuralOffset .exclusive with
    | none => scene
    | some file =>
      match file.acquire? id presenceOffset .exclusive with
      | none => scene.put id ⟨file, scene.published⟩ (some (.opening config (.presence false)))
      | some file => scene.put id ⟨file, scene.published⟩ (some (.opening config (.presence true)))
  | .presence first =>
    match scene.file.acquire? id presenceOffset .shared with
    | none => scene
    | some file => scene.put id ⟨file, scene.published⟩ (some (.admitted config first))

/-- **The locks of an open**, one after the other: an opener waits, or goes on to share its presence, or
has both locks and goes on with the file. -/
theorem resumeOpen_eq_acquire (scene : Scene) (now : Nat) (id : HolderId) (config : Config)
    (stage : OpenStage) :
    (scene.acquire id config stage = scene ∧
      resumeOpen now id config scene.file stage = (scene.file, .waiting stage)) ∨
    ∃ file first,
      (scene.acquire id config stage =
          scene.put id ⟨file, scene.published⟩ (some (.opening config (.presence first))) ∧
        resumeOpen now id config scene.file stage =
          resumeOpen now id config file (.presence first)) ∨
      (scene.acquire id config stage =
          scene.put id ⟨file, scene.published⟩ (some (.admitted config first)) ∧
        resumeOpen now id config scene.file stage = finishOpen now id config first file) := by
  cases stage with
  | structural =>
    simp only [acquire, resumeOpen, openFile]
    cases scene.file.acquire? id structuralOffset .exclusive with
    | none => exact .inl ⟨rfl, rfl⟩
    | some file =>
      simp only [probePresence]
      cases file.acquire? id presenceOffset .exclusive with
      | none => exact .inr ⟨file, false, .inl ⟨rfl, rfl⟩⟩
      | some file => exact .inr ⟨file, true, .inl ⟨rfl, rfl⟩⟩
  | presence first =>
    simp only [acquire, resumeOpen, sharePresence]
    cases scene.file.acquire? id presenceOffset .shared with
    | none => exact .inl ⟨rfl, rfl⟩
    | some file => exact .inr ⟨file, first, .inr ⟨rfl, rfl⟩⟩

/-- The next step of a client. -/
def step (scene : Scene) (now : Nat) (id : HolderId) : Actor → Scene
  | .opening config stage => scene.acquire id config stage
  | .admitted config first =>
    let file := scene.file.headed now
    scene.put id ⟨file, scene.published⟩
      (some (.mapped config first scene.file.bytes.isEmpty (.ofBytes file.bytes)))
  | .mapped config first fresh view =>
    match readHeader config first fresh view scene.file with
    | none => scene.put id ⟨scene.file.release id, scene.published⟩ none
    | some (handle, due) =>
      scene.put id scene.toBoard (some (.running handle [] (Script.arrive due)))
  | .idle _ => scene
  | .busy handle stage => scene.put id scene.toBoard (some (.running handle [] stage.script))
  | .running handle _ (.done outcome) => scene.put id scene.toBoard (some (.ended handle outcome))
  | .running handle journal (.step mark act next) =>
    let s : Session := ⟨now, id, handle, scene.file, journal⟩
    let s' := act s
    { scene.put id ⟨s'.file, mark.published scene.published⟩
        (some (.running s'.handle s'.journal (next s))) with
      sorted := scene.sorted || mark == .slot }

/-- A turn: a client begins something, or makes its next step. -/
def serve (scene : Scene) (turn : Turn) : Scene :=
  match turn.request, scene.actors turn.holder with
  | .opening config, none =>
    scene.put turn.holder scene.toBoard (some (.opening config .structural))
  | .call call, some (.idle handle) =>
    scene.put turn.holder scene.toBoard (some (.running handle [] call.script))
  | .resume, some actor => scene.step turn.now turn.holder actor
  | .close, some (.idle handle) =>
    scene.put turn.holder ⟨closeFile turn.now turn.holder handle scene.file, scene.published⟩ none
  | _, _ => scene

end Scene

/-- What happens next. -/
inductive Happening where
  | turn (turn : Turn)
  /-- A client is gone in the midst of what it does, and its locks with it. -/
  | crash (id : HolderId)
  /-- Somebody else writes behind the header. -/
  | foreign (now : Nat) (patch : Patch)
  deriving DecidableEq, Repr

def Happening.isForeign : Happening → Bool
  | .foreign _ _ => true
  | .turn _ | .crash _ => false

namespace Scene

def act (scene : Scene) : Happening → Scene
  | .turn turn => scene.serve turn
  | .crash id => scene.put id ⟨scene.file.release id, scene.published⟩ none
  | .foreign now patch =>
    if Header.length ≤ patch.offset ∧ Header.length ≤ scene.file.bytes.length then
      { scene with file := scene.file.patch now patch }
    else scene

def run (scene : Scene) (happenings : List Happening) : Scene := happenings.foldl act scene

def handle? (scene : Scene) (id : HolderId) : Option Handle := (scene.actors id).bind Actor.handle?

/-- Whether a client is between the two steps of a refresh. -/
def refreshing (scene : Scene) (id : HolderId) : Bool :=
  ((scene.actors id).map Actor.refreshing).getD false

/-- What was sorted stays so. -/
theorem sorted_step {scene : Scene} (h : scene.sorted = true) (now : Nat) (id : HolderId)
    (actor : Actor) : (scene.step now id actor).sorted = true := by
  cases actor with
  | opening config stage =>
    cases stage with
    | structural =>
      simp only [step, acquire]
      split
      · exact h
      · split <;> exact h
    | presence first =>
      simp only [step, acquire]
      split <;> exact h
  | admitted config first => exact h
  | mapped config first fresh view =>
    simp only [step]
    split <;> exact h
  | idle handle => exact h
  | busy handle stage => exact h
  | running handle journal script =>
    cases script with
    | done outcome => exact h
    | step mark act next => simp [step, h]

theorem sorted_act {scene : Scene} (h : scene.sorted = true) (happening : Happening) :
    (scene.act happening).sorted = true := by
  cases happening with
  | turn turn =>
    simp only [act, serve]
    split
    · exact h
    · exact h
    · exact sorted_step h _ _ _
    · exact h
    · exact h
  | crash id => exact h
  | foreign now patch =>
    simp only [act]
    split <;> exact h

theorem sorted_run {scene : Scene} (h : scene.sorted = true) (happenings : List Happening) :
    (scene.run happenings).sorted = true := by
  induction happenings generalizing scene with
  | nil => exact h
  | cons happening more ih => exact ih (sorted_act h happening)

end Scene

/-! ## What clients know -/

/-- A mapping that was made under the structural lock, which is still held: nothing was published since,
and a quiet run has made the file no longer. -/
structure Board.Covered (t : Terms) (b : Board) (view : View) : Prop where
  inside : view.length ≤ b.file.bytes.length
  base : t.base ≤ view.length
  lines : ∀ line ∈ b.published, line.Within view.length
  whole : t.quiet → view.length = b.file.bytes.length

/-- The session of a client's next step.  The time and the journal do not matter. -/
def Board.session (b : Board) (id : HolderId) (handle : Handle) : Session :=
  ⟨0, id, handle, b.file, []⟩

/-- What a client knows between two of its steps. -/
def Actor.Sound (t : Terms) (b : Board) (id : HolderId) : Actor → Prop
  | .opening _ .structural => True
  | .opening _ (.presence _) | .admitted _ _ => b.Held id
  | .mapped _ _ _ view => b.Held id ∧ b.Covered t view
  | .idle handle => (b.session id handle).Poised t False false b.published
  | .busy handle stage => (b.session id handle).Poised t False false b.published ∧ stage.Fair
  | .running handle _ script => script.Meets t False Script.Settled (b.session id handle) b.published

section Clients

variable {t : Terms} {b b' : Board} {id : HolderId} {handle : Handle} {actor : Actor}

theorem Board.Sound.anytime (h : b.Sound t) (id : HolderId) (handle : Handle) (now : Nat)
    (journal : List Patch) : (b.session id handle).After t b.published
      ⟨now, id, handle, b.file, journal⟩ b.published :=
  ⟨rfl, rfl, .refl h id⟩

/-- **Others leave a client what it knows.** -/
theorem Actor.Sound.after (h : actor.Sound t b id) (hy : Yields t id b b') : actor.Sound t b' id := by
  have hsession : ∀ handle, (b.session id handle).After t b.published (b'.session id handle)
      b'.published := fun _ => ⟨rfl, rfl, hy⟩
  cases actor with
  | opening config stage =>
    cases stage with
    | structural => trivial
    | presence first => exact hy.own.2 h
  | admitted config first => exact hy.own.2 h
  | mapped config first fresh view =>
    obtain ⟨hheld, hcovered⟩ := h
    obtain ⟨hpublished, hlength⟩ := hy.still hheld
    exact ⟨hy.own.2 hheld,
      { inside := Nat.le_trans hcovered.inside hy.kept.length_le
        base := hcovered.base
        lines := hpublished ▸ hcovered.lines
        whole := fun hquiet => (hcovered.whole hquiet).trans (hlength hquiet).symm }⟩
  | idle handle => exact Session.Poised.after h (hsession handle)
  | busy handle stage => exact ⟨h.1.after (hsession handle), h.2⟩
  | running handle journal script => exact Script.Meets.after h (hsession handle) fun _ hsettled => hsettled

/-- Whoever has a handle is poised. -/
theorem Actor.Sound.poised (h : actor.Sound t b id) (hhandle : actor.handle? = some handle) :
    (b.session id handle).Poised t False actor.refreshing b.published := by
  cases actor with
  | opening config stage => cases hhandle
  | admitted config first => cases hhandle
  | mapped config first fresh view => cases hhandle
  | idle handle' =>
    obtain rfl := Option.some.inj hhandle
    exact h
  | busy handle' stage =>
    obtain rfl := Option.some.inj hhandle
    exact h.1
  | running handle' journal script =>
    obtain rfl := Option.some.inj hhandle
    exact Script.Meets.poised h

/-- A script that came to its end leaves a client idle, or waiting. -/
theorem Actor.Sound.ended {outcome : Except Error Progress}
    (h : (Script.done outcome).Meets t False Script.Settled (b.session id handle) b.published) :
    (Actor.ended handle outcome).Sound t b id := by
  cases outcome with
  | error e => exact h
  | ok progress =>
    cases progress with
    | answered answer => exact h.1
    | waiting stage => exact ⟨h.1, h.2 stage rfl⟩

/-! ### Opening -/

/-- The header of an empty file. -/
theorem Board.Sound.headed (h : b.Sound t) (now : Nat) :
    Carries t b ⟨b.file.headed now, b.published⟩ := by
  unfold SharedFile.headed
  split
  · next hempty =>
    have hnil : b.file.bytes = [] := List.isEmpty_iff.1 hempty
    have hbytes : (b.file.patch now ⟨0, Header.encode .fresh⟩).bytes = Header.encode .fresh := by
      rw [SharedFile.patch_bytes, hnil]
      decide
    exact
      { kept :=
          { length_le := by rw [hnil]; exact Nat.zero_le _
            header := fun i b _ hb => by rw [hnil] at hb; cases hb
            breaks := fun _ i hi => by rw [hnil] at hi; cases hi }
        grows := ⟨[], (List.append_nil _).symm, fun v hv => by rw [hnil] at hv; cases hv⟩
        sound :=
          { within := fun line hline => by
              have hin := h.within line hline
              rw [hnil] at hin
              exact Nat.le_trans hin (Nat.zero_le _)
            closed := fun _ => .inr (by rw [hbytes]; decide)
            whole := fun _ => by rw [hbytes]; decide
            base := by
              have hbase := h.base
              rw [hnil] at hbase
              exact Nat.le_trans hbase (Nat.zero_le _)
            locks := by
              rw [SharedFile.patch_locks]
              exact h.locks } }
  · exact .refl h

/-- **A mapping of the whole file** covers what is published. -/
theorem Board.Sound.covered (h : b.Sound t) : b.Covered t (.ofBytes b.file.bytes) where
  inside := Nat.le_refl _
  base := h.base
  lines := h.within
  whole _ := rfl

/-- **Who reads the header in a mapping that covers what is published** is poised: the append sequence is
that of the file, and the structural lock has kept others from publishing meanwhile. -/
theorem Board.Covered.poised {config : Config} {first fresh due : Bool} {view : View}
    (h : b.Covered t view) (hsound : b.Sound t)
    (hread : readHeader config first fresh view b.file = some (handle, due)) :
    (b.session id handle).Poised t False false b.published := by
  obtain ⟨⟨header, handle'⟩, hmake, heq⟩ := Option.map_eq_some_iff.1 hread
  obtain ⟨rfl, -⟩ := Prod.mk.inj heq
  have hsteady := makeHandle_steady hmake
  obtain ⟨hdec, headLen, -, rfl⟩ := makeHandle_eq_some_iff.1 hmake
  have hlength : (View.ofBytes (view.read b.file.bytes)).length = view.length :=
    List.length_take_of_le h.inside
  have hsees : Header.length ≤ view.length := hlength ▸ hsteady.sees
  have hlegible : Legible b.file.bytes :=
    hsteady.legible.of_ticks fun _ c _ hat => ⟨c, View.getElem?_of_read hat, Or.inl rfl⟩
  have hseq : appendSeq? b.file.bytes = some header.appendSeq := by
    rw [← appendSeq?_of_decode? hdec]
    refine SessionM.counterAt?_congr ?_
    rw [View.read, List.take_take, Nat.min_eq_left (Nat.le_trans (by decide) hsees)]
  exact
    { sound := hsound
      legible := hlegible
      headLen_pos := hsteady.headLen_pos
      headLen_le := hsteady.headLen_le
      newline_eq := View.getElem?_of_read hsteady.newline_eq
      sees := hsteady.sees
      inside := Nat.le_trans (Nat.le_of_eq hlength) h.inside
      base := Nat.le_trans h.base (Nat.le_of_eq hlength.symm)
      boundary := fun hquiet => by
        have hends := endsLine_iff.1 (hsound.endsLine hlegible hquiet)
        rwa [← h.whole hquiet, ← hlength] at hends
      cache := fun _ hnone => by cases hnone
      trails := ⟨b.published, [], (List.append_nil _).symm,
        hseq.trans (congrArg some (UInt32.add_zero _).symm), fun _ line hline =>
          Nat.le_trans (h.lines line hline) (Nat.le_of_eq hlength.symm)⟩
      held := False.elim }

end Clients

/-- What is left of an open keeps its promise. -/
theorem Script.arrive_meets {t : Terms} {s : Session} {p : List Line} (h : s.Poised t False false p)
    (due : Bool) : (Script.arrive due).Meets t False Script.Settled s p :=
  (onlyIf_meets h (sort_meets h)).bind fun _ _ _ h₁ _ =>
    (unlock_meets h₁ False.elim).bind fun _ _ _ h₂ _ => answer_meets h₂ .done

/-! ## What happens -/

namespace Scene

/-- What holds between two happenings. -/
structure Sound (t : Terms) (scene : Scene) : Prop where
  board : scene.toBoard.Sound t
  actors : ∀ id actor, scene.actors id = some actor → actor.Sound t scene.toBoard id

section Steps

variable {t : Terms} {scene : Scene} {id : HolderId} {handle : Handle} {config : Config}

/-- A client has made a step that leaves the others what they rely on. -/
theorem Sound.put (h : scene.Sound t) {board : Board} {actor : Option Actor} (hboard : board.Sound t)
    (hothers : ∀ other, other ≠ id → Yields t other scene.toBoard board)
    (hactor : ∀ a, actor = some a → a.Sound t board id) : (scene.put id board actor).Sound t where
  board := hboard
  actors other a ha := by
    dsimp only [Scene.put] at ha
    by_cases hid : other = id
    · rw [hid, Function.update_self] at ha
      exact hid ▸ hactor a ha
    · rw [Function.update_of_ne hid] at ha
      exact (h.actors other a ha).after (hothers other hid)

/-- A client has come to another point, and has left the board alone. -/
theorem Sound.stay (h : scene.Sound t) {actor : Actor} (hactor : actor.Sound t scene.toBoard id) :
    (scene.put id scene.toBoard (some actor)).Sound t :=
  h.put h.board (fun other _ => .refl h.board other) fun _ ha => Option.some.inj ha ▸ hactor

/-- A client has changed its locks alone. -/
theorem Sound.relock (h : scene.Sound t) {locks : LockTable} {actor : Option Actor}
    (hlocks : locks.Consistent) (hothers : locks.others id = scene.file.locks.others id)
    (hactor : ∀ a, actor = some a → a.Sound t ⟨{ scene.file with locks }, scene.published⟩ id) :
    (scene.put id ⟨{ scene.file with locks }, scene.published⟩ actor).Sound t := by
  have hcarries := Carries.of_locks h.board hlocks
  exact h.put hcarries.sound (fun other hne => hcarries.yields h.board hothers
    (.inr ⟨rfl, fun _ => rfl⟩) hne) hactor

/-- **An opener takes its locks.** -/
theorem Sound.acquire (h : scene.Sound t) {stage : OpenStage}
    (hactor : (Actor.opening config stage).Sound t scene.toBoard id) :
    (scene.acquire id config stage).Sound t := by
  have hapart : LockTable.Apart presenceOffset structuralOffset := .inl (Nat.le_refl _)
  cases stage with
  | structural =>
    unfold Scene.acquire
    rcases scene.file.acquire?_cases id structuralOffset .exclusive with ⟨-, hacq⟩ | ⟨hfree, hacq⟩
    · rw [hacq]
      exact h
    · rw [hacq]
      have hlocks := h.board.locks.set hfree
      dsimp only
      rcases (scene.file.hold id structuralOffset .exclusive).acquire?_cases id presenceOffset
        .exclusive with ⟨-, hprobe⟩ | ⟨hfree', hprobe⟩
      · rw [hprobe]
        refine h.relock hlocks LockTable.others_set ?_
        rintro _ ⟨⟩
        exact LockTable.holdsExclusive_set_self
      · rw [hprobe]
        refine h.relock (hlocks.set hfree') (LockTable.others_set.trans LockTable.others_set) ?_
        rintro _ ⟨⟩
        exact (LockTable.holdsExclusive_set_of_apart hapart).trans LockTable.holdsExclusive_set_self
  | presence first =>
    unfold Scene.acquire
    rcases scene.file.acquire?_cases id presenceOffset .shared with ⟨-, hacq⟩ | ⟨hfree, hacq⟩
    · rw [hacq]
      exact h
    · rw [hacq]
      refine h.relock (h.board.locks.set hfree) LockTable.others_set ?_
      rintro _ ⟨⟩
      exact (LockTable.holdsExclusive_set_of_apart hapart).trans hactor

/-- **An opener maps the file**, and nobody publishes until it gives up the structural lock. -/
theorem Sound.map (h : scene.Sound t) (now : Nat) {first fresh : Bool}
    (hheld : scene.toBoard.Held id) : (scene.put id ⟨scene.file.headed now, scene.published⟩
      (some (.mapped config first fresh (.ofBytes (scene.file.headed now).bytes)))).Sound t := by
  have hcarries := h.board.headed now
  have hlocks : (scene.file.headed now).locks = scene.file.locks := by
    unfold SharedFile.headed
    split
    · exact SharedFile.patch_locks _ _ _
    · rfl
  refine h.put hcarries.sound (fun other hne => hcarries.yields h.board (by rw [hlocks])
    (.inl hheld) hne) ?_
  rintro _ ⟨⟩
  refine ⟨?_, hcarries.sound.covered⟩
  unfold Board.Held
  rw [hlocks]
  exact hheld

/-- **An opener reads the header**, and has its handle or gives up. -/
theorem Sound.enter (h : scene.Sound t) (now : Nat) {first fresh : Bool} {view : View}
    (hcovered : scene.toBoard.Covered t view) :
    (scene.step now id (.mapped config first fresh view)).Sound t := by
  unfold Scene.step
  dsimp only
  split
  · exact h.relock (h.board.locks.release id) LockTable.others_release fun _ hnone => by cases hnone
  · next handle due hread =>
    exact h.stay (Script.arrive_meets (hcovered.poised h.board hread) due)

/-- **One step of a script.** -/
theorem Sound.advance (h : scene.Sound t) (now : Nat) {journal : List Patch}
    {script : Script Progress} (hactor : (Actor.running handle journal script).Sound t scene.toBoard id)
    (hslots : (scene.step now id (.running handle journal script)).sorted = true → t.whole) :
    (scene.step now id (.running handle journal script)).Sound t := by
  cases script with
  | done outcome => exact h.stay (Actor.Sound.ended hactor)
  | step mark act next =>
    let s : Session := ⟨now, id, handle, scene.file, journal⟩
    let board : Board := ⟨(act s).file, mark.published scene.published⟩
    have hmeets : (Script.step mark act next).Meets t False Script.Settled
        (scene.toBoard.session id handle) scene.published := hactor
    obtain ⟨hgrants, hnext⟩ := hmeets.2 s _ (h.board.anytime id handle now journal) fun hslot =>
      hslots (by simp [Scene.step, hslot])
    have hafter : (act s).After t board.published (board.session id (act s).handle) board.published :=
      ⟨hgrants.holder.symm, rfl, .refl hgrants.carries.sound _⟩
    have hput : (scene.put id board (some (.running (act s).handle (act s).journal (next s)))).Sound t :=
      h.put hgrants.carries.sound hgrants.others fun _ ha =>
        Option.some.inj ha ▸ hnext.after hafter fun _ hsettled => hsettled
    exact ⟨hput.board, hput.actors⟩

/-- **One step of a client.** -/
theorem Sound.step (h : scene.Sound t) (now : Nat) {actor : Actor}
    (hactor : actor.Sound t scene.toBoard id)
    (hslots : (scene.step now id actor).sorted = true → t.whole) :
    (scene.step now id actor).Sound t := by
  cases actor with
  | opening config stage => exact h.acquire hactor
  | admitted config first => exact h.map now hactor
  | mapped config first fresh view => exact h.enter now hactor.2
  | idle handle => exact h
  | busy handle stage => exact h.stay (stage.script_meets hactor.1 hactor.2)
  | running handle journal script => exact h.advance now hactor hslots

/-! ### Other happenings -/

/-- **A client closes its handle**, which stamps the header at most. -/
theorem Sound.close (h : scene.Sound t) (now : Nat)
    (hpoised : (scene.toBoard.session id handle).Poised t False false scene.published) :
    (scene.put id ⟨closeFile now id handle scene.file, scene.published⟩ none).Sound t := by
  have hstamped : ∀ file : SharedFile, Carries t scene.toBoard ⟨file, scene.published⟩ →
      Carries t scene.toBoard ⟨file.release id, scene.published⟩ := fun file hcarries =>
    hcarries.trans (.of_locks hcarries.sound (hcarries.sound.locks.release id))
  have hcloses : Carries t scene.toBoard ⟨closeFile now id handle scene.file, scene.published⟩ ∧
      (scene.toBoard.Held id ∨ (scene.published = scene.published ∧ (t.quiet →
        (closeFile now id handle scene.file).bytes.length = scene.file.bytes.length))) := by
    unfold closeFile closingPatch?
    split
    · next patch hpatch =>
      obtain ⟨-, hstamp⟩ := Option.ite_none_right_eq_some.1 hpatch
      obtain rfl := Option.some.inj hstamp
      have hpermits := (hpoised.after (h.board.anytime id handle now [])).permits_counter
        (c := .modified) (by decide) (UInt32.ofNat now)
      exact ⟨hstamped _ hpermits.carries, hpermits.alone⟩
    · exact ⟨hstamped _ (.refl h.board), .inr ⟨rfl, fun _ => rfl⟩⟩
  refine h.put hcloses.1.sound (fun other hne => hcloses.1.yields h.board ?_ hcloses.2 hne)
    fun _ hnone => by cases hnone
  rw [closeFile_locks]
  exact LockTable.others_release

/-- **One turn.** -/
theorem Sound.serve (h : scene.Sound t) (turn : Turn)
    (hslots : (scene.serve turn).sorted = true → t.whole) : (scene.serve turn).Sound t := by
  unfold Scene.serve at hslots ⊢
  split
  · exact h.stay trivial
  · next call handle _ hactor => exact h.stay (call.script_meets (h.actors _ _ hactor))
  · next actor hrequest hactor =>
    rw [hrequest, hactor] at hslots
    exact h.step _ (h.actors _ _ hactor) hslots
  · next handle _ hactor => exact h.close _ (h.actors _ _ hactor)
  · exact h

/-- **Somebody else writes behind the header.** -/
theorem Sound.foreign (h : scene.Sound t) (hforeign : ¬ t.quiet) (now : Nat) (patch : Patch) :
    (scene.act (.foreign now patch)).Sound t := by
  unfold Scene.act
  dsimp only
  split
  · next hbehind =>
    obtain ⟨hbehind, hlong⟩ := hbehind
    have hbytes := scene.file.patch_bytes now patch
    have hlocks := scene.file.patch_locks now patch
    have hkept : Kept t.quiet scene.file.bytes (scene.file.patch now patch).bytes := by
      rw [hbytes]
      exact .of_end hlong hbehind fun hquiet => absurd hquiet hforeign
    have hseq : appendSeq? (scene.file.patch now patch).bytes = appendSeq? scene.file.bytes := by
      rw [hbytes]
      exact appendSeq?_apply hlong (Nat.le_trans (by decide) hbehind)
    have hcarries : Carries t scene.toBoard ⟨scene.file.patch now patch, scene.published⟩ :=
      { kept := hkept
        grows := ⟨[], (List.append_nil _).symm, fun v hv => by simpa [hseq] using hv⟩
        sound :=
          { within := fun line hline => Nat.le_trans (h.board.within line hline) hkept.length_le
            closed := fun hquiet => absurd hquiet hforeign
            whole := fun hwhole => by
              rw [hbytes, getElem?_apply_of_behind hlong hbehind (by decide)]
              exact h.board.whole hwhole
            base := Nat.le_trans h.board.base hkept.length_le
            locks := by
              rw [hlocks]
              exact h.board.locks } }
    exact
      { board := hcarries.sound
        actors := fun id actor ha => (h.actors id actor ha).after
          { toCarries := hcarries
            own := by
              unfold Board.Held
              rw [hlocks]
            still := fun _ => ⟨rfl, fun hquiet => absurd hquiet hforeign⟩ } }
  · exact h

/-- **One happening.** -/
theorem Sound.act (h : scene.Sound t) (happening : Happening)
    (hforeign : happening.isForeign = true → ¬ t.quiet)
    (hslots : (scene.act happening).sorted = true → t.whole) : (scene.act happening).Sound t := by
  cases happening with
  | turn turn => exact h.serve turn hslots
  | crash id =>
    exact h.relock (h.board.locks.release id) LockTable.others_release fun _ hnone => by cases hnone
  | foreign now patch => exact h.foreign (hforeign rfl) now patch

/-- **All that happens.** -/
theorem Sound.run (h : scene.Sound t) (happenings : List Happening)
    (hforeign : ∀ happening ∈ happenings, happening.isForeign = true → ¬ t.quiet)
    (hslots : (scene.run happenings).sorted = true → t.whole) : (scene.run happenings).Sound t := by
  induction happenings generalizing scene with
  | nil => exact h
  | cons happening more ih =>
    have hact := h.act happening (hforeign happening (List.mem_cons_self ..)) fun hsorted =>
      hslots (sorted_run hsorted more)
    exact ih hact (fun happening hmem => hforeign happening (List.mem_cons_of_mem _ hmem)) hslots

end Steps

theorem Sound.ofBytes {t : Terms} {bytes : Bytes} (mtime : Int)
    (hclosed : t.quiet → bytes = [] ∨ endsLine bytes = true)
    (hwhole : t.whole → bytes[Header.versionEnd]? ≠ some newline) (hbase : t.base ≤ bytes.length) :
    (Scene.ofBytes bytes mtime).Sound t where
  board :=
    { within := by simp [Scene.ofBytes]
      closed := hclosed
      whole := hwhole
      base := hbase
      locks := LockTable.Consistent.empty }
  actors _ _ h := by cases h

/-- **What a handle has in its mapping**, for every file, any number of clients and every order of their
steps, with crashes and foreign writes between them.  A handle that is not in the midst of a refresh, and
whose append sequence is the one in the file, has every line in its mapping whose append sequence was
written, and all that was there at the start.  Its mapping ends with a line, if the file did at the
start and nobody adds bytes from outside.

Fewer than 2^32 lines are published, or else the sequence comes round.  Writing a slot is no step of an
append or of a refresh: a sort may come between them wherever it leaves the append sequence alone, that
is, unless the version of the header ends in a newline. -/
theorem published_in_mapping (bytes : Bytes) (mtime : Int) (happenings : List Happening)
    {id : HolderId} {handle : Handle}
    (hhandle : ((Scene.ofBytes bytes mtime).run happenings).handle? id = some handle)
    (hcount : ((Scene.ofBytes bytes mtime).run happenings).published.length < UInt32.size)
    (hsplit : bytes[Header.versionEnd]? ≠ some newline ∨
      ((Scene.ofBytes bytes mtime).run happenings).sorted = false) :
    let scene := (Scene.ofBytes bytes mtime).run happenings
    ∃ seq, appendSeq? scene.file.bytes = some seq ∧
      (scene.refreshing id = false → handle.seenSeq = seq →
        ∀ line ∈ scene.published, line.Within handle.view.length) ∧
      bytes.length ≤ handle.view.length ∧ handle.view.length ≤ scene.file.bytes.length ∧
      (bytes = [] ∨ endsLine bytes = true → (∀ happening ∈ happenings, happening.isForeign = false) →
        endsLine (handle.view.read scene.file.bytes) = true) := by
  intro scene
  let t : Terms :=
    { quiet := (bytes = [] ∨ endsLine bytes = true) ∧
        ∀ happening ∈ happenings, happening.isForeign = false
      whole := bytes[Header.versionEnd]? ≠ some newline
      base := bytes.length }
  have hsound : scene.Sound t := by
    have hstart : (Scene.ofBytes bytes mtime).Sound t :=
      .ofBytes mtime And.left (fun hwhole => hwhole) (Nat.le_refl _)
    refine hstart.run happenings (fun happening hmem hforeign hquiet => ?_) fun hsorted => ?_
    · exact absurd hforeign (Bool.eq_false_iff.1 (hquiet.2 happening hmem))
    · refine hsplit.resolve_right ?_
      rw [hsorted]
      decide
  obtain ⟨actor, hactor, hhas⟩ := Option.bind_eq_some_iff.1 hhandle
  have hpoised := (hsound.actors id actor hactor).poised hhas
  have hrefreshing : scene.refreshing id = actor.refreshing := by
    rw [Scene.refreshing, hactor]
    rfl
  obtain ⟨old, new, hp, hseq, hold⟩ := hpoised.trails
  refine ⟨_, hseq, fun hdone hsame => ?_, hpoised.base, hpoised.inside, fun hends hquiet => ?_⟩
  · -- the sequences agree, so nothing was published since the handle looked
    have hzero : UInt32.ofNat new.length = 0 := UInt32.left_eq_add.1 hsame
    have hlt : new.length < UInt32.size := by
      refine Nat.lt_of_le_of_lt ?_ hcount
      rw [show scene.published = old ++ new from hp, List.length_append]
      exact Nat.le_add_left _ _
    have hnew : new = [] := by
      rw [← List.length_eq_zero_iff, ← UInt32.toNat_ofNat_of_lt' hlt, hzero]
      rfl
    rw [show scene.published = old ++ new from hp, hnew, List.append_nil]
    exact hold (hrefreshing ▸ hdone)
  · have hpos : 0 < handle.view.length := Nat.lt_of_lt_of_le (by decide) hpoised.sees
    have hlength : (handle.view.read scene.file.bytes).length = handle.view.length :=
      List.length_take_of_le hpoised.inside
    rw [endsLine_iff, hlength, View.read, List.getElem?_take_of_lt (Nat.sub_lt hpos Nat.one_pos)]
    exact hpoised.boundary ⟨hends, hquiet⟩

/-- So many steps of a client, one after the other. -/
def steps (id : HolderId) (n : Nat) : List Happening := List.replicate n (.turn ⟨100, id, .resume⟩)

/-- Two clients open an empty file, and the first one publishes a line.  The second one reads the append
sequence, the first one writes its counter, and the second one maps the file. -/
def overlap : List Happening :=
  .turn ⟨100, 1, .opening (.ofPath Config.defaultPath)⟩ :: steps 1 10
    ++ .turn ⟨100, 2, .opening (.ofPath Config.defaultPath)⟩ :: steps 2 6
    ++ .turn ⟨100, 1, .call (.write ⟨ascii ['k'], some ⟨ascii ['f'], ascii ['1']⟩, .keep⟩)⟩ ::
      steps 1 13
    ++ .turn ⟨100, 2, .call .refresh⟩ :: steps 2 1 ++ steps 1 1 ++ steps 2 1

/-- The line is in the mapping of the second client, which ends with it. -/
theorem published_in_mapping_of_overlap :
    ((Scene.ofBytes [] 100).run overlap).published.length = 1 ∧
      ∃ handle, ((Scene.ofBytes [] 100).run overlap).handle? 2 = some handle ∧
        (∀ line ∈ ((Scene.ofBytes [] 100).run overlap).published, line.Within handle.view.length) ∧
        endsLine (handle.view.read ((Scene.ofBytes [] 100).run overlap).file.bytes) = true := by
  have hend : (((Scene.ofBytes [] 100).run overlap).handle? 2).map Handle.seenSeq = some 1 ∧
      appendSeq? ((Scene.ofBytes [] 100).run overlap).file.bytes = some 1 ∧
      ((Scene.ofBytes [] 100).run overlap).refreshing 2 = false ∧
      ((Scene.ofBytes [] 100).run overlap).published.length = 1 := by decide +kernel
  obtain ⟨hhandle, hseq, hdone, hcount⟩ := hend
  obtain ⟨handle, hhandle, hsees⟩ := Option.map_eq_some_iff.1 hhandle
  obtain ⟨seq, hread, hlines, -, -, hends⟩ := published_in_mapping [] 100 overlap hhandle
    (by rw [hcount]; decide) (.inl (by decide))
  rw [hread, Option.some.injEq] at hseq
  exact ⟨hcount, handle, hhandle, hlines hdone (hsees.trans hseq.symm),
    hends (.inl rfl) (by decide +kernel)⟩

end Scene

end RecordStore
