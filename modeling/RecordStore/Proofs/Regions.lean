import Mathlib.Tactic.Common
import RecordStore.Proofs.Lasting
import RecordStore.Proofs.Sequence

/-!
# Where the header ends and the records begin

Every handle takes the first newline of the file for the end of the header, from its opening on and
through all runs, since no turn changes a byte of the header but in its counters.

* `Heads` — what an open leaves; `Store.Headed` — every handle begins behind the first newline.

Principal results: `Store.Headed.run` — along every run; `Store.Steady.serve_appendSeq?` — one turn and
the append sequence; `header_region` — header, records, sorts and trims of every file that an opener
accepts.
-/

set_option autoImplicit false

namespace RecordStore

/-! ## Openings -/

/-- What an open leaves: the append sequence, unless the header splits, and a handle whose records
begin behind the first newline. -/
structure Heads (bytes : Bytes) (result : SharedFile × Opening) : Prop where
  seq : bytes ≠ [] → bytes[Header.versionEnd]? ≠ some newline →
    appendSeq? result.1.bytes = appendSeq? bytes
  headLen : ∀ handle, result.2 = .opened handle → headLength? result.1.bytes = some handle.headLen

section Openings

variable {now : Nat} {holder : HolderId} {config : Config} {file : SharedFile} {bytes : Bytes}

theorem Heads.of_bytes {opening : Opening} (h : file.bytes = bytes)
    (hopening : ∀ handle, opening ≠ .opened handle) : Heads bytes (file, opening) where
  seq _ _ := by rw [h]
  headLen handle heq := absurd heq (hopening handle)

theorem finishOpen_heads (first : Bool) : Heads file.bytes (finishOpen now holder config first file) := by
  unfold finishOpen
  dsimp only
  generalize hfile : (if file.bytes.isEmpty then file.patch now ⟨0, Header.encode .fresh⟩ else file) =
    file'
  have hsame : file.bytes ≠ [] → file'.bytes = file.bytes := by
    intro hne
    rw [← hfile, if_neg (by simpa using hne)]
  cases hmake : makeHandle config file'.bytes file.bytes.isEmpty with
  | none =>
    exact
      { seq := fun hne _ => by
          show appendSeq? (file'.release holder).bytes = _
          rw [← hsame hne]
          rfl
        headLen := by rintro handle ⟨⟩ }
  | some pair =>
    obtain ⟨header, handle⟩ := pair
    have hsteady := makeHandle_steady hmake
    have hheadLen : headLength? file'.bytes = some handle.headLen := by
      obtain ⟨-, n, hn, rfl⟩ := makeHandle_eq_some_iff.1 hmake
      exact hn
    dsimp only
    have htells : (⟨now, holder, handle, file', []⟩ : Session).Tells handle.headLen
        (appendSeq? file'.bytes) := ⟨hsteady, rfl, fun _ => rfl⟩
    split
    · have hsorted := htells.sort
      have hendures : Endures file'.bytes (Session.sort ⟨now, holder, handle, file', []⟩).file.bytes :=
        (Session.keeps_of_steady (s := ⟨now, holder, handle, file', []⟩) hsteady).sort.endures
      exact
        { seq := fun hne hwhole => by
            have hkept := hsame hne
            refine (hsorted.seq ?_).trans (by rw [hkept])
            rw [ne_eq, hendures.versionEnd_iff hsteady.legible, hkept]
            exact hwhole
          headLen := by
            rintro _ ⟨⟩
            rw [hsorted.headLen]
            exact hendures.headLength? hsteady.legible hheadLen }
    · exact
        { seq := fun hne _ => by rw [← hsame hne]; rfl
          headLen := by
            rintro _ ⟨⟩
            exact hheadLen }

theorem sharePresence_heads (first : Bool) :
    Heads file.bytes (sharePresence now holder config first file) := by
  unfold sharePresence
  rcases file.acquire?_cases holder presenceOffset .shared with ⟨-, hacq⟩ | ⟨-, hacq⟩
  · rw [hacq]
    exact .of_bytes rfl (by rintro handle ⟨⟩)
  · rw [hacq]
    exact @finishOpen_heads now holder config (file.hold holder presenceOffset .shared) first

theorem openFile_heads : Heads file.bytes (openFile now holder config file) := by
  unfold openFile
  rcases file.acquire?_cases holder structuralOffset .exclusive with ⟨-, hacq⟩ | ⟨-, hacq⟩
  · rw [hacq]
    exact .of_bytes rfl (by rintro handle ⟨⟩)
  · rw [hacq]
    dsimp only
    unfold probePresence
    rcases (file.hold holder structuralOffset .exclusive).acquire?_cases holder presenceOffset
      .exclusive with ⟨-, hacq⟩ | ⟨-, hacq⟩
    · rw [hacq]
      exact @sharePresence_heads now holder config (file.hold holder structuralOffset .exclusive) false
    · rw [hacq]
      exact @sharePresence_heads now holder config
        ((file.hold holder structuralOffset .exclusive).hold holder presenceOffset .exclusive) true

theorem resumeOpen_heads (stage : OpenStage) :
    Heads file.bytes (resumeOpen now holder config file stage) := by
  cases stage with
  | structural => exact openFile_heads
  | presence first => exact sharePresence_heads first

/-- Closing stamps the header behind its append sequence. -/
theorem closeFile_appendSeq? {handle : Handle} (hlong : Header.length ≤ file.bytes.length) :
    appendSeq? (closeFile now holder handle file).bytes = appendSeq? file.bytes := by
  unfold closeFile closingPatch?
  split
  · next patch hpatch =>
    obtain ⟨-, hstamp⟩ := Option.ite_none_right_eq_some.1 hpatch
    obtain rfl := Option.some.inj hstamp
    show appendSeq? (file.patch now _).bytes = _
    rw [SharedFile.patch_bytes]
    refine appendSeq?_applyAll [⟨Header.modifiedAt, Hex.word (UInt32.ofNat now)⟩] hlong
      fun patch hp => ?_
    exact Nat.le_of_eq (congrArg Patch.offset (List.mem_singleton.1 hp)).symm
  · rfl

end Openings

/-! ## Runs -/

/-- The records of the client's handle begin behind the first newline. -/
def Client.Headed (bytes : Bytes) : Client → Prop
  | .opening _ _ => True
  | .idle handle | .busy handle _ => headLength? bytes = some handle.headLen

theorem Client.Headed.endures {client : Client} {bytes bytes' : Bytes} (h : client.Headed bytes)
    (hs : client.Steady bytes) (hendures : Endures bytes bytes') : client.Headed bytes' := by
  cases client with
  | opening config stage => trivial
  | idle handle => exact hendures.headLength? (Handle.Steady.legible hs) h
  | busy handle stage => exact hendures.headLength? hs.1.legible h

namespace Store

/-- The records of every handle begin behind the first newline. -/
def Headed (store : Store) : Prop :=
  ∀ id client, store.client? id = some client → client.Headed store.file.bytes

variable {store : Store}

theorem Headed.update (h : store.Headed) (hs : store.Steady) (id : HolderId) {file : SharedFile}
    {client : Client} (hendures : Endures store.file.bytes file.bytes)
    (hclient : client.Headed file.bytes) : (store.update id file client).Headed :=
  forall_client_update (p := fun client => client.Steady store.file.bytes ∧
    client.Headed store.file.bytes) (fun id client hc => ⟨hs id client hc, h id client hc⟩)
    (fun _ hc => hc.2.endures hc.1 hendures) id file hclient

theorem Headed.remove (h : store.Headed) (hs : store.Steady) (id : HolderId) {file : SharedFile}
    (hendures : Endures store.file.bytes file.bytes) :
    (({ store with file } : Store).remove id).Headed :=
  forall_client_remove (p := fun client => client.Steady store.file.bytes ∧
    client.Headed store.file.bytes) (fun id client hc => ⟨hs id client hc, h id client hc⟩)
    (fun _ hc => hc.2.endures hc.1 hendures) id file

theorem Headed.settleOpen (h : store.Headed) (hs : store.Steady) (id : HolderId) (config : Config)
    {result : SharedFile × Opening} (hheads : Heads store.file.bytes result)
    (hendures : Endures store.file.bytes result.1.bytes) :
    (store.settleOpen id config result).1.Headed := by
  obtain ⟨file, opening⟩ := result
  cases opening with
  | opened handle => exact h.update hs id hendures (hheads.headLen handle rfl)
  | failed error => exact h.remove hs id hendures
  | waiting stage => exact h.update hs id hendures trivial

/-- What a stretch relies on when a client runs it. -/
theorem Steady.runs (hs : store.Steady) {turn : Turn} {handle : Handle} {call : Call}
    {pending : Option Stage} (hruns : store.Runs turn handle call pending) :
    handle.Steady store.file.bytes ∧ ∀ stage, pending = some stage →
      stage.call = call ∧ stage.Steady (handle.view.read store.file.bytes) := by
  obtain ⟨hhandle, hstage⟩ := (hs _ _ hruns.client).atStage
  exact ⟨hhandle, fun stage hp => ⟨hruns.same stage hp, hstage stage hp⟩⟩

/-- **One turn** leaves every handle's records where they begin. -/
theorem Headed.serve (h : store.Headed) (hs : store.Steady) (turn : Turn) :
    (store.serve turn).1.Headed := by
  have hendures := (hs.serve turn).1
  have hserved := store.serve_served turn
  generalize store.serve turn = result at hserved hendures
  cases hserved with
  | unavailable => exact h
  | opening =>
    rw [settleOpen_file] at hendures
    exact h.settleOpen hs _ _ openFile_heads hendures
  | reopening =>
    rw [settleOpen_file] at hendures
    exact h.settleOpen hs _ _ (resumeOpen_heads _) hendures
  | closed => exact h.remove hs _ hendures
  | @ran handle call pending runs =>
    obtain ⟨hsteady, hpending⟩ := hs.runs runs
    have hheadLen : headLength? store.file.bytes = some handle.headLen := by
      have hclient := h _ _ runs.client
      cases pending <;> exact hclient
    have htells : (store.session turn.now turn.holder handle).Tells handle.headLen
        (appendSeq? store.file.bytes) := ⟨hsteady, rfl, fun _ => rfl⟩
    have hends := Call.stretch_advances htells hpending
    -- wherever the stretch ends, its handle begins where it began
    have hkept : ∀ {s' : Session} {client : Client}, s'.Advances handle.headLen
        (appendSeq? store.file.bytes) → Endures store.file.bytes s'.file.bytes →
        (client = .idle s'.handle ∨ ∃ stage, client = .busy s'.handle stage) →
        (store.update turn.holder s'.file client).Headed := by
      intro s' client hadvances hafter hclient
      have hlen : s'.handle.headLen = handle.headLen := by
        rcases hadvances with htold | htold <;> exact htold.headLen
      have hheaded : headLength? s'.file.bytes = some s'.handle.headLen := by
        rw [hlen]
        exact hafter.headLength? hsteady.legible hheadLen
      refine h.update hs _ hafter ?_
      rcases hclient with rfl | ⟨stage, rfl⟩ <;> exact hheaded
    unfold SessionM.Leads at hends
    revert hends hendures
    generalize call.stretch pending (store.session turn.now turn.holder handle) = result
    cases result with
    | error e s' => exact fun hendures hends => hkept hends hendures (Or.inl rfl)
    | ok progress s' =>
      cases progress with
      | answered answer => exact fun hendures hends => hkept hends hendures (Or.inl rfl)
      | waiting stage => exact fun hendures hends => hkept hends hendures (Or.inr ⟨stage, rfl⟩)

theorem Headed.run (h : store.Headed) (hs : store.Steady) (turns : List Turn) :
    (store.run turns).1.Headed := by
  induction turns generalizing store with
  | nil => exact h
  | cons turn more ih => exact ih (h.serve hs turn) (hs.serve turn).2

/-- **One turn** leaves the append sequence as it is, unless it writes or the header splits. -/
theorem Steady.serve_appendSeq? (hs : store.Steady) (hread : Legible store.file.bytes)
    (hwhole : store.file.bytes[Header.versionEnd]? ≠ some newline) (turn : Turn) :
    appendSeq? (store.serve turn).1.file.bytes = appendSeq? store.file.bytes ∨
      (∃ request, store.running? turn = some (.write request)) ∧
        appendSeq? (store.serve turn).1.file.bytes = (appendSeq? store.file.bytes).map (· + 1) := by
  have hne : store.file.bytes ≠ [] := by
    intro hnil
    have hlong := hread.length_le
    rw [hnil] at hlong
    exact absurd hlong (by decide)
  have hstill : (store.serve turn).1.file.bytes[Header.versionEnd]? ≠ some newline := by
    rw [ne_eq, (hs.serve turn).1.versionEnd_iff hread]
    exact hwhole
  have hserved := store.serve_served turn
  generalize store.serve turn = result at hserved hstill
  cases hserved with
  | unavailable => exact Or.inl rfl
  | opening =>
    rw [settleOpen_file]
    exact Or.inl (openFile_heads.seq hne hwhole)
  | reopening =>
    rw [settleOpen_file]
    exact Or.inl ((resumeOpen_heads _).seq hne hwhole)
  | closed => exact Or.inl (closeFile_appendSeq? hread.length_le)
  | @ran handle call pending runs =>
    obtain ⟨hsteady, hpending⟩ := hs.runs runs
    have htells : (store.session turn.now turn.holder handle).Tells handle.headLen
        (appendSeq? store.file.bytes) := ⟨hsteady, rfl, fun _ => rfl⟩
    rw [settleCall_file] at hstill ⊢
    by_cases hwrite : ∃ request, call = .write request
    · obtain ⟨request, rfl⟩ := hwrite
      rcases (Call.stretch_advances htells hpending).final with htold | htold
      · exact Or.inl (htold.seq hstill)
      · exact Or.inr ⟨⟨request, runs.running⟩, htold.seq hstill⟩
    · have hcall : ∀ request, call ≠ .write request := fun request heq => hwrite ⟨request, heq⟩
      exact Or.inl ((Call.stretch_tells htells hpending hcall).final.seq hstill)

theorem Headed.ofBytes (bytes : Bytes) (mtime : Int) : (Store.ofBytes bytes mtime).Headed := by
  intro id client h
  cases h

end Store

/-- **Where the header ends and the records begin**, for every file that an opener accepts and every
run.  The records of a handle begin behind the header, and a trim reads that header, just where no
version byte is a newline.  Whatever the version bytes are, lookups find nothing but what stands behind
the header, and no turn changes the header but in its counters.  A sort places lines behind the header
alone, and a turn leaves the append sequence to the writes, unless the last version byte is a newline:
then a sort overwrites the append sequence with the place of a line. -/
theorem header_region (bytes : Bytes) (mtime : Int) (turns : List Turn) {id : HolderId}
    {handle : Handle} {pending : Option Stage}
    (hclient : ((Store.ofBytes bytes mtime).run turns).1.client? id =
      some (.atStage handle pending)) :
    ∃ header,
      let store := ((Store.ofBytes bytes mtime).run turns).1
      let seen := handle.view.read store.file.bytes
      Header.decode? store.file.bytes = some header ∧
      (handle.headLen = Header.length ↔ header.Whole) ∧
      (∀ later, (trimBytes? (store.run later).1.file.bytes).isSome = true ↔ header.Whole) ∧
      (∀ key span, handle.find? seen key = some span → Header.length ≤ span.offset) ∧
      (∀ span, pending.bind Stage.span? = some span → Header.length ≤ span.offset) ∧
      (∀ later i, i < Header.length → ¬ InCounter i →
        (store.run later).1.file.bytes[i]? = store.file.bytes[i]?) ∧
      ((∀ offset ∈ Index.physicalRecords seen handle.headLen, Header.length ≤ offset) ↔
        ¬ header.Splits) ∧
      (¬ header.Splits → ∀ turn,
        appendSeq? (store.serve turn).1.file.bytes = some header.appendSeq ∨
          (∃ request, store.running? turn = some (.write request)) ∧
            appendSeq? (store.serve turn).1.file.bytes = some (header.appendSeq + 1)) ∧
      (header.Splits → ∀ now, appendSeq? (store.session now id handle).sort.file.bytes =
        (Index.sorted seen handle.headLen).head?.map fun line => UInt32.ofNat line.offset) := by
  have hsteady := ((Store.Steady.ofBytes bytes mtime).run turns).2
  have hheaded := (Store.Headed.ofBytes bytes mtime).run (.ofBytes bytes mtime) turns
  generalize ((Store.ofBytes bytes mtime).run turns).1 = store at hclient hsteady hheaded ⊢
  obtain ⟨hhandle, hstage⟩ := (hsteady _ _ hclient).atStage
  have hn : headLength? store.file.bytes = some handle.headLen := by
    have := hheaded _ _ hclient
    cases pending <;> exact this
  have hread := hhandle.legible
  obtain ⟨header, hdec⟩ := Option.isSome_iff_exists.1 (legible_iff.1 hread)
  have hsplits := Header.splits_iff hdec
  have hseen : (handle.view.read store.file.bytes)[Header.versionEnd]? =
      store.file.bytes[Header.versionEnd]? :=
    List.getElem?_take_of_lt (Nat.lt_of_lt_of_le (by decide) hhandle.sees)
  refine ⟨header, hdec, hread.headLen_eq_iff hn hdec, fun later => ?_, fun key span hfound => ?_,
    fun span hspan => ?_, fun later i hi hout => ?_, ?_, fun hnot turn => ?_, fun hsplit now => ?_⟩
  · have hendures := (hsteady.run later).1
    have hread' := hendures.legible hread
    obtain ⟨header', hdec'⟩ := Option.isSome_iff_exists.1 (legible_iff.1 hread')
    rw [hread'.isSome_trimBytes?_iff hdec', Header.Whole, hendures.version_eq hdec hdec']
    rfl
  · exact (hhandle.find?_sound hfound).bears.header_le
  · obtain ⟨stage, hstageEq, hspanEq⟩ := Option.bind_eq_some_iff.1 hspan
    exact ((hstage stage hstageEq).bears span hspanEq).header_le
  · have hbyte := List.getElem?_eq_getElem (Nat.lt_of_lt_of_le hi hread.length_le)
    rw [(hsteady.run later).1.header_eq hi hout hbyte, hbyte]
  · rw [hsplits, ← hseen]
    refine Iff.trans ?_ (Index.slotted_behind_iff hhandle.legible_view
      (headLength?_take hn (Nat.le_trans hhandle.headLen_le hhandle.sees)))
    simp only [Index.physicalRecords, List.forall_mem_map]
  · rw [hsplits] at hnot
    have hturn := hsteady.serve_appendSeq? hread hnot turn
    rw [appendSeq?_of_decode? hdec] at hturn
    exact hturn
  · exact Session.sort_appendSeq?_of_splits hhandle hn (hsplits.1 hsplit)

/-- A file with one record whose version ends in a newline. -/
def splitFile : Bytes :=
  (⟨ascii ['0', '0', '.', '0'] ++ [newline], 5, 100, 0, by decide⟩ : Header).encode ++
    encodeRecord (ascii ['k']) [⟨ascii ['f'], ascii ['1']⟩]

/-- The store of that file, with one client. -/
def splitStore : Store :=
  ((Store.ofBytes splitFile 100).run [⟨100, 1, .opening (.ofPath Config.defaultPath)⟩]).1

/-- The records seem to begin inside the header, a trim refuses it, and a sort turns the append
sequence from 5 into 7. -/
theorem header_region_of_split_header : ∃ handle, splitStore.client? 1 = some (.idle handle) ∧
    handle.headLen ≠ Header.length ∧ trimBytes? splitStore.file.bytes = none ∧
    appendSeq? splitStore.file.bytes = some 5 ∧
    appendSeq? (splitStore.session 100 1 handle).sort.file.bytes = some 7 := by
  have hopened : ∃ handle, splitStore.client? 1 = some (.atStage handle none) ∧
      handle.headLen = 7 ∧ handle.view.read splitStore.file.bytes = splitFile := by
    have hview : (splitStore.client? 1).map (fun client => match client with
        | .idle handle => (handle.headLen, handle.view.read splitStore.file.bytes)
        | .opening _ _ | .busy _ _ => (0, [])) = some (7, splitFile) := by decide +kernel
    cases hclient : splitStore.client? 1 with
    | none =>
      rw [hclient] at hview
      cases hview
    | some client =>
      rw [hclient] at hview
      cases client with
      | idle handle =>
        obtain ⟨hlen, hread⟩ := Prod.mk.inj (Option.some.inj hview)
        exact ⟨handle, rfl, hlen, hread⟩
      | opening => cases hview
      | busy => cases hview
  obtain ⟨handle, hclient, hlen, hread⟩ := hopened
  obtain ⟨header, hdec, hheadLen, htrims, -, -, -, -, -, hsorts⟩ :=
    header_region splitFile 100 [⟨100, 1, .opening (.ofPath Config.defaultPath)⟩] hclient
  have hheader : (Header.decode? splitStore.file.bytes).map (fun header =>
      (header.appendSeq, decide header.Whole, decide header.Splits)) = some (5, false, true) := by
    decide +kernel
  rw [show Header.decode? splitStore.file.bytes = _ from hdec] at hheader
  obtain ⟨hseq, hwhole, hsplits⟩ : header.appendSeq = 5 ∧ ¬ header.Whole ∧ header.Splits := by
    simpa using hheader
  refine ⟨handle, hclient, fun heq => hwhole (hheadLen.1 heq), ?_, ?_, ?_⟩
  · have htrim := (htrims []).not.2 hwhole
    exact Option.not_isSome_iff_eq_none.1 htrim
  · rw [← hseq]
    exact appendSeq?_of_decode? hdec
  · -- the two lines are in the order of their keys already
    have hsorted : Index.sorted splitFile 7 = Index.slotted splitFile 7 :=
      List.mergeSort_of_pairwise (by decide +kernel)
    have hfirst : (Index.slotted splitFile 7).head?.map (fun line => UInt32.ofNat line.offset) =
        some 7 := by decide +kernel
    refine (hsorts hsplits 100).trans ?_
    show (Index.sorted (handle.view.read splitStore.file.bytes) handle.headLen).head?.map _ = _
    rw [hread, hlen, hsorted, hfirst]

end RecordStore
