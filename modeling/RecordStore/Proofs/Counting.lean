import Mathlib.Tactic.Common
import RecordStore.Proofs.Made
import RecordStore.Proofs.Resorting
import RecordStore.Proofs.Tallies

/-!
# What the counters of a store count

In a store that the library alone has made, the append sequence counts the records that were ever
appended, trims or not.  The other counter counts the lines that no sort has placed; they are the
last ones of the file, and with one resort limit for all clients there is at most one more of them
than the limit allows.

* `Store.appends` — a turn appends a record.
* `Store.Counted` — a store that turns and trims have made, with the number of records appended.
* `Store.Tallied` — what the counters of its file are worth.

Principal results: `Store.Tallied.serve` — one turn; `Store.counters_exact`.
-/

set_option autoImplicit false

namespace RecordStore

namespace Store

/-- In this turn a write leaves the file longer than it was: it appends a record. -/
def appends (store : Store) (turn : Turn) : Bool :=
  (match store.running? turn with
    | some (.write _) => true
    | _ => false) && store.file.bytes.length < (store.serve turn).1.file.bytes.length

/-- A store that begins with an absent file, whose clients all open it with one resort limit, and
that nothing else changes but turns and trims; and how many records were appended so far.  Before
every step the file is short enough for its slots. -/
inductive Counted (limit : UInt32) : Nat → Store → Prop where
  | created (mtime : Int) : Counted limit 0 (.ofBytes [] mtime)
  | served {count : Nat} {store : Store} (counted : Counted limit count store)
    (small : store.file.bytes.length < UInt32.size) (turn : Turn)
    (common : ∀ config, turn.request = .opening config → config.resortLimit = limit) :
    Counted limit (count + (store.appends turn).toNat) (store.serve turn).1
  | trimmed {count : Nat} {store opened sorted : Store} {copy path : Bytes} {stats : TrimStats}
    {now : Nat} {id : HolderId} (counted : Counted limit count store)
    (small : store.file.bytes.length < UInt32.size)
    (copied : trimBytes? store.file.bytes = some (copy, stats))
    (opens : (Store.ofBytes copy now).openFor now id { Config.ofPath path with create := false } =
      (opened, .opened))
    (sorts : opened.call now id .resort = (sorted, .answered .done)) :
    Counted limit count (sorted.close now id)

end Store

/-- The client opened the store with this resort limit. -/
def Client.Asks (limit : UInt32) : Client → Prop
  | .opening config _ => config.resortLimit = limit
  | .idle handle | .busy handle _ => handle.config.resortLimit = limit

/-- The file shows an image whose counters are exact: so many records were appended, and no more lines
are without a place than the limit of all clients allows. -/
structure Store.Tallied (store : Store) (limit : UInt32) (count : Nat) (i : Image) : Prop where
  tracks : store.Tracks i
  bytes : store.file.bytes = i.bytes
  clients : ∀ id client, store.client? id = some client → client.Asks limit
  seq : i.header.appendSeq = UInt32.ofNat count
  counts : i.Counts
  few : i.unplaced ≤ limit.toNat + 1

namespace Store

variable {store : Store} {limit : UInt32} {count : Nat} {i : Image} {id : HolderId} {now : Nat}

theorem Tallied.lined (h : store.Tallied limit count i) : i.Lined := h.tracks.formed.toLined

/-- What a turn leaves behind is tallied if its image is. -/
theorem Tallied.of_tracks {i j : Image} (h : store.Tracks i) (hj : j.Lined)
    (hbytes : store.file.bytes = j.bytes)
    (hclients : ∀ id client, store.client? id = some client → client.Asks limit)
    (hseq : j.header.appendSeq = UInt32.ofNat count) (hcounts : j.Counts)
    (hfew : j.unplaced ≤ limit.toNat + 1) : store.Tallied limit count j := by
  obtain rfl : i = j := by
    refine h.formed.toLined.eq_of_bytes hj ?_
    rcases h.shows with hsame | ⟨hempty, -⟩
    · exact hsame.symm.trans hbytes
    · rw [hempty] at hbytes
      have := congrArg List.length hbytes
      rw [Image.length_bytes] at this
      have hpos : 0 < Header.length := by decide
      simp only [List.length_nil] at this
      omega
  exact ⟨h, hbytes, hclients, hseq, hcounts, hfew⟩

/-- A store whose counters rest. -/
theorem Tallied.of_stays (h : store.Tallied limit count i) {store' : Store} {i' j : Image}
    (htracks : store'.Tracks i') (hj : j.Lined) (hbytes : store'.file.bytes = j.bytes)
    (hclients : ∀ id client, store'.client? id = some client → client.Asks limit)
    (hstays : i.Stays j) : store'.Tallied limit count j :=
  .of_tracks htracks hj hbytes hclients (hstays.seq.trans h.seq) hstays.counts
    (Nat.le_trans hstays.unplaced_le h.few)

/-- A turn without a write appends nothing. -/
theorem appends_of_quiet {turn : Turn} (h : ∀ request, store.running? turn ≠ some (.write request)) :
    store.appends turn = false := by
  unfold appends
  split
  · next request hrunning => exact absurd hrunning (h request)
  · rfl

/-- A turn that leaves the length of the file as it is appends nothing. -/
theorem appends_of_length_eq {turn : Turn}
    (h : (store.serve turn).1.file.bytes.length = store.file.bytes.length) :
    store.appends turn = false := by
  unfold appends
  rw [h, decide_eq_false (Nat.lt_irrefl _), Bool.and_false]

theorem appends_of_write {turn : Turn} {request : WriteRequest}
    (h : store.running? turn = some (.write request))
    (hlonger : store.file.bytes.length < (store.serve turn).1.file.bytes.length) :
    store.appends turn = true := by
  unfold appends
  rw [h, decide_eq_true hlonger]
  rfl

/-! ## One turn -/

/-- The end of an opening. -/
theorem Tallied.settleOpen (h : store.Tallied limit count i)
    (hsmall : store.file.bytes.length < UInt32.size) {config : Config}
    (hconfig : config.resortLimit = limit) {result : SharedFile × Opening}
    (henters : Enters now config store.file.bytes i [] result) {i' : Image}
    (htracks : (store.settleOpen id config result).1.Tracks i') :
    ∃ j, (store.settleOpen id config result).1.Tallied limit count j := by
  cases henters with
  | waiting bytes =>
    exact ⟨i, h.of_stays htracks h.lined (bytes.trans h.bytes)
      (forall_client_update h.clients (fun _ hold => hold) id _ hconfig) (.refl h.counts)⟩
  | @opened file handle j bytes arrives image =>
    rw [List.append_nil] at bytes
    have hsmall' : i.bytes.length < UInt32.size := h.bytes ▸ hsmall
    have hj : j.Lined ∧ i.Stays j := by
      rcases image with rfl | rfl
      · exact ⟨h.lined, .refl h.counts⟩
      · exact ⟨h.lined.sorted now, Image.stays_sorted h.lined hsmall' now⟩
    refine ⟨j, h.of_stays htracks hj.1 bytes ?_ hj.2⟩
    refine forall_client_update h.clients (fun _ hold => hold) id file ?_
    exact (congrArg Config.resortLimit arrives.config).trans hconfig

/-- The end of a stretch puts its file in place of the old one. -/
theorem settleCall_ok (store : Store) (id : HolderId) (progress : Progress) (s : Session) :
    ∃ client, (store.settleCall id (.ok progress s)).1 = store.update id s.file client ∧
      (s.handle.config.resortLimit = limit → client.Asks limit) := by
  cases progress with
  | answered a => exact ⟨.idle s.handle, rfl, fun hlimit => hlimit⟩
  | waiting stage => exact ⟨.busy s.handle stage, rfl, fun hlimit => hlimit⟩

/-- **A stretch of a call**: what it appends is counted. -/
theorem Tallied.ran (h : store.Tallied limit count i)
    (hsmall : store.file.bytes.length < UInt32.size) {turn : Turn} {handle : Handle} {call : Call}
    {pending : Option Stage} (runs : store.Runs turn handle call pending)
    (hserve : store.serve turn = store.settleCall turn.holder
      (call.stretch pending (store.session turn.now turn.holder handle))) {i' : Image}
    (htracks : (store.settleCall turn.holder
      (call.stretch pending (store.session turn.now turn.holder handle))).1.Tracks i') :
    ∃ j, (store.settleCall turn.holder
        (call.stretch pending (store.session turn.now turn.holder handle))).1.Tallied limit
      (count + (store.appends turn).toNat) j := by
  obtain ⟨hpending, hfollows, hawaits⟩ := h.tracks.follows runs
  have htallies := Call.stretch_tallies hfollows (h.tracks.small hsmall) h.counts hpending hawaits
  have hlimit : handle.config.resortLimit = limit := by
    have hclient := h.clients _ _ runs.client
    cases pending <;> exact hclient
  have hclients : ∀ (file : SharedFile) (client : Client), client.Asks limit →
      ∀ id client', (store.update turn.holder file client).client? id = some client' →
        client'.Asks limit := fun file client hclient =>
    forall_client_update h.clients (fun _ hold => hold) turn.holder file hclient
  generalize call.stretch pending (store.session turn.now turn.holder handle) = stretched
    at htallies hserve htracks ⊢
  -- what rests leaves the length of the file as it is
  have hrest : ∀ j : Image, i.Stays j → (store.settleCall turn.holder stretched).1.file.bytes =
      j.bytes → count + (store.appends turn).toNat = count := by
    intro j hstays hbytes
    rw [appends_of_length_eq (by rw [hserve, hbytes, h.bytes, hstays.length_eq])]
    rfl
  cases htallies with
  | @answered s j progress follows config stays =>
    obtain ⟨client, hsettle, hasks⟩ := @settleCall_ok limit store turn.holder progress s
    rw [hsettle] at hrest htracks ⊢
    rw [hrest j stays follows.bytes]
    exact ⟨j, h.of_stays htracks follows.formed.toLined follows.bytes
      (hclients _ _ (hasks ((congrArg Config.resortLimit config).trans hlimit))) stays⟩
  | @failed s j e follows config stays =>
    rw [hrest j stays follows.bytes]
    exact ⟨j, h.of_stays htracks follows.formed.toLined follows.bytes
      (hclients _ (.idle s.handle) ((congrArg Config.resortLimit config).trans hlimit)) stays⟩
  | @appended s j a follows config write advances =>
    obtain ⟨request, rfl⟩ := write
    have happends : store.appends turn = true := by
      refine appends_of_write runs.running ?_
      rw [hserve, h.bytes]
      exact Nat.lt_of_lt_of_eq advances.longer (congrArg List.length follows.bytes).symm
    rw [happends]
    refine ⟨j, .of_tracks htracks follows.formed.toLined follows.bytes
      (hclients _ (.idle s.handle) ((congrArg Config.resortLimit config).trans hlimit)) ?_
      advances.counts ?_⟩
    · rw [advances.seq, h.seq]
      exact (UInt32.ofNat_add count 1).symm
    · rw [← hlimit]
      exact advances.unplaced_le

/-- **One turn**: what it appends is counted. -/
theorem Tallied.serve (h : store.Tallied limit count i)
    (hsmall : store.file.bytes.length < UInt32.size) {turn : Turn}
    (hcommon : ∀ config, turn.request = .opening config → config.resortLimit = limit) :
    ∃ j, (store.serve turn).1.Tallied limit (count + (store.appends turn).toNat) j := by
  obtain ⟨i', htracks, -⟩ := h.tracks.serve hsmall turn
  have hquiet : store.running? turn = none → count + (store.appends turn).toNat = count := by
    intro hrunning
    rw [appends_of_quiet (by rw [hrunning]; rintro request ⟨⟩)]
    rfl
  have hserved := store.serve_served turn
  generalize hresult : store.serve turn = result at hserved htracks
  cases hserved with
  | unavailable quiet =>
    rw [hquiet quiet]
    exact ⟨i, h⟩
  | opening quiet client asked =>
    rw [hquiet quiet]
    exact h.settleOpen hsmall (hcommon _ asked)
      (openFile_enters h.lined.whole (by simp) h.tracks.torn) htracks
  | reopening quiet client =>
    rw [hquiet quiet]
    exact h.settleOpen hsmall (h.clients _ _ client)
      (resumeOpen_enters h.lined.whole (by simp) h.tracks.torn _) htracks
  | @closed handle quiet client =>
    rw [hquiet quiet]
    obtain ⟨hversion, hseq, hsince⟩ := closedHeader_frame turn.now handle i.header
    have hclosed := @closeFile_bytes_eq turn.now turn.holder _ _ handle []
      (h.bytes.trans (List.append_nil _).symm)
    have hstays : i.Stays ⟨closedHeader turn.now handle i.header, i.texts⟩ :=
      ⟨rfl, hseq, (congrArg UInt32.toNat hsince).trans h.counts, Nat.le_refl _⟩
    have hlined : (⟨closedHeader turn.now handle i.header, i.texts⟩ : Image).Lined :=
      ⟨hversion ▸ h.lined.version, h.lined.line, h.lined.wellFormed⟩
    exact ⟨_, h.of_stays htracks hlined (hclosed.trans (List.append_nil _))
      (forall_client_remove h.clients (fun _ hold => hold) turn.holder _) hstays⟩
  | ran runs => exact h.ran hsmall runs hresult htracks

/-! ## Every store -/

/-- Nobody has opened the store yet, or its counters are exact. -/
def Exact (store : Store) (limit : UInt32) (count : Nat) : Prop :=
  (count = 0 ∧ ∃ mtime, store = .ofBytes [] mtime) ∨ ∃ i, store.Tallied limit count i

/-- A store that nobody has open, just after a sort. -/
theorem Tallied.ofBytes (hi : i.Lined) (hsmall : i.bytes.length < UInt32.size)
    (hseq : i.header.appendSeq = UInt32.ofNat count) (mtime : Int) :
    (Store.ofBytes (i.sorted now).bytes mtime).Tallied limit count (i.sorted now) where
  tracks := by
    have hformed : (i.sorted now).Formed := hi.sort (fun _ => Image.offset_lt_of_small hsmall) rfl
    exact .ofBytes hformed mtime
  bytes := rfl
  clients := by
    rintro id client ⟨⟩
  seq := hseq
  counts := (hi.unplaced_sorted hsmall now).symm
  few := by
    rw [hi.unplaced_sorted hsmall]
    exact Nat.zero_le _

/-- **The first client** of an absent file sorts what it has just created. -/
theorem exact_serve_created (hlimit : limit < Header.freshSinceSort) {mtime : Int} {turn : Turn}
    (hcommon : ∀ config, turn.request = .opening config → config.resortLimit = limit) :
    (((Store.ofBytes [] mtime).serve turn).1).Exact limit
      (0 + ((Store.ofBytes [] mtime).appends turn).toNat) := by
  have hnobody : ∀ {client : Client}, (Store.ofBytes [] mtime).client? turn.holder ≠ some client := by
    rintro client ⟨⟩
  have hserved := (Store.ofBytes [] mtime).serve_served turn
  obtain ⟨i', htracks, -⟩ := (Tracks.ofNothing mtime).serve (by exact (by decide : 0 < UInt32.size)) turn
  have hquiet : (Store.ofBytes [] mtime).running? turn = none →
      0 + ((Store.ofBytes [] mtime).appends turn).toNat = 0 := by
    intro hrunning
    rw [appends_of_quiet (by rw [hrunning]; rintro request ⟨⟩)]
    rfl
  generalize hresult : (Store.ofBytes [] mtime).serve turn = result at hserved htracks
  cases hserved with
  | unavailable quiet =>
    rw [hquiet quiet]
    exact Or.inl ⟨rfl, mtime, rfl⟩
  | @opening config quiet client asked =>
    rw [hquiet quiet]
    have hfresh := Image.Sound.fresh.formed.toLined
    have hsmall : Image.fresh.bytes.length < UInt32.size := by decide
    obtain ⟨file, handle, hopen, hbytes, harrives, -⟩ :=
      @openFile_alone _ [] turn.now turn.holder config hfresh.whole (by simp) [] mtime
        (Or.inr ⟨rfl, rfl, rfl⟩) ((hcommon config asked).symm ▸ hlimit)
    rw [show openFile turn.now turn.holder config (Store.ofBytes [] mtime).file = _ from hopen]
      at htracks ⊢
    refine Or.inr ⟨Image.fresh.sorted turn.now, .of_tracks htracks (hfresh.sorted _)
      (hbytes.trans (List.append_nil _)) ?_ rfl (hfresh.unplaced_sorted hsmall _).symm ?_⟩
    · refine forall_client_update (p := fun _ => False) ?_ ?_ turn.holder file ?_
      · rintro id client ⟨⟩
      · exact fun _ hold => hold.elim
      · exact (congrArg Config.resortLimit harrives.config).trans (hcommon config asked)
    · rw [hfresh.unplaced_sorted hsmall]
      exact Nat.zero_le _
  | reopening _ client | closed _ client => exact absurd client hnobody
  | ran runs => exact absurd runs.client hnobody

end Store

/-- A trim leaves no more than there was. -/
theorem Image.length_trimmed_le (i : Image) : i.trimmed.bytes.length ≤ i.bytes.length := by
  rw [length_bytes, length_bytes]
  exact Nat.add_le_add_left (length_flatten_cleared_le isLiveText i.texts) _

namespace Store

variable {store : Store} {limit : UInt32} {count : Nat}

/-- **The invariant**: between any two steps the counters are exact. -/
theorem Counted.exact (h : Counted limit count store) (hlimit : limit < Header.freshSinceSort) :
    store.Exact limit count := by
  induction h with
  | created mtime => exact Or.inl ⟨rfl, mtime, rfl⟩
  | served counted small turn common ih =>
    rcases ih with ⟨rfl, mtime, rfl⟩ | ⟨i, htallied⟩
    · exact exact_serve_created hlimit common
    · exact Or.inr (htallied.serve small common)
  | @trimmed count store opened sorted copy path stats now id counted small copied opens sorts ih =>
    rcases ih with ⟨rfl, mtime, rfl⟩ | ⟨i, htallied⟩
    · have hnone : trimBytes? [] = none := rfl
      rw [show (Store.ofBytes [] mtime).file.bytes = [] from rfl, hnone] at copied
      cases copied
    · -- the copy asks for a sort, and the one who opens it is alone
      have hcopy := htallied.lined.trimBytes?_eq
      rw [← htallied.bytes, copied, Option.map_some, Option.some.injEq] at hcopy
      dsimp only at hcopy
      subst hcopy
      have hlined := htallied.lined.trimmed.toLined
      have hsmall : i.trimmed.bytes.length < UInt32.size :=
        Nat.lt_of_le_of_lt i.length_trimmed_le (htallied.bytes ▸ small)
      have hasks : ({ Config.ofPath path with create := false } : Config).resortLimit <
          i.trimmed.header.sinceSort :=
        (by decide : Config.defaultResortLimit < Header.freshSinceSort)
      obtain ⟨opened', sorted', hopens, hsorts, hcloses⟩ :=
        @resorted_alone _ [] now id _ hlined.whole (by simp) i.trimmed.bytes now
          (Or.inl (List.append_nil _).symm) hasks
      rw [opens, Prod.mk.injEq] at hopens
      obtain ⟨rfl, -⟩ := hopens
      rw [sorts, Prod.mk.injEq] at hsorts
      obtain ⟨rfl, -⟩ := hsorts
      rw [hcloses, List.append_nil, hlined.whole.sorted_sorted hsmall]
      exact Or.inr ⟨_, .ofBytes hlined hsmall htallied.seq now⟩

end Store

/-! ## What the file shows -/

/-- The records of a file that no sort has placed. -/
def pendingRecords (data : Bytes) : List Record :=
  (recordsFrom Header.length data).filter fun r => r.slot == unsorted

namespace Image

variable {i : Image}

/-- Every line is a record. -/
theorem Lined.map_toLine_recordsFrom (h : i.Lined) :
    (recordsFrom Header.length i.bytes).map Record.toLine = i.lines := by
  have hends : ∀ line ∈ i.lines, endsLine line.text = true := fun line hl =>
    (h.line _ (text_mem hl)).endsLine
  have hof : ∀ line ∈ i.lines, (Record.ofLine? line).map Record.toLine = some line := by
    intro line hl
    obtain ⟨r, hr⟩ : ∃ r : Record, r.toLine = line := ⟨⟨line, h.wellFormed _ (text_mem hl)⟩, rfl⟩
    rw [Record.ofLine?_eq_some_iff.2 ⟨h.wellFormed _ (text_mem hl), hr⟩, Option.map_some, hr]
  rw [recordsFrom, linesFrom_bytes h.line, List.filter_eq_self.2 hends, List.map_filterMap,
    List.filterMap_congr hof, List.filterMap_some]

/-- The records without a place are the lines without one. -/
theorem Lined.map_toLine_pendingRecords (h : i.Lined) :
    (pendingRecords i.bytes).map Record.toLine =
      i.lines.filter fun line => slot? line.text == some unsorted := by
  rw [pendingRecords, ← h.map_toLine_recordsFrom, List.filter_map]
  congr 1
  refine List.filter_congr fun r hr => ?_
  obtain ⟨slot, hslot⟩ := Option.isSome_iff_exists.1 (slot?_isSome_of_defect? r.wellFormed)
  rw [Record.slot, Function.comp_apply, hslot]
  rfl

/-- **The records without a place are the last ones.** -/
theorem Formed.exists_front (h : i.Formed) : ∃ front,
    linesFrom Header.length i.bytes = front ++ (pendingRecords i.bytes).map Record.toLine ∧
      (pendingRecords i.bytes).length = i.unplaced := by
  obtain ⟨placed, tail, htexts, hplaced, htail, hlength⟩ := h.exists_suffix
  have hlines : i.lines = linesAt Header.length placed ++
      linesAt (Header.length + placed.flatten.length) tail := by
    rw [lines, htexts, linesAt_append]
  have hmem : ∀ {start : Nat} {texts : List Bytes} {line : Line}, line ∈ linesAt start texts →
      line.text ∈ texts := by
    intro start texts line hl
    rw [← map_text_linesAt start texts]
    exact List.mem_map_of_mem hl
  have hpending : (pendingRecords i.bytes).map Record.toLine =
      linesAt (Header.length + placed.flatten.length) tail := by
    rw [h.toLined.map_toLine_pendingRecords, hlines, List.filter_append, List.filter_eq_nil_iff.2,
      List.nil_append, List.filter_eq_self.2]
    · intro line hl
      rw [htail _ (hmem hl)]
      exact beq_self_eq_true _
    · intro line hl
      rw [beq_iff_eq]
      exact hplaced _ (hmem hl)
  refine ⟨linesAt Header.length placed, ?_, ?_⟩
  · rw [linesFrom_bytes h.line, hpending, hlines]
  · have hcount := congrArg List.length hpending
    have htexts := congrArg List.length
      (map_text_linesAt (Header.length + placed.flatten.length) tail)
    rw [List.length_map] at hcount htexts
    rw [hcount, htexts, hlength]

end Image

namespace Store

variable {store : Store} {limit : UInt32} {count : Nat}

/-- **The counters are exact, and the tail is short.**  Once the library alone has made a store, with
one resort limit for all clients, the append sequence counts the records that were ever appended.  The
other counter counts the records that no sort has placed; these are the last lines of the file, and at
most one more than the limit allows. -/
theorem counters_exact (h : Counted limit count store) (hlimit : limit < Header.freshSinceSort)
    (hopened : store.file.bytes ≠ []) :
    Header.counterAt? store.file.bytes Header.appendSeqAt = some (UInt32.ofNat count) ∧
      (∃ since, Header.counterAt? store.file.bytes Header.sinceSortAt = some since ∧
        since.toNat = (pendingRecords store.file.bytes).length) ∧
      (∃ front, linesFrom Header.length store.file.bytes =
        front ++ (pendingRecords store.file.bytes).map Record.toLine) ∧
      (pendingRecords store.file.bytes).length ≤ limit.toNat + 1 := by
  obtain ⟨-, mtime, rfl⟩ | ⟨i, htallied⟩ := h.exact hlimit
  · exact absurd rfl hopened
  · obtain ⟨front, hlines, hpending⟩ := htallied.tracks.formed.exists_front
    have hseq := i.counterAt?_bytes .appendSeq
    have hsince := i.counterAt?_bytes .sinceSort
    rw [← htallied.bytes] at hlines hpending hseq hsince
    rw [hpending]
    refine ⟨hseq.trans (congrArg some htallied.seq), ⟨_, hsince, htallied.counts⟩, ⟨front, hlines⟩,
      htallied.few⟩

/-- How many records a run appends. -/
def appended (store : Store) : List Turn → Nat
  | [] => 0
  | turn :: more => (store.appends turn).toNat + (store.serve turn).1.appended more

/-- A run of turns is a step after step. -/
theorem Counted.run (h : Counted limit count store) {turns : List Turn} (hsmall : store.Small turns)
    (hcommon : ∀ turn ∈ turns, ∀ config, turn.request = .opening config → config.resortLimit = limit) :
    Counted limit (count + store.appended turns) (store.run turns).1 := by
  induction turns generalizing store count with
  | nil => exact h
  | cons turn more ih =>
    obtain ⟨hfirst, hmore⟩ := hsmall
    rw [List.forall_mem_cons] at hcommon
    have hserved := ih (h.served hfirst turn hcommon.1) hmore hcommon.2
    rwa [Nat.add_assoc] at hserved

/-- One client appends two records, one more than its limit allows. -/
def twoAppends : List Turn :=
  [⟨1, 1, .opening { Config.ofPath Config.defaultPath with resortLimit := 1 }⟩,
    ⟨1, 1, .call (.write ⟨ascii ['k'], none, .transient⟩)⟩,
    ⟨1, 1, .call (.write ⟨ascii ['l'], none, .transient⟩)⟩]

/-- Both records are without a place then, and the limit is reached. -/
theorem counters_exact_of_two_appends :
    Counted 1 2 ((ofBytes [] 0).run twoAppends).1 ∧ (1 : UInt32) < Header.freshSinceSort ∧
      Header.counterAt? ((ofBytes [] 0).run twoAppends).1.file.bytes Header.appendSeqAt = some 2 ∧
      (pendingRecords ((ofBytes [] 0).run twoAppends).1.file.bytes).length = 2 ∧
      Header.counterAt? ((ofBytes [] 0).run twoAppends).1.file.bytes Header.sinceSortAt =
        some 2 := by
  have hcommon : ∀ turn ∈ twoAppends, ∀ config, turn.request = .opening config →
      config.resortLimit = 1 := by
    simp [twoAppends]
  have happended : (ofBytes [] 0).appended twoAppends = 2 := by decide +kernel
  have hcounted : Counted 1 2 ((ofBytes [] 0).run twoAppends).1 := by
    have hrun := (Counted.created 0).run (by decide +kernel) hcommon
    rwa [happended] at hrun
  obtain ⟨hseq, ⟨since, hsince, hcount⟩, -, -⟩ := counters_exact hcounted (by decide) (by decide +kernel)
  have hpending : (pendingRecords ((ofBytes [] 0).run twoAppends).1.file.bytes).length = 2 := by
    decide +kernel
  refine ⟨hcounted, by decide, hseq, hpending, ?_⟩
  rw [hsince]
  exact congrArg some (UInt32.toNat_inj.1 (hcount.trans hpending))

end Store

end RecordStore
