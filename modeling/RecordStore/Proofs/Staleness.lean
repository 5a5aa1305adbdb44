import Mathlib.Tactic.Common
import RecordStore.Proofs.Crashes
import RecordStore.Proofs.Presence
import RecordStore.Proofs.Sorting

/-!
# When an opener sorts

An opener sorts if it is the first one there and the file is stale: it was changed over a second after
its stamp, by a clock of 32-bit seconds, or more was appended since the last sort than its limit
allows.  Behind that sort a search alone finds every key, whatever somebody wrote behind the header.

* `Header.Stale` — the file was changed after its stamp, or a sort is overdue.
* `Store.opener?` — a client opens the store in this turn.

Principal results: `needsSort_iff` — the decision; `search_resorted` — lookups behind a sort;
`Store.opener_decides` — every opening of a file with a header, behind every history.
-/

set_option autoImplicit false

namespace RecordStore

/-! ## The decision -/

/-- More was appended since the last sort than the limit allows, or the file was changed two seconds or
more after its stamp, and not half the range of the clock or more before it. -/
def Header.Stale (header : Header) (mtime : Int) (limit : UInt32) : Prop :=
  limit < header.sinceSort ∨
    (2 ≤ (seconds32 mtime - header.modified).toNat ∧
      (seconds32 mtime - header.modified).toNat ≤ 0x80000000)

/-- **The clock is read modulo its range**: the stamp is over a second behind just where going on from
it by two seconds to half the range leads to the time of the change. -/
theorem drift_lt_iff (header : Header) (mtime : Int) : drift header mtime < -1 ↔
    2 ≤ (seconds32 mtime - header.modified).toNat ∧
      (seconds32 mtime - header.modified).toNat ≤ 0x80000000 := by
  have hstamp := header.modified.toNat_lt
  have hchange := (seconds32 mtime).toNat_lt
  rw [drift, UInt32.toNat_sub, Int.bmod_def]
  simp only [UInt32.size]
  split <;> omega

theorem needsSort_iff (header : Header) (mtime : Int) (limit : UInt32) :
    needsSort header mtime limit = true ↔ header.Stale mtime limit := by
  rw [needsSort, Bool.or_eq_true, decide_eq_true_iff, decide_eq_true_iff, drift_lt_iff, Or.comm]
  rfl

/-! ## Lookups behind a sort -/

section Resorted

variable {bytes : Bytes}

/-- A sort leaves the header line where it is. -/
theorem HeaderLine.resorted (h : HeaderLine bytes) (now : Nat) :
    HeaderLine (RecordStore.resorted now bytes) := h.applyAll (tame_sort bytes now)

/-- A sort changes no live record but in its slot. -/
theorem bareRecords_resorted (hlen : Header.length ≤ bytes.length) (now : Nat) :
    bareRecords (resorted now bytes) = bareRecords bytes := by
  obtain ⟨head, texts, rest, hhead, hlines, hopen, rfl⟩ := exists_cut hlen
  have hhead' := (length_sortedHead now (Nat.le_of_eq hhead.symm)).trans hhead
  rw [resorted_cut now hhead hlines hopen, bareRecords_append hhead' (isLine_sortedTexts hlines),
    bareRecords_append hhead hlines, length_flatten_sortedTexts, sortedTexts,
    bareAt_fillSlots hlines]

/-- The keys of the live records are the same behind a sort. -/
theorem key_resorted_iff (hlen : Header.length ≤ bytes.length) (now : Nat) {key : Bytes} :
    (∃ r ∈ liveRecordsFrom Header.length (resorted now bytes), r.key = key) ↔
      ∃ r ∈ liveRecordsFrom Header.length bytes, r.key = key := by
  have hkeys := congrArg (List.map fun line => keyOf line.text) (bareRecords_resorted hlen now)
  rw [map_key_bareRecords, map_key_bareRecords] at hkeys
  rw [← List.mem_map (f := Record.key), ← List.mem_map (f := Record.key), hkeys]

/-- **Behind a sort, a search alone finds a live record of every key that has one**, and of no other. -/
theorem search_resorted (hline : HeaderLine bytes) (hsmall : bytes.length < UInt32.size) (now : Nat)
    (key : Bytes) : (∃ r ∈ liveRecordsFrom Header.length bytes, r.key = key) ↔
      ∃ r ∈ liveRecordsFrom Header.length (resorted now bytes), r.key = key ∧
        Index.search (resorted now bytes) Header.length key = some r.span := by
  have hnewline := (hline.resorted now).newline
  rw [← key_resorted_iff hline.length_le now]
  refine ⟨?_, fun ⟨r, hr, hkey, _⟩ => ⟨r, hr, hkey⟩⟩
  rintro ⟨r, hr, rfl⟩
  have hsome : (Index.search (resorted now bytes) Header.length r.key).isSome = true := by
    obtain ⟨head, texts, rest, hhead, hlines, hopen, rfl⟩ := exists_cut hline.length_le
    have hhead' := (length_sortedHead now (Nat.le_of_eq hhead.symm)).trans hhead
    have hlines' := isLine_sortedTexts hlines
    have hcut := resorted_cut now hhead hlines hopen
    have hlt : Header.length + texts.flatten.length ≤ UInt32.size := by
      rw [List.length_append, List.length_append, hhead] at hsmall
      omega
    -- what stands behind the last newline is no record
    have hrest : ∀ text ∈ lines rest, newline ∉ text := by
      intro text ht hm
      rw [← flatten_lines rest] at hopen
      exact hopen (List.mem_flatten.2 ⟨text, ht, hm⟩)
    have hlinesCut : lines ((resorted now (head ++ (texts.flatten ++ rest))).drop Header.length) =
        sortedTexts texts ++ lines rest := by
      rw [hcut, ← hhead', List.drop_left, lines_flatten_append hlines']
    refine Index.search_isSome (by decide) hnewline hlinesCut
      (Index.routed_fillSlots_of_offsets hlines fun _ hl => offset_lt_of_linesAt hlines hlt hl)
      (fun text ht => .inl (Index.hasSlot_of_notMem (hrest text ht))) hr ?_
    obtain ⟨hfrom, hend, -⟩ := mem_liveRecordsFrom_iff.1 hr
    rw [hcut, linesFrom_cut hhead' hlines'] at hfrom
    refine (List.mem_append.1 hfrom).resolve_right fun hlate => ?_
    have htext : r.text ∈ lines rest := by
      rw [← map_text_linesAt (Header.length + (sortedTexts texts).flatten.length) (lines rest)]
      exact List.mem_map_of_mem hlate
    exact hrest _ htext (newline_mem_of_endsLine hend)
  obtain ⟨span, hspan⟩ := Option.isSome_iff_exists.1 hsome
  have hfound := hspan
  unfold Index.search at hfound
  split at hfound
  · cases hfound
  · obtain ⟨r', hr', hkey', rfl⟩ := Index.searchRegion_sound hnewline hfound
    exact ⟨r', hr', hkey', hspan⟩

end Resorted

/-! ## Openings -/

/-- How an opener leaves the file that it has found with a header: sorted if it is the first one and the
file is stale, and as it was if not. -/
inductive Leaves (now : Nat) (limit : UInt32) (header : Header) (first : Bool) (mtime : Int)
    (bytes : Bytes) : Handle → Bytes → Prop where
  | sorted {handle : Handle} (alone : first = true) (stale : header.Stale mtime limit)
    (modified : handle.modified = true) :
    Leaves now limit header first mtime bytes handle (resorted now bytes)
  | untouched {handle : Handle} (rests : ¬ (first = true ∧ header.Stale mtime limit))
    (modified : handle.modified = false) :
    Leaves now limit header first mtime bytes handle bytes

section Leaves

variable {now : Nat} {limit : UInt32} {header : Header} {first : Bool} {mtime : Int}
  {bytes after : Bytes} {handle : Handle}

theorem Leaves.eq_resorted (h : Leaves now limit header first mtime bytes handle after)
    (halone : first = true) (hstale : header.Stale mtime limit) : after = resorted now bytes := by
  cases h with
  | sorted => rfl
  | untouched rests => exact absurd ⟨halone, hstale⟩ rests

theorem Leaves.eq_self (h : Leaves now limit header first mtime bytes handle after)
    (hrests : ¬ (first = true ∧ header.Stale mtime limit)) : after = bytes := by
  cases h with
  | sorted alone stale => exact absurd ⟨alone, stale⟩ hrests
  | untouched => rfl

end Leaves

/-- **An opener that has its share** of a file with a header gets its handle. -/
theorem finishOpen_leaves {now : Nat} {holder : HolderId} {config : Config} {file : SharedFile}
    {header : Header} (hline : HeaderLine file.bytes)
    (hheader : Header.decode? file.bytes = some header) (first : Bool) :
    ∃ file' handle, finishOpen now holder config first file = (file', .opened handle) ∧
      Leaves now config.resortLimit header first file.mtime file.bytes handle file'.bytes := by
  have hmake : makeHandle config file.bytes false = some (header,
      ⟨config, Header.length, header.appendSeq, .ofBytes file.bytes, none, false⟩) :=
    makeHandle_eq_some_iff.2 ⟨hheader, _, hline, rfl⟩
  have hwhole : file.bytes.isEmpty = false := by simpa using hline.ne_nil
  unfold finishOpen
  dsimp only
  rw [hwhole, if_neg Bool.false_ne_true, hmake]
  dsimp only
  by_cases hsorts : (first && needsSort header file.mtime config.resortLimit) = true
  · rw [if_pos hsorts]
    rw [Bool.and_eq_true, needsSort_iff] at hsorts
    have hcovers : (⟨now, holder, ⟨config, Header.length, header.appendSeq, .ofBytes file.bytes, none,
        false⟩, file, []⟩ : Session).Covers := ⟨rfl, hline.length_le, Nat.le_refl _⟩
    refine ⟨_, _, rfl, ?_⟩
    show Leaves _ _ _ _ _ _ _ (Session.sort _).file.bytes
    rw [hcovers.sort_bytes]
    exact .sorted hsorts.1 hsorts.2 rfl
  · rw [if_neg hsorts]
    rw [Bool.and_eq_true, needsSort_iff] at hsorts
    exact ⟨_, _, rfl, .untouched hsorts rfl⟩

namespace Store

/-- The configuration with which a client opens the store in this turn, if it does. -/
def opener? (store : Store) (turn : Turn) : Option Config :=
  match turn.request, store.client? turn.holder with
  | .opening config, none => some config
  | .resume, some (.opening config _) => some config
  | _, _ => none

variable {store : Store} {turn : Turn} {config : Config}

/-- A client that opens the store is not there yet, and starts from the beginning. -/
theorem Manned.serve_of_opener (h : store.Manned) (hopener : store.opener? turn = some config) :
    ¬ store.Present turn.holder ∧ store.serve turn =
      store.settleOpen turn.holder config (openFile turn.now turn.holder config store.file) := by
  unfold opener? at hopener
  obtain ⟨now, id, request⟩ := turn
  split at hopener
  · next config' hrequest hclient =>
    dsimp only at hrequest hclient
    subst hrequest
    obtain rfl := Option.some.inj hopener
    refine ⟨not_present_of_none hclient, ?_⟩
    simp only [Store.serve, openFor, hclient]
  · next config' stage hrequest hclient =>
    dsimp only at hrequest hclient
    subst hrequest
    obtain rfl := Option.some.inj hopener
    obtain rfl : stage = .structural := h.behind _ _ hclient
    refine ⟨not_present_of_opening hclient, ?_⟩
    simp only [Store.serve, Store.resume, hclient]
    rfl
  · cases hopener

/-- **Every opening of a file with a header**, behind every history in which no client locks or unlocks
any of its first four bytes: the opener waits for the structural lock and leaves the file as it is, or
it gets its handle.  It is taken for the first one just where no other client has the store open, and
sorts just where it is the first one and the file is stale.  If it does, no append counts since the
sort, and a search alone finds just the keys that have a complete live record; if not, no byte changes. -/
theorem opener_decides {header : Header} (hattended : store.Attended)
    (hopener : store.opener? turn = some config) (hsmall : store.file.bytes.length < UInt32.size)
    (hline : HeaderLine store.file.bytes)
    (hheader : Header.decode? store.file.bytes = some header) :
    (store.file.locks.blocks turn.holder structuralOffset .exclusive = true ∧
      (store.serve turn).2 = .waiting ∧ (store.serve turn).1.file = store.file) ∨
    ∃ first locks handle,
      (first = true ↔ ∀ other, ¬ store.Present other) ∧
      store.serve turn = store.settleOpen turn.holder config
        (finishOpen turn.now turn.holder config first { store.file with locks }) ∧
      (store.serve turn).2 = .opened ∧
      (store.serve turn).1.client? turn.holder = some (.idle handle) ∧
      Leaves turn.now config.resortLimit header first store.file.mtime store.file.bytes handle
        (store.serve turn).1.file.bytes ∧
      (first = true → header.Stale store.file.mtime config.resortLimit →
        Header.counterAt? (store.serve turn).1.file.bytes Header.sinceSortAt = some 0 ∧
        ∀ key, (∃ r ∈ liveRecordsFrom Header.length store.file.bytes, r.key = key) ↔
          ∃ r ∈ liveRecordsFrom Header.length (store.serve turn).1.file.bytes, r.key = key ∧
            Index.search (store.serve turn).1.file.bytes Header.length key = some r.span) := by
  have hmanned := hattended.manned
  obtain ⟨habsent, hserve⟩ := hmanned.serve_of_opener hopener
  rcases openFile_decides (fun lock hl => (hmanned.shared lock hl).1) (hmanned.holder_ne habsent) with
    ⟨hblocks, hopen⟩ | ⟨first, locks, hlearns, hopen⟩
  · left
    rw [hserve, hopen]
    exact ⟨hblocks, rfl, rfl⟩
  right
  rw [hopen] at hserve
  obtain ⟨file', handle, hfinish, hleaves⟩ := @finishOpen_leaves turn.now turn.holder config
    { store.file with locks } header hline hheader first
  refine ⟨first, locks, handle, hlearns.first_iff.trans hmanned.presence_eq_nil_iff, hserve, ?_⟩
  rw [hserve, hfinish]
  refine ⟨rfl, client?_update_self _ _ _ _, hleaves, fun hfirst hstale => ?_⟩
  show Header.counterAt? file'.bytes _ = _ ∧ ∀ key, _ ↔ ∃ r ∈ liveRecordsFrom _ file'.bytes, _ ∧
    Index.search file'.bytes _ _ = _
  rw [hleaves.eq_resorted hfirst hstale]
  exact ⟨(resorted_spec hline.length_le hsmall turn.now).sinceSort,
    search_resorted hline hsmall turn.now⟩

/-- A record of `k` that no sort has placed, and a line that is none; the stamp is that of the 100th
second. -/
def typed : Bytes :=
  { Header.fresh with appendSeq := 1, modified := 100, sinceSort := 1 }.encode
    ++ encodeRecord (ascii ['k']) [⟨ascii ['f'], ascii ['1']⟩] ++ ascii ['x', '\n']

/-- One client has the store open, and has locked its structure for a while. -/
def inUse : Store :=
  ((ofBytes [] 100).run [⟨100, 1, .opening (.ofPath Config.defaultPath)⟩,
    ⟨100, 1, .call (.lock structuralOffset)⟩, ⟨100, 1, .call (.unlock structuralOffset)⟩]).1

/-- It has gone. -/
def abandoned : Store := (inUse.run [⟨100, 1, .close⟩]).1

/-- Another client opens the store. -/
def arriving : Turn := ⟨200, 2, .opening (.ofPath Config.defaultPath)⟩

/-- Two seconds after the stamp a first opener sorts; one second after it, or while another client is
there, an opener leaves the file as it is. -/
theorem opener_decides_of_typed_record :
    (((abandoned.edit typed 102).serve arriving).2 = .opened ∧
      Header.counterAt? ((abandoned.edit typed 102).serve arriving).1.file.bytes
        Header.sinceSortAt = some 0 ∧
      ∃ r ∈ liveRecordsFrom Header.length ((abandoned.edit typed 102).serve arriving).1.file.bytes,
        r.key = ascii ['k'] ∧
        Index.search ((abandoned.edit typed 102).serve arriving).1.file.bytes Header.length
          (ascii ['k']) = some r.span) ∧
    ((abandoned.edit typed 101).serve arriving).1.file.bytes = typed ∧
    ((inUse.edit typed 102).serve arriving).1.file.bytes = typed := by
  have hline : HeaderLine typed := by
    show headLength? typed = some Header.length
    decide +kernel
  have hheader : Header.decode? typed =
      some { Header.fresh with appendSeq := 1, modified := 100, sinceSort := 1 } := by decide +kernel
  have hinUse : inUse.Attended := (Attended.start (.inr rfl) 100).run (by decide)
  have habandoned : abandoned.Attended := hinUse.run (by decide)
  have hgone : ∀ mtime other, ¬ (abandoned.edit typed mtime).Present other := by
    intro mtime other
    have hclients : abandoned.clients = [] := by decide +kernel
    refine not_present_of_none ?_
    show abandoned.clients.lookup other = none
    rw [hclients]
    rfl
  have hstays : (inUse.edit typed 102).Present 1 := by
    have hclient : inUse.client? 1 =
        some (.idle ⟨.ofPath Config.defaultPath, Header.length, 0, ⟨35, 0⟩, none, true⟩) := by
      decide +kernel
    exact ⟨_, .inl hclient⟩
  refine ⟨?_, ?_, ?_⟩
  · rcases opener_decides (habandoned.edited hline 102) (by decide +kernel : (abandoned.edit typed
      102).opener? arriving = some (.ofPath Config.defaultPath)) (by decide +kernel) hline hheader with
      ⟨hblocks, -⟩ | ⟨first, locks, handle, hfirst, -, hopened, -, -, hsorted⟩
    · exact absurd hblocks (by decide +kernel)
    · obtain ⟨hcount, hfinds⟩ := hsorted (hfirst.2 (hgone 102))
        ((needsSort_iff _ _ _).1 (by decide +kernel))
      exact ⟨hopened, hcount, (hfinds _).1 (by decide +kernel)⟩
  · rcases opener_decides (habandoned.edited hline 101) (by decide +kernel : (abandoned.edit typed
      101).opener? arriving = some (.ofPath Config.defaultPath)) (by decide +kernel) hline hheader with
      ⟨-, -, hfile⟩ | ⟨first, locks, handle, -, -, -, -, hleaves, -⟩
    · exact congrArg SharedFile.bytes hfile
    · refine hleaves.eq_self fun hsorts => ?_
      have hneeds := (needsSort_iff _ _ _).2 hsorts.2
      exact absurd hneeds (by decide +kernel)
  · rcases opener_decides (hinUse.edited hline 102) (by decide +kernel : (inUse.edit typed
      102).opener? arriving = some (.ofPath Config.defaultPath)) (by decide +kernel) hline hheader with
      ⟨-, -, hfile⟩ | ⟨first, locks, handle, hfirst, -, -, -, hleaves, -⟩
    · exact congrArg SharedFile.bytes hfile
    · exact hleaves.eq_self fun hsorts => hfirst.1 hsorts.1 1 hstays

end Store

end RecordStore
