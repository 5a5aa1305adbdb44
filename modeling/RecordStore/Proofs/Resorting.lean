import Mathlib.Tactic.Common
import RecordStore.Proofs.Lasting
import RecordStore.Proofs.Reopenings

/-!
# Sorting again, and sorting alone

What a sort has placed, another sort leaves as it is.  So a client that has a store for itself, and
opens, sorts and closes it, leaves it sorted once, whether the opening had sorted it or not.

* `Index.Planned` — every slot is the one that a sort gives.

Principal results: `Image.Whole.sorted_sorted`; `Image.Whole.planned_sorted`; `Store.resorted_alone` —
what the client comes to.
-/

set_option autoImplicit false

namespace RecordStore

/-! ## Sorting again -/

namespace Index

/-- Every slot is the one that a sort gives: in file order, the slots name the lines in the order of
their keys. -/
def Planned (data : Bytes) (headLen : Nat) : Prop :=
  (slotted data headLen).map (fun line => (slot? line.text).map UInt32.toNat) =
    (sorted data headLen).map fun line => some line.offset

instance (data : Bytes) (headLen : Nat) : Decidable (Planned data headLen) :=
  inferInstanceAs (Decidable (_ = _))

theorem withSlot_eq {text : Bytes} (h : keyAt < text.length) (v : UInt32) :
    withSlot text v = text.take slotAt ++ Hex.word v ++ text.drop (slotAt + Hex.wordLen) := by
  rw [withSlot, Patch.apply_of_fits (fits_slot v h), Hex.length_word]

theorem withSlot_withSlot {text : Bytes} (h : keyAt < text.length) (v w : UInt32) :
    withSlot (withSlot text v) w = withSlot text w := by
  have hlt : keyAt < (withSlot text v).length := by rwa [length_withSlot v h]
  have htake : (withSlot text v).take slotAt = text.take slotAt :=
    Patch.take_apply (Nat.le_refl _) (Nat.le_trans (by decide) (Nat.le_of_lt h))
  rw [withSlot_eq hlt, htake, drop_withSlot v h (Nat.le_refl _), withSlot_eq h]

/-- The same slots again change nothing. -/
theorem fillSlots_fillSlots {texts : List Bytes} (hlines : ∀ text ∈ texts, IsLine text)
    (targets : List Nat) : fillSlots (fillSlots texts targets) targets = fillSlots texts targets := by
  induction texts generalizing targets with
  | nil => rfl
  | cons text more ih =>
    simp only [List.mem_cons, forall_eq_or_imp] at hlines
    by_cases h : hasSlot text = true
    · cases targets with
      | nil => simp only [fillSlots_nil]
      | cons target rest =>
        have hslot := hasSlot_withSlot hlines.1 h (UInt32.ofNat target)
        simp only [fillSlots, if_pos h, if_pos hslot, ih hlines.2,
          withSlot_withSlot (keyAt_lt_of_hasSlot h)]
    · simp only [fillSlots, if_neg h, ih hlines.2]

/-- The lines in the order of their keys, seen as places. -/
theorem map_place_byKey (lines : List Line) :
    (byKey lines).map (fun line => (line.offset, keyOf line.text)) =
      ((entries lines).map Entry.place).mergeSort fun a b => (compareKeys a.2 b.2).isLE := by
  rw [map_place_entries, byKey]
  exact List.map_mergeSort fun _ _ _ _ => rfl

theorem map_slot_entries (lines : List Line) :
    (lines.filter fun line => hasSlot line.text).map (fun line => (slot? line.text).map UInt32.toNat) =
      (entries lines).map fun entry => some entry.slot.toNat := by
  refine (map_entries lines fun line entry hof => ?_).symm
  obtain ⟨-, hslot, -, -⟩ := Entry.of?_eq_some_iff.1 hof
  rw [hslot, Option.map_some]

section Sorted

variable {texts : List Bytes} (hlines : ∀ text ∈ texts, IsLine text) {start : Nat}
  (hsmall : ∀ line ∈ linesAt start texts, line.offset < UInt32.size)

include hlines hsmall

/-- A sort leaves every line in its place and gives it the slot by the order of the keys. -/
theorem entries_sorted : (entries (linesAt start
        (fillSlots texts ((byKey (linesAt start texts)).map Line.offset)))).map Entry.place =
      (entries (linesAt start texts)).map Entry.place ∧
    (entries (linesAt start
        (fillSlots texts ((byKey (linesAt start texts)).map Line.offset)))).map
          (fun entry => entry.slot.toNat) = (byKey (linesAt start texts)).map Line.offset := by
  have hperm := List.mergeSort_perm ((linesAt start texts).filter fun line => hasSlot line.text)
    fun a b : Line => (compareKeys (keyOf a.text) (keyOf b.text)).isLE
  refine entries_fillSlots hlines start ?_ ?_
  · rw [List.length_map]
    exact hperm.length_eq
  · intro target ht
    obtain ⟨line, hline, rfl⟩ := List.mem_map.1 ht
    exact hsmall line (List.mem_filter.1 (hperm.mem_iff.1 hline)).1

/-- A sort leaves the order of the keys as it is. -/
theorem offsets_byKey_sorted : (byKey (linesAt start
      (fillSlots texts ((byKey (linesAt start texts)).map Line.offset)))).map Line.offset =
    (byKey (linesAt start texts)).map Line.offset := by
  have hoffsets : ∀ lines : List Line, (byKey lines).map Line.offset =
      ((byKey lines).map fun line => (line.offset, keyOf line.text)).map Prod.fst := fun lines => by
    rw [List.map_map]
    rfl
  rw [hoffsets, map_place_byKey, (entries_sorted hlines hsmall).1, ← map_place_byKey, ← hoffsets]

end Sorted

end Index

namespace Image

variable {i : Image} {fragment : Bytes}

/-- **Sorting again changes nothing.** -/
theorem Whole.sorted_sorted (h : i.Whole) (hsmall : i.bytes.length < UInt32.size) (now : Nat) :
    (i.sorted now).sorted now = i.sorted now := by
  have htargets : (Index.byKey (i.sorted now).lines).map Line.offset =
      (Index.byKey i.lines).map Line.offset :=
    Index.offsets_byKey_sorted h.line fun _ => offset_lt_of_small hsmall
  have htexts : (i.sorted now).sortTexts = i.sortTexts := by
    rw [sortTexts, htargets]
    exact Index.fillSlots_fillSlots h.line _
  rw [Image.sorted, htexts]
  rfl

/-- **After a sort every slot is as planned**, whatever stands behind the last line. -/
theorem Whole.planned_sorted (h : i.Whole) (hsmall : i.bytes.length < UInt32.size)
    (hf : newline ∉ fragment) (now : Nat) :
    Index.Planned ((i.sorted now).bytes ++ fragment) Header.length := by
  have hcut : (i.sorted now).bytes ++ fragment =
      (i.sorted now).header.encode ++ ((i.sorted now).texts.flatten ++ fragment) :=
    List.append_assoc ..
  have hslotted : Index.slotted ((i.sorted now).bytes ++ fragment) Header.length =
      (i.sorted now).lines.filter fun line => hasSlot line.text := by
    have hone := Index.slotted_append_fragment (h.sorted now).line hf (i.sorted now).header.encode
    rw [Header.length_encode] at hone
    rw [hcut, hone, lines]
  have hplan : (Index.entries (i.sorted now).lines).map (fun entry => entry.slot.toNat) =
      (Index.byKey (i.sorted now).lines).map Line.offset :=
    (Index.entries_sorted h.line fun _ => offset_lt_of_small hsmall).2.trans
      (Index.offsets_byKey_sorted h.line fun _ => offset_lt_of_small hsmall).symm
  have hsome := congrArg (List.map some) hplan
  rw [List.map_map, List.map_map] at hsome
  rw [Index.Planned, Index.sorted, hslotted, Index.map_slot_entries]
  exact hsome

end Image

/-! ## Sorting alone -/

namespace LockTable

variable {table : LockTable} {holder : HolderId}

theorem not_blocks_of_others (h : table.others holder = []) (offset : Nat) (kind : LockKind) :
    table.blocks holder offset kind = false := by
  rw [← blocks_others, h]
  rfl

theorem release_of_others (h : table.others holder = []) : table.release holder = .empty :=
  congrArg LockTable.mk h

end LockTable

theorem Handle.Arrives.mapped {h : Handle} {config : Config} {i : Image} {bytes : Bytes}
    (ha : h.Arrives config i bytes) (hlen : Header.length ≤ bytes.length) : h.Mapped bytes :=
  ⟨ha.headLen, ha.view ▸ hlen, Nat.le_of_eq ha.view⟩

section Alone

variable {i : Image} {fragment : Bytes} {now : Nat} {id : HolderId} {config : Config}

/-- **An opener that is alone** with a file that asks for a sort sorts it. -/
theorem openFile_alone (hi : i.Whole) (hf : newline ∉ fragment) {bytes : Bytes} {mtime : Int}
    (hfile : (SharedFile.ofBytes bytes mtime).Torn i fragment)
    (hasks : config.resortLimit < i.header.sinceSort) : ∃ file handle,
      openFile now id config (.ofBytes bytes mtime) = (file, .opened handle) ∧
        file.bytes = (i.sorted now).bytes ++ fragment ∧
        handle.Arrives config (i.sorted now) file.bytes ∧ file.locks.others id = [] := by
  obtain ⟨locks, hopen⟩ := openFile_ofBytes now id config bytes mtime
  obtain ⟨file, handle, j, hfinish, hbytes, harrives, hj⟩ :=
    @finishOpen_enters now id config ⟨bytes, mtime, locks⟩ i fragment hi hf hfile true
  obtain rfl : j = i.sorted now := by
    rcases hj with hj | ⟨-, hrest⟩
    · exact hj
    · exact absurd ⟨rfl, hasks⟩ hrest
  have hnone : (SharedFile.ofBytes bytes mtime).locks.Within id [] := by
    rintro lock ⟨⟩
  have hadmits := @openFile_admits now id config _ [] hnone
  rw [hopen, hfinish] at hadmits
  refine ⟨file, handle, hopen.trans hfinish, hbytes, harrives, ?_⟩
  cases hadmits with
  | opened keeps => exact keeps.others

/-- **A resort** by a client that is alone. -/
theorem Call.start_resort_alone {s : Session} (hi : i.Whole) (hf : newline ∉ fragment)
    (hbytes : s.file.bytes = i.bytes ++ fragment)
    (harrives : s.handle.Arrives config i s.file.bytes)
    (halone : s.file.locks.others s.holder = []) :
    ∃ s', Call.resort.start s = .ok (.answered .done) s' ∧
      s'.file.bytes = (i.sorted s.now).bytes ++ fragment ∧ s'.handle.modified = true ∧
      s'.file.locks.others s.holder = [] := by
  -- the session under the structural lock
  generalize hheld : s.hold structuralOffset = held
  have hfile : held.file.bytes = i.bytes ++ fragment := by rw [← hheld]; exact hbytes
  have hhandle : held.handle.Arrives config i held.file.bytes := by rw [← hheld]; exact harrives
  have hothers : held.file.locks.others s.holder = [] := by
    rw [← hheld]
    exact LockTable.others_set.trans halone
  have hholder : held.holder = s.holder := by rw [← hheld]; rfl
  have hnow : held.now = s.now := by rw [← hheld]; rfl
  have hlen : Header.length ≤ held.file.bytes.length := by
    rw [hfile, List.length_append, Image.length_bytes, Nat.add_assoc]
    exact Nat.le_add_right _ _
  -- nobody has appended since the client came
  have hseq : Header.counterAt? held.file.bytes Header.appendSeqAt = some held.handle.seenSeq := by
    rw [hfile, hhandle.seenSeq]
    have hread := Header.counterAt?_encode i.header .appendSeq (i.texts.flatten ++ fragment)
    rwa [← List.append_assoc] at hread
  have hrefresh : SessionM.refresh held = .ok false held := by
    unfold SessionM.refresh
    rw [SessionM.bind_ok (show SessionM.appendSeq held = _ from
      SessionM.counter_ok (hhandle.mapped hlen) .appendSeq hseq), SessionM.get_bind, if_pos rfl]
    rfl
  have hresort : SessionM.resort held = .ok () held.sort := by
    unfold SessionM.resort
    rw [SessionM.bind_ok hrefresh]
    rfl
  have htry := SessionM.tryLock_eq s SessionM.structural_lockFault?
  rw [if_neg (by rw [LockTable.not_blocks_of_others halone]; decide), hheld] at htry
  obtain ⟨hlocks, hsortHolder, hsorted⟩ := held.sort_frame
  have hsort := Session.sort_bytes_append hi hf hfile hhandle.headLen hhandle.view
  refine ⟨held.sort.free structuralOffset, ?_, ?_, ?_, ?_⟩
  · show (SessionM.tryLock structuralOffset .exclusive >>= fun granted =>
      if granted = true then SessionM.resortLocked else SessionM.wait .resorting) s = _
    rw [SessionM.bind_ok htry, if_pos rfl, SessionM.resortLocked,
      SessionM.bind_ok (SessionM.unlockingStructure_ok hresort)]
    rfl
  · rw [← hnow]
    exact hsort
  · show held.sort.handle.modified = true
    rw [hsorted]
  · show (held.sort.file.locks.clear held.sort.holder structuralOffset).others s.holder = []
    rw [hsortHolder, hholder, LockTable.others_clear, hlocks, hothers]

/-- **The end of a client** that is alone and has just sorted. -/
theorem closeFile_alone {file : SharedFile} {handle : Handle}
    (hbytes : file.bytes = (i.sorted now).bytes ++ fragment) (hmodified : handle.modified = true)
    (halone : file.locks.others id = []) :
    closeFile now id handle file = .ofBytes ((i.sorted now).bytes ++ fragment) now := by
  have hclosed := @closeFile_bytes_eq now id _ _ handle _ hbytes
  rw [show closedHeader now handle (i.sorted now).header = (i.sorted now).header from
    if_pos hmodified] at hclosed
  have hlocks := closeFile_locks now id handle file
  rw [LockTable.release_of_others halone] at hlocks
  have hmtime : (closeFile now id handle file).mtime = now := by
    rw [closeFile, closingPatch?, if_pos hmodified]
    rfl
  rw [SharedFile.ofBytes, SharedFile.mk.injEq]
  exact ⟨hclosed, hmtime, hlocks⟩

variable (now id config) in
/-- **A client that is alone** with a file that asks for a sort opens it, which sorts it, and sorts it
again. -/
theorem Store.resorted_alone (hi : i.Whole) (hf : newline ∉ fragment) {bytes : Bytes} {mtime : Int}
    (hfile : (SharedFile.ofBytes bytes mtime).Torn i fragment)
    (hasks : config.resortLimit < i.header.sinceSort) : ∃ opened sorted : Store,
      (Store.ofBytes bytes mtime).openFor now id config = (opened, .opened) ∧
        opened.call now id .resort = (sorted, .answered .done) ∧
        sorted.close now id = .ofBytes (((i.sorted now).sorted now).bytes ++ fragment) now := by
  obtain ⟨file, handle, hopen, hbytes, harrives, halone⟩ := openFile_alone hi hf hfile hasks
  generalize hopened : (Store.ofBytes bytes mtime).update id file (.idle handle) = opened
  have hclients : opened.clients = [(id, .idle handle)] := by rw [← hopened]; rfl
  have hopenedFile : opened.file = file := by rw [← hopened]; rfl
  have hclient : opened.client? id = some (.idle handle) := by
    rw [← hopened]
    exact client?_update_self _ _ _ _
  obtain ⟨s, hresort, hsorted, hmodified, hothers⟩ :=
    Call.start_resort_alone (s := opened.session now id handle) (hi.sorted now) hf
      (by rw [Store.session, hopenedFile]; exact hbytes)
      (by rw [Store.session, hopenedFile]; exact harrives)
      (by rw [Store.session, hopenedFile]; exact halone)
  rw [show (opened.session now id handle).now = now from rfl] at hsorted
  refine ⟨opened, opened.update id s.file (.idle s.handle), ?_, ?_, ?_⟩
  · rw [Store.openFor, ← hopened]
    exact congrArg (Store.settleOpen _ id config) hopen
  · rw [Store.call, hclient]
    exact congrArg (opened.settleCall id) hresort
  · have hclosed := closeFile_alone hsorted hmodified hothers
    have hnobody : opened.clients.filter (fun entry => entry.1 != id) = [] := by
      rw [hclients]
      simp
    rw [Store.close, client?_update_self]
    simp only [Store.update, Store.remove, Store.ofBytes, hnobody]
    rw [show closeFile now id s.handle s.file = _ from hclosed]
    simp

end Alone

end RecordStore
