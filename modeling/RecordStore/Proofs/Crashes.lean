import Mathlib.Tactic.Common
import RecordStore.Proofs.Cuts
import RecordStore.Proofs.Made
import RecordStore.Proofs.Reopenings

/-!
# Crashes

A write may be cut off between any two of its writes to the file, and every handle may be gone after
that.  No other key loses its record, the key itself keeps the old record or has the new one, or
both, and an opener with the same limit finds a record of every key that has one.

* `Survives` — what a write of one key may leave in the file.
* `Store.FindsEvery` — lookups of all keys by one client.

Principal results: `Store.cut_off_write`; `Store.openFor_ofBytes` — an opener that is alone, on what
is left.
-/

set_option autoImplicit false

namespace RecordStore

/-! ## Looking up -/

/-- **A lookup that takes no lock**, by a handle that sees the whole file. -/
theorem Session.Follows.read_of_current {s : Session} {i : Image} (hs : s.Follows i)
    (hcur : s.handle.Current i) (key : Bytes) (part : Part) :
    (∃ (r : Record) (s' : Session), r.toLine ∈ i.live ∧ r.key = key ∧
      SessionM.read key part false s = .ok (.answered (part.of r)) s') ∨
    (∀ line ∈ i.live, keyOf line.text ≠ key) ∧
      ∃ s', SessionM.read key part false s = .ok (.answered part.missing) s' := by
  obtain ⟨s', looks, ⟨r, hlive, hkey, hread⟩ | ⟨hfound, hread⟩⟩ := hs.read_cases key part
  · exact Or.inl ⟨r, s', hlive, hkey, hread⟩
  · obtain ⟨hfollows, hle⟩ := hs.of_looks looks
    have hinside := hfollows.mapped.inside
    rw [hfollows.bytes] at hinside
    exact Or.inr ⟨hfollows.absent_of_current hfound
      (Nat.le_antisymm hinside (Nat.le_trans (Nat.le_of_eq hcur.symm) hle)), s', hread⟩

theorem map_key_bareRecords (data : Bytes) : (bareRecords data).map (fun line => keyOf line.text) =
    (liveRecordsFrom Header.length data).map Record.key := by
  rw [bareRecords, List.map_map]
  exact List.map_congr_left fun r _ => keyOf_clearSlot r.text

namespace Store

/-- Lookups by one client answer, for every key, a live record of it, or that there is none. -/
def FindsEvery (store : Store) (id : HolderId) : Prop := ∀ (now : Nat) (key : Bytes) (part : Part),
  (∃ r ∈ liveRecordsFrom Header.length store.file.bytes, r.key = key ∧
    (store.call now id (.read key part false)).2 = .answered (part.of r)) ∨
  (∀ r ∈ liveRecordsFrom Header.length store.file.bytes, r.key ≠ key) ∧
    (store.call now id (.read key part false)).2 = .answered part.missing

/-- **An opener that is alone** finds every key, if the slots are good or the header asks for a
sort. -/
theorem openFor_ofBytes {i : Image} (hi : i.Lined) (hlow : ∀ line ∈ i.lines, line.offset < UInt32.size)
    {config : Config} (hsearch : i.Formed ∨ config.resortLimit < i.header.sinceSort) (mtime : Int)
    (now : Nat) (id : HolderId) :
    ∃ reopened, (Store.ofBytes i.bytes mtime).openFor now id config = (reopened, .opened) ∧
      bareRecords reopened.file.bytes = bareRecords i.bytes ∧ reopened.FindsEvery id := by
  obtain ⟨locks, hopen⟩ := openFile_ofBytes now id config i.bytes mtime
  have htorn : SharedFile.Torn ⟨i.bytes, mtime, locks⟩ i [] := Or.inl (List.append_nil _).symm
  obtain ⟨file, handle, j, hfinish, hbytes, harrives, himage⟩ :=
    @finishOpen_enters now id config _ i [] hi.whole (by simp) htorn true
  rw [List.append_nil] at hbytes
  rw [hbytes] at harrives
  have hj : j.Formed ∧ bareAt Header.length j.texts = bareAt Header.length i.texts := by
    rcases himage with rfl | ⟨rfl, hrest⟩
    · exact ⟨hi.sort hlow rfl, bareAt_fillSlots hi.line _ _⟩
    · exact ⟨hsearch.resolve_right fun hoverdue => hrest ⟨rfl, hoverdue⟩, rfl⟩
  generalize hreopened : (Store.ofBytes i.bytes mtime).update id file (.idle handle) = reopened
  have hfile : reopened.file.bytes = j.bytes := by rw [← hreopened]; exact hbytes
  have hclient : reopened.client? id = some (.idle handle) := by
    rw [← hreopened, client?_update_self]
  refine ⟨reopened, ?_, ?_, ?_⟩
  · show (Store.ofBytes i.bytes mtime).settleOpen id config
      (openFile now id config (.ofBytes i.bytes mtime)) = _
    rw [hopen, hfinish, ← hreopened]
    rfl
  · rw [hfile, hj.1.bareRecords_bytes, hj.2, hi.bareRecords_bytes]
  · intro now' key part
    have hfollows : (reopened.session now' id handle).Follows j := ⟨hfile, harrives.tracks, hj.1⟩
    have hcall : reopened.call now' id (.read key part false) = reopened.settleCall id
        (SessionM.read key part false (reopened.session now' id handle)) := by
      simp only [Store.call, hclient]
      rfl
    have hmem : ∀ r : Record, r ∈ liveRecordsFrom Header.length reopened.file.bytes ↔
        r.toLine ∈ j.live := by
      intro r
      rw [hfile, Image.mem_liveRecordsFrom_bytes hj.1.line]
    rw [hcall]
    rcases hfollows.read_of_current harrives.view key part with
      ⟨r, s', hlive, hkey, hresult⟩ | ⟨hnone, s', hresult⟩
    · exact Or.inl ⟨r, (hmem r).2 hlive, hkey, by rw [hresult]; rfl⟩
    · exact Or.inr ⟨fun r hr => hnone _ ((hmem r).1 hr), by rw [hresult]; rfl⟩

end Store

/-! ## What is left of a file -/

/-- What a write of `key` may leave in a file with these bytes: the records of other keys as they
were, apart from their slots; a record of the key if it had one; and none but with the fields before
or after the write. -/
structure Survives (key : Bytes) (field : Option Field) (before cut : Bytes) : Prop where
  others : ((bareRecords cut).filter fun line => keyOf line.text ≠ key) =
    (bareRecords before).filter fun line => keyOf line.text ≠ key
  kept : Contents.ofBytes before Header.length key ≠ none →
    ∃ r ∈ liveRecordsFrom Header.length cut, r.key = key
  own : ∀ r ∈ liveRecordsFrom Header.length cut, r.key = key →
    Contents.ofBytes before Header.length key = some r.fields ∨
      (Contents.ofBytes before Header.length).write key field key = some r.fields

theorem Image.Remains.survives {i j : Image} {key : Bytes} {field : Option Field} {limit : UInt32}
    (h : i.Remains key field limit j) (hi : i.Lined)
    (hdistinct : (i.versions.map Version.key).Nodup) : Survives key field i.bytes j.bytes := by
  have hrecord : ∀ v : Version, v ∈ j.versions ↔
      ∃ r ∈ liveRecordsFrom Header.length j.bytes, r.version = v := by
    intro v
    rw [← h.lined.map_version_liveRecordsFrom, List.mem_map]
  refine ⟨?_, ?_, ?_⟩
  · rw [h.lined.bareRecords_bytes, hi.bareRecords_bytes]
    exact h.others
  · intro hsome
    rw [hi.ofBytes_eq] at hsome
    obtain ⟨fields, hfields⟩ := Option.ne_none_iff_exists'.1 hsome
    obtain ⟨v, hv, hkey, -⟩ := (Image.contents_eq_some_iff hdistinct).1 hfields
    obtain ⟨w, hw, hkey'⟩ := h.kept ⟨v, hv, hkey⟩
    obtain ⟨r, hr, rfl⟩ := (hrecord w).1 hw
    exact ⟨r, hr, hkey'⟩
  · intro r hr hkey
    rw [hi.ofBytes_eq]
    rcases h.written r.version ((hrecord _).2 ⟨r, hr, rfl⟩) with hold | ⟨-, hnew⟩
    · exact Or.inl ((Image.contents_eq_some_iff hdistinct).2 ⟨_, hold, hkey, rfl⟩)
    · exact Or.inr hnew

namespace Store

/-- **A write that is cut off.**  The file was made by the library alone, so each key has one record
at most.  Wherever the write is cut off, it leaves the records of other keys as they were and its key
with the old record or the new one; and whoever opens the file then, alone and with the same limit,
finds every key that has a record. -/
theorem cut_off_write {store : Store} (hmade : store.Made)
    (hsmall : store.file.bytes.length < UInt32.size) {turn : Turn} {request : WriteRequest}
    (hrunning : store.running? turn = some (.write request)) :
    (store.versions.map Version.key).Nodup ∧
    (store.serve turn).1.file.bytes = Patch.applyAll (store.journal turn) store.file.bytes ∧
    Patch.Cuts (fun cut => Survives request.key request.field store.file.bytes cut ∧
      ∀ writer config : Config, store.config? turn.holder = some writer →
        config.resortLimit = writer.resortLimit → ∀ (mtime : Int) (now : Nat) (id : HolderId),
          ∃ reopened, (Store.ofBytes cut mtime).openFor now id config = (reopened, .opened) ∧
            bareRecords reopened.file.bytes = bareRecords cut ∧ reopened.FindsEvery id)
      (store.journal turn) store.file.bytes := by
  obtain ⟨i, htracks, hdistinct⟩ := hmade.tracks
  obtain ⟨handle, pending, hruns, hserve⟩ := store.runs_of_running hrunning
  obtain ⟨hpending, hfollows, hawaits⟩ := htracks.follows hruns
  have hsmall' := htracks.small hsmall
  have hran := (Call.stretch_ran hfollows.mapped (hfollows.lockable hsmall') hpending).wrote
  obtain ⟨patches, hpatches, hbytes, hcuts⟩ :=
    hran.cuts hfollows hsmall' hdistinct
      (fun _ _ => Call.requestFault?_of_answered hpending) (hawaits _ rfl)
  have hall : store.journal turn = patches := hruns.journal.trans hpatches
  rw [hall]
  refine ⟨htracks.versions_eq ▸ hdistinct, ?_, fun n => ?_⟩
  · rw [hserve, settleCall_file]
    exact hbytes
  · obtain ⟨j, hj, hremains⟩ := hcuts n
    have hfile : store.file.bytes = i.bytes := hfollows.bytes
    have hcut : j.bytes = Patch.applyAll (patches.take n) store.file.bytes := hj
    rw [← hcut]
    refine ⟨hfile ▸ hremains.survives htracks.formed.toLined hdistinct, ?_⟩
    intro writer config hwriter hlimit mtime now id
    rw [hruns.config, Option.some.injEq] at hwriter
    refine openFor_ofBytes hremains.lined hremains.low ?_ mtime now id
    rw [hlimit, ← hwriter]
    exact hremains.searchable

/-- An opener that sorts before every append. -/
def eager : Config := { Config.ofPath Config.defaultPath with resortLimit := 0 }

/-- A value of the field `f` of the key `k`. -/
def assign (value : List Char) : WriteRequest :=
  ⟨ascii ['k'], some ⟨ascii ['f'], ascii value⟩, .transient⟩

/-- A store with one record, made by one client. -/
def oneRecord : Store :=
  ((Store.ofBytes [] 100).run [⟨100, 1, .opening eager⟩, ⟨100, 1, .call (.write (assign ['1']))⟩]).1

/-- A write that sorts, appends and buries the old record. -/
def lengthen : Turn := ⟨100, 1, .call (.write (assign ['2', '2']))⟩

/-- What the write leaves if it is cut off before its last write to the file. -/
def unburied : Bytes := Patch.applyAll ((oneRecord.journal lengthen).take 6) oneRecord.file.bytes

/-- The key lives twice then, and is found. -/
theorem cut_off_write_of_longer_value : (oneRecord.journal lengthen).length = 7 ∧
    (bareRecords unburied).map (fun line => keyOf line.text) = [ascii ['k'], ascii ['k']] ∧
    ∃ (reopened : Store) (r : Record),
      (Store.ofBytes unburied 100).openFor 100 2 eager = (reopened, .opened) ∧ r.key = ascii ['k'] ∧
        (reopened.call 100 2 (.read (ascii ['k']) .record false)).2 =
          .answered (.record (some r)) := by
  have hkeys : (bareRecords unburied).map (fun line => keyOf line.text) =
      [ascii ['k'], ascii ['k']] := by decide +kernel
  have hmade : oneRecord.Made :=
    .served (.served (.created 100) (by decide +kernel) ⟨100, 1, .opening eager⟩) (by decide +kernel)
      ⟨100, 1, .call (.write (assign ['1']))⟩
  have hrunning : oneRecord.running? lengthen = some (.write (assign ['2', '2'])) := by
    decide +kernel
  obtain ⟨-, -, hcuts⟩ := cut_off_write hmade (by decide +kernel) hrunning
  obtain ⟨-, hreopens⟩ := hcuts 6
  obtain ⟨reopened, hopened, hbare, hfinds⟩ := hreopens eager eager (by decide +kernel) rfl 100 100 2
  refine ⟨by decide +kernel, hkeys, reopened, ?_⟩
  rcases hfinds 100 (ascii ['k']) .record with ⟨r, -, hkey, hanswer⟩ | ⟨hnone, -⟩
  · exact ⟨r, hopened, hkey, hanswer⟩
  · have hlive := map_key_bareRecords reopened.file.bytes
    rw [hbare] at hlive
    have hlist := hkeys.symm.trans hlive
    obtain ⟨r, hr, hkey⟩ := List.mem_map.1 (hlist ▸ List.mem_cons_self)
    exact absurd hkey (hnone r hr)

end Store

end RecordStore
