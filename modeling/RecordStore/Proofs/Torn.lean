import Mathlib.Tactic.Common
import RecordStore.Proofs.Copies
import RecordStore.Proofs.Quiet
import RecordStore.Proofs.Sealing

/-!
# Stores whose file ends inside a line

What an append leaves that is cut off, as later openers find it.  No record is lost, and until one of
them writes, nothing changes but the slots and the header.  But lookups know the placed records only:
a record that was appended since the last sort is found by none of them, and a write of its key makes
another one beside it.

* `Client.Faces`, `Store.Faces` — clients, and a store, while the file still ends inside a line.

Principal results: `Store.Faces.serve` and `Store.Faces.run` — turns that write nothing keep it so;
`Store.unterminated_line` — what lookups answer then, and what the next write makes of the records.
-/

set_option autoImplicit false

namespace RecordStore

/-- What a client remembers stands in the file, placed.  Who is still opening it remembers nothing. -/
def Client.Faces (data : Bytes) : Client → Prop
  | .opening _ _ => True
  | .idle handle => handle.Faces data
  | .busy handle stage => handle.Faces data ∧ stage.Sane ∧
    ∀ key, stage.call.key? = some key → ∀ span, stage.span? = some span → PlacedAt data span key

theorem Client.Faces.rests {client : Client} {before after : Bytes} (h : client.Faces before)
    (hrests : Rests before after) : client.Faces after := by
  cases client with
  | opening config stage => trivial
  | idle handle => exact Handle.Faces.rests h hrests
  | busy handle stage =>
    obtain ⟨hfaces, hsane, hwaits⟩ := h
    exact ⟨hfaces.rests hrests, hsane,
      fun key hkey span hspan => hrests.placedAt (hwaits key hkey span hspan)⟩

/-- The store's file is whole lines and a fragment, and every client goes with it. -/
structure Store.Faces (store : Store) (i : Image) (fragment : Bytes) : Prop where
  bytes : store.file.bytes = i.bytes ++ fragment
  breaks : i.Breaks fragment
  clients : ∀ id client, store.client? id = some client → client.Faces (i.bytes ++ fragment)

theorem Handle.Arrives.faces {h : Handle} {config : Config} {i : Image} {bytes : Bytes}
    (ha : h.Arrives config i bytes) : h.Faces bytes :=
  ⟨ha.headLen, ha.view, by rw [ha.cache]; rintro entry ⟨⟩⟩

namespace Store

variable {store : Store} {i j : Image} {fragment : Bytes} {id : HolderId} {now : Nat} {turn : Turn}

/-! ## One turn -/

namespace Faces

/-- A file that nobody has opened yet. -/
theorem ofBytes (hi : i.Breaks fragment) (mtime : Int) :
    (Store.ofBytes (i.bytes ++ fragment) mtime).Faces i fragment where
  bytes := rfl
  breaks := hi
  clients := by
    intro id client h
    cases h

/-- A client's step keeps the others. -/
theorem update (h : store.Faces i fragment) {file : SharedFile} {client : Client}
    (hbytes : file.bytes = j.bytes ++ fragment) (hj : j.Breaks fragment)
    (hrests : Rests (i.bytes ++ fragment) (j.bytes ++ fragment))
    (hclient : client.Faces (j.bytes ++ fragment)) : (store.update id file client).Faces j fragment where
  bytes := hbytes
  breaks := hj
  clients := forall_client_update h.clients (fun _ hold => hold.rests hrests) id file hclient

theorem remove (h : store.Faces i fragment) {file : SharedFile}
    (hbytes : file.bytes = j.bytes ++ fragment) (hj : j.Breaks fragment)
    (hrests : Rests (i.bytes ++ fragment) (j.bytes ++ fragment)) :
    (({ store with file } : Store).remove id).Faces j fragment where
  bytes := hbytes
  breaks := hj
  clients := forall_client_remove h.clients (fun _ hold => hold.rests hrests) id file

/-- The session of a stretch works on the file, with what a waiting client remembers. -/
theorem session (h : store.Faces i fragment) {handle : Handle} {call : Call} {pending : Option Stage}
    (hruns : store.Runs turn handle call pending) : call.Pending pending ∧
      (store.session turn.now turn.holder handle).Faces i fragment ∧
      ∀ key, call.key? = some key → ∀ span, pending.bind Stage.span? = some span →
        PlacedAt (i.bytes ++ fragment) span key := by
  have hclient := h.clients _ _ hruns.client
  cases pending with
  | none =>
    exact ⟨by rintro stage ⟨⟩, ⟨h.bytes, hclient, h.breaks⟩, fun key _ => by rintro span ⟨⟩⟩
  | some stage =>
    obtain ⟨hfaces, hsane, hwaits⟩ := hclient
    obtain rfl := hruns.same stage rfl
    refine ⟨?_, ⟨h.bytes, hfaces, h.breaks⟩, hwaits⟩
    rintro _ ⟨⟩
    exact ⟨rfl, hsane⟩

/-- **The end of a stretch that wrote nothing.** -/
theorem settleCall (h : store.Faces i fragment) {s : Session} {call : Call} {waited : Option Span}
    {act : SessionM Progress} (hran : Ran s waited call (act s)) (hs : s.Faces i fragment)
    (hwaited : ∀ key, call.key? = some key → ∀ span, waited = some span →
      PlacedAt (i.bytes ++ fragment) span key)
    (hquiet : (SessionM.final act s).journal = s.journal) :
    (store.settleCall id (act s)).1.Faces i fragment := by
  have hfinal := hs.of_looks (hran.logs.looks hquiet)
  generalize hresult : act s = result at hran
  rcases result with ⟨(answer | stage), s'⟩ | ⟨e, s'⟩
  · rw [SessionM.final_ok hresult] at hfinal
    exact h.update hfinal.bytes h.breaks (.refl _) hfinal.handle
  · rw [SessionM.final_ok hresult] at hfinal
    have hwaits := hran.waits
    obtain rfl := hwaits.same
    refine h.update hfinal.bytes h.breaks (.refl _) ⟨hfinal.handle, hwaits.sane, ?_⟩
    intro key hkey span hspan
    rcases hwaits.span span hspan with hw | ⟨key', hkey', hfound⟩
    · exact hwaited key hkey span hw
    · obtain rfl := Option.some.inj (hkey.symm.trans hkey')
      exact hfinal.found hfound
  · rw [SessionM.final_error hresult] at hfinal
    exact h.update hfinal.bytes h.breaks (.refl _) hfinal.handle

/-- **The end of an opening**, whether or not it sorts. -/
theorem settleOpen (h : store.Faces i fragment) (hsmall : store.file.bytes.length < UInt32.size)
    {config : Config} {result : SharedFile × Opening}
    (henters : Enters now config store.file.bytes i fragment result) :
    ∃ j, (store.settleOpen id config result).1.Faces j fragment ∧
      Rests (i.bytes ++ fragment) (j.bytes ++ fragment) := by
  cases henters with
  | waiting bytes => exact ⟨i, h.update (bytes.trans h.bytes) h.breaks (.refl _) trivial, .refl _⟩
  | @opened file' handle j bytes arrives image =>
    have hsmall' : i.bytes.length < UInt32.size := by
      rw [h.bytes, List.length_append] at hsmall
      omega
    have hj : j.Breaks fragment ∧ Rests (i.bytes ++ fragment) (j.bytes ++ fragment) := by
      rcases image with rfl | rfl
      · exact ⟨h.breaks, .refl _⟩
      · obtain ⟨hordered, hrests⟩ :=
          h.breaks.ordered.rests_sorted h.breaks.newline_notMem hsmall' now
        exact ⟨⟨hordered, h.breaks.newline_notMem, h.breaks.ne_nil⟩, hrests⟩
    exact ⟨j, h.update bytes hj.1 hj.2 (bytes ▸ arrives.faces), hj.2⟩

/-- **One turn that writes nothing**, but for the slots and the stamp of openers and closers. -/
theorem serve (h : store.Faces i fragment) (hsmall : store.file.bytes.length < UInt32.size)
    (hquiet : store.journal turn = []) : ∃ j, (store.serve turn).1.Faces j fragment ∧
      Rests (i.bytes ++ fragment) (j.bytes ++ fragment) := by
  have hserved := store.serve_served turn
  generalize store.serve turn = result at hserved
  have hwhole := h.breaks.ordered.toWhole
  have hnew := h.breaks.newline_notMem
  cases hserved with
  | unavailable quiet => exact ⟨i, h, .refl _⟩
  | opening quiet => exact h.settleOpen hsmall (openFile_enters hwhole hnew (Or.inl h.bytes))
  | reopening quiet => exact h.settleOpen hsmall (resumeOpen_enters hwhole hnew (Or.inl h.bytes) _)
  | @closed handle quiet client =>
    obtain ⟨header, hversion, -, hclosed⟩ :=
      @closeFile_bytes_append turn.now turn.holder store.file i handle fragment h.bytes
    have hrests := i.rests_withHeader header fragment
    exact ⟨⟨header, i.texts⟩, h.remove hclosed
      ⟨h.breaks.ordered.withHeader hversion, hnew, h.breaks.ne_nil⟩ hrests, hrests⟩
  | ran runs =>
    obtain ⟨hpending, hs, hwaited⟩ := h.session runs
    exact ⟨i, h.settleCall (Call.stretch_ran hs.mapped (Session.lockable_of_small hsmall) hpending) hs
      hwaited (runs.journal.symm.trans hquiet), .refl _⟩

/-- **Turns that write nothing** leave the records as they were, and the fragment behind them. -/
theorem run (h : store.Faces i fragment) (hsmall : store.file.bytes.length < UInt32.size)
    {turns : List Turn} (hquiet : store.Always (fun s turn => s.journal turn = []) turns) :
    ∃ j, (store.run turns).1.Faces j fragment ∧
      Rests (i.bytes ++ fragment) (j.bytes ++ fragment) := by
  induction turns generalizing store i with
  | nil => exact ⟨i, h, .refl _⟩
  | cons turn more ih =>
    obtain ⟨hfirst, hmore⟩ := hquiet
    obtain ⟨j, hj, hij⟩ := h.serve hsmall hfirst
    have hsmall' : (store.serve turn).1.file.bytes.length < UInt32.size := by
      rw [hj.bytes, hij.length_eq, ← h.bytes]
      exact hsmall
    obtain ⟨k, hk, hjk⟩ := ih hj hsmall' hmore
    exact ⟨k, hk, hij.trans hjk⟩

/-! ## Lookups and writes -/

/-- **A lookup answers the placed records**, and always has an answer if it takes no lock. -/
theorem lookup (h : store.Faces i fragment) (hsmall : store.file.bytes.length < UInt32.size)
    (hdistinct : ((liveRecordsFrom Header.length store.file.bytes).map Record.key).Nodup)
    {key : Bytes} {part : Part} {keepLock : Bool}
    (hrunning : store.running? turn = some (.read key part keepLock)) :
    (keepLock = false → ∃ answer, (store.serve turn).2 = .answered answer) ∧
      ∀ answer, (store.serve turn).2 = .answered answer →
        answer = (placedRecord? store.file.bytes key).elim part.missing part.of := by
  obtain ⟨handle, pending, hruns, hserve⟩ := runs_of_running hrunning
  obtain ⟨hpending, hs, hwaited⟩ := h.session hruns
  rw [hserve]
  refine ⟨?_, ?_⟩
  · rintro rfl
    cases pending with
    | none =>
      obtain ⟨a, s', hread⟩ := hs.read_answered key part
      have hstart : (Call.read key part false).stretch none
          (store.session turn.now turn.holder handle) = .ok (.answered a) s' := hread
      exact ⟨a, by rw [hstart]; rfl⟩
    | some stage =>
      have hsame := hruns.same stage rfl
      cases stage <;> cases hsame
  · have hran := Call.stretch_ran hs.mapped (Session.lockable_of_small hsmall) hpending
    generalize (Call.read key part keepLock).stretch pending
      (store.session turn.now turn.holder handle) = result at hran
    intro answer hanswer
    rcases result with ⟨(a | stage), s'⟩ | ⟨e, s'⟩
    · obtain rfl := Outcome.answered.inj hanswer
      have hread : Read (store.session turn.now turn.holder handle) key part keepLock
          (pending.bind Stage.span?) (.ok (.answered a) s') := by
        cases hran with
        | read read => exact read
        | glance keyless glanced => cases keyless
      rw [h.bytes] at hdistinct ⊢
      exact hread.placed hs hdistinct (hwaited key rfl)
    · cases hanswer
    · cases hanswer

/-- **A write** sets the field in the placed record of its key, or makes a new record. -/
theorem write (h : store.Faces i fragment) (hsmall : store.file.bytes.length < UInt32.size)
    {key : Bytes} {field : Field} {mode : LockMode}
    (hfinishes : store.Finishes turn (.write ⟨key, some field, mode⟩)) :
    SessionM.requestFault? ⟨key, some field, mode⟩ = none ∧
      (((∃ span, PlacedAt store.file.bytes span key) ∧
          Rewrites key (some field) store.versions (store.serve turn).1.versions) ∨
        (∀ span, ¬ PlacedAt store.file.bytes span key) ∧ ∃ offset,
          (store.serve turn).1.versions = store.versions ++ [⟨offset, key, [field]⟩]) := by
  obtain ⟨hrunning, answer, hanswered⟩ := hfinishes
  obtain ⟨handle, pending, hruns, hserve⟩ := runs_of_running hrunning
  obtain ⟨hpending, hs, hwaited⟩ := h.session hruns
  have hran := (Call.stretch_ran hs.mapped (Session.lockable_of_small hsmall) hpending).wrote
  have hreq := @Call.requestFault?_of_answered ⟨key, some field, mode⟩ pending hpending
    (store.session turn.now turn.holder handle)
  rw [hserve] at hanswered ⊢
  generalize (Call.write ⟨key, some field, mode⟩).stretch pending
    (store.session turn.now turn.holder handle) = result at hran hreq hanswered ⊢
  rcases result with ⟨(a | stage), s'⟩ | ⟨e, s'⟩
  · obtain rfl : a = .done := by cases hran <;> rfl
    have hfault := hreq rfl
    refine ⟨hfault, ?_⟩
    have hwrote := hran.behind_fragment hs hsmall rfl hfault (hwaited key rfl)
    rw [← h.bytes] at hwrote
    exact hwrote
  · cases hanswered
  · cases hanswered

end Faces

/-- **A last line without its newline.**  Until somebody writes to such a file, no record of it is
lost.  If an opener has sorted, every record is placed, and a lookup answers the live record of its
key.  Otherwise lookups answer the records that an earlier sort has placed and no other, and a write
of a key whose record is not among them leaves that record as it is and makes one more, of the one
field that is written. -/
theorem unterminated_line (hi : i.Breaks fragment)
    (hdistinct : ((liveRecordsFrom Header.length (i.bytes ++ fragment)).map Record.key).Nodup)
    (hsmall : (i.bytes ++ fragment).length < UInt32.size) (mtime : Int) {before : List Turn}
    (hquiet : (Store.ofBytes (i.bytes ++ fragment) mtime).Always (fun s turn => s.journal turn = [])
      before)
    (hstore : ((Store.ofBytes (i.bytes ++ fragment) mtime).run before).1 = store) :
    Rests (i.bytes ++ fragment) store.file.bytes ∧
    (store.file.bytes.drop Header.length = (i.bytes ++ fragment).drop Header.length ∨
      ∀ key, placedRecord? store.file.bytes key =
        (liveRecordsFrom Header.length store.file.bytes).find? fun r => r.key == key) ∧
    (∀ key part keepLock, store.running? turn = some (.read key part keepLock) →
      (keepLock = false → ∃ answer, (store.serve turn).2 = .answered answer) ∧
      ∀ answer, (store.serve turn).2 = .answered answer →
        answer = (placedRecord? store.file.bytes key).elim part.missing part.of) ∧
    ∀ key field mode, store.Finishes turn (.write ⟨key, some field, mode⟩) →
      (∃ old : Option (List Field), store.copies key = old.toList ∧
        (old = none ∨ placedRecord? store.file.bytes key ≠ none →
          (store.serve turn).1.copies key = [setField (old.getD []) field]) ∧
        (placedRecord? store.file.bytes key = none →
          (store.serve turn).1.copies key = old.toList ++ [[field]])) ∧
      ∀ other, other ≠ key → (store.serve turn).1.copies other = store.copies other := by
  obtain ⟨j, h, hrests⟩ := (Faces.ofBytes hi mtime).run hsmall hquiet
  rw [hstore] at h
  rw [← h.bytes] at hrests
  have hsmall' : store.file.bytes.length < UInt32.size := hrests.length_eq ▸ hsmall
  have hdistinct' : ((liveRecordsFrom Header.length store.file.bytes).map Record.key).Nodup :=
    hrests.keys ▸ hdistinct
  refine ⟨hrests, hrests.slots.imp_right fun hall key => placedRecord?_of_all hall key,
    fun key part keepLock => h.lookup hsmall' hdistinct', ?_⟩
  intro key field mode hfinishes
  obtain ⟨hreq, hwrote⟩ := h.write hsmall' hfinishes
  have hkeys : (store.versions.map Version.key).Nodup := by
    rw [Store.versions, List.map_map]
    exact hdistinct'
  obtain ⟨old, hold⟩ := exists_copiesOf_eq hkeys key
  rcases hwrote with ⟨⟨span, hplaced⟩, hrewrites⟩ | ⟨hnone, offset, happended⟩
  · refine ⟨⟨old, hold, fun _ => hrewrites.only_copy hold, fun hmissing => ?_⟩, ?_⟩
    · exact absurd hplaced (placedRecord?_eq_none_iff.1 hmissing span)
    · intro other hne
      have hdoes : Call.Does store.versions (store.serve turn).1.versions
        (.write ⟨key, some field, mode⟩) .done := ⟨hreq, rfl, hrewrites⟩
      exact hdoes.copies_eq fun htarget => hne (Option.some.inj htarget).symm
  · have hcopies : ∀ k, (store.serve turn).1.copies k =
        store.copies k ++ copiesOf k [⟨offset, key, [field]⟩] := by
      intro k
      rw [Store.copies, happended, copiesOf_append]
      rfl
    have hown : (store.serve turn).1.copies key = old.toList ++ [[field]] := by
      rw [hcopies, copiesOf_cons_self (by rfl), show store.copies key = old.toList from hold]
      rfl
    refine ⟨⟨old, hold, ?_, fun _ => hown⟩, ?_⟩
    · rintro (rfl | hplaced)
      · exact hown
      · exact absurd (placedRecord?_eq_none_iff.2 hnone) hplaced
    · intro other hne
      rw [hcopies, copiesOf_cons_of_ne (by exact Ne.symm hne)]
      exact List.append_nil _

/-- A record that no sort has placed yet. -/
def unplaced : Image :=
  ⟨{ Header.fresh with appendSeq := 1, modified := 100, sinceSort := 1 },
    [encodeRecord (ascii ['k']) [⟨ascii ['f'], ascii ['1']⟩]]⟩

/-- What a cut-off append leaves behind it. -/
def cutOff : Bytes := ascii ['+', '0', '0', '0', '0', '0', '0']

theorem unplaced_breaks : unplaced.Breaks cutOff := by
  have hline : IsLine (encodeRecord (ascii ['k']) [⟨ascii ['f'], ascii ['1']⟩]) :=
    ⟨(encodeRecord (ascii ['k']) [⟨ascii ['f'], ascii ['1']⟩]).dropLast, by decide +kernel,
      by decide +kernel⟩
  refine ⟨⟨⟨by decide, ?_⟩, [], unplaced.texts, rfl, Index.Routed.nil, ?_⟩, by decide, by decide⟩
  · rintro text ht
    exact List.mem_singleton.1 ht ▸ hline
  · rintro text ht
    rw [List.mem_singleton.1 ht]
    exact Or.inr (by decide +kernel)

/-- The store of that file, with one client. -/
def torn : Store :=
  ((Store.ofBytes (unplaced.bytes ++ cutOff) 100).run
    [⟨100, 1, .opening (.ofPath Config.defaultPath)⟩]).1

/-- The record is not found, and the next write of its key makes another one. -/
theorem unterminated_line_of_unplaced_record :
    (torn.serve ⟨100, 1, .call (.read (ascii ['k']) .record false)⟩).2 = .answered (.record none) ∧
    torn.copies (ascii ['k']) = [[⟨ascii ['f'], ascii ['1']⟩]] ∧
    (torn.serve ⟨100, 1, .call (.write ⟨ascii ['k'], some ⟨ascii ['g'], ascii ['2']⟩,
      .transient⟩)⟩).1.copies (ascii ['k']) =
        [[⟨ascii ['f'], ascii ['1']⟩], [⟨ascii ['g'], ascii ['2']⟩]] := by
  have hdistinct : ((liveRecordsFrom Header.length (unplaced.bytes ++ cutOff)).map
      Record.key).Nodup := by decide +kernel
  have hquiet : (Store.ofBytes (unplaced.bytes ++ cutOff) 100).Always
      (fun s turn => s.journal turn = []) [⟨100, 1, .opening (.ofPath Config.defaultPath)⟩] :=
    ⟨by decide +kernel, trivial⟩
  have hnone : placedRecord? torn.file.bytes (ascii ['k']) = none := by decide +kernel
  have hcopies : torn.copies (ascii ['k']) = [[⟨ascii ['f'], ascii ['1']⟩]] := by decide +kernel
  have hall := fun turn => @unterminated_line torn unplaced cutOff turn unplaced_breaks hdistinct
    (by decide +kernel) 100 _ hquiet rfl
  refine ⟨?_, hcopies, ?_⟩
  · obtain ⟨-, -, hlookups, -⟩ := hall ⟨100, 1, .call (.read (ascii ['k']) .record false)⟩
    obtain ⟨hanswers, htells⟩ := hlookups (ascii ['k']) .record false (by decide +kernel)
    obtain ⟨answer, hanswer⟩ := hanswers rfl
    rw [hanswer, htells answer hanswer, hnone]
    rfl
  · obtain ⟨-, -, -, hwrites⟩ := hall ⟨100, 1, .call (.write ⟨ascii ['k'],
      some ⟨ascii ['g'], ascii ['2']⟩, .transient⟩)⟩
    obtain ⟨⟨old, hold, -, hmore⟩, -⟩ := hwrites (ascii ['k']) ⟨ascii ['g'], ascii ['2']⟩ .transient
      ⟨by decide +kernel, .done, by decide +kernel⟩
    rw [hmore hnone, ← hold, hcopies]
    rfl

end Store

end RecordStore
