import Mathlib.Tactic.Common
import RecordStore.Proofs.Effects
import RecordStore.Proofs.Reopenings
import RecordStore.Proofs.Turns

/-!
# Stores on recovered files

A store may be opened on a file that others left behind: with keys that live twice, and with an append
sequence that counts lines which are there no longer.  What its clients remember goes with such a file
too, and every turn does to the live records what the call does that it answers, or nothing.

* `Store.Tracks` — every client goes with a recovered file.
* `Store.Effect` — what a turn makes of the live records.

Principal results: `Store.Tracks.serve` — one turn; `Store.Tracks.run` — the invariant of all runs.
-/

set_option autoImplicit false

namespace RecordStore

theorem Handle.Awaits.mono {h : Handle} {i j : Image} {waited : Option Span} {key : Bytes}
    (ha : h.Awaits i waited key) (hij : i.Extends j) : h.Awaits j waited key := by
  intro span hw
  obtain ⟨hshows, hsees⟩ := ha span hw
  exact ⟨hij.shows hshows, hsees⟩

/-- What a client remembers goes with the file.  Who is still opening it remembers nothing. -/
def Client.Tracks (file : SharedFile) (i : Image) : Client → Prop
  | .opening _ _ => True
  | .idle handle => file.bytes = i.bytes ∧ handle.Tracks i
  | .busy handle stage => file.bytes = i.bytes ∧ handle.Tracks i ∧ stage.Sane ∧
    ∀ key, stage.call.key? = some key → handle.Awaits i stage.span? key

theorem Client.Tracks.mono {client : Client} {file file' : SharedFile} {i j : Image}
    (h : client.Tracks file i) (hbytes : file.bytes = i.bytes → file'.bytes = j.bytes)
    (hij : i.Grows j) : client.Tracks file' j := by
  cases client with
  | opening config stage => trivial
  | idle handle => exact ⟨hbytes h.1, h.2.mono hij⟩
  | busy handle stage =>
    obtain ⟨hb, htracks, hsane, hawaits⟩ := h
    exact ⟨hbytes hb, htracks.mono hij, hsane, fun key hkey => (hawaits key hkey).mono hij.extends_⟩

/-- The store's file is that of the image, and every client goes with it. -/
structure Store.Tracks (store : Store) (i : Image) : Prop where
  shows : store.file.Shows i
  formed : i.Formed
  clients : ∀ id client, store.client? id = some client → client.Tracks store.file i

namespace Store

/-- What a turn makes of the live records: what the call does that it answers, or nothing. -/
def Effect (store : Store) (turn : Turn) (before after : List Version) : Prop :=
  (∃ call answer, store.running? turn = some call ∧ (store.serve turn).2 = .answered answer ∧
    call.Does before after answer) ∨
    (∀ call, ¬ store.Finishes turn call) ∧ after = before

variable {store : Store} {i j : Image} {id : HolderId} {handle : Handle} {stage : Stage} {now : Nat}

/-- A file that nobody has opened yet. -/
theorem Tracks.ofBytes (hi : i.Formed) (mtime : Int) : (Store.ofBytes i.bytes mtime).Tracks i where
  shows := Or.inl rfl
  formed := hi
  clients := by
    intro id client h
    cases h

theorem Tracks.ofNothing (mtime : Int) : (Store.ofBytes [] mtime).Tracks .fresh where
  shows := Or.inr ⟨rfl, rfl⟩
  formed := Image.Sound.fresh.formed
  clients := by
    intro id client h
    cases h

theorem Tracks.small (h : store.Tracks i) (hsmall : store.file.bytes.length < UInt32.size) :
    i.bytes.length < UInt32.size := by
  rcases h.shows with hsame | ⟨-, rfl⟩
  · rwa [← hsame]
  · decide

/-- The live records of the file are those of the image. -/
theorem Tracks.versions_eq (h : store.Tracks i) : store.versions = i.versions := by
  unfold Store.versions
  rcases h.shows with hsame | ⟨hempty, rfl⟩
  · rw [hsame, h.formed.map_version_liveRecordsFrom]
  · rw [hempty]
    rfl

/-- What an opener finds. -/
theorem Tracks.torn (h : store.Tracks i) : store.file.Torn i [] := by
  rcases h.shows with hsame | ⟨hempty, rfl⟩
  · exact Or.inl (hsame.trans (List.append_nil _).symm)
  · exact Or.inr ⟨hempty, rfl, rfl⟩

/-- A client's step keeps the others. -/
theorem Tracks.update (h : store.Tracks i) {file : SharedFile} {client : Client}
    (hshows : file.Shows j) (hformed : j.Formed)
    (hbytes : store.file.bytes = i.bytes → file.bytes = j.bytes) (hij : i.Grows j)
    (hclient : client.Tracks file j) : (store.update id file client).Tracks j where
  shows := hshows
  formed := hformed
  clients := forall_client_update h.clients (fun _ hold => hold.mono hbytes hij) id file hclient

theorem Tracks.remove (h : store.Tracks i) {file : SharedFile} (hbytes : file.bytes = j.bytes)
    (hformed : j.Formed) (hij : i.Grows j) :
    (({ store with file } : Store).remove id).Tracks j where
  shows := Or.inl hbytes
  formed := hformed
  clients := forall_client_remove h.clients (fun _ hold => hold.mono (fun _ => hbytes) hij) id file

/-- The session of a stretch works on the file, with what a waiting client remembers. -/
theorem Tracks.follows (h : store.Tracks i) {turn : Turn} {call : Call} {pending : Option Stage}
    (hruns : store.Runs turn handle call pending) : call.Pending pending ∧
      (store.session turn.now turn.holder handle).Follows i ∧
      ∀ key, call.key? = some key → handle.Awaits i (pending.bind Stage.span?) key := by
  have hclient := h.clients _ _ hruns.client
  cases pending with
  | none =>
    exact ⟨by rintro stage ⟨⟩, ⟨hclient.1, hclient.2, h.formed⟩, fun key _ => by rintro span ⟨⟩⟩
  | some stage =>
    obtain ⟨hbytes, htracks, hsane, hawaits⟩ := hclient
    obtain rfl := hruns.same stage rfl
    refine ⟨?_, ⟨hbytes, htracks, h.formed⟩, hawaits⟩
    rintro _ ⟨⟩
    exact ⟨rfl, hsane⟩

/-- **The end of a stretch** keeps the store on its track. -/
theorem Tracks.settleCall (h : store.Tracks i) {call : Call}
    {result : EStateM.Result Error Session Progress} (hended : Ended i call result) :
    ∃ j, (store.settleCall id result).1.Tracks j ∧ i.Grows j ∧
      (∀ answer, (store.settleCall id result).2 = .answered answer →
        call.Does i.versions j.versions answer) ∧
      ((∀ answer, (store.settleCall id result).2 ≠ .answered answer) →
        j.versions = i.versions) := by
  cases hended with
  | @waiting s' stage follows pending awaits =>
    obtain ⟨rfl, hsane⟩ := pending stage rfl
    refine ⟨i, ?_, .refl i, by rintro answer ⟨⟩, fun _ => rfl⟩
    exact h.update (Or.inl follows.bytes) follows.formed (fun _ => follows.bytes) (.refl i)
      ⟨follows.bytes, follows.tracks, hsane, awaits⟩
  | failed follows grows versions =>
    refine ⟨_, ?_, grows, by rintro answer ⟨⟩, fun _ => versions⟩
    exact h.update (Or.inl follows.bytes) follows.formed (fun _ => follows.bytes) grows
      ⟨follows.bytes, follows.tracks⟩
  | @answered s' j a follows grows does =>
    refine ⟨j, ?_, grows, ?_, fun hnot => absurd rfl (hnot a)⟩
    · exact h.update (Or.inl follows.bytes) follows.formed (fun _ => follows.bytes) grows
        ⟨follows.bytes, follows.tracks⟩
    · rintro answer ⟨⟩
      exact does

/-- **The end of an opening** keeps the store on its track. -/
theorem Tracks.settleOpen (h : store.Tracks i) (hsmall : store.file.bytes.length < UInt32.size)
    {config : Config} {result : SharedFile × Opening}
    (henters : Enters now config store.file.bytes i [] result) :
    (∃ j, (store.settleOpen id config result).1.Tracks j ∧ i.Grows j ∧ j.versions = i.versions) ∧
      ∀ answer, (store.settleOpen id config result).2 ≠ .answered answer := by
  cases henters with
  | @waiting file' stage bytes =>
    refine ⟨⟨i, ?_, .refl i, rfl⟩, by rintro answer ⟨⟩⟩
    refine h.update ?_ h.formed (fun hb => bytes.trans hb) (.refl i) trivial
    unfold SharedFile.Shows
    rw [bytes]
    exact h.shows
  | @opened file' handle j bytes arrives image =>
    rw [List.append_nil] at bytes
    have hsorted : (i.sorted now).Formed :=
      h.formed.toLined.sort (fun _ => Image.offset_lt_of_small (h.small hsmall)) rfl
    have hgrows : i.Grows (i.sorted now) :=
      Image.grows_of_frames (Image.frames_fillSlots _ i _) rfl
    have hj : j.Formed ∧ i.Grows j ∧ j.versions = i.versions := by
      rcases image with rfl | rfl
      · exact ⟨h.formed, .refl _, rfl⟩
      · exact ⟨hsorted, hgrows, i.versions_sort _⟩
    rw [bytes] at arrives
    refine ⟨⟨j, ?_, hj.2⟩, by rintro answer ⟨⟩⟩
    exact h.update (Or.inl bytes) hj.1 (fun _ => bytes) hj.2.1 ⟨bytes, arrives.tracks⟩

/-- A turn of an opening. -/
theorem Tracks.serve_of_open (h : store.Tracks i) (hsmall : store.file.bytes.length < UInt32.size)
    {turn : Turn} {config : Config} {result : SharedFile × Opening}
    (henters : Enters turn.now config store.file.bytes i [] result)
    (hserve : store.serve turn = store.settleOpen turn.holder config result) :
    ∃ j, (store.serve turn).1.Tracks j ∧ i.Grows j ∧ store.Effect turn i.versions j.versions := by
  obtain ⟨⟨j, hj, hgrows, hversions⟩, hnot⟩ :
      (∃ j, (store.settleOpen turn.holder config result).1.Tracks j ∧ i.Grows j ∧
        j.versions = i.versions) ∧
      ∀ answer, (store.settleOpen turn.holder config result).2 ≠ .answered answer :=
    h.settleOpen hsmall henters
  rw [← hserve] at hj hnot
  exact ⟨j, hj, hgrows, Or.inr ⟨fun call hf => hnot _ hf.2.choose_spec, hversions⟩⟩

/-- A turn of a call. -/
theorem Tracks.serve_of_call (h : store.Tracks i) {turn : Turn} {call : Call}
    {result : EStateM.Result Error Session Progress} (hended : Ended i call result)
    (hrunning : store.running? turn = some call)
    (hserve : store.serve turn = store.settleCall turn.holder result) :
    ∃ j, (store.serve turn).1.Tracks j ∧ i.Grows j ∧ store.Effect turn i.versions j.versions := by
  obtain ⟨j, hj, hgrows, hdoes, hnot⟩ := @Tracks.settleCall store i turn.holder h call result hended
  rw [← hserve] at hj hdoes hnot
  refine ⟨j, hj, hgrows, ?_⟩
  by_cases hanswered : ∃ answer, (store.serve turn).2 = .answered answer
  · obtain ⟨answer, ha⟩ := hanswered
    exact Or.inl ⟨call, answer, hrunning, ha, hdoes answer ha⟩
  · refine Or.inr ⟨fun call' hfinishes => hanswered hfinishes.2, hnot fun answer ha => ?_⟩
    exact hanswered ⟨answer, ha⟩

/-- A turn that runs no call has no effect. -/
theorem effect_of_quiet {turn : Turn} (hquiet : store.running? turn = none) (versions : List Version) :
    store.Effect turn versions versions := by
  refine Or.inr ⟨fun call hfinishes => ?_, rfl⟩
  rw [hfinishes.1] at hquiet
  cases hquiet

/-- **One turn** on a recovered file. -/
theorem Tracks.serve (h : store.Tracks i) (hsmall : store.file.bytes.length < UInt32.size)
    (turn : Turn) : ∃ j, (store.serve turn).1.Tracks j ∧ i.Grows j ∧
      store.Effect turn i.versions j.versions := by
  have hserved := store.serve_served turn
  generalize hresult : store.serve turn = result at hserved
  cases hserved with
  | unavailable quiet => exact ⟨i, h, .refl i, effect_of_quiet quiet _⟩
  | opening quiet =>
    rw [← hresult]
    exact h.serve_of_open hsmall (openFile_enters h.formed.toLined.whole (by simp) h.torn) hresult
  | reopening quiet =>
    rw [← hresult]
    exact h.serve_of_open hsmall (resumeOpen_enters h.formed.toLined.whole (by simp) h.torn _) hresult
  | @closed handle quiet client =>
    obtain ⟨header, hversion, hseq, hclosed⟩ :=
      @closeFile_bytes turn.now turn.holder store.file i handle (h.clients _ _ client).1
    exact ⟨⟨header, i.texts⟩, h.remove hclosed (h.formed.withHeader hversion)
      (Image.grows_of_frames rfl hseq), Image.grows_of_frames rfl hseq, effect_of_quiet quiet _⟩
  | ran runs =>
    obtain ⟨hpending, hfollows, hawaits⟩ := h.follows runs
    rw [← hresult]
    exact h.serve_of_call (Call.stretch_ended hfollows (h.small hsmall) hpending hawaits) runs.running
      hresult

/-- **The invariant of all runs** on a recovered file. -/
theorem Tracks.run (h : store.Tracks i) {turns : List Turn} (hsmall : store.Small turns) :
    ∃ j, (store.run turns).1.Tracks j ∧ i.Grows j := by
  induction turns generalizing store i with
  | nil => exact ⟨i, h, .refl i⟩
  | cons turn more ih =>
    obtain ⟨hfirst, hmore⟩ := hsmall
    obtain ⟨j, hj, hij, -⟩ := h.serve hfirst turn
    obtain ⟨k, hk, hjk⟩ := ih hj hmore
    exact ⟨k, hk, hij.trans hjk⟩

end Store

end RecordStore
