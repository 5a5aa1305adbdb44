import Mathlib.Tactic.Common
import RecordStore.Proofs.Endings
import RecordStore.Proofs.Lasting
import RecordStore.Proofs.Made
import RecordStore.Proofs.Quiet

/-!
# Lookups by offset

A lookup by offset decodes whatever stands from the offset to the end of its line.  Where a line starts
at the offset that is the line itself; elsewhere it is what the line still holds from there on, and a
value that looks like the head of a record makes a record of it.

* `Record.Closes` — a record that is what a line of the file holds from some byte of it on.
* `Sought` — how a stretch of a lookup by offset ends.
* `Client.Sights` — a waiting lookup waits for an offset that its handle sees.
* `Store.SeeksInVain` — a turn in which a lookup by offset does not answer a record.

Principal results: `Record.decode_iff_closes` — what decodes behind the header;
`Session.Follows.stretch_sought` — what a lookup answers; `Store.Steady.run_seeks` — what it leaves
locked, on any file; `Store.lookups_by_offset` — both, for stores that the library made.
-/

set_option autoImplicit false

namespace RecordStore

/-! ## The line around an offset -/

/-- Of what a line holds, its newline comes last. -/
theorem newline_notMem_of_takeLine {s front rest : Bytes} (h : takeLine s = front ++ rest)
    (hne : rest ≠ []) : newline ∉ front := by
  by_cases hmem : newline ∈ s
  · exact (isLine_of_isLine_append (h ▸ isLine_takeLine_of_mem hmem) hne).1
  · rw [takeLine_of_notMem hmem] at h
    rw [h] at hmem
    exact fun hfront => hmem (List.mem_append_left _ hfront)

/-- **Every byte of a region stands in a line**, and from there on the line is read as if it began
there. -/
theorem exists_line_at {start offset : Nat} {data : Bytes} (hstart : start ≤ offset)
    (hlt : offset < data.length) : ∃ line ∈ linesFrom start data, ∃ front,
      line.text = front ++ takeLine (data.drop offset) ∧ offset = line.offset + front.length := by
  obtain ⟨region, hregion⟩ : ∃ region, region = (data.drop start).take (offset - start) := ⟨_, rfl⟩
  have hlen : (wholeLines region).length + (openLine region).length = offset - start := by
    have hjoin := congrArg List.length (wholeLines_append_openLine region)
    rw [List.length_append] at hjoin
    rw [hjoin, hregion, List.length_take, List.length_drop]
    omega
  have hfront : (data.take start ++ wholeLines region).length =
      start + (wholeLines region).length := by
    rw [List.length_append, List.length_take]
    omega
  have hsplit : data = (data.take start ++ wholeLines region) ++
      (openLine region ++ data.drop offset) := by
    calc data = data.take start ++ (region ++ (data.drop start).drop (offset - start)) := by
          rw [hregion, List.take_append_drop, List.take_append_drop]
      _ = data.take start ++ (region ++ data.drop offset) := by
          rw [List.drop_drop, Nat.add_sub_cancel' hstart]
      _ = data.take start ++ ((wholeLines region ++ openLine region) ++ data.drop offset) := by
          rw [wholeLines_append_openLine]
      _ = _ := by simp only [List.append_assoc]
  have hdrop : data.drop (start + (wholeLines region).length) =
      openLine region ++ data.drop offset := by
    conv => lhs; rw [hsplit]
    exact List.drop_left' hfront
  refine ⟨⟨start + (wholeLines region).length, openLine region ++ takeLine (data.drop offset)⟩,
    mem_linesFrom_iff.2 ⟨Nat.le_add_right _ _, ?_, ?_, ?_⟩, openLine region, rfl, ?_⟩
  · show start + (wholeLines region).length < data.length
    omega
  · rcases endsLine_wholeLines region with hnil | hend
    · left
      show start + (wholeLines region).length = start
      rw [hnil, List.length_nil, Nat.add_zero]
    · right
      show data[start + (wholeLines region).length - 1]? = some newline
      have hne : wholeLines region ≠ [] := List.ne_nil_of_length_pos (length_pos_of_endsLine hend)
      have hlast := getElem?_sub_one_of_endsLine
        ((endsLine_append hne).trans hend : endsLine (data.take start ++ wholeLines region) = true)
        (openLine region ++ data.drop offset)
      rwa [← hsplit, hfront] at hlast
  · show takeLine (data.drop (start + (wholeLines region).length)) = _
    rw [hdrop, takeLine_append_of_notMem (newline_notMem_openLine region)]
  · show offset = start + (wholeLines region).length + (openLine region).length
    omega

namespace Record

/-- The record is what a line behind the header holds from the record's offset on. -/
def Closes (r : Record) (data : Bytes) : Prop :=
  ∃ line ∈ linesFrom Header.length data, ∃ front,
    line.text = front ++ r.text ∧ r.offset = line.offset + front.length

theorem text_ne_nil (r : Record) : r.text ≠ [] := by
  intro hnil
  have hlt := keyAt_lt_of_defect? r.wellFormed
  rw [hnil] at hlt
  cases hlt

/-- **What decodes behind the header** is a record that some line holds from there on. -/
theorem decode_iff_closes {data : Bytes} {offset : Nat} {r : Record} :
    Header.length ≤ offset ∧ decode data offset = .ok r ↔ r.offset = offset ∧ r.Closes data := by
  rw [decode_eq_ok_iff]
  constructor
  · rintro ⟨hle, hlt, rfl, htext⟩
    obtain ⟨line, hline, front, hfront, hoffset⟩ := exists_line_at hle hlt
    exact ⟨rfl, line, hline, front, by rw [hfront, htext], hoffset⟩
  · rintro ⟨rfl, line, hline, front, hfront, hoffset⟩
    obtain ⟨hle, hlt, -, htext⟩ := mem_linesFrom_iff.1 hline
    have hplain := newline_notMem_of_takeLine (htext.trans hfront) r.text_ne_nil
    obtain ⟨rest, hjoin⟩ : ∃ rest, data.drop line.offset = front ++ (r.text ++ rest) := by
      refine ⟨dropLine (data.drop line.offset), ?_⟩
      rw [← List.append_assoc, ← hfront, ← htext, takeLine_append_dropLine]
    have hdrop : data.drop r.offset = r.text ++ rest := by
      rw [hoffset, ← List.drop_drop, hjoin, List.drop_left]
    have hread := takeLine_append_of_notMem hplain (r.text ++ rest)
    rw [← hjoin, htext, hfront, List.append_cancel_left_eq, ← hdrop] at hread
    refine ⟨by omega, ?_, rfl, hread.symm⟩
    have hlen := congrArg List.length hdrop
    have hpos := List.length_pos_of_ne_nil r.text_ne_nil
    rw [List.length_drop, List.length_append] at hlen
    omega

/-- Where a line starts, the record is that line. -/
theorem closes_iff_of_line {data : Bytes} {line : Line} (hline : line ∈ linesFrom Header.length data)
    {r : Record} (hoffset : r.offset = line.offset) : r.Closes data ↔ r.toLine = line := by
  obtain ⟨hle, hlt, -, htext⟩ := mem_linesFrom_iff.1 hline
  rw [← and_iff_right hoffset (b := r.Closes data), ← decode_iff_closes, decode_eq_ok_iff,
    Line.ext_iff]
  constructor
  · rintro ⟨-, -, -, hread⟩
    exact ⟨hoffset, hread.symm.trans htext⟩
  · rintro ⟨-, hread⟩
    exact ⟨hle, hlt, hoffset, htext.trans hread.symm⟩

end Record

/-! ## What is answered -/

theorem takeLine_append_of_mem {s : Bytes} (h : newline ∈ s) (rest : Bytes) :
    takeLine (s ++ rest) = takeLine s := by
  have hline := isLine_takeLine_of_mem h
  have hjoin := takeLine_append_dropLine s
  rw [← hjoin, List.append_assoc, takeLine_append hline, takeLine_append hline]

/-- A mapping ends where a line ends, so what decodes inside it decodes in the file. -/
theorem Handle.Tracks.decode_seen {h : Handle} {i : Image} (ht : h.Tracks i) (hi : i.Lined)
    {offset : Nat} (hlt : offset < h.view.length) {r : Record} :
    Record.decode (h.view.read i.bytes) offset = .ok r ↔ Record.decode i.bytes offset = .ok r := by
  obtain ⟨seen, unseen, htexts, hview, -⟩ := ht.view
  have hlines : ∀ text ∈ seen, IsLine text := by
    intro text ht
    exact hi.line text (htexts ▸ List.mem_append_left _ ht)
  have hsplit : i.bytes = (⟨i.header, seen⟩ : Image).bytes ++ unseen.flatten := by
    rw [Image.bytes, Image.bytes, htexts, List.flatten_append, List.append_assoc]
  have hlen : (⟨i.header, seen⟩ : Image).bytes.length = h.view.length := by
    rw [hview, Image.length_bytes]
  have hend : endsLine (⟨i.header, seen⟩ : Image).bytes = true :=
    Image.Whole.endsLine_bytes ⟨hi.version, hlines⟩
  rw [Image.read_view htexts hview, hsplit]
  obtain ⟨front, hfront⟩ : ∃ front, front = (⟨i.header, seen⟩ : Image).bytes := ⟨_, rfl⟩
  rw [← hfront] at hlen hend ⊢
  have hmem : newline ∈ front.drop offset := by
    have hne : front.drop offset ≠ [] := by
      rw [Ne, List.drop_eq_nil_iff]
      omega
    rw [← List.take_append_drop offset front, endsLine_append hne] at hend
    exact newline_mem_of_endsLine hend
  rw [Record.decode_eq_ok_iff, Record.decode_eq_ok_iff, List.drop_append_of_le_length (by omega),
    takeLine_append_of_mem hmem, List.length_append]
  have hin : offset < front.length := by omega
  have hin' : offset < front.length + unseen.flatten.length := by omega
  simp only [hin, hin']

/-- The handle sees the byte at an offset, and it lies behind the header. -/
def Handle.Sights (h : Handle) (offset : Nat) : Prop :=
  h.headLen ≤ offset ∧ offset < h.view.length

/-- How a stretch of a lookup by offset ends: with the record that some line of the file holds from
there on, or because another one has locked the offset. -/
inductive Sought (s : Session) (i : Image) (offset : Nat) (keepLock : Bool) :
    EStateM.Result Error Session Progress → Prop where
  | answered {s' : Session} {found : Option Record}
    (exact : ∀ r, found = some r ↔ r.offset = offset ∧ r.Closes i.bytes) :
    Sought s i offset keepLock (.ok (.answered (.record found)) s')
  | waiting {s' : Session} (asked : keepLock = true) (blocked : s.Blocked offset)
    (sights : s'.handle.Sights offset) :
    Sought s i offset keepLock (.ok (.waiting (.readingAt offset)) s')
  | refused {e : Error} {s' : Session} (asked : keepLock = true) (blocked : s.Blocked offset) :
    Sought s i offset keepLock (.error e s')

namespace Session.Follows

open SessionM

variable {s s₁ : Session} {i : Image} {offset : Nat} {keepLock : Bool}

/-- What decodes where the handle looks is what a line holds from there on. -/
theorem decode_iff_closes (hs : s.Follows i) (hsights : s.handle.Sights offset) (r : Record) :
    Record.decode s.data offset = .ok r ↔ r.offset = offset ∧ r.Closes i.bytes := by
  have hle := hsights.1
  rw [hs.tracks.headLen] at hle
  rw [← Record.decode_iff_closes, hs.data_eq, hs.tracks.decode_seen hs.formed.toLined hsights.2,
    and_iff_right hle]

/-- The record at an offset that the handle sees. -/
theorem decodeAt_sought (hs : s₁.Follows i) (hsights : s₁.handle.Sights offset)
    (hfault : lockFault? offset = none) (locked : Bool) :
    Sought s i offset keepLock (decodeAt offset locked s₁) := by
  have hexact := hs.decode_iff_closes hsights
  unfold decodeAt
  rw [SessionM.get_bind]
  cases hdec : Record.decode s₁.data offset with
  | ok record =>
    refine .answered fun r => ?_
    rw [← hexact, hdec, Option.some.injEq, Except.ok.injEq]
  | error e =>
    have hnone : ∀ r, (none : Option Record) = some r ↔ r.offset = offset ∧ r.Closes i.bytes := by
      intro r
      rw [← hexact, hdec]
      exact iff_of_false nofun nofun
    dsimp only
    split
    · rw [bind_ok (unlock_eq s₁ hfault)]
      exact .answered hnone
    · exact .answered hnone

/-- A lookup by offset in what is mapped, once that reaches as far as the offset or the file. -/
theorem readMapped_sought (hs : s₁.Follows i) (hsmall : i.bytes.length < UInt32.size)
    (hcurrent : s₁.handle.view.length ≤ offset → i.bytes.length ≤ offset)
    (hblocked : s₁.Blocked offset → s.Blocked offset) :
    Sought s i offset keepLock (readMapped offset keepLock s₁) := by
  have hheadLen := hs.tracks.headLen
  have hinside := hs.tracks.views.view_le
  unfold readMapped
  rw [SessionM.get_bind]
  split
  · next hout =>
    -- no line behind the header reaches to the offset
    refine .answered fun r => iff_of_false nofun ?_
    rw [← Record.decode_iff_closes, Record.decode_eq_ok_iff]
    intro ⟨hle, hlt, _⟩
    simp only [Bool.or_eq_true, decide_eq_true_eq] at hout
    omega
  · next hin =>
    simp only [Bool.or_eq_true, decide_eq_true_eq, not_or, Nat.not_lt, Nat.not_le] at hin
    have hfault : lockFault? offset = none := lockFault?_of_lt (by omega)
    split
    · next hkeep =>
      rcases acquireRecord_cases s₁ hfault with ⟨-, hacq⟩ | ⟨hb, -, hacq⟩ | ⟨hb, -, hacq⟩
      · rw [bind_ok hacq]
        have hheld : (s₁.hold offset).Follows i := hs.of_relocks (.mk _)
        exact hheld.decodeAt_sought hin hfault true
      · rw [bind_error hacq]
        exact .refused hkeep (hblocked hb)
      · rw [bind_ok hacq]
        exact .waiting hkeep (hblocked hb) hin
    · exact hs.decodeAt_sought hin hfault false

/-- **A lookup by offset** answers what some line of the file holds from there on. -/
theorem readAt_sought (hs : s.Follows i) (hsmall : i.bytes.length < UInt32.size) :
    Sought s i offset keepLock (readAt offset keepLock s) := by
  rw [readAt_eq, SessionM.get_bind]
  split
  · rcases refresh_cases hs.mapped with ⟨hbroken, -⟩ | ⟨changed, h, hrefresh, hlooks, hfresh⟩
    · exact absurd hbroken hs.not_broken
    · have hfollows := (hs.of_looks (.withHandle hlooks)).1
      rw [bind_ok hrefresh]
      refine hfollows.readMapped_sought hsmall ?_ id
      rw [hfollows.current hsmall hfresh]
      exact id
  · next hmapped => exact hs.readMapped_sought hsmall (fun hle => absurd hle hmapped) id

/-- **Every stretch of a lookup by offset.** -/
theorem stretch_sought (hs : s.Follows i) (hsmall : i.bytes.length < UInt32.size)
    {pending : Option Stage} (hsame : ∀ stage, pending = some stage →
      stage.call = .readAt offset keepLock)
    (hsights : pending = some (.readingAt offset) → s.handle.Sights offset) :
    Sought s i offset keepLock ((Call.readAt offset keepLock).stretch pending s) := by
  cases pending with
  | none => exact hs.readAt_sought hsmall
  | some stage =>
    have hcall := hsame stage rfl
    cases stage with
    | readingAt offset' =>
      cases hcall
      have hsee := hsights rfl
      have hinside := hs.tracks.views.view_le
      have hfault : lockFault? offset = none := lockFault?_of_lt (Nat.lt_of_lt_of_le hsee.2
        (Nat.le_trans hinside (Nat.le_of_lt hsmall)))
      have htry := tryLock_eq s hfault
      show Sought s i offset true ((Stage.readingAt offset).resume s)
      unfold Stage.resume
      split at htry
      · next hb =>
        rw [bind_ok (show tryLock (Stage.readingAt offset).offset .exclusive s = _ from htry)]
        exact .waiting rfl hb hsee
      · rw [bind_ok (show tryLock (Stage.readingAt offset).offset .exclusive s = _ from htry)]
        have hheld : (s.hold offset).Follows i := hs.of_relocks (.mk _)
        exact hheld.decodeAt_sought hsee hfault true
    | _ => cases hcall

end Session.Follows

/-! ## What is locked -/

namespace SessionM

/-- A stretch that answers a record, or else leaves nothing locked that its holder had not locked. -/
def LeavesFree (s₀ : Session) (progress : Progress) (s : Session) : Prop :=
  (∀ r, progress ≠ .answered (.record (some r))) → s.Holds s₀ []

variable {s s₀ : Session} {offset : Nat}

theorem decodeAt_leaves {locked : Bool} (h : s.Holds s₀ (if locked then [offset] else []))
    (hfault : locked = true → lockFault? offset = none) :
    Brings (decodeAt offset locked) s (LeavesFree s₀) (fun _ s' => s'.Holds s₀ []) := by
  unfold decodeAt
  refine .get_bind ?_
  split
  · next record _ => exact .of_ok rfl fun hnone => absurd rfl (hnone record)
  · split
    · next hlocked =>
      rw [if_pos hlocked] at h
      refine ((unlock_brings h (hfault hlocked) (List.Subset.refl _)).mono (fun _ _ => id)
        fun _ _ => False.elim).bind ?_
      exact fun _ _ h' => .of_ok rfl fun _ => h'
    · next hlocked =>
      rw [if_neg hlocked] at h
      exact .of_ok rfl fun _ => h

theorem readMapped_leaves (h : s.Holds s₀ []) (keepLock : Bool) :
    Brings (readMapped offset keepLock) s (LeavesFree s₀) (fun _ s' => s'.Holds s₀ []) := by
  unfold readMapped
  refine .get_bind ?_
  dsimp only
  split
  · exact .of_ok rfl fun _ => h
  · split
    · exact .of_acquireRecord (fun hfault => decodeAt_leaves (h.hold offset) fun _ => hfault)
        (.of_ok rfl fun _ => h) fun _ => h
    · exact decodeAt_leaves h nofun

theorem readAt_leaves (h : s.Holds s₀ []) (keepLock : Bool) :
    Brings (readAt offset keepLock) s (LeavesFree s₀) (fun _ s' => s'.Holds s₀ []) := by
  rw [readAt_eq]
  refine .get_bind ?_
  split
  · exact (onlySees_refresh.holds h).bind fun _ _ h' => readMapped_leaves h' keepLock
  · exact readMapped_leaves h keepLock

/-- **A stretch of a lookup by offset** locks nothing for good but a record that it answers, on any
file. -/
theorem stretch_leaves {pending : Option Stage} {keepLock : Bool}
    (hsame : ∀ stage, pending = some stage → stage.call = .readAt offset keepLock) (s : Session) :
    Brings ((Call.readAt offset keepLock).stretch pending) s (LeavesFree s)
      (fun _ s' => s'.Holds s []) := by
  cases pending with
  | none => exact readAt_leaves (.refl s) keepLock
  | some stage =>
    have hcall := hsame stage rfl
    cases stage with
    | readingAt offset' =>
      cases hcall
      show Brings (Stage.readingAt offset).resume s _ _
      unfold Stage.resume
      refine ((tryLock_brings s offset).mono (fun _ _ => id) ?_).bind ?_
      · intro e s' ⟨hsame, _⟩
        rw [hsame]
        exact .refl s
      · intro granted s' ⟨hfault, hs'⟩
        cases granted with
        | true =>
          obtain rfl : s' = s.hold offset := hs'
          exact decodeAt_leaves ((Session.Holds.refl s).hold offset) fun _ => hfault
        | false =>
          obtain rfl : s' = s := hs'
          exact .of_ok rfl fun _ => .refl s'
    | _ => cases hcall

end SessionM

/-! ## Stores -/

/-- A waiting lookup by offset waits for an offset that its handle sees. -/
def Client.Sights : Client → Prop
  | .busy handle (.readingAt offset) => handle.Sights offset
  | .opening _ _ | .idle _ | .busy _ _ => True

namespace Store

variable {store : Store} {i : Image} {turn : Turn}

/-- What waits after a stretch sees the offset that it waits for. -/
theorem Tracks.stretch_sights (h : store.Tracks i) (hsmall : store.file.bytes.length < UInt32.size)
    {handle : Handle} {call : Call} {pending : Option Stage}
    (hruns : store.Runs turn handle call pending)
    (hclient : (Client.atStage handle pending).Sights) {stage : Stage} {s' : Session}
    (hwaits : call.stretch pending (store.session turn.now turn.holder handle) =
      .ok (.waiting stage) s') : (Client.busy s'.handle stage).Sights := by
  obtain ⟨hpending, hfollows, -⟩ := h.follows hruns
  have hsmall' := h.small hsmall
  have hran := Call.stretch_ran hfollows.mapped (hfollows.lockable hsmall') hpending
  rw [hwaits] at hran
  have hcall := hran.waits.same
  cases stage with
  | readingAt offset =>
    obtain rfl : call = .readAt offset true := hcall.symm
    have hsought := hfollows.stretch_sought hsmall' (fun stage hp => hruns.same stage hp)
      (fun hp => by subst hp; exact hclient)
    rw [hwaits] at hsought
    cases hsought with
    | waiting asked blocked sights => exact sights
  | _ => trivial

/-- **Waiting lookups see what they wait for**, in stores that the library made. -/
theorem Made.sights (h : store.Made) :
    ∀ id client, store.client? id = some client → client.Sights := by
  induction h with
  | created => intro id client hclient; cases hclient
  | trimmed => intro id client hclient; cases hclient
  | @served store made small turn ih =>
    obtain ⟨i, htracks, -⟩ := made.tracks
    have hserved := store.serve_served turn
    generalize store.serve turn = result at hserved ⊢
    have hopens : ∀ config (opening : SharedFile × Opening), ∀ id client,
        (store.settleOpen turn.holder config opening).1.client? id = some client →
          client.Sights := by
      intro config ⟨file, opening⟩
      cases opening with
      | opened => exact forall_client_update ih (fun _ => id) turn.holder file trivial
      | waiting => exact forall_client_update ih (fun _ => id) turn.holder file trivial
      | failed => exact forall_client_remove ih (fun _ => id) turn.holder file
    cases hserved with
    | unavailable => exact ih
    | opening | reopening => exact hopens _ _
    | closed => exact forall_client_remove ih (fun _ => id) turn.holder _
    | @ran handle call pending runs =>
      have hclient := ih _ _ runs.client
      cases hresult : call.stretch pending (store.session turn.now turn.holder handle) with
      | error e s' => exact forall_client_update ih (fun _ => id) turn.holder s'.file trivial
      | ok progress s' =>
        cases progress with
        | answered a => exact forall_client_update ih (fun _ => id) turn.holder s'.file trivial
        | waiting stage =>
          exact forall_client_update ih (fun _ => id) turn.holder s'.file
            (htracks.stretch_sights small runs hclient hresult)

theorem Made.steady (h : store.Made) : store.Steady := by
  induction h with
  | created mtime => exact .ofBytes [] mtime
  | served _ _ turn ih => exact (ih.serve turn).2
  | trimmed _ _ mtime => exact .ofBytes _ mtime

/-- A turn leaves the locks of everybody else alone. -/
theorem Steady.serve_others (h : store.Steady) (turn : Turn) :
    (store.serve turn).1.file.locks.others turn.holder = store.file.locks.others turn.holder := by
  have hown := store.file.locks.within_held turn.holder
  have hopens : ∀ {owned : List Nat} {config : Config} {result : SharedFile × Opening},
      Admits (store.file.outset turn.holder) owned result →
        (store.settleOpen turn.holder config result).1.file.locks.others turn.holder =
          store.file.locks.others turn.holder := by
    intro owned config result hadmits
    rw [settleOpen_file]
    cases hadmits with
    | opened keeps => exact keeps.others
    | failed endures others => exact others
    | waiting bytes others => exact others
  have hserved := store.serve_served turn
  generalize store.serve turn = result at hserved ⊢
  cases hserved with
  | unavailable => rfl
  | opening => exact hopens (openFile_admits hown)
  | reopening => exact hopens (resumeOpen_admits (hown.mono (List.subset_append_right _ _)))
  | @closed handle quiet client =>
    show (closeFile turn.now turn.holder handle store.file).locks.others turn.holder = _
    rw [closeFile_locks]
    exact LockTable.others_release
  | ran runs =>
    rw [settleCall_file]
    exact h.stretch_others runs

/-- In this turn a lookup by offset runs and does not answer a record. -/
def SeeksInVain (store : Store) (offset : Nat) (keepLock : Bool) (turn : Turn) : Prop :=
  store.running? turn = some (.readAt offset keepLock) ∧
    ∀ r, (store.serve turn).2 ≠ .answered (.record (some r))

/-- One turn of such a lookup, or any turn of another client, gives a holder no lock. -/
theorem Steady.serve_seeks (h : store.Steady) {id : HolderId} {offset : Nat} {keepLock : Bool}
    (hseeks : turn.holder = id → store.SeeksInVain offset keepLock turn) {lock : ByteLock}
    (hlock : lock ∈ (store.serve turn).1.file.locks.held) (hown : lock.holder = id) :
    lock ∈ store.file.locks.held := by
  by_cases hid : turn.holder = id
  · obtain ⟨hrunning, hvain⟩ := hseeks hid
    obtain ⟨handle, pending, hruns, hserve⟩ := runs_of_running hrunning
    have hleaves := SessionM.stretch_leaves hruns.same (store.session turn.now turn.holder handle)
    rw [hserve] at hlock hvain
    have hholds : ∀ s' : Session, s'.Holds (store.session turn.now turn.holder handle) [] →
        lock ∈ s'.file.locks.held → lock ∈ store.file.locks.held := by
      intro s' hholds hmem
      rcases hholds.locks lock hmem (hown.trans hid.symm) with hold | ⟨o, ho, -⟩
      · exact hold
      · cases ho
    cases hresult : (Call.readAt offset keepLock).stretch pending
        (store.session turn.now turn.holder handle) with
    | error e s' =>
      rw [hresult] at hlock
      exact hholds s' (hleaves.error hresult) hlock
    | ok progress s' =>
      rw [hresult] at hlock hvain
      have hfree := hleaves.ok hresult
      cases progress with
      | answered a =>
        refine hholds s' (hfree fun r hr => hvain r ?_) hlock
        exact congrArg Outcome.answered (Progress.answered.inj hr)
      | waiting stage => exact hholds s' (hfree nofun) hlock
  · have hothers := h.serve_others turn
    have hmem : lock ∈ (store.serve turn).1.file.locks.others turn.holder :=
      List.mem_filter.2 ⟨hlock, bne_iff_ne.2 (hown ▸ Ne.symm hid)⟩
    rw [hothers] at hmem
    exact (List.mem_filter.1 hmem).1

/-- **A lookup by offset that answers no record** leaves its client no lock that it had not before,
however long it waits and whatever others do meanwhile. -/
theorem Steady.run_seeks (h : store.Steady) {id : HolderId} {offset : Nat} {keepLock : Bool}
    {turns : List Turn} (hseeks : store.Always
      (fun s turn => turn.holder = id → s.SeeksInVain offset keepLock turn) turns) :
    ∀ lock ∈ (store.run turns).1.file.locks.held, lock.holder = id → lock ∈ store.file.locks.held := by
  induction turns generalizing store with
  | nil => exact fun lock hlock _ => hlock
  | cons turn more ih =>
    intro lock hlock hown
    have hrest := ih (h.serve turn).2 hseeks.2 lock hlock hown
    exact h.serve_seeks hseeks.1 hrest hown

/-- How the turn of a lookup by offset ends. -/
theorem Made.serve_sought (h : store.Made) (hsmall : store.file.bytes.length < UInt32.size)
    {offset : Nat} {keepLock : Bool} (hrunning : store.running? turn = some (.readAt offset keepLock)) :
    ∃ (s : Session) (i : Image) (result : EStateM.Result Error Session Progress),
      s.holder = turn.holder ∧ s.file = store.file ∧ store.file.bytes = i.bytes ∧
        Sought s i offset keepLock result ∧ store.serve turn = store.settleCall turn.holder result := by
  obtain ⟨i, htracks, -⟩ := h.tracks
  obtain ⟨handle, pending, hruns, hserve⟩ := runs_of_running hrunning
  obtain ⟨-, hfollows, -⟩ := htracks.follows hruns
  refine ⟨store.session turn.now turn.holder handle, i, _, rfl, rfl, hfollows.bytes, ?_, hserve⟩
  refine hfollows.stretch_sought (htracks.small hsmall) hruns.same fun hpending => ?_
  have hsights := h.sights _ _ hruns.client
  rw [hpending] at hsights
  exact hsights

/-- **Lookups by offset** in a store that the library made.  A lookup that takes no lock, or whose lock
is free, is answered.  It answers a record exactly if some line of the file holds this record from the
offset on, which is the whole line if the line starts there; so a value that reads as a record is
answered as one.  While such a lookup answers no record it leaves its client no lock that it had not
before, however often it waits and whatever others do meanwhile. -/
theorem lookups_by_offset (hmade : store.Made) (hsmall : store.file.bytes.length < UInt32.size)
    (offset : Nat) (keepLock : Bool) :
    (∀ turn, store.running? turn = some (.readAt offset keepLock) →
      (keepLock = false ∨ store.file.locks.blocks turn.holder offset .exclusive = false →
        ∃ found, (store.serve turn).2 = .answered (.record found)) ∧
      ∀ found, (store.serve turn).2 = .answered (.record found) →
        (∀ r, found = some r ↔ r.offset = offset ∧ r.Closes store.file.bytes) ∧
        ∀ line ∈ linesFrom Header.length store.file.bytes, line.offset = offset →
          ∀ r, found = some r ↔ r.toLine = line) ∧
    ∀ id turns,
      store.Always (fun s turn => turn.holder = id → s.SeeksInVain offset keepLock turn) turns →
        ∀ lock ∈ (store.run turns).1.file.locks.held, lock.holder = id →
          lock ∈ store.file.locks.held := by
  refine ⟨fun turn hrunning => ⟨fun hfree => ?_, fun found hfound => ?_⟩,
    fun id turns hseeks => hmade.steady.run_seeks hseeks⟩
  · obtain ⟨s, i, result, hholder, hfile, -, hsought, hserve⟩ := hmade.serve_sought hsmall hrunning
    have hopen : ¬ (keepLock = true ∧ s.Blocked offset) := by
      intro ⟨hkeep, hblocked⟩
      rw [Session.Blocked, hholder, hfile] at hblocked
      simp [hkeep, hblocked] at hfree
    rw [hserve]
    cases hsought with
    | answered exact => exact ⟨_, rfl⟩
    | waiting asked blocked => exact absurd ⟨asked, blocked⟩ hopen
    | refused asked blocked => exact absurd ⟨asked, blocked⟩ hopen
  · obtain ⟨s, i, result, -, -, hbytes, hsought, hserve⟩ := hmade.serve_sought hsmall hrunning
    rw [hserve] at hfound
    have hexact : ∀ r, found = some r ↔ r.offset = offset ∧ r.Closes store.file.bytes := by
      rw [hbytes]
      cases hsought with
      | answered exact => cases hfound; exact exact
      | waiting => cases hfound
      | refused => cases hfound
    refine ⟨hexact, fun line hline hoffset r => ?_⟩
    rw [hexact]
    constructor
    · intro ⟨hr, hcloses⟩
      exact (Record.closes_iff_of_line hline (hr.trans hoffset.symm)).1 hcloses
    · intro hr
      have hr' : r.offset = line.offset := congrArg Line.offset hr
      exact ⟨hr'.trans hoffset, (Record.closes_iff_of_line hline hr').2 hr⟩

/-- A value that reads as a record. -/
def recordLike : Bytes :=
  ascii ['+', '0', '0', '0', '0', '0', '0', '0', '0', '.', '0', '0', '0', '0', ':', 'x']

/-- A store with one record, whose only value is that. -/
def masked : Store :=
  ((Store.ofBytes [] 9).run [⟨9, 1, .opening (.ofPath Config.defaultPath)⟩,
    ⟨9, 1, .call (.write ⟨ascii ['k'], some ⟨ascii ['f'], recordLike⟩, .transient⟩)⟩]).1

/-- A record of the key `x` is answered where no line starts; a lookup one byte behind the start of
the line answers none, and leaves no lock. -/
theorem lookups_by_offset_of_masked_value :
    (∃ r, (masked.serve ⟨9, 1, .call (.readAt 54 false)⟩).2 = .answered (.record (some r)) ∧
      r.key = ascii ['x'] ∧ r.Closes masked.file.bytes) ∧
    (∀ line ∈ linesFrom Header.length masked.file.bytes, line.offset ≠ 54) ∧
    (masked.serve ⟨9, 1, .call (.readAt 36 true)⟩).2 = .answered (.record none) ∧
    ∀ lock ∈ (masked.run [⟨9, 1, .call (.readAt 36 true)⟩]).1.file.locks.held, lock.holder = 1 →
      lock ∈ masked.file.locks.held := by
  have hmade : masked.Made :=
    .served (.served (.created 9) (by decide +kernel) ⟨9, 1, .opening (.ofPath Config.defaultPath)⟩)
      (by decide +kernel)
      ⟨9, 1, .call (.write ⟨ascii ['k'], some ⟨ascii ['f'], recordLike⟩, .transient⟩)⟩
  have hsmall : masked.file.bytes.length < UInt32.size := by decide +kernel
  have hnone : (masked.serve ⟨9, 1, .call (.readAt 36 true)⟩).2 = .answered (.record none) := by
    decide +kernel
  refine ⟨⟨⟨⟨54, recordLike ++ [newline]⟩, by decide +kernel⟩, by decide +kernel, by decide +kernel, ?_⟩,
    by decide +kernel, hnone, ?_⟩
  · have hfound := ((lookups_by_offset hmade hsmall 54 false).1 ⟨9, 1, .call (.readAt 54 false)⟩
      (by decide +kernel)).2
    exact (((hfound _ (by decide +kernel)).1 _).1 rfl).2
  · refine (lookups_by_offset hmade hsmall 36 true).2 1 _ ⟨fun _ => ⟨by decide +kernel, ?_⟩, trivial⟩
    intro r hr
    rw [hnone] at hr
    cases hr

end Store

end RecordStore
