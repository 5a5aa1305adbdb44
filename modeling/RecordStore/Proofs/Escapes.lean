import Mathlib.Tactic.Common
import RecordStore.Percent
import RecordStore.Proofs.Copies
import RecordStore.Proofs.Made

/-!
# Escaped values

Escaping leaves no byte that the record format gives a meaning to, so that any bytes can be stored as
a value.  Decoding skips the two bytes behind every `%`, whatever they are; it stays in step with the
encoder because an encoder puts a `%` nowhere but before two digits.  Only the zero byte is lost: its
escape comes back as `?`.

* `Percent.legible` — what is left of bytes that were escaped and read back.
* `Store.Tells` — a turn in which a lookup is answered with this and nothing else.
* `Store.HoldsOnce` — a store in which a key lives once at most.

Principal results: `Percent.decode_encode` — what was escaped is read back; `Percent.encode_decode_iff`
— which bytes are escaped values; `Store.HoldsOnce.tells_written`, `Store.writeEncoded_roundTrip` — the
same through a store, and what is told where a cut-off append has left the key more copies.
-/

set_option autoImplicit false

namespace RecordStore

namespace Percent

/-! ## One byte -/

/-- What a byte is read back as. -/
def legibleByte (b : UInt8) : UInt8 := if b = 0 then unknown else b

/-- What bytes that were escaped are read back as: the zero bytes are not told apart from `?`. -/
def legible (raw : Bytes) : Bytes := raw.map legibleByte

theorem legibleByte_ne_zero (b : UInt8) : legibleByte b ≠ 0 := by
  unfold legibleByte
  split
  · decide
  · assumption

theorem zero_notMem_legible (raw : Bytes) : 0 ∉ legible raw := by
  intro hzero
  obtain ⟨b, -, hb⟩ := List.mem_map.1 hzero
  exact legibleByte_ne_zero b hb

theorem legible_eq_self {raw : Bytes} (h : 0 ∉ raw) : legible raw = raw := by
  have hsame : ∀ b ∈ raw, legibleByte b = b := fun b hb =>
    if_neg fun hzero : b = 0 => h (hzero ▸ hb)
  rw [legible, List.map_congr_left hsame, List.map_id']

theorem isPlain_of_isDelimiter {b : UInt8} (h : isDelimiter b = true) : isPlain b = false := by
  simp only [isDelimiter, Bool.or_eq_true, beq_iff_eq] at h
  rcases h with (rfl | rfl) | rfl <;> decide

/-- Hex digits are plain. -/
theorem isPlain_digit {n : Nat} (h : n < 16) : isPlain (Hex.digit n) = true := by
  have : ∀ k : Fin 16, isPlain (Hex.digit k) = true := by decide
  exact this ⟨n, h⟩

/-- A byte is escaped to plain bytes and `%`. -/
theorem isPlain_of_mem_encodeByte {b c : UInt8} (h : c ∈ encodeByte b) :
    c = mark ∨ isPlain c = true := by
  have hb := b.toNat_lt
  unfold encodeByte at h
  split at h
  · next hplain =>
    rw [List.mem_singleton.1 h]
    exact Or.inr hplain
  · simp only [List.mem_cons, List.not_mem_nil, or_false] at h
    rcases h with rfl | rfl | rfl
    · exact Or.inl rfl
    · exact Or.inr (isPlain_digit (by omega))
    · exact Or.inr (isPlain_digit (by omega))

theorem isPlain_of_mem_encode {raw : Bytes} {c : UInt8} (h : c ∈ encode raw) :
    c = mark ∨ isPlain c = true := by
  obtain ⟨b, -, hc⟩ := List.mem_flatMap.1 h
  exact isPlain_of_mem_encodeByte hc

/-- **An escaped value can be stored**: it holds no delimiter. -/
theorem valueFault?_encode (raw : Bytes) : valueFault? (encode raw) = none := by
  have hclean : ¬ (encode raw).any isDelimiter = true := by
    rw [List.any_eq_true]
    rintro ⟨c, hc, hdelimiter⟩
    rcases isPlain_of_mem_encode hc with rfl | hplain
    · exact absurd hdelimiter (by decide)
    · rw [isPlain_of_isDelimiter hdelimiter] at hplain
      cases hplain
  rw [valueFault?, if_neg hclean]

/-- An escaped value does not hold the byte that ends a name. -/
theorem equals_notMem_encode (raw : Bytes) : equals ∉ encode raw := by
  intro h
  rcases isPlain_of_mem_encode h with h | h <;> exact absurd h (by decide)

/-! ## Reading back -/

/-- A byte other than `%` stands for itself. -/
theorem decode_cons {b : UInt8} (h : b ≠ mark) (rest : Bytes) :
    decode (b :: rest) = b :: decode rest := by
  match rest with
  | [] | [_] | _ :: _ :: _ => simp only [decode, if_neg h]

/-- A `%` takes the next two bytes, whatever they are. -/
theorem decode_mark (high low : UInt8) (rest : Bytes) :
    decode (mark :: high :: low :: rest) = escaped high low :: decode rest := by
  rw [decode, if_pos rfl]

/-- The digits of a byte stand for it. -/
theorem escaped_digits (b : UInt8) :
    escaped (Hex.digit (b.toNat / 16)) (Hex.digit (b.toNat % 16)) = legibleByte b := by
  have hb := b.toNat_lt
  have hsum : 16 * (b.toNat / 16) + b.toNat % 16 = b.toNat := Nat.div_add_mod _ _
  unfold escaped legibleByte
  rw [Hex.digit?_digit (by omega), Hex.digit?_digit (by omega)]
  simp only [hsum, UInt8.ofNat_toNat]
  congr 1
  exact propext ⟨fun h => UInt8.toNat_inj.1 h, fun h => h ▸ rfl⟩

/-- The encoder and the decoder stay in step over a byte. -/
theorem decode_encodeByte_append (b : UInt8) (rest : Bytes) :
    decode (encodeByte b ++ rest) = legibleByte b :: decode rest := by
  unfold encodeByte
  split
  · next hplain =>
    have hmark : b ≠ mark := by
      rintro rfl
      exact absurd hplain (by decide)
    have hzero : b ≠ 0 := by
      rintro rfl
      exact absurd hplain (by decide)
    rw [List.singleton_append, decode_cons hmark, legibleByte, if_neg hzero]
  · rw [List.cons_append, List.cons_append, List.singleton_append, decode_mark, escaped_digits]

/-- **What was escaped is read back**, but for the zero bytes. -/
theorem decode_encode (raw : Bytes) : decode (encode raw) = legible raw := by
  induction raw with
  | nil => rfl
  | cons b raw ih =>
    rw [encode, List.flatMap_cons, decode_encodeByte_append]
    exact congrArg (legibleByte b :: ·) ih

/-- **The escaped values** are the bytes that decoding and escaping again leaves alone.  Escapes that
are cut off, are not hex, are in upper case, spell the zero byte or a byte that needs no escape are
none. -/
theorem encode_decode_iff (s : Bytes) :
    encode (decode s) = s ↔ ∃ raw, 0 ∉ raw ∧ encode raw = s := by
  constructor
  · intro hsame
    refine ⟨decode s, ?_, hsame⟩
    -- the bytes decoded were escaped, so what is decoded is legible
    have hlegible := decode_encode (decode s)
    rw [hsame] at hlegible
    rw [hlegible]
    exact zero_notMem_legible _
  · rintro ⟨raw, hzero, rfl⟩
    rw [decode_encode, legible_eq_self hzero]

end Percent

/-! ## Through a store -/

/-- **A lookup that takes no lock is answered.** -/
theorem Session.Follows.read_answered {s : Session} {i : Image} (hs : s.Follows i) (key : Bytes)
    (part : Part) : ∃ a s', SessionM.read key part false s = .ok (.answered a) s' := by
  obtain ⟨s', -, ⟨r, -, -, hread⟩ | ⟨-, hread⟩⟩ := hs.read_cases key part
  · exact ⟨_, s', hread⟩
  · exact ⟨_, s', hread⟩

namespace Store

/-- In this turn a lookup of a part of a key has no answer but this one, and it has it if it is
asked for by a client between calls and takes no lock. -/
structure Tells (store : Store) (key : Bytes) (part : Part) (answer : Answer) (turn : Turn) :
    Prop where
  answered : ∀ keepLock a, store.Gives turn (.read key part keepLock) a → a = answer
  asked : ∀ handle, store.client? turn.holder = some (.idle handle) →
    turn.request = .call (.read key part false) → (store.serve turn).2 = .answered answer

/-- A store in which a key lives once at most: one that the library alone made, or one on a recovered
file where this is so. -/
inductive HoldsOnce (store : Store) (key : Bytes) : Prop where
  | made (made : store.Made)
  | recovered {i : Image} {mtime : Int} {before : List Turn} (formed : i.Formed)
    (small : (Store.ofBytes i.bytes mtime).Small before)
    (reached : ((Store.ofBytes i.bytes mtime).run before).1 = store)
    (once : (store.copies key).length ≤ 1)

variable {store : Store} {i : Image} {key : Bytes} {turn : Turn}

theorem HoldsOnce.tracks (h : store.HoldsOnce key) : ∃ (i : Image) (old : Option (List Field)),
    store.Tracks i ∧ store.copies key = old.toList := by
  cases h with
  | made made =>
    obtain ⟨i, htracks, hdistinct⟩ := made.tracks
    rw [← htracks.versions_eq] at hdistinct
    obtain ⟨old, hold⟩ := exists_copiesOf_eq hdistinct key
    exact ⟨i, old, htracks, hold⟩
  | recovered formed small reached once =>
    obtain ⟨j, htracks, -⟩ := (Tracks.ofBytes formed _).run small
    rw [reached] at htracks
    match hcopies : store.copies key with
    | [] => exact ⟨j, none, htracks, rfl⟩
    | [fields] => exact ⟨j, some fields, htracks, rfl⟩
    | _ :: _ :: _ =>
      rw [hcopies] at once
      simp at once

/-- **While nothing changes a key**, its copies stay as they are. -/
theorem Tracks.copies_run (h : store.Tracks i) {turns : List Turn} (hsmall : store.Small turns)
    (hquiet : store.Always (fun s turn => ¬ s.Changes key turn) turns) :
    (store.run turns).1.copies key = store.copies key := by
  induction turns generalizing store i with
  | nil => rfl
  | cons turn more ih =>
    obtain ⟨hfirst, hmore⟩ := hsmall
    obtain ⟨hrest, hquiet⟩ := hquiet
    obtain ⟨j, hj, -⟩ := h.serve hfirst turn
    have hsame : (store.serve turn).1.copies key = store.copies key := by
      refine h.serve_preserves (p := fun versions => copiesOf key versions = store.copies key) hfirst
        rfl ?_
      intro call answer after hfinishes hdoes
      exact hdoes.copies_eq fun htarget => hrest ⟨call, hfinishes, htarget⟩
    exact (ih hj hmore hquiet).trans hsame

/-- **A lookup of a key that lives once** tells what its only copy holds. -/
theorem Tracks.tells (h : store.Tracks i) (hsmall : store.file.bytes.length < UInt32.size)
    {fields : List Field} (hcopies : store.copies key = [fields]) {part : Part} {answer : Answer}
    (honly : ∀ a, part.Answers key (some fields) a → a = answer) :
    store.Tells key part answer turn := by
  have hgives : ∀ keepLock a, store.Gives turn (.read key part keepLock) a → a = answer := by
    intro keepLock a hgives
    obtain ⟨-, htells⟩ := h.does hsmall hgives
    have hcases := htells.copies
    rw [show copiesOf key store.versions = [fields] from hcopies] at hcases
    rcases hcases with ⟨hnil, -⟩ | ⟨fields', hmem, hanswers⟩
    · cases hnil
    · obtain rfl := List.mem_singleton.1 hmem
      exact honly a hanswers
  refine ⟨hgives, fun handle hclient hrequest => ?_⟩
  have hrunning : store.running? turn = some (.read key part false) := by
    simp only [running?, hclient, hrequest]
  obtain ⟨handle', pending, hruns, hserve⟩ := runs_of_running hrunning
  have hbegun : pending = none := by
    have hsame := hclient.symm.trans hruns.client
    cases pending with
    | none => rfl
    | some stage => cases hsame
  subst hbegun
  obtain ⟨-, hfollows, -⟩ := h.follows hruns
  obtain ⟨a, s', hread⟩ := hfollows.read_answered key part
  have hanswered : (store.serve turn).2 = .answered a := by
    rw [hserve, show Call.stretch (.read key part false) none = SessionM.read key part false from rfl,
      hread]
    rfl
  rw [hanswered, hgives false a ⟨hrunning, hanswered⟩]

/-- **What was written is told**: after a write of a field to a key that lives once at most, and
until the key is changed, a lookup of the key finds the field with its value. -/
theorem HoldsOnce.tells_written (h : store.HoldsOnce key) {field : Field} {mode : LockMode}
    (hwrite : store.Finishes turn (.write ⟨key, some field, mode⟩)) {later : List Turn}
    {reading : Turn} (hsmall : store.Small (turn :: (later ++ [reading])))
    (hquiet : (store.serve turn).1.Always (fun s turn => ¬ s.Changes key turn) later) {part : Part}
    {answer : Answer} (honly : equals ∉ field.name → ∀ fields a,
      valueOf? fields field.name = some field.value → part.Answers key (some fields) a → a = answer) :
    ((store.serve turn).1.run later).1.Tells key part answer reading := by
  obtain ⟨i, old, htracks, hold⟩ := h.tracks
  obtain ⟨hfirst, hafter⟩ := hsmall
  obtain ⟨hlater, hlast, -⟩ := Small.of_append hafter
  obtain ⟨hrunning, a, hanswered⟩ := hwrite
  obtain ⟨hfault, -, hrewrites⟩ := htracks.does hfirst ⟨hrunning, hanswered⟩
  have hname := ((WriteRequest.fits_of_requestFault? hfault).2 field rfl).name_plain
  obtain ⟨j, hj, -⟩ := htracks.serve hfirst turn
  obtain ⟨k, hk, -⟩ := hj.run hlater
  refine hk.tells hlast ((hj.copies_run hlater hquiet).trans (hrewrites.only_copy hold)) ?_
  exact fun a => honly hname _ a (valueOf?_setField_self _ _)

/-- **Escaped values round-trip.**  Any bytes can be escaped to a value that is stored as it is, and
they are read back with every zero byte as a `?`; decoding and escaping again leaves exactly the
escaped values without a zero byte alone.  So, in a store where the key lives once at most, after a
write of escaped bytes was answered, and until the key is changed, lookups of the field tell these
bytes, decoded, whoever asks and however it holds the file mapped.

Where an append that was cut off has left the key more copies, the write sets the field in one of
them, and a lookup may tell what another one holds, decoded. -/
theorem writeEncoded_roundTrip (raw text : Bytes) :
    (valueFault? (Percent.encode raw) = none ∧ equals ∉ Percent.encode raw ∧
      Percent.decode (Percent.encode raw) = Percent.legible raw) ∧
    (Percent.encode (Percent.decode text) = text ↔
      ∃ plain, 0 ∉ plain ∧ Percent.encode plain = text) ∧
    (∀ {store : Store} {turn reading : Turn} {key name : Bytes} {mode : LockMode}
      {later : List Turn}, store.HoldsOnce key →
      store.Finishes turn (.writeEncoded key name raw mode) →
      store.Small (turn :: (later ++ [reading])) →
      (store.serve turn).1.Always (fun s turn => ¬ s.Changes key turn) later →
      ((store.serve turn).1.run later).1.Tells key (.decodedField name)
        (.bytes (some (Percent.legible raw))) reading) ∧
    ∀ {i : Image} {mtime : Int} {before after : List Turn} {turn : Turn} {key name : Bytes}
      {mode : LockMode} {store : Store}, i.Formed →
      (Store.ofBytes i.bytes mtime).Small (before ++ turn :: after) →
      ((Store.ofBytes i.bytes mtime).run before).1 = store →
      store.Finishes turn (.writeEncoded key name raw mode) →
      (store.serve turn).1.Always (fun s turn => ¬ s.Changes key turn) after →
      ∃ (old : Option (List Field)) (others : List (List Field)),
        (store.copies key).Perm (old.toList ++ others) ∧ (old = none → others = []) ∧
          (store.serve turn).1.Lookups key (fun part answer => part = .decodedField name →
            answer = .bytes (some (Percent.legible raw)) ∨
              ∃ fields ∈ others, answer = .bytes ((valueOf? fields name).map Percent.decode)) after := by
  refine ⟨?_, Percent.encode_decode_iff text, ?_, ?_⟩
  · exact ⟨Percent.valueFault?_encode raw, Percent.equals_notMem_encode raw,
      Percent.decode_encode raw⟩
  · intro store turn reading key name mode later honce hwrite hsmall hquiet
    refine honce.tells_written hwrite hsmall hquiet fun hname fields a hvalue hanswers => ?_
    rw [hanswers hname, hvalue, Option.map_some, Percent.decode_encode]
  · intro i mtime before after turn key name mode store formed hsmall hreached hwrite hquiet
    obtain ⟨j, htracks, hthen⟩ := Tracks.of_recovered formed hsmall hreached
    obtain ⟨hname, old, others, hold, hnone, hlookups⟩ :=
      htracks.lookups_written hthen hwrite hquiet
    refine ⟨old, others, hold, hnone, hlookups.mono ?_⟩
    rintro part answer (hnew | ⟨fields, hother, hanswers⟩) rfl
    · refine Or.inl ?_
      rw [hnew hname, valueOf?_setField_self, Option.map_some, Percent.decode_encode]
    · exact Or.inr ⟨fields, hother, hanswers hname⟩

/-- Bytes that a value cannot hold as they are: a zero, delimiters, a `=`, a `%` and a high byte. -/
def oddBytes : Bytes := [0, 32, 61, 10, 37, 48, 255]

/-- A new store that two clients have open. -/
def openedTwice : Store :=
  ((Store.ofBytes [] 9).run [⟨9, 1, .opening (.ofPath Config.defaultPath)⟩,
    ⟨9, 2, .opening (.ofPath Config.defaultPath)⟩]).1

/-- The first client writes a field of a key, escaped. -/
def escapedWrite (key raw : Bytes) : Turn :=
  ⟨9, 1, .call (.writeEncoded key (ascii ['f']) raw .transient)⟩

/-- A lookup of the field, decoded. -/
def escapedLookup (key : Bytes) : Call := .read key (.decodedField (ascii ['f'])) false

/-- A client asks for it. -/
def escapedRead (client : HolderId) (key : Bytes) : Turn := ⟨9, client, .call (escapedLookup key)⟩

/-- The bytes are told to a client that has mapped an empty store, with a `?` in place of the zero,
though another key was written with its own value after them.  They are not told where the key lives
twice: a lookup by the client that wrote them finds the other copy. -/
theorem writeEncoded_roundTrip_of_one_and_two_copies :
    (((openedTwice.serve (escapedWrite (ascii ['k']) oddBytes)).1.run
      [escapedWrite (ascii ['m']) (ascii ['='])]).1.serve (escapedRead 2 (ascii ['k']))).2 =
      .answered (.bytes (some [63, 32, 61, 10, 37, 48, 255])) ∧
    ((doubled.serve (escapedWrite (ascii ['k']) (ascii ['3', '3']))).1.Gives
        (escapedRead 1 (ascii ['k'])) (escapedLookup (ascii ['k']))
        (.bytes (some (ascii ['1']))) ∧
      ∃ (old : Option (List Field)) (others : List (List Field)),
        (doubled.copies (ascii ['k'])).Perm (old.toList ++ others) ∧
          ∃ fields ∈ others,
            (valueOf? fields (ascii ['f'])).map Percent.decode = some (ascii ['1'])) := by
  constructor
  · have hmade : openedTwice.Made :=
      .served (.served (.created 9) (by decide +kernel) ⟨9, 1, .opening (.ofPath Config.defaultPath)⟩)
        (by decide +kernel) ⟨9, 2, .opening (.ofPath Config.defaultPath)⟩
    have hrunning : openedTwice.running? (escapedWrite (ascii ['k']) oddBytes) =
        some (.writeEncoded (ascii ['k']) (ascii ['f']) oddBytes .transient) := by decide +kernel
    have hanswered : (openedTwice.serve (escapedWrite (ascii ['k']) oddBytes)).2 = .answered .done := by
      decide +kernel
    have hother : (openedTwice.serve (escapedWrite (ascii ['k']) oddBytes)).1.running?
        (escapedWrite (ascii ['m']) (ascii ['='])) =
          some (.writeEncoded (ascii ['m']) (ascii ['f']) (ascii ['=']) .transient) := by decide +kernel
    have hclient : ((openedTwice.serve (escapedWrite (ascii ['k']) oddBytes)).1.run
        [escapedWrite (ascii ['m']) (ascii ['='])]).1.client? 2 = some (.idle
          ⟨.ofPath Config.defaultPath, Header.length, 0, ⟨35, 0⟩, none, false⟩) := by decide +kernel
    have hsmall : openedTwice.Small (escapedWrite (ascii ['k']) oddBytes ::
        ([escapedWrite (ascii ['m']) (ascii ['='])] ++ [escapedRead 2 (ascii ['k'])])) := by
      decide +kernel
    have htells := (writeEncoded_roundTrip oddBytes []).2.2.1 (.made hmade)
      ⟨hrunning, _, hanswered⟩ hsmall ⟨not_changes hother (by decide), trivial⟩
    exact htells.asked _ hclient rfl
  · have hsmall : (Store.ofBytes twoCopies.bytes 100).Small
        ([⟨100, 1, .opening (.ofPath Config.defaultPath)⟩] ++
          escapedWrite (ascii ['k']) (ascii ['3', '3']) :: [escapedRead 1 (ascii ['k'])]) := by
      decide +kernel
    have hgives : (doubled.serve (escapedWrite (ascii ['k']) (ascii ['3', '3']))).1.Gives
        (escapedRead 1 (ascii ['k'])) (escapedLookup (ascii ['k']))
        (.bytes (some (ascii ['1']))) := ⟨by decide +kernel, by decide +kernel⟩
    have hwrite : doubled.Finishes (escapedWrite (ascii ['k']) (ascii ['3', '3']))
        (.writeEncoded (ascii ['k']) (ascii ['f']) (ascii ['3', '3']) .transient) :=
      ⟨by decide +kernel, .done, by decide +kernel⟩
    obtain ⟨old, others, hperm, -, hlookups⟩ :=
      (writeEncoded_roundTrip (ascii ['3', '3']) []).2.2.2 twoCopies_formed hsmall rfl hwrite
        ⟨not_changes hgives.1 (by decide), trivial⟩
    refine ⟨hgives, old, others, hperm, ?_⟩
    rcases hlookups.1 _ _ _ hgives rfl with hnew | ⟨fields, hfields, hold⟩
    · exact absurd hnew (by decide)
    · rw [Answer.bytes.injEq] at hold
      exact ⟨fields, hfields, hold.symm⟩

end Store

end RecordStore
