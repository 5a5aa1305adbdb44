import Mathlib.Algebra.Group.Nat.Defs
import Mathlib.Tactic.Common
import RecordStore.Proofs.Fields
import RecordStore.Proofs.Search

/-!
# Reading lines with checked accesses

The functions on lines are said in terms of whole lists.  Here they are said once more in terms of
offsets into the data, as they work on mapped memory: each byte, stretch, sum and difference is checked,
and what does not exist is a fault.  No fault arises, and the answers are the same.

* `Checked` — a computation that stops at the first `Fault`.
* `Checked.byteAt`, `Checked.slice`, `Checked.add`, `Checked.sub`, `Checked.within` — the checks.
* `Checked.pastFirst`, `Checked.behindLast` — where a line ends, and where the last one starts.
* `Checked.hasSlot`, `Checked.keyOf`, `Checked.defect?`, `Checked.decode` — a line read with checks.

Principal results: `Checked.pastFirst_eq`, `Checked.behindLast_eq`, `Checked.decode_eq` and the other
equations — no fault arises, and the answer is that of the unchecked function.
-/

set_option autoImplicit false

namespace RecordStore

/-- What a checked computation stops at. -/
inductive Fault where
  /-- A byte that is not there. -/
  | index (i : Nat)
  /-- A stretch that ends before it starts, or past the data. -/
  | slice (start stop : Nat)
  /-- A sum that is no 64-bit number. -/
  | sum (n : Nat)
  /-- A difference below zero. -/
  | difference (a b : Nat)
  /-- A step from a range to one that is not a smaller part of it. -/
  | range (start stop : Nat)
  deriving DecidableEq, Repr

abbrev Checked := Except Fault

/-- The bytes between two offsets. -/
def between (data : Bytes) (start stop : Nat) : Bytes := (data.take stop).drop start

/-- The second range is a part of the first, and smaller. -/
def Narrows (start stop start' stop' : Nat) : Prop :=
  start ≤ start' ∧ start' ≤ stop' ∧ stop' ≤ stop ∧ stop' - start' < stop - start

instance (start stop start' stop' : Nat) : Decidable (Narrows start stop start' stop') :=
  inferInstanceAs (Decidable (_ ∧ _))

namespace Checked

def byteAt (data : Bytes) (i : Nat) : Checked UInt8 :=
  match data[i]? with
  | some b => .ok b
  | none => .error (.index i)

def slice (data : Bytes) (start stop : Nat) : Checked Bytes :=
  if start ≤ stop ∧ stop ≤ data.length then .ok (between data start stop)
  else .error (.slice start stop)

def add (a b : Nat) : Checked Nat := if a + b < 2 ^ 64 then .ok (a + b) else .error (.sum (a + b))

def sub (a b : Nat) : Checked Nat := if b ≤ a then .ok (a - b) else .error (.difference a b)

/-- Goes on with a range, if it is a smaller part of the one at hand. -/
def within {α : Type} (start stop start' stop' : Nat)
    (step : Narrows start stop start' stop' → Checked α) : Checked α :=
  if h : Narrows start stop start' stop' then step h else .error (.range start' stop')

section Basic

variable {data : Bytes} {start stop : Nat}

theorem ok_bind {α β : Type} (a : α) (next : α → Checked β) : (.ok a >>= next) = next a := rfl

theorem byteAt_eq {i : Nat} {b : UInt8} (h : data[i]? = some b) : byteAt data i = .ok b := by
  rw [byteAt, h]

theorem slice_eq (hle : start ≤ stop) (hlen : stop ≤ data.length) :
    slice data start stop = .ok (between data start stop) := if_pos ⟨hle, hlen⟩

theorem add_eq {a b : Nat} (h : a + b < 2 ^ 64) : add a b = .ok (a + b) := if_pos h

theorem sub_eq {a b : Nat} (h : b ≤ a) : sub a b = .ok (a - b) := if_pos h

theorem within_eq {α : Type} {start' stop' : Nat}
    {step : Narrows start stop start' stop' → Checked α} (h : Narrows start stop start' stop') :
    within start stop start' stop' step = step h := dif_pos h

theorem length_between (hlen : stop ≤ data.length) :
    (between data start stop).length = stop - start := by
  rw [between, List.length_drop, List.length_take, Nat.min_eq_left hlen]

/-- What two stretches in a row are, taken apart. -/
theorem between_cut {front rest : Bytes} (hle : start ≤ stop) (hlen : stop ≤ data.length)
    (h : between data start stop = front ++ rest) : start + front.length ≤ stop ∧
      between data start (start + front.length) = front ∧
      between data (start + front.length) stop = rest := by
  have hcount := congrArg List.length h
  rw [length_between hlen, List.length_append] at hcount
  have hinside : start + front.length ≤ stop := by omega
  refine ⟨hinside, ?_, ?_⟩
  · calc between data start (start + front.length)
        = (between data start stop).take front.length := by
          rw [between, between, List.take_drop, List.take_take, Nat.min_eq_left hinside]
      _ = front := by rw [h, List.take_left]
  · calc between data (start + front.length) stop
        = (between data start stop).drop front.length := by rw [between, between, List.drop_drop]
      _ = rest := by rw [h, List.drop_left]

theorem between_length : between data start data.length = data.drop start := by
  rw [between, List.take_length]

end Basic

/-! ## Where lines end and start -/

/-- Where the line that starts at `start` ends, at `stop` at the latest. -/
def pastFirst (data : Bytes) (start stop : Nat) : Checked Nat := do
  let rest ← slice data start stop
  match rest.idxOf? newline with
  | some i => add (← add start i) 1
  | none => pure stop

/-- Where the line that reaches up to `stop` starts, at `start` at the earliest. -/
def behindLast (data : Bytes) (start stop : Nat) : Checked Nat := do
  let front ← slice data start stop
  match front.reverse.idxOf? newline with
  | some i => add (← add start (← sub (← sub front.length 1) i)) 1
  | none => pure start

theorem length_takeLine (s : Bytes) : (takeLine s).length =
    match s.idxOf? newline with
    | some i => i + 1
    | none => s.length := by
  induction s with
  | nil => rfl
  | cons b rest ih =>
    by_cases hb : b = newline
    · simp [takeLine, List.idxOf?_cons, hb]
    · rw [takeLine, if_neg hb, List.length_cons, ih, List.idxOf?_cons]
      cases rest.idxOf? newline <;> simp [hb]

theorem length_dropWhile_newline (s : Bytes) : (s.dropWhile (· != newline)).length =
    match s.idxOf? newline with
    | some i => s.length - i
    | none => 0 := by
  induction s with
  | nil => rfl
  | cons b rest ih =>
    by_cases hb : b = newline
    · simp [List.idxOf?_cons, hb]
    · rw [List.dropWhile_cons, if_pos (bne_iff_ne.2 hb), ih, List.idxOf?_cons]
      cases rest.idxOf? newline <;> simp [hb]

section Lines

variable {data : Bytes} {start stop : Nat}

theorem pastFirst_eq (hle : start ≤ stop) (hlen : stop ≤ data.length) (hbig : data.length < 2 ^ 63) :
    pastFirst data start stop = .ok (start + (takeLine (between data start stop)).length) := by
  rw [pastFirst, slice_eq hle hlen, ok_bind, length_takeLine]
  cases hi : (between data start stop).idxOf? newline with
  | none =>
    dsimp only
    rw [length_between hlen, Nat.add_sub_cancel' hle]
    rfl
  | some i =>
    obtain ⟨hlt, -⟩ := List.idxOf?_eq_some_iff.1 hi
    rw [length_between hlen] at hlt
    dsimp only
    rw [add_eq (by omega), ok_bind, add_eq (by omega), Nat.add_assoc]

theorem behindLast_eq (hle : start ≤ stop) (hlen : stop ≤ data.length)
    (hbig : data.length < 2 ^ 63) :
    behindLast data start stop = .ok (start + (wholeLines (between data start stop)).length) := by
  have hcount : (between data start stop).length = stop - start := length_between hlen
  rw [behindLast, slice_eq hle hlen, ok_bind, wholeLines, List.length_reverse,
    length_dropWhile_newline, List.length_reverse]
  cases hi : (between data start stop).reverse.idxOf? newline with
  | none => rfl
  | some i =>
    obtain ⟨hlt, -⟩ := List.idxOf?_eq_some_iff.1 hi
    rw [List.length_reverse] at hlt
    dsimp only
    have hback : (between data start stop).length - 1 - i + 1 =
        (between data start stop).length - i := by omega
    rw [sub_eq (by omega), ok_bind, sub_eq (by omega), ok_bind, add_eq (by omega), ok_bind,
      add_eq (by omega), Nat.add_assoc, hback]

end Lines

/-! ## Lines read -/

def hasSlot (text : Bytes) : Checked Bool :=
  if keyAt < text.length ∧ endsLine text = true then do
    pure (Hex.parse? (← slice text slotAt (slotAt + Hex.wordLen))).isSome
  else pure false

def keyOf (text : Bytes) : Checked Bytes :=
  if text.length ≤ keyAt then pure []
  else do
    let rest ← slice text keyAt text.length
    slice rest 0 ((rest.findIdx? isDelimiter).getD rest.length)

/-- The first rule of the record format that a line breaks. -/
def defect? (text : Bytes) : Checked (Option RecordDefect) :=
  if text.length ≤ keyAt then pure (some .short)
  else do
    let flag ← byteAt text 0
    if flag ≠ liveFlag ∧ flag ≠ deadFlag then pure (some .flag)
    else if (Hex.parse? (← slice text slotAt (slotAt + Hex.wordLen))).isNone then pure (some .slot)
    else if (Hex.parse? (← slice text modCountAt (modCountAt + 4))).isNone then pure (some .counter)
    else if (← byteAt text (keyAt - 1)) ≠ ':'.toUInt8 then pure (some .colon)
    else pure none

/-- The record that a line is, if it breaks no rule. -/
def ofLine? (line : Line) : Checked (Option Record) := do
  match ← defect? line.text with
  | none => pure (Record.ofLine? line)
  | some _ => pure none

/-- The record whose line starts at an offset, if there is one. -/
def decode (data : Bytes) (offset : Nat) : Checked (Option Record) :=
  if data.length ≤ offset then pure none
  else do
    let stop ← pastFirst data offset data.length
    ofLine? ⟨offset, ← slice data offset stop⟩

/-- The slot of a record. -/
def slot (r : Record) : Checked UInt32 := do
  pure ((Hex.parse? (← slice r.text slotAt (slotAt + Hex.wordLen))).getD unsorted)

def isLive (r : Record) : Checked Bool := do
  pure ((← byteAt r.text 0) == liveFlag)

section Reading

variable {data text : Bytes} {offset : Nat}

theorem between_add (start count : Nat) :
    between text start (start + count) = (text.drop start).take count := by
  rw [between, List.drop_take, Nat.add_sub_cancel_left]

/-- The line at an offset. -/
theorem between_takeLine (data : Bytes) (offset : Nat) :
    between data offset (offset + (takeLine (data.drop offset)).length) =
      takeLine (data.drop offset) := by
  have hcut := takeLine_append_dropLine (data.drop offset)
  rw [between_add]
  exact (congrArg (List.take _) hcut.symm).trans List.take_left

theorem slice_slot (h : keyAt < text.length) :
    slice text slotAt (slotAt + Hex.wordLen) = .ok ((text.drop slotAt).take Hex.wordLen) := by
  rw [slice_eq (by decide) (Nat.le_trans (by decide) (Nat.le_of_lt h)), between_add]

theorem hasSlot_eq (text : Bytes) : hasSlot text = .ok (RecordStore.hasSlot text) := by
  rw [hasSlot, RecordStore.hasSlot]
  split
  · next h =>
    rw [slice_slot h.1]
    simp only [decide_eq_true h.1, h.2, Bool.true_and]
    rfl
  · next h =>
    by_cases hlt : keyAt < text.length
    · simp only [hlt, true_and, Bool.not_eq_true] at h
      simp only [h, Bool.and_false, Bool.false_and]
      rfl
    · simp only [hlt, decide_false, Bool.false_and]
      rfl

theorem keyOf_eq (text : Bytes) : keyOf text = .ok (RecordStore.keyOf text) := by
  rw [keyOf, RecordStore.keyOf]
  split
  · next h =>
    rw [List.drop_eq_nil_of_le h]
    rfl
  · next h =>
    rw [slice_eq (by omega) (Nat.le_refl _), between_length]
    change slice (text.drop keyAt) 0 _ = _
    rw [← List.findIdx_eq_getD_findIdx?, slice_eq (Nat.zero_le _) List.findIdx_le_length, between,
      List.drop_zero, List.takeWhile_eq_take_findIdx_not]
    simp only [Bool.not_not]

theorem defect?_eq (text : Bytes) : defect? text = .ok (RecordStore.defect? text) := by
  rw [defect?, RecordStore.defect?]
  split
  · rfl
  · next h =>
    rw [Nat.not_le] at h
    have hslot := slice_slot h
    have hcount : slice text modCountAt (modCountAt + 4) = .ok ((text.drop modCountAt).take 4) := by
      rw [slice_eq (by decide) (Nat.le_trans (by decide) (Nat.le_of_lt h)), between_add]
    have hflag : text[0]? = some text[0] := List.getElem?_eq_getElem (by omega)
    have hcolon : text[keyAt - 1]? = some text[keyAt - 1] := List.getElem?_eq_getElem (by omega)
    simp only [byteAt_eq hflag, byteAt_eq hcolon, hslot, hcount, hcolon, List.head?_eq_getElem?, hflag,
      slot?, ok_bind, ne_eq, Option.some.injEq]
    split_ifs <;> rfl

theorem ofLine?_eq (line : Line) : ofLine? line = .ok (Record.ofLine? line) := by
  rw [ofLine?, defect?_eq, ok_bind]
  cases h : RecordStore.defect? line.text with
  | none => rfl
  | some defect =>
    have hnone : Record.ofLine? line = none := by
      by_contra hsome
      obtain ⟨r, hr⟩ := Option.ne_none_iff_exists'.1 hsome
      rw [(Record.ofLine?_eq_some_iff.1 hr).1] at h
      cases h
    rw [hnone]
    rfl

theorem decode_eq (hbig : data.length < 2 ^ 63) :
    decode data offset = .ok (Record.decode data offset).toOption := by
  rw [decode, Record.decode]
  split
  · rfl
  · next h =>
    rw [Nat.not_le] at h
    have hline : (takeLine (data.drop offset)).length ≤ data.length - offset := by
      have := length_takeLine_add_length_dropLine (data.drop offset)
      rw [List.length_drop] at this
      omega
    rw [pastFirst_eq (Nat.le_of_lt h) (Nat.le_refl _) hbig, ok_bind, between_length,
      slice_eq (Nat.le_add_right ..) (by omega), ok_bind, between_takeLine, ofLine?_eq, Record.ofLine?]
    cases Record.ofLine ⟨offset, takeLine (data.drop offset)⟩ <;> rfl

theorem slot_eq (r : Record) : slot r = .ok r.slot := by
  rw [slot, slice_slot (keyAt_lt_of_defect? r.wellFormed)]
  rfl

theorem isLive_eq (r : Record) : isLive r = .ok r.isLive := by
  have hlt := keyAt_lt_of_defect? r.wellFormed
  have hflag : r.text[0]? = some r.text[0] := List.getElem?_eq_getElem (by omega)
  rw [isLive, byteAt_eq hflag, Record.isLive, List.head?_eq_getElem?, hflag]
  rfl

end Reading

end Checked

end RecordStore
