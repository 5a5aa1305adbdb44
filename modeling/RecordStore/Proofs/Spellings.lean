import Mathlib.Data.Nat.Digits.Defs
import Mathlib.Tactic.Common
import RecordStore.Proofs.Boundaries

/-!
# Spellings of words and headers

A word can be spelt with digits of either case, a header with the counters that its words spell.
Reading takes any spelling; writing has one of its own, the lower-case one of eight digits.

* `Hex.alphabet`, `Hex.lower` — the sixteen digits, and a letter in lower case.
* `Hex.IsDigit`, `Hex.worth`, `Hex.value` — which bytes are digits of either case, what a digit is
  worth, and the number that digits spell.
* `Header.layout` — a header put together from its version and the spellings of its counters.
* `Header.lowered` — header bytes with the digits of the counters in lower case.

Principal results: `Hex.parse?_eq_some_iff` — what reads as a word, and as which; `Hex.word_of_parse?`
— writing what was read; `Header.exists_layout` — what reads as a header; `Header.codec` — header and
words, read and written.
-/

set_option autoImplicit false

namespace RecordStore

/-! ## Words -/

namespace Hex

/-- The digits, in the order of their worth. -/
def alphabet : Bytes :=
  ascii ['0', '1', '2', '3', '4', '5', '6', '7', '8', '9', 'a', 'b', 'c', 'd', 'e', 'f']

/-- A capital letter becomes the small one; any other byte stays. -/
def lower (b : UInt8) : UInt8 := if 'A'.toUInt8 ≤ b ∧ b ≤ 'Z'.toUInt8 then b + 32 else b

/-- A digit of either case. -/
def IsDigit (b : UInt8) : Prop := lower b ∈ alphabet

instance (b : UInt8) : Decidable (IsDigit b) := inferInstanceAs (Decidable (_ ∈ _))

/-- What a digit is worth: its place in the alphabet. -/
def worth (b : UInt8) : Nat := alphabet.idxOf (lower b)

/-- The number that digits spell in base sixteen, most significant first. -/
def value (s : Bytes) : Nat := Nat.ofDigits 16 (s.map worth).reverse

theorem forall_byte {p : UInt8 → Prop} (h : ∀ k : Fin 256, p (UInt8.ofNat k)) (b : UInt8) : p b := by
  have := h ⟨b.toNat, b.toNat_lt⟩
  rwa [UInt8.ofNat_toNat] at this

/-- **The digits read are those of the alphabet**, each for its place there. -/
theorem digit?_eq (b : UInt8) : digit? b = if IsDigit b then some (worth b) else none := by
  revert b
  refine forall_byte ?_
  decide +kernel

/-- The digit written for what a digit is worth is its lower case. -/
theorem digit_worth {b : UInt8} (h : IsDigit b) : digit (worth b) = lower b := by
  have hall : ∀ b, IsDigit b → digit (worth b) = lower b := by
    refine forall_byte ?_
    decide +kernel
  exact hall b h

theorem worth_lt {b : UInt8} (h : IsDigit b) : worth b < 16 := List.idxOf_lt_length_of_mem h

theorem digits?_eq_some_iff {s : Bytes} {ds : List Nat} :
    digits? s = some ds ↔ (∀ b ∈ s, IsDigit b) ∧ ds = s.map worth := by
  induction s generalizing ds with
  | nil => simp [digits?, eq_comm]
  | cons b rest ih =>
    rw [digits?, digit?_eq]
    by_cases hb : IsDigit b
    · rw [if_pos hb]
      cases hrest : digits? rest with
      | none =>
        have hnot : ¬ ∀ c ∈ rest, IsDigit c := fun hall => by
          rw [ih.2 ⟨hall, rfl⟩] at hrest
          cases hrest
        simp [hb, hnot]
      | some more =>
        obtain ⟨hall, rfl⟩ := ih.1 hrest
        simp only [Option.some.injEq, List.forall_mem_cons, hb, true_and, List.map_cons]
        exact ⟨fun h => ⟨hall, h.symm⟩, fun h => h.2.symm⟩
    · simp [hb]

theorem ofDigits_eq (ds : List Nat) : ofDigits ds = Nat.ofDigits 16 ds.reverse := by
  rw [ofDigits, Nat.ofDigits_eq_foldr, List.foldr_reverse]
  congr 1
  funext acc d
  exact Nat.add_comm _ _

/-- Digits spell a number that their count bounds. -/
theorem value_lt {s : Bytes} (h : ∀ b ∈ s, IsDigit b) : value s < 16 ^ s.length := by
  have := Nat.ofDigits_lt_base_pow_length (b := 16) (l := (s.map worth).reverse) (by decide)
    fun d hd => by
      obtain ⟨b, hb, rfl⟩ := List.mem_map.1 (List.mem_reverse.1 hd)
      exact worth_lt (h b hb)
  simpa [value] using this

/-- **What reads as a word**: one to eight digits of either case, for the number that they spell. -/
theorem parse?_eq_some_iff {s : Bytes} {v : UInt32} :
    parse? s = some v ↔
      0 < s.length ∧ s.length ≤ 8 ∧ (∀ b ∈ s, IsDigit b) ∧ v.toNat = value s := by
  have hfits : s.length ≤ 8 → (∀ b ∈ s, IsDigit b) → value s < 2 ^ 32 := fun hlen hall =>
    lt_of_lt_of_le (value_lt hall) (Nat.pow_le_pow_right (by decide) hlen)
  rw [parse?, List.length_pos_iff]
  split
  · next hbad =>
    refine iff_of_false (by simp) ?_
    rintro ⟨hne, hle, -⟩
    rcases hbad with rfl | hlong
    · exact hne rfl
    · omega
  · next hgood =>
    rw [not_or, Nat.not_lt] at hgood
    simp only [Option.map_eq_some_iff, digits?_eq_some_iff, ofDigits_eq]
    constructor
    · rintro ⟨ds, ⟨hall, rfl⟩, rfl⟩
      exact ⟨hgood.1, hgood.2, hall, UInt32.toNat_ofNat_of_lt' (hfits hgood.2 hall)⟩
    · rintro ⟨-, -, hall, hv⟩
      refine ⟨_, ⟨hall, rfl⟩, ?_⟩
      change UInt32.ofNat (value s) = v
      rw [← hv, UInt32.ofNat_toNat]

/-- Eight digit values below sixteen are the digits of the number that they spell. -/
theorem digitsOf_ofDigits {ds : List Nat} (hlen : ds.length = 8) (hlt : ∀ d ∈ ds, d < 16)
    {v : UInt32} (hv : v.toNat = ofDigits ds) : digitsOf v = ds := by
  match ds, hlen with
  | [a, b, c, d, e, f, g, h], _ =>
    simp only [List.mem_cons, List.not_mem_nil, or_false, forall_eq_or_imp, forall_eq] at hlt
    simp only [ofDigits, List.foldl_cons, List.foldl_nil] at hv
    simp only [digitsOf, places, List.map_cons, List.map_nil, hv, List.cons.injEq, and_true]
    omega

/-- **Writing what was read** gives the digits read in lower case, where there were eight. -/
theorem word_of_parse? {s : Bytes} {v : UInt32} (h : parse? s = some v) (hlen : s.length = 8) :
    word v = s.map lower := by
  obtain ⟨-, -, hall, hv⟩ := parse?_eq_some_iff.1 h
  have hdigits : digitsOf v = s.map worth := by
    refine digitsOf_ofDigits (by rw [List.length_map, hlen]) ?_ (hv.trans (ofDigits_eq _).symm)
    intro d hd
    obtain ⟨b, hb, rfl⟩ := List.mem_map.1 hd
    exact worth_lt (hall b hb)
  rw [word_eq_map_digit, hdigits, List.map_map]
  exact List.map_congr_left fun b hb => digit_worth (hall b hb)

end Hex

/-! ## Headers -/

namespace Header

/-- A header put together from its version and the spellings of its counters. -/
def layout (version : Bytes) (counters : Counter → Bytes) : Bytes :=
  magic ++ version ++ [blank] ++ counters .appendSeq ++ [blank] ++ counters .modified ++ [blank]
    ++ counters .sinceSort ++ [newline]

theorem encode_eq_layout (h : Header) :
    h.encode = layout h.version fun counter => Hex.word (counter.read h) := rfl

theorem counterAt?_of_decode? {bytes : Bytes} {h : Header} (hdec : decode? bytes = some h)
    (counter : Counter) : counterAt? bytes counter.offset = some (counter.read h) := by
  unfold decode? at hdec
  split at hdec
  · split at hdec
    · split at hdec
      · next hseq hmod hsort =>
        obtain rfl := Option.some.inj hdec
        cases counter
        · exact hseq
        · exact hmod
        · exact hsort
      · cases hdec
    · cases hdec
  · cases hdec

theorem take_one_drop {bytes : Bytes} {i : Nat} {b : UInt8} (h : bytes[i]? = some b) :
    (bytes.drop i).take 1 = [b] := by
  rw [List.take_one, List.head?_drop, h, Option.toList_some]

/-- **What reads as a header** is laid out like one, from spellings of its counters. -/
theorem exists_layout {bytes : Bytes} {h : Header} (hdec : decode? bytes = some h) :
    ∃ counters : Counter → Bytes, bytes.take length = layout h.version counters ∧
      ∀ counter, (counters counter).length = 8 ∧
        Hex.parse? (counters counter) = some (counter.read h) := by
  have hread : Legible bytes := legible_iff.2 (by rw [hdec]; rfl)
  obtain ⟨hmagic, h34, h7, h16, h25⟩ := hread.fixed
  refine ⟨fun counter => (bytes.drop counter.offset).take Hex.wordLen, ?_, fun counter => ?_⟩
  · change bytes.take (2 + 5 + 1 + 8 + 1 + 8 + 1 + 8 + 1) = _
    rw [List.take_add, List.take_add, List.take_add, List.take_add, List.take_add, List.take_add,
      List.take_add, List.take_add]
    simp only [Nat.reduceAdd, hmagic, take_one_drop h7, take_one_drop h16, take_one_drop h25,
      take_one_drop h34, ← version_of_decode? hdec]
    rfl
  · have hcounter := counterAt?_of_decode? hdec counter
    unfold counterAt? at hcounter
    split at hcounter
    · next hle =>
      refine ⟨?_, hcounter⟩
      rw [List.length_take, List.length_drop]
      simp only [Hex.wordLen] at hle ⊢
      omega
    · cases hcounter

instance (i : Nat) : Decidable (InCounter i) :=
  decidable_of_iff (∃ counter ∈ [Counter.appendSeq, .modified, .sinceSort],
      counter.offset ≤ i ∧ i < counter.offset + Hex.wordLen)
    ⟨fun ⟨counter, _, h⟩ => ⟨counter, h⟩, fun ⟨counter, h⟩ => ⟨counter, by cases counter <;> simp, h⟩⟩

/-- Bytes that stand in a header from `start` on, with the digits of the counters in lower case. -/
def lowered (start : Nat) (s : Bytes) : Bytes :=
  s.mapIdx fun i b => if InCounter (start + i) then Hex.lower b else b

theorem lowered_append (start : Nat) (s t : Bytes) :
    lowered start (s ++ t) = lowered start s ++ lowered (start + s.length) t := by
  simp only [lowered, List.mapIdx_append, Nat.add_assoc, Nat.add_comm s.length]

/-- Outside the counters everything stays. -/
theorem lowered_outside {start : Nat} {s : Bytes} (h : ∀ i < s.length, ¬ InCounter (start + i)) :
    lowered start s = s := by
  refine List.ext_getElem? fun i => ?_
  rw [lowered, List.getElem?_mapIdx]
  cases hi : s[i]? with
  | none => rfl
  | some b => rw [Option.map_some, if_neg (h i (List.getElem?_eq_some_iff.1 hi).1)]

theorem lowered_counter (counter : Counter) {s : Bytes} (h : s.length = Hex.wordLen) :
    lowered counter.offset s = s.map Hex.lower := by
  refine List.ext_getElem? fun i => ?_
  rw [lowered, List.getElem?_mapIdx, List.getElem?_map]
  cases hi : s[i]? with
  | none => rfl
  | some b =>
    have hlt : i < Hex.wordLen := h ▸ (List.getElem?_eq_some_iff.1 hi).1
    have hin : InCounter (counter.offset + i) :=
      ⟨counter, Nat.le_add_right .., Nat.add_lt_add_left hlt _⟩
    rw [Option.map_some, Option.map_some, if_pos hin]

theorem lowered_layout {version : Bytes} (hversion : version.length = 5)
    {counters : Counter → Bytes} (hlen : ∀ counter, (counters counter).length = 8) :
    lowered 0 (layout version counters) =
      layout version fun counter => (counters counter).map Hex.lower := by
  have hmagic : lowered 0 magic = magic := rfl
  have hvers : lowered 2 version = version := lowered_outside fun i hi => by
    have : ∀ k : Fin 5, ¬ InCounter (2 + k) := by decide
    exact this ⟨i, by omega⟩
  have hseq : lowered 8 (counters .appendSeq) = (counters .appendSeq).map Hex.lower :=
    lowered_counter .appendSeq (hlen _)
  have hmod : lowered 17 (counters .modified) = (counters .modified).map Hex.lower :=
    lowered_counter .modified (hlen _)
  have hsort : lowered 26 (counters .sinceSort) = (counters .sinceSort).map Hex.lower :=
    lowered_counter .sinceSort (hlen _)
  have hone : ∀ start ∈ [7, 16, 25, 34], ∀ b, lowered start [b] = [b] := fun start hstart b =>
    lowered_outside fun i hi => by
      obtain rfl : i = 0 := by simpa using hi
      revert start
      decide
  simp only [layout, lowered_append, List.length_append, List.length_singleton, hversion, hlen,
    show magic.length = 2 from rfl, Nat.zero_add, Nat.reduceAdd, hmagic, hvers, hseq, hmod, hsort,
    hone 7 (by decide), hone 16 (by decide), hone 25 (by decide), hone 34 (by decide)]

/-- **Writing what was read** gives the header read, with its counters in lower case. -/
theorem encode_of_decode? {bytes : Bytes} {h : Header} (hdec : decode? bytes = some h) :
    h.encode = lowered 0 (bytes.take length) := by
  obtain ⟨counters, hbytes, hspelt⟩ := exists_layout hdec
  rw [hbytes, lowered_layout h.version_length fun counter => (hspelt counter).1, encode_eq_layout]
  congr 1
  funext counter
  exact Hex.word_of_parse? (hspelt counter).2 (hspelt counter).1

/-- **Headers and words, written and read.**  A header has 35 bytes and reads back whatever follows
it; one that was read is written as it stood, but for the case of its counters.  A word is read from
one to eight digits of either case, and from nothing else, for the number that they spell; it reads
back from the eight digits that it is written in, and eight digits read are written in lower case. -/
theorem codec :
    (∀ (h : Header) (rest : Bytes), h.encode.length = 35 ∧ decode? (h.encode ++ rest) = some h) ∧
    (∀ (bytes : Bytes) (h : Header), decode? bytes = some h →
      h.encode = lowered 0 (bytes.take 35)) ∧
    (∀ (s : Bytes) (v : UInt32), Hex.parse? s = some v ↔
      0 < s.length ∧ s.length ≤ 8 ∧ (∀ b ∈ s, Hex.IsDigit b) ∧ v.toNat = Hex.value s) ∧
    (∀ v : UInt32, Hex.parse? (Hex.word v) = some v) ∧
    (∀ (s : Bytes) (v : UInt32), Hex.parse? s = some v → s.length = 8 →
      Hex.word v = s.map Hex.lower) := by
  refine ⟨fun h rest => ⟨length_encode h, decode?_encode h rest⟩, fun bytes h hdec => ?_,
    fun s v => Hex.parse?_eq_some_iff, Hex.parse?_word, fun s v h hlen => Hex.word_of_parse? h hlen⟩
  exact encode_of_decode? hdec

/-- A header with a version of odd bytes, one of them a digit in upper case, and counters spelt in
either case, with bytes behind it. -/
def mixedHeader : Bytes :=
  ascii (['$', 'V', 'F', '\n', '-', 'B', ' ', ' ', 'F', 'f', 'F', 'F', 'f', 'f', 'f', 'F', ' ']
    ++ ['0', '0', 'a', 'B', 'c', 'D', 'e', 'F', ' ', '0', '0', '0', '0', '0', '0', '0', 'A', '\n']
    ++ ['+', 'A'])

/-- Its counters are written in lower case, its version stays. -/
theorem codec_of_mixed_header : ∃ h : Header, decode? mixedHeader = some h ∧
    h.appendSeq = 0xffffffff ∧ h.encode =
      ascii (['$', 'V', 'F', '\n', '-', 'B', ' ', ' ', 'f', 'f', 'f', 'f', 'f', 'f', 'f', 'f', ' ']
        ++ ['0', '0', 'a', 'b', 'c', 'd', 'e', 'f', ' ', '0', '0', '0', '0', '0', '0', '0', 'a']
        ++ ['\n']) ∧
    Hex.parse? (ascii ['F', 'f', 'F', 'F', 'f', 'f', 'f', 'F']) = some 0xffffffff ∧
    Hex.word 0xffffffff = ascii ['f', 'f', 'f', 'f', 'f', 'f', 'f', 'f'] := by
  obtain ⟨-, hwrite, -, -, hword⟩ := codec
  have hdec : decode? mixedHeader = some ⟨ascii ['F', '\n', '-', 'B', ' '], 0xffffffff, 0xabcdef,
    0xa, rfl⟩ := by decide +kernel
  have hparse : Hex.parse? (ascii ['F', 'f', 'F', 'F', 'f', 'f', 'f', 'F']) = some 0xffffffff := by
    decide +kernel
  refine ⟨_, hdec, rfl, (hwrite _ _ hdec).trans (by decide +kernel), hparse, ?_⟩
  exact (hword _ _ hparse rfl).trans (by decide +kernel)

end Header

end RecordStore
