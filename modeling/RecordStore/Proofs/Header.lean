import Mathlib.Tactic.Common
import RecordStore.Open
import RecordStore.Proofs.Patches
import RecordStore.Proofs.Words

/-!
# The header read and written

A header line reads back as itself, whatever follows it, and each of its counters can be written
alone.

Principal results: `decode?_encode`; `counterAt?_encode` and `apply_counter` — reading and writing
one counter; `headLength?_encode` — the header is the first line.
-/

set_option autoImplicit false

namespace RecordStore

namespace Header

/-- The three counters of a header. -/
inductive Counter where
  | appendSeq
  | modified
  | sinceSort
  deriving DecidableEq, Repr

namespace Counter

/-- Where a counter stands. -/
def offset : Counter → Nat
  | appendSeq => appendSeqAt
  | modified => modifiedAt
  | sinceSort => sinceSortAt

def read (h : Header) : Counter → UInt32
  | appendSeq => h.appendSeq
  | modified => h.modified
  | sinceSort => h.sinceSort

/-- The header with one counter set. -/
def set (h : Header) (v : UInt32) : Counter → Header
  | appendSeq => { h with appendSeq := v }
  | modified => { h with modified := v }
  | sinceSort => { h with sinceSort := v }

end Counter

theorem length_encode (h : Header) : h.encode.length = length := by
  simp [encode, h.version_length, Hex.length_word, Hex.wordLen, magic, ascii, length]

theorem isLine_encode {h : Header} (hv : newline ∉ h.version) : IsLine h.encode := by
  refine ⟨magic ++ h.version ++ [blank] ++ Hex.word h.appendSeq ++ [blank] ++ Hex.word h.modified
    ++ [blank] ++ Hex.word h.sinceSort, ?_, rfl⟩
  have hmagic : newline ∉ magic := by decide
  have hblank : newline ∉ [blank] := by decide
  simp only [List.mem_append, not_or]
  exact ⟨⟨⟨⟨⟨⟨⟨hmagic, hv⟩, hblank⟩, Hex.newline_notMem_word _⟩, hblank⟩,
    Hex.newline_notMem_word _⟩, hblank⟩, Hex.newline_notMem_word _⟩

/-- A header, cut around one of its counters. -/
theorem exists_cut_counter (h : Header) (c : Counter) : ∃ front back : Bytes,
    front.length = c.offset ∧ ∀ v, (c.set h v).encode = front ++ (Hex.word v ++ back) := by
  have hlen := h.version_length
  cases c with
  | appendSeq =>
    refine ⟨magic ++ h.version ++ [blank], [blank] ++ Hex.word h.modified ++ [blank]
      ++ Hex.word h.sinceSort ++ [newline], ?_, fun v => ?_⟩
    · simp [hlen, magic, ascii, Counter.offset, appendSeqAt]
    · simp [encode, Counter.set]
  | modified =>
    refine ⟨magic ++ h.version ++ [blank] ++ Hex.word h.appendSeq ++ [blank], [blank]
      ++ Hex.word h.sinceSort ++ [newline], ?_, fun v => ?_⟩
    · simp [hlen, magic, ascii, Counter.offset, modifiedAt, Hex.length_word, Hex.wordLen]
    · simp [encode, Counter.set]
  | sinceSort =>
    refine ⟨magic ++ h.version ++ [blank] ++ Hex.word h.appendSeq ++ [blank]
      ++ Hex.word h.modified ++ [blank], [newline], ?_, fun v => ?_⟩
    · simp [hlen, magic, ascii, Counter.offset, sinceSortAt, Hex.length_word, Hex.wordLen]
    · simp [encode, Counter.set]

theorem Counter.set_read (h : Header) (c : Counter) : c.set h (c.read h) = h := by
  cases c <;> rfl

theorem counterAt?_word (front rest : Bytes) (v : UInt32) :
    counterAt? (front ++ (Hex.word v ++ rest)) front.length = some v := by
  have hle : front.length + Hex.wordLen ≤ (front ++ (Hex.word v ++ rest)).length := by
    simp only [List.length_append, Hex.length_word]
    omega
  rw [counterAt?, if_pos hle, List.drop_left, List.take_left' (Hex.length_word v), Hex.parse?_word]

/-- **A counter reads back**, whatever follows the header. -/
theorem counterAt?_encode (h : Header) (c : Counter) (rest : Bytes) :
    counterAt? (h.encode ++ rest) c.offset = some (c.read h) := by
  obtain ⟨front, back, hlen, hcut⟩ := exists_cut_counter h c
  have := hcut (c.read h)
  rw [Counter.set_read] at this
  rw [this, ← hlen, List.append_assoc, List.append_assoc, counterAt?_word]

/-- **A counter is written alone.** -/
theorem apply_counter (h : Header) (c : Counter) (v : UInt32) (rest : Bytes) :
    (⟨c.offset, Hex.word v⟩ : Patch).apply (h.encode ++ rest) = (c.set h v).encode ++ rest := by
  obtain ⟨front, back, hlen, hcut⟩ := exists_cut_counter h c
  have hold := hcut (c.read h)
  rw [Counter.set_read] at hold
  have hcount : (Hex.word v).length = (Hex.word (c.read h)).length := rfl
  rw [hold, hcut v, ← hlen, List.append_assoc, List.append_assoc, Patch.apply_exchange _ _ hcount,
    List.append_assoc, List.append_assoc]

theorem framed_encode (h : Header) (rest : Bytes) : framed (h.encode ++ rest) = true := by
  obtain ⟨version, appendSeq, modified, sinceSort, hlen⟩ := h
  match version, hlen with
  | [a, b, c, d, e], _ => rfl

/-- **A header reads back**, whatever follows it. -/
theorem decode?_encode (h : Header) (rest : Bytes) : decode? (h.encode ++ rest) = some h := by
  have hle : length ≤ (h.encode ++ rest).length := by
    rw [List.length_append, length_encode]
    omega
  have hversion : ((h.encode ++ rest).drop 2).take 5 = h.version := by
    have : (h.encode ++ rest).drop 2 = h.version ++ ([blank] ++ Hex.word h.appendSeq ++ [blank]
        ++ Hex.word h.modified ++ [blank] ++ Hex.word h.sinceSort ++ [newline] ++ rest) := by
      simp [encode, magic, ascii]
    rw [this, List.take_left' h.version_length]
  have hseq := counterAt?_encode h .appendSeq rest
  have hmod := counterAt?_encode h .modified rest
  have hsort := counterAt?_encode h .sinceSort rest
  simp only [Counter.offset, Counter.read] at hseq hmod hsort
  unfold decode?
  rw [dif_pos hle, if_pos (framed_encode h rest)]
  simp only [hseq, hmod, hsort, hversion]

end Header

theorem idxOf?_newline {body : Bytes} (h : newline ∉ body) (rest : Bytes) :
    (body ++ newline :: rest).idxOf? newline = some body.length := by
  induction body with
  | nil => simp [List.idxOf?_cons]
  | cons b body ih =>
    simp only [List.mem_cons, not_or] at h
    simp [List.idxOf?_cons, Ne.symm h.1, ih h.2]

/-- **The header is the first line.** -/
theorem headLength?_encode {h : Header} (hv : newline ∉ h.version) (rest : Bytes) :
    headLength? (h.encode ++ rest) = some Header.length := by
  obtain ⟨body, hbody, heq⟩ := Header.isLine_encode hv
  have hlen := congrArg List.length heq
  rw [Header.length_encode, List.length_append, List.length_singleton] at hlen
  rw [headLength?, heq, List.append_assoc, List.singleton_append, idxOf?_newline hbody, hlen]
  rfl

end RecordStore
