import Mathlib.Tactic.Common
import RecordStore.Hex
import RecordStore.Token

/-!
# Words written and read

A word is written as eight digits, none of them a delimiter, and reads back as itself.

Principal result: `Hex.parse?_word`.
-/

set_option autoImplicit false

namespace RecordStore.Hex

theorem digit?_digit {n : Nat} (h : n < 16) : digit? (digit n) = some n := by
  have : ∀ k : Fin 16, digit? (digit k) = some k.val := by decide
  exact this ⟨n, h⟩

theorem isDelimiter_digit {n : Nat} (h : n < 16) : isDelimiter (digit n) = false := by
  have : ∀ k : Fin 16, isDelimiter (digit k) = false := by decide
  exact this ⟨n, h⟩

theorem digits?_map_digit {ds : List Nat} (h : ∀ d ∈ ds, d < 16) :
    digits? (ds.map digit) = some ds := by
  induction ds with
  | nil => rfl
  | cons d ds ih =>
    simp only [List.mem_cons, forall_eq_or_imp] at h
    simp [digits?, digit?_digit h.1, ih h.2]

/-- The digits' values of a word. -/
def digitsOf (v : UInt32) : List Nat := places.map fun place => v.toNat / place % 16

theorem word_eq_map_digit (v : UInt32) : word v = (digitsOf v).map digit := by
  simp [word, digitsOf]

theorem digitsOf_lt (v : UInt32) : ∀ d ∈ digitsOf v, d < 16 := by
  intro d hd
  obtain ⟨place, -, rfl⟩ := List.mem_map.1 hd
  exact Nat.mod_lt _ (by decide)

theorem ofDigits_digitsOf (v : UInt32) : ofDigits (digitsOf v) = v.toNat := by
  have := v.toNat_lt
  simp only [ofDigits, digitsOf, places, List.map_cons, List.map_nil, List.foldl_cons,
    List.foldl_nil]
  omega

/-- **A word reads back as itself.** -/
theorem parse?_word (v : UInt32) : parse? (word v) = some v := by
  have hlen := length_word v
  have hne : ¬ (word v = [] ∨ 8 < (word v).length) := by
    rw [hlen]
    simp [word, places, wordLen]
  rw [parse?, if_neg hne, word_eq_map_digit, digits?_map_digit (digitsOf_lt v), Option.map_some,
    ofDigits_digitsOf, UInt32.ofNat_toNat]

theorem isDelimiter_of_mem_word {v : UInt32} {b : UInt8} (h : b ∈ word v) :
    isDelimiter b = false := by
  rw [word_eq_map_digit] at h
  obtain ⟨d, hd, rfl⟩ := List.mem_map.1 h
  exact isDelimiter_digit (digitsOf_lt v d hd)

theorem newline_notMem_word (v : UInt32) : newline ∉ word v := fun h => by
  simpa [isDelimiter] using isDelimiter_of_mem_word h

end RecordStore.Hex
