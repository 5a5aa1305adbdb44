import Mathlib.Tactic.Common
import RecordStore.Proofs.Lines
import RecordStore.SharedFile

/-!
# Positional writes

A write inside the file replaces its bytes and no others; a write at the end appends.

* `Patch.Fits` — a write that stays inside some bytes.
* `Patch.shift` — the same write, further on.

Principal results: `Patch.getElem?_apply` — what a write makes of every byte; `Patch.apply_middle` —
a write into one part of a file leaves the other parts alone; `Patch.isLine_apply` — a complete line
stays one unless its newlines are touched.
-/

set_option autoImplicit false

namespace RecordStore.Patch

/-- The write stays inside the bytes. -/
def Fits (patch : Patch) (bytes : Bytes) : Prop :=
  patch.offset + patch.data.length ≤ bytes.length

/-- The same write, `start` bytes further on. -/
def shift (start : Nat) (patch : Patch) : Patch := ⟨start + patch.offset, patch.data⟩

theorem apply_of_fits {patch : Patch} {bytes : Bytes} (h : patch.Fits bytes) :
    patch.apply bytes = bytes.take patch.offset ++ patch.data
      ++ bytes.drop (patch.offset + patch.data.length) := by
  unfold Fits at h
  unfold apply
  split
  · next hnil => simp [hnil]
  · rw [Nat.sub_eq_zero_of_le (by omega), List.replicate_zero, List.append_nil]

theorem length_apply {patch : Patch} {bytes : Bytes} (h : patch.Fits bytes) :
    (patch.apply bytes).length = bytes.length := by
  rw [apply_of_fits h]
  unfold Fits at h
  simp only [List.length_append, List.length_take, List.length_drop]
  omega

/-- **What a write makes of every byte.** -/
theorem getElem?_apply {patch : Patch} {bytes : Bytes} (h : patch.Fits bytes) (i : Nat) :
    (patch.apply bytes)[i]? =
      if patch.offset ≤ i ∧ i < patch.offset + patch.data.length then patch.data[i - patch.offset]?
      else bytes[i]? := by
  have hlen : (bytes.take patch.offset).length = patch.offset := by
    unfold Fits at h
    rw [List.length_take]
    omega
  rw [apply_of_fits h, List.append_assoc, List.getElem?_append, hlen, List.getElem?_append]
  by_cases h1 : i < patch.offset
  · rw [if_pos h1, if_neg (by omega), List.getElem?_take_of_lt h1]
  · rw [if_neg h1]
    by_cases h2 : i < patch.offset + patch.data.length
    · rw [if_pos (by omega), if_pos ⟨by omega, h2⟩]
    · rw [if_neg (by omega), if_neg (by omega), List.getElem?_drop]
      congr 1
      omega

theorem head?_apply_of_pos {patch : Patch} {bytes : Bytes} (h : patch.Fits bytes)
    (hpos : 0 < patch.offset) : (patch.apply bytes).head? = bytes.head? := by
  rw [List.head?_eq_getElem?, getElem?_apply h, if_neg (by omega), List.head?_eq_getElem?]

theorem drop_apply {patch : Patch} {bytes : Bytes} (h : patch.Fits bytes) {start : Nat}
    (hd : patch.offset + patch.data.length ≤ start) :
    (patch.apply bytes).drop start = bytes.drop start := by
  apply List.ext_getElem?
  intro i
  rw [List.getElem?_drop, List.getElem?_drop, getElem?_apply h, if_neg (by omega)]

/-- The stretch written reads as what was written. -/
theorem take_drop_apply_self {patch : Patch} {bytes : Bytes} (h : patch.Fits bytes) :
    ((patch.apply bytes).drop patch.offset).take patch.data.length = patch.data := by
  apply List.ext_getElem?
  intro i
  by_cases hi : i < patch.data.length
  · rw [List.getElem?_take_of_lt hi, List.getElem?_drop, getElem?_apply h,
      if_pos ⟨by omega, by omega⟩, Nat.add_sub_cancel_left]
  · rw [List.getElem?_take_eq_none (by omega), List.getElem?_eq_none (by omega)]

/-- What stands before a write is left alone. -/
theorem take_apply {patch : Patch} {bytes : Bytes} {n : Nat} (hn : n ≤ patch.offset)
    (hlen : n ≤ bytes.length) : (patch.apply bytes).take n = bytes.take n := by
  unfold apply
  split
  · rfl
  · have hfront : (bytes.take patch.offset).length = min patch.offset bytes.length :=
      List.length_take
    rw [List.append_assoc, List.append_assoc, List.take_append_of_le_length (by omega),
      List.take_take, Nat.min_eq_left hn]

/-- No write makes a file shorter. -/
theorem length_le_length_apply (patch : Patch) (bytes : Bytes) :
    bytes.length ≤ (patch.apply bytes).length := by
  unfold apply
  split
  · exact Nat.le_refl _
  · simp only [List.length_append, List.length_take, List.length_drop, List.length_replicate]
    omega

/-- **A write into the middle part leaves the outer parts alone.** -/
theorem apply_middle {patch : Patch} {mid : Bytes} (h : patch.Fits mid) (front back : Bytes) :
    (patch.shift front.length).apply (front ++ (mid ++ back)) =
      front ++ (patch.apply mid ++ back) := by
  have hfits : (patch.shift front.length).Fits (front ++ (mid ++ back)) := by
    unfold Fits shift at *
    simp only [List.length_append]
    omega
  have hlen := length_apply h
  unfold Fits at h
  apply List.ext_getElem?
  intro i
  rw [getElem?_apply hfits]
  simp only [shift, List.getElem?_append, hlen]
  by_cases h1 : i < front.length
  · rw [if_neg (by omega), if_pos h1, if_pos h1]
  · rw [if_neg h1, if_neg h1]
    by_cases h2 : i - front.length < mid.length
    · rw [if_pos h2, if_pos h2, getElem?_apply h]
      by_cases h3 : patch.offset ≤ i - front.length ∧
          i - front.length < patch.offset + patch.data.length
      · rw [if_pos ⟨by omega, by omega⟩, if_pos h3]
        congr 1
        omega
      · rw [if_neg (by omega), if_neg h3]
    · rw [if_neg (by omega), if_neg h2, if_neg h2]

theorem apply_front {patch : Patch} {front : Bytes} (h : patch.Fits front) (back : Bytes) :
    patch.apply (front ++ back) = patch.apply front ++ back := by
  simpa [shift] using apply_middle h [] back

/-- A write that covers the middle part exchanges it. -/
theorem apply_exchange (front back : Bytes) {old new : Bytes} (h : new.length = old.length) :
    (⟨front.length, new⟩ : Patch).apply (front ++ (old ++ back)) = front ++ (new ++ back) := by
  have hfits : (⟨0, new⟩ : Patch).Fits old := by
    simp only [Fits]
    omega
  have hall : (⟨0, new⟩ : Patch).apply old = new := by
    rw [apply_of_fits hfits]
    simp [h]
  have := apply_middle hfits front back
  rwa [hall] at this

/-- A write at the end appends. -/
theorem apply_end (bytes data : Bytes) :
    (⟨bytes.length, data⟩ : Patch).apply bytes = bytes ++ data := by
  by_cases h : data = []
  · simp [apply, h]
  · simp [apply, h]

theorem applyAll_append (front back : List Patch) (bytes : Bytes) :
    applyAll (front ++ back) bytes = applyAll back (applyAll front bytes) := by
  simp [applyAll]

theorem applyAll_cons (patch : Patch) (more : List Patch) (bytes : Bytes) :
    applyAll (patch :: more) bytes = applyAll more (patch.apply bytes) := rfl

theorem length_le_length_applyAll (patches : List Patch) (bytes : Bytes) :
    bytes.length ≤ (applyAll patches bytes).length := by
  induction patches generalizing bytes with
  | nil => exact Nat.le_refl _
  | cons patch more ih => exact Nat.le_trans (length_le_length_apply patch bytes) (ih _)

/-- What no write reaches is left alone. -/
theorem getElem?_applyAll {patches : List Patch} {bytes : Bytes} {i : Nat}
    (hfits : ∀ patch ∈ patches, patch.Fits bytes)
    (hout : ∀ patch ∈ patches, ¬ (patch.offset ≤ i ∧ i < patch.offset + patch.data.length)) :
    (applyAll patches bytes)[i]? = bytes[i]? := by
  induction patches generalizing bytes with
  | nil => rfl
  | cons patch more ih =>
    rw [List.forall_mem_cons] at hfits hout
    have hmore : ∀ p ∈ more, p.Fits (patch.apply bytes) := fun p hp => by
      rw [Fits, length_apply hfits.1]
      exact hfits.2 p hp
    rw [applyAll_cons, ih hmore hout.2, getElem?_apply hfits.1, if_neg hout.1]

/-- What stands before all writes is left alone. -/
theorem take_applyAll {patches : List Patch} {bytes : Bytes} {n : Nat}
    (hn : ∀ patch ∈ patches, n ≤ patch.offset) (hlen : n ≤ bytes.length) :
    (applyAll patches bytes).take n = bytes.take n := by
  induction patches generalizing bytes with
  | nil => rfl
  | cons patch more ih =>
    simp only [List.mem_cons, forall_eq_or_imp] at hn
    rw [applyAll_cons, ih hn.2 (Nat.le_trans hlen (length_le_length_apply patch bytes)),
      take_apply hn.1 hlen]

/-! ## Writes into a line -/

/-- A complete line stays one if the write brings no newline and leaves the last byte alone. -/
theorem isLine_apply {patch : Patch} {text : Bytes} (h : IsLine text) (hdata : newline ∉ patch.data)
    (hlt : patch.offset + patch.data.length < text.length) : IsLine (patch.apply text) := by
  obtain ⟨body, hbody, rfl⟩ := h
  have hfits : patch.Fits body := by
    unfold Fits
    rw [List.length_append, List.length_singleton] at hlt
    omega
  refine ⟨patch.apply body, ?_, apply_front hfits _⟩
  rw [apply_of_fits hfits]
  simp only [List.mem_append, not_or]
  exact ⟨⟨fun hm => hbody (List.mem_of_mem_take hm), hdata⟩,
    fun hm => hbody (List.mem_of_mem_drop hm)⟩

end RecordStore.Patch

namespace RecordStore.SharedFile

theorem patch_bytes (file : SharedFile) (now : Nat) (patch : Patch) :
    (file.patch now patch).bytes = patch.apply file.bytes := by
  unfold SharedFile.patch
  split
  · next h => simp [Patch.apply, h]
  · rfl

theorem patch_locks (file : SharedFile) (now : Nat) (patch : Patch) :
    (file.patch now patch).locks = file.locks := by
  unfold SharedFile.patch
  split <;> rfl

end RecordStore.SharedFile
