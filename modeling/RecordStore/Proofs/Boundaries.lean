import Mathlib.Tactic.Common
import RecordStore.Proofs.Conduct
import RecordStore.Trim

/-!
# Two readings of a header

An opener checks the header at fixed places and takes the first newline for its end; a trim reads it as
a line.  The version bytes are checked by nobody.  Where one of them is a newline the readings fall
apart, and where it is the last of them, what is left of the header passes for a line with a slot.

* `Header.Whole`, `Header.Splits` — the header is one line; its version ends in a newline.

Principal results: `Legible.headLen_eq_iff`, `Legible.isSome_trimBytes?_iff` — what an opener and what a
trim makes of the header; `Index.slotted_behind_iff`, `Index.physicalRecords_of_newline` — the lines of
a sort.
-/

set_option autoImplicit false

namespace RecordStore

/-! ## Two readings of a header -/

/-- The header is one line. -/
def Header.Whole (h : Header) : Prop := newline ∉ h.version

/-- What follows the version of the header begins a line. -/
def Header.Splits (h : Header) : Prop := h.version.getLast? = some newline

instance (h : Header) : Decidable h.Whole := inferInstanceAs (Decidable (newline ∉ h.version))

instance (h : Header) : Decidable h.Splits := inferInstanceAs (Decidable (_ = some newline))

/-- The last version byte. -/
def Header.versionEnd : Nat := 6

theorem Header.version_of_decode? {bytes : Bytes} {h : Header} (hdec : Header.decode? bytes = some h) :
    h.version = (bytes.drop 2).take 5 := by
  unfold Header.decode? at hdec
  split at hdec
  · split at hdec
    · split at hdec
      · obtain rfl := Option.some.inj hdec
        rfl
      · cases hdec
    · cases hdec
  · cases hdec

/-- Whether the header splits is told by one byte of the file. -/
theorem Header.splits_iff {bytes : Bytes} {h : Header} (hdec : Header.decode? bytes = some h) :
    h.Splits ↔ bytes[Header.versionEnd]? = some newline := by
  rw [Splits, List.getLast?_eq_getElem?, h.version_length, Header.version_of_decode? hdec,
    List.getElem?_take_of_lt (by decide), List.getElem?_drop]
  rfl

section Readings

variable {bytes : Bytes} {header : Header} {n : Nat}

theorem headLength?_eq_some_iff : headLength? bytes = some n ↔
    0 < n ∧ bytes[n - 1]? = some newline ∧ ∀ i, i < n - 1 → bytes[i]? ≠ some newline := by
  unfold headLength?
  rw [Option.map_eq_some_iff]
  constructor
  · rintro ⟨i, hi, rfl⟩
    obtain ⟨hlt, hat, hbefore⟩ := List.idxOf?_eq_some_iff.1 hi
    refine ⟨Nat.succ_pos i, List.getElem?_eq_some_iff.2 ⟨hlt, hat⟩, fun j hj hnewline => ?_⟩
    obtain ⟨hj', heq⟩ := List.getElem?_eq_some_iff.1 hnewline
    exact hbefore j hj heq
  · rintro ⟨hpos, hat, hbefore⟩
    obtain ⟨hlt, heq⟩ := List.getElem?_eq_some_iff.1 hat
    refine ⟨n - 1, List.idxOf?_eq_some_iff.2 ⟨hlt, heq, fun j hj hnewline => ?_⟩, by omega⟩
    exact hbefore j hj (List.getElem?_eq_some_iff.2 ⟨by omega, hnewline⟩)

/-- The first newline of a header is its last byte, or one of its version bytes. -/
theorem Legible.headLen_cases (hread : Legible bytes) (hn : headLength? bytes = some n) :
    n = Header.length ∨ (2 < n ∧ n ≤ 7) := by
  obtain ⟨hpos, hat, hbefore⟩ := headLength?_eq_some_iff.1 hn
  have hle : n ≤ Header.length := by
    by_contra hlate
    have hearly : Header.length - 1 < n - 1 := by
      simp only [Header.length] at hlate ⊢
      omega
    exact hbefore _ hearly hread.newline_eq
  by_cases hwhole : n = Header.length
  · exact Or.inl hwhole
  · have hlt := hread.lt_of_newline hat (by omega)
    -- the magic holds no newline
    have hmagic : 2 ≤ n - 1 := by
      by_contra hearly
      have hbyte : Header.magic[n - 1]? = some newline := by
        rw [← hread.fixed.1, List.getElem?_take_of_lt (by omega)]
        exact hat
      exact absurd (List.mem_of_getElem? hbyte) (by decide)
    exact Or.inr ⟨by omega, by omega⟩

/-- **An opener finds the end of the header** where no version byte is a newline. -/
theorem Legible.headLen_eq_iff (hread : Legible bytes) (hn : headLength? bytes = some n)
    (hdec : Header.decode? bytes = some header) : n = Header.length ↔ header.Whole := by
  obtain ⟨hpos, hat, hbefore⟩ := headLength?_eq_some_iff.1 hn
  unfold Header.Whole
  rw [Header.version_of_decode? hdec]
  constructor
  · rintro rfl hmem
    obtain ⟨i, hi⟩ := List.getElem?_of_mem hmem
    have hlt : i < 5 := by
      by_contra hlate
      rw [List.getElem?_take_eq_none (by omega)] at hi
      cases hi
    rw [List.getElem?_take_of_lt hlt, List.getElem?_drop] at hi
    exact hbefore (2 + i) (by simp only [Header.length]; omega) hi
  · intro hwhole
    rcases hread.headLen_cases hn with heq | ⟨hlow, hhigh⟩
    · exact heq
    · refine absurd (List.mem_of_getElem? (i := n - 1 - 2) ?_) hwhole
      rw [List.getElem?_take_of_lt (by omega), List.getElem?_drop, ← hat]
      congr 1
      omega

/-- The first line ends at the first newline. -/
theorem takeLine_of_headLength? (hn : headLength? bytes = some n) : takeLine bytes = bytes.take n := by
  obtain ⟨hpos, hat, hbefore⟩ := headLength?_eq_some_iff.1 hn
  have hlt := (List.getElem?_eq_some_iff.1 hat).1
  have hline : IsLine (bytes.take n) := by
    refine ⟨bytes.take (n - 1), fun hmem => ?_, ?_⟩
    · obtain ⟨i, hi⟩ := List.getElem?_of_mem hmem
      have hin : i < n - 1 := by
        by_contra hlate
        rw [List.getElem?_take_eq_none (by omega)] at hi
        cases hi
      rw [List.getElem?_take_of_lt hin] at hi
      exact hbefore i hin hi
    · rw [show n = n - 1 + 1 by omega, List.take_add_one, hat]
      rfl
  exact (takeLine_eq_iff hline).2 (List.take_prefix n bytes)

/-- **A trim reads the header** where no version byte is a newline. -/
theorem Legible.isSome_trimBytes?_iff (hread : Legible bytes)
    (hdec : Header.decode? bytes = some header) : (trimBytes? bytes).isSome = true ↔ header.Whole := by
  cases hn : headLength? bytes with
  | none =>
    unfold headLength? at hn
    rw [Option.map_eq_none_iff, List.idxOf?, List.findIdx?_eq_none_iff] at hn
    have := hn newline (List.mem_of_getElem? hread.newline_eq)
    simp at this
  | some n =>
    rw [← hread.headLen_eq_iff hn hdec]
    have htrim : (trimBytes? bytes).isSome = (Header.decode? (bytes.take n)).isSome := by
      unfold trimBytes?
      rw [takeLine_of_headLength? hn]
      cases Header.decode? (bytes.take n) <;> rfl
    rw [htrim, ← legible_iff]
    constructor
    · intro hlegible
      have hlen := hlegible.length_le
      rw [List.length_take] at hlen
      rcases hread.headLen_cases hn with heq | ⟨-, hhigh⟩
      · exact heq
      · simp only [Header.length] at hlen
        omega
    · rintro rfl
      exact hread.take (Nat.le_refl _)

/-- A header that endures ends at the same newline. -/
theorem Endures.headLength? {after : Bytes} (h : Endures bytes after) (hread : Legible bytes)
    (hn : headLength? bytes = some n) : headLength? after = some n := by
  obtain ⟨hpos, hat, hbefore⟩ := headLength?_eq_some_iff.1 hn
  have hlt : n - 1 < Header.length := by
    rcases hread.headLen_cases hn with rfl | ⟨-, hhigh⟩
    · decide
    · simp only [Header.length]
      omega
  refine headLength?_eq_some_iff.2 ⟨hpos, h.header_eq hlt (hread.not_inCounter hat) hat, ?_⟩
  intro i hi hnewline
  have hlong := hread.length_le
  have hbyte := List.getElem?_eq_getElem (l := bytes) (i := i) (by omega)
  obtain ⟨b, hb, hticks⟩ := h.header i _ (by omega) hbyte
  rcases hticks with heq | ⟨-, hdigit⟩
  · rw [hnewline, heq] at hb
    exact hbefore i hi (hbyte.trans hb.symm)
  · rw [hnewline, Option.some.injEq] at hb
    subst hb
    revert hdigit
    decide

/-- What is seen of a file has the same header. -/
theorem headLength?_take {m : Nat} (hn : headLength? bytes = some n) (hle : n ≤ m) :
    headLength? (bytes.take m) = some n := by
  obtain ⟨hpos, hat, hbefore⟩ := headLength?_eq_some_iff.1 hn
  refine headLength?_eq_some_iff.2 ⟨hpos, ?_, fun i hi => ?_⟩
  · rwa [List.getElem?_take_of_lt (by omega)]
  · rw [List.getElem?_take_of_lt (by omega)]
    exact hbefore i hi

end Readings

/-! ## Headers that endure -/

/-- The byte that tells whether the header splits is no counter's. -/
theorem Endures.versionEnd_iff {before after : Bytes} (h : Endures before after)
    (hread : Legible before) : after[Header.versionEnd]? = some newline ↔
      before[Header.versionEnd]? = some newline := by
  have hlt : Header.versionEnd < Header.length := by decide
  have hout : ¬ InCounter Header.versionEnd := by
    rintro ⟨c, hlo, -⟩
    revert hlo
    cases c <;> decide
  have hbyte := List.getElem?_eq_getElem (Nat.lt_of_lt_of_le hlt hread.length_le)
  rw [h.header_eq hlt hout hbyte, hbyte]

/-- What endures keeps the version of its header. -/
theorem Endures.version_eq {before after : Bytes} {header header' : Header}
    (h : Endures before after) (hdec : Header.decode? before = some header)
    (hdec' : Header.decode? after = some header') : header'.version = header.version := by
  have hread : Legible before := legible_iff.2 (by rw [hdec]; rfl)
  rw [Header.version_of_decode? hdec, Header.version_of_decode? hdec']
  apply List.ext_getElem?
  intro i
  by_cases hi : i < 5
  · rw [List.getElem?_take_of_lt hi, List.getElem?_take_of_lt hi, List.getElem?_drop,
      List.getElem?_drop]
    have hlt : 2 + i < Header.length := by
      simp only [Header.length]
      omega
    have hout : ¬ InCounter (2 + i) := by
      rintro ⟨c, hlo, -⟩
      cases c <;> simp only [Header.Counter.offset, Header.appendSeqAt, Header.modifiedAt,
        Header.sinceSortAt] at hlo <;> omega
    have hbyte := List.getElem?_eq_getElem (Nat.lt_of_lt_of_le hlt hread.length_le)
    rw [h.header_eq hlt hout hbyte, hbyte]
  · rw [List.getElem?_take_eq_none (by omega), List.getElem?_take_eq_none (by omega)]

/-! ## The lines of a sort -/

namespace Index

variable {data : Bytes} {n : Nat} {line : Line}

/-- Where a line that a sort places can stand. -/
theorem offset_of_slotted (hread : Legible data) (hstart : data[n - 1]? = some newline)
    (hline : line ∈ slotted data n) : Header.length ≤ line.offset ∨
      (line.offset = Header.versionEnd + 1 ∧ data[Header.versionEnd]? = some newline) := by
  obtain ⟨hmem, hslot⟩ := List.mem_filter.1 hline
  rcases complete_of_slotted hread hstart hmem hslot with hcomplete | hearly
  · exact Or.inl hcomplete.header_le
  · have hoff : line.offset = Header.versionEnd + 1 := by
      simp only [slotAt, Header.appendSeqAt, Header.versionEnd] at hearly ⊢
      omega
    refine Or.inr ⟨hoff, ?_⟩
    obtain ⟨-, -, hbefore, -⟩ := mem_linesFrom_iff.1 hmem
    have hsub : line.offset - 1 = Header.versionEnd := by rw [hoff]; rfl
    rcases hbefore with heq | hnewline
    · rwa [← heq, hsub] at hstart
    · rwa [hsub] at hnewline

/-- Behind a version that ends in a newline, the rest of the header is a line with a slot. -/
theorem exists_slotted_of_newline (hread : Legible data) (hn : headLength? data = some n)
    (hsplit : data[Header.versionEnd]? = some newline) :
    ∃ line ∈ slotted data n, line.offset = Header.versionEnd + 1 := by
  have hlong := hread.length_le
  have hend := hread.newline_eq
  have hle : n ≤ 7 := by
    obtain ⟨-, -, hbefore⟩ := headLength?_eq_some_iff.1 hn
    by_contra hlate
    exact hbefore Header.versionEnd (by simp only [Header.versionEnd]; omega) hsplit
  -- the text behind the version, through the newline of the header
  have hlen : ((data.drop 7).take 28).length = 28 := by
    rw [List.length_take, List.length_drop]
    simp only [Header.length] at hlong
    omega
  have hline : IsLine ((data.drop 7).take 28) := by
    refine ⟨(data.drop 7).take 27, fun hmem => ?_, ?_⟩
    · obtain ⟨i, hi⟩ := List.getElem?_of_mem hmem
      have hin : i < 27 := by
        by_contra hlate
        rw [List.getElem?_take_eq_none (by omega)] at hi
        cases hi
      rw [List.getElem?_take_of_lt hin, List.getElem?_drop] at hi
      have := hread.lt_of_newline hi (by simp only [Header.length]; omega)
      omega
    · rw [show (28 : Nat) = 27 + 1 from rfl, List.take_add_one, List.getElem?_drop,
        show data[7 + 27]? = some newline from hend]
      rfl
  refine ⟨⟨7, (data.drop 7).take 28⟩, List.mem_filter.2 ⟨mem_linesFrom_iff.2 ?_, ?_⟩, rfl⟩
  · refine ⟨hle, ?_, Or.inr hsplit, (takeLine_eq_iff hline).2 (List.take_prefix 28 _)⟩
    simp only [Header.length] at hlong
    show 7 < data.length
    omega
  · have hword : ((((data.drop 7).take 28).drop slotAt).take Hex.wordLen) =
        (data.drop Header.appendSeqAt).take Hex.wordLen := by
      rw [List.drop_take, List.drop_drop, List.take_take]
      rfl
    have hdigits := isSome_counterAt?_iff.2 fun i hlo hhi =>
      hread.digits i ⟨.appendSeq, hlo, hhi⟩
    rw [Header.counterAt?, if_pos (Nat.le_trans (by decide) hlong)] at hdigits
    simp only [hasSlot, Bool.and_eq_true, decide_eq_true_eq]
    refine ⟨⟨?_, hline.endsLine⟩, ?_⟩
    · rw [hlen]
      decide
    · unfold slot?
      rw [hword]
      exact hdigits

/-- **A sort places the lines behind the header alone**, unless the header splits. -/
theorem slotted_behind_iff (hread : Legible data) (hn : headLength? data = some n) :
    (∀ line ∈ slotted data n, Header.length ≤ line.offset) ↔
      data[Header.versionEnd]? ≠ some newline := by
  constructor
  · intro hbehind hsplit
    obtain ⟨line, hmem, hoff⟩ := exists_slotted_of_newline hread hn hsplit
    have hle := hbehind line hmem
    rw [hoff] at hle
    exact absurd hle (by decide)
  · intro hwhole line hmem
    rcases offset_of_slotted hread (headLength?_eq_some_iff.1 hn).2.1 hmem with hle | ⟨-, hsplit⟩
    · exact hle
    · exact absurd hsplit hwhole

/-- Lines stand one behind the other. -/
theorem pairwise_linesAt {texts : List Bytes} (h : ∀ text ∈ texts, text ≠ []) (start : Nat) :
    (linesAt start texts).Pairwise fun a b => a.offset < b.offset := by
  induction texts generalizing start with
  | nil => exact List.Pairwise.nil
  | cons text more ih =>
    rw [List.forall_mem_cons] at h
    refine List.Pairwise.cons (fun line hmem => ?_) (ih h.2 _)
    obtain ⟨front, back, -, hoff⟩ := mem_linesAt_iff.1 hmem
    have hpos := List.length_pos_iff.2 h.1
    show start < line.offset
    omega

theorem ne_nil_of_mem_lines {s text : Bytes} (h : text ∈ lines s) : text ≠ [] := by
  obtain ⟨front, back, hcut⟩ := List.append_of_mem h
  obtain ⟨-, rest, -, -, hne, htake, -⟩ := mem_linesAt_lines_iff.1
    (mem_linesAt_iff.2 ⟨front, back, hcut, rfl⟩ : (⟨0 + front.flatten.length, text⟩ : Line) ∈ _)
  have hjoin := takeLine_append_dropLine rest
  rintro rfl
  rw [show takeLine rest = [] from htake, List.nil_append] at hjoin
  exact absurd (hjoin ▸ length_dropLine_lt hne) (Nat.lt_irrefl _)

/-- **Where the header splits**, its rest is the first line that a sort writes to. -/
theorem physicalRecords_of_newline (hread : Legible data) (hn : headLength? data = some n)
    (hsplit : data[Header.versionEnd]? = some newline) :
    ∃ behind, physicalRecords data n = (Header.versionEnd + 1) :: behind ∧
      ∀ offset ∈ behind, Header.length ≤ offset := by
  have hstart := (headLength?_eq_some_iff.1 hn).2.1
  have hordered : (slotted data n).Pairwise fun a b => a.offset < b.offset :=
    (pairwise_linesAt (fun _ => ne_nil_of_mem_lines) n).sublist List.filter_sublist
  obtain ⟨line, hmem, hoff⟩ := exists_slotted_of_newline hread hn hsplit
  cases hslotted : slotted data n with
  | nil =>
    rw [hslotted] at hmem
    cases hmem
  | cons first rest =>
    rw [hslotted] at hordered hmem
    obtain ⟨hbehind, -⟩ := List.pairwise_cons.1 hordered
    have hall : ∀ l ∈ first :: rest, Header.length ≤ l.offset ∨ l.offset = Header.versionEnd + 1 :=
      fun l hl => (offset_of_slotted hread hstart (hslotted ▸ hl)).imp id And.left
    have hfirst : first.offset = Header.versionEnd + 1 := by
      rcases hall first List.mem_cons_self with hlate | heq
      · rcases List.mem_cons.1 hmem with rfl | hrest
        · exact hoff
        · have := hbehind line hrest
          simp only [Header.length, Header.versionEnd] at hlate hoff
          omega
      · exact heq
    refine ⟨rest.map Line.offset, ?_, fun offset hoffset => ?_⟩
    · rw [physicalRecords, hslotted, List.map_cons, hfirst]
    · obtain ⟨l, hl, rfl⟩ := List.mem_map.1 hoffset
      rcases hall l (List.mem_cons_of_mem _ hl) with hle | heq
      · exact hle
      · have := hbehind l hl
        omega

end Index

end RecordStore
