import Mathlib.Tactic.Common
import RecordStore.Proofs.Resorting
import RecordStore.Proofs.Sequence

/-!
# What a sort makes of a file

Behind its header a file may hold anything.  A sort gives each complete line that carries a slot the
offset of another such line, so that the slots read in file order lead through these lines in the
order of their keys, lines with equal keys in file order.  Nothing else changes but the count of
appends since the last sort and the modification second, so the next sort finds the same order and
writes the same slots.

* `Line.Precedes` — the order of the lines: by key, and in file order under one key.
* `sortWrites`, `resorted` — the writes of a sort of the whole file, and the file behind them.
* `Resorted` — what a file is to the one that it was before a sort.

Principal results: `Index.pairwise_sorted` — a sort is stable; `resorted_spec` — the file behind a
sort, for any bytes behind the header.
-/

set_option autoImplicit false

namespace RecordStore

/-! ## The order of the lines -/

/-- The order that a sort brings lines into. -/
def Line.Precedes (a b : Line) : Prop :=
  compareKeys (keyOf a.text) (keyOf b.text) = .lt ∨
    (keyOf a.text = keyOf b.text ∧ a.offset < b.offset)

namespace Index

variable {data : Bytes} {headLen : Nat}

theorem perm_sorted (data : Bytes) (headLen : Nat) :
    (sorted data headLen).Perm (slotted data headLen) :=
  List.mergeSort_perm _ _

theorem pairwise_slotted (data : Bytes) (headLen : Nat) :
    (slotted data headLen).Pairwise fun a b => a.offset < b.offset :=
  (pairwise_linesAt (fun _ => ne_nil_of_mem_lines) headLen).sublist List.filter_sublist

theorem nodup_offset_slotted (data : Bytes) (headLen : Nat) :
    ((slotted data headLen).map Line.offset).Nodup := by
  rw [List.Nodup, List.pairwise_map]
  exact (pairwise_slotted data headLen).imp Nat.ne_of_lt

/-- The order of the keys, as a sort compares lines. -/
def keyLE (a b : Line) : Bool := (compareKeys (keyOf a.text) (keyOf b.text)).isLE

theorem keyLE_trans (a b c : Line) (hab : keyLE a b = true) (hbc : keyLE b c = true) :
    keyLE a c = true :=
  isLE_compareKeys_trans hab hbc

theorem keyLE_total (a b : Line) : (keyLE a b || keyLE b a) = true :=
  isLE_compareKeys_total _ _

/-- The lines with one key come in file order. -/
theorem filter_key_sorted (data : Bytes) (headLen : Nat) (key : Bytes) :
    (sorted data headLen).filter (fun line => keyOf line.text == key) =
      (slotted data headLen).filter fun line => keyOf line.text == key := by
  have hkey : ((slotted data headLen).filter fun line => keyOf line.text == key).Pairwise
      fun a b => keyLE a b = true := by
    rw [List.pairwise_iff_forall_sublist]
    intro a b hab
    have ha := (List.mem_filter.1 (hab.subset (by simp : a ∈ [a, b]))).2
    have hb := (List.mem_filter.1 (hab.subset (by simp : b ∈ [a, b]))).2
    rw [keyLE, eq_of_beq ha, eq_of_beq hb, compareKeys_eq_iff.2 rfl]
    rfl
  have hsub := (List.sublist_mergeSort keyLE_trans keyLE_total hkey List.filter_sublist).filter
    fun line => keyOf line.text == key
  simp only [List.filter_filter, Bool.and_self] at hsub
  exact (hsub.eq_of_length ((perm_sorted data headLen).filter _).length_eq.symm).symm

/-- **A sort is stable**: its lines stand in the order of their keys, and in file order under one
key. -/
theorem pairwise_sorted (data : Bytes) (headLen : Nat) :
    (sorted data headLen).Pairwise Line.Precedes := by
  have hle : (sorted data headLen).Pairwise fun a b => keyLE a b = true :=
    List.pairwise_mergeSort keyLE_trans keyLE_total _
  rw [List.pairwise_iff_forall_sublist] at hle ⊢
  intro a b hab
  cases hcmp : compareKeys (keyOf a.text) (keyOf b.text) with
  | lt => exact .inl hcmp
  | gt =>
    have hab := hle hab
    rw [keyLE, hcmp] at hab
    cases hab
  | eq =>
    have hkeys := compareKeys_eq_iff.1 hcmp
    have hfile := hab.filter fun line => keyOf line.text == keyOf b.text
    rw [List.filter_cons_of_pos (by simp [hkeys]), List.filter_cons_of_pos (by simp),
      List.filter_nil, filter_key_sorted] at hfile
    have hpair := (pairwise_slotted data headLen).sublist (hfile.trans List.filter_sublist)
    exact .inr ⟨hkeys, (List.pairwise_cons.1 hpair).1 b (by simp)⟩

/-- A line that takes part in a sort has room for its slot. -/
theorem slot_lt_of_slotted {line : Line} (h : line ∈ slotted data headLen) :
    line.offset + slotAt + Hex.wordLen ≤ data.length := by
  obtain ⟨hmem, hslot⟩ := List.mem_filter.1 h
  obtain ⟨-, hlt, -, htext⟩ := mem_linesFrom_iff.1 hmem
  have hlong := keyAt_lt_of_hasSlot hslot
  have hle := (List.IsPrefix.trans ⟨_, takeLine_append_dropLine _⟩ (List.prefix_refl
    (data.drop line.offset))).length_le
  rw [htext, List.length_drop] at hle
  simp only [keyAt, slotAt, Hex.wordLen] at hlong ⊢
  omega

end Index

/-! ## The file behind a sort -/

/-- The writes of a sort by a session that sees the whole file. -/
def sortWrites (now : Nat) (bytes : Bytes) : List Patch :=
  (Index.sortPlan bytes Header.length).map Index.slotPatch
    ++ [⟨Header.sinceSortAt, Hex.word 0⟩, ⟨Header.modifiedAt, Hex.word (UInt32.ofNat now)⟩]

/-- What a sort makes of a file. -/
def resorted (now : Nat) (bytes : Bytes) : Bytes := Patch.applyAll (sortWrites now bytes) bytes

/-- A header with the stamp of a second. -/
def stamped (now : Nat) (bytes : Bytes) : Bytes :=
  (⟨Header.modifiedAt, Hex.word (UInt32.ofNat now)⟩ : Patch).apply bytes

/-- The two counters that a sort sets. -/
def sortedHead (now : Nat) (head : Bytes) : Bytes :=
  stamped now ((⟨Header.sinceSortAt, Hex.word 0⟩ : Patch).apply head)

/-- The lines with the slots that a sort gives them. -/
def sortedTexts (texts : List Bytes) : List Bytes :=
  Index.fillSlots texts ((Index.byKey (linesAt Header.length texts)).map Line.offset)

theorem length_counter_le {offset : Nat} (h : offset + Hex.wordLen ≤ Header.length) {head : Bytes}
    (hlen : Header.length ≤ head.length) (v : UInt32) : (⟨offset, Hex.word v⟩ : Patch).Fits head := by
  rw [Patch.Fits, Hex.length_word]
  exact Nat.le_trans h hlen

theorem stamped_append (now : Nat) {head : Bytes} (hlen : Header.length ≤ head.length)
    (rest : Bytes) : stamped now (head ++ rest) = stamped now head ++ rest :=
  Patch.apply_front (length_counter_le (by decide) hlen _) rest

theorem length_stamped (now : Nat) {head : Bytes} (hlen : Header.length ≤ head.length) :
    (stamped now head).length = head.length :=
  Patch.length_apply (length_counter_le (by decide) hlen _)

theorem length_sortedHead (now : Nat) {head : Bytes} (hlen : Header.length ≤ head.length) :
    (sortedHead now head).length = head.length := by
  have hfits := length_counter_le (show Header.sinceSortAt + Hex.wordLen ≤ _ by decide) hlen 0
  have hinner := Patch.length_apply hfits
  rw [sortedHead, length_stamped now (hinner ▸ hlen), hinner]

/-- The count of appends stands behind the stamp. -/
theorem exists_cut_sortedHead (now : Nat) {head : Bytes} (hlen : Header.length ≤ head.length) :
    ∃ front back, front.length = Header.sinceSortAt ∧
      sortedHead now head = front ++ (Hex.word 0 ++ back) := by
  have hfits := length_counter_le (show Header.sinceSortAt + Hex.wordLen ≤ _ by decide) hlen 0
  have hfront : (head.take Header.sinceSortAt).length = Header.sinceSortAt := by
    rw [List.length_take, Nat.min_eq_left (Nat.le_trans (by decide) hlen)]
  have hstamp : (⟨Header.modifiedAt, Hex.word (UInt32.ofNat now)⟩ : Patch).Fits
      (head.take Header.sinceSortAt) := by
    rw [Patch.Fits, hfront, Hex.length_word]
    exact (by decide : Header.modifiedAt + Hex.wordLen ≤ Header.sinceSortAt)
  refine ⟨stamped now (head.take Header.sinceSortAt),
    head.drop (Header.sinceSortAt + (Hex.word 0).length), ?_, ?_⟩
  · exact (Patch.length_apply hstamp).trans hfront
  · rw [sortedHead, Patch.apply_of_fits hfits, List.append_assoc]
    exact Patch.apply_front hstamp _

theorem counterAt?_sortedHead (now : Nat) {head : Bytes} (hlen : Header.length ≤ head.length)
    (rest : Bytes) : Header.counterAt? (sortedHead now head ++ rest) Header.sinceSortAt = some 0 := by
  obtain ⟨front, back, hfront, heq⟩ := exists_cut_sortedHead now hlen
  rw [heq, ← hfront, List.append_assoc, List.append_assoc]
  exact Header.counterAt?_word front _ 0

theorem sortedHead_sortedHead (now later : Nat) {head : Bytes} (hlen : Header.length ≤ head.length) :
    sortedHead later (sortedHead now head) = stamped later (sortedHead now head) := by
  obtain ⟨front, back, hfront, heq⟩ := exists_cut_sortedHead now hlen
  rw [sortedHead, heq, ← hfront, Patch.apply_exchange front back rfl]

/-- **The file behind a sort, taken apart.** -/
theorem resorted_cut (now : Nat) {head rest : Bytes} {texts : List Bytes}
    (hlen : head.length = Header.length) (hlines : ∀ text ∈ texts, IsLine text)
    (hopen : newline ∉ rest) : resorted now (head ++ (texts.flatten ++ rest)) =
      sortedHead now head ++ ((sortedTexts texts).flatten ++ rest) := by
  have hle := Nat.le_of_eq hlen.symm
  have hcount := length_counter_le (show Header.sinceSortAt + Hex.wordLen ≤ _ by decide) hle 0
  have hslots := Index.applyAll_sortPlan_view hlines hopen head rest
  rw [hlen] at hslots
  rw [resorted, sortWrites, Patch.applyAll_append, hslots, Patch.applyAll_cons,
    Patch.apply_front hcount]
  exact stamped_append now (Patch.length_apply hcount ▸ hle) _

section Texts

variable {texts : List Bytes} (hlines : ∀ text ∈ texts, IsLine text)

include hlines

theorem isLine_sortedTexts : ∀ text ∈ sortedTexts texts, IsLine text :=
  Index.isLine_fillSlots hlines _

theorem offset_lt_of_linesAt {line : Line} {n : Nat}
    (hsmall : Header.length + texts.flatten.length ≤ n) (h : line ∈ linesAt Header.length texts) :
    line.offset < n := by
  obtain ⟨front, back, heq, hoff⟩ := mem_linesAt_iff.1 h
  have hpos := (hlines line.text (by simp [heq])).length_pos
  rw [heq, List.flatten_append, List.length_append, List.flatten_cons, List.length_append] at hsmall
  omega

/-- The order of the keys is the same behind a sort, and so are the slots of the next one. -/
theorem sortedTexts_sortedTexts (hsmall : Header.length + texts.flatten.length ≤ UInt32.size) :
    sortedTexts (sortedTexts texts) = sortedTexts texts := by
  have horder := Index.offsets_byKey_sorted hlines
    fun _ hline => offset_lt_of_linesAt hlines hsmall hline
  rw [sortedTexts, show (Index.byKey (linesAt Header.length (sortedTexts texts))).map Line.offset =
    (Index.byKey (linesAt Header.length texts)).map Line.offset from horder]
  exact Index.fillSlots_fillSlots hlines _

end Texts

/-- What a sort makes of a line: its slot at most changes, and nothing of a line without one. -/
structure Line.Resorts (before after : Line) : Prop where
  offset_eq : after.offset = before.offset
  same : SameButSlot before.text after.text
  slotless : hasSlot before.text = false → after.text = before.text

theorem sameButSlot_withSlot {text : Bytes} (h : hasSlot text = true) (v : UInt32) :
    SameButSlot text (Index.withSlot text v) := by
  have hlt := Index.keyAt_lt_of_hasSlot h
  exact ⟨Patch.take_apply (Nat.le_refl _) (Nat.le_trans (by decide) (Nat.le_of_lt hlt)),
    Index.drop_withSlot v hlt (Nat.le_refl _)⟩

/-- Texts of the same lengths stand at the same offsets. -/
theorem forall₂_linesAt {rel : Bytes → Bytes → Prop} {texts texts' : List Bytes}
    (h : List.Forall₂ (fun a b => b.length = a.length ∧ rel a b) texts texts') (start : Nat) :
    List.Forall₂ (fun a b : Line => b.offset = a.offset ∧ rel a.text b.text)
      (linesAt start texts) (linesAt start texts') := by
  induction h generalizing start with
  | nil => exact .nil
  | cons hhead _ ih =>
    refine .cons ⟨rfl, hhead.2⟩ ?_
    rw [hhead.1]
    exact ih _

theorem resorts_sortedTexts (texts : List Bytes) :
    List.Forall₂ Line.Resorts (linesAt Header.length texts)
      (linesAt Header.length (sortedTexts texts)) := by
  have htexts : List.Forall₂ (fun a b => b.length = a.length ∧ SameButSlot a b ∧
      (hasSlot a = false → b = a)) texts (sortedTexts texts) :=
    Index.forall₂_fillSlots (fun _ => ⟨rfl, ⟨rfl, rfl⟩, fun _ => rfl⟩)
      (fun _ v h => ⟨Index.length_withSlot v (Index.keyAt_lt_of_hasSlot h),
        sameButSlot_withSlot h v, fun hnone => absurd h (Bool.eq_false_iff.1 hnone)⟩) _ _
  exact (forall₂_linesAt htexts _).imp fun _ _ h => ⟨h.1, h.2.1, h.2.2⟩

theorem length_flatten_sortedTexts (texts : List Bytes) :
    (sortedTexts texts).flatten.length = texts.flatten.length :=
  Index.length_flatten_fillSlots texts _

/-- The lines of a file that is taken apart. -/
theorem linesFrom_cut {head rest : Bytes} {texts : List Bytes} (hlen : head.length = Header.length)
    (hlines : ∀ text ∈ texts, IsLine text) :
    linesFrom Header.length (head ++ (texts.flatten ++ rest)) = linesAt Header.length texts ++
      linesAt (Header.length + texts.flatten.length) (lines rest) := by
  rw [linesFrom, ← hlen, List.drop_left, lines_flatten_append hlines, linesAt_append]

/-- A byte of the slot of a line that takes part in a sort. -/
def InSlot (bytes : Bytes) (i : Nat) : Prop :=
  ∃ line ∈ Index.slotted bytes Header.length,
    line.offset + slotAt ≤ i ∧ i < line.offset + slotAt + Hex.wordLen

/-- What a file is behind a sort, to the one before it. -/
structure Resorted (now : Nat) (before after : Bytes) : Prop where
  length_eq : after.length = before.length
  lines : List.Forall₂ Line.Resorts (linesFrom Header.length before) (linesFrom Header.length after)
  /-- In file order, the slots name the lines that carry one in the order of their keys. -/
  order : ∃ order : List Line, order.Perm (Index.slotted before Header.length) ∧
    order.Pairwise Line.Precedes ∧
    (Index.slotted after Header.length).map (fun line => (slot? line.text).map UInt32.toNat) =
      order.map fun line => some line.offset
  slotted_eq : (Index.slotted after Header.length).map Line.offset =
    (Index.slotted before Header.length).map Line.offset
  named : ∀ line ∈ Index.slotted before Header.length,
    ∃! namer, namer ∈ Index.slotted after Header.length ∧
      (slot? namer.text).map UInt32.toNat = some line.offset
  sinceSort : Header.counterAt? after Header.sinceSortAt = some 0
  stamp : Header.counterAt? after Header.modifiedAt = some (UInt32.ofNat now)
  elsewhere : ∀ i, ¬ InSlot before i →
    ¬ (Header.sinceSortAt ≤ i ∧ i < Header.sinceSortAt + Hex.wordLen) →
    ¬ (Header.modifiedAt ≤ i ∧ i < Header.modifiedAt + Hex.wordLen) → after[i]? = before[i]?
  again : ∀ later, resorted later after = stamped later after

/-- Every write of a sort goes to a slot or to one of the two counters. -/
theorem getElem?_resorted {bytes : Bytes} (hlen : Header.length ≤ bytes.length) (now i : Nat)
    (hslot : ¬ InSlot bytes i)
    (hcount : ¬ (Header.sinceSortAt ≤ i ∧ i < Header.sinceSortAt + Hex.wordLen))
    (hstamp : ¬ (Header.modifiedAt ≤ i ∧ i < Header.modifiedAt + Hex.wordLen)) :
    (resorted now bytes)[i]? = bytes[i]? := by
  have hplan : ∀ patch ∈ (Index.sortPlan bytes Header.length).map Index.slotPatch,
      ∃ line ∈ Index.slotted bytes Header.length, patch.offset = line.offset + slotAt ∧
        patch.data.length = Hex.wordLen := by
    intro patch hpatch
    obtain ⟨⟨offset, target⟩, hplace, rfl⟩ := List.mem_map.1 hpatch
    obtain ⟨line, hline, rfl⟩ := List.mem_map.1 (List.of_mem_zip hplace).1
    exact ⟨line, hline, rfl, Hex.length_word _⟩
  refine Patch.getElem?_applyAll (fun patch hpatch => ?_) fun patch hpatch => ?_
  · rcases List.mem_append.1 hpatch with hpatch | hpatch
    · obtain ⟨line, hline, hoff, hdata⟩ := hplan patch hpatch
      rw [Patch.Fits, hoff, hdata]
      exact Index.slot_lt_of_slotted hline
    · simp only [List.mem_cons, List.not_mem_nil, or_false] at hpatch
      rcases hpatch with rfl | rfl
      · exact length_counter_le (by decide) hlen 0
      · exact length_counter_le (by decide) hlen _
  · rcases List.mem_append.1 hpatch with hpatch | hpatch
    · obtain ⟨line, hline, hoff, hdata⟩ := hplan patch hpatch
      rw [hoff, hdata]
      exact fun hin => hslot ⟨line, hline, hin⟩
    · simp only [List.mem_cons, List.not_mem_nil, or_false] at hpatch
      rcases hpatch with rfl | rfl
      · exact hcount
      · exact hstamp

/-- The stamp is the last write of a sort. -/
theorem counterAt?_resorted {bytes : Bytes} (hlen : Header.length ≤ bytes.length) (now : Nat) :
    Header.counterAt? (resorted now bytes) Header.modifiedAt = some (UInt32.ofNat now) := by
  have hgrown := Patch.length_le_length_applyAll
    ((Index.sortPlan bytes Header.length).map Index.slotPatch
      ++ [⟨Header.sinceSortAt, Hex.word 0⟩]) bytes
  rw [resorted, sortWrites, List.append_cons, Patch.applyAll_append]
  exact counterAt?_apply_word (Nat.le_trans (by decide) (Nat.le_trans hlen hgrown)) _

section Cut

variable {head rest : Bytes} {texts : List Bytes} (hhead : head.length = Header.length)
  (hlines : ∀ text ∈ texts, IsLine text) (hopen : newline ∉ rest)

include hhead hlines hopen

/-- The lines of a file that is taken apart which take part in a sort. -/
theorem slotted_cut : Index.slotted (head ++ (texts.flatten ++ rest)) Header.length =
    (linesAt Header.length texts).filter fun line => hasSlot line.text := by
  rw [← hhead]
  exact Index.slotted_append_fragment hlines hopen head

/-- Behind a sort the slots are those of the lines in the order of their keys. -/
theorem slots_resorted_cut {now : Nat}
    (hsmall : Header.length + texts.flatten.length ≤ UInt32.size) :
    (Index.slotted (resorted now (head ++ (texts.flatten ++ rest))) Header.length).map
        (fun line => (slot? line.text).map UInt32.toNat) =
      (Index.sorted (head ++ (texts.flatten ++ rest)) Header.length).map
        (fun line => some line.offset) ∧
    (Index.slotted (resorted now (head ++ (texts.flatten ++ rest))) Header.length).map Line.offset =
      (Index.slotted (head ++ (texts.flatten ++ rest)) Header.length).map Line.offset := by
  have hhead' := (length_sortedHead now (Nat.le_of_eq hhead.symm)).trans hhead
  obtain ⟨hplaces, hslots⟩ := Index.entries_sorted hlines
    fun _ hline => offset_lt_of_linesAt hlines hsmall hline
  have hsome := congrArg (List.map some) hslots
  rw [List.map_map, List.map_map] at hsome
  have hfirst := congrArg (List.map Prod.fst) hplaces
  rw [Index.map_place_entries, Index.map_place_entries, List.map_map, List.map_map] at hfirst
  rw [resorted_cut now hhead hlines hopen, slotted_cut hhead' (isLine_sortedTexts hlines) hopen,
    Index.sorted, slotted_cut hhead hlines hopen, Index.map_slot_entries]
  exact ⟨hsome, hfirst⟩

end Cut

/-- Slots that are offsets of lines, each once, name every one of these lines once. -/
theorem existsUnique_namer {order lines : List Line} (hnodup : (order.map Line.offset).Nodup)
    (hslots : lines.map (fun line => (slot? line.text).map UInt32.toNat) =
      order.map fun line => some line.offset) {line : Line} (h : line ∈ order) :
    ∃! namer, namer ∈ lines ∧ (slot? namer.text).map UInt32.toNat = some line.offset := by
  have hsome := hnodup.map (f := some) fun _ _ => Option.some.inj
  rw [List.map_map] at hsome
  have hdistinct : (lines.map fun line => (slot? line.text).map UInt32.toNat).Nodup := by
    rw [hslots]
    exact hsome
  have hmem : some line.offset ∈ lines.map fun line => (slot? line.text).map UInt32.toNat := by
    rw [hslots]
    exact List.mem_map.2 ⟨line, h, rfl⟩
  obtain ⟨namer, hnamer, hnames⟩ := List.mem_map.1 hmem
  exact ⟨namer, ⟨hnamer, hnames⟩, fun other hother =>
    List.inj_on_of_nodup_map hdistinct hother.1 hnamer (hother.2.trans hnames.symm)⟩

/-- **The file behind a sort**, whatever stood behind the header. -/
theorem resorted_spec {bytes : Bytes} (hlen : Header.length ≤ bytes.length)
    (hsmall : bytes.length < UInt32.size) (now : Nat) : Resorted now bytes (resorted now bytes) := by
  have helsewhere := getElem?_resorted hlen now
  obtain ⟨head, texts, rest, hhead, hlines, hopen, rfl⟩ := exists_cut hlen
  have hle := Nat.le_of_eq hhead.symm
  have hhead' := (length_sortedHead now hle).trans hhead
  have hlines' := isLine_sortedTexts hlines
  have hflat := length_flatten_sortedTexts texts
  have hlt : Header.length + texts.flatten.length ≤ UInt32.size := by
    rw [List.length_append, List.length_append, hhead] at hsmall
    omega
  have hafter := resorted_cut now hhead hlines hopen
  obtain ⟨hslots, hoffsets⟩ := @slots_resorted_cut head rest texts hhead hlines hopen now hlt
  have hperm := Index.perm_sorted (head ++ (texts.flatten ++ rest)) Header.length
  have hnodup := (hperm.map Line.offset).nodup_iff.2 (Index.nodup_offset_slotted _ _)
  refine ⟨?_, ?_, ⟨_, hperm, Index.pairwise_sorted _ _, hslots⟩, hoffsets,
    fun line hline => existsUnique_namer hnodup hslots (hperm.mem_iff.2 hline), ?_,
    counterAt?_resorted hlen now, helsewhere, ?_⟩
  · rw [hafter]
    simp only [List.length_append, hflat, hhead, hhead']
  · rw [hafter, linesFrom_cut hhead' hlines', hflat, linesFrom_cut hhead hlines]
    refine List.rel_append (resorts_sortedTexts texts) (List.forall₂_same.2 fun line _ => ?_)
    exact ⟨rfl, ⟨rfl, rfl⟩, fun _ => rfl⟩
  · rw [hafter]
    exact counterAt?_sortedHead now hle _
  · intro later
    rw [hafter, resorted_cut later hhead' hlines' hopen, sortedHead_sortedHead now later hle,
      sortedTexts_sortedTexts hlines hlt, stamped_append later (Nat.le_of_eq hhead'.symm)]

/-- A sort leaves the append sequence as it is. -/
theorem appendSeq?_resorted {bytes : Bytes} (hlen : Header.length ≤ bytes.length) (now : Nat) :
    appendSeq? (resorted now bytes) = appendSeq? bytes := by
  refine appendSeq?_applyAll _ hlen fun patch hpatch => ?_
  rcases List.mem_append.1 hpatch with hpatch | hpatch
  · obtain ⟨⟨offset, target⟩, hplace, rfl⟩ := List.mem_map.1 hpatch
    obtain ⟨line, hline, rfl⟩ := List.mem_map.1 (List.of_mem_zip hplace).1
    have hle := (mem_linesFrom_iff.1 (List.mem_filter.1 hline).1).1
    simp only [Index.slotPatch, Header.modifiedAt, Header.length] at hle ⊢
    omega
  · simp only [List.mem_cons, List.not_mem_nil, or_false] at hpatch
    rcases hpatch with rfl | rfl
    · exact (by decide : Header.modifiedAt ≤ Header.sinceSortAt)
    · exact Nat.le_refl _

/-! ## A session that sees the whole file -/

/-- A handle that maps the whole file, behind a header of the usual length. -/
structure Session.Covers (s : Session) : Prop where
  headLen : s.handle.headLen = Header.length
  long : Header.length ≤ s.file.bytes.length
  whole : s.file.bytes.length ≤ s.handle.view.length

namespace Session.Covers

variable {s : Session}

theorem data_eq (h : s.Covers) : s.data = s.file.bytes :=
  List.take_of_length_le h.whole

theorem hold (h : s.Covers) (offset : Nat) : (s.hold offset).Covers := ⟨h.headLen, h.long, h.whole⟩

theorem free (h : s.Covers) (offset : Nat) : (s.free offset).Covers := ⟨h.headLen, h.long, h.whole⟩

theorem sort_bytes (h : s.Covers) : s.sort.file.bytes = resorted s.now s.file.bytes := by
  have hall : s.sort.file.bytes = Patch.applyAll s.sortPatches s.file.bytes := s.writeAll_bytes _
  have hpatches : s.sortPatches = sortWrites s.now s.file.bytes := by
    rw [Session.sortPatches, h.data_eq, h.headLen]
    rfl
  rw [hall, hpatches, resorted]

theorem sort (h : s.Covers) (hsmall : s.file.bytes.length < UInt32.size) : s.sort.Covers := by
  obtain ⟨-, -, hhandle⟩ := s.sort_frame
  have hlen := (resorted_spec h.long hsmall s.now).length_eq
  rw [← h.sort_bytes] at hlen
  exact ⟨hhandle ▸ h.headLen, hlen ▸ h.long, hlen ▸ hhandle ▸ h.whole⟩

/-- Mapping the file again changes nothing of what is seen. -/
theorem refresh (h : s.Covers) : (appendSeq? s.file.bytes = none ∧
      SessionM.refresh s = .error .invalidHeader s) ∨
    appendSeq? s.file.bytes ≠ none ∧ ∃ changed seen,
      SessionM.refresh s = .ok changed (s.withHandle seen) ∧ (s.withHandle seen).Covers := by
  have hread : SessionM.appendSeq s = _ := SessionM.counter_eq_match s Header.appendSeqAt
  rw [h.data_eq] at hread
  cases hseq : appendSeq? s.file.bytes with
  | none =>
    rw [show Header.counterAt? s.file.bytes Header.appendSeqAt = none from hseq] at hread
    exact .inl ⟨rfl, SessionM.bind_error hread⟩
  | some seq =>
    rw [show Header.counterAt? s.file.bytes Header.appendSeqAt = some seq from hseq] at hread
    refine .inr ⟨by simp, ?_⟩
    unfold SessionM.refresh
    rw [SessionM.bind_ok hread, SessionM.get_bind]
    by_cases hsame : seq = s.handle.seenSeq
    · rw [if_pos hsame]
      exact ⟨false, s.handle, rfl, h⟩
    · rw [if_neg hsame, SessionM.modify_bind]
      exact ⟨true, _, rfl, h.headLen, h.long, Nat.le_refl _⟩

/-- **A resort by a session that sees the whole file.** -/
theorem stretch_resort (h : s.Covers) (hsmall : s.file.bytes.length < UInt32.size)
    {pending : Option Stage} (hsame : ∀ stage, pending = some stage → stage.call = .resort) :
    (s.file.locks.blocks s.holder structuralOffset .exclusive = true ∧
      Call.resort.stretch pending s = .ok (.waiting .resorting) s) ∨
    (appendSeq? s.file.bytes = none ∧ ∃ s', s'.file.bytes = s.file.bytes ∧
        Call.resort.stretch pending s = .error .invalidHeader s') ∨
    (appendSeq? s.file.bytes ≠ none ∧ ∃ s',
      Call.resort.stretch pending s = .ok (.answered .done) s' ∧
        s'.file.bytes = resorted s.now s.file.bytes ∧ s'.holder = s.holder ∧ s'.Covers ∧
        s'.file.locks.blocks s.holder structuralOffset .exclusive = false) := by
  have hstretch : Call.resort.stretch pending =
      SessionM.tryLock structuralOffset .exclusive >>= fun granted =>
        if granted then SessionM.resortLocked else SessionM.wait .resorting := by
    cases pending with
    | none => rfl
    | some stage =>
      have hstage := hsame stage rfl
      cases stage with
      | resorting => rfl
      | reading | readingAt | locking | writing | deleting | appending => cases hstage
  have htry := SessionM.tryLock_eq s SessionM.structural_lockFault?
  rw [hstretch]
  cases hblocks : s.file.locks.blocks s.holder structuralOffset .exclusive with
  | true =>
    rw [if_pos hblocks] at htry
    rw [SessionM.bind_ok htry]
    exact .inl ⟨rfl, rfl⟩
  | false =>
    rw [if_neg (by simp [hblocks])] at htry
    rw [SessionM.bind_ok htry, if_pos rfl]
    unfold SessionM.resortLocked
    have hheld := h.hold structuralOffset
    rcases hheld.refresh with ⟨hnone, hfail⟩ | ⟨hread, changed, seen, hok, hcovers⟩
    · have hresort : SessionM.resort (s.hold structuralOffset) = .error .invalidHeader _ :=
        SessionM.bind_error hfail
      refine .inr (.inl ⟨hnone, (s.hold structuralOffset).free structuralOffset, rfl, ?_⟩)
      rw [SessionM.bind_ok (SessionM.unlockingStructure_error hresort)]
      rfl
    · have hresort : SessionM.resort (s.hold structuralOffset) =
          .ok () ((s.hold structuralOffset).withHandle seen).sort := by
        unfold SessionM.resort
        rw [SessionM.bind_ok hok]
        rfl
      rw [SessionM.bind_ok (SessionM.unlockingStructure_ok hresort)]
      obtain ⟨hlocks, hholder, -⟩ := ((s.hold structuralOffset).withHandle seen).sort_frame
      refine .inr (.inr ⟨hread, _, rfl, hcovers.sort_bytes, hholder, (hcovers.sort hsmall).free _, ?_⟩)
      rw [← hblocks]
      refine LockTable.blocks_congr ?_ _ _
      have hothers : (((s.hold structuralOffset).withHandle seen).sort.file.locks.clear
          ((s.hold structuralOffset).withHandle seen).sort.holder structuralOffset).others
            s.holder = s.file.locks.others s.holder := by
        rw [hholder, hlocks]
        exact LockTable.others_clear.trans LockTable.others_set
      exact hothers

end Session.Covers

/-! ## A resort -/

namespace Store

/-- A client that has just sorted, and whose mapping covers the file, can sort again. -/
theorem resort_again {next : Store} {id : HolderId} {handle : Handle}
    (hclient : next.client? id = some (.idle handle)) (later : Nat)
    (hcovers : (next.session later id handle).Covers)
    (hsmall : next.file.bytes.length < UInt32.size)
    (hfree : next.file.locks.blocks id structuralOffset .exclusive = false)
    (hread : appendSeq? next.file.bytes ≠ none) :
    ∃ again, next.serve ⟨later, id, .call .resort⟩ = (again, .answered .done) ∧
      again.file.bytes = resorted later next.file.bytes := by
  show ∃ again, next.call later id .resort = (again, .answered .done) ∧ _
  rw [call, hclient]
  rcases @Session.Covers.stretch_resort _ hcovers hsmall none (by rintro stage ⟨⟩) with
    ⟨hblocks, -⟩ | ⟨hnone, -⟩ | ⟨-, s', hstretch, hbytes, -⟩
  · exact absurd (hblocks.symm.trans hfree) (by decide)
  · exact absurd hnone hread
  · exact ⟨next.update id s'.file (.idle s'.handle),
      congrArg (next.settleCall id) hstretch, hbytes⟩

/-- **A resort writes the stable sort of the lines with a slot, and nothing else.**  The client's
mapping covers the file; what stands behind the header is arbitrary.  While the structural lock is
not free the call waits, and if the append sequence cannot be read it fails; the file stays as it is
in both cases.  Otherwise the call is answered, the file is `Resorted`, and the next resort of the
client changes the stamp alone. -/
theorem resort_writes_the_order {store : Store} {turn : Turn} {handle : Handle}
    {pending : Option Stage} (hruns : store.Runs turn handle .resort pending)
    (hlong : Header.length ≤ store.file.bytes.length)
    (hsmall : store.file.bytes.length < UInt32.size) (hheadLen : handle.headLen = Header.length)
    (hwhole : store.file.bytes.length ≤ handle.view.length) :
    (store.file.locks.blocks turn.holder structuralOffset .exclusive = true ∧
      (store.serve turn).2 = .waiting ∧ (store.serve turn).1.file.bytes = store.file.bytes) ∨
    (appendSeq? store.file.bytes = none ∧
      (store.serve turn).2 = .failed .invalidHeader ∧
        (store.serve turn).1.file.bytes = store.file.bytes) ∨
    ((store.serve turn).2 = .answered .done ∧
      Resorted turn.now store.file.bytes (store.serve turn).1.file.bytes ∧
      ∀ later, ∃ again, (store.serve turn).1.serve ⟨later, turn.holder, .call .resort⟩ =
          (again, .answered .done) ∧
        again.file.bytes = stamped later (store.serve turn).1.file.bytes) := by
  have hcovers : (store.session turn.now turn.holder handle).Covers := ⟨hheadLen, hlong, hwhole⟩
  rw [hruns.serve]
  rcases hcovers.stretch_resort hsmall hruns.same with ⟨hblocks, hstretch⟩ |
    ⟨hnone, s', hbytes, hstretch⟩ | ⟨hread, s', hstretch, hbytes, -, hcovers', hfree⟩
  · refine .inl ⟨hblocks, ?_⟩
    rw [hstretch]
    exact ⟨rfl, rfl⟩
  · refine .inr (.inl ⟨hnone, ?_⟩)
    rw [hstretch]
    exact ⟨rfl, hbytes⟩
  · have hspec := resorted_spec hlong hsmall turn.now
    have hbytes : s'.file.bytes = resorted turn.now store.file.bytes := hbytes
    rw [hstretch]
    -- what the client has before it sorts again
    generalize hnext : store.update turn.holder s'.file (.idle s'.handle) = next
    have hclient : next.client? turn.holder = some (.idle s'.handle) := by
      rw [← hnext]
      exact client?_update_self _ _ _ _
    have hfile : next.file = s'.file := by rw [← hnext]; rfl
    have hnow : next.file.bytes = resorted turn.now store.file.bytes := hfile ▸ hbytes
    refine .inr (.inr ⟨rfl, ?_, fun later => ?_⟩)
    · show Resorted turn.now store.file.bytes s'.file.bytes
      rw [hbytes]
      exact hspec
    · have hcovers : (next.session later turn.holder s'.handle).Covers := by
        rw [session, hfile]
        exact ⟨hcovers'.headLen, hcovers'.long, hcovers'.whole⟩
      obtain ⟨again, hserve, hagain⟩ := resort_again hclient later hcovers
        (by rw [hnow, hspec.length_eq]; exact hsmall) (by rw [hfile]; exact hfree)
        (by rw [hnow, appendSeq?_resorted hlong]; exact hread)
      refine ⟨again, ?_, ?_⟩
      · rw [← hnext] at hserve
        exact hserve
      · rw [hagain, hnow, hspec.again later, ← hbytes]
        rfl

/-- Behind the header stand a record of `b`, a line without a slot, a damaged line with the key `a`
and a slot that names nothing, and the start of a record. -/
def unordered : Bytes :=
  { Header.fresh with sinceSort := 0 }.encode
    ++ encodeRecord (ascii ['b']) [] ++ ascii ['x', '\n']
    ++ ascii (['?', '0', '0', '0', '0', '0', '0', 'f', 'f', '?', '?', '?', '?', '?', '?']
      ++ ['a', '\n'])
    ++ ascii ['+', '0', '0']

/-- One client has it open. -/
def visited : Store :=
  ((ofBytes unordered 0).run [⟨100, 1, .opening (.ofPath Config.defaultPath)⟩]).1

/-- The record and the damaged line take part, and the second sort finds nothing to do. -/
theorem resort_writes_the_order_of_damaged_line :
    visited.file.bytes = unordered ∧
    (visited.serve ⟨200, 1, .call .resort⟩).2 = .answered .done ∧
    Resorted 200 unordered (visited.serve ⟨200, 1, .call .resort⟩).1.file.bytes ∧
    (Index.slotted unordered Header.length).map Line.offset = [35, 54] ∧
    ∃ again, (visited.serve ⟨200, 1, .call .resort⟩).1.serve ⟨300, 1, .call .resort⟩ =
        (again, .answered .done) ∧
      again.file.bytes = stamped 300 (visited.serve ⟨200, 1, .call .resort⟩).1.file.bytes := by
  have hbytes : visited.file.bytes = unordered := by decide +kernel
  have hclient : visited.client? 1 =
      some (.idle ⟨.ofPath Config.defaultPath, Header.length, 0, ⟨74, 0⟩, none, false⟩) := by
    decide +kernel
  have hruns : visited.Runs ⟨200, 1, .call .resort⟩
      ⟨.ofPath Config.defaultPath, Header.length, 0, ⟨74, 0⟩, none, false⟩ .resort none :=
    ⟨by simp only [running?, hclient], hclient, by rintro stage ⟨⟩,
      by simp only [journal, hclient]; rfl⟩
  have hlong : Header.length ≤ visited.file.bytes.length := by decide +kernel
  rcases resort_writes_the_order hruns hlong (by decide +kernel) rfl (by decide +kernel) with
    ⟨hblocks, -⟩ | ⟨hnone, -⟩ | ⟨hdone, hresorted, hagain⟩
  · exact absurd hblocks (by decide +kernel)
  · exact absurd hnone (by decide +kernel)
  · exact ⟨hbytes, hdone, hbytes ▸ hresorted, by decide +kernel, hagain 300⟩

end Store

end RecordStore
