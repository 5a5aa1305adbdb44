import Mathlib.Data.List.Forall2
import Mathlib.Tactic.Common
import RecordStore.Proofs.Conduct
import RecordStore.Proofs.Fragments
import RecordStore.Proofs.Resorting
import RecordStore.Trim

/-!
# What a trim keeps

A trim copies a store line by line, leaving out the dead lines and the slots.  The copy is then
sorted.  What comes of it holds every record that the store held, and a search alone finds each of
them, whatever else the lines are: foreign texts, damaged records, a last line without its newline.

* `keptLines` — the lines that a trim keeps; `trimStats` — what it counts.
* `Reslots` — a line that is another one, but for its slot.
* `Trimmed` — what a file becomes by a trim.

Principal results: `Image.Ordered.search_contents` — a search alone answers what the file says;
`trimBytes?_eq` — what a trim copies; `exists_trimmed` — what it comes to.
-/

set_option autoImplicit false

namespace RecordStore

/-! ## What a file says, whatever its slots -/

/-- The texts of the live records, without their slots. -/
def bareTexts (data : Bytes) : List Bytes :=
  (liveRecordsFrom Header.length data).map fun r => clearSlot r.text

theorem bareTexts_eq (data : Bytes) : bareTexts data = (bareRecords data).map Line.text := by
  rw [bareTexts, bareRecords, List.map_map]
  rfl

theorem map_text_bareAt (start : Nat) (texts : List Bytes) :
    (bareAt start texts).map Line.text = (texts.filter isLiveRecord).map clearSlot := by
  have htexts : texts.filter isLiveRecord =
      ((linesAt start texts).filter fun line => isLiveRecord line.text).map Line.text := by
    conv_lhs => rw [← map_text_linesAt start texts, List.filter_map]
    rfl
  rw [htexts, bareAt, List.map_map, List.map_map]
  rfl

theorem keyOf_comp_clearSlot (key : Bytes) :
    ((fun text => keyOf text == key) ∘ fun r : Record => clearSlot r.text) = fun r => r.key == key := by
  funext r
  rw [Function.comp_apply, keyOf_clearSlot]
  rfl

/-- The map of a file is that of its bare texts. -/
theorem Contents.ofBytes_eq_bareTexts (data key : Bytes) : ofBytes data Header.length key =
    ((bareTexts data).find? fun text => keyOf text == key).map fieldsOf := by
  have hfields : (fieldsOf ∘ fun r : Record => clearSlot r.text) = Record.fields := by
    funext r
    rw [Function.comp_apply, fieldsOf_clearSlot, r.fields_eq]
  rw [bareTexts, List.find?_map, Option.map_map, keyOf_comp_clearSlot, hfields]
  rfl

/-- How many live records a key has. -/
theorem length_filter_key (data key : Bytes) :
    ((liveRecordsFrom Header.length data).filter fun r => r.key == key).length =
      ((bareTexts data).filter fun text => keyOf text == key).length := by
  rw [bareTexts, List.filter_map, List.length_map, keyOf_comp_clearSlot]

namespace Image.Ordered

variable {i : Image} {fragment data key : Bytes}

/-- **A search alone answers what a file says** of a key that has at most one record, once a sort has
placed every record. -/
theorem search_contents (hi : i.Ordered) (hf : newline ∉ fragment) (hdata : data = i.bytes ++ fragment)
    (hall : ∀ r ∈ liveRecordsFrom Header.length data, r.slot ≠ unsorted)
    (hone : ((liveRecordsFrom Header.length data).filter fun r => r.key == key).length ≤ 1) :
    (Index.search data Header.length key).map (fun span => fieldsOf (span.read data)) =
      Contents.ofBytes data Header.length key := by
  rw [Contents.ofBytes, Contents.ofRecords]
  cases hsearch : Index.search data Header.length key with
  | none =>
    have hmissing : (liveRecordsFrom Header.length data).find? (fun r => r.key == key) = none := by
      rw [List.find?_eq_none]
      intro r hr hkey
      have hsome := hi.search_fragment_isSome hf
        (hdata ▸ ⟨r, hr, hall r hr, beq_iff_eq.1 hkey, rfl⟩ : PlacedAt (i.bytes ++ fragment) r.span key)
      rw [← hdata, hsearch] at hsome
      cases hsome
    rw [hmissing]
    rfl
  | some span =>
    have hplaced : PlacedAt data span key := by
      rw [hdata] at hsearch ⊢
      exact hi.search_fragment hf hsearch
    obtain ⟨r, hr, -, hkey, rfl⟩ := hplaced
    obtain ⟨r', hfound⟩ := Option.isSome_iff_exists.1
      (List.find?_isSome.2 ⟨r, hr, beq_iff_eq.2 hkey⟩ :
        ((liveRecordsFrom Header.length data).find? fun r => r.key == key).isSome = true)
    -- both records have the key, and it has only one
    obtain rfl : r' = r := by
      have hmem : r ∈ (liveRecordsFrom Header.length data).filter fun r => r.key == key :=
        List.mem_filter.2 ⟨hr, beq_iff_eq.2 hkey⟩
      have hcheck := List.find?_some hfound
      have hmem' : r' ∈ (liveRecordsFrom Header.length data).filter fun r => r.key == key :=
        List.mem_filter.2 ⟨List.mem_of_find?_eq_some hfound, hcheck⟩
      obtain ⟨only, honly⟩ :=
        List.length_eq_one_iff.1 (Nat.le_antisymm hone (List.length_pos_of_mem hmem))
      rw [honly, List.mem_singleton] at hmem hmem'
      rw [hmem, hmem']
    have hread : r'.span.read data = r'.text :=
      read_span_of_mem (mem_liveRecordsFrom_iff.1 hr).1
    rw [hfound, Option.map_some, Option.map_some, hread, r'.fields_eq]

/-- The walk through the tail adds nothing then. -/
theorem search_or_scanTail (hi : i.Ordered) (hf : newline ∉ fragment) (hdata : data = i.bytes ++ fragment)
    (hall : ∀ r ∈ liveRecordsFrom Header.length data, r.slot ≠ unsorted) (key : Bytes) :
    (Index.search data Header.length key).or (Index.scanTail data Header.length key) =
      Index.search data Header.length key := by
  cases hsearch : Index.search data Header.length key with
  | some span => rfl
  | none =>
    cases htail : Index.scanTail data Header.length key with
    | none => rfl
    | some span =>
      have hlen : Header.length ≤ data.length := by
        rw [hdata, List.length_append, length_bytes]
        omega
      obtain ⟨r, hr, hlive, hkey, -⟩ := Index.scanTail_sound hlen htail
      obtain ⟨hfrom, hend⟩ := mem_recordsFrom_iff.1 hr
      have hmem : r ∈ liveRecordsFrom Header.length data :=
        mem_liveRecordsFrom_iff.2 ⟨hfrom, hend, hlive⟩
      have hsome := hi.search_fragment_isSome hf
        (hdata ▸ ⟨r, hmem, hall r hmem, hkey, rfl⟩ : PlacedAt (i.bytes ++ fragment) r.span key)
      rw [← hdata, hsearch] at hsome
      cases hsome

end Image.Ordered

/-! ## What is kept -/

/-- The lines that a trim keeps. -/
def keptLines (bytes : Bytes) : List Bytes :=
  (lines (dropLine bytes)).filter fun text => !isDeadLine text

/-- The second line is the first one, but for its slot if it has one. -/
def Reslots (before after : Bytes) : Prop :=
  hasSlot after = hasSlot before ∧ clearSlot after = clearSlot before

/-- What a trim counts. -/
def trimStats (before after : Bytes) : TrimStats where
  kept := ((keptLines before).filter fun text => (defect? text).isNone).length
  dropped := ((lines (dropLine before)).filter isDeadLine).length
  bytesBefore := before.length
  bytesAfter := after.length

/-- What a file becomes by a trim in the second `now`. -/
structure Trimmed (now : Nat) (before after : Bytes) : Prop where
  /-- The version and the append sequence stay. -/
  header : ∃ header, Header.decode? (takeLine before) = some header ∧
    takeLine after =
      ({ header with sinceSort := 0, modified := UInt32.ofNat now } : Header).encode
  /-- Each line that is kept stays as it is, apart from its slot. -/
  kept : List.Forall₂ Reslots (keptLines before) (lines (dropLine after))
  planned : Index.Planned after Header.length
  /-- A key that has at most one record is found by a search alone. -/
  lookup : ∀ key,
    ((liveRecordsFrom Header.length before).filter fun r => r.key == key).length ≤ 1 →
      (Index.search after Header.length key).map (fun span => fieldsOf (span.read after)) =
          Contents.ofBytes before Header.length key ∧
        (Index.search after Header.length key).or (Index.scanTail after Header.length key) =
          Index.search after Header.length key

namespace Reslots

theorem refl (text : Bytes) : Reslots text text := ⟨rfl, rfl⟩

theorem withSlot {text : Bytes} (hline : IsLine text) (hslot : hasSlot text = true) (v : UInt32) :
    Reslots text (Index.withSlot text v) :=
  ⟨(Index.hasSlot_withSlot hline hslot v).trans hslot.symm, clearSlot_withSlot hline hslot v⟩

theorem of_clearSlot {before after : Bytes} (hline : IsLine before)
    (h : Reslots (clearSlot before) after) : Reslots before after :=
  ⟨h.1.trans (hasSlot_clearSlot hline), h.2.trans (clearSlot_clearSlot hline)⟩

end Reslots

/-- A first line that is a header is as long as one. -/
theorem Header.isLine_of_decode? {bytes : Bytes} {header : Header}
    (h : decode? (takeLine bytes) = some header) : IsLine (takeLine bytes) ∧
      (takeLine bytes).length = length ∧ newline ∉ header.version := by
  unfold decode? at h
  split at h
  · next hlen =>
    split at h
    · next hframed =>
      have hend : (takeLine bytes)[34]? = some newline := by
        simp only [framed, Bool.and_eq_true, beq_iff_eq] at hframed
        exact hframed.1.1.1.2
      have hmem : newline ∈ bytes := by
        rw [← takeLine_append_dropLine bytes]
        exact List.mem_append_left _ (List.mem_of_getElem? hend)
      obtain ⟨body, hbody, hline⟩ := isLine_takeLine_of_mem hmem
      -- the newline at its place is the only one
      have hbodyLength : body.length = 34 := by
        rw [hline] at hlen hend
        rw [List.length_append, List.length_singleton] at hlen
        by_contra hne
        have hlt : 34 < body.length := by
          have : 35 ≤ body.length + 1 := hlen
          omega
        rw [List.getElem?_append_left hlt] at hend
        exact hbody (List.mem_of_getElem? hend)
      refine ⟨⟨body, hbody, hline⟩, ?_, ?_⟩
      · rw [hline, List.length_append, hbodyLength]
        rfl
      · split at h
        · cases h
          intro hv
          have hfront : ((takeLine bytes).drop 2).take 5 = (body.drop 2).take 5 := by
            rw [hline, List.drop_append_of_le_length (by omega), List.take_append_of_le_length]
            rw [List.length_drop]
            omega
          dsimp only at hv
          rw [hfront] at hv
          exact hbody (List.mem_of_mem_drop (List.mem_of_mem_take hv))
        · cases h
    · cases h
  · cases h

/-! ## The copy -/

/-- The copy of a header and of whole lines. -/
def Image.copyOf (header : Header) (texts : List Bytes) : Image :=
  ⟨{ header with sinceSort := Header.freshSinceSort },
    (texts.filter fun text => !isDeadLine text).map clearSlot⟩

/-- The copy of a last line without its newline. -/
def copyOfFragment (fragment : Bytes) : Bytes := if isDeadLine fragment then [] else fragment

section Copy

variable {head fragment : Bytes} {header : Header} {texts : List Bytes}

theorem newline_notMem_copyOfFragment (hf : newline ∉ fragment) :
    newline ∉ copyOfFragment fragment := by
  unfold copyOfFragment
  split
  · exact List.not_mem_nil
  · exact hf

theorem filter_lines_fragment (hf : newline ∉ fragment) :
    (lines fragment).filter (fun text => !isDeadLine text) = lines (copyOfFragment fragment) := by
  by_cases hnil : fragment = []
  · rw [hnil]
    rfl
  · rw [lines_of_notMem hf hnil, copyOfFragment, List.filter_singleton]
    by_cases hdead : isDeadLine fragment = true
    · rw [if_pos hdead, hdead]
      rfl
    · rw [if_neg hdead, Bool.eq_false_iff.2 hdead, lines_of_notMem hf hnil]
      rfl

theorem Image.Whole.copyOf (hversion : newline ∉ header.version)
    (hlines : ∀ text ∈ texts, IsLine text) : (Image.copyOf header texts).Whole := by
  refine ⟨hversion, fun text ht => ?_⟩
  obtain ⟨old, hold, rfl⟩ := List.mem_map.1 ht
  exact isLine_clearSlot (hlines old (List.mem_filter.1 hold).1)

/-- A trim leaves no more than there was. -/
theorem length_copyOf_le (hlength : head.length = Header.length) (header : Header)
    (texts : List Bytes) (fragment : Bytes) :
    ((Image.copyOf header texts).bytes ++ copyOfFragment fragment).length ≤
      (head ++ (texts.flatten ++ fragment)).length := by
  have hkept := length_flatten_cleared_le (fun text => !isDeadLine text) texts
  have hfragment : (copyOfFragment fragment).length ≤ fragment.length := by
    unfold copyOfFragment
    split
    · exact Nat.zero_le _
    · exact Nat.le_refl _
  rw [List.length_append, List.length_append, List.length_append, Image.length_bytes, hlength,
    Nat.add_assoc]
  exact Nat.add_le_add_left (Nat.add_le_add hkept hfragment) _

section Lines

variable (hlines : ∀ text ∈ texts, IsLine text) (hf : newline ∉ fragment)

include hlines hf

theorem keptLines_eq (hhead : IsLine head) : keptLines (head ++ (texts.flatten ++ fragment)) =
    (texts.filter fun text => !isDeadLine text) ++ lines (copyOfFragment fragment) := by
  rw [keptLines, dropLine_append hhead, lines_flatten_append hlines, List.filter_append,
    filter_lines_fragment hf]

/-- **What a trim copies.** -/
theorem trimBytes?_eq (hhead : IsLine head) (hdecode : Header.decode? head = some header) :
    trimBytes? (head ++ (texts.flatten ++ fragment)) =
      some ((Image.copyOf header texts).bytes ++ copyOfFragment fragment,
        trimStats (head ++ (texts.flatten ++ fragment))
          ((Image.copyOf header texts).bytes ++ copyOfFragment fragment)) := by
  have hrest : (lines (copyOfFragment fragment)).flatMap clearSlot = copyOfFragment fragment := by
    have hclear : ∀ text ∈ lines (copyOfFragment fragment), clearSlot text = text := fun text ht => by
      rw [clearSlot, hasSlot_of_mem_lines (newline_notMem_copyOfFragment hf) ht]
      rfl
    rw [List.flatMap_def, List.map_congr_left hclear, List.map_id', flatten_lines]
  have hcopy : ({ header with sinceSort := Header.freshSinceSort } : Header).encode ++
        (keptLines (head ++ (texts.flatten ++ fragment))).flatMap clearSlot =
      (Image.copyOf header texts).bytes ++ copyOfFragment fragment := by
    rw [keptLines_eq hlines hf hhead, List.flatMap_append, hrest, List.flatMap_def, ← List.append_assoc]
    rfl
  rw [trimBytes?, takeLine_append hhead, hdecode, ← hcopy]
  rfl

/-- **A copy has the records of the file**, in order. -/
theorem bareTexts_copyOf (hlength : head.length = Header.length)
    (hversion : newline ∉ header.version) (now : Nat) :
    bareTexts (((Image.copyOf header texts).sorted now).bytes ++ copyOfFragment fragment) =
      bareTexts (head ++ (texts.flatten ++ fragment)) := by
  have hwhole := Image.Whole.copyOf hversion hlines
  have hnone : bareAt (Header.length + texts.flatten.length) (lines fragment) = [] :=
    bareAt_of_forall_not (fun text ht => isLiveRecord_of_notMem hf ht) _
  have hsorted : bareAt Header.length ((Image.copyOf header texts).sorted now).texts =
      bareAt Header.length (Image.copyOf header texts).texts :=
    bareAt_fillSlots hwhole.line _ _
  -- a line that is dead is no live record, and a cleared one is live as before
  have hlive : (texts.filter fun text => !isDeadLine text).filter (isLiveRecord ∘ clearSlot) =
      texts.filter isLiveRecord := by
    rw [List.filter_filter]
    refine List.filter_congr fun text ht => ?_
    rw [Function.comp_apply, isLiveRecord_clearSlot (hlines text ht)]
    cases h : isLiveRecord text with
    | false => rfl
    | true =>
      simp only [isLiveRecord, isLiveText, Bool.and_eq_true, beq_iff_eq] at h
      rw [isDeadLine, h.2]
      rfl
  have hclear : (texts.filter isLiveRecord).map (clearSlot ∘ clearSlot) =
      (texts.filter isLiveRecord).map clearSlot :=
    List.map_congr_left fun text ht => clearSlot_clearSlot (hlines text (List.mem_filter.1 ht).1)
  rw [bareTexts_eq, bareTexts_eq, (hwhole.sorted now).bareRecords_fragment
    (newline_notMem_copyOfFragment hf), bareRecords_append hlength hlines, hnone, List.append_nil,
    hsorted, map_text_bareAt, map_text_bareAt, Image.copyOf, List.filter_map, hlive, List.map_map,
    hclear]

/-- **The lines of a sorted copy** are those that are kept, but for their slots. -/
theorem forall₂_reslots_copyOf (hhead : IsLine head) (header : Header) (targets : List Nat) :
    List.Forall₂ Reslots (keptLines (head ++ (texts.flatten ++ fragment)))
      (Index.fillSlots (Image.copyOf header texts).texts targets ++ lines (copyOfFragment fragment)) := by
  have hkept : ∀ text ∈ texts.filter fun text => !isDeadLine text, IsLine text :=
    fun text ht => hlines text (List.mem_filter.1 ht).1
  have hfill : List.Forall₂ (fun a b => IsLine a → Reslots a b) (Image.copyOf header texts).texts
      (Index.fillSlots (Image.copyOf header texts).texts targets) :=
    Index.forall₂_fillSlots (fun text _ => .refl text)
      (fun _ v hslot hline => .withSlot hline hslot v) _ _
  rw [keptLines_eq hlines hf hhead]
  refine List.rel_append ?_ (List.forall₂_same.2 fun text _ => .refl text)
  rw [Image.copyOf, List.forall₂_map_left_iff] at hfill
  refine ((List.forall₂_and_left _ _).2 ⟨hkept, hfill⟩).imp ?_
  rintro before after ⟨hline, hreslots⟩
  exact .of_clearSlot hline (hreslots (isLine_clearSlot hline))

/-- **A copy, once it is sorted**, has what was to be kept. -/
theorem trimmed_copyOf (hhead : IsLine head) (hlength : head.length = Header.length)
    (hversion : newline ∉ header.version) (hdecode : Header.decode? head = some header)
    (hsmall : (Image.copyOf header texts).bytes.length < UInt32.size) (now : Nat) :
    Trimmed now (head ++ (texts.flatten ++ fragment))
      (((Image.copyOf header texts).sorted now).bytes ++ copyOfFragment fragment) := by
  have hwhole := Image.Whole.copyOf hversion hlines
  have hfragment := newline_notMem_copyOfFragment hf
  have hline := Header.isLine_encode (hwhole.sorted now).version
  have hcut : ((Image.copyOf header texts).sorted now).bytes ++ copyOfFragment fragment =
      ((Image.copyOf header texts).sorted now).header.encode ++
        (((Image.copyOf header texts).sorted now).texts.flatten ++ copyOfFragment fragment) :=
    List.append_assoc ..
  refine ⟨⟨header, ?_, ?_⟩, ?_, hwhole.planned_sorted hsmall hfragment now, fun key hone => ?_⟩
  · rwa [takeLine_append hhead]
  · rw [hcut, takeLine_append hline]
    rfl
  · rw [hcut, dropLine_append hline, lines_flatten_append (hwhole.sorted now).line]
    exact forall₂_reslots_copyOf hlines hf hhead header _
  · obtain ⟨hordered, hall⟩ := hwhole.ordered_sorted hfragment hsmall now
    have htexts := bareTexts_copyOf hlines hf hlength hversion now
    rw [length_filter_key, ← htexts, ← length_filter_key] at hone
    refine ⟨?_, hordered.search_or_scanTail hfragment rfl hall key⟩
    rw [hordered.search_contents hfragment rfl hall hone, Contents.ofBytes_eq_bareTexts, htexts,
      ← Contents.ofBytes_eq_bareTexts]

end Lines

end Copy

/-- There is nothing to copy without a header. -/
theorem exists_header_of_trimBytes? {bytes : Bytes} {result : Bytes × TrimStats}
    (h : trimBytes? bytes = some result) : ∃ header, Header.decode? (takeLine bytes) = some header := by
  obtain ⟨header, hdecode, -⟩ := Option.bind_eq_some_iff.1 h
  exact ⟨header, hdecode⟩

/-! ## What a trim comes to -/

/-- **What a trim makes of a file.**  Whatever follows a header, a trim copies it into whole lines and a
fragment, and asks for a sort; sorted, the copy has what was to be kept. -/
theorem exists_trimmed {bytes : Bytes} {header : Header}
    (hdecode : Header.decode? (takeLine bytes) = some header) : ∃ (i : Image) (fragment : Bytes),
      i.Whole ∧ newline ∉ fragment ∧ i.header.sinceSort = Header.freshSinceSort ∧
      trimBytes? bytes = some (i.bytes ++ fragment, trimStats bytes (i.bytes ++ fragment)) ∧
      (bytes.length < UInt32.size → i.bytes.length < UInt32.size ∧
        ∀ now, Trimmed now bytes ((i.sorted now).bytes ++ fragment)) := by
  obtain ⟨hhead, hlength, hversion⟩ := Header.isLine_of_decode? hdecode
  obtain ⟨texts, fragment, hlines, hf, hrest⟩ := exists_lines_fragment (dropLine bytes)
  have hbytes : takeLine bytes ++ (texts.flatten ++ fragment) = bytes := by
    rw [← hrest, takeLine_append_dropLine]
  have hcopy := trimBytes?_eq hlines hf hhead hdecode
  have hle := length_copyOf_le hlength header texts fragment
  have htrimmed := trimmed_copyOf hlines hf hhead hlength hversion hdecode
  rw [hbytes] at hcopy hle htrimmed
  rw [List.length_append] at hle
  refine ⟨_, _, .copyOf hversion hlines, newline_notMem_copyOfFragment hf, rfl, hcopy, fun hsmall => ?_⟩
  have hcopySmall : (Image.copyOf header texts).bytes.length < UInt32.size := by omega
  exact ⟨hcopySmall, htrimmed hcopySmall⟩

end RecordStore
