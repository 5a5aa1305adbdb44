import Mathlib.Tactic.Common
import RecordStore.Proofs.Image

/-!
# What the writes of the store make of an image

The store changes a file in four ways: it exchanges bytes inside one line, appends a line, gives
every line a slot, and sets counters of the header.  Each leaves a sound image behind, keeps the
lines that were there in their places, and does to the versions what its name says.

* `versionsAt` — the versions that some lines show.
* `deadText` — a line after its death.

Principal results: `Formed.exchange`, `Formed.append`, `Lined.sort`, `Formed.withHeader`; `Sound.kill`,
`Sound.patch`, `Sound.append`, `Sound.sort`, `Sound.withHeader` — the same where keys are distinct.
-/

set_option autoImplicit false

namespace RecordStore

/-! ## Maps of versions -/

namespace Contents

variable {front back : List Version} {v : Version}

theorem ofVersions_append_of_ne {key : Bytes} (h : ∀ w ∈ front, w.key ≠ key) :
    ofVersions (front ++ back) key = ofVersions back key := by
  have hnone : front.find? (fun w => w.key == key) = none := by
    rw [List.find?_eq_none]
    intro w hw
    simpa using h w hw
  rw [ofVersions, List.find?_append, hnone, Option.none_or]
  rfl

/-- Of other keys the versions around one are found as before. -/
theorem ofVersions_append_cons_of_ne {key : Bytes} (h : v.key ≠ key) :
    ofVersions (front ++ v :: back) key = ofVersions (front ++ back) key := by
  rw [ofVersions, ofVersions, List.find?_append, List.find?_append,
    List.find?_cons_of_neg (by simpa using h)]

theorem ofVersions_append_cons_self (h : ∀ w ∈ front, w.key ≠ v.key) :
    ofVersions (front ++ v :: back) v.key = some v.fields := by
  rw [ofVersions_append_of_ne h, ofVersions, List.find?_cons_of_pos (by simp)]
  rfl

/-- Dropping the versions of a key deletes it. -/
theorem ofVersions_filter (versions : List Version) (key : Bytes) :
    ofVersions (versions.filter fun v => v.key ≠ key) = (ofVersions versions).delete key := by
  funext k
  by_cases hk : k = key
  · subst hk
    have hnone : (versions.filter fun v => v.key ≠ k).find? (fun v => v.key == k) = none := by
      rw [List.find?_eq_none]
      intro v hv
      simpa using (List.mem_filter.1 hv).2
    rw [delete_self, ofVersions, hnone]
    rfl
  · rw [delete_of_ne hk, ofVersions, ofVersions, List.find?_filter]
    congr 2
    funext v
    by_cases hv : v.key = k
    · simp [hv, hk]
    · simp [hv]

/-- A version added at the end sets its key. -/
theorem ofVersions_concat (h : ∀ w ∈ front, w.key ≠ v.key) :
    ofVersions (front ++ [v]) = (ofVersions front).set v.key v.fields := by
  funext k
  by_cases hk : k = v.key
  · subst hk
    rw [ofVersions_append_cons_self h, set, if_pos rfl]
  · rw [ofVersions_append_cons_of_ne (Ne.symm hk), List.append_nil, set, if_neg hk]

/-- A version with other fields sets its key. -/
theorem ofVersions_exchange {v' : Version} (hkey : v'.key = v.key)
    (h : ∀ w ∈ front, w.key ≠ v.key) :
    ofVersions (front ++ v' :: back) = (ofVersions (front ++ v :: back)).set v.key v'.fields := by
  funext k
  by_cases hk : k = v.key
  · subst hk
    rw [← hkey, ofVersions_append_cons_self (by rw [hkey]; exact h), set, if_pos rfl]
  · rw [ofVersions_append_cons_of_ne (by rw [hkey]; exact Ne.symm hk), set, if_neg hk,
      ofVersions_append_cons_of_ne (Ne.symm hk)]

theorem set_delete (c : Contents) (key : Bytes) (fields : List Field) :
    (c.delete key).set key fields = c.set key fields := by
  funext k
  by_cases hk : k = key
  · simp [set, hk]
  · simp [set, delete, hk]

theorem delete_of_eq_none {c : Contents} {key : Bytes} (h : c key = none) : c.delete key = c := by
  funext k
  by_cases hk : k = key
  · rw [hk, delete_self, h]
  · rw [delete_of_ne hk]

end Contents

namespace Image

/-- The versions that lines show which stand from `start` on. -/
def versionsAt (start : Nat) (texts : List Bytes) : List Version :=
  ((linesAt start texts).filter fun line => isLiveText line.text).map Version.of

theorem versions_eq (i : Image) : i.versions = versionsAt Header.length i.texts := rfl

theorem versionsAt_append (start : Nat) (front back : List Bytes) :
    versionsAt start (front ++ back) =
      versionsAt start front ++ versionsAt (start + front.flatten.length) back := by
  rw [versionsAt, linesAt_append, List.filter_append, List.map_append]
  rfl

theorem versionsAt_cons_of_live {start : Nat} {text : Bytes} (h : isLiveText text = true)
    (more : List Bytes) : versionsAt start (text :: more) =
      ⟨start, keyOf text, fieldsOf text⟩ :: versionsAt (start + text.length) more := by
  rw [versionsAt, linesAt, List.filter_cons, if_pos h]
  rfl

theorem versionsAt_cons_of_dead {start : Nat} {text : Bytes} (h : isLiveText text = false)
    (more : List Bytes) :
    versionsAt start (text :: more) = versionsAt (start + text.length) more := by
  rw [versionsAt, linesAt, List.filter_cons, if_neg (by simp [h])]
  rfl

/-- The versions around a live line. -/
theorem versions_split (header : Header) (front back : List Bytes) {text : Bytes}
    (h : isLiveText text = true) :
    (⟨header, front ++ text :: back⟩ : Image).versions = versionsAt Header.length front
      ++ ⟨Header.length + front.flatten.length, keyOf text, fieldsOf text⟩
        :: versionsAt (Header.length + front.flatten.length + text.length) back := by
  rw [versions_eq, versionsAt_append, versionsAt_cons_of_live h]

/-! ## Exchanging a line -/

/-- A write inside one line. -/
theorem bytes_exchange (header : Header) (front back : List Bytes) {text : Bytes} {patch : Patch}
    (h : patch.Fits text) :
    (patch.shift (Header.length + front.flatten.length)).apply
        (⟨header, front ++ text :: back⟩ : Image).bytes =
      (⟨header, front ++ patch.apply text :: back⟩ : Image).bytes := by
  have hcut : ∀ t : Bytes, (⟨header, front ++ t :: back⟩ : Image).bytes =
      (header.encode ++ front.flatten) ++ (t ++ back.flatten) := by
    intro t
    simp [bytes]
  have hlen : (header.encode ++ front.flatten).length = Header.length + front.flatten.length := by
    rw [List.length_append, Header.length_encode]
  rw [hcut, hcut, ← hlen, Patch.apply_middle h]

/-- A line that takes the place of another one of its length, slot and key. -/
structure Replaces (text text' : Bytes) : Prop where
  line : IsLine text'
  wellFormed : defect? text' = none
  length_eq : text'.length = text.length
  slot_eq : slot? text' = slot? text
  key_eq : keyOf text' = keyOf text

theorem Replaces.frames_eq {text text' : Bytes} (h : Replaces text text') (header : Header)
    (front back : List Bytes) : (⟨header, front ++ text' :: back⟩ : Image).frames =
      (⟨header, front ++ text :: back⟩ : Image).frames := by
  simp only [frames, List.map_append, List.map_cons, h.length_eq, h.key_eq]

/-- A record with another value for one of its fields takes its own place. -/
theorem replaces_fieldSpan? {r : Record} (hline : IsLine r.text) {field : Field}
    (hfit : field.Fits) {place : Span} (hplace : r.fieldSpan? field.name = some place)
    (hlen : place.length = field.value.length) :
    let patch : Patch := ⟨place.offset, field.value⟩
    patch.Fits r.text ∧ Replaces r.text (patch.apply r.text) ∧
      isLiveText (patch.apply r.text) = isLiveText r.text ∧
      fieldsOf (patch.apply r.text) = setField (fieldsOf r.text) field := by
  intro patch
  obtain ⟨hfits, hline', htake, hkey, hfields⟩ := Record.apply_fieldSpan? hline hfit hplace hlen
  have hsame : (patch.apply r.text).length = r.text.length := Patch.length_apply hfits
  have hlt := keyAt_lt_of_defect? r.wellFormed
  refine ⟨hfits, ⟨hline', ?_, hsame, slot?_eq_of_take htake, hkey⟩, ?_, hfields⟩
  · rw [defect?_eq_of_take htake hlt (Nat.lt_of_lt_of_eq hlt hsame.symm)]
    exact r.wellFormed
  · rw [isLiveText, head?_eq_of_take htake, isLiveText]

/-- What holds of all lines holds of them still once one has given way. -/
theorem forall_mem_exchange {p : Bytes → Prop} (front back : List Bytes) {text text' : Bytes}
    (hall : ∀ t ∈ front ++ text :: back, p t) (h : p text') :
    ∀ t ∈ front ++ text' :: back, p t := by
  simp only [List.mem_append, List.mem_cons, or_imp, forall_and, forall_eq] at hall ⊢
  exact ⟨hall.1, h, hall.2.2⟩

/-- The slots of the lines and what they lead to are the same. -/
theorem Replaces.entries_eq {text text' : Bytes} (h : Replaces text text') (front back : List Bytes)
    (hlines : ∀ t ∈ front ++ text :: back, IsLine t) (start : Nat) :
    Index.entries (linesAt start (front ++ text' :: back)) =
      Index.entries (linesAt start (front ++ text :: back)) := by
  have hsame : ∀ ts : List Bytes, List.Forall₂ (fun a b : Bytes => b.length = a.length ∧
      slot? b = slot? a ∧ keyOf b = keyOf a) ts ts := fun ts =>
    List.forall₂_same.2 fun _ _ => ⟨rfl, rfl, rfl⟩
  refine Index.entries_congr hlines (forall_mem_exchange front back hlines h.line) ?_ start
  exact List.rel_append (hsame front)
    (List.Forall₂.cons ⟨h.length_eq, h.slot_eq, h.key_eq⟩ (hsame back))

/-- **A line gives way to another** of its length, slot and key. -/
theorem Formed.exchange {header : Header} {front back : List Bytes} {text text' : Bytes}
    (h : (⟨header, front ++ text :: back⟩ : Image).Formed) (hr : Replaces text text') :
    (⟨header, front ++ text' :: back⟩ : Image).Formed := by
  refine ⟨⟨h.version, forall_mem_exchange front back h.line hr.line,
    forall_mem_exchange front back h.wellFormed hr.wellFormed⟩, ?_⟩
  obtain ⟨placed, tail, htexts, hrouted, htail⟩ := h.routed
  dsimp only at htexts
  have hlines := h.line
  dsimp only at hlines
  rw [htexts] at hlines
  -- a line of the tail is in no sort yet, and neither is the one that it gives way to
  have hexchange : ∀ {mid}, (∀ t ∈ mid ++ text :: back, slot? t = some unsorted) →
      ∀ t ∈ mid ++ text' :: back, slot? t = some unsorted := fun {mid} hall =>
    forall_mem_exchange mid back hall (hr.slot_eq.trans (hall text (by simp)))
  rcases List.append_eq_append_iff.1 htexts with ⟨mid, hplaced, hback⟩ | ⟨mid, hfront, htail'⟩
  · cases mid with
    | nil =>
      -- the line is the first of the tail
      rw [List.append_nil] at hplaced
      rw [List.nil_append] at hback
      subst hplaced hback
      exact ⟨placed, [] ++ text' :: back, rfl, hrouted, hexchange htail⟩
    | cons first mid =>
      -- a sort placed the line
      rw [List.cons_append, List.cons.injEq] at hback
      obtain ⟨rfl, rfl⟩ := hback
      subst hplaced
      refine ⟨front ++ text' :: mid, tail, by simp, ?_, htail⟩
      rw [hr.entries_eq front mid fun t ht => hlines t (List.mem_append_left _ ht)]
      exact hrouted
  · -- the line stands in the tail
    subst hfront htail'
    exact ⟨placed, mid ++ text' :: back, by simp, hrouted, hexchange htail⟩

/-- Soundness survives the exchange of a line that keeps the keys distinct. -/
theorem Sound.exchange {header : Header} {front back : List Bytes} {text text' : Bytes}
    (h : (⟨header, front ++ text :: back⟩ : Image).Sound) (hr : Replaces text text')
    (hdistinct : ((⟨header, front ++ text' :: back⟩ : Image).versions.map Version.key).Nodup) :
    (⟨header, front ++ text' :: back⟩ : Image).Sound := by
  have hformed := h.formed.exchange hr
  refine ⟨hformed.version, hformed.line, hformed.wellFormed, ?_, hformed.routed, hdistinct⟩
  have := h.count
  simp only [List.length_append, List.length_cons] at this ⊢
  exact this

/-! ## Death of a record -/

/-- A line after its death. -/
def deadText (text : Bytes) : Bytes := (⟨0, [deadFlag]⟩ : Patch).apply text

theorem fits_dead {text : Bytes} (h : 0 < text.length) : (⟨0, [deadFlag]⟩ : Patch).Fits text := by
  simp only [Patch.Fits, List.length_singleton]
  omega

theorem isLiveText_deadText {text : Bytes} (h : 0 < text.length) :
    isLiveText (deadText text) = false := by
  have hget := Patch.getElem?_apply (fits_dead h) 0
  rw [if_pos ⟨Nat.le_refl _, by simp⟩] at hget
  rw [isLiveText, List.head?_eq_getElem?, deadText, hget]
  rfl

theorem replaces_deadText {text : Bytes} (hline : IsLine text) (hwell : defect? text = none) :
    Replaces text (deadText text) := by
  have hlt := keyAt_lt_of_defect? hwell
  have hfits := fits_dead (Nat.lt_of_le_of_lt (Nat.zero_le _) hlt)
  have hlen : (deadText text).length = text.length := Patch.length_apply hfits
  have hrest : ∀ {start : Nat}, 1 ≤ start → (deadText text).drop start = text.drop start :=
    fun hs => Patch.drop_apply hfits hs
  have hslot : slot? (deadText text) = slot? text := by rw [slot?, hrest (by decide), slot?]
  have hcolon : (deadText text)[keyAt - 1]? = text[keyAt - 1]? := by
    have := congrArg (·[0]?) (hrest (by decide : 1 ≤ keyAt - 1))
    rwa [List.getElem?_drop, List.getElem?_drop] at this
  have hflag : (deadText text).head? = some deadFlag := by
    have hget := Patch.getElem?_apply hfits 0
    rw [if_pos ⟨Nat.le_refl _, by simp⟩] at hget
    rw [List.head?_eq_getElem?, deadText, hget]
    rfl
  refine ⟨?_, ?_, hlen, hslot, ?_⟩
  · refine Patch.isLine_apply hline (by decide) ?_
    simp only [List.length_singleton, keyAt] at hlt ⊢
    omega
  · unfold defect? at hwell ⊢
    rw [hlen, hslot, hrest (by decide : 1 ≤ modCountAt), hcolon, hflag]
    rw [if_neg (by omega)] at hwell ⊢
    rw [if_neg (by simp)]
    split at hwell
    · cases hwell
    · exact hwell
  · rw [keyOf, hrest (by decide), keyOf]

/-- With distinct keys, dropping one version drops all of its key. -/
theorem filter_ne_of_nodup {front back : List Version} {v : Version}
    (h : ((front ++ v :: back).map Version.key).Nodup) :
    (front ++ v :: back).filter (fun w => w.key ≠ v.key) = front ++ back := by
  rw [List.map_append, List.map_cons, List.nodup_append] at h
  obtain ⟨-, hback, hacross⟩ := h
  rw [List.nodup_cons] at hback
  have hfront : ∀ w ∈ front, w.key ≠ v.key := fun w hw =>
    hacross w.key (List.mem_map_of_mem hw) v.key (List.mem_cons_self ..)
  have hrest : ∀ w ∈ back, w.key ≠ v.key := fun w hw e =>
    hback.1 (e ▸ List.mem_map_of_mem hw)
  rw [List.filter_append, List.filter_cons, if_neg (by simp),
    List.filter_eq_self.2 (by simpa using hfront), List.filter_eq_self.2 (by simpa using hrest)]

/-- The death of a record drops its version. -/
theorem versions_kill (header : Header) (front back : List Bytes) {text : Bytes}
    (hline : IsLine text) (hwell : defect? text = none) :
    (⟨header, front ++ deadText text :: back⟩ : Image).versions = versionsAt Header.length front
      ++ versionsAt (Header.length + front.flatten.length + text.length) back := by
  rw [versions_eq, versionsAt_append, versionsAt_cons_of_dead (isLiveText_deadText hline.length_pos),
    (replaces_deadText hline hwell).length_eq]

/-- **The death of a record** drops its version and leaves the others. -/
theorem Sound.kill {header : Header} {front back : List Bytes} {text : Bytes}
    (h : (⟨header, front ++ text :: back⟩ : Image).Sound) (hlive : isLiveText text = true) :
    (⟨header, front ++ deadText text :: back⟩ : Image).Sound ∧
      (⟨header, front ++ deadText text :: back⟩ : Image).versions =
        (⟨header, front ++ text :: back⟩ : Image).versions.filter fun v => v.key ≠ keyOf text := by
  have hline := h.line text (by simp)
  have hwell := h.wellFormed text (by simp)
  have hr := replaces_deadText hline hwell
  have hbefore := versions_split header front back hlive
  have hafter : (⟨header, front ++ deadText text :: back⟩ : Image).versions =
      (⟨header, front ++ text :: back⟩ : Image).versions.filter fun v => v.key ≠ keyOf text := by
    have hdistinct := h.distinct
    rw [hbefore] at hdistinct ⊢
    rw [filter_ne_of_nodup hdistinct, versions_kill header front back hline hwell]
  refine ⟨h.exchange hr ?_, hafter⟩
  rw [hafter]
  exact (List.filter_sublist.map _).nodup h.distinct

/-- **A patch in place** gives a version other fields and leaves the others. -/
theorem Sound.patch {header : Header} {front back : List Bytes} {text text' : Bytes}
    (h : (⟨header, front ++ text :: back⟩ : Image).Sound) (hlive : isLiveText text = true)
    (hr : Replaces text text') (hlive' : isLiveText text' = true) :
    (⟨header, front ++ text' :: back⟩ : Image).Sound ∧
      (⟨header, front ++ text' :: back⟩ : Image).contents =
        (⟨header, front ++ text :: back⟩ : Image).contents.set (keyOf text) (fieldsOf text') ∧
      ∀ v, v.key ≠ keyOf text → (v ∈ (⟨header, front ++ text' :: back⟩ : Image).versions ↔
        v ∈ (⟨header, front ++ text :: back⟩ : Image).versions) := by
  have hbefore := versions_split header front back hlive
  have hafter := versions_split header front back hlive'
  rw [hr.length_eq, hr.key_eq] at hafter
  have hdistinct := h.distinct
  refine ⟨h.exchange hr ?_, ?_, ?_⟩
  · rw [hafter]
    rw [hbefore] at hdistinct
    simpa using hdistinct
  · rw [contents, contents, hafter, hbefore]
    rw [hbefore, List.map_append, List.map_cons, List.nodup_append] at hdistinct
    refine Contents.ofVersions_exchange rfl ?_
    intro w hw
    exact hdistinct.2.2 w.key (List.mem_map_of_mem hw) (keyOf text) (List.mem_cons_self ..)
  · intro v hv
    rw [hafter, hbefore]
    simp only [List.mem_append, List.mem_cons]
    constructor
    · rintro (hm | rfl | hm)
      · exact Or.inl hm
      · exact absurd rfl hv
      · exact Or.inr (Or.inr hm)
    · rintro (hm | rfl | hm)
      · exact Or.inl hm
      · exact absurd rfl hv
      · exact Or.inr (Or.inr hm)

/-! ## Counters, a new line, a sort -/

/-- A write of one counter. -/
theorem bytes_counter (i : Image) (c : Header.Counter) (v : UInt32) :
    (⟨c.offset, Hex.word v⟩ : Patch).apply i.bytes = (⟨c.set i.header v, i.texts⟩ : Image).bytes :=
  Header.apply_counter i.header c v i.texts.flatten

/-- All counters are free. -/
theorem Formed.withHeader {i : Image} (h : i.Formed) {header : Header}
    (hversion : header.version = i.header.version) : (⟨header, i.texts⟩ : Image).Formed where
  version := by rw [hversion]; exact h.version
  line := h.line
  wellFormed := h.wellFormed
  routed := h.routed

/-- The counters other than the append sequence are free. -/
theorem Sound.withHeader {i : Image} (h : i.Sound) {header : Header}
    (hversion : header.version = i.header.version) (hseq : header.appendSeq = i.header.appendSeq) :
    (⟨header, i.texts⟩ : Image).Sound where
  version := by rw [hversion]; exact h.version
  line := h.line
  wellFormed := h.wellFormed
  count := by rw [hseq]; exact h.count
  routed := h.routed
  distinct := h.distinct

/-- A line at the end adds its version. -/
theorem versions_concat (i : Image) (header : Header) {line key : Bytes} {fields : List Field}
    (hfresh : FreshLine line key fields) : (⟨header, i.texts ++ [line]⟩ : Image).versions =
      i.versions ++ [⟨i.bytes.length, key, fields⟩] := by
  have hlive : isLiveText line = true := by simp [isLiveText, hfresh.live]
  rw [versions_eq, versionsAt_append, versionsAt_cons_of_live hlive, hfresh.key_eq,
    hfresh.fields_eq, length_bytes]
  rfl

/-- Lines that no sort has placed yet are found as they are. -/
theorem formed_of_fresh {header : Header} (hversion : newline ∉ header.version) {texts : List Bytes}
    (hfresh : ∀ text ∈ texts, FreshLine text (keyOf text) (fieldsOf text)) :
    (⟨header, texts⟩ : Image).Formed where
  version := hversion
  line := fun text ht => (hfresh text ht).line
  wellFormed := fun text ht => (hfresh text ht).wellFormed
  routed := ⟨[], texts, rfl, Index.Routed.nil, fun text ht => (hfresh text ht).slot⟩

/-- **A new line** joins those that no sort has placed. -/
theorem Formed.append {i : Image} (h : i.Formed) {header : Header}
    (hversion : header.version = i.header.version) {line key : Bytes} {fields : List Field}
    (hfresh : FreshLine line key fields) : (⟨header, i.texts ++ [line]⟩ : Image).Formed := by
  have hmem : ∀ {p : Bytes → Prop}, (∀ t ∈ i.texts, p t) → p line → ∀ t ∈ i.texts ++ [line], p t := by
    intro p hall hp t ht
    rcases List.mem_append.1 ht with ht | ht
    · exact hall t ht
    · rwa [List.mem_singleton.1 ht]
  refine ⟨⟨?_, hmem h.line hfresh.line, hmem h.wellFormed hfresh.wellFormed⟩, ?_⟩
  · rw [hversion]
    exact h.version
  · obtain ⟨placed, tail, htexts, hrouted, htail⟩ := h.routed
    refine ⟨placed, tail ++ [line], by simp [htexts], hrouted, ?_⟩
    intro t ht
    rcases List.mem_append.1 ht with ht | ht
    · exact htail t ht
    · rw [List.mem_singleton.1 ht]
      exact hfresh.slot

/-- **A new line** with a key that no version has adds its version. -/
theorem Sound.append {i : Image} (h : i.Sound) (hsmall : i.bytes.length < UInt32.size)
    (header : Header) (hversion : header.version = i.header.version)
    (hseq : header.appendSeq = i.header.appendSeq + 1) {line key : Bytes} {fields : List Field}
    (hfresh : FreshLine line key fields) (hkey : ∀ v ∈ i.versions, v.key ≠ key) :
    (⟨header, i.texts ++ [line]⟩ : Image).Sound := by
  have hformed := h.formed.append hversion hfresh
  refine ⟨hformed.version, hformed.line, hformed.wellFormed, ?_, hformed.routed, ?_⟩
  · have hcount := h.count
    have hlt := h.formed.length_texts_lt hsmall
    have hone : (1 : UInt32).toNat = 1 := rfl
    simp only [hseq, List.length_append, List.length_singleton]
    rw [UInt32.toNat_add, hone, hcount, Nat.mod_eq_of_lt hlt]
  · rw [versions_concat i header hfresh, List.map_append, List.nodup_append]
    refine ⟨h.distinct, by simp, ?_⟩
    intro a ha b hb
    obtain ⟨v, hv, rfl⟩ := List.mem_map.1 ha
    obtain rfl : b = key := by simpa using hb
    exact hkey v hv

/-- Another slot changes nothing that a version shows. -/
theorem forall₂_shows_fillSlots (texts : List Bytes) (targets : List Nat) :
    List.Forall₂ (fun a b => b.length = a.length ∧ isLiveText b = isLiveText a ∧
      keyOf b = keyOf a ∧ fieldsOf b = fieldsOf a) texts (Index.fillSlots texts targets) := by
  refine Index.forall₂_fillSlots (fun _ => ⟨rfl, rfl, rfl, rfl⟩) ?_ texts targets
  intro text v hs
  have hlt := Index.keyAt_lt_of_hasSlot hs
  refine ⟨Index.length_withSlot v hlt, ?_, Index.keyOf_withSlot v hlt,
    Index.fieldsOf_withSlot v hlt⟩
  rw [isLiveText, Index.head?_withSlot v hlt, isLiveText]

theorem versionsAt_fillSlots (start : Nat) (texts : List Bytes) (targets : List Nat) :
    versionsAt start (Index.fillSlots texts targets) = versionsAt start texts := by
  have hall := forall₂_shows_fillSlots texts targets
  generalize Index.fillSlots texts targets = texts' at hall
  induction hall generalizing start with
  | nil => rfl
  | @cons text text' more more' hhead _ ih =>
    obtain ⟨hlen, hlive, hkey, hfields⟩ := hhead
    cases ht : isLiveText text with
    | true =>
      rw [versionsAt_cons_of_live ht, versionsAt_cons_of_live (hlive.trans ht), ih, hlen, hkey,
        hfields]
    | false =>
      rw [versionsAt_cons_of_dead ht, versionsAt_cons_of_dead (hlive.trans ht), ih, hlen]

theorem frames_fillSlots (header : Header) (i : Image) (targets : List Nat) :
    (⟨header, Index.fillSlots i.texts targets⟩ : Image).frames = i.frames := by
  have hall := forall₂_shows_fillSlots i.texts targets
  simp only [frames]
  generalize Index.fillSlots i.texts targets = texts' at hall
  generalize i.texts = texts at hall
  induction hall with
  | nil => rfl
  | cons hhead _ ih =>
    obtain ⟨hlen, -, hkey, -⟩ := hhead
    rw [List.map_cons, List.map_cons, ih, hlen, hkey]

/-- The slots that a sort of the image gives to its lines. -/
def sortTexts (i : Image) : List Bytes :=
  Index.fillSlots i.texts ((Index.byKey i.lines).map Line.offset)

theorem versions_sort (i : Image) (header : Header) :
    (⟨header, i.sortTexts⟩ : Image).versions = i.versions :=
  versionsAt_fillSlots _ _ _

/-- Lines with other slots are as complete and well-formed as before. -/
theorem Lined.fillSlots {i : Image} (h : i.Lined) {header : Header}
    (hversion : header.version = i.header.version) (targets : List Nat) :
    (⟨header, Index.fillSlots i.texts targets⟩ : Image).Lined where
  version := by rw [hversion]; exact h.version
  line := Index.isLine_fillSlots h.line _
  wellFormed := by
    intro text ht
    have hall : List.Forall₂ (fun a b => defect? a = none → defect? b = none) i.texts
        (Index.fillSlots i.texts targets) :=
      Index.forall₂_fillSlots (fun _ hd => hd) (fun _ v _ hd => Index.defect?_withSlot v hd) _ _
    obtain ⟨old, hold, himp⟩ := Index.exists_mem_of_forall₂ hall ht
    exact himp (h.wellFormed old hold)

/-- **A sort** places every line, whatever slots the lines had. -/
theorem Lined.sort {i : Image} (h : i.Lined) (hsmall : ∀ line ∈ i.lines, line.offset < UInt32.size)
    {header : Header} (hversion : header.version = i.header.version) :
    (⟨header, i.sortTexts⟩ : Image).Formed :=
  ⟨h.fillSlots hversion _, i.sortTexts, [], by simp,
    Index.routed_fillSlots_of_offsets h.line hsmall, by simp⟩

/-- The lines of a small file start at small offsets. -/
theorem offset_lt_of_small {i : Image} (hsmall : i.bytes.length < UInt32.size) {line : Line}
    (hl : line ∈ i.lines) : line.offset < UInt32.size := by
  have hbounds := (bounds_of_mem hl).2
  omega

/-- **A sort** leaves every version as it was. -/
theorem Sound.sort {i : Image} (h : i.Sound) (hsmall : i.bytes.length < UInt32.size)
    {header : Header} (hversion : header.version = i.header.version)
    (hseq : header.appendSeq = i.header.appendSeq) :
    (⟨header, i.sortTexts⟩ : Image).Sound ∧
      (⟨header, i.sortTexts⟩ : Image).versions = i.versions := by
  have hformed : (⟨header, i.sortTexts⟩ : Image).Formed :=
    h.formed.toLined.sort (fun _ => offset_lt_of_small hsmall) hversion
  refine ⟨⟨hformed.version, hformed.line, hformed.wellFormed, ?_, hformed.routed, ?_⟩,
    i.versions_sort header⟩
  · have hlen := congrArg List.length (frames_fillSlots header i
      ((Index.byKey i.lines).map Line.offset))
    simp only [frames, List.length_map] at hlen
    rw [hseq]
    exact h.count.trans hlen.symm
  · rw [versions_sort]
    exact h.distinct

end Image

end RecordStore
