import Mathlib.Tactic.Common
import RecordStore.Proofs.Bare
import RecordStore.Proofs.Recovery
import RecordStore.Trim

/-!
# Stores made by the library alone

A store that begins with an absent file and is changed by nothing but turns and trims holds complete
lines, in slots that a lookup can go by, and no key twice.

* `Store.Made` — such a store.

Principal results: `Image.Lined.trimBytes?_eq` — what a trim copies; `Store.Made.tracks` — the
invariant.
-/

set_option autoImplicit false

namespace RecordStore

/-! ## Trims -/

/-- A live line without its slot is fresh. -/
theorem freshLine_clearSlot {text : Bytes} (hline : IsLine text) (hwell : defect? text = none)
    (hlive : isLiveText text = true) :
    FreshLine (clearSlot text) (keyOf text) (fieldsOf text) := by
  have hslot := Index.hasSlot_of_defect? hwell hline.endsLine
  have hlt := Index.keyAt_lt_of_hasSlot hslot
  rw [clearSlot_eq_withSlot hslot]
  refine ⟨Index.isLine_withSlot _ hlt hline, Index.defect?_withSlot _ hwell, ?_,
    Index.slot?_withSlot _ hlt, Index.keyOf_withSlot _ hlt, Index.fieldsOf_withSlot _ hlt⟩
  rw [Index.head?_withSlot _ hlt]
  simpa [isLiveText] using hlive

namespace Image

variable {i : Image}

/-- The header that asks for a sort, and every live line without its slot. -/
def trimmed (i : Image) : Image :=
  ⟨{ i.header with sinceSort := Header.freshSinceSort }, (i.texts.filter isLiveText).map clearSlot⟩

/-- A well-formed line is dead or live. -/
theorem isLiveText_of_not_dead {text : Bytes} (hwell : defect? text = none) :
    (!isDeadLine text) = isLiveText text := by
  have hflag := flag_of_defect? hwell
  rcases hflag with h | h <;> rw [isDeadLine, isLiveText, h] <;> decide

/-- **A trim copies the live lines.** -/
theorem Lined.trimBytes?_eq (h : i.Lined) :
    (trimBytes? i.bytes).map Prod.fst = some i.trimmed.bytes := by
  have hhead := Header.isLine_encode h.version
  have hkept : (i.texts.filter fun text => !isDeadLine text) = i.texts.filter isLiveText :=
    List.filter_congr fun text ht => isLiveText_of_not_dead (h.wellFormed text ht)
  have hdecode : Header.decode? i.header.encode = some i.header := by
    have := Header.decode?_encode i.header []
    rwa [List.append_nil] at this
  rw [trimBytes?, bytes, takeLine_append hhead, dropLine_append hhead, lines_flatten h.line, hdecode]
  simp only [Option.bind_eq_bind, Option.bind_some, Option.map_some, Option.pure_def, hkept]
  rw [List.flatMap_def]
  rfl

/-- A copy can be searched by its tail. -/
theorem Lined.trimmed (h : i.Lined) : i.trimmed.Formed := by
  have hversion : newline ∉ i.trimmed.header.version := h.version
  refine formed_of_fresh hversion ?_
  intro text ht
  obtain ⟨old, hold, rfl⟩ := List.mem_map.1 ht
  obtain ⟨hmem, hlive⟩ := List.mem_filter.1 hold
  have hfresh := freshLine_clearSlot (h.line _ hmem) (h.wellFormed _ hmem) hlive
  rw [hfresh.key_eq, hfresh.fields_eq]
  exact hfresh

/-- The keys of the live lines. -/
theorem map_key_versions (i : Image) :
    i.versions.map Version.key = (i.texts.filter isLiveText).map keyOf := by
  have hkeys : i.versions.map Version.key = i.live.map fun line => keyOf line.text := by
    rw [versions, List.map_map]
    rfl
  have htexts : i.texts.filter isLiveText = i.live.map Line.text := by
    rw [← i.map_text_lines, List.filter_map]
    rfl
  rw [hkeys, htexts, List.map_map]
  rfl

/-- A trim keeps the keys. -/
theorem Lined.map_key_trimmed (h : i.Lined) :
    i.trimmed.versions.map Version.key = i.versions.map Version.key := by
  have hall : i.trimmed.texts.filter isLiveText = i.trimmed.texts := by
    refine List.filter_eq_self.2 fun text ht => ?_
    obtain ⟨old, hold, rfl⟩ := List.mem_map.1 ht
    obtain ⟨hmem, hlive⟩ := List.mem_filter.1 hold
    simpa [isLiveText] using (freshLine_clearSlot (h.line _ hmem) (h.wellFormed _ hmem) hlive).live
  rw [map_key_versions, map_key_versions, hall, Image.trimmed, List.map_map]
  exact List.map_congr_left fun text _ => keyOf_clearSlot text

end Image

/-! ## The invariant -/

/-- No call makes a key live twice. -/
theorem Call.Does.nodup {call : Call} {before after : List Version} {answer : Answer}
    (h : call.Does before after answer) (hbefore : (before.map Version.key).Nodup) :
    (after.map Version.key).Nodup := by
  cases call with
  | write request =>
    obtain ⟨-, -, hrewrites⟩ := h
    cases hrewrites with
    | kept => exact hbefore
    | created absent offset =>
      rw [List.map_append, List.nodup_append]
      refine ⟨hbefore, by simp, ?_⟩
      rintro _ hv _ hw rfl
      obtain ⟨v, hv, hkey⟩ := List.mem_map.1 hv
      exact absent v hv (hkey.trans (by simpa using hw))
    | patched named split own =>
      rw [split, List.map_append, List.map_cons, own] at hbefore
      rwa [List.map_append, List.map_cons]
    | @moved front back v f named split own offset =>
      rw [split, List.map_append, List.map_cons, own] at hbefore
      refine List.Perm.nodup ?_ hbefore
      rw [List.map_append, List.map_append]
      exact List.perm_middle.trans (List.perm_append_singleton _ _).symm
  | delete key =>
    obtain ⟨flag, -, hdrops⟩ := h
    cases hdrops with
    | missed => exact hbefore
    | killed split own =>
      rw [split] at hbefore
      exact hbefore.sublist (((List.Sublist.refl _).append (List.sublist_cons_self _ _)).map _)
  | read => exact h.1 ▸ hbefore
  | readAt | records | appendSeq | sinceSort | refresh | lock | unlock | resort => exact h ▸ hbefore

namespace Store

/-- A store that begins with an absent file and is changed by turns and trims alone.  Before every
turn its file is short enough for its slots. -/
inductive Made : Store → Prop where
  | created (mtime : Int) : Made (.ofBytes [] mtime)
  | served {store : Store} (made : Made store) (small : store.file.bytes.length < UInt32.size)
    (turn : Turn) : Made (store.serve turn).1
  | trimmed {store : Store} {copy : Bytes} {stats : TrimStats} (made : Made store)
    (copied : trimBytes? store.file.bytes = some (copy, stats)) (mtime : Int) :
    Made (.ofBytes copy mtime)

/-- **The invariant.** -/
theorem Made.tracks {store : Store} (h : store.Made) :
    ∃ i, store.Tracks i ∧ (i.versions.map Version.key).Nodup := by
  induction h with
  | created mtime => exact ⟨.fresh, .ofNothing mtime, by decide⟩
  | served made small turn ih =>
    obtain ⟨i, htracks, hdistinct⟩ := ih
    obtain ⟨j, hj, -, ⟨call, answer, -, -, hdoes⟩ | ⟨-, hsame⟩⟩ := htracks.serve small turn
    · exact ⟨j, hj, hdoes.nodup hdistinct⟩
    · exact ⟨j, hj, hsame ▸ hdistinct⟩
  | trimmed made copied mtime ih =>
    obtain ⟨i, htracks, hdistinct⟩ := ih
    rcases htracks.shows with hsame | ⟨hempty, -⟩
    · have hlined := htracks.formed.toLined
      have hcopy := hlined.trimBytes?_eq
      rw [← hsame, copied, Option.map_some, Option.some.injEq] at hcopy
      dsimp only at hcopy
      rw [hcopy]
      refine ⟨i.trimmed, .ofBytes hlined.trimmed mtime, ?_⟩
      rw [hlined.map_key_trimmed]
      exact hdistinct
    · have hnone : trimBytes? [] = none := rfl
      rw [hempty, hnone] at copied
      cases copied

end Store

end RecordStore
