import Mathlib.Tactic.Common
import RecordStore.Disk

/-!
# Where paths lead

A text leads where it did as long as the folders on its way stay folders.  A text with something
behind its last name leads to another place in the same folder, and never to the same one.

* `FileTree.Folders` — another tree has the folders of this one.

Principal results: `FileTree.find_of_folders` — the same text in another tree;
`FileTree.place_ne_of_append` — a longer name is another name.
-/

set_option autoImplicit false

namespace RecordStore

/-! ## Names of a text -/

section Pieces

variable {cuts : UInt8 → Bool} {s suffix : Bytes}

theorem pieces_of_not_cuts (h : ∀ b ∈ s, cuts b = false) : pieces cuts s = [s] := by
  induction s with
  | nil => rfl
  | cons b more ih =>
    rw [List.forall_mem_cons] at h
    rw [pieces, ih h.2, h.1]
    rfl

/-- What stands behind the last piece, uncut, belongs to it. -/
theorem exists_pieces_append (h : ∀ b ∈ suffix, cuts b = false) (s : Bytes) :
    ∃ init last, pieces cuts s = init ++ [last] ∧ pieces cuts (s ++ suffix) = init ++ [last ++ suffix] := by
  induction s with
  | nil => exact ⟨[], [], rfl, pieces_of_not_cuts h⟩
  | cons b more ih =>
    obtain ⟨init, last, hpieces, happend⟩ := ih
    rw [List.cons_append, pieces, pieces, hpieces, happend]
    cases init with
    | nil =>
      cases hb : cuts b with
      | true => exact ⟨[[]], last, rfl, rfl⟩
      | false => exact ⟨[], b :: last, rfl, rfl⟩
    | cons first init =>
      cases hb : cuts b with
      | true => exact ⟨[] :: first :: init, last, rfl, rfl⟩
      | false => exact ⟨(b :: first) :: init, last, rfl, rfl⟩

end Pieces

namespace Path

/-- The names of a text that no slash ends, and of the text with more behind its last name. -/
theorem exists_names_append {text suffix : Bytes} (hne : text ≠ [])
    (hopen : (ofText text).closed = false) (hsuffix : ∀ b ∈ suffix, b ≠ slash) :
    ∃ init last, last ≠ [] ∧ (ofText text).names = init ++ [last] ∧
      (ofText (text ++ suffix)).names = init ++ [last ++ suffix] ∧
      (ofText (text ++ suffix)).rooted = (ofText text).rooted := by
  obtain ⟨front, b, rfl⟩ : ∃ front b, text = front ++ [b] :=
    ⟨_, _, (List.dropLast_concat_getLast hne).symm⟩
  have hb : b ≠ slash := by
    rintro rfl
    simp [ofText] at hopen
  have hcut : ∀ {s : Bytes}, (∀ c ∈ s, c ≠ slash) → ∀ c ∈ s, (c == slash) = false :=
    fun h c hc => beq_false_of_ne (h c hc)
  obtain ⟨init, last, hfront, hall⟩ := exists_pieces_append
    (hcut (s := b :: suffix) (List.forall_mem_cons.2 ⟨hb, hsuffix⟩)) front
  obtain ⟨init', last', hfront', htext⟩ := exists_pieces_append
    (hcut (s := [b]) (by simpa using hb)) front
  rw [hfront] at hfront'
  obtain ⟨rfl, hlast⟩ := List.append_inj' hfront' rfl
  obtain rfl : last = last' := by simpa using hlast
  refine ⟨init.filter (· != []), last ++ [b], by simp, ?_, ?_, ?_⟩
  · rw [ofText, htext, List.filter_append]
    simp
  · rw [ofText, List.append_assoc, List.singleton_append, hall, List.filter_append]
    dsimp only
    congr 1
    simp
  · cases front <;> rfl

theorem check_eq_ok {text : Bytes} {path : Path} (h : check text = .ok path) :
    path = ofText text ∧ text ≠ [] := by
  unfold check at h
  split at h
  · cases h
  · next hne =>
    split at h
    · cases h
    · split at h
      · cases h
      · cases h
        exact ⟨rfl, hne⟩

end Path

/-! ## Trees with the same folders -/

namespace FileTree

variable {tree tree' : FileTree} {path : Path} {place place' : Place} {text : Bytes} {index : Nat}

/-- The other tree has the folders of this one. -/
structure Folders (tree tree' : FileTree) : Prop where
  home : tree'.home = tree.home
  folder : ∀ place, tree.node? place = some .folder → tree'.node? place = some .folder

theorem enter_eq_ok_iff : tree.enter place = .ok () ↔ tree.node? place = some .folder := by
  unfold enter
  cases tree.node? place with
  | none => simp
  | some node => cases node <;> simp

theorem step_of_folders (h : tree.Folders tree') {name : Bytes}
    (hstep : tree.step place name = .ok place') : tree'.step place name = .ok place' := by
  unfold step at hstep ⊢
  cases henter : tree.enter place with
  | error fault =>
    rw [henter] at hstep
    cases hstep
  | ok =>
    rw [henter] at hstep
    rw [enter_eq_ok_iff.2 (h.folder place (enter_eq_ok_iff.1 henter))]
    exact hstep

theorem foldlM_of_folders (h : tree.Folders tree') {names : List Bytes}
    (hfold : names.foldlM tree.step place = .ok place') :
    names.foldlM tree'.step place = .ok place' := by
  induction names generalizing place with
  | nil => exact hfold
  | cons name more ih =>
    rw [List.foldlM_cons] at hfold ⊢
    cases hstep : tree.step place name with
    | error fault =>
      rw [hstep] at hfold
      cases hfold
    | ok next =>
      rw [hstep] at hfold
      rw [step_of_folders h hstep]
      exact ih hfold

/-- **A path leads where it did** as long as the folders stay folders. -/
theorem follow_of_folders (h : tree.Folders tree') (hfollow : tree.follow path = .ok place) :
    tree'.follow path = .ok place := by
  unfold follow at hfollow ⊢
  rw [h.home]
  exact foldlM_of_folders h hfollow

theorem find_eq_ok_iff : tree.find text = .ok (place, index) ↔ ∃ path, Path.check text = .ok path ∧
    tree.follow path = .ok place ∧ tree.node? place = some (.file index) ∧ path.closed = false := by
  unfold find
  cases hcheck : Path.check text with
  | error fault => simp [bind, Except.bind]
  | ok path =>
    cases hfollow : tree.follow path with
    | error fault => simp [bind, Except.bind, hfollow]
    | ok place' =>
      simp only [bind, Except.bind, hfollow, Except.ok.injEq, exists_eq_left']
      constructor
      · intro h
        cases hnode : tree.node? place' with
        | none =>
          rw [hnode] at h
          cases h
        | some node =>
          rw [hnode] at h
          cases node with
          | folder => cases h
          | file index' =>
            dsimp only at h
            cases hclosed : path.closed with
            | true =>
              rw [hclosed, if_pos rfl] at h
              cases h
            | false =>
              rw [hclosed, if_neg (by decide)] at h
              cases h
              exact ⟨rfl, hnode, rfl⟩
      · rintro ⟨rfl, hnode, hclosed⟩
        rw [hnode]
        dsimp only
        rw [hclosed]
        rfl

/-- **A text leads to a file in another tree too**, if the file is there and the folders are. -/
theorem find_of_folders (h : tree.Folders tree') (hfind : tree.find text = .ok (place, index))
    {index' : Nat} (hnode : tree'.node? place = some (.file index')) :
    tree'.find text = .ok (place, index') := by
  obtain ⟨path, hcheck, hfollow, -, hclosed⟩ := find_eq_ok_iff.1 hfind
  exact find_eq_ok_iff.2 ⟨path, hcheck, follow_of_folders h hfollow, hnode, hclosed⟩

theorem findOrVacant_ok {found : Option Nat} (h : tree.findOrVacant text = .ok (place, found)) :
    ∃ path, Path.check text = .ok path ∧ path.closed = false ∧ tree.follow path = .ok place ∧
      tree.node? place = found.map .file := by
  unfold findOrVacant at h
  cases hcheck : Path.check text with
  | error fault =>
    rw [hcheck] at h
    cases h
  | ok path =>
    rw [hcheck] at h
    cases hclosed : path.closed with
    | true =>
      simp only [bind, Except.bind, hclosed, if_pos] at h
      cases hparent : tree.follow path.parent with
      | error fault =>
        rw [hparent] at h
        cases h
      | ok parent =>
        rw [hparent] at h
        dsimp only at h
        cases henter : tree.enter parent with
        | error fault =>
          rw [henter] at h
          cases h
        | ok =>
          rw [henter] at h
          cases h
    | false =>
      simp only [bind, Except.bind, hclosed, Bool.false_eq_true, if_false] at h
      cases hfollow : tree.follow path with
      | error fault =>
        rw [hfollow] at h
        cases h
      | ok place' =>
        rw [hfollow] at h
        dsimp only at h
        cases hnode : tree.node? place' with
        | none =>
          rw [hnode] at h
          cases h
          exact ⟨path, rfl, hclosed, hfollow, hnode⟩
        | some node =>
          rw [hnode] at h
          cases node with
          | folder => cases h
          | file index =>
            cases h
            exact ⟨path, rfl, hclosed, hfollow, hnode⟩

/-! ## Places in a changed tree -/

theorem node?_remove_of_ne (h : place' ≠ place) : (tree.remove place).node? place' = tree.node? place' := by
  have hlookup : ∀ entries : List (Place × Node),
      (entries.filter fun entry => entry.1 != place).lookup place' = entries.lookup place' := by
    intro entries
    induction entries with
    | nil => rfl
    | cons entry more ih =>
      obtain ⟨other, node⟩ := entry
      by_cases hother : other = place
      · subst hother
        rw [List.filter_cons, if_neg (by simp), ih, List.lookup_cons, beq_false_of_ne h]
      · rw [List.filter_cons, if_pos (by simpa using hother), List.lookup_cons, List.lookup_cons, ih]
  unfold node? remove
  dsimp only
  rw [hlookup]

/-- Nothing stands where something was removed, unless it is a folder for good. -/
theorem node?_remove_of_not_home (h : ¬ place.isPrefixOf tree.home = true) :
    (tree.remove place).node? place = none := by
  show (if place.isPrefixOf tree.home then some .folder else
    (tree.remove place).entries.lookup place) = none
  rw [if_neg h, List.lookup_eq_none_iff]
  intro entry hentry
  have hne := (List.mem_filter.1 hentry).2
  rw [bne_iff_ne] at hne
  simpa using Ne.symm hne

theorem not_home_of_ne_folder (h : tree.node? place ≠ some .folder) :
    ¬ place.isPrefixOf tree.home = true := by
  intro hprefix
  exact h (by rw [node?, if_pos hprefix])

theorem node?_remove_self (h : tree.node? place ≠ some .folder) :
    (tree.remove place).node? place = none :=
  node?_remove_of_not_home (not_home_of_ne_folder h)

/-- What is there without a place was there with it. -/
theorem node?_of_node?_remove {node : Node} (h : (tree.remove place).node? place' = some node) :
    tree.node? place' = some node := by
  by_cases hplace : place' = place
  · subst hplace
    by_cases hhome : place'.isPrefixOf tree.home = true
    · rw [node?, if_pos (show place'.isPrefixOf (tree.remove place').home = true from hhome)] at h
      rw [node?, if_pos hhome]
      exact h
    · rw [node?_remove_of_not_home hhome] at h
      cases h
  · rwa [node?_remove_of_ne hplace] at h

theorem node?_put_of_ne {node : Node} (h : place' ≠ place) :
    (tree.put place node).node? place' = tree.node? place' := by
  have hremoved : (tree.put place node).node? place' = (tree.remove place).node? place' := by
    show (if place'.isPrefixOf tree.home then some .folder else
      ((place, node) :: (tree.remove place).entries).lookup place') = _
    rw [List.lookup_cons, beq_false_of_ne h]
    rfl
  rw [hremoved, node?_remove_of_ne h]

theorem node?_put_self {node : Node} (h : tree.node? place ≠ some .folder) :
    (tree.put place node).node? place = some node := by
  show (if place.isPrefixOf tree.home then some .folder else
    ((place, node) :: (tree.remove place).entries).lookup place) = some node
  rw [if_neg (not_home_of_ne_folder h)]
  exact List.lookup_cons_self

/-- Removing what is no folder leaves the folders. -/
theorem folders_remove (h : tree.node? place ≠ some .folder) : tree.Folders (tree.remove place) where
  home := rfl
  folder place' hfolder := by
    have hne : place' ≠ place := by
      rintro rfl
      exact h hfolder
    rw [node?_remove_of_ne hne]
    exact hfolder

/-- Removing makes no folder. -/
theorem folders_of_remove (tree : FileTree) (place : Place) : (tree.remove place).Folders tree where
  home := rfl
  folder _ := node?_of_node?_remove

/-- A file in the place of what is no folder leaves the folders. -/
theorem folders_put (h : tree.node? place ≠ some .folder) (node : Node) :
    tree.Folders (tree.put place node) where
  home := rfl
  folder place' hfolder := by
    have hne : place' ≠ place := by
      rintro rfl
      exact h hfolder
    rw [node?_put_of_ne hne]
    exact hfolder

/-- A file makes no folder. -/
theorem folders_of_put_file (h : tree.node? place ≠ some .folder) (index : Nat) :
    (tree.put place (.file index)).Folders tree where
  home := rfl
  folder place' hfolder := by
    have hne : place' ≠ place := by
      rintro rfl
      rw [node?_put_self h] at hfolder
      cases hfolder
    rwa [node?_put_of_ne hne] at hfolder

theorem Folders.trans {tree'' : FileTree} (h : tree.Folders tree') (h' : tree'.Folders tree'') :
    tree.Folders tree'' :=
  ⟨h'.home.trans h.home, fun place hfolder => h'.folder place (h.folder place hfolder)⟩

theorem node?_ne_folder_of_find (h : tree.find text = .ok (place, index)) :
    tree.node? place ≠ some .folder := by
  obtain ⟨path, -, -, hnode, -⟩ := find_eq_ok_iff.1 h
  rw [hnode]
  simp

theorem node?_ne_folder_of_findOrVacant {found : Option Nat}
    (h : tree.findOrVacant text = .ok (place, found)) : tree.node? place ≠ some .folder := by
  obtain ⟨path, -, -, -, hnode⟩ := findOrVacant_ok h
  rw [hnode]
  cases found <;> simp

/-! ## Longer names -/

/-- Where one name leads. -/
theorem step_cases {name : Bytes} (h : tree.step place name = .ok place') :
    place' = place ∧ name = Path.here ∨ place' = place.dropLast ∧ name = Path.above ∨
      place' = place ++ [name] := by
  unfold step at h
  cases henter : tree.enter place with
  | error fault =>
    rw [henter] at h
    cases h
  | ok =>
    rw [henter] at h
    simp only [bind, Except.bind] at h
    split at h
    · next hhere =>
      cases h
      exact Or.inl ⟨rfl, hhere⟩
    · split at h
      · next habove =>
        cases h
        exact Or.inr (Or.inl ⟨rfl, habove⟩)
      · split at h
        · cases h
        · cases h
          exact Or.inr (Or.inr rfl)

/-- The folder on the way, and the last step from there. -/
theorem follow_concat {init : List Bytes} {last : Bytes} (hnames : path.names = init ++ [last])
    (h : tree.follow path = .ok place) : ∃ folder,
      init.foldlM tree.step (if path.rooted then [] else tree.home) = .ok folder ∧
        tree.step folder last = .ok place := by
  unfold follow at h
  rw [hnames, List.foldlM_append] at h
  cases hinit : init.foldlM tree.step (if path.rooted then [] else tree.home) with
  | error fault =>
    rw [hinit] at h
    cases h
  | ok folder =>
    rw [hinit] at h
    refine ⟨folder, rfl, ?_⟩
    cases hstep : tree.step folder last with
    | error fault =>
      have hlast : [last].foldlM tree.step folder = .error fault := by
        rw [List.foldlM_cons, hstep]
        rfl
      rw [show (Except.ok folder >>= fun b => [last].foldlM tree.step b) = _ from hlast] at h
      cases h
    | ok place' =>
      have hlast : [last].foldlM tree.step folder = .ok place' := by
        rw [List.foldlM_cons, hstep]
        rfl
      rw [show (Except.ok folder >>= fun b => [last].foldlM tree.step b) = _ from hlast] at h
      exact h

/-- **A longer name is another name**: a text with something behind the name of a file leads elsewhere. -/
theorem place_ne_of_append {suffix : Bytes} {found : Option Nat}
    (hfind : tree.find text = .ok (place, index))
    (hvacant : tree.findOrVacant (text ++ suffix) = .ok (place', found))
    (hsuffix : ∀ b ∈ suffix, b ≠ Path.slash) (hlong : 2 < suffix.length) : place' ≠ place := by
  obtain ⟨path, hcheck, hfollow, -, hclosed⟩ := find_eq_ok_iff.1 hfind
  obtain ⟨path', hcheck', -, hfollow', -⟩ := findOrVacant_ok hvacant
  obtain ⟨rfl, hne⟩ := Path.check_eq_ok hcheck
  obtain ⟨rfl, -⟩ := Path.check_eq_ok hcheck'
  obtain ⟨init, last, -, hnames, hnames', hrooted⟩ := Path.exists_names_append hne hclosed hsuffix
  obtain ⟨folder, hinit, hstep⟩ := follow_concat hnames hfollow
  obtain ⟨folder', hinit', hstep'⟩ := follow_concat hnames' hfollow'
  rw [hrooted, hinit, Except.ok.injEq] at hinit'
  subst hinit'
  -- the longer name is that of no folder
  have hplace' : place' = folder ++ [last ++ suffix] := by
    rcases step_cases hstep' with ⟨-, hname⟩ | ⟨-, hname⟩ | h
    · have := congrArg List.length hname
      simp [Path.here, ascii] at this
      omega
    · have := congrArg List.length hname
      simp [Path.above, ascii] at this
      omega
    · exact h
  subst hplace'
  rintro rfl
  rcases step_cases hstep with ⟨h, -⟩ | ⟨h, -⟩ | h
  · simp at h
  · have := congrArg List.length h
    simp at this
    omega
  · have hsame := List.append_cancel_left h
    rw [List.cons.injEq, List.append_right_eq_self] at hsame
    rw [hsame.1] at hlong
    cases hlong

end FileTree

end RecordStore
