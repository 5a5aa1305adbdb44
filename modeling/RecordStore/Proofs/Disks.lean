import Mathlib.Tactic.Common
import RecordStore.Proofs.Paths
import RecordStore.Proofs.Trims

/-!
# Trims on a disk

A trim writes its copy beside the store, puts it in the store's place and sorts it there.  Nobody
else knows the copy, so that nothing can hinder the sort: what fails, fails before the store is
touched.

* `Disk.CopyFits` — the copy can be created.

* `Disk.Trims` — what a trim comes to.

Principal results: `Disk.resortAt_alone` — a file that nobody has open is sorted; `Disk.trim_trims` —
a trim fails early or not at all; `Disk.trim_keeps_live_data` — what is left of a store.
-/

set_option autoImplicit false

namespace RecordStore

namespace Disk

variable {disk : Disk} {text : Bytes} {place : Place} {index : Nat} {store : Store}

/-! ## Where the copy is written -/

/-- The copy that a trim writes can be created. -/
def CopyFits (disk : Disk) (text : Bytes) : Prop :=
  ∃ found, disk.tree.findOrVacant (disk.copyPath text) = .ok found

/-- What a trim puts behind the name of a store. -/
def copySuffix (disk : Disk) : Bytes := ascii (".tmp" ++ toString disk.process).toList

theorem copySuffix_eq (disk : Disk) :
    disk.copySuffix = ascii ['.', 't', 'm', 'p'] ++ ascii (Nat.toDigits 10 disk.process) := by
  rw [copySuffix, String.toList_append, ascii, List.map_append, Nat.toString_eq_repr, Nat.toList_repr]
  rfl

theorem two_lt_length_copySuffix (disk : Disk) : 2 < disk.copySuffix.length := by
  rw [copySuffix_eq, List.length_append]
  exact Nat.lt_of_lt_of_le (by decide) (Nat.le_add_right _ _)

theorem slash_notMem_copySuffix (disk : Disk) : ∀ b ∈ disk.copySuffix, b ≠ Path.slash := by
  intro b hb
  rw [copySuffix_eq, List.mem_append] at hb
  rcases hb with hb | hb
  · rintro rfl
    exact absurd hb (by decide)
  · obtain ⟨c, hc, rfl⟩ := List.mem_map.1 hb
    have hdigit := Nat.isDigit_of_mem_toDigits (by decide) (by decide) hc
    have hbounds : 48 ≤ c.val.toNat ∧ c.val.toNat ≤ 57 := by
      simpa [Char.isDigit, UInt32.le_iff_toNat_le] using hdigit
    intro hslash
    have hnat : c.val.toNat % 256 = 47 := congrArg UInt8.toNat hslash
    omega

theorem fileAt?_eq_some_iff : disk.fileAt? text = some store ↔
    ∃ place index, disk.tree.find text = .ok (place, index) ∧ disk.files[index]? = some store := by
  unfold fileAt?
  cases hfind : disk.tree.find text with
  | error fault => simp
  | ok found =>
    obtain ⟨place, index⟩ := found
    constructor
    · intro hfile
      exact ⟨place, index, rfl, hfile⟩
    · rintro ⟨place', index', hfound, hfile⟩
      cases hfound
      exact hfile

/-! ## The copy in the store's place -/

section Sorted

variable {i : Image} {fragment : Bytes} (hi : i.Whole) (hf : newline ∉ fragment)

include hi hf

/-- **A file that nobody has open is sorted** by a client that finds it asking for a sort. -/
theorem resortAt_alone {config : Config} {mtime : Int}
    (hfind : disk.tree.find config.path = .ok (place, index)) (hcreate : config.create = false)
    (hfile : disk.files[index]? = some (.ofBytes (i.bytes ++ fragment) mtime))
    (hasks : config.resortLimit < i.header.sinceSort) :
    disk.resortAt config = ({ disk with
      files := disk.files.set index
        (.ofBytes (((i.sorted disk.now).sorted disk.now).bytes ++ fragment) disk.now)
      nextClient := disk.nextClient + 1 }, .answered .done) := by
  obtain ⟨opened, sorted, hopen, hsort, hclose⟩ :=
    @Store.resorted_alone i fragment disk.now disk.nextClient config hi hf _ mtime (Or.inl rfl) hasks
  have hlt : index < disk.files.length := (List.getElem?_eq_some_iff.1 hfile).1
  have hset : ∀ store : Store, (disk.files.set index store)[index]? = some store := fun store =>
    List.getElem?_set_self hlt
  have hfor : disk.fileFor config = .ok (disk, index) := by
    rw [fileFor, hcreate, hfind]
    rfl
  have hopens : disk.openStore config =
      ({ disk with files := disk.files.set index opened, nextClient := disk.nextClient + 1 },
        .opened, ⟨index, disk.nextClient⟩) := by
    rw [openStore, hfor]
    simp only [openIndex, hfile, hopen, setFile]
  rw [resortAt, hopens]
  simp only [call, close, stepFile, hset, hsort, setFile, hclose, List.set_set]

/-- **The copy in the place of a store**, sorted. -/
theorem replaceBy_eq (hfind : disk.tree.find text = .ok (place, index))
    (hasks : Config.defaultResortLimit < i.header.sinceSort) (stats : TrimStats) :
    disk.replaceBy text place (i.bytes ++ fragment) stats = ({ disk with
      tree := disk.tree.put place (.file disk.files.length)
      files := disk.files ++
        [.ofBytes (((i.sorted disk.now).sorted disk.now).bytes ++ fragment) disk.now]
      nextClient := disk.nextClient + 1 }, .trimmed stats) := by
  have hfolder := FileTree.node?_ne_folder_of_find hfind
  generalize hadded : (disk.addFile place (.ofBytes (i.bytes ++ fragment) disk.now)).1 = added
  have htree : added.tree = disk.tree.put place (.file disk.files.length) := by rw [← hadded]; rfl
  have hfiles : added.files = disk.files ++ [.ofBytes (i.bytes ++ fragment) disk.now] := by
    rw [← hadded]
    rfl
  have hfound : added.tree.find text = .ok (place, disk.files.length) := by
    rw [htree]
    exact FileTree.find_of_folders (FileTree.folders_put hfolder _) hfind
      (FileTree.node?_put_self hfolder)
  have hsorted := @resortAt_alone added place disk.files.length i fragment hi hf
    { Config.ofPath text with create := false } disk.now hfound rfl (by rw [hfiles]; simp) hasks
  rw [replaceBy]
  dsimp only
  rw [hadded, hsorted]
  dsimp only
  rw [hfiles, htree, List.set_append_right _ _ (Nat.le_refl _), Nat.sub_self, List.set_cons_zero,
    ← hadded]
  rfl

end Sorted

/-! ## What a trim does -/

/-- The disk with a new file in the place of an old one, and without the copy's own name. -/
def replaced (disk : Disk) (copyPlace place : Place) (bytes : Bytes) : Disk := { disk with
  tree := (disk.tree.remove copyPlace).put place (.file disk.files.length)
  files := disk.files ++ [.ofBytes bytes disk.now]
  nextClient := disk.nextClient + 1 }

/-- What a trim of the file at a text comes to. -/
inductive Trims (disk : Disk) (text : Bytes) : Disk × TrimOutcome → Prop where
  /-- Nothing was written. -/
  | refused (error : Error) : Trims disk text (disk, .failed error)
  /-- There was no header to copy. -/
  | abandoned {place copyPlace : Place} {index : Nat} {found : Option Nat}
      (finds : disk.tree.find text = .ok (place, index))
      (fits : disk.tree.findOrVacant (disk.copyPath text) = .ok (copyPlace, found)) (error : Error) :
      Trims disk text ({ disk with tree := disk.tree.remove copyPlace }, .failed error)
  | trimmed (copyPlace place : Place) (bytes : Bytes) (stats : TrimStats) :
      Trims disk text (disk.replaced copyPlace place bytes, .trimmed stats)

section Replaced

variable {copyPlace : Place} {found : Option Nat} (hfind : disk.tree.find text = .ok (place, index))
  (hfits : disk.tree.findOrVacant (disk.copyPath text) = .ok (copyPlace, found))

include hfind hfits

/-- The copy is another file than the store. -/
theorem copyPlace_ne : copyPlace ≠ place :=
  FileTree.place_ne_of_append hfind hfits disk.slash_notMem_copySuffix disk.two_lt_length_copySuffix

/-- Without the copy, the store is where it was. -/
theorem find_remove : (disk.tree.remove copyPlace).find text = .ok (place, index) := by
  obtain ⟨path, -, -, hnode, -⟩ := FileTree.find_eq_ok_iff.1 hfind
  refine FileTree.find_of_folders
    (FileTree.folders_remove (FileTree.node?_ne_folder_of_findOrVacant hfits)) hfind ?_
  rw [FileTree.node?_remove_of_ne (copyPlace_ne hfind hfits).symm]
  exact hnode

/-- The store is the new file then. -/
theorem fileAt?_replaced (bytes : Bytes) :
    (disk.replaced copyPlace place bytes).fileAt? text = some (.ofBytes bytes disk.now) := by
  have hremoved := find_remove hfind hfits
  have hfolder := FileTree.node?_ne_folder_of_find hremoved
  have hput : (disk.replaced copyPlace place bytes).tree.find text = .ok (place, disk.files.length) :=
    FileTree.find_of_folders (FileTree.folders_put hfolder _) hremoved (FileTree.node?_put_self hfolder)
  refine fileAt?_eq_some_iff.2 ⟨place, disk.files.length, hput, ?_⟩
  simp [replaced]

/-- No copy stays beside it. -/
theorem fileAt?_copyPath_replaced (bytes : Bytes) :
    (disk.replaced copyPlace place bytes).fileAt? (disk.copyPath text) = none := by
  rw [Option.eq_none_iff_forall_ne_some]
  intro store hstore
  obtain ⟨place', index', hcopy, -⟩ := fileAt?_eq_some_iff.1 hstore
  obtain ⟨path, hcheck, hfollow, hnode, -⟩ := FileTree.find_eq_ok_iff.1 hcopy
  -- the name of the copy leads where it led, and nothing is there any more
  have hfolder := FileTree.node?_ne_folder_of_find (find_remove hfind hfits)
  have hback := FileTree.follow_of_folders ((FileTree.folders_of_put_file hfolder _).trans
    (FileTree.folders_of_remove disk.tree copyPlace)) hfollow
  obtain ⟨path', hcheck', -, hfollow', -⟩ := FileTree.findOrVacant_ok hfits
  rw [hcheck, Except.ok.injEq] at hcheck'
  subst hcheck'
  rw [hback, Except.ok.injEq] at hfollow'
  subst hfollow'
  have hgone : (disk.replaced place' place bytes).tree.node? place' = none :=
    (FileTree.node?_put_of_ne (copyPlace_ne hfind hfits)).trans
      (FileTree.node?_remove_self (FileTree.node?_ne_folder_of_findOrVacant hfits))
  rw [hgone] at hnode
  cases hnode

end Replaced

theorem trim_eq_trimFile (hfind : disk.tree.find text = .ok (place, index))
    (hfile : disk.files[index]? = some store) : disk.trim text = disk.trimFile text place store := by
  rw [trim, hfind]
  dsimp only
  rw [hfile]

section Unused

variable (hfind : disk.tree.find text = .ok (place, index)) (hfile : disk.files[index]? = some store)
  (hunused : disk.isInUse store = false)

include hfind hfile hunused

/-- A trim fails where its copy cannot be created. -/
theorem trim_of_unfit {fault : SystemFault}
    (hunfit : disk.tree.findOrVacant (disk.copyPath text) = .error fault) :
    disk.trim text = (disk, .failed (.io fault)) := by
  rw [trim_eq_trimFile hfind hfile, trimFile, hunused, if_neg (by decide), hunfit]

variable {copyPlace : Place} {found : Option Nat}
  (hfits : disk.tree.findOrVacant (disk.copyPath text) = .ok (copyPlace, found))

include hfits

/-- A trim fails where there is no header to copy. -/
theorem trim_of_headless (hnone : trimBytes? store.file.bytes = none) : disk.trim text =
    ({ disk with tree := disk.tree.remove copyPlace }, .failed .invalidHeader) := by
  rw [trim_eq_trimFile hfind hfile, trimFile, hunused, if_neg (by decide), hfits]
  dsimp only
  rw [hnone]

/-- **A trim of a file that nobody uses** puts the sorted copy in its place. -/
theorem trim_of_copied {i : Image} {fragment : Bytes} (hi : i.Whole) (hf : newline ∉ fragment)
    (hfresh : i.header.sinceSort = Header.freshSinceSort) {stats : TrimStats}
    (hcopy : trimBytes? store.file.bytes = some (i.bytes ++ fragment, stats)) :
    disk.trim text = (disk.replaced copyPlace place
      (((i.sorted disk.now).sorted disk.now).bytes ++ fragment), .trimmed stats) := by
  have hasks : Config.defaultResortLimit < i.header.sinceSort := by
    rw [hfresh]
    decide
  have hremoved : ({ disk with tree := disk.tree.remove copyPlace } : Disk).tree.find text =
      .ok (place, index) := find_remove hfind hfits
  have hreplaced := replaceBy_eq hi hf hremoved hasks stats
  rw [trim_eq_trimFile hfind hfile, trimFile, hunused, if_neg (by decide), hfits]
  dsimp only
  rw [hcopy]
  exact hreplaced

end Unused

/-- **A trim fails before it touches the store, or not at all.** -/
theorem trim_trims (disk : Disk) (text : Bytes) : disk.Trims text (disk.trim text) := by
  cases hfind : disk.tree.find text with
  | error fault =>
    rw [trim, hfind]
    exact .refused _
  | ok found =>
    obtain ⟨place, index⟩ := found
    cases hfile : disk.files[index]? with
    | none =>
      rw [trim, hfind]
      dsimp only
      rw [hfile]
      exact .refused _
    | some store =>
      cases hused : disk.isInUse store with
      | true =>
        rw [trim_eq_trimFile hfind hfile, trimFile, if_pos hused]
        exact .refused _
      | false =>
        cases hfits : disk.tree.findOrVacant (disk.copyPath text) with
        | error fault =>
          rw [trim_of_unfit hfind hfile hused hfits]
          exact .refused _
        | ok found =>
          obtain ⟨copyPlace, found⟩ := found
          cases hcopy : trimBytes? store.file.bytes with
          | none =>
            rw [trim_of_headless hfind hfile hused hfits hcopy]
            exact .abandoned hfind hfits _
          | some result =>
            obtain ⟨header, hdecode⟩ := exists_header_of_trimBytes? hcopy
            obtain ⟨i, fragment, hi, hf, hfresh, hcopied, -⟩ := exists_trimmed hdecode
            rw [trim_of_copied hfind hfile hused hfits hi hf hfresh hcopied]
            exact .trimmed _ _ _ _

/-- A disk with fewer names shows no other file. -/
theorem fileAt?_of_tree {tree : FileTree} {other : Bytes}
    (hfolders : tree.Folders disk.tree)
    (hnodes : ∀ place node, tree.node? place = some node → disk.tree.node? place = some node)
    (h : ({ disk with tree } : Disk).fileAt? other = some store) : disk.fileAt? other = some store := by
  obtain ⟨place, index, hfind, hfile⟩ := fileAt?_eq_some_iff.1 h
  obtain ⟨path, -, -, hnode, -⟩ := FileTree.find_eq_ok_iff.1 hfind
  exact fileAt?_eq_some_iff.2
    ⟨place, index, FileTree.find_of_folders hfolders hfind (hnodes _ _ hnode), hfile⟩

/-- **What a trim leaves.**  If nobody has a store open that begins with a header and has less than
2³² bytes, and the copy can be created, then a trim succeeds: what is not dead is kept, and no copy
stays behind.  A trim that fails leaves the store as it is, and no new name. -/
theorem trim_keeps_live_data (disk : Disk) (text : Bytes) :
    (∀ store header, disk.fileAt? text = some store → store.file.bytes.length < UInt32.size →
      disk.isInUse store = false → Header.decode? (takeLine store.file.bytes) = some header →
      disk.CopyFits text → ∃ disk' after,
        disk.trim text = (disk', .trimmed (trimStats store.file.bytes after)) ∧
          disk'.bytesAt? text = some after ∧ Trimmed disk.now store.file.bytes after ∧
          disk'.fileAt? (disk.copyPath text) = none) ∧
    (∀ disk' error, disk.trim text = (disk', .failed error) →
      disk'.fileAt? text = disk.fileAt? text ∧
        ∀ other store, disk'.fileAt? other = some store → disk.fileAt? other = some store) ∧
    (disk.trim text).2 ≠ .waiting := by
  refine ⟨?_, ?_, ?_⟩
  · rintro store header hstore hsmall hunused hdecode ⟨⟨copyPlace, found⟩, hfits⟩
    obtain ⟨place, index, hfind, hfile⟩ := fileAt?_eq_some_iff.1 hstore
    obtain ⟨i, fragment, hi, hf, hfresh, hcopy, htrimmed⟩ := exists_trimmed hdecode
    obtain ⟨hcopySmall, htrimmed⟩ := htrimmed hsmall
    have htrim := trim_of_copied hfind hfile hunused hfits hi hf hfresh hcopy
    have hstats : trimStats store.file.bytes (i.bytes ++ fragment) =
        trimStats store.file.bytes ((i.sorted disk.now).bytes ++ fragment) := by
      rw [trimStats, trimStats, List.length_append, List.length_append, i.length_sorted]
    rw [hi.sorted_sorted hcopySmall, hstats] at htrim
    refine ⟨_, _, htrim, ?_, htrimmed disk.now, fileAt?_copyPath_replaced hfind hfits _⟩
    rw [bytesAt?, fileAt?_replaced hfind hfits]
    rfl
  · intro disk' error hfailed
    have htrims := disk.trim_trims text
    rw [hfailed] at htrims
    cases htrims with
    | refused => exact ⟨rfl, fun _ _ hother => hother⟩
    | abandoned finds fits =>
      refine ⟨?_, fun other store hother => fileAt?_of_tree (FileTree.folders_of_remove _ _)
        (fun _ _ => FileTree.node?_of_node?_remove) hother⟩
      rw [fileAt?, fileAt?, finds]
      dsimp only
      rw [find_remove finds fits]
  · have htrims := disk.trim_trims text
    generalize disk.trim text = result at htrims
    cases htrims <;> simp

/-- A disk with one file, in the root. -/
def holding (name bytes : Bytes) : Disk := ((empty 1000 7 []).addFile [name] (.ofBytes bytes 0)).1

/-- A record, a dead one, a foreign line and the beginning of a line. -/
def mixedLines : Bytes :=
  Header.encode { Header.fresh with appendSeq := 2, modified := 100, sinceSort := 2 } ++
    encodeRecord (ascii ['k']) [⟨ascii ['f'], ascii ['1']⟩] ++
    deadFlag :: (encodeRecord (ascii ['d']) []).tail ++
    ascii ['n', 'o', 't', 'e', '\n'] ++ ascii ['+', '0', '0', '0']

/-- The copy of a store in the root, under the number of the one process. -/
theorem copyPath_holding (name bytes : Bytes) : (holding name bytes).copyPath name =
    name ++ (ascii ['.', 't', 'm', 'p'] ++ ascii ['7']) := by
  have hdigits : Nat.toDigits 10 (holding name bytes).process = ['7'] :=
    (by decide : Nat.toDigits 10 7 = ['7'])
  rw [← hdigits, ← copySuffix_eq]
  rfl

/-- The record is kept and found, and one line is dropped.  Where there is no header, nothing is
changed. -/
theorem trim_keeps_live_data_of_mixed_lines :
    (∃ disk' after, (holding (ascii ['s']) mixedLines).trim (ascii ['s']) =
          (disk', .trimmed (trimStats mixedLines after)) ∧
        disk'.bytesAt? (ascii ['s']) = some after ∧
        (Index.search after Header.length (ascii ['k'])).map (fun span => fieldsOf (span.read after)) =
          some [⟨ascii ['f'], ascii ['1']⟩] ∧
        (trimStats mixedLines after).kept = 1 ∧ (trimStats mixedLines after).dropped = 1) ∧
    ∃ disk', (holding (ascii ['s']) []).trim (ascii ['s']) = (disk', .failed .invalidHeader) ∧
      disk'.fileAt? (ascii ['s']) = some (.ofBytes [] 0) := by
  have hfits : ∀ bytes, (holding (ascii ['s']) bytes).tree.findOrVacant
      ((holding (ascii ['s']) bytes).copyPath (ascii ['s'])) =
        .ok ([ascii ['s', '.', 't', 'm', 'p', '7']], none) := by
    intro bytes
    rw [copyPath_holding]
    rfl
  constructor
  · obtain ⟨disk', after, htrim, hbytes, htrimmed, -⟩ :=
      (trim_keeps_live_data (holding (ascii ['s']) mixedLines) (ascii ['s'])).1 (.ofBytes mixedLines 0)
        { Header.fresh with appendSeq := 2, modified := 100, sinceSort := 2 } (by decide +kernel)
        (by decide +kernel) (by decide +kernel) (by decide +kernel) ⟨_, hfits mixedLines⟩
    have hkept : (trimStats mixedLines []).kept = 1 ∧ (trimStats mixedLines []).dropped = 1 := by
      decide +kernel
    refine ⟨disk', after, htrim, hbytes, ?_, hkept⟩
    rw [(htrimmed.lookup (ascii ['k']) (by decide +kernel)).1]
    decide +kernel
  · have htrim := trim_of_headless (show (holding (ascii ['s']) []).tree.find (ascii ['s']) =
      .ok ([ascii ['s']], 0) by decide +kernel) rfl (by decide +kernel) (hfits []) rfl
    obtain ⟨hfile, -⟩ :=
      (trim_keeps_live_data (holding (ascii ['s']) []) (ascii ['s'])).2.1 _ _ htrim
    exact ⟨_, htrim, hfile.trans (by decide +kernel)⟩

/-- The longest name that a file can have. -/
def longestName : Bytes := List.replicate Path.maxNameLength 'a'.toUInt8

/-- **There is no room for a longer name** than the longest, so that a store with that name cannot be
trimmed. -/
theorem trim_fails_on_longest_name :
    (holding longestName Header.fresh.encode).fileAt? longestName =
        some (.ofBytes Header.fresh.encode 0) ∧
      Header.fresh.encode.length < UInt32.size ∧
      (holding longestName Header.fresh.encode).isInUse (.ofBytes Header.fresh.encode 0) = false ∧
      Header.decode? (takeLine Header.fresh.encode) = some Header.fresh ∧
      (holding longestName Header.fresh.encode).trim longestName =
        (holding longestName Header.fresh.encode, .failed (.io .nameTooLong)) := by
  have hfind : (holding longestName Header.fresh.encode).tree.find longestName =
      .ok ([longestName], 0) := by
    decide +kernel
  have hunused : (holding longestName Header.fresh.encode).isInUse
      (.ofBytes Header.fresh.encode 0) = false := by
    decide +kernel
  refine ⟨fileAt?_eq_some_iff.2 ⟨_, _, hfind, rfl⟩, by decide, hunused, by decide,
    trim_of_unfit hfind rfl hunused ?_⟩
  rw [copyPath_holding]
  decide +kernel

end Disk

end RecordStore
