import Mathlib.Tactic.Common
import RecordStore.Proofs.Commands
import RecordStore.Proofs.Tokens

/-!
# Many commands in one run

Commands on the input of one run come to the same as one run per command, with the first two words of
its line behind the flags and the path: the store holds the same map afterwards, and each lookup finds
a record with the same key and the same fields, or none.

* `Spells`, `Feeds` — how lines and an input spell commands; blanks, tabs and blank lines do not count.
* `runEach` — one run per command.
* `Agreement` — what the runs and the parts of the batch's output have in common.

Principal results: `Request.ofInput_of_feeds`; `run_path`, `runEach_closed` — both ways of running
the commands; `batch_as_single_runs` — they agree.
-/

set_option autoImplicit false

namespace RecordStore.Command

/-! ## Lines of commands -/

/-- A line with these words: before, between and behind them there are spaces and tabs. -/
inductive Spells : Bytes → List Bytes → Prop where
  | blank {gap : Bytes} (blank : ∀ b ∈ gap, b = space ∨ b = tab) : Spells gap []
  | word {gap word rest : Bytes} {more : List Bytes} (blank : ∀ b ∈ gap, b = space ∨ b = tab)
    (isWord : IsWord word) (apart : StartsApart rest) (spells : Spells rest more) :
    Spells (gap ++ (word ++ rest)) (word :: more)

/-- An input with these commands, one a line.  Blank lines are none. -/
def Feeds (input : Bytes) (commands : List (List Bytes)) : Prop :=
  ∃ texts all, List.Forall₂ Spells texts all ∧ input = [newline].intercalate texts ∧
    commands = all.filter (· ≠ [])

/-- The request of a command: its key is the first word, and the second one may assign a value. -/
def Request.ofWords (command : List Bytes) : Request := ⟨command.headD [], command.tail.head?⟩

section Pieces

variable {cuts : UInt8 → Bool} {s front piece : Bytes} {more : List Bytes}

theorem exists_pieces (cuts : UInt8 → Bool) (s : Bytes) :
    ∃ piece more, pieces cuts s = piece :: more := by
  cases s with
  | nil => exact ⟨[], [], rfl⟩
  | cons b rest =>
    rw [pieces]
    cases pieces cuts rest with
    | nil => exact ⟨_, _, rfl⟩
    | cons piece more => cases cuts b <;> exact ⟨_, _, rfl⟩

/-- What stands before the first piece, uncut, belongs to it. -/
theorem pieces_append (h : ∀ b ∈ front, cuts b = false) (hs : pieces cuts s = piece :: more) :
    pieces cuts (front ++ s) = (front ++ piece) :: more := by
  induction front with
  | nil => exact hs
  | cons b front ih =>
    rw [List.forall_mem_cons] at h
    rw [List.cons_append, pieces, ih h.2, h.1]
    rfl

theorem pieces_cut {b : UInt8} (h : cuts b = true) (s : Bytes) :
    pieces cuts (b :: s) = [] :: pieces cuts s := by
  obtain ⟨piece, more, hs⟩ := exists_pieces cuts s
  rw [pieces, hs]
  dsimp only
  rw [if_pos h]

end Pieces

theorem words_blank {b : UInt8} (h : b = space ∨ b = tab) (s : Bytes) : words (b :: s) = words s := by
  have hcut : (b == space || b == tab) = true := by simpa using h
  rw [words, pieces_cut hcut, List.filter_cons, if_neg (by simp)]
  rfl

theorem words_gap {gap : Bytes} (h : ∀ b ∈ gap, b = space ∨ b = tab) (s : Bytes) :
    words (gap ++ s) = words s := by
  induction gap with
  | nil => rfl
  | cons b more ih =>
    rw [List.forall_mem_cons] at h
    rw [List.cons_append, words_blank h.1, ih h.2]

theorem words_word_append {word rest : Bytes} (hword : IsWord word) (hnewline : newline ∉ rest)
    (hrest : StartsApart rest) : words (word ++ rest) = word :: words rest := by
  have huncut : ∀ b ∈ word, (b == space || b == tab) = false := by
    intro b hb
    have hsolid := hword.2 b hb
    rw [isDelimiter, Bool.or_eq_false_iff] at hsolid
    exact hsolid.1
  cases rest with
  | nil =>
    rw [words, pieces_append huncut rfl, List.append_nil]
    simp [words, pieces, hword.1]
  | cons b rest =>
    have hcut : (b == space || b == tab) = true := by
      have hdelimiter := hrest b rfl
      have hne : (b == newline) = false := beq_false_of_ne fun h => hnewline (h ▸ List.mem_cons_self)
      rwa [isDelimiter, hne, Bool.or_false] at hdelimiter
    rw [words, pieces_append huncut (pieces_cut hcut rest), words, pieces_cut hcut rest]
    simp [hword.1]

/-- A line of words has no newline. -/
theorem Spells.newline_notMem {text : Bytes} {command : List Bytes} (h : Spells text command) :
    newline ∉ text := by
  have hgap : ∀ {gap : Bytes}, (∀ b ∈ gap, b = space ∨ b = tab) → newline ∉ gap := by
    intro gap hblank hmem
    rcases hblank newline hmem with h | h <;> exact absurd h (by decide)
  induction h with
  | blank blank => exact hgap blank
  | @word gap word rest more blank isWord apart spells ih =>
    have hword : newline ∉ word := fun hmem => absurd (isWord.2 newline hmem) (by decide)
    simp only [List.mem_append, not_or]
    exact ⟨hgap blank, hword, ih⟩

/-- **The words of a line are read back.** -/
theorem Spells.words_eq {text : Bytes} {command : List Bytes} (h : Spells text command) :
    words text = command := by
  induction h with
  | @blank gap blank =>
    have hgap := words_gap blank []
    rwa [List.append_nil] at hgap
  | word blank isWord apart spells ih =>
    rw [words_gap blank, words_word_append isWord spells.newline_notMem apart, ih]

theorem Spells.cons_blank {b : UInt8} (hb : b = space ∨ b = tab) {text : Bytes}
    {command : List Bytes} (h : Spells text command) : Spells (b :: text) command := by
  cases h with
  | blank blank => exact .blank (List.forall_mem_cons.2 ⟨hb, blank⟩)
  | word blank isWord apart spells =>
    exact .word (List.forall_mem_cons.2 ⟨hb, blank⟩) isWord apart spells

/-- **Every line without a newline** spells its words. -/
theorem spells_words {text : Bytes} (h : newline ∉ text) : Spells text (words text) := by
  suffices ∃ command, Spells text command by
    obtain ⟨command, hspells⟩ := this
    rwa [hspells.words_eq]
  induction hn : text.length using Nat.strongRecOn generalizing text with
  | ind n ih =>
    cases text with
    | nil => exact ⟨[], .blank (by simp)⟩
    | cons b rest =>
      rw [List.mem_cons, not_or] at h
      by_cases hb : isDelimiter b = true
      · have hblank : b = space ∨ b = tab := by
          have hne : (b == newline) = false := beq_false_of_ne (Ne.symm h.1)
          rw [isDelimiter, hne, Bool.or_false] at hb
          simpa using hb
        obtain ⟨command, hspells⟩ := ih rest.length (by rw [← hn, List.length_cons]; omega) h.2 rfl
        exact ⟨command, hspells.cons_blank hblank⟩
      · obtain ⟨word, tail, heq, hword, htail⟩ := exists_front_word (s := rest) hb
        have hpos := List.length_pos_iff.2 hword.1
        have hcount := congrArg List.length heq
        rw [List.length_append] at hcount
        have hnewline : newline ∉ tail := fun hmem =>
          absurd (heq ▸ List.mem_append_right word hmem) (by simpa using h)
        obtain ⟨command, hspells⟩ := ih tail.length (by omega) hnewline rfl
        have hgap : ∀ b ∈ ([] : Bytes), b = space ∨ b = tab := by simp
        rw [heq]
        exact ⟨_, .word hgap hword htail hspells⟩

/-! ## Inputs -/

theorem Request.ofLine?_eq {text : Bytes} {command : List Bytes} (h : Spells text command)
    {line : Bytes} (hline : line = text ∨ line = text ++ [newline]) :
    Request.ofLine? line = if command = [] then none else some (.ofWords command) := by
  have hwords : words (if endsLine line then line.dropLast else line) = command := by
    rcases hline with rfl | rfl
    · rw [if_neg fun hends => h.newline_notMem (newline_mem_of_endsLine hends)]
      exact h.words_eq
    · rw [if_pos (by simp [endsLine]), List.dropLast_concat]
      exact h.words_eq
  rw [Request.ofLine?, hwords]
  cases command with
  | nil => rfl
  | cons key more => exact (if_neg (List.cons_ne_nil key more)).symm

/-- Lines without a newline feed what they spell. -/
theorem feeds_intercalate {texts : List Bytes} (h : ∀ text ∈ texts, newline ∉ text) :
    Feeds ([newline].intercalate texts) ((texts.map words).filter (· ≠ [])) := by
  refine ⟨texts, texts.map words, ?_, rfl, rfl⟩
  induction texts with
  | nil => exact .nil
  | cons text more ih =>
    rw [List.forall_mem_cons] at h
    exact .cons (spells_words h.1) (ih h.2)

/-- **The commands on an input are read back**, one a line. -/
theorem Request.ofInput_of_feeds {input : Bytes} {commands : List (List Bytes)}
    (h : Feeds input commands) : Request.ofInput input = commands.map .ofWords := by
  obtain ⟨texts, all, hspells, rfl, rfl⟩ := h
  have hone : ∀ {text line : Bytes} {command : List Bytes} (rest : List Bytes), Spells text command →
      line = text ∨ line = text ++ [newline] → (line :: rest).filterMap Request.ofLine? =
        ([command].filter (· ≠ [])).map .ofWords ++ rest.filterMap Request.ofLine? := by
    intro text line command rest hspell hline
    rw [List.filterMap_cons, ofLine?_eq hspell hline]
    by_cases hnil : command = [] <;> simp [hnil]
  induction hspells with
  | nil => rfl
  | @cons text command texts all hspell hmore ih =>
    have hcut : (command :: all).filter (· ≠ []) =
        [command].filter (· ≠ []) ++ all.filter (· ≠ []) := List.filter_append [command] all
    rw [hcut, List.map_append, ← ih]
    cases hmore with
    | nil =>
      rw [List.intercalate_singleton, List.intercalate_nil]
      by_cases htext : text = []
      · subst htext
        have hnil : command = [] := hspell.words_eq.symm
        rw [hnil]
        rfl
      · rw [Request.ofInput, lines_of_notMem hspell.newline_notMem htext]
        exact hone [] hspell (Or.inl rfl)
    | cons =>
      have hline : IsLine (text ++ [newline]) := ⟨text, hspell.newline_notMem, rfl⟩
      rw [List.intercalate_cons_cons, Request.ofInput, lines_append hline]
      exact hone _ hspell (Or.inr rfl)

/-! ## Arguments -/

/-- What flags begin with. -/
def dash : UInt8 := '-'.toUInt8

def writeFlag : Bytes := ascii ['-', 'w']

/-- The flags that ask for commands: reads, writes and deletes. -/
def commandFlags : List Bytes := [ascii ['-', 'r'], writeFlag, ascii ['-', 'x']]

/-- The arguments of a run for one command: the flags, the path and the first two words. -/
def commandArgs (flags : List Bytes) (path : Bytes) (command : List Bytes) : List Bytes :=
  flags ++ path :: command.take 2

namespace Options

variable {opts : Options} {flag path : Bytes} {flags : List Bytes}

/-- Options that such flags alone have set. -/
structure Bare (opts : Options) : Prop where
  sort : opts.sort = false
  trim : opts.trim = false
  file : opts.file = .none
  key : opts.key = .none
  assign : opts.assign = .none

theorem argument_of_flag (h : flag ∈ commandFlags) (opts : Options) :
    opts.argument flag = { opts with read := true } ∨
      opts.argument flag = { opts with read := true, write := true } ∧ flag = writeFlag ∨
      opts.argument flag = { opts with delete := true } := by
  simp only [commandFlags, List.mem_cons, List.not_mem_nil, or_false] at h
  rcases h with rfl | rfl | rfl
  · exact Or.inl rfl
  · exact Or.inr (Or.inl ⟨rfl, rfl⟩)
  · exact Or.inr (Or.inr rfl)

theorem Bare.foldl (h : opts.Bare) (hflags : ∀ flag ∈ flags, flag ∈ commandFlags) :
    (flags.foldl argument opts).Bare := by
  induction flags generalizing opts with
  | nil => exact h
  | cons flag more ih =>
    rw [List.forall_mem_cons] at hflags
    refine ih ?_ hflags.2
    rcases argument_of_flag hflags.1 opts with hnext | ⟨hnext, -⟩ | hnext <;> rw [hnext] <;>
      exact ⟨h.sort, h.trim, h.file, h.key, h.assign⟩

theorem bare_parse (hflags : ∀ flag ∈ flags, flag ∈ commandFlags) : (parse flags).Bare :=
  Bare.foldl ⟨rfl, rfl, rfl, rfl, rfl⟩ hflags

/-- **`-w` among the flags** asks for writes. -/
theorem write_parse (hflags : ∀ flag ∈ flags, flag ∈ commandFlags) (hwrite : writeFlag ∈ flags) :
    (parse flags).write = true := by
  suffices ∀ opts : Options, (opts.write = true ∨ writeFlag ∈ flags) →
      (flags.foldl argument opts).write = true from this none (Or.inr hwrite)
  clear hwrite
  induction flags with
  | nil =>
    rintro opts (h | h)
    · exact h
    · cases h
  | cons flag more ih =>
    rw [List.forall_mem_cons] at hflags
    intro opts h
    refine ih hflags.2 _ ?_
    rcases h with hwrite | hmem
    · left
      rcases argument_of_flag hflags.1 opts with hnext | ⟨hnext, -⟩ | hnext <;> rw [hnext]
      · exact hwrite
      · exact hwrite
    · rcases List.mem_cons.1 hmem with rfl | hmore
      · exact Or.inl rfl
      · exact Or.inr hmore

theorem parse_append (flags args : List Bytes) :
    parse (flags ++ args) = args.foldl argument (parse flags) :=
  List.foldl_append

theorem argument_of_not_dash {text : Bytes} (h : text.head? ≠ some dash) (opts : Options) :
    opts.argument text = opts.operand text :=
  if_neg h

/-- The options of a run without a command among its arguments. -/
theorem parse_path (hflags : ∀ flag ∈ flags, flag ∈ commandFlags) (hpath : path.head? ≠ some dash) :
    parse (flags ++ [path]) = { parse flags with file := some path } := by
  rw [parse_append, List.foldl_cons, List.foldl_nil, argument_of_not_dash hpath, operand,
    (bare_parse hflags).file]
  rfl

/-- The options of a run for one command. -/
theorem parse_commandArgs (hflags : ∀ flag ∈ flags, flag ∈ commandFlags)
    (hpath : path.head? ≠ some dash) {command : List Bytes} (hne : command ≠ [])
    (hwords : ∀ word ∈ command, word.head? ≠ some dash) :
    parse (commandArgs flags path command) = { parse flags with
      file := some path
      key := some (Request.ofWords command).key
      assign := (Request.ofWords command).assign } := by
  obtain ⟨hsort, htrim, hfile, hkey, hassign⟩ := bare_parse hflags
  rw [commandArgs, parse_append, List.foldl_cons, argument_of_not_dash hpath]
  generalize parse flags = opts at *
  obtain ⟨read, write, delete, sort, trim, file, key, assign⟩ := opts
  subst hfile hkey hassign
  match command, hne with
  | [first], _ =>
    rw [List.forall_mem_cons] at hwords
    simp only [List.take, List.foldl_cons, List.foldl_nil, argument_of_not_dash hwords.1]
    rfl
  | first :: second :: more, _ =>
    simp only [List.forall_mem_cons] at hwords
    simp only [List.take, List.foldl_cons, List.foldl_nil, argument_of_not_dash hwords.1,
      argument_of_not_dash hwords.2.1]
    rfl

end Options

/-! ## One run per command -/

/-- One run per command, each in its own second. -/
def runEach (flags : List Bytes) (path : Bytes) (disk : Disk) :
    List (Nat × List Bytes) → Disk × List Report
  | [] => (disk, [])
  | (now, command) :: more =>
    let (disk, report) := run { disk with now } (commandArgs flags path command) []
    let (disk, reports) := runEach flags path disk more
    (disk, report :: reports)

/-- The request of a run. -/
def requestOf (entry : Nat × List Bytes) : Request := .ofWords entry.2

/-- Another second changes no file. -/
theorem lasts_at (disk : Disk) (now : Nat) : disk.Lasts { disk with now } :=
  ⟨rfl, (Disk.Lasts.refl disk).file⟩

section Runs

variable {disk : Disk} {flags : List Bytes} {path : Bytes} {c : Contents}
  (hflags : ∀ flag ∈ flags, flag ∈ commandFlags) (hpath : path.head? ≠ some dash)

include hflags hpath

/-- **A run for one command.** -/
theorem run_commandArgs {command : List Bytes} (hne : command ≠ [])
    (hwords : ∀ word ∈ command, word.head? ≠ some dash)
    (hoffers : disk.Offers path (Options.parse flags).write c)
    (hshort : (run disk (commandArgs flags path command) []).1.ShortAt path) :
    ∃ (disk' : Disk) (text : Bytes), run disk (commandArgs flags path command) [] =
        (disk', reportOf path ((Request.ofWords command).fault? (Options.parse flags)) text) ∧
      disk'.ClosedAt path ((Request.ofWords command).after (Options.parse flags) c) ∧
      (Request.ofWords command).Tells (Options.parse flags) false c text := by
  have hbare := Options.bare_parse hflags
  have hparse := Options.parse_commandArgs hflags hpath hne hwords
  have hrun := @run_command disk (commandArgs flags path command) path [] c
    (by rw [hparse]) (by rw [hparse]; exact hbare.trim) (by rw [hparse]; exact hoffers)
    (by rw [hparse]; exact hbare.sort) hshort (.ofWords command) (by rw [hparse]) (by rw [hparse])
  rw [hparse] at hrun
  exact hrun

/-- **The run for all commands** on its input. -/
theorem run_path {input : Bytes} (hoffers : disk.Offers path (Options.parse flags).write c)
    (hshort : (run disk (flags ++ [path]) input).1.ShortAt path) :
    ∃ (disk' : Disk) (texts : List Bytes),
      run disk (flags ++ [path]) input = (disk', ⟨some 0, texts.flatten, []⟩) ∧
      disk'.ClosedAt path ((Request.ofInput input).foldl (Request.after (Options.parse flags)) c) ∧
      Telling (Options.parse flags) true c (Request.ofInput input) texts := by
  have hbare := Options.bare_parse hflags
  have hparse := Options.parse_path hflags hpath
  have hrun := @run_commands disk (flags ++ [path]) path input c
    (by rw [hparse]) (by rw [hparse]; exact hbare.trim) (by rw [hparse]; exact hoffers)
    (by rw [hparse]; exact hbare.sort) hshort (by rw [hparse]; exact hbare.key)
  rw [hparse] at hrun
  obtain ⟨disk', texts, heq, hclosed, htelling⟩ := hrun
  refine ⟨disk', texts, heq, hclosed, Telling.of_call? ?_ htelling⟩
  intro request
  rfl

/-- One run after the other on a store that is there lets no file get shorter. -/
theorem runEach_lasts {runs : List (Nat × List Bytes)} (hne : ∀ entry ∈ runs, entry.2 ≠ [])
    (hwords : ∀ entry ∈ runs, ∀ word ∈ entry.2, word.head? ≠ some dash) {place : Place} {index : Nat}
    (hfind : disk.tree.find path = .ok (place, index)) :
    disk.Lasts (runEach flags path disk runs).1 := by
  induction runs generalizing disk with
  | nil => exact .refl disk
  | cons entry more ih =>
    obtain ⟨now, command⟩ := entry
    rw [List.forall_mem_cons] at hne hwords
    have hparse := Options.parse_commandArgs hflags hpath hne.1 hwords.1
    have hfirst : disk.Lasts (run { disk with now } (commandArgs flags path command) []).1 :=
      (lasts_at disk now).trans (@run_lasts { disk with now } _ path (by rw [hparse])
        (by rw [hparse]; exact (Options.bare_parse hflags).trim) place index hfind [])
    exact hfirst.trans (ih hne.2 hwords.2 (by rw [hfirst.tree]; exact hfind))

/-- **One run per command** on a store that nobody has open: each does to the map what its command
does. -/
theorem runEach_closed {runs : List (Nat × List Bytes)} (hne : ∀ entry ∈ runs, entry.2 ≠ [])
    (hwords : ∀ entry ∈ runs, ∀ word ∈ entry.2, word.head? ≠ some dash)
    (hoffers : disk.Offers path (Options.parse flags).write c)
    (hshort : (runEach flags path disk runs).1.ShortAt path) :
    ∃ (disk' : Disk) (texts : List Bytes), runEach flags path disk runs = (disk',
        List.zipWith (fun request text => reportOf path (request.fault? (Options.parse flags)) text)
          (runs.map requestOf) texts) ∧
      (runs ≠ [] → disk'.ClosedAt path
        ((runs.map requestOf).foldl (Request.after (Options.parse flags)) c)) ∧
      Telling (Options.parse flags) false c (runs.map requestOf) texts := by
  induction runs generalizing disk c with
  | nil => exact ⟨disk, [], rfl, fun h => absurd rfl h, .nil c⟩
  | cons entry more ih =>
    obtain ⟨now, command⟩ := entry
    rw [List.forall_mem_cons] at hne hwords
    have hparse := Options.parse_commandArgs hflags hpath hne.1 hwords.1
    have hoffers' : ({ disk with now } : Disk).Offers path (Options.parse flags).write c := hoffers
    obtain ⟨found, place, index, hfind, hfound, hlasts⟩ :=
      @exists_found { disk with now } (commandArgs flags path command) path c (by rw [hparse])
        (by rw [hparse]; exact (Options.bare_parse hflags).trim) (by rw [hparse]; exact hoffers) []
    have hrest := runEach_lasts hflags hpath hne.2 hwords.2 (by rw [hlasts.tree]; exact hfind)
    obtain ⟨disk₁, text, hrun, hclosed, htells⟩ := run_commandArgs hflags hpath hne.1 hwords.1 hoffers'
      (hfound.shortAt hfind hlasts hrest hshort)
    have heach : runEach flags path disk ((now, command) :: more) =
        ((runEach flags path disk₁ more).1,
          reportOf path ((Request.ofWords command).fault? (Options.parse flags)) text ::
            (runEach flags path disk₁ more).2) := by
      rw [runEach, hrun]
    rw [heach] at hshort ⊢
    obtain ⟨disk', texts, hmore, hend, htelling⟩ := ih hne.2 hwords.2 (Or.inl hclosed) hshort
    refine ⟨disk', text :: texts, ?_, fun _ => ?_, .cons htells htelling⟩
    · rw [hmore]
      rfl
    · rw [List.map_cons, List.foldl_cons]
      cases more with
      | nil =>
        obtain rfl : disk₁ = disk' := congrArg Prod.fst hmore
        exact hclosed
      | cons => exact hend (List.cons_ne_nil _ _)

end Runs

/-! ## Both ways of running -/

/-- What the run for one command and its part of a batch's output have in common.  The run is refused
for the command itself at most; where a key is looked up, both print a record with the same key and
the same fields, or that there is none; and nothing else is printed. -/
def Agrees (opts : Options) (path : Bytes) (request : Request) (report : Report) (part : Bytes) :
    Prop :=
  ∃ text, report = reportOf path (request.fault? opts) text ∧
    match request.call? opts with
    | some (.read key _ _) => ∃ found found' : Option Record,
      found.map (fun r => (r.key, r.fields)) = found'.map (fun r => (r.key, r.fields)) ∧
        text = lookupText key false found ∧ part = lookupText key true found'
    | _ => text = [] ∧ part = []

/-- The runs and the parts of the batch's output agree, command by command. -/
inductive Agreement (opts : Options) (path : Bytes) :
    List Request → List Report → List Bytes → Prop where
  | nil : Agreement opts path [] [] []
  | cons {request : Request} {report : Report} {part : Bytes} {more : List Request}
    {reports : List Report} {parts : List Bytes} (agrees : Agrees opts path request report part)
    (rest : Agreement opts path more reports parts) :
    Agreement opts path (request :: more) (report :: reports) (part :: parts)

/-- The map that commands make of the file at a path: those that are refused for themselves do not
count. -/
def mapAfter (opts : Options) (disk : Disk) (path : Bytes) (requests : List Request) : Contents :=
  (requests.filter fun request => (request.fault? opts).isNone).foldl (Request.after opts)
    (.ofBytes ((disk.bytesAt? path).getD []) Header.length)

/-- A path leads to a store that the library made and nobody has open, or, with `-w`, to a place where
nothing stands yet. -/
def Ready (disk : Disk) (flags : List Bytes) (path : Bytes) : Prop :=
  (∃ (store : Store) (mtime : Int), store.Made ∧
    disk.fileAt? path = some (.ofBytes store.file.bytes mtime)) ∨
    writeFlag ∈ flags ∧ ∃ place, disk.tree.findOrVacant path = .ok (place, none)

theorem agreement_of_telling {opts : Options} {c : Contents} {requests : List Request}
    {texts parts : List Bytes} (path : Bytes) (hparts : Telling opts true c requests parts)
    (htexts : Telling opts false c requests texts) : Agreement opts path requests
      (List.zipWith (fun request text => reportOf path (request.fault? opts) text) requests texts)
      parts := by
  induction hparts generalizing texts with
  | nil =>
    cases htexts
    exact .nil
  | @cons c request part more parts told rest ih =>
    cases htexts with
    | @cons _ _ text _ texts told' rest' =>
      refine .cons ⟨text, rfl, ?_⟩ (ih rest')
      unfold Request.Tells at told told'
      split
      · next key piece keepLock hcall =>
        rw [hcall] at told told'
        obtain ⟨found', hfound', hpart⟩ := told
        obtain ⟨found, hfound, htext⟩ := told'
        exact ⟨found, found', hfound.trans hfound'.symm, htext, hpart⟩
      · next hother =>
        split at told'
        · next hcall => exact absurd hcall (hother _ _ _)
        · split at told
          · next hcall => exact absurd hcall (hother _ _ _)
          · exact ⟨told', told⟩

/-- A command that is refused for itself makes nothing of the map. -/
theorem Request.after_of_fault {request : Request} {opts : Options} (c : Contents)
    (h : ¬ (request.fault? opts).isNone = true) : request.after opts c = c := by
  unfold Request.after
  cases hcall : request.call? opts with
  | none => rfl
  | some call =>
    have hfault : request.fault? opts = call.fault? := by rw [Request.fault?, hcall]; rfl
    rw [hfault, Option.isNone_iff_eq_none] at h
    exact if_neg h

theorem foldl_after_eq (opts : Options) (requests : List Request) (c : Contents) :
    requests.foldl (Request.after opts) c =
      (requests.filter fun request => (request.fault? opts).isNone).foldl (Request.after opts) c := by
  induction requests generalizing c with
  | nil => rfl
  | cons request more ih =>
    rw [List.foldl_cons, List.filter_cons]
    by_cases h : (request.fault? opts).isNone = true
    · rw [if_pos h, List.foldl_cons]
      exact ih _
    · rw [if_neg h, Request.after_of_fault c h]
      exact ih c

theorem Ready.offers {disk : Disk} {flags : List Bytes} {path : Bytes} (h : Ready disk flags path)
    (hflags : ∀ flag ∈ flags, flag ∈ commandFlags) : disk.Offers path (Options.parse flags).write
      (.ofBytes ((disk.bytesAt? path).getD []) Header.length) := by
  rcases h with ⟨store, mtime, hmade, hfile⟩ | ⟨hwrite, place, hvacant⟩
  · obtain ⟨place, index, hfind, hindex⟩ := Disk.fileAt?_eq_some_iff.1 hfile
    rw [Disk.bytesAt?, hfile]
    exact Or.inl ⟨place, index, hfind, _, hindex, hmade.closed mtime⟩
  · have hnone : disk.bytesAt? path = none := by
      rw [Disk.bytesAt?, Option.map_eq_none_iff]
      cases hfile : disk.fileAt? path with
      | none => rfl
      | some store =>
        obtain ⟨place', index, hfind, -⟩ := Disk.fileAt?_eq_some_iff.1 hfile
        rw [FileTree.findOrVacant_of_find hfind] at hvacant
        cases hvacant
    rw [hnone]
    exact Or.inr ⟨Options.write_parse hflags hwrite, rfl, place, hvacant⟩

/-- **Commands on the input of one run come to the same as one run per command.**  The path leads to a
store that the library made and nobody has open, or, with `-w`, to a place where nothing stands; the
flags are some of `-r`, `-w` and `-x`; and no word begins like a flag.  Then both ways leave the same
map, that of the commands that were not refused, and each lookup finds the same key and fields in
both, or none.  No command that is refused keeps the batch from the others.

In the end both files must have less than 2³² bytes: a slot has no room for the offset of a line
behind them. -/
theorem batch_as_single_runs {disk : Disk} {flags : List Bytes} {path input : Bytes}
    {runs : List (Nat × List Bytes)} (now : Nat) (hflags : ∀ flag ∈ flags, flag ∈ commandFlags)
    (hpath : path.head? ≠ some dash) (hready : Ready disk flags path)
    (hfeeds : Feeds input (runs.map Prod.snd)) (hsome : runs ≠ [])
    (hwords : ∀ entry ∈ runs, ∀ word ∈ entry.2, word.head? ≠ some dash)
    (hshort : (run { disk with now } (flags ++ [path]) input).1.ShortAt path)
    (hshort' : (runEach flags path disk runs).1.ShortAt path) :
    ∃ bytes bytes' parts,
      (run { disk with now } (flags ++ [path]) input).1.bytesAt? path = some bytes ∧
      (runEach flags path disk runs).1.bytesAt? path = some bytes' ∧
      Holds (liveRecordsFrom Header.length bytes)
        (mapAfter (Options.parse flags) disk path (runs.map requestOf)) ∧
      Holds (liveRecordsFrom Header.length bytes')
        (mapAfter (Options.parse flags) disk path (runs.map requestOf)) ∧
      (run { disk with now } (flags ++ [path]) input).2 = ⟨some 0, List.flatten parts, []⟩ ∧
      Agreement (Options.parse flags) path (runs.map requestOf)
        (runEach flags path disk runs).2 parts := by
  have hoffers := hready.offers hflags
  have hrequests : Request.ofInput input = runs.map requestOf := by
    rw [Request.ofInput_of_feeds hfeeds, List.map_map]
    rfl
  have hne : ∀ entry ∈ runs, entry.2 ≠ [] := by
    obtain ⟨texts, all, -, -, hall⟩ := hfeeds
    intro entry hentry
    have hmem := List.mem_map_of_mem (f := Prod.snd) hentry
    rw [hall, List.mem_filter] at hmem
    simpa using hmem.2
  obtain ⟨disk₁, parts, hbatch, hclosed, hparts⟩ :=
    @run_path { disk with now } flags path _ hflags hpath input hoffers hshort
  obtain ⟨disk₂, texts, heach, hclosed', htexts⟩ :=
    runEach_closed hflags hpath hne hwords hoffers hshort'
  rw [hrequests] at hclosed hparts
  obtain ⟨bytes, hbytes, hholds⟩ := hclosed.holds
  obtain ⟨bytes', hbytes', hholds'⟩ := (hclosed' hsome).holds
  rw [foldl_after_eq] at hholds hholds'
  rw [hbatch, heach]
  exact ⟨bytes, bytes', parts, hbytes, hbytes', hholds, hholds', rfl,
    agreement_of_telling path hparts htexts⟩

/-- A key is created and its value replaced; then it is read, a write without a name for its field is
refused, and a key that is not there is read.  One line is blank. -/
def fewTexts : List Bytes :=
  [ascii [' ', 'a', ' ', 'f', '=', '1', '\t', 'x'], [],
    ascii ['\t', 'a', ' ', 'f', '=', '2', '2', ' '], ascii ['a'], ascii ['b', ' ', '=', 'x'],
    ascii ['c']]

/-- The commands of these lines, each with the second of its run. -/
def fewRuns : List (Nat × List Bytes) :=
  [(5, [ascii ['a'], ascii ['f', '=', '1'], ascii ['x']]),
    (6, [ascii ['a'], ascii ['f', '=', '2', '2']]), (7, [ascii ['a']]),
    (8, [ascii ['b'], ascii ['=', 'x']]), (9, [ascii ['c']])]

/-- A disk without files. -/
def bareDisk : Disk := .empty 4 1 []

theorem batch_as_single_runs_of_few_lines :
    Ready bareDisk [writeFlag] (ascii ['s']) ∧
    Feeds ([newline].intercalate fewTexts) (fewRuns.map Prod.snd) ∧ ∃ bytes bytes' parts,
      (run { bareDisk with now := 4 } ([writeFlag] ++ [ascii ['s']])
        ([newline].intercalate fewTexts)).1.bytesAt? (ascii ['s']) = some bytes ∧
      (runEach [writeFlag] (ascii ['s']) bareDisk fewRuns).1.bytesAt? (ascii ['s']) = some bytes' ∧
      Holds (liveRecordsFrom Header.length bytes)
        (mapAfter (Options.parse [writeFlag]) bareDisk (ascii ['s']) (fewRuns.map requestOf)) ∧
      Holds (liveRecordsFrom Header.length bytes')
        (mapAfter (Options.parse [writeFlag]) bareDisk (ascii ['s']) (fewRuns.map requestOf)) ∧
      (run { bareDisk with now := 4 } ([writeFlag] ++ [ascii ['s']])
        ([newline].intercalate fewTexts)).2 = ⟨some 0, List.flatten parts, []⟩ ∧
      Agreement (Options.parse [writeFlag]) (ascii ['s']) (fewRuns.map requestOf)
        (runEach [writeFlag] (ascii ['s']) bareDisk fewRuns).2 parts := by
  have hready : Ready bareDisk [writeFlag] (ascii ['s']) :=
    Or.inr ⟨by decide, [ascii ['s']], rfl⟩
  have hfeeds : Feeds ([newline].intercalate fewTexts) (fewRuns.map Prod.snd) := by
    have hall : fewRuns.map Prod.snd = (fewTexts.map words).filter (· ≠ []) := by decide
    rw [hall]
    exact feeds_intercalate (by decide)
  exact ⟨hready, hfeeds, batch_as_single_runs 4 (by decide) (by decide) hready hfeeds (by decide)
    (by decide) (by decide +kernel) (by decide +kernel)⟩

end RecordStore.Command
