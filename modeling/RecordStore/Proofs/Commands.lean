import Mathlib.Tactic.Common
import RecordStore.Command
import RecordStore.Proofs.Disks
import RecordStore.Proofs.Visits

/-!
# Commands

A command is one call at most, and prints what a lookup found.  Where nobody else has the store open,
the program opens it, runs its commands and closes it: the map is what the commands make of it one
after the other, and a command that is refused changes nothing and stops no other.

* `Request.call?`, `Request.after`, `Request.Tells` — what a command calls, what it makes of the map,
  and what it prints.
* `Telling` — what many commands print.
* `Program.final`, `Program.Lasts` — where a program ends, and that no file gets shorter on the way.
* `Disk.Offers` — a text leads to a store that nobody has open, or to a place where one may be created.

Principal results: `Program.execute_executes`, `Program.forM_hosts` — the commands on an open store;
`run_command`, `run_commands` — the whole program.
-/

set_option autoImplicit false

namespace RecordStore

namespace Command

/-! ## What commands ask for -/

/-- The call that a request comes to: deleting comes before writing, and writing before reading. -/
def Request.call? (request : Request) (opts : Options) : Option Call :=
  if opts.delete then some (.delete request.key)
  else
    match (if opts.write then request.assign.bind Field.ofToken? else none) with
    | some field => some (.write ⟨request.key, some field, .transient⟩)
    | none => if opts.read then some (.read request.key .record false) else none

/-- What is wrong with a request itself. -/
def Request.fault? (request : Request) (opts : Options) : Option TokenFault :=
  (request.call? opts).bind Call.fault?

/-- What a request makes of the map. -/
def Request.after (opts : Options) (c : Contents) (request : Request) : Contents :=
  match request.call? opts with
  | some call => c.attempt call
  | none => c

/-- What the program prints of a lookup. -/
def lookupText (key : Bytes) (batch : Bool) : Option Record → Bytes
  | some record =>
    utf8 "key " ++ Utf8.repair key ++ utf8 (" data (" ++ toString record.text.length ++ ") ")
      ++ record.text
  | none =>
    if batch then utf8 "key " ++ Utf8.repair key ++ utf8 " data <not-found>\n"
    else utf8 "<not found>\n"

/-- What a request may print where the store holds the map `c`. -/
def Request.Tells (request : Request) (opts : Options) (batch : Bool) (c : Contents) (text : Bytes) :
    Prop :=
  match request.call? opts with
  | some (.read key _ _) => ∃ found : Option Record,
    found.map (fun r => (r.key, r.fields)) = (c key).map (fun fields => (key, fields)) ∧
      text = lookupText key batch found
  | _ => text = []

/-- What many requests may print, one after the other. -/
inductive Telling (opts : Options) (batch : Bool) : Contents → List Request → List Bytes → Prop where
  | nil (c : Contents) : Telling opts batch c [] []
  | cons {c : Contents} {request : Request} {text : Bytes} {more : List Request} {texts : List Bytes}
    (told : request.Tells opts batch c text)
    (rest : Telling opts batch (request.after opts c) more texts) :
    Telling opts batch c (request :: more) (text :: texts)

/-- What is printed depends on what the requests call. -/
theorem Telling.of_call? {opts opts' : Options} {batch : Bool} {c : Contents}
    {requests : List Request} {texts : List Bytes}
    (hsame : ∀ request : Request, request.call? opts = request.call? opts')
    (h : Telling opts batch c requests texts) : Telling opts' batch c requests texts := by
  induction h with
  | nil c => exact .nil c
  | @cons c request text more texts told rest ih =>
    have hafter : request.after opts' c = request.after opts c := by
      rw [Request.after, Request.after, hsame]
    refine .cons ?_ (hafter ▸ ih)
    rw [Request.Tells, ← hsame]
    exact told

/-- Requests that ask for no call. -/
theorem telling_of_idle {opts : Options} (h : ∀ request : Request, request.call? opts = none)
    (requests : List Request) (c : Contents) : requests.foldl (Request.after opts) c = c ∧
      Telling opts true c requests (requests.map fun _ => []) := by
  have hafter : ∀ request : Request, request.after opts c = c := fun request => by
    rw [Request.after, h request]
  induction requests with
  | nil => exact ⟨rfl, .nil c⟩
  | cons request more ih =>
    have htells : request.Tells opts true c [] := by rw [Request.Tells, h request]
    refine ⟨?_, .cons htells ?_⟩
    · rw [List.foldl_cons, hafter request]
      exact ih.1
    · rw [hafter request]
      exact ih.2

namespace Program

variable {α β : Type} {s s' : State} {ref : HandleRef} {c : Contents} {opts : Options}

theorem bind_ok {prog : Program α} {next : α → Program β} {a : α} (h : prog s = .ok a s') :
    (prog >>= next) s = next a s' := by
  show EStateM.bind prog next s = _
  unfold EStateM.bind
  rw [h]

theorem bind_error {prog : Program α} {next : α → Program β} {halt : Halt}
    (h : prog s = .error halt s') : (prog >>= next) s = .error halt s' := by
  show EStateM.bind prog next s = _
  unfold EStateM.bind
  rw [h]

theorem call_eq (ref : HandleRef) (asked : Call) (s : State) : call ref asked s =
    match s.disk.call ref asked with
    | (disk, .answered a) => .ok a { s with disk }
    | (disk, .failed error) => .error (.failed error) { s with disk }
    | (disk, _) => .error .waiting { s with disk } := by
  unfold call
  rw [bind_ok (show (get : Program State) s = .ok s s from rfl)]
  obtain ⟨disk, outcome⟩ := s.disk.call ref asked
  cases outcome <;> rfl

theorem report_eq (key : Bytes) (batch : Bool) (found : Option Record) :
    report key batch found = print (lookupText key batch found) := by
  cases found with
  | some record => rfl
  | none => cases batch <;> rfl

/-! ## No file gets shorter -/

/-- Where a program ends. -/
def final (prog : Program α) (s : State) : State :=
  match prog s with
  | .ok _ s' | .error _ s' => s'

/-- No file of the disk gets shorter. -/
def Lasts (prog : Program α) : Prop :=
  ∀ s : State, s.disk.Lasts (final prog s).disk

theorem final_of_ok {prog : Program α} {a : α} (h : prog s = .ok a s') : final prog s = s' := by
  rw [final, h]

theorem final_of_error {prog : Program α} {halt : Halt} (h : prog s = .error halt s') :
    final prog s = s' := by
  rw [final, h]

namespace Lasts

theorem pure (a : α) : (pure a : Program α).Lasts := fun s => .refl s.disk

theorem bind {prog : Program α} {next : α → Program β} (h : prog.Lasts)
    (hnext : ∀ a, (next a).Lasts) : (prog >>= next).Lasts := by
  intro s
  have hfirst := h s
  cases hprog : prog s with
  | ok a s' =>
    rw [final_of_ok hprog] at hfirst
    have hrest := hnext a s'
    rw [final] at hrest ⊢
    rw [bind_ok hprog]
    exact hfirst.trans hrest
  | error halt s' =>
    rw [final_of_error hprog] at hfirst
    rw [final_of_error (bind_error hprog)]
    exact hfirst

theorem print (text : Bytes) : (print text).Lasts := fun s => .refl s.disk

theorem report (key : Bytes) (batch : Bool) (found : Option Record) :
    (report key batch found).Lasts := by
  rw [report_eq]
  exact .print _

theorem call (ref : HandleRef) (asked : Call) : (call ref asked).Lasts := by
  intro s
  have hlasts := s.disk.call_lasts ref asked
  rw [final, call_eq]
  generalize s.disk.call ref asked = result at hlasts
  obtain ⟨disk, outcome⟩ := result
  cases outcome <;> exact hlasts

theorem execute (opts : Options) (ref : HandleRef) (batch : Bool) (request : Request) :
    (execute opts ref batch request).Lasts := by
  unfold Program.execute
  split
  · exact .bind (.call _ _) fun _ => .pure _
  · split
    · exact .bind (.call _ _) fun _ => .pure _
    · split
      · refine .bind (.call _ _) fun a => ?_
        split
        · exact .report _ _ _
        · exact .pure _
      · exact .pure _

theorem executeOne (opts : Options) (ref : HandleRef) (request : Request) :
    (executeOne opts ref request).Lasts := by
  intro s
  have hlasts := Lasts.execute opts ref true request s
  unfold final Program.executeOne at *
  cases hresult : Program.execute opts ref true request s with
  | ok a s' => rwa [hresult] at hlasts
  | error halt s' =>
    rw [hresult] at hlasts
    cases halt with
    | waiting => exact hlasts
    | failed error => cases hfatal : error.isFatal <;> simpa [hfatal] using hlasts

theorem forM {prog : α → Program Unit} (h : ∀ a, (prog a).Lasts) (as : List α) :
    (as.forM prog).Lasts := by
  induction as with
  | nil => exact .pure _
  | cons a more ih => exact .bind (h a) fun _ => ih

theorem body (opts : Options) (input : Bytes) (ref : HandleRef) : (body opts input ref).Lasts := by
  unfold Program.body
  split <;> dsimp only <;> split
  · exact .bind (.call _ _) fun _ => .execute _ _ _ _
  · exact .execute _ _ _ _
  · refine .bind (.call _ _) fun _ => ?_
    split
    · exact .forM (fun request => .executeOne opts ref request) _
    · exact .pure _
  · split
    · exact .forM (fun request => .executeOne opts ref request) _
    · exact .pure _

theorem closing (ref : HandleRef) {prog : Program Unit} (h : prog.Lasts) : (closing ref prog).Lasts := by
  intro s
  have hlasts := h s
  unfold final Program.closing at *
  cases hresult : prog s with
  | ok a s' =>
    rw [hresult] at hlasts
    exact hlasts.trans (s'.disk.close_lasts ref)
  | error halt s' =>
    rw [hresult] at hlasts
    exact hlasts.trans (s'.disk.close_lasts ref)

end Lasts

/-! ## Commands of a client that is alone -/

/-- How a command ends: it is refused only for itself. -/
def ended (fault : Option TokenFault) (s : State) : EStateM.Result Halt State Unit :=
  match fault with
  | none => .ok () s
  | some fault => .error (.failed (.invalidData fault)) s

/-- What a command comes to: it does to the map what its call does, and prints what a lookup found. -/
inductive Executes (opts : Options) (ref : HandleRef) (batch : Bool) (c : Contents)
    (request : Request) (s : State) : EStateM.Result Halt State Unit → Prop where
  | done {disk : Disk} {text : Bytes} (hosts : disk.Hosts ref (request.after opts c))
    (tree : disk.tree = s.disk.tree) (tells : request.Tells opts batch c text) :
    Executes opts ref batch c request s (ended (request.fault? opts) ⟨disk, s.out ++ text⟩)

section Alone

variable (h : s.disk.Hosts ref c)

include h

theorem call_hosts (hshort : s.disk.Short ref.file) {asked : Call} (hsimple : asked.Simple) :
    ∃ disk : Disk, disk.Hosts ref (c.attempt asked) ∧ disk.tree = s.disk.tree ∧
      ((∃ a, asked.fault? = none ∧ asked.Answers c a ∧ call ref asked s = .ok a { s with disk }) ∨
        ∃ fault, asked.fault? = some fault ∧
          call ref asked s = .error (.failed (.invalidData fault)) { s with disk }) := by
  obtain ⟨hhosts, hyields⟩ := h.call hshort hsimple
  have htree := (s.disk.call_lasts ref asked).tree
  rw [call_eq]
  generalize s.disk.call ref asked = result at hhosts hyields htree
  obtain ⟨disk, outcome⟩ := result
  refine ⟨disk, hhosts, htree, ?_⟩
  cases outcome with
  | answered a => exact Or.inl ⟨a, hyields.1, hyields.2, rfl⟩
  | failed error =>
    obtain ⟨fault, hfault, rfl⟩ := hyields
    exact Or.inr ⟨fault, hfault, rfl⟩
  | opened | waiting | unavailable => exact hyields.elim

/-- A command that prints nothing. -/
theorem silent_executes (hshort : s.disk.Short ref.file) {request : Request} {asked : Call}
    (hcall : request.call? opts = some asked) (hsimple : asked.Simple)
    (hsilent : ∀ key part keepLock, asked ≠ .read key part keepLock) (batch : Bool) :
    Executes opts ref batch c request s ((call ref asked >>= fun _ => pure ()) s) := by
  obtain ⟨disk, hhosts, htree, hcalled⟩ := call_hosts h hshort hsimple
  have hafter : request.after opts c = c.attempt asked := by rw [Request.after, hcall]
  have htells : request.Tells opts batch c [] := by
    rw [Request.Tells, hcall]
    cases asked with
    | read key part keepLock => exact absurd rfl (hsilent key part keepLock)
    | _ => rfl
  have hdone := Executes.done (hafter ▸ hhosts) htree htells
  rw [List.append_nil, show request.fault? opts = asked.fault? by rw [Request.fault?, hcall]; rfl]
    at hdone
  rcases hcalled with ⟨a, hnone, -, hok⟩ | ⟨fault, hsome, herror⟩
  · rw [bind_ok hok]
    rwa [hnone] at hdone
  · rw [bind_error herror]
    rwa [hsome] at hdone

/-- A command that asks for a lookup prints what it found. -/
theorem reading_executes (hshort : s.disk.Short ref.file) {request : Request}
    (hcall : request.call? opts = some (.read request.key .record false)) (batch : Bool) :
    Executes opts ref batch c request s ((do
      match ← call ref (.read request.key .record false) with
      | .record found => report request.key batch found
      | _ => pure () : Program Unit) s) := by
  have hsimple : (Call.read request.key .record false).Simple := rfl
  obtain ⟨disk, hhosts, htree, ⟨a, -, hanswers, hok⟩ | ⟨fault, hsome, -⟩⟩ :=
    call_hosts h hshort hsimple
  · have hafter : request.after opts c = c.attempt (.read request.key .record false) := by
      rw [Request.after, hcall]
    have hfault : request.fault? opts = none := by rw [Request.fault?, hcall]; rfl
    obtain ⟨found, rfl, hfound⟩ : ∃ found : Option Record, a = .record found ∧
        found.map (fun r => (r.key, r.fields)) =
          (c request.key).map (fun fields => (request.key, fields)) := by
      have hrecord : Part.Answers request.key (c request.key) .record a := hanswers
      cases hkey : c request.key with
      | none =>
        rw [hkey] at hrecord
        exact ⟨none, hrecord, rfl⟩
      | some fields =>
        rw [hkey] at hrecord
        obtain ⟨r, rfl, -, hown, hfields⟩ := hrecord
        exact ⟨some r, rfl, by rw [Option.map_some, Option.map_some, hown, hfields]⟩
    have htells : request.Tells opts batch c (lookupText request.key batch found) := by
      rw [Request.Tells, hcall]
      exact ⟨found, hfound, rfl⟩
    have hdone := Executes.done (hafter ▸ hhosts) htree htells
    rw [hfault] at hdone
    rw [bind_ok hok]
    dsimp only
    rw [report_eq]
    exact hdone
  · cases hsome

/-- **A command** on a store that its client has for itself. -/
theorem execute_executes (hshort : s.disk.Short ref.file) (opts : Options) (batch : Bool)
    (request : Request) :
    Executes opts ref batch c request s (execute opts ref batch request s) := by
  unfold execute
  by_cases hdelete : opts.delete = true
  · rw [if_pos hdelete]
    exact silent_executes h hshort (if_pos hdelete) trivial (by rintro key part keepLock ⟨⟩) batch
  · have hcall : request.call? opts = match
        (if opts.write then request.assign.bind Field.ofToken? else none) with
        | some field => some (.write ⟨request.key, some field, .transient⟩)
        | none => if opts.read then some (.read request.key .record false) else none :=
      if_neg hdelete
    rw [if_neg hdelete]
    cases hassign : (if opts.write then request.assign.bind Field.ofToken? else none) with
    | some field =>
      rw [hassign] at hcall
      exact silent_executes h hshort hcall rfl (by rintro key part keepLock ⟨⟩) batch
    | none =>
      rw [hassign] at hcall
      dsimp only at hcall ⊢
      by_cases hread : opts.read = true
      · rw [if_pos hread] at hcall ⊢
        exact reading_executes h hshort hcall batch
      · rw [if_neg hread] at hcall ⊢
        have hafter : request.after opts c = c := by rw [Request.after, hcall]
        have htells : request.Tells opts batch c [] := by rw [Request.Tells, hcall]
        have hfault : request.fault? opts = none := by rw [Request.fault?, hcall]; rfl
        have hdone := Executes.done (hafter ▸ h) rfl htells
        rw [hfault, List.append_nil] at hdone
        exact hdone

/-- **A command of many** is passed over if it is refused. -/
theorem executeOne_hosts (hshort : s.disk.Short ref.file) (opts : Options) (request : Request) :
    ∃ (disk : Disk) (text : Bytes), disk.Hosts ref (request.after opts c) ∧
      disk.tree = s.disk.tree ∧ request.Tells opts true c text ∧
      executeOne opts ref request s = .ok () ⟨disk, s.out ++ text⟩ := by
  have hexecutes := execute_executes h hshort opts true request
  generalize hresult : execute opts ref true request s = result at hexecutes
  cases hexecutes with
  | @done disk text hosts tree tells =>
    refine ⟨disk, text, hosts, tree, tells, ?_⟩
    unfold executeOne
    rw [hresult]
    cases request.fault? opts <;> rfl

end Alone

/-- **Commands one after the other.**  If the file stays short enough for slots, all of them run. -/
theorem forM_hosts {requests : List Request} (h : s.disk.Hosts ref c)
    (hshort : (final (requests.forM (executeOne opts ref)) s).disk.Short ref.file) :
    ∃ (disk : Disk) (texts : List Bytes),
      disk.Hosts ref (requests.foldl (Request.after opts) c) ∧ disk.tree = s.disk.tree ∧
      Telling opts true c requests texts ∧
      requests.forM (executeOne opts ref) s = .ok () ⟨disk, s.out ++ texts.flatten⟩ := by
  induction requests generalizing s c with
  | nil => exact ⟨s.disk, [], h, rfl, .nil c, by rw [List.flatten_nil, List.append_nil]; rfl⟩
  | cons request more ih =>
    have hlasts := Lasts.forM (Lasts.executeOne opts ref) (request :: more) s
    obtain ⟨disk, text, hhosts, htree, htells, hrun⟩ :=
      executeOne_hosts h (h.short hlasts hshort) opts request
    have hnext : (request :: more).forM (executeOne opts ref) s =
        more.forM (executeOne opts ref) ⟨disk, s.out ++ text⟩ := bind_ok hrun
    rw [final, hnext] at hshort
    obtain ⟨disk', texts, hhosts', htree', htelling, hrest⟩ :=
      ih (s := ⟨disk, s.out ++ text⟩) hhosts hshort
    refine ⟨disk', text :: texts, hhosts', htree'.trans htree, .cons htells htelling, ?_⟩
    rw [hnext, hrest, List.flatten_cons, List.append_assoc]

/-! ## From the opening to the end -/

theorem openStore_eq (config : Config) (s : State) : openStore config s =
    match s.disk.openStore config with
    | (disk, .opened, ref) => .ok ref { s with disk }
    | (disk, .failed error, _) => .error (.failed error) { s with disk }
    | (disk, _, _) => .error .waiting { s with disk } := by
  unfold openStore
  rw [bind_ok (show (get : Program State) s = .ok s s from rfl)]
  obtain ⟨disk, outcome, ref⟩ := s.disk.openStore config
  cases outcome <;> rfl

/-- A client opens a store, does its work and closes it. -/
def visit (config : Config) (work : HandleRef → Program Unit) : Program Unit :=
  openStore config >>= fun ref => closing ref (work ref)

theorem main_eq_visit (htrim : opts.trim = false) (path input : Bytes) : main opts path input =
    visit { Config.ofPath path with create := opts.write } (body opts input) := by
  unfold main visit
  simp only [htrim, Bool.false_eq_true, if_false]

theorem body_of_command {key : Bytes} (hsort : opts.sort = false) (hkey : opts.key = some key)
    (input : Bytes) (ref : HandleRef) :
    body opts input ref = execute opts ref false ⟨key, opts.assign⟩ := by
  unfold body
  simp only [hsort, hkey, Bool.false_eq_true, if_false]

theorem body_of_commands (hsort : opts.sort = false) (hkey : opts.key = none) (input : Bytes)
    (ref : HandleRef) : body opts input ref =
      if opts.readsInput then (Request.ofInput input).forM (executeOne opts ref) else pure () := by
  unfold body
  simp only [hsort, hkey, Bool.false_eq_true, if_false]

/-- **The commands on an input.**  If the file stays short enough for slots, all of them run; where no
flag asks for any, there is nothing to do. -/
theorem body_hosts (hfile : opts.file.isSome = true) (hsort : opts.sort = false)
    (hkey : opts.key = none) (h : s.disk.Hosts ref c) {input : Bytes}
    (hshort : (final (body opts input ref) s).disk.Short ref.file) :
    ∃ (disk : Disk) (texts : List Bytes),
      disk.Hosts ref ((Request.ofInput input).foldl (Request.after opts) c) ∧
      disk.tree = s.disk.tree ∧ Telling opts true c (Request.ofInput input) texts ∧
      body opts input ref s = .ok () ⟨disk, s.out ++ texts.flatten⟩ := by
  rw [body_of_commands hsort hkey] at hshort ⊢
  by_cases hreads : opts.readsInput = true
  · rw [if_pos hreads] at hshort ⊢
    exact forM_hosts h hshort
  · rw [if_neg hreads]
    have hidle : ∀ request : Request, request.call? opts = none := by
      intro request
      rw [Options.readsInput, hfile, hkey] at hreads
      simp only [Option.isNone_none, Bool.and_self, Bool.true_and, Bool.or_eq_true, not_or] at hreads
      rw [Request.call?, if_neg hreads.2, if_neg hreads.1.2]
      exact if_neg hreads.1.1
    obtain ⟨hsame, htelling⟩ := telling_of_idle hidle (Request.ofInput input) c
    rw [hsame]
    refine ⟨s.disk, _, h, rfl, htelling, ?_⟩
    rw [List.flatten_eq_nil_iff.2 (by simp), List.append_nil]
    rfl

end Program

end Command

/-! ## Where a text leads -/

theorem FileTree.findOrVacant_of_find {tree : FileTree} {text : Bytes} {place : Place} {index : Nat}
    (h : tree.find text = .ok (place, index)) : tree.findOrVacant text = .ok (place, some index) := by
  obtain ⟨path, hcheck, hfollow, hnode, hclosed⟩ := find_eq_ok_iff.1 h
  unfold findOrVacant
  simp only [hcheck, hclosed, hfollow, hnode, bind, Except.bind, Bool.false_eq_true, if_false]
  rfl

namespace Disk

variable {disk : Disk} {text : Bytes} {c : Contents}

/-- A text leads to a store that nobody has open, which holds the map. -/
def ClosedAt (disk : Disk) (text : Bytes) (c : Contents) : Prop :=
  ∃ place index, disk.tree.find text = .ok (place, index) ∧ disk.Closed index c

/-- A text leads to a store that nobody has open, or to a place where one is created if that is asked
for. -/
def Offers (disk : Disk) (text : Bytes) (create : Bool) (c : Contents) : Prop :=
  disk.ClosedAt text c ∨
    create = true ∧ c = .empty ∧ ∃ place, disk.tree.findOrVacant text = .ok (place, none)

/-- The file that a text leads to is short enough for slots. -/
def ShortAt (disk : Disk) (text : Bytes) : Prop :=
  ∀ bytes, disk.bytesAt? text = some bytes → bytes.length < UInt32.size

instance (disk : Disk) (text : Bytes) : Decidable (disk.ShortAt text) :=
  match h : disk.bytesAt? text with
  | none => isTrue (by rintro bytes hbytes; rw [h] at hbytes; cases hbytes)
  | some bytes =>
    decidable_of_iff (bytes.length < UInt32.size)
      (by simp only [ShortAt, h, Option.some.injEq, forall_eq'])

theorem ShortAt.short (h : disk.ShortAt text) {place : Place} {index : Nat}
    (hfind : disk.tree.find text = .ok (place, index)) : disk.Short index := by
  intro store hfile
  refine h _ ?_
  rw [bytesAt?, fileAt?_eq_some_iff.2 ⟨place, index, hfind, hfile⟩]
  rfl

theorem Short.shortAt {place : Place} {index : Nat} (h : disk.Short index)
    (hfind : disk.tree.find text = .ok (place, index)) : disk.ShortAt text := by
  intro bytes hbytes
  obtain ⟨store, hfile, rfl⟩ := Option.map_eq_some_iff.1 hbytes
  obtain ⟨place', index', hfind', hfile'⟩ := fileAt?_eq_some_iff.1 hfile
  rw [hfind, Except.ok.injEq, Prod.mk.injEq] at hfind'
  obtain ⟨-, rfl⟩ := hfind'
  exact h store hfile'

/-- What is short in the end was short on the way, if it was closed in the beginning. -/
theorem Closed.shortAt {place : Place} {index : Nat} {disk' disk'' : Disk} (h : disk.Closed index c)
    (hfind : disk.tree.find text = .ok (place, index)) (hlasts : disk.Lasts disk')
    (hrest : disk'.Lasts disk'') (hshort : disk''.ShortAt text) : disk'.ShortAt text := by
  obtain ⟨store, hfile, hclosed⟩ := h
  obtain ⟨store', hfile', hsteady, -⟩ := hlasts.file index store hfile hclosed.steady
  have hfind' : disk'.tree.find text = .ok (place, index) := by rw [hlasts.tree]; exact hfind
  have hend : disk''.Short index := hshort.short (by rw [hrest.tree]; exact hfind')
  exact (hrest.short hfile' hsteady hend).shortAt hfind'

/-- **The file that a text leads to holds the map.** -/
theorem ClosedAt.holds (h : disk.ClosedAt text c) : ∃ bytes, disk.bytesAt? text = some bytes ∧
    Holds (liveRecordsFrom Header.length bytes) c := by
  obtain ⟨place, index, hfind, store, hfile, hclosed⟩ := h
  refine ⟨store.file.bytes, ?_, hclosed.holds⟩
  rw [bytesAt?, fileAt?_eq_some_iff.2 ⟨place, index, hfind, hfile⟩]
  rfl

theorem fileFor_of_find {config : Config} {place : Place} {index : Nat}
    (hfind : disk.tree.find config.path = .ok (place, index)) :
    disk.fileFor config = .ok (disk, index) := by
  unfold Disk.fileFor
  cases config.create with
  | false => rw [hfind]; rfl
  | true => rw [FileTree.findOrVacant_of_find hfind]; rfl

/-- What is opened is a store that nobody has open yet. -/
theorem Offers.fileFor {config : Config} (h : disk.Offers config.path config.create c) :
    ∃ disk' place index, disk.fileFor config = .ok (disk', index) ∧
      disk'.tree.find config.path = .ok (place, index) ∧ disk'.Closed index c := by
  rcases h with ⟨place, index, hfind, hclosed⟩ | ⟨hcreate, rfl, place, hvacant⟩
  · exact ⟨disk, place, index, fileFor_of_find hfind, hfind, hclosed⟩
  · obtain ⟨path, hcheck, hopen, hfollow, -⟩ := FileTree.findOrVacant_ok hvacant
    have hplace := FileTree.node?_ne_folder_of_findOrVacant hvacant
    refine ⟨(disk.addFile place (.ofBytes [] disk.now)).1, place, disk.files.length, ?_, ?_, ?_⟩
    · rw [Disk.fileFor, if_pos hcreate, hvacant]
      rfl
    · exact FileTree.find_eq_ok_iff.2 ⟨path, hcheck,
        FileTree.follow_of_folders (FileTree.folders_put hplace _) hfollow,
        FileTree.node?_put_self hplace, hopen⟩
    · refine ⟨.ofBytes [] disk.now, ?_, .ofNothing _⟩
      rw [addFile]
      simp

end Disk

namespace Command

/-! ## The whole program -/

namespace Program

variable {c : Contents} {opts : Options} {disk : Disk}

/-- From the file that it opens on, a visit leaves the names as they are, and no file gets shorter. -/
theorem visit_lasts {config : Config} {work : HandleRef → Program Unit}
    (hwork : ∀ ref, (work ref).Lasts) {found : Disk} {index : Nat}
    (hfor : disk.fileFor config = .ok (found, index)) (out : Bytes) :
    found.Lasts (final (visit config work) ⟨disk, out⟩).disk := by
  have hopening := found.openIndex_lasts index config
  have hopen := openStore_eq config ⟨disk, out⟩
  rw [Disk.openStore, hfor] at hopen
  dsimp only at hopen
  generalize found.openIndex index config = result at hopening hopen
  obtain ⟨opened, outcome, ref⟩ := result
  unfold visit
  cases outcome with
  | opened =>
    have hrest := Lasts.closing ref (hwork ref) ⟨opened, out⟩
    rw [final] at hrest ⊢
    rw [bind_ok hopen]
    exact hopening.trans hrest
  | answered | failed | waiting | unavailable =>
    rw [final_of_error (bind_error hopen)]
    exact hopening

/-- **A visit** opens the store, if the file is short enough for slots in the end. -/
theorem visit_opens {config : Config} {work : HandleRef → Program Unit}
    (hwork : ∀ ref, (work ref).Lasts) (hoffers : disk.Offers config.path config.create c)
    {out : Bytes} (hshort : (final (visit config work) ⟨disk, out⟩).disk.ShortAt config.path) :
    ∃ (opened : Disk) (ref : HandleRef) (place : Place),
      opened.tree.find config.path = .ok (place, ref.file) ∧ opened.Hosts ref c ∧
      visit config work ⟨disk, out⟩ = closing ref (work ref) ⟨opened, out⟩ ∧
      (final (closing ref (work ref)) ⟨opened, out⟩).disk.Short ref.file := by
  obtain ⟨found, place, index, hfor, hfind, hclosed⟩ := hoffers.fileFor
  have hlasts := visit_lasts hwork hfor out
  have hend : (final (visit config work) ⟨disk, out⟩).disk.Short index :=
    hshort.short (by rw [hlasts.tree]; exact hfind)
  obtain ⟨opened, hopened, hhosts⟩ := hclosed.openIndex (hclosed.short hlasts hend) config
  have hopen := openStore_eq config ⟨disk, out⟩
  rw [Disk.openStore, hfor] at hopen
  dsimp only at hopen
  rw [hopened] at hopen
  have hvisit : visit config work ⟨disk, out⟩ =
      closing ⟨index, found.nextClient⟩ (work ⟨index, found.nextClient⟩) ⟨opened, out⟩ :=
    bind_ok hopen
  have hopening := found.openIndex_lasts index config
  rw [hopened] at hopening
  refine ⟨opened, ⟨index, found.nextClient⟩, place, ?_, hhosts, hvisit, ?_⟩
  · rw [hopening.tree]
    exact hfind
  · rw [final, hvisit] at hend
    exact hend

theorem final_closing (ref : HandleRef) (work : Program Unit) (s : State) :
    (final (closing ref work) s).disk = (final work s).disk.close ref := by
  unfold final closing
  cases work s <;> rfl

/-- **The end of a visit** leaves the store closed. -/
theorem closing_closed {ref : HandleRef} {work : Program Unit} {s s' : State} {place : Place}
    {text : Bytes} {fault : Option TokenFault} (hrun : work s = ended fault s')
    (hfind : s'.disk.tree.find text = .ok (place, ref.file)) (hhosts : s'.disk.Hosts ref c)
    (hshort : s'.disk.Short ref.file) : (s'.disk.close ref).ClosedAt text c ∧
      closing ref work s = ended fault { s' with disk := s'.disk.close ref } := by
  refine ⟨⟨place, ref.file, ?_, hhosts.close hshort⟩, ?_⟩
  · rw [(s'.disk.close_lasts ref).tree]
    exact hfind
  · unfold closing
    rw [hrun]
    cases fault <;> rfl

/-- What is short after the closing was short before. -/
theorem short_of_closing {ref : HandleRef} {work : Program Unit} {s : State} (hwork : work.Lasts)
    (h : s.disk.Hosts ref c) (hshort : (final (closing ref work) s).disk.Short ref.file) :
    (final work s).disk.Short ref.file := by
  obtain ⟨store, hfile, hhosts⟩ := h
  obtain ⟨store', hfile', hsteady, -⟩ := (hwork s).file ref.file store hfile hhosts.steady
  rw [final_closing] at hshort
  exact ((final work s).disk.close_lasts ref).short hfile' hsteady hshort

theorem final_ended {work : Program Unit} {fault : Option TokenFault} {s s' : State}
    (h : work s = ended fault s') : final work s = s' := by
  rw [final, h]
  cases fault <;> rfl

/-- **The program with a key** runs one command. -/
theorem main_command {path key input : Bytes} (htrim : opts.trim = false) (hsort : opts.sort = false)
    (hkey : opts.key = some key) (hoffers : disk.Offers path opts.write c)
    (hshort : (final (main opts path input) ⟨disk, []⟩).disk.ShortAt path) :
    ∃ (disk' : Disk) (text : Bytes),
      disk'.ClosedAt path (Request.after opts c ⟨key, opts.assign⟩) ∧
      Request.Tells ⟨key, opts.assign⟩ opts false c text ∧
      main opts path input ⟨disk, []⟩ =
        ended (Request.fault? ⟨key, opts.assign⟩ opts) ⟨disk', text⟩ := by
  rw [main_eq_visit htrim] at hshort ⊢
  obtain ⟨opened, ref, place, hfind, hhosts, hvisit, hend⟩ :=
    visit_opens (Lasts.body opts input) hoffers hshort
  rw [hvisit]
  rw [body_of_command hsort hkey] at hend ⊢
  have hwork := Lasts.execute opts ref false ⟨key, opts.assign⟩
  have hdone := short_of_closing hwork hhosts hend
  have hexecutes := execute_executes (s := ⟨opened, []⟩) hhosts
    (hhosts.short (hwork ⟨opened, []⟩) hdone) opts false ⟨key, opts.assign⟩
  generalize hresult : execute opts ref false ⟨key, opts.assign⟩ ⟨opened, []⟩ = result at hexecutes
  cases hexecutes with
  | @done after text hosts tree tells =>
    rw [final_ended hresult] at hdone
    obtain ⟨hclosed, hclosing⟩ := closing_closed hresult (tree ▸ hfind) hosts hdone
    exact ⟨_, _, hclosed, tells, hclosing⟩

/-- **The program without a key** runs the commands on its input. -/
theorem main_commands {path input : Bytes} (hfile : opts.file.isSome = true)
    (htrim : opts.trim = false) (hsort : opts.sort = false) (hkey : opts.key = none)
    (hoffers : disk.Offers path opts.write c)
    (hshort : (final (main opts path input) ⟨disk, []⟩).disk.ShortAt path) :
    ∃ (disk' : Disk) (texts : List Bytes),
      disk'.ClosedAt path ((Request.ofInput input).foldl (Request.after opts) c) ∧
      Telling opts true c (Request.ofInput input) texts ∧
      main opts path input ⟨disk, []⟩ = .ok () ⟨disk', texts.flatten⟩ := by
  rw [main_eq_visit htrim] at hshort ⊢
  obtain ⟨opened, ref, place, hfind, hhosts, hvisit, hend⟩ :=
    visit_opens (Lasts.body opts input) hoffers hshort
  have hdone := short_of_closing (Lasts.body opts input ref) hhosts hend
  obtain ⟨after, texts, hosts, tree, htelling, hrun⟩ :=
    body_hosts (s := ⟨opened, []⟩) hfile hsort hkey hhosts hdone
  have hended : body opts input ref ⟨opened, []⟩ = ended none ⟨after, [] ++ texts.flatten⟩ := hrun
  rw [final_ended hended] at hdone
  obtain ⟨hclosed, hclosing⟩ := closing_closed hended (tree ▸ hfind) hosts hdone
  rw [hvisit]
  exact ⟨_, _, hclosed, htelling, hclosing⟩

end Program

/-- What the program leaves behind besides the disk, if it was refused for itself at most. -/
def reportOf (path : Bytes) (fault : Option TokenFault) (out : Bytes) : Report :=
  match fault with
  | none => ⟨some 0, out, []⟩
  | some fault => ⟨some 1, out, utf8 "dkp: " ++ Utf8.repair path ++
    utf8 (": " ++ (Error.invalidData fault).message ++ "\n")⟩

section Run

variable {disk : Disk} {args : List Bytes} {path input : Bytes} {c : Contents}

theorem run_fst (hfile : (Options.parse args).file = some path) (disk : Disk) (input : Bytes) :
    (run disk args input).1 =
      (Program.final (Program.main (Options.parse args) path input) ⟨disk, []⟩).disk := by
  unfold run Program.final
  dsimp only
  rw [hfile]
  dsimp only
  cases Program.main (Options.parse args) path input ⟨disk, []⟩ with
  | ok _ s => rfl
  | error halt s => cases halt <;> rfl

theorem run_of_ended (hfile : (Options.parse args).file = some path) {disk' : Disk}
    {fault : Option TokenFault} {text : Bytes}
    (h : Program.main (Options.parse args) path input ⟨disk, []⟩ =
      Program.ended fault ⟨disk', text⟩) :
    run disk args input = (disk', reportOf path fault text) := by
  unfold run
  dsimp only
  rw [hfile]
  dsimp only
  rw [h]
  cases fault <;> rfl

/-- A run on a store that is there leaves the names as they are, and no file gets shorter. -/
theorem run_lasts (hfile : (Options.parse args).file = some path)
    (htrim : (Options.parse args).trim = false) {place : Place} {index : Nat}
    (hfind : disk.tree.find path = .ok (place, index)) (input : Bytes) :
    disk.Lasts (run disk args input).1 := by
  rw [run_fst hfile, Program.main_eq_visit htrim]
  exact Program.visit_lasts (Program.Lasts.body _ _) (Disk.fileFor_of_find hfind) []

variable (hfile : (Options.parse args).file = some path) (htrim : (Options.parse args).trim = false)
  (hoffers : disk.Offers path (Options.parse args).write c)

include hfile htrim hoffers

/-- From the file that it opens on, a run lets no file get shorter. -/
theorem exists_found (input : Bytes) : ∃ (found : Disk) (place : Place) (index : Nat),
    found.tree.find path = .ok (place, index) ∧ found.Closed index c ∧
      found.Lasts (run disk args input).1 := by
  rw [run_fst hfile, Program.main_eq_visit htrim]
  obtain ⟨found, place, index, hfor, hfind, hclosed⟩ := @Disk.Offers.fileFor disk c
    { Config.ofPath path with create := (Options.parse args).write } hoffers
  exact ⟨found, place, index, hfind, hclosed,
    Program.visit_lasts (Program.Lasts.body _ _) hfor []⟩

variable (hsort : (Options.parse args).sort = false) (hshort : (run disk args input).1.ShortAt path)

include hsort hshort

/-- **A run with a key** comes to one command. -/
theorem run_command {request : Request} (hkey : (Options.parse args).key = some request.key)
    (hassign : (Options.parse args).assign = request.assign) : ∃ (disk' : Disk) (text : Bytes),
      run disk args input = (disk', reportOf path (request.fault? (Options.parse args)) text) ∧
      disk'.ClosedAt path (request.after (Options.parse args) c) ∧
      request.Tells (Options.parse args) false c text := by
  rw [run_fst hfile] at hshort
  obtain ⟨disk', text, hclosed, htells, hmain⟩ :=
    Program.main_command htrim hsort hkey hoffers hshort
  rw [hassign] at hclosed htells hmain
  exact ⟨disk', text, run_of_ended hfile hmain, hclosed, htells⟩

/-- **A run without a key** comes to the commands on its input. -/
theorem run_commands (hkey : (Options.parse args).key = none) :
    ∃ (disk' : Disk) (texts : List Bytes), run disk args input = (disk', ⟨some 0, texts.flatten, []⟩) ∧
      disk'.ClosedAt path ((Request.ofInput input).foldl (Request.after (Options.parse args)) c) ∧
      Telling (Options.parse args) true c (Request.ofInput input) texts := by
  rw [run_fst hfile] at hshort
  obtain ⟨disk', texts, hclosed, htelling, hmain⟩ :=
    Program.main_commands (by rw [hfile]; rfl) htrim hsort hkey hoffers hshort
  have hended : Program.main (Options.parse args) path input ⟨disk, []⟩ =
      Program.ended none ⟨disk', texts.flatten⟩ := hmain
  exact ⟨disk', texts, run_of_ended hfile hended, hclosed, htelling⟩

end Run

end Command

end RecordStore
