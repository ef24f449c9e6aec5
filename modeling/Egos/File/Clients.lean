import Egos.File.Names
import Egos.Lib.Ledger
import Mathlib.Data.List.TakeWhile

/-!
# Clients that remove and create files at the same time

Any number of clients run `remove(path)` and `fopen(path, "w")`. A step is one call to a server by one
of them, so the calls of different clients come in any order.
-/
namespace Egos.File.Clients

open Egos.Lib Egos.Disk Egos.Dirsvr
open Reference (RefFile)

set_option autoImplicit false

/-- A path is a C string. -/
structure Path where
  chars : List Byte
  nonzero : Nonzero chars

structure User where
  uid : BitVec 32
  env : GrassEnv

inductive Client where
  | idle
  /-- What is left of a `remove`, and whether it has deleted the file and removed the entry. -/
  | removing (program : ClientM Bool) (deleted unlinked : Bool)
  /-- What is left of an `fopen`. -/
  | opening (program : ClientM (Option Fid))

/-- The servers, the clients, and what each `remove` has done that has returned. -/
structure Site (φ : Type) (n : Nat) where
  servers : Servers φ
  clients : Fin n → Client
  removes : List (Bool × Bool)

/-- A client begins, or it goes on with the next call to a server or returns. -/
inductive Step (n : Nat) where
  | remove (i : Fin n) (path : Path)
  | fopen (i : Fin n) (path : Path)
  | go (i : Fin n)

/-- The mode `"w"`. -/
def writeMode : List Byte := [0x77]

/-- Whether the call has deleted a file. -/
def deletes (files files' : FileTable) : ServerCall → Bool
  | .fileDelete fid => (files fid).isSome && (files' fid).isNone
  | _ => false

/-- Whether the call has removed an entry. -/
def unlinks (files files' : FileTable) : ServerCall → Bool
  | .dirRemove dir name _ => decide (entryOf files' dir name ≠ entryOf files dir name)
  | _ => false

theorem deletes_fileDelete (files files' : FileTable) (fid : Fid) :
    deletes files files' (.fileDelete fid) = ((files fid).isSome && (files' fid).isNone) := rfl

theorem deletes_self (files : FileTable) (c : ServerCall) : deletes files files c = false := by
  cases c with
  | fileDelete fid => cases hfile : files fid <;> rw [deletes_fileDelete, hfile] <;> rfl
  | _ => rfl

theorem unlinks_dirRemove (files files' : FileTable) (dir fid : Fid) (name : List Byte) :
    unlinks files files' (.dirRemove dir name fid) =
      decide (entryOf files' dir name ≠ entryOf files dir name) := rfl

/-- The entry that will be removed, and the file that was deleted. -/
def Client.doomed : Client → Option ((Fid × List Byte) × Fid)
  | .removing (.call (.dirRemove dir name fid) _) true _ => some ((dir, name), fid)
  | _ => none

/-- The file that was created and has no name yet. -/
def Client.fresh : Client → Option Fid
  | .opening (.call (.dirInsert _ _ fid) _) => some fid
  | _ => none

/-- The entry that comes next. -/
def target : ClientM Bool → Option (Fid × List Byte)
  | .call (.dirRemove dir name _) _ => some (dir, name)
  | _ => none

section

variable {φ : Type} {n : Nat} (fs : FileService φ) (rounds : Nat) (users : Fin n → User)

abbrev SiteM (φ : Type) (n : Nat) := EStateM Stop (Site φ n)

def setClient (i : Fin n) (client : Client) : SiteM φ n Unit :=
  modify fun s => { s with clients := Function.update s.clients i client }

def call (i : Fin n) (c : ServerCall) : SiteM φ n c.Reply :=
  onPart Site.servers (fun s servers => { s with servers := servers })
    (serveCall fs rounds (users i).uid c)

/-- The next call, or the return. -/
def goOn (i : Fin n) : SiteM φ n Unit := do
  let s ← get
  match s.clients i with
  | .idle => pure ()
  | .removing (.done _) deleted unlinked =>
    setClient i .idle
    modify fun s => { s with removes := s.removes ++ [(deleted, unlinked)] }
  | .removing (.call c next) deleted unlinked =>
    let r ← call fs rounds users i c
    let s' ← get
    let files := fs.files s.servers.files
    let files' := fs.files s'.servers.files
    setClient i (.removing (next r) (deleted || deletes files files' c)
      (unlinked || unlinks files files' c))
  | .opening (.done _) => setClient i .idle
  | .opening (.call c next) =>
    let r ← call fs rounds users i c
    setClient i (.opening (next r))

/-- A client that is not idle does not begin anything. -/
def Step.perform : Step n → SiteM φ n Unit
  | .remove i path => do
    let s ← get
    match s.clients i with
    | .idle => setClient i (.removing (File.remove (users i).env path.chars) false false)
    | .removing .. | .opening _ => pure ()
  | .fopen i path => do
    let s ← get
    match s.clients i with
    | .idle => setClient i (.opening (File.fopen (users i).env path.chars writeMode))
    | .removing .. | .opening _ => pure ()
  | .go i => goOn fs rounds users i

/-! ## The property -/

/-- The files as all servers have them. -/
def Site.files (s : Site φ n) : FileTable := fs.files s.servers.files

/-- Every entry of the directories stands for a file that exists, and no two entries for the same file,
unless it is a directory. -/
structure Tidy (directories : List Fid) (files : FileTable) : Prop where
  allocated : ∀ dir ∈ directories, ∀ name fid, entryOf files dir name = some fid → files fid ≠ none
  single : ∀ dir ∈ directories, ∀ dir' ∈ directories, ∀ name name' fid, fid ∉ directories →
    entryOf files dir name = some fid → entryOf files dir' name' = some fid →
      dir = dir' ∧ name = name'

/-- When nobody is in a call, the directories are tidy. Each `remove` has removed both or neither. -/
structure InOrder (directories : List Fid) (s : Site φ n) : Prop where
  tidy : (∀ i, s.clients i = .idle) → Tidy directories (s.files fs)
  removes : ∀ r ∈ s.removes, r.1 = r.2

/-- The servers never fail, and every state of the run is in order. -/
def AlwaysInOrder (directories : List Fid) : List (Step n) → Site φ n → Prop
  | [], s => InOrder fs directories s
  | x :: rest, s => InOrder fs directories s ∧ Outcome (x.perform fs rounds users)
      (fun _ s' => AlwaysInOrder directories rest s') (fun _ _ => False) s

/-- The entry still stands for the file, which is no directory. The user may remove the entry, and
nobody else is about to. -/
structure Removable (directories : List Fid) (uid : BitVec 32) (fid : Fid) (s : Site φ n)
    (entry : Fid × List Byte) : Prop where
  plain : fid ∉ directories
  directory : entry.1 ∈ directories
  found : entryOf (s.files fs) entry.1 entry.2 = some fid
  writable : writable (s.files fs) uid entry.1 = true
  firm : ∀ j, (s.clients j).doomed.map Prod.fst ≠ some entry

/-- What must hold before the next call of a client. Directories, and nothing else, are searched, and
they are neither deleted nor truncated. A file is deleted only if its entry is removable, and if no file
was deleted, there is no entry for the user to remove. -/
def Client.Careful (directories : List Fid) (uid : BitVec 32) (s : Site φ n) : Client → Prop
  | .removing (.call (.dirLookup dir _) _) _ _ | .opening (.call (.dirLookup dir _) _)
  | .opening (.call (.dirInsert dir _ _) _) => dir ∈ directories
  | .removing (.call (.fileDelete fid) next) _ _ => writable (s.files fs) uid fid = true →
      ∃ entry ∈ target (next true), Removable fs directories uid fid s entry
  | .removing (.call (.dirRemove dir name fid) _) deleted _ => dir ∈ directories ∧
      (deleted = false → writable (s.files fs) uid dir = true →
        (entryOf (s.files fs) dir name).map Fid.fileNo ≠ some fid.fileNo)
  | .opening (.call (.fileSetsize fid _) _) => fid ∉ directories
  | _ => True

def Step.Careful (directories : List Fid) (s : Site φ n) : Step n → Prop
  | .go i => (s.clients i).Careful fs directories (users i).uid s
  | .remove .. | .fopen .. => True

def AllCareful (directories : List Fid) : List (Step n) → Site φ n → Prop
  | [], _ => True
  | x :: rest, s => x.Careful fs users directories s ∧ Outcome (x.perform fs rounds users)
      (fun _ s' => AllCareful directories rest s') (fun _ _ => True) s

section

variable {fs} {rounds} {users} {directories : List Fid} {uid : BitVec 32} {s : Site φ n}

instance (fid : Fid) (entry : Fid × List Byte) :
    Decidable (Removable fs directories uid fid s entry) :=
  decidable_of_iff (fid ∉ directories ∧ entry.1 ∈ directories ∧
      entryOf (s.files fs) entry.1 entry.2 = some fid ∧ writable (s.files fs) uid entry.1 = true ∧
      ∀ j, (s.clients j).doomed.map Prod.fst ≠ some entry)
    ⟨fun ⟨h₁, h₂, h₃, h₄, h₅⟩ => ⟨h₁, h₂, h₃, h₄, h₅⟩,
      fun h => ⟨h.plain, h.directory, h.found, h.writable, h.firm⟩⟩

instance (fid : Fid) : ∀ o : Option (Fid × List Byte),
    Decidable (∃ entry ∈ o, Removable fs directories uid fid s entry)
  | none => isFalse fun ⟨_, h, _⟩ => nomatch h
  | some entry => decidable_of_iff (Removable fs directories uid fid s entry)
      ⟨fun h => ⟨entry, rfl, h⟩, fun ⟨_, he, h⟩ => Option.some.inj he ▸ h⟩

instance : ∀ client : Client, Decidable (client.Careful fs directories uid s)
  | .removing (.call (.dirLookup dir _) _) _ _ | .opening (.call (.dirLookup dir _) _)
  | .opening (.call (.dirInsert dir _ _) _) => inferInstanceAs (Decidable (dir ∈ directories))
  | .removing (.call (.fileDelete fid) next) _ _ =>
    inferInstanceAs (Decidable (writable (s.files fs) uid fid = true →
      ∃ entry ∈ target (next true), Removable fs directories uid fid s entry))
  | .removing (.call (.dirRemove dir name fid) _) deleted _ =>
    inferInstanceAs (Decidable (dir ∈ directories ∧
      (deleted = false → writable (s.files fs) uid dir = true →
        (entryOf (s.files fs) dir name).map Fid.fileNo ≠ some fid.fileNo)))
  | .opening (.call (.fileSetsize fid _) _) => inferInstanceAs (Decidable (fid ∉ directories))
  | .idle | .removing (.done _) _ _ | .opening (.done _) => isTrue trivial
  | .removing (.call (.dirInsert ..) _) _ _ | .removing (.call (.fileCreate ..) _) _ _
  | .removing (.call (.fileWrite ..) _) _ _ | .removing (.call (.fileSetsize ..) _) _ _ =>
    isTrue trivial
  | .opening (.call (.dirRemove ..) _) | .opening (.call (.fileCreate ..) _)
  | .opening (.call (.fileWrite ..) _) | .opening (.call (.fileDelete ..) _) => isTrue trivial

instance : ∀ x : Step n, Decidable (x.Careful fs users directories s)
  | .go i => inferInstanceAs (Decidable ((s.clients i).Careful fs directories (users i).uid s))
  | .remove .. | .fopen .. => isTrue trivial

instance AllCareful.decidable : ∀ steps, DecidablePred (AllCareful fs rounds users directories steps)
  | [] => fun _ => isTrue trivial
  | x :: rest => fun s =>
    have := AllCareful.decidable rest
    inferInstanceAs (Decidable (x.Careful fs users directories s ∧
      Outcome (x.perform fs rounds users) (fun _ s' => AllCareful fs rounds users directories rest s')
        (fun _ _ => True) s))

end

end

/-! ## What is left of a call -/

section

variable {directories : List Fid} {files files' : FileTable} {uid : BitVec 32}

/-- The states of `remove`, with what it has done so far. -/
inductive Removing (directories : List Fid) (files : FileTable) (uid : BitVec 32) :
    ClientM Bool → Bool → Bool → Prop where
  | lookup {dir : Fid} {name : List Byte} {next : Option Fid → ClientM Bool} (hpos : name ≠ [])
      (hname : Nonzero name) (hnext : ∀ r, Removing directories files uid (next r) false false) :
      Removing directories files uid (.call (.dirLookup dir name) next) false false
  | delete {dir fid : Fid} {name : List Byte} (hname : Nonzero name) :
      Removing directories files uid
        (.call (.fileDelete fid) fun _ => .call (.dirRemove dir name fid) .done) false false
  | unlink {dir fid : Fid} {name : List Byte} {deleted : Bool} (hname : Nonzero name)
      (hdeleted : deleted = true →
        dir ∈ directories ∧ fid ∉ directories ∧ writable files uid dir = true) :
      Removing directories files uid (.call (.dirRemove dir name fid) .done) deleted false
  | done {r deleted : Bool} : Removing directories files uid (.done r) deleted deleted

/-- The states of `fopen` but the one in which the file has no name. -/
inductive Opening : ClientM (Option Fid) → Prop where
  | lookup {dir : Fid} {name : List Byte} {next : Option Fid → ClientM (Option Fid)}
      (hpos : name ≠ []) (hname : Nonzero name) (hnext : ∀ r, Opening (next r)) :
      Opening (.call (.dirLookup dir name) next)
  | create {dir : Fid} {path : List Byte} (hserver : dir.server ≠ 0)
      (hpos : lastComponent path ≠ []) (hname : Nonzero (lastComponent path)) :
      Opening (createIn dir path true)
  | truncate {fid : Fid} : Opening (opened fid true)
  | done {r : Option Fid} : Opening (.done r)

/-- What `fopen` does when it has created a file. -/
def inserting (dir : Fid) (name : List Byte) (fid : Fid) : ClientM (Option Fid) :=
  .call (.dirInsert dir name fid) fun (b : Bool) => if b then opened fid true else pure none

inductive Phase (directories : List Fid) (files : FileTable) (uid : BitVec 32) : Client → Prop where
  | idle : Phase directories files uid .idle
  | removing {m : ClientM Bool} {deleted unlinked : Bool}
      (h : Removing directories files uid m deleted unlinked) :
      Phase directories files uid (.removing m deleted unlinked)
  | opening {m : ClientM (Option Fid)} (h : Opening m) : Phase directories files uid (.opening m)
  | inserting {dir fid : Fid} {name : List Byte} (hserver : fid.server ≠ 0)
      (hplain : fid ∉ directories) (hpos : name ≠ []) (hname : Nonzero name) :
      Phase directories files uid (.opening (inserting dir name fid))

theorem Removing.mono {m : ClientM Bool} {deleted unlinked : Bool}
    (h : Removing directories files uid m deleted unlinked)
    (hw : ∀ dir ∈ directories, writable files uid dir = true → writable files' uid dir = true) :
    Removing directories files' uid m deleted unlinked := by
  induction h with
  | lookup hpos hname _ ih => exact .lookup hpos hname ih
  | delete hname => exact .delete hname
  | unlink hname hdeleted =>
    apply Removing.unlink hname
    intro hd
    obtain ⟨hdir, hplain, hwritable⟩ := hdeleted hd
    exact ⟨hdir, hplain, hw _ hdir hwritable⟩
  | done => exact .done

theorem lastComponent_nonzero {path : List Byte} (h : Nonzero path) :
    Nonzero (lastComponent path) := by
  intro c hc
  have hmem := List.mem_reverse.mp ((List.takeWhile_prefix _).subset (List.mem_reverse.mp hc))
  exact h c hmem

theorem lastComponent_whole {path : List Byte} (h : slash ∉ path) : lastComponent path = path := by
  unfold lastComponent
  rw [List.takeWhile_eq_self_iff.mpr, List.reverse_reverse]
  intro c hc
  rw [decide_eq_true_eq]
  rintro rfl
  exact h (List.mem_reverse.mp hc)

/-- What holds of a program that looks up a name first, and of the rest of a program behind a search,
holds of the program with the search. -/
theorem walk_induction {α : Type} {P : ClientM α → Prop} {k : Found → ClientM α}
    (hlookup : ∀ dir name next, name ≠ [] → Nonzero name → (∀ r, P (next r)) →
      P (.call (.dirLookup dir name) next))
    (hk : ∀ found, P (k found)) {path : List Byte} (hpath : Nonzero path) {component : List Byte}
    (hcomponent : Nonzero component) (dir : Fid) : P (walk false path component dir >>= k) := by
  have hsuffix : Nonzero Mkfs.dirSuffix := by
    unfold Nonzero
    decide +kernel
  induction path generalizing component dir with
  | nil =>
    unfold walk
    split
    · exact hk _
    · rename_i hpos
      apply hlookup dir (component ++ [])
      · rw [List.append_nil]
        exact hpos
      · rw [List.append_nil]
        exact hcomponent
      · intro r
        cases r with
        | none => exact hk _
        | some fid => exact hk _
  | cons c path ih =>
    have hpath' : Nonzero path := fun c' hc' => hpath c' (List.mem_cons_of_mem c hc')
    unfold walk
    split
    · apply hlookup dir (component ++ Mkfs.dirSuffix)
      · exact List.append_ne_nil_of_right_ne_nil _ (List.cons_ne_nil _ _)
      · intro c' hc'
        obtain hc' | hc' := List.mem_append.mp hc'
        · exact hcomponent c' hc'
        · exact hsuffix c' hc'
      · intro r
        cases r with
        | none => exact hk _
        | some fid => exact ih hpath' (fun c' hc' => absurd hc' List.not_mem_nil) fid
    · apply ih hpath'
      intro c' hc'
      obtain hc' | hc' := List.mem_append.mp hc'
      · exact hcomponent c' hc'
      · rw [List.mem_singleton.mp hc']
        exact hpath c List.mem_cons_self

theorem flookup_induction {α : Type} {P : ClientM α → Prop} {k : Found → ClientM α}
    (hlookup : ∀ dir name next, name ≠ [] → Nonzero name → (∀ r, P (next r)) →
      P (.call (.dirLookup dir name) next))
    (hk : ∀ found, P (k found)) (env : GrassEnv) {path : List Byte} (hpath : Nonzero path) :
    P (flookup env path false >>= k) := by
  have hnil : Nonzero [] := fun c hc => absurd hc List.not_mem_nil
  unfold flookup
  split
  · apply walk_induction hlookup hk _ hnil
    exact fun c hc => hpath c ((List.dropWhile_suffix _).subset hc)
  · exact walk_induction hlookup hk hpath hnil _

/-- `remove` after the lookup. -/
def removeFound (path : List Byte) : Found → ClientM Bool
  | .missing _ | .lost => pure false
  | .file dir fid => do
    let _ ← fileDelete fid
    dirRemove dir (lastComponent path) fid

theorem remove_eq (env : GrassEnv) (path : List Byte) :
    File.remove env path = flookup env path false >>= removeFound path := by
  apply congrArg (flookup env path false >>= ·)
  funext found
  cases found <;> rfl

theorem removing_start (env : GrassEnv) (path : Path) :
    Removing directories files uid (File.remove env path.chars) false false := by
  rw [remove_eq]
  apply flookup_induction (P := fun m => Removing directories files uid m false false)
  · exact fun dir name next hpos hname hnext => .lookup hpos hname hnext
  · intro found
    cases found with
    | missing | lost => exact .done
    | file dir fid => exact .delete (lastComponent_nonzero path.nonzero)
  · exact path.nonzero

theorem opening_found {path : List Byte} (hpath : Nonzero path) (hpos : path ≠ []) (found : Found) :
    Opening (openFound path true true found) := by
  cases found with
  | file dir fid => exact .truncate
  | lost => exact .done
  | missing dir =>
    by_cases hserver : dir.server = 0
    · have hnone : openFound path true true (.missing dir) = .done none :=
        if_pos (by rw [hserver]; rfl)
      rw [hnone]
      exact .done
    · have hnext : openFound path true true (.missing dir) =
          if slash ∈ path ∧ lastComponent path = [] then .done none else createIn dir path true :=
        if_neg (by simpa using hserver)
      rw [hnext]
      by_cases hlast : slash ∈ path ∧ lastComponent path = []
      · rw [if_pos hlast]
        exact .done
      · rw [if_neg hlast]
        apply Opening.create hserver
        · intro hnil
          by_cases hslash : slash ∈ path
          · exact hlast ⟨hslash, hnil⟩
          · rw [lastComponent_whole hslash] at hnil
            exact hpos hnil
        · exact lastComponent_nonzero hpath

/-- Without a path `fopen` opens the current directory. -/
theorem opening_start (env : GrassEnv) (path : Path) :
    Opening (File.fopen env path.chars writeMode) := by
  change Opening (flookup env path.chars false >>= openFound path.chars true true)
  by_cases hempty : path.chars = []
  · rw [hempty]
    exact .truncate
  · apply flookup_induction
    · exact fun dir name next hpos hname hnext => .lookup hpos hname hnext
    · exact opening_found path.nonzero hempty
    · exact path.nonzero

end

end Egos.File.Clients
