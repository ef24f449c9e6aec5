import Egos.File.Directory
import Egos.File.Service
import Egos.Lib.Calls

/-!
# Programs that use files and directories

`fopen` and `remove` of `lib/stdio.c` and `dir_create2` of `lib/dir.c` as programs that call the file
servers and the directory server.
-/
namespace Egos.File

open Egos.Lib Egos.Disk Egos.Dirsvr

set_option autoImplicit false

/-- The calls of `lib/file.c` and `lib/dir.c` that the programs make. -/
inductive ServerCall where
  | dirLookup (dir : Fid) (name : List Byte)
  | dirInsert (dir : Fid) (name : List Byte) (fid : Fid)
  | dirRemove (dir : Fid) (name : List Byte) (fid : Fid)
  | fileCreate (server : BitVec 32) (mode : BitVec 16)
  | fileWrite (fid : Fid) (offset : Nat) (data : List Byte)
  | fileSetsize (fid : Fid) (size : Nat)
  | fileDelete (fid : Fid)

def ServerCall.Reply : ServerCall → Type
  | .dirLookup .. => Option Fid
  | .fileCreate .. => Option (BitVec 32)
  | .dirInsert .. | .dirRemove .. | .fileWrite .. | .fileSetsize .. | .fileDelete .. => Bool

abbrev ClientM := Calls ServerCall ServerCall.Reply

def dirLookup (dir : Fid) (name : List Byte) : ClientM (Option Fid) :=
  Calls.ask (ServerCall.dirLookup dir name)

def dirInsert (dir : Fid) (name : List Byte) (fid : Fid) : ClientM Bool :=
  Calls.ask (ServerCall.dirInsert dir name fid)

def dirRemove (dir : Fid) (name : List Byte) (fid : Fid) : ClientM Bool :=
  Calls.ask (ServerCall.dirRemove dir name fid)

def fileCreate (server : BitVec 32) (mode : BitVec 16) : ClientM (Option (BitVec 32)) :=
  Calls.ask (ServerCall.fileCreate server mode)

def fileWrite (fid : Fid) (offset : Nat) (data : List Byte) : ClientM Bool :=
  Calls.ask (ServerCall.fileWrite fid offset data)

def fileSetsize (fid : Fid) (size : Nat) : ClientM Bool := Calls.ask (ServerCall.fileSetsize fid size)

def fileDelete (fid : Fid) : ClientM Bool := Calls.ask (ServerCall.fileDelete fid)

/-! ## `lib/stdio.c` -/

/-- `root` and `cwd` of `GRASS_ENV`. -/
structure GrassEnv where
  root : Fid
  cwd : Fid

/-- `P_FILE_DEFAULT`. -/
def fileDefault : BitVec 16 :=
  Permission.ownerRead ||| Permission.ownerWrite ||| Permission.otherRead

def slash : Byte := 0x2f

/-- How `flookup` ends, with what it has stored in `*p_dir` and `*p_fid`. -/
inductive Found where
  | file (dir fid : Fid)
  /-- Only the last component could not be mapped. -/
  | missing (dir : Fid)
  | lost

/-- The loop of `flookup` over the rest of a path, behind the beginning of a component. -/
def walk (isDir : Bool) : List Byte → List Byte → Fid → ClientM Found
  | [], component, dir =>
    if component = [] then pure (.file dir dir)
    else do
      match ← dirLookup dir (component ++ if isDir then Mkfs.dirSuffix else []) with
      | none => pure (.missing dir)
      | some fid => pure (.file dir fid)
  | c :: path, component, dir =>
    if c = slash then do
      match ← dirLookup dir (component ++ Mkfs.dirSuffix) with
      | none => pure .lost
      | some fid => walk isDir path [] fid
    else walk isDir path (component ++ [c]) dir

def flookup (env : GrassEnv) (path : List Byte) (isDir : Bool) : ClientM Found :=
  if path.head? = some slash then walk isDir (path.dropWhile (· = slash)) [] env.root
  else walk isDir path [] env.cwd

/-- What lies behind the last slash, if there is one. -/
def lastComponent (path : List Byte) : List Byte := (path.reverse.takeWhile (· ≠ slash)).reverse

/-- What the mode says: whether to create the file and whether to truncate it. -/
def openMode : List Byte → Option (Bool × Bool)
  | [] => none
  | c :: rest =>
    if c = 0x72 then some (false, false)
    else if c = 0x77 then some (true, rest.head? != some 0x2b)
    else if c = 0x61 then some (true, false)
    else none

/-- The end of `fopen`, which cannot fail. -/
def opened (fid : Fid) (truncate : Bool) : ClientM (Option Fid) := do
  if truncate then
    let _ ← fileSetsize fid 0
    pure (some fid)
  else pure (some fid)

/-- A new file with the name of the last component. -/
def createIn (dir : Fid) (path : List Byte) (truncate : Bool) : ClientM (Option Fid) := do
  match ← fileCreate dir.server fileDefault with
  | none => pure none
  | some fileNo =>
    if ← dirInsert dir (lastComponent path) ⟨dir.server, fileNo⟩ then
      opened ⟨dir.server, fileNo⟩ truncate
    else pure none

/-- `fopen` after the lookup. -/
def openFound (path : List Byte) (create truncate : Bool) : Found → ClientM (Option Fid)
  | .file _ fid => opened fid truncate
  | .lost => pure none
  | .missing dir =>
    if !create || dir.server = 0 then pure none
    else if slash ∈ path ∧ lastComponent path = [] then pure none
    else createIn dir path truncate

def fopen (env : GrassEnv) (path mode : List Byte) : ClientM (Option Fid) :=
  match openMode mode with
  | none => pure none
  | some (create, truncate) => do
    let found ← flookup env path false
    openFound path create truncate found

/-- Whether it returns 0. -/
def remove (env : GrassEnv) (path : List Byte) : ClientM Bool := do
  match ← flookup env path false with
  | .missing _ | .lost => pure false
  | .file dir fid =>
    let _ ← fileDelete fid
    dirRemove dir (lastComponent path) fid

/-! ## `lib/dir.c` -/

inductive Created where
  | ok (fid : Fid)
  | failed
  /-- An assertion has ended the program. -/
  | aborted

/-- The first two entries, in an array on the stack. -/
def newEntries (stack : Buffer) (self parent : Fid) : Buffer :=
  let de := overlay (overlay stack 0 (fidBytes self)) 8 (0x2e :: Mkfs.dirSuffix ++ [0])
  overlay (overlay de dirEntrySize (fidBytes parent)) (dirEntrySize + 8)
    (0x2e :: 0x2e :: Mkfs.dirSuffix ++ [0])

def dirCreate2 (stack : Buffer) (filesvr : BitVec 32) (mode : BitVec 16) (dir : Fid)
    (name : List Byte) : ClientM Created := do
  match ← fileCreate filesvr mode with
  | none => pure .failed
  | some fileNo =>
    let de := (List.range (2 * dirEntrySize)).map (newEntries stack ⟨filesvr, fileNo⟩ dir)
    if ← fileWrite ⟨filesvr, fileNo⟩ 0 de then
      if ← dirInsert dir name ⟨filesvr, fileNo⟩ then pure (.ok ⟨filesvr, fileNo⟩)
      else pure .failed
    else pure .aborted

/-! ## The servers -/

/-- The file servers, and whether the directory server is still there. -/
structure Servers (φ : Type) where
  files : φ
  dirUp : Bool

section

variable {φ : Type} (fs : FileService φ) (rounds : Nat) (uid : BitVec 32)

/-- The request of a client, whose pid does not matter. -/
def dirRequest (type : DirOp) (dir : Fid) (name : List Byte) (fid : Fid) : Grass.Message :=
  (⟨0, uid.toNat, ⟨type, dir, fid, BitVec.ofNat 32 name.length⟩, name⟩ : DirMessage).message

/-- What the client makes of the reply. -/
def replied : List (Nat × DirReply) → Option Fid
  | [] => none
  | (_, rep) :: _ => if rep.status = .ok then some rep.fid else none

/-- An RPC with the directory server, which runs as root. One that has died does not answer, and the
call fails. -/
def dirCall (type : DirOp) (dir : Fid) (name : List Byte) (fid : Fid) :
    EStateM Stop (Servers φ) (Option Fid) := fun s =>
  if s.dirUp then
    match dirProc (fs.client 0) rounds (dirRequest uid type dir name fid) ⟨s.files, []⟩ with
    | .ok _ w => .ok (replied w.outbox) { s with files := w.files }
    | .error .assert w => .ok none ⟨w.files, false⟩
    | .error e w => .error e { s with files := w.files }
  else .ok none s

/-- An RPC with a file server. -/
def fileCall {α : Type} (m : StateM φ α) : EStateM Stop (Servers φ) α := fun s =>
  .ok (m s.files).1 { s with files := (m s.files).2 }

/-- A call by the user. -/
def serveCall : (c : ServerCall) → EStateM Stop (Servers φ) c.Reply
  | .dirLookup dir name => dirCall fs rounds uid .lookup dir name fidZero
  | .dirInsert dir name fid => do return (← dirCall fs rounds uid .insert dir name fid).isSome
  | .dirRemove dir name fid => do return (← dirCall fs rounds uid .remove dir name fid).isSome
  | .fileCreate server mode => fileCall ((fs.client uid).fileCreate server mode)
  | .fileWrite fid offset data => fileCall ((fs.client uid).fileWrite fid offset data)
  | .fileSetsize fid size => fileCall ((fs.client uid).fileSetsize fid size)
  | .fileDelete fid => fileCall ((fs.client uid).fileDelete fid)

variable {fs rounds uid} {s : Servers φ} {E : Stop → Servers φ → Prop}

theorem outcome_dirLookup {Q : Option Fid → Servers φ → Prop} (dir : Fid) (name : List Byte) :
    Outcome ((dirLookup dir name).run (serveCall fs rounds uid)) Q E s ↔
      Outcome (dirCall fs rounds uid .lookup dir name fidZero) Q E s :=
  Outcome.bind_iff (serveCall fs rounds uid (.dirLookup dir name)) pure

theorem outcome_dirInsert {Q : Bool → Servers φ → Prop} (dir : Fid) (name : List Byte) (fid : Fid) :
    Outcome ((dirInsert dir name fid).run (serveCall fs rounds uid)) Q E s ↔
      Outcome (dirCall fs rounds uid .insert dir name fid) (fun r s' => Q r.isSome s') E s := by
  refine (Outcome.bind_iff (serveCall fs rounds uid (.dirInsert dir name fid)) pure).trans ?_
  exact Outcome.bind_iff _ _

theorem outcome_fileCreate {Q : Option (BitVec 32) → Servers φ → Prop} (server : BitVec 32)
    (mode : BitVec 16) : Outcome ((fileCreate server mode).run (serveCall fs rounds uid)) Q E s ↔
      Q ((fs.client uid).fileCreate server mode s.files).1
        { s with files := ((fs.client uid).fileCreate server mode s.files).2 } :=
  Iff.rfl

theorem outcome_fileWrite {Q : Bool → Servers φ → Prop} (fid : Fid) (offset : Nat)
    (data : List Byte) : Outcome ((fileWrite fid offset data).run (serveCall fs rounds uid)) Q E s ↔
      Q ((fs.client uid).fileWrite fid offset data s.files).1
        { s with files := ((fs.client uid).fileWrite fid offset data s.files).2 } :=
  Iff.rfl

theorem outcome_fileSetsize {Q : Bool → Servers φ → Prop} (fid : Fid) (size : Nat) :
    Outcome ((fileSetsize fid size).run (serveCall fs rounds uid)) Q E s ↔
      Q ((fs.client uid).fileSetsize fid size s.files).1
        { s with files := ((fs.client uid).fileSetsize fid size s.files).2 } :=
  Iff.rfl

end

end Egos.File
