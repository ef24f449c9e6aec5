import Egos.File.Client
import Egos.Grass.Process

/-!
# The directory server

`dirsvr.c` over a file service. A directory is a file of entries, and the three handlers go through
it page by page. The service may hand out pages forever: `rounds` is the number of pages after which
a loop is taken to be one that never ends.
-/
namespace Egos.Dirsvr

open Egos.Lib Egos.Disk Egos.File
open Egos.Grass (wordBytes)

set_option autoImplicit false

/-- The `type` of a `struct dir_request`, where all values without a `case` are alike. -/
inductive DirOp where
  | unused
  | lookup
  | insert
  | remove
  deriving DecidableEq

def DirOp.code : DirOp → Nat
  | .unused => 0
  | .lookup => 1
  | .insert => 2
  | .remove => 3

def DirOp.ofCode : Nat → DirOp
  | 1 => .lookup
  | 2 => .insert
  | 3 => .remove
  | _ => .unused

def fidBytes (fid : Fid) : List Byte := wordBytes fid.server.toNat ++ wordBytes fid.fileNo.toNat

def fidAt (bytes : Buffer) : Fid where
  server := BitVec.ofNat 32 (ofBytes bytes 4)
  fileNo := BitVec.ofNat 32 (ofBytes (fun i => bytes (4 + i)) 4)

/-- `struct dir_request`. -/
structure DirRequest where
  type : DirOp
  dir : Fid
  fid : Fid
  size : BitVec 32

/-- `sizeof(struct dir_request)`. -/
def DirRequest.sizeof : Nat := 24

def DirRequest.bytes (req : DirRequest) : List Byte :=
  wordBytes req.type.code ++ fidBytes req.dir ++ fidBytes req.fid ++ wordBytes req.size.toNat

/-- The request that lies in memory at `bytes`. -/
def DirRequest.ofMemory (bytes : Buffer) : DirRequest where
  type := .ofCode (ofBytes bytes 4)
  dir := fidAt fun i => bytes (4 + i)
  fid := fidAt fun i => bytes (12 + i)
  size := BitVec.ofNat 32 (ofBytes (fun i => bytes (20 + i)) 4)

inductive DirStatus where
  | ok
  | error
  deriving DecidableEq

/-- `struct dir_reply`. -/
structure DirReply where
  status : DirStatus
  fid : Fid
  deriving DecidableEq

/-- `DIR_NAME_SIZE`. -/
def dirNameSize : Nat := 24

/-- `DIR_ENTRY_SIZE`. -/
def dirEntrySize : Nat := 32

/-- `struct dir_entry`, with the bytes of the name field. -/
structure DirEntry where
  fid : Fid
  name : List Byte
  deriving DecidableEq

def DirEntry.ofMemory (bytes : Buffer) : DirEntry where
  fid := fidAt bytes
  name := (List.range dirNameSize).map fun i => bytes (8 + i)

def DirEntry.bytes (de : DirEntry) : List Byte := fidBytes de.fid ++ de.name

/-- The entries of a page. -/
def entriesOf (page : List Byte) : List DirEntry :=
  (List.range (page.length / dirEntrySize)).map fun i =>
    .ofMemory fun k => page.getD (dirEntrySize * i + k) 0

def strnlen (s : List Byte) (n : Nat) : Nat := ((s.take n).takeWhile (· ≠ 0)).length

/-- `strncmp(a, b, n) == 0`. -/
def strncmpEq : List Byte → List Byte → Nat → Bool
  | _, _, 0 => true
  | a, b, n + 1 =>
    a.headD 0 = b.headD 0 && (a.headD 0 = 0 || strncmpEq a.tail b.tail n)

def nameCmp (de : DirEntry) (s : List Byte) (size : Nat) : Bool :=
  if strnlen de.name dirNameSize ≠ size then false else strncmpEq de.name s size

/-- `de->name[0] == 0`. -/
def DirEntry.isFree (de : DirEntry) : Bool := de.name.headD 0 = 0

/-- The file service, and the replies with their addressees. -/
structure DirWorld (φ : Type) where
  files : φ
  outbox : List (Nat × DirReply)

variable {φ : Type}

abbrev DirM (φ : Type) := EStateM Stop (DirWorld φ)

def onFiles {α : Type} (m : StateM φ α) : DirM φ α := fun w =>
  .ok (m w.files).1 { w with files := (m w.files).2 }

def fidZero : Fid := ⟨0, 0⟩

def dirRespond (src : Nat) (status : DirStatus) (fid : Fid) : DirM φ Unit :=
  modify fun w => { w with outbox := w.outbox ++ [(src, ⟨status, fid⟩)] }

section

variable (fc : FileClient φ)

/-- Whether the directory's mode has the bit that applies to the user. -/
def allowed (dir : Fid) (uid : BitVec 32) (owner other : BitVec 16) : DirM φ Bool :=
  if uid = 0 then pure true
  else do
    match ← onFiles (fc.fileStat dir) with
    | none => pure false
    | some stat => pure (stat.stMode &&& (if stat.stUid = uid then owner else other) != 0)

/-- How a loop over the entries of a directory ends. -/
inductive ScanEnd (α β : Type) where
  /-- at an entry where the handler has found what it looks for -/
  | found (result : β)
  /-- behind the last entry, at this offset -/
  | finished (acc : α) (offset : Nat)
  /-- at a page that cannot be read -/
  | failed

/-- The loop over the entries of a page. -/
def scanEntries {α β : Type} (visit : Nat → DirEntry → α → Except β α) :
    List DirEntry → Nat → α → Except β α
  | [], _, acc => .ok acc
  | de :: rest, offset, acc =>
    match visit offset de acc with
    | .error result => .error result
    | .ok acc => scanEntries visit rest (offset + dirEntrySize) acc

/-- The loop over the pages of a directory. -/
def scan {α β : Type} (dir : Fid) (visit : Nat → DirEntry → α → Except β α) :
    Nat → Nat → α → DirM φ (ScanEnd α β)
  | 0, _, _ => throw .diverge
  | rounds + 1, offset, acc => do
    match ← onFiles (fc.fileRead dir offset fileMaxMsgSize) with
    | none => pure .failed
    | some page =>
      if page.length = 0 then pure (.finished acc offset)
      else if page.length % dirEntrySize ≠ 0 then throw .assert
      else
        match scanEntries visit (entriesOf page) offset acc with
        | .error result => pure (.found result)
        | .ok acc => scan dir visit rounds (offset + page.length) acc

variable (rounds : Nat)

def visitLookup (name : List Byte) (_ : Nat) (de : DirEntry) (_ : Unit) : Except Fid Unit :=
  if nameCmp de name name.length then .error de.fid else .ok ()

def dirDoLookup (req : DirRequest) (src : Nat) (uid : BitVec 32) (name : List Byte) :
    DirM φ Unit := do
  if dirNameSize < name.length then dirRespond src .error fidZero
  else if !(← allowed fc req.dir uid Permission.ownerRead Permission.otherRead) then
    dirRespond src .error fidZero
  else
    match ← scan fc req.dir (visitLookup name) rounds 0 () with
    | .failed | .finished .. => dirRespond src .error fidZero
    | .found fid =>
      dirRespond src .ok (if fid.server = 0 then { fid with server := req.dir.server } else fid)

/-- The accumulator is `free_offset`, once there is one. -/
def visitInsert (name : List Byte) (offset : Nat) (de : DirEntry) (free : Option Nat) :
    Except Unit (Option Nat) :=
  if de.isFree then .ok (free.or (some offset))
  else if nameCmp de name name.length then .error ()
  else .ok free

/-- `strncpy` into a zeroed entry. -/
def newEntry (fid : Fid) (name : List Byte) : DirEntry where
  fid := fid
  name := (List.range dirNameSize).map fun i => (name.takeWhile (· ≠ 0)).getD i 0

def dirDoInsert (req : DirRequest) (src : Nat) (uid : BitVec 32) (name : List Byte) :
    DirM φ Unit := do
  if dirNameSize < name.length then dirRespond src .error fidZero
  else if !(← allowed fc req.dir uid Permission.ownerWrite Permission.otherWrite) then
    dirRespond src .error fidZero
  else
    match ← scan fc req.dir (visitInsert name) rounds 0 none with
    | .failed | .found () => dirRespond src .error fidZero
    | .finished free offset =>
      let wstatus ← onFiles (fc.fileWrite req.dir (free.getD offset) (newEntry req.fid name).bytes)
      dirRespond src (if wstatus then .ok else .error) req.fid

def visitRemove (fileNo : BitVec 32) (name : List Byte) (offset : Nat) (de : DirEntry) (_ : Unit) :
    Except Nat Unit :=
  if !de.isFree && de.fid.fileNo = fileNo && nameCmp de name name.length then .error offset
  else .ok ()

def emptyEntry : DirEntry := ⟨fidZero, List.replicate dirNameSize 0⟩

/-- A name that is not found is reported as removed. -/
def dirDoRemove (req : DirRequest) (src : Nat) (uid : BitVec 32) (name : List Byte) :
    DirM φ Unit := do
  if dirNameSize < name.length then dirRespond src .error fidZero
  else if !(← allowed fc req.dir uid Permission.ownerWrite Permission.otherWrite) then
    dirRespond src .error fidZero
  else
    match ← scan fc req.dir (visitRemove req.fid.fileNo name) rounds 0 () with
    | .failed => dirRespond src .error fidZero
    | .finished .. => dirRespond src .ok req.fid
    | .found offset =>
      let wstatus ← onFiles (fc.fileWrite req.dir offset emptyEntry.bytes)
      dirRespond src (if wstatus then .ok else .error) req.fid

/-- The size that `dir_proc` passes to `sys_recv`: that of a pointer and `MAX_PATH_NAME`. -/
def requestBuffer : Nat := 8 + 1024

/-- One turn of the loop of `dir_proc`. -/
def dirProc (msg : Grass.Message) : DirM φ Unit :=
  let received := msg.contents.take requestBuffer
  if received.length < DirRequest.sizeof then throw .assert
  else
    let req := DirRequest.ofMemory fun k => received.getD k 0
    let uid := BitVec.ofNat 32 msg.uid
    let name := received.drop DirRequest.sizeof
    match req.type with
    | .lookup => dirDoLookup fc rounds req msg.src uid name
    | .insert => dirDoInsert fc rounds req msg.src uid name
    | .remove => dirDoRemove fc rounds req msg.src uid name
    | .unused => throw .assert

def serveAll : List Grass.Message → DirM φ Unit
  | [] => pure ()
  | msg :: rest => do
    dirProc fc rounds msg
    serveAll rest

end

end Egos.Dirsvr
