import Egos.Disk.Store
import Egos.Disk.Sparse
import Egos.File.Protocol

/-!
# The block file server

`bfs.c`. Every file is an inode of a block server, and inode 0 holds the table of file
control blocks, which the server also keeps in memory. The block server is a parameter:
its calls answer `false` or nothing when they fail. Memory is a function from positions
to bytes, allocation does not fail, and a copy that leaves its buffer is `Stop.undefined`.
-/
namespace Egos.File

open Egos.Lib Egos.Disk

set_option autoImplicit false

/-- `BLOCK_SIZE`. -/
def blockSize : Nat := 1024

theorem mod_blockSize_lt (k : Nat) : k % blockSize < blockSize := Nat.mod_lt _ (by decide)

abbrev Block := Fin blockSize → Byte

/-- Block `i` of the memory at `addr`. -/
def blockAt (addr : Buffer) (i : Nat) : Block := fun j => addr (i * blockSize + j)

/-- Byte `k` of a sequence of blocks. -/
def byteAt (blocks : Nat → Block) : Buffer := fun k =>
  blocks (k / blockSize) ⟨k % blockSize, mod_blockSize_lt k⟩

/-- Put a block into memory as block `i`. -/
def putBlock (addr : Buffer) (i : Nat) (block : Block) : Buffer := fun k =>
  if k / blockSize = i then block ⟨k % blockSize, mod_blockSize_lt k⟩ else addr k

/-- The client side of the block service. -/
structure BlockServer (σ : Type) where
  getsize : Nat → StateM σ (Option Nat)
  setsize : Nat → Nat → StateM σ Bool
  read : Nat → Nat → StateM σ (Option Block)
  write : Nat → Nat → Block → StateM σ Bool
  sync : Nat → StateM σ Bool

/-- `struct file_server_state`. -/
structure FileServerState where
  globalTime : BitVec 64
  startTime : BitVec 32
  fcbCache : Nat → FileControlBlock
  numFcbs : BitVec 32

/-- The server after `table` was copied over `fcb_cache`. -/
def FileServerState.setTable (fss : FileServerState) (table : Buffer) : FileServerState :=
  { fss with fcbCache := fun f =>
      if f < fss.numFcbs.toNat then
        FileControlBlock.ofMemory fun k => table (f * FileControlBlock.sizeof + k)
      else fss.fcbCache f }

/-- The server, its block server, and the replies it has sent with their addressees. -/
structure World (σ : Type) where
  fss : FileServerState
  disk : σ
  outbox : List (BitVec 32 × FileReply)

/-- What a request finds in its surroundings: the server's pid, the time, and the bytes
that lie behind the file table and in fresh memory. -/
structure Env where
  pid : BitVec 32
  now : BitVec 32
  heap : Buffer

variable {σ : Type}

namespace Bfs

/-- Room for `nblocks` blocks, filled up to the first block that cannot be read. -/
def multiblockReadLoop (svr : BlockServer σ) (ino offset i : Nat) (addr : Buffer) :
    Nat → StateM σ (Option (Nat × Buffer))
  | 0 => pure (some (i, addr))
  | left + 1 => do
    match ← svr.read ino ((offset + i) % 2 ^ 32) with
    | none => pure (if i = 0 then none else some (i, addr))
    | some block => multiblockReadLoop svr ino offset (i + 1) (putBlock addr i block) left

def multiblockRead (svr : BlockServer σ) (ino offset : Nat) (addr : Buffer) (nblocks : Nat) :
    StateM σ (Option (Nat × Buffer)) :=
  multiblockReadLoop svr ino offset 0 addr nblocks

def multiblockWriteLoop (svr : BlockServer σ) (ino offset : Nat) (addr : Buffer) (i : Nat) :
    Nat → StateM σ Bool
  | 0 => pure true
  | left + 1 => do
    if ← svr.write ino ((offset + i) % 2 ^ 32) (blockAt addr i) then
      multiblockWriteLoop svr ino offset addr (i + 1) left
    else
      pure false

def multiblockWrite (svr : BlockServer σ) (ino offset : Nat) (addr : Buffer) (nblocks : Nat) :
    StateM σ Bool :=
  multiblockWriteLoop svr ino offset addr 0 nblocks

def onDisk {α : Type} (m : StateM σ α) : EStateM Stop (World σ) α := fun w =>
  .ok (m w.disk).1 { w with disk := (m w.disk).2 }

/-- `sys_send` of a reply. -/
def send (dst : BitVec 32) (rep : FileReply) : EStateM Stop (World σ) Unit :=
  modify fun w => { w with outbox := w.outbox ++ [(dst, rep)] }

def respond (status : FileStatus) (data : List Byte) (src : BitVec 32) :
    EStateM Stop (World σ) Unit :=
  send src (.plain status data)

def setFcb (fileNo : Nat) (fcb : FileControlBlock) : EStateM Stop (World σ) Unit :=
  modify fun w =>
    { w with fss := { w.fss with fcbCache := Function.update w.fss.fcbCache fileNo fcb } }

/-- `fss->global_time + (sys_gettime() - fss->start_time) / 1000`. -/
def modtime (fss : FileServerState) (env : Env) : BitVec 64 :=
  fss.globalTime + ((env.now - fss.startTime) / 1000#32).setWidth 64

/-- The memory from `fcb_cache` on. -/
def tableImage (fss : FileServerState) (heap : Buffer) : Buffer := fun k =>
  if k < fss.numFcbs.toNat * FileControlBlock.sizeof then
    (fss.fcbCache (k / FileControlBlock.sizeof)).byte (k % FileControlBlock.sizeof)
  else heap k

/-- `num_fcbs * sizeof(*fcb_cache)` as an `unsigned int`. -/
def tableSize (fss : FileServerState) : BitVec 32 :=
  fss.numFcbs * BitVec.ofNat 32 FileControlBlock.sizeof

def flushStatCacheAll (svr : BlockServer σ) (env : Env) : EStateM Stop (World σ) Unit := do
  let w ← get
  let endBlockNo := (tableSize w.fss - 1) / BitVec.ofNat 32 blockSize
  let _ ← onDisk (multiblockWrite svr 0 0 (tableImage w.fss env.heap) (endBlockNo + 1).toNat)

def flushFcbCache (svr : BlockServer σ) (env : Env) (fileNo : Nat) :
    EStateM Stop (World σ) Unit := do
  let w ← get
  let blocks := tableImage w.fss env.heap
  let startBlockNo := fileNo * FileControlBlock.sizeof / blockSize
  let endBlockNo := ((fileNo + 1) * FileControlBlock.sizeof - 1) / blockSize
  let _ ← onDisk (multiblockWrite svr 0 startBlockNo
    (fun k => blocks (startBlockNo * blockSize % 2 ^ 32 + k)) (endBlockNo + 1))

def loadFcbCache (svr : BlockServer σ) (env : Env) : EStateM Stop (World σ) Bool := do
  let w ← get
  match ← onDisk (svr.getsize 0) with
  | none => throw .assert
  | some psizeNblock =>
    if psizeNblock = 0 then
      return false
    if psizeNblock ≠ ((tableSize w.fss - 1) / BitVec.ofNat 32 blockSize + 1).toNat then
      return false
    match ← onDisk (multiblockRead svr 0 0 (tableImage w.fss env.heap) psizeNblock) with
    | none => return true
    | some (count, table) =>
      -- whole blocks are read into a table that need not end with a block
      if w.fss.numFcbs.toNat * FileControlBlock.sizeof < count * blockSize then
        throw .undefined
      modify fun w => { w with fss := w.fss.setTable table }
      return true

/-- `STATS_PER_BLOCK`. -/
def statsPerBlock : Nat := blockSize / FileControlBlock.sizeof

/-- `blkfile_proc` up to its loop. -/
def boot (svr : BlockServer σ) (env : Env) : EStateM Stop (World σ) Unit := do
  unless ← loadFcbCache svr env do
    let w ← get
    -- `fcb_cache[0]` has to exist
    if w.fss.numFcbs = 0 then
      throw .undefined
    modify fun w => { w with fss := { w.fss with fcbCache := fun _ => .zero } }
    setFcb 0 { FileControlBlock.zero with
      stAlloc := true
      stSize := BitVec.ofNat 64 (w.fss.numFcbs.toNat * FileControlBlock.sizeof / statsPerBlock) }
    flushStatCacheAll svr env

def readAllowed (stat : FileControlBlock) (uid : BitVec 32) : Bool :=
  if uid = 0 then true
  else if uid = stat.stUid then stat.stMode &&& Permission.ownerRead != 0
  else stat.stMode &&& Permission.otherRead != 0

def writeAllowed (stat : FileControlBlock) (uid : BitVec 32) : Bool :=
  if uid = 0 then true
  else if uid = stat.stUid then stat.stMode &&& Permission.ownerWrite != 0
  else stat.stMode &&& Permission.otherWrite != 0

/-- The loop of `blkfile_do_create`: the first free file number from `fileNo` on, among
the next `left` ones. -/
def firstFree (fss : FileServerState) (fileNo : Nat) : Nat → Option Nat
  | 0 => none
  | left + 1 =>
    if (fss.fcbCache fileNo).stAlloc then firstFree fss (fileNo + 1) left else some fileNo

def freeFile (fss : FileServerState) : Option Nat := firstFree fss 1 (fss.numFcbs.toNat - 1)

def doCreate (svr : BlockServer σ) (env : Env) (req : FileRequest) (src uid : BitVec 32) :
    EStateM Stop (World σ) Unit := do
  let w ← get
  match freeFile w.fss with
  | none => respond .error [] src
  | some fileNo =>
    setFcb fileNo { w.fss.fcbCache fileNo with
      stAlloc := true
      stDev := env.pid
      stIno := BitVec.ofNat 32 fileNo
      stMode := req.mode
      stUid := uid
      stModtime := modtime w.fss env }
    flushFcbCache svr env fileNo
    send src { FileReply.plain .ok [] with fileNo := BitVec.ofNat 32 fileNo }

def doDelete (svr : BlockServer σ) (env : Env) (req : FileRequest) (src uid : BitVec 32) :
    EStateM Stop (World σ) Unit := do
  let w ← get
  let fileNo := req.fileNo.toNat
  if w.fss.numFcbs.toNat ≤ fileNo then
    respond .error [] src
    return
  if !writeAllowed (w.fss.fcbCache fileNo) uid then
    respond .error [] src
    return
  if !(w.fss.fcbCache fileNo).stAlloc then
    send src (.plain .ok [])
  else
    setFcb fileNo { w.fss.fcbCache fileNo with stAlloc := false }
    flushFcbCache svr env fileNo
    unless ← onDisk (svr.setsize fileNo 0) do
      respond .error [] src
    send src (.plain .ok [])

/-- The check that most requests begin with. -/
def badInode (fss : FileServerState) (fileNo : Nat) : Bool :=
  decide (fss.numFcbs.toNat ≤ fileNo) || !(fss.fcbCache fileNo).stAlloc

def doChown (svr : BlockServer σ) (env : Env) (req : FileRequest) (src uid : BitVec 32) :
    EStateM Stop (World σ) Unit := do
  let w ← get
  let fileNo := req.fileNo.toNat
  if badInode w.fss fileNo then
    respond .error [] src
    return
  if uid ≠ 0 then
    respond .error [] src
    return
  setFcb fileNo { w.fss.fcbCache fileNo with stUid := req.uid }
  flushFcbCache svr env fileNo
  send src (.plain .ok [])

def doChmod (svr : BlockServer σ) (env : Env) (req : FileRequest) (src uid : BitVec 32) :
    EStateM Stop (World σ) Unit := do
  let w ← get
  let fileNo := req.fileNo.toNat
  if badInode w.fss fileNo then
    respond .error [] src
    return
  if uid ≠ 0 ∧ uid ≠ (w.fss.fcbCache fileNo).stUid then
    respond .error [] src
    return
  setFcb fileNo { w.fss.fcbCache fileNo with stMode := req.mode }
  flushFcbCache svr env fileNo
  send src (.plain .ok [])

/-- The number of bytes that a read at `offset` below the file's size returns. -/
def readLength (stSize offset : BitVec 64) (size : BitVec 32) : BitVec 32 :=
  let n := (stSize - offset).setWidth 32
  if size < n then size else n

/-- The number of blocks that these bytes lie in. -/
def readNblock (offset : BitVec 64) (n : BitVec 32) : BitVec 32 :=
  let startBlockNo := (offset / BitVec.ofNat 64 blockSize).setWidth 32
  let endBlockNo := ((offset + n.setWidth 64 - 1) / BitVec.ofNat 64 blockSize).setWidth 32
  endBlockNo - startBlockNo + 1

/-- The answer to a read of `data`. -/
def readReply (data : List Byte) : FileReply :=
  { FileReply.plain .ok data with
    op := .read
    fcb := { FileControlBlock.zero with stSize := BitVec.ofNat 64 data.length } }

def doRead (svr : BlockServer σ) (env : Env) (req : FileRequest) (src uid : BitVec 32) :
    EStateM Stop (World σ) Unit := do
  let w ← get
  let fileNo := req.fileNo.toNat
  if badInode w.fss fileNo then
    respond .error [] src
    return
  if !readAllowed (w.fss.fcbCache fileNo) uid then
    respond .error [] src
    return
  if req.size = 0 then
    send src (readReply [])
    return
  let stSize := (w.fss.fcbCache fileNo).stSize
  if req.offset < stSize then
    let n := readLength stSize req.offset req.size
    let startBlockNo := (req.offset / BitVec.ofNat 64 blockSize).setWidth 32
    let psizeNblock := readNblock req.offset n
    -- the product is an `unsigned int`, so the buffer can be smaller than what is read
    let room := (psizeNblock * BitVec.ofNat 32 blockSize).toNat
    match ← onDisk (multiblockRead svr fileNo startBlockNo.toNat env.heap psizeNblock.toNat) with
    | none => respond .error [] src
    | some (count, contents) =>
      if room < count * blockSize then
        throw .undefined
      if count ≠ psizeNblock.toNat then
        respond .error [] src
      else
        send src (readReply ((List.range n.toNat).map fun i =>
          contents (req.offset.toNat % blockSize + i)))
  else
    send src (readReply [])

/-- The numbers that `blkfile_put` computes first. -/
structure PutPlan where
  finalSize : BitVec 64
  endBlockNo : BitVec 64
  psizeNblock : BitVec 32

def putPlan (fileSize offset : BitVec 64) (size : BitVec 32) : PutPlan :=
  let bs := BitVec.ofNat 64 blockSize
  let stop := offset + size.setWidth 64
  if fileSize < stop then
    ⟨stop, stop / bs, (fileSize / bs - offset / bs + 1).setWidth 32⟩
  else
    ⟨fileSize, stop / bs, (stop / bs - offset / bs + 1).setWidth 32⟩

/-- What the buffer of `blkfile_put` holds before the data is copied into it: zeros, or in
the first blocks what the file has there. -/
def putContents (svr : BlockServer σ) (fileNo : Nat) (fileSize startBlockNo : BitVec 64)
    (psizeNblock : BitVec 32) : EStateM Stop (World σ) (Option Buffer) := do
  if fileSize / BitVec.ofNat 64 blockSize < startBlockNo then
    return some fun _ => 0
  if fileSize = 0 then
    return some fun _ => 0
  let r ← onDisk (multiblockRead svr fileNo (startBlockNo.setWidth 32).toNat (fun _ => 0)
    psizeNblock.toNat)
  return r.map Prod.snd

/-- `data` has `size` bytes. Both branches of the source end with the same copy and the same
writes. The buffer has room for the blocks from the first to the last one of the range, so
the copies stay inside it. -/
def put (svr : BlockServer σ) (env : Env) (fileNo : Nat) (offset : BitVec 64) (data : List Byte)
    (size : BitVec 32) : EStateM Stop (World σ) Int := do
  let w ← get
  let fileSize := (w.fss.fcbCache fileNo).stSize
  let startBlockNo := offset / BitVec.ofNat 64 blockSize
  let plan := putPlan fileSize offset size
  match ← putContents svr fileNo fileSize startBlockNo plan.psizeNblock with
  | none => return -1
  | some contents =>
    let contents := overlay contents (offset.toNat % blockSize) data
    let nblocks := (plan.endBlockNo - startBlockNo + 1).setWidth 32
    if ← onDisk (multiblockWrite svr fileNo (startBlockNo.setWidth 32).toNat contents
        nblocks.toNat) then
      setFcb fileNo { w.fss.fcbCache fileNo with
        stSize := plan.finalSize
        stModtime := modtime w.fss env }
      flushFcbCache svr env fileNo
      return 0
    else
      return -1

def doWrite (svr : BlockServer σ) (env : Env) (req : FileRequest) (data : List Byte)
    (src uid : BitVec 32) : EStateM Stop (World σ) Unit := do
  let w ← get
  let fileNo := req.fileNo.toNat
  let size := BitVec.ofNat 32 data.length
  if badInode w.fss fileNo then
    respond .error [] src
    return
  if req.size ≠ size then
    respond .error [] src
    return
  if !writeAllowed (w.fss.fcbCache fileNo) uid then
    respond .error [] src
    return
  if (← put svr env fileNo req.offset data size) = 0 then
    respond .ok [] src
  else
    respond .error [] src

def doSync (svr : BlockServer σ) (req : FileRequest) (src : BitVec 32) :
    EStateM Stop (World σ) Unit := do
  let w ← get
  let fileNo := req.fileNo.toNat
  if w.fss.numFcbs.toNat ≤ fileNo ∧ fileNo ≠ allInodes then
    respond .error [] src
    return
  unless ← onDisk (svr.sync fileNo) do
    respond .error [] src
    return
  respond .ok [] src

def doStat (req : FileRequest) (src uid : BitVec 32) : EStateM Stop (World σ) Unit := do
  let w ← get
  let fileNo := req.fileNo.toNat
  if badInode w.fss fileNo then
    respond .error [] src
    return
  if !readAllowed (w.fss.fcbCache fileNo) uid then
    respond .error [] src
    return
  send src { FileReply.plain .ok [] with op := .stat, fcb := w.fss.fcbCache fileNo }

/-- The number of blocks that `blkfile_do_setsize` leaves to a file of this size. -/
def finalNblock (size : BitVec 64) : BitVec 32 :=
  if size = 0 then 0 else (1 + size / BitVec.ofNat 64 blockSize).setWidth 32

def doSetsize (svr : BlockServer σ) (env : Env) (req : FileRequest) (src uid : BitVec 32) :
    EStateM Stop (World σ) Unit := do
  let w ← get
  let fileNo := req.fileNo.toNat
  if badInode w.fss fileNo then
    respond .error [] src
    return
  if (w.fss.fcbCache fileNo).stSize < req.offset then
    respond .error [] src
    return
  if !writeAllowed (w.fss.fcbCache fileNo) uid then
    respond .error [] src
    return
  unless ← onDisk (svr.setsize fileNo (finalNblock req.offset).toNat) do
    respond .error [] src
  setFcb fileNo { w.fss.fcbCache fileNo with
    stSize := req.offset
    stModtime := modtime w.fss env }
  flushFcbCache svr env fileNo
  respond .ok [] src

/-- One turn of the loop of `blkfile_proc`. The receive buffer cuts the payload. -/
def serve (svr : BlockServer σ) (env : Env) (msg : Message) : EStateM Stop (World σ) Unit :=
  match msg.request with
  | none => throw .assert
  | some req =>
    match req.type with
    | .create => doCreate svr env req msg.src msg.uid
    | .delete => doDelete svr env req msg.src msg.uid
    | .chown => doChown svr env req msg.src msg.uid
    | .chmod => doChmod svr env req msg.src msg.uid
    | .read => doRead svr env req msg.src msg.uid
    | .write => doWrite svr env req (msg.payload.take fileMaxMsgSize) msg.src msg.uid
    | .sync => doSync svr req msg.src
    | .stat => doStat req msg.src msg.uid
    | .setsize => doSetsize svr env req msg.src msg.uid
    | .unused | .setFlags => throw .assert

def serveAll (svr : BlockServer σ) : List (Env × Message) → EStateM Stop (World σ) Unit
  | [] => pure ()
  | (env, msg) :: rest => do
    serve svr env msg
    serveAll svr rest

/-- What `main` allocates. -/
def fresh (globalTime : BitVec 64) (startTime numFcbs : BitVec 32) : FileServerState :=
  ⟨globalTime, startTime, fun _ => .zero, numFcbs⟩

end Bfs

/-- A block server over sparse files that never fails in range. -/
def sparse : BlockServer (Files Block) where
  getsize ino := fun files => (some ((files ino).size % 2 ^ 32), files)
  setsize ino nblocks := fun files => (true, Function.update files ino
    ⟨nblocks, fun b => if b < nblocks then (files ino).data b else fun _ => 0⟩)
  read ino offset := fun files => ((files ino).read offset, files)
  write ino offset block := fun files =>
    (true, Function.update files ino ((files ino).write offset block))
  sync _ := fun files => (true, files)

end Egos.File
