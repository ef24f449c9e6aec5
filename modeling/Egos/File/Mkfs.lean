import Egos.File.Bfs

/-!
# Making a disk image

`mkfs.c`: the host's files and directories are copied into the inodes of a block store, and
the table of their control blocks into inode 0. A host tree comes as the listing of a
directory, every entry with its own listing beside it. A directory is put together in a
buffer of entries, byte by byte as the source does it, since names are copied without a
check of their length.
-/
namespace Egos.File

open Egos.Lib Egos.Disk

set_option autoImplicit false

/-- What `stat` finds at a path. -/
inductive Node where
  | file (bytes : List Byte)
  /-- With whether there is a `.mkfs-skip` and what can be read from `.mkfs-uid`. -/
  | dir (skip : Bool) (uid : Option (BitVec 32))
  | weird
  | unreadable

/-- The entries of a directory in the order of `readdir`. `child` lists the entries of an
entry that is a directory itself. -/
inductive Listing where
  | done
  | entry (name : List Byte) (node : Node) (mtime : BitVec 64) (child next : Listing)

/-- `fid_t`. -/
structure Fid where
  server : BitVec 32
  fileNo : BitVec 32

namespace Mkfs

/-- `NINODES`. -/
def ninodes : Nat := 4096

/-- `MAX_DIR_ENTRIES`. -/
def maxDirEntries : Nat := 1024

/-- `DIR_ENTRY_SIZE`. -/
def dirEntrySize : Nat := 32

/-- The globals of `mkfs` and its block store. `stored` is not in the source: it lists what
was copied to which inode. -/
structure State (σ : Type) where
  ino : Nat
  stats : Nat → FileControlBlock
  disk : σ
  stored : List (Nat × List Byte)

variable {σ : Type}

/-- `*p = v` for an `unsigned int`. -/
def put32 (buffer : Buffer) (pos : Nat) (v : BitVec 32) : Buffer :=
  overlay buffer pos ((List.range 4).map (byteOf v.toNat))

def get32 (buffer : Buffer) (pos : Nat) : Nat := ofBytes (fun i => buffer (pos + i)) 4

/-- `strcpy` into a buffer of `room` bytes. -/
def strcpy (buffer : Buffer) (room pos : Nat) (s : List Byte) : EStateM Stop (State σ) Buffer :=
  if pos + s.length + 1 ≤ room then pure (overlay buffer pos (s ++ [0])) else throw .undefined

/-- `.dir`. -/
def dirSuffix : List Byte := [0x2e, 0x64, 0x69, 0x72]

/-- A block is written and the result asserted to be 0. -/
def writeBlock (bs : BlockStore Block σ) (ino offset : Nat) (block : Block) :
    EStateM Stop (State σ) Unit := do
  let r ← onPart State.disk (fun s disk => { s with disk := disk }) (bs.write ino offset block)
  if r ≠ 0 then
    throw .assert

/-- The loop that writes the blocks of a buffer, from block `i` on. -/
def writeLoop (bs : BlockStore Block σ) (ino : Nat) (addr : Buffer) (i : Nat) :
    Nat → EStateM Stop (State σ) Unit
  | 0 => pure ()
  | left + 1 => do
    writeBlock bs ino i (blockAt addr i)
    writeLoop bs ino addr (i + 1) left

/-- `unsigned int my_ino = ino++`. The counter has room for every tree. -/
def nextIno : EStateM Stop (State σ) Nat := do
  let s ← get
  set { s with ino := s.ino + 1 }
  return s.ino

/-- The control block that every file gets. -/
def control (ino : Nat) (uid : BitVec 32) (size mtime : BitVec 64) : FileControlBlock where
  stAlloc := true
  stDev := 0
  stIno := BitVec.ofNat 32 ino
  stUid := uid
  stMode := Permission.otherRead ||| Permission.ownerRead ||| Permission.ownerWrite
  stSize := size
  stModtime := mtime

/-- `stats[ino]` is filled in, after the bytes were written. -/
def setStat (ino : Nat) (uid : BitVec 32) (size mtime : BitVec 64) (bytes : List Byte) :
    EStateM Stop (State σ) Unit := do
  if ninodes ≤ ino then
    throw .undefined
  modify fun s => { s with
    stats := Function.update s.stats ino (control ino uid size mtime)
    stored := s.stored ++ [(ino, bytes)] }

/-- The loop of `file_trav` over what is left of the file. The block is a local variable, so
behind the bytes that were read it has what the stack had there. Every turn takes at least a
byte, so the length of the file is fuel enough. -/
def fileLoop (bs : BlockStore Block σ) (stack : Buffer) (ino : Nat) :
    Nat → Nat → Nat → List Byte → EStateM Stop (State σ) Nat
  | 0, _, total, _ => pure total
  | fuel + 1, offset, total, rest =>
    if rest = [] then pure total
    else do
      writeBlock bs ino offset (blockAt (overlay stack 0 (rest.take blockSize)) 0)
      fileLoop bs stack ino fuel ((offset + 1) % 2 ^ 32)
        ((total + (rest.take blockSize).length) % 2 ^ 32) (rest.drop blockSize)

def fileTrav (bs : BlockStore Block σ) (stack : Nat → Buffer) (bytes : List Byte)
    (mtime : BitVec 64) (uid : BitVec 32) : EStateM Stop (State σ) Nat := do
  let myIno ← nextIno
  let total ← fileLoop bs (stack myIno) myIno bytes.length 0 0 bytes
  setStat myIno uid (BitVec.ofNat 64 total) mtime bytes
  return myIno

/-- The entries of a directory as far as they are filled in: the buffer and the index of the
next one. -/
structure Entries where
  buffer : Buffer
  index : Nat

/-- The first two entries, for the directory and its parent. -/
def firstEntries (self parent : Fid) : Buffer :=
  let entries := overlay (fun _ => 0) 8 ([0x2e] ++ dirSuffix ++ [0])
  let entries := put32 (put32 entries 0 self.server) 4 self.fileNo
  let entries := overlay entries (dirEntrySize + 8) ([0x2e, 0x2e] ++ dirSuffix ++ [0])
  put32 (put32 entries dirEntrySize parent.server) (dirEntrySize + 4) parent.fileNo

/-- `loop` is the `readdir` loop over the directory's own entries. -/
def dirTrav (bs : BlockStore Block σ)
    (loop : Fid → BitVec 32 → Entries → EStateM Stop (State σ) Entries)
    (parent : Fid) (skip : Bool) (uidFile : Option (BitVec 32)) (mtime : BitVec 64)
    (uid : BitVec 32) : EStateM Stop (State σ) Nat := do
  let myIno ← nextIno
  if skip then
    return 0
  let uid := uidFile.getD uid
  let self : Fid := ⟨parent.server, BitVec.ofNat 32 myIno⟩
  let entries ← loop self uid ⟨firstEntries self parent, 2⟩
  let size := entries.index * dirEntrySize
  writeLoop bs myIno entries.buffer 0 ((size + (blockSize - 1)) / blockSize)
  setStat myIno uid (BitVec.ofNat 64 size) mtime ((List.range size).map entries.buffer)
  return myIno

/-- One path. The directory entry `de` lies at `pos` in a buffer of `room` bytes. -/
def trav (bs : BlockStore Block σ) (stack : Nat → Buffer)
    (loop : Fid → BitVec 32 → Entries → EStateM Stop (State σ) Entries)
    (node : Node) (mtime : BitVec 64) (parent : Fid) (name : List Byte) (uid : BitVec 32)
    (buffer : Buffer) (room pos : Nat) : EStateM Stop (State σ) Buffer := do
  match node with
  | .unreadable => throw (.panic "")
  | .dir skip uidFile =>
    let buffer ← strcpy buffer room (pos + 8) (name ++ dirSuffix)
    let fileNo ← dirTrav bs loop parent skip uidFile mtime uid
    return put32 (put32 buffer pos parent.server) (pos + 4) (BitVec.ofNat 32 fileNo)
  | .file bytes =>
    let buffer ← strcpy buffer room (pos + 8) name
    let fileNo ← fileTrav bs stack bytes mtime uid
    return put32 (put32 buffer pos parent.server) (pos + 4) (BitVec.ofNat 32 fileNo)
  | .weird => return buffer

/-- The `readdir` loop of `dir_trav` in the directory `self`. -/
def readdirLoop (bs : BlockStore Block σ) (stack : Nat → Buffer) :
    Listing → Fid → BitVec 32 → Entries → EStateM Stop (State σ) Entries
  | .done, _, _, entries => pure entries
  | .entry name node mtime child next, self, uid, entries =>
    if name.head? = some 0x2e then readdirLoop bs stack next self uid entries
    else do
      -- `entries[index]` has to exist
      if maxDirEntries ≤ entries.index then
        throw .undefined
      let buffer ← trav bs stack (readdirLoop bs stack child) node mtime self name uid
        entries.buffer (maxDirEntries * dirEntrySize) (entries.index * dirEntrySize)
      let index :=
        if get32 buffer (entries.index * dirEntrySize + 4) ≠ 0 then entries.index + 1
        else entries.index
      readdirLoop bs stack next self uid ⟨buffer, index⟩

/-- The loop of `main` over its arguments, which all use the same entry. -/
def argLoop (bs : BlockStore Block σ) (stack : Nat → Buffer) (uid : BitVec 32) :
    Listing → Buffer → EStateM Stop (State σ) Unit
  | .done, _ => pure ()
  | .entry name node mtime child next, de => do
    let de ← trav bs stack (readdirLoop bs stack child) node mtime ⟨0, 0⟩ name uid de
      dirEntrySize 0
    argLoop bs stack uid next de

/-- The memory of `stats`. -/
def statsImage (stats : Nat → FileControlBlock) : Buffer := fun k =>
  (stats (k / FileControlBlock.sizeof)).byte (k % FileControlBlock.sizeof)

/-- `main` after the block store was made. -/
def main (bs : BlockStore Block σ) (stack : Nat → Buffer) (args : Listing) (uid : BitVec 32)
    (de : Buffer) (now : BitVec 64) : EStateM Stop (State σ) Unit := do
  argLoop bs stack uid args de
  let size := ninodes * FileControlBlock.sizeof
  modify fun s => { s with
    stats := Function.update s.stats 0 (control 0 uid (BitVec.ofNat 64 size) now) }
  let s ← get
  writeLoop bs 0 (statsImage s.stats) 0 ((size + (blockSize - 1)) / blockSize)
  let _ ← onPart State.disk (fun s disk => { s with disk := disk }) (bs.sync allInodes)

end Mkfs

end Egos.File
