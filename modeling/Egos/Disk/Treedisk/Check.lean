import Egos.Disk.Treedisk.Operations

/-!
# The integrity check, `treedisk_chk.c`

The array `binfo` has one status a block; an access outside of it is undefined. A
function that returns 0 ends the check, so it returns the array or none. The results of
the reads below are not looked at: after one that failed the buffer holds anything. The
loop over the free list has no counter of its own and is given a round for each block.
-/
namespace Egos.Disk.Treedisk

set_option autoImplicit false

variable {g : Geometry} {σ : Type}

/-- The status of a `struct block_info`. -/
inductive BlockStatus where
  | unknown
  | super
  | inode
  | indir
  | data
  | freelist
  | free
  deriving DecidableEq

/-- The array `binfo`. -/
abbrev BlockInfo := Nat → BlockStatus

/-- A `for` loop over `i, i + 1, …` that ends the check when one of its rounds does. -/
def tryLoop (f : Nat → BlockInfo → EStateM Stop σ (Option BlockInfo)) :
    Nat → Nat → BlockInfo → EStateM Stop σ (Option BlockInfo)
  | 0, _, binfo => pure (some binfo)
  | left + 1, i, binfo => do
    match ← f i binfo with
    | none => pure none
    | some binfo => tryLoop f left (i + 1) binfo

section

variable (below : BlockStore (Block g) σ) (fsNblocks : Nat)

/-- `binfo[b].status`. -/
def getStatus (binfo : BlockInfo) (b : Nat) : EStateM Stop σ BlockStatus :=
  if b < fsNblocks then pure (binfo b) else throw .undefined

/-- `binfo[b].status = status`. -/
def setStatus (binfo : BlockInfo) (b : Nat) (status : BlockStatus) : EStateM Stop σ BlockInfo :=
  if b < fsNblocks then pure (Function.update binfo b status) else throw .undefined

/-- `(*below->read)(below, 0, b, …)`. -/
def readBlock (b : Nat) : EStateM Stop σ (Block g) := do
  match ← below.read 0 b with
  | none => throw .undefined
  | some block => pure block

/-- The loop of `check_inode` over the references of an indirect block, with `check` for
the call on a reference and its offset. -/
def scanRefs (check : Nat → Nat → BlockInfo → EStateM Stop σ (Option BlockInfo))
    (nblocks size : Nat) (ib : Block g) :
    Nat → Nat → BlockInfo → EStateM Stop σ (Option BlockInfo)
  | 0, _, binfo => pure (some binfo)
  | left + 1, offset, binfo => do
    match ← check (ib.ref (g.refsPerBlock - (left + 1))) offset binfo with
    | none => pure none
    | some binfo =>
      let offset := (offset + size) % 2 ^ 32
      if nblocks ≤ offset then pure (some binfo)
      else scanRefs check nblocks size ib left offset binfo

/-- `check_inode`. -/
def checkInode (nblocks : Nat) :
    Nat → Nat → Nat → BlockInfo → EStateM Stop σ (Option BlockInfo)
  | nlevels, node, offset, binfo => do
    if node = 0 then pure (some binfo)
    else if fsNblocks ≤ node then pure none
    else if (← getStatus fsNblocks binfo node) ≠ .unknown then pure none
    else
      match nlevels with
      | 0 => do
        let binfo ← setStatus fsNblocks binfo node .data
        pure (some binfo)
      | nlevels + 1 => do
        let binfo ← setStatus fsNblocks binfo node .indir
        let ib ← readBlock below node
        scanRefs (checkInode nblocks nlevels) nblocks (1 <<< (nlevels * logRpb g) % 2 ^ 32) ib
          g.refsPerBlock offset binfo

/-- One round of the loop over the inodes of an inode block. -/
def checkInodeWords (tib : Block g) (i : Nat) (binfo : BlockInfo) :
    EStateM Stop σ (Option BlockInfo) :=
  if tib.ref (2 * i + 1) ≠ 0 then
    checkInode below fsNblocks (tib.ref (2 * i + 1)) (countLevels g (tib.ref (2 * i + 1) - 1))
      (tib.ref (2 * i)) 0 binfo
  else pure (some binfo)

/-- One round of the loop over the inode blocks. -/
def checkInodeBlock (b : Nat) (binfo : BlockInfo) : EStateM Stop σ (Option BlockInfo) := do
  let tib ← readBlock below b
  tryLoop (checkInodeWords below fsNblocks tib) g.inodesPerBlock 0 binfo

/-- One round of the loop over the slots of a free-list block. -/
def checkSlot (tfb : Block g) (i : Nat) (binfo : BlockInfo) :
    EStateM Stop σ (Option BlockInfo) := do
  if tfb.ref i ≠ 0 then
    if fsNblocks ≤ tfb.ref i then pure (some binfo)
    else if (← getStatus fsNblocks binfo (tfb.ref i)) ≠ .unknown then pure none
    else
      let binfo ← setStatus fsNblocks binfo (tfb.ref i) .free
      pure (some binfo)
  else pure (some binfo)

/-- The loop over the free list, with the number of rounds left. -/
def scanFreeList : Nat → Nat → BlockInfo → EStateM Stop σ (Option BlockInfo)
  | 0, _, _ => throw .diverge
  | rounds + 1, fl, binfo => do
    if fl = 0 then pure (some binfo)
    else if fsNblocks ≤ fl then pure none
    else if (← getStatus fsNblocks binfo fl) ≠ .unknown then pure none
    else
      let binfo ← setStatus fsNblocks binfo fl .freelist
      let tfb ← readBlock below fl
      match ← tryLoop (checkSlot fsNblocks tfb) (g.refsPerBlock - 1) 1 binfo with
      | none => pure none
      | some binfo => scanFreeList rounds (tfb.ref 0) binfo

/-- The last loop: the first block without a status is reported. -/
def unaccounted (binfo : BlockInfo) : Option Nat :=
  (List.range fsNblocks).find? fun b => binfo b = .unknown

/-- `treedisk_check` from the test of the superblock on. -/
def checkImage (superblock : Block g) : EStateM Stop σ (Int × Option Nat) := do
  if fsNblocks < (1 + superblock.ref 0) % 2 ^ 32 then pure (0, none)
  else if fsNblocks ≤ superblock.ref 1 then pure (0, none)
  else
    let binfo ← setStatus fsNblocks (fun _ => .unknown) 0 .super
    -- `b <= n_inodeblocks` holds for every `b` when that is `2 ^ 32 - 1`
    match ← tryLoop (fun b binfo => do pure (some (← setStatus fsNblocks binfo b .inode)))
        (superblock.ref 0) 1 binfo with
    | none => pure (0, none)
    | some binfo =>
      match ← tryLoop (checkInodeBlock below fsNblocks) (superblock.ref 0) 1 binfo with
      | none => pure (0, none)
      | some binfo =>
        match ← scanFreeList below fsNblocks fsNblocks (superblock.ref 1) binfo with
        | none => pure (0, none)
        | some binfo => pure (1, unaccounted fsNblocks binfo)

/-- `treedisk_check`, with the block that it reports as unaccounted for. -/
def treediskCheck : EStateM Stop σ (Int × Option Nat) := do
  let fsNblocks := toUnsigned (← below.getsize 0)
  if fsNblocks = 0 then pure (0, none)
  else
    let superblock ← readBlock below 0
    checkImage below fsNblocks superblock

end

end Egos.Disk.Treedisk
