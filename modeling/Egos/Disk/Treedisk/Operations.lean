import Egos.Disk.Treedisk.Layout

/-!
# The operations of `treedisk.c`

Each function is written over an arbitrary store `below` and the inode `belowIno`
of it that holds the file system. A snapshot is passed along and returned where C
updates it through a pointer. The three loops without a counter of their own are
given as many rounds as they can need: the two level counts, and the scan for the
tree depth in `treedisk_free_file`, which C repeats for ever once the capacity has
wrapped to 0.
-/
namespace Egos.Disk.Treedisk

set_option autoImplicit false

variable {g : Geometry} {σ : Type}

/-- The panic of an allocation without free blocks. -/
def full : Stop := .panic "treedisk_alloc_block: block store is full\n"

/-- The `do … while` of `treedisk_init` that computes `log_rpb`. -/
def logRpbLoop (g : Geometry) : Nat → Nat → Nat
  | 0, log => log
  | rounds + 1, log =>
    if (g.refsPerBlock - 1) >>> log ≠ 0 then logRpbLoop g rounds (log + 1) else log

/-- `log_rpb`, the logarithm of `REFS_PER_BLOCK`. -/
def logRpb (g : Geometry) : Nat := logRpbLoop g 32 1

/-- `log_shift_r`. -/
def logShiftR (x nbits : Nat) : Nat := if 32 ≤ nbits then 0 else x >>> nbits

/-- `while (log_shift_r(x, nlevels * log_rpb) != 0) nlevels++`. -/
def countLevelsLoop (g : Geometry) (x : Nat) : Nat → Nat → Nat
  | 0, nlevels => nlevels
  | rounds + 1, nlevels =>
    if logShiftR x (nlevels * logRpb g) ≠ 0 then countLevelsLoop g x rounds (nlevels + 1)
    else nlevels

/-- The levels of a tree whose last offset is `x`. -/
def countLevels (g : Geometry) (x : Nat) : Nat := countLevelsLoop g x 32 0

/-- The levels of the tree of an inode with this many blocks. -/
def levelsOf (g : Geometry) (nblocks : Nat) : Nat :=
  if 0 < nblocks then countLevels g (nblocks - 1) else 0

/-- The index into an indirect block with `nlevels` levels below it. -/
def indexAt (g : Geometry) (offset nlevels : Nat) : Nat :=
  logShiftR offset (nlevels * logRpb g) % g.refsPerBlock

/-- `struct treedisk_snapshot`; `inode` is the index the inode pointer stands for. -/
structure Snapshot (g : Geometry) where
  superblock : Block g
  inodeblock : Block g
  inodeBlockno : Nat
  inode : Nat

namespace Snapshot

def freeList (sn : Snapshot g) : Nat := sn.superblock.ref 1

def setFreeList (sn : Snapshot g) (b : Nat) : Snapshot g :=
  { sn with superblock := sn.superblock.setRef 1 b }

def root (sn : Snapshot g) : Nat := sn.inodeblock.ref (2 * sn.inode)

def nblocks (sn : Snapshot g) : Nat := sn.inodeblock.ref (2 * sn.inode + 1)

def setRoot (sn : Snapshot g) (b : Nat) : Snapshot g :=
  { sn with inodeblock := sn.inodeblock.setRef (2 * sn.inode) b }

def setNblocks (sn : Snapshot g) (nblocks : Nat) : Snapshot g :=
  { sn with inodeblock := sn.inodeblock.setRef (2 * sn.inode + 1) nblocks }

end Snapshot

/-- `for (i = REFS_PER_BLOCK; --i > 0;)`: the last used slot at or below `i`, or 0. -/
def lastRef (fl : Block g) : Nat → Nat
  | 0 => 0
  | i + 1 => if fl.ref (i + 1) ≠ 0 then i + 1 else lastRef fl i

/-- `for (i = 1; i < REFS_PER_BLOCK; i++)`: the first empty slot among the last
`left` ones, or `REFS_PER_BLOCK`. -/
def firstEmpty (fl : Block g) : Nat → Nat
  | 0 => g.refsPerBlock
  | left + 1 =>
    if fl.ref (g.refsPerBlock - (left + 1)) = 0 then g.refsPerBlock - (left + 1)
    else firstEmpty fl left

/-- The scan for the tree depth in `treedisk_free_file`, in 32-bit arithmetic. -/
def levelLoop (g : Geometry) (nblocks : Nat) : Nat → Nat → Nat → Option Nat
  | 0, _, _ => none
  | rounds + 1, level, maxCapacity =>
    if maxCapacity < nblocks then
      levelLoop g nblocks rounds (level + 1) (maxCapacity * g.refsPerBlock % 2 ^ 32)
    else some level

section

variable (below : BlockStore (Block g) σ) (belowIno : Nat)

/-- A read whose failure is a panic. -/
def mustRead (b : Nat) (message : String) : EStateM Stop σ (Block g) := do
  match ← below.read belowIno b with
  | none => throw (.panic message)
  | some block => pure block

/-- A write whose failure is a panic. -/
def mustWrite (b : Nat) (block : Block g) (message : String) : EStateM Stop σ Unit := do
  if (← below.write belowIno b block) < 0 then throw (.panic message) else pure ()

/-- `treedisk_get_snapshot`; `none` is its -1, which leaves the snapshot unset. -/
def getSnapshot (inodeNo : Nat) : EStateM Stop σ (Option (Snapshot g)) := do
  match ← below.read belowIno 0 with
  | none => pure none
  | some superblock =>
    if superblock.ref 0 * g.inodesPerBlock ≤ inodeNo then pure none
    else
      match ← below.read belowIno (1 + inodeNo / g.inodesPerBlock) with
      | none => pure none
      | some inodeblock =>
        pure (some ⟨superblock, inodeblock, 1 + inodeNo / g.inodesPerBlock,
          inodeNo % g.inodesPerBlock⟩)

/-- `treedisk_alloc_block`. -/
def allocBlock (sn : Snapshot g) : EStateM Stop σ (Nat × Snapshot g) := do
  let b := sn.freeList
  if b = 0 then throw full
  else
    let fl ← mustRead below belowIno b "treedisk_alloc_block"
    let i := lastRef fl (g.refsPerBlock - 1)
    if i = 0 then
      let sn := sn.setFreeList (fl.ref 0)
      mustWrite below belowIno 0 sn.superblock "treedisk_alloc_block: superblock"
      pure (b, sn)
    else
      mustWrite below belowIno b (fl.setRef i 0) "treedisk_alloc_block: freelistblock"
      pure (fl.ref i, sn)

/-- `treedisk_free_block`. -/
def freeBlock (target : Nat) (sn : Snapshot g) : EStateM Stop σ (Snapshot g) := do
  mustWrite below belowIno target Block.zero "treedisk_free_block: target block"
  let b := sn.freeList
  if b = 0 then
    let sn := sn.setFreeList target
    mustWrite below belowIno 0 sn.superblock "treedisk_free_block: superblock"
    pure sn
  else
    let fl ← mustRead below belowIno b "treedisk_free_block: read freelistblock"
    let i := firstEmpty fl (g.refsPerBlock - 1)
    if i ≠ g.refsPerBlock then
      mustWrite below belowIno b (fl.setRef i target) "treedisk_free_block: write freelistblock"
      pure sn
    else
      let sn := sn.setFreeList target
      mustWrite below belowIno 0 sn.superblock "treedisk_free_block: superblock"
      mustWrite below belowIno target (Block.zero.setRef 0 b) "treedisk_free_block: target block"
      pure sn

/-- `recursive_free_file`, by the number of levels left, `level - curr_level`. -/
def recursiveFreeFile : Nat → Nat → Snapshot g → EStateM Stop σ (Snapshot g)
  | 0, b, sn => freeBlock below belowIno b sn
  | left + 1, b, sn => do
    let indirblock ← mustRead below belowIno b "treedisk recursive_free_file: read indirect block"
    let sn ← (List.range g.refsPerBlock).foldlM (fun sn i =>
      if indirblock.ref i ≠ 0 then recursiveFreeFile left (indirblock.ref i) sn
      else pure sn) sn
    freeBlock below belowIno b sn

/-- `treedisk_free_file`. -/
def freeFile (sn : Snapshot g) : EStateM Stop σ (Snapshot g) :=
  if sn.nblocks = 0 then pure sn
  else if sn.nblocks = 1 then freeBlock below belowIno sn.root sn
  else
    match levelLoop g sn.nblocks 32 1 g.refsPerBlock with
    | none => throw .diverge
    | some level => recursiveFreeFile below belowIno level sn.root sn

def getninodes : EStateM Stop σ Int := do
  match ← below.read belowIno 0 with
  | none => pure (-1)
  | some superblock => pure (toInt (superblock.ref 0 * g.inodesPerBlock))

def getsize (ino : Nat) : EStateM Stop σ Int := do
  match ← getSnapshot below belowIno ino with
  | none => pure (-1)
  | some sn => pure (toInt sn.nblocks)

/-- `treedisk_setsize` does not look at the result of `treedisk_get_snapshot`: when
that fails, `snapshot.inode` is an uninitialised pointer. -/
def setsize (ino nblocks : Nat) : EStateM Stop σ Int := do
  match ← getSnapshot below belowIno ino with
  | none => throw .undefined
  | some sn =>
    if nblocks = sn.nblocks then pure (toInt nblocks)
    else if 0 < nblocks then pure (-1)
    else
      let oldsize := sn.nblocks
      let sn ← freeFile below belowIno sn
      let sn := (sn.setNblocks 0).setRoot 0
      mustWrite below belowIno sn.inodeBlockno sn.inodeblock "treedisk_free_block: inode block"
      pure (toInt oldsize)

/-- The loop of `treedisk_read` that walks down from block `b`. -/
def walkRead (offset : Nat) : Nat → Nat → EStateM Stop σ (Option (Block g))
  | nlevels, b => do
    if b = 0 then pure (some Block.zero)
    else
      match ← below.read belowIno b with
      | none => pure none
      | some block =>
        match nlevels with
        | 0 => pure (some block)
        | nlevels + 1 => walkRead offset nlevels (block.ref (indexAt g offset nlevels))

def read (ino offset : Nat) : EStateM Stop σ (Option (Block g)) := do
  match ← getSnapshot below belowIno ino with
  | none => pure none
  | some sn =>
    if sn.nblocks ≤ offset then pure none
    else walkRead below belowIno offset (levelsOf g sn.nblocks) sn.root

/-- `while (nlevels_after > nlevels)`: put so many indirect blocks above the root. -/
def growLevels : Nat → Snapshot g → EStateM Stop σ (Snapshot g)
  | 0, sn => pure sn
  | more + 1, sn => do
    let (indir, sn) ← allocBlock below belowIno sn
    let tib := Block.zero.setRef 0 sn.root
    let sn := sn.setRoot indir
    mustWrite below belowIno indir tib "treedisk_write: indirect block"
    growLevels more sn

/-- The top of the loop of `treedisk_write`: the block the parent's slot refers to,
allocated if there is none, and whether it was. -/
def getOrAlloc (parent : Block g) (parentOff slot : Nat) (sn : Snapshot g) :
    EStateM Stop σ (Nat × Bool × Snapshot g) := do
  if parent.ref slot = 0 then
    let (b, sn) ← allocBlock below belowIno sn
    mustWrite below belowIno parentOff (parent.setRef slot b) "treedisk_write: parent"
    pure (b, true, sn)
  else pure (parent.ref slot, false, sn)

/-- The loop of `treedisk_write` that finds the data block, allocating as it goes. A
new indirect block is only in memory until its first reference is written. -/
def descend (offset : Nat) : Nat → Block g → Nat → Nat → Snapshot g → EStateM Stop σ Nat
  | 0, parent, parentOff, slot, sn => do
    let (b, _, _) ← getOrAlloc below belowIno parent parentOff slot sn
    pure b
  | nlevels + 1, parent, parentOff, slot, sn => do
    let (b, fresh, sn) ← getOrAlloc below belowIno parent parentOff slot sn
    let tib ← if fresh then pure Block.zero else mustRead below belowIno b "treedisk_write"
    descend offset nlevels tib b (indexAt g offset nlevels) sn

/-- `treedisk_write`. -/
def write (ino offset : Nat) (block : Block g) : EStateM Stop σ Int := do
  match ← getSnapshot below belowIno ino with
  | none => pure (-1)
  | some sn =>
    let nlevels := levelsOf g sn.nblocks
    let growing := decide (sn.nblocks ≤ offset)
    let sn := if growing then sn.setNblocks ((offset + 1) % 2 ^ 32) else sn
    let nlevelsAfter := if growing then countLevels g offset else nlevels
    -- nblocks is 0 here only when offset + 1 has wrapped; then no level is added
    let more := if sn.nblocks = 0 then 0 else nlevelsAfter - nlevels
    let sn ← growLevels below belowIno more sn
    let nlevels := if sn.nblocks = 0 then nlevelsAfter else nlevels + more
    if growing ∨ 0 < more then
      mustWrite below belowIno sn.inodeBlockno sn.inodeblock "treedisk_write: inode block"
    let b ← descend below belowIno offset nlevels sn.inodeblock sn.inodeBlockno (2 * sn.inode) sn
    mustWrite below belowIno b block "treedisk_write: data block"
    pure 0

/-- `treedisk_sync` passes the sync on for the whole inode below. -/
def sync (_ino : Nat) : EStateM Stop σ Int := below.sync belowIno

/-- The interface `treedisk_init` returns. -/
def treedisk : BlockStore (Block g) σ where
  getninodes := getninodes below belowIno
  getsize := getsize below belowIno
  setsize := setsize below belowIno
  read := read below belowIno
  write := write below belowIno
  sync := sync below belowIno

/-- `for (i = 1; i < REFS_PER_BLOCK && next_free < nblocks; i++)` and the loop after
it: fill the last `left` slots of a free-list block. -/
def fillRefs (nblocks : Nat) : Nat → Nat → Block g → Block g × Nat
  | 0, nextFree, data => (data, nextFree)
  | left + 1, nextFree, data =>
    if nextFree < nblocks then
      fillRefs nblocks left (nextFree + 1) (data.setRef (g.refsPerBlock - (left + 1)) nextFree)
    else fillRefs nblocks left nextFree (data.setRef (g.refsPerBlock - (left + 1)) 0)

/-- The loop of `setup_freelist`, which uses up at least one block a round. -/
def setupFreelistLoop (nblocks : Nat) : Nat → Nat → Nat → EStateM Stop σ Nat
  | 0, _, freelistBlock => pure freelistBlock
  | rounds + 1, nextFree, freelistBlock =>
    if nextFree < nblocks then do
      let (data, next) := fillRefs (g := g) nblocks (g.refsPerBlock - 1) (nextFree + 1)
        (Block.zero.setRef 0 freelistBlock)
      mustWrite below belowIno nextFree data "treedisk_setup_freelist"
      setupFreelistLoop nblocks rounds next nextFree
    else pure freelistBlock

/-- `setup_freelist`. -/
def setupFreelist (nextFree nblocks : Nat) : EStateM Stop σ Nat :=
  setupFreelistLoop below belowIno nblocks nblocks nextFree 0

/-- The loop of `treedisk_create` over the inode blocks `i … n_inodeblocks`. -/
def clearInodes : Nat → Nat → EStateM Stop σ Int
  | 0, _ => pure 0
  | left + 1, i => do
    if (← below.write belowIno i Block.zero) < 0 then pure (-1) else clearInodes left (i + 1)

/-- `treedisk_create`. -/
def create (ninodes : Nat) : EStateM Stop σ Int := do
  let nInodeblocks := (ninodes + g.inodesPerBlock - 1) / g.inodesPerBlock
  let nblocks := toUnsigned (← below.getsize belowIno)
  if nblocks < (nInodeblocks + 2) % 2 ^ 32 then pure (-1)
  else
    match ← below.read belowIno 0 with
    | none => pure (-1)
    | some superblock =>
      if superblock.ref 0 = 0 then
        let freeList ← setupFreelist below belowIno (nInodeblocks + 1) nblocks
        if (← below.write belowIno 0
            ((Block.zero.setRef 0 nInodeblocks).setRef 1 freeList)) < 0 then pure (-1)
        else clearInodes below belowIno nInodeblocks 1
      else if nInodeblocks ≤ superblock.ref 0 then pure 0
      else throw .assert

end

end Egos.Disk.Treedisk
