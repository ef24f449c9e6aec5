import Egos.Disk.Unixdisk.Layout

/-!
# The operations of `unixdisk.c`

Each function is written over an arbitrary store `below`, of which the file system takes
inode 0. A snapshot is passed along and returned where C updates it through a pointer. The
`while` loops are given as many rounds as they can need: a block of pointers has
`ENTRIES_PER_BLOCK` entries. `none` is the early return of a failed read or write.
-/
namespace Egos.Disk.Unixdisk

set_option autoImplicit false

variable {g : Geometry} {σ : Type}

/-- `struct unixdisk_snapshot`; the inode pointer is given by the inode number. -/
structure Snapshot (g : Geometry) where
  superblock : Block g
  inodeblock : Block g
  inodeBlockno : Nat
  inodeNo : Nat

namespace Snapshot

def nInodeblocks (sn : Snapshot g) : Nat := sn.superblock.ref 0

def freeList (sn : Snapshot g) : Nat := sn.superblock.ref 1

def freeOffset (sn : Snapshot g) : Nat := sn.superblock.ref 2

def setFreeList (sn : Snapshot g) (b : Nat) : Snapshot g :=
  { sn with superblock := sn.superblock.setRef 1 b }

def setFreeOffset (sn : Snapshot g) (k : Nat) : Snapshot g :=
  { sn with superblock := sn.superblock.setRef 2 k }

/-- The place of word `i` of the inode in its block. -/
def place (sn : Snapshot g) (i : Nat) : Nat := 16 * (sn.inodeNo % g.inodesPerBlock) + i

def word (sn : Snapshot g) (i : Nat) : Nat := sn.inodeblock.ref (sn.place i)

def setWord (sn : Snapshot g) (i a : Nat) : Snapshot g :=
  { sn with inodeblock := sn.inodeblock.setRef (sn.place i) a }

def nblocks (sn : Snapshot g) : Nat := sn.word 0

def directBlock (sn : Snapshot g) (i : Nat) : Nat := sn.word (1 + i)

def singleIndirect (sn : Snapshot g) : Nat := sn.word 13

def doubleIndirect (sn : Snapshot g) : Nat := sn.word 14

def tripleIndirect (sn : Snapshot g) : Nat := sn.word 15

/-- `b + 1 + n_inodeblocks`, where data block `b` is on the disk. -/
def absolute (sn : Snapshot g) (b : Nat) : Nat := (b + (1 + sn.nInodeblocks)) % 2 ^ 32

end Snapshot

section

variable (below : BlockStore (Block g) σ)

/-- `unixdisk_get_snapshot`; `none` is its -1, which leaves the inode pointer unset. -/
def getSnapshot (inodeNo : Nat) : EStateM Stop σ (Option (Snapshot g)) := do
  match ← below.read 0 0 with
  | none => pure none
  | some superblock =>
    if superblock.ref 0 * g.inodesPerBlock ≤ inodeNo then pure none
    else
      match ← below.read 0 (1 + inodeNo / g.inodesPerBlock) with
      | none => pure none
      | some inodeblock =>
        pure (some ⟨superblock, inodeblock, 1 + inodeNo / g.inodesPerBlock, inodeNo⟩)

/-- `unixdisk_traverse`, the absolute number of the block at an offset. The last case
starts at the double indirect block, too. -/
def traverse (sn : Snapshot g) (offset : Nat) : EStateM Stop σ Nat := do
  if offset < 12 then pure (sn.absolute (sn.directBlock offset))
  else if offset < 12 + g.entriesPerBlock then
    match ← below.read 0 (sn.absolute sn.singleIndirect) with
    | none => pure noBlock
    | some readData => pure (sn.absolute (readData.ref (offset - 12)))
  else if offset < 12 + g.entriesPerBlock + g.epb2 then
    let firstIndex := (offset - 12 - g.entriesPerBlock) / g.entriesPerBlock
    let secondIndex := offset - 12 - g.entriesPerBlock - firstIndex * g.entriesPerBlock
    match ← below.read 0 (sn.absolute sn.doubleIndirect) with
    | none => pure noBlock
    | some readData =>
      match ← below.read 0 (sn.absolute (readData.ref firstIndex)) with
      | none => pure noBlock
      | some readData => pure (sn.absolute (readData.ref secondIndex))
  else if offset < 12 + g.entriesPerBlock + g.epb2 + g.epb3 then
    let firstIndex := (offset - 12 - g.entriesPerBlock - g.epb2) / g.epb2
    let secondIndex :=
      (offset - 12 - g.entriesPerBlock - g.epb2 - firstIndex * g.epb2) / g.entriesPerBlock
    let thirdIndex := offset - 12 - g.entriesPerBlock - g.epb2 - firstIndex * g.epb2 -
      secondIndex * g.entriesPerBlock
    match ← below.read 0 (sn.absolute sn.doubleIndirect) with
    | none => pure noBlock
    | some readData =>
      match ← below.read 0 (sn.absolute (readData.ref firstIndex)) with
      | none => pure noBlock
      | some readData =>
        match ← below.read 0 (sn.absolute (readData.ref secondIndex)) with
        | none => pure noBlock
        | some readData => pure (sn.absolute (readData.ref thirdIndex))
  else throw .assert

/-- `unixdisk_popfree`; its -1 is `noBlock`. -/
def popfree (sn : Snapshot g) : EStateM Stop σ (Nat × Snapshot g) := do
  if sn.freeList = noBlock then pure (noBlock, sn)
  else
    match ← below.read 0 (sn.absolute sn.freeList) with
    | none => pure (noBlock, sn)
    | some freeHead =>
      if g.entriesPerFreeBlock < sn.freeOffset then throw .undefined
      else
        let (next, sn) :=
          if 0 < sn.freeOffset then
            (Freeblock.entry freeHead (sn.freeOffset - 1), sn.setFreeOffset (sn.freeOffset - 1))
          else
            (sn.freeList,
              (sn.setFreeList (Freeblock.next freeHead)).setFreeOffset g.entriesPerFreeBlock)
        if (← below.write 0 0 sn.superblock) < 0 then pure (noBlock, sn) else pure (next, sn)

/-- `unixdisk_pushfree`. -/
def pushfree (sn : Snapshot g) (blockNo : Nat) : EStateM Stop σ (Int × Snapshot g) := do
  match ← below.read 0 (sn.absolute sn.freeList) with
  | none => pure (-1, sn)
  | some freeHead =>
    if sn.freeOffset < g.entriesPerFreeBlock then
      let sn' := sn.setFreeOffset (sn.freeOffset + 1)
      if (← below.write 0 (sn.absolute sn.freeList)
          (Freeblock.setEntry freeHead sn.freeOffset blockNo)) < 0 then pure (-1, sn')
      else if (← below.write 0 0 sn'.superblock) < 0 then pure (-1, sn')
      else pure (0, sn')
    else if sn.freeOffset ≠ g.entriesPerFreeBlock then throw .assert
    else
      let sn' := (sn.setFreeList blockNo).setFreeOffset 0
      if (← below.write 0 (sn.absolute blockNo) (Freeblock.setNext freeHead sn.freeList)) < 0 then
        pure (-1, sn')
      else if (← below.write 0 0 sn'.superblock) < 0 then pure (-1, sn')
      else pure (0, sn')

/-- `while (i < limit && i <= offset)`: put a free block into each entry. -/
def fillEntries (limit offset : Nat) (slot : Nat → Nat) :
    Nat → Nat → Block g → Snapshot g → EStateM Stop σ (Nat × Block g × Snapshot g)
  | 0, i, entries, sn => pure (i, entries, sn)
  | rounds + 1, i, entries, sn => do
    if i < limit ∧ i ≤ offset then
      let (next, sn) ← popfree below sn
      fillEntries limit offset slot rounds (i + 1) (entries.setRef (slot i) next) sn
    else pure (i, entries, sn)

/-- A block for entry `j` of an indirect block, unless the file had one there already. -/
def popEntry (fresh : Prop) [Decidable fresh] (j : Nat) (entries : Block g) (sn : Snapshot g) :
    EStateM Stop σ (Block g × Snapshot g) := do
  if fresh then
    let (next, sn) ← popfree below sn
    pure (entries.setRef j next, sn)
  else pure (entries, sn)

/-- The loop over the entries of an indirect block two levels above the data, for the
offsets from `base` on. -/
def allocIndirect (base offset : Nat) :
    Nat → Nat → Block g → Snapshot g → EStateM Stop σ (Option (Nat × Block g × Snapshot g))
  | 0, i, indirect1, sn => pure (some (i, indirect1, sn))
  | rounds + 1, i, indirect1, sn => do
    if i < base + g.epb2 ∧ i ≤ offset then
      let j := (i - base) / g.entriesPerBlock
      let (indirect1, sn) ←
        popEntry below (sn.nblocks ≤ base + j * g.entriesPerBlock) j indirect1 sn
      let toRead := sn.absolute (indirect1.ref j)
      match ← below.read 0 toRead with
      | none => pure none
      | some indirect2 =>
        let (i, indirect2, sn) ← fillEntries below (base + (j + 1) * g.entriesPerBlock) offset
          (fun i => i - base - j * g.entriesPerBlock) g.entriesPerBlock i indirect2 sn
        if (← below.write 0 toRead indirect2) < 0 then pure none
        else allocIndirect base offset rounds i indirect1 sn
    else pure (some (i, indirect1, sn))

/-- The loop over the entries of the triple indirect block. -/
def allocTripleLoop (base offset : Nat) :
    Nat → Nat → Block g → Snapshot g → EStateM Stop σ (Option (Nat × Block g × Snapshot g))
  | 0, i, indirect1, sn => pure (some (i, indirect1, sn))
  | rounds + 1, i, indirect1, sn => do
    if i < base + g.epb3 ∧ i ≤ offset then
      let j := (i - base) / g.epb2
      let (indirect1, sn) ← popEntry below (sn.nblocks ≤ base + j * g.epb2) j indirect1 sn
      let toRead := sn.absolute (indirect1.ref j)
      match ← below.read 0 toRead with
      | none => pure none
      | some indirect2 =>
        match ← allocIndirect below (base + j * g.epb2) offset g.entriesPerBlock i indirect2 sn with
        | none => pure none
        | some (i, indirect2, sn) =>
          if (← below.write 0 toRead indirect2) < 0 then pure none
          else allocTripleLoop base offset rounds i indirect1 sn
    else pure (some (i, indirect1, sn))

def allocDirect (offset i : Nat) (sn : Snapshot g) : EStateM Stop σ (Nat × Snapshot g) := do
  let (i, inodeblock, sn) ←
    fillEntries below 12 offset (fun i => sn.place (1 + i)) 12 i sn.inodeblock sn
  pure (i, { sn with inodeblock := inodeblock })

/-- A block for word `w` of the inode, if the file had none. -/
def popWord (fresh : Prop) [Decidable fresh] (w : Nat) (sn : Snapshot g) :
    EStateM Stop σ (Snapshot g) := do
  if fresh then
    let (next, sn) ← popfree below sn
    pure (sn.setWord w next)
  else pure sn

def allocSingle (offset i : Nat) (sn : Snapshot g) : EStateM Stop σ (Option (Nat × Snapshot g)) := do
  if i < 12 + g.entriesPerBlock ∧ i ≤ offset then
    if i < 12 then throw .assert
    let sn ← popWord below (sn.nblocks ≤ 12) 13 sn
    let toRead := sn.absolute sn.singleIndirect
    match ← below.read 0 toRead with
    | none => pure none
    | some indirectblock =>
      let (i, indirectblock, sn) ← fillEntries below (12 + g.entriesPerBlock) offset
        (fun i => i - 12) g.entriesPerBlock i indirectblock sn
      if (← below.write 0 toRead indirectblock) < 0 then pure none else pure (some (i, sn))
  else pure (some (i, sn))

def allocDouble (offset i : Nat) (sn : Snapshot g) : EStateM Stop σ (Option (Nat × Snapshot g)) := do
  if i < 12 + g.entriesPerBlock + g.epb2 ∧ i ≤ offset then
    if i < 12 + g.entriesPerBlock then throw .assert
    let sn ← popWord below (sn.nblocks ≤ 12 + g.entriesPerBlock) 14 sn
    let toRead := sn.absolute sn.doubleIndirect
    match ← below.read 0 toRead with
    | none => pure none
    | some indirect1 =>
      match ← allocIndirect below (12 + g.entriesPerBlock) offset g.entriesPerBlock i
        indirect1 sn with
      | none => pure none
      | some (i, indirect1, sn) =>
        if (← below.write 0 toRead indirect1) < 0 then pure none else pure (some (i, sn))
  else pure (some (i, sn))

/-- The triple indirect block gets a block of its own, but the entries go to the double
indirect one. -/
def allocTriple (offset i : Nat) (sn : Snapshot g) : EStateM Stop σ (Option (Nat × Snapshot g)) := do
  if i < 12 + g.entriesPerBlock + g.epb2 + g.epb3 ∧ i ≤ offset then
    if i < 12 + g.entriesPerBlock + g.epb2 then throw .assert
    let sn ← popWord below (sn.nblocks ≤ 12 + g.entriesPerBlock + g.epb2) 15 sn
    let toRead := sn.absolute sn.doubleIndirect
    match ← below.read 0 toRead with
    | none => pure none
    | some indirect1 =>
      match ← allocTripleLoop below (12 + g.entriesPerBlock + g.epb2) offset g.entriesPerBlock i
        indirect1 sn with
      | none => pure none
      | some (i, indirect1, sn) =>
        if (← below.write 0 toRead indirect1) < 0 then pure none else pure (some (i, sn))
  else pure (some (i, sn))

/-- `unixdisk_alloc`. -/
def alloc (sn : Snapshot g) (offset : Nat) : EStateM Stop σ (Option (Snapshot g)) := do
  if offset < sn.nblocks then throw .assert
  let (i, sn) ← allocDirect below offset sn.nblocks sn
  match ← allocSingle below offset i sn with
  | none => pure none
  | some (i, sn) =>
    match ← allocDouble below offset i sn with
    | none => pure none
    | some (i, sn) =>
      match ← allocTriple below offset i sn with
      | none => pure none
      | some (_, sn) =>
        let sn := sn.setWord 0 ((offset + 1) % 2 ^ 32)
        if (← below.write 0 sn.inodeBlockno sn.inodeblock) < 0 then pure none else pure (some sn)

/-- `while (i < limit && i < nblocks)`: free the block of each entry. -/
def freeEntries (limit : Nat) (slot : Nat → Nat) (entries : Block g) :
    Nat → Nat → Snapshot g → EStateM Stop σ (Nat × Snapshot g)
  | 0, i, sn => pure (i, sn)
  | rounds + 1, i, sn => do
    if i < limit ∧ i < sn.nblocks then
      let (_, sn) ← pushfree below sn (entries.ref (slot i))
      freeEntries limit slot entries rounds (i + 1) sn
    else pure (i, sn)

/-- The loop over the entries of an indirect block two levels above the data. -/
def freeIndirect (base : Nat) (indirect1 : Block g) :
    Nat → Nat → Snapshot g → EStateM Stop σ (Option (Nat × Snapshot g))
  | 0, i, sn => pure (some (i, sn))
  | rounds + 1, i, sn => do
    if i < base + g.epb2 ∧ i < sn.nblocks then
      let j := (i - base) / g.entriesPerBlock
      match ← below.read 0 (sn.absolute (indirect1.ref j)) with
      | none => pure none
      | some indirect2 =>
        let (i, sn) ← freeEntries below (base + (j + 1) * g.entriesPerBlock)
          (fun i => i - base - j * g.entriesPerBlock) indirect2 g.entriesPerBlock i sn
        let (_, sn) ← pushfree below sn (indirect1.ref j)
        freeIndirect base indirect1 rounds i sn
    else pure (some (i, sn))

/-- The loop over the entries of the triple indirect block. -/
def freeTripleLoop (base : Nat) (indirect1 : Block g) :
    Nat → Nat → Snapshot g → EStateM Stop σ (Option (Nat × Snapshot g))
  | 0, i, sn => pure (some (i, sn))
  | rounds + 1, i, sn => do
    if i < base + g.epb3 ∧ i < sn.nblocks then
      let j := (i - base) / g.epb2
      match ← below.read 0 (sn.absolute (indirect1.ref j)) with
      | none => pure none
      | some indirect2 =>
        match ← freeIndirect below (base + j * g.epb2) indirect2 g.entriesPerBlock i sn with
        | none => pure none
        | some (i, sn) =>
          let (_, sn) ← pushfree below sn (indirect1.ref j)
          freeTripleLoop base indirect1 rounds i sn
    else pure (some (i, sn))

def freeSingle (i : Nat) (sn : Snapshot g) : EStateM Stop σ (Option (Nat × Snapshot g)) := do
  if i < g.entriesPerBlock + 12 ∧ i < sn.nblocks then
    match ← below.read 0 (sn.absolute sn.singleIndirect) with
    | none => pure none
    | some indirectblock =>
      let (i, sn) ← freeEntries below (12 + g.entriesPerBlock) (fun i => i - 12) indirectblock
        g.entriesPerBlock i sn
      let (_, sn) ← pushfree below sn sn.singleIndirect
      pure (some (i, sn))
  else pure (some (i, sn))

def freeDouble (i : Nat) (sn : Snapshot g) : EStateM Stop σ (Option (Nat × Snapshot g)) := do
  if i < g.epb2 + g.entriesPerBlock + 12 ∧ i < sn.nblocks then
    match ← below.read 0 (sn.absolute sn.doubleIndirect) with
    | none => pure none
    | some indirect1 =>
      match ← freeIndirect below (12 + g.entriesPerBlock) indirect1 g.entriesPerBlock i sn with
      | none => pure none
      | some (i, sn) =>
        let (_, sn) ← pushfree below sn sn.doubleIndirect
        pure (some (i, sn))
  else pure (some (i, sn))

/-- The walk starts at the double indirect block, which is on the free list by now. -/
def freeTriple (i : Nat) (sn : Snapshot g) : EStateM Stop σ (Option (Nat × Snapshot g)) := do
  if i < 12 + g.entriesPerBlock + g.epb2 + g.epb3 ∧ i < sn.nblocks then
    if i < 12 + g.entriesPerBlock + g.epb2 then throw .assert
    match ← below.read 0 (sn.absolute sn.doubleIndirect) with
    | none => pure none
    | some indirect1 =>
      match ← freeTripleLoop below (12 + g.entriesPerBlock + g.epb2) indirect1 g.entriesPerBlock
        i sn with
      | none => pure none
      | some (i, sn) =>
        let (_, sn) ← pushfree below sn sn.tripleIndirect
        pure (some (i, sn))
  else pure (some (i, sn))

/-- `unixdisk_free_file`, which returns nothing, also when it gives up. -/
def freeFile (sn : Snapshot g) : EStateM Stop σ Unit := do
  let (i, sn) ← freeEntries below 12 (fun i => sn.place (1 + i)) sn.inodeblock 12 0 sn
  match ← freeSingle below i sn with
  | none => pure ()
  | some (i, sn) =>
    match ← freeDouble below i sn with
    | none => pure ()
    | some (i, sn) =>
      match ← freeTriple below i sn with
      | none => pure ()
      | some (i, sn) =>
        if i ≠ sn.nblocks then throw .assert
        let sn := sn.setWord 0 0
        let _ ← below.write 0 sn.inodeBlockno sn.inodeblock

/-- `unixdisk_write`. -/
def write (ino offset : Nat) (block : Block g) : EStateM Stop σ Int := do
  match ← getSnapshot below ino with
  | none => pure (-1)
  | some sn =>
    let allocated ← if sn.nblocks ≤ offset then alloc below sn offset else pure (some sn)
    match allocated with
    | none => pure (-1)
    | some sn =>
      let toWrite ← traverse below sn offset
      if (← below.write 0 toWrite block) < 0 then pure (-1) else pure 0

/-- `unixdisk_read`. -/
def read (ino offset : Nat) : EStateM Stop σ (Option (Block g)) := do
  match ← getSnapshot below ino with
  | none => pure none
  | some sn =>
    if sn.nblocks ≤ offset then pure none
    else
      let toRead ← traverse below sn offset
      below.read 0 toRead

def getninodes : EStateM Stop σ Int := do
  match ← below.read 0 0 with
  | none => pure (-1)
  | some superblock => pure (toInt (superblock.ref 0 * g.inodesPerBlock))

def getsize (ino : Nat) : EStateM Stop σ Int := do
  match ← getSnapshot below ino with
  | none => pure (-1)
  | some sn => pure (toInt sn.nblocks)

/-- `unixdisk_setsize` does not look at the result of `unixdisk_get_snapshot`: when that
fails, `snapshot.inode` is an uninitialised pointer. -/
def setsize (ino nblocks : Nat) : EStateM Stop σ Int := do
  match ← getSnapshot below ino with
  | none => throw .undefined
  | some sn =>
    if nblocks = sn.nblocks then pure (toInt nblocks)
    else if 0 < nblocks then pure (-1)
    else
      freeFile below sn
      pure 0

def sync (_ino : Nat) : EStateM Stop σ Int := below.sync 0

/-- The interface `unixdisk_init` returns. -/
def unixdisk : BlockStore (Block g) σ where
  getninodes := getninodes below
  getsize := getsize below
  setsize := setsize below
  read := read below
  write := write below
  sync := sync below

variable (belowIno : Nat)

/-- The loop of `unixdisk_create` over the inode blocks `i … n_inodeblocks`. -/
def clearInodes : Nat → Nat → EStateM Stop σ Int
  | 0, _ => pure 0
  | left + 1, i => do
    if (← below.write belowIno i Treedisk.Block.zero) < 0 then pure (-1)
    else clearInodes left (i + 1)

/-- `for (j = 0; j < bound; j++)` over the entries of the first free-list block; `none` if
an entry past the end of the array is written. -/
def headEntries (bound : Nat) : Nat → Nat → Block g → Option (Block g)
  | 0, j, freeblock => if j < bound then none else some freeblock
  | left + 1, j, freeblock =>
    if j < bound then headEntries bound left (j + 1) (Freeblock.setEntry freeblock j (j + 1))
    else some freeblock

/-- `for (j = 0; j < ENTRIES_PER_FREE_BLOCK; j++)` over the entries of a full free-list block:
the data blocks from `first` on. -/
def fullEntries (first : Nat) : Nat → Nat → Block g → Block g
  | 0, _, freeblock => freeblock
  | left + 1, j, freeblock =>
    fullEntries first left (j + 1) (Freeblock.setEntry freeblock j (first + j))

/-- The loop of `unixdisk_create` over the full free-list blocks `i … count - 1`; true if all
could be written. -/
def fullBlocks (nInodeblocks remainder count : Nat) :
    Nat → Nat → Block g → EStateM Stop σ Bool
  | 0, _, _ => pure true
  | left + 1, i, freeblock => do
    let head := i * (g.entriesPerFreeBlock + 1) + remainder
    let freeblock := fullEntries (head + 1) g.entriesPerFreeBlock 0 freeblock
    let freeblock := Freeblock.setNext freeblock
      (if i = count - 1 then noBlock else (i + 1) * (g.entriesPerFreeBlock + 1) + remainder)
    let freeblock := Freeblock.setNblocks freeblock g.entriesPerFreeBlock
    if (← below.write belowIno (head + 1 + nInodeblocks) freeblock) < 0 then pure false
    else fullBlocks nInodeblocks remainder count left (i + 1) freeblock

/-- The part of `unixdisk_create` after the inode blocks: the free list over the data blocks
and the superblock. The variable `freeblock` is not initialised: it is what it holds by
chance. -/
def createFreeList (nInodeblocks nDatablocks : Nat) (freeblock superblock : Block g) :
    EStateM Stop σ Int := do
  let remainder := nDatablocks % (g.entriesPerFreeBlock + 1)
  -- the number of entries is unsigned: without a remainder it is 2 ^ 32 - 1
  let last := (remainder + (2 ^ 32 - 1)) % 2 ^ 32
  match headEntries last g.entriesPerFreeBlock 0 freeblock with
  | none => throw .undefined
  | some freeblock =>
    let freeblock := Freeblock.setNext freeblock
      (if remainder < nDatablocks then remainder else noBlock)
    let freeblock := Freeblock.setNblocks freeblock last
    if (← below.write belowIno (nInodeblocks + 1) freeblock) < 0 then pure (-1)
    else
      let count := nDatablocks / (g.entriesPerFreeBlock + 1)
      if ¬ (← fullBlocks below belowIno nInodeblocks remainder count count 0 freeblock) then
        pure (-1)
      else if (← below.write belowIno 0 (superblockOf superblock nInodeblocks 0 last)) < 0 then
        pure (-1)
      else pure 0

/-- `unixdisk_create`. -/
def create (freeblock : Block g) (ninodes : Nat) : EStateM Stop σ Int := do
  let nInodeblocks := (ninodes + g.inodesPerBlock - 1) / g.inodesPerBlock
  match ← below.read belowIno 0 with
  | none => pure (-1)
  | some superblock =>
    if superblock.ref 0 ≠ 0 then
      if nInodeblocks ≤ superblock.ref 0 then pure 0 else throw .assert
    else if (← clearInodes below belowIno nInodeblocks 1) < 0 then pure (-1)
    else
      let nBlocks := toUnsigned (← below.getsize belowIno)
      createFreeList below belowIno nInodeblocks
        ((nBlocks + 2 ^ 33 - nInodeblocks - 1) % 2 ^ 32) freeblock superblock

end

end Egos.Disk.Unixdisk
