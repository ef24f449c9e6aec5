import Egos.Disk.Treedisk.FreeList

/-!
# The layout of a unixdisk, `unixdisk.h`

Blocks are seen as words again. Behind the superblock and the inode blocks lie the data
blocks, which are numbered from 0; the pointers of inodes, indirect blocks and free-list
blocks are such numbers. An inode takes 64 bytes, so a block has at least as many.
-/
namespace Egos.Disk.Unixdisk

set_option autoImplicit false

/-- Block sizes from 64 to 1024 bytes, the system's. -/
structure Geometry extends Treedisk.Geometry where
  four_le : 4 ≤ bits

namespace Geometry

variable (g : Geometry)

/-- `BLOCK_SIZE / sizeof(struct unixdisk_inode)`. -/
def inodesPerBlock : Nat := g.blockSize / 64

/-- `BLOCK_SIZE / sizeof(datablock_no)`. -/
def entriesPerBlock : Nat := g.blockSize / 4

/-- The words of a block after the count and the link of `struct unixdisk_freeblock`. -/
def entriesPerFreeBlock : Nat := (g.blockSize - 4 - 4) / 4

/-- `EPB_2`. -/
def epb2 : Nat := g.entriesPerBlock * g.entriesPerBlock

/-- `EPB_3`. -/
def epb3 : Nat := g.entriesPerBlock * g.entriesPerBlock * g.entriesPerBlock

/-- The system's blocks of 1024 bytes. -/
def system : Geometry := ⟨Treedisk.Geometry.system, by decide⟩

/-- The smallest blocks that hold an inode. -/
def small : Geometry := ⟨⟨4, by decide, by decide⟩, by decide⟩

theorem entriesPerBlock_eq : g.entriesPerBlock = g.refsPerBlock := rfl

theorem sixteen_mul_inodesPerBlock : 16 * g.inodesPerBlock = g.refsPerBlock := by
  have h : 2 ^ g.bits = 16 * 2 ^ (g.bits - 4) := by
    have hb := g.four_le
    rw [show 16 = 2 ^ 4 from rfl, ← pow_add]
    congr 1
    omega
  unfold inodesPerBlock Treedisk.Geometry.refsPerBlock Treedisk.Geometry.blockSize
  omega

theorem inodesPerBlock_pos : 0 < g.inodesPerBlock := by
  have h := g.sixteen_mul_inodesPerBlock
  have h4 := g.four_le_refs
  omega

theorem sixteen_le : 16 ≤ g.refsPerBlock := by
  have h := g.sixteen_mul_inodesPerBlock
  have hp := g.inodesPerBlock_pos
  omega

theorem entriesPerBlock_pos : 0 < g.entriesPerBlock := by
  have h := g.sixteen_le
  rw [entriesPerBlock_eq]
  omega

theorem entriesPerFreeBlock_add : g.entriesPerFreeBlock + 2 = g.refsPerBlock := by
  have h := g.sixteen_le
  unfold entriesPerFreeBlock Treedisk.Geometry.refsPerBlock at *
  omega

end Geometry

/-- `block_t` as words. -/
abbrev Block (g : Geometry) := Treedisk.Block g.toGeometry

abbrev Image (g : Geometry) := Treedisk.Image g.toGeometry

variable {g : Geometry}

/-- `(unsigned int) -1`, for no block. -/
def noBlock : Nat := 2 ^ 32 - 1

/-! The fields of a `struct unixdisk_freeblock`. -/

namespace Freeblock

def next (b : Block g) : Nat := b.ref 1

def entry (b : Block g) (j : Nat) : Nat := b.ref (2 + j)

def setNblocks (b : Block g) (n : Nat) : Block g := b.setRef 0 n

def setNext (b : Block g) (n : Nat) : Block g := b.setRef 1 n

def setEntry (b : Block g) (j n : Nat) : Block g := b.setRef (2 + j) n

end Freeblock

/-- The superblock for this many inode blocks and this free list. -/
def superblockOf (b : Block g) (nInodeblocks freeList freeOffset : Nat) : Block g :=
  ((b.setRef 0 nInodeblocks).setRef 1 freeList).setRef 2 freeOffset

namespace Image

variable (D : Image g)

/-- `superblock.n_inodeblocks`. -/
def nInodeblocks : Nat := (D 0).ref 0

/-- `superblock.free_list`, the data block at the head of the free list. -/
def freeList : Nat := (D 0).ref 1

/-- `superblock.free_offset`, the number of entries of the head. -/
def freeOffset : Nat := (D 0).ref 2

/-- The number of inodes the superblock announces. -/
def ninodes : Nat := D.nInodeblocks * g.inodesPerBlock

/-- The block that holds inode `ino`. -/
def inodeBlockno (_D : Image g) (ino : Nat) : Nat := 1 + ino / g.inodesPerBlock

/-- Word `i` of an inode. -/
def inodeWord (ino i : Nat) : Nat :=
  (D (D.inodeBlockno ino)).ref (16 * (ino % g.inodesPerBlock) + i)

/-- `inodes[ino].nblocks`. -/
def nblocks (ino : Nat) : Nat := D.inodeWord ino 0

end Image

theorem inode_words_lt (g : Geometry) (ino : Nat) {i : Nat} (hi : i < 16) :
    16 * (ino % g.inodesPerBlock) + i < g.refsPerBlock := by
  have h := g.sixteen_mul_inodesPerBlock
  have hm := Nat.mod_lt ino g.inodesPerBlock_pos
  omega

end Egos.Disk.Unixdisk
