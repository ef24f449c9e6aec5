import Mathlib.Data.Fintype.Pi
import Egos.Disk.Store

/-!
# The layout of a treedisk, `treedisk.h`

A block is seen through the unions of the header as `REFS_PER_BLOCK` words of
type `block_no`. The two builds of the source differ in `BLOCK_SIZE` only: 1024
bytes in the system and 32 bytes in `tiny_test`, that is 256 and 8 references to
a block. `Geometry` covers both.
-/
namespace Egos.Disk.Treedisk

set_option autoImplicit false

/-- `BLOCK_SIZE`, by the logarithm of `REFS_PER_BLOCK`. -/
structure Geometry where
  bits : Nat
  two_le : 2 ≤ bits
  le_eight : bits ≤ 8

namespace Geometry

variable (g : Geometry)

/-- `BLOCK_SIZE`: a `block_no` has four bytes. -/
def blockSize : Nat := 4 * 2 ^ g.bits

/-- `BLOCK_SIZE / sizeof(block_no)`. -/
def refsPerBlock : Nat := g.blockSize / 4

/-- `BLOCK_SIZE / sizeof(struct treedisk_inode)`. -/
def inodesPerBlock : Nat := g.blockSize / 8

/-- The system's blocks of 1024 bytes. -/
def system : Geometry := ⟨8, by decide, by decide⟩

/-- The blocks of `test/tiny_test`, `8 * sizeof(block_no)` bytes. -/
def tiny : Geometry := ⟨3, by decide, by decide⟩

theorem refsPerBlock_eq : g.refsPerBlock = 2 ^ g.bits := by
  unfold refsPerBlock blockSize
  omega

theorem four_le_refs : 4 ≤ g.refsPerBlock := by
  rw [refsPerBlock_eq]
  have h : 2 ^ 2 ≤ 2 ^ g.bits := Nat.pow_le_pow_right (by decide) g.two_le
  omega

theorem refs_le : g.refsPerBlock ≤ 256 := by
  rw [refsPerBlock_eq]
  have h : 2 ^ g.bits ≤ 2 ^ 8 := Nat.pow_le_pow_right (by decide) g.le_eight
  omega

theorem two_mul_inodesPerBlock : 2 * g.inodesPerBlock = g.refsPerBlock := by
  have h : 2 ^ g.bits = 2 * 2 ^ (g.bits - 1) := by
    have hb := g.two_le
    rw [← pow_succ']
    congr 1
    omega
  unfold inodesPerBlock refsPerBlock blockSize
  omega

theorem inodesPerBlock_pos : 0 < g.inodesPerBlock := by
  have h := g.two_mul_inodesPerBlock
  have h4 := g.four_le_refs
  omega

end Geometry

/-- `block_t` as words. -/
def Block (g : Geometry) : Type := Fin g.refsPerBlock → Nat

instance (g : Geometry) : DecidableEq (Block g) :=
  inferInstanceAs (DecidableEq (Fin g.refsPerBlock → Nat))

variable {g : Geometry}

namespace Block

/-- A block of null bytes. -/
def zero : Block g := fun _ => 0

instance : Inhabited (Block g) := ⟨zero⟩

/-- `refs[i]`. The code only reads indices below `REFS_PER_BLOCK`. -/
def ref (b : Block g) (i : Nat) : Nat := if h : i < g.refsPerBlock then b ⟨i, h⟩ else 0

/-- `refs[i] = r`. -/
def setRef (b : Block g) (i r : Nat) : Block g := fun j => if j.val = i then r else b j

theorem ref_setRef {b : Block g} {i : Nat} (hi : i < g.refsPerBlock) (r j : Nat) :
    (b.setRef i r).ref j = if j = i then r else b.ref j := by
  unfold ref setRef
  by_cases hj : j < g.refsPerBlock
  · simp only [hj, ↓reduceDIte]
  · have hne : j ≠ i := by omega
    simp [hj, hne]

@[simp] theorem ref_zero (i : Nat) : (zero : Block g).ref i = 0 := by simp [ref, zero]

theorem ext_ref {b c : Block g} (h : ∀ i, i < g.refsPerBlock → b.ref i = c.ref i) : b = c := by
  funext i
  have hi := h i.val i.isLt
  simpa [ref] using hi

theorem setRef_self {b : Block g} {i : Nat} : b.setRef i (b.ref i) = b := by
  funext j
  unfold setRef
  split
  · rename_i h; subst h; simp [ref]
  · rfl

theorem setRef_setRef (b : Block g) (i r r' : Nat) : (b.setRef i r).setRef i r' = b.setRef i r' := by
  funext j
  unfold setRef
  split <;> rfl

end Block

/-- The contents of the inode of the store below that holds the file system. -/
abbrev Image (g : Geometry) := Nat → Block g

namespace Image

variable (D : Image g)

/-- `superblock.n_inodeblocks`. -/
def nInodeblocks : Nat := (D 0).ref 0

/-- `superblock.free_list`. -/
def freeList : Nat := (D 0).ref 1

/-- The number of inodes the superblock announces. -/
def ninodes : Nat := D.nInodeblocks * g.inodesPerBlock

/-- The block that holds inode `ino`. -/
def inodeBlockno (_D : Image g) (ino : Nat) : Nat := 1 + ino / g.inodesPerBlock

/-- `inodes[ino].root`. -/
def root (ino : Nat) : Nat := (D (D.inodeBlockno ino)).ref (2 * (ino % g.inodesPerBlock))

/-- `inodes[ino].nblocks`. -/
def nblocks (ino : Nat) : Nat := (D (D.inodeBlockno ino)).ref (2 * (ino % g.inodesPerBlock) + 1)

end Image

theorem inode_words_lt (g : Geometry) (ino : Nat) :
    2 * (ino % g.inodesPerBlock) + 1 < g.refsPerBlock := by
  have h := g.two_mul_inodesPerBlock
  have hm := Nat.mod_lt ino g.inodesPerBlock_pos
  omega

end Egos.Disk.Treedisk
