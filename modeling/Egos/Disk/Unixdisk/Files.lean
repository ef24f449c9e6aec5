import Mathlib.Algebra.BigOperators.Group.Finset.Basic
import Egos.Disk.Unixdisk.Free

/-!
# The files of a disk

Between two calls every data block is on the free list or belongs to one file, as a data
block or as an indirect block. A call on one inode changes the blocks of its file and free
ones, so the other files stay as they are.
-/
namespace Egos.Disk.Unixdisk

open Egos.Lib
open Treedisk (At Frame)

set_option autoImplicit false

variable {g : Geometry} {σ : Type} {D D' : Image g} {n ino : Nat} {l l' : List Nat}

namespace Image

variable (D : Image g)

/-- The data block with the contents of a file at an offset. -/
def blockAt (ino t : Nat) : Nat := Unixdisk.blockAt g.refsPerBlock (D.inodeWord ino) (pointers D) t

def dataBlocks (ino : Nat) : List Nat := (List.range (D.nblocks ino)).map (D.blockAt ino)

def indirectBlocks (ino : Nat) : List Nat :=
  indirects g.refsPerBlock (D.inodeWord ino) (pointers D) (D.nblocks ino)

/-- The blocks of a file in the order they were taken. -/
def fileBlocks (ino : Nat) : List Nat :=
  Unixdisk.fileBlocks g.refsPerBlock (D.inodeWord ino) (pointers D) (D.nblocks ino)

def contents (ino t : Nat) : Block g := D (dataBlock D.nInodeblocks (D.blockAt ino t))

theorem fileBlocks_perm (ino : Nat) :
    (D.fileBlocks ino).Perm (D.dataBlocks ino ++ D.indirectBlocks ino) :=
  Unixdisk.fileBlocks_perm _ _ _ _

theorem fileBlocks_length (ino : Nat) :
    (D.fileBlocks ino).length = blocksFor g.refsPerBlock (D.nblocks ino) :=
  Unixdisk.fileBlocks_length _ _ _ _

end Image

/-- The snapshot of an inode as the disk has it. -/
def snapshotOf (D : Image g) (ino : Nat) : Snapshot g :=
  ⟨D 0, D (D.inodeBlockno ino), D.inodeBlockno ino, ino⟩

theorem snapshotOf_word (D : Image g) (ino : Nat) : (snapshotOf D ino).word = D.inodeWord ino := rfl

theorem snapshotOf_nblocks (D : Image g) (ino : Nat) :
    (snapshotOf D ino).nblocks = D.nblocks ino := rfl

theorem inodeBlockno_le (hino : ino < D.ninodes) : D.inodeBlockno ino ≤ D.nInodeblocks := by
  have hp := g.inodesPerBlock_pos
  have hlt := Nat.div_lt_of_lt_mul (show ino < g.inodesPerBlock * D.nInodeblocks by
    rw [Nat.mul_comm]
    exact hino)
  unfold Image.inodeBlockno
  omega

theorem inodeBlockno_pos (D : Image g) (ino : Nat) : 1 ≤ D.inodeBlockno ino :=
  Nat.le_add_right 1 _

/-- Every data block is free or belongs to one file, and no file reaches the triple indirect
block. -/
structure Valid (n : Nat) (D : Image g) (l : List Nat) : Prop where
  stack : FreeStack D D.nInodeblocks D.freeList D.freeOffset l
  total : (l : Multiset Nat) + ∑ ino ∈ Finset.range D.ninodes, (D.fileBlocks ino : Multiset Nat) =
    Multiset.range (n - 1 - D.nInodeblocks)
  inodes_lt : D.nInodeblocks < n
  small : ∀ ino, ino < D.ninodes → D.nblocks ino ≤ 12 + g.refsPerBlock + g.epb2

namespace Valid

theorem file_le (hv : Valid n D l) (hino : ino < D.ninodes) :
    (l : Multiset Nat) + (D.fileBlocks ino : Multiset Nat) ≤
      Multiset.range (n - 1 - D.nInodeblocks) := by
  rw [← hv.total]
  exact Multiset.add_le_add_left (Finset.single_le_sum
    (f := fun ino => (D.fileBlocks ino : Multiset Nat)) (fun _ _ => Multiset.zero_le _)
    (Finset.mem_range.mpr hino))

theorem nodup (hv : Valid n D l) (hino : ino < D.ninodes) : (l ++ D.fileBlocks ino).Nodup := by
  have hle := hv.file_le hino
  rw [Multiset.coe_add] at hle
  exact Multiset.coe_nodup.mp (Multiset.nodup_of_le hle (Multiset.nodup_range _))

theorem range (hv : Valid n D l) (hino : ino < D.ninodes) :
    ∀ b ∈ l ++ D.fileBlocks ino, dataBlock D.nInodeblocks b < n := by
  intro b hb
  have hle := hv.file_le hino
  rw [Multiset.coe_add] at hle
  have hlt := Multiset.mem_range.mp (Multiset.mem_of_le hle hb)
  unfold dataBlock
  omega

theorem free_le (hv : Valid n D l) : (l : Multiset Nat) ≤ Multiset.range (n - 1 - D.nInodeblocks) := by
  rw [← hv.total]
  exact Multiset.le_add_right _ _

theorem free_nodup (hv : Valid n D l) : l.Nodup :=
  Multiset.coe_nodup.mp (Multiset.nodup_of_le hv.free_le (Multiset.nodup_range _))

theorem free_range (hv : Valid n D l) : ∀ b ∈ l, dataBlock D.nInodeblocks b < n := by
  intro b hb
  have hlt := Multiset.mem_range.mp (Multiset.mem_of_le hv.free_le hb)
  unfold dataBlock
  omega

theorem stocked (hv : Valid n D l) (ino : Nat) : Stocked n D (snapshotOf D ino) l :=
  ⟨rfl, hv.stack, hv.free_nodup, hv.free_range, hv.inodes_lt⟩

theorem disjoint (hv : Valid n D l) (hino : ino < D.ninodes) {ino' : Nat}
    (hino' : ino' < D.ninodes) (hne : ino' ≠ ino) {b : Nat} (hb : b ∈ l ++ D.fileBlocks ino) :
    b ∉ D.fileBlocks ino' := by
  have hle : (l : Multiset Nat) + ((D.fileBlocks ino : Multiset Nat) +
      (D.fileBlocks ino' : Multiset Nat)) ≤ Multiset.range (n - 1 - D.nInodeblocks) := by
    rw [← hv.total, ← Finset.add_sum_erase _ _ (Finset.mem_range.mpr hino)]
    refine Multiset.add_le_add_left (Multiset.add_le_add_left ?_)
    exact Finset.single_le_sum (f := fun ino => (D.fileBlocks ino : Multiset Nat))
      (fun _ _ => Multiset.zero_le _) (Finset.mem_erase.mpr ⟨hne, Finset.mem_range.mpr hino'⟩)
  rw [← add_assoc, Multiset.coe_add, Multiset.coe_add] at hle
  have hnd := Multiset.coe_nodup.mp (Multiset.nodup_of_le hle (Multiset.nodup_range _))
  exact fun hb' => (List.nodup_append.mp hnd).2.2 b hb b hb' rfl

end Valid

/-- A file that a call on another inode left alone. -/
structure SameFile (D D' : Image g) (ino : Nat) : Prop where
  nblocks : D'.nblocks ino = D.nblocks ino
  blocks : D'.fileBlocks ino = D.fileBlocks ino
  contents : ∀ t, t < D.nblocks ino → D'.contents ino t = D.contents ino t

/-- Only blocks of one file and free ones changed, and the words of its inode. -/
structure Local (D D' : Image g) (ino : Nat) (S : List Nat) : Prop where
  frame : Frame D D' (D.inodeBlockno ino ::ₘ (S.map (dataBlock D.nInodeblocks) : List Nat))
  others : ∀ p, (∀ k, k < 16 → p ≠ 16 * (ino % g.inodesPerBlock) + k) →
    (D' (D.inodeBlockno ino)).ref p = (D (D.inodeBlockno ino)).ref p

namespace Local

variable {S : List Nat} {ino' : Nat}

theorem nInodeblocks (h : Local D D' ino S) : D'.nInodeblocks = D.nInodeblocks :=
  nInodeblocks_eq h.frame

theorem inodeWord_eq (h : Local D D' ino S) (hino' : ino' < D.ninodes) (hne : ino' ≠ ino)
    {k : Nat} (hk : k < 16) : D'.inodeWord ino' k = D.inodeWord ino' k := by
  change (D' (D.inodeBlockno ino')).ref _ = (D (D.inodeBlockno ino')).ref _
  by_cases hblock : D.inodeBlockno ino' = D.inodeBlockno ino
  · have hmod : ino' % g.inodesPerBlock ≠ ino % g.inodesPerBlock := by
      have hdiv : ino' / g.inodesPerBlock = ino / g.inodesPerBlock := by
        unfold Image.inodeBlockno at hblock
        omega
      intro he
      apply hne
      rw [← Nat.div_add_mod ino' g.inodesPerBlock, hdiv, he, Nat.div_add_mod]
    rw [hblock]
    exact h.others _ fun j hj => by omega
  · have hle := inodeBlockno_le hino'
    have hpos := inodeBlockno_pos D ino'
    rw [h.frame.outside _ (by omega) fun hmem => ?_]
    rcases Multiset.mem_cons.mp hmem with he | hmem
    · exact hblock he
    · obtain ⟨b, -, he⟩ := List.mem_map.mp hmem
      exact dataBlock_ne_inodeblock hle b he

theorem data_eq (h : Local D D' ino S) (hino : ino < D.ninodes) {b : Nat} (hb : b ∉ S) :
    D' (dataBlock D'.nInodeblocks b) = D (dataBlock D.nInodeblocks b) := by
  rw [h.nInodeblocks]
  apply h.frame.outside _ (dataBlock_ne_zero _ b)
  intro hmem
  rcases Multiset.mem_cons.mp hmem with he | hmem
  · exact dataBlock_ne_inodeblock (inodeBlockno_le hino) b he
  · obtain ⟨c, hc, he⟩ := List.mem_map.mp hmem
    exact hb (dataBlock_inj.mp he ▸ hc)

theorem sameFile (h : Local D D' ino S) (hino : ino < D.ninodes) (hino' : ino' < D.ninodes)
    (hne : ino' ≠ ino) (hS : ∀ b ∈ D.fileBlocks ino', b ∉ S) : SameFile D D' ino' := by
  have h16 := g.sixteen_le
  have hsize : D'.nblocks ino' = D.nblocks ino' := h.inodeWord_eq hino' hne (by omega)
  have hsame : SamePointers g.refsPerBlock (D.inodeWord ino') (D'.inodeWord ino') (pointers D)
      (pointers D') (D.nblocks ino') := by
    apply SamePointers.of_indirects (by omega) fun k hk => h.inodeWord_eq hino' hne hk
    intro b hb
    exact congrArg Treedisk.Block.ref (h.data_eq hino (hS b (mem_of_indirects hb)))
  refine ⟨hsize, ?_, fun t ht => ?_⟩
  · unfold Image.fileBlocks
    rw [hsize]
    exact hsame.fileBlocks_eq (by omega)
  · have hblock : D'.blockAt ino' t = D.blockAt ino' t := hsame.blockAt_eq (by omega) ht
    unfold Image.contents
    rw [hblock]
    exact h.data_eq hino (hS _ (blockAt_mem ht))

end Local

theorem Valid.of_perm (hv : Valid n D l) (hino : ino < D.ninodes)
    (hnib : D'.nInodeblocks = D.nInodeblocks)
    (hstack : FreeStack D' D'.nInodeblocks D'.freeList D'.freeOffset l')
    (hperm : (l' ++ D'.fileBlocks ino).Perm (l ++ D.fileBlocks ino))
    (hsame : ∀ ino', ino' < D.ninodes → ino' ≠ ino → SameFile D D' ino')
    (hsmall : D'.nblocks ino ≤ 12 + g.refsPerBlock + g.epb2) : Valid n D' l' := by
  have hni : D'.ninodes = D.ninodes := by
    unfold Image.ninodes
    rw [hnib]
  constructor
  · exact hstack
  · have hmem := Finset.mem_range.mpr hino
    rw [hni, hnib, ← hv.total, ← Finset.add_sum_erase _ _ hmem, ← add_assoc, Multiset.coe_add,
      Multiset.coe_eq_coe.mpr hperm, ← Multiset.coe_add, add_assoc,
      ← Finset.add_sum_erase _ (fun ino => (D.fileBlocks ino : Multiset Nat)) hmem]
    congr 2
    apply Finset.sum_congr rfl
    intro ino' hino'
    obtain ⟨hne, hlt⟩ := Finset.mem_erase.mp hino'
    rw [(hsame ino' (Finset.mem_range.mp hlt) hne).blocks]
  · rw [hnib]
    exact hv.inodes_lt
  · intro ino' hino'
    rw [hni] at hino'
    by_cases hne : ino' = ino
    · rw [hne]
      exact hsmall
    · rw [(hsame ino' hino' hne).nblocks]
      exact hv.small ino' hino'

end Egos.Disk.Unixdisk
