import Egos.Disk.Sparse
import Egos.Disk.Treedisk.Walk

/-!
# The files of a treedisk

`Valid` is the invariant of the disk: the trees of all inodes and the free list
share out the blocks behind the inode blocks, each block once. `Sound` is what a write
that ran out of blocks leaves of it: blocks may have got lost, and a file of one block
may have no root yet. `Represents` reads the inodes as sparse files. An operation on one
inode exchanges blocks between its tree and the free list, so everything about the other
inodes stays.
-/
namespace Egos.Disk.Treedisk

open Egos.Lib

set_option autoImplicit false

variable {g : Geometry} {σ : Type} {D D' : Image g}

namespace Image

/-- The depth of the tree of an inode. -/
def levels (D : Image g) (ino : Nat) : Nat := levelsOf g (D.nblocks ino)

/-- The blocks of the tree of an inode. -/
def tree (D : Image g) (ino : Nat) : Multiset Nat := nodes D (D.levels ino) (D.root ino)

/-- The tree of an inode has no references past the end of the file. -/
def Trim (D : Image g) (ino : Nat) : Prop :=
  Trimmed D (D.levels ino) (D.nblocks ino) (D.root ino)

/-- The block of an inode at an offset. -/
def contents (D : Image g) (ino offset : Nat) : Block g :=
  if offset < capacity g (D.levels ino) then lookup D offset (D.levels ino) (D.root ino)
  else Block.zero

end Image

structure Valid (n : Nat) (D : Image g) : Prop where
  inodes_lt : D.nInodeblocks < n
  size_lt : ∀ ino, ino < D.ninodes → D.nblocks ino < 2 ^ 32
  root_zero : ∀ ino, ino < D.ninodes → D.nblocks ino = 0 → D.root ino = 0
  root_ne : ∀ ino, ino < D.ninodes → 0 < D.nblocks ino → D.root ino ≠ 0
  partition : ∃ F, Free D D.freeList F ∧
    ∑ ino ∈ Finset.range D.ninodes, D.tree ino + F = (Finset.Ico (1 + D.nInodeblocks) n).val

structure Sound (n : Nat) (D : Image g) : Prop where
  inodes_lt : D.nInodeblocks < n
  size_lt : ∀ ino, ino < D.ninodes → D.nblocks ino < 2 ^ 32
  root_zero : ∀ ino, ino < D.ninodes → D.nblocks ino = 0 → D.root ino = 0
  root_ne : ∀ ino, ino < D.ninodes → 1 < D.nblocks ino → D.root ino ≠ 0
  parts : ∃ F, Free D D.freeList F ∧
    ∑ ino ∈ Finset.range D.ninodes, D.tree ino + F ≤ (Finset.Ico (1 + D.nInodeblocks) n).val

theorem Valid.sound {n : Nat} (hv : Valid n D) : Sound n D := by
  obtain ⟨F, hfree, hF⟩ := hv.partition
  exact ⟨hv.inodes_lt, hv.size_lt, hv.root_zero, fun ino hino h => hv.root_ne ino hino (by omega),
    F, hfree, hF.le⟩

/-- The inodes hold these files, as far as 32-bit offsets tell. -/
structure Represents (D : Image g) (files : Files (Block g)) : Prop where
  size : ∀ ino, ino < D.ninodes → D.nblocks ino = (files ino).size
  data : ∀ ino, ino < D.ninodes → ∀ offset, offset < 2 ^ 32 →
    D.contents ino offset = (files ino).data offset
  blank : ∀ ino, ino < D.ninodes → (files ino).Blank Block.zero

theorem inodeBlockno_ne_zero (D : Image g) (ino : Nat) : D.inodeBlockno ino ≠ 0 := by
  unfold Image.inodeBlockno
  rw [Nat.add_comm]
  exact Nat.succ_ne_zero _

theorem inodeBlockno_le {ino : Nat} (h : ino < D.ninodes) :
    D.inodeBlockno ino ≤ D.nInodeblocks := by
  unfold Image.ninodes at h
  unfold Image.inodeBlockno
  have hd : ino / g.inodesPerBlock < D.nInodeblocks :=
    Nat.div_lt_of_lt_mul (by rw [Nat.mul_comm]; exact h)
  omega

theorem inode_word_ne {ino ino' : Nat} (h : ino' ≠ ino)
    (hb : ino' / g.inodesPerBlock = ino / g.inodesPerBlock) :
    ino' % g.inodesPerBlock ≠ ino % g.inodesPerBlock := by
  intro hm
  have h1 := Nat.div_add_mod ino' g.inodesPerBlock
  have h2 := Nat.div_add_mod ino g.inodesPerBlock
  rw [hb, hm, h2] at h1
  exact h h1.symm

/-- One inode and its tree changed; the free list took the difference. -/
structure Changed (D D' : Image g) (ino : Nat) (F F' : Multiset Nat) : Prop where
  free : Free D' D'.freeList F'
  total : D'.tree ino + F' = D.tree ino + F
  frame : Frame D D' (D.inodeBlockno ino ::ₘ (D.tree ino + F))
  words : ∀ i, i ≠ 2 * (ino % g.inodesPerBlock) → i ≠ 2 * (ino % g.inodesPerBlock) + 1 →
    (D' (D.inodeBlockno ino)).ref i = (D (D.inodeBlockno ino)).ref i

/-- The blocks behind the inode blocks, seen from one inode: its tree, the free list
`F` and the trees of the other inodes, each block at most once. -/
structure Within (n : Nat) (D : Image g) (ino : Nat) (F : Multiset Nat) : Prop where
  free : Free D D.freeList F
  total : D.tree ino + F + ∑ i ∈ (Finset.range D.ninodes).erase ino, D.tree i ≤
    (Finset.Ico (1 + D.nInodeblocks) n).val

theorem Sound.inodeBlockno_lt {n : Nat} (hv : Sound n D) {ino : Nat} (hino : ino < D.ninodes) :
    D.inodeBlockno ino < n :=
  Nat.lt_of_le_of_lt (inodeBlockno_le hino) hv.inodes_lt

theorem Sound.within {n : Nat} (hv : Sound n D) {ino : Nat} (hino : ino < D.ninodes) :
    ∃ F, Within n D ino F := by
  obtain ⟨F, hfree, hF⟩ := hv.parts
  refine ⟨F, hfree, ?_⟩
  rw [← Finset.add_sum_erase _ _ (Finset.mem_range.mpr hino), add_right_comm] at hF
  exact hF

namespace Within

variable {n ino : Nat} {F : Multiset Nat} (h : Within n D ino F)

include h

theorem nodup_all : (D.tree ino + F + ∑ i ∈ (Finset.range D.ninodes).erase ino, D.tree i).Nodup :=
  Multiset.nodup_of_le h.total (Finset.Ico _ _).nodup

theorem nodup : (D.tree ino + F).Nodup := (Multiset.nodup_add.mp h.nodup_all).1

theorem range_all {x : Nat}
    (hx : x ∈ D.tree ino + F + ∑ i ∈ (Finset.range D.ninodes).erase ino, D.tree i) :
    D.nInodeblocks < x ∧ x < n := by
  have hm := Multiset.mem_of_le h.total hx
  rw [Finset.mem_val, Finset.mem_Ico] at hm
  omega

theorem range {x : Nat} (hx : x ∈ D.tree ino + F) : D.nInodeblocks < x ∧ x < n :=
  h.range_all (Multiset.mem_add.mpr (.inl hx))

theorem inodeBlockno_not_mem {i : Nat} (hi : i < D.ninodes) :
    D.inodeBlockno i ∉ D.tree ino + F := by
  intro hx
  have hr := h.range hx
  have hle := inodeBlockno_le hi
  omega

theorem apart (hino : ino < D.ninodes) {i x : Nat} (hi : i < D.ninodes) (hne : i ≠ ino)
    (hx : x ∈ D.tree i) : x ∉ D.inodeBlockno ino ::ₘ (D.tree ino + F) := by
  have hsum : x ∈ ∑ j ∈ (Finset.range D.ninodes).erase ino, D.tree j :=
    Multiset.mem_sum.mpr ⟨i, Finset.mem_erase.mpr ⟨hne, Finset.mem_range.mpr hi⟩, hx⟩
  have hnd := h.nodup_all
  rw [add_comm] at hnd
  rw [Multiset.mem_cons, not_or]
  refine ⟨fun he => ?_, not_mem_of_nodup_add hnd hsum⟩
  have hr := h.range_all (Multiset.mem_add.mpr (.inr hsum))
  have hle := inodeBlockno_le hino
  omega

end Within

namespace Changed

variable {n ino : Nat} {F F' : Multiset Nat} (hc : Changed D D' ino F F') (hs : Within n D ino F)
  (hino : ino < D.ninodes)

include hc

theorem ninodes : D'.ninodes = D.ninodes := by
  unfold Image.ninodes
  rw [hc.frame.inodeblocks]

include hs

theorem other_inode {i : Nat} (hi : i < D.ninodes) (hne : i ≠ ino) :
    D'.root i = D.root i ∧ D'.nblocks i = D.nblocks i := by
  unfold Image.root Image.nblocks
  by_cases hb : i / g.inodesPerBlock = ino / g.inodesPerBlock
  · have hblock : D.inodeBlockno i = D.inodeBlockno ino := by
      unfold Image.inodeBlockno
      rw [hb]
    have hblock' : D'.inodeBlockno i = D.inodeBlockno ino := hblock
    have hword := inode_word_ne hne hb
    rw [hblock, hblock']
    exact ⟨hc.words _ (by omega) (by omega), hc.words _ (by omega) (by omega)⟩
  · have hblock : D.inodeBlockno i ≠ D.inodeBlockno ino := by
      unfold Image.inodeBlockno
      exact fun he => hb (Nat.add_left_cancel he)
    have hsame : D' (D'.inodeBlockno i) = D (D.inodeBlockno i) := by
      refine hc.frame.outside _ (inodeBlockno_ne_zero D i) ?_
      rw [Multiset.mem_cons, not_or]
      exact ⟨hblock, hs.inodeBlockno_not_mem hi⟩
    rw [hsame]
    exact ⟨rfl, rfl⟩

include hino

theorem other_tree {i : Nat} (hi : i < D.ninodes) (hne : i ≠ ino) :
    D'.tree i = D.tree i ∧ ∀ offset, D'.contents i offset = D.contents i offset := by
  obtain ⟨hroot, hsize⟩ := hc.other_inode hs hi hne
  have hl : D'.levels i = D.levels i := by
    unfold Image.levels
    rw [hsize]
  unfold Image.tree Image.contents
  rw [hl, hroot]
  have hapart := fun x (hx : x ∈ D.tree i) => hs.apart hino hi hne hx
  refine ⟨hc.frame.nodes_eq hapart, fun offset => ?_⟩
  rw [hc.frame.lookup_eq hapart]

theorem other_trim {i : Nat} (hi : i < D.ninodes) (hne : i ≠ ino) (ht : D.Trim i) : D'.Trim i := by
  obtain ⟨hroot, hsize⟩ := hc.other_inode hs hi hne
  unfold Image.Trim Image.levels at ht ⊢
  rw [hroot, hsize]
  refine ht.congr fun x hx => hc.frame.outside x (fun he => ?_) (hs.apart hino hi hne hx)
  rw [he] at hx
  exact zero_not_mem_nodes _ _ hx

/-- All trees and the free list have the same blocks as before. -/
theorem sum_eq : ∑ i ∈ Finset.range D'.ninodes, D'.tree i + F' =
    ∑ i ∈ Finset.range D.ninodes, D.tree i + F := by
  have hothers : ∑ i ∈ (Finset.range D.ninodes).erase ino, D'.tree i =
      ∑ i ∈ (Finset.range D.ninodes).erase ino, D.tree i := by
    refine Finset.sum_congr rfl (fun i hi => ?_)
    obtain ⟨hne, hi⟩ := Finset.mem_erase.mp hi
    exact (hc.other_tree hs hino (Finset.mem_range.mp hi) hne).1
  rw [hc.ninodes, ← Finset.add_sum_erase _ _ (Finset.mem_range.mpr hino),
    ← Finset.add_sum_erase _ D.tree (Finset.mem_range.mpr hino), hothers, add_right_comm, hc.total,
    add_right_comm]

theorem sound (hv : Sound n D) (hsize : D'.nblocks ino < 2 ^ 32)
    (hzero : D'.nblocks ino = 0 → D'.root ino = 0)
    (hroot : 1 < D'.nblocks ino → D'.root ino ≠ 0) : Sound n D' := by
  have hn := hc.ninodes
  constructor
  · rw [hc.frame.inodeblocks]
    exact hv.inodes_lt
  · intro i hi
    by_cases hne : i = ino
    · rw [hne]; exact hsize
    · rw [(hc.other_inode hs (hn ▸ hi) hne).2]
      exact hv.size_lt i (hn ▸ hi)
  · intro i hi
    by_cases hne : i = ino
    · rw [hne]; exact hzero
    · rw [(hc.other_inode hs (hn ▸ hi) hne).2, (hc.other_inode hs (hn ▸ hi) hne).1]
      exact hv.root_zero i (hn ▸ hi)
  · intro i hi
    by_cases hne : i = ino
    · rw [hne]; exact hroot
    · rw [(hc.other_inode hs (hn ▸ hi) hne).2, (hc.other_inode hs (hn ▸ hi) hne).1]
      exact hv.root_ne i (hn ▸ hi)
  · obtain ⟨F₀, hfree, hF⟩ := hv.parts
    refine ⟨F', hc.free, ?_⟩
    rw [hc.frame.inodeblocks, hc.sum_eq hs hino, hs.free.unique hfree]
    exact hF

theorem valid (hv : Valid n D) (hsize : D'.nblocks ino < 2 ^ 32)
    (hzero : D'.nblocks ino = 0 → D'.root ino = 0)
    (hroot : 0 < D'.nblocks ino → D'.root ino ≠ 0) : Valid n D' := by
  have hn := hc.ninodes
  have hsound := hc.sound hs hino hv.sound hsize hzero (fun h => hroot (by omega))
  refine ⟨hsound.inodes_lt, hsound.size_lt, hsound.root_zero, ?_, ?_⟩
  · intro i hi
    by_cases hne : i = ino
    · rw [hne]; exact hroot
    · rw [(hc.other_inode hs (hn ▸ hi) hne).2, (hc.other_inode hs (hn ▸ hi) hne).1]
      exact hv.root_ne i (hn ▸ hi)
  · obtain ⟨F₀, hfree, hF⟩ := hv.partition
    refine ⟨F', hc.free, ?_⟩
    rw [hc.frame.inodeblocks, hc.sum_eq hs hino, hs.free.unique hfree]
    exact hF

theorem represents {files : Files (Block g)} (hr : Represents D files) (file : SparseFile (Block g))
    (hsize : D'.nblocks ino = file.size)
    (hdata : ∀ offset, offset < 2 ^ 32 → D'.contents ino offset = file.data offset)
    (hblank : file.Blank Block.zero) : Represents D' (Function.update files ino file) := by
  have hn := hc.ninodes
  constructor
  · intro i hi
    by_cases hne : i = ino
    · rw [hne, Function.update_self]; exact hsize
    · rw [Function.update_of_ne hne, (hc.other_inode hs (hn ▸ hi) hne).2]
      exact hr.size i (hn ▸ hi)
  · intro i hi offset hoff
    by_cases hne : i = ino
    · rw [hne, Function.update_self]; exact hdata offset hoff
    · rw [Function.update_of_ne hne, (hc.other_tree hs hino (hn ▸ hi) hne).2]
      exact hr.data i (hn ▸ hi) offset hoff
  · intro i hi
    by_cases hne : i = ino
    · rw [hne, Function.update_self]; exact hblank
    · rw [Function.update_of_ne hne]
      exact hr.blank i (hn ▸ hi)

end Changed

end Egos.Disk.Treedisk
