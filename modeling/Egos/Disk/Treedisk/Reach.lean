import Egos.Disk.Treedisk.Scan
import Egos.Disk.Treedisk.Files

/-!
# What reads can reach

`reached` collects the references that `treedisk_read` can follow below a node for the
offsets before the end of the file, each reference once. The check follows all of these;
in a small file without references past its end it follows nothing else, and these are
all the blocks of the tree.
-/
namespace Egos.Disk.Treedisk

open Egos.Lib

set_option autoImplicit false

variable {g : Geometry} {D : Image g}

/-- The references below `b` that lead to offsets before `limit`, counted from the first
offset of its tree. -/
def reached (D : Image g) : Nat → Nat → Nat → Multiset Nat
  | 0, _, b => single b
  | levels + 1, limit, b =>
    if b = 0 then 0
    else {b} + ∑ i ∈ Finset.range g.refsPerBlock, if i * capacity g levels < limit
      then reached D levels (limit - i * capacity g levels) ((D b).ref i) else 0

section

variable {nblocks : Nat} (size : Nat) (scan : Nat → Nat → Multiset Nat) (ib : Block g)

/-- The loop follows each reference whose offset is before the end; where the offsets do
not wrap, it follows no other. -/
theorem le_scannedRefs (hn : nblocks < 2 ^ 32) (left : Nat) (hleft : left ≤ g.refsPerBlock)
    {offset : Nat} (hoff : offset < nblocks) :
    ∑ i ∈ Finset.Ico (g.refsPerBlock - left) g.refsPerBlock,
        (if offset + (i - (g.refsPerBlock - left)) * size < nblocks then
          scan (ib.ref i) (offset + (i - (g.refsPerBlock - left)) * size) else 0) ≤
      scannedRefs scan nblocks size ib left offset ∧
    (nblocks + size ≤ 2 ^ 32 →
      scannedRefs scan nblocks size ib left offset =
        ∑ i ∈ Finset.Ico (g.refsPerBlock - left) g.refsPerBlock,
          (if offset + (i - (g.refsPerBlock - left)) * size < nblocks then
            scan (ib.ref i) (offset + (i - (g.refsPerBlock - left)) * size) else 0)) := by
  induction left generalizing offset with
  | zero => simp [scannedRefs]
  | succ left ih =>
    have hnext : g.refsPerBlock - (left + 1) + 1 = g.refsPerBlock - left := by omega
    unfold scannedRefs
    rw [Finset.sum_eq_sum_Ico_succ_bot (show g.refsPerBlock - (left + 1) < g.refsPerBlock by omega),
      hnext, Nat.sub_self, Nat.zero_mul, Nat.add_zero, if_pos hoff]
    -- the rest of the sum, seen from the next offset
    have hrest : ∀ i ∈ Finset.Ico (g.refsPerBlock - left) g.refsPerBlock,
        offset + (i - (g.refsPerBlock - (left + 1))) * size =
          offset + size + (i - (g.refsPerBlock - left)) * size := by
      intro i hi
      have hle := (Finset.mem_Ico.mp hi).1
      have hsub : i - (g.refsPerBlock - (left + 1)) = i - (g.refsPerBlock - left) + 1 := by omega
      rw [hsub, Nat.add_mul, Nat.one_mul]
      omega
    rw [Finset.sum_congr rfl fun i hi => by rw [hrest i hi]]
    by_cases hend : nblocks ≤ offset + size
    · have hzero : ∑ i ∈ Finset.Ico (g.refsPerBlock - left) g.refsPerBlock,
          (if offset + size + (i - (g.refsPerBlock - left)) * size < nblocks then
            scan (ib.ref i) (offset + size + (i - (g.refsPerBlock - left)) * size) else 0) = 0 :=
        Finset.sum_eq_zero fun i _ => if_neg (by omega)
      rw [hzero, add_zero]
      refine ⟨Multiset.le_add_right _ _, fun hsize => ?_⟩
      rw [Nat.mod_eq_of_lt (by omega), if_pos hend, add_zero]
    · obtain ⟨hle, heq⟩ := ih (by omega) (show offset + size < nblocks by omega)
      rw [Nat.mod_eq_of_lt (show offset + size < 2 ^ 32 by omega), if_neg hend]
      exact ⟨add_le_add_right hle _, fun hsize => by rw [heq hsize]⟩

end

/-- The size of a sub-tree as `check_inode` computes it. -/
theorem subtree_size {levels : Nat} (h : capacity g levels < 2 ^ 32) :
    1 <<< (levels * logRpb g) % 2 ^ 32 = capacity g levels := by
  rw [Nat.one_shiftLeft, logRpb_eq, ← capacity_eq, Nat.mod_eq_of_lt h]

/-- The check follows every reference that a read can follow. -/
theorem reached_le_scanned {nblocks levels : Nat} (hn : nblocks < 2 ^ 32)
    (hcap : ∀ l, l < levels → capacity g l < 2 ^ 32) {b : Nat} (offset : Nat)
    (hoff : offset < nblocks) :
    reached D levels (nblocks - offset) b ≤ scanned D nblocks levels b offset := by
  induction levels generalizing b offset with
  | zero => exact le_refl _
  | succ levels ih =>
    unfold reached scanned
    split
    · exact le_refl _
    · rw [subtree_size (hcap levels (Nat.lt_succ_self _))]
      have hloop := (le_scannedRefs (capacity g levels) (scanned D nblocks levels) (D b) hn
        g.refsPerBlock (Nat.le_refl _) hoff).1
      rw [Nat.sub_self, ← Finset.range_eq_Ico] at hloop
      refine add_le_add_right (le_trans (Finset.sum_le_sum fun i _ => ?_) hloop) _
      rw [Nat.sub_zero]
      by_cases hlt : offset + i * capacity g levels < nblocks
      · rw [if_pos hlt, if_pos (by omega), Nat.sub_sub]
        exact ih (fun l hl => hcap l (by omega)) _ hlt
      · rw [if_neg (by omega)]
        exact Multiset.zero_le _

/-- Without references past the end, and with offsets that do not wrap, the check follows
each block of the tree once. -/
theorem scanned_eq_nodes {nblocks levels : Nat}
    (hcap : ∀ l, l < levels → nblocks + capacity g l ≤ 2 ^ 32) {b offset : Nat}
    (hoff : offset < nblocks) (htrim : Trimmed D levels (nblocks - offset) b) :
    scanned D nblocks levels b offset = nodes D levels b := by
  induction levels generalizing b offset with
  | zero => rfl
  | succ levels ih =>
    unfold scanned
    split
    · rename_i hb
      rw [hb, nodes_hole]
    · rename_i hb
      have hlast := hcap levels (Nat.lt_succ_self _)
      rw [nodes_succ hb, subtree_size (by omega), ← Multiset.singleton_add]
      have hp := capacity_pos g levels
      have hloop := (le_scannedRefs (capacity g levels) (scanned D nblocks levels) (D b)
        (show nblocks < 2 ^ 32 by omega) g.refsPerBlock (Nat.le_refl _) hoff).2 hlast
      rw [Nat.sub_self, ← Finset.range_eq_Ico] at hloop
      rw [hloop]
      congr 1
      refine Finset.sum_congr rfl fun i hi => ?_
      have hchild := htrim.2 hb i (Finset.mem_range.mp hi)
      rw [Nat.sub_zero]
      by_cases hlt : offset + i * capacity g levels < nblocks
      · rw [if_pos hlt]
        exact ih (fun l hl => hcap l (by omega)) hlt (by rw [← Nat.sub_sub]; exact hchild)
      · rw [if_neg hlt]
        have hz : nblocks - offset - i * capacity g levels = 0 := by omega
        rw [hz] at hchild
        rw [hchild.eq_zero, nodes_hole]

end Egos.Disk.Treedisk
