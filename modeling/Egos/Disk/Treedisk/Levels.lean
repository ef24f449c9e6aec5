import Mathlib.Tactic.IntervalCases
import Egos.Disk.Treedisk.Operations
import Egos.Lib.Radix

/-!
# The depth of a tree

Three loops of `treedisk.c` compute the number of levels of a tree: two by shifts
and one by products. All three find the least `levels` whose complete tree has
room for the file, as long as nothing wraps around. The products wrap to 0 from
`2 ^ 32` on, and then the loop does not end.
-/
namespace Egos.Disk.Treedisk

open Egos.Lib

set_option autoImplicit false

variable {g : Geometry}

/-- The number of data blocks that a tree of this depth has room for. -/
def capacity (g : Geometry) (levels : Nat) : Nat := g.refsPerBlock ^ levels

theorem capacity_zero (g : Geometry) : capacity g 0 = 1 := rfl

theorem capacity_succ (g : Geometry) (levels : Nat) :
    capacity g (levels + 1) = capacity g levels * g.refsPerBlock := Nat.pow_succ _ _

theorem capacity_pos (g : Geometry) (levels : Nat) : 0 < capacity g levels := by
  have h := g.four_le_refs
  exact Nat.pow_pos (by omega)

theorem capacity_mono {k l : Nat} (h : k ≤ l) : capacity g k ≤ capacity g l := by
  have h4 := g.four_le_refs
  exact Nat.pow_le_pow_right (by omega) h

theorem capacity_eq (g : Geometry) (levels : Nat) : capacity g levels = 2 ^ (levels * g.bits) := by
  unfold capacity
  rw [g.refsPerBlock_eq, ← pow_mul, Nat.mul_comm]

/-- Sixteen levels are enough for any 32-bit number of blocks. -/
theorem le_capacity_sixteen (g : Geometry) : 2 ^ 32 ≤ capacity g 16 := by
  rw [capacity_eq]
  have h := g.two_le
  exact Nat.pow_le_pow_right (by decide) (by omega)

theorem logRpb_eq (g : Geometry) : logRpb g = g.bits := by
  obtain ⟨bits, h2, h8⟩ := g
  interval_cases bits <;>
    simp [logRpb, logRpbLoop, Geometry.refsPerBlock, Geometry.blockSize, Nat.shiftRight_eq_div_pow]

theorem logShiftR_eq {x : Nat} (hx : x < 2 ^ 32) (levels : Nat) :
    logShiftR x (levels * logRpb g) = x / capacity g levels := by
  rw [logRpb_eq, capacity_eq]
  unfold logShiftR
  split
  · rename_i h
    have hp : 2 ^ 32 ≤ 2 ^ (levels * g.bits) := Nat.pow_le_pow_right (by decide) h
    exact (Nat.div_eq_of_lt (by omega)).symm
  · exact Nat.shiftRight_eq_div_pow x _

theorem indexAt_eq {offset : Nat} (hx : offset < 2 ^ 32) (levels : Nat) :
    indexAt g offset levels = offset / capacity g levels % g.refsPerBlock := by
  unfold indexAt
  rw [logShiftR_eq hx]

theorem indexAt_lt (offset levels : Nat) : indexAt g offset levels < g.refsPerBlock := by
  have h := g.four_le_refs
  exact Nat.mod_lt _ (by omega)

/-- Two offsets share the path below an indirect block when they share the index in
it and the path below the child. -/
theorem mod_capacity_succ {x y levels : Nat} (hx : x < 2 ^ 32) (hy : y < 2 ^ 32) :
    x % capacity g (levels + 1) = y % capacity g (levels + 1) ↔
      indexAt g x levels = indexAt g y levels ∧
        x % capacity g levels = y % capacity g levels := by
  have h4 := g.four_le_refs
  rw [indexAt_eq hx, indexAt_eq hy]
  exact mod_pow_succ_eq_iff (by omega)

/-- The loop stops at the first depth with room for offset `x`. -/
theorem countLevelsLoop_le_iff {x : Nat} (hx : x < 2 ^ 32) (k : Nat) :
    ∀ rounds start, 16 ≤ start + rounds → (∀ l, l < start → capacity g l ≤ x) →
      (countLevelsLoop g x rounds start ≤ k ↔ x < capacity g k) := by
  -- whatever is below the current depth is too small, so only the exit test decides
  have hstop : ∀ start, x < capacity g start → (∀ l, l < start → capacity g l ≤ x) →
      (start ≤ k ↔ x < capacity g k) := by
    intro start hroom hsmall
    constructor
    · intro h
      have hm := capacity_mono (g := g) h
      omega
    · intro h
      by_contra hk
      have hs := hsmall k (by omega)
      omega
  intro rounds
  induction rounds with
  | zero =>
    intro start hr hsmall
    have h16 := le_capacity_sixteen g
    have hm := capacity_mono (g := g) (show 16 ≤ start by omega)
    exact hstop start (by omega) hsmall
  | succ rounds ih =>
    intro start hr hsmall
    unfold countLevelsLoop
    rw [logShiftR_eq hx]
    have hp := capacity_pos g start
    split
    · rename_i h
      have hge : capacity g start ≤ x := by
        by_contra hlt
        exact h (Nat.div_eq_of_lt (by omega))
      refine ih (start + 1) (by omega) (fun l hl => ?_)
      have hm := capacity_mono (g := g) (show l ≤ start by omega)
      omega
    · rename_i h
      have hz : x / capacity g start = 0 := by omega
      rw [Nat.div_eq_zero_iff] at hz
      exact hstop start (by omega) hsmall

theorem countLevels_le_iff {x : Nat} (hx : x < 2 ^ 32) (k : Nat) :
    countLevels g x ≤ k ↔ x < capacity g k :=
  countLevelsLoop_le_iff hx k 32 0 (by decide) (by simp)

/-- The depth of a tree is the least one with room for the file. -/
theorem levelsOf_le_iff {nblocks : Nat} (h : nblocks < 2 ^ 32) (k : Nat) :
    levelsOf g nblocks ≤ k ↔ nblocks ≤ capacity g k := by
  unfold levelsOf
  split
  · rw [countLevels_le_iff (by omega)]
    omega
  · omega

theorem le_capacity_levelsOf {nblocks : Nat} (h : nblocks < 2 ^ 32) :
    nblocks ≤ capacity g (levelsOf g nblocks) := (levelsOf_le_iff h _).mp (Nat.le_refl _)

theorem levelsOf_mono {m n : Nat} (hn : n < 2 ^ 32) (h : m ≤ n) :
    levelsOf g m ≤ levelsOf g n := by
  rw [levelsOf_le_iff (by omega)]
  have hc := le_capacity_levelsOf (g := g) hn
  omega

theorem levelsOf_succ (g : Geometry) (offset : Nat) :
    levelsOf g (offset + 1) = countLevels g offset := by
  simp [levelsOf]

/-- Where the products do not wrap they find the same depth as the shifts. -/
theorem levelLoop_some {nblocks level : Nat} (h : nblocks < 2 ^ 32) (hpos : 0 < nblocks) :
    ∀ rounds start maxCapacity, maxCapacity = capacity g start ∨ maxCapacity = 0 →
      (∀ k, k < start → capacity g k < nblocks) →
      levelLoop g nblocks rounds start maxCapacity = some level → level = levelsOf g nblocks := by
  intro rounds
  induction rounds with
  | zero => intro start maxCapacity _ _ hl; simp [levelLoop] at hl
  | succ rounds ih =>
    intro start maxCapacity hmax hsmall hl
    unfold levelLoop at hl
    split at hl
    · rename_i hlt
      refine ih (start + 1) _ ?_ ?_ hl
      · rcases hmax with rfl | rfl
        · rw [← capacity_succ, capacity_eq]
          rcases Nat.lt_or_ge ((start + 1) * g.bits) 32 with hb | hb
          · left
            exact Nat.mod_eq_of_lt (Nat.pow_lt_pow_right (by decide) hb)
          · right
            exact Nat.mod_eq_zero_of_dvd (Nat.pow_dvd_pow 2 hb)
        · simp
      · intro k hk
        rcases hmax with rfl | rfl
        · have hm := capacity_mono (g := g) (show k ≤ start by omega)
          omega
        · -- a wrapped capacity never ends the loop
          exfalso
          have hnone : ∀ rounds start, levelLoop g nblocks rounds start 0 = none := by
            intro rounds
            induction rounds with
            | zero => intro start; rfl
            | succ rounds ih => intro start; simp [levelLoop, hpos, ih]
          simp [hnone] at hl
    · rename_i hge
      obtain rfl := Option.some.inj hl
      rcases hmax with rfl | rfl
      · have hle := (levelsOf_le_iff (g := g) h start).mpr (by omega)
        rcases Nat.lt_or_ge (levelsOf g nblocks) start with hlt | hge
        · have hs := hsmall _ hlt
          have hc := le_capacity_levelsOf (g := g) h
          omega
        · omega
      · omega

/-- The number of data blocks of the largest complete tree that a 32-bit product can
express: `2 ^ 24` in the system, `2 ^ 30` in the tiny test. -/
def largestFile (g : Geometry) : Nat := capacity g (31 / g.bits)

theorem capacity_lt_iff (g : Geometry) (levels : Nat) :
    capacity g levels < 2 ^ 32 ↔ levels ≤ 31 / g.bits := by
  have hb := g.two_le
  rw [capacity_eq, Nat.pow_lt_pow_iff_right (by decide), Nat.le_div_iff_mul_le (by omega)]
  omega

theorem le_largestFile (g : Geometry) : 2 ^ 24 ≤ largestFile g := by
  obtain ⟨bits, h2, h8⟩ := g
  unfold largestFile
  rw [capacity_eq]
  refine Nat.pow_le_pow_right (by decide) ?_
  change 24 ≤ 31 / bits * bits
  interval_cases bits <;> decide

/-- Up to the largest file nothing wraps and the loop ends. -/
theorem levelLoop_ends {nblocks : Nat} (h : nblocks ≤ largestFile g) :
    ∀ rounds start, start ≤ 31 / g.bits → 31 / g.bits < start + rounds →
      levelLoop g nblocks rounds start (capacity g start) ≠ none := by
  intro rounds
  induction rounds with
  | zero => intro start hs hr; omega
  | succ rounds ih =>
    intro start hs hr
    unfold levelLoop
    split
    · rename_i hlt
      have hstart : start < 31 / g.bits := by
        by_contra hn
        have hmono := capacity_mono (g := g) (show 31 / g.bits ≤ start by omega)
        unfold largestFile at h
        omega
      have hp := (capacity_lt_iff g (start + 1)).mpr hstart
      rw [capacity_succ] at hp
      rw [Nat.mod_eq_of_lt hp, ← capacity_succ]
      exact ih (start + 1) hstart (by omega)
    · simp

/-- From a wrapped capacity on, and before that from one that is bound to wrap, the loop
goes on for ever. -/
theorem levelLoop_endless {nblocks : Nat} (h : largestFile g < nblocks) :
    ∀ rounds start maxCapacity,
      maxCapacity = capacity g start ∧ start ≤ 31 / g.bits ∨ maxCapacity = 0 →
      levelLoop g nblocks rounds start maxCapacity = none := by
  intro rounds
  induction rounds with
  | zero => intro start maxCapacity _; rfl
  | succ rounds ih =>
    intro start maxCapacity hmax
    have hlt : maxCapacity < nblocks := by
      rcases hmax with ⟨rfl, hs⟩ | rfl
      · have hmono := capacity_mono (g := g) hs
        unfold largestFile at h
        omega
      · omega
    unfold levelLoop
    rw [if_pos hlt]
    apply ih
    rcases hmax with ⟨rfl, hs⟩ | rfl
    · rw [← capacity_succ]
      by_cases hfits : capacity g (start + 1) < 2 ^ 32
      · exact .inl ⟨Nat.mod_eq_of_lt hfits, (capacity_lt_iff g _).mp hfits⟩
      · right
        rw [capacity_eq] at hfits ⊢
        rw [Nat.pow_lt_pow_iff_right (by decide)] at hfits
        exact Nat.mod_eq_zero_of_dvd (Nat.pow_dvd_pow 2 (by omega))
    · right
      simp

end Egos.Disk.Treedisk
