import Egos.Lib.Bits
import Egos.Libc.Tlsf.Allocator

/-!
# The classes of block sizes

A class is a range of sizes between two powers of two. Classes are ordered as their sizes are, and
`MAPPING_SEARCH` goes up to the least size of a class, so that every block of that class or of a
higher one is large enough.
-/
namespace Egos.Libc.Tlsf

open Egos.Disk (Stop toInt toInt_eq)
open Egos.Lib

set_option autoImplicit false

/-! ## Bits -/

theorem table_eq {i : Nat} (h : 0 < i) (hi : i < 256) : table i = (i.log2 : Nat) := by
  have hall : table i = ((List.range 256).map fun j => if j = 0 then -1 else (j.log2 : Int)).getD i 0 :=
    congrArg (List.getD · i 0) (by decide +kernel)
  rw [hall, List.getD_eq_getElem?_getD, List.getElem?_map, List.getElem?_range hi]
  exact if_neg h.ne'

theorem lookupBit_eq {x : BitVec 32} (h : x ≠ 0#32) : lookupBit x = (x.toNat.log2 : Nat) := by
  have hpos : x.toNat ≠ 0 := fun hz => h (BitVec.eq_of_toNat_eq hz)
  have hx := x.isLt
  -- the byte at distance `a` is the upper one that is not zero
  have hbyte : ∀ a : Nat, 2 ^ a ≤ x.toNat → x.toNat < 2 ^ (a + 8) →
      table (x >>> a).toNat + a = (x.toNat.log2 : Nat) := by
    intro a hlow hhigh
    have hdiv : (x >>> a).toNat = x.toNat / 2 ^ a := by
      rw [BitVec.toNat_ushiftRight, Nat.shiftRight_eq_div_pow]
    have hsmall : x.toNat / 2 ^ a < 256 := by
      rw [Nat.div_lt_iff_lt_mul (Nat.two_pow_pos a), show 256 = 2 ^ 8 from rfl, ← Nat.pow_add,
        Nat.add_comm]
      exact hhigh
    rw [hdiv, table_eq (Nat.div_pos hlow (Nat.two_pow_pos a)) hsmall, ← log2_div hlow]
    rfl
  unfold lookupBit
  dsimp only
  split
  · split
    · exact hbyte 0 (by omega) (by omega)
    · exact hbyte 8 (by omega) (by omega)
  · split
    · exact hbyte 16 (by omega) (by omega)
    · exact hbyte 24 (by omega) (by omega)

theorem lsBit_eq {x : BitVec 32} {k : Nat} (h : IsLeast x k) : lsBit x = k := by
  have hk := h.lt
  have htwo : (BitVec.twoPow 32 k).toNat = 2 ^ k := by
    rw [BitVec.toNat_twoPow, Nat.mod_eq_of_lt (Nat.pow_lt_pow_right (by decide) hk)]
  unfold lsBit
  rw [h.and_neg, lookupBit_eq, htwo, Nat.log2_two_pow]
  intro hzero
  have := congrArg BitVec.toNat hzero
  rw [htwo] at this
  exact absurd this (Nat.ne_of_gt (Nat.two_pow_pos k))

theorem lsBit_zero : lsBit 0#32 = -1 := by decide

theorem msBit_eq {n : Nat} (hpos : n ≠ 0) (hn : n < 2 ^ 32) : msBit (asInt n) = (n.log2 : Nat) := by
  have htoNat : (asInt n).toNat = n := by
    unfold asInt
    rw [BitVec.toNat_ofNat, Nat.mod_eq_of_lt hn]
  unfold msBit
  rw [lookupBit_eq, htoNat]
  intro hzero
  exact hpos (by rw [← htoNat, hzero]; rfl)

/-! ## The class of a size -/

/-- The sizes that the pool can have lists for. -/
def maxSize : Nat := 2 ^ 30

def classFl (n : Nat) : Nat := if n < smallBlock then 0 else n.log2 - fliOffset

def classSl (n : Nat) : Nat :=
  if n < smallBlock then n / (smallBlock / maxSli) else n / 2 ^ (n.log2 - maxLog2Sli) - maxSli

section

variable {n m : Nat}

theorem log2_bounds (h : ¬ n < smallBlock) (hn : n < maxSize) : 7 ≤ n.log2 ∧ n.log2 < 30 := by
  unfold smallBlock at h
  unfold maxSize at hn
  exact ⟨(Nat.le_log2 (by omega)).mpr (by omega), (Nat.log2_lt (by omega)).mpr hn⟩

/-- The five bits behind the highest one, with that one. -/
theorem upper_bits (h : ¬ n < smallBlock) :
    maxSli ≤ n / 2 ^ (n.log2 - maxLog2Sli) ∧ n / 2 ^ (n.log2 - maxLog2Sli) < 2 * maxSli := by
  unfold smallBlock at h
  have hlog : 7 ≤ n.log2 := (Nat.le_log2 (by omega)).mpr (by omega)
  unfold maxSli maxLog2Sli
  constructor
  · rw [Nat.le_div_iff_mul_le (Nat.two_pow_pos _), show 32 = 2 ^ 5 from rfl, ← Nat.pow_add,
      show 5 + (n.log2 - 5) = n.log2 by omega]
    exact Nat.log2_self_le (by omega)
  · rw [Nat.div_lt_iff_lt_mul (Nat.two_pow_pos _), show 2 * 32 = 2 ^ 6 from rfl, ← Nat.pow_add,
      show 6 + (n.log2 - 5) = n.log2 + 1 by omega]
    exact Nat.lt_log2_self

theorem classFl_lt (hn : n < maxSize) : classFl n < realFli := by
  unfold classFl realFli fliOffset
  split
  · decide
  · next h =>
    have := log2_bounds h hn
    omega

theorem classSl_lt (n : Nat) : classSl n < maxSli := by
  unfold classSl
  split
  · next h =>
    unfold smallBlock maxSli at *
    omega
  · next h =>
    have := upper_bits h
    omega

/-- Classes in their order. -/
def rank (n : Nat) : Nat := maxSli * classFl n + classSl n

theorem rank_mono (h : n ≤ m) (hm : m < maxSize) : rank n ≤ rank m := by
  by_cases hsmall : m < smallBlock
  · unfold rank classFl classSl
    rw [if_pos hsmall, if_pos hsmall, if_pos (by omega), if_pos (by omega)]
    exact Nat.add_le_add_left (Nat.div_le_div_right h) _
  · have hmlog := log2_bounds hsmall hm
    have hnsl := classSl_lt n
    by_cases hn : n < smallBlock
    · have hnfl : classFl n = 0 := if_pos hn
      have hmfl : classFl m = m.log2 - fliOffset := if_neg hsmall
      unfold rank
      rw [hnfl, hmfl]
      unfold maxSli fliOffset at *
      omega
    · have hn0 : n ≠ 0 := by
        unfold smallBlock at hn
        omega
      rcases Nat.eq_or_lt_of_le (log2_mono hn0 h) with heq | hlt
      · unfold rank classFl classSl
        rw [if_neg hsmall, if_neg hsmall, if_neg hn, if_neg hn, heq]
        have := Nat.div_le_div_right (c := 2 ^ (m.log2 - maxLog2Sli)) h
        omega
      · have hnfl : classFl n = n.log2 - fliOffset := if_neg hn
        have hmfl : classFl m = m.log2 - fliOffset := if_neg hsmall
        have hnlog := log2_bounds hn (by omega)
        unfold rank
        rw [hnfl, hmfl]
        unfold maxSli fliOffset at *
        omega

theorem rank_eq_iff : rank n = rank m ↔ classFl n = classFl m ∧ classSl n = classSl m := by
  have hn := classSl_lt n
  have hm := classSl_lt m
  unfold rank
  constructor
  · intro h
    have hdiv := congrArg (· / maxSli) h
    have hmod := congrArg (· % maxSli) h
    simp only [Nat.mul_add_mod, Nat.mod_eq_of_lt hn, Nat.mod_eq_of_lt hm] at hmod
    rw [hmod] at h
    exact ⟨Nat.eq_of_mul_eq_mul_left (by decide) (Nat.add_right_cancel h), hmod⟩
  · rintro ⟨hfl, hsl⟩
    rw [hfl, hsl]

/-! ## The least size of a class -/

/-- The distance between the least sizes of two neighbouring classes. -/
def step (n : Nat) : Nat := if n < smallBlock then smallBlock / maxSli else 2 ^ (n.log2 - maxLog2Sli)

/-- The size that `MAPPING_SEARCH` goes up to. -/
def classSize (n : Nat) : Nat :=
  if n < smallBlock then n else (n + (step n - 1)) / step n * step n

/-- The least size of a class. -/
def IsClassSize (n : Nat) : Prop := step n ∣ n

theorem rank_lt (hm : IsClassSize m) (hlt : n < m) (hmax : m < maxSize) : rank n < rank m := by
  refine Nat.lt_of_le_of_ne (rank_mono (Nat.le_of_lt hlt) hmax) fun heq => ?_
  obtain ⟨hfl, hsl⟩ := rank_eq_iff.mp heq
  obtain ⟨c, hc⟩ := hm
  by_cases hms : m < smallBlock
  · have hns : n < smallBlock := by omega
    unfold classSl at hsl
    rw [if_pos hms, if_pos hns] at hsl
    unfold step at hc
    rw [if_pos hms] at hc
    unfold smallBlock maxSli at *
    omega
  · have hmlog := log2_bounds hms hmax
    by_cases hns : n < smallBlock
    · unfold classFl at hfl
      rw [if_pos hns, if_neg hms] at hfl
      unfold fliOffset at hfl
      omega
    · have hnlog := log2_bounds hns (by omega)
      unfold classFl classSl at *
      rw [if_neg hns, if_neg hms] at hfl hsl
      unfold fliOffset at hfl
      have hlog : n.log2 = m.log2 := by omega
      have hnb := upper_bits hns
      have hmb := upper_bits hms
      rw [hlog] at hsl hnb
      have hdiv : n / 2 ^ (m.log2 - maxLog2Sli) = m / 2 ^ (m.log2 - maxLog2Sli) := by omega
      unfold step at hc
      rw [if_neg hms] at hc
      have hm' : m / 2 ^ (m.log2 - maxLog2Sli) * 2 ^ (m.log2 - maxLog2Sli) = m := by
        rw [Nat.div_mul_cancel ⟨c, hc⟩]
      have := Nat.div_mul_le_self n (2 ^ (m.log2 - maxLog2Sli))
      rw [hdiv, hm'] at this
      omega

/-- A block of the class of `m`, or of a higher one, is as large as `m`. -/
theorem le_of_rank_le (hm : IsClassSize m) (hmax : m < maxSize) (h : rank m ≤ rank n) : m ≤ n := by
  by_contra hlt
  exact absurd (rank_lt hm (Nat.not_le.mp hlt) hmax) (Nat.not_lt.mpr h)

theorem step_pos (n : Nat) : 0 < step n := by
  unfold step
  split
  · decide
  · exact Nat.two_pow_pos _

theorem le_classSize (n : Nat) : n ≤ classSize n := by
  unfold classSize
  split
  · exact Nat.le_refl n
  · have hmod := Nat.mod_lt (n + (step n - 1)) (step_pos n)
    have hdiv := Nat.div_add_mod' (n + (step n - 1)) (step n)
    have := step_pos n
    omega

theorem step_le (h : ¬ n < smallBlock) : 32 * step n ≤ n := by
  have hstep : step n = 2 ^ (n.log2 - maxLog2Sli) := if_neg h
  unfold smallBlock at h
  have hlog : 7 ≤ n.log2 := (Nat.le_log2 (by omega)).mpr (by omega)
  rw [hstep, show 32 = 2 ^ 5 from rfl, ← Nat.pow_add]
  unfold maxLog2Sli
  rw [show 5 + (n.log2 - 5) = n.log2 by omega]
  exact Nat.log2_self_le (by omega)

theorem classSize_le (n : Nat) : classSize n ≤ n + n / 32 := by
  unfold classSize
  split
  · omega
  · next h =>
    have hdiv := Nat.div_mul_le_self (n + (step n - 1)) (step n)
    have := step_le h
    omega

/-- Up to the next power of two. -/
theorem classSize_lt (h : ¬ n < smallBlock) : classSize n ≤ 2 ^ (n.log2 + 1) := by
  have hlog : 7 ≤ n.log2 := by
    unfold smallBlock at h
    exact (Nat.le_log2 (by omega)).mpr (by omega)
  have hstep : step n = 2 ^ (n.log2 - maxLog2Sli) := if_neg h
  have hpow : 2 ^ (n.log2 + 1) = 2 ^ 6 * step n := by
    rw [hstep, ← Nat.pow_add]
    unfold maxLog2Sli
    rw [show 6 + (n.log2 - 5) = n.log2 + 1 by omega]
  unfold classSize
  rw [if_neg h, hpow]
  apply Nat.mul_le_mul_right
  have hlt : n < 2 ^ (n.log2 + 1) := Nat.lt_log2_self
  rw [hpow] at hlt
  have hpos := step_pos n
  rw [Nat.div_le_iff_le_mul_add_pred hpos]
  rw [Nat.mul_comm]
  omega

theorem log2_classSize (h : ¬ n < smallBlock) :
    (classSize n).log2 = n.log2 ∨ classSize n = 2 ^ (n.log2 + 1) := by
  have hn0 : n ≠ 0 := by
    unfold smallBlock at h
    omega
  rcases Nat.eq_or_lt_of_le (classSize_lt h) with heq | hlt
  · exact .inr heq
  · exact .inl (log2_eq (Nat.le_trans (Nat.log2_self_le hn0) (le_classSize n)) hlt)

theorem step_dvd_classSize (hn : n < smallBlock → smallBlock / maxSli ∣ n) :
    step n ∣ classSize n := by
  unfold classSize
  split
  · next h =>
    unfold step
    rw [if_pos h]
    exact hn h
  · exact ⟨_, Nat.mul_comm _ _⟩

theorem classSize_isClassSize (hn : n < smallBlock → smallBlock / maxSli ∣ n) :
    IsClassSize (classSize n) := by
  have hdvd := step_dvd_classSize hn
  by_cases h : n < smallBlock
  · have hsame : classSize n = n := if_pos h
    unfold IsClassSize
    rw [hsame]
    rwa [hsame] at hdvd
  · have hlarge : ¬ classSize n < smallBlock := fun hlt => h (Nat.lt_of_le_of_lt (le_classSize n) hlt)
    have hstep : step (classSize n) = 2 ^ ((classSize n).log2 - maxLog2Sli) := if_neg hlarge
    have hstep' : step n = 2 ^ (n.log2 - maxLog2Sli) := if_neg h
    unfold IsClassSize
    rcases log2_classSize h with hlog | hpow
    · rw [hstep, hlog, ← hstep']
      exact hdvd
    · rw [hstep, hpow, Nat.log2_two_pow]
      exact Nat.pow_dvd_pow 2 (Nat.sub_le _ _)

/-- To search for the least size of a class does not change it. -/
theorem classSize_of_isClassSize (h : IsClassSize n) : classSize n = n := by
  unfold classSize
  split
  · rfl
  · obtain ⟨c, hc⟩ := h
    have hpos := step_pos n
    have hdiv : (n + (step n - 1)) / step n = c := by
      conv_lhs => rw [hc]
      have hlt : step n - 1 < step n := by omega
      rw [← hc]
      generalize step n = s at hc hpos hlt
      subst hc
      rw [Nat.mul_add_div hpos, Nat.div_eq_of_lt hlt, Nat.add_zero]
    rw [hdiv, Nat.mul_comm]
    exact hc.symm

/-- The sizes from the least one of a class up to the next class. -/
theorem class_eq_of_lt (hm : IsClassSize m) (hlarge : ¬ m < smallBlock) (hle : m ≤ n)
    (hlt : n < m + step m) : n.log2 = m.log2 ∧ classFl n = classFl m ∧ classSl n = classSl m := by
  have hnlarge : ¬ n < smallBlock := by omega
  have hstep : step m = 2 ^ (m.log2 - maxLog2Sli) := if_neg hlarge
  have hbits := upper_bits hlarge
  have hpos := step_pos m
  rw [← hstep] at hbits
  obtain ⟨c, hc⟩ := hm
  have hmc : m / step m = c := by
    apply Nat.div_eq_of_eq_mul_right hpos hc
  have hnc : n / step m = c := by
    rw [Nat.div_eq_iff hpos, Nat.mul_comm, ← hc]
    omega
  have hlog : n.log2 = m.log2 := by
    have hm0 : m ≠ 0 := by
      unfold smallBlock at hlarge
      omega
    apply log2_eq (Nat.le_trans (Nat.log2_self_le hm0) hle)
    have hm7 : 7 ≤ m.log2 := by
      unfold smallBlock at hlarge
      exact (Nat.le_log2 (by omega)).mpr (by omega)
    have hpow : 2 ^ (m.log2 + 1) = 2 * maxSli * step m := by
      rw [hstep, show 2 * maxSli = 2 ^ 6 from rfl, ← Nat.pow_add]
      unfold maxLog2Sli
      rw [show 6 + (m.log2 - 5) = m.log2 + 1 by omega]
    rw [hpow, ← Nat.div_lt_iff_lt_mul hpos, hnc, ← hmc]
    exact hbits.2
  refine ⟨hlog, ?_, ?_⟩
  · unfold classFl
    rw [if_neg hnlarge, if_neg hlarge, hlog]
  · unfold classSl
    rw [if_neg hnlarge, if_neg hlarge, hlog, ← hstep, hnc, hmc]

end

/-! ## The two mappings -/

section

variable {n : Nat} {heap : Heap}

theorem shift_ok {k : Nat} (h : k < 32) : shift (k : Int) heap = .ok k heap := by
  unfold shift
  rw [if_pos (by omega)]
  rfl

theorem index_ok {k : Nat} (i : Fin k) : index k (i : Int) heap = .ok i heap := by
  have hi := i.isLt
  unfold index
  rw [dif_pos (by omega)]
  rfl

theorem minus_of_le {a b : Nat} (h : b ≤ a) (ha : a < 2 ^ 64) : minus a b = a - b := by
  unfold minus
  rw [show a + 2 ^ 64 - b = a - b + 2 ^ 64 by omega, Nat.add_mod_right, Nat.mod_eq_of_lt (by omega)]

theorem upper_part (heap : Heap) (h : ¬ n < smallBlock) (hn : n < maxSize) :
    msBit (asInt n) = (n.log2 : Int) ∧
    shift ((n.log2 : Int) - maxLog2Sli) heap = .ok (n.log2 - maxLog2Sli) heap ∧
    (n.log2 : Int) - fliOffset = classFl n ∧
    toInt (minus (n / 2 ^ (n.log2 - maxLog2Sli)) maxSli) = classSl n := by
  have hlog := log2_bounds h hn
  have hbits := upper_bits h
  have hn0 : n ≠ 0 := by
    unfold smallBlock at h
    omega
  refine ⟨msBit_eq hn0 (by unfold maxSize at hn; omega), ?_, ?_, ?_⟩
  · have hcast : (n.log2 : Int) - maxLog2Sli = ((n.log2 - maxLog2Sli : Nat) : Int) := by
      unfold maxLog2Sli
      omega
    rw [hcast]
    exact shift_ok (by unfold maxLog2Sli; omega)
  · unfold classFl fliOffset
    rw [if_neg h]
    omega
  · unfold classSl
    unfold maxSli at hbits ⊢
    rw [if_neg h, minus_of_le hbits.1 (by omega), toInt_eq (by omega)]

theorem mappingInsert_ok (hn : n < maxSize) :
    mappingInsert n heap = .ok ((classFl n : Int), (classSl n : Int)) heap := by
  unfold mappingInsert
  split
  · next h =>
    unfold classFl classSl
    rw [if_pos h, if_pos h]
    rfl
  · next h =>
    obtain ⟨hms, hshift, hfl, hsl⟩ := upper_part heap h hn
    dsimp only
    rw [hms, bind_ok hshift, hfl, hsl]
    rfl

theorem mappingSearch_ok (hfour : n < smallBlock → smallBlock / maxSli ∣ n)
    (hn : classSize n < maxSize) : mappingSearch n heap =
      .ok (classSize n, (classFl (classSize n) : Int), (classSl (classSize n) : Int)) heap := by
  have hle := le_classSize n
  unfold mappingSearch
  split
  · next h =>
    have hsame : classSize n = n := if_pos h
    rw [hsame]
    unfold classFl classSl
    rw [if_pos h, if_pos h]
    rfl
  · next h =>
    have hlog := log2_bounds h (by omega)
    have hms := (upper_part heap h (by omega)).1
    have hshift := (upper_part heap h (by omega)).2.1
    have hstep : step n = 2 ^ (n.log2 - maxLog2Sli) := if_neg h
    have hpos := step_pos n
    have hlarge : ¬ classSize n < smallBlock := by omega
    -- `n + t` is in the class that starts with `classSize n`
    have hsize : (n + (step n - 1)) / step n * step n = classSize n := by
      unfold classSize
      rw [if_neg h]
    have hdiv := Nat.div_add_mod' (n + (step n - 1)) (step n)
    have hmod := Nat.mod_lt (n + (step n - 1)) hpos
    rw [hsize] at hdiv
    have hstep' : step n ≤ step (classSize n) := by
      have hstep2 : step (classSize n) = 2 ^ ((classSize n).log2 - maxLog2Sli) := if_neg hlarge
      rw [hstep, hstep2]
      apply Nat.pow_le_pow_right (by decide)
      have := log2_mono (n := n) (m := classSize n) (by unfold smallBlock at h; omega) hle
      omega
    obtain ⟨hclass, hfl, hsl⟩ := class_eq_of_lt (n := n + (step n - 1))
      (classSize_isClassSize hfour) hlarge (by omega) (by omega)
    have hnt : ¬ n + (step n - 1) < smallBlock := by omega
    have hntmax : n + (step n - 1) < maxSize := by
      have h1 : (n + (step n - 1)).log2 = (classSize n).log2 := hclass
      have h2 := (log2_bounds hlarge hn).2
      have h3 : n + (step n - 1) ≠ 0 := by
        unfold smallBlock at hnt
        omega
      unfold maxSize
      rw [← Nat.log2_lt h3]
      omega
    obtain ⟨hms', hshift', hfl', hsl'⟩ := upper_part heap hnt hntmax
    dsimp only
    rw [hms, bind_ok hshift, ← hstep, Nat.mod_eq_of_lt (by unfold maxSize at hntmax; omega), hms', bind_ok hshift', hfl',
      hsl', hsize, hfl, hsl]
    rfl

end

end Egos.Libc.Tlsf
