import Mathlib.Data.Nat.Bitwise
import Mathlib.Data.Nat.Find

/-!
# Bits

The least bit of a word, numbers in scales of powers of two, and flags in the bits that a multiple of
a power of two leaves free.
-/
namespace Egos.Lib

set_option autoImplicit false

/-! ## Flags below a multiple -/

section

variable {k n r s : Nat}

theorem or_below (hr : r < 2 ^ k) (hs : s < 2 ^ k) :
    (2 ^ k * n + r) ||| s = 2 ^ k * n + (r ||| s) := by
  have hor : r ||| s < 2 ^ k := Nat.or_lt_two_pow hr hs
  have hdiv : ((2 ^ k * n + r) ||| s) / 2 ^ k = n := by
    rw [Nat.or_div_two_pow, Nat.mul_add_div (Nat.two_pow_pos k), Nat.div_eq_of_lt hr,
      Nat.div_eq_of_lt hs, Nat.add_zero, Nat.or_zero]
  have hmod : ((2 ^ k * n + r) ||| s) % 2 ^ k = r ||| s := by
    rw [Nat.or_mod_two_pow, Nat.mul_add_mod, Nat.mod_eq_of_lt hr, Nat.mod_eq_of_lt hs]
  rw [← Nat.div_add_mod ((2 ^ k * n + r) ||| s) (2 ^ k), hdiv, hmod]

theorem and_below (hr : r < 2 ^ k) (hs : s < 2 ^ k) : (2 ^ k * n + r) &&& s = r &&& s := by
  have hdiv : ((2 ^ k * n + r) &&& s) / 2 ^ k = 0 := by
    rw [Nat.and_div_two_pow, Nat.div_eq_of_lt hs, Nat.and_zero]
  have hmod : ((2 ^ k * n + r) &&& s) % 2 ^ k = r &&& s := by
    rw [Nat.and_mod_two_pow, Nat.mul_add_mod, Nat.mod_eq_of_lt hr, Nat.mod_eq_of_lt hs]
  rw [← Nat.div_add_mod ((2 ^ k * n + r) &&& s) (2 ^ k), hdiv, hmod, Nat.mul_zero, Nat.zero_add]

/-- A mask whose upper bits, `m` of them, are all set keeps the multiple. -/
theorem and_mask {m : Nat} (hn : n < 2 ^ m) (hr : r < 2 ^ k) (hs : s < 2 ^ k) :
    (2 ^ k * n + r) &&& (2 ^ k * (2 ^ m - 1) + s) = 2 ^ k * n + (r &&& s) := by
  have hand : r &&& s < 2 ^ k := Nat.lt_of_le_of_lt Nat.and_le_left hr
  have hdiv : ((2 ^ k * n + r) &&& (2 ^ k * (2 ^ m - 1) + s)) / 2 ^ k = n := by
    rw [Nat.and_div_two_pow, Nat.mul_add_div (Nat.two_pow_pos k),
      Nat.mul_add_div (Nat.two_pow_pos k), Nat.div_eq_of_lt hr, Nat.div_eq_of_lt hs,
      Nat.add_zero, Nat.add_zero, Nat.and_two_pow_sub_one_eq_mod, Nat.mod_eq_of_lt hn]
  have hmod : ((2 ^ k * n + r) &&& (2 ^ k * (2 ^ m - 1) + s)) % 2 ^ k = r &&& s := by
    rw [Nat.and_mod_two_pow, Nat.mul_add_mod, Nat.mul_add_mod, Nat.mod_eq_of_lt hr,
      Nat.mod_eq_of_lt hs]
  rw [← Nat.div_add_mod ((2 ^ k * n + r) &&& (2 ^ k * (2 ^ m - 1) + s)) (2 ^ k), hdiv, hmod]

end

/-! ## The least bit of a word -/

section

variable {w i k : Nat} {x : BitVec w}

/-- Bit `k` is set, and none below. -/
def IsLeast (x : BitVec w) (k : Nat) : Prop :=
  x.getLsbD k = true ∧ ∀ j, j < k → x.getLsbD j = false

theorem exists_isLeast (h : x ≠ 0#w) : ∃ k, IsLeast x k := by
  have hbit : ∃ i, x.getLsbD i = true := by
    by_contra hnone
    apply h
    apply BitVec.eq_of_getLsbD_eq
    intro i _
    rw [BitVec.getLsbD_zero]
    exact Bool.eq_false_iff.mpr fun hi => hnone ⟨i, hi⟩
  classical
  refine ⟨Nat.find hbit, Nat.find_spec hbit, fun j hj => ?_⟩
  exact Bool.eq_false_iff.mpr (Nat.find_min hbit hj)

theorem IsLeast.lt (h : IsLeast x k) : k < w := BitVec.lt_of_getLsbD h.1

/-- The conjunction of a word with its negative. -/
theorem IsLeast.and_neg (h : IsLeast x k) : x &&& -x = BitVec.twoPow w k := by
  apply BitVec.eq_of_getLsbD_eq
  intro i hi
  rw [BitVec.getLsbD_and, BitVec.getLsbD_neg, BitVec.getLsbD_twoPow]
  obtain ⟨hk, hbelow⟩ := h
  have hkw := BitVec.lt_of_getLsbD hk
  rcases Nat.lt_trichotomy i k with hlt | rfl | hgt
  · rw [hbelow i hlt]
    simp [hkw, Nat.ne_of_gt hlt]
  · have hnone : ¬ ∃ j < i, x.getLsbD j = true := by
      rintro ⟨j, hj, hset⟩
      rw [hbelow j hj] at hset
      cases hset
    simp [hk, hnone, hkw]
  · have hsome : ∃ j < i, x.getLsbD j = true := ⟨k, hgt, hk⟩
    simp [hsome, hi, Nat.ne_of_lt hgt]

end

/-! ## Scales of powers of two -/

section

variable {n m k : Nat}

theorem log2_eq (hlow : 2 ^ k ≤ n) (hhigh : n < 2 ^ (k + 1)) : n.log2 = k :=
  (Nat.log2_eq_iff (Nat.ne_of_gt (Nat.lt_of_lt_of_le (Nat.two_pow_pos k) hlow))).mpr ⟨hlow, hhigh⟩

theorem log2_mono (hn : n ≠ 0) (h : n ≤ m) : n.log2 ≤ m.log2 := by
  rw [Nat.le_log2 (by omega)]
  exact Nat.le_trans (Nat.log2_self_le hn) h

theorem log2_div (h : 2 ^ k ≤ n) : (n / 2 ^ k).log2 + k = n.log2 := by
  have hn : n ≠ 0 := Nat.ne_of_gt (Nat.lt_of_lt_of_le (Nat.two_pow_pos k) h)
  have hk : k ≤ n.log2 := (Nat.le_log2 hn).mpr h
  have hdiv : (n / 2 ^ k).log2 = n.log2 - k := by
    apply log2_eq
    · rw [Nat.le_div_iff_mul_le (Nat.two_pow_pos k), ← Nat.pow_add, Nat.sub_add_cancel hk]
      exact Nat.log2_self_le hn
    · rw [Nat.div_lt_iff_lt_mul (Nat.two_pow_pos k), ← Nat.pow_add,
        show n.log2 - k + 1 + k = n.log2 + 1 by omega]
      exact Nat.lt_log2_self
  omega

end

end Egos.Lib
