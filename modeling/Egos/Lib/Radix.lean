import Mathlib.Algebra.Order.Ring.Nat
import Mathlib.Tactic.Ring

/-!
# Digits in a fixed base

A number is told apart from another by its digits from the top down: agreement
modulo `base ^ (k + 1)` is agreement in digit `k` and modulo `base ^ k`.
-/
namespace Egos.Lib

variable {base k x y : Nat}

theorem mod_pow_succ_eq_iff (hb : 0 < base) :
    x % base ^ (k + 1) = y % base ^ (k + 1) ↔
      x / base ^ k % base = y / base ^ k % base ∧ x % base ^ k = y % base ^ k := by
  have hp : 0 < base ^ k := Nat.pow_pos hb
  rw [Nat.mod_pow_succ, Nat.mod_pow_succ]
  constructor
  · intro h
    have hd := congrArg (· / base ^ k) h
    have hm := congrArg (· % base ^ k) h
    simp only [Nat.add_mul_div_left _ _ hp, Nat.div_eq_of_lt (Nat.mod_lt _ hp),
      Nat.add_mul_mod_self_left, Nat.mod_mod, Nat.zero_add] at hd hm
    exact ⟨hd, hm⟩
  · rintro ⟨hd, hm⟩
    rw [hd, hm]

end Egos.Lib
