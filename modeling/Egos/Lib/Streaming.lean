import Mathlib.Data.List.Basic

/-!
# Input that is consumed in blocks

A function takes blocks of `n` elements. What has come in so far is a state, and fewer than `n` elements
that wait for others. It does not matter in which pieces the input comes.
-/
namespace Egos.Lib

set_option autoImplicit false

variable {α σ : Type}

/-- The state after all whole blocks, and what is left. -/
def absorb (f : σ → List α → σ) (n : Nat) (s : σ) (l : List α) : σ × List α :=
  if _h : 0 < n ∧ n ≤ l.length then absorb f n (f s (l.take n)) (l.drop n) else (s, l)
termination_by l.length
decreasing_by rw [List.length_drop]; omega

section

variable {f : σ → List α → σ} {n : Nat} {s : σ} {l l' : List α}

theorem absorb_of_lt (h : l.length < n) : absorb f n s l = (s, l) := by
  rw [absorb, dif_neg (by omega)]

theorem absorb_block (hn : 0 < n) (h : l.length = n) :
    absorb f n s (l ++ l') = absorb f n (f s l) l' := by
  rw [absorb, dif_pos ⟨hn, by rw [List.length_append]; omega⟩, ← h, List.take_left, List.drop_left]

theorem absorb_append : absorb f n s (l ++ l') =
    absorb f n (absorb f n s l).1 ((absorb f n s l).2 ++ l') := by
  induction s, l using absorb.induct (f := f) (n := n) with
  | case1 s l h ih =>
    rw [absorb, dif_pos ⟨h.1, by rw [List.length_append]; omega⟩, List.take_append_of_le_length h.2,
      List.drop_append_of_le_length h.2, ih, absorb.eq_def f n s l, dif_pos h]
  | case2 s l h => rw [absorb.eq_def f n s l, dif_neg h]

theorem absorb_length (hn : 0 < n) : (absorb f n s l).2.length = l.length % n := by
  induction s, l using absorb.induct (f := f) (n := n) with
  | case1 s l h ih =>
    rw [absorb, dif_pos h, ih, List.length_drop, Nat.mod_eq_sub_mod h.2]
  | case2 s l h =>
    rw [absorb, dif_neg h, Nat.mod_eq_of_lt (by omega)]

end

end Egos.Lib
