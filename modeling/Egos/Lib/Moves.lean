/-!
# Moving and filling ranges of an array

What is left in an array after a range of it went to another place, or got one value, and how such
steps compose. Ranges that overlap can be moved piece by piece if the pieces come in the right order.
-/
namespace Egos.Lib

set_option autoImplicit false

variable {α : Type}

/-- The `n` elements from `s` on go to `d`, as if through a temporary. -/
def moved (m : Nat → α) (d s n : Nat) : Nat → α := fun a =>
  if d ≤ a ∧ a < d + n then m (s + (a - d)) else m a

/-- The `n` elements from `d` on become `v`. -/
def filled (m : Nat → α) (d n : Nat) (v : α) : Nat → α := fun a =>
  if d ≤ a ∧ a < d + n then v else m a

section

variable {m : Nat → α} {d s n k a : Nat} {v : α}

theorem moved_inside (h : k < n) : moved m d s n (d + k) = m (s + k) := by
  unfold moved
  rw [if_pos (by omega), Nat.add_sub_cancel_left]

theorem moved_outside (h : a < d ∨ d + n ≤ a) : moved m d s n a = m a :=
  if_neg (by omega)

theorem moved_zero : moved m d s 0 = m := by
  funext a
  exact moved_outside (by omega)

theorem moved_self : moved m d d n = m := by
  funext a
  unfold moved
  split
  · rw [Nat.add_sub_cancel' (by omega)]
  · rfl

/-- What lies further on may follow later if the elements go down. -/
theorem moved_forward (h : d ≤ s) :
    moved (moved m d s k) (d + k) (s + k) n = moved m d s (k + n) := by
  funext a
  by_cases hlow : a < d + k
  · rw [moved_outside (.inl hlow)]
    unfold moved
    by_cases hd : d ≤ a
    · rw [if_pos ⟨hd, hlow⟩, if_pos (by omega)]
    · rw [if_neg (by omega), if_neg (by omega)]
  · by_cases hhigh : a < d + k + n
    · obtain ⟨i, rfl⟩ := Nat.exists_eq_add_of_le (Nat.not_lt.mp hlow)
      rw [moved_inside (by omega), moved_outside (by omega), Nat.add_assoc d, moved_inside (by omega),
        Nat.add_assoc]
    · rw [moved_outside (by omega), moved_outside (by omega), moved_outside (by omega)]

theorem moved_backward (h : s ≤ d) :
    moved (moved m (d + n) (s + n) k) d s n = moved m d s (n + k) := by
  funext a
  by_cases hlow : d ≤ a ∧ a < d + n
  · obtain ⟨i, rfl⟩ := Nat.exists_eq_add_of_le hlow.1
    rw [moved_inside (by omega), moved_outside (by omega), moved_inside (by omega)]
  · rw [moved_outside (by omega)]
    by_cases hhigh : d + n ≤ a ∧ a < d + n + k
    · obtain ⟨i, rfl⟩ := Nat.exists_eq_add_of_le hhigh.1
      rw [moved_inside (by omega), Nat.add_assoc d, moved_inside (by omega), Nat.add_assoc]
    · rw [moved_outside (by omega), moved_outside (by omega)]

theorem filled_inside (h : k < n) : filled m d n v (d + k) = v := if_pos (by omega)

theorem filled_outside (h : a < d ∨ d + n ≤ a) : filled m d n v a = m a := if_neg (by omega)

theorem filled_zero : filled m d 0 v = m := by
  funext a
  exact filled_outside (by omega)

theorem filled_append : filled (filled m d k v) (d + k) n v = filled m d (k + n) v := by
  funext a
  unfold filled
  by_cases hhigh : d + k ≤ a ∧ a < d + k + n
  · rw [if_pos hhigh, if_pos (by omega)]
  · rw [if_neg hhigh]
    by_cases hlow : d ≤ a ∧ a < d + k
    · rw [if_pos hlow, if_pos (by omega)]
    · rw [if_neg hlow, if_neg (by omega)]

end

end Egos.Lib
