import Mathlib.Data.Fintype.Card
import Mathlib.Algebra.BigOperators.Group.Finset.Basic

/-!
# Tables with a fixed number of slots

A table is a function on a finite type, and one slot is changed with `Function.update`.
-/
namespace Egos.Lib

set_option autoImplicit false

variable {ι α : Type}

/-- If no two slots hold related values, a slot may take a value that is related to that of no
other slot. -/
theorem distinct_update [DecidableEq ι] {R : α → α → Prop} (hsymm : ∀ a b, R a b → R b a)
    {f : ι → α} (h : ∀ j k, R (f j) (f k) → j = k) {i : ι} {a : α}
    (hnew : ∀ j, j ≠ i → ¬ R a (f j)) (j k : ι)
    (hr : R (Function.update f i a j) (Function.update f i a k)) : j = k := by
  by_cases hj : j = i <;> by_cases hk : k = i
  · rw [hj, hk]
  · rw [hj, Function.update_self, Function.update_of_ne hk] at hr
    exact absurd hr (hnew k hk)
  · rw [hk, Function.update_self, Function.update_of_ne hj] at hr
    exact absurd (hsymm _ _ hr) (hnew j hj)
  · rw [Function.update_of_ne hj, Function.update_of_ne hk] at hr
    exact h j k hr

variable [Fintype ι]

/-- How many slots hold a value with the property. -/
def slots (f : ι → α) (q : α → Prop) [DecidablePred q] : Nat :=
  (Finset.univ.filter fun j => q (f j)).card

theorem slots_update [DecidableEq ι] (f : ι → α) (i : ι) (a : α) (q : α → Prop) [DecidablePred q] :
    slots (Function.update f i a) q + (if q (f i) then 1 else 0) =
      slots f q + (if q a then 1 else 0) := by
  have hsplit (g : ι → α) : slots g q =
      (if q (g i) then 1 else 0) + ((Finset.univ.erase i).filter fun j => q (g j)).card := by
    unfold slots
    rw [← Finset.insert_erase (Finset.mem_univ i), Finset.filter_insert]
    split
    · rw [Finset.card_insert_of_notMem (by simp), Finset.erase_insert_eq_erase]
      simp [Nat.add_comm]
    · simp
  have hrest : ((Finset.univ.erase i).filter fun j => q (Function.update f i a j)) =
      (Finset.univ.erase i).filter fun j => q (f j) := by
    apply Finset.filter_congr
    intro j hj
    rw [Function.update_of_ne (Finset.ne_of_mem_erase hj)]
  rw [hsplit (Function.update f i a), hsplit f, hrest, Function.update_self]
  omega

theorem slots_pos {f : ι → α} {q : α → Prop} [DecidablePred q] {i : ι} (h : q (f i)) :
    0 < slots f q :=
  Finset.card_pos.mpr ⟨i, by simpa using h⟩

theorem slots_congr {f g : ι → α} {q : α → Prop} [DecidablePred q]
    (h : ∀ i, q (f i) ↔ q (g i)) : slots f q = slots g q := by
  unfold slots
  simp only [h]

end Egos.Lib
