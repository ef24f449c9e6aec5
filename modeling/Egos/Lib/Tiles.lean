import Mathlib.Data.List.Basic

/-!
# Items laid end to end

Items of given lengths follow each other from a start on, without gaps. What is at which place does
not depend on what comes later, and two items never overlap.
-/
namespace Egos.Lib

set_option autoImplicit false

variable {β : Type} {len : β → Nat} {a x y : Nat} {b c : β} {l l' : List β}

/-- The end of the items that start at `a`. -/
def stopOf (len : β → Nat) : (a : Nat) → List β → Nat
  | a, [] => a
  | a, b :: l => stopOf len (a + len b) l

/-- The items with their places. -/
def placed (len : β → Nat) : (a : Nat) → List β → List (Nat × β)
  | _, [] => []
  | a, b :: l => (a, b) :: placed len (a + len b) l

theorem stopOf_append : stopOf len a (l ++ l') = stopOf len (stopOf len a l) l' := by
  induction l generalizing a with
  | nil => rfl
  | cons b l ih => exact ih

theorem placed_append : placed len a (l ++ l') = placed len a l ++ placed len (stopOf len a l) l' := by
  induction l generalizing a with
  | nil => rfl
  | cons b l ih => exact congrArg ((a, b) :: ·) ih

theorem le_stopOf : a ≤ stopOf len a l := by
  induction l generalizing a with
  | nil => exact Nat.le_refl a
  | cons b l ih => exact Nat.le_trans (Nat.le_add_right a (len b)) ih

theorem placed_bounds (h : (x, b) ∈ placed len a l) : a ≤ x ∧ x + len b ≤ stopOf len a l := by
  induction l generalizing a with
  | nil => cases h
  | cons c l ih =>
    cases h with
    | head => exact ⟨Nat.le_refl _, le_stopOf⟩
    | tail _ h =>
      obtain ⟨hle, hstop⟩ := ih h
      exact ⟨Nat.le_trans (Nat.le_add_right a (len c)) hle, hstop⟩

theorem placed_mem (h : (x, b) ∈ placed len a l) : b ∈ l := by
  induction l generalizing a with
  | nil => cases h
  | cons c l ih =>
    cases h with
    | head => exact List.mem_cons_self
    | tail _ h => exact List.mem_cons_of_mem _ (ih h)

theorem dvd_stopOf {d : Nat} (ha : d ∣ a) (hlen : ∀ b ∈ l, d ∣ len b) : d ∣ stopOf len a l := by
  induction l generalizing a with
  | nil => exact ha
  | cons b l ih =>
    exact ih (Nat.dvd_add ha (hlen b List.mem_cons_self))
      fun c hc => hlen c (List.mem_cons_of_mem _ hc)

theorem placed_split (h : (x, b) ∈ placed len a l) :
    ∃ front back, l = front ++ b :: back ∧ x = stopOf len a front := by
  induction l generalizing a with
  | nil => cases h
  | cons c l ih =>
    cases h with
    | head => exact ⟨[], l, rfl, rfl⟩
    | tail _ h =>
      obtain ⟨front, back, hl, hx⟩ := ih h
      exact ⟨c :: front, back, congrArg (c :: ·) hl, hx⟩

/-- All places are multiples of what divides the start and the lengths. -/
theorem placed_dvd {d : Nat} (ha : d ∣ a) (hlen : ∀ b ∈ l, d ∣ len b)
    (h : (x, b) ∈ placed len a l) : d ∣ x := by
  obtain ⟨front, back, rfl, rfl⟩ := placed_split h
  exact dvd_stopOf ha fun c hc => hlen c (List.mem_append_left _ hc)

/-- Two items are one, or one ends before the other starts. -/
theorem placed_disjoint (hb : (x, b) ∈ placed len a l) (hc : (y, c) ∈ placed len a l) :
    (x, b) = (y, c) ∨ x + len b ≤ y ∨ y + len c ≤ x := by
  induction l generalizing a with
  | nil => cases hb
  | cons d l ih =>
    cases hb with
    | head =>
      cases hc with
      | head => exact .inl rfl
      | tail _ hc => exact .inr (.inl (placed_bounds hc).1)
    | tail _ hb =>
      cases hc with
      | head => exact .inr (.inr (placed_bounds hb).1)
      | tail _ hc => exact ih hb hc

end Egos.Lib
