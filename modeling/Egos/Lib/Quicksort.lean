import Mathlib.Data.List.Nodup
import Mathlib.Logic.Equiv.Basic

/-!
# Quicksort on an array

The pivot is the first element of a range. It moves on by one place for each element that goes in
front of it, and all that is done to the array are exchanges.
-/
namespace Egos.Lib.Quicksort

set_option autoImplicit false

variable {α : Type}

/-- Two elements are exchanged. -/
def exchange (A : Nat → α) (i j : Nat) : Nat → α := A ∘ Equiv.swap i j

section

variable (ge : α → α → Prop) [DecidableRel ge]

/-- One round, for element `i`; the pivot is at `r.2`. -/
def round (r : (Nat → α) × Nat) (i : Nat) : (Nat → α) × Nat :=
  if ge (r.1 r.2) (r.1 i) then
    let A := exchange r.1 r.2 (r.2 + 1)
    (if i ≠ r.2 + 1 then exchange A r.2 i else A, r.2 + 1)
  else r

/-- The rounds for the `n` elements from `lo` on. -/
def split (A : Nat → α) (lo n : Nat) : (Nat → α) × Nat :=
  (List.range (n - 1)).foldl (fun r i => round ge r (lo + 1 + i)) (A, lo)

end

/-! ## Permutations of a range -/

/-- The elements of a range have changed their places. -/
def Permuted (lo n : Nat) (A B : Nat → α) : Prop :=
  ∃ σ : Equiv.Perm Nat, (∀ i, i < lo ∨ lo + n ≤ i → σ i = i) ∧ B = A ∘ σ

section

variable {A B C : Nat → α} {lo n lo' n' i j : Nat}

theorem exchange_left : exchange A i j i = A j := congrArg A (Equiv.swap_apply_left i j)

theorem exchange_right : exchange A i j j = A i := congrArg A (Equiv.swap_apply_right i j)

theorem exchange_of_ne {k : Nat} (hi : k ≠ i) (hj : k ≠ j) : exchange A i j k = A k :=
  congrArg A (Equiv.swap_apply_of_ne_of_ne hi hj)

theorem Permuted.refl (lo n : Nat) (A : Nat → α) : Permuted lo n A A :=
  ⟨Equiv.refl Nat, fun _ _ => rfl, rfl⟩

theorem Permuted.trans (h : Permuted lo n A B) (h' : Permuted lo n B C) : Permuted lo n A C := by
  obtain ⟨σ, hσ, rfl⟩ := h
  obtain ⟨τ, hτ, rfl⟩ := h'
  refine ⟨τ.trans σ, ?_, rfl⟩
  intro k hk
  change σ (τ k) = k
  rw [hτ k hk, hσ k hk]

theorem Permuted.mono (h : Permuted lo' n' A B) (hlo : lo ≤ lo') (hhi : lo' + n' ≤ lo + n) :
    Permuted lo n A B := by
  obtain ⟨σ, hσ, rfl⟩ := h
  exact ⟨σ, fun k hk => hσ k (by omega), rfl⟩

theorem permuted_exchange (hi : lo ≤ i) (hi' : i < lo + n) (hj : lo ≤ j) (hj' : j < lo + n) :
    Permuted lo n A (exchange A i j) :=
  ⟨Equiv.swap i j, fun _ _ => Equiv.swap_apply_of_ne_of_ne (by omega) (by omega), rfl⟩

theorem Permuted.outside (h : Permuted lo n A B) (hi : i < lo ∨ lo + n ≤ i) : B i = A i := by
  obtain ⟨σ, hσ, rfl⟩ := h
  exact congrArg A (hσ i hi)

/-- What fixes all that is outside of a range keeps what is inside there. -/
theorem inside_of_fixed {σ : Equiv.Perm Nat} (hσ : ∀ i, i < lo ∨ lo + n ≤ i → σ i = i)
    (hi : lo ≤ i) (hi' : i < lo + n) : lo ≤ σ i ∧ σ i < lo + n := by
  by_contra hout
  have hfix : σ (σ i) = σ i := hσ (σ i) (by omega)
  have heq : σ i = i := σ.injective hfix
  omega

theorem Permuted.forall (h : Permuted lo n A B) {P : α → Prop}
    (hP : ∀ i, lo ≤ i → i < lo + n → P (A i)) : ∀ i, lo ≤ i → i < lo + n → P (B i) := by
  obtain ⟨σ, hσ, rfl⟩ := h
  intro i hlo hhi
  have hin := inside_of_fixed hσ hlo hhi
  exact hP (σ i) hin.1 hin.2

end

/-! ## The rounds -/

section

variable {ge : α → α → Prop} [DecidableRel ge]

/-- After the rounds for the elements before `m`: those that are no larger than the pivot stand in
front of it, and the larger ones behind it. -/
structure Split (ge : α → α → Prop) (A : Nat → α) (lo m : Nat) (r : (Nat → α) × Nat) : Prop where
  low : lo ≤ r.2
  high : r.2 < m
  pivot : r.1 r.2 = A lo
  before : ∀ j, lo ≤ j → j < r.2 → ge (A lo) (r.1 j)
  behind : ∀ j, r.2 < j → j < m → ¬ ge (A lo) (r.1 j)
  rest : ∀ j, m ≤ j → r.1 j = A j
  permuted : Permuted lo (m - lo) A r.1

variable {A : Nat → α} {lo m : Nat} {r : (Nat → α) × Nat}

theorem Split.round (h : Split ge A lo m r) : Split ge A lo (m + 1) (round ge r m) := by
  obtain ⟨B, k⟩ := r
  obtain ⟨low, high, pivot, before, behind, rest, permuted⟩ := h
  dsimp only at low high pivot before behind rest permuted
  have hwider : Permuted lo (m + 1 - lo) A B := permuted.mono (Nat.le_refl lo) (by omega)
  unfold Quicksort.round
  dsimp only
  by_cases hge : ge (B k) (B m)
  · rw [if_pos hge]
    rw [pivot] at hge
    have hfirst : Permuted lo (m + 1 - lo) A (exchange B k (k + 1)) :=
      hwider.trans (permuted_exchange low (by omega) (by omega) (by omega))
    by_cases hm : m = k + 1
    · rw [if_neg (not_not.mpr hm)]
      subst hm
      constructor
      · exact Nat.le_succ_of_le low
      · exact Nat.lt_succ_self _
      · exact exchange_right.trans pivot
      · intro j hlo hj
        by_cases hjk : j = k
        · subst hjk
          dsimp only
          rw [exchange_left]
          exact hge
        · dsimp only at hj ⊢
          rw [exchange_of_ne hjk (by omega)]
          exact before j hlo (by omega)
      · intro j hj hj'
        dsimp only at hj
        omega
      · intro j hj
        dsimp only
        rw [exchange_of_ne (by omega) (by omega)]
        exact rest j (by omega)
      · exact hfirst
    · rw [if_pos hm]
      constructor
      · exact Nat.le_succ_of_le low
      · dsimp only
        omega
      · dsimp only
        rw [exchange_of_ne (by omega) (by omega), exchange_right]
        exact pivot
      · intro j hlo hj
        dsimp only at hj ⊢
        by_cases hjk : j = k
        · subst hjk
          rw [exchange_left, exchange_of_ne (by omega) hm]
          exact hge
        · rw [exchange_of_ne hjk (by omega), exchange_of_ne hjk (by omega)]
          exact before j hlo (by omega)
      · intro j hj hj'
        dsimp only at hj ⊢
        by_cases hjm : j = m
        · subst hjm
          rw [exchange_right, exchange_left]
          exact behind (k + 1) (Nat.lt_succ_self k) (by omega)
        · rw [exchange_of_ne (by omega) hjm, exchange_of_ne (by omega) (by omega)]
          exact behind j (by omega) (by omega)
      · intro j hj
        dsimp only
        rw [exchange_of_ne (by omega) (by omega), exchange_of_ne (by omega) (by omega)]
        exact rest j (by omega)
      · exact hfirst.trans (permuted_exchange low (by omega) (by omega) (by omega))
  · rw [if_neg hge]
    rw [pivot] at hge
    refine ⟨low, Nat.lt_succ_of_lt high, pivot, before, ?_, fun j hj => rest j (by omega), hwider⟩
    intro j hj hj'
    by_cases hjm : j = m
    · rw [hjm]
      exact hge
    · exact behind j hj (by omega)

theorem split_rounds (ge : α → α → Prop) [DecidableRel ge] (A : Nat → α) (lo n : Nat) :
    Split ge A lo (lo + 1 + n)
      ((List.range n).foldl (fun r i => Quicksort.round ge r (lo + 1 + i)) (A, lo)) := by
  induction n with
  | zero =>
    refine ⟨Nat.le_refl lo, Nat.lt_succ_self lo, rfl, ?_, ?_, fun _ _ => rfl, Permuted.refl _ _ _⟩
    · intro j hlo hj
      exact absurd hj (Nat.not_lt.mpr hlo)
    · intro j hj hj'
      change lo < j at hj
      omega
  | succ n ih =>
    rw [List.range_succ, List.foldl_append, List.foldl_cons, List.foldl_nil]
    exact ih.round

theorem split_spec (A : Nat → α) (lo : Nat) {n : Nat} (hn : 1 ≤ n) :
    Split ge A lo (lo + n) (split ge A lo n) := by
  have h := split_rounds ge A lo (n - 1)
  rw [Nat.add_assoc, Nat.add_sub_cancel' hn] at h
  exact h

end

/-! ## Sorting -/

section

variable (ge : α → α → Prop) [DecidableRel ge]

/-- The elements from `lo` on are split around the first of them, and both parts are sorted. -/
def sort (A : Nat → α) (lo n : Nat) : Nat → α :=
  if h : n ≤ 1 then A
  else
    let r := split ge A lo n
    let A := sort r.1 lo (r.2 - lo)
    if n - (r.2 - lo) > 1 then sort A (r.2 + 1) (n - (r.2 - lo) - 1) else A
termination_by n
decreasing_by
  · have hsplit : Split ge A lo (lo + n) (split ge A lo n) := split_spec A lo (by omega)
    have hlow := hsplit.low
    have hhigh := hsplit.high
    omega
  · omega

end

/-- A range is in order. -/
def Sorted (ge : α → α → Prop) (A : Nat → α) (lo n : Nat) : Prop :=
  ∀ i j, lo ≤ i → i ≤ j → j < lo + n → ge (A j) (A i)

/-- A range is in order if it is so in front of an element and behind it, and nothing in front is
larger than the element and nothing behind smaller. -/
theorem sorted_around {ge : α → α → Prop} {B : Nat → α} {lo n k : Nat} {x : α}
    (htrans : ∀ x y z, ge x y → ge y z → ge x z)
    (hrefl : ∀ x, ge x x) (hx : B k = x) (hlo : lo ≤ k) (hleft : Sorted ge B lo (k - lo))
    (hright : Sorted ge B (k + 1) (lo + n - (k + 1)))
    (hbefore : ∀ j, lo ≤ j → j < k → ge x (B j))
    (hbehind : ∀ j, k < j → j < lo + n → ge (B j) x) : Sorted ge B lo n := by
  intro i j hi hij hj
  rcases Nat.lt_trichotomy j k with hjk | rfl | hkj
  · exact hleft i j hi hij (by omega)
  · rcases Nat.lt_or_eq_of_le hij with hlt | rfl
    · rw [hx]
      exact hbefore i hi hlt
    · exact hrefl _
  · rcases Nat.lt_trichotomy i k with hik | rfl | hki
    · exact htrans _ _ _ (hbehind j hkj hj) (hbefore i hi hik)
    · rw [hx]
      exact hbehind j hkj hj
    · exact hright i j hki hij (by omega)

section

variable {ge : α → α → Prop} [DecidableRel ge]

/-- For a total preorder the range is permuted, and in order. -/
theorem sort_spec (htotal : ∀ x y, ge x y ∨ ge y x) (htrans : ∀ x y z, ge x y → ge y z → ge x z)
    (A : Nat → α) (lo n : Nat) :
    Permuted lo n A (sort ge A lo n) ∧ Sorted ge (sort ge A lo n) lo n := by
  have hrefl : ∀ x, ge x x := fun x => (htotal x x).elim id id
  induction n using Nat.strongRecOn generalizing A lo with
  | ind n ih =>
    by_cases hn : n ≤ 1
    · rw [sort, dif_pos hn]
      constructor
      · exact Permuted.refl _ _ _
      · intro i j hi hij hj
        obtain rfl : i = j := by omega
        exact hrefl _
    · have hsplit : Split ge A lo (lo + n) (split ge A lo n) := split_spec A lo (by omega)
      rw [sort, dif_neg hn]
      dsimp only
      generalize split ge A lo n = r at hsplit
      obtain ⟨B, k⟩ := r
      obtain ⟨low, high, pivot, before, behind, -, permuted⟩ := hsplit
      dsimp only at low high pivot before behind permuted ⊢
      rw [Nat.add_sub_cancel_left] at permuted
      obtain ⟨hleft, hleftSorted⟩ := ih (k - lo) (by omega) B lo
      generalize sort ge B lo (k - lo) = C at hleft hleftSorted
      -- the part behind the pivot, sorted if there is more than one element in it
      have hright : ∃ D, (if n - (k - lo) > 1 then sort ge C (k + 1) (n - (k - lo) - 1) else C) = D ∧
          Permuted (k + 1) (lo + n - (k + 1)) C D ∧ Sorted ge D (k + 1) (lo + n - (k + 1)) := by
        have hcount : n - (k - lo) - 1 = lo + n - (k + 1) := by omega
        split
        · rw [hcount]
          exact ⟨_, rfl, ih _ (by omega) C (k + 1)⟩
        · refine ⟨C, rfl, Permuted.refl _ _ _, ?_⟩
          intro i j hi hij hj
          omega
      obtain ⟨D, hD, hpermuted, hsorted⟩ := hright
      rw [hD]
      have hbeforeD : ∀ j, lo ≤ j → j < k → ge (A lo) (D j) := by
        intro j hj hjk
        rw [hpermuted.outside (by omega)]
        exact hleft.forall (P := ge (A lo)) (fun i hi hi' => before i hi (by omega)) j hj (by omega)
      have hbehindD : ∀ j, k < j → j < lo + n → ge (D j) (A lo) := by
        intro j hj hjn
        have hlarger := hpermuted.forall (P := fun x => ¬ ge (A lo) x)
          (fun i hi hi' => by rw [hleft.outside (by omega)]; exact behind i hi (by omega)) j hj
          (by omega)
        exact (htotal (A lo) (D j)).resolve_left hlarger
      have hpivotD : D k = A lo := by
        rw [hpermuted.outside (by omega), hleft.outside (by omega)]
        exact pivot
      have hleftD : Sorted ge D lo (k - lo) := by
        intro i j hi hij hj
        rw [hpermuted.outside (i := i) (by omega), hpermuted.outside (i := j) (by omega)]
        exact hleftSorted i j hi hij hj
      constructor
      · have hfirst : Permuted lo n B C := hleft.mono (Nat.le_refl lo) (by omega)
        have hsecond : Permuted lo n C D := hpermuted.mono (by omega) (by omega)
        exact (permuted.trans hfirst).trans hsecond
      · exact sorted_around htrans hrefl hpivotD low hleftD hsorted hbeforeD hbehindD

end

theorem Permuted.perm {A B : Nat → α} {n : Nat} (h : Permuted 0 n A B) :
    ((List.range n).map B).Perm ((List.range n).map A) := by
  obtain ⟨σ, hσ, rfl⟩ := h
  have hrange : ((List.range n).map σ).Perm (List.range n) := by
    apply (List.perm_ext_iff_of_nodup (List.nodup_range.map σ.injective) List.nodup_range).mpr
    intro i
    rw [List.mem_map, List.mem_range]
    constructor
    · intro hi
      obtain ⟨j, hj, rfl⟩ := hi
      have hj' : j < 0 + n := by
        rw [Nat.zero_add]
        exact List.mem_range.mp hj
      have hin := (inside_of_fixed hσ (Nat.zero_le j) hj').2
      rwa [Nat.zero_add] at hin
    · intro hi
      refine ⟨σ.symm i, ?_, σ.apply_symm_apply i⟩
      rw [List.mem_range]
      by_contra hout
      have hfix : σ (σ.symm i) = σ.symm i := hσ (σ.symm i) (by omega)
      rw [σ.apply_symm_apply] at hfix
      omega
  rw [← List.map_map]
  exact hrange.map A

end Egos.Lib.Quicksort
