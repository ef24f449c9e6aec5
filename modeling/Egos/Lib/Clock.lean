import Mathlib.Logic.Function.Basic
import Mathlib.Data.Nat.Find

/-!
# The CLOCK sweep

A hand goes round `n` places. Where it finds a recently used one it ages it and goes on,
and it stops at the first other place. `Sweep fresh hand k` says that it passes exactly
`k` places, which are `n` at most: after a whole turn the hand's own place has aged.

The second part is about tables whose places carry a key or none.
-/
namespace Egos.Lib.Clock

set_option autoImplicit false

variable {n : Nat} {α : Type}

/-- The place `k` steps ahead of the hand. -/
def ahead (hand : Fin n) (k : Nat) : Fin n :=
  ⟨(hand.val + k) % n, Nat.mod_lt _ (Nat.zero_lt_of_lt hand.isLt)⟩

@[simp] theorem ahead_zero (hand : Fin n) : ahead hand 0 = hand :=
  Fin.ext (Nat.mod_eq_of_lt hand.isLt)

@[simp] theorem ahead_turn (hand : Fin n) : ahead hand n = hand := by
  apply Fin.ext
  change (hand.val + n) % n = hand.val
  rw [Nat.add_mod_right, Nat.mod_eq_of_lt hand.isLt]

theorem ahead_ahead (hand : Fin n) (j k : Nat) : ahead (ahead hand j) k = ahead hand (j + k) := by
  apply Fin.ext
  change ((hand.val + j) % n + k) % n = (hand.val + (j + k)) % n
  rw [Nat.mod_add_mod, Nat.add_assoc]

/-- Within a turn no place comes twice. -/
theorem ahead_ne {hand : Fin n} {k : Nat} (hk : 0 < k) (hlt : k < n) : ahead hand k ≠ hand := by
  intro he
  have hv : (hand.val + k) % n = hand.val := congrArg Fin.val he
  have hh := hand.isLt
  by_cases hw : hand.val + k < n
  · rw [Nat.mod_eq_of_lt hw] at hv
    omega
  · have hm : (hand.val + k) % n = hand.val + k - n := by
      rw [Nat.mod_eq_sub_mod (by omega), Nat.mod_eq_of_lt (by omega)]
    omega

/-- The hand passes `k` fresh places and stops at the next one, which is not fresh unless it
is the hand's own place after a turn. -/
structure Sweep (fresh : Fin n → Prop) (hand : Fin n) (k : Nat) : Prop where
  turn : k ≤ n
  passed : ∀ j, j < k → fresh (ahead hand j)
  stop : k < n → ¬ fresh (ahead hand k)

theorem exists_sweep (fresh : Fin n → Prop) (hand : Fin n) : ∃ k, Sweep fresh hand k := by
  classical
  by_cases hex : ∃ k, k < n ∧ ¬ fresh (ahead hand k)
  · have hmin := Nat.find_spec hex
    refine ⟨Nat.find hex, Nat.le_of_lt hmin.1, ?_, fun _ => hmin.2⟩
    intro j hj
    by_contra hn
    exact Nat.find_min hex hj ⟨Nat.lt_trans hj hmin.1, hn⟩
  · refine ⟨n, le_rfl, ?_, fun hlt => absurd hlt (lt_irrefl n)⟩
    intro j hj
    by_contra hn
    exact hex ⟨j, hj, hn⟩

/-- After the first place has aged, the sweep goes on from the next one. -/
theorem Sweep.step {fresh : Fin n → Prop} {hand : Fin n} {k : Nat} (h : Sweep fresh hand (k + 1)) :
    Sweep (fun i => i ≠ hand ∧ fresh i) (ahead hand 1) k := by
  have hk := h.turn
  constructor
  · omega
  · intro j hj
    rw [ahead_ahead, Nat.add_comm]
    exact ⟨ahead_ne (by omega) (by omega), h.passed (j + 1) (by omega)⟩
  · intro hlt hf
    rw [ahead_ahead, Nat.add_comm] at hf
    rcases Nat.lt_or_ge (k + 1) n with hl | hg
    · exact h.stop hl hf.2
    · rw [show k + 1 = n by omega, ahead_turn] at hf
      exact hf.1 rfl

/-- The table after the hand has passed `k` places and aged them. -/
def swept (table : Fin n → α) (age : α → α) (hand : Fin n) (k : Nat) : Fin n → α := fun i =>
  if ∃ j, j < k ∧ i = ahead hand j then age (table i) else table i

@[simp] theorem swept_zero (table : Fin n → α) (age : α → α) (hand : Fin n) :
    swept table age hand 0 = table := by
  funext i
  apply if_neg
  rintro ⟨j, hj, -⟩
  exact absurd hj (Nat.not_lt_zero j)

theorem swept_succ {table : Fin n → α} {age : α → α} {hand : Fin n} {k : Nat} (hk : k + 1 ≤ n) :
    swept table age hand (k + 1) =
      swept (Function.update table hand (age (table hand))) age (ahead hand 1) k := by
  have hlater : ∀ i, (∃ j, j < k ∧ i = ahead (ahead hand 1) j) →
      i ≠ hand ∧ ∃ j, j < k + 1 ∧ i = ahead hand j := by
    rintro i ⟨j, hj, rfl⟩
    rw [ahead_ahead, Nat.add_comm]
    exact ⟨ahead_ne (by omega) (by omega), j + 1, by omega, rfl⟩
  funext i
  unfold swept
  by_cases hi : i = hand
  · subst hi
    have hn : ¬ ∃ j, j < k ∧ i = ahead (ahead i 1) j := fun he => (hlater i he).1 rfl
    rw [if_pos ⟨0, by omega, (ahead_zero i).symm⟩, if_neg hn, Function.update_self]
  · rw [Function.update_of_ne hi]
    have hiff : (∃ j, j < k + 1 ∧ i = ahead hand j) ↔ ∃ j, j < k ∧ i = ahead (ahead hand 1) j := by
      constructor
      · rintro ⟨j, hj, rfl⟩
        cases j with
        | zero => exact absurd (ahead_zero hand) hi
        | succ j => exact ⟨j, by omega, by rw [ahead_ahead, Nat.add_comm]⟩
      · exact fun he => (hlater i he).2
    rw [if_congr hiff rfl rfl]

/-- What ageing does not change in the passed places has not changed at all. -/
theorem map_swept {β : Type} {f : α → β} {table : Fin n → α} {age : α → α} {hand : Fin n} {k : Nat}
    (hage : ∀ j, j < k → f (age (table (ahead hand j))) = f (table (ahead hand j))) :
    (fun i => f (swept table age hand k i)) = fun i => f (table i) := by
  funext i
  unfold swept
  split
  · rename_i hi
    obtain ⟨j, hj, rfl⟩ := hi
    exact hage j hj
  · rfl

/-- A loop that ages the fresh place under the hand, and finishes at any other, finishes where
the sweep stops. -/
theorem Sweep.loop {γ : Type} {p : α → Prop} {age : α → α} {f : Nat → (Fin n → α) → Fin n → γ}
    {g : (Fin n → α) → Fin n → γ} (hage : ∀ a, ¬ p (age a))
    (hpass : ∀ rounds table i, p (table i) →
      f (rounds + 1) table i = f rounds (Function.update table i (age (table i))) (ahead i 1))
    (hstop : ∀ rounds table i, ¬ p (table i) → f (rounds + 1) table i = g table i)
    {k : Nat} {table : Fin n → α} {hand : Fin n} (h : Sweep (fun i => p (table i)) hand k)
    {rounds : Nat} (hr : k < rounds) :
    f rounds table hand = g (swept table age hand k) (ahead hand k) := by
  obtain ⟨rounds, rfl⟩ := Nat.exists_eq_succ_of_ne_zero (Nat.ne_of_gt (Nat.zero_lt_of_lt hr))
  induction k generalizing table hand rounds with
  | zero =>
    have hs := h.stop (Nat.zero_lt_of_lt hand.isLt)
    rw [ahead_zero] at hs
    rw [hstop rounds table hand hs, swept_zero, ahead_zero]
  | succ k ih =>
    have hfirst := h.passed 0 (by omega)
    rw [ahead_zero] at hfirst
    obtain ⟨rounds, rfl⟩ := Nat.exists_eq_succ_of_ne_zero (show rounds ≠ 0 by omega)
    have hfresh : (fun i => p (Function.update table hand (age (table hand)) i)) =
        fun i => i ≠ hand ∧ p (table i) := by
      funext i
      by_cases hi : i = hand
      · subst hi
        simp [hage]
      · simp [hi]
    have hs := h.step
    rw [← hfresh] at hs
    rw [hpass _ table hand hfirst, ih hs _ (by omega), swept_succ h.turn, ahead_ahead, Nat.add_comm]

section Keys

variable {ι κ : Type}

/-- No key stands at two places. -/
def Unique (key : ι → Option κ) : Prop := ∀ i j k, key i = some k → key j = some k → i = j

namespace Unique

variable {key key' : ι → Option κ}

theorem fewer (h : Unique key) (hkey : ∀ i k, key' i = some k → key i = some k) : Unique key' :=
  fun i j k hi hj => h i j k (hkey i k hi) (hkey j k hj)

/-- A place takes the key that it has. -/
theorem same [DecidableEq ι] (h : Unique key) {i : ι} {k : Option κ} (hk : k = key i) :
    Unique (Function.update key i k) := by
  rwa [hk, Function.update_eq_self]

/-- A place takes a key that stands nowhere else. -/
theorem place [DecidableEq ι] (h : Unique key) (i : ι) {k : κ} (hk : ∀ j, key j ≠ some k) :
    Unique (Function.update key i (some k)) := by
  intro a b k' ha hb
  by_cases hai : a = i <;> by_cases hbi : b = i
  · rw [hai, hbi]
  · subst hai
    rw [Function.update_self] at ha
    rw [Function.update_of_ne hbi] at hb
    cases ha
    exact absurd hb (hk b)
  · subst hbi
    rw [Function.update_self] at hb
    rw [Function.update_of_ne hai] at ha
    cases hb
    exact absurd ha (hk a)
  · rw [Function.update_of_ne hai] at ha
    rw [Function.update_of_ne hbi] at hb
    exact h a b k' ha hb

end Unique

end Keys

end Egos.Lib.Clock
