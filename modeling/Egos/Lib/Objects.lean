import Mathlib.Logic.Function.Basic
import Mathlib.Data.List.Basic

/-!
# Objects in memory

What the user of an allocator sees: objects at addresses, each of which is a list of cells, and a cell
has a value or has not been written yet. `Holds memory objects` says that the memory has these values.
-/
namespace Egos.Lib

set_option autoImplicit false

abbrev Objects (α : Type) := Nat → Option (List (Option α))

namespace Objects

variable {α : Type}

def empty : Objects α := fun _ => none

def add (objects : Objects α) (p : Nat) (cells : List (Option α)) : Objects α :=
  Function.update objects p (some cells)

def drop (objects : Objects α) (p : Nat) : Objects α := Function.update objects p none

/-- The first `n` cells, and new ones if there are not as many. -/
def resize (cells : List (Option α)) (n : Nat) : List (Option α) :=
  cells.take n ++ List.replicate (n - cells.length) none

def write (objects : Objects α) (p i : Nat) (v : α) : Objects α :=
  Function.update objects p ((objects p).map fun cells => cells.set i (some v))

def Holds (memory : Nat → α) (objects : Objects α) : Prop :=
  ∀ p cells, objects p = some cells → ∀ i v, cells[i]? = some (some v) → memory (p + i) = v

variable {memory memory' : Nat → α} {objects : Objects α} {p q n i : Nat} {v : α}
  {cells cells' : List (Option α)}

theorem add_self : objects.add p cells p = some cells := Function.update_self _ _ _

theorem add_of_ne (h : q ≠ p) : objects.add p cells q = objects q := Function.update_of_ne h _ _

theorem drop_self : objects.drop p p = none := Function.update_self _ _ _

theorem drop_of_ne (h : q ≠ p) : objects.drop p q = objects q := Function.update_of_ne h _ _

theorem drop_of_none (h : objects p = none) : objects.drop p = objects := by
  unfold drop
  rw [← h, Function.update_eq_self]

theorem write_self (h : objects p = some cells) :
    objects.write p i v p = some (cells.set i (some v)) := by
  unfold write
  rw [Function.update_self, h]
  rfl

theorem write_of_ne (h : q ≠ p) : objects.write p i v q = objects q := Function.update_of_ne h _ _

theorem resize_length : (resize cells n).length = n := by
  unfold resize
  rw [List.length_append, List.length_take, List.length_replicate]
  omega

theorem resize_nil : resize ([] : List (Option α)) n = List.replicate n none := by
  unfold resize
  rw [List.take_nil, List.nil_append, List.length_nil, Nat.sub_zero]

theorem resize_known (h : (resize cells n)[i]? = some (some v)) :
    cells[i]? = some (some v) ∧ i < n := by
  have hi : i < n := by
    have hlt := (List.getElem?_eq_some_iff.mp h).1
    rwa [resize_length] at hlt
  unfold resize at h
  by_cases hlen : i < (cells.take n).length
  · rw [List.getElem?_append_left hlen, List.getElem?_take_of_lt hi] at h
    exact ⟨h, hi⟩
  · rw [List.getElem?_append_right (Nat.not_lt.mp hlen), List.getElem?_replicate] at h
    split at h <;> cases h

theorem Holds.empty : Holds memory (Objects.empty : Objects α) := by
  intro p cells h
  cases h

theorem Holds.congr (h : Holds memory objects) (hsame : ∀ p cells, objects p = some cells →
    ∀ i < cells.length, memory' (p + i) = memory (p + i)) : Holds memory' objects := by
  intro p cells hp i v hv
  rw [hsame p cells hp i (List.getElem?_eq_some_iff.mp hv).1]
  exact h p cells hp i v hv

theorem Holds.drop (h : Holds memory objects) : Holds memory (objects.drop p) := by
  intro q cells hq
  by_cases hqp : q = p
  · subst hqp
    rw [drop_self] at hq
    cases hq
  · rw [drop_of_ne hqp] at hq
    exact h q cells hq

theorem Holds.add (h : Holds memory objects)
    (hcells : ∀ i v, cells[i]? = some (some v) → memory (p + i) = v) :
    Holds memory (objects.add p cells) := by
  intro q cells' hq
  by_cases hqp : q = p
  · subst hqp
    rw [add_self] at hq
    cases hq
    exact hcells
  · rw [add_of_ne hqp] at hq
    exact h q cells' hq

theorem Holds.write (h : Holds memory objects) (hp : objects p = some cells)
    (hother : ∀ q cells', objects q = some cells' → q ≠ p → ∀ j < cells'.length, q + j ≠ p + i) :
    Holds (Function.update memory (p + i) v) (objects.write p i v) := by
  intro q cells' hq j w hw
  by_cases hqp : q = p
  · subst hqp
    rw [write_self hp] at hq
    cases hq
    rw [List.getElem?_set] at hw
    by_cases hij : i = j
    · subst hij
      rw [Function.update_self]
      rw [if_pos rfl] at hw
      split at hw
      · cases hw
        rfl
      · cases hw
    · rw [if_neg hij] at hw
      rw [Function.update_of_ne (by omega)]
      exact h q cells hp j w hw
  · rw [write_of_ne hqp] at hq
    rw [Function.update_of_ne (hother q cells' hq hqp j (List.getElem?_eq_some_iff.mp hw).1)]
    exact h q cells' hq j w hw

end Objects

end Egos.Lib
