import Mathlib.Data.List.Nodup
import Mathlib.Logic.Function.Basic
import Mathlib.Order.Basic
import Mathlib.Data.Nat.Find

/-!
# Singly linked lists in a heap

A heap gives out cells, each with a link to the next one. A chain goes through cells from one link
to another, and a pointer to the last of them lets the chain grow at its end.
-/
namespace Egos.Lib

set_option autoImplicit false

variable {ν : Type}

/-- Cells at addresses, of which only finitely many are in use. -/
structure Heap (ν : Type) where
  cell : Nat → Option ν
  finite : ∃ m, ∀ p, m ≤ p → cell p = none

namespace Heap

def empty : Heap ν where
  cell _ := none
  finite := ⟨0, fun _ _ => rfl⟩

def update (heap : Heap ν) (p : Nat) (x : Option ν) : Heap ν where
  cell := Function.update heap.cell p x
  finite := by
    obtain ⟨m, hm⟩ := heap.finite
    refine ⟨max m (p + 1), fun q hq => ?_⟩
    have hp : p < q := (Nat.le_max_right m (p + 1)).trans hq
    rw [Function.update_of_ne (Nat.ne_of_gt hp)]
    exact hm q ((Nat.le_max_left m (p + 1)).trans hq)

theorem exists_free (heap : Heap ν) : ∃ p, heap.cell p = none := by
  obtain ⟨m, hm⟩ := heap.finite
  exact ⟨m, hm m (Nat.le_refl m)⟩

@[simp] theorem update_same (heap : Heap ν) (p : Nat) (x : Option ν) :
    (heap.update p x).cell p = x := Function.update_self _ _ _

theorem update_other {heap : Heap ν} {p q : Nat} (h : q ≠ p) (x : Option ν) :
    (heap.update p x).cell q = heap.cell q := Function.update_of_ne h _ _

end Heap

/-- Any place that is not in use can be given out. -/
structure Heap.Allocator (ν : Type) where
  choose : Heap ν → Nat
  fresh : ∀ heap : Heap ν, heap.cell (choose heap) = none

/-- The first place that is not in use. -/
def Heap.firstFit : Heap.Allocator ν where
  choose heap := Nat.find heap.exists_free
  fresh heap := Nat.find_spec heap.exists_free

/-- From the link `p` to the link `q` the chain goes through these cells. -/
def Chain (link : ν → Option Nat) (cell : Nat → Option ν) :
    (p : Option Nat) → List (Nat × ν) → (q : Option Nat) → Prop
  | p, [], q => p = q
  | p, (a, x) :: l, q => p = some a ∧ cell a = some x ∧ Chain link cell (link x) l q

namespace Chain

variable {link : ν → Option Nat} {cell cell' : Nat → Option ν} {p q : Option Nat}
  {l l' : List (Nat × ν)} {a : Nat} {x y : ν}

theorem congr (h : Chain link cell p l q) (hcell : ∀ e ∈ l, cell' e.1 = cell e.1) :
    Chain link cell' p l q := by
  induction l generalizing p with
  | nil => exact h
  | cons e l ih =>
    obtain ⟨hp, hx, hrest⟩ := h
    refine ⟨hp, (hcell e List.mem_cons_self).trans hx, ?_⟩
    exact ih hrest fun e' he' => hcell e' (List.mem_cons_of_mem _ he')

theorem cell_eq (h : Chain link cell p l q) {e : Nat × ν} (he : e ∈ l) : cell e.1 = some e.2 := by
  induction l generalizing p with
  | nil => cases he
  | cons d l ih =>
    obtain ⟨-, hx, hrest⟩ := h
    cases he with
    | head => exact hx
    | tail _ he => exact ih hrest he

theorem append_iff : Chain link cell p (l ++ l') q ↔
    ∃ r, Chain link cell p l r ∧ Chain link cell r l' q := by
  induction l generalizing p with
  | nil =>
    constructor
    · exact fun h => ⟨p, rfl, h⟩
    · rintro ⟨r, rfl, h⟩
      exact h
  | cons e l ih =>
    constructor
    · rintro ⟨hp, hx, h⟩
      obtain ⟨r, hl, hl'⟩ := ih.mp h
      exact ⟨r, ⟨hp, hx, hl⟩, hl'⟩
    · rintro ⟨r, ⟨hp, hx, hl⟩, hl'⟩
      exact ⟨hp, hx, ih.mpr ⟨r, hl, hl'⟩⟩

theorem eq_nil (h : Chain link cell none l q) : l = [] := by
  cases l with
  | nil => rfl
  | cons e l => cases h.1

theorem extend (h : Chain link cell p (l ++ [(a, x)]) q) {x' : ν} {b : Nat}
    (hnodup : a ∉ l.map Prod.fst) (hb : b ∉ (l ++ [(a, x)]).map Prod.fst)
    (hx' : link x' = some b) (ha : cell' a = some x') (hy : cell' b = some y)
    (hcell : ∀ c, c ≠ a → c ≠ b → cell' c = cell c) :
    Chain link cell' p (l ++ [(a, x'), (b, y)]) (link y) := by
  obtain ⟨r, hl, hlast⟩ := append_iff.mp h
  rw [List.map_append, List.mem_append, not_or] at hb
  refine append_iff.mpr ⟨r, hl.congr fun e he => hcell _ ?_ ?_, ?_⟩
  · rintro rfl
    exact hnodup (List.mem_map_of_mem he)
  · rintro rfl
    exact hb.1 (List.mem_map_of_mem he)
  · exact ⟨hlast.1, ha, hx', hy, rfl⟩

end Chain

end Egos.Lib
