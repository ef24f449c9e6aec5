import Mathlib.Data.Set.Function

/-!
# Arrays laid out in other arrays

The elements of an array lie among the cells of another one, where an injective map places them.
A change of one element is a change of one cell, and the other way round.
-/
namespace Egos.Lib

set_option autoImplicit false

variable {κ ι α : Type} {D : Set κ} {place : κ → ι} {cells : ι → α} {array : κ → α}

/-- The elements with a key in `D` lie where `place` says. -/
def Laid (D : Set κ) (place : κ → ι) (cells : ι → α) (array : κ → α) : Prop :=
  Set.EqOn (cells ∘ place) array D

namespace Laid

theorem of_place (D : Set κ) (place : κ → ι) (cells : ι → α) :
    Laid D place cells (cells ∘ place) :=
  Set.eqOn_refl _ _

theorem get (h : Laid D place cells array) {k : κ} (hk : k ∈ D) : cells (place k) = array k :=
  h hk

theorem update [DecidableEq κ] [DecidableEq ι] (h : Laid D place cells array)
    (hinj : Set.InjOn place D) {k : κ} (hk : k ∈ D) (a : α) :
    Laid D place (Function.update cells (place k) a) (Function.update array k a) := by
  intro k' hk'
  change Function.update cells (place k) a (place k') = _
  by_cases heq : k' = k
  · subst heq
    rw [Function.update_self, Function.update_self]
  · have hplace : place k' ≠ place k := fun hp => heq (hinj hk' hk hp)
    rw [Function.update_of_ne hplace, Function.update_of_ne heq]
    exact h.get hk'

end Laid

end Egos.Lib
