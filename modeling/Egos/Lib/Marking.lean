import Mathlib.Algebra.BigOperators.Group.Finset.Basic
import Mathlib.Algebra.BigOperators.Intervals
import Mathlib.Algebra.Order.Group.Multiset
import Mathlib.Data.Multiset.AddSub

/-!
# Marking each reference once

A checker goes over a structure, takes every reference it meets and gives up at one that
is out of bounds or taken before. `Markable` says when a collection of references can be
taken, and `Marks` that a traversal took it or gave up rightly. Traversals one after the
other mark the sum of what they mark.
-/
namespace Egos.Lib

variable {ι : Type}

/-- The references `M` can all be taken: none occurs twice, and each is in bounds and not
among those taken before. -/
structure Markable (bounds : ι → Prop) (taken : ι → Prop) (M : Multiset ι) : Prop where
  nodup : M.Nodup
  inside : ∀ x ∈ M, bounds x
  unused : ∀ x ∈ M, ¬ taken x

/-- What is taken after `M`. -/
def take (taken : ι → Prop) (M : Multiset ι) (x : ι) : Prop := taken x ∨ x ∈ M

section

variable {bounds : ι → Prop} {taken : ι → Prop} {M N : Multiset ι}

@[simp] theorem take_zero (taken : ι → Prop) : take taken 0 = taken := by
  funext x
  simp [take]

theorem take_add (taken : ι → Prop) (M N : Multiset ι) :
    take taken (M + N) = take (take taken M) N := by
  funext x
  simp [take, or_assoc]

theorem markable_zero : Markable bounds taken 0 :=
  ⟨Multiset.nodup_zero, by simp, by simp⟩

theorem markable_singleton {x : ι} : Markable bounds taken {x} ↔ bounds x ∧ ¬ taken x :=
  ⟨fun h => ⟨h.inside x (by simp), h.unused x (by simp)⟩,
    fun h => ⟨Multiset.nodup_singleton x, by simpa using h.1, by simpa using h.2⟩⟩

theorem markable_add :
    Markable bounds taken (M + N) ↔
      Markable bounds taken M ∧ Markable bounds (take taken M) N := by
  constructor
  · intro h
    obtain ⟨hM, hN, hdis⟩ := Multiset.nodup_add.mp h.nodup
    refine ⟨⟨hM, fun x hx => h.inside x (Multiset.mem_add.mpr (.inl hx)),
      fun x hx => h.unused x (Multiset.mem_add.mpr (.inl hx))⟩,
      ⟨hN, fun x hx => h.inside x (Multiset.mem_add.mpr (.inr hx)), fun x hx ht => ?_⟩⟩
    rcases ht with ht | ht
    · exact h.unused x (Multiset.mem_add.mpr (.inr hx)) ht
    · exact Multiset.disjoint_left.mp hdis ht hx
  · rintro ⟨hM, hN⟩
    refine ⟨Multiset.nodup_add.mpr ⟨hM.nodup, hN.nodup, ?_⟩, fun x hx => ?_, fun x hx => ?_⟩
    · exact Multiset.disjoint_left.mpr fun hm hn => hN.unused _ hn (.inr hm)
    · rcases Multiset.mem_add.mp hx with hx | hx
      · exact hM.inside x hx
      · exact hN.inside x hx
    · rcases Multiset.mem_add.mp hx with hx | hx
      · exact hM.unused x hx
      · exact fun ht => hN.unused x hx (.inl ht)

theorem Markable.mono (h : Markable bounds taken N) (hle : M ≤ N) : Markable bounds taken M :=
  ⟨Multiset.nodup_of_le hle h.nodup, fun x hx => h.inside x (Multiset.mem_of_le hle hx),
    fun x hx => h.unused x (Multiset.mem_of_le hle hx)⟩

end

/-- A traversal that ends with these references taken, or gives up with none, has marked
`M`: it gives up exactly when `M` cannot be taken. -/
def Marks (bounds : ι → Prop) (taken : ι → Prop) (M : Multiset ι) : Option (ι → Prop) → Prop
  | some taken' => Markable bounds taken M ∧ taken' = take taken M
  | none => ¬ Markable bounds taken M

namespace Marks

variable {bounds : ι → Prop} {taken taken' : ι → Prop} {M N : Multiset ι} {r : Option (ι → Prop)}

theorem nothing : Marks bounds taken 0 (some taken) := ⟨markable_zero, (take_zero _).symm⟩

theorem single {x : ι} (hb : bounds x) (hx : ¬ taken x) (h : taken' = take taken {x}) :
    Marks bounds taken {x} (some taken') := ⟨markable_singleton.mpr ⟨hb, hx⟩, h⟩

theorem seq (h : Marks bounds taken M (some taken')) (hr : Marks bounds taken' N r) :
    Marks bounds taken (M + N) r := by
  obtain ⟨hM, rfl⟩ := h
  cases r with
  | none => exact fun ha => hr (markable_add.mp ha).2
  | some taken'' =>
    obtain ⟨hN, rfl⟩ := hr
    exact ⟨markable_add.mpr ⟨hM, hN⟩, (take_add _ _ _).symm⟩

theorem stop (h : Marks bounds taken M none) : Marks bounds taken (M + N) none :=
  fun ha => h (markable_add.mp ha).1

end Marks

end Egos.Lib
