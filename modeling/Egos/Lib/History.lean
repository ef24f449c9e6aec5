import Mathlib.Data.List.Induction

/-!
# Properties of histories

A history is a list that only grows at its end. `Throughout P h` says that each entry of `h`
has the property `P` with respect to the entries before it.
-/
namespace Egos.Lib

set_option autoImplicit false

variable {α : Type}

def Throughout (P : List α → α → Prop) (h : List α) : Prop :=
  ∀ past e, past ++ [e] <+: h → P past e

namespace Throughout

variable {P : List α → α → Prop} {h : List α}

theorem nil : Throughout P [] := by
  intro past e hp
  have hlen := hp.length_le
  simp at hlen

theorem concat (hh : Throughout P h) {e : α} (he : P h e) : Throughout P (h ++ [e]) := by
  intro past e' hp
  obtain heq | hp := List.prefix_concat_iff.mp hp
  · obtain ⟨rfl, hlast⟩ := List.append_inj' heq rfl
    rw [List.singleton_inj.mp hlast]
    exact he
  · exact hh past e' hp

/-- Entries that have the property after every history. -/
theorem append (hh : Throughout P h) {new : List α} (hnew : ∀ e ∈ new, ∀ past, P past e) :
    Throughout P (h ++ new) := by
  induction new using List.reverseRecOn with
  | nil => rwa [List.append_nil]
  | append_singleton new e ih =>
    rw [← List.append_assoc]
    refine (ih fun e' he' => hnew e' (by simp [he'])).concat ?_
    exact hnew e (by simp) _

theorem left {new : List α} (hh : Throughout P (h ++ new)) : Throughout P h :=
  fun past e hp => hh past e (hp.trans (List.prefix_append h new))

end Throughout

end Egos.Lib
