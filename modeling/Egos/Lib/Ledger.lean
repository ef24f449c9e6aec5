import Mathlib.Logic.Function.Basic

/-!
# Names that are given and taken in two steps

Processes make objects and name them. An object is made first and named later, and it is destroyed
first and loses its name later; its place may have been taken by a new object then. As long as nobody
destroys an object that he has not found under a firm name, the names that are left when all have
finished are names of different objects that exist.
-/
namespace Egos.Lib

set_option autoImplicit false

/-- What an assigned function gives is the value assigned or an old one. -/
theorem of_update_some {α β : Type} [DecidableEq α] {f : α → Option β} {a b : α} {x y : β}
    (h : Function.update f a (some x) b = some y) : b = a ∧ y = x ∨ b ≠ a ∧ f b = some y := by
  by_cases hb : b = a
  · rw [hb, Function.update_self] at h
    exact .inl ⟨hb, (Option.some.inj h).symm⟩
  · rw [Function.update_of_ne hb] at h
    exact .inr ⟨hb, h⟩

theorem of_update_none {α β : Type} [DecidableEq α] {f : α → Option β} {a b : α} {y : β}
    (h : Function.update f a none b = some y) : b ≠ a ∧ f b = some y := by
  by_cases hb : b = a
  · rw [hb, Function.update_self] at h
    cases h
  · rw [Function.update_of_ne hb] at h
    exact ⟨hb, h⟩

/-- `ι` are the processes, `κ` the names and `ο` the objects. -/
structure Ledger (ι κ ο : Type) where
  names : κ → Option ο
  alive : ο → Prop
  /-- the name that the process has still to take away, and the object that it has destroyed -/
  doomed : ι → Option (κ × ο)
  /-- the object that the process has made and not named yet -/
  fresh : ι → Option ο

namespace Ledger

variable {ι κ ο : Type} {l l' : Ledger ι κ ο} {i : ι} {k : κ} {o : ο}

/-- Nobody is about to take the name away. -/
def Firm (l : Ledger ι κ ο) (k : κ) : Prop := ∀ i o, l.doomed i ≠ some (k, o)

theorem firm_congr (h : l'.doomed = l.doomed) (k : κ) : l'.Firm k ↔ l.Firm k := by
  unfold Firm
  rw [h]

structure Sound (l : Ledger ι κ ο) : Prop where
  backed : ∀ k o, l.names k = some o → l.Firm k → l.alive o
  single : ∀ k k' o, l.names k = some o → l.names k' = some o → l.Firm k → l.Firm k' → k = k'
  held : ∀ i k o, l.doomed i = some (k, o) → l.names k = some o
  owned : ∀ i j k o o', l.doomed i = some (k, o) → l.doomed j = some (k, o') → i = j
  made : ∀ i o, l.fresh i = some o → l.alive o
  unnamed : ∀ i o, l.fresh i = some o → ∀ k, l.names k = some o → ¬ l.Firm k
  unshared : ∀ i j o, l.fresh i = some o → l.fresh j = some o → i = j

namespace Sound

/-- Only what the processes hold in their hands has changed, or objects that nobody knows. -/
theorem congr (h : l.Sound) (hnames : l'.names = l.names) (halive : ∀ o, l.alive o → l'.alive o)
    (hdoomed : l'.doomed = l.doomed) (hfresh : ∀ j o, l'.fresh j = some o → l.fresh j = some o) :
    l'.Sound := by
  have hfirm := firm_congr hdoomed
  constructor
  · intro k o hk hf
    rw [hnames] at hk
    exact halive o (h.backed k o hk ((hfirm k).mp hf))
  · intro k k' o hk hk' hf hf'
    rw [hnames] at hk hk'
    exact h.single k k' o hk hk' ((hfirm k).mp hf) ((hfirm k').mp hf')
  · intro i k o hi
    rw [hdoomed] at hi
    rw [hnames]
    exact h.held i k o hi
  · intro i j k o o' hi hj
    rw [hdoomed] at hi hj
    exact h.owned i j k o o' hi hj
  · exact fun j o hj => halive o (h.made j o (hfresh j o hj))
  · intro j o hj k hk hf
    rw [hnames] at hk
    exact h.unnamed j o (hfresh j o hj) k hk ((hfirm k).mp hf)
  · exact fun i j o hi hj => h.unshared i j o (hfresh i o hi) (hfresh j o hj)

variable [DecidableEq ι]

theorem make (h : l.Sound) (hdead : ¬ l.alive o) (hnames : l'.names = l.names)
    (halive : ∀ o', l'.alive o' ↔ l.alive o' ∨ o' = o) (hdoomed : l'.doomed = l.doomed)
    (hfresh : l'.fresh = Function.update l.fresh i (some o)) : l'.Sound := by
  have hfirm := firm_congr hdoomed
  have hcases {j : ι} {o' : ο} (hj : l'.fresh j = some o') :
      j = i ∧ o' = o ∨ j ≠ i ∧ l.fresh j = some o' := of_update_some (hfresh ▸ hj)
  constructor
  · intro k o' hk hf
    rw [hnames] at hk
    exact (halive o').mpr (.inl (h.backed k o' hk ((hfirm k).mp hf)))
  · intro k k' o' hk hk' hf hf'
    rw [hnames] at hk hk'
    exact h.single k k' o' hk hk' ((hfirm k).mp hf) ((hfirm k').mp hf')
  · intro j k o' hj
    rw [hdoomed] at hj
    rw [hnames]
    exact h.held j k o' hj
  · intro j j' k o' o'' hj hj'
    rw [hdoomed] at hj hj'
    exact h.owned j j' k o' o'' hj hj'
  · intro j o' hj
    obtain ⟨-, rfl⟩ | ⟨-, hj⟩ := hcases hj
    · exact (halive o').mpr (.inr rfl)
    · exact (halive o').mpr (.inl (h.made j o' hj))
  · intro j o' hj k hk hf
    rw [hnames] at hk
    obtain ⟨-, rfl⟩ | ⟨-, hj⟩ := hcases hj
    · exact hdead (h.backed k o' hk ((hfirm k).mp hf))
    · exact h.unnamed j o' hj k hk ((hfirm k).mp hf)
  · intro j j' o' hj hj'
    obtain ⟨rfl, rfl⟩ | ⟨-, hj⟩ := hcases hj
    · obtain ⟨rfl, -⟩ | ⟨-, hj'⟩ := hcases hj'
      · rfl
      · exact absurd (h.made j' o' hj') hdead
    · obtain ⟨-, rfl⟩ | ⟨-, hj'⟩ := hcases hj'
      · exact absurd (h.made j o' hj) hdead
      · exact h.unshared j j' o' hj hj'

theorem destroy (h : l.Sound) (hk : l.names k = some o) (hf : l.Firm k)
    (hnames : l'.names = l.names) (halive : ∀ o', l'.alive o' ↔ l.alive o' ∧ o' ≠ o)
    (hdoomed : l'.doomed = Function.update l.doomed i (some (k, o))) (hidle : l.doomed i = none)
    (hfresh : l'.fresh = l.fresh) : l'.Sound := by
  have hcases {j : ι} {k' : κ} {o' : ο} (hj : l'.doomed j = some (k', o')) :
      j = i ∧ k' = k ∧ o' = o ∨ j ≠ i ∧ l.doomed j = some (k', o') := by
    rw [hdoomed] at hj
    obtain ⟨he, hko⟩ | hold := of_update_some hj
    · exact .inl ⟨he, Prod.mk.inj hko⟩
    · exact .inr hold
  have hdoom : l'.doomed i = some (k, o) := by
    rw [hdoomed, Function.update_self]
  have hfirm {k' : κ} (hf' : l'.Firm k') : l.Firm k' ∧ k' ≠ k := by
    constructor
    · intro j o' hj
      apply hf' j o'
      rw [hdoomed, Function.update_of_ne]
      · exact hj
      · rintro rfl
        rw [hidle] at hj
        cases hj
    · rintro rfl
      exact hf' i o hdoom
  constructor
  · intro k' o' hk' hf'
    rw [hnames] at hk'
    obtain ⟨hf₀, hne⟩ := hfirm hf'
    refine (halive o').mpr ⟨h.backed k' o' hk' hf₀, ?_⟩
    rintro rfl
    exact hne (h.single k' k o' hk' hk hf₀ hf)
  · intro k' k'' o' hk' hk'' hf' hf''
    rw [hnames] at hk' hk''
    exact h.single k' k'' o' hk' hk'' (hfirm hf').1 (hfirm hf'').1
  · intro j k' o' hj
    rw [hnames]
    obtain ⟨-, rfl, rfl⟩ | ⟨-, hj⟩ := hcases hj
    · exact hk
    · exact h.held j k' o' hj
  · intro j j' k' o' o'' hj hj'
    obtain ⟨rfl, rfl, rfl⟩ | ⟨-, hj⟩ := hcases hj
    · obtain ⟨rfl, -⟩ | ⟨-, hj'⟩ := hcases hj'
      · rfl
      · exact absurd hj' (hf j' o'')
    · obtain ⟨-, rfl, rfl⟩ | ⟨-, hj'⟩ := hcases hj'
      · exact absurd hj (hf j o')
      · exact h.owned j j' k' o' o'' hj hj'
  · intro j o' hj
    rw [hfresh] at hj
    refine (halive o').mpr ⟨h.made j o' hj, ?_⟩
    rintro rfl
    exact h.unnamed j o' hj k hk hf
  · intro j o' hj k' hk' hf'
    rw [hfresh] at hj
    rw [hnames] at hk'
    exact h.unnamed j o' hj k' hk' (hfirm hf').1
  · intro j j' o' hj hj'
    rw [hfresh] at hj hj'
    exact h.unshared j j' o' hj hj'

variable [DecidableEq κ]

theorem unname (h : l.Sound) (hi : l.doomed i = some (k, o))
    (hnames : l'.names = Function.update l.names k none) (halive : l'.alive = l.alive)
    (hdoomed : l'.doomed = Function.update l.doomed i none) (hfresh : l'.fresh = l.fresh) :
    l'.Sound := by
  have hname {k' : κ} {o' : ο} (hk' : l'.names k' = some o') : k' ≠ k ∧ l.names k' = some o' :=
    of_update_none (hnames ▸ hk')
  have hother {j : ι} {k' : κ} {o' : ο} (hj : l'.doomed j = some (k', o')) :
      j ≠ i ∧ l.doomed j = some (k', o') := of_update_none (hdoomed ▸ hj)
  have hfirm {k' : κ} (hne : k' ≠ k) (hf : l'.Firm k') : l.Firm k' := by
    intro j o' hj
    apply hf j o'
    rw [hdoomed, Function.update_of_ne]
    · exact hj
    · rintro rfl
      rw [hi] at hj
      cases hj
      exact hne rfl
  constructor
  · intro k' o' hk' hf
    obtain ⟨hne, hk'⟩ := hname hk'
    rw [halive]
    exact h.backed k' o' hk' (hfirm hne hf)
  · intro k' k'' o' hk' hk'' hf hf'
    obtain ⟨hne, hk'⟩ := hname hk'
    obtain ⟨hne', hk''⟩ := hname hk''
    exact h.single k' k'' o' hk' hk'' (hfirm hne hf) (hfirm hne' hf')
  · intro j k' o' hj
    obtain ⟨hne, hj⟩ := hother hj
    rw [hnames, Function.update_of_ne]
    · exact h.held j k' o' hj
    · rintro rfl
      exact hne (h.owned j i k' o' o hj hi)
  · intro j j' k' o' o'' hj hj'
    exact h.owned j j' k' o' o'' (hother hj).2 (hother hj').2
  · intro j o' hj
    rw [hfresh] at hj
    rw [halive]
    exact h.made j o' hj
  · intro j o' hj k' hk' hf
    rw [hfresh] at hj
    obtain ⟨hne, hk'⟩ := hname hk'
    exact h.unnamed j o' hj k' hk' (hfirm hne hf)
  · intro j j' o' hj hj'
    rw [hfresh] at hj hj'
    exact h.unshared j j' o' hj hj'

theorem name (h : l.Sound) (hi : l.fresh i = some o) (hk : l.names k = none)
    (hnames : l'.names = Function.update l.names k (some o)) (halive : l'.alive = l.alive)
    (hdoomed : l'.doomed = l.doomed) (hfresh : l'.fresh = Function.update l.fresh i none) :
    l'.Sound := by
  have hfirm := firm_congr hdoomed
  have hcases {k' : κ} {o' : ο} (hk' : l'.names k' = some o') :
      k' = k ∧ o' = o ∨ k' ≠ k ∧ l.names k' = some o' := of_update_some (hnames ▸ hk')
  have hother {j : ι} {o' : ο} (hj : l'.fresh j = some o') : j ≠ i ∧ l.fresh j = some o' :=
    of_update_none (hfresh ▸ hj)
  constructor
  · intro k' o' hk' hf
    rw [halive]
    obtain ⟨-, rfl⟩ | ⟨-, hk'⟩ := hcases hk'
    · exact h.made i o' hi
    · exact h.backed k' o' hk' ((hfirm k').mp hf)
  · intro k' k'' o' hk' hk'' hf hf'
    obtain ⟨rfl, rfl⟩ | ⟨-, hk'⟩ := hcases hk'
    · obtain ⟨rfl, -⟩ | ⟨-, hk''⟩ := hcases hk''
      · rfl
      · exact absurd ((hfirm k'').mp hf') (h.unnamed i o' hi k'' hk'')
    · obtain ⟨-, rfl⟩ | ⟨-, hk''⟩ := hcases hk''
      · exact absurd ((hfirm k').mp hf) (h.unnamed i o' hi k' hk')
      · exact h.single k' k'' o' hk' hk'' ((hfirm k').mp hf) ((hfirm k'').mp hf')
  · intro j k' o' hj
    rw [hdoomed] at hj
    have hheld := h.held j k' o' hj
    rw [hnames, Function.update_of_ne]
    · exact hheld
    · rintro rfl
      rw [hk] at hheld
      cases hheld
  · intro j j' k' o' o'' hj hj'
    rw [hdoomed] at hj hj'
    exact h.owned j j' k' o' o'' hj hj'
  · intro j o' hj
    rw [halive]
    exact h.made j o' (hother hj).2
  · intro j o' hj k' hk' hf
    obtain ⟨hne, hj⟩ := hother hj
    obtain ⟨-, rfl⟩ | ⟨-, hk'⟩ := hcases hk'
    · exact hne (h.unshared j i o' hj hi)
    · exact h.unnamed j o' hj k' hk' ((hfirm k').mp hf)
  · intro j j' o' hj hj'
    exact h.unshared j j' o' (hother hj).2 (hother hj').2

end Sound

end Ledger

end Egos.Lib
