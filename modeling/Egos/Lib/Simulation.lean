import Egos.Lib.Program

/-!
# Simulation of one stateful program by another

`Simulates R e₀ m m'` relates two programs over different states: from related states
`m'` ends as `m` does, in a related state. The stop `e₀` is the escape: where `m` ends
with it nothing is said, so `m` can run over an idealised state that refuses whatever
the other state does not promise. A simulation follows the text of the programs; one
program that simulates `m` from two related states does the same in both.
-/
namespace Egos.Lib

variable {ε σ τ α β : Type}

/-- From related states `m'` does what `m` does, unless `m` stops with `e₀`. -/
def Simulates (R : τ → σ → Prop) (e₀ : ε) (m : EStateM ε τ α) (m' : EStateM ε σ α) : Prop :=
  ∀ t s, R t s → Outcome m (fun a t' => ∃ s', m' s = .ok a s' ∧ R t' s')
    (fun e t' => e = e₀ ∨ ∃ s', m' s = .error e s' ∧ R t' s') t

namespace Simulates

variable {R : τ → σ → Prop} {e₀ : ε}

theorem pure (a : α) : Simulates R e₀ (Pure.pure a) (Pure.pure a) :=
  fun _ s h => ⟨s, rfl, h⟩

theorem throw (e : ε) : Simulates R e₀ (throw e : EStateM ε τ α) (throw e) :=
  fun _ s h => .inr ⟨s, rfl, h⟩

theorem bind {m : EStateM ε τ α} {m' : EStateM ε σ α} {f : α → EStateM ε τ β}
    {f' : α → EStateM ε σ β} (h : Simulates R e₀ m m') (hf : ∀ a, Simulates R e₀ (f a) (f' a)) :
    Simulates R e₀ (m >>= f) (m' >>= f') := by
  intro t s hr
  rw [Outcome.bind_iff]
  refine (h t s hr).mono ?_ ?_
  · rintro a t' ⟨s', hm, hr'⟩
    refine (hf a t' s' hr').mono ?_ ?_
    · rintro b t'' ⟨s'', hb, hr''⟩
      exact ⟨s'', by simp [Bind.bind, EStateM.bind, hm, hb], hr''⟩
    · rintro e t'' (he | ⟨s'', hb, hr''⟩)
      · exact .inl he
      · exact .inr ⟨s'', by simp [Bind.bind, EStateM.bind, hm, hb], hr''⟩
  · rintro e t' (he | ⟨s', hm, hr'⟩)
    · exact .inl he
    · exact .inr ⟨s', by simp [Bind.bind, EStateM.bind, hm], hr'⟩

theorem ite {c : Prop} [Decidable c] {m n : EStateM ε τ α} {m' n' : EStateM ε σ α}
    (hm : Simulates R e₀ m m') (hn : Simulates R e₀ n n') :
    Simulates R e₀ (if c then m else n) (if c then m' else n') := by
  split
  · exact hm
  · exact hn

theorem foldlM {γ : Type} {f : γ → α → EStateM ε τ γ} {f' : γ → α → EStateM ε σ γ}
    (h : ∀ c a, Simulates R e₀ (f c a) (f' c a)) (l : List α) (c : γ) :
    Simulates R e₀ (l.foldlM f c) (l.foldlM f' c) := by
  induction l generalizing c with
  | nil => exact pure c
  | cons a l ih => exact bind (h c a) fun c' => ih c'

theorem mapM {f : α → EStateM ε τ β} {f' : α → EStateM ε σ β}
    (h : ∀ a, Simulates R e₀ (f a) (f' a)) (l : List α) :
    Simulates R e₀ (l.mapM f) (l.mapM f') := by
  induction l with
  | nil => exact pure []
  | cons a l ih =>
    rw [List.mapM_cons, List.mapM_cons]
    exact bind (h a) fun b => bind ih fun bs => pure (b :: bs)

/-- Two states related to the same one are not told apart. -/
theorem agree {m : EStateM ε τ α} {m' : EStateM ε σ α} (h : Simulates R e₀ m m') {t : τ}
    {s s' : σ} (hs : R t s) (hs' : R t s') (hne : ∀ t', m t ≠ .error e₀ t') :
    (∃ a t' u u', m' s = .ok a u ∧ m' s' = .ok a u' ∧ R t' u ∧ R t' u') ∨
      ∃ e u u', m' s = .error e u ∧ m' s' = .error e u' := by
  have hm := h t s hs
  have hm' := h t s' hs'
  cases hc : m t with
  | ok a t' =>
    obtain ⟨u, hu, hr⟩ := hm.ok hc
    obtain ⟨u', hu', hr'⟩ := hm'.ok hc
    exact .inl ⟨a, t', u, u', hu, hu', hr, hr'⟩
  | error e t' =>
    have he : e ≠ e₀ := fun he => hne t' (he ▸ hc)
    obtain ⟨u, hu, -⟩ := (hm.error hc).resolve_left he
    obtain ⟨u', hu', -⟩ := (hm'.error hc).resolve_left he
    exact .inr ⟨e, u, u', hu, hu'⟩

end Simulates

/-! ## Two runs that both return -/

/-- If both programs return, they return the same value, in related states. -/
def Together (R : σ → τ → Prop) (m : EStateM ε σ α) (m' : EStateM ε τ α) (s : σ) (t : τ) : Prop :=
  ∀ a s' b t', m s = .ok a s' → m' t = .ok b t' → b = a ∧ R s' t'

namespace Together

variable {R R' : σ → τ → Prop} {s : σ} {t : τ}

theorem of_outcome {m : EStateM ε σ α} {m' : EStateM ε τ α} {Q : α → σ → Prop} {Q' : α → τ → Prop}
    (h : Outcome m Q (fun _ _ => True) s) (h' : Outcome m' Q' (fun _ _ => True) t)
    (hr : ∀ a s' b t', Q a s' → Q' b t' → b = a ∧ R s' t') : Together R m m' s t :=
  fun a s' b t' hm hm' => hr a s' b t' (h.ok hm) (h'.ok hm')

theorem pure (h : R s t) (a : α) :
    Together R (Pure.pure a : EStateM ε σ α) (Pure.pure a : EStateM ε τ α) s t := by
  intro b s' c t' hm hm'
  cases hm
  cases hm'
  exact ⟨rfl, h⟩

theorem modify {f : σ → σ} {f' : τ → τ} (h : R (f s) (f' t)) :
    Together R (modify f : EStateM ε σ PUnit) (modify f' : EStateM ε τ PUnit) s t := by
  intro _ s' _ t' hm hm'
  cases hm
  cases hm'
  exact ⟨rfl, h⟩

theorem get {f : σ → EStateM ε σ α} {f' : τ → EStateM ε τ α}
    (h : Together R (f s) (f' t) s t) :
    Together R (get >>= f) (get >>= f') s t := h

/-- What follows may use what is known of the first value. -/
theorem bindKnowing {m : EStateM ε σ α} {m' : EStateM ε τ α} {f : α → EStateM ε σ β}
    {f' : α → EStateM ε τ β} {Q : α → σ → Prop} (h : Together R m m' s t)
    (hq : Outcome m Q (fun _ _ => True) s)
    (hf : ∀ a s' t', Q a s' → R s' t' → Together R' (f a) (f' a) s' t') :
    Together R' (m >>= f) (m' >>= f') s t := by
  intro b s'' c t'' hb hc
  simp only [Bind.bind, EStateM.bind] at hb hc
  cases hm : m s with
  | error e s' =>
    rw [hm] at hb
    cases hb
  | ok a s' =>
    cases hm' : m' t with
    | error e t' =>
      rw [hm'] at hc
      cases hc
    | ok a' t' =>
      rw [hm] at hb
      rw [hm'] at hc
      obtain ⟨rfl, hr⟩ := h a s' a' t' hm hm'
      exact hf a' s' t' (hq.ok hm) hr b s'' c t'' hb hc

theorem bind {m : EStateM ε σ α} {m' : EStateM ε τ α} {f : α → EStateM ε σ β}
    {f' : α → EStateM ε τ β} (h : Together R m m' s t)
    (hf : ∀ a s' t', R s' t' → Together R' (f a) (f' a) s' t') :
    Together R' (m >>= f) (m' >>= f') s t :=
  h.bindKnowing (Outcome.always m) fun a s' t' _ hr => hf a s' t' hr

theorem forM {f : α → EStateM ε σ PUnit} {f' : α → EStateM ε τ PUnit}
    (hf : ∀ a s t, R s t → Together R (f a) (f' a) s t) (l : List α) (h : R s t) :
    Together R (l.forM f) (l.forM f') s t := by
  induction l generalizing s t with
  | nil => exact pure h _
  | cons a l ih => exact bind (hf a s t h) fun _ _ _ hr => ih hr

end Together

end Egos.Lib
