import Mathlib.Logic.Function.Basic
import Mathlib.Data.List.Basic
import Mathlib.Algebra.Order.Ring.Int

/-!
# Outcomes of stateful programs that can stop early

`EStateM ε σ α` returns a value or stops with an `ε`, and keeps the state in both
cases. `Outcome m Q E s` says that every way `m` can end from `s` is accepted: `Q`
for a normal return and `E` for an early stop. The rules below take a program
apart along its own structure, so a proof follows the text of the program. No
termination is assumed: a program that cannot finish is one that stops with an
`ε` of its own, and `E` has to account for it.
-/
namespace Egos.Lib

variable {ε σ τ α β : Type}

/-- Every ending of `m` from `s` is accepted. -/
def Outcome (m : EStateM ε σ α) (Q : α → σ → Prop) (E : ε → σ → Prop) (s : σ) : Prop :=
  match m s with
  | .ok a s' => Q a s'
  | .error e s' => E e s'

namespace Outcome

variable {Q Q' : α → σ → Prop} {E E' : ε → σ → Prop} {s s' : σ}

instance decidable (m : EStateM ε σ α) [∀ a s, Decidable (Q a s)] [∀ e s, Decidable (E e s)]
    (s : σ) : Decidable (Outcome m Q E s) :=
  show Decidable (match m s with | .ok a s' => Q a s' | .error e s' => E e s') from
    match m s with
    | .ok a s' => inferInstanceAs (Decidable (Q a s'))
    | .error e s' => inferInstanceAs (Decidable (E e s'))

theorem of_ok {m : EStateM ε σ α} {a : α} (h : m s = .ok a s') (hq : Q a s') :
    Outcome m Q E s := by
  unfold Outcome
  rw [h]
  exact hq

theorem ok {m : EStateM ε σ α} {a : α} (h : Outcome m Q E s) (hm : m s = .ok a s') : Q a s' := by
  unfold Outcome at h
  rw [hm] at h
  exact h

theorem error {m : EStateM ε σ α} {e : ε} (h : Outcome m Q E s) (hm : m s = .error e s') :
    E e s' := by
  unfold Outcome at h
  rw [hm] at h
  exact h

/-- Only the ending counts. -/
theorem of_eq {m m' : EStateM ε σ α} (h : m s = m' s') (ho : Outcome m' Q E s') :
    Outcome m Q E s := by
  unfold Outcome at ho ⊢
  rw [h]
  exact ho

theorem exists_ok {m : EStateM ε σ α} (h : Outcome m Q (fun _ _ => False) s) :
    ∃ a s', m s = .ok a s' ∧ Q a s' := by
  cases hm : m s with
  | ok a s' => exact ⟨a, s', rfl, h.ok hm⟩
  | error e s' => exact (h.error hm).elim

theorem exists_error {m : EStateM ε σ α} (h : Outcome m (fun _ _ => False) E s) :
    ∃ e s', m s = .error e s' ∧ E e s' := by
  cases hm : m s with
  | ok a s' => exact (h.ok hm).elim
  | error e s' => exact ⟨e, s', rfl, h.error hm⟩

theorem always (m : EStateM ε σ α) : Outcome m (fun _ _ => True) (fun _ _ => True) s := by
  unfold Outcome
  split <;> trivial

/-- The program itself says how it ends. -/
theorem self (m : EStateM ε σ α) (s : σ) :
    Outcome m (fun a s' => m s = .ok a s') (fun e s' => m s = .error e s') s := by
  unfold Outcome
  cases m s <;> rfl

theorem mono {m : EStateM ε σ α} (h : Outcome m Q E s)
    (hq : ∀ a s', Q a s' → Q' a s') (he : ∀ e s', E e s' → E' e s') : Outcome m Q' E' s := by
  unfold Outcome at h ⊢
  cases hm : m s with
  | ok a s' => rw [hm] at h; exact hq a s' h
  | error e s' => rw [hm] at h; exact he e s' h

theorem post {m : EStateM ε σ α} (h : Outcome m Q E s)
    (hq : ∀ a s', Q a s' → Q' a s') : Outcome m Q' E s :=
  h.mono hq (fun _ _ he => he)

theorem both {m : EStateM ε σ α} (h : Outcome m Q E s) (h' : Outcome m Q' E' s) :
    Outcome m (fun a s => Q a s ∧ Q' a s) (fun e s => E e s ∧ E' e s) s := by
  unfold Outcome at h h' ⊢
  cases hm : m s with
  | ok a s' =>
    rw [hm] at h h'
    exact ⟨h, h'⟩
  | error e s' =>
    rw [hm] at h h'
    exact ⟨h, h'⟩

theorem all {ι : Type} {Q : ι → α → σ → Prop} {m : EStateM ε σ α}
    (h : ∀ i, Outcome m (Q i) (fun _ _ => True) s) :
    Outcome m (fun a s' => ∀ i, Q i a s') (fun _ _ => True) s :=
  (self m s).mono (fun _ _ hm i => (h i).ok hm) (fun _ _ _ => trivial)

@[simp] theorem pure_iff (a : α) : Outcome (pure a : EStateM ε σ α) Q E s ↔ Q a s := Iff.rfl

@[simp] theorem throw_iff (e : ε) : Outcome (throw e : EStateM ε σ α) Q E s ↔ E e s := Iff.rfl

@[simp] theorem get_iff {Q : σ → σ → Prop} :
    Outcome (get : EStateM ε σ σ) Q E s ↔ Q s s := Iff.rfl

@[simp] theorem modify_iff {Q : PUnit → σ → Prop} (f : σ → σ) :
    Outcome (modify f : EStateM ε σ PUnit) Q E s ↔ Q ⟨⟩ (f s) := Iff.rfl

@[simp] theorem bind_iff {Q : β → σ → Prop} (m : EStateM ε σ α) (f : α → EStateM ε σ β) :
    Outcome (m >>= f) Q E s ↔ Outcome m (fun a s' => Outcome (f a) Q E s') E s := by
  simp only [Outcome, bind, EStateM.bind]
  cases m s <;> rfl

theorem seq {Q : β → σ → Prop} {R : α → σ → Prop} {m : EStateM ε σ α} {f : α → EStateM ε σ β}
    (h : Outcome m R E s) (hf : ∀ a s', R a s' → Outcome (f a) Q E s') :
    Outcome (m >>= f) Q E s :=
  (bind_iff m f).mpr (h.post hf)

/-- The rule for a loop over `0 … n - 1`, with an invariant of the index. -/
theorem foldlM_range {γ : Type} {f : γ → Nat → EStateM ε σ γ} {n : Nat} {c : γ}
    (I : Nat → γ → σ → Prop) (h : I 0 c s)
    (hstep : ∀ i, i < n → ∀ c s, I i c s → Outcome (f c i) (I (i + 1)) E s) :
    Outcome ((List.range n).foldlM f c) (I n) E s := by
  induction n with
  | zero => exact h
  | succ n ih =>
    rw [List.range_succ, List.foldlM_append]
    refine seq (ih (fun i hi => hstep i (by omega))) (fun c s hc => ?_)
    rw [List.foldlM_cons]
    exact seq (hstep n (by omega) c s hc) (fun c s hc => hc)

/-- The same rule for a loop that carries nothing but the state. -/
theorem forM {f : α → EStateM ε σ PUnit} {l : List α} (I : List α → σ → Prop) (h : I [] s)
    (hstep : ∀ done a rest, l = done ++ a :: rest →
      ∀ s, I done s → Outcome (f a) (fun _ => I (done ++ [a])) E s) :
    Outcome (l.forM f) (fun _ => I l) E s := by
  suffices hrun : ∀ (rest done : List α) (s : σ), l = done ++ rest → I done s →
      Outcome (rest.forM f) (fun _ => I l) E s from hrun l [] s rfl h
  intro rest
  induction rest with
  | nil =>
    intro done s hl hi
    rw [List.append_nil] at hl
    subst hl
    exact hi
  | cons a rest ih =>
    intro done s hl hi
    change Outcome (f a >>= fun _ => rest.forM f) _ _ _
    refine seq (hstep done a rest hl s hi) (fun _ s' hc => ?_)
    exact ih (done ++ [a]) s' (by rw [hl]; simp) hc

theorem forM_range {f : Nat → EStateM ε σ PUnit} {n : Nat} (I : Nat → σ → Prop) (h : I 0 s)
    (hstep : ∀ i, i < n → ∀ s, I i s → Outcome (f i) (fun _ => I (i + 1)) E s) :
    Outcome ((List.range n).forM f) (fun _ => I n) E s := by
  induction n with
  | zero => exact h
  | succ n ih =>
    rw [List.range_succ]
    change Outcome (ForM.forM (List.range n ++ [n]) f) _ _ _
    rw [List.forM_append]
    refine seq (ih (fun i hi => hstep i (by omega))) (fun _ s hc => ?_)
    exact seq (hstep n (by omega) s hc) (fun _ _ hc => hc)

end Outcome

theorem bind_ok {m : EStateM ε σ α} {a : α} {s s' : σ} (h : m s = .ok a s')
    (f : α → EStateM ε σ β) : (m >>= f) s = f a s' := by
  change EStateM.bind m f s = _
  unfold EStateM.bind
  rw [h]

theorem bind_error {m : EStateM ε σ α} {e : ε} {s s' : σ} (h : m s = .error e s')
    (f : α → EStateM ε σ β) : (m >>= f) s = .error e s' := by
  change EStateM.bind m f s = _
  unfold EStateM.bind
  rw [h]

theorem forM_concat {f : α → EStateM ε σ PUnit} {l : List α} {a : α} {s s₁ s₂ : σ} {r : PUnit}
    (h : l.forM f s = .ok ⟨⟩ s₁) (ha : f a s₁ = .ok r s₂) : (l ++ [a]).forM f s = .ok ⟨⟩ s₂ := by
  change ForM.forM (l ++ [a]) f s = _
  rw [List.forM_append]
  change EStateM.bind (l.forM f) _ s = _
  unfold EStateM.bind
  rw [h]
  change EStateM.bind (f a) _ s₁ = _
  unfold EStateM.bind
  rw [ha]
  rfl

/-- Run a program on one component of a larger state. -/
def onPart (part : τ → σ) (put : τ → σ → τ) (m : EStateM ε σ α) : EStateM ε τ α := fun t =>
  match m (part t) with
  | .ok a s => .ok a (put t s)
  | .error e s => .error e (put t s)

theorem onPart_ok {part : τ → σ} {put : τ → σ → τ} {m : EStateM ε σ α} {t : τ} {a : α} {s : σ}
    (h : m (part t) = .ok a s) : onPart part put m t = .ok a (put t s) := by
  unfold onPart
  rw [h]

theorem outcome_onPart_iff {part : τ → σ} {put : τ → σ → τ} {m : EStateM ε σ α}
    {Q : α → τ → Prop} {E : ε → τ → Prop} {t : τ} : Outcome (onPart part put m) Q E t ↔
      Outcome m (fun a s => Q a (put t s)) (fun e s => E e (put t s)) (part t) := by
  unfold Outcome onPart
  cases m (part t) with
  | ok a s => exact Iff.rfl
  | error e s => exact Iff.rfl

theorem outcome_onPart {part : τ → σ} {put : τ → σ → τ} {m : EStateM ε σ α}
    {Q : α → τ → Prop} {E : ε → τ → Prop} {t : τ}
    (h : Outcome m (fun a s => Q a (put t s)) (fun e s => E e (put t s)) (part t)) :
    Outcome (onPart part put m) Q E t :=
  outcome_onPart_iff.mpr h

/-- Where the first program returns, the second one does the same. -/
def Refines (m m' : EStateM ε σ α) : Prop := ∀ s a s', m s = .ok a s' → m' s = .ok a s'

namespace Refines

theorem refl (m : EStateM ε σ α) : Refines m m := fun _ _ _ h => h

theorem bind {m m' : EStateM ε σ α} {f f' : α → EStateM ε σ β} (h : Refines m m')
    (hf : ∀ a, Refines (f a) (f' a)) : Refines (m >>= f) (m' >>= f') := by
  intro s b s' hb
  simp only [Bind.bind, EStateM.bind] at hb ⊢
  cases hm : m s with
  | ok a t =>
    rw [hm] at hb
    rw [h s a t hm]
    exact hf a t b s' hb
  | error e t =>
    rw [hm] at hb
    cases hb

theorem forM {f f' : α → EStateM ε σ PUnit} (h : ∀ a, Refines (f a) (f' a)) (l : List α) :
    Refines (l.forM f) (l.forM f') := by
  induction l with
  | nil => exact refl _
  | cons a l ih => exact bind (h a) fun _ => ih

theorem onPart {part : τ → σ} {put : τ → σ → τ} {m m' : EStateM ε σ α} (h : Refines m m') :
    Refines (onPart part put m) (onPart part put m') := by
  intro t a t' ht
  unfold Lib.onPart at ht ⊢
  cases hm : m (part t) with
  | ok b s =>
    rw [hm] at ht
    rw [h _ _ _ hm]
    exact ht
  | error e s =>
    rw [hm] at ht
    cases ht

end Refines

/-- The value of a normal return. -/
def returned (r : EStateM.Result ε σ α) : Option α :=
  match r with
  | .ok a _ => some a
  | .error _ _ => none

/-- The state at the end, however it was reached. -/
def final (r : EStateM.Result ε σ α) : σ :=
  match r with
  | .ok _ s => s
  | .error _ s => s

/-- The reason of an early stop. -/
def stopped (r : EStateM.Result ε σ α) : Option ε :=
  match r with
  | .ok _ _ => none
  | .error e _ => some e

theorem eq_error_of_stopped {r : EStateM.Result ε σ α} {e : ε} (h : stopped r = some e) :
    r = .error e (final r) := by
  cases r with
  | ok b s => exact absurd h (by simp [stopped])
  | error d s => rw [show e = d from (Option.some.inj h).symm]; rfl

theorem eq_ok_of_returned {r : EStateM.Result ε σ α} {a : α} (h : returned r = some a) :
    r = .ok a (final r) := by
  cases r with
  | ok b s => rw [show a = b from (Option.some.inj h).symm]; rfl
  | error e s => exact absurd h (by simp [returned])

end Egos.Lib
