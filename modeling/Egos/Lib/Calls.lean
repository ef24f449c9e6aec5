import Egos.Lib.Program

/-!
# Programs that call servers

A program is done or makes a call and goes on with the reply. `run` lets it make its calls one after
the other, with servers that answer from a state of their own.
-/
namespace Egos.Lib

set_option autoImplicit false

/-- A program with calls from `ι` and replies from `ρ`. -/
inductive Calls (ι : Type) (ρ : ι → Type) (α : Type) where
  | done (a : α)
  | call (i : ι) (next : ρ i → Calls ι ρ α)

namespace Calls

variable {ι : Type} {ρ : ι → Type} {α β ε σ : Type}

def bind : Calls ι ρ α → (α → Calls ι ρ β) → Calls ι ρ β
  | .done a, f => f a
  | .call i next, f => .call i fun r => (next r).bind f

instance : Monad (Calls ι ρ) where
  pure := .done
  bind := Calls.bind

/-- One call. -/
def ask (i : ι) : Calls ι ρ (ρ i) := .call i .done

/-- The program on its own. -/
def run (serve : (i : ι) → EStateM ε σ (ρ i)) : Calls ι ρ α → EStateM ε σ α
  | .done a => pure a
  | .call i next => do
    let r ← serve i
    run serve (next r)

section

variable (serve : (i : ι) → EStateM ε σ (ρ i)) {Q : α → σ → Prop} {E : ε → σ → Prop} {s : σ}

@[simp] theorem outcome_run_pure (a : α) : Outcome (run serve (pure a)) Q E s ↔ Q a s := Iff.rfl

theorem outcome_run_bind (m : Calls ι ρ β) (f : β → Calls ι ρ α) :
    Outcome (run serve (m >>= f)) Q E s ↔
      Outcome (run serve m) (fun b s' => Outcome (run serve (f b)) Q E s') E s := by
  induction m generalizing s with
  | done b => exact Iff.rfl
  | call i next ih =>
    change Outcome (serve i >>= fun r => run serve (next r >>= f)) Q E s ↔ _
    rw [Outcome.bind_iff, run, Outcome.bind_iff]
    constructor
    · intro h
      exact h.post fun r s' hr => (ih r).mp hr
    · intro h
      exact h.post fun r s' hr => (ih r).mpr hr

end

end Calls

end Egos.Lib
