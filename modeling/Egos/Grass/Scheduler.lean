import Egos.Grass.Death

/-!
# Giving up the processor

What the scheduler does between two suspensions, and how a process goes on when it gets the
processor back.
-/
namespace Egos.Grass

open Egos.Lib Egos.Earth

set_option autoImplicit false

/-- The current process runs its own code. -/
structure Running (s : Kernel) : Prop where
  stack : s.me.stack = none
  state : s.me.state = .runnable

/-- Between two steps: the current process runs, or it is inside a suspension. -/
def Ready (s : Kernel) : Prop := s.me.stack = none → s.me.state = .runnable

theorem Ready.running {s : Kernel} (h : Ready s) (hs : s.me.stack = none) : Running s := ⟨hs, h hs⟩

theorem Running.ready {s : Kernel} (h : Running s) : Ready s := fun _ => h.state

theorem ready_of_stack {s : Kernel} (h : s.me.stack ≠ none) : Ready s := fun hs => absurd hs h

/-- The states in which an assertion fails that is not about the states of processes. -/
def Failing (t : Kernel) : Assertion → Prop
  | .recvNoReply => t.me.stack = none ∧ (t.me.mboxes .reply).messages ≠ []
  | .rpcSource => ∃ m size purpose server msg,
      t.me.stack = some ⟨0, .recv m size purpose⟩ ∧ purpose.server = some server ∧
        (t.me.mboxes m).messages.head? = some msg ∧ msg.src ≠ server
  | .yieldPid => ∃ next ∈ t.runnable, (t.procs next).Alive ∧ (t.procs next).pid = t.me.pid
  | .faultUnmapped => ∃ virt, virtBase ≤ virt ∧ virt < virtTop ∧ t.me.stack = none ∧
      t.me.pages (relPage virt) = none ∧ t.mmu.getEntry (virt / pageSize) ≠ none
  | .faultValid => ∃ m size server fault,
      t.me.stack = some ⟨0, .recv m size (.frame server fault)⟩ ∧
        t.me.pages (relPage fault.virt) = none
  | .fileRead => True
  | _ => False

/-- If the step from `s` stops at an assertion, the moves have led to a state where it fails. -/
def Fails (w : Promise) (s : Kernel) (e : Halt) : Prop :=
  ∀ a, e = .assertion a → ∃ f t, Moves w .idle s f t ∧ Failing t a

theorem fails_of_ne {w : Promise} {s : Kernel} {e : Halt} (h : ∀ a, e ≠ .assertion a) :
    Fails w s e := fun a he => absurd he (h a)

section

variable {E : Halt → Kernel → Prop} {s : Kernel} (w : Promise)

theorem outcome_timeout (h : Consistent s) (now : Nat) (p : Slot) :
    Outcome (timeout now p) (fun _ s' => Moves w .idle s .idle s' ∧ Steady s s') E s := by
  unfold timeout
  simp only [Outcome.bind_iff, Outcome.get_iff]
  split
  · rename_i hp
    refine Outcome.post (outcome_procZap w h none hp.2 statShutdown) ?_
    intro _ s' hpost
    obtain ⟨hmoves, hsteady, _⟩ := hpost
    exact ⟨hmoves, hsteady⟩
  split
  · rename_i hp
    split
    · exact outcome_procWakeup hp.1
        ⟨.single (.wake hp.1 (.inl hp.2)), .of_quiet (.awake hp.1)⟩
    · exact ⟨.refl, .refl s⟩
  · exact ⟨.refl, .refl s⟩

theorem outcome_timeouts (h : Consistent s) (now : Nat) :
    Outcome ((List.finRange maxProcs).forM (timeout now))
      (fun _ s' => Moves w .idle s .idle s' ∧ Steady s s') E s := by
  refine Outcome.forM (fun _ s' => Moves w .idle s .idle s' ∧ Steady s s') ⟨.refl, .refl s⟩ ?_
  rintro done p rest - t ⟨hmoves, hsteady⟩
  refine Outcome.post (outcome_timeout w (hmoves.consistent h) now p) ?_
  intro _ s' hpost
  obtain ⟨hmoves', hsteady'⟩ := hpost
  exact ⟨hmoves.trans hmoves', hsteady.trans hsteady'⟩

theorem Steady.dequeued {p : Slot} {rest : List Slot} (hc : p ≠ s.current) :
    Steady s ({ s with runnable := rest }.released p) :=
  (show Steady s { s with runnable := rest } from ⟨rfl, fun _ => rfl, id⟩).trans (.released hc)

/-- What the second loop of `proc_yield` finds: nothing in the queue, or its first process that
is not a zombie, which it has taken off. -/
def Found (w : Promise) (s : Kernel) (r : Option Slot) (s' : Kernel) : Prop :=
  match r with
  | none => Moves w .idle s .idle s' ∧ Steady s s' ∧ s'.runnable = []
  | some next => ∃ t rest, Moves w .idle s .idle t ∧ Steady s t ∧ t.runnable = next :: rest ∧
      (t.procs next).state = .runnable ∧ s' = { t with runnable := rest }

theorem outcome_nextRunnable (h : Consistent s) {n : Nat} (hn : s.runnable.length ≤ n) :
    Outcome (nextRunnable n) (Found w s) E s := by
  induction n generalizing s with
  | zero => exact ⟨.refl, .refl s, List.eq_nil_of_length_eq_zero (Nat.le_zero.mp hn)⟩
  | succ n ih =>
    unfold nextRunnable
    simp only [Outcome.bind_iff, Outcome.get_iff]
    cases hq : s.runnable with
    | nil => exact ⟨.refl, .refl s, hq⟩
    | cons next rest =>
      simp only [Outcome.bind_iff, Outcome.modify_iff]
      split
      · rename_i hs
        exact ⟨s, rest, .refl, .refl s, hq, hs, rfl⟩
      · rename_i hs
        have hmem : next ∈ s.runnable := by rw [hq]; exact List.mem_cons_self
        have hz : (s.procs next).state = .zombie := (h.queue_state next hmem).resolve_left hs
        have hc : next ≠ s.current := by
          rintro rfl
          exact h.current_unqueued hmem
        have hreap : Move w .idle s .idle ({ s with runnable := rest }.released next) :=
          .reap hq hz
        simp only [Outcome.bind_iff]
        refine outcome_check (by simp [hz]) (outcome_procRelease hz ?_)
        have hlen : ({ s with runnable := rest }.released next).runnable.length ≤ n := by
          rw [hq] at hn
          exact Nat.le_of_succ_le_succ hn
        refine Outcome.post (ih (hreap.consistent h) hlen) ?_
        intro r s' hfound
        have hsteady : Steady s ({ s with runnable := rest }.released next) := .dequeued hc
        cases r with
        | none =>
          obtain ⟨hmoves, hst, hnil⟩ := hfound
          exact ⟨(Moves.single hreap).trans hmoves, hsteady.trans hst, hnil⟩
        | some next' =>
          obtain ⟨t, rest', hmoves, hst, hrest⟩ := hfound
          exact ⟨t, rest', (Moves.single hreap).trans hmoves, hsteady.trans hst, hrest⟩

end

end Egos.Grass
