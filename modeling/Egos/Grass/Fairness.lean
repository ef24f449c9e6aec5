import Egos.Grass.Runs
import Egos.Grass.Strikes

/-!
# Who runs next

The run queue is first come, first served. Only the scheduler takes processes out of it, and only
from the front, so that a process in the queue waits for no more turns than there are processes
before it.
-/
namespace Egos.Grass

open Egos.Lib Egos.Earth

set_option autoImplicit false

/-- A function that strikes whom it likes. -/
abbrev Unruly (joins : Prop) {α : Type} (m : KernelM α) : Prop := Spares (fun _ _ => True) joins m

theorem outcome_procCreateUid_queue (owner uid : Nat) (s : Kernel) :
    Outcome (procCreateUid owner uid) (fun _ s' => s.runnable <+: s'.runnable) (fun _ _ => True)
      s := by
  unfold procCreateUid
  rw [Outcome.bind_iff, Outcome.get_iff]
  split
  · exact List.prefix_refl _
  split
  · exact List.prefix_refl _
  unfold procAlloc
  rw [Outcome.bind_iff, Outcome.bind_iff, Outcome.get_iff]
  split
  · exact List.prefix_refl _
  rename_i p rest _
  simp only [Outcome.bind_iff, Outcome.modify_iff, Outcome.pure_iff]
  refine ((Spares.toRunqueue _ : Unruly True _) _).post fun _ t ht => ?_
  exact ((Spares.enters .create : Unruly True _) t).post fun _ u hu =>
    ht.prefix_queue.trans hu.prefix_queue

/-! ## The scheduler -/

/-- Processes have left the queue at its front, and `r`, if there is one, is the last of them. -/
def Dequeued (s : Kernel) (r : Option Slot) (s' : Kernel) : Prop :=
  s'.current = s.current ∧ ∃ popped, s.runnable = popped ++ s'.runnable ∧
    ∀ next ∈ r, popped.getLast? = some next

theorem Dequeued.stay (s : Kernel) : Dequeued s none s := ⟨rfl, [], rfl, fun _ h => by cases h⟩

theorem outcome_nextRunnable_dequeued (n : Nat) (s : Kernel) :
    Outcome (nextRunnable n) (fun r s' => Dequeued s r s') (fun _ _ => True) s := by
  induction n generalizing s with
  | zero => exact .stay s
  | succ n ih =>
    unfold nextRunnable
    simp only [Outcome.bind_iff, Outcome.get_iff]
    cases hq : s.runnable with
    | nil => exact .stay s
    | cons p rest =>
      simp only [Outcome.bind_iff, Outcome.modify_iff]
      split
      · exact ⟨rfl, [p], hq, fun next hnext => hnext⟩
      · rw [Outcome.bind_iff]
        refine outcome_check_any ?_
        refine Outcome.seq ((Spares.release p : Unruly False _) _) fun _ u hu => ?_
        refine (ih u).post fun r s' hs' => ?_
        obtain ⟨hcurrent, popped, hpopped, hlast⟩ := hs'
        refine ⟨hcurrent.trans hu.current, p :: popped, ?_, fun next hnext => ?_⟩
        · rw [hq, List.cons_append, ← hpopped, hu.same_queue]
        · rw [List.getLast?_cons, hlast next hnext]
          rfl

/-- The process that gives up the processor goes to the end of the queue, or nowhere. -/
theorem outcome_procSwitch_back (next : Slot) (s : Kernel) :
    Outcome (procSwitch next) (fun _ s' => s'.current = next ∧
      ∃ new, s'.runnable = s.runnable ++ new ∧ new ⊆ [s.current]) (fun _ _ => True) s := by
  have hlast (t : Kernel) : Outcome (do
      modify fun s => { s with mmu := s.mmu.flush, current := next }
      procReturn) (fun _ s' => s'.current = next ∧ s'.runnable = t.runnable)
        (fun _ _ => True) t := by
    simp only [Outcome.bind_iff, Outcome.modify_iff]
    exact ((Spares.returns : Unruly False _) _).post fun _ _ h => ⟨h.current, h.same_queue⟩
  unfold procSwitch
  simp only [Outcome.bind_iff, Outcome.get_iff]
  refine outcome_check_any (outcome_check_any (outcome_check_any ?_))
  have hrest (t : Kernel) {new : List Slot} (ht : t.runnable = s.runnable ++ new)
      (hnew : new ⊆ [s.current]) : Outcome (do
        if s.me.state = .zombie then
          procRelease s.current
        modify fun s => { s with mmu := s.mmu.flush, current := next }
        procReturn) (fun _ s' => s'.current = next ∧
          ∃ new, s'.runnable = s.runnable ++ new ∧ new ⊆ [s.current]) (fun _ _ => True) t := by
    split
    · refine Outcome.seq ((Spares.release s.current : Unruly False _) t) fun _ u hu => ?_
      exact (hlast u).post fun _ _ h => ⟨h.1, new, h.2.trans (hu.same_queue.trans ht), hnew⟩
    · exact (hlast t).post fun _ _ h => ⟨h.1, new, h.2.trans ht, hnew⟩
  split
  · refine Outcome.seq (R := fun _ t => t.runnable = s.runnable ++ [s.current]) ?_ fun _ t ht =>
      hrest t ht (List.Subset.refl _)
    unfold procToRunqueue
    simp only [Outcome.bind_iff, Outcome.get_iff]
    exact outcome_check_any rfl
  · exact hrest s (List.append_nil _).symm (List.nil_subset _)

/-- The scheduler gives the processor to another process. -/
def handover (a : Action) (s t : Kernel) : Nat :=
  match a with
  | .wake _ => if t.current = s.current then 0 else 1
  | _ => 0

/-- All who stay in the queue come forward by the same number of places, at least one for each of
the `turns`. -/
def Advances (s t : Kernel) (turns : Nat) : Prop :=
  ∃ k, turns ≤ k ∧ ∀ p ∈ s.runnable, p ∈ t.runnable →
    s.runnable.idxOf p = t.runnable.idxOf p + k

theorem idxOf_of_initial {l l' : List Slot} {p : Slot} (h : l <+: l') (hp : p ∈ l) :
    l'.idxOf p = l.idxOf p := by
  obtain ⟨more, rfl⟩ := h
  exact List.idxOf_append_of_mem hp

namespace Advances

variable {s t u : Kernel} {m n : Nat}

theorem of_initial (h : s.runnable <+: t.runnable) : Advances s t 0 :=
  ⟨0, Nat.le_refl 0, fun _ hp _ => (idxOf_of_initial h hp).symm⟩

/-- `popped` have left the queue and the running process has joined it. -/
theorem of_popped (h : Consistent s) {queue popped rest new : List Slot}
    (hstays : s.runnable <+: queue) (hnodup : queue.Nodup) (hqueue : queue = popped ++ rest)
    (ht : t.runnable = rest ++ new) (hnew : new ⊆ [s.current]) (hturns : n ≤ popped.length) :
    Advances s t n := by
  refine ⟨popped.length, hturns, fun p hp hpt => ?_⟩
  have hnew : p ∉ new := by
    intro hmem
    rw [List.mem_singleton.mp (hnew hmem)] at hp
    exact h.current_unqueued hp
  have hrest : p ∈ rest := by
    rw [ht] at hpt
    exact (List.mem_append.mp hpt).resolve_right hnew
  have hpopped : p ∉ popped := by
    intro hmem
    rw [hqueue] at hnodup
    exact (List.disjoint_of_nodup_append hnodup) hmem hrest
  rw [← idxOf_of_initial hstays hp, hqueue, List.idxOf_append_of_notMem hpopped, ht,
    List.idxOf_append_of_mem hrest, Nat.add_comm]

end Advances

theorem outcome_procYield_advances {s : Kernel} (h : Consistent s) (now : Nat) :
    Outcome (procYield now) (fun _ t => Advances s t (handover (.wake now) s t))
      (fun _ _ => True) s := by
  have htimeouts : Outcome ((List.finRange maxProcs).forM (timeout now))
      (fun _ u => s.runnable <+: u.runnable ∧ u.runnable.Nodup ∧ u.current = s.current)
      (fun _ _ => True) s :=
    ((@strikes_timeouts (fun _ _ => True) s (fun _ _ => trivial) now).both
      (outcome_timeouts (E := fun _ _ => True) .nothing h now)).mono
        (fun _ _ hu => ⟨hu.1.prefix_queue, (hu.2.1.consistent h).queue_nodup, hu.2.2.current⟩)
        fun _ _ _ => trivial
  unfold procYield
  simp only [Outcome.bind_iff, Outcome.get_iff]
  refine outcome_check_any ?_
  split
  · exact trivial
  refine Outcome.seq htimeouts fun _ u hu => ?_
  obtain ⟨hstays, hnodup, hcurrent⟩ := hu
  simp only [Outcome.bind_iff, Outcome.get_iff]
  refine (outcome_nextRunnable_dequeued _ u).post fun r v hv => ?_
  obtain ⟨hcurrent', popped, hpopped, hlast⟩ := hv
  have hv : v.current = s.current := hcurrent'.trans hcurrent
  refine outcome_check_any ?_
  have hsame {t : Kernel} (ht : t.runnable = v.runnable) (htc : t.current = v.current) :
      Advances s t (handover (.wake now) s t) := by
    refine .of_popped h hstays hnodup hpopped (ht.trans (List.append_nil _).symm)
      (List.nil_subset _) ?_
    rw [handover, if_pos (htc.trans hv)]
    exact Nat.zero_le _
  cases r with
  | some next =>
    refine (outcome_procSwitch_back next v).post fun _ t ht => ?_
    obtain ⟨-, new, hnew, hsubset⟩ := ht
    refine .of_popped h hstays hnodup hpopped hnew (hv ▸ hsubset) ?_
    have hpos : 0 < popped.length :=
      List.length_pos_iff.mpr fun hnil => by rw [hnil] at hlast; cases hlast next rfl
    have hone : handover (.wake now) s t ≤ 1 := by
      unfold handover
      dsimp only
      split <;> decide
    exact hone.trans hpos
  | none =>
    dsimp only
    split
    · exact ((Spares.returns : Unruly False _) v).post fun _ t ht => hsame ht.same_queue ht.current
    split
    · exact trivial
    · exact hsame rfl rfl

theorem outcome_step_advances {s : Kernel} (h : Consistent s) (a : Action) :
    Outcome (step a) (fun _ t => Advances s t (handover a s t)) (fun _ _ => True) s := by
  unfold step
  simp only [Outcome.bind_iff, Outcome.get_iff]
  split
  · by_cases hwake : ∃ now, a = .wake now
    · obtain ⟨now, rfl⟩ := hwake
      exact outcome_procYield_advances h now
    · have hne : ∀ now, a ≠ .wake now := fun now ha => hwake ⟨now, ha⟩
      have hqueue : Outcome a.perform (fun _ t => s.runnable <+: t.runnable) (fun _ _ => True) s := by
        by_cases hcreate : ∃ owner uid, a = .create owner uid
        · obtain ⟨owner, uid, rfl⟩ := hcreate
          exact outcome_procCreateUid_queue owner uid s
        · exact (@happens_perform (fun _ _ => True) s a (fun owner uid ha => hcreate ⟨owner, uid, ha⟩)
            hne (fun _ => trivial) fun _ _ _ _ _ _ => trivial).post fun _ _ h => h.2
      refine hqueue.post fun _ t ht => ?_
      have hzero : handover a s t = 0 := by
        unfold handover
        split
        · exact absurd rfl (hne _)
        · rfl
      rw [hzero]
      exact .of_initial ht
  · trivial

/-! ## Runs -/

/-- How often the scheduler gives the processor to another process in a run. -/
def handovers : List Action → Kernel → Nat
  | [], _ => 0
  | a :: rest, s =>
    match step a s with
    | .ok _ t => handover a s t + handovers rest t
    | .error _ _ => 0

/-- `p` is in the run queue all the time. -/
def Waits (p : Slot) : List Action → Kernel → Prop
  | [], s => p ∈ s.runnable
  | a :: rest, s =>
    p ∈ s.runnable ∧ Outcome (step a) (fun _ t => Waits p rest t) (fun _ _ => True) s

theorem Waits.mem {p : Slot} {actions : List Action} {s : Kernel} (h : Waits p actions s) :
    p ∈ s.runnable := by
  cases actions with
  | nil => exact h
  | cons a rest => exact h.1

/-- Those who wait all the time come forward by the same number of places. -/
theorem outcome_run_advances {s : Kernel} (hs : AtRest .nothing s) (actions : List Action) :
    Outcome (run actions) (fun _ t => ∃ k, handovers actions s ≤ k ∧
      ∀ p, Waits p actions s → s.runnable.idxOf p = t.runnable.idxOf p + k)
      (fun _ _ => True) s := by
  induction actions generalizing s with
  | nil => exact ⟨0, Nat.le_refl 0, fun _ _ => rfl⟩
  | cons a rest ih =>
    change Outcome (step a >>= fun _ => run rest) _ _ s
    have hstep := ((outcome_step_keeps (I := fun _ _ => True) (fun _ _ _ => trivial)
      (honors_nothing s a) hs trivial).both (outcome_step_advances hs.consistent a)).both
        (Outcome.self (step a) s)
    refine Outcome.seq (hstep.mono (fun _ _ h => h) fun _ _ _ => trivial) fun _ u hu => ?_
    obtain ⟨⟨⟨hu, -⟩, k, hk, hplaces⟩, hstep⟩ := hu
    refine (ih hu).post fun _ t ht => ?_
    obtain ⟨k', hk', hplaces'⟩ := ht
    refine ⟨k' + k, ?_, fun p hp => ?_⟩
    · unfold handovers
      rw [hstep]
      dsimp only
      omega
    · have hrest : Waits p rest u := hp.2.ok hstep
      rw [hplaces p hp.mem hrest.mem, hplaces' p hrest, Nat.add_assoc]

theorem Consistent.length_runnable_lt {s : Kernel} (h : Consistent s) :
    s.runnable.length < maxProcs := by
  have hnodup : (s.current :: s.runnable).Nodup :=
    List.nodup_cons.mpr ⟨h.current_unqueued, h.queue_nodup⟩
  have hcard := hnodup.length_le_card
  rw [Fintype.card_fin] at hcard
  exact hcard

/-- Along every run the queue has fewer than `MAX_PROCS` places, the scheduler lets no more
processes run before a process in the queue than there are places in front of it, and those in the
queue keep their order. -/
theorem run_firstCome (frames : Nat → Page) (actions : List Action) :
    Outcome (run actions) (fun _ s => s.runnable.length < maxProcs ∧ ∀ more,
      Outcome (run more) (fun _ t => ∀ p, Waits p more s →
        handovers more s + t.runnable.idxOf p ≤ s.runnable.idxOf p ∧ ∀ q, Waits q more s →
          (t.runnable.idxOf p < t.runnable.idxOf q ↔ s.runnable.idxOf p < s.runnable.idxOf q))
        (fun _ _ => True) s)
      (fun _ _ => True) (procInitialize frames) := by
  have hrun := outcome_run (I := fun _ _ => True) (fun _ _ _ => trivial)
    (honored_nothing actions _) (atRest_procInitialize frames .nothing) trivial
  refine hrun.mono (fun _ s hs => ⟨hs.1.consistent.length_runnable_lt, fun more => ?_⟩)
    fun _ _ _ => trivial
  refine (outcome_run_advances hs.1 more).post fun _ t ht p hp => ?_
  obtain ⟨k, hk, hplaces⟩ := ht
  have hpk := hplaces p hp
  refine ⟨by omega, fun q hq => ?_⟩
  have hqk := hplaces q hq
  omega

/-- `main` and a second process wait while a third one runs. The scheduler takes `main` first. -/
example :
    (final (run [.create 1 0, .create 1 0] (procInitialize fun _ _ => 0))).runnable.map Fin.val =
      [0, 1] ∧
    handovers [.yield, .wake 0]
      (final (run [.create 1 0, .create 1 0] (procInitialize fun _ _ => 0))) = 1 ∧
    (final (run [.create 1 0, .create 1 0, .yield, .wake 0]
      (procInitialize fun _ _ => 0))).runnable.map Fin.val = [1, 2] := by
  decide +kernel

end Egos.Grass
