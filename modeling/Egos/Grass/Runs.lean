import Egos.Grass.Steps

/-!
# Runs of the kernel

The kernel starts at rest, a step leads from rest to rest by moves, and so every invariant of
the moves holds along every run. The first one is the invariant of the process table.
-/
namespace Egos.Grass

open Egos.Lib Egos.Earth

set_option autoImplicit false

/-- All actions of the run keep the promise. -/
def Honored (w : Promise) : List Action → Kernel → Prop
  | [], _ => True
  | a :: rest, s => Honors w s a ∧ ∀ s', step a s = .ok ⟨⟩ s' → Honored w rest s'

/-- The kernel between two steps. -/
structure AtRest (w : Promise) (s : Kernel) : Prop where
  consistent : Consistent s
  ready : Ready s
  pending : Pending w s

section

variable {w : Promise} {I : Phase → Kernel → Prop}

/-- A step keeps what all moves keep, and it stops in a state that the moves have reached. -/
theorem outcome_step_keeps {s : Kernel} {a : Action}
    (hmove : ∀ {f f' : Phase} {s s' : Kernel},
      Consistent s → Move w f s f' s' → I f s → I f' s')
    (hh : Honors w s a) (hs : AtRest w s) (hi : I .idle s) :
    Outcome (step a) (fun _ s' => AtRest w s' ∧ I .idle s')
      (fun e _ => ∀ b, e = .assertion b → ∃ f t, Consistent t ∧ I f t ∧ Failing t b) s := by
  have hkeep {f : Phase} {t : Kernel} (hm : Moves w .idle s f t) :
      Consistent t ∧ Pending w t ∧ I f t :=
    hm.keeps (I := fun f t => Consistent t ∧ Pending w t ∧ I f t)
      (fun hm h => ⟨hm.consistent h.1, hm.pending h.2.1, hmove h.1 hm h.2.2⟩)
      ⟨hs.consistent, hs.pending, hi⟩
  refine (outcome_step hs.consistent hs.ready hs.pending hh).mono ?_ ?_
  · intro _ s' hpost
    obtain ⟨hm, hr⟩ := hpost
    obtain ⟨hc, hp, hi'⟩ := hkeep hm
    exact ⟨⟨hc, hr, hp⟩, hi'⟩
  · intro e _ hfails b hb
    obtain ⟨f, t, hm, ht⟩ := hfails b hb
    obtain ⟨hc, -, hi'⟩ := hkeep hm
    exact ⟨f, t, hc, hi', ht⟩

theorem outcome_run {actions : List Action} {s : Kernel}
    (hmove : ∀ {f f' : Phase} {s s' : Kernel},
      Consistent s → Move w f s f' s' → I f s → I f' s')
    (hh : Honored w actions s) (hs : AtRest w s) (hi : I .idle s) :
    Outcome (run actions) (fun _ s' => AtRest w s' ∧ I .idle s')
      (fun e _ => ∀ b, e = .assertion b → ∃ f t, Consistent t ∧ I f t ∧ Failing t b) s := by
  induction actions generalizing s with
  | nil => exact ⟨hs, hi⟩
  | cons a rest ih =>
    change Outcome (step a >>= fun _ => run rest) _ _ s
    have hstep := outcome_step_keeps hmove hh.1 hs hi
    have hnext : Outcome (step a) (fun _ s' => AtRest w s' ∧ I .idle s' ∧ Honored w rest s')
        (fun e _ => ∀ b, e = .assertion b → ∃ f t, Consistent t ∧ I f t ∧ Failing t b) s := by
      unfold Outcome at hstep ⊢
      cases hr : step a s with
      | ok _ s' =>
        rw [hr] at hstep
        exact ⟨hstep.1, hstep.2, hh.2 s' hr⟩
      | error e s' =>
        rw [hr] at hstep
        exact hstep
    refine Outcome.seq hnext ?_
    intro _ s' hpost
    obtain ⟨hs', hi', hh'⟩ := hpost
    exact ih hh' hs' hi'

end

section

variable (frames : Nat → Page)

/-- The first process, `main`. -/
def mainProcess : Process :=
  { Process.zero with pid := 1, uid := 0, owner := 1, state := .runnable }

theorem procInitialize_me : (procInitialize frames).me = mainProcess := rfl

theorem procInitialize_other {p : Slot} (h : p ≠ (procInitialize frames).current) :
    (procInitialize frames).procs p = { Process.zero with pid := p } :=
  Function.update_of_ne h _ _

theorem procInitialize_state (p : Slot) : ((procInitialize frames).procs p).state =
    if p = (procInitialize frames).current then .runnable else .free := by
  split
  · rename_i hp
    rw [hp]
    exact congrArg Process.state (procInitialize_me frames)
  · rename_i hp
    rw [procInitialize_other frames hp]
    rfl

theorem slots_procInitialize {q : ProcState → Prop} [DecidablePred q] (hfree : ¬ q .free)
    (hq : q .runnable) : slots (procInitialize frames).procs (fun proc => q proc.state) = 1 := by
  have hzero : slots (beforeMain frames).procs (fun proc => q proc.state) = 0 := by
    unfold slots
    rw [Finset.card_eq_zero, Finset.filter_eq_empty_iff]
    exact fun _ _ => hfree
  have hupdate := slots_update (beforeMain frames).procs (procInitialize frames).current
    mainProcess (fun proc => q proc.state)
  have hbefore : ¬ q ((beforeMain frames).procs (procInitialize frames).current).state := hfree
  have hafter : q mainProcess.state := hq
  rw [hzero, if_neg hbefore, if_pos hafter] at hupdate
  exact hupdate

/-- At the beginning every process is as `memset` left it, but for the ids and states. -/
theorem procInitialize_fresh (p : Slot) : ∃ pid owner state, (procInitialize frames).procs p =
    { Process.zero with pid := pid, owner := owner, state := state } := by
  by_cases hp : p = (procInitialize frames).current
  · rw [hp]
    exact ⟨1, 1, .runnable, procInitialize_me frames⟩
  · exact ⟨p, 0, .free, procInitialize_other frames hp⟩

theorem procInitialize_stack (p : Slot) : ((procInitialize frames).procs p).stack = none := by
  obtain ⟨pid, owner, state, hp⟩ := procInitialize_fresh frames p
  rw [hp]
  rfl

theorem procInitialize_freeframes :
    (procInitialize frames).freeframes = List.range physFrames := by
  -- `rfl` alone would list the frames
  generalize hfree : List.range physFrames = free
  unfold procInitialize beforeMain
  rw [hfree]
  rfl

theorem consistent_procInitialize : Consistent (procInitialize frames) := by
  have hstate := procInitialize_state frames
  have hme : (procInitialize frames).me.state = .runnable := by
    rw [procInitialize_me]
    rfl
  have hwait (p : Slot) (m : MsgType) :
      (((procInitialize frames).procs p).mboxes m).waiting = false := by
    obtain ⟨pid, owner, state, hp⟩ := procInitialize_fresh frames p
    rw [hp]
    rfl
  have hcons : List.finRange maxProcs =
      (procInitialize frames).current :: (procInitialize frames).free := rfl
  have hnodup := List.nodup_finRange maxProcs
  rw [hcons, List.nodup_cons] at hnodup
  constructor
  · exact (slots_procInitialize frames (q := (· ≠ .free)) (by decide) (by decide)).symm
  · exact (slots_procInitialize frames (q := (· = .runnable)) (by decide) (by decide)).symm
  · intro p hp hc
    rw [hstate, if_neg hc] at hp
    cases hp
  · exact fun p hp => absurd hp List.not_mem_nil
  · exact List.nodup_nil
  · exact List.not_mem_nil
  · intro p
    have hmem : p ∈ (procInitialize frames).current :: (procInitialize frames).free := by
      rw [← hcons]
      exact List.mem_finRange p
    rw [hstate]
    split
    · rename_i hp
      simpa [hp] using hnodup.1
    · rename_i hp
      simpa [hp] using hmem
  · exact hnodup.2
  · rw [hme]
    simp
  · exact fun p m _ => hwait p m
  · intro p hp
    rw [hstate] at hp
    split at hp <;> cases hp
  · intro p hc hp
    rw [Process.Alive, hstate, if_neg hc] at hp
    obtain hp | hp := hp <;> cases hp
  · intro p nest hp
    rw [procInitialize_stack] at hp
    cases hp

theorem procInitialize_events : (procInitialize frames).events =
    [.born (procInitialize frames).current 1 0 1] := rfl

theorem atRest_procInitialize (w : Promise) : AtRest w (procInitialize frames) := by
  refine ⟨consistent_procInitialize frames, fun _ => ?_, ?_⟩
  · rw [procInitialize_me]
    rfl
  · exact fun p => .of_none (procInitialize_stack frames p)

end

theorem noneReadOnly (h : Header) (k : Nat) (hk : False) :
    ∃ es, h.segment k = some es ∧ es.prot.write = false :=
  hk.elim

/-- No promise at all. -/
def Promise.nothing : Promise where
  bareCreator := False
  replyToRpc := False
  requestByRpc := False
  unwrapped := False
  mute := fun _ => False
  shielded := fun _ _ => False
  readOnly := noneReadOnly
  header := fun _ => True

theorem honors_nothing (s : Kernel) (a : Action) : Honors .nothing s a where
  create _ _ _ hw := hw.elim
  ids _ _ _ hw := hw.elim
  recv _ _ _ _ hw := hw
  send _ _ _ _ _ _ := ⟨fun _ hw => hw, fun _ hw => hw⟩
  handleSend _ _ _ _ _ _ := ⟨fun _ hw => hw, fun _ hw => hw⟩
  copy _ _ _ hw := hw
  exec _ _ _ _ := trivial

theorem honored_nothing (actions : List Action) (s : Kernel) :
    Honored .nothing actions s := by
  induction actions generalizing s with
  | nil => trivial
  | cons a rest ih => exact ⟨honors_nothing s a, fun s' _ => ih s'⟩

/-- The invariant of the table as the functions of `process.c` rely on it. -/
structure TableInvariant (s : Kernel) : Prop where
  nprocs : s.nprocs = slots s.procs fun proc => proc.state ≠ .free
  nrunnable : s.nrunnable = slots s.procs fun proc => proc.state = .runnable
  queued : ∀ p, (s.procs p).state = .runnable → p ≠ s.current → s.runnable.count p = 1
  queue_state : ∀ p ∈ s.runnable, (s.procs p).state = .runnable ∨ (s.procs p).state = .zombie
  queue_nodup : s.runnable.Nodup
  current_unqueued : s.current ∉ s.runnable
  free : ∀ p, (s.procs p).state = .free → s.free.count p = 1
  used : ∀ p, (s.procs p).state ≠ .free → p ∉ s.free
  waiting : ∀ p, (s.procs p).state = .waiting → ∃! m, ((s.procs p).mboxes m).waiting = true
  runnable : ∀ p, (s.procs p).state = .runnable → ∀ m, ((s.procs p).mboxes m).waiting = false

theorem Consistent.tableInvariant {s : Kernel} (h : Consistent s) : TableInvariant s where
  nprocs := h.nprocs_eq
  nrunnable := h.nrunnable_eq
  queued p hp hc := List.count_eq_one_of_mem h.queue_nodup (h.queued p hp hc)
  queue_state := h.queue_state
  queue_nodup := h.queue_nodup
  current_unqueued := h.current_unqueued
  free p hp := List.count_eq_one_of_mem h.free_nodup ((h.free_iff p).mpr hp)
  used p hp hm := hp ((h.free_iff p).mp hm)
  waiting p hp := by
    obtain ⟨nest, m, size, purpose, -, hm⟩ := h.awaiting p hp
    exact ⟨m, (hm m).mpr rfl, fun m' => (hm m').mp⟩
  runnable p hp m := h.idle p m hp

/-- The assertions on the states, the mailboxes and the number of processes. The others are on
replies, ids and pages. -/
def Assertion.onTable : Assertion → Bool
  | .recvNoReply | .rpcSource | .yieldPid | .faultUnmapped | .faultValid | .fileRead => false
  | _ => true

theorem Failing.not_onTable {t : Kernel} {a : Assertion} (h : Failing t a) : a.onTable = false := by
  cases a <;> first | rfl | exact h.elim

/-- Along every run the table keeps its invariant, and no assertion on it fails. -/
theorem run_tableInvariant (frames : Nat → Page) (actions : List Action) :
    Outcome (run actions) (fun _ s => TableInvariant s)
      (fun e _ => ∀ a, e = .assertion a → a.onTable = false) (procInitialize frames) := by
  have hrun := outcome_run (I := fun _ _ => True) (fun _ _ _ => trivial)
    (honored_nothing actions _) (atRest_procInitialize frames .nothing) trivial
  refine hrun.mono ?_ ?_
  · exact fun _ s hs => hs.1.consistent.tableInvariant
  · intro e _ he a ha
    obtain ⟨f, t, -, -, ht⟩ := he a ha
    exact ht.not_onTable

end Egos.Grass
