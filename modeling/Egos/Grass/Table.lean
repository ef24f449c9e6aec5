import Egos.Lib.Table
import Egos.Grass.Moves

/-!
# The process table

`Consistent` ties the states of the processes to the counters, the queues and the kernel
stacks. Every move keeps it, in every phase.
-/
namespace Egos.Grass

open Egos.Lib Egos.Earth

set_option autoImplicit false

structure Consistent (s : Kernel) : Prop where
  nprocs_eq : s.nprocs = slots s.procs fun proc => proc.state ≠ .free
  nrunnable_eq : s.nrunnable = slots s.procs fun proc => proc.state = .runnable
  queued : ∀ p, (s.procs p).state = .runnable → p ≠ s.current → p ∈ s.runnable
  queue_state : ∀ p ∈ s.runnable, (s.procs p).state = .runnable ∨ (s.procs p).state = .zombie
  queue_nodup : s.runnable.Nodup
  current_unqueued : s.current ∉ s.runnable
  free_iff : ∀ p, p ∈ s.free ↔ (s.procs p).state = .free
  free_nodup : s.free.Nodup
  current_used : s.me.state ≠ .free
  idle : ∀ p m, (s.procs p).state = .runnable → ((s.procs p).mboxes m).waiting = false
  awaiting : ∀ p, (s.procs p).state = .waiting → ∃ nest m size purpose,
    (s.procs p).stack = some ⟨nest, .recv m size purpose⟩ ∧
      ∀ m', ((s.procs p).mboxes m').waiting = true ↔ m' = m
  stacked : ∀ p, p ≠ s.current → (s.procs p).Alive → (s.procs p).stack ≠ none
  exited : ∀ p nest, (s.procs p).stack = some ⟨nest, .exit⟩ → ¬ (s.procs p).Alive

/-- What `Consistent` says of one process, by what the kernel knows of its slot. -/
structure Process.Fits (proc : Process) (enqueued unused running : Prop) : Prop where
  queued : proc.state = .runnable → ¬running → enqueued
  queue_state : enqueued → proc.state = .runnable ∨ proc.state = .zombie
  unqueued : running → ¬enqueued
  free_iff : unused ↔ proc.state = .free
  used : running → proc.state ≠ .free
  idle : ∀ m, proc.state = .runnable → (proc.mboxes m).waiting = false
  awaiting : proc.state = .waiting → ∃ nest m size purpose,
    proc.stack = some ⟨nest, .recv m size purpose⟩ ∧
      ∀ m', (proc.mboxes m').waiting = true ↔ m' = m
  stacked : ¬running → proc.Alive → proc.stack ≠ none
  exited : ∀ nest, proc.stack = some ⟨nest, .exit⟩ → ¬proc.Alive

namespace Process.Fits

variable {proc : Process} {enqueued unused running : Prop}

theorem of_free (hstate : proc.state = .free) (hqueued : ¬enqueued) (hfree : unused)
    (hrunning : ¬running) : proc.Fits enqueued unused running := by
  constructor
  · intro h
    rw [hstate] at h
    cases h
  · exact fun h => absurd h hqueued
  · exact fun _ => hqueued
  · exact iff_of_true hfree hstate
  · exact fun h => absurd h hrunning
  · intro m h
    rw [hstate] at h
    cases h
  · intro h
    rw [hstate] at h
    cases h
  · intro _ h
    rw [Process.Alive, hstate] at h
    simp at h
  · intro nest _ h
    rw [Process.Alive, hstate] at h
    simp at h

theorem of_zombie (hstate : proc.state = .zombie) (hfree : ¬unused) (hrunning : running → ¬enqueued) :
    proc.Fits enqueued unused running := by
  constructor
  · intro h
    rw [hstate] at h
    cases h
  · exact fun _ => .inr hstate
  · exact hrunning
  · rw [hstate]
    exact iff_of_false hfree (by simp)
  · rw [hstate]
    simp
  · intro m h
    rw [hstate] at h
    cases h
  · intro h
    rw [hstate] at h
    cases h
  · intro _ h
    rw [Process.Alive, hstate] at h
    simp at h
  · intro nest _ h
    rw [Process.Alive, hstate] at h
    simp at h

theorem of_runnable (hstate : proc.state = .runnable) (hqueued : ¬running → enqueued)
    (hrunning : running → ¬enqueued) (hfree : ¬unused) (hidle : ∀ m, (proc.mboxes m).waiting = false)
    (hstacked : ¬running → proc.stack ≠ none) (hexit : ∀ nest, proc.stack ≠ some ⟨nest, .exit⟩) :
    proc.Fits enqueued unused running := by
  constructor
  · exact fun _ => hqueued
  · exact fun _ => .inl hstate
  · exact hrunning
  · rw [hstate]
    exact iff_of_false hfree (by simp)
  · rw [hstate]
    simp
  · exact fun m _ => hidle m
  · intro h
    rw [hstate] at h
    cases h
  · exact fun h _ => hstacked h
  · exact fun nest h => absurd h (hexit nest)

theorem of_waiting (hstate : proc.state = .waiting) (hqueued : ¬enqueued) (hfree : ¬unused)
    {nest size : Nat} {m : MsgType} {purpose : Purpose}
    (hstack : proc.stack = some ⟨nest, .recv m size purpose⟩)
    (hwaiting : ∀ m', (proc.mboxes m').waiting = true ↔ m' = m) :
    proc.Fits enqueued unused running := by
  constructor
  · intro h
    rw [hstate] at h
    cases h
  · exact fun h => absurd h hqueued
  · exact fun _ => hqueued
  · rw [hstate]
    exact iff_of_false hfree (by simp)
  · rw [hstate]
    simp
  · intro m h
    rw [hstate] at h
    cases h
  · exact fun _ => ⟨nest, m, size, purpose, hstack, hwaiting⟩
  · rw [hstack]
    simp
  · intro nest' h
    rw [hstack] at h
    cases h

theorem congr (h : proc.Fits enqueued unused running) {enqueued' unused' running' : Prop}
    (hqueued : enqueued' ↔ enqueued) (hfree : unused' ↔ unused) (hrunning : running' ↔ running) :
    proc.Fits enqueued' unused' running' := by
  rw [propext hqueued, propext hfree, propext hrunning]
  exact h

/-- A runnable process is in no system call that exits. -/
theorem no_exit (h : proc.Fits enqueued unused running) (hstate : proc.state = .runnable) (nest : Nat) :
    proc.stack ≠ some ⟨nest, .exit⟩ := fun hstack => h.exited nest hstack (.inl hstate)

end Process.Fits

/-- What `Consistent` looks at in a process. -/
def Process.SameShape (proc proc' : Process) : Prop :=
  proc'.state = proc.state ∧ (∀ m, (proc'.mboxes m).waiting = (proc.mboxes m).waiting) ∧
    proc'.stack = proc.stack

namespace Process.SameShape

variable {proc : Process}

theorem refl (proc : Process) : proc.SameShape proc := ⟨rfl, fun _ => rfl, rfl⟩

theorem setMbox {m : MsgType} {mq : MsgQueue} (h : mq.waiting = (proc.mboxes m).waiting) :
    proc.SameShape (proc.setMbox m mq) := by
  refine ⟨rfl, fun m' => ?_, rfl⟩
  by_cases hm : m' = m
  · subst hm
    simpa [Process.setMbox] using h
  · simp [Process.setMbox, hm]

theorem deposit (m : MsgType) (msg : Message) : proc.SameShape (proc.deposit m msg) := setMbox rfl

theorem taken (m : MsgType) : proc.SameShape (proc.taken m) := setMbox rfl

end Process.SameShape

namespace Consistent

variable {s s' : Kernel}

theorem fits (h : Consistent s) (p : Slot) :
    (s.procs p).Fits (p ∈ s.runnable) (p ∈ s.free) (p = s.current) := by
  constructor
  · exact h.queued p
  · exact h.queue_state p
  · rintro rfl
    exact h.current_unqueued
  · exact h.free_iff p
  · rintro rfl
    exact h.current_used
  · exact h.idle p
  · exact h.awaiting p
  · exact h.stacked p
  · exact h.exited p

theorem of_fits (hnprocs : s.nprocs = slots s.procs fun proc => proc.state ≠ .free)
    (hnrunnable : s.nrunnable = slots s.procs fun proc => proc.state = .runnable)
    (hqueue : s.runnable.Nodup) (hfree : s.free.Nodup)
    (hfits : ∀ p, (s.procs p).Fits (p ∈ s.runnable) (p ∈ s.free) (p = s.current)) :
    Consistent s where
  nprocs_eq := hnprocs
  nrunnable_eq := hnrunnable
  queued p := (hfits p).queued
  queue_state p := (hfits p).queue_state
  queue_nodup := hqueue
  current_unqueued := (hfits s.current).unqueued rfl
  free_iff p := (hfits p).free_iff
  free_nodup := hfree
  current_used := (hfits s.current).used rfl
  idle p := (hfits p).idle
  awaiting p := (hfits p).awaiting
  stacked p := (hfits p).stacked
  exited p := (hfits p).exited

theorem change (h : Consistent s) (p : Slot) (proc : Process)
    (hprocs : s'.procs = Function.update s.procs p proc) (hcurrent : s'.current = s.current)
    (hqueue : ∀ q, q ≠ p → (q ∈ s'.runnable ↔ q ∈ s.runnable))
    (hfree : ∀ q, q ≠ p → (q ∈ s'.free ↔ q ∈ s.free)) (hqnodup : s'.runnable.Nodup)
    (hfnodup : s'.free.Nodup) (hfits : proc.Fits (p ∈ s'.runnable) (p ∈ s'.free) (p = s.current))
    (hn : s'.nprocs + (if (s.procs p).state ≠ .free then 1 else 0) =
      s.nprocs + if proc.state ≠ .free then 1 else 0)
    (hr : s'.nrunnable + (if (s.procs p).state = .runnable then 1 else 0) =
      s.nrunnable + if proc.state = .runnable then 1 else 0) : Consistent s' := by
  apply of_fits
  · have hslots := slots_update s.procs p proc fun proc => proc.state ≠ .free
    rw [hprocs]
    rw [h.nprocs_eq] at hn
    omega
  · have hslots := slots_update s.procs p proc fun proc => proc.state = .runnable
    rw [hprocs]
    rw [h.nrunnable_eq] at hr
    omega
  · exact hqnodup
  · exact hfnodup
  · intro q
    rw [hprocs, hcurrent]
    by_cases hq : q = p
    · rw [hq, Function.update_self]
      exact hfits
    · rw [Function.update_of_ne hq, hqueue q hq, hfree q hq]
      exact h.fits q

theorem nprocs_pos (h : Consistent s) : 0 < s.nprocs := by
  rw [h.nprocs_eq]
  exact slots_pos (i := s.current) h.current_used

theorem congr (h : Consistent s) (hprocs : ∀ p, (s.procs p).SameShape (s'.procs p))
    (hcurrent : s'.current = s.current) (hqueue : s'.runnable = s.runnable)
    (hfree : s'.free = s.free) (hn : s'.nprocs = s.nprocs) (hr : s'.nrunnable = s.nrunnable) :
    Consistent s' := by
  have hstate (p : Slot) : (s'.procs p).state = (s.procs p).state := (hprocs p).1
  have hwait (p : Slot) (m : MsgType) :
      ((s'.procs p).mboxes m).waiting = ((s.procs p).mboxes m).waiting := (hprocs p).2.1 m
  have hstack (p : Slot) : (s'.procs p).stack = (s.procs p).stack := (hprocs p).2.2
  constructor
  · rw [hn, h.nprocs_eq]
    exact slots_congr fun p => by rw [hstate]
  · rw [hr, h.nrunnable_eq]
    exact slots_congr fun p => by rw [hstate]
  all_goals simp only [hstate, hwait, hstack, hcurrent, hqueue, hfree, Kernel.me, Process.Alive]
  exacts [h.queued, h.queue_state, h.queue_nodup, h.current_unqueued, h.free_iff, h.free_nodup,
    h.current_used, h.idle, h.awaiting, h.stacked, h.exited]

theorem setProc (h : Consistent s) {p : Slot} {proc : Process}
    (hp : (s.procs p).SameShape proc) : Consistent (s.setProc p proc) := by
  refine h.congr (fun q => ?_) rfl rfl rfl rfl rfl
  rw [Kernel.setProc_procs]
  split
  · rename_i hq
    rw [hq]
    exact hp
  · exact .refl _

theorem same (h : Consistent s) (hprocs : s'.procs = s.procs) (hcurrent : s'.current = s.current)
    (hqueue : s'.runnable = s.runnable) (hfree : s'.free = s.free) (hn : s'.nprocs = s.nprocs)
    (hr : s'.nrunnable = s.nrunnable) : Consistent s' :=
  h.congr (fun _ => hprocs ▸ .refl _) hcurrent hqueue hfree hn hr

theorem deposited (h : Consistent s) (p : Slot) (m : MsgType) (msg : Message) :
    Consistent (s.deposited p m msg) :=
  (h.setProc (.deposit m msg)).same rfl rfl rfl rfl rfl rfl

theorem awake (h : Consistent s) {p : Slot} (hp : (s.procs p).state = .waiting) :
    Consistent (s.awake p) := by
  have hqueue : p ∉ s.runnable := by
    intro hmem
    have hstate := h.queue_state p hmem
    rw [hp] at hstate
    simp at hstate
  have hold : (s.awake p).runnable = if p = s.current then s.runnable else s.runnable ++ [p] := rfl
  apply h.change p (s.procs p).woken
  · rfl
  · rfl
  · intro q hq
    rw [hold]
    split
    · exact Iff.rfl
    · simp [hq]
  · exact fun _ _ => Iff.rfl
  · rw [hold]
    split
    · exact h.queue_nodup
    · exact h.queue_nodup.append (List.nodup_singleton p) (List.disjoint_singleton.mpr hqueue)
  · exact h.free_nodup
  · apply Process.Fits.of_runnable rfl
    · intro hc
      rw [hold, if_neg hc]
      exact List.mem_append_right _ (List.mem_singleton_self p)
    · intro hc
      rw [hold, if_pos hc]
      exact hqueue
    · intro hfree
      have hstate := (h.free_iff p).mp hfree
      rw [hp] at hstate
      cases hstate
    · exact fun _ => rfl
    · exact fun hc => h.stacked p hc (.inr hp)
    · exact fun nest hstack => h.exited p nest hstack (.inr hp)
  · rw [hp]
    rfl
  · rw [hp]
    rfl

theorem died (h : Consistent s) {p : Slot} (hp : (s.procs p).Alive) : Consistent (s.died p) := by
  have hfits := h.fits p
  apply h.change p { s.procs p with state := .zombie }
  · rfl
  · rfl
  · exact fun _ _ => Iff.rfl
  · exact fun _ _ => Iff.rfl
  · exact h.queue_nodup
  · exact h.free_nodup
  · apply Process.Fits.of_zombie rfl
    · intro hfree
      have hstate := hfits.free_iff.mp hfree
      rw [Process.Alive, hstate] at hp
      simp at hp
    · exact hfits.unqueued
  · obtain hp | hp := hp <;> rw [hp] <;> rfl
  · change (if (s.procs p).state = .runnable then s.nrunnable - 1 else s.nrunnable) + _ = _
    obtain hp | hp := hp
    · have hpos : 0 < s.nrunnable := by
        rw [h.nrunnable_eq]
        exact slots_pos hp
      rw [hp, if_pos rfl, if_pos rfl]
      change s.nrunnable - 1 + 1 = s.nrunnable + 0
      omega
    · rw [hp]
      rfl

theorem released (h : Consistent s) {p : Slot} (hp : (s.procs p).state = .zombie)
    (hc : p ≠ s.current) (hq : p ∉ s.runnable) : Consistent (s.released p) := by
  have hfree : p ∉ s.free := by
    intro hmem
    have hstate := (h.free_iff p).mp hmem
    rw [hp] at hstate
    cases hstate
  have hpos := h.nprocs_pos
  apply h.change p (s.procs p).released
  · rfl
  · rfl
  · exact fun _ _ => Iff.rfl
  · intro q hne
    change q ∈ s.free ++ [p] ↔ _
    simp [hne]
  · exact h.queue_nodup
  · exact h.free_nodup.append (List.nodup_singleton p) (List.disjoint_singleton.mpr hfree)
  · exact .of_free rfl hq (List.mem_append_right _ (List.mem_singleton_self p)) hc
  · rw [hp]
    change s.nprocs - 1 + 1 = s.nprocs + 0
    omega
  · rw [hp]
    rfl

theorem dequeue (h : Consistent s) {p : Slot} {rest : List Slot} (hq : s.runnable = p :: rest)
    (hp : (s.procs p).state = .zombie) : Consistent { s with runnable := rest } := by
  have hnodup := h.queue_nodup
  rw [hq, List.nodup_cons] at hnodup
  have hfits := h.fits p
  apply h.change p (s.procs p)
  · exact (Function.update_eq_self p s.procs).symm
  · rfl
  · intro q hne
    rw [hq, List.mem_cons]
    exact (or_iff_right hne).symm
  · exact fun _ _ => Iff.rfl
  · exact hnodup.2
  · exact h.free_nodup
  · apply Process.Fits.of_zombie hp
    · intro hfree
      have hstate := hfits.free_iff.mp hfree
      rw [hp] at hstate
      cases hstate
    · exact fun _ => hnodup.1
  · rfl
  · rfl

theorem setStack (h : Consistent s) {stack : Option Stack} (hw : s.me.state ≠ .waiting)
    (he : ∀ nest, stack = some ⟨nest, .exit⟩ → ¬ s.me.Alive) :
    Consistent (s.setStack s.current stack) := by
  have hfits : s.me.Fits (s.current ∈ s.runnable) (s.current ∈ s.free) (s.current = s.current) :=
    h.fits s.current
  apply h.change s.current { s.me with stack := stack }
  · rfl
  · rfl
  · exact fun _ _ => Iff.rfl
  · exact fun _ _ => Iff.rfl
  · exact h.queue_nodup
  · exact h.free_nodup
  · constructor
    · exact hfits.queued
    · exact hfits.queue_state
    · exact hfits.unqueued
    · exact hfits.free_iff
    · exact hfits.used
    · exact hfits.idle
    · exact fun hwait => absurd hwait hw
    · exact fun hrunning => absurd rfl hrunning
    · exact he
  · rfl
  · rfl

theorem nest (h : Consistent s) {stack : Stack} (hs : s.me.stack = some stack) (n : Nat) :
    Consistent (s.setStack s.current (some ⟨n, stack.call⟩)) := by
  have hfits : s.me.Fits (s.current ∈ s.runnable) (s.current ∈ s.free) (s.current = s.current) :=
    h.fits s.current
  apply h.change s.current { s.me with stack := some ⟨n, stack.call⟩ }
  · rfl
  · rfl
  · exact fun _ _ => Iff.rfl
  · exact fun _ _ => Iff.rfl
  · exact h.queue_nodup
  · exact h.free_nodup
  · constructor
    · exact hfits.queued
    · exact hfits.queue_state
    · exact hfits.unqueued
    · exact hfits.free_iff
    · exact hfits.used
    · exact hfits.idle
    · intro hwait
      obtain ⟨nest, m, size, purpose, hstack, hwaiting⟩ := hfits.awaiting hwait
      rw [hs] at hstack
      cases hstack
      exact ⟨n, m, size, purpose, rfl, hwaiting⟩
    · exact fun hrunning => absurd rfl hrunning
    · intro nest hstack
      apply hfits.exited stack.nest
      rw [hs]
      obtain ⟨nest', call⟩ := stack
      cases hstack
      rfl
  · rfl
  · rfl

theorem blocked (h : Consistent s) {m : MsgType} {maxTime now size : Nat} {purpose : Purpose}
    (hs : s.me.state = .runnable) :
    Consistent (s.blocked m maxTime now ⟨0, .recv m size purpose⟩) := by
  have hs' : (s.procs s.current).state = .runnable := hs
  have hpos : 0 < s.nrunnable := by
    rw [h.nrunnable_eq]
    exact slots_pos hs'
  apply h.change s.current (s.me.blocked m maxTime now ⟨0, .recv m size purpose⟩)
  · rfl
  · rfl
  · exact fun _ _ => Iff.rfl
  · exact fun _ _ => Iff.rfl
  · exact h.queue_nodup
  · exact h.free_nodup
  · apply Process.Fits.of_waiting rfl h.current_unqueued _ rfl
    · intro m'
      have hidle := h.idle s.current m' hs'
      change (Function.update s.me.mboxes m { s.me.mboxes m with waiting := true } m').waiting =
        true ↔ _
      by_cases hm : m' = m
      · rw [hm, Function.update_self]
        exact iff_of_true rfl rfl
      · rw [Function.update_of_ne hm]
        change ((s.procs s.current).mboxes m').waiting = true ↔ _
        rw [hidle]
        exact iff_of_false Bool.false_ne_true hm
    · intro hfree
      have hstate := (h.free_iff s.current).mp hfree
      rw [hs'] at hstate
      cases hstate
  · rw [hs']
    rfl
  · rw [hs']
    change s.nrunnable - 1 + 1 = s.nrunnable + 0
    omega

theorem resumed (h : Consistent s) {m : MsgType} {size : Nat} {purpose : Purpose}
    (hs : s.me.state = .runnable) : Consistent (s.resumed m size purpose) := by
  have hstack : Consistent (s.setStack s.current none) :=
    h.setStack (by rw [hs]; decide) (by simp)
  refine hstack.congr (fun q => ?_) rfl rfl rfl rfl rfl
  simp only [Kernel.resumed, Kernel.setStack, Kernel.setProc_procs]
  split
  · exact ⟨rfl, (Process.SameShape.taken m).2.1, rfl⟩
  · exact .refl _

/-- A new process takes the first free slot and runs, and the one that made it is put in the queue. -/
theorem launch (h : Consistent s) {p : Slot} {rest : List Slot} {proc : Process}
    (hf : s.free = p :: rest) (hprocs : s'.procs = Function.update s.procs p proc)
    (hs : s.me.state = .runnable) (hst : s.me.stack ≠ none)
    (hstate : proc.state = .runnable) (hidle : ∀ m, (proc.mboxes m).waiting = false)
    (hexit : ∀ nest, proc.stack ≠ some ⟨nest, .exit⟩) (hcurrent : s'.current = p)
    (hqueue : s'.runnable = s.runnable ++ [s.current]) (hfree : s'.free = rest)
    (hn : s'.nprocs = s.nprocs + 1) (hr : s'.nrunnable = s.nrunnable + 1) : Consistent s' := by
  have hp : (s.procs p).state = .free := by
    apply (h.free_iff p).mp
    rw [hf]
    exact List.mem_cons_self
  have hnodup := h.free_nodup
  rw [hf, List.nodup_cons] at hnodup
  have hunqueued : p ∉ s.runnable := by
    intro hmem
    have hqueued := h.queue_state p hmem
    rw [hp] at hqueued
    simp at hqueued
  have hne : s.current ≠ p := by
    rintro rfl
    exact h.current_used hp
  have hfits := h.fits s.current
  have hs' : (s.procs s.current).state = .runnable := hs
  apply of_fits
  · have hslots := slots_update s.procs p proc fun proc => proc.state ≠ .free
    rw [hp, hstate, ← h.nprocs_eq] at hslots
    rw [hn, hprocs]
    exact hslots.symm
  · have hslots := slots_update s.procs p proc fun proc => proc.state = .runnable
    rw [hp, hstate, ← h.nrunnable_eq] at hslots
    rw [hr, hprocs]
    exact hslots.symm
  · rw [hqueue]
    exact h.queue_nodup.append (List.nodup_singleton _)
      (List.disjoint_singleton.mpr h.current_unqueued)
  · rw [hfree]
    exact hnodup.2
  · intro q
    rw [hprocs, hqueue, hfree, hcurrent]
    by_cases hqp : q = p
    · rw [hqp, Function.update_self]
      apply Process.Fits.of_runnable hstate
      · exact fun hrunning => absurd rfl hrunning
      · intro _ hmem
        obtain hmem | hmem := List.mem_append.mp hmem
        · exact hunqueued hmem
        · exact hne (List.mem_singleton.mp hmem).symm
      · exact hnodup.1
      · exact hidle
      · exact fun hrunning => absurd rfl hrunning
      · exact hexit
    · rw [Function.update_of_ne hqp]
      have hrest : q ∈ rest ↔ q ∈ s.free := by
        rw [hf, List.mem_cons]
        exact (or_iff_right hqp).symm
      by_cases hqc : q = s.current
      · subst hqc
        apply Process.Fits.of_runnable hs'
        · exact fun _ => List.mem_append_right _ (List.mem_singleton_self _)
        · exact fun hrunning => absurd hrunning hqp
        · rw [hrest, hfits.free_iff, hs']
          simp
        · exact fun m => hfits.idle m hs'
        · exact fun _ => hst
        · exact hfits.no_exit hs'
      · apply (h.fits q).congr _ hrest (iff_of_false hqp hqc)
        rw [List.mem_append, List.mem_singleton]
        exact or_iff_left hqc

theorem spawned (h : Consistent s) {p : Slot} {rest : List Slot} {uid owner : Nat}
    (hs : s.me.state = .runnable) (hf : s.free = p :: rest) :
    Consistent (s.spawned p rest uid owner) := by
  have hstack : Consistent (s.setStack s.current (some ⟨0, .create⟩)) :=
    h.setStack (by rw [hs]; decide) (by simp)
  have hme := s.setStack_me (some ⟨0, .create⟩)
  apply hstack.launch hf
  · rfl
  · rw [hme]
    exact hs
  · rw [hme]
    simp
  · rfl
  · exact fun _ => rfl
  · exact fun _ => by intro h; cases h
  · rfl
  · rfl
  · rfl
  · rfl
  · rfl

/-- The first process of the queue runs, and only the slot of the last one may have changed. -/
theorem dispatch (h : Consistent s) {p : Slot} {rest : List Slot} (hq : s.runnable = p :: rest)
    (hs : (s.procs p).state = .runnable) (hcurrent : s'.current = p)
    (hprocs : ∀ q, q ≠ s.current → s'.procs q = s.procs q)
    (hqueue : ∀ q, q ≠ s.current → (q ∈ s'.runnable ↔ q ∈ rest))
    (hfree : ∀ q, q ≠ s.current → (q ∈ s'.free ↔ q ∈ s.free)) (hqnodup : s'.runnable.Nodup)
    (hfnodup : s'.free.Nodup)
    (hfits : (s'.procs s.current).Fits (s.current ∈ s'.runnable) (s.current ∈ s'.free) False)
    (hn : s'.nprocs = slots s'.procs fun proc => proc.state ≠ .free)
    (hr : s'.nrunnable = slots s'.procs fun proc => proc.state = .runnable) : Consistent s' := by
  have hnodup := h.queue_nodup
  rw [hq, List.nodup_cons] at hnodup
  have hpc : p ≠ s.current := by
    rintro rfl
    apply h.current_unqueued
    rw [hq]
    exact List.mem_cons_self
  have hp := h.fits p
  apply of_fits hn hr hqnodup hfnodup
  intro q
  rw [hcurrent]
  by_cases hqc : q = s.current
  · rw [hqc]
    exact hfits.congr Iff.rfl Iff.rfl (iff_of_false hpc.symm id)
  · rw [hprocs q hqc]
    by_cases hqp : q = p
    · subst hqp
      apply Process.Fits.of_runnable hs
      · exact fun hrunning => absurd rfl hrunning
      · rw [hqueue q hqc]
        exact fun _ => hnodup.1
      · rw [hfree q hqc, hp.free_iff, hs]
        simp
      · exact fun m => hp.idle m hs
      · exact fun hrunning => absurd rfl hrunning
      · exact hp.no_exit hs
    · apply (h.fits q).congr _ (hfree q hqc) (iff_of_false hqp hqc)
      rw [hqueue q hqc, hq, List.mem_cons]
      exact (or_iff_right hqp).symm

theorem switched (h : Consistent s) {p : Slot} {rest : List Slot} (hq : s.runnable = p :: rest)
    (hs : (s.procs p).state = .runnable) (hst : s.me.stack ≠ none) :
    Consistent (s.switched p rest) := by
  have hnodup := h.queue_nodup
  rw [hq, List.nodup_cons] at hnodup
  have hcurrent : s.current ∉ rest := by
    intro hmem
    apply h.current_unqueued
    rw [hq]
    exact List.mem_cons_of_mem p hmem
  have hfits : s.me.Fits (s.current ∈ s.runnable) (s.current ∈ s.free) (s.current = s.current) :=
    h.fits s.current
  have hunused : s.current ∉ s.free := fun hmem => h.current_used (hfits.free_iff.mp hmem)
  cases hm : s.me.state with
  | free => exact absurd hm h.current_used
  | waiting =>
    obtain ⟨nest, m, size, purpose, hstack, hwaiting⟩ := hfits.awaiting hm
    have hparked : s.parked rest = { s with runnable := rest } := by
      unfold Kernel.parked
      rw [hm]
    unfold Kernel.switched
    rw [hparked]
    apply h.dispatch hq hs rfl
    · exact fun _ _ => rfl
    · exact fun _ _ => Iff.rfl
    · exact fun _ _ => Iff.rfl
    · exact hnodup.2
    · exact h.free_nodup
    · exact .of_waiting hm hcurrent hunused hstack hwaiting
    · exact h.nprocs_eq
    · exact h.nrunnable_eq
  | runnable =>
    have hparked : s.parked rest = { s with runnable := rest ++ [s.current] } := by
      unfold Kernel.parked
      rw [hm]
    unfold Kernel.switched
    rw [hparked]
    apply h.dispatch hq hs rfl
    · exact fun _ _ => rfl
    · intro q hqc
      rw [List.mem_append, List.mem_singleton]
      exact or_iff_left hqc
    · exact fun _ _ => Iff.rfl
    · exact hnodup.2.append (List.nodup_singleton _) (List.disjoint_singleton.mpr hcurrent)
    · exact h.free_nodup
    · apply Process.Fits.of_runnable hm
      · exact fun _ => List.mem_append_right _ (List.mem_singleton_self _)
      · exact fun hrunning => hrunning.elim
      · exact hunused
      · exact fun m => hfits.idle m hm
      · exact fun _ => hst
      · exact hfits.no_exit hm
    · exact h.nprocs_eq
    · exact h.nrunnable_eq
  | zombie =>
    have hparked : s.parked rest = Kernel.released { s with runnable := rest } s.current := by
      unfold Kernel.parked
      rw [hm]
    have hpos := h.nprocs_pos
    have hm' : (s.procs s.current).state = .zombie := hm
    unfold Kernel.switched
    rw [hparked]
    apply h.dispatch hq hs rfl
    · exact fun q hqc => Function.update_of_ne hqc _ _
    · exact fun _ _ => Iff.rfl
    · intro q hqc
      change q ∈ s.free ++ [s.current] ↔ _
      rw [List.mem_append, List.mem_singleton]
      exact or_iff_left hqc
    · exact hnodup.2
    · exact h.free_nodup.append (List.nodup_singleton _) (List.disjoint_singleton.mpr hunused)
    · apply Process.Fits.of_free
      · change (Function.update s.procs s.current s.me.released s.current).state = .free
        rw [Function.update_self]
        rfl
      · exact hcurrent
      · exact List.mem_append_right _ (List.mem_singleton_self _)
      · exact id
    · have hslots := slots_update s.procs s.current s.me.released fun proc => proc.state ≠ .free
      rw [hm', ← h.nprocs_eq] at hslots
      change s.nprocs - 1 = slots (Function.update s.procs s.current s.me.released) _
      change slots (Function.update s.procs s.current s.me.released) _ + 1 = s.nprocs + 0 at hslots
      omega
    · have hslots := slots_update s.procs s.current s.me.released fun proc => proc.state = .runnable
      rw [hm', ← h.nrunnable_eq] at hslots
      exact hslots.symm

theorem posted (h : Consistent s) {p : Slot} {m : MsgType} {msg : Message}
    (hp : Posted s p m msg s') : Consistent s' := by
  cases hp with
  | kept => exact h.deposited p m msg
  | woke hstate =>
    refine (h.deposited p m msg).awake ?_
    rw [Kernel.deposited, Kernel.emit, Kernel.setProc_procs, if_pos rfl]
    exact hstate

theorem requested (h : Consistent s) (server : Nat) : Consistent (s.requested server) := by
  have hproc : s.me.SameShape { s.me with server := server } := ⟨rfl, fun _ => rfl, rfl⟩
  exact (h.setProc hproc).same rfl rfl rfl rfl rfl rfl

end Consistent

theorem Move.consistent {w : Promise} {f f' : Phase} {s s' : Kernel} (hm : Move w f s f' s')
    (h : Consistent s) : Consistent s' := by
  cases hm with
  | post hposted => exact h.posted hposted
  | wake hstate => exact h.awake hstate
  | die halive => exact h.died halive
  | swept => exact h
  | keepPage => exact h
  | freePage => exact h.same rfl rfl rfl rfl rfl rfl
  | termed => exact h
  | release hzombie hcurrent hqueue => exact h.released hzombie hcurrent hqueue
  | @reap s p rest hqueue hzombie =>
    have hnodup := h.queue_nodup
    have hcurrent := h.current_unqueued
    rw [hqueue] at hnodup hcurrent
    refine (h.dequeue hqueue hzombie).released hzombie ?_ (List.nodup_cons.mp hnodup).1
    rintro rfl
    exact hcurrent List.mem_cons_self
  | switch hqueue hstate hstack => exact h.switched hqueue hstate hstack
  | spawn hs => exact h.spawned hs.state hs.free
  | enter hstack hstate hcall =>
    refine h.setStack ?_ ?_
    · obtain hz | ⟨hr, -⟩ := hstate
      · rw [hz]; decide
      · rw [hr]; decide
    · rintro nest he (ha | ha)
      · obtain hz | ⟨hr, rfl⟩ := hstate
        · rw [hz] at ha; cases ha
        · cases he
      · obtain hz | ⟨hr, -⟩ := hstate
        · rw [hz] at ha; cases ha
        · rw [hr] at ha; cases ha
  | nest hstack => exact h.nest hstack _
  | leave hstack hcall hstate =>
    exact h.setStack (by rw [hstate]; decide) (fun _ he => by cases he)
  | resume hstack hstate => exact h.resumed hstate
  | @take s m =>
    have hproc : s.me.SameShape (s.me.taken m) := .taken m
    exact (h.setProc hproc).same rfl rfl rfl rfl rfl rfl
  | @call s t q contents server size purpose hstack hstate hposted hpid hself =>
    refine ((h.posted hposted).requested server).blocked ?_
    rw [Kernel.requested_me, hposted.me hself]
    exact hstate
  | block hstack hstate => exact h.blocked hstate
  | exec => exact h.setProc ⟨rfl, fun _ => rfl, rfl⟩
  | @takeFrame s page frame =>
    have hproc : s.me.SameShape { s.me with
        pages := Function.update s.me.pages page (some frame) } := ⟨rfl, fun _ => rfl, rfl⟩
    exact (h.setProc hproc).same rfl rfl rfl rfl rfl rfl
  | shutdown | fill | map | advance | poke | peek | sync =>
    exact h.same rfl rfl rfl rfl rfl rfl

end Egos.Grass
