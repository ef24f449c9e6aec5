import Mathlib.Logic.Relation
import Egos.Grass.Table

/-!
# Messages and deaths

What the functions that send messages, wake and terminate processes do, as moves: none of
their assertions fails on a consistent table.
-/
namespace Egos.Grass

open Egos.Lib Egos.Earth

set_option autoImplicit false

/-- Any number of moves. -/
def Moves (w : Promise) (f : Phase) (s : Kernel) (f' : Phase) (s' : Kernel) : Prop :=
  Relation.ReflTransGen (fun a b : Phase × Kernel => Move w a.1 a.2 b.1 b.2) (f, s) (f', s')

namespace Moves

variable {w : Promise} {f f' f'' : Phase} {s s' s'' : Kernel}

theorem refl : Moves w f s f s := Relation.ReflTransGen.refl

theorem single (h : Move w f s f' s') : Moves w f s f' s' := Relation.ReflTransGen.single h

theorem trans (h : Moves w f s f' s') (h' : Moves w f' s' f'' s'') : Moves w f s f'' s'' :=
  Relation.ReflTransGen.trans h h'

theorem step (h : Moves w f s f' s') (h' : Move w f' s' f'' s'') : Moves w f s f'' s'' :=
  h.trans (single h')

theorem keeps {I : Phase → Kernel → Prop} (h : Moves w f s f' s')
    (hmove : ∀ {f f' : Phase} {s s' : Kernel}, Move w f s f' s' → I f s → I f' s')
    (hi : I f s) : I f' s' := by
  unfold Moves at h
  generalize ha : (f, s) = a at h
  generalize hb : (f', s') = b at h
  induction h generalizing f' s' with
  | refl =>
    obtain ⟨rfl, rfl⟩ := Prod.mk.inj (ha.trans hb.symm)
    exact hi
  | @tail c d hac hcd ih =>
    subst hb
    exact hmove hcd (ih rfl)

theorem consistent (h : Moves w f s f' s') (hs : Consistent s) : Consistent s' :=
  h.keeps (I := fun _ s => Consistent s) (fun hm hc => hm.consistent hc) hs

end Moves

/-- What stays of the kernel while messages are sent, processes woken and frames given back. -/
structure Quiet (s s' : Kernel) : Prop where
  current : s'.current = s.current
  dead : ∀ p, ¬ (s.procs p).Alive → s'.procs p = s.procs p
  runnable : ∀ p, (s.procs p).state = .runnable → (s'.procs p).state = .runnable
  alive : ∀ p, (s.procs p).Alive → (s'.procs p).Alive
  queue : ∀ p, p ∈ s'.runnable → p ∈ s.runnable ∨ (s.procs p).state = .waiting
  awaits : ∀ p pid, awaits (s'.procs p) pid = true → awaits (s.procs p) pid = true
  pid : ∀ p, (s'.procs p).pid = (s.procs p).pid
  stack : ∀ p, (s'.procs p).stack = (s.procs p).stack

namespace Quiet

variable {s s' s'' : Kernel}

theorem refl (s : Kernel) : Quiet s s where
  current := rfl
  dead _ _ := rfl
  runnable _ h := h
  alive _ h := h
  queue _ h := .inl h
  awaits _ _ h := h
  pid _ := rfl
  stack _ := rfl

theorem trans (h : Quiet s s') (h' : Quiet s' s'') : Quiet s s'' where
  current := h'.current.trans h.current
  dead p hp := by
    have he := h.dead p hp
    rw [h'.dead p (he ▸ hp), he]
  runnable p hp := h'.runnable p (h.runnable p hp)
  alive p hp := h'.alive p (h.alive p hp)
  queue p hp := by
    obtain hq | hq := h'.queue p hp
    · exact h.queue p hq
    · right
      by_contra hw
      by_cases ha : (s.procs p).Alive
      · obtain hr | hr := ha
        · have := h.runnable p hr
          rw [hq] at this
          cases this
        · exact hw hr
      · rw [h.dead p ha] at hq
        exact hw hq
  awaits p pid hp := h.awaits p pid (h'.awaits p pid hp)
  pid p := (h'.pid p).trans (h.pid p)
  stack p := (h'.stack p).trans (h.stack p)

/-- The memory is not looked at. -/
theorem same (hprocs : s'.procs = s.procs) (hcurrent : s'.current = s.current)
    (hqueue : s'.runnable = s.runnable) : Quiet s s' where
  current := hcurrent
  dead _ _ := by rw [hprocs]
  runnable _ h := by rwa [hprocs]
  alive _ h := by rwa [hprocs]
  queue _ h := .inl (hqueue ▸ h)
  awaits _ _ h := by rwa [hprocs] at h
  pid _ := by rw [hprocs]
  stack _ := by rw [hprocs]

theorem setProc {p : Slot} {proc : Process} (halive : (s.procs p).Alive)
    (hprocs : s'.procs = Function.update s.procs p proc) (hcurrent : s'.current = s.current)
    (hqueue : ∀ q, q ∈ s'.runnable → q ∈ s.runnable ∨ (s.procs q).state = .waiting)
    (hrunnable : (s.procs p).state = .runnable → proc.state = .runnable) (hproc : proc.Alive)
    (hawaits : ∀ pid, Grass.awaits proc pid = true → Grass.awaits (s.procs p) pid = true)
    (hpid : proc.pid = (s.procs p).pid) (hstack : proc.stack = (s.procs p).stack) :
    Quiet s s' := by
  have hself : s'.procs p = proc := by rw [hprocs, Function.update_self]
  have hother (q : Slot) (hq : q ≠ p) : s'.procs q = s.procs q := by
    rw [hprocs, Function.update_of_ne hq]
  refine ⟨hcurrent, fun q hq => ?_, fun q hq => ?_, fun q hq => ?_, hqueue, fun q pid hq => ?_,
    fun q => ?_, fun q => ?_⟩
  · exact hother q (fun he => hq (he ▸ halive))
  all_goals
    by_cases he : q = p
    · subst he
      simp_all
    · simp_all

theorem deposited {p : Slot} (hp : (s.procs p).Alive) (m : MsgType) (msg : Message) :
    Quiet s (s.deposited p m msg) := by
  refine setProc hp rfl rfl (fun _ h => .inl h) id hp (fun pid h => ?_) rfl rfl
  have hshape := @Process.SameShape.deposit (s.procs p) m msg
  simp only [Grass.awaits, hshape.1, hshape.2.1] at h ⊢
  exact h

theorem awake {p : Slot} (hp : (s.procs p).state = .waiting) : Quiet s (s.awake p) := by
  refine setProc (.inr hp) rfl rfl (fun q hq => ?_) (fun _ => rfl) (.inl rfl) (fun pid h => ?_)
    rfl rfl
  · simp only [Kernel.awake] at hq
    split at hq
    · exact .inl hq
    · obtain hq | hq := List.mem_append.mp hq
      · exact .inl hq
      · rw [List.mem_singleton.mp hq]
        exact .inr hp
  · simp [Grass.awaits, Process.woken] at h

end Quiet

namespace Posted

variable {s s' : Kernel} {p : Slot} {m : MsgType} {msg : Message}

theorem quiet (h : Posted s p m msg s') : Quiet s s' := by
  cases h with
  | kept halive => exact .deposited halive m msg
  | woke hstate =>
    refine (Quiet.deposited (.inr hstate) m msg).trans (.awake ?_)
    rw [Kernel.deposited, Kernel.emit, Kernel.setProc_state, if_pos rfl]
    exact hstate

end Posted

section Outcomes

variable {E : Halt → Kernel → Prop} {s : Kernel}

theorem outcome_check {c : Bool} {a : Assertion} {Q : Unit → Kernel → Prop} (h : c = true)
    (hq : Q () s) : Outcome (check c a) Q E s := by
  rw [check, if_pos h]
  exact hq

theorem outcome_check_false {c : Bool} {a : Assertion} {Q : Unit → Kernel → Prop} (h : c = false)
    (he : E (.assertion a) s) : Outcome (check c a) Q E s := by
  rw [check, if_neg (by simp [h])]
  exact he

theorem outcome_check_any {c : Bool} {a : Assertion} {Q : Unit → Kernel → Prop} (hq : Q () s) :
    Outcome (check c a) Q (fun _ _ => True) s := by
  cases c
  · trivial
  · exact hq

theorem procFind_some {pid : Nat} {p : Slot} (h : procFind s pid = some p) :
    (s.procs p).state ≠ .free ∧ (s.procs p).pid = pid := by
  have := List.find?_some h
  simpa using this

theorem outcome_procToRunqueue {p : Slot} {Q : Unit → Kernel → Prop}
    (hp : (s.procs p).state = .runnable) (hq : Q () { s with runnable := s.runnable ++ [p] }) :
    Outcome (procToRunqueue p) Q E s := by
  unfold procToRunqueue
  simp only [Outcome.bind_iff, Outcome.get_iff]
  exact outcome_check (by simp [hp]) hq

theorem outcome_procWakeup {p : Slot} {Q : Unit → Kernel → Prop}
    (hp : (s.procs p).state = .waiting) (hq : Q () (s.awake p)) :
    Outcome (procWakeup p) Q E s := by
  unfold procWakeup
  simp only [Outcome.bind_iff, Outcome.get_iff]
  refine outcome_check (by simp [hp]) ?_
  simp only [Outcome.modify_iff]
  by_cases hc : p = s.current
  · rw [if_neg (fun hne => hne hc)]
    change Q () _
    convert hq using 1
    simp [Kernel.setProc, Kernel.awake, Process.woken, hc]
  · rw [if_pos hc, Outcome.bind_iff]
    refine outcome_procToRunqueue ?_ ?_
    · simp [Kernel.setProc]
    change Q () _
    convert hq using 1
    simp [Kernel.setProc, Kernel.awake, Process.woken, hc]

theorem outcome_procRelease {p : Slot} {Q : Unit → Kernel → Prop}
    (hp : (s.procs p).state = .zombie) (hq : Q () (s.released p)) :
    Outcome (procRelease p) Q E s := by
  unfold procRelease
  simp only [Outcome.bind_iff, Outcome.get_iff]
  exact outcome_check (by simp [hp]) hq

theorem outcome_procSend (h : Consistent s) (srcPid srcUid dstPid : Nat) (m : MsgType)
    (contents : List Byte) :
    Outcome (procSend srcPid srcUid dstPid m contents)
      (fun r s' => r = false ∧ s' = s ∧
          (∀ p, procFind s dstPid = some p → (s.procs p).Alive →
            m = .reply ∧ replyRefused (s.procs p) srcPid = true) ∨
        r = true ∧ ∃ p, procFind s dstPid = some p ∧
          Posted s p m ⟨srcPid, srcUid, contents⟩ s') E s := by
  unfold procSend
  simp only [Outcome.bind_iff, Outcome.get_iff]
  cases hfind : procFind s dstPid with
  | none => exact .inl ⟨rfl, rfl, by simp⟩
  | some p =>
    obtain ⟨hfree, hpid⟩ := procFind_some hfind
    dsimp only
    split
    · rename_i hzombie
      refine .inl ⟨rfl, rfl, fun q hq halive => ?_⟩
      cases hq
      rw [Process.Alive, hzombie] at halive
      obtain hs | hs := halive <;> cases hs
    rename_i hzombie
    split
    · rename_i hreply
      refine .inl ⟨rfl, rfl, fun q hq _ => ?_⟩
      cases hq
      exact hreply
    rename_i hreply
    have halive : (s.procs p).Alive := by
      unfold Process.Alive
      cases hs : (s.procs p).state <;> simp_all
    have hfilter : m = .reply → (s.procs p).state = .waiting ∧
        ((s.procs p).mboxes m).waiting = true ∧ (s.procs p).server = srcPid := by
      intro hm
      simp [hm, replyRefused] at hreply
      subst hm
      exact ⟨hreply.1.1, hreply.1.2, hreply.2⟩
    simp only [Outcome.bind_iff, Outcome.modify_iff]
    by_cases hwait : ((s.procs p).mboxes m).waiting = true
    · have hstate : (s.procs p).state = .waiting := by
        obtain hr | hw := halive
        · have := h.idle p m hr
          rw [hwait] at this
          cases this
        · exact hw
      -- only this mailbox is waited for, so clearing its flag clears them all
      have hmb (queue : List Message) :
          Function.update (s.procs p).mboxes m ⟨false, queue⟩ = fun m' =>
            ⟨false, (Function.update (s.procs p).mboxes m
              ⟨((s.procs p).mboxes m).waiting, queue⟩ m').messages⟩ := by
        funext m'
        by_cases hm : m' = m
        · subst hm
          simp
        · obtain ⟨_, m₀, _, _, _, honly⟩ := h.awaiting p hstate
          have hm₀ : m = m₀ := (honly m).mp hwait
          have hfalse : ((s.procs p).mboxes m').waiting = false := by
            rw [← Bool.not_eq_true]
            exact fun ht => hm (((honly m').mp ht).trans hm₀.symm)
          simp [hm, ← hfalse]
      rw [if_pos hwait]
      simp only [Outcome.bind_iff]
      refine outcome_check (by simp [hstate]) ?_
      simp only [Outcome.modify_iff]
      have hpost : Posted s p m ⟨srcPid, srcUid, contents⟩
          ((s.deposited p m ⟨srcPid, srcUid, contents⟩).awake p) :=
        .woke hstate hwait fun hm => (hfilter hm).2.2
      by_cases hc : p = s.current
      · rw [if_neg (fun hne => hne hc)]
        refine .inr ⟨rfl, p, rfl, ?_⟩
        convert hpost using 1
        simp [Kernel.setProc, Kernel.emit, Kernel.deposited, Process.deposit, Kernel.awake,
          Process.woken, Process.setMbox, hc]
        rw [← hc, hmb]
      · rw [if_pos hc, Outcome.bind_iff]
        refine outcome_procToRunqueue ?_ ?_
        · simp [Kernel.setProc]
        refine .inr ⟨rfl, p, rfl, ?_⟩
        convert hpost using 1
        simp [Kernel.setProc, Kernel.emit, Kernel.deposited, Process.deposit, Kernel.awake,
          Process.woken, Process.setMbox, hc]
        rw [hmb]
    · rw [if_neg hwait]
      refine .inr ⟨rfl, p, rfl, ?_⟩
      refine Posted.kept halive (by simpa using hwait) fun hm => ?_
      exact hwait (hfilter hm).2.1

variable (w : Promise) {p : Slot}

theorem outcome_releaseFrames :
    Outcome (releaseFrames p) (fun _ s' =>
      Moves w (.release p 0) s (.release p virtPages) s' ∧ Quiet s s') E s := by
  unfold releaseFrames
  refine Outcome.forM_range (fun i s' => Moves w (.release p 0) s (.release p i) s' ∧
    Quiet s s') ⟨.refl, .refl s⟩ ?_
  intro i hi t hpost
  obtain ⟨hmoves, hquiet⟩ := hpost
  simp only [Outcome.bind_iff, Outcome.get_iff]
  cases hpage : (t.procs p).pages i with
  | none => exact ⟨hmoves.step (.keepPage hpage), hquiet⟩
  | some frame => exact ⟨hmoves.step (.freePage hi hpage), hquiet.trans (.same rfl rfl rfl)⟩

theorem outcome_tellOwner (f : Phase) (h : Consistent s) (proc : Process) (status : Int) :
    Outcome (tellOwner proc status) (fun _ s' => Moves w f s f s' ∧ Quiet s s') E s := by
  unfold tellOwner
  simp only [Outcome.bind_iff, Outcome.get_iff]
  cases procFind s proc.owner with
  | none => exact ⟨.refl, .refl s⟩
  | some owner =>
    refine Outcome.seq (outcome_procSend h _ _ _ _ _) ?_
    rintro r s' (⟨-, rfl, -⟩ | ⟨-, q, -, hpost⟩)
    · exact ⟨.refl, .refl s'⟩
    · exact ⟨.single (.post hpost ⟨by simp, by simp⟩), hpost.quiet⟩

/-- After the loop nobody waits for the dead process any more. -/
theorem outcome_failClients :
    Outcome (failClients (s.procs p).pid)
      (fun _ s' => Moves w (.notify p) s (.release p 0) s' ∧ Quiet s s') E s := by
  have hloop : Outcome (failClients (s.procs p).pid) (fun _ s' =>
      (Moves w (.notify p) s (.notify p) s' ∧ Quiet s s') ∧
        ∀ q ∈ List.finRange maxProcs, awaits (s'.procs q) (s.procs p).pid = false) E s := by
    unfold failClients
    refine Outcome.forM (fun done s' => (Moves w (.notify p) s (.notify p) s' ∧ Quiet s s') ∧
      ∀ q ∈ done, awaits (s'.procs q) (s.procs p).pid = false) ⟨⟨.refl, .refl s⟩, by simp⟩ ?_
    rintro done q rest - t ⟨⟨hmoves, hquiet⟩, hdone⟩
    simp only [Outcome.bind_iff, Outcome.get_iff]
    by_cases hq : awaits (t.procs q) (s.procs p).pid = true
    · have hstate : (t.procs q).state = .waiting := by
        simp only [awaits, Bool.and_eq_true, decide_eq_true_eq] at hq
        exact hq.1.1
      rw [if_pos hq]
      refine outcome_procWakeup hstate ?_
      have hwake : Move w (.notify p) t (.notify p) (t.awake q) :=
        .wake hstate (.inr ⟨p, rfl, by rw [hquiet.pid]; exact hq⟩)
      refine ⟨⟨hmoves.step hwake, hquiet.trans (.awake hstate)⟩, fun q' hq' => ?_⟩
      rw [← Bool.not_eq_true]
      intro haw
      obtain hq' | hq' := List.mem_append.mp hq'
      · have := (Quiet.awake hstate).awaits q' _ haw
        rw [hdone q' hq'] at this
        cases this
      · rw [List.mem_singleton.mp hq'] at haw
        simp [awaits, Kernel.awake, Kernel.setProc, Process.woken] at haw
    · rw [if_neg hq]
      refine ⟨⟨hmoves, hquiet⟩, fun q' hq' => ?_⟩
      obtain hq' | hq' := List.mem_append.mp hq'
      · exact hdone q' hq'
      · rw [List.mem_singleton.mp hq']
        simpa using hq
  refine hloop.post fun _ s' hswept => ?_
  obtain ⟨⟨hmoves, hquiet⟩, hnone⟩ := hswept
  refine ⟨hmoves.step (.swept fun q => ?_), hquiet⟩
  rw [hquiet.pid]
  exact hnone q (List.mem_finRange q)

theorem outcome_procTerm (h : Consistent s) (hp : (s.procs p).Alive) (status : Int) :
    Outcome (procTerm p status)
      (fun _ s' => Moves w .idle s (.release p virtPages) s' ∧ Quiet (s.died p) s') E s := by
  have hdie : Moves w .idle s (.notify p) (s.died p) := .single (.die hp)
  have hpid : ((s.died p).procs p).pid = (s.procs p).pid := by
    simp [Kernel.died, Kernel.emit, Kernel.setProc]
  unfold procTerm
  simp only [Outcome.bind_iff, Outcome.get_iff]
  refine outcome_check (by simpa using h.nprocs_pos) ?_
  rw [if_pos (by obtain hs | hs := hp <;> simp [hs])]
  simp only [Outcome.bind_iff, Outcome.modify_iff]
  refine Outcome.post (outcome_tellOwner w (.notify p) (hdie.consistent h) (s.procs p) status) ?_
  intro _ t hpost
  obtain ⟨hmoves, hquiet⟩ := hpost
  have htpid : (s.procs p).pid = (t.procs p).pid := by rw [hquiet.pid, hpid]
  rw [htpid]
  refine Outcome.post (outcome_failClients w) ?_
  intro _ t' hboth
  obtain ⟨hmoves', hquiet'⟩ := hboth
  refine Outcome.post (outcome_releaseFrames w) ?_
  intro _ s' hafter
  obtain ⟨hmoves'', hquiet''⟩ := hafter
  exact ⟨hdie.trans (hmoves.trans (hmoves'.trans hmoves'')), hquiet.trans (hquiet'.trans hquiet'')⟩

end Outcomes

/-- What a kill or a timeout leaves to the running process. -/
structure Steady (s s' : Kernel) : Prop where
  current : s'.current = s.current
  stack : ∀ p, (s'.procs p).stack = (s.procs p).stack
  awake : s.me.state ≠ .waiting → s'.me.state ≠ .waiting

namespace Steady

variable {s s' s'' : Kernel} {p : Slot}

theorem refl (s : Kernel) : Steady s s := ⟨rfl, fun _ => rfl, id⟩

theorem trans (h : Steady s s') (h' : Steady s' s'') : Steady s s'' :=
  ⟨h'.current.trans h.current, fun p => (h'.stack p).trans (h.stack p),
    fun hw => h'.awake (h.awake hw)⟩

theorem stack_me (h : Steady s s') : s'.me.stack = s.me.stack := by
  rw [Kernel.me, h.stack, h.current, ← Kernel.me]

theorem of_quiet (h : Quiet s s') : Steady s s' where
  current := h.current
  stack := h.stack
  awake hw := by
    rw [Kernel.me, h.current]
    by_cases ha : s.me.Alive
    · obtain hr | hr := ha
      · rw [h.runnable _ hr]
        decide
      · exact absurd hr hw
    · rw [h.dead _ ha]
      exact hw

theorem died (s : Kernel) (p : Slot) : Steady s (s.died p) where
  current := rfl
  stack q := by
    simp only [Kernel.died, Kernel.emit, Kernel.setProc_stack]
    split
    · rename_i hq
      rw [hq]
    · rfl
  awake hw := by
    simp only [Kernel.me, Kernel.died, Kernel.emit, Kernel.setProc_state]
    split
    · decide
    · exact hw

theorem released (hc : p ≠ s.current) : Steady s (s.released p) where
  current := rfl
  stack q := by
    simp only [Kernel.released, Kernel.setProc_stack]
    split
    · rename_i hq
      rw [hq]
      rfl
    · rfl
  awake hw := by
    have hme : (s.released p).me = s.me := Function.update_of_ne (Ne.symm hc) _ _
    rw [hme]
    exact hw

end Steady

section Kills

variable {E : Halt → Kernel → Prop} {s : Kernel} (w : Promise) {p : Slot}

/-- A process is zapped, or the killer may not do it. -/
theorem outcome_procZap (h : Consistent s) (killer : Option Slot) (hp : (s.procs p).state ≠ .free)
    (status : Int) :
    Outcome (procZap killer p status) (fun _ s' => Moves w .idle s .idle s' ∧ Steady s s' ∧
      ∀ q, q ≠ p → (s.procs q).state = .runnable → (s'.procs q).state = .runnable) E s := by
  have hdied (q : Slot) (hq : q ≠ p) : (s.died p).procs q = s.procs q :=
    Function.update_of_ne hq _ _
  have hspares {s' : Kernel} (hquiet : Quiet (s.died p) s') (q : Slot) (hq : q ≠ p)
      (hr : (s.procs q).state = .runnable) : (s'.procs q).state = .runnable :=
    hquiet.runnable q (by rw [hdied q hq]; exact hr)
  have hdead {s' : Kernel} (hquiet : Quiet (s.died p) s') :
      s'.procs p = { s.procs p with state := .zombie } := by
    have hself : (s.died p).procs p = { s.procs p with state := .zombie } :=
      Function.update_self _ _ _
    rw [← hself]
    apply hquiet.dead
    rw [hself]
    simp [Process.Alive]
  unfold procZap
  simp only [Outcome.bind_iff, Outcome.get_iff]
  split
  case isFalse => exact ⟨.refl, .refl s, fun _ _ hr => hr⟩
  simp only [Outcome.bind_iff]
  refine outcome_check (by simpa using h.nprocs_pos) ?_
  cases hstate : (s.procs p).state with
  | free => exact absurd hstate hp
  | zombie => exact ⟨.refl, .refl s, fun _ _ hr => hr⟩
  | runnable =>
    refine Outcome.post (outcome_procTerm w h (.inl hstate) status) ?_
    intro _ s' hpost
    obtain ⟨hmoves, hquiet⟩ := hpost
    have hflags (m : MsgType) : ((s'.procs p).mboxes m).waiting = false := by
      rw [hdead hquiet]
      exact h.idle p m hstate
    exact ⟨hmoves.step (.termed (.inr hflags)), (Steady.died s p).trans (.of_quiet hquiet),
      hspares hquiet⟩
  | waiting =>
    simp only [Outcome.bind_iff]
    refine Outcome.post (outcome_procTerm w h (.inr hstate) status) ?_
    intro _ s' hboth
    obtain ⟨hmoves, hquiet⟩ := hboth
    have hsteady := (Steady.died s p).trans (.of_quiet hquiet)
    split
    · rename_i hc
      have hzombie : (s'.procs p).state = .zombie := by rw [hdead hquiet]
      have hc' : p ≠ s'.current := by rw [hsteady.current]; exact hc
      -- a waiting process was not in the queue, and nobody queued it since
      have hqueue : p ∉ s'.runnable := by
        intro hmem
        obtain hmem | hw := hquiet.queue p hmem
        · obtain hq | hq := h.queue_state p hmem <;> rw [hstate] at hq <;> cases hq
        · rw [← hquiet.dead p (by simp [Kernel.died, Kernel.emit, Kernel.setProc, Process.Alive]),
            hzombie] at hw
          cases hw
      refine outcome_procRelease hzombie ⟨hmoves.step (.release hzombie hc' hqueue),
        hsteady.trans (.released hc'), fun q hq hr => ?_⟩
      rw [show (s'.released p).procs q = s'.procs q from Function.update_of_ne hq _ _]
      exact hspares hquiet q hq hr
    · rename_i hc
      have hcur : p = s'.current := by
        rw [hsteady.current]
        exact not_not.mp hc
      exact ⟨hmoves.step (.termed (.inl hcur)), hsteady, hspares hquiet⟩

theorem Steady.runnable {s' : Kernel} (h : Steady s s') (hc : Consistent s')
    (hs : s.me.state = .runnable) (hz : s'.me.state ≠ .zombie) : s'.me.state = .runnable := by
  have hw : s'.me.state ≠ .waiting := h.awake (by rw [hs]; decide)
  have hf := hc.current_used
  cases hs' : s'.me.state with
  | runnable => rfl
  | free => exact absurd hs' hf
  | waiting => exact absurd hs' hw
  | zombie => exact absurd hs' hz

/-- If a kill says nothing, the running process has survived it. -/
theorem outcome_procKill (h : Consistent s) (killer pid : Nat) (status : Int) :
    Outcome (procKill killer pid status) (fun r s' => Moves w .idle s .idle s' ∧ Steady s s' ∧
      (r = false → s.me.state = .runnable → s'.me.state = .runnable)) E s := by
  unfold procKill
  simp only [Outcome.bind_iff, Outcome.get_iff]
  cases procFind s killer with
  | none => exact ⟨.refl, .refl s, fun _ hr => hr⟩
  | some k =>
    dsimp only
    split
    · simp only [Outcome.bind_iff]
      have hloop : Outcome ((List.finRange maxProcs).forM fun p => (do
          let s ← get
          if (s.procs p).state ≠ .free ∧ (s.procs p).interruptable then
            procZap (some k) p status : KernelM Unit))
          (fun _ s' => Moves w .idle s .idle s' ∧ Steady s s') E s := by
        refine Outcome.forM (fun _ s' => Moves w .idle s .idle s' ∧ Steady s s')
          ⟨.refl, .refl s⟩ ?_
        rintro done p rest - t ⟨hmoves, hsteady⟩
        simp only [Outcome.bind_iff, Outcome.get_iff]
        split
        · rename_i hp
          refine Outcome.post (outcome_procZap w (hmoves.consistent h) (some k) hp.1 status) ?_
          intro _ s' hpost
          obtain ⟨hmoves', hsteady', _⟩ := hpost
          exact ⟨hmoves.trans hmoves', hsteady.trans hsteady'⟩
        · exact ⟨hmoves, hsteady⟩
      refine Outcome.post hloop fun _ s' hswept => ?_
      obtain ⟨hmoves, hsteady⟩ := hswept
      refine ⟨hmoves, hsteady, fun hr hs => ?_⟩
      exact hsteady.runnable (hmoves.consistent h) hs (by simpa using hr)
    · cases hfind : procFind s pid with
      | none => exact ⟨.refl, .refl s, fun _ hr => hr⟩
      | some p =>
        simp only [Outcome.bind_iff]
        refine Outcome.post (outcome_procZap w h (some k) (procFind_some hfind).1 status) ?_
        intro _ s' hboth
        obtain ⟨hmoves, hsteady, hspares⟩ := hboth
        refine ⟨hmoves, hsteady, fun hr hs => ?_⟩
        by_cases hp : p = s.current
        · subst hp
          apply hsteady.runnable (hmoves.consistent h) hs
          rw [Kernel.me, hsteady.current]
          simpa using hr
        · rw [Kernel.me, hsteady.current]
          exact hspares s.current (Ne.symm hp) hs

end Kills

end Egos.Grass
