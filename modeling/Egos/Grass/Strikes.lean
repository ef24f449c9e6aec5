import Egos.Grass.Death

/-!
# What the functions of the kernel leave alone

Hardly a function of the kernel kills a process, takes one out of the run queue or changes the one that
runs. `proc_term` kills, and it strikes those that `proc_zap` lets the killer kill.
-/
namespace Egos.Grass

open Egos.Lib Egos.Earth

set_option autoImplicit false

/-- Births are not allowed, and deaths if the process and its uid are. -/
def Event.Allowed (ok : Slot → Nat → Prop) : Event → Prop
  | .born .. => False
  | .died p _ uid => ok p uid
  | _ => True

/-- All that has happened since is allowed. -/
def Happens (ok : Slot → Nat → Prop) (s s' : Kernel) : Prop :=
  ∃ new, s'.events = s.events ++ new ∧ ∀ e ∈ new, e.Allowed ok

theorem Happens.none {ok : Slot → Nat → Prop} {s s' : Kernel} (h : s'.events = s.events) :
    Happens ok s s' :=
  ⟨[], h.trans (List.append_nil _).symm, fun _ he => absurd he List.not_mem_nil⟩

theorem Happens.trans {ok : Slot → Nat → Prop} {s s' s'' : Kernel} (h : Happens ok s s')
    (h' : Happens ok s' s'') : Happens ok s s'' := by
  obtain ⟨new, hnew, hall⟩ := h
  obtain ⟨new', hnew', hall'⟩ := h'
  refine ⟨new ++ new', by rw [hnew', hnew, List.append_assoc], fun e he => ?_⟩
  rcases List.mem_append.mp he with he | he
  · exact hall e he
  · exact hall' e he

/-- What the functions below the scheduler keep but for the processes. -/
def Kernel.rest (s : Kernel) : Slot × Bool := (s.current, s.shuttingDown)

/-- Processes keep their uids, and those that die are allowed to. If `joins`, processes may come to
the run queue, and none leaves it. -/
structure Strikes (ok : Slot → Nat → Prop) (joins : Prop) (s s' : Kernel) : Prop where
  kept : ∀ p, (s'.procs p).uid = (s.procs p).uid ∧
    (s'.procs p).interruptable = (s.procs p).interruptable
  rest : s'.rest = s.rest
  events : Happens ok s s'
  queue : ∃ more, s'.runnable = s.runnable ++ more ∧ (more = [] ∨ joins)

namespace Strikes

variable {ok : Slot → Nat → Prop} {joins : Prop} {s s' s'' : Kernel}

theorem refl (s : Kernel) : Strikes ok joins s s :=
  ⟨fun _ => ⟨rfl, rfl⟩, rfl, .none rfl, [], (List.append_nil _).symm, .inl rfl⟩

theorem trans (h : Strikes ok joins s s') (h' : Strikes ok joins s' s'') :
    Strikes ok joins s s'' := by
  obtain ⟨more, hmore, hjoins⟩ := h.queue
  obtain ⟨more', hmore', hjoins'⟩ := h'.queue
  refine ⟨fun p => ⟨(h'.kept p).1.trans (h.kept p).1, (h'.kept p).2.trans (h.kept p).2⟩,
    h'.rest.trans h.rest, h.events.trans h'.events, more ++ more', ?_, ?_⟩
  · rw [hmore', hmore, List.append_assoc]
  · rcases hjoins with rfl | hj
    · exact hjoins'
    · exact .inr hj

theorem uid (h : Strikes ok joins s s') (p : Slot) : (s'.procs p).uid = (s.procs p).uid :=
  (h.kept p).1

theorem current (h : Strikes ok joins s s') : s'.current = s.current := congrArg Prod.fst h.rest

theorem shuttingDown (h : Strikes ok joins s s') : s'.shuttingDown = s.shuttingDown :=
  congrArg Prod.snd h.rest

theorem prefix_queue (h : Strikes ok joins s s') : s.runnable <+: s'.runnable := by
  obtain ⟨more, hmore, -⟩ := h.queue
  exact ⟨more, hmore.symm⟩

theorem same_queue (h : Strikes ok False s s') : s'.runnable = s.runnable := by
  obtain ⟨more, hmore, rfl | hjoins⟩ := h.queue
  · rw [hmore, List.append_nil]
  · exact hjoins.elim

theorem setProc {p : Slot} {proc : Process} (hprocs : s'.procs = Function.update s.procs p proc)
    (hproc : (proc.uid, proc.interruptable) = ((s.procs p).uid, (s.procs p).interruptable))
    (hrest : s'.rest = s.rest) (hqueue : s'.runnable = s.runnable) (hevents : Happens ok s s') :
    Strikes ok joins s s' := by
  refine ⟨fun q => ?_, hrest, hevents, [], hqueue.trans (List.append_nil _).symm, .inl rfl⟩
  rw [hprocs]
  by_cases hq : q = p
  · subst hq
    rw [Function.update_self]
    exact Prod.mk.inj hproc
  · rw [Function.update_of_ne hq]
    exact ⟨rfl, rfl⟩

theorem altered {p : Slot} {proc : Process} (hprocs : s'.procs = Function.update s.procs p proc)
    (hproc : (proc.uid, proc.interruptable) = ((s.procs p).uid, (s.procs p).interruptable))
    (hrest : (s'.rest, s'.runnable, s'.events) = (s.rest, s.runnable, s.events)) :
    Strikes ok joins s s' :=
  .setProc hprocs hproc (congrArg Prod.fst hrest) (congrArg (·.2.1) hrest)
    (.none (congrArg (·.2.2) hrest))

theorem told (hprocs : s'.procs = s.procs)
    (hrest : (s'.rest, s'.runnable) = (s.rest, s.runnable)) (hevents : Happens ok s s') :
    Strikes ok joins s s' :=
  ⟨fun _ => by rw [hprocs]; exact ⟨rfl, rfl⟩, congrArg Prod.fst hrest, hevents, [],
    (congrArg Prod.snd hrest).trans (List.append_nil _).symm, .inl rfl⟩

theorem same (hprocs : s'.procs = s.procs)
    (hrest : (s'.rest, s'.runnable, s'.events) = (s.rest, s.runnable, s.events)) :
    Strikes ok joins s s' :=
  .told hprocs (congrArg (fun x => (x.1, x.2.1)) hrest) (.none (congrArg (·.2.2) hrest))

end Strikes

/-- From any state on, the program only strikes those that may be struck. -/
def Spares (ok : Slot → Nat → Prop) (joins : Prop) {α : Type} (m : KernelM α) : Prop :=
  ∀ s, Outcome m (fun _ s' => Strikes ok joins s s') (fun _ _ => True) s

namespace Spares

variable {ok : Slot → Nat → Prop} {joins : Prop} {α β : Type}

theorem ret (a : α) : Spares ok joins (pure a : KernelM α) := fun s => .refl s

theorem stop (e : Halt) : Spares ok joins (throw e : KernelM α) := fun _ => trivial

theorem change {f : Kernel → Kernel} (h : ∀ s, Strikes ok joins s (f s)) :
    Spares ok joins (modify f : KernelM PUnit) := h

theorem andThen {m : KernelM α} {f : α → KernelM β} (h : Spares ok joins m)
    (hf : ∀ a, Spares ok joins (f a)) : Spares ok joins (m >>= f) := by
  intro s
  apply (h s).seq
  intro a s' hs'
  exact (hf a s').post fun _ _ hs'' => hs'.trans hs''

theorem look {f : Kernel → KernelM β} (hf : ∀ s, Spares ok joins (f s)) :
    Spares ok joins (get >>= f) :=
  andThen (m := get) (fun s => .refl s) hf

theorem assertion (c : Bool) (a : Assertion) : Spares ok joins (check c a) := by
  unfold check
  split
  · exact ret _
  · exact stop _

theorem loop {ι : Type} {f : ι → KernelM PUnit} (hf : ∀ i, Spares ok joins (f i)) (l : List ι) :
    Spares ok joins (l.forM f) := by
  induction l with
  | nil => exact ret _
  | cons i l ih => exact (hf i).andThen fun _ => ih

theorem emit {e : Kernel → Event} (he : ∀ s, (e s).Allowed ok) :
    Spares ok joins (modify fun s => s.emit (e s)) :=
  change fun s => .told rfl rfl ⟨_, rfl, List.forall_mem_singleton.mpr (he s)⟩

theorem stacked (p : Kernel → Slot) (stack : Kernel → Option Stack) :
    Spares ok joins (modify fun s : Kernel => s.setStack (p s) (stack s)) :=
  change fun s => .altered (show (s.setStack (p s) (stack s)).procs =
    Function.update s.procs (p s) { s.procs (p s) with stack := stack s } from rfl) rfl rfl

theorem after {m : KernelM α} (hm : Spares ok joins m) {s s' : Kernel} (h : Strikes ok joins s s') :
    Outcome m (fun _ s'' => Strikes ok joins s s'') (fun _ _ => True) s' :=
  (hm s').post fun _ _ hs => h.trans hs

/-! ## Messages -/

theorem toRunqueue (p : Slot) : Spares ok True (procToRunqueue p) := by
  unfold procToRunqueue
  apply look
  intro s
  apply (assertion _ _).andThen
  exact fun _ s => ⟨fun _ => ⟨rfl, rfl⟩, rfl, .none rfl, [p], rfl, .inr trivial⟩

theorem send (srcPid srcUid dstPid : Nat) (m : MsgType) (contents : List Byte) :
    Spares ok True (procSend srcPid srcUid dstPid m contents) := by
  unfold procSend
  apply look
  intro s
  split
  · exact ret _
  rename_i dst _
  split
  · exact ret _
  split
  · exact ret _
  apply (change fun s => ?_).andThen
  · intro _
    split
    · apply (assertion _ _).andThen
      intro _
      refine andThen (change fun s => .altered rfl rfl rfl) fun _ => ?_
      split
      · exact (toRunqueue dst).andThen fun _ => andThen (change fun s => .altered rfl rfl rfl)
          fun _ => ret _
      · exact andThen (change fun s => .altered rfl rfl rfl) fun _ => ret _
    · exact ret _
  · exact .setProc rfl rfl rfl rfl ⟨_, rfl, List.forall_mem_singleton.mpr trivial⟩

theorem wakeup (p : Slot) : Spares ok True (procWakeup p) := by
  unfold procWakeup
  apply look
  intro s
  apply (assertion _ _).andThen
  intro _
  refine andThen (change fun s => .altered rfl rfl rfl) fun _ => ?_
  split
  · exact (toRunqueue p).andThen fun _ => change fun s => .altered rfl rfl rfl
  · exact change fun s => .altered rfl rfl rfl

theorem release (p : Slot) : Spares ok joins (procRelease p) := by
  unfold procRelease
  apply look
  intro s
  apply (assertion _ _).andThen
  exact fun _ => change fun s => .altered rfl rfl rfl

theorem takes (m : MsgType) (size : Nat) : Spares ok joins (takeMessage m size) := by
  unfold takeMessage
  apply look
  intro s
  apply (assertion _ _).andThen
  intro _
  dsimp only
  split
  · exact ret _
  · apply (change fun s => ?_).andThen
    · exact fun _ => ret _
    · exact .setProc rfl rfl rfl rfl ⟨_, rfl, List.forall_mem_singleton.mpr trivial⟩

theorem enters (call : Call) : Spares ok joins (enter call) :=
  stacked (fun s => s.current) fun _ => some ⟨0, call⟩

theorem recv (m : MsgType) (maxTime now size : Nat) (purpose : Purpose) :
    Spares ok joins (procRecv m maxTime now size purpose) := by
  unfold procRecv
  apply look
  intro s
  apply (assertion _ _).andThen
  intro _
  apply (assertion _ _).andThen
  intro _
  split
  · exact andThen (change fun s => .altered rfl rfl rfl) fun _ => (enters _).andThen fun _ => ret _
  · exact (assertion _ _).andThen fun _ => (takes m size).andThen fun _ => ret _

theorem rpc (pid : Nat) (request : List Byte) (size : Nat) (purpose : Purpose) :
    Spares ok True (sysRpc pid request size purpose) := by
  unfold sysRpc
  apply look
  intro s
  split
  · exact ret _
  apply (send _ _ _ _ _).andThen
  intro sent
  split
  · apply (change fun s => ?_).andThen
    · exact fun _ => (recv _ _ _ _ _).andThen fun _ => ret _
    · exact .setProc rfl rfl rfl rfl ⟨_, rfl, List.forall_mem_singleton.mpr trivial⟩
  · exact ret _

/-! ## Paging -/

theorem pokes (virt : Nat) (byte : Byte) : Spares ok joins (poke virt byte) := by
  unfold poke
  apply look
  intro s
  split
  · exact andThen (change fun s => .same rfl rfl) fun _ => emit fun _ => trivial
  · exact stop _

theorem peeks (virt : Nat) : Spares ok joins (peek virt) := by
  unfold peek
  apply look
  intro s
  split
  · exact emit fun _ => trivial
  · exact stop _

theorem maps (fault : Fault) : Spares ok joins (mapPage fault) := by
  have htouch : Spares ok joins (fault.touch.perform fault.virt) := by
    cases fault.touch with
    | none => exact ret _
    | put byte => exact pokes _ byte
    | get => exact peeks _
  unfold mapPage
  apply look
  intro s
  split
  · exact stop _
  dsimp only
  split
  · exact andThen (change fun s => .same rfl rfl) fun _ =>
      andThen (change fun s => .same rfl rfl) fun _ => htouch
  · exact andThen (change fun s => .same rfl rfl) fun _ => htouch

theorem fills (virt : Nat) (contents : Page) : Spares ok joins (fillFrame virt contents) := by
  unfold fillFrame
  apply look
  intro s
  split
  · exact stop _
  · exact andThen (change fun s => .same rfl rfl) fun _ => emit fun _ => trivial

theorem allocates (page : Nat) : Spares ok joins (procFrameAlloc page) := by
  unfold procFrameAlloc
  apply look
  intro s
  split
  · exact stop _
  · exact andThen (change fun s => .same rfl rfl) fun _ => change fun s => .altered rfl rfl rfl

/-- A process goes on where it gave up the processor. -/
theorem returns : Spares ok joins procReturn := by
  have hsource (server : Nat) (message : Option Message) :
      Spares ok joins (checkSource server message) := by
    cases message with
    | none => exact ret _
    | some msg => exact assertion _ _
  have hpurpose (message : Option Message) (purpose : Purpose) :
      Spares ok joins (purpose.finish message) := by
    cases purpose with
    | recv => exact ret _
    | rpc server => exact (hsource _ _).andThen fun _ => emit fun _ => trivial
    | frame server fault =>
      apply (hsource _ _).andThen
      intro _
      refine andThen (emit fun _ => trivial) fun _ => ?_
      split
      · exact stop _
      · exact (fills _ _).andThen fun _ => maps _
  have hcall (call : Call) : Spares ok joins call.finish := by
    cases call with
    | create | yield => exact stacked (fun s => s.current) fun _ => none
    | exit => exact stop _
    | recv mtype size purpose =>
      exact (stacked (fun s => s.current) fun _ => none).andThen fun _ => look fun s =>
        (assertion _ _).andThen fun _ => (takes _ _).andThen fun _ => hpurpose _ _
  unfold procReturn
  apply look
  intro s
  split
  · exact stop _
  · exact hcall _
  · exact stacked (fun s => s.current) fun _ => some ⟨_, _⟩

/-! ## Deaths -/

theorem tells (proc : Process) (status : Int) : Spares ok True (tellOwner proc status) := by
  unfold tellOwner
  apply look
  intro s
  split
  · exact ret _
  · exact (send _ _ _ _ _).andThen fun _ => ret _

theorem fails (pid : Nat) : Spares ok True (failClients pid) := by
  unfold failClients
  apply loop
  intro q
  apply look
  intro s
  split
  · exact wakeup q
  · exact ret _

theorem frames (p : Slot) : Spares ok joins (releaseFrames p) := by
  unfold releaseFrames
  apply loop
  intro i
  apply look
  intro s
  split
  · exact ret _
  · exact change fun s => .same rfl rfl

end Spares

section

variable {ok : Slot → Nat → Prop} {s : Kernel}

theorem Strikes.death {t : Kernel} (h : Strikes ok True s t) {p : Slot}
    (hok : ok p (s.procs p).uid) :
    Strikes ok True s ((t.setProc p { s.procs p with state := .zombie }).emit
      (.died p (s.procs p).pid (s.procs p).uid)) := by
  obtain ⟨huid, hint⟩ := h.kept p
  exact h.trans (.setProc rfl (Prod.ext huid.symm hint.symm) rfl rfl
    ⟨_, rfl, List.forall_mem_singleton.mpr hok⟩)

theorem strikes_procTerm {p : Slot} (hok : ok p (s.procs p).uid) (status : Int) :
    Outcome (procTerm p status) (fun _ s' => Strikes ok True s s') (fun _ _ => True) s := by
  unfold procTerm
  rw [Outcome.bind_iff, Outcome.get_iff]
  apply (@Spares.assertion ok True _ _ s).seq
  intro _ s₁ h₁
  dsimp only
  have hcount (t : Kernel) : Strikes ok True t { t with
      nrunnable := if (s.procs p).state = .runnable then t.nrunnable - 1 else t.nrunnable } :=
    .same rfl rfl
  apply ((Spares.change hcount).after h₁).seq
  intro _ s₂ h₂
  split
  · exact ((Spares.tells _ status).andThen fun _ => (Spares.fails _).andThen fun _ =>
      Spares.frames p).after (h₂.death hok)
  · exact (Spares.frames p).after h₂

theorem strikes_sysExit (hok : ok s.current s.me.uid) (status : Int) :
    Outcome (sysExit status) (fun _ s' => Strikes ok True s s') (fun _ _ => True) s := by
  unfold sysExit
  rw [Outcome.bind_iff, Outcome.get_iff]
  exact (strikes_procTerm hok status).seq fun _ _ h => (Spares.enters .exit).after h

/-- A page fault kills nobody but the running process. -/
theorem strikes_procPagefault (hok : ok s.current s.me.uid) (virt : Nat) (access : Access)
    (touch : Touch) : Outcome (procPagefault virt access touch)
      (fun _ s' => Strikes ok True s s') (fun _ _ => True) s := by
  unfold procPagefault
  rw [Outcome.bind_iff, Outcome.get_iff, Outcome.bind_iff]
  refine outcome_check_any ?_
  split
  · exact strikes_sysExit hok _
  dsimp only
  split
  · exact strikes_sysExit hok _
  suffices hrest : ∀ {m : KernelM Unit}, Spares ok True m → Outcome m
      (fun _ s' => Strikes ok True s s') (fun _ _ => True) s by
    split
    · exact hrest (.maps _)
    · apply hrest
      apply (Spares.assertion _ _).andThen
      intro _
      apply (Spares.allocates _).andThen
      intro _
      split
      · exact (Spares.fills _ _).andThen fun _ => .maps _
      · exact (Spares.rpc _ _ _ _).andThen fun _ => .assertion _ _
  exact fun hm => hm s

/-- A process is zapped only if its killer may do it. -/
theorem strikes_procZap {killer : Option Slot} {p : Slot} (status : Int)
    (hok : mayKill s killer p = true → ok p (s.procs p).uid) :
    Outcome (procZap killer p status) (fun _ s' => Strikes ok True s s') (fun _ _ => True) s := by
  unfold procZap
  rw [Outcome.bind_iff, Outcome.get_iff]
  split
  · rename_i hmay
    have hterm := strikes_procTerm (hok hmay) status
    rw [Outcome.bind_iff]
    refine outcome_check_any ?_
    split
    · exact hterm
    · apply hterm.seq
      intro _ s₂ h₂
      split
      · exact (Spares.release p).after h₂
      · exact h₂
    · exact .refl s
    · trivial
  · exact .refl s

/-- The processes that a kill is meant for: all that may be interrupted, or the one with the id. -/
def Kernel.Target (s : Kernel) (pid : Nat) (p : Slot) : Prop :=
  if pid = 0 then (s.procs p).interruptable = true else procFind s pid = some p

/-- `proc_kill` finds the killer, who may kill the process that it is meant for. -/
def Kernel.MayStrike (s : Kernel) (killer pid : Nat) (p : Slot) : Prop :=
  s.Target pid p ∧ ∃ k, procFind s killer = some k ∧ mayKill s (some k) p = true

theorem strikes_procKill (killer pid : Nat) (status : Int)
    (hok : ∀ p, s.MayStrike killer pid p → ok p (s.procs p).uid) :
    Outcome (procKill killer pid status) (fun _ s' => Strikes ok True s s') (fun _ _ => True)
      s := by
  unfold procKill
  rw [Outcome.bind_iff, Outcome.get_iff]
  cases hfind : procFind s killer with
  | none => exact .refl s
  | some k =>
    have hzap {t : Kernel} (ht : Strikes ok True s t) {p : Slot} (hp : s.Target pid p) :
        Outcome (procZap (some k) p status) (fun _ s' => Strikes ok True s s') (fun _ _ => True)
          t := by
      apply (strikes_procZap status ?_).post fun _ _ h => ht.trans h
      intro hmay
      rw [ht.uid p]
      refine hok p ⟨hp, k, hfind, ?_⟩
      simpa only [mayKill, ht.uid] using hmay
    dsimp only
    split
    · rename_i hall
      apply Outcome.seq (Outcome.forM (fun _ t => Strikes ok True s t) (.refl s) ?_)
      · intro _ t ht
        exact ht
      · intro _ p _ _ t ht
        rw [Outcome.bind_iff, Outcome.get_iff]
        split
        · rename_i hp
          apply hzap ht
          rw [Kernel.Target, if_pos hall, ← (ht.kept p).2]
          exact hp.2
        · exact ht
    · rename_i hone
      cases hp : procFind s pid with
      | none => exact .refl s
      | some p =>
        apply (hzap (.refl s) (p := p) ?_).seq
        · intro _ t ht
          exact ht
        · rw [Kernel.Target, if_neg hone]
          exact hp

/-- The scheduler kills only when the kernel is shutting down. -/
theorem strikes_timeouts (hok : s.shuttingDown = true → ∀ p, ok p (s.procs p).uid) (now : Nat) :
    Outcome ((List.finRange maxProcs).forM (timeout now)) (fun _ s' => Strikes ok True s s')
      (fun _ _ => True) s := by
  apply Outcome.forM (fun _ t => Strikes ok True s t) (.refl s)
  intro _ p _ _ t ht
  unfold timeout
  rw [Outcome.bind_iff, Outcome.get_iff]
  split
  · rename_i hdown
    apply (strikes_procZap statShutdown fun _ => ?_).post fun _ _ h => ht.trans h
    rw [ht.uid p]
    rw [ht.shuttingDown] at hdown
    exact hok hdown.1 p
  split
  · split
    · exact (Spares.wakeup p).after ht
    · exact ht
  · exact ht

/-- Those who leave the queue are gone already. -/
theorem happens_nextRunnable (n : Nat) (s : Kernel) : Outcome (nextRunnable n)
    (fun _ s' => Happens ok s s') (fun _ _ => True) s := by
  induction n generalizing s with
  | zero => exact .none rfl
  | succ n ih =>
    unfold nextRunnable
    rw [Outcome.bind_iff, Outcome.get_iff]
    split
    · exact .none rfl
    · rw [Outcome.bind_iff, Outcome.modify_iff]
      split
      · exact .none rfl
      · rw [Outcome.bind_iff]
        refine outcome_check_any (Outcome.seq (@Spares.release ok True _ _) fun _ t ht => ?_)
        exact (ih t).post fun _ _ h => @Happens.trans ok s t _ ht.events h

theorem happens_procSwitch (next : Slot) (s : Kernel) : Outcome (procSwitch next)
    (fun _ s' => Happens ok s s') (fun _ _ => True) s := by
  have hlast {t : Kernel} (ht : Happens ok s t) : Outcome (do
      modify fun s => { s with mmu := s.mmu.flush, current := next }
      procReturn) (fun _ s' => Happens ok s s') (fun _ _ => True) t := by
    rw [Outcome.bind_iff, Outcome.modify_iff]
    exact (@Spares.returns ok True _).post fun _ _ h => ht.trans h.events
  have hrelease {t : Kernel} (ht : Happens ok s t) : Outcome (do
      if s.me.state = .zombie then
        procRelease s.current
      modify fun s => { s with mmu := s.mmu.flush, current := next }
      procReturn) (fun _ s' => Happens ok s s') (fun _ _ => True) t := by
    split
    · exact Outcome.seq (@Spares.release ok True _ t) fun _ _ h => hlast (ht.trans h.events)
    · exact hlast ht
  unfold procSwitch
  rw [Outcome.bind_iff, Outcome.get_iff, Outcome.bind_iff]
  refine outcome_check_any ?_
  rw [Outcome.bind_iff]
  refine outcome_check_any ?_
  rw [Outcome.bind_iff]
  refine outcome_check_any ?_
  dsimp only
  by_cases hrun : s.me.state = .runnable
  · rw [if_pos hrun]
    exact Outcome.seq (Spares.toRunqueue _ s) fun _ _ h => hrelease h.events
  · rw [if_neg hrun]
    exact hrelease (.none rfl)

theorem happens_procYield (hok : s.shuttingDown = true → ∀ p, ok p (s.procs p).uid) (now : Nat) :
    Outcome (procYield now) (fun _ s' => Happens ok s s') (fun _ _ => True) s := by
  unfold procYield
  rw [Outcome.bind_iff, Outcome.get_iff, Outcome.bind_iff]
  refine outcome_check_any ?_
  split
  · trivial
  refine Outcome.seq (strikes_timeouts hok now) fun _ t ht => ?_
  rw [Outcome.bind_iff, Outcome.get_iff]
  refine Outcome.seq (@happens_nextRunnable ok _ t) fun next u hu => ?_
  have hu := ht.events.trans hu
  rw [Outcome.bind_iff, Outcome.get_iff, Outcome.bind_iff]
  refine outcome_check_any ?_
  cases next with
  | some next => exact (happens_procSwitch next u).post fun _ _ h => hu.trans h
  | none =>
    dsimp only
    split
    · exact (@Spares.returns ok True u).post fun _ _ h => hu.trans h.events
    · split
      · trivial
      · exact hu

/-- An action that neither creates a process nor calls the scheduler kills the running process or those
that a kill is meant for, and takes nobody out of the queue. -/
theorem happens_perform {a : Action} (hcreate : ∀ owner uid, a ≠ .create owner uid)
    (hwake : ∀ now, a ≠ .wake now) (hme : a.inSuspend = false → ok s.current s.me.uid)
    (hkill : ∀ killer pid status, a = .kill killer pid status ∨ a = .handleKill killer pid status →
      ∀ p, s.MayStrike killer pid p → ok p (s.procs p).uid) :
    Outcome a.perform (fun _ s' => Happens ok s s' ∧ s.runnable <+: s'.runnable)
      (fun _ _ => True) s := by
  have hspare {m : KernelM Unit} (h : Outcome m (fun _ s' => Strikes ok True s s')
      (fun _ _ => True) s) :
      Outcome m (fun _ s' => Happens ok s s' ∧ s.runnable <+: s'.runnable) (fun _ _ => True) s :=
    h.post fun _ _ hs => ⟨hs.events, hs.prefix_queue⟩
  have hunit {α : Type} {m : KernelM α} (h : Spares ok True m) :
      Spares ok True (do let _ ← m) := h.andThen fun _ => .ret _
  cases a with
  | create owner uid => exact absurd rfl (hcreate owner uid)
  | wake now => exact absurd rfl (hwake now)
  | recv mtype maxTime now size => exact hspare (hunit (.recv _ _ _ _ _) s)
  | send | handleSend => exact hspare (hunit (.send _ _ _ _ _) s)
  | rpc pid request size => exact hspare (hunit (.rpc _ _ _ _) s)
  | kill killer pid status =>
    apply hspare
    apply (strikes_procKill killer pid status (hkill killer pid status (.inl rfl))).seq
    intro r t ht
    split
    · exact (Spares.enters _).after ht
    · exact ht
  | handleKill killer pid status =>
    apply hspare
    apply (strikes_procKill killer pid status (hkill killer pid status (.inr rfl))).seq
    intro r t ht
    split
    · exact (Spares.stacked (fun s => s.current) _).after ht
    · exact ht
  | exit status => exact hspare (strikes_sysExit (hme rfl) status)
  | yield => exact hspare (Spares.enters _ s)
  | shutdown => exact ⟨.none rfl, List.prefix_refl _⟩
  | sync => exact hspare (.same rfl rfl)
  | exec interruptable executable hdr =>
    unfold Action.perform
    rw [Outcome.bind_iff, Outcome.get_iff]
    split
    · exact ⟨.none rfl, List.prefix_refl _⟩
    · trivial
  | load virt => exact hspare (Spares.peeks virt s)
  | store virt byte => exact hspare (Spares.pokes virt byte s)
  | fault virt =>
    have hsync : Strikes ok True s { s with mmu := s.mmu.sync } := .same rfl rfl
    apply hspare
    unfold Action.perform
    rw [Outcome.bind_iff, Outcome.modify_iff]
    refine Outcome.post (strikes_procPagefault ?_ _ _ _) fun _ _ h => hsync.trans h
    exact hme rfl
  | copyFrom virt =>
    unfold Action.perform
    rw [Outcome.bind_iff, Outcome.get_iff]
    split
    · exact hspare (strikes_procPagefault (hme rfl) _ _ _)
    · exact hspare (Spares.peeks virt s)
  | copyTo virt byte =>
    unfold Action.perform
    rw [Outcome.bind_iff, Outcome.get_iff]
    split
    · exact hspare (strikes_procPagefault (hme rfl) _ _ _)
    split
    · exact hspare (Spares.pokes virt byte s)
    · exact hspare (strikes_procPagefault (hme rfl) _ _ _)

end

end Egos.Grass
