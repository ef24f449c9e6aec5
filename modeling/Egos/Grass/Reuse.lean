import Egos.Grass.Confinement

/-!
# Ids that are given out again

`proc_alloc` counts the ids in a word and does not look whether one is in use. After enough requests a
new process has the id of one that lives, and the spawn server takes the one for the other.
-/
namespace Egos.Grass

open Egos.Lib Egos.Earth
open Egos.Spawnsvr (requestBuffer)

set_option autoImplicit false

/-! ## Steps without a disturbance -/

section

variable {s : Kernel} {E : Halt → Kernel → Prop} {Q : Unit → Kernel → Prop}

/-- The scheduler finds nobody to wake or to kill. -/
structure Undisturbed (s : Kernel) : Prop where
  shuttingDown : s.shuttingDown = false
  curfew : s.curfew = 0
  alarms : ∀ p, (s.procs p).state = .waiting → (s.procs p).alarmSet = false

theorem Undisturbed.timeouts (h : Undisturbed s) (now : Nat) :
    Outcome ((List.finRange maxProcs).forM (timeout now)) (fun _ t => t = s) E s := by
  apply Outcome.forM (fun _ t => t = s) rfl
  rintro - p - - t rfl
  unfold timeout
  rw [Outcome.bind_iff, Outcome.get_iff, if_neg (by simp [h.shuttingDown])]
  split
  · rename_i hp
    rw [h.alarms p hp.1] at hp
    cases hp.2
  · rfl

theorem outcome_act {a : Action} (ha : a.inSuspend = s.me.stack.isSome)
    (h : Outcome a.perform Q E s) : Outcome (step a) Q E s := by
  unfold step
  rw [Outcome.bind_iff, Outcome.get_iff, if_pos ha]
  exact h

theorem outcome_wake (hc : Consistent s) (h : Undisturbed s) (hstack : s.me.stack ≠ none)
    {next : Slot} {rest : List Slot} (hqueue : s.runnable = next :: rest)
    (hstate : (s.procs next).state = .runnable) (hpid : (s.procs next).pid ≠ s.me.pid)
    (hreturn : Outcome procReturn Q E (s.switched next rest)) (now : Nat) :
    Outcome (step (.wake now)) Q E s := by
  refine outcome_act (Option.isSome_iff_ne_none.mpr hstack).symm ?_
  change Outcome (procYield now) Q E s
  unfold procYield
  simp only [Outcome.bind_iff, Outcome.get_iff]
  refine outcome_check (by simpa using hc.nprocs_pos) ?_
  rw [if_neg (by simp [h.curfew])]
  simp only [Outcome.bind_iff]
  refine Outcome.post (h.timeouts now) ?_
  rintro _ t rfl
  rw [Outcome.get_iff, hqueue, List.length_cons]
  unfold nextRunnable
  simp only [Outcome.bind_iff, Outcome.get_iff, hqueue, Outcome.modify_iff]
  rw [if_pos hstate]
  simp only [Outcome.pure_iff]
  exact outcome_check (by simpa using hc.nprocs_pos)
    (outcome_switched hc hqueue hstate hpid hreturn)

/-- The end of `proc_create_uid` or `sys_yield`. -/
theorem outcome_left {call : Call} (hstack : s.me.stack = some ⟨0, call⟩)
    (hcall : call = .create ∨ call = .yield) (hq : Q ⟨⟩ (s.setStack s.current none)) :
    Outcome procReturn Q E s := by
  unfold procReturn
  rw [Outcome.bind_iff, Outcome.get_iff, hstack]
  obtain rfl | rfl := hcall
  · exact hq
  · exact hq

/-- The end of `sys_recv` or `sys_rpc`. -/
theorem outcome_taken {m : MsgType} {size : Nat} {purpose : Purpose}
    (hstack : s.me.stack = some ⟨0, .recv m size purpose⟩) (hstate : s.me.state = .runnable)
    (hidle : (s.me.mboxes m).waiting = false)
    (hq : Outcome (purpose.finish (s.me.firstMessage m size)) Q E (s.resumed m size .recv)) :
    Outcome procReturn Q E s := by
  unfold procReturn
  rw [Outcome.bind_iff, Outcome.get_iff, hstack]
  change Outcome ((Call.recv m size purpose).finish) Q E s
  unfold Call.finish
  simp only [Outcome.bind_iff, Outcome.modify_iff, Outcome.get_iff]
  rw [Kernel.setStack_me]
  refine outcome_check (by simpa using hidle) (outcome_takeMessage ?_ ?_)
  · rw [Kernel.setStack_me]
    exact hstate
  · rw [resumed_eq, Kernel.setStack_me]
    exact hq

theorem outcome_rpc (hc : Consistent s) (hr : Running s) {dst size : Nat} {request : List Byte}
    {q : Slot} (hfind : procFind s dst = some q) (hself : dst ≠ s.me.pid)
    (halive : (s.procs q).Alive) (hempty : (s.me.mboxes .reply).messages = [])
    (hq : ∀ t, Posted s q .request ⟨s.me.pid, s.me.uid, request⟩ t →
      Q ⟨⟩ (t.called dst size (.rpc dst))) : Outcome (step (.rpc dst request size)) Q E s := by
  apply outcome_act (by simp [Action.inSuspend, hr.stack])
  change Outcome (sysRpc dst request size (.rpc dst) >>= fun _ => pure ⟨⟩) Q E s
  rw [Outcome.bind_iff]
  unfold sysRpc
  simp only [Outcome.bind_iff, Outcome.get_iff]
  rw [if_neg hself]
  simp only [Outcome.bind_iff]
  refine Outcome.post (outcome_procSend hc _ _ _ _ _) ?_
  rintro r t (⟨-, -, hrefused⟩ | ⟨rfl, q', hfind', hpost⟩)
  · cases (hrefused q hfind halive).1
  obtain rfl : q = q' := Option.some.inj (hfind.symm.trans hfind')
  have hne : q ≠ s.current := by
    rintro rfl
    exact hself (procFind_some hfind).2.symm
  have hme : (t.requested dst).me = { s.me with server := dst } := by
    rw [Kernel.requested_me, hpost.me hne]
  have hrun : Running (t.requested dst) := by
    constructor
    · rw [hme]
      exact hr.stack
    · rw [hme]
      exact hr.state
  simp only [Outcome.bind_iff, Outcome.modify_iff, if_true]
  change Outcome _ _ _ (t.requested dst)
  refine outcome_procRecv ((hc.posted hpost).requested dst) hrun (fun _ => hq t hpost)
    (fun hne _ => ?_) fun hne _ => ?_
  · rw [hme] at hne
    exact absurd hempty hne
  · rw [hme] at hne
    exact absurd hempty hne

end

/-! ## The shop

`main` in its slot, the spawn server in the next one, and nobody else who waits.
-/

def mainSlot : Slot := ⟨0, Nat.zero_lt_succ _⟩

def serverSlot : Slot := ⟨1, by decide⟩

theorem mainSlot_ne : mainSlot ≠ serverSlot := by decide

theorem procFind_main {s : Kernel} {pid : Nat} (hused : (s.procs mainSlot).state ≠ .free)
    (hpid : (s.procs mainSlot).pid = pid) : procFind s pid = some mainSlot := by
  obtain ⟨rest, hslots⟩ : ∃ rest, List.finRange maxProcs = mainSlot :: rest := ⟨_, rfl⟩
  rw [procFind, hslots, List.find?_cons_of_pos (by simp [hused, hpid])]

theorem procFind_server {s : Kernel} {pid : Nat} (hne : (s.procs mainSlot).pid ≠ pid)
    (hused : (s.procs serverSlot).state ≠ .free) (hpid : (s.procs serverSlot).pid = pid) :
    procFind s pid = some serverSlot := by
  obtain ⟨rest, hslots⟩ : ∃ rest, List.finRange maxProcs = mainSlot :: serverSlot :: rest :=
    ⟨_, rfl⟩
  rw [procFind, hslots, List.find?_cons_of_neg (by simp [hne]),
    List.find?_cons_of_pos (by simp [hused, hpid])]

/-- The process waits for no time to pass and for no other server. -/
def Process.Calm (proc : Process) : Prop :=
  proc.state = .waiting →
    proc.alarmSet = false ∧ ((proc.mboxes .reply).waiting = true → proc.server = 2)

/-- The process after a message, which wakes it if it waits for one of this type. -/
def Process.post (proc : Process) (m : MsgType) (msg : Message) : Process :=
  if (proc.mboxes m).waiting then (proc.deposit m msg).woken else proc.deposit m msg

/-- While it waits for the reply of the server. -/
def Process.asking (proc : Process) (size : Nat) : Process :=
  { proc with server := 2 }.blocked .reply 0 0 ⟨0, .recv .reply size (.rpc 2)⟩

/-- The process that `proc_create_uid` has made for `main`. -/
def newborn (pid uid : Nat) : Process :=
  { Process.zero with pid := pid, uid := uid, owner := 1, state := .runnable }

theorem Process.Calm.of_state {proc : Process} (h : proc.state ≠ .waiting) : proc.Calm :=
  fun hw => absurd hw h

theorem Process.Calm.post {proc : Process} (h : proc.Calm) (m : MsgType) (msg : Message) :
    (proc.post m msg).Calm := by
  unfold Process.post
  split
  · exact .of_state (by simp [Process.woken])
  · unfold Process.Calm
    rw [(Process.SameShape.deposit m msg).2.1]
    exact h

/-- The processes, the one that runs, the queue, the free slots, the next id and the requests that the
server has received. -/
structure Shop (procs : Slot → Process) (current : Slot) (queue free : List Slot) (n : Nat)
    (taken : List Message) (s : Kernel) : Prop where
  calm : ∀ p, (procs p).Calm
  procs : s.procs = procs
  still : s.shuttingDown = false ∧ s.curfew = 0
  current : s.current = current
  queue : s.runnable = queue
  free : s.free = free
  pidGen : s.pidGen = n
  desk : deskOf 2 s.events = ⟨some serverSlot, taken⟩

namespace Shop

variable {procs : Slot → Process} {p q : Slot} {queue free : List Slot} {n : Nat}
  {taken : List Message} {s s' : Kernel} {P : Kernel → Prop}

theorem undisturbed (h : Shop procs p queue free n taken s) : Undisturbed s :=
  ⟨h.still.1, h.still.2, fun q hq => h.procs ▸ (h.calm q (h.procs ▸ hq)).1⟩

theorem me (h : Shop procs p queue free n taken s) : s.me = procs p := by
  rw [Kernel.me, h.procs, h.current]

theorem running (h : Shop procs p queue free n taken s) (hstack : (procs p).stack = none)
    (hstate : (procs p).state = .runnable) : Running s :=
  ⟨h.me ▸ hstack, h.me ▸ hstate⟩

theorem find_main (h : Shop procs p queue free n taken s) {pid : Nat}
    (hused : (procs mainSlot).state ≠ .free) (hpid : (procs mainSlot).pid = pid) :
    procFind s pid = some mainSlot :=
  procFind_main (h.procs ▸ hused) (h.procs ▸ hpid)

theorem change (h : Shop procs p queue free n taken s) {proc : Process} {p' : Slot}
    {queue' free' : List Slot} {n' : Nat} {taken' : List Message}
    (hprocs : s'.procs = Function.update procs q proc) (hcalm : proc.Calm)
    (hstill : (s'.shuttingDown, s'.curfew) = (s.shuttingDown, s.curfew)) (hcurrent : s'.current = p')
    (hqueue : s'.runnable = queue') (hfree : s'.free = free') (hgen : s'.pidGen = n')
    (hdesk : deskOf 2 s'.events = ⟨some serverSlot, taken'⟩) :
    Shop (Function.update procs q proc) p' queue' free' n' taken' s' := by
  obtain ⟨hshut, hcurfew⟩ := Prod.mk.inj hstill
  refine ⟨fun r => ?_, hprocs, ⟨hshut.trans h.still.1, hcurfew.trans h.still.2⟩, hcurrent, hqueue,
    hfree, hgen, hdesk⟩
  by_cases hr : r = q
  · rw [hr, Function.update_self]
    exact hcalm
  · rw [Function.update_of_ne hr]
    exact h.calm r

theorem posted (h : Shop procs p queue free n taken s) {m : MsgType} {msg : Message}
    (hp : Posted s q m msg s') (hq : q ≠ p) : Shop (Function.update procs q ((procs q).post m msg)) p
      (if ((procs q).mboxes m).waiting then queue ++ [q] else queue) free n taken s' := by
  have hdesk : deskOf 2 (s.events ++ [.accepted q m msg]) = ⟨some serverSlot, taken⟩ := by
    rw [deskOf_append, h.desk]
    rfl
  have hcalm := (h.calm q).post m msg
  have hcurrent := h.current
  obtain rfl := h.procs
  unfold Process.post at hcalm ⊢
  cases hp with
  | kept _ hidle =>
    simp only [hidle] at hcalm ⊢
    exact h.change rfl hcalm rfl hcurrent h.queue h.free h.pidGen hdesk
  | woke _ hwait =>
    simp only [hwait] at hcalm ⊢
    refine h.change ?_ hcalm rfl hcurrent ?_ h.free h.pidGen hdesk
    · simp [Kernel.awake, Kernel.deposited, Kernel.setProc, Kernel.emit]
    · simp [Kernel.awake, Kernel.deposited, Kernel.setProc, Kernel.emit, hcurrent, hq, h.queue]

theorem call (h : Shop procs p queue free n taken s) (hc : Consistent s)
    (hstack : (procs p).stack = none) (hstate : (procs p).state = .runnable)
    (halarm : (procs p).alarmSet = false) (hempty : ((procs p).mboxes .reply).messages = [])
    (hpid : 2 ≠ (procs p).pid) (hmain : (procs mainSlot).pid ≠ 2)
    (hserver : (procs serverSlot).pid = 2) (halive : (procs serverSlot).Alive)
    (request : List Byte) (size : Nat) :
    Outcome (step (.rpc 2 request size)) (fun _ s' => Shop (Function.update
        (Function.update procs serverSlot
          ((procs serverSlot).post .request ⟨(procs p).pid, (procs p).uid, request⟩))
        p ((procs p).asking size)) p
      (if ((procs serverSlot).mboxes .request).waiting then queue ++ [serverSlot] else queue)
      free n taken s') (fun _ _ => False) s := by
  have hne : serverSlot ≠ p := by
    rintro rfl
    exact hpid hserver.symm
  have hfind : procFind s 2 = some serverSlot := by
    apply procFind_server <;> rw [h.procs]
    · exact hmain
    · obtain hs | hs := halive <;> rw [hs] <;> decide
    · exact hserver
  refine outcome_rpc hc (h.running hstack hstate) hfind (h.me ▸ hpid) (h.procs ▸ halive)
    (h.me ▸ hempty) fun t hpost => ?_
  rw [h.me] at hpost
  have ht := h.posted hpost hne
  have hme : t.me = procs p := by rw [ht.me, Function.update_of_ne hne.symm]
  refine ht.change ?_ ?_ rfl ht.current ht.queue ht.free ht.pidGen ?_
  · rw [Kernel.called_procs, ht.procs, ht.current, hme]
    rfl
  · intro _
    exact ⟨halarm, fun _ => rfl⟩
  · change deskOf 2 (t.events ++ [_]) = _
    rw [deskOf_append, ht.desk]
    rfl

/-! ### Turns -/

/-- The running process waits, or it is dead and its slot is released. -/
def Gone (procs : Slot → Process) (p : Slot) (free : List Slot) (procs' : Slot → Process)
    (free' : List Slot) : Prop :=
  (procs p).state = .waiting ∧ procs' = procs ∧ free' = free ∨
    (procs p).state = .zombie ∧ procs' = Function.update procs p (procs p).released ∧
      free' = free ++ [p]

theorem turn {next : Slot} {rest free' : List Slot} {procs' : Slot → Process}
    (h : Shop procs p (next :: rest) free n taken s) (hc : Consistent s)
    (hgone : Gone procs p free procs' free') (hstack : (procs p).stack ≠ none)
    (hstate : (procs next).state = .runnable) (hpid : (procs next).pid ≠ (procs p).pid)
    (hreturn : ∀ t, Shop procs' next rest free' n taken t →
      Outcome procReturn (fun _ s' => P s') (fun _ _ => False) t) :
    Outcome (step (.wake 0)) (fun _ s' => P s') (fun _ _ => False) s := by
  refine outcome_wake hc h.undisturbed (h.me ▸ hstack) h.queue (by rw [h.procs, hstate])
    (by rw [h.procs, h.me]; exact hpid) (hreturn _ ?_) 0
  unfold Kernel.switched Kernel.parked
  rw [h.me]
  obtain ⟨hwaiting, rfl, rfl⟩ | ⟨hzombie, rfl, rfl⟩ := hgone
  · rw [hwaiting]
    exact ⟨h.calm, h.procs, h.still, rfl, rfl, h.free, h.pidGen, h.desk⟩
  · rw [hzombie]
    refine h.change ?_ (.of_state (by simp [Process.released])) rfl rfl rfl ?_ h.pidGen h.desk
    · change Function.update s.procs s.current (s.procs s.current).released = _
      rw [h.procs, h.current]
    · change s.free ++ [s.current] = _
      rw [h.free, h.current]

theorem left (h : Shop procs p queue free n taken s) (hstack : (procs p).stack = some ⟨0, .create⟩)
    (hstate : (procs p).state = .runnable) :
    Outcome procReturn (fun _ s' => Shop (Function.update procs p { procs p with stack := none }) p
      queue free n taken s') (fun _ _ => False) s := by
  refine outcome_left (h.me ▸ hstack) (.inl rfl) (h.change ?_ (.of_state ?_) rfl h.current h.queue
    h.free h.pidGen h.desk)
  · change Function.update s.procs s.current { s.procs s.current with stack := none } = _
    rw [h.procs, h.current]
  · simp [hstate]

/-- The server has its request, or `main` its reply. -/
theorem takes (h : Shop procs p queue free n taken s) {m : MsgType} {size : Nat} {purpose : Purpose}
    (hstack : (procs p).stack = some ⟨0, .recv m size purpose⟩) (hstate : (procs p).state = .runnable)
    (hidle : ((procs p).mboxes m).waiting = false) {msg : Message} {rest : List Message}
    (hmsg : ((procs p).mboxes m).messages = msg :: rest)
    (hpurpose : ∀ server ∈ purpose.server, msg.src = server) (hfault : purpose.fault = none) :
    Outcome procReturn (fun _ s' => Shop
      (Function.update procs p { (procs p).taken m with stack := none }) p queue free n
      (taken ++ if p = serverSlot ∧ m = .request then [msg.cut size] else []) s')
      (fun _ _ => False) s := by
  have hfirst : s.me.firstMessage m size = some (msg.cut size) := by
    simp [Process.firstMessage, h.me, hmsg, Message.cut]
  have hprocs : (s.resumed m size .recv).procs =
      Function.update procs p { (procs p).taken m with stack := none } := by
    change Function.update s.procs s.current { s.me.taken m with stack := none } = _
    rw [h.procs, h.current, h.me]
  have hdesk : deskOf 2 (s.resumed m size .recv).events =
      ⟨some serverSlot, taken ++ if p = serverSlot ∧ m = .request then [msg.cut size] else []⟩ := by
    change deskOf 2 (s.events ++ Message.receivedBy s.current m size (s.me.firstMessage m size) ++
      []) = _
    rw [List.append_nil, hfirst, deskOf_append, h.desk, h.current]
    by_cases hp : p = serverSlot
    · cases m <;> simp [Message.receivedBy, Desk.note, hp]
    · cases m <;> simp [Message.receivedBy, Desk.note, hp, Ne.symm hp]
  have hcalm : Process.Calm { (procs p).taken m with stack := none } :=
    .of_state (by simp [Process.taken, Process.setMbox, hstate])
  refine outcome_taken (h.me ▸ hstack) (h.me ▸ hstate) (h.me ▸ hidle) ?_
  rw [hfirst]
  have hshop := h.change hprocs hcalm rfl h.current h.queue h.free h.pidGen hdesk
  cases purpose with
  | recv => exact hshop
  | rpc server =>
    refine Outcome.seq (outcome_checkSource (Q := fun _ t => t = s.resumed m size .recv) rfl
      fun msg' hmsg' hne => ?_) ?_
    · cases hmsg'
      exact hne (hpurpose server rfl)
    · rintro _ _ rfl
      refine h.change hprocs hcalm rfl h.current h.queue h.free h.pidGen ?_
      change deskOf 2 ((s.resumed m size .recv).events ++ [_]) = _
      rw [deskOf_append, hdesk]
      rfl
  | frame => cases hfault

/-! ### Births and deaths -/

theorem spawn (h : Shop procs serverSlot queue (q :: free) n taken s) (hc : Consistent s)
    (hm : (procs mainSlot).pid = 1) (hmstate : (procs mainSlot).state ≠ .free)
    (hmuid : (procs mainSlot).uid = 0) (hstate : (procs serverSlot).state = .runnable)
    (hstack : (procs serverSlot).stack = none) (uid : Nat) :
    Outcome (step (.create 1 uid)) (fun _ s' => s' = s.spawned q free uid 1)
      (fun _ _ => False) s := by
  apply outcome_act (by rw [h.me, hstack]; rfl)
  refine outcome_spawned hc (h.running hstack hstate) ?_ ?_
  · rw [h.still.1, h.find_main hmstate hm, h.free]
    simp
  intro parent q' rest _ hparent hfree
  cases (h.find_main hmstate hm).symm.trans hparent
  cases h.free.symm.trans hfree
  rw [h.procs, hmuid, if_neg (not_not.mpr rfl)]

theorem spawned (h : Shop procs serverSlot queue (q :: free) n taken s)
    (hstate : (procs serverSlot).state = .runnable) (hq : serverSlot ≠ q) (hn : n % 2 ^ 32 ≠ 2)
    (uid : Nat) : Shop (Function.update (Function.update procs serverSlot
      { procs serverSlot with stack := some ⟨0, .create⟩ }) q (newborn (n % 2 ^ 32) uid)) q
      (queue ++ [serverSlot]) free (n + 1) taken (s.spawned q free uid 1) := by
  have hset : Shop (Function.update procs serverSlot
      { procs serverSlot with stack := some ⟨0, .create⟩ }) serverSlot queue (q :: free) n taken
      (s.setStack s.current (some ⟨0, .create⟩)) := by
    refine h.change ?_ (.of_state (by simp [hstate])) rfl h.current h.queue h.free h.pidGen h.desk
    change Function.update s.procs s.current { s.procs s.current with stack := _ } = _
    rw [h.procs, h.current]
  refine hset.change ?_ (.of_state (by simp [newborn])) rfl rfl ?_ rfl ?_ ?_
  · rw [← hset.procs, newborn, ← h.pidGen]
    rfl
  · change s.runnable ++ [s.current] = _
    rw [h.queue, h.current]
  · exact congrArg (· + 1) h.pidGen
  · change deskOf 2 (s.events ++ [.born q (s.pidGen % 2 ^ 32) uid 1]) = _
    rw [deskOf_append, h.desk, h.pidGen, List.foldl_cons, List.foldl_nil, Desk.note, if_neg hn,
      if_neg (by simpa using hq)]

theorem outcome_failClients_none {E : Halt → Kernel → Prop} {pid : Nat}
    (h : ∀ q, awaits (s.procs q) pid = false) :
    Outcome (failClients pid) (fun _ s' => s' = s) E s := by
  unfold failClients
  apply Outcome.forM (fun _ s' => s' = s) rfl
  rintro - q - - s' rfl
  rw [Outcome.bind_iff, Outcome.get_iff, if_neg (by simp [h q])]
  rfl

theorem outcome_releaseFrames_none {E : Halt → Kernel → Prop}
    (h : ∀ i, (s.procs p).pages i = none) :
    Outcome (releaseFrames p) (fun _ s' => s' = s) E s := by
  unfold releaseFrames
  apply Outcome.forM (fun _ s' => s' = s) rfl
  rintro - i - - s' rfl
  rw [Outcome.bind_iff, Outcome.get_iff, h i]
  rfl

theorem died (h : Shop procs p queue free n taken s) :
    Shop (Function.update procs p { procs p with state := .zombie }) p queue free n taken
      (s.died p) := by
  refine h.change ?_ (.of_state (by simp)) rfl h.current h.queue h.free h.pidGen ?_
  · rw [← h.procs]
    rfl
  · change deskOf 2 (s.events ++ [_]) = _
    rw [deskOf_append, h.desk]
    rfl

/-- A process that was made for `main` exits, and `main`, which waits for something else, is told. -/
theorem exit (h : Shop procs p queue free n taken s) (hc : Consistent s)
    (hm : (procs mainSlot).pid = 1) (hmstate : (procs mainSlot).state = .waiting)
    (hmevent : ((procs mainSlot).mboxes .event).waiting = false) (hpm : mainSlot ≠ p)
    {pid uid : Nat} (hpid : pid ≠ 2) (hchild : procs p = newborn pid uid) :
    Outcome (step (.exit 0)) (fun _ s' => Shop (Function.update (Function.update procs mainSlot
        ((procs mainSlot).deposit .event ⟨pid, uid, eventBytes pid 0⟩)) p
      { newborn pid uid with state := .zombie, stack := some ⟨0, .exit⟩ }) p queue free n taken s')
      (fun _ _ => False) s := by
  have hme : s.procs p = newborn pid uid := by rw [h.procs, hchild]
  have hcdied := (Move.die (w := .nothing) (p := p) (.inl (by rw [hme]; rfl))).consistent hc
  have hdied := h.died
  have hdmain : Function.update procs p { procs p with state := .zombie } mainSlot =
      procs mainSlot := Function.update_of_ne hpm _ _
  have hfind : procFind (s.died p) 1 = some mainSlot :=
    hdied.find_main (by rw [hdmain, hmstate]; decide) (by rw [hdmain, hm])
  apply outcome_act (by rw [h.me, hchild]; rfl)
  change Outcome (sysExit 0) _ _ s
  unfold sysExit procTerm
  simp only [Outcome.bind_iff, Outcome.get_iff, h.current]
  refine outcome_check (by simpa using hc.nprocs_pos) ?_
  rw [if_pos (by simp [hme, newborn])]
  simp only [Outcome.bind_iff, Outcome.modify_iff]
  change Outcome (tellOwner (s.procs p) 0) _ _ (s.died p)
  -- `main` finds the news in its mailbox, and nothing else happens
  have htold : Outcome (tellOwner (s.procs p) 0) (fun _ t => Shop (Function.update
      (Function.update procs p { procs p with state := .zombie }) mainSlot
      ((procs mainSlot).deposit .event ⟨pid, uid, eventBytes pid 0⟩)) p queue free n taken t)
      (fun _ _ => False) (s.died p) := by
    unfold tellOwner
    rw [Outcome.bind_iff, Outcome.get_iff, hme, show (newborn pid uid).owner = 1 from rfl, hfind]
    dsimp only
    rw [hdied.procs, hdmain, hm, Outcome.bind_iff]
    refine (outcome_procSend hcdied _ _ _ _ _).post fun r t ht => ?_
    obtain ⟨-, -, hrefused⟩ | ⟨-, q, hq, hposted⟩ := ht
    · cases (hrefused mainSlot hfind (.inr (by rw [hdied.procs, hdmain, hmstate]))).1
    · cases hfind.symm.trans hq
      have ht := hdied.posted hposted hpm
      rw [hdmain, Process.post, hmevent] at ht
      exact ht
  refine htold.post fun _ t ht => ?_
  have htp : t.procs p = { newborn pid uid with state := .zombie } := by
    rw [ht.procs, Function.update_of_ne hpm.symm, Function.update_self, hchild]
  have hnone (q : Slot) : awaits (t.procs q) (s.procs p).pid = false := by
    rw [hme, ← Bool.not_eq_true]
    intro hawaits
    simp only [awaits, Bool.and_eq_true, decide_eq_true_eq] at hawaits
    obtain ⟨⟨hstate, hflag⟩, hserver⟩ := hawaits
    rw [ht.procs] at hstate hflag hserver
    exact hpid (hserver.symm.trans ((ht.calm q hstate).2 hflag))
  apply (outcome_failClients_none hnone).post
  rintro _ t rfl
  apply (outcome_releaseFrames_none fun i => by rw [htp]; rfl).post
  rintro _ t rfl
  rw [← Function.update_idem, ← Function.update_comm hpm.symm]
  refine ht.change ?_ (.of_state (by simp)) rfl ht.current ht.queue ht.free ht.pidGen ht.desk
  rw [← ht.procs]
  change Function.update t.procs t.current { t.procs t.current with stack := _ } = _
  rw [ht.current, htp]

/-! ### The work of the server -/

theorem reply (h : Shop procs serverSlot queue free n taken s) (hc : Consistent s)
    (hm : (procs mainSlot).pid = 1) (hmstate : (procs mainSlot).state = .waiting)
    (hmserver : (procs mainSlot).server = 2)
    (hmflag : ((procs mainSlot).mboxes .reply).waiting = true)
    (hstack : (procs serverSlot).stack = none) (uid : Nat) (contents : List Byte) :
    Outcome (step (.send 2 uid 1 .reply contents)) (fun _ s' => Shop (Function.update procs mainSlot
      ((procs mainSlot).deposit .reply ⟨2, uid, contents⟩).woken) serverSlot (queue ++ [mainSlot])
      free n taken s') (fun _ _ => False) s := by
  have hfind : procFind s 1 = some mainSlot := h.find_main (by rw [hmstate]; decide) hm
  apply outcome_act (by rw [h.me, hstack]; rfl)
  unfold Action.perform
  rw [Outcome.bind_iff]
  refine (outcome_procSend hc _ _ _ _ _).post fun r t ht => ?_
  obtain ⟨-, -, hrefused⟩ | ⟨-, q, hq, hposted⟩ := ht
  · have hno := (hrefused mainSlot hfind (.inr (by rw [h.procs, hmstate]))).2
    rw [h.procs] at hno
    simp [replyRefused, hmstate, hmflag, hmserver] at hno
  · cases hfind.symm.trans hq
    have ht := h.posted hposted mainSlot_ne
    rw [Process.post, hmflag] at ht
    exact ht

theorem receive (h : Shop procs serverSlot queue free n taken s) (hc : Consistent s)
    (hstate : (procs serverSlot).state = .runnable) (hstack : (procs serverSlot).stack = none)
    (halarm : (procs serverSlot).alarmSet = false)
    (hreply : ((procs serverSlot).mboxes .reply).waiting = false) :
    Outcome (step (.recv .request 0 0 requestBuffer)) (fun _ s' =>
      (((procs serverSlot).mboxes .request).messages = [] → Shop (Function.update procs serverSlot
        ((procs serverSlot).blocked .request 0 0 ⟨0, .recv .request requestBuffer .recv⟩)) serverSlot
        queue free n taken s') ∧
      ∀ msg rest, ((procs serverSlot).mboxes .request).messages = msg :: rest → Shop
        (Function.update procs serverSlot ((procs serverSlot).taken .request)) serverSlot queue
        free n (taken ++ [msg.cut requestBuffer]) s') (fun _ _ => False) s := by
  have hprocs (proc : Process) : Function.update s.procs s.current proc =
      Function.update procs serverSlot proc := by rw [h.procs, h.current]
  apply outcome_act (by rw [h.me, hstack]; rfl)
  unfold Action.perform
  rw [Outcome.bind_iff]
  refine outcome_procRecv hc (h.running hstack hstate) (fun hempty => ?_) (fun _ hm => by cases hm)
    fun hne _ => ?_
  · rw [h.me] at hempty
    refine ⟨fun _ => h.change ?_ ?_ rfl h.current h.queue h.free h.pidGen h.desk,
      fun msg rest hmsg => by rw [hempty] at hmsg; cases hmsg⟩
    · rw [← h.me]
      exact hprocs _
    · simp [Process.Calm, Process.blocked, Process.setMbox, halarm, hreply]
  · rw [h.me] at hne
    refine ⟨fun hempty => absurd hempty hne, fun msg rest hmsg => ?_⟩
    refine h.change ?_ (.of_state ?_) rfl h.current h.queue h.free h.pidGen ?_
    · rw [← h.me]
      exact hprocs _
    · simp [Process.taken, Process.setMbox, hstate]
    · have hfirst : s.me.firstMessage .request requestBuffer = some (msg.cut requestBuffer) := by
        simp [Process.firstMessage, h.me, hmsg, Message.cut]
      change deskOf 2 (s.events ++ Message.receivedBy s.current .request requestBuffer
        (s.me.firstMessage .request requestBuffer)) = _
      rw [hfirst, h.current, deskOf_append, h.desk]
      rfl

end Shop

/-! ## Roles -/

/-- `main` between two requests. -/
structure Idle (main : Process) : Prop where
  pid : main.pid = 1
  uid : main.uid = 0
  state : main.state = .runnable
  stack : main.stack = none
  empty : (main.mboxes .reply).messages = []
  alarm : main.alarmSet = false
  event : (main.mboxes .event).waiting = false

/-- `main` while it waits for the reply. -/
structure Asking (main : Process) : Prop where
  pid : main.pid = 1
  uid : main.uid = 0
  state : main.state = .waiting
  stack : main.stack = some ⟨0, .recv .reply 100 (.rpc 2)⟩
  server : main.server = 2
  flag : (main.mboxes .reply).waiting = true
  empty : (main.mboxes .reply).messages = []
  event : (main.mboxes .event).waiting = false

/-- The server between two requests. -/
structure Awaiting (server : Process) : Prop where
  pid : server.pid = 2
  state : server.state = .waiting
  stack : server.stack = some ⟨0, .recv .request requestBuffer .recv⟩
  flag : (server.mboxes .request).waiting = true
  empty : (server.mboxes .request).messages = []
  alarm : server.alarmSet = false

/-- The server while it works, and the requests in its mailbox. -/
structure Working (server : Process) (requests : List Message) : Prop where
  pid : server.pid = 2
  state : server.state = .runnable
  alarm : server.alarmSet = false
  idle : ∀ m, (server.mboxes m).waiting = false
  requests : (server.mboxes .request).messages = requests

section

variable {main server : Process}

theorem Idle.asking (h : Idle main) : Asking (main.asking 100) := by
  constructor <;>
    simp [Process.asking, Process.blocked, Process.setMbox, h.pid, h.uid, h.empty, h.event]

theorem Asking.told (h : Asking main) (msg : Message) : Asking (main.deposit .event msg) := by
  constructor <;>
    simp [Process.deposit, Process.setMbox, h.pid, h.uid, h.state, h.stack, h.server, h.flag,
      h.empty, h.event]

theorem Asking.idle (h : Asking main) (msg : Message) :
    Idle { (main.deposit .reply msg).woken.taken .reply with stack := none } := by
  constructor <;>
    simp [Process.deposit, Process.setMbox, Process.woken, Process.taken, h.pid, h.uid, h.empty]

theorem Awaiting.working (h : Awaiting server) (msg : Message) :
    Working (server.post .request msg) [msg] := by
  unfold Process.post
  rw [if_pos h.flag]
  constructor <;> simp [Process.deposit, Process.setMbox, Process.woken, h.pid, h.empty]

theorem Working.told (h : Working server []) (msg : Message) :
    Working (server.post .request msg) [msg] := by
  unfold Process.post
  rw [h.idle, if_neg Bool.false_ne_true]
  constructor
  · exact h.pid
  · exact h.state
  · exact h.alarm
  · intro m
    rw [(Process.SameShape.deposit .request msg).2.1]
    exact h.idle m
  · simp [Process.deposit, Process.setMbox, h.requests]

theorem Working.rest {msg : Message} {requests : List Message}
    (h : Working server (msg :: requests)) : Working (server.taken .request) requests := by
  constructor
  · exact h.pid
  · exact h.state
  · exact h.alarm
  · intro m
    rw [(Process.SameShape.taken .request).2.1]
    exact h.idle m
  · simp [Process.taken, Process.setMbox, h.requests]

theorem Working.awaiting (h : Working server []) :
    Awaiting (server.blocked .request 0 0 ⟨0, .recv .request requestBuffer .recv⟩) := by
  constructor <;> simp [Process.blocked, Process.setMbox, h.pid, h.alarm, h.requests]

theorem Working.stack {requests : List Message} (h : Working server requests)
    (stack : Option Stack) : Working { server with stack := stack } requests :=
  ⟨h.pid, h.state, h.alarm, h.idle, h.requests⟩

end

/-! ## Deeds -/

/-- The shop at rest, and how far the server has come. -/
structure Scene (procs : Slot → Process) (p : Slot) (queue free : List Slot) (n : Nat)
    (taken : List Message) (done : Nat) (begun : Bool) (w : Spawning) : Prop where
  rest : AtRest .nothing w.kernel
  shop : Shop procs p queue free n taken w.kernel
  finished : w.finished = done
  begun : w.begun = begun

section

variable {procs procs' : Slot → Process} {p p' q : Slot} {queue free queue' free' : List Slot}
  {n n' done : Nat} {taken taken' : List Message} {begun : Bool} {w : Spawning}

theorem Scene.step (h : Scene procs p queue free n taken done begun w) {a : Action}
    {P : Kernel → Prop}
    (hstep : Outcome (Grass.step a) (fun _ s' => P s') (fun _ _ => False) w.kernel) :
    Outcome (Spawning.onKernel (Grass.step a)) (fun _ w' => AtRest .nothing w'.kernel ∧ P w'.kernel ∧
      w'.finished = done ∧ w'.begun = begun) (fun _ _ => False) w := by
  have hkeeps := outcome_step_keeps (I := fun _ _ => True) (fun _ _ _ => trivial)
    (honors_nothing w.kernel a) h.rest trivial
  apply outcome_onPart
  apply (hstep.both hkeeps).mono
  · exact fun _ s' hs => ⟨hs.2.1, hs.1, h.finished, h.begun⟩
  · exact fun _ _ hs => hs.1

theorem Scene.other (h : Scene procs p queue free n taken done begun w) {a : Action}
    (hp : w.permits 2 a = true)
    (hstep : Outcome (Grass.step a) (fun _ s' => Shop procs' p' queue' free' n' taken' s')
      (fun _ _ => False) w.kernel) :
    Outcome ((Deed.other a).perform 2) (fun _ w' =>
      Scene procs' p' queue' free' n' taken' done begun w') (fun _ _ => False) w := by
  unfold Deed.perform
  rw [Outcome.bind_iff, Outcome.get_iff, if_pos hp]
  exact (h.step hstep).post fun _ _ ⟨hrest, hshop, hf, hb⟩ => ⟨hrest, hshop, hf, hb⟩

/-- The request that the server is at is the last one that it has received. -/
theorem Scene.request {msg : Message}
    (h : Scene procs p queue free n (taken ++ [msg]) taken.length begun w) :
    w.request 2 = some msg := by
  rw [Spawning.request, h.shop.desk, h.finished]
  exact List.getElem?_concat_length

theorem Scene.serve {msg : Message}
    (h : Scene procs serverSlot queue (q :: free) n (taken ++ [msg]) taken.length false w)
    (hm : (procs mainSlot).pid = 1) (hmstate : (procs mainSlot).state ≠ .free)
    (hmuid : (procs mainSlot).uid = 0) {requests : List Message}
    (hv : Working (procs serverSlot) requests) (hstack : (procs serverSlot).stack = none) {uid : Nat}
    (hmsg : spawnAction 0 msg = some (.create 1 uid)) :
    Outcome ((Deed.serve 0).perform 2) (fun _ w' => AtRest .nothing w'.kernel ∧
      w' = ⟨w.kernel.spawned q free uid 1, taken.length, true⟩) (fun _ _ => False) w := by
  unfold Deed.perform
  rw [Outcome.bind_iff, Outcome.get_iff, h.request]
  dsimp only
  rw [if_pos ⟨by rw [h.shop.me, hv.pid], h.begun⟩, hmsg]
  refine (h.step (h.shop.spawn h.rest.consistent hm hmstate hmuid hv.state hstack uid)).seq ?_
  rintro _ ⟨_, _, _⟩ ⟨hrest, rfl, rfl, rfl⟩
  exact ⟨hrest, rfl⟩

theorem Scene.respond {msg : Message} {requests : List Message}
    (h : Scene procs serverSlot queue free n (taken ++ [msg]) taken.length true w)
    (hm : Asking (procs mainSlot)) (hv : Working (procs serverSlot) requests)
    (hstack : (procs serverSlot).stack = none) (hsrc : msg.src = 1) :
    Outcome ((Deed.respond []).perform 2) (fun _ w' => Scene (Function.update procs mainSlot
        ((procs mainSlot).deposit .reply ⟨2, (procs serverSlot).uid, []⟩).woken) serverSlot
      (queue ++ [mainSlot]) free n (taken ++ [msg]) (taken ++ [msg]).length false w')
      (fun _ _ => False) w := by
  unfold Deed.perform
  rw [Outcome.bind_iff, Outcome.get_iff, h.request]
  dsimp only
  rw [if_pos ⟨by rw [h.shop.me, hv.pid], h.begun⟩, hsrc, h.shop.me]
  refine (h.step (h.shop.reply h.rest.consistent hm.pid hm.state hm.server hm.flag hstack
    (procs serverSlot).uid [])).seq ?_
  rintro _ w' ⟨hrest, hshop, hf, -⟩
  refine ⟨hrest, hshop, ?_, rfl⟩
  rw [List.length_append]
  exact congrArg (· + 1) hf

theorem Scene.permits_recv {requests : List Message}
    (h : Scene procs serverSlot queue free n taken taken.length begun w)
    (hv : Working (procs serverSlot) requests) :
    w.permits 2 (.recv .request 0 0 requestBuffer) = true := by
  have hrequest : w.request 2 = none := by
    rw [Spawning.request, h.shop.desk, h.finished, List.getElem?_length]
  simp [Spawning.permits, h.shop.me, hv.pid, hrequest]

theorem outcome_cons {d : Deed} {rest : List Deed} {P : Spawning → Prop}
    {Q : Unit → Spawning → Prop} {E : Halt → Spawning → Prop}
    (h : Outcome (d.perform 2) (fun _ w' => P w') E w)
    (hrest : ∀ w', P w' → Outcome (rest.forM (Deed.perform 2)) Q E w') :
    Outcome ((d :: rest).forM (Deed.perform 2)) Q E w :=
  Outcome.seq h fun _ w' hw' => hrest w' hw'

theorem outcome_append {deeds rest : List Deed} {P : Spawning → Prop} {Q : Unit → Spawning → Prop}
    {E : Halt → Spawning → Prop} (h : Outcome (deeds.forM (Deed.perform 2)) (fun _ w' => P w') E w)
    (hrest : ∀ w', P w' → Outcome (rest.forM (Deed.perform 2)) Q E w') :
    Outcome ((deeds ++ rest).forM (Deed.perform 2)) Q E w := by
  change Outcome (ForM.forM (deeds ++ rest) _) _ _ w
  rw [List.forM_append]
  exact h.seq fun _ w' hw' => hrest w' hw'

end

/-! ## Rounds -/

/-- `main` asks for a process with the uid 5. -/
def ask : List Deed := [.other (.rpc 2 (execRequest 5) 100), .other (.wake 0)]

/-- The process that `main` asks for exits at once. -/
def round : List Deed :=
  ask ++ [.serve 0, .other (.exit 0), .other (.wake 0), .respond [],
    .other (.recv .request 0 0 requestBuffer), .other (.wake 0)]

/-- `main` runs, the server waits, and two slots are free. -/
def Open (n : Nat) (w : Spawning) : Prop :=
  ∃ procs p q free taken, Scene procs mainSlot [] (p :: q :: free) n taken taken.length false w ∧
    Idle (procs mainSlot) ∧ Awaiting (procs serverSlot)

/-- The server is at the request of `main`, and has not begun. -/
def Called (n : Nat) (w : Spawning) : Prop :=
  ∃ procs p q free taken, Scene procs serverSlot [] (p :: q :: free) n
      (taken ++ [(⟨1, 0, execRequest 5⟩ : Message).cut requestBuffer]) taken.length false w ∧
    Asking (procs mainSlot) ∧ Working (procs serverSlot) [] ∧ (procs serverSlot).stack = none

/-- The server has created a process for `main`, which runs now. -/
def Created (n : Nat) (w : Spawning) : Prop :=
  ∃ procs p q free taken, Scene procs p [serverSlot] (q :: free) (n + 1)
      (taken ++ [(⟨1, 0, execRequest 5⟩ : Message).cut requestBuffer]) taken.length true w ∧
    Asking (procs mainSlot) ∧ Working (procs serverSlot) [] ∧
    (procs serverSlot).stack = some ⟨0, .create⟩ ∧ procs p = newborn (n % 2 ^ 32) 5 ∧
    mainSlot ≠ p ∧ serverSlot ≠ p

/-- The server goes on after it has created the process. -/
def Resumed (n : Nat) (requests : List Message) (w : Spawning) : Prop :=
  ∃ procs q free taken, Scene procs serverSlot [] (q :: free) n
      (taken ++ [(⟨1, 0, execRequest 5⟩ : Message).cut requestBuffer]) taken.length true w ∧
    Asking (procs mainSlot) ∧ Working (procs serverSlot) requests ∧
    (procs serverSlot).stack = none ∧ (requests = [] → free ≠ [])

set_option maxRecDepth 8000 in
theorem spawnAction_exec : spawnAction 0 ((⟨1, 0, execRequest 5⟩ : Message).cut requestBuffer) =
    some (.create 1 5) := by
  rfl

section

variable {n : Nat} {w : Spawning} {rest : List Deed} {Q : Unit → Spawning → Prop}

theorem Open.call (hw : Open n w) : Outcome (ask.forM (Deed.perform 2)) (fun _ w' => Called n w')
    (fun _ _ => False) w := by
  obtain ⟨procs, p, q, free, taken, h, hm, hv⟩ := hw
  have hcall := h.shop.call h.rest.consistent hm.stack hm.state hm.alarm hm.empty
    (by rw [hm.pid]; decide) (by rw [hm.pid]; decide) hv.pid (.inr hv.state) (execRequest 5) 100
  rw [if_pos hv.flag, hm.pid, hm.uid] at hcall
  refine outcome_cons (h.other rfl hcall) fun w₁ h₁ => ?_
  have hmain := Function.update_self mainSlot ((procs mainSlot).asking 100) (Function.update procs
    serverSlot ((procs serverSlot).post .request ⟨1, 0, execRequest 5⟩))
  have hserver := (Function.update_of_ne mainSlot_ne.symm ((procs mainSlot).asking 100)
    (Function.update procs serverSlot ((procs serverSlot).post .request ⟨1, 0, execRequest 5⟩))).trans
      (Function.update_self _ _ _)
  generalize Function.update (Function.update procs serverSlot _) mainSlot _ = procs₁ at *
  have hm₁ := hm.asking
  have hv₁ := hv.working ⟨1, 0, execRequest 5⟩
  rw [← hmain] at hm₁
  rw [← hserver] at hv₁
  have hstack : (procs₁ serverSlot).stack = some ⟨0, .recv .request requestBuffer .recv⟩ := by
    rw [hserver, Process.post, if_pos hv.flag]
    exact hv.stack
  refine outcome_cons (h₁.other rfl (h₁.shop.turn h₁.rest.consistent
    (.inl ⟨hm₁.state, rfl, rfl⟩) (by rw [hm₁.stack]; simp) hv₁.state
    (by rw [hv₁.pid, hm₁.pid]; decide) fun t ht => ht.takes hstack hv₁.state (hv₁.idle _)
      hv₁.requests (fun _ hs => by cases hs) rfl)) fun w₂ h₂ => ?_
  refine ⟨_, p, q, free, taken, h₂, ?_, ?_, ?_⟩
  · rw [Function.update_of_ne mainSlot_ne]
    exact hm₁
  · rw [Function.update_self]
    exact hv₁.rest.stack none
  · rw [Function.update_self]

theorem Called.create (hw : Called n w) (hn : n % 2 ^ 32 ≠ 2) :
    Outcome ((Deed.serve 0).perform 2) (fun _ w' => Created n w') (fun _ _ => False) w := by
  obtain ⟨procs, p, q, free, taken, h, hm, hv, hstack⟩ := hw
  refine (h.serve hm.pid (by rw [hm.state]; decide) hm.uid hv hstack spawnAction_exec).post ?_
  rintro _ _ ⟨hrest, rfl⟩
  -- the slot of the new process is a free one
  have hfree : (procs p).state = .free := by
    rw [← h.shop.procs]
    exact (h.rest.consistent.free_iff p).mp (by rw [h.shop.free]; exact List.mem_cons_self)
  have hmp : mainSlot ≠ p := by
    rintro rfl
    rw [hm.state] at hfree
    cases hfree
  have hvp : serverSlot ≠ p := by
    rintro rfl
    rw [hv.state] at hfree
    cases hfree
  have hserver : Function.update (Function.update procs serverSlot
      { procs serverSlot with stack := some ⟨0, .create⟩ }) p (newborn (n % 2 ^ 32) 5) serverSlot =
      { procs serverSlot with stack := some ⟨0, .create⟩ } := by
    rw [Function.update_of_ne hvp, Function.update_self]
  refine ⟨_, p, q, free, taken, ⟨hrest, h.shop.spawned hv.state hvp hn 5, rfl, rfl⟩, ?_, ?_, ?_,
    Function.update_self _ _ _, hmp, hvp⟩
  · rw [Function.update_of_ne hmp, Function.update_of_ne mainSlot_ne]
    exact hm
  · rw [hserver]
    exact hv.stack _
  · rw [hserver]

theorem Created.exit (hw : Created n w) (hn : n % 2 ^ 32 ≠ 2) :
    Outcome ([.other (.exit 0), .other (.wake 0)].forM (Deed.perform 2))
      (fun _ w' => Resumed (n + 1) [] w') (fun _ _ => False) w := by
  obtain ⟨procs, p, q, free, taken, h, hm, hv, hstack, hchild, hmp, hvp⟩ := hw
  refine outcome_cons (h.other rfl (h.shop.exit h.rest.consistent hm.pid hm.state hm.event hmp hn
    hchild)) fun w₁ h₁ => ?_
  have hdead := Function.update_self p ({ newborn (n % 2 ^ 32) 5 with
    state := .zombie, stack := some ⟨0, .exit⟩ } : Process) (Function.update procs mainSlot
      ((procs mainSlot).deposit .event ⟨n % 2 ^ 32, 5, eventBytes (n % 2 ^ 32) 0⟩))
  generalize hprocs : Function.update (Function.update procs mainSlot _) p _ = procs₁ at *
  have hmain : procs₁ mainSlot = (procs mainSlot).deposit .event
      ⟨n % 2 ^ 32, 5, eventBytes (n % 2 ^ 32) 0⟩ := by
    rw [← hprocs, Function.update_of_ne hmp, Function.update_self]
  have hserver : procs₁ serverSlot = procs serverSlot := by
    rw [← hprocs, Function.update_of_ne hvp, Function.update_of_ne mainSlot_ne.symm]
  rw [← hserver] at hv hstack
  have hnext : Function.update procs₁ p (procs₁ p).released serverSlot = procs₁ serverSlot :=
    Function.update_of_ne hvp _ _
  refine outcome_cons (h₁.other rfl (h₁.shop.turn h₁.rest.consistent
    (.inr ⟨by rw [hdead], rfl, rfl⟩) (by rw [hdead]; simp) hv.state
    (by rw [hdead, hv.pid]; exact hn.symm) fun t ht =>
      ht.left (hnext ▸ hstack) (hnext ▸ hv.state))) fun w₂ h₂ => ?_
  rw [hnext] at h₂
  refine ⟨_, q, free ++ [p], taken, h₂, ?_, ?_, ?_, fun _ => by simp⟩
  · rw [Function.update_of_ne mainSlot_ne, Function.update_of_ne hmp, hmain]
    exact hm.told _
  · rw [Function.update_self]
    exact hv.stack none
  · rw [Function.update_self]

/-- The new process has the id of `main` and calls the server, which goes on. -/
theorem Created.ask (hw : Created (2 ^ 32 + 1) w) :
    Outcome ([.other (.rpc 2 (execRequest 7) 100), .other (.wake 0)].forM (Deed.perform 2))
      (fun _ w' => Resumed (2 ^ 32 + 1 + 1) [⟨1, 5, execRequest 7⟩] w') (fun _ _ => False) w := by
  obtain ⟨procs, p, q, free, taken, h, hm, hv, hstack, hchild, hmp, hvp⟩ := hw
  have hcall := h.shop.call h.rest.consistent (by rw [hchild]; rfl) (by rw [hchild]; rfl)
    (by rw [hchild]; rfl) (by rw [hchild]; rfl) (by rw [hchild]; decide) (by rw [hm.pid]; decide)
    hv.pid (.inl hv.state) (execRequest 7) 100
  rw [hv.idle, if_neg Bool.false_ne_true, hchild] at hcall
  refine outcome_cons (h.other rfl hcall) fun w₁ h₁ => ?_
  clear hcall
  have hasking := Function.update_self p ((newborn ((2 ^ 32 + 1) % 2 ^ 32) 5).asking 100)
    (Function.update procs serverSlot ((procs serverSlot).post .request ⟨1, 5, execRequest 7⟩))
  have hserver := (Function.update_of_ne hvp ((newborn ((2 ^ 32 + 1) % 2 ^ 32) 5).asking 100)
    (Function.update procs serverSlot ((procs serverSlot).post .request ⟨1, 5, execRequest 7⟩))).trans
      (Function.update_self _ _ _)
  have hmain := (Function.update_of_ne hmp ((newborn ((2 ^ 32 + 1) % 2 ^ 32) 5).asking 100)
    (Function.update procs serverSlot ((procs serverSlot).post .request ⟨1, 5, execRequest 7⟩))).trans
      (Function.update_of_ne mainSlot_ne _ _)
  change Scene (Function.update (Function.update procs serverSlot ((procs serverSlot).post .request
    ⟨1, 5, execRequest 7⟩)) p _) _ _ _ _ _ _ _ _ at h₁
  generalize Function.update (Function.update procs serverSlot _) p _ = procs₁ at *
  have hv₁ := hv.told ⟨1, 5, execRequest 7⟩
  rw [← hserver] at hv₁
  have hstack₁ : (procs₁ serverSlot).stack = some ⟨0, .create⟩ := by
    rw [hserver, Process.post, hv.idle, if_neg Bool.false_ne_true]
    exact hstack
  refine outcome_cons (h₁.other rfl (h₁.shop.turn h₁.rest.consistent
    (.inl ⟨by rw [hasking]; rfl, rfl, rfl⟩) (by rw [hasking]; simp [Process.asking, Process.blocked])
    hv₁.state (by rw [hasking, hv₁.pid]; decide) fun t ht => ht.left hstack₁ hv₁.state))
    fun w₂ h₂ => ?_
  refine ⟨_, q, free, taken, h₂, ?_, ?_, ?_, fun hempty => by cases hempty⟩
  · rw [Function.update_of_ne mainSlot_ne, hmain]
    exact hm
  · rw [Function.update_self]
    exact hv₁.stack none
  · rw [Function.update_self]

/-- The server replies and finds no other request, and `main` goes on. -/
theorem Resumed.open (hw : Resumed n [] w) :
    Outcome ([.respond [], .other (.recv .request 0 0 requestBuffer), .other (.wake 0)].forM
      (Deed.perform 2)) (fun _ w' => Open n w') (fun _ _ => False) w := by
  obtain ⟨procs, p, free, taken, h, hm, hv, hstack, hfree⟩ := hw
  obtain ⟨q, free, rfl⟩ := List.exists_cons_of_ne_nil (hfree rfl)
  refine outcome_cons (h.respond hm hv hstack rfl) fun w₁ h₁ => ?_
  have hserver := Function.update_of_ne mainSlot_ne.symm ((procs mainSlot).deposit .reply
    ⟨2, (procs serverSlot).uid, []⟩).woken procs
  have hmain := Function.update_self mainSlot ((procs mainSlot).deposit .reply
    ⟨2, (procs serverSlot).uid, []⟩).woken procs
  generalize Function.update procs mainSlot _ = procs₁ at *
  rw [← hserver] at hv hstack
  have hreceive := (h₁.shop.receive h₁.rest.consistent hv.state hstack hv.alarm (hv.idle _)).post
    fun _ _ hs => hs.1 hv.requests
  refine outcome_cons (h₁.other (h₁.permits_recv hv) hreceive) fun w₂ h₂ => ?_
  have hwaiting := Function.update_self serverSlot ((procs₁ serverSlot).blocked .request 0 0
    ⟨0, .recv .request requestBuffer .recv⟩) procs₁
  have hmain₂ := (Function.update_of_ne mainSlot_ne ((procs₁ serverSlot).blocked .request 0 0
    ⟨0, .recv .request requestBuffer .recv⟩) procs₁).trans hmain
  generalize Function.update procs₁ serverSlot _ = procs₂ at *
  have hv₂ := hv.awaiting
  rw [← hwaiting] at hv₂
  have hmsg : (((procs mainSlot).deposit .reply ⟨2, (procs serverSlot).uid, []⟩).woken.mboxes
      .reply).messages = [⟨2, (procs serverSlot).uid, []⟩] := by
    simp [Process.woken, Process.deposit, Process.setMbox, hm.empty]
  refine outcome_cons (h₂.other rfl (h₂.shop.turn h₂.rest.consistent (.inl ⟨hv₂.state, rfl, rfl⟩)
    (by rw [hv₂.stack]; simp) (by rw [hmain₂]; rfl) (by rw [hmain₂, hv₂.pid]; exact hm.pid ▸ by decide)
    fun t ht => ht.takes (by rw [hmain₂]; exact hm.stack) (by rw [hmain₂]; rfl)
      (by rw [hmain₂]; simp [Process.woken]) (by rw [hmain₂]; exact hmsg) (fun _ hs => ?_) rfl))
    fun w₃ h₃ => ?_
  · cases hs
    rfl
  rw [if_neg fun hmain => mainSlot_ne hmain.1, List.append_nil] at h₃
  refine ⟨_, p, q, free, _, h₃, ?_, ?_⟩
  · rw [Function.update_self, hmain₂]
    exact hm.idle _
  · rw [Function.update_of_ne mainSlot_ne.symm]
    exact hv₂

theorem Open.round (hw : Open n w) (hn : n % 2 ^ 32 ≠ 2) :
    Outcome (Grass.round.forM (Deed.perform 2)) (fun _ w' => Open (n + 1) w') (fun _ _ => False) w :=
  outcome_append hw.call fun _ h => outcome_cons (h.create hn) fun _ h =>
    outcome_append (h.exit hn) fun _ h => h.open

/-- Any number of rounds, as long as no process gets the id of the server. -/
theorem Open.rounds {k : Nat} (hw : Open n w) (hn : ∀ i, i < k → (n + i) % 2 ^ 32 ≠ 2) :
    Outcome ((List.replicate k Grass.round).flatten.forM (Deed.perform 2))
      (fun _ w' => Open (n + k) w') (fun _ _ => False) w := by
  induction k generalizing n w with
  | zero => exact hw
  | succ k ih =>
    rw [List.replicate_succ, List.flatten_cons]
    refine outcome_append (hw.round (hn 0 (Nat.succ_pos k))) fun w' hw' => ?_
    rw [← Nat.add_assoc, Nat.add_right_comm]
    refine ih hw' fun i hi => ?_
    rw [Nat.add_right_comm, Nat.add_assoc]
    exact hn (i + 1) (Nat.succ_lt_succ hi)

end

section

variable {w : Spawning} {deeds rest : List Deed}

/-- A run that leads somewhere leads the confinement of what follows there. -/
theorem Confines.after {P : Spawning → Prop} (h : Confines 2 (deeds ++ rest) w)
    (hrun : Outcome (deeds.forM (Deed.perform 2)) (fun _ w' => P w') (fun _ _ => False) w) :
    ∃ w', P w' ∧ Confines 2 rest w' := by
  induction deeds generalizing w with
  | nil => exact ⟨w, hrun, h⟩
  | cons d deeds ih =>
    change Outcome (d.perform 2 >>= fun _ => deeds.forM (Deed.perform 2)) _ _ w at hrun
    rw [Outcome.bind_iff] at hrun
    obtain ⟨_, w', hok, hrun'⟩ := hrun.exists_ok
    exact ih (h.ok hok).2 hrun'

end

/-! ## All ids -/

deriving instance DecidableEq for Desk

instance (proc : Process) : Decidable proc.Calm :=
  inferInstanceAs (Decidable (_ → _ ∧ (_ → _)))

/-- What a process waits for in `sys_recv`. -/
def Stack.receives : Stack → Option (MsgType × Nat)
  | ⟨0, .recv m size .recv⟩ => some (m, size)
  | _ => none

theorem Stack.eq_of_receives {stack : Stack} {m : MsgType} {size : Nat}
    (h : stack.receives = some (m, size)) : stack = ⟨0, .recv m size .recv⟩ := by
  unfold receives at h
  split at h <;> cases h
  rfl

/-- What there is when `main` has started the server. -/
def Opening (w : Spawning) : Prop :=
  let s := w.kernel
  let main := s.procs mainSlot
  let server := s.procs serverSlot
  (s.current = mainSlot ∧ s.runnable = [] ∧ 2 ≤ s.free.length ∧ s.pidGen = 3 ∧
    s.shuttingDown = false ∧ s.curfew = 0 ∧ (∀ p, (s.procs p).Calm) ∧
    deskOf 2 s.events = ⟨some serverSlot, []⟩) ∧
  (main.pid = 1 ∧ main.uid = 0 ∧ main.state = .runnable ∧ main.stack.isNone ∧
    (main.mboxes .reply).messages = [] ∧ main.alarmSet = false ∧
    (main.mboxes .event).waiting = false) ∧
  (server.pid = 2 ∧ server.state = .waiting ∧
    server.stack.bind Stack.receives = some (.request, requestBuffer) ∧
    (server.mboxes .request).waiting = true ∧ (server.mboxes .request).messages = [] ∧
    server.alarmSet = false) ∧
  w.finished = 0 ∧ w.begun = false

instance : DecidablePred Opening := fun _ => inferInstanceAs (Decidable (_ ∧ _))

theorem Opening.open {w : Spawning} (h : Opening w) (hrest : AtRest .nothing w.kernel) :
    Open 3 w := by
  obtain ⟨⟨hcurrent, hqueue, hfree, hgen, hshut, hcurfew, hcalm, hdesk⟩,
    ⟨hmpid, hmuid, hmstate, hmstack, hmempty, hmalarm, hmevent⟩,
    ⟨hvpid, hvstate, hvstack, hvflag, hvempty, hvalarm⟩, hfinished, hbegun⟩ := h
  match hslots : w.kernel.free with
  | [] | [_] => simp [hslots] at hfree
  | p :: q :: free =>
    refine ⟨_, p, q, free, [], ⟨hrest, ⟨hcalm, rfl, ⟨hshut, hcurfew⟩, hcurrent, hqueue, hslots,
      hgen, hdesk⟩, hfinished, hbegun⟩, ⟨hmpid, hmuid, hmstate,
      Option.isNone_iff_eq_none.mp hmstack, hmempty, hmalarm, hmevent⟩,
      ⟨hvpid, hvstate, ?_, hvflag, hvempty, hvalarm⟩⟩
    obtain ⟨stack, hstack, hreceives⟩ := Option.bind_eq_some_iff.mp hvstack
    rw [hstack, Stack.eq_of_receives hreceives]

section

variable {w : Spawning}

end

end Egos.Grass
