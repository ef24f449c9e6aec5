import Egos.Grass.Service
import Egos.Grass.Spawnsvr
import Egos.Grass.Strikes

/-!
# Confinement to a uid

What requests to the spawn server do to processes. The server knows a client by its id alone, and looks
for it in the table when it comes to the request. As long as the ids have not wrapped, whoever it finds
is the one that sent the request, and still waits for the reply.
-/
namespace Egos.Grass

open Egos.Lib Egos.Earth
open Egos.Spawnsvr (SpawnRequest KernelCalls SpawnWorld requestBuffer spawnProc)

set_option autoImplicit false

/-- What a message makes the spawn server do to processes, if it is such a request. -/
def spawnAction (now : Nat) (msg : Message) : Option Action :=
  let received := msg.contents.take requestBuffer
  if received.length < SpawnRequest.sizeof then none
  else
    let req := SpawnRequest.ofMemory fun i => received.getD i 0
    match req.type with
    | .exec =>
      if req.size = BitVec.ofNat 32 (received.drop SpawnRequest.sizeof).length then
        some (.create msg.src req.uid.toNat)
      else none
    | .kill => some (.kill msg.src req.pid req.status.toInt)
    | .shutdown => some (.shutdown now)
    | .getuid | .setDescr | .unused => none

/-- The kernel, how many of the requests that it has received the spawn server is done with, and
whether it has begun with the next one. -/
structure Spawning where
  kernel : Kernel
  finished : Nat
  begun : Bool

namespace Spawning

variable (spawn : Nat) (w : Spawning)

/-- The request that the server with the id `spawn` is at. -/
def request : Option Message := (deskOf spawn w.kernel.events).taken[w.finished]?

/-- What `sys_recv`, `sys_send` and the handlers let through. The spawn server receives only requests,
when it is done with the others, and sends only replies. The handlers reply for the servers of the
tty and the disk. -/
def permits : Action → Bool
  | .recv mtype _ _ size =>
    if w.kernel.me.pid = spawn then
      decide (mtype = .request) && decide (size = requestBuffer) && (w.request spawn).isNone
    else decide (mtype ≠ .reply)
  | .send srcPid srcUid _ mtype _ =>
    decide (srcPid = w.kernel.me.pid) && decide (srcUid = w.kernel.me.uid) &&
      decide (mtype ≠ .request) && decide (w.kernel.me.pid ≠ spawn)
  | .handleSend srcPid _ _ mtype _ => decide (mtype = .reply) && decide (srcPid ≠ spawn)
  | _ => true

end Spawning

abbrev SpawningM := EStateM Halt Spawning

def Spawning.onKernel {α : Type} (m : KernelM α) : SpawningM α :=
  onPart Spawning.kernel (fun w s => { w with kernel := s }) m

/-- The spawn server does what its request asks for, and then sends the reply, which a shutdown does
not have. All else that happens in the kernel is `other`. -/
inductive Deed where
  | serve (now : Nat)
  | respond (reply : List Byte)
  | other (a : Action)

/-- `spawn` is the id of the spawn server. -/
def Deed.perform (spawn : Nat) : Deed → SpawningM Unit
  | .serve now => do
    let w ← get
    match w.request spawn with
    | none => throw .disabled
    | some msg =>
      if w.kernel.me.pid = spawn ∧ w.begun = false then
        match spawnAction now msg with
        | none => modify fun w => { w with begun := true }
        | some (.shutdown now) =>
          Spawning.onKernel (step (.shutdown now))
          modify fun w => { w with finished := w.finished + 1 }
        | some a =>
          Spawning.onKernel (step a)
          modify fun w => { w with begun := true }
      else throw .disabled
  | .respond reply => do
    let w ← get
    match w.request spawn with
    | none => throw .disabled
    | some msg =>
      if w.kernel.me.pid = spawn ∧ w.begun = true then
        Spawning.onKernel (step (.send spawn w.kernel.me.uid msg.src .reply reply))
        modify fun w => { w with finished := w.finished + 1, begun := false }
      else throw .disabled
  | .other a => do
    let w ← get
    if w.permits spawn a then Spawning.onKernel (step a) else throw .disabled

/-- `proc_initialize`, before there is a server. -/
def Spawning.start (frames : Nat → Page) : Spawning := ⟨procInitialize frames, 0, false⟩

/-- The process that is born or dies has this uid. -/
def Event.Within (uid : Nat) : Event → Prop
  | .born _ _ u _ | .died _ _ u => u = uid
  | _ => True

/-- No process lives that has this id. -/
def Kernel.Gone (s : Kernel) (pid : Nat) : Prop := ∀ p, (s.procs p).Alive → (s.procs p).pid ≠ pid

/-- What a request has done from `s` to `s'`: unless its sender has the uid 0, only processes with the
uid of the sender have been born or have died, and none if the sender is dead. -/
def Confined (msg : Message) (s s' : Kernel) : Prop :=
  (msg.uid ≠ 0 → ∀ e ∈ s'.events.drop s.events.length, e.Within msg.uid) ∧
    (s.Gone msg.src → ∀ e ∈ s'.events.drop s.events.length, e.vital = false)

def Deed.Confined (spawn : Nat) : Deed → Spawning → Spawning → Prop
  | .serve _, w, w' => ∀ msg ∈ w.request spawn, Grass.Confined msg w.kernel w'.kernel
  | .respond _, _, _ | .other _, _, _ => True

/-- The spawn server never does more. -/
def Confines (spawn : Nat) : List Deed → Spawning → Prop
  | [], _ => True
  | d :: rest, w => Outcome (d.perform spawn)
      (fun _ w' => d.Confined spawn w w' ∧ Confines spawn rest w') (fun _ _ => True) w

/-- `proc_create_uid` creates no process. -/
def Kernel.Refuses (s : Kernel) (owner : Nat) : Prop :=
  s.shuttingDown = true ∨ procFind s owner = none ∨ s.free = []

/-- If the action creates a process, there is an id for it that no process has had. -/
def Action.Fresh (s : Kernel) : Action → Prop
  | .create owner _ => s.pidGen < 2 ^ 32 ∨ s.Refuses owner
  | _ => True

def Deed.Fresh (spawn : Nat) : Deed → Spawning → Prop
  | .serve now, w => ∀ msg ∈ w.request spawn, ∀ a ∈ spawnAction now msg, a.Fresh w.kernel
  | .respond _, _ => True
  | .other a, w => a.Fresh w.kernel

/-- So it is all along the run. -/
def AllFresh (spawn : Nat) : List Deed → Spawning → Prop
  | [], _ => True
  | d :: rest, w => d.Fresh spawn w ∧
      Outcome (d.perform spawn) (fun _ w' => AllFresh spawn rest w') (fun _ _ => True) w

instance (proc : Process) : Decidable proc.Alive := inferInstanceAs (Decidable (_ ∨ _))

instance (s : Kernel) (pid : Nat) : Decidable (s.Gone pid) :=
  inferInstanceAs (Decidable (∀ p, (s.procs p).Alive → (s.procs p).pid ≠ pid))

/-- The function of the kernel that an action of the spawn server stands for. -/
def Action.call {κ : Type} (k : KernelCalls κ) : Action → κ → κ
  | .create owner uid, s => (k.procCreateUid owner uid s).2
  | .kill killer pid status, s => (k.procKill killer pid status s).2
  | .shutdown _, s => (k.procShutdown s).2
  | _, s => s

/-- The code of the spawn server does this to the kernel, and nothing else. -/
theorem spawnProc_kernel {κ : Type} (k : KernelCalls κ) (now : Nat) (msg : Message)
    (w : SpawnWorld κ) : (final (spawnProc k msg w)).kernel =
      (spawnAction now msg).elim w.kernel fun a => a.call k w.kernel := by
  have hcall {α β : Type} (m : StateM κ α) (f : α → Spawnsvr.SpawnM κ β) :
      (Spawnsvr.onKernel m >>= f) w = f (m w.kernel).1 { w with kernel := (m w.kernel).2 } := rfl
  have hget {β : Type} (f : SpawnWorld κ → Spawnsvr.SpawnM κ β) :
      ((get : Spawnsvr.SpawnM κ (SpawnWorld κ)) >>= f) w = f w w := rfl
  unfold spawnProc spawnAction
  dsimp only
  split
  · rfl
  generalize (SpawnRequest.ofMemory fun i => (msg.contents.take requestBuffer).getD i 0) = req
  cases req.type with
  | exec =>
    change (final (Spawnsvr.spawnDoExec k req msg.src _ w)).kernel = _
    unfold Spawnsvr.spawnDoExec
    by_cases hsize : req.size =
        BitVec.ofNat 32 ((msg.contents.take requestBuffer).drop SpawnRequest.sizeof).length
    · rw [if_neg (not_not.mpr hsize), hcall]
      dsimp only
      rw [if_pos hsize]
      split <;> rfl
    · rw [if_pos hsize]
      dsimp only
      rw [if_neg hsize]
      rfl
  | kill =>
    change (final (Spawnsvr.spawnDoKill k req msg.src w)).kernel = _
    unfold Spawnsvr.spawnDoKill
    rw [hcall]
    split <;> rfl
  | getuid =>
    change (final (Spawnsvr.spawnDoGetuid k req msg.src w)).kernel = _
    unfold Spawnsvr.spawnDoGetuid
    rw [hget]
    cases k.procFind w.kernel req.pid <;> rfl
  | setDescr =>
    change (final (Spawnsvr.spawnDoSetDescr k req msg.src w)).kernel = _
    unfold Spawnsvr.spawnDoSetDescr
    rw [hget]
    cases k.procFind w.kernel req.pid <;> rfl
  | shutdown | unused => rfl

/-! ## Requests -/

theorem spawnAction_eq {now : Nat} {msg : Message} {a : Action} (h : spawnAction now msg = some a) :
    (∃ uid, a = .create msg.src uid) ∨ (∃ pid status, a = .kill msg.src pid status) ∨
      a = .shutdown now := by
  unfold spawnAction at h
  dsimp only at h
  split at h
  · cases h
  · split at h
    · split at h
      · exact .inl ⟨_, (Option.some.inj h).symm⟩
      · cases h
    · exact .inr (.inl ⟨_, _, (Option.some.inj h).symm⟩)
    · exact .inr (.inr (Option.some.inj h).symm)
    all_goals cases h

/-- Whom a request with this message may strike. -/
def Message.MayStrike (msg : Message) (s : Kernel) (uid : Nat) : Prop :=
  (msg.uid ≠ 0 → uid = msg.uid) ∧ ¬ s.Gone msg.src

section

variable {w : Promise} {s s' : Kernel} {msg : Message}

theorem Confined.same (hevents : s'.events = s.events) : Confined msg s s' := by
  rw [Confined, hevents, List.drop_length]
  exact ⟨fun _ _ he => absurd he List.not_mem_nil, fun _ _ he => absurd he List.not_mem_nil⟩

theorem Strikes.confined (h : Strikes (fun _ => msg.MayStrike s) True s s') : Confined msg s s' := by
  obtain ⟨new, hevents, hnew⟩ := h.events
  rw [Confined, hevents, List.drop_left]
  constructor
  · intro huid e he
    have hallowed := hnew e he
    cases e with
    | born => exact hallowed.elim
    | died => exact hallowed.1 huid
    | _ => trivial
  · intro hgone e he
    have hallowed := hnew e he
    cases e with
    | born => exact hallowed.elim
    | died => exact absurd hgone hallowed.2
    | _ => rfl

/-- The process that the server finds is the one that sent the request, and it is alive. -/
def Kernel.Knows (s : Kernel) (msg : Message) : Prop :=
  ∀ k, procFind s msg.src = some k →
    (s.procs k).Alive ∧ (s.procs k).pid = msg.src ∧ (s.procs k).uid = msg.uid

theorem confined_kill (pid : Nat) (status : Int) (hsender : s.Knows msg) :
    Outcome (step (.kill msg.src pid status)) (fun _ s' => Confined msg s s') (fun _ _ => True)
      s := by
  have hkill := @strikes_procKill (fun _ => msg.MayStrike s) s msg.src pid status
    fun p hp => by
      obtain ⟨-, k, hk, hmay⟩ := hp
      obtain ⟨halive, hpid, huid⟩ := hsender k hk
      simp only [mayKill, Bool.or_eq_true, decide_eq_true_eq] at hmay
      rw [huid] at hmay
      exact ⟨fun hne => (hmay.resolve_left hne).symm, fun hgone => hgone k halive hpid⟩
  unfold step
  rw [Outcome.bind_iff, Outcome.get_iff]
  split
  · apply hkill.seq
    intro r t ht
    split
    · exact ((Spares.enters .yield).after ht).post fun _ _ h => h.confined
    · exact ht.confined
  · trivial

theorem confined_create (hrest : AtRest w s) (uid : Nat) (hsender : s.Knows msg) :
    Outcome (step (.create msg.src uid)) (fun _ s' => Confined msg s s') (fun _ _ => True) s := by
  unfold step
  rw [Outcome.bind_iff, Outcome.get_iff]
  split
  · rename_i henabled
    have hr := hrest.ready.running (by simpa [Action.inSuspend] using henabled.symm)
    refine outcome_spawned hrest.consistent hr (fun _ => .same rfl) fun parent p rest _ hfind _ => ?_
    obtain ⟨halive, hpid, huid⟩ := hsender parent hfind
    constructor
    · intro hne e he
      rw [show (s.spawned p rest _ msg.src).events = s.events ++ _ from rfl, List.drop_left] at he
      rw [List.mem_singleton.mp he, huid, if_pos hne]
      rfl
    · exact fun hgone => absurd hpid (hgone parent halive)
  · trivial

theorem confined_step (hrest : AtRest w s) {now : Nat} {a : Action}
    (ha : spawnAction now msg = some a) (hsender : s.Knows msg) :
    Outcome (step a) (fun _ s' => Confined msg s s') (fun _ _ => True) s := by
  obtain ⟨uid, rfl⟩ | ⟨pid, status, rfl⟩ | rfl := spawnAction_eq ha
  · exact confined_create hrest uid hsender
  · exact confined_kill pid status hsender
  · unfold step
    rw [Outcome.bind_iff, Outcome.get_iff]
    split
    · exact Confined.same rfl
    · trivial

/-- A process that is refused leaves no trace. -/
theorem refused_create (hrest : AtRest w s) {owner : Nat} (uid : Nat) (h : s.Refuses owner) :
    Outcome (step (.create owner uid)) (fun _ s' => s' = s) (fun _ _ => True) s := by
  unfold step
  rw [Outcome.bind_iff, Outcome.get_iff]
  split
  · rename_i henabled
    have hr := hrest.ready.running (by simpa [Action.inSuspend] using henabled.symm)
    refine outcome_spawned hrest.consistent hr (fun _ => rfl) fun parent p rest hshut hfind hfree => ?_
    obtain hs | hs | hs := h
    · rw [hshut] at hs
      cases hs
    · rw [hfind] at hs
      cases hs
    · rw [hfree] at hs
      cases hs
  · trivial

end

/-! ## The clients of the server -/

/-- The spawn server is done with `n` requests, and knows who sent the others. -/
structure Tended (spawn n : Nat) (f : Phase) (s : Kernel) : Prop where
  calls : Calls f s
  mail : Mailboxes s
  attended : Attended spawn n f s
  ordered : Ordered spawn s

theorem Move.tended {w : Promise} {spawn n : Nat} {f f' : Phase} {s s' : Kernel}
    (hunwrapped : w.unwrapped) (hreply : w.replyToRpc) (hrequest : w.requestByRpc)
    (hmute : w.mute spawn) (hc : Consistent s) (hm : Move w f s f' s') (h : Tended spawn n f s) :
    Tended spawn n f' s' := by
  have hmail := hm.mailboxes hc h.mail
  have hattended := hm.attended hunwrapped hrequest hmute hc h.calls h.attended
  exact ⟨hm.calls hunwrapped hreply hc h.calls, hmail, hattended,
    hm.ordered hunwrapped hrequest h.calls.ids hmail h.attended hattended h.ordered⟩

/-- The kernel between two deeds. -/
structure Settled (spawn n : Nat) (s : Kernel) : Prop where
  rest : AtRest (.serving spawn) s
  tended : Tended spawn n .idle s

namespace Settled

variable {spawn n : Nat} {s : Kernel}

theorem start (spawn : Nat) (frames : Nat → Page) : Settled spawn 0 (procInitialize frames) := by
  have h := answering_procInitialize spawn frames
  exact ⟨atRest_procInitialize frames _, h.calls, h.mail, h.attended, h.ordered⟩

theorem skip (h : Settled spawn n s) : Settled spawn (n + 1) s :=
  ⟨h.rest, h.tended.calls, h.tended.mail, h.tended.attended.mono (Nat.le_succ n), h.tended.ordered⟩

/-- A request that the running server has received is one that reached its mailbox. -/
theorem taken (h : Settled spawn n s) {msg : Message} (hme : s.me.pid = spawn)
    (hstack : s.me.stack = none) {k : Nat} (hmsg : (deskOf spawn s.events).taken[k]? = some msg) :
    ∃ msg' size, (requestsTo s.events s.current)[k]? = some msg' ∧ msg = msg'.cut size := by
  have halive : (s.procs s.current).Alive := .inl (h.rest.ready.running hstack).state
  obtain ⟨-, htaken⟩ := h.tended.ordered.staffed s.current halive hme
  rw [← htaken] at hmsg
  exact (h.tended.mail.delivered s.current .request halive).received hmsg

/-- The sender of a request that is not answered yet is waiting for the reply. -/
theorem knows (h : Settled spawn n s) {msg : Message} (hme : s.me.pid = spawn)
    (hstack : s.me.stack = none) (hmsg : (deskOf spawn s.events).taken[n]? = some msg) :
    s.Knows msg := by
  intro k hk
  obtain ⟨hused, hpid⟩ := procFind_some hk
  have hrunning := (h.rest.ready.running hstack).state
  obtain ⟨msg', size, hmsg', rfl⟩ := h.taken hme hstack hmsg
  obtain ⟨hpendent, -⟩ := (h.tended.attended.serving s.current (.inl hrunning) hme).pending n msg' k
    (Nat.le_refl n) hmsg' hused hpid
  refine ⟨?_, hpid, hpendent.uid⟩
  obtain hwaiting | ⟨-, rfl | hf | ⟨i, hf⟩⟩ := hpendent.state
  · exact .inr hwaiting
  · exact absurd hrunning hpendent.not_runnable
  · cases hf
  · cases hf

theorem step (h : Settled spawn n s) {a : Action} (hh : Honors (.serving spawn) s a) :
    Outcome (step a) (fun _ s' => Settled spawn n s') (fun _ _ => True) s := by
  have hmove : ∀ {f f' : Phase} {s s' : Kernel}, Consistent s → Move (.serving spawn) f s f' s' →
      Tended spawn n f s → Tended spawn n f' s' :=
    fun hc hm ht => hm.tended trivial trivial trivial rfl hc ht
  apply (outcome_step_keeps hmove hh h.rest h.tended).mono
  · exact fun _ s' hs => ⟨hs.1, hs.2⟩
  · exact fun _ _ _ => trivial

theorem respond (h : Settled spawn n s) {msg : Message} (hme : s.me.pid = spawn)
    (hmsg : (deskOf spawn s.events).taken[n]? = some msg) (uid : Nat) (reply : List Byte) :
    Outcome (Grass.step (.send spawn uid msg.src .reply reply))
      (fun _ s' => Settled spawn (n + 1) s') (fun _ _ => True) s := by
  unfold Grass.step
  rw [Outcome.bind_iff, Outcome.get_iff]
  split
  swap
  · trivial
  rename_i henabled
  have hstack : s.me.stack = none := by
    simpa [Action.inSuspend] using henabled.symm
  have hrunning := h.rest.ready.running hstack
  have hc := h.rest.consistent
  unfold Action.perform
  rw [Outcome.bind_iff]
  refine (outcome_procSend hc _ _ _ _ _).post fun r t ht => ?_
  obtain ⟨-, rfl, -⟩ | ⟨-, q, hfind, hposted⟩ := ht
  · exact h.skip
  · obtain ⟨msg', size, hmsg', rfl⟩ := h.taken hme hstack hmsg
    have hm : Move .rpc .idle s .idle t := .post hposted ⟨fun _ hw => hw, by simp⟩
    have hk : Kept s t := .posted hposted
    have hcalm : Calm s t [.accepted q .reply ⟨spawn, uid, reply⟩] :=
      ⟨hposted.events, by simp [Event.opens], hk.pid, fun p => (hk.alive p).mp, hk.pidGen, by simp⟩
    have hattended := h.tended.attended.replied h.tended.calls.ids (.inl hrunning.state) hme hmsg'
      (procFind_some hfind).2 hposted
    have hmail := hm.mailboxes hc h.tended.mail
    exact ⟨⟨hc.posted hposted, (hposted.running hrunning).ready, h.rest.pending.posted hposted⟩,
      hm.calls trivial trivial hc h.tended.calls, hmail, hattended,
      h.tended.ordered.calm hcalm hmail hattended⟩

end Settled

/-! ## Runs -/

/-- An action that does not reply in the name of the server keeps the promise. -/
theorem Spawning.honors {spawn : Nat} {w : Spawning} {a : Action} (hp : w.permits spawn a = true)
    (hfresh : ∀ owner uid, a = .create owner uid → w.kernel.pidGen < 2 ^ 32) :
    Honors (.serving spawn) w.kernel a where
  create _ _ _ hw := hw.elim
  ids owner uid ha _ := hfresh owner uid ha
  recv maxTime now size ha := by
    subst ha
    simp only [permits] at hp
    split at hp <;> simp at hp
  send src uid dst m contents ha := by
    subst ha
    simp only [permits, Bool.and_eq_true, decide_eq_true_eq] at hp
    obtain ⟨⟨⟨rfl, -⟩, hm⟩, hme⟩ := hp
    exact ⟨fun _ => hme, fun hrequest => absurd hrequest hm⟩
  handleSend src uid dst m contents ha := by
    subst ha
    simp only [permits, Bool.and_eq_true, decide_eq_true_eq] at hp
    obtain ⟨rfl, hne⟩ := hp
    exact ⟨fun _ => hne, by simp⟩
  copy _ _ _ hw := hw
  exec _ _ _ _ := trivial

theorem spawnAction_permits {now : Nat} {msg : Message} {a : Action}
    (h : spawnAction now msg = some a) (spawn : Nat) (w : Spawning) : w.permits spawn a = true := by
  obtain ⟨uid, rfl⟩ | ⟨pid, status, rfl⟩ | rfl := spawnAction_eq h <;> rfl

section

variable {spawn : Nat} {w : Spawning}

/-- An action that is permitted, whether it creates a process or not. -/
theorem Settled.action (h : Settled spawn w.finished w.kernel) {a : Action}
    (hp : w.permits spawn a = true) (hfresh : a.Fresh w.kernel) :
    Outcome (Grass.step a) (fun _ s' => Settled spawn w.finished s') (fun _ _ => True) w.kernel := by
  by_cases hrefused : ∃ owner uid, a = .create owner uid ∧ w.kernel.Refuses owner
  · obtain ⟨owner, uid, rfl, hrefuses⟩ := hrefused
    exact (refused_create h.rest uid hrefuses).post fun _ s' hs => hs ▸ h
  · apply h.step
    apply Spawning.honors hp
    rintro owner uid rfl
    exact hfresh.resolve_right fun hrefuses => hrefused ⟨owner, uid, rfl, hrefuses⟩

theorem Settled.serve (h : Settled spawn w.finished w.kernel) {now : Nat} {msg : Message}
    (hme : w.kernel.me.pid = spawn) (hmsg : w.request spawn = some msg) {a : Action}
    (ha : spawnAction now msg = some a) (hfresh : a.Fresh w.kernel) :
    Outcome (Grass.step a) (fun _ s' => Confined msg w.kernel s' ∧ Settled spawn w.finished s')
      (fun _ _ => True) w.kernel := by
  by_cases hstack : w.kernel.me.stack = none
  · have hconfined := confined_step h.rest ha (h.knows hme hstack hmsg)
    exact (hconfined.both (h.action (spawnAction_permits ha spawn w) hfresh)).mono
      (fun _ _ hs => hs) fun _ _ _ => trivial
  · have hin : a.inSuspend = false := by
      obtain ⟨uid, rfl⟩ | ⟨pid, status, rfl⟩ | rfl := spawnAction_eq ha <;> rfl
    unfold Grass.step
    rw [Outcome.bind_iff, Outcome.get_iff, if_neg (by simpa [hin, Option.isSome_iff_ne_none])]
    trivial

theorem outcome_onKernel {m : KernelM Unit} {P : Kernel → Prop}
    (h : Outcome m (fun _ s' => P s') (fun _ _ => True) w.kernel) :
    Outcome (Spawning.onKernel m) (fun _ w' => P w'.kernel ∧ w'.finished = w.finished)
      (fun _ _ => True) w :=
  outcome_onPart (h.post fun _ _ hs => ⟨hs, rfl⟩)

theorem Settled.perform (h : Settled spawn w.finished w.kernel) {d : Deed}
    (hd : d.Fresh spawn w) :
    Outcome (d.perform spawn)
      (fun _ w' => d.Confined spawn w w' ∧ Settled spawn w'.finished w'.kernel)
      (fun _ _ => True) w := by
  cases d with
  | serve now =>
    unfold Deed.perform
    rw [Outcome.bind_iff, Outcome.get_iff]
    cases hmsg : w.request spawn with
    | none => trivial
    | some msg =>
      have hone {w' : Spawning} (hs : Grass.Confined msg w.kernel w'.kernel) :
          (Deed.serve now).Confined spawn w w' := by
        intro msg' hmsg'
        rw [hmsg] at hmsg'
        cases hmsg'
        exact hs
      dsimp only
      split
      · rename_i hme
        cases ha : spawnAction now msg with
        | none => exact ⟨hone (.same rfl), h⟩
        | some a =>
          have hserve := h.serve hme.1 hmsg ha (hd msg hmsg a ha)
          cases a with
          | shutdown now =>
            apply Outcome.seq (outcome_onKernel hserve)
            rintro _ w' ⟨⟨hs, hsettled⟩, hfinished⟩
            rw [← hfinished] at hsettled
            exact ⟨hone hs, hsettled.skip⟩
          | _ =>
            apply Outcome.seq (outcome_onKernel hserve)
            rintro _ w' ⟨⟨hs, hsettled⟩, hfinished⟩
            exact ⟨hone hs, hfinished ▸ hsettled⟩
      · trivial
  | respond reply =>
    unfold Deed.perform
    rw [Outcome.bind_iff, Outcome.get_iff]
    cases hmsg : w.request spawn with
    | none => trivial
    | some msg =>
      dsimp only
      split
      · rename_i hme
        apply Outcome.seq (outcome_onKernel (h.respond hme.1 hmsg w.kernel.me.uid reply))
        rintro _ w' ⟨hsettled, hfinished⟩
        rw [← hfinished] at hsettled
        exact ⟨trivial, hsettled⟩
      · trivial
  | other a =>
    unfold Deed.perform
    rw [Outcome.bind_iff, Outcome.get_iff]
    split
    · rename_i hp
      apply (outcome_onKernel (h.action hp hd)).post
      rintro _ w' ⟨hsettled, hfinished⟩
      exact ⟨trivial, hfinished ▸ hsettled⟩
    · trivial

theorem Settled.run (h : Settled spawn w.finished w.kernel) {deeds : List Deed}
    (hd : AllFresh spawn deeds w) :
    Outcome (deeds.forM (Deed.perform spawn)) (fun _ w' => Settled spawn w'.finished w'.kernel)
      (fun _ _ => True) w := by
  induction deeds generalizing w with
  | nil => exact h
  | cons d rest ih =>
    change Outcome (d.perform spawn >>= fun _ => rest.forM (Deed.perform spawn)) _ _ w
    rw [Outcome.bind_iff]
    apply ((h.perform hd.1).both hd.2).mono
    · exact fun _ w' hs => ih hs.1.2 hs.2
    · exact fun _ _ _ => trivial

theorem grows_onKernel {n : Nat} (hrest : AtRest .nothing w.kernel) (hn : n ≤ w.kernel.pidGen)
    (a : Action) : Outcome (Spawning.onKernel (Grass.step a))
      (fun _ w' => AtRest .nothing w'.kernel ∧ n ≤ w'.kernel.pidGen) (fun _ _ => True) w :=
  outcome_onPart ((outcome_step_keeps (I := fun _ s => n ≤ s.pidGen)
    (fun _ hm hle => hle.trans hm.pidGen_le) (honors_nothing _ a) hrest hn).mono
      (fun _ _ hs => hs) fun _ _ _ => trivial)

theorem Deed.grows {n : Nat} (hrest : AtRest .nothing w.kernel) (hn : n ≤ w.kernel.pidGen)
    (d : Deed) : Outcome (d.perform spawn)
      (fun _ w' => AtRest .nothing w'.kernel ∧ n ≤ w'.kernel.pidGen) (fun _ _ => True) w := by
  have hone := grows_onKernel hrest hn
  cases d with
  | serve now =>
    unfold Deed.perform
    rw [Outcome.bind_iff, Outcome.get_iff]
    split
    · trivial
    · split
      · split
        · exact ⟨hrest, hn⟩
        · exact (hone _).seq fun _ _ hs => hs
        · exact (hone _).seq fun _ _ hs => hs
      · trivial
  | respond reply =>
    unfold Deed.perform
    rw [Outcome.bind_iff, Outcome.get_iff]
    split
    · trivial
    · split
      · exact (hone _).seq fun _ _ hs => hs
      · trivial
  | other a =>
    unfold Deed.perform
    rw [Outcome.bind_iff, Outcome.get_iff]
    split
    · exact hone a
    · trivial

end

/-- A request to start a process with this uid, whose arguments are no more than the environment. -/
def execRequest (uid : Byte) : List Byte :=
  wordBytes 1 ++ wordBytes 0 ++ wordBytes 0 ++ wordBytes Spawnsvr.grassEnvSize ++
    [1, 0, 0, 0, uid, 0, 0, 0] ++ List.replicate Spawnsvr.grassEnvSize 0

end Egos.Grass
