import Egos.Grass.Machine

/-!
# The elementary changes of the kernel

Every function of the kernel changes its state by a few kinds of moves: a message is
deposited, a waiting process is woken, a process dies, a slot is released, the processor
changes hands, a page is mapped. `Move` lists them with what is known when each one is made,
so that an invariant of the kernel is shown once for each move. `proc_term` and
`proc_pagefault` leave things undone for a while, and `Phase` says how far they have come.
-/
namespace Egos.Grass

open Egos.Lib Egos.Earth

set_option autoImplicit false

/-- The progress of `proc_term`, where the others are told of the death of `p` and then the
pages of `p` are given back, so far those below `i`, and of `proc_pagefault`, where a page of
the running process has a frame that has to be filled and then mapped. -/
inductive Phase where
  | idle
  | notify (p : Slot)
  | release (p : Slot) (i : Nat)
  | taken (page : Nat)
  | filled (page : Nat)

/-- What a run may promise of its actions. -/
structure Promise where
  /-- a process that creates another one has no pages -/
  bareCreator : Prop
  /-- only `sys_rpc` waits for a reply -/
  replyToRpc : Prop
  /-- only `sys_rpc` sends a request -/
  requestByRpc : Prop
  /-- a process is created only while the ids have not wrapped -/
  unwrapped : Prop
  /-- no reply is sent under this id -/
  mute : Nat → Prop
  /-- the kernel does not write to this page of an executable, which is read-only -/
  shielded : Header → Nat → Prop
  readOnly : ∀ hdr page, shielded hdr page →
    ∃ es, hdr.segment page = some es ∧ es.prot.write = false
  /-- the executables that are started have such headers -/
  header : Header → Prop

/-- The promise lets a message of this type be sent under this id. -/
def Promise.Allows (w : Promise) (m : MsgType) (src : Nat) : Prop :=
  (m = .reply → ¬ w.mute src) ∧ (m = .request → ¬ w.requestByRpc)

namespace Process

def deposit (proc : Process) (mtype : MsgType) (msg : Message) : Process :=
  proc.setMbox mtype
    { proc.mboxes mtype with messages := (proc.mboxes mtype).messages ++ [msg] }

def woken (proc : Process) : Process :=
  { proc with
    state := .runnable
    alarmSet := false
    mboxes := fun m => { proc.mboxes m with waiting := false } }

def released (proc : Process) : Process :=
  { proc with
    state := .free
    mboxes := fun m => { proc.mboxes m with messages := [] } }

/-- Waiting for a message, with the alarm that `proc_recv` set. -/
def blocked (proc : Process) (mtype : MsgType) (maxTime now : Nat) (stack : Stack) : Process :=
  { proc.setMbox mtype { proc.mboxes mtype with waiting := true } with
    state := .waiting
    exptime := if maxTime = 0 then proc.exptime else now + maxTime
    alarmSet := if maxTime = 0 then proc.alarmSet else true
    stack := some stack }

/-- Without its first message. -/
def taken (proc : Process) (mtype : MsgType) : Process :=
  proc.setMbox mtype { proc.mboxes mtype with messages := (proc.mboxes mtype).messages.tail }

/-- What `proc_recv` would return. -/
def firstMessage (proc : Process) (mtype : MsgType) (size : Nat) : Option Message :=
  (proc.mboxes mtype).messages.head?.map fun msg =>
    { msg with contents := msg.contents.take size }

end Process

def Message.receivedBy (p : Slot) (mtype : MsgType) (size : Nat) : Option Message → List Event
  | none => []
  | some msg => [.received p mtype size msg]

/-- The event at the end of an RPC. -/
def Purpose.answered (p : Slot) (reply : Option Message) : Purpose → List Event
  | .recv => []
  | .rpc server | .frame server _ => [.answered p server reply]

namespace Kernel

section SetProc

variable (s : Kernel) (p q : Slot) (proc : Process)

theorem setProc_procs : (s.setProc p proc).procs q = if q = p then proc else s.procs q :=
  Function.update_apply _ _ _ _

theorem setProc_state : ((s.setProc p proc).procs q).state =
    if q = p then proc.state else (s.procs q).state := by
  rw [setProc_procs, apply_ite Process.state]

theorem setProc_stack : ((s.setProc p proc).procs q).stack =
    if q = p then proc.stack else (s.procs q).stack := by
  rw [setProc_procs, apply_ite Process.stack]

end SetProc

def deposited (s : Kernel) (p : Slot) (mtype : MsgType) (msg : Message) : Kernel :=
  (s.setProc p ((s.procs p).deposit mtype msg)).emit (.accepted p mtype msg)

def awake (s : Kernel) (p : Slot) : Kernel :=
  { s.setProc p (s.procs p).woken with
    nrunnable := s.nrunnable + 1
    runnable := if p = s.current then s.runnable else s.runnable ++ [p] }

def died (s : Kernel) (p : Slot) : Kernel :=
  { (s.setProc p { s.procs p with state := .zombie }).emit
      (.died p (s.procs p).pid (s.procs p).uid) with
    nrunnable := if (s.procs p).state = .runnable then s.nrunnable - 1 else s.nrunnable }

def released (s : Kernel) (p : Slot) : Kernel :=
  { s.setProc p (s.procs p).released with
    nprocs := s.nprocs - 1
    free := s.free ++ [p] }

/-- The running process is put back in the queue or released. -/
def parked (s : Kernel) (rest : List Slot) : Kernel :=
  match s.me.state with
  | .runnable => { s with runnable := rest ++ [s.current] }
  | .zombie => { s with runnable := rest }.released s.current
  | _ => { s with runnable := rest }

def switched (s : Kernel) (next : Slot) (rest : List Slot) : Kernel :=
  { s.parked rest with mmu := s.mmu.flush, current := next }

def spawned (s : Kernel) (p : Slot) (rest : List Slot) (uid owner : Nat) : Kernel :=
  let pid := s.pidGen % 2 ^ 32
  { (((s.setStack s.current (some ⟨0, .create⟩)).setProc p { Process.zero with
      pid := pid
      uid := uid
      owner := owner
      state := .runnable }).emit (.born p pid uid owner)) with
    free := rest
    pidGen := s.pidGen + 1
    nprocs := s.nprocs + 1
    nrunnable := s.nrunnable + 1
    runnable := s.runnable ++ [s.current]
    current := p }

def blocked (s : Kernel) (mtype : MsgType) (maxTime now : Nat) (stack : Stack) : Kernel :=
  { s.setProc s.current (s.me.blocked mtype maxTime now stack) with
    nrunnable := s.nrunnable - 1 }

def taken (s : Kernel) (mtype : MsgType) (size : Nat) : Kernel :=
  { s.setProc s.current (s.me.taken mtype) with
    events := s.events ++
      Message.receivedBy s.current mtype size (s.me.firstMessage mtype size) }

def resumed (s : Kernel) (mtype : MsgType) (size : Nat) (purpose : Purpose) : Kernel :=
  { s.setProc s.current { s.me.taken mtype with stack := none } with
    events := s.events ++
      Message.receivedBy s.current mtype size (s.me.firstMessage mtype size) ++
      purpose.answered s.current (s.me.firstMessage mtype size) }

def requested (s : Kernel) (server : Nat) : Kernel :=
  (s.setProc s.current { s.me with server := server }).emit (.requested s.current server)

/-- The request of an RPC has been sent, and the client waits for the reply. -/
def called (s : Kernel) (server size : Nat) (purpose : Purpose) : Kernel :=
  (s.requested server).blocked .reply 0 0 ⟨0, .recv .reply size purpose⟩

def frameTaken (s : Kernel) (page frame : Nat) (rest : List Nat) : Kernel :=
  { s.setProc s.current { s.me with
      pages := Function.update s.me.pages page (some frame) } with
    freeframes := rest }

def filled (s : Kernel) (page frame : Nat) (contents : Page) : Kernel :=
  { s.emit (.filled s.current s.me.executable s.me.hdr page contents) with
    mmu := { s.mmu with frames := Function.update s.mmu.frames frame contents } }

def mapped (s : Kernel) (index : Fin tlbSize) (page frame : Nat) (prot : Prot) : Kernel :=
  { s with mmu := s.mmu.map index page frame prot }

def poked (s : Kernel) (virt : Nat) (byte : Byte) : Kernel :=
  { s.emit (.stored s.current virt byte) with
    mmu := { s.mmu with
      memory := Function.update s.mmu.memory (virt / pageSize)
        (Function.update (s.mmu.memory (virt / pageSize))
          ⟨virt % pageSize, mod_pageSize_lt virt⟩ byte) } }

def peeked (s : Kernel) (virt : Nat) : Kernel :=
  s.emit (.loaded s.current virt
    (s.mmu.memory (virt / pageSize) ⟨virt % pageSize, mod_pageSize_lt virt⟩))

end Kernel

/-- A process that can still receive messages. -/
def Process.Alive (proc : Process) : Prop := proc.state = .runnable ∨ proc.state = .waiting

/-- The address lies in the virtual range and the hardware permits the access. -/
def Permitted (s : Kernel) (virt : Nat) (allows : Prot → Bool) : Prop :=
  virtBase ≤ virt ∧ virt < virtTop ∧ allows (s.mmu.access (virt / pageSize)) = true

/-- The protection of a mapping that `proc_pagefault` makes. -/
def mapProt (proc : Process) (virt : Nat) (access : Access) : Prot :=
  if access = .read then
    match proc.hdr.segment (virt / pageSize) with
    | some es => if es.prot.exec then Prot.rx else Prot.r
    | none => Prot.r
  else Prot.rw

namespace Purpose

/-- The server of an RPC. -/
def server : Purpose → Option Nat
  | .recv => none
  | .rpc server => some server
  | .frame server _ => some server

def fault : Purpose → Option Fault
  | .frame _ fault => some fault
  | _ => none

/-- A fault that waits for its page has taken the frame. -/
def phase : Purpose → Phase
  | .frame _ fault => .taken (relPage fault.virt)
  | _ => .idle

end Purpose

/-- Whether the event begins a new life or a new RPC in the slot. -/
def Event.begins (p : Slot) : Event → Bool
  | .born q _ _ _ => decide (q = p)
  | .requested q _ => decide (q = p)
  | _ => false

/-- The last RPC of `p` asked `server` for `contents`; then came the events `later`. -/
structure Asked (p : Slot) (server : Nat) (contents : List Byte) (events later : List Event) :
    Prop where
  request : ∃ past q pid uid, events = past ++
    [.accepted q .request ⟨pid, uid, contents⟩, .requested p server] ++ later
  last : ∀ e ∈ later, e.begins p = false

theorem Asked.append {p : Slot} {server : Nat} {contents : List Byte} {events later : List Event}
    (h : Asked p server contents events later) {new : List Event}
    (hnew : ∀ e ∈ new, e.begins p = false) :
    Asked p server contents (events ++ new) (later ++ new) := by
  obtain ⟨past, q, pid, uid, he⟩ := h.request
  refine ⟨⟨past, q, pid, uid, by rw [he, List.append_assoc]⟩, fun e hmem => ?_⟩
  obtain hl | hn := List.mem_append.mp hmem
  · exact h.last e hl
  · exact hnew e hn

/-- What `frame_init` asks for to fill a page. -/
def ReadsPage (proc : Process) (page server : Nat) (contents : List Byte) : Prop :=
  server = proc.executable.server ∧ ∃ offset,
    fileOffset page proc.hdr.segments proc.hdr.offset = some offset ∧
      contents = fileReadRequest proc.executable.fileNo offset pageSize

/-- The contents that the header assigns to a page: zeros, or what the file server has just
returned for the position of the page in the executable. -/
def Assigned (events : List Event) (p : Slot) (executable : FileId) (hdr : Header) (page : Nat)
    (contents : Page) : Prop :=
  match fileOffset page hdr.segments hdr.offset with
  | none => contents = fun _ => 0
  | some offset => ∃ before later reply data,
      events = before ++ [.answered p executable.server (some reply)] ∧
      Asked p executable.server (fileReadRequest executable.fileNo offset pageSize) before later ∧
      fileReadData reply.contents = some data ∧ contents = pageOf data

/-- What is known of a fault that waits for its page. -/
structure Fault.Legal (w : Promise) (proc : Process) (fault : Fault) : Prop where
  index : fault.index = none
  low : virtBase ≤ fault.virt
  top : fault.virt < virtTop
  shield : w.shielded proc.hdr (fault.virt / pageSize) → fault.access = .read

/-- A message has reached the mailbox of a process. -/
inductive Posted (s : Kernel) (p : Slot) (m : MsgType) (msg : Message) : Kernel → Prop where
  | kept (halive : (s.procs p).Alive) (hidle : ((s.procs p).mboxes m).waiting = false)
      (hm : m ≠ .reply) : Posted s p m msg (s.deposited p m msg)
  | woke (hstate : (s.procs p).state = .waiting) (hwait : ((s.procs p).mboxes m).waiting = true)
      (hreply : m = .reply → (s.procs p).server = msg.src) :
      Posted s p m msg ((s.deposited p m msg).awake p)

namespace Posted

variable {s s' : Kernel} {p q : Slot} {m : MsgType} {msg : Message}

theorem other (h : Posted s p m msg s') (hq : q ≠ p) : s'.procs q = s.procs q := by
  have hdep : (s.deposited p m msg).procs q = s.procs q := Function.update_of_ne hq _ _
  cases h with
  | kept => exact hdep
  | woke =>
    rw [← hdep]
    exact Function.update_of_ne hq _ _

theorem current (h : Posted s p m msg s') : s'.current = s.current := by cases h <;> rfl

theorem me (h : Posted s p m msg s') (hp : p ≠ s.current) : s'.me = s.me := by
  rw [Kernel.me, h.current]
  exact h.other (Ne.symm hp)

theorem alive (h : Posted s p m msg s') : (s.procs p).Alive := by
  cases h with
  | kept halive => exact halive
  | woke hstate => exact .inr hstate

theorem events (h : Posted s p m msg s') : s'.events = s.events ++ [.accepted p m msg] := by
  cases h <;> rfl

end Posted

theorem Kernel.setStack_me (s : Kernel) (stack : Option Stack) :
    (s.setStack s.current stack).me = { s.me with stack := stack } :=
  Function.update_self s.current _ s.procs

theorem Kernel.requested_me (s : Kernel) (server : Nat) :
    (s.requested server).me = { s.me with server := server } :=
  Function.update_self s.current _ s.procs

theorem Kernel.died_not_alive (s : Kernel) (p : Slot) : ¬((s.died p).procs p).Alive := by
  rw [show (s.died p).procs p = { s.procs p with state := .zombie } from
    Function.update_self _ _ _]
  rintro (h | h)
  · cases h
  · cases h

theorem Process.released_not_alive (proc : Process) : ¬ proc.released.Alive := by
  intro h
  obtain h | h := h <;> cases h

theorem Kernel.parked_procs (s : Kernel) (rest : List Slot) (p : Slot) :
    (s.parked rest).procs p = s.procs p ∨
      s.me.state = .zombie ∧ p = s.current ∧ (s.parked rest).procs p = s.me.released := by
  unfold Kernel.parked
  split
  · exact .inl rfl
  · rename_i hz
    by_cases hp : p = s.current
    · subst hp
      exact .inr ⟨hz, rfl, Function.update_self _ _ _⟩
    · exact .inl (Function.update_of_ne hp _ _)
  · exact .inl rfl

theorem Kernel.parked_events (s : Kernel) (rest : List Slot) :
    (s.parked rest).events = s.events := by
  unfold Kernel.parked
  split <;> rfl

theorem Kernel.called_procs (s : Kernel) (server size : Nat) (purpose : Purpose) :
    (s.called server size purpose).procs = Function.update s.procs s.current
      ({ s.me with server := server }.blocked .reply 0 0 ⟨0, .recv .reply size purpose⟩) := by
  simp [Kernel.called, Kernel.requested, Kernel.blocked, Kernel.setProc, Kernel.emit, Kernel.me]

theorem receivedBy_begins {p q : Slot} {m : MsgType} {size : Nat} {msg : Option Message}
    {e : Event} (h : e ∈ Message.receivedBy p m size msg) : e.begins q = false := by
  cases msg with
  | none => cases h
  | some msg =>
    rw [List.mem_singleton.mp h]
    rfl

theorem answered_begins {p q : Slot} {purpose : Purpose} {msg : Option Message} {e : Event}
    (h : e ∈ purpose.answered p msg) : e.begins q = false := by
  cases purpose with
  | recv => cases h
  | rpc | frame =>
    rw [List.mem_singleton.mp h]
    rfl

/-- What is known when the running process creates another one. -/
structure Spawns (w : Promise) (s : Kernel) (p parent : Slot) (rest : List Slot) (uid owner : Nat) :
    Prop where
  free : s.free = p :: rest
  stack : s.me.stack = none
  state : s.me.state = .runnable
  found : procFind s owner = some parent
  inherits : (s.procs parent).uid ≠ 0 → uid = (s.procs parent).uid
  bare : w.bareCreator → ∀ i, i < virtPages → s.me.pages i = none
  ids : w.unwrapped → s.pidGen < 2 ^ 32

inductive Move (w : Promise) : Phase → Kernel → Phase → Kernel → Prop where
  | post {f : Phase} {s s' : Kernel} {p : Slot} {m : MsgType} {msg : Message}
      (hposted : Posted s p m msg s') (hallows : w.Allows m msg.src) : Move w f s f s'
  | wake {f : Phase} {s : Kernel} {p : Slot} (hstate : (s.procs p).state = .waiting)
      (hwhy : (s.procs p).alarmSet = true ∨
        ∃ q, f = .notify q ∧ awaits (s.procs p) (s.procs q).pid = true) :
      Move w f s f (s.awake p)
  | die {s : Kernel} {p : Slot} (halive : (s.procs p).Alive) :
      Move w .idle s (.notify p) (s.died p)
  | swept {s : Kernel} {p : Slot}
      (hnone : ∀ q, awaits (s.procs q) (s.procs p).pid = false) :
      Move w (.notify p) s (.release p 0) s
  | keepPage {s : Kernel} {p : Slot} {i : Nat} (hpage : (s.procs p).pages i = none) :
      Move w (.release p i) s (.release p (i + 1)) s
  | freePage {s : Kernel} {p : Slot} {i frame : Nat} (hlt : i < virtPages)
      (hpage : (s.procs p).pages i = some frame) :
      Move w (.release p i) s (.release p (i + 1)) { s with
        mmu := s.mmu.unmap (absPage i)
        freeframes := s.freeframes ++ [frame] }
  | termed {s : Kernel} {p : Slot}
      (hdone : p = s.current ∨ ∀ m, ((s.procs p).mboxes m).waiting = false) :
      Move w (.release p virtPages) s .idle s
  | release {s : Kernel} {p : Slot} (hzombie : (s.procs p).state = .zombie)
      (hcurrent : p ≠ s.current) (hqueue : p ∉ s.runnable) :
      Move w (.release p virtPages) s .idle (s.released p)
  | reap {s : Kernel} {p : Slot} {rest : List Slot} (hqueue : s.runnable = p :: rest)
      (hzombie : (s.procs p).state = .zombie) :
      Move w .idle s .idle ({ s with runnable := rest }.released p)
  | switch {s : Kernel} {next : Slot} {rest : List Slot} (hqueue : s.runnable = next :: rest)
      (hstate : (s.procs next).state = .runnable) (hstack : s.me.stack ≠ none) :
      Move w .idle s .idle (s.switched next rest)
  | spawn {s : Kernel} {p parent : Slot} {rest : List Slot} {uid owner : Nat}
      (h : Spawns w s p parent rest uid owner) :
      Move w .idle s .idle (s.spawned p rest uid owner)
  | enter {s : Kernel} {call : Call} (hstack : s.me.stack = none)
      (hstate : s.me.state = .zombie ∨ s.me.state = .runnable ∧ call = .yield)
      (hcall : call = .yield ∨ call = .exit) :
      Move w .idle s .idle (s.setStack s.current (some ⟨0, call⟩))
  | nest {s : Kernel} {stack : Stack} {n : Nat} (hstack : s.me.stack = some stack)
      (hstate : s.me.state = .runnable ∨ n = stack.nest + 1) :
      Move w .idle s .idle (s.setStack s.current (some ⟨n, stack.call⟩))
  | leave {s : Kernel} {call : Call} (hstack : s.me.stack = some ⟨0, call⟩)
      (hcall : call = .create ∨ call = .yield) (hstate : s.me.state = .runnable) :
      Move w .idle s .idle (s.setStack s.current none)
  | resume {s : Kernel} {m : MsgType} {size : Nat} {purpose : Purpose}
      (hstack : s.me.stack = some ⟨0, .recv m size purpose⟩) (hstate : s.me.state = .runnable) :
      Move w .idle s purpose.phase (s.resumed m size purpose)
  | take {s : Kernel} {m : MsgType} {size : Nat} (hstack : s.me.stack = none)
      (hstate : s.me.state = .runnable) (hm : m ≠ .reply) : Move w .idle s .idle (s.taken m size)
  | call {s t : Kernel} {q : Slot} {contents : List Byte} {server size : Nat} {purpose : Purpose}
      (hstack : s.me.stack = none) (hstate : s.me.state = .runnable)
      (hposted : Posted s q .request ⟨s.me.pid, s.me.uid, contents⟩ t)
      (hpid : (s.procs q).pid = server) (hself : q ≠ s.current)
      (hempty : (s.me.mboxes .reply).messages = []) (hserver : purpose.server = some server)
      (hfault : ∀ fault ∈ purpose.fault, fault.Legal w s.me ∧
        ReadsPage s.me (fault.virt / pageSize) server contents) :
      Move w purpose.phase s .idle (t.called server size purpose)
  | block {s : Kernel} {m : MsgType} {maxTime now size : Nat}
      (hstack : s.me.stack = none) (hstate : s.me.state = .runnable)
      (hempty : (s.me.mboxes m).messages = []) (hrecv : w.replyToRpc → m ≠ .reply) :
      Move w .idle s .idle (s.blocked m maxTime now ⟨0, .recv m size .recv⟩)
  | shutdown {s : Kernel} {now : Nat} :
      Move w .idle s .idle { s with shuttingDown := true, curfew := now }
  | exec {s : Kernel} {interruptable : Bool} {executable : FileId} {hdr : Header}
      (hstack : s.me.stack = none) (hstate : s.me.state = .runnable)
      (hpages : ∀ i, i < virtPages → s.me.pages i = none) (hheader : w.header hdr) :
      Move w .idle s .idle (s.setProc s.current { s.me with
        interruptable := interruptable
        executable := executable
        hdr := hdr })
  | takeFrame {s : Kernel} {page frame : Nat} {rest : List Nat}
      (hstack : s.me.stack = none) (hstate : s.me.state = .runnable)
      (hframes : s.freeframes = frame :: rest) (hpage : s.me.pages page = none)
      (hlt : page < virtPages) (hentry : s.mmu.getEntry (absPage page) = none) :
      Move w .idle s (.taken page) (s.frameTaken page frame rest)
  | fill {s : Kernel} {page frame : Nat} {contents : Page}
      (hstack : s.me.stack = none) (hstate : s.me.state = .runnable)
      (hpage : s.me.pages page = some frame)
      (hassigned : Assigned s.events s.current s.me.executable s.me.hdr (absPage page) contents) :
      Move w (.taken page) s (.filled page) (s.filled page frame contents)
  | map {f : Phase} {s : Kernel} {virt frame : Nat} {index : Fin tlbSize} {access : Access}
      (hstack : s.me.stack = none) (hstate : s.me.state = .runnable)
      (hlow : virtBase ≤ virt) (htop : virt < virtTop)
      (hpage : s.me.pages (relPage virt) = some frame)
      (hindex : f = .filled (relPage virt) ∨ f = .idle ∧
        ∀ i ∈ s.mmu.getEntry (virt / pageSize), i = index)
      (hshield : w.shielded s.me.hdr (virt / pageSize) → access = .read) :
      Move w f s .idle (s.mapped index (virt / pageSize) frame (mapProt s.me virt access))
  | advance {f : Phase} {s : Kernel} {i : Fin tlbSize} : Move w f s f { s with tlbIndex := i }
  | poke {s : Kernel} {virt : Nat} {byte : Byte} (hstack : s.me.stack = none)
      (hstate : s.me.state = .runnable) (hpermit : Permitted s virt Prot.write) :
      Move w .idle s .idle (s.poked virt byte)
  | peek {s : Kernel} {virt : Nat} (hstack : s.me.stack = none)
      (hstate : s.me.state = .runnable) (hpermit : Permitted s virt Prot.read) :
      Move w .idle s .idle (s.peeked virt)
  | sync {s : Kernel} : Move w .idle s .idle { s with mmu := s.mmu.sync }

end Egos.Grass
