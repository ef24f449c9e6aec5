import Egos.Earth.Tlb
import Egos.Lib.Program

/-!
# Processes and messages

The process table of `process.c` and the functions on it that do not give up the processor.
A pointer into `proc_set` is the slot it points to. A failed `assert` stops the kernel, and
`Assertion` says which one it was. `events` is a history that the kernel does not keep: the
properties of whole runs are about it.
-/
namespace Egos.Grass

open Egos.Lib Egos.Earth

set_option autoImplicit false

/-- `MAX_PROCS`. -/
def maxProcs : Nat := 100

/-- `PHYS_FRAMES`. -/
def physFrames : Nat := 1024

abbrev Slot := Fin maxProcs

inductive ProcState where
  | free | runnable | waiting | zombie
  deriving DecidableEq

inductive MsgType where
  | request | reply | event
  deriving DecidableEq

structure Message where
  src : Nat
  uid : Nat
  contents : List Byte
  deriving DecidableEq

structure MsgQueue where
  waiting : Bool
  messages : List Message

/-- `struct exec_segment`. -/
structure ExecSegment where
  first : Nat
  npages : Nat
  nblocks : Nat
  prot : Prot
  deriving DecidableEq

/-- `struct header`. -/
structure Header where
  offset : Nat
  segments : List ExecSegment
  deriving DecidableEq

/-- `fid_t`. -/
structure FileId where
  server : Nat
  fileNo : Nat

inductive Access where
  | unknown | read | write
  deriving DecidableEq

/-- What is done to an address once its page is mapped: nothing, for a fault of the process
itself, or the copy of one byte by `copy_user`. -/
inductive Touch where
  | none
  | put (byte : Byte)
  | get

/-- A page fault that waits for `file_read`. -/
structure Fault where
  virt : Nat
  access : Access
  index : Option (Fin tlbSize)
  touch : Touch

/-- What `proc_recv` was called for. -/
inductive Purpose where
  | recv
  | rpc (server : Nat)
  | frame (server : Nat) (fault : Fault)

/-- The function that called `proc_yield` or switched by itself. -/
inductive Call where
  | create
  | yield
  | exit
  | recv (mtype : MsgType) (size : Nat) (purpose : Purpose)

/-- What lies on the kernel stack of a process that is not running its own code: a call, and
above it the handlers inside `earth.intr.suspend` that called `proc_yield` again. -/
structure Stack where
  nest : Nat
  call : Call

/-- `struct process`. The kernel stack and the saved context are `stack`, and a page that is
`PI_VALID` has a frame. -/
structure Process where
  pid : Nat
  uid : Nat
  owner : Nat
  state : ProcState
  mboxes : MsgType → MsgQueue
  server : Nat
  alarmSet : Bool
  exptime : Nat
  interruptable : Bool
  pages : Nat → Option Nat
  executable : FileId
  hdr : Header
  stack : Option Stack

/-- `memset(p, 0, sizeof(*p))` and `mq_init`. -/
def Process.zero : Process where
  pid := 0
  uid := 0
  owner := 0
  state := .free
  mboxes := fun _ => ⟨false, []⟩
  server := 0
  alarmSet := false
  exptime := 0
  interruptable := false
  pages := fun _ => none
  executable := ⟨0, 0⟩
  hdr := ⟨0, []⟩
  stack := none

inductive Event where
  | born (p : Slot) (pid uid owner : Nat)
  | died (p : Slot) (pid uid : Nat)
  | accepted (p : Slot) (mtype : MsgType) (msg : Message)
  | received (p : Slot) (mtype : MsgType) (size : Nat) (msg : Message)
  | requested (p : Slot) (server : Nat)
  | answered (p : Slot) (server : Nat) (reply : Option Message)
  | filled (p : Slot) (executable : FileId) (hdr : Header) (page : Nat) (contents : Page)
  | stored (p : Slot) (virt : Nat) (byte : Byte)
  | loaded (p : Slot) (virt : Nat) (byte : Byte)

/-- The assertions of `process.c` and `procsys.c`. -/
inductive Assertion where
  | releaseZombie
  | queueRunnable
  | recvRunnable
  | recvIdle
  | recvNoReply
  | sendWaiting
  | wakeupWaiting
  | termProcs
  | zapState
  | switchSelf
  | switchRunnable
  | yieldProcs
  | yieldZombie
  | yieldPid
  | exitReturned
  | rpcSource
  | faultRunnable
  | faultUnmapped
  | faultValid
  | fileRead
  deriving DecidableEq

/-- How the kernel ends: a failed assertion, `earth.dev_gate.exit`, the panic of
`proc_frame_alloc`, or an access to memory that the hardware does not permit. `disabled` is an
action that is not possible now. -/
inductive Halt where
  | assertion (a : Assertion)
  | exit
  | outOfFrames
  | wild
  | disabled
  deriving DecidableEq

structure Kernel where
  procs : Slot → Process
  current : Slot
  runnable : List Slot
  free : List Slot
  nprocs : Nat
  nrunnable : Nat
  pidGen : Nat
  shuttingDown : Bool
  curfew : Nat
  freeframes : List Nat
  mmu : Mmu
  tlbIndex : Fin tlbSize
  events : List Event

abbrev KernelM := EStateM Halt Kernel

def check (c : Bool) (a : Assertion) : KernelM Unit :=
  if c then pure () else throw (.assertion a)

/-- Change the process in slot `p`. -/
def Kernel.setProc (s : Kernel) (p : Slot) (proc : Process) : Kernel :=
  { s with procs := Function.update s.procs p proc }

def Kernel.emit (s : Kernel) (e : Event) : Kernel := { s with events := s.events ++ [e] }

/-- The running process. -/
def Kernel.me (s : Kernel) : Process := s.procs s.current

/-- `proc_find`. -/
def procFind (s : Kernel) (pid : Nat) : Option Slot :=
  (List.finRange maxProcs).find? fun p =>
    decide ((s.procs p).state ≠ .free) && decide ((s.procs p).pid = pid)

/-- `proc_alloc`. The id is an `unsigned int`, the count behind it goes on. -/
def procAlloc (owner uid : Nat) : KernelM (Option Slot) := do
  let s ← get
  match s.free with
  | [] => return none
  | p :: rest =>
    let pid := s.pidGen % 2 ^ 32
    modify fun s => { s with
      free := rest
      pidGen := s.pidGen + 1
      nprocs := s.nprocs + 1
      nrunnable := s.nrunnable + 1 }
    modify fun s => (s.setProc p { Process.zero with
      pid := pid
      uid := uid
      owner := owner
      state := .runnable }).emit (.born p pid uid owner)
    return some p

/-- `proc_release`. -/
def procRelease (p : Slot) : KernelM Unit := do
  let s ← get
  check ((s.procs p).state = .zombie) .releaseZombie
  modify fun s => { s.setProc p { s.procs p with
      state := .free
      mboxes := fun m => { (s.procs p).mboxes m with messages := [] } } with
    nprocs := s.nprocs - 1
    free := s.free ++ [p] }

/-- `proc_to_runqueue`. -/
def procToRunqueue (p : Slot) : KernelM Unit := do
  let s ← get
  check ((s.procs p).state = .runnable) .queueRunnable
  modify fun s => { s with runnable := s.runnable ++ [p] }

/-- Replace one mailbox. -/
def Process.setMbox (proc : Process) (mtype : MsgType) (mq : MsgQueue) : Process :=
  { proc with mboxes := Function.update proc.mboxes mtype mq }

/-- The test of `proc_send` on a response. -/
def replyRefused (dst : Process) (srcPid : Nat) : Bool :=
  decide (dst.state ≠ .waiting) || !(dst.mboxes .reply).waiting || decide (dst.server ≠ srcPid)

/-- `proc_send`. -/
def procSend (srcPid srcUid dstPid : Nat) (mtype : MsgType) (contents : List Byte) :
    KernelM Bool := do
  let s ← get
  match procFind s dstPid with
  | none => return false
  | some dst =>
    if (s.procs dst).state = .zombie then
      return false
    if mtype = .reply ∧ replyRefused (s.procs dst) srcPid then
      return false
    let mq := (s.procs dst).mboxes mtype
    let msg : Message := ⟨srcPid, srcUid, contents⟩
    modify fun s => (s.setProc dst ((s.procs dst).setMbox mtype
      { mq with messages := mq.messages ++ [msg] })).emit (.accepted dst mtype msg)
    if mq.waiting then
      check ((s.procs dst).state = .waiting) .sendWaiting
      modify fun s => { s.setProc dst { s.procs dst with
          state := .runnable
          alarmSet := false } with
        nrunnable := s.nrunnable + 1 }
      if dst ≠ s.current then
        procToRunqueue dst
      modify fun s => s.setProc dst ((s.procs dst).setMbox mtype
        { (s.procs dst).mboxes mtype with waiting := false })
    return true

/-- `proc_wakeup`. -/
def procWakeup (p : Slot) : KernelM Unit := do
  let s ← get
  check ((s.procs p).state = .waiting) .wakeupWaiting
  modify fun s => { s.setProc p { s.procs p with
      state := .runnable
      alarmSet := false } with
    nrunnable := s.nrunnable + 1 }
  if p ≠ s.current then
    procToRunqueue p
  modify fun s => s.setProc p { s.procs p with
    mboxes := fun m => { (s.procs p).mboxes m with waiting := false } }

/-- Four bytes of a number. -/
def wordBytes (v : Nat) : List Byte := (List.range 4).map (byteOf v)

theorem length_wordBytes (v : Nat) : (wordBytes v).length = 4 := by simp [wordBytes]

theorem ofBytes_wordBytes (front rest : List Byte) {v : Nat} (h : v < 2 ^ 32) :
    ofBytes (fun i => (front ++ (wordBytes v ++ rest)).getD (front.length + i) 0) 4 = v := by
  apply (ofBytes_byteOf _).trans (Nat.mod_eq_of_lt h)
  intro i hi
  rw [List.getD_append_right _ _ _ _ (Nat.le_add_right _ _), Nat.add_sub_cancel_left,
    List.getD_append _ _ _ _ (by rw [length_wordBytes]; exact hi)]
  simp [wordBytes, hi]

/-- `struct msg_event` of a dead process, with `MEV_PROCDIED` = 1. -/
def eventBytes (pid : Nat) (status : Int) : List Byte :=
  wordBytes 1 ++ wordBytes pid ++ wordBytes (status % 2 ^ 32).toNat

/-- The page that follows `VIRT_BASE` by `i` pages. -/
def absPage (i : Nat) : Nat := virtBase / pageSize + i

/-- The clients of `proc_term`'s second loop. -/
def awaits (client : Process) (pid : Nat) : Bool :=
  decide (client.state = .waiting) && (client.mboxes .reply).waiting &&
    decide (client.server = pid)

/-- `proc_term` notifies the owner, if any. -/
def tellOwner (proc : Process) (status : Int) : KernelM Unit := do
  let s ← get
  match procFind s proc.owner with
  | none => pure ()
  | some owner =>
    let _ ← procSend proc.pid proc.uid (s.procs owner).pid .event (eventBytes proc.pid status)

/-- `proc_term` fails the RPCs of the clients that wait for a server. -/
def failClients (pid : Nat) : KernelM Unit :=
  (List.finRange maxProcs).forM fun q => do
    let s ← get
    if awaits (s.procs q) pid then
      procWakeup q

/-- The last loop of `proc_term`. -/
def releaseFrames (p : Slot) : KernelM Unit :=
  (List.range virtPages).forM fun i => do
    let s ← get
    match (s.procs p).pages i with
    | none => pure ()
    | some frame =>
      modify fun s => { s with
        mmu := s.mmu.unmap (absPage i)
        freeframes := s.freeframes ++ [frame] }

/-- `proc_term`. -/
def procTerm (p : Slot) (status : Int) : KernelM Unit := do
  let s ← get
  check (0 < s.nprocs) .termProcs
  let proc := s.procs p
  modify fun s => { s with
    nrunnable := if proc.state = .runnable then s.nrunnable - 1 else s.nrunnable }
  if proc.state ≠ .zombie then
    modify fun s => (s.setProc p { proc with state := .zombie }).emit (.died p proc.pid proc.uid)
    tellOwner proc status
    failClients proc.pid
  releaseFrames p

/-- The first test of `proc_zap`; the killer of a shutdown is the null pointer. -/
def mayKill (s : Kernel) (killer : Option Slot) (p : Slot) : Bool :=
  match killer with
  | none => true
  | some k => decide ((s.procs k).uid = 0) || decide ((s.procs k).uid = (s.procs p).uid)

/-- `proc_zap`. -/
def procZap (killer : Option Slot) (p : Slot) (status : Int) : KernelM Unit := do
  let s ← get
  if mayKill s killer p then
    check (0 < s.nprocs) .termProcs
    match (s.procs p).state with
    | .runnable => procTerm p status
    | .waiting =>
      procTerm p status
      if p ≠ s.current then
        procRelease p
    | .zombie => pure ()
    | .free => throw (.assertion .zapState)

/-- `proc_kill` up to its `proc_yield`, which it calls if the answer is `true`. -/
def procKill (killer pid : Nat) (status : Int) : KernelM Bool := do
  let s ← get
  match procFind s killer with
  | none => return false
  | some k =>
    if pid = 0 then
      (List.finRange maxProcs).forM fun p => do
        let s ← get
        if (s.procs p).state ≠ .free ∧ (s.procs p).interruptable then
          procZap (some k) p status
      let s ← get
      return decide (s.me.state = .zombie)
    match procFind s pid with
    | none => return false
    | some p =>
      procZap (some k) p status
      let s ← get
      return decide ((s.procs p).state = .zombie)

end Egos.Grass
