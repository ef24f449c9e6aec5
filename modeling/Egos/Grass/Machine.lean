import Egos.Grass.Process

/-!
# The kernel as a machine

What the running process can ask of the kernel, the scheduler, and paging. A process that
calls `proc_yield` stops inside `earth.intr.suspend`, where handlers run, until the suspension
ends and the scheduler looks for work. A `Stack` records where the process goes on, so a
step is: an action of the running process, a handler, or one round of the scheduler.
-/
namespace Egos.Grass

open Egos.Lib Egos.Earth

set_option autoImplicit false

/-- `STAT_ILLMEM`. -/
def statIllmem : Int := -1

/-- `STAT_SHUTDOWN`. -/
def statShutdown : Int := -4

def Kernel.setStack (s : Kernel) (p : Slot) (stack : Option Stack) : Kernel :=
  s.setProc p { s.procs p with stack := stack }

/-- The running process goes into `proc_yield`. -/
def enter (call : Call) : KernelM Unit :=
  modify fun s => s.setStack s.current (some ⟨0, call⟩)

/-- The second half of `proc_recv`. -/
def takeMessage (mtype : MsgType) (size : Nat) : KernelM (Option Message) := do
  let s ← get
  check (s.me.state = .runnable) .recvRunnable
  let mq := s.me.mboxes mtype
  match mq.messages with
  | [] => return none
  | msg :: rest =>
    let out : Message := { msg with contents := msg.contents.take size }
    modify fun s => (s.setProc s.current (s.me.setMbox mtype
      { mq with messages := rest })).emit (.received s.current mtype size out)
    return some out

/-- `proc_recv` up to its `proc_yield`; `none` if it got that far. -/
def procRecv (mtype : MsgType) (maxTime now size : Nat) (purpose : Purpose) :
    KernelM (Option (Option Message)) := do
  let s ← get
  check (s.me.state = .runnable) .recvRunnable
  check (!(s.me.mboxes mtype).waiting) .recvIdle
  if (s.me.mboxes mtype).messages = [] then
    modify fun s => { s.setProc s.current { s.me.setMbox mtype
        { s.me.mboxes mtype with waiting := true } with
          state := .waiting
          exptime := if maxTime = 0 then s.me.exptime else now + maxTime
          alarmSet := if maxTime = 0 then s.me.alarmSet else true } with
      nrunnable := s.nrunnable - 1 }
    enter (.recv mtype size purpose)
    return none
  else
    check (mtype ≠ .reply) .recvNoReply
    return some (← takeMessage mtype size)

/-- `sys_rpc` up to the reply; `false` if it returns -1 at once. -/
def sysRpc (pid : Nat) (request : List Byte) (size : Nat) (purpose : Purpose) : KernelM Bool := do
  let s ← get
  if pid = s.me.pid then
    return false
  if ← procSend s.me.pid s.me.uid pid .request request then
    modify fun s => (s.setProc s.current { s.me with server := pid }).emit
      (.requested s.current pid)
    let _ ← procRecv .reply 0 0 size purpose
    return true
  else
    return false

/-- `proc_create_uid` up to the first instruction of the new process, in `ctx_entry`. -/
def procCreateUid (owner uid : Nat) : KernelM Unit := do
  let s ← get
  if s.shuttingDown then
    return
  match procFind s owner with
  | none => return
  | some parent =>
    let uid := if (s.procs parent).uid ≠ 0 then (s.procs parent).uid else uid
    match ← procAlloc owner uid with
    | none => return
    | some p =>
      procToRunqueue s.current
      enter .create
      modify fun s => { s with current := p }

/-- The segment of `proc_pagefault`: the first one that holds the page. -/
def Header.segment (hdr : Header) (page : Nat) : Option ExecSegment :=
  hdr.segments.find? fun es =>
    decide (es.first ≤ page) && decide (page < (es.first + es.npages) % 2 ^ 32)

/-- The loop of `frame_init`: the position in the executable that the page is read from. -/
def fileOffset (page : Nat) : List ExecSegment → Nat → Option Nat
  | [], _ => none
  | es :: rest, offset =>
    if es.first ≤ page ∧ page < (es.first + es.npages) % 2 ^ 32 then
      if page < (es.first + es.nblocks) % 2 ^ 32 then
        some ((offset + (page - es.first)) * pageSize % 2 ^ 32)
      else none
    else fileOffset page rest ((offset + es.nblocks) % 2 ^ 32)

/-- `sizeof(struct file_reply)`. -/
def fileReplySize : Nat := 56

/-- The request of `file_read`, with `FILE_READ` = 4. -/
def fileReadRequest (fileNo offset size : Nat) : List Byte :=
  wordBytes 4 ++ wordBytes fileNo ++ wordBytes offset ++ wordBytes (offset / 2 ^ 32) ++
    wordBytes size ++ wordBytes 0 ++ wordBytes 0 ++ wordBytes 0

/-- The data of a reply to `file_read`, if the status is `FILE_OK`. -/
def fileReadData (reply : List Byte) : Option (List Byte) :=
  if fileReplySize ≤ reply.length ∧ reply.take 4 = wordBytes 0 then
    some (reply.drop fileReplySize)
  else none

/-- A frame that `frame_init` filled: what was read, and zeros behind it. -/
def pageOf (data : List Byte) : Page := fun k => data.getD k 0

/-- `*dst = byte` at a virtual address. -/
def poke (virt : Nat) (byte : Byte) : KernelM Unit := do
  let s ← get
  if virtBase ≤ virt ∧ virt < virtTop ∧ (s.mmu.access (virt / pageSize)).write then
    modify fun s => { s with mmu := { s.mmu with
      memory := Function.update s.mmu.memory (virt / pageSize)
        (Function.update (s.mmu.memory (virt / pageSize))
          ⟨virt % pageSize, mod_pageSize_lt virt⟩ byte) } }
    modify fun s => s.emit (.stored s.current virt byte)
  else
    throw .wild

/-- `*src` at a virtual address. -/
def peek (virt : Nat) : KernelM Unit := do
  let s ← get
  if virtBase ≤ virt ∧ virt < virtTop ∧ (s.mmu.access (virt / pageSize)).read then
    modify fun s => s.emit (.loaded s.current virt
      (s.mmu.memory (virt / pageSize) ⟨virt % pageSize, mod_pageSize_lt virt⟩))
  else
    throw .wild

def Touch.perform (virt : Nat) : Touch → KernelM Unit
  | .none => pure ()
  | .put byte => poke virt byte
  | .get => peek virt

/-- The page of an address, counted from `VIRT_BASE`. -/
def relPage (virt : Nat) : Nat := (virt - virtBase) / pageSize

/-- `(tlb_index + 1) % TLB_SIZE`. -/
def nextIndex (i : Fin tlbSize) : Fin tlbSize := ⟨(i + 1) % tlbSize, Nat.mod_lt _ (by decide)⟩

/-- `proc_pagefault` from its sanity check on, and the access that caused the fault. -/
def mapPage (fault : Fault) : KernelM Unit := do
  let s ← get
  match s.me.pages (relPage fault.virt) with
  | none => throw (.assertion .faultValid)
  | some frame =>
    let page := fault.virt / pageSize
    let index := fault.index.getD s.tlbIndex
    if fault.index = none then
      modify fun s => { s with tlbIndex := nextIndex s.tlbIndex }
    let prot :=
      if fault.access = .read then
        match s.me.hdr.segment page with
        | some es => if es.prot.exec then Prot.rx else Prot.r
        | none => Prot.r
      else Prot.rw
    modify fun s => { s with mmu := s.mmu.map index page frame prot }
    fault.touch.perform fault.virt

/-- The end of `frame_init`. -/
def fillFrame (virt : Nat) (contents : Page) : KernelM Unit := do
  let s ← get
  match s.me.pages (relPage virt) with
  | none => throw (.assertion .faultValid)
  | some frame =>
    modify fun s => { s with mmu := { s.mmu with
      frames := Function.update s.mmu.frames frame contents } }
    modify fun s => s.emit
      (.filled s.current s.me.executable s.me.hdr (relPage virt) contents)

/-- `proc_frame_alloc`. -/
def procFrameAlloc (page : Nat) : KernelM Unit := do
  let s ← get
  match s.freeframes with
  | [] => throw .outOfFrames
  | frame :: rest =>
    modify fun s => { s with freeframes := rest }
    modify fun s => s.setProc s.current { s.me with
      pages := Function.update s.me.pages page (some frame) }

/-- The access that `proc_pagefault` settles on, given the segment and how the page is mapped;
`none` if it is illegal. -/
def settleAccess (es : Option ExecSegment) (mapped : Option Prot) : Access → Option Access
  | .unknown =>
    match mapped with
    | some prot =>
      if (match es with | some es => !es.prot.write | none => false) then none
      else if prot.write then none
      else some .write
    | none => some .read
  | access => some access

/-- `sys_exit` of the running process, and what `proc_pagefault` does to it on an illegal
address. -/
def sysExit (status : Int) : KernelM Unit := do
  let s ← get
  procTerm s.current status
  enter .exit

/-- `proc_pagefault`, up to the `file_read` of `frame_init` if there is one. -/
def procPagefault (virt : Nat) (access : Access) (touch : Touch) : KernelM Unit := do
  let s ← get
  check (s.me.state = .runnable) .faultRunnable
  if virt < virtBase ∨ virtTop ≤ virt then
    sysExit statIllmem
  else
    let page := virt / pageSize
    let index := s.mmu.getEntry page
    match settleAccess (s.me.hdr.segment page) (index.map fun i => (s.mmu.entries i).prot)
        access with
    | none => sysExit statIllmem
    | some access =>
      let fault : Fault := ⟨virt, access, index, touch⟩
      match s.me.pages (relPage virt) with
      | some _ => mapPage fault
      | none =>
        check (index = none) .faultUnmapped
        procFrameAlloc (relPage virt)
        match fileOffset page s.me.hdr.segments s.me.hdr.offset with
        | none =>
          fillFrame virt fun _ => 0
          mapPage fault
        | some offset =>
          let exe := s.me.executable
          let sent ← sysRpc exe.server (fileReadRequest exe.fileNo offset pageSize)
            (fileReplySize + pageSize) (.frame exe.server fault)
          check sent .fileRead

/-- The check of `sys_rpc` on the reply, if there is one. -/
def checkSource (server : Nat) : Option Message → KernelM Unit
  | none => pure ()
  | some msg => check (msg.src = server) .rpcSource

/-- What the callers of `proc_recv` do with its result after it had to wait. -/
def Purpose.finish (message : Option Message) : Purpose → KernelM Unit
  | .recv => pure ()
  | .rpc server => do
    checkSource server message
    modify fun s => s.emit (.answered s.current server message)
  | .frame server fault => do
    checkSource server message
    modify fun s => s.emit (.answered s.current server message)
    match message.bind fun msg => fileReadData msg.contents with
    | none => throw (.assertion .fileRead)
    | some data =>
      fillFrame fault.virt (pageOf data)
      mapPage fault

/-- A call goes on after its `proc_yield`. -/
def Call.finish : Call → KernelM Unit
  | .create | .yield => modify fun s => s.setStack s.current none
  | .exit => throw (.assertion .exitReturned)
  | .recv mtype size purpose => do
    modify fun s => s.setStack s.current none
    let s ← get
    check (!(s.me.mboxes mtype).waiting) .recvIdle
    let message ← takeMessage mtype size
    purpose.finish message

/-- `proc_yield` returns to the running process: to a handler, which returns to its
suspension, or to the call. -/
def procReturn : KernelM Unit := do
  let s ← get
  match s.me.stack with
  | none => throw .wild
  | some ⟨0, call⟩ => call.finish
  | some ⟨nest + 1, call⟩ => modify fun s => s.setStack s.current (some ⟨nest, call⟩)

/-- The context switch at the end of `proc_yield`, with `proc_after_switch` in the next
process, which then returns from its own `proc_yield`. -/
def procSwitch (next : Slot) : KernelM Unit := do
  let s ← get
  check (next ≠ s.current) .switchSelf
  check ((s.procs next).pid ≠ s.me.pid) .yieldPid
  check ((s.procs next).state = .runnable) .switchRunnable
  if s.me.state = .runnable then
    procToRunqueue s.current
  if s.me.state = .zombie then
    procRelease s.current
  modify fun s => { s with mmu := s.mmu.flush, current := next }
  procReturn

/-- The body of the first loop in `proc_yield`. -/
def timeout (now : Nat) (p : Slot) : KernelM Unit := do
  let s ← get
  if s.shuttingDown ∧ (s.procs p).state ≠ .free then
    procZap none p statShutdown
  else if (s.procs p).state = .waiting ∧ (s.procs p).alarmSet then
    if (s.procs p).exptime ≤ now then
      procWakeup p

/-- The second loop in `proc_yield`, with the length of the queue as a bound. -/
def nextRunnable : Nat → KernelM (Option Slot)
  | 0 => return none
  | left + 1 => do
    let s ← get
    match s.runnable with
    | [] => return none
    | next :: rest =>
      modify fun s => { s with runnable := rest }
      if (s.procs next).state = .runnable then
        return some next
      check ((s.procs next).state = .zombie) .yieldZombie
      procRelease next
      nextRunnable left

/-- One round of `proc_yield`, from the end of a suspension to a return, a switch or the
next suspension. The first of the two assertions on `proc_nprocs` is made in every round. -/
def procYield (now : Nat) : KernelM Unit := do
  let s ← get
  check (0 < s.nprocs) .yieldProcs
  if s.curfew ≠ 0 ∧ s.curfew < now then
    throw .exit
  (List.finRange maxProcs).forM (timeout now)
  let s ← get
  let next ← nextRunnable s.runnable.length
  let s ← get
  check (0 < s.nprocs) .yieldProcs
  match next with
  | some next => procSwitch next
  | none =>
    if s.me.state = .runnable then
      procReturn
    else if s.nprocs = 1 ∧ s.shuttingDown then
      throw .exit

/-- What can happen next. The first group is for a process that runs its own code, the second
for the handlers and the end of a suspension. -/
inductive Action where
  | create (owner uid : Nat)
  | recv (mtype : MsgType) (maxTime now size : Nat)
  | send (srcPid srcUid dstPid : Nat) (mtype : MsgType) (contents : List Byte)
  | rpc (pid : Nat) (request : List Byte) (size : Nat)
  | kill (killer pid : Nat) (status : Int)
  | exit (status : Int)
  | yield
  | shutdown (now : Nat)
  | exec (interruptable : Bool) (executable : FileId) (hdr : Header)
  | load (virt : Nat)
  | store (virt : Nat) (byte : Byte)
  | fault (virt : Nat)
  | copyFrom (virt : Nat)
  | copyTo (virt : Nat) (byte : Byte)
  | sync
  | handleSend (srcPid srcUid dstPid : Nat) (mtype : MsgType) (contents : List Byte)
  | handleKill (killer pid : Nat) (status : Int)
  | wake (now : Nat)

/-- Whether the action belongs to a suspension. -/
def Action.inSuspend : Action → Bool
  | .handleSend .. | .handleKill .. | .wake _ => true
  | _ => false

def Action.perform : Action → KernelM Unit
  | .create owner uid => procCreateUid owner uid
  | .recv mtype maxTime now size => do
    let _ ← procRecv mtype maxTime now size .recv
  | .send srcPid srcUid dstPid mtype contents => do
    let _ ← procSend srcPid srcUid dstPid mtype contents
  | .rpc pid request size => do
    let _ ← sysRpc pid request size (.rpc pid)
  | .kill killer pid status => do
    if ← procKill killer pid status then
      enter .yield
  | .exit status => sysExit status
  | .yield => enter .yield
  | .shutdown now => modify fun s => { s with shuttingDown := true, curfew := now + 3000 }
  -- the start of `user_proc`, before the process touches its memory
  | .exec interruptable executable hdr => do
    let s ← get
    if (List.range virtPages).all fun i => (s.me.pages i).isNone then
      modify fun s => s.setProc s.current { s.me with
        interruptable := interruptable
        executable := executable
        hdr := hdr }
    else
      throw .disabled
  -- an access of the process that the hardware permits
  | .load virt => peek virt
  | .store virt byte => poke virt byte
  -- one that it does not permit: `user_proc` and `proc_got_interrupt`
  | .fault virt => do
    modify fun s => { s with mmu := s.mmu.sync }
    procPagefault virt .unknown .none
  -- one turn of the loop of `copy_user`, where `page_no` cuts the page to 32 bits
  | .copyFrom virt => do
    let s ← get
    match s.mmu.getEntry (virt / pageSize % 2 ^ 32) with
    | none => procPagefault virt .read .get
    | some _ => peek virt
  | .copyTo virt byte => do
    let s ← get
    match s.mmu.getEntry (virt / pageSize % 2 ^ 32) with
    | none => procPagefault virt .write (.put byte)
    | some i =>
      if (s.mmu.entries i).prot.write then poke virt byte
      else procPagefault virt .write (.put byte)
  | .sync => modify fun s => { s with mmu := s.mmu.sync }
  | .handleSend srcPid srcUid dstPid mtype contents => do
    let _ ← procSend srcPid srcUid dstPid mtype contents
  | .handleKill killer pid status => do
    if ← procKill killer pid status then
      modify fun s => s.setStack s.current
        (s.me.stack.map fun stack => { stack with nest := stack.nest + 1 })
  | .wake now => procYield now

def step (a : Action) : KernelM Unit := do
  let s ← get
  if a.inSuspend = s.me.stack.isSome then
    a.perform
  else
    throw .disabled

def run (actions : List Action) : KernelM Unit := actions.forM step

/-- What `proc_initialize` has set up before it allocates the process `main`. -/
def beforeMain (frames : Nat → Page) : Kernel where
  procs := fun p => { Process.zero with pid := p }
  current := ⟨0, by decide⟩
  runnable := []
  free := List.finRange maxProcs
  nprocs := 0
  nrunnable := 0
  pidGen := 1
  shuttingDown := false
  curfew := 0
  freeframes := List.range physFrames
  mmu := Mmu.initial frames
  tlbIndex := ⟨0, by decide⟩
  events := []

/-- `proc_initialize`, with any contents in the frames. -/
def procInitialize (frames : Nat → Page) : Kernel :=
  match procAlloc 1 0 (beforeMain frames) with
  | .ok (some main) s => { s with current := main }
  | .ok none s | .error _ s => s

end Egos.Grass
