import Egos.Disk.Store
import Egos.Grass.Machine

/-!
# The spawn server

`spawnsvr.c` with the start of a user process, and `frame_init` of `process.c`, which later reads
its pages. The kernel's functions are a parameter, and so is what comes of the RPCs with file servers.
The description of a process, which only a dump prints, is left out.
-/
namespace Egos.Spawnsvr

open Egos.Lib Egos.Disk Egos.Earth
open Egos.Grass (Message FileId ExecSegment Header fileReplySize fileReadData)

set_option autoImplicit false

/-- The `type` of a `struct spawn_request`, where all values without a `case` are alike. -/
inductive SpawnOp where
  | unused
  | exec
  | kill
  | getuid
  | setDescr
  | shutdown

def SpawnOp.ofCode : Nat → SpawnOp
  | 1 => .exec
  | 2 => .kill
  | 3 => .getuid
  | 4 => .setDescr
  | 5 => .shutdown
  | _ => .unused

/-- `struct spawn_request`. The members of the union share their memory. -/
structure SpawnRequest where
  type : SpawnOp
  executable : FileId
  size : BitVec 32
  interruptable : Bool
  uid : BitVec 32
  pid : Nat
  status : BitVec 32

/-- `sizeof(struct spawn_request)`. -/
def SpawnRequest.sizeof : Nat := 24

/-- The request that lies in memory at `bytes`. -/
def SpawnRequest.ofMemory (bytes : Buffer) : SpawnRequest where
  type := .ofCode (ofBytes bytes 4)
  executable := ⟨ofBytes (fun i => bytes (4 + i)) 4, ofBytes (fun i => bytes (8 + i)) 4⟩
  size := BitVec.ofNat 32 (ofBytes (fun i => bytes (12 + i)) 4)
  interruptable := bytes 16 != 0
  uid := BitVec.ofNat 32 (ofBytes (fun i => bytes (20 + i)) 4)
  pid := ofBytes (fun i => bytes (4 + i)) 4
  status := BitVec.ofNat 32 (ofBytes (fun i => bytes (8 + i)) 4)

inductive SpawnStatus where
  | ok
  | error
  deriving DecidableEq

/-- `struct spawn_reply`; the union holds a pid or a uid. -/
structure SpawnReply where
  status : SpawnStatus
  value : Nat
  deriving DecidableEq

/-- The functions of the kernel that the servers call. Each of them comes to an end, except that
`proc_kill` does not return to a process that it has killed. -/
structure KernelCalls (κ : Type) where
  /-- the uid of the process that is found -/
  procFind : κ → Nat → Option Nat
  /-- the pid, or 0 -/
  procCreateUid : (owner uid : Nat) → StateM κ Nat
  /-- whether it returns -/
  procKill : (killer pid : Nat) → (status : Int) → StateM κ Bool
  procShutdown : StateM κ Unit
  procSend : (src dst : Nat) → List Byte → StateM κ Unit

/-- The kernel, the requests that new processes have been given, and the replies with their
addressees. -/
structure SpawnWorld (κ : Type) where
  kernel : κ
  created : List (Nat × SpawnRequest × List Byte)
  outbox : List (Nat × SpawnReply)

variable {κ : Type}

abbrev SpawnM (κ : Type) := EStateM Stop (SpawnWorld κ)

def onKernel {α : Type} (m : StateM κ α) : SpawnM κ α := fun w =>
  .ok (m w.kernel).1 { w with kernel := (m w.kernel).2 }

def spawnRespond (src : Nat) (status : SpawnStatus) (value : Nat) : SpawnM κ Unit :=
  modify fun w => { w with outbox := w.outbox ++ [(src, ⟨status, value⟩)] }

section

variable (k : KernelCalls κ)

/-- The request is copied for `user_proc`. -/
def spawnDoExec (req : SpawnRequest) (src : Nat) (args : List Byte) : SpawnM κ Unit := do
  if req.size ≠ BitVec.ofNat 32 args.length then spawnRespond src .error 0
  else
    let pid ← onKernel (k.procCreateUid src req.uid.toNat)
    if 0 < pid then
      modify fun w => { w with created := w.created ++ [(pid, req, args)] }
      spawnRespond src .ok pid
    else
      spawnRespond src .error pid

def spawnDoKill (req : SpawnRequest) (src : Nat) : SpawnM κ Unit := do
  if ← onKernel (k.procKill src req.pid req.status.toInt) then
    spawnRespond src .ok req.pid

def spawnDoShutdown : SpawnM κ Unit := onKernel k.procShutdown

def spawnDoGetuid (req : SpawnRequest) (src : Nat) : SpawnM κ Unit := do
  match k.procFind (← get).kernel req.pid with
  | none => spawnRespond src .error 0
  | some uid => spawnRespond src .ok uid

/-- The result of `proc_find` is used as it is. -/
def spawnDoSetDescr (req : SpawnRequest) (src : Nat) : SpawnM κ Unit := do
  match k.procFind (← get).kernel req.pid with
  | none => throw .undefined
  | some _ => spawnRespond src .ok 0

/-- The size that `spawn_proc` passes to `sys_recv`: that of a pointer and a page. -/
def requestBuffer : Nat := 8 + pageSize

/-- One turn of the loop of `spawn_proc`. -/
def spawnProc (msg : Message) : SpawnM κ Unit :=
  let received := msg.contents.take requestBuffer
  if received.length < SpawnRequest.sizeof then throw .assert
  else
    let req := SpawnRequest.ofMemory fun i => received.getD i 0
    match req.type with
    | .exec => spawnDoExec k req msg.src (received.drop SpawnRequest.sizeof)
    | .kill => spawnDoKill k req msg.src
    | .shutdown => spawnDoShutdown k
    | .getuid => spawnDoGetuid k req msg.src
    | .setDescr => spawnDoSetDescr k req msg.src
    | .unused => spawnRespond msg.src .error 0

end

/-! ## User processes -/

/-- `MAX_SEGMENTS`. -/
def maxSegments : Nat := 4

/-- `struct header`. -/
structure ExecHeader where
  nsegments : Nat
  offset : Nat
  start : Nat
  segments : Fin maxSegments → ExecSegment

/-- `sizeof(struct header)`. -/
def headerSize : Nat := 16 + 16 * maxSegments

def segmentOfMemory (bytes : Buffer) : ExecSegment where
  first := ofBytes bytes 4
  npages := ofBytes (fun i => bytes (4 + i)) 4
  nblocks := ofBytes (fun i => bytes (8 + i)) 4
  prot := ⟨(bytes 12).getLsbD 0, (bytes 12).getLsbD 1, (bytes 12).getLsbD 2⟩

def ExecHeader.ofMemory (bytes : Buffer) : ExecHeader where
  nsegments := ofBytes bytes 4
  offset := ofBytes (fun i => bytes (4 + i)) 4
  start := ofBytes (fun i => bytes (8 + i)) 8
  segments i := segmentOfMemory fun k => bytes (16 + 16 * i + k)

/-- What comes of a `file_read` with a buffer of this size, given the reply to its RPC, if there is
one. -/
def fileRead (reply : Option (List Byte)) (size : Nat) : Option (List Byte) :=
  reply.bind fun bytes => fileReadData (bytes.take (fileReplySize + size))

/-- `sizeof(struct grass_env)`. -/
def grassEnvSize : Nat := 136

/-- What `user_proc` makes of its process, before it jumps to user space. -/
structure UserProcess where
  interruptable : Bool
  executable : FileId
  hdr : ExecHeader
  /-- the arguments on the stack, behind `user_sp` -/
  args : List Byte

/-- `user_proc` up to its loop; `none` if it exits. The environment lies at the end of the
arguments, and begins before them if they are too short. -/
def userProc (pid : Nat) (req : SpawnRequest) (args : List Byte) (reply : Option (List Byte)) :
    Except Stop (Option UserProcess) := do
  match fileRead reply headerSize with
  | none => throw .assert
  | some data =>
    if data.length ≠ headerSize then
      return none
    let hdr := ExecHeader.ofMemory fun i => data.getD i 0
    if hdr.nsegments = 0 then
      throw .assert
    if maxSegments < hdr.nsegments then
      throw .assert
    if args.length < grassEnvSize then
      throw .undefined
    let env := args.length - grassEnvSize
    return some ⟨req.interruptable, req.executable, hdr,
      args.take env ++ Grass.wordBytes pid ++ args.drop (env + 4)⟩

/-- The loop of `frame_init` over the segments that are left. -/
def pageOffset (hdr : ExecHeader) (page : Nat) : (left i offset : Nat) → Except Stop (Option Nat)
  | 0, _, _ => .ok none
  | left + 1, i, offset =>
    if h : i < maxSegments then
      let es := hdr.segments ⟨i, h⟩
      if es.first ≤ page ∧ page < (es.first + es.npages) % 2 ^ 32 then
        if page < (es.first + es.nblocks) % 2 ^ 32 then
          .ok (some ((offset + (page - es.first)) * pageSize % 2 ^ 32))
        else .ok none
      else pageOffset hdr page left (i + 1) ((offset + es.nblocks) % 2 ^ 32)
    else .error .undefined

/-- `frame_init`: the contents of the frame, given the reply to its RPC if it makes one. -/
def frameInit (p : UserProcess) (page : Nat) (reply : Option (List Byte)) :
    Except Stop (List Byte) := do
  match ← pageOffset p.hdr page p.hdr.nsegments 0 p.hdr.offset with
  | none => return List.replicate pageSize 0
  | some _ =>
    match fileRead reply pageSize with
    | none => throw .assert
    | some data =>
      if pageSize < data.length then
        throw .assert
      return data ++ List.replicate (pageSize - data.length) 0

/-! ## Malformed requests -/

/-- What `spawn_proc` finds in its buffer. -/
def header (contents : List Byte) : SpawnRequest :=
  .ofMemory fun i => (contents.take requestBuffer).getD i 0

/-- The bytes behind the header. -/
def argsOf (contents : List Byte) : List Byte :=
  (contents.take requestBuffer).drop SpawnRequest.sizeof

def errorReply : SpawnReply := ⟨.error, 0⟩

section

variable (k : KernelCalls κ)

/-- No header, an unknown type, arguments of another size or without an environment, or a question
about a process that is not there. -/
def Malformed (contents : List Byte) (w : SpawnWorld κ) : Prop :=
  contents.length < SpawnRequest.sizeof ∨
    match (header contents).type with
    | .exec => (header contents).size ≠ BitVec.ofNat 32 (argsOf contents).length ∨
        (argsOf contents).length < grassEnvSize
    | .getuid | .setDescr => k.procFind w.kernel (header contents).pid = none
    | .kill | .shutdown => False
    | .unused => True

/-- A whole header, a whole environment for a new process, and a process to describe. -/
def Whole (contents : List Byte) (w : SpawnWorld κ) : Prop :=
  SpawnRequest.sizeof ≤ contents.length ∧
    match (header contents).type with
    | .exec => (header contents).size = BitVec.ofNat 32 (argsOf contents).length →
        grassEnvSize ≤ (argsOf contents).length
    | .setDescr => k.procFind w.kernel (header contents).pid ≠ none
    | _ => True

/-- Every new process has been given an environment. -/
def Equipped (w : SpawnWorld κ) : Prop :=
  ∀ pid req args, (pid, req, args) ∈ w.created → grassEnvSize ≤ args.length

/-- The server goes on, and a malformed request gets an error. -/
def Survives (msg : Message) (w : SpawnWorld κ) : Prop :=
  Outcome (spawnProc k msg)
    (fun _ w' => Equipped w' ∧ (Malformed k msg.contents w →
      w'.outbox = w.outbox ++ [(msg.src, errorReply)]))
    (fun _ _ => False) w

end

section

variable {Q : Unit → SpawnWorld κ → Prop} {E : Stop → SpawnWorld κ → Prop} {w : SpawnWorld κ}

theorem outcome_onKernel {α : Type} {Q : α → SpawnWorld κ → Prop} (m : StateM κ α) :
    Outcome (onKernel m) Q E w ↔ Q (m w.kernel).1 { w with kernel := (m w.kernel).2 } := Iff.rfl

theorem length_received (contents : List Byte) :
    (contents.take requestBuffer).length < SpawnRequest.sizeof ↔
      contents.length < SpawnRequest.sizeof := by
  rw [List.length_take]
  unfold requestBuffer pageSize SpawnRequest.sizeof
  omega

variable (k : KernelCalls κ) (h : Equipped w)

include h

theorem outcome_spawnDoExec (req : SpawnRequest) (src : Nat) {args : List Byte}
    (hargs : req.size = BitVec.ofNat 32 args.length → grassEnvSize ≤ args.length) :
    Outcome (spawnDoExec k req src args)
      (fun _ w' => Equipped w' ∧ (req.size ≠ BitVec.ofNat 32 args.length →
        w'.outbox = w.outbox ++ [(src, errorReply)])) (fun _ _ => False) w := by
  unfold spawnDoExec
  split
  · exact ⟨h, fun _ => rfl⟩
  · rename_i hsize
    have hsize : req.size = BitVec.ofNat 32 args.length := not_not.mp hsize
    rw [Outcome.bind_iff, outcome_onKernel]
    split
    · refine ⟨fun pid req' args' hmem => ?_, fun hne => absurd hsize hne⟩
      rcases List.mem_append.mp hmem with hold | hnew
      · exact h pid req' args' hold
      · cases List.mem_singleton.mp hnew
        exact hargs hsize
    · exact ⟨h, fun hne => absurd hsize hne⟩

theorem outcome_spawnDoGetuid (req : SpawnRequest) (src : Nat) :
    Outcome (spawnDoGetuid k req src) (fun _ w' => Equipped w' ∧
      (k.procFind w.kernel req.pid = none → w'.outbox = w.outbox ++ [(src, errorReply)]))
      (fun _ _ => False) w := by
  unfold spawnDoGetuid
  rw [Outcome.bind_iff, Outcome.get_iff]
  cases hfind : k.procFind w.kernel req.pid with
  | none => exact ⟨h, fun _ => rfl⟩
  | some uid => exact ⟨h, by simp⟩

theorem outcome_spawnDoSetDescr {req : SpawnRequest} (src : Nat)
    (hfind : k.procFind w.kernel req.pid ≠ none) :
    Outcome (spawnDoSetDescr k req src) (fun _ w' => Equipped w') (fun _ _ => False) w := by
  unfold spawnDoSetDescr
  rw [Outcome.bind_iff, Outcome.get_iff]
  cases hp : k.procFind w.kernel req.pid with
  | none => exact absurd hp hfind
  | some uid => exact h

theorem outcome_spawnDoKill (req : SpawnRequest) (src : Nat) :
    Outcome (spawnDoKill k req src) (fun _ w' => Equipped w') (fun _ _ => False) w := by
  unfold spawnDoKill
  rw [Outcome.bind_iff, outcome_onKernel]
  split
  · exact h
  · exact h

theorem survives_of_whole {msg : Message} (hwhole : Whole k msg.contents w) :
    Survives k msg w := by
  obtain ⟨hle, hcase⟩ := hwhole
  have hshort : ¬msg.contents.length < SpawnRequest.sizeof := Nat.not_lt.mpr hle
  unfold Survives spawnProc Malformed
  dsimp only
  rw [if_neg (mt (length_received _).mp hshort)]
  change Outcome (match (header msg.contents).type with
    | .exec => spawnDoExec k (header msg.contents) msg.src (argsOf msg.contents)
    | .kill => spawnDoKill k (header msg.contents) msg.src
    | .shutdown => spawnDoShutdown k
    | .getuid => spawnDoGetuid k (header msg.contents) msg.src
    | .setDescr => spawnDoSetDescr k (header msg.contents) msg.src
    | .unused => spawnRespond msg.src .error 0) _ _ _
  cases htype : (header msg.contents).type with
  | exec =>
    rw [htype] at hcase
    refine (outcome_spawnDoExec k h _ _ hcase).post fun _ w' hw' => ⟨hw'.1, fun hm => ?_⟩
    rcases hm.resolve_left hshort with hsize | hargs
    · exact hw'.2 hsize
    · exact hw'.2 fun hsize => absurd (hcase hsize) (Nat.not_le.mpr hargs)
  | getuid =>
    refine (outcome_spawnDoGetuid k h _ _).post fun _ w' hw' => ⟨hw'.1, fun hm => ?_⟩
    exact hw'.2 (hm.resolve_left hshort)
  | setDescr =>
    rw [htype] at hcase
    refine (outcome_spawnDoSetDescr k h _ hcase).post fun _ w' hw' => ⟨hw', fun hm => ?_⟩
    exact absurd (hm.resolve_left hshort) hcase
  | kill =>
    refine (outcome_spawnDoKill k h _ _).post fun _ w' hw' => ⟨hw', fun hm => ?_⟩
    exact (hm.resolve_left hshort).elim
  | shutdown => exact ⟨h, fun hm => (hm.resolve_left hshort).elim⟩
  | unused => exact ⟨h, fun _ => rfl⟩

end

/-! ## The pages of a process -/

/-- The segments that are in use. -/
def ExecHeader.used (hdr : ExecHeader) : Header :=
  ⟨hdr.offset, ((List.finRange maxSegments).take hdr.nsegments).map hdr.segments⟩

/-- With as many segments as there is room for, the loop stays inside of the header, and finds what
the kernel's machine finds in its list. -/
theorem pageOffset_eq {hdr : ExecHeader} (hn : hdr.nsegments ≤ maxSegments) (page : Nat) :
    pageOffset hdr page hdr.nsegments 0 hdr.offset =
      .ok (Grass.fileOffset page hdr.used.segments hdr.used.offset) := by
  suffices h : ∀ left i offset, i + left = hdr.nsegments → pageOffset hdr page left i offset =
      .ok (Grass.fileOffset page (hdr.used.segments.drop i) offset) from
    h hdr.nsegments 0 hdr.offset (Nat.zero_add _)
  have hlen : hdr.used.segments.length = hdr.nsegments := by
    unfold ExecHeader.used
    rw [List.length_map, List.length_take, List.length_finRange, Nat.min_eq_left hn]
  intro left
  induction left with
  | zero =>
    intro i offset hi
    rw [List.drop_of_length_le (by omega)]
    rfl
  | succ left ih =>
    intro i offset hi
    have hmax : i < maxSegments := by omega
    have hsegment : hdr.used.segments.drop i =
        hdr.segments ⟨i, hmax⟩ :: hdr.used.segments.drop (i + 1) := by
      rw [List.drop_eq_getElem_cons (by omega)]
      simp [ExecHeader.used]
    rw [hsegment]
    unfold pageOffset Grass.fileOffset
    rw [dif_pos hmax]
    dsimp only
    split
    · split <;> rfl
    · exact ih (i + 1) _ (by omega)

theorem fileRead_length {reply : Option (List Byte)} {size : Nat} {data : List Byte}
    (h : fileRead reply size = some data) : data.length ≤ size := by
  obtain ⟨bytes, -, hdata⟩ := Option.bind_eq_some_iff.mp h
  unfold fileReadData at hdata
  split at hdata
  · cases hdata
    rw [List.length_drop, List.length_take]
    omega
  · cases hdata

/-- The header that `user_proc` accepts. -/
def Acceptable (hdr : ExecHeader) : Prop := 0 < hdr.nsegments ∧ hdr.nsegments ≤ maxSegments

theorem userProc_ok (pid : Nat) (req : SpawnRequest) {args data : List Byte}
    {reply : Option (List Byte)} (hargs : grassEnvSize ≤ args.length)
    (hread : fileRead reply headerSize = some data)
    (hhdr : data.length = headerSize → Acceptable (.ofMemory fun i => data.getD i 0)) :
    ∃ r, userProc pid req args reply = .ok r ∧ ∀ p ∈ r, p.hdr.nsegments ≤ maxSegments := by
  unfold userProc
  rw [hread]
  dsimp only
  split
  · exact ⟨none, rfl, by simp⟩
  · rename_i hlen
    obtain ⟨hpos, hmax⟩ := hhdr (not_not.mp hlen)
    simp only [Nat.pos_iff_ne_zero.mp hpos, if_false, Nat.not_lt.mpr hmax, Nat.not_lt.mpr hargs]
    refine ⟨_, rfl, fun p hp => ?_⟩
    cases hp
    exact hmax

theorem frameInit_ok {p : UserProcess} (hp : p.hdr.nsegments ≤ maxSegments) {page : Nat}
    {reply : Option (List Byte)}
    (hread : Grass.fileOffset page p.hdr.used.segments p.hdr.used.offset ≠ none →
      fileRead reply pageSize ≠ none) : ∃ bytes, frameInit p page reply = .ok bytes := by
  unfold frameInit
  rw [pageOffset_eq hp]
  cases hoffset : Grass.fileOffset page p.hdr.used.segments p.hdr.used.offset with
  | none => exact ⟨_, rfl⟩
  | some offset =>
    rw [hoffset] at hread
    cases hdata : fileRead reply pageSize with
    | none => exact absurd hdata (hread (by simp))
    | some data =>
      have hlen := fileRead_length hdata
      refine ⟨data ++ List.replicate (pageSize - data.length) 0, ?_⟩
      change (if pageSize < data.length then _ else _) = _
      rw [if_neg (Nat.not_lt.mpr hlen)]
      rfl

end Egos.Spawnsvr
