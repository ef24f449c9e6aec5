import Egos.Disk.Ramdisk
import Egos.File.Requests
import Egos.Grass.Process

/-!
# The block server

`blocksvr.c` over its topmost block store, and its clients in `lib/block.c`. The kernel carries a
request to the server and the reply back, cut to the length of the buffer that waits for it.
-/
namespace Egos.Blocksvr

open Egos.Lib Egos.Disk Egos.File Egos.Earth
open Egos.Grass (wordBytes length_wordBytes ofBytes_wordBytes)

set_option autoImplicit false

/-- The `type` of a `struct block_request`, where all values without a `case` are alike. -/
inductive BlockOp where
  | unused
  | read
  | write
  | getsize
  | setsize
  | sync
  | getninodes

def BlockOp.code : BlockOp → Nat
  | .unused => 0
  | .read => 1
  | .write => 2
  | .getsize => 3
  | .setsize => 4
  | .sync => 5
  | .getninodes => 6

def BlockOp.ofCode : Nat → BlockOp
  | 1 => .read
  | 2 => .write
  | 3 => .getsize
  | 4 => .setsize
  | 5 => .sync
  | 6 => .getninodes
  | _ => .unused

/-- `struct block_request`. -/
structure BlockRequest where
  type : BlockOp
  ino : BitVec 32
  offsetNblock : BitVec 32

/-- `sizeof(struct block_request)`. -/
def BlockRequest.sizeof : Nat := 12

def BlockRequest.bytes (req : BlockRequest) : List Byte :=
  wordBytes req.type.code ++ (wordBytes req.ino.toNat ++ wordBytes req.offsetNblock.toNat)

/-- The request that lies in memory at `bytes`. -/
def BlockRequest.ofMemory (bytes : Buffer) : BlockRequest where
  type := .ofCode (ofBytes bytes 4)
  ino := BitVec.ofNat 32 (ofBytes (fun i => bytes (4 + i)) 4)
  offsetNblock := BitVec.ofNat 32 (ofBytes (fun i => bytes (8 + i)) 4)

inductive BlockStatus where
  | ok
  | error
  deriving DecidableEq

def BlockStatus.code : BlockStatus → Nat
  | .ok => 0
  | .error => 1

/-- `struct block_reply`, of which a client looks at whether the status is `BLOCK_OK`. -/
structure BlockReply where
  status : BlockStatus
  sizeNblock : BitVec 32

/-- `sizeof(struct block_reply)`. -/
def BlockReply.sizeof : Nat := 8

def BlockReply.bytes (rep : BlockReply) : List Byte :=
  wordBytes rep.status.code ++ wordBytes rep.sizeNblock.toNat

def BlockReply.ofMemory (bytes : Buffer) : BlockReply where
  status := if ofBytes bytes 4 = 0 then .ok else .error
  sizeNblock := BitVec.ofNat 32 (ofBytes (fun i => bytes (4 + i)) 4)

/-- The topmost block store, and the replies with their addressees. -/
structure BlockWorld (σ : Type) where
  store : σ
  outbox : List (Nat × List Byte)

variable {σ : Type}

abbrev BlockM (σ : Type) := EStateM Stop (BlockWorld σ)

def onStore {α : Type} (m : EStateM Stop σ α) : BlockM σ α :=
  onPart BlockWorld.store (fun w store => { w with store := store }) m

/-- `sys_send` of a reply. -/
def sysSend (dst : Nat) (rep : List Byte) : BlockM σ Unit :=
  modify fun w => { w with outbox := w.outbox ++ [(dst, rep)] }

def blockRespond (status : BlockStatus) (data : List Byte) (src : Nat) : BlockM σ Unit :=
  sysSend src (BlockReply.bytes ⟨status, 0⟩ ++ data)

section Server

variable (bs : BlockStore Block σ)

def blockDoRead (req : BlockRequest) (src : Nat) : BlockM σ Unit := do
  match ← onStore (bs.read req.ino.toNat req.offsetNblock.toNat) with
  | none => blockRespond .error [] src
  | some block => sysSend src (BlockReply.bytes ⟨.ok, 1⟩ ++ List.ofFn block)

/-- The answer to a call that returns an error code. -/
def blockAnswer (r : Int) (src : Nat) : BlockM σ Unit :=
  if r < 0 then blockRespond .error [] src else blockRespond .ok [] src

def blockDoWrite (req : BlockRequest) (data : Buffer) (nblock src : Nat) : BlockM σ Unit := do
  if nblock ≠ 1 then blockRespond .error [] src
  else
    let r ← onStore (bs.write req.ino.toNat req.offsetNblock.toNat (blockAt data 0))
    blockAnswer r src

def blockDoSync (req : BlockRequest) (src : Nat) : BlockM σ Unit := do
  if req.ino.toNat ≠ allInodes then blockRespond .error [] src
  else
    let r ← onStore (bs.sync req.ino.toNat)
    blockAnswer r src

/-- The C int becomes an `unsigned int`, whatever it is. -/
def blockDoGetsize (req : BlockRequest) (src : Nat) : BlockM σ Unit := do
  let size ← onStore (bs.getsize req.ino.toNat)
  sysSend src (BlockReply.bytes ⟨.ok, BitVec.ofInt 32 size⟩)

def blockDoSetsize (req : BlockRequest) (src : Nat) : BlockM σ Unit := do
  let r ← onStore (bs.setsize req.ino.toNat req.offsetNblock.toNat)
  blockAnswer r src

def blockDoGetninodes (src : Nat) : BlockM σ Unit := do
  let ninodes ← onStore bs.getninodes
  sysSend src (BlockReply.bytes ⟨.ok, BitVec.ofInt 32 ninodes⟩)

/-- The size that `block_proc` passes to `sys_recv`: that of a pointer and a page. -/
def requestBuffer : Nat := 8 + pageSize

/-- One turn of the loop of `block_proc`. -/
def blockProc (src : Nat) (contents : List Byte) : BlockM σ Unit :=
  let received := contents.take requestBuffer
  if received.length < BlockRequest.sizeof then throw .assert
  else
    let req := BlockRequest.ofMemory fun k => received.getD k 0
    match req.type with
    | .read => blockDoRead bs req src
    | .write =>
      blockDoWrite bs req (fun k => received.getD (BlockRequest.sizeof + k) 0)
        ((received.length - BlockRequest.sizeof) / blockSize) src
    | .sync => blockDoSync bs req src
    | .getsize => blockDoGetsize bs req src
    | .setsize => blockDoSetsize bs req src
    | .getninodes => blockDoGetninodes bs src
    | .unused => throw .assert

end Server

section Client

variable (bs : BlockStore Block σ) (client : Nat)

/-- `sys_rpc`. Without a reply the client waits forever. -/
def sysRpc (request : List Byte) (repsize : Nat) : BlockM σ (List Byte) := do
  let before ← get
  blockProc bs client request
  let after ← get
  match after.outbox.drop before.outbox.length with
  | rep :: _ => pure (rep.2.take repsize)
  | [] => throw .diverge

/-- The header of a reply of at least that length. -/
def BlockReply.ofReply (reply : List Byte) : Option BlockReply :=
  if reply.length < BlockReply.sizeof then none
  else some (.ofMemory fun k => reply.getD k 0)

/-- The block in a reply to `block_read`. -/
def blockOfReply (reply : List Byte) : Option Block :=
  if reply.length < BlockReply.sizeof + blockSize then none
  else if (BlockReply.ofMemory fun k => reply.getD k 0).status ≠ .ok then none
  else some (blockAt (fun k => reply.getD (BlockReply.sizeof + k) 0) 0)

def blockRead (ino offset : BitVec 32) : BlockM σ (Option Block) := do
  let reply ← sysRpc bs client (BlockRequest.bytes ⟨.read, ino, offset⟩)
    (BlockReply.sizeof + blockSize)
  pure (blockOfReply reply)

/-- The calls that return no more than whether they succeeded. -/
def blockCall (request : List Byte) : BlockM σ Bool := do
  let reply ← sysRpc bs client request BlockReply.sizeof
  pure ((BlockReply.ofReply reply).any fun rep => rep.status = .ok)

def blockWrite (ino offset : BitVec 32) (block : Block) : BlockM σ Bool :=
  blockCall bs client (BlockRequest.bytes ⟨.write, ino, offset⟩ ++ List.ofFn block)

def blockSync (ino : BitVec 32) : BlockM σ Bool :=
  blockCall bs client (BlockRequest.bytes ⟨.sync, ino, 0⟩)

def blockSetsize (ino size : BitVec 32) : BlockM σ Bool :=
  blockCall bs client (BlockRequest.bytes ⟨.setsize, ino, size⟩)

/-- The calls that return a number, or `none` for `false`. -/
def blockNumber (request : List Byte) : BlockM σ (Option Nat) := do
  let reply ← sysRpc bs client request BlockReply.sizeof
  pure ((BlockReply.ofReply reply).bind fun rep =>
    if rep.status = .ok then some rep.sizeNblock.toNat else none)

def blockGetsize (ino : BitVec 32) : BlockM σ (Option Nat) :=
  blockNumber bs client (BlockRequest.bytes ⟨.getsize, ino, 0⟩)

def blockGetninodes : BlockM σ (Option Nat) :=
  blockNumber bs client (BlockRequest.bytes ⟨.getninodes, 0, 0⟩)

end Client

/-! ## Calls through the server and direct ones -/

/-- A block store whose sizes are C ints. -/
structure IntStore (β σ : Type) extends BlockStore β σ where
  getsize_lt : ∀ ino s r s', getsize ino s = .ok r s' → r < 2 ^ 31
  getninodes_lt : ∀ s r s', getninodes s = .ok r s' → r < 2 ^ 31

/-- A call of `lib/block.c`. -/
inductive BlockCall where
  | read (ino offset : BitVec 32)
  | write (ino offset : BitVec 32) (block : Block)
  | getsize (ino : BitVec 32)
  | setsize (ino size : BitVec 32)
  | sync (ino : BitVec 32)
  | getninodes

/-- What a call hands over when it returns `true`. -/
inductive Delivery where
  | block (block : Block)
  | number (n : Int)
  | done

namespace BlockCall

/-- The call of the block store that it stands for. -/
def direct : BlockCall → Request Block
  | .read ino offset => .read ino.toNat offset.toNat
  | .write ino offset block => .write ino.toNat offset.toNat block
  | .getsize ino => .getsize ino.toNat
  | .setsize ino size => .setsize ino.toNat size.toNat
  | .sync ino => .sync ino.toNat
  | .getninodes => .getninodes

/-- The call through the server, with nothing for `false`. -/
def remote (bs : BlockStore Block σ) (client : Nat) : BlockCall → BlockM σ (Option Delivery)
  | .read ino offset => do return (← blockRead bs client ino offset).map .block
  | .write ino offset block => do
    return if ← blockWrite bs client ino offset block then some .done else none
  | .getsize ino => do return (← blockGetsize bs client ino).map fun n => .number n
  | .setsize ino size => do
    return if ← blockSetsize bs client ino size then some .done else none
  | .sync ino => do return if ← blockSync bs client ino then some .done else none
  | .getninodes => do return (← blockGetninodes bs client).map fun n => .number n

/-- What the call should hand over after this answer of the store. -/
def delivers : BlockCall → Answer Block → Option Delivery
  | _, .block block => block.map .block
  | .getsize _, .code r | .getninodes, .code r => if 0 ≤ r then some (.number r) else none
  | _, .code r => if 0 ≤ r then some .done else none

end BlockCall

/-- The call through the server succeeds if and only if the direct one does, it hands over the same
and it leaves the same store behind. If the store stops in the call, so does the server. -/
def Faithful (bs : BlockStore Block σ) (client : Nat) (call : BlockCall) (w : BlockWorld σ) : Prop :=
  match call.direct.perform bs w.store with
  | .ok answer s => Outcome (call.remote bs client)
      (fun r w' => r = call.delivers answer ∧ w'.store = s) (fun _ _ => False) w
  | .error e s => Outcome (call.remote bs client) (fun _ _ => False)
      (fun e' w' => e' = e ∧ w'.store = s) w

/-- The store does not fail to tell a number, and it is not asked to sync a single inode unless it
would refuse itself. -/
def Carried (bs : BlockStore Block σ) (s : σ) : BlockCall → Prop
  | .getsize ino => ∀ r s', bs.getsize ino.toNat s = .ok r s' → 0 ≤ r
  | .getninodes => ∀ r s', bs.getninodes s = .ok r s' → 0 ≤ r
  | .sync ino => ino.toNat = allInodes ∨ ∃ r, bs.sync ino.toNat s = .ok r s ∧ r < 0
  | .read .. | .write .. | .setsize .. => True

/-! ## Messages -/

theorem BlockOp.ofCode_code (op : BlockOp) : ofCode op.code = op := by cases op <;> rfl

theorem BlockOp.code_lt (op : BlockOp) : op.code < 2 ^ 32 := by cases op <;> decide

theorem BlockStatus.code_lt (status : BlockStatus) : status.code < 2 ^ 32 := by
  cases status <;> decide

theorem BlockRequest.length_bytes (req : BlockRequest) : req.bytes.length = sizeof := by
  simp only [bytes, List.length_append, length_wordBytes]
  rfl

theorem BlockRequest.ofMemory_bytes (req : BlockRequest) (data : List Byte) :
    ofMemory (fun k => (req.bytes ++ data).getD k 0) = req := by
  obtain ⟨type, ino, offset⟩ := req
  have htype := ofBytes_wordBytes [] (wordBytes ino.toNat ++ (wordBytes offset.toNat ++ data))
    type.code_lt
  have hino := ofBytes_wordBytes (wordBytes type.code) (wordBytes offset.toNat ++ data) ino.isLt
  have hoffset := ofBytes_wordBytes (wordBytes type.code ++ wordBytes ino.toNat) data offset.isLt
  simp only [List.length_append, length_wordBytes, List.append_assoc, List.nil_append,
    List.length_nil, Nat.zero_add] at htype hino hoffset
  unfold ofMemory bytes
  simp only [List.append_assoc]
  rw [htype, hino, hoffset, BlockOp.ofCode_code]
  simp

theorem BlockReply.length_bytes (rep : BlockReply) : rep.bytes.length = sizeof := by
  simp only [bytes, List.length_append, length_wordBytes]
  rfl

theorem BlockReply.ofMemory_bytes (rep : BlockReply) (data : List Byte) :
    ofMemory (fun k => (rep.bytes ++ data).getD k 0) = rep := by
  obtain ⟨status, size⟩ := rep
  have hstatus := ofBytes_wordBytes [] (wordBytes size.toNat ++ data) status.code_lt
  have hsize := ofBytes_wordBytes (wordBytes status.code) data size.isLt
  simp only [length_wordBytes, List.nil_append, List.length_nil, Nat.zero_add] at hstatus hsize
  unfold ofMemory bytes
  simp only [List.append_assoc]
  rw [hstatus, hsize]
  cases status <;> simp [BlockStatus.code]

theorem blockAt_ofFn (front : List Byte) (block : Block) :
    blockAt (fun k => (front ++ List.ofFn block).getD (front.length + k) 0) 0 = block := by
  funext j
  unfold blockAt
  dsimp only
  rw [List.getD_append_right _ _ _ _ (Nat.le_add_right _ _), Nat.add_sub_cancel_left]
  simp

theorem requestBuffer_fits (req : BlockRequest) {data : List Byte} (h : data.length ≤ blockSize) :
    (req.bytes ++ data).take requestBuffer = req.bytes ++ data := by
  apply List.take_of_length_le
  rw [List.length_append, req.length_bytes]
  unfold requestBuffer pageSize BlockRequest.sizeof
  unfold blockSize at h
  omega

theorem ofReply_bytes (rep : BlockReply) :
    BlockReply.ofReply (rep.bytes.take BlockReply.sizeof) = some rep := by
  have hlen := rep.length_bytes
  have hrep := rep.ofMemory_bytes []
  rw [List.append_nil] at hrep
  unfold BlockReply.ofReply
  rw [List.take_of_length_le (by omega), if_neg (by omega), hrep]

theorem blockOfReply_error :
    blockOfReply ((BlockReply.bytes ⟨.error, 0⟩).take (BlockReply.sizeof + blockSize)) = none := by
  unfold blockOfReply
  rw [if_pos]
  rw [List.length_take, BlockReply.length_bytes]
  unfold blockSize
  omega

theorem blockOfReply_ok (block : Block) :
    blockOfReply ((BlockReply.bytes ⟨.ok, 1⟩ ++ List.ofFn block).take
      (BlockReply.sizeof + blockSize)) = some block := by
  have hlen : (BlockReply.bytes ⟨.ok, 1⟩ ++ List.ofFn block).length =
      BlockReply.sizeof + blockSize := by
    rw [List.length_append, BlockReply.length_bytes, List.length_ofFn]
  have hat := blockAt_ofFn (BlockReply.bytes ⟨.ok, 1⟩) block
  rw [BlockReply.length_bytes] at hat
  unfold blockOfReply
  rw [List.take_of_length_le hlen.le, if_neg hlen.not_lt, BlockReply.ofMemory_bytes, hat,
    if_neg (not_not.mpr rfl)]

/-! ## One call -/

section

variable (bs : BlockStore Block σ) (client : Nat) {E : Stop → BlockWorld σ → Prop}
  {w : BlockWorld σ} {s : σ}

theorem blockProc_request (req : BlockRequest) {data : List Byte} (h : data.length ≤ blockSize) :
    blockProc bs client (req.bytes ++ data) =
      match req.type with
      | .read => blockDoRead bs req client
      | .write =>
        blockDoWrite bs req (fun k => (req.bytes ++ data).getD (BlockRequest.sizeof + k) 0)
          (data.length / blockSize) client
      | .sync => blockDoSync bs req client
      | .getsize => blockDoGetsize bs req client
      | .setsize => blockDoSetsize bs req client
      | .getninodes => blockDoGetninodes bs client
      | .unused => throw .assert := by
  have hlen : (req.bytes ++ data).length = BlockRequest.sizeof + data.length := by
    rw [List.length_append, req.length_bytes]
  unfold blockProc
  dsimp only
  rw [requestBuffer_fits req h, if_neg (by omega), req.ofMemory_bytes, hlen,
    Nat.add_sub_cancel_left]

theorem blockProc_bytes (req : BlockRequest) (hw : req.type ≠ .write) :
    blockProc bs client req.bytes =
      match req.type with
      | .read => blockDoRead bs req client
      | .sync => blockDoSync bs req client
      | .getsize => blockDoGetsize bs req client
      | .setsize => blockDoSetsize bs req client
      | .getninodes => blockDoGetninodes bs client
      | .write | .unused => throw .assert := by
  have hreq := @blockProc_request σ bs client req [] (Nat.zero_le _)
  rw [List.append_nil] at hreq
  rw [hreq]
  cases htype : req.type with
  | write => contradiction
  | read | sync | getsize | setsize | getninodes | unused => rfl

/-- What a client makes of the first reply since `w`. -/
def Replied (w : BlockWorld σ) (repsize : Nat) (Q : List Byte → BlockWorld σ → Prop)
    (E : Stop → BlockWorld σ → Prop) (w' : BlockWorld σ) : Prop :=
  match w'.outbox.drop w.outbox.length with
  | rep :: _ => Q (rep.2.take repsize) w'
  | [] => E .diverge w'

theorem outcome_sysRpc {request : List Byte} {repsize : Nat}
    {Q : List Byte → BlockWorld σ → Prop} : Outcome (sysRpc bs client request repsize) Q E w ↔
      Outcome (blockProc bs client request) (fun _ => Replied w repsize Q E) E w := by
  unfold sysRpc
  rw [Outcome.bind_iff, Outcome.get_iff, Outcome.bind_iff]
  have h (w' : BlockWorld σ) : (Outcome (do
      let after ← get
      match after.outbox.drop w.outbox.length with
      | rep :: _ => pure (rep.2.take repsize)
      | [] => throw Stop.diverge) Q E w') = Replied w repsize Q E w' := by
    unfold Replied
    rw [Outcome.bind_iff, Outcome.get_iff]
    split
    · rfl
    · rfl
  simp only [h]

theorem outcome_sysSend {repsize : Nat} {Q : List Byte → BlockWorld σ → Prop} (rep : List Byte)
    (h : Q (rep.take repsize) ⟨s, w.outbox ++ [(client, rep)]⟩) :
    Outcome (sysSend client rep) (fun _ => Replied w repsize Q E) E { w with store := s } := by
  unfold sysSend
  rw [Outcome.modify_iff]
  unfold Replied
  rw [List.drop_left]
  exact h

/-- What the server tells about this answer of the store. -/
def BlockCall.tells : BlockCall → Answer Block → Option Delivery
  | .getsize _, .code r | .getninodes, .code r => some (.number (BitVec.ofInt 32 r).toNat)
  | call, answer => call.delivers answer

theorem outcome_blockAnswer {Q : Bool → BlockWorld σ → Prop} (r : Int)
    (h : ∀ outbox, Q (decide (0 ≤ r)) ⟨s, outbox⟩) :
    Outcome (blockAnswer r client) (fun _ => Replied w BlockReply.sizeof (fun reply w' =>
      Q ((BlockReply.ofReply reply).any fun rep => rep.status = .ok) w') E) E
      { w with store := s } := by
  unfold blockAnswer blockRespond
  simp only [List.append_nil]
  split
  · rename_i hneg
    apply outcome_sysSend
    rw [ofReply_bytes]
    simpa [Int.not_le.mpr hneg] using h _
  · rename_i hpos
    apply outcome_sysSend
    rw [ofReply_bytes]
    simpa [Int.not_lt.mp hpos] using h _

theorem outcome_blockNumber {Q : Option Nat → BlockWorld σ → Prop} (r : Int)
    (h : ∀ outbox, Q (some (BitVec.ofInt 32 r).toNat) ⟨s, outbox⟩) :
    Outcome (sysSend client (BlockReply.bytes ⟨.ok, BitVec.ofInt 32 r⟩)) (fun _ =>
      Replied w BlockReply.sizeof (fun reply w' => Q ((BlockReply.ofReply reply).bind fun rep =>
        if rep.status = .ok then some rep.sizeNblock.toNat else none) w') E) E
      { w with store := s } := by
  apply outcome_sysSend
  rw [ofReply_bytes]
  exact h _

variable (ino : BitVec 32)

theorem outcome_blockRead {Q : Option Block → BlockWorld σ → Prop} (offset : BitVec 32)
    (h : Outcome (bs.read ino.toNat offset.toNat) (fun block s => ∀ outbox, Q block ⟨s, outbox⟩)
      (fun e s => E e { w with store := s }) w.store) :
    Outcome (blockRead bs client ino offset) Q E w := by
  unfold blockRead
  rw [Outcome.bind_iff, outcome_sysRpc, blockProc_bytes bs client _ (by simp)]
  unfold blockDoRead
  rw [Outcome.bind_iff]
  apply outcome_onPart
  apply h.post
  intro block s hq
  cases block with
  | none =>
    dsimp only [blockRespond]
    rw [List.append_nil]
    apply outcome_sysSend
    rw [blockOfReply_error]
    exact hq _
  | some block =>
    dsimp only
    apply outcome_sysSend
    rw [blockOfReply_ok]
    exact hq _

theorem outcome_blockWrite {Q : Bool → BlockWorld σ → Prop} (offset : BitVec 32) (block : Block)
    (h : Outcome (bs.write ino.toNat offset.toNat block)
      (fun r s => ∀ outbox, Q (decide (0 ≤ r)) ⟨s, outbox⟩)
      (fun e s => E e { w with store := s }) w.store) :
    Outcome (blockWrite bs client ino offset block) Q E w := by
  have hblock := blockAt_ofFn (BlockRequest.bytes ⟨.write, ino, offset⟩) block
  rw [BlockRequest.length_bytes] at hblock
  unfold blockWrite blockCall
  rw [Outcome.bind_iff, outcome_sysRpc, blockProc_request bs client _ (by simp)]
  dsimp only
  unfold blockDoWrite
  rw [List.length_ofFn, if_neg (by decide), hblock, Outcome.bind_iff]
  apply outcome_onPart
  apply h.post
  intro r s hq
  exact outcome_blockAnswer client r hq

theorem outcome_blockSetsize {Q : Bool → BlockWorld σ → Prop} (size : BitVec 32)
    (h : Outcome (bs.setsize ino.toNat size.toNat)
      (fun r s => ∀ outbox, Q (decide (0 ≤ r)) ⟨s, outbox⟩)
      (fun e s => E e { w with store := s }) w.store) :
    Outcome (blockSetsize bs client ino size) Q E w := by
  unfold blockSetsize blockCall
  rw [Outcome.bind_iff, outcome_sysRpc, blockProc_bytes bs client _ (by simp)]
  unfold blockDoSetsize
  rw [Outcome.bind_iff]
  apply outcome_onPart
  apply h.post
  intro r s hq
  exact outcome_blockAnswer client r hq

theorem outcome_blockSync_all {Q : Bool → BlockWorld σ → Prop} (hino : ino.toNat = allInodes)
    (h : Outcome (bs.sync ino.toNat) (fun r s => ∀ outbox, Q (decide (0 ≤ r)) ⟨s, outbox⟩)
      (fun e s => E e { w with store := s }) w.store) :
    Outcome (blockSync bs client ino) Q E w := by
  unfold blockSync blockCall
  rw [Outcome.bind_iff, outcome_sysRpc, blockProc_bytes bs client _ (by simp)]
  dsimp only
  unfold blockDoSync
  rw [if_neg (not_not.mpr hino), Outcome.bind_iff]
  apply outcome_onPart
  apply h.post
  intro r s hq
  exact outcome_blockAnswer client r hq

/-- A sync of a single inode gets no further than to the server. -/
theorem outcome_blockSync_single {Q : Bool → BlockWorld σ → Prop} (hino : ino.toNat ≠ allInodes)
    (h : ∀ outbox, Q false ⟨w.store, outbox⟩) : Outcome (blockSync bs client ino) Q E w := by
  unfold blockSync blockCall
  rw [Outcome.bind_iff, outcome_sysRpc, blockProc_bytes bs client _ (by simp)]
  dsimp only
  unfold blockDoSync
  rw [if_pos hino]
  exact @outcome_blockAnswer σ client E w w.store Q (-1) (by simpa using h)

theorem outcome_blockGetsize {Q : Option Nat → BlockWorld σ → Prop}
    (h : Outcome (bs.getsize ino.toNat)
      (fun r s => ∀ outbox, Q (some (BitVec.ofInt 32 r).toNat) ⟨s, outbox⟩)
      (fun e s => E e { w with store := s }) w.store) :
    Outcome (blockGetsize bs client ino) Q E w := by
  unfold blockGetsize blockNumber
  rw [Outcome.bind_iff, outcome_sysRpc, blockProc_bytes bs client _ (by simp)]
  unfold blockDoGetsize
  rw [Outcome.bind_iff]
  apply outcome_onPart
  apply h.post
  intro r s hq
  exact outcome_blockNumber client r hq

theorem outcome_blockGetninodes {Q : Option Nat → BlockWorld σ → Prop}
    (h : Outcome bs.getninodes
      (fun r s => ∀ outbox, Q (some (BitVec.ofInt 32 r).toNat) ⟨s, outbox⟩)
      (fun e s => E e { w with store := s }) w.store) :
    Outcome (blockGetninodes bs client) Q E w := by
  unfold blockGetninodes blockNumber
  rw [Outcome.bind_iff, outcome_sysRpc, blockProc_bytes bs client _ (by simp)]
  unfold blockDoGetninodes
  rw [Outcome.bind_iff]
  apply outcome_onPart
  apply h.post
  intro r s hq
  exact outcome_blockNumber client r hq

/-- Except for the sync of a single inode, a call does what the direct one does, and tells the
client. -/
theorem outcome_remote {Q : Option Delivery → BlockWorld σ → Prop} (call : BlockCall)
    (hsync : ∀ ino, call = .sync ino → ino.toNat = allInodes)
    (h : Outcome (call.direct.perform bs) (fun answer s => ∀ outbox, Q (call.tells answer) ⟨s, outbox⟩)
      (fun e s => E e { w with store := s }) w.store) :
    Outcome (call.remote bs client) Q E w := by
  have hcode {r : Int} {s : σ} (hq : ∀ outbox, Q (if 0 ≤ r then some .done else none) ⟨s, outbox⟩)
      (outbox : List (Nat × List Byte)) :
      Q (if decide (0 ≤ r) then some .done else none) ⟨s, outbox⟩ := by
    simpa using hq outbox
  cases call with
  | read ino offset =>
    apply (Outcome.bind_iff _ _).mpr
    apply outcome_blockRead
    exact ((Outcome.bind_iff _ _).mp h).post fun block s hq => hq
  | write ino offset block =>
    apply (Outcome.bind_iff _ _).mpr
    apply outcome_blockWrite
    exact ((Outcome.bind_iff _ _).mp h).post fun r s hq => hcode hq
  | getsize ino =>
    apply (Outcome.bind_iff _ _).mpr
    apply outcome_blockGetsize
    exact ((Outcome.bind_iff _ _).mp h).post fun r s hq => hq
  | setsize ino size =>
    apply (Outcome.bind_iff _ _).mpr
    apply outcome_blockSetsize
    exact ((Outcome.bind_iff _ _).mp h).post fun r s hq => hcode hq
  | sync ino =>
    apply (Outcome.bind_iff _ _).mpr
    apply outcome_blockSync_all _ _ _ (hsync ino rfl)
    exact ((Outcome.bind_iff _ _).mp h).post fun r s hq => hcode hq
  | getninodes =>
    apply (Outcome.bind_iff _ _).mpr
    apply outcome_blockGetninodes
    exact ((Outcome.bind_iff _ _).mp h).post fun r s hq => hq

end

/-! ## All calls -/

/-- If the call through the server can only end in one way, the direct one has to end like this. -/
theorem faithful_iff_ends {bs : BlockStore Block σ} {client : Nat} {call : BlockCall}
    {w : BlockWorld σ} {r : Option Delivery} {s : σ} (h : Outcome (call.remote bs client)
      (fun r' w' => r' = r ∧ w'.store = s) (fun _ _ => False) w) :
    Faithful bs client call w ↔
      ∃ answer, call.direct.perform bs w.store = .ok answer s ∧ r = call.delivers answer := by
  unfold Faithful
  cases hperform : call.direct.perform bs w.store with
  | ok answer s' =>
    dsimp only
    constructor
    · intro hf
      obtain ⟨_, _, -, ⟨hr, hs⟩, hr', hs'⟩ := (h.both hf).mono (fun _ _ hq => hq)
        (fun _ _ he => he.1) |>.exists_ok
      exact ⟨answer, by rw [← hs, hs'], by rw [← hr, hr']⟩
    · rintro ⟨answer', heq, hr⟩
      cases heq
      exact h.post fun r' w' hq => ⟨hq.1.trans hr, hq.2⟩
  | error e s' =>
    apply iff_of_false
    · intro hf
      obtain ⟨_, _, -, -, hfalse⟩ := (h.both hf).mono (fun _ _ hq => hq)
        (fun _ _ he => he.1) |>.exists_ok
      exact hfalse
    · intro hex
      obtain ⟨_, heq, -⟩ := hex
      cases heq

/-- What `perform` returns, for a call that returns a C int. -/
theorem perform_code {m : EStateM Stop σ Int} {s s' : σ} {answer : Answer Block}
    (h : (do let r ← m; pure (Answer.code r) : EStateM Stop σ (Answer Block)) s = .ok answer s') :
    ∃ r, m s = .ok r s' ∧ answer = .code r := by
  change EStateM.bind m _ s = _ at h
  unfold EStateM.bind at h
  split at h
  · rename_i r s₁ hm
    cases h
    exact ⟨r, hm, rfl⟩
  · cases h

theorem code_perform {m : EStateM Stop σ Int} {s s' : σ} {r : Int} (h : m s = .ok r s') :
    (do let r ← m; pure (Answer.code r) : EStateM Stop σ (Answer Block)) s = .ok (.code r) s' := by
  change EStateM.bind m _ s = _
  unfold EStateM.bind
  rw [h]
  rfl

/-- What the server tells is right if and only if no error was taken for a number. -/
theorem tells_eq_iff {bs : IntStore Block σ} {call : BlockCall} {s s' : σ} {answer : Answer Block}
    (hsync : ∀ ino, call = .sync ino → ino.toNat = allInodes)
    (h : call.direct.perform bs.toBlockStore s = .ok answer s') :
    call.tells answer = call.delivers answer ↔ Carried bs.toBlockStore s call := by
  have hnumber {r : Int} (hr : r < 2 ^ 31) :
      some (Delivery.number (BitVec.ofInt 32 r).toNat) =
        (if 0 ≤ r then some (.number r) else none) ↔ 0 ≤ r := by
    split
    · rename_i hpos
      rw [BitVec.toNat_ofInt]
      have hmod : ((r % (2 ^ 32 : Nat)).toNat : Int) = r := by omega
      exact iff_of_true (by rw [hmod]) hpos
    · rename_i hneg
      exact iff_of_false (by simp) hneg
  cases call with
  | getsize ino =>
    obtain ⟨r, hm, rfl⟩ := perform_code h
    change _ ↔ ∀ r s', bs.getsize ino.toNat s = .ok r s' → 0 ≤ r
    rw [hm]
    refine (hnumber (bs.getsize_lt _ _ _ _ hm)).trans ⟨fun hr r' s' heq => ?_, fun hall => ?_⟩
    · cases heq
      exact hr
    · exact hall r _ rfl
  | getninodes =>
    obtain ⟨r, hm, rfl⟩ := perform_code h
    change _ ↔ ∀ r s', bs.getninodes s = .ok r s' → 0 ≤ r
    rw [hm]
    refine (hnumber (bs.getninodes_lt _ _ _ hm)).trans ⟨fun hr r' s' heq => ?_, fun hall => ?_⟩
    · cases heq
      exact hr
    · exact hall r _ rfl
  | sync ino => exact iff_of_true rfl (.inl (hsync ino rfl))
  | read | write | setsize => exact iff_of_true rfl trivial

/-- A call through the server is faithful if and only if it is `Carried`: a failure to tell a number
is passed on as the number 2 ^ 32 - 1, and a sync of a single inode never reaches the store. -/
theorem faithful_iff (bs : IntStore Block σ) (client : Nat) (call : BlockCall) (w : BlockWorld σ) :
    Faithful bs.toBlockStore client call w ↔ Carried bs.toBlockStore w.store call := by
  by_cases hsingle : ∃ ino, call = .sync ino ∧ ino.toNat ≠ allInodes
  · obtain ⟨ino, rfl, hino⟩ := hsingle
    have hends : Outcome ((BlockCall.sync ino).remote bs.toBlockStore client)
        (fun r w' => r = none ∧ w'.store = w.store) (fun _ _ => False) w := by
      apply (Outcome.bind_iff _ _).mpr
      exact outcome_blockSync_single _ _ _ hino fun _ => ⟨rfl, rfl⟩
    rw [faithful_iff_ends hends]
    constructor
    · intro hex
      obtain ⟨answer, hperform, hnone⟩ := hex
      obtain ⟨r, hm, rfl⟩ := perform_code hperform
      refine .inr ⟨r, hm, ?_⟩
      by_contra hpos
      change none = if 0 ≤ r then some Delivery.done else none at hnone
      rw [if_pos (Int.not_lt.mp hpos)] at hnone
      cases hnone
    · intro hcarried
      obtain ⟨r, hm, hneg⟩ := hcarried.resolve_left hino
      exact ⟨.code r, code_perform hm, (if_neg (Int.not_le.mpr hneg)).symm⟩
  · have hsync (ino : BitVec 32) (heq : call = .sync ino) : ino.toNat = allInodes := by
      by_contra hne
      exact hsingle ⟨ino, heq, hne⟩
    cases hperform : call.direct.perform bs.toBlockStore w.store with
    | ok answer s =>
      have hends := @outcome_remote σ bs.toBlockStore client (fun _ _ => False) w
        (fun r w' => r = call.tells answer ∧ w'.store = s) call hsync
        (.of_ok hperform fun _ => ⟨rfl, rfl⟩)
      rw [faithful_iff_ends hends, ← tells_eq_iff hsync hperform]
      constructor
      · intro hex
        obtain ⟨answer', heq, hr⟩ := hex
        rw [hperform] at heq
        cases heq
        exact hr
      · exact fun hr => ⟨answer, hperform, hr⟩
    | error e s =>
      have hends := @outcome_remote σ bs.toBlockStore client (fun e' w' => e' = e ∧ w'.store = s) w
        (fun _ _ => False) call hsync
      unfold Outcome at hends
      rw [hperform] at hends
      apply iff_of_true
      · unfold Faithful
        rw [hperform]
        exact hends ⟨rfl, rfl⟩
      · cases call with
        | getsize | getninodes =>
          intro r s' hm
          have hok := hperform.symm.trans (code_perform hm)
          cases hok
        | sync ino => exact .inl (hsync ino rfl)
        | read | write | setsize => trivial

theorem toInt_lt (n : Nat) : toInt n < 2 ^ 31 := by
  unfold toInt
  split <;> omega

/-- A ramdisk as the topmost store. -/
def ramdiskInts : IntStore Block (Ramdisk.State Block) where
  toBlockStore := Ramdisk.ramdisk
  getsize_lt := by
    intro ino s r s' h
    have hout : Outcome (Ramdisk.getsize ino) (fun r _ => r < 2 ^ 31) (fun _ _ => True) s := by
      unfold Ramdisk.getsize
      split
      · exact (by decide : (-1 : Int) < 2 ^ 31)
      · exact toInt_lt _
    exact hout.ok h
  getninodes_lt := by
    intro s r s' h
    cases h
    decide

/-- A store with one block. -/
def oneBlock : BlockWorld (Ramdisk.State Block) := ⟨⟨fun _ _ => 0, 1⟩, []⟩

/-- The store syncs its inode 0, and it has no inode 1. -/
theorem sync_and_getsize_differ : ¬Faithful ramdiskInts.toBlockStore 5 (.sync 0) oneBlock ∧
    ¬Faithful ramdiskInts.toBlockStore 5 (.getsize 1) oneBlock := by
  constructor
  · intro h
    cases h.1
  · intro h
    cases h.1

/-! ## The users of the block server -/

section

variable (bs : BlockStore Block σ) (client : Nat)

/-- A call of a server that has stopped returns `fallback`. -/
def attempt {α : Type} (fallback : α) (m : BlockM σ α) : StateM (BlockWorld σ) α := fun w =>
  match m w with
  | .ok a w' => (a, w')
  | .error _ w' => (fallback, w')

theorem attempt_of_outcome {α : Type} {fallback : α} {m : BlockM σ α} {w : BlockWorld σ}
    {P : α → BlockWorld σ → Prop} (h : Outcome m P (fun _ w' => P fallback w') w) :
    P (attempt fallback m w).1 (attempt fallback m w).2 := by
  unfold attempt
  unfold Outcome at h
  split
  · rename_i hm
    rw [hm] at h
    exact h
  · rename_i hm
    rw [hm] at h
    exact h

/-- What the block file server calls. -/
def remoteServer : BlockServer (BlockWorld σ) where
  getsize ino := attempt none (blockGetsize bs client (BitVec.ofNat 32 ino))
  setsize ino size := attempt false (blockSetsize bs client (BitVec.ofNat 32 ino) (BitVec.ofNat 32 size))
  read ino offset := attempt none (blockRead bs client (BitVec.ofNat 32 ino) (BitVec.ofNat 32 offset))
  write ino offset block :=
    attempt false (blockWrite bs client (BitVec.ofNat 32 ino) (BitVec.ofNat 32 offset) block)
  sync ino := attempt false (blockSync bs client (BitVec.ofNat 32 ino))

/-- `FILE_SYNC` of one file fails, and the block store does not learn of it. -/
theorem file_sync_single (req : FileRequest) (src : BitVec 32) (w : World (BlockWorld σ))
    (hall : req.fileNo.toNat ≠ allInodes) :
    Outcome (Bfs.doSync (remoteServer bs client) req src) (fun _ w' =>
      w'.outbox = w.outbox ++ [(src, .plain .error [])] ∧ w'.disk.store = w.disk.store)
      (fun _ _ => False) w := by
  unfold Bfs.doSync
  rw [Outcome.bind_iff, Outcome.get_iff]
  dsimp only
  split
  · exact ⟨rfl, rfl⟩
  · have hino : (BitVec.ofNat 32 req.fileNo.toNat).toNat ≠ allInodes := by simpa using hall
    have hsync : ((remoteServer bs client).sync req.fileNo.toNat w.disk).1 = false ∧
        ((remoteServer bs client).sync req.fileNo.toNat w.disk).2.store = w.disk.store := by
      apply attempt_of_outcome (P := fun b w' => b = false ∧ w'.store = w.disk.store)
      exact outcome_blockSync_single _ _ _ hino fun _ => ⟨rfl, rfl⟩
    rw [Outcome.bind_iff, outcome_onDisk, hsync.1]
    exact ⟨rfl, hsync.2⟩

variable (ino : BitVec 32)

/-- `protdisk.c`, a block store with the one inode 0, which is inode `ino` of the server. -/
def protdisk : BlockStore Block (BlockWorld σ) where
  getninodes := do
    match ← blockGetninodes bs client with
    | none => throw .assert
    | some ninodes => pure (toInt ninodes)
  getsize i := do
    if i ≠ 0 then pure (-1)
    else
      match ← blockGetsize bs client ino with
      | none => throw .assert
      | some nblocks => pure (toInt nblocks)
  setsize _ _ := throw .assert
  read i offset := do
    if i ≠ 0 then pure none
    else blockRead bs client ino (BitVec.ofNat 32 offset)
  write i offset block := do
    if i ≠ 0 then pure (-1)
    else return if ← blockWrite bs client ino (BitVec.ofNat 32 offset) block then 0 else -1
  sync i := do
    if i ≠ 0 then pure (-1)
    else return if ← blockSync bs client ino then 0 else -1

theorem outcome_protdisk_read {Q : Option Block → BlockWorld σ → Prop}
    {E : Stop → BlockWorld σ → Prop} {w : BlockWorld σ} {offset : Nat} (hoffset : offset < 2 ^ 32)
    (h : Outcome (bs.read ino.toNat offset) (fun block s => ∀ outbox, Q block ⟨s, outbox⟩)
      (fun e s => E e { w with store := s }) w.store) :
    Outcome ((protdisk bs client ino).read 0 offset) Q E w := by
  apply outcome_blockRead
  rw [BitVec.toNat_ofNat, Nat.mod_eq_of_lt hoffset]
  exact h

theorem outcome_protdisk_write {Q : Int → BlockWorld σ → Prop} {E : Stop → BlockWorld σ → Prop}
    {w : BlockWorld σ} {offset : Nat} (hoffset : offset < 2 ^ 32) (block : Block)
    (h : Outcome (bs.write ino.toNat offset block)
      (fun r s => ∀ outbox, Q (if 0 ≤ r then 0 else -1) ⟨s, outbox⟩)
      (fun e s => E e { w with store := s }) w.store) :
    Outcome ((protdisk bs client ino).write 0 offset block) Q E w := by
  apply (Outcome.bind_iff _ _).mpr
  apply outcome_blockWrite
  rw [BitVec.toNat_ofNat, Nat.mod_eq_of_lt hoffset]
  apply h.post
  intro r s hq outbox
  simpa using hq outbox

/-- A `protdisk` over this server cannot sync. -/
theorem outcome_protdisk_sync {E : Stop → BlockWorld σ → Prop} {w : BlockWorld σ}
    (hino : ino.toNat ≠ allInodes) (i : Nat) : Outcome ((protdisk bs client ino).sync i)
      (fun r w' => r = -1 ∧ w'.store = w.store) E w := by
  unfold protdisk
  dsimp only
  split
  · exact ⟨rfl, rfl⟩
  · rw [Outcome.bind_iff]
    exact outcome_blockSync_single _ _ _ hino fun _ => ⟨rfl, rfl⟩

end

end Egos.Blocksvr
