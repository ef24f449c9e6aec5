import Egos.Disk.Store
import Egos.Grass.Process

/-!
# The gate server

`gatesvr.c`, which reads and writes files of the underlying operating system for its clients.
Memory behind the received bytes is a parameter, and every range of the payload that a handler
reads is recorded, also where it leaves the payload. The operations of the host are a parameter
of which only the documented length of a read is known.
-/
namespace Egos.Grass

open Egos.Lib Egos.Disk Egos.Earth

set_option autoImplicit false

/-- The `type` of a `struct gate_request`, where all values without a `case` are alike. -/
inductive GateOp where
  | unused
  | pull
  | push
  | gettime
  deriving DecidableEq

def GateOp.ofCode : Nat → GateOp
  | 1 => .pull
  | 2 => .push
  | 3 => .gettime
  | _ => .unused

/-- `struct gate_request`. The two members of the union have the same fields. -/
structure GateRequest where
  type : GateOp
  pos : BitVec 64
  flen : BitVec 32
  size : BitVec 32

/-- `sizeof(struct gate_request)`. -/
def GateRequest.sizeof : Nat := 24

/-- The request that lies in memory at `bytes`. -/
def GateRequest.ofMemory (bytes : Buffer) : GateRequest where
  type := .ofCode (ofBytes bytes 4)
  pos := BitVec.ofNat 64 (ofBytes (fun i => bytes (8 + i)) 8)
  flen := BitVec.ofNat 32 (ofBytes (fun i => bytes (16 + i)) 4)
  size := BitVec.ofNat 32 (ofBytes (fun i => bytes (20 + i)) 4)

/-- `struct gate_time`. -/
structure GateTime where
  seconds : BitVec 64
  useconds : BitVec 32
  minuteswest : BitVec 32
  dsttime : BitVec 32
  deriving DecidableEq

/-- `struct gate_reply` and the bytes that follow it in the message. -/
inductive GateReply where
  | error
  | size (size : Nat) (data : List Byte)
  | time (time : GateTime)
  deriving DecidableEq

/-- `earth.dev_gate`, with the state of the host. A failed operation is `none`, and a read
returns at most as many bytes as it is asked for. -/
structure DevGate (η : Type) where
  read : List Byte → BitVec 64 → Nat → StateM η (Option (List Byte))
  write : List Byte → BitVec 64 → List Byte → StateM η (Option Nat)
  gettime : StateM η GateTime
  read_length : ∀ file pos n host, ∀ bytes ∈ (read file pos n host).1, bytes.length ≤ n

/-- What a handler does that others can tell. -/
inductive GateDeed where
  /-- it reads `len` bytes from the payload, starting at `start` -/
  | access (start len : Nat)
  | hostRead (file : List Byte) (pos : BitVec 64) (n : Nat)
  | hostWrite (file : List Byte) (pos : BitVec 64) (data : List Byte)
  | reply (dst : Nat) (rep : GateReply)
  deriving DecidableEq

structure GateWorld (η : Type) where
  host : η
  deeds : List GateDeed

abbrev GateM (η : Type) := EStateM Stop (GateWorld η)

variable {η : Type}

namespace Gate

def note (deed : GateDeed) : GateM η Unit :=
  modify fun w => { w with deeds := w.deeds ++ [deed] }

def onHost {α : Type} (m : StateM η α) : GateM η α := fun w =>
  .ok (m w.host).1 { w with host := (m w.host).2 }

/-- `gate_respond` with `GATE_ERROR`. -/
def gateRespond (src : Nat) : GateM η Unit := note (.reply src .error)

/-- `memcpy` of `len` bytes out of the payload. -/
def copy (data : Buffer) (start len : Nat) : GateM η (List Byte) := do
  note (.access start len)
  return (List.range len).map fun i => data (start + i)

/-- The copy of the file name, as the C string that the host takes. With the longest length the
size of the allocation wraps to zero. -/
def copyName (data : Buffer) (flen : BitVec 32) : GateM η (List Byte) := do
  let file ← copy data 0 flen.toNat
  if flen + 1 = 0 then
    throw .undefined
  return file.takeWhile (· ≠ 0)

/-- The check of the lengths. There is no `return` behind the error reply. -/
def checkArgs (c : Bool) (src : Nat) : GateM η Unit :=
  if c then pure () else gateRespond src

def gateDoPull (dev : DevGate η) (req : GateRequest) (src : Nat) (data : Buffer)
    (size : BitVec 32) : GateM η Unit := do
  checkArgs (req.flen = size) src
  let file ← copyName data req.flen
  let n := min req.size.toNat pageSize
  note (.hostRead file req.pos n)
  match ← onHost (dev.read file req.pos n) with
  | none => gateRespond src
  | some bytes => note (.reply src (.size bytes.length bytes))

def gateDoPush (dev : DevGate η) (req : GateRequest) (src : Nat) (data : Buffer)
    (size : BitVec 32) : GateM η Unit := do
  checkArgs (req.flen + req.size = size) src
  let file ← copyName data req.flen
  let bytes ← copy data req.flen.toNat req.size.toNat
  note (.hostWrite file req.pos bytes)
  match ← onHost (dev.write file req.pos bytes) with
  | none => gateRespond src
  | some n => note (.reply src (.size n []))

def gateDoGettime (dev : DevGate η) (src : Nat) : GateM η Unit := do
  let time ← onHost dev.gettime
  note (.reply src (.time time))

/-- The size that `gate_proc` passes to `sys_recv`: that of a pointer and a page. -/
def requestBuffer : Nat := 8 + pageSize

/-- The payload of a message, and what lies behind it. -/
def payloadAt (received : List Byte) (heap : Buffer) : Buffer := fun k =>
  (received.drop GateRequest.sizeof).getD k (heap k)

/-- One turn of the loop of `gate_proc`. -/
def gateProc (dev : DevGate η) (heap : Buffer) (src : Nat) (contents : List Byte) :
    GateM η Unit := do
  let received := contents.take requestBuffer
  if received.length < GateRequest.sizeof then
    throw .assert
  let req := GateRequest.ofMemory fun k => received.getD k 0
  let data := payloadAt received heap
  let size := BitVec.ofNat 32 (received.length - GateRequest.sizeof)
  match req.type with
  | .pull => gateDoPull dev req src data size
  | .push => gateDoPush dev req src data size
  | .gettime => gateDoGettime dev src
  | .unused => gateRespond src

/-- What `gate_proc` finds in its buffer. -/
def header (contents : List Byte) : GateRequest :=
  .ofMemory fun k => (contents.take requestBuffer).getD k 0

/-- The number of bytes behind the header. -/
def payload (contents : List Byte) : Nat :=
  (contents.take requestBuffer).length - GateRequest.sizeof

/-- The lengths in the request describe the payload, as numbers without an upper bound. -/
def LengthsMatch (contents : List Byte) : Prop :=
  match (header contents).type with
  | .pull => (header contents).flen.toNat = payload contents
  | .push => (header contents).flen.toNat + (header contents).size.toNat = payload contents
  | _ => True

instance (contents : List Byte) : Decidable (LengthsMatch contents) := by
  unfold LengthsMatch
  split <;> infer_instance

end Gate

def GateDeed.isReply : GateDeed → Bool
  | .reply .. => true
  | _ => false

/-- Whether the host reads or writes one of its files. -/
def GateDeed.isTransfer : GateDeed → Bool
  | .hostRead .. | .hostWrite .. => true
  | _ => false

namespace Gate

/-- One reply, no access outside of the payload, and no transfer unless the lengths match. -/
structure Disciplined (contents : List Byte) (src : Nat) (deeds : List GateDeed) : Prop where
  oneReply : ∃ rep, deeds.filter GateDeed.isReply = [.reply src rep]
  inside : ∀ start len, .access start len ∈ deeds → start + len ≤ payload contents
  matched : ∀ deed ∈ deeds, deed.isTransfer → LengthsMatch contents

/-- The server takes the request to its end, and what it did meanwhile is disciplined. -/
def Serves (dev : DevGate η) (heap : Buffer) (src : Nat) (contents : List Byte)
    (w : GateWorld η) : Prop :=
  Outcome (gateProc dev heap src contents)
    (fun _ w' => ∃ deeds, w'.deeds = w.deeds ++ deeds ∧ Disciplined contents src deeds)
    (fun _ _ => False) w

/-- The reply that a handler sends before it goes on. -/
def complaint (src : Nat) (c : Bool) : List GateDeed := if c then [] else [.reply src .error]

section

variable {w : GateWorld η} {src : Nat} {data : Buffer}

theorem outcome_copyName {flen : BitVec 32} : Outcome (copyName data flen)
    (fun _ w' => w'.deeds = w.deeds ++ [.access 0 flen.toNat])
    (fun _ _ => flen.toNat = 2 ^ 32 - 1) w := by
  simp only [copyName, copy, note, Outcome.bind_iff, Outcome.modify_iff, Outcome.pure_iff]
  split
  · rename_i hwrap
    rw [Outcome.bind_iff, Outcome.throw_iff]
    have h : (flen.toNat + 1) % 2 ^ 32 = 0 := congrArg BitVec.toNat hwrap
    have hlt := flen.isLt
    omega
  · rfl

theorem outcome_checkArgs {c : Bool} : Outcome (checkArgs c src)
    (fun _ w' => w'.deeds = w.deeds ++ complaint src c) (fun _ _ => False) w := by
  cases c with
  | true => exact (List.append_nil _).symm
  | false => rfl

theorem outcome_gateDoPull (dev : DevGate η) (req : GateRequest) (size : BitVec 32) :
    Outcome (gateDoPull dev req src data size)
      (fun _ w' => ∃ deeds, w'.deeds = w.deeds ++ complaint src (req.flen = size) ++ deeds ∧
        ∃ file n rep, deeds =
          [.access 0 req.flen.toNat, .hostRead file req.pos n, .reply src rep])
      (fun _ _ => req.flen.toNat = 2 ^ 32 - 1) w := by
  unfold gateDoPull
  rw [Outcome.bind_iff]
  refine outcome_checkArgs.mono (fun _ w₁ h₁ => ?_) (fun _ _ h => h.elim)
  rw [Outcome.bind_iff]
  refine outcome_copyName.post fun file w₂ h₂ => ?_
  simp only [note, Outcome.bind_iff, Outcome.modify_iff]
  refine Outcome.of_ok rfl ?_
  rw [h₁] at h₂
  split
  · simp [gateRespond, note, h₂]
  · simp [h₂]

theorem outcome_gateDoPush (dev : DevGate η) (req : GateRequest) (size : BitVec 32) :
    Outcome (gateDoPush dev req src data size)
      (fun _ w' => ∃ deeds, w'.deeds = w.deeds ++
        complaint src (req.flen + req.size = size) ++ deeds ∧ ∃ file bytes rep, deeds =
          [.access 0 req.flen.toNat, .access req.flen.toNat req.size.toNat,
            .hostWrite file req.pos bytes, .reply src rep])
      (fun _ _ => req.flen.toNat = 2 ^ 32 - 1) w := by
  unfold gateDoPush
  rw [Outcome.bind_iff]
  refine outcome_checkArgs.mono (fun _ w₁ h₁ => ?_) (fun _ _ h => h.elim)
  rw [Outcome.bind_iff]
  refine outcome_copyName.post fun file w₂ h₂ => ?_
  simp only [copy, note, Outcome.bind_iff, Outcome.modify_iff, Outcome.pure_iff]
  refine Outcome.of_ok rfl ?_
  rw [h₁] at h₂
  split
  · simp [gateRespond, note, h₂]
  · simp [h₂]

theorem payload_le (contents : List Byte) : payload contents ≤ pageSize := by
  unfold payload requestBuffer GateRequest.sizeof
  rw [List.length_take]
  omega

theorem toNat_payload (contents : List Byte) :
    (BitVec.ofNat 32 (payload contents)).toNat = payload contents := by
  have hle := payload_le contents
  unfold pageSize at hle
  exact Nat.mod_eq_of_lt (by omega)

/-- A handler that perhaps complains and then always transfers and replies. It is disciplined if
the lengths match, and then it does not complain. -/
theorem disciplined_iff {m : GateM η Unit} {contents : List Byte} {c : Bool} {flen : BitVec 32}
    {Shape : List GateDeed → Prop}
    (hm : Outcome m (fun _ w' => ∃ deeds, w'.deeds = w.deeds ++ complaint src c ++ deeds ∧
      Shape deeds) (fun _ _ => flen.toNat = 2 ^ 32 - 1) w)
    (htransfer : ∀ deeds, Shape deeds → ∃ deed ∈ deeds, deed.isTransfer)
    (hmatched : LengthsMatch contents → c = true ∧ flen.toNat ≤ payload contents ∧
      ∀ deeds, Shape deeds → Disciplined contents src deeds) :
    Outcome m (fun _ w' => ∃ deeds, w'.deeds = w.deeds ++ deeds ∧ Disciplined contents src deeds)
      (fun _ _ => False) w ↔ LengthsMatch contents := by
  constructor
  · intro h
    obtain ⟨_, w', hw', deeds, hdeeds, hdisciplined⟩ := h.exists_ok
    obtain ⟨rest, hall, hrest⟩ := hm.ok hw'
    rw [hdeeds, List.append_assoc, List.append_cancel_left_eq] at hall
    subst hall
    obtain ⟨deed, hmem, htrans⟩ := htransfer rest hrest
    exact hdisciplined.matched deed (List.mem_append_right _ hmem) htrans
  · intro hmatch
    obtain ⟨rfl, hflen, hall⟩ := hmatched hmatch
    apply hm.mono
    · rintro _ w' ⟨deeds, hdeeds, hd⟩
      rw [complaint, if_pos rfl, List.append_nil] at hdeeds
      exact ⟨deeds, hdeeds, hall deeds hd⟩
    · intro _ _ he
      have hle := payload_le contents
      unfold pageSize at hle
      omega

theorem pull_disciplined_iff (dev : DevGate η) {contents : List Byte}
    (htype : (header contents).type = .pull) :
    Outcome (gateDoPull dev (header contents) src data (BitVec.ofNat 32 (payload contents)))
      (fun _ w' => ∃ deeds, w'.deeds = w.deeds ++ deeds ∧ Disciplined contents src deeds)
      (fun _ _ => False) w ↔ LengthsMatch contents := by
  refine disciplined_iff (outcome_gateDoPull dev _ _) ?_ fun hmatch => ?_
  · rintro _ ⟨file, n, rep, rfl⟩
    exact ⟨.hostRead file (header contents).pos n, by simp, rfl⟩
  · have hlen : (header contents).flen.toNat = payload contents := by
      simpa only [LengthsMatch, htype] using hmatch
    refine ⟨?_, hlen.le, ?_⟩
    · rw [decide_eq_true_eq, ← BitVec.toNat_inj, toNat_payload, hlen]
    · rintro _ ⟨file, n, rep, rfl⟩
      refine ⟨⟨rep, rfl⟩, fun start len hmem => ?_, fun _ _ _ => hmatch⟩
      simp only [List.mem_cons, GateDeed.access.injEq, reduceCtorEq, List.not_mem_nil, or_false]
        at hmem
      omega

theorem push_disciplined_iff (dev : DevGate η) {contents : List Byte}
    (htype : (header contents).type = .push) :
    Outcome (gateDoPush dev (header contents) src data (BitVec.ofNat 32 (payload contents)))
      (fun _ w' => ∃ deeds, w'.deeds = w.deeds ++ deeds ∧ Disciplined contents src deeds)
      (fun _ _ => False) w ↔ LengthsMatch contents := by
  refine disciplined_iff (outcome_gateDoPush dev _ _) ?_ fun hmatch => ?_
  · rintro _ ⟨file, bytes, rep, rfl⟩
    exact ⟨.hostWrite file (header contents).pos bytes, by simp, rfl⟩
  · have hlen : (header contents).flen.toNat + (header contents).size.toNat = payload contents := by
      simpa only [LengthsMatch, htype] using hmatch
    refine ⟨?_, by omega, ?_⟩
    · have hle := payload_le contents
      unfold pageSize at hle
      rw [decide_eq_true_eq, ← BitVec.toNat_inj, toNat_payload, BitVec.toNat_add, hlen]
      exact Nat.mod_eq_of_lt (by omega)
    · rintro _ ⟨file, bytes, rep, rfl⟩
      refine ⟨⟨rep, rfl⟩, fun start len hmem => ?_, fun _ _ _ => hmatch⟩
      simp only [List.mem_cons, GateDeed.access.injEq, reduceCtorEq, List.not_mem_nil, or_false]
        at hmem
      omega

end

/-- The server handles a transfer as it should if and only if the message has a whole header whose
lengths are those of the payload. In every other case it crashes, or it complains and then goes on
with the transfer. -/
theorem serves_iff (dev : DevGate η) (heap : Buffer) (src : Nat) (contents : List Byte)
    (w : GateWorld η) (htype : (header contents).type = .pull ∨ (header contents).type = .push) :
    Serves dev heap src contents w ↔
      GateRequest.sizeof ≤ contents.length ∧ LengthsMatch contents := by
  have hshort : (contents.take requestBuffer).length < GateRequest.sizeof ↔
      contents.length < GateRequest.sizeof := by
    rw [List.length_take, requestBuffer, GateRequest.sizeof, pageSize]
    omega
  unfold Serves gateProc
  by_cases hlen : contents.length < GateRequest.sizeof
  · rw [if_pos (hshort.mpr hlen), Outcome.bind_iff, Outcome.throw_iff]
    exact ⟨False.elim, fun h => absurd hlen (Nat.not_lt.mpr h.1)⟩
  · rw [if_neg (mt hshort.mp hlen)]
    simp only [Nat.not_lt.mp hlen, true_and]
    change Outcome (match (header contents).type with
      | .pull => _
      | .push => _
      | .gettime => _
      | .unused => _) _ _ _ ↔ _
    obtain htype | htype := htype
    · rw [htype]
      exact pull_disciplined_iff dev htype
    · rw [htype]
      exact push_disciplined_iff dev htype

/-- A host with empty files. -/
def emptyGate : DevGate Unit where
  read _ _ _ := pure (some [])
  write _ _ bytes := pure (some bytes.length)
  gettime := pure ⟨0, 0, 0, 0⟩
  read_length := by
    rintro _ _ n _ bytes hbytes
    cases hbytes
    exact Nat.zero_le n

/-- The message of a client. -/
def request (type flen size : Nat) (data : List Byte) : List Byte :=
  wordBytes type ++ List.replicate 12 0 ++ wordBytes flen ++ wordBytes size ++ data

theorem serves_push : Serves emptyGate (fun _ => 0) 7 (request 2 1 2 [97, 0, 1]) ⟨(), []⟩ :=
  (serves_iff emptyGate _ 7 (request 2 1 2 [97, 0, 1]) ⟨(), []⟩ (by decide)).mpr (by decide)

/-- The name is said to be longer than the message. The client gets two replies, the second one
after a read of the file whose name goes on behind the message. -/
theorem long_name_replies_twice :
    (header (request 1 3 10 [97])).type = .pull ∧
    (final (gateProc emptyGate (fun _ => 98) 7 (request 1 3 10 [97]) ⟨(), []⟩)).deeds =
      [.reply 7 .error, .access 0 3, .hostRead [97, 98, 98] 0 10, .reply 7 (.size 0 [])] ∧
    ¬Serves emptyGate (fun _ => 98) 7 (request 1 3 10 [97]) ⟨(), []⟩ := by
  refine ⟨by decide +kernel, by decide +kernel, fun h => ?_⟩
  unfold Serves at h
  obtain ⟨_, w', hw', deeds, hdeeds, hd⟩ := h.exists_ok
  have hall : (final (gateProc emptyGate (fun _ => 98) 7 (request 1 3 10 [97]) ⟨(), []⟩)).deeds =
      [.reply 7 .error, .access 0 3, .hostRead [97, 98, 98] 0 10, .reply 7 (.size 0 [])] := by
    decide +kernel
  rw [hw', final, hdeeds, List.nil_append] at hall
  obtain ⟨rep, hone⟩ := hd.oneReply
  rw [hall] at hone
  cases hone

end Gate

end Egos.Grass
