import Egos.File.Blocksvr

/-!
# The disk server

`disksvr.c`. The device is a parameter. It carries out an operation at once, and later an event in
interrupt context tells the client how it ended.
-/
namespace Egos.Disksvr

open Egos.Lib Egos.Disk Egos.Blocksvr
open Egos.Grass (Message)
open Egos.File (blockSize)

set_option autoImplicit false

/-- `earth.dev_disk`. A read that succeeds yields the contents of a block. -/
structure DevDisk (δ : Type) where
  read : BitVec 32 → StateM δ (Option (List Byte))
  write : BitVec 32 → List Byte → StateM δ Bool
  getsize : δ → BitVec 32

/-- The device, the replies that wait for their events, and those that have been sent, with their
addressees. -/
structure DiskWorld (δ : Type) where
  device : δ
  events : List (Nat × List Byte)
  outbox : List (Nat × List Byte)

variable {δ : Type}

abbrev DiskM (δ : Type) := EStateM Stop (DiskWorld δ)

/-- `sys_send`, or `proc_send` in interrupt context. -/
def send (dst : Nat) (rep : List Byte) : DiskM δ Unit :=
  modify fun w => { w with outbox := w.outbox ++ [(dst, rep)] }

def onDevice {α : Type} (m : StateM δ α) : DiskM δ α := fun w =>
  .ok (m w.device).1 { w with device := (m w.device).2 }

def errorReply : List Byte := BlockReply.bytes ⟨.error, 0⟩

/-- `disk_respond` without data. -/
def diskRespond (status : BlockStatus) (src : Nat) : DiskM δ Unit :=
  send src (BlockReply.bytes ⟨status, 0⟩)

/-- The reply of `disk_read_complete` and `disk_write_complete`, until the event. -/
def schedule (src : Nat) (rep : List Byte) : DiskM δ Unit :=
  modify fun w => { w with events := w.events ++ [(src, rep)] }

/-- The next event. -/
def diskComplete : DiskM δ Unit := do
  match (← get).events with
  | [] => pure ()
  | (src, rep) :: rest =>
    modify fun w => { w with events := rest }
    send src rep

section

variable (dev : DevDisk δ)

def diskDoRead (req : BlockRequest) (src : Nat) : DiskM δ Unit := do
  if req.ino ≠ 0 then diskRespond .error src
  else
    match ← onDevice (dev.read req.offsetNblock) with
    | none => schedule src (BlockReply.bytes ⟨.error, 1⟩)
    | some block => schedule src (BlockReply.bytes ⟨.ok, 1⟩ ++ block)

def diskDoWrite (req : BlockRequest) (data : List Byte) (src : Nat) : DiskM δ Unit := do
  if data.length ≠ blockSize then throw .assert
  else if req.ino ≠ 0 then diskRespond .error src
  else
    let success ← onDevice (dev.write req.offsetNblock data)
    schedule src (BlockReply.bytes ⟨if success then .ok else .error, 1⟩)

def diskDoGetsize (req : BlockRequest) (src : Nat) : DiskM δ Unit := do
  if req.ino ≠ 0 then diskRespond .error src
  else
    let w ← get
    send src (BlockReply.bytes ⟨.ok, dev.getsize w.device⟩)

def diskDoSetsize (src : Nat) : DiskM δ Unit := diskRespond .error src

def diskDoSync (src : Nat) : DiskM δ Unit := diskRespond .ok src

/-- The size that `disk_proc` passes to `sys_recv`. -/
def requestBuffer : Nat := BlockRequest.sizeof + blockSize

/-- One turn of the loop of `disk_proc`. -/
def diskProc (msg : Message) : DiskM δ Unit :=
  let received := msg.contents.take requestBuffer
  if received.length < BlockRequest.sizeof then throw .assert
  else
    let req := BlockRequest.ofMemory fun k => received.getD k 0
    match req.type with
    | .read => diskDoRead dev req msg.src
    | .write => diskDoWrite dev req (received.drop BlockRequest.sizeof) msg.src
    | .getsize => diskDoGetsize dev req msg.src
    | .setsize => diskDoSetsize msg.src
    | .sync => diskDoSync msg.src
    | .getninodes | .unused => diskRespond .error msg.src

end

/-! ## Malformed requests -/

/-- What `disk_proc` finds in its buffer. -/
def header (contents : List Byte) : BlockRequest :=
  .ofMemory fun k => (contents.take requestBuffer).getD k 0

/-- The number of bytes behind the header. -/
def payload (contents : List Byte) : Nat :=
  (contents.take requestBuffer).length - BlockRequest.sizeof

/-- No header, an unknown type, an inode that is not there, or no block to write. -/
def Malformed (contents : List Byte) : Prop :=
  contents.length < BlockRequest.sizeof ∨
    match (header contents).type with
    | .read | .getsize => (header contents).ino ≠ 0
    | .write => (header contents).ino ≠ 0 ∨ payload contents ≠ blockSize
    | .setsize | .sync => False
    | .getninodes | .unused => True

/-- A whole header, and a whole block if there is something to write. -/
def Whole (contents : List Byte) : Prop :=
  BlockRequest.sizeof ≤ contents.length ∧
    ((header contents).type = .write → payload contents = blockSize)

/-- The server goes on, and a malformed request gets an error. -/
def Survives (dev : DevDisk δ) (msg : Message) (w : DiskWorld δ) : Prop :=
  Outcome (diskProc dev msg)
    (fun _ w' => Malformed msg.contents → w'.outbox = w.outbox ++ [(msg.src, errorReply)])
    (fun _ _ => False) w

section

variable {Q : Unit → DiskWorld δ → Prop} {E : Stop → DiskWorld δ → Prop} {w : DiskWorld δ}

theorem outcome_onDevice {α : Type} {Q : α → DiskWorld δ → Prop} (m : StateM δ α) :
    Outcome (onDevice m) Q E w ↔ Q (m w.device).1 { w with device := (m w.device).2 } := Iff.rfl

theorem length_received (contents : List Byte) :
    (contents.take requestBuffer).length < BlockRequest.sizeof ↔
      contents.length < BlockRequest.sizeof := by
  rw [List.length_take]
  unfold requestBuffer blockSize BlockRequest.sizeof
  omega

variable (dev : DevDisk δ)

theorem outcome_diskDoRead (req : BlockRequest) (src : Nat) :
    Outcome (diskDoRead dev req src)
      (fun _ w' => req.ino ≠ 0 → w'.outbox = w.outbox ++ [(src, errorReply)]) (fun _ _ => False) w := by
  unfold diskDoRead
  split
  · exact fun _ => rfl
  · rename_i hino
    rw [Outcome.bind_iff, outcome_onDevice]
    split
    · exact fun h => absurd h hino
    · exact fun h => absurd h hino

theorem outcome_diskDoWrite (req : BlockRequest) {data : List Byte} (src : Nat)
    (hdata : data.length = blockSize) : Outcome (diskDoWrite dev req data src)
      (fun _ w' => req.ino ≠ 0 → w'.outbox = w.outbox ++ [(src, errorReply)])
      (fun _ _ => False) w := by
  unfold diskDoWrite
  rw [if_neg (not_not.mpr hdata)]
  split
  · exact fun _ => rfl
  · rename_i hino
    rw [Outcome.bind_iff, outcome_onDevice]
    exact fun h => absurd h hino

theorem outcome_diskDoGetsize (req : BlockRequest) (src : Nat) :
    Outcome (diskDoGetsize dev req src)
      (fun _ w' => req.ino ≠ 0 → w'.outbox = w.outbox ++ [(src, errorReply)]) (fun _ _ => False) w := by
  unfold diskDoGetsize
  split
  · exact fun _ => rfl
  · rename_i hino
    exact fun h => absurd h hino

/-- Only two asserts stand between a request and the end of the server. -/
theorem survives_iff (msg : Message) : Survives dev msg w ↔ Whole msg.contents := by
  unfold Survives Whole diskProc Malformed
  dsimp only
  by_cases hshort : msg.contents.length < BlockRequest.sizeof
  · rw [if_pos ((length_received _).mpr hshort)]
    exact iff_of_false id fun h => absurd hshort (Nat.not_lt.mpr h.1)
  · rw [if_neg (mt (length_received _).mp hshort)]
    change Outcome (match (header msg.contents).type with
      | .read => diskDoRead dev (header msg.contents) msg.src
      | .write => diskDoWrite dev (header msg.contents)
        ((msg.contents.take requestBuffer).drop BlockRequest.sizeof) msg.src
      | .getsize => diskDoGetsize dev (header msg.contents) msg.src
      | .setsize => diskDoSetsize msg.src
      | .sync => diskDoSync msg.src
      | .getninodes | .unused => diskRespond .error msg.src) _ _ _ ↔ _
    have hle := Nat.not_lt.mp hshort
    cases htype : (header msg.contents).type with
    | read =>
      refine iff_of_true ?_ ⟨hle, by simp⟩
      exact (outcome_diskDoRead dev _ _).post fun _ _ h hm => h (hm.resolve_left hshort)
    | getsize =>
      refine iff_of_true ?_ ⟨hle, by simp⟩
      exact (outcome_diskDoGetsize dev _ _).post fun _ _ h hm => h (hm.resolve_left hshort)
    | write =>
      have hlen : ((msg.contents.take requestBuffer).drop BlockRequest.sizeof).length =
          payload msg.contents := List.length_drop
      by_cases hblock : payload msg.contents = blockSize
      · refine iff_of_true ?_ ⟨hle, fun _ => hblock⟩
        refine (outcome_diskDoWrite dev _ _ (hlen.trans hblock)).post fun _ _ h hm => h ?_
        exact (hm.resolve_left hshort).resolve_right fun hne => hne hblock
      · refine iff_of_false ?_ fun h => hblock (h.2 rfl)
        dsimp only
        unfold diskDoWrite
        rw [hlen, if_pos hblock]
        exact id
    | setsize | sync =>
      exact iff_of_true (fun hm => (hm.resolve_left hshort).elim) ⟨hle, by simp⟩
    | getninodes | unused => exact iff_of_true (fun _ => rfl) ⟨hle, by simp⟩

end

end Egos.Disksvr
