import Egos.Lib.Bytes

/-!
# The file service protocol

The structures of `file.h`, with the widths of a 64-bit machine. A control block also
lies in the file table on disk, so its layout in memory matters: `FileControlBlock.byte`
follows the offsets that the compiler gives the fields, with padding that is zero.
-/
namespace Egos.File

open Egos.Lib

set_option autoImplicit false

/-- `PAGESIZE`, which is `FILE_MAX_MSG_SIZE`. -/
def fileMaxMsgSize : Nat := 0x4000

namespace Permission

def otherRead : BitVec 16 := 0x1
def otherWrite : BitVec 16 := 0x2
def ownerRead : BitVec 16 := 0x4
def ownerWrite : BitVec 16 := 0x8

end Permission

structure FileControlBlock where
  stAlloc : Bool
  stDev : BitVec 32
  stIno : BitVec 32
  stUid : BitVec 32
  stMode : BitVec 16
  stSize : BitVec 64
  stModtime : BitVec 64
  deriving DecidableEq

namespace FileControlBlock

/-- What `memset` and `calloc` make of a control block. -/
def zero : FileControlBlock := ⟨false, 0, 0, 0, 0, 0, 0⟩

/-- `sizeof(struct file_control_block)`. -/
def sizeof : Nat := 40

/-- The memory image. -/
def byte (fcb : FileControlBlock) (k : Nat) : Byte :=
  if k < 4 then if k = 0 ∧ fcb.stAlloc then 1 else 0
  else if k < 8 then byteOf fcb.stDev.toNat (k - 4)
  else if k < 12 then byteOf fcb.stIno.toNat (k - 8)
  else if k < 16 then byteOf fcb.stUid.toNat (k - 12)
  else if k < 18 then byteOf fcb.stMode.toNat (k - 16)
  else if k < 24 then 0
  else if k < 32 then byteOf fcb.stSize.toNat (k - 24)
  else byteOf fcb.stModtime.toNat (k - 32)

/-- The control block that lies in memory at `bytes`. -/
def ofMemory (bytes : Buffer) : FileControlBlock where
  stAlloc := bytes 0 != 0
  stDev := BitVec.ofNat (8 * 4) (ofBytes (fun i => bytes (4 + i)) 4)
  stIno := BitVec.ofNat (8 * 4) (ofBytes (fun i => bytes (8 + i)) 4)
  stUid := BitVec.ofNat (8 * 4) (ofBytes (fun i => bytes (12 + i)) 4)
  stMode := BitVec.ofNat (8 * 2) (ofBytes (fun i => bytes (16 + i)) 2)
  stSize := BitVec.ofNat (8 * 8) (ofBytes (fun i => bytes (24 + i)) 8)
  stModtime := BitVec.ofNat (8 * 8) (ofBytes (fun i => bytes (32 + i)) 8)

theorem ofMemory_eq {bytes : Buffer} {fcb : FileControlBlock}
    (h : ∀ k, k < sizeof → bytes k = fcb.byte k) : ofMemory bytes = fcb := by
  have hfield : ∀ (at' w : Nat) (x : BitVec (8 * w)), at' + w ≤ sizeof →
      (∀ i, i < w → fcb.byte (at' + i) = byteOf x.toNat i) →
      BitVec.ofNat (8 * w) (ofBytes (fun i => bytes (at' + i)) w) = x := by
    intro at' w x hw hx
    apply ofNat_ofBytes
    intro i hi
    rw [h (at' + i) (by omega), hx i hi]
  have halloc : (bytes 0 != 0) = fcb.stAlloc := by
    rw [h 0 (by decide)]
    cases ha : fcb.stAlloc <;> simp [byte, ha]
  have hdev := hfield 4 4 fcb.stDev (by decide) (fun i hi => by
    unfold byte
    rw [if_neg (by omega), if_pos (by omega), Nat.add_sub_cancel_left])
  have hino := hfield 8 4 fcb.stIno (by decide) (fun i hi => by
    unfold byte
    rw [if_neg (by omega), if_neg (by omega), if_pos (by omega), Nat.add_sub_cancel_left])
  have huid := hfield 12 4 fcb.stUid (by decide) (fun i hi => by
    unfold byte
    rw [if_neg (by omega), if_neg (by omega), if_neg (by omega), if_pos (by omega),
      Nat.add_sub_cancel_left])
  have hmode := hfield 16 2 fcb.stMode (by decide) (fun i hi => by
    unfold byte
    rw [if_neg (by omega), if_neg (by omega), if_neg (by omega), if_neg (by omega),
      if_pos (by omega), Nat.add_sub_cancel_left])
  have hsize := hfield 24 8 fcb.stSize (by decide) (fun i hi => by
    unfold byte
    rw [if_neg (by omega), if_neg (by omega), if_neg (by omega), if_neg (by omega),
      if_neg (by omega), if_neg (by omega), if_pos (by omega), Nat.add_sub_cancel_left])
  have hmodtime := hfield 32 8 fcb.stModtime (by decide) (fun i hi => by
    unfold byte
    rw [if_neg (by omega), if_neg (by omega), if_neg (by omega), if_neg (by omega),
      if_neg (by omega), if_neg (by omega), if_neg (by omega), Nat.add_sub_cancel_left])
  unfold ofMemory
  rw [halloc, hdev, hino, huid, hmode, hsize, hmodtime]

end FileControlBlock

/-- `enum file_op`. -/
inductive FileOp where
  | unused
  | create
  | chown
  | chmod
  | read
  | write
  | stat
  | setsize
  | delete
  | sync
  | setFlags
  deriving DecidableEq

structure FileRequest where
  type : FileOp
  fileNo : BitVec 32
  offset : BitVec 64
  size : BitVec 32
  uid : BitVec 32
  mode : BitVec 16
  deriving DecidableEq

/-- `enum file_status`. -/
inductive FileStatus where
  | ok
  | error
  deriving DecidableEq

/-- `struct file_reply` and the bytes that follow it in the message. -/
structure FileReply where
  status : FileStatus
  fileNo : BitVec 32
  op : FileOp
  fcb : FileControlBlock
  data : List Byte
  deriving DecidableEq

/-- `sizeof(struct file_reply)`. -/
def FileReply.sizeof : Nat := 56

/-- A reply of zeros but for its status. -/
def FileReply.plain (status : FileStatus) (data : List Byte) : FileReply :=
  ⟨status, 0, .unused, .zero, data⟩

/-- A request message as the kernel hands it over: the sender with its uid, the header
(absent when the message is shorter than one) and the bytes after it, as the sender wrote
them. -/
structure Message where
  src : BitVec 32
  uid : BitVec 32
  request : Option FileRequest
  payload : List Byte

end Egos.File
