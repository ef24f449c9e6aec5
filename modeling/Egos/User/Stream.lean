import Egos.Disk.Store
import Egos.Earth.Tlb

/-!
# Streams

`fread`, `fwrite`, `fseek`, `ftell` and `fflush` of `stdio.c` on one stream. The file server is a
parameter. The name of the stream and the flags that say how it was opened are left out: none of
these functions looks at them.
-/
namespace Egos.Stdio

open Egos.Lib Egos.Disk

set_option autoImplicit false

/-- `BUFSIZ`. -/
def bufsiz : Nat := 1024

/-- `FILE_MAX_MSG_SIZE`. -/
def fileMaxMsgSize : Nat := Earth.pageSize

def newline : Byte := 10

/-- `_IONBF`, `_IOLBF` and `_IOFBF`. -/
inductive BufMode where
  | noBuf
  | lineBuf
  | blkBuf
  deriving DecidableEq

/-- `struct FILE`. Either buffer goes on into the memory behind it. -/
structure Stream where
  pos : Nat
  /-- `_FILE_EOF` -/
  eof : Bool
  /-- `_FILE_ERROR` -/
  error : Bool
  mode : BufMode
  buf : Buffer
  size : Nat
  index : Nat
  inBuf : Buffer
  inOffset : Nat
  inSize : Nat

/-- `file_read`, `file_write` and the size from `file_stat` for the file of the stream. A call that
returns `false` is a `none`. -/
structure FileServer (σ : Type) where
  read : (offset count : Nat) → StateM σ (Option (List Byte))
  write : (offset : Nat) → List Byte → StateM σ Bool
  stat : StateM σ (Option Nat)

structure World (σ : Type) where
  stream : Stream
  server : σ

/-- `data` written into `bytes` at `offset`. A gap is filled with zeros, unless there is no data. -/
def spliced (bytes : List Byte) (offset : Nat) (data : List Byte) : List Byte :=
  if data.isEmpty then bytes
  else bytes.take offset ++ List.replicate (offset - bytes.length) 0 ++ data ++
    bytes.drop (offset + data.length)

/-- A file server that has the file in an array. -/
def arrayServer : FileServer (List Byte) where
  read offset count := fun bytes => (some ((bytes.drop offset).take count), bytes)
  write offset data := fun bytes => (true, spliced bytes offset data)
  stat := fun bytes => (some bytes.length, bytes)

/-- What `falloc` makes of a file that has been opened. -/
def Stream.opened (mode : BufMode) : Stream where
  pos := 0
  eof := false
  error := false
  mode := mode
  buf := fun _ => 0
  size := bufsiz
  index := 0
  inBuf := fun _ => 0
  inOffset := 0
  inSize := 0

variable {σ : Type}

abbrev StreamM (σ : Type) := EStateM Stop (World σ)

def theStream : StreamM σ Stream := do return (← get).stream

def modifyStream (f : Stream → Stream) : StreamM σ Unit :=
  modify fun w => { w with stream := f w.stream }

def onServer {α : Type} (m : StateM σ α) : StreamM σ α := fun w =>
  .ok (m w.server).1 { w with server := (m w.server).2 }

/-- A `uint64_t`. -/
def wrap (n : Nat) : Nat := n % 2 ^ 64

/-- `EOF`. -/
def eofResult : Int := -1

def Stream.buffered (st : Stream) : Nat := st.inSize - st.inOffset

/-- The loop of `fread` copies what items there are: their bytes, how many, and the stream. -/
def Stream.takeItems (st : Stream) (size nitems : Nat) : List Byte × Nat × Stream :=
  if size ≤ st.buffered then
    let ni := min (st.buffered / size) nitems
    let n := ni * size
    let inOffset := st.inOffset + n
    ((List.range n).map fun i => st.inBuf (st.inOffset + i), ni,
      { st with
        inOffset := if inOffset = st.inSize then 0 else inOffset
        inSize := if inOffset = st.inSize then 0 else st.inSize
        pos := wrap (st.pos + n) })
  else ([], 0, st)

/-- The `memmove` of what is in the buffer to its beginning. -/
def Stream.moveDown (st : Stream) (buffered : Nat) : Stream :=
  if 0 < buffered ∧ 0 < st.inOffset then
    { st with
      inBuf := overlay st.inBuf 0 ((List.range buffered).map fun i => st.inBuf (st.inOffset + i))
      inOffset := 0
      inSize := buffered }
  else st

/-- The stream once `data` has been read into the buffer. -/
def Stream.filled (st : Stream) (data : List Byte) : Stream :=
  { st with
    inBuf := overlay st.inBuf st.inSize data
    inSize := st.inSize + data.length
    eof := st.eof || data.isEmpty }

section

variable (srv : FileServer σ)

def fflush : StreamM σ Int := do
  let st ← theStream
  if 0 < st.index then
    let r ← onServer (srv.write st.pos ((List.range st.index).map st.buf))
    if r = false then
      modifyStream fun st => { st with error := true }
      return eofResult
    modifyStream fun st => { st with
      pos := wrap (st.pos + st.index)
      index := 0 }
  return 0

/-- The loop of `fread` with `left` passes to go: a pass takes an item unless it is the first or the
last one. The bytes that `ptr` is given are `data`. -/
def freadLoop (size : Nat) : (left nitems total : Nat) → (shortRead : Bool) → (data : List Byte) →
    StreamM σ (Nat × List Byte)
  | 0, _, _, _, _ => throw .diverge
  | left + 1, nitems, total, shortRead, data => do
    let st ← theStream
    let buffered := st.buffered
    let (bytes, ni, taken) := st.takeItems size nitems
    modifyStream fun _ => taken
    let nitems := nitems - ni
    let total := total + ni
    let data := data ++ bytes
    if nitems = 0 ∨ shortRead ∨ taken.eof then
      return (total, data)
    -- `buffered` is what was there before the items were taken
    let moved := taken.moveDown buffered
    modifyStream fun _ => moved
    if moved.inOffset ≠ 0 then
      throw .assert
    let toRead := bufsiz - moved.inSize
    match ← onServer (srv.read (wrap (moved.pos + moved.inSize)) toRead) with
    | none =>
      modifyStream fun st => { st with error := true }
      return (0, data)
    | some read =>
      modifyStream fun st => st.filled read
      freadLoop size left nitems total (shortRead || decide (read.length < toRead)) data

/-- The number of items, and the bytes that `ptr` has been given. -/
def fread (size nitems : Nat) : StreamM σ (Nat × List Byte) := do
  let _ ← fflush srv
  let st ← theStream
  if size = 0 then
    throw .assert
  if st.inSize < st.inOffset then
    throw .assert
  if st.error then
    return (0, [])
  if nitems = 0 then
    return (0, [])
  freadLoop srv size (nitems + 2) nitems 0 false []

/-- Whether `fwrite` leaves what it has put in the buffer there. -/
def Stream.keeps (st : Stream) : Bool :=
  match st.mode with
  | .noBuf => false
  | .lineBuf => ((List.range st.size).map st.buf).all (· != newline)
  | .blkBuf => true

/-- The loop of `fwrite` over the bytes `p` that are left; each of the `left` passes takes some. -/
def fwriteLoop (nitems : Nat) : (left : Nat) → (p : List Byte) → StreamM σ Nat
  | 0, _ => throw .diverge
  | left + 1, p => do
    if p.isEmpty then return nitems
    let st ← theStream
    if st.size ≤ st.index then
      throw .assert
    let chunk := min p.length (st.size - st.index)
    if fileMaxMsgSize < chunk then
      throw .assert
    modifyStream fun st => { st with
      buf := overlay st.buf st.index (p.take chunk)
      index := st.index + chunk }
    let st ← theStream
    if (p.drop chunk).isEmpty ∧ st.index < st.size ∧ st.keeps then
      return nitems
    if (← fflush srv) ≠ 0 then
      return 0
    fwriteLoop nitems left (p.drop chunk)

/-- The bytes at `ptr` make `nitems` items of `size` bytes. -/
structure Items where
  size : Nat
  nitems : Nat
  bytes : List Byte
  length_eq : bytes.length = size * nitems

def fwrite (items : Items) : StreamM σ Nat := do
  if (← theStream).error then
    return 0
  fwriteLoop srv items.nitems (items.bytes.length + 1) items.bytes

inductive Whence where
  | set
  | cur
  | fromEnd
  | other

/-- Toss the input buffer. -/
def Stream.tossed (st : Stream) : Stream := { st with
  inOffset := 0
  inSize := 0 }

/-- `fseek`, where the offset is a `long`. -/
def fseek (offset : BitVec 64) : Whence → StreamM σ Int
  | .set => do
    if offset.toNat ≠ (← theStream).pos then
      let _ ← fflush srv
      modifyStream fun st => { st.tossed with pos := offset.toNat }
    modifyStream fun st => { st with eof := false }
    return 0
  | .cur => do
    if offset ≠ 0 then
      let _ ← fflush srv
      modifyStream fun st => { st.tossed with pos := wrap (st.pos + offset.toNat) }
    modifyStream fun st => { st with eof := false }
    return 0
  | .fromEnd => do
    match ← onServer srv.stat with
    | none => return -1
    | some size =>
      let _ ← fflush srv
      modifyStream fun st => { st.tossed with
        pos := wrap (size + offset.toNat)
        eof := false }
      return 0
  | .other => do
    let _ ← fflush srv
    modifyStream fun st => { st.tossed with error := true }
    return -1

/-- `ftell`: a `long`. -/
def ftell : StreamM σ (BitVec 64) := do
  let _ ← fflush srv
  return BitVec.ofNat 64 (← theStream).pos

end

end Egos.Stdio
