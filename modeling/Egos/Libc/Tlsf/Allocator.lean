import Egos.Disk.Store
import Egos.Lib.Bytes
import Egos.Libc.Memmove
import Egos.Libc.Memset

/-!
# The memory allocator `tlsf.c`

Two-level segregated fit on a 64-bit machine, as it is built for the processes of the system:
`USE_GRASS`, without locks and statistics. The pool header `tlsf_t` is a record, everything behind it
is bytes. An access to bytes that `get_new_area` has not handed out is undefined. The loop over the
areas has not come to its end after `fuel` rounds if it does not return.
-/
namespace Egos.Libc.Tlsf

open Egos.Disk (Stop toInt)
open Egos.Lib

set_option autoImplicit false

/-! ## Parameters -/

/-- `BLOCK_ALIGN`, and `GRASS_ALIGN` as well -/
def blockAlign : Nat := 16
def maxLog2Sli : Nat := 5
/-- `MAX_SLI` -/
def maxSli : Nat := 32
def fliOffset : Nat := 6
def smallBlock : Nat := 128
/-- `REAL_FLI` -/
def realFli : Nat := 24
/-- `sizeof (free_ptr_t)` -/
def minBlockSize : Nat := 16
/-- `sizeof (bhdr_t)` -/
def sizeofBhdr : Nat := 32
def bhdrOverhead : Nat := sizeofBhdr - minBlockSize
def sizeofAreaInfo : Nat := 16
/-- `sizeof (tlsf_t)` -/
def sizeofTlsf : Nat := 6264
def tlsfSignature : BitVec 32 := 0x2A59FA59
/-- `TLSF_BLOCK_SIZE`, all but the bits of a pointer that alignment makes zero -/
def tlsfBlockSize : Nat := 0xFFFFFFFF - 7
def defaultAreaSize : Nat := 1024 * 10

/-- `ROUNDUP_SIZE` on a `size_t` -/
def roundUpSize (r : Nat) : Nat := (r + (blockAlign - 1)) % 2 ^ 64 / blockAlign * blockAlign

/-- `ROUNDDOWN_SIZE` -/
def roundDownSize (r : Nat) : Nat := r / blockAlign * blockAlign

/-- A difference of two `size_t`. -/
def minus (a b : Nat) : Nat := (a + 2 ^ 64 - b) % 2 ^ 64

/-- `~flag` as a `size_t` -/
def complement (flag : Nat) : Nat := 2 ^ 64 - 1 - flag

/-- `BLOCK_STATE` and `FREE_BLOCK` -/
def freeBlock : Nat := 1
/-- `PREV_STATE` and `PREV_FREE` -/
def prevFree : Nat := 2

/-! ## The memory -/

/-- `tlsf_t` -/
structure Header where
  tlsfSignature : BitVec 32
  areaHead : Nat
  flBitmap : BitVec 32
  slBitmap : Fin realFli → BitVec 32
  matrix : Fin realFli → Fin maxSli → Nat

/-- `memset(mem_pool, 0, sizeof(tlsf_t))` -/
def Header.zero : Header where
  tlsfSignature := 0
  areaHead := 0
  flBitmap := 0
  slBitmap _ := 0
  matrix _ _ := 0

/-- `end_get() + 1` is `dataEnd`. There is no `brk` before the first area. -/
structure Heap where
  memory : Buffer
  dataEnd : Nat
  brk : Option Nat
  mp : Nat
  tlsf : Header

abbrev Program := EStateM Stop Heap

/-- The bytes from `a` on are in an area, behind the pool header. -/
def Heap.Accessible (heap : Heap) (a n : Nat) : Prop :=
  heap.mp + sizeofTlsf ≤ a ∧ a + n ≤ heap.brk.getD 0

instance (heap : Heap) (a n : Nat) : Decidable (heap.Accessible a n) :=
  inferInstanceAs (Decidable (_ ∧ _))

/-- Eight bytes. -/
def word (a : Nat) : Program Nat := do
  let heap ← get
  if heap.Accessible a 8 then pure (load heap.memory a 8) else throw .undefined

def setWord (a v : Nat) : Program Unit := do
  let heap ← get
  if heap.Accessible a 8 then set { heap with memory := store heap.memory a 8 v }
  else throw .undefined

/-- What a function of `string.h` does to `n` bytes at `a`. -/
def onBytes (a n : Nat) (f : Buffer → Nat × Buffer) : Program Unit := do
  let heap ← get
  if heap.Accessible a n then set { heap with memory := (f heap.memory).2 } else throw .undefined

/-- `memcpy` -/
def copyBytes (dst src n : Nat) : Program Unit := do
  let heap ← get
  if heap.Accessible src n then onBytes dst n fun memory => Memmove.memmove memory dst src n
  else throw .undefined

def getTlsf : Program Header := return (← get).tlsf

def modifyTlsf (f : Header → Header) : Program Unit :=
  modify fun heap => { heap with tlsf := f heap.tlsf }

/-! The fields of `bhdr_t` and `area_info_t`, each a word. -/

def prevHdr (b : Nat) : Nat := b
def size (b : Nat) : Nat := b + 8
/-- `b->ptr.buffer` -/
def buffer (b : Nat) : Nat := b + bhdrOverhead
/-- `b->ptr.free_ptr.prev` -/
def prev (b : Nat) : Nat := buffer b
/-- `b->ptr.free_ptr.next` -/
def next (b : Nat) : Nat := buffer b + 8
/-- `ai->end` -/
def areaEnd (ai : Nat) : Nat := ai
/-- `ai->next` -/
def areaNext (ai : Nat) : Nat := ai + 8

def getNextBlock (addr r : Nat) : Nat := addr + r

/-! ## Bits -/

/-- `table` -/
def table (i : Nat) : Int :=
  ([-1, 0] ++ List.replicate 2 1 ++ List.replicate 4 2 ++ List.replicate 8 3 ++
    List.replicate 16 4 ++ List.replicate 32 5 ++ List.replicate 64 6 ++
    List.replicate 128 7).getD i 0

/-- What `ls_bit` and `ms_bit` have in common. -/
def lookupBit (x : BitVec 32) : Int :=
  let a := if x.toNat ≤ 0xffff then (if x.toNat ≤ 0xff then 0 else 8)
    else (if x.toNat ≤ 0xffffff then 16 else 24)
  table (x >>> a).toNat + a

def lsBit (i : BitVec 32) : Int := lookupBit (i &&& -i)

def msBit (i : BitVec 32) : Int := lookupBit i

/-- A `size_t` as an `int`. -/
def asInt (r : Nat) : BitVec 32 := .ofNat 32 r

/-- The distance of a shift, which is undefined outside of the word. -/
def shift (k : Int) : Program Nat :=
  if 0 ≤ k ∧ k < 32 then pure k.toNat else throw .undefined

/-- An index into an array of `n` elements. -/
def index (n : Nat) (i : Int) : Program (Fin n) :=
  if h : 0 ≤ i ∧ i < n then pure ⟨i.toNat, by omega⟩ else throw .undefined

def setBit (nr : Nat) (word : BitVec 32) : BitVec 32 := word ||| 1#32 <<< nr

def clearBit (nr : Nat) (word : BitVec 32) : BitVec 32 := word &&& ~~~ (1#32 <<< nr)

/-! ## Classes of sizes -/

/-- `MAPPING_SEARCH` returns the size rounded up, and where to look. -/
def mappingSearch (r : Nat) : Program (Nat × Int × Int) := do
  if r < smallBlock then pure (r, 0, (r / (smallBlock / maxSli) : Nat))
  else
    let k ← shift (msBit (asInt r) - maxLog2Sli)
    let t := 2 ^ k - 1
    let r := (r + t) % 2 ^ 64
    let fl := msBit (asInt r)
    let j ← shift (fl - maxLog2Sli)
    -- `_r &= ~_t` clears the lower `k` bits
    pure (r / 2 ^ k * 2 ^ k, fl - fliOffset, toInt (minus (r / 2 ^ j) maxSli))

/-- `MAPPING_INSERT` -/
def mappingInsert (r : Nat) : Program (Int × Int) := do
  if r < smallBlock then pure (0, (r / (smallBlock / maxSli) : Nat))
  else
    let fl := msBit (asInt r)
    let j ← shift (fl - maxLog2Sli)
    pure (fl - fliOffset, toInt (minus (r / 2 ^ j) maxSli))

/-- `FIND_SUITABLE_BLOCK` returns the block, or null, and its class. -/
def findSuitableBlock (fl sl : Int) : Program (Nat × Int × Int) := do
  let i ← index realFli fl
  let k ← shift sl
  let tmp := (← getTlsf).slBitmap i &&& (BitVec.allOnes 32 <<< k)
  if tmp ≠ 0 then
    let sl := lsBit tmp
    let j ← index maxSli sl
    pure ((← getTlsf).matrix i j, fl, sl)
  else
    let k ← shift (fl + 1)
    let fl := lsBit ((← getTlsf).flBitmap &&& (BitVec.allOnes 32 <<< k))
    if fl > 0 then
      let i ← index realFli fl
      let sl := lsBit ((← getTlsf).slBitmap i)
      let j ← index maxSli sl
      pure ((← getTlsf).matrix i j, fl, sl)
    else pure (0, fl, sl)

/-! ## The lists of free blocks -/

def Header.setMatrix (t : Header) (i : Fin realFli) (j : Fin maxSli) (b : Nat) : Header :=
  { t with matrix := Function.update t.matrix i (Function.update (t.matrix i) j b) }

/-- The bits of a class whose list has become empty. -/
def Header.clearBits (t : Header) (i : Fin realFli) (j : Fin maxSli) : Header :=
  let t := { t with slBitmap := Function.update t.slBitmap i (clearBit j (t.slBitmap i)) }
  if t.slBitmap i = 0 then { t with flBitmap := clearBit i t.flBitmap } else t

def Header.setBits (t : Header) (i : Fin realFli) (j : Fin maxSli) : Header :=
  { t with
    slBitmap := Function.update t.slBitmap i (setBit j (t.slBitmap i))
    flBitmap := setBit i t.flBitmap }

/-- `EXTRACT_BLOCK_HDR` -/
def extractBlockHdr (b : Nat) (fl sl : Int) : Program Unit := do
  let i ← index realFli fl
  let j ← index maxSli sl
  let n ← word (next b)
  modifyTlsf fun t => t.setMatrix i j n
  (if n ≠ 0 then setWord (prev n) 0 else modifyTlsf fun t => t.clearBits i j)
  setWord (prev b) 0
  setWord (next b) 0

/-- `if (b->next) b->next->prev = b->prev` -/
def relinkNext (b : Nat) : Program Unit := do
  let n ← word (next b)
  if n ≠ 0 then setWord (prev n) (← word (prev b))

/-- `if (b->prev) b->prev->next = b->next` -/
def relinkPrev (b : Nat) : Program Unit := do
  let p ← word (prev b)
  if p ≠ 0 then setWord (next p) (← word (next b))

/-- The list starts behind `b` if it started with `b`. -/
def relinkHead (b : Nat) (i : Fin realFli) (j : Fin maxSli) : Program Unit := do
  if (← getTlsf).matrix i j = b then
    let n ← word (next b)
    modifyTlsf fun t => t.setMatrix i j n
    if n = 0 then modifyTlsf fun t => t.clearBits i j

/-- `EXTRACT_BLOCK` -/
def extractBlock (b : Nat) (fl sl : Int) : Program Unit := do
  let i ← index realFli fl
  let j ← index maxSli sl
  relinkNext b
  relinkPrev b
  relinkHead b i j
  setWord (prev b) 0
  setWord (next b) 0

/-- `INSERT_BLOCK` -/
def insertBlock (b : Nat) (fl sl : Int) : Program Unit := do
  let i ← index realFli fl
  let j ← index maxSli sl
  let head := (← getTlsf).matrix i j
  setWord (prev b) 0
  setWord (next b) head
  (if head ≠ 0 then setWord (prev head) b else pure ())
  modifyTlsf fun t => (t.setMatrix i j b).setBits i j

/-! ## Areas -/

/-- `get_new_area` never fails. -/
def getNewArea (size : Nat) : Program Nat := do
  let heap ← get
  let area := match heap.brk with
    | none => (heap.dataEnd + (blockAlign - 1)) / blockAlign * blockAlign
    | some brk => brk
  set { heap with brk := some (area + roundUpSize size) }
  pure area

def processArea (area n : Nat) : Program Nat := do
  let ib := area
  setWord (size ib) (if sizeofAreaInfo < minBlockSize then minBlockSize else roundUpSize sizeofAreaInfo)
  let b := getNextBlock (buffer ib) ((← word (size ib)) &&& tlsfBlockSize)
  setWord (size b)
    (roundDownSize (minus (minus n (3 * bhdrOverhead)) ((← word (size ib)) &&& tlsfBlockSize)))
  setWord (next b) 0
  setWord (prev b) 0
  let lb := getNextBlock (buffer b) ((← word (size b)) &&& tlsfBlockSize)
  setWord (prevHdr lb) b
  setWord (size lb) prevFree
  setWord (areaNext (buffer ib)) 0
  setWord (areaEnd (buffer ib)) lb
  pure ib

/-- In `free_ex`: a free block behind `b` goes into `b`. -/
def mergeNext (b : Nat) : Program Unit := do
  let tmp := getNextBlock (buffer b) ((← word (size b)) &&& tlsfBlockSize)
  if (← word (size tmp)) &&& freeBlock ≠ 0 then
    let (fl, sl) ← mappingInsert ((← word (size tmp)) &&& tlsfBlockSize)
    extractBlock tmp fl sl
    setWord (size b)
      ((← word (size b)) + (((← word (size tmp)) &&& tlsfBlockSize) + bhdrOverhead))

/-- In `free_ex`: `b` goes into a free block in front of it. -/
def mergePrev (b : Nat) : Program Nat := do
  if (← word (size b)) &&& prevFree ≠ 0 then
    let tmp ← word (prevHdr b)
    let (fl, sl) ← mappingInsert ((← word (size tmp)) &&& tlsfBlockSize)
    extractBlock tmp fl sl
    setWord (size tmp)
      ((← word (size tmp)) + (((← word (size b)) &&& tlsfBlockSize) + bhdrOverhead))
    pure tmp
  else pure b

/-- The end of `free_ex`: the list gets `b`, and the block behind it is told. -/
def enlist (b : Nat) : Program Unit := do
  let (fl, sl) ← mappingInsert ((← word (size b)) &&& tlsfBlockSize)
  insertBlock b fl sl
  let tmp := getNextBlock (buffer b) ((← word (size b)) &&& tlsfBlockSize)
  setWord (size tmp) ((← word (size tmp)) ||| prevFree)
  setWord (prevHdr tmp) b

def freeEx (ptr : Nat) : Program Unit := do
  if ptr = 0 then pure ()
  else
    let b := ptr - bhdrOverhead
    setWord (size b) ((← word (size b)) ||| freeBlock)
    setWord (prev b) 0
    setWord (next b) 0
    mergeNext b
    let b ← mergePrev b
    enlist b

/-- The variables of the loop in `add_new_area`. -/
structure AreaVars where
  ib0 : Nat
  b0 : Nat
  lb0 : Nat

/-- An area leaves the list of areas, whose next one is returned. -/
def unlinkArea (ptr ptrPrev : Nat) : Program Nat := do
  let following ← word (areaNext ptr)
  if (← getTlsf).areaHead = ptr then modifyTlsf fun t => { t with areaHead := following }
  else setWord (areaNext ptrPrev) following
  pure following

/-- The loop of `add_new_area`, which merges the new area with those that touch it. -/
def mergeAreas : (fuel ptr ptrPrev : Nat) → AreaVars → Program AreaVars
  | 0, _, _, _ => throw .diverge
  | fuel + 1, ptr, ptrPrev, v =>
    if ptr = 0 then pure v
    else do
      let ib1 := ptr - bhdrOverhead
      let b1 := getNextBlock (buffer ib1) ((← word (size ib1)) &&& tlsfBlockSize)
      let lb1 ← word (areaEnd ptr)
      if ib1 = v.lb0 + bhdrOverhead then
        let following ← unlinkArea ptr ptrPrev
        setWord (size v.b0) (roundDownSize (((← word (size v.b0)) &&& tlsfBlockSize) +
          ((← word (size ib1)) &&& tlsfBlockSize) + 2 * bhdrOverhead))
        setWord (prevHdr b1) v.b0
        mergeAreas fuel following ptrPrev { v with lb0 := lb1 }
      else if buffer lb1 = v.ib0 then
        let following ← unlinkArea ptr ptrPrev
        setWord (size lb1) (roundDownSize (((← word (size v.b0)) &&& tlsfBlockSize) +
          ((← word (size v.ib0)) &&& tlsfBlockSize) + 2 * bhdrOverhead) |||
            ((← word (size lb1)) &&& prevFree))
        let nextB := getNextBlock (buffer lb1) ((← word (size lb1)) &&& tlsfBlockSize)
        setWord (prevHdr nextB) lb1
        mergeAreas fuel following ptrPrev { v with b0 := lb1, ib0 := ib1 }
      else do
        let following ← word (areaNext ptr)
        mergeAreas fuel following ptr v

def addNewArea (fuel area areaSize : Nat) : Program Nat := do
  onBytes area areaSize fun memory => Memset.memset memory area 0 areaSize
  let ptr := (← getTlsf).areaHead
  let ib0 ← processArea area areaSize
  let b0 := getNextBlock (buffer ib0) ((← word (size ib0)) &&& tlsfBlockSize)
  let lb0 := getNextBlock (buffer b0) ((← word (size b0)) &&& tlsfBlockSize)
  let v ← mergeAreas fuel ptr 0 { ib0 := ib0, b0 := b0, lb0 := lb0 }
  let ai := buffer v.ib0
  setWord (areaNext ai) (← getTlsf).areaHead
  setWord (areaEnd ai) v.lb0
  modifyTlsf fun t => { t with areaHead := ai }
  freeEx (buffer v.b0)
  return (← word (size v.b0)) &&& tlsfBlockSize

/-- The messages go to the screen. -/
def initMemoryPool (memPoolSize memPool : Nat) : Program Nat := do
  if memPool = 0 ∨ memPoolSize = 0 ∨ memPoolSize < sizeofTlsf + bhdrOverhead * 8 then
    pure (2 ^ 64 - 1)
  else if memPool % 8 ≠ 0 then pure (2 ^ 64 - 1)
  else
    modify fun heap => { heap with mp := memPool }
    if (← getTlsf).tlsfSignature = Tlsf.tlsfSignature then
      let b := getNextBlock memPool (roundUpSize sizeofTlsf)
      return (← word (size b)) &&& tlsfBlockSize
    else
      modifyTlsf fun _ => { Header.zero with tlsfSignature := Tlsf.tlsfSignature }
      let ib ← processArea (getNextBlock memPool (roundUpSize sizeofTlsf))
        (roundDownSize (minus memPoolSize sizeofTlsf))
      let b := getNextBlock (buffer ib) ((← word (size ib)) &&& tlsfBlockSize)
      freeEx (buffer b)
      modifyTlsf fun t => { t with areaHead := buffer ib }
      return (← word (size b)) &&& tlsfBlockSize

/-! ## Allocation -/

/-- A block for `size` bytes, from a new area if there is none. -/
def searchBlock (fuel size : Nat) : Program (Nat × Nat × Int × Int) := do
  let (size, fl, sl) ← mappingSearch size
  let (b, fl, sl) ← findSuitableBlock fl sl
  if b = 0 then
    let areaSize := (size + bhdrOverhead * 8) % 2 ^ 64
    let areaSize := if areaSize > defaultAreaSize then areaSize else defaultAreaSize
    let area ← getNewArea areaSize
    let _ ← addNewArea fuel area areaSize
    let (size, fl, sl) ← mappingSearch size
    let (b, fl, sl) ← findSuitableBlock fl sl
    pure (size, b, fl, sl)
  else pure (size, b, fl, sl)

/-- The end of `malloc_ex`: `b` is used, and split if the rest is large enough for a block. -/
def takeBlock (b size : Nat) : Program Unit := do
  let nextB := getNextBlock (buffer b) ((← word (Tlsf.size b)) &&& tlsfBlockSize)
  let tmpSize := minus ((← word (Tlsf.size b)) &&& tlsfBlockSize) size
  if tmpSize ≥ sizeofBhdr then
    let tmpSize := minus tmpSize bhdrOverhead
    let b2 := getNextBlock (buffer b) size
    setWord (Tlsf.size b2) (tmpSize ||| freeBlock)
    setWord (prevHdr nextB) b2
    let (fl, sl) ← mappingInsert tmpSize
    insertBlock b2 fl sl
    setWord (Tlsf.size b) (size ||| ((← word (Tlsf.size b)) &&& prevFree))
  else
    setWord (Tlsf.size nextB) ((← word (Tlsf.size nextB)) &&& complement prevFree)
    setWord (Tlsf.size b) ((← word (Tlsf.size b)) &&& complement freeBlock)

def mallocEx (fuel size : Nat) : Program Nat := do
  let size := if size < minBlockSize then minBlockSize else roundUpSize size
  let (size, b, fl, sl) ← searchBlock fuel size
  if b = 0 then pure 0
  else
    extractBlockHdr b fl sl
    takeBlock b size
    pure (buffer b)

/-- In `realloc_ex`: the rest of `b` becomes a free block if it is large enough for one. -/
def trim (b newSize tmpSize nextB : Nat) : Program Unit := do
  if tmpSize ≥ sizeofBhdr then
    let tmpSize := minus tmpSize bhdrOverhead
    let tmp := getNextBlock (buffer b) newSize
    setWord (size tmp) (tmpSize ||| freeBlock)
    setWord (prevHdr nextB) tmp
    setWord (size nextB) ((← word (size nextB)) ||| prevFree)
    let (fl, sl) ← mappingInsert tmpSize
    insertBlock tmp fl sl
    setWord (size b) (newSize ||| ((← word (size b)) &&& prevFree))

/-- The end of `realloc_ex`, where the block has to move. -/
def moveBlock (fuel ptr newSize : Nat) : Program Nat := do
  let b := ptr - bhdrOverhead
  let ptrAux ← mallocEx fuel newSize
  if ptrAux = 0 then pure 0
  else
    let tmpSize := (← word (size b)) &&& tlsfBlockSize
    let cpsize := (if tmpSize > newSize then newSize else tmpSize) % 2 ^ 32
    copyBytes ptrAux ptr cpsize
    freeEx ptr
    pure ptrAux

/-- In `realloc_ex`: `newSize` bytes fit into the block, whose size is `tmpSize`. -/
def shrinkBlock (b newSize tmpSize : Nat) : Program Unit := do
  let nextB := getNextBlock (buffer b) tmpSize
  if (← word (size nextB)) &&& freeBlock ≠ 0 then
    let (fl, sl) ← mappingInsert ((← word (size nextB)) &&& tlsfBlockSize)
    extractBlock nextB fl sl
    let nextSize := (← word (size nextB)) &&& tlsfBlockSize
    trim b newSize (minus (tmpSize + (nextSize + bhdrOverhead)) newSize)
      (getNextBlock (buffer nextB) nextSize)
  else trim b newSize (minus tmpSize newSize) nextB

/-- In `realloc_ex`: the block grows into the one behind it, if that is free and large enough. -/
def growBlock (b newSize tmpSize : Nat) : Program Bool := do
  let nextB := getNextBlock (buffer b) tmpSize
  if (← word (size nextB)) &&& freeBlock ≠ 0 then
    if newSize ≤ tmpSize + ((← word (size nextB)) &&& tlsfBlockSize) then
      let (fl, sl) ← mappingInsert ((← word (size nextB)) &&& tlsfBlockSize)
      extractBlock nextB fl sl
      setWord (size b)
        ((← word (size b)) + (((← word (size nextB)) &&& tlsfBlockSize) + bhdrOverhead))
      let nextB := getNextBlock (buffer b) ((← word (size b)) &&& tlsfBlockSize)
      setWord (prevHdr nextB) b
      setWord (size nextB) ((← word (size nextB)) &&& complement prevFree)
      trim b newSize (minus ((← word (size b)) &&& tlsfBlockSize) newSize) nextB
      pure true
    else pure false
  else pure false

def reallocEx (fuel ptr newSize : Nat) : Program Nat := do
  if ptr = 0 then
    if newSize ≠ 0 then mallocEx fuel newSize else pure 0
  else if newSize = 0 then
    freeEx ptr
    pure 0
  else
    let b := ptr - bhdrOverhead
    let newSize := if newSize < minBlockSize then minBlockSize else roundUpSize newSize
    let tmpSize := (← word (size b)) &&& tlsfBlockSize
    if newSize ≤ tmpSize then
      shrinkBlock b newSize tmpSize
      pure (buffer b)
    else if ← growBlock b newSize tmpSize then pure (buffer b)
    else moveBlock fuel ptr newSize

def callocEx (fuel nelem elemSize : Nat) : Program Nat := do
  if nelem = 0 ∨ elemSize = 0 then pure 0
  else
    let n := nelem * elemSize % 2 ^ 64
    let ptr ← mallocEx fuel n
    if ptr = 0 then pure 0
    else
      onBytes ptr n fun memory => Memset.memset memory ptr 0 n
      pure ptr

/-- The pool is made at the first call. -/
def firstArea : Program Unit := do
  if (← get).mp = 0 then
    let areaSize := sizeofTlsf + bhdrOverhead * 8
    let areaSize := if areaSize > defaultAreaSize then areaSize else defaultAreaSize
    let area ← getNewArea areaSize
    let _ ← initMemoryPool areaSize area

def tlsfMalloc (fuel size : Nat) : Program Nat := do
  firstArea
  mallocEx fuel size

def tlsfFree (ptr : Nat) : Program Unit := freeEx ptr

def tlsfRealloc (fuel ptr size : Nat) : Program Nat := do
  if (← get).mp = 0 then tlsfMalloc fuel size
  else reallocEx fuel ptr size

def tlsfCalloc (fuel nelem elemSize : Nat) : Program Nat := do
  firstArea
  callocEx fuel nelem elemSize

end Egos.Libc.Tlsf
