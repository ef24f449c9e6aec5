import Egos.Grass.Spawnsvr

/-!
# The converter of executables

`elf_cvt.c`, for x86_64: an ELF executable is read into an image with protection bits for each
of its pages, the pages are split up into segments, and the segments are written to a file that
`frame_init` reads page by page. Opening the files and what is printed are left out, and there
is memory enough for `realloc`.
-/
namespace Egos.ElfCvt

open Egos.Lib Egos.Disk Egos.Earth
open Egos.Grass (ExecSegment wordBytes)
open Egos.Spawnsvr (maxSegments)

set_option autoImplicit false

/-- The number of `w` bytes that lies at `pos`. -/
def field (bytes : Buffer) (pos w : Nat) : Nat := ofBytes (fun i => bytes (pos + i)) w

/-- `Elf64_Ehdr`. -/
structure Ehdr where
  ident : Buffer
  type : Nat
  entry : Nat
  phoff : Nat
  shoff : Nat
  phnum : Nat
  shnum : Nat

def Ehdr.sizeof : Nat := 64

def Ehdr.ofMemory (bytes : Buffer) : Ehdr where
  ident := bytes
  type := field bytes 16 2
  entry := field bytes 24 8
  phoff := field bytes 32 8
  shoff := field bytes 40 8
  phnum := field bytes 56 2
  shnum := field bytes 60 2

/-- The magic number, `ELFCLASS64` and `ET_EXEC`. -/
def Ehdr.Executable (e : Ehdr) : Prop :=
  e.ident 0 = 0x7f ∧ e.ident 1 = 0x45 ∧ e.ident 2 = 0x4c ∧ e.ident 3 = 0x46 ∧ e.ident 4 = 2 ∧
    e.type = 2

instance (e : Ehdr) : Decidable e.Executable := by unfold Ehdr.Executable; infer_instance

/-- `Elf64_Shdr`. -/
structure Shdr where
  type : Nat
  offset : Nat
  size : Nat
  entsize : Nat

def Shdr.sizeof : Nat := 64

def Shdr.ofMemory (bytes : Buffer) : Shdr where
  type := field bytes 4 4
  offset := field bytes 24 8
  size := field bytes 32 8
  entsize := field bytes 56 8

/-- `SHT_RELA`. -/
def shtRela : Nat := 4

/-- `SHT_DYNSYM`. -/
def shtDynsym : Nat := 11

/-- `Elf64_Phdr`. -/
structure Phdr where
  type : Nat
  flags : Nat
  offset : Nat
  vaddr : Nat
  filesz : Nat
  memsz : Nat

def Phdr.sizeof : Nat := 56

def Phdr.ofMemory (bytes : Buffer) : Phdr where
  type := field bytes 0 4
  flags := field bytes 4 4
  offset := field bytes 8 8
  vaddr := field bytes 16 8
  filesz := field bytes 32 8
  memsz := field bytes 40 8

/-- `PT_DYNAMIC`. -/
def ptDynamic : Nat := 2

/-- `PT_INTERP`. -/
def ptInterp : Nat := 3

/-- The header is not skipped by its type or for want of memory. -/
def Phdr.Loadable (p : Phdr) : Prop :=
  ¬ (p.memsz = 0 ∨ p.type = ptInterp ∨ p.type = ptDynamic)

instance (p : Phdr) : Decidable p.Loadable := by unfold Phdr.Loadable; infer_instance

/-- `P_READ`, `P_WRITE` and `P_EXEC` for the flags `PF_R`, `PF_W` and `PF_X`. -/
def protOf (flags : Nat) : Prot := ⟨flags.testBit 2, flags.testBit 1, flags.testBit 0⟩

def orProt (p p' : Prot) : Prot := ⟨p.read || p'.read, p.write || p'.write, p.exec || p'.exec⟩

def protCode (p : Prot) : Nat := p.read.toNat + 2 * p.write.toNat + 4 * p.exec.toNat

/-- `struct page_info`. -/
structure PageInfo where
  prot : Prot
  initialized : Bool
  deriving DecidableEq

def PageInfo.blank : PageInfo := ⟨Prot.none, false⟩

def PageInfo.mark (p : PageInfo) (flags : Nat) (initialized : Bool) : PageInfo :=
  ⟨orProt p.prot (protOf flags), p.initialized || initialized⟩

/-- The position in the input and the variables of `main`. -/
structure State where
  pos : Nat
  base : Nat
  /-- the size of the memory at `image` -/
  allocated : Nat
  image : Buffer
  npages : Nat
  pages : Nat → PageInfo

def State.start : State := ⟨0, 0, 0, fun _ => 0, 0, fun _ => .blank⟩

abbrev CvtM := EStateM Stop State

section

variable (input : List Byte)

/-- `fseek` fails if the offset is negative as a `long`, and the code does not look. -/
def fseek (offset : Nat) : CvtM Unit :=
  modify fun s => if offset < 2 ^ 63 then { s with pos := offset } else s

def fread (size : Nat) : CvtM (List Byte) := do
  let s ← get
  let data := (input.drop s.pos).take size
  set { s with pos := s.pos + data.length }
  return data

/-- A record that has to be there. -/
def readRecord (size : Nat) (message : String) : CvtM Buffer := do
  let data ← fread input size
  if data.length ≠ size then
    throw (.panic message)
  return fun i => data.getD i 0

def readSections (shnum : Nat) : CvtM (List Shdr) := do
  let table ← readRecord input (Shdr.sizeof * shnum) "%s: can't read section headers in %s (%d %d)\n"
  return (List.range shnum).map fun i => .ofMemory fun k => table (Shdr.sizeof * i + k)

/-- The last section of the type, `-1` for none. As only an index above 0 counts, the first
section counts as none as well. -/
def lastSection (sections : List Shdr) (type : Nat) : Option Shdr :=
  (sections.tail.filter fun sh => sh.type = type).getLast?

def readDynsym (sections : List Shdr) : CvtM (Option (List Byte)) := do
  match lastSection sections shtDynsym with
  | none => return none
  | some sh =>
    fseek sh.offset
    let stab ← fread input sh.size
    if stab.length ≠ sh.size then
      throw (.panic "can't read dynsym table\n")
    -- the number of entries is printed
    if sh.entsize = 0 then
      throw .undefined
    return some stab

/-- A `memset` of `count` elements has to stay inside of the array. -/
def cleared (start count allocated : Nat) : CvtM Unit :=
  if 0 < count ∧ allocated < start + count then throw .undefined else pure ()

/-- `before * PAGESIZE` is a product of two ints. -/
def imageGrow (newsize : Nat) : CvtM Unit := do
  let s ← get
  if s.npages * pageSize < newsize then
    let npages := (newsize + pageSize - 1) % 2 ^ 64 / pageSize % 2 ^ 32
    let fresh := (npages + (2 ^ 32 - s.npages)) % 2 ^ 32
    let allocated := npages * pageSize % 2 ^ 32
    let count := fresh * pageSize % 2 ^ 32
    if 2 ^ 31 ≤ s.npages * pageSize then
      throw .undefined
    cleared (s.npages * pageSize) count allocated
    cleared s.npages fresh npages
    set { s with
      npages := npages
      allocated := allocated
      image := fun k =>
        if s.npages * pageSize ≤ k ∧ k < s.npages * pageSize + count then 0 else s.image k
      pages := fun q => if s.npages ≤ q ∧ q < s.npages + fresh then .blank else s.pages q }

/-- The loop of `image_prot`. After `2 ^ 32 / PAGESIZE` rounds it is where it began. -/
def protLoop (limit flags : Nat) (initialized : Bool) : (rounds addr : Nat) → CvtM Unit
  | 0, _ => throw .diverge
  | rounds + 1, addr =>
    if addr < limit then do
      let s ← get
      let page := addr / pageSize
      if s.npages ≤ page then
        throw .assert
      set { s with
        pages := Function.update s.pages page ((s.pages page).mark flags initialized) }
      protLoop limit flags initialized rounds ((addr + pageSize) % 2 ^ 32)
    else pure ()

def imageProt (offset size flags : Nat) (initialized : Bool) : CvtM Unit :=
  protLoop ((offset % 2 ^ 32 + size % 2 ^ 32) % 2 ^ 32) flags initialized (2 ^ 32 / pageSize)
    (offset % 2 ^ 32)

/-- Bytes are copied to the image. -/
def store (dst : Nat) (data : List Byte) : CvtM Unit := do
  let s ← get
  if s.allocated < dst + data.length then
    throw .undefined
  set { s with image := overlay s.image dst data }

/-- The loop that reads the contents of a segment. -/
def copyLoop : (rounds dst total : Nat) → CvtM Unit
  | 0, _, _ => throw .diverge
  | rounds + 1, dst, total =>
    if 0 < total then do
      let data ← fread input total
      if data = [] then
        throw (.panic "%s: unexpected EOF in %s\n")
      store dst data
      copyLoop rounds (dst + data.length) (total - data.length)
    else pure ()

/-- The part of the loop over the program headers that comes after `base` is settled. -/
def convertSegment (phdr : Phdr) : CvtM Unit := do
  let s ← get
  if phdr.memsz < phdr.filesz then
    throw .assert
  imageGrow ((phdr.vaddr + phdr.memsz + (2 ^ 64 - s.base)) % 2 ^ 64)
  fseek phdr.offset
  copyLoop input (phdr.filesz % 2 ^ 32 + 1) (phdr.vaddr - s.base) (phdr.filesz % 2 ^ 32)
  imageProt (phdr.vaddr - s.base) phdr.filesz phdr.flags true
  imageProt (phdr.vaddr + phdr.filesz - s.base) (phdr.memsz - phdr.filesz) phdr.flags false

/-- One turn of the loop over the program headers. -/
def convertHeader (inpos : Nat) : CvtM Unit := do
  fseek inpos
  let phdr := Phdr.ofMemory (← readRecord input Phdr.sizeof "%s: can't read program header in %s\n")
  if phdr.Loadable then
    let s ← get
    if s.base = 0 then
      set { s with base := phdr.vaddr }
      convertSegment input phdr
    else if s.base ≤ phdr.vaddr then
      convertSegment input phdr

def convertHeaders : (left inpos : Nat) → CvtM Unit
  | 0, _ => pure ()
  | left + 1, inpos => do
    convertHeader input inpos
    convertHeaders left ((inpos + Phdr.sizeof) % 2 ^ 32)

/-- Eight bytes of the image are set for a relocation. -/
def relocate (offset value : Nat) : CvtM Unit := do
  let s ← get
  imageGrow ((offset + 8 + (2 ^ 64 - s.base)) % 2 ^ 64)
  imageProt ((offset + (2 ^ 64 - s.base)) % 2 ^ 64) 8 4 true
  store ((offset + (2 ^ 64 - s.base)) % 2 ^ 64) ((List.range 8).map (byteOf value))

/-- One entry, with `R_X86_64_GLOB_DAT` = 6 and `R_X86_64_RELATIVE` = 8. -/
def relocateEntry (stab : List Byte) (er : Buffer) : CvtM Unit :=
  let sym := field er 8 8 / 2 ^ 32
  if field er 8 8 % 2 ^ 32 = 6 then
    if stab.length < 24 * sym + 16 then throw .undefined
    else relocate (field er 0 8) (field (fun i => stab.getD i 0) (24 * sym + 8) 8)
  else if field er 8 8 % 2 ^ 32 = 8 then relocate (field er 0 8) (field er 16 8)
  else pure ()

/-- The entries fill an `Elf64_Rela`, of 24 bytes. -/
def relocateEntries (stab : List Byte) (entsize : Nat) : (left : Nat) → CvtM Unit
  | 0 => pure ()
  | left + 1 => do
    if entsize ≠ 24 then
      throw .undefined
    let er ← readRecord input entsize "%s: can't read rela in %s\n"
    relocateEntry stab er
    relocateEntries stab entsize left

/-- Read the GOT. -/
def readGot (sections : List Shdr) (stab : Option (List Byte)) : CvtM Unit := do
  match lastSection sections shtRela, stab with
  | some sh, some stab =>
    fseek sh.offset
    if sh.entsize = 0 then
      throw .undefined
    relocateEntries input stab sh.entsize (sh.size / sh.entsize)
  | _, _ => pure ()

/-! ### The segments -/

/-- The initialized pages that come before the first one that is not. -/
def ninitialized (pages : Nat → PageInfo) : (left j : Nat) → Nat
  | 0, _ => 0
  | left + 1, j => if (pages j).initialized then 1 + ninitialized pages left (j + 1) else 0

/-- The segment of the pages from `first` up to `i`. -/
def segmentOf (pages : Nat → PageInfo) (base first i : Nat) : ExecSegment where
  first := (first + base / pageSize) % 2 ^ 32
  npages := i - first
  nblocks := ninitialized pages (i - first) first
  prot := (pages first).prot

/-- The loop that splits the pages up. -/
def splitLoop (pages : Nat → PageInfo) (base npages : Nat) :
    (rounds i first : Nat) → (lastInitialized : Bool) → List ExecSegment →
      Except Stop (List ExecSegment)
  | 0, _, _, _, _ => throw .diverge
  | rounds + 1, i, first, lastInitialized, es =>
    if i ≤ npages then
      let last := if i < npages then (pages i).initialized else lastInitialized
      if npages ≤ first then throw .undefined
      else if i = npages ∨ (pages i).prot ≠ (pages first).prot ∨
          ((pages i).initialized = true ∧ lastInitialized = false) then
        if (pages first).prot ≠ Prot.none then
          if es.length < maxSegments - 1 then
            splitLoop pages base npages rounds ((i + 1) % 2 ^ 32) i last
              (es ++ [segmentOf pages base first i])
          else throw .assert
        else splitLoop pages base npages rounds ((i + 1) % 2 ^ 32) i last es
      else splitLoop pages base npages rounds ((i + 1) % 2 ^ 32) first last es
    else pure es

/-- Split the pages up into segments. -/
def split (s : State) : Except Stop (List ExecSegment) :=
  if s.npages = 0 then throw .undefined
  else splitLoop s.pages s.base s.npages (s.npages + 1) 1 0 (s.pages 0).initialized []

/-! ### The output -/

def segmentBytes (es : ExecSegment) : List Byte :=
  wordBytes es.first ++ wordBytes es.npages ++ wordBytes es.nblocks ++ wordBytes (protCode es.prot)

/-- The two headers, with the segments that are not used all 0. -/
def headerBytes (entry : Nat) (es : List ExecSegment) : List Byte :=
  wordBytes es.length ++ wordBytes 1 ++ (List.range 8).map (byteOf entry) ++
    es.flatMap segmentBytes ++ List.replicate (16 * (maxSegments - es.length)) 0

/-- The address of the first block of a segment in the image. -/
def imageAddr (base : Nat) (es : ExecSegment) : Nat :=
  (es.first * pageSize % 2 ^ 32 + (2 ^ 64 - base)) % 2 ^ 32

/-- The blocks of the segments. -/
def writeSegments (s : State) : List ExecSegment → Except Stop (List Byte)
  | [] => pure []
  | es :: rest => do
    let addr := imageAddr s.base es
    if 0 < es.nblocks ∧ s.allocated < addr + pageSize * es.nblocks then
      throw .undefined
    return (List.range (pageSize * es.nblocks)).map (fun k => s.image (addr + k)) ++
      (← writeSegments s rest)

/-- The output file: `fseek` leaves a hole behind the headers. -/
def outputFile (entry : Nat) (es : List ExecSegment) (blocks : List Byte) : List Byte :=
  if blocks = [] then headerBytes entry es
  else headerBytes entry es ++
    (List.replicate (pageSize - (headerBytes entry es).length) 0 ++ blocks)

/-- `main`: the output file, if 0 is returned. -/
def main : CvtM (List Byte) := do
  let ehdr := Ehdr.ofMemory (← readRecord input Ehdr.sizeof "%s: can't read header in %s (%d)\n")
  if ¬ ehdr.Executable then
    throw (.panic "%s: %s not an executable\n")
  fseek ehdr.shoff
  let sections ← readSections input ehdr.shnum
  let stab ← readDynsym input sections
  convertHeaders input ehdr.phnum (ehdr.phoff % 2 ^ 32)
  readGot input sections stab
  let s ← get
  match split s with
  | .error e => throw e
  | .ok es =>
    match writeSegments s es with
    | .error e => throw e
    | .ok blocks => return outputFile ehdr.entry es blocks

end

end Egos.ElfCvt
