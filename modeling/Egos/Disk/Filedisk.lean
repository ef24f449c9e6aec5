import Mathlib.Data.List.OfFn
import Egos.Disk.Arrays
import Egos.Lib.Bytes

/-!
# The file disk `filedisk.c`

The blocks lie one after the other in a file of the host. The position of a block is computed in 32
bits when it is read or written, and in 64 bits when the file is made.
-/
namespace Egos.Disk.Filedisk

open Egos.Lib

set_option autoImplicit false

def blockSize : Nat := 1024

/-- `block_t` -/
abbrev Block := Fin blockSize → Byte

/-- An open file of the host. What lies behind its end is zero, and so are the holes that it gets
when it grows. -/
structure HostFile where
  bytes : Buffer
  length : Nat
  pos : Nat

namespace HostFile

/-- A new file, as `fopen` with `"w+"` makes it. -/
def empty : HostFile := ⟨fun _ => 0, 0, 0⟩

/-- `fseek(fp, offset, SEEK_SET)`, which does nothing if the offset is negative. -/
def fseek (fp : HostFile) (offset : Int) : HostFile :=
  if offset < 0 then fp else { fp with pos := offset.toNat }

/-- `fread(block, BLOCK_SIZE, 1, fp)`, if it returns 1. -/
def fread (fp : HostFile) : Option (Block × HostFile) :=
  if fp.pos + blockSize ≤ fp.length then
    some (fun k => fp.bytes (fp.pos + k), { fp with pos := fp.pos + blockSize })
  else none

/-- `fwrite`, which returns 1. -/
def fwrite (fp : HostFile) (data : List Byte) : HostFile where
  bytes := overlay fp.bytes fp.pos data
  length := max fp.length (fp.pos + data.length)
  pos := fp.pos + data.length

end HostFile

/-- `struct filedisk_state` -/
structure State where
  fp : HostFile
  nblocks : Nat
  current : Nat

/-- `offset * BLOCK_SIZE` as an `unsigned int` -/
def position (offset : Nat) : Nat := offset * blockSize % 2 ^ 32

def getninodes : EStateM Stop State Int := pure 1

def getsize (ino : Nat) : EStateM Stop State Int := do
  if ino ≠ 0 then
    return -1
  return toInt (← get).nblocks

def setsize (_ino nblocks : Nat) : EStateM Stop State Int := do
  let before := (← get).nblocks
  modify fun rs => { rs with nblocks := nblocks }
  return toInt before

def read (ino offset : Nat) : EStateM Stop State (Option Block) := do
  if ino ≠ 0 then
    return none
  if (← get).nblocks ≤ offset then
    return none
  if (← get).current ≤ offset then
    return some fun _ => 0
  modify fun rs => { rs with fp := rs.fp.fseek (position offset) }
  match (← get).fp.fread with
  | some (block, fp) =>
    modify fun rs => { rs with fp := fp }
    return some block
  | none => throw .assert

def write (ino offset : Nat) (block : Block) : EStateM Stop State Int := do
  if ino ≠ 0 then
    return -1
  if (← get).nblocks ≤ offset then
    return -1
  if (← get).current ≤ offset then
    modify fun rs => { rs with current := (offset + 1) % 2 ^ 32 }
  modify fun rs => { rs with fp := rs.fp.fseek (position offset) }
  modify fun rs => { rs with fp := rs.fp.fwrite (List.ofFn block) }
  return 0

/-- `fflush` leaves the file as it is. -/
def sync (_ino : Nat) : EStateM Stop State Int := pure 0

/-- The interface `filedisk_init` returns. -/
def filedisk : BlockStore Block State where
  getninodes := getninodes
  getsize := getsize
  setsize := setsize
  read := read
  write := write
  sync := sync

/-- `filedisk_init`: the last byte is written so that the file has its size. -/
def init (nblocks : Nat) : State where
  fp := (HostFile.empty.fseek ((nblocks : Int) * blockSize - 1)).fwrite [0]
  nblocks := nblocks
  current := 0

/-- The disk is an array of blocks, zero in the beginning, and no two blocks share a position. -/
def Faithful (nblocks : Nat) : Prop :=
  IsArrays filedisk (flatSizes nblocks) (fun _ _ => 0) (init nblocks) ∧
  ∀ a b, a < nblocks → b < nblocks → a ≠ b →
    ∀ k l : Fin blockSize, position a + k ≠ position b + l

/-! ## Blocks in the file -/

/-- The block at a position. -/
def blockAt (bytes : Buffer) (pos : Nat) : Block := fun k => bytes (pos + k)

section

variable {bytes : Buffer} {pos : Nat} {block : Block}

theorem blockAt_overlay (bytes : Buffer) (pos : Nat) (block : Block) :
    blockAt (overlay bytes pos (List.ofFn block)) pos = block := by
  funext k
  unfold blockAt
  rw [overlay_inside (by rw [List.length_ofFn]; exact k.isLt)]
  rw [List.getD_eq_getElem _ _ (by rw [List.length_ofFn]; exact k.isLt), List.getElem_ofFn]

theorem blockAt_overlay_of_disjoint {pos' : Nat} (h : pos' + blockSize ≤ pos ∨ pos + blockSize ≤ pos') :
    blockAt (overlay bytes pos (List.ofFn block)) pos' = blockAt bytes pos' := by
  funext k
  have hk := k.isLt
  unfold blockAt
  apply overlay_outside
  rw [List.length_ofFn]
  omega

end

/-- The file, block by block. -/
def cells (rs : State) (offset : Nat) : Block := blockAt rs.fp.bytes (offset * blockSize)

section

variable {rs : State} {ino offset nblocks : Nat} {block : Block}

theorem read_zeros (h : offset < rs.nblocks) (hc : rs.current ≤ offset) :
    read 0 offset rs = .ok (some fun _ => 0) rs := by
  change (if rs.nblocks ≤ offset then _ else _ : EStateM Stop State (Option Block)) rs = _
  rw [if_neg (Nat.not_le.mpr h)]
  change (if rs.current ≤ offset then _ else _ : EStateM Stop State (Option Block)) rs = _
  rw [if_pos hc]
  rfl

theorem read_file (h : offset < rs.nblocks) (hc : offset < rs.current)
    (hlength : position offset + blockSize ≤ rs.fp.length) :
    read 0 offset rs = .ok (some (blockAt rs.fp.bytes (position offset)))
      { rs with fp := { rs.fp with pos := position offset + blockSize } } := by
  have hseek : rs.fp.fseek (position offset) = { rs.fp with pos := position offset } :=
    if_neg (Int.not_lt.mpr (Int.natCast_nonneg _))
  have hread : HostFile.fread { rs.fp with pos := position offset } =
      some (blockAt rs.fp.bytes (position offset),
        { rs.fp with pos := position offset + blockSize }) := if_pos hlength
  change (if rs.nblocks ≤ offset then _ else _ : EStateM Stop State (Option Block)) rs = _
  rw [if_neg (Nat.not_le.mpr h)]
  change (if rs.current ≤ offset then _ else _ : EStateM Stop State (Option Block)) rs = _
  rw [if_neg (Nat.not_le.mpr hc)]
  change (match (rs.fp.fseek (position offset)).fread with
    | some (block, fp) => _
    | none => _ : EStateM Stop State (Option Block)) _ = _
  rw [hseek, hread]
  rfl

/-- The state after a write. -/
def written (rs : State) (offset : Nat) (block : Block) : State where
  fp := { rs.fp with pos := position offset }.fwrite (List.ofFn block)
  nblocks := rs.nblocks
  current := if rs.current ≤ offset then (offset + 1) % 2 ^ 32 else rs.current

theorem write_file (h : offset < rs.nblocks) :
    write 0 offset block rs = .ok 0 (written rs offset block) := by
  have hseek : rs.fp.fseek (position offset) = { rs.fp with pos := position offset } :=
    if_neg (Int.not_lt.mpr (Int.natCast_nonneg _))
  unfold written
  rw [← hseek]
  change (if rs.nblocks ≤ offset then _ else _ : EStateM Stop State Int) rs = _
  rw [if_neg (Nat.not_le.mpr h)]
  by_cases hc : rs.current ≤ offset
  · rw [if_pos hc]
    change (if rs.current ≤ offset then _ else _ : EStateM Stop State Int) rs = _
    rw [if_pos hc]
    rfl
  · rw [if_neg hc]
    change (if rs.current ≤ offset then _ else _ : EStateM Stop State Int) rs = _
    rw [if_neg hc]
    rfl

end

/-! ## Small disks -/

/-- The file holds the blocks of inode 0 of `arrays`, and those from `current` on are zeros. -/
structure Holds (nblocks : Nat) (rs : State) (arrays : Nat × Nat → Block) : Prop where
  nblocks_eq : rs.nblocks = nblocks
  length_le : nblocks * blockSize ≤ rs.fp.length
  laid : Laid (blocksOf (flatSizes nblocks)) Prod.snd (cells rs) arrays
  zeros : ∀ offset, rs.current ≤ offset → offset < nblocks → arrays (0, offset) = fun _ => 0

section

variable {rs : State} {ino offset nblocks : Nat} {arrays : Nat × Nat → Block} {block : Block}

/-- The 32 bits are enough for a disk of 4 GiB. -/
theorem position_eq (hn : nblocks ≤ 2 ^ 22) (h : offset < nblocks) :
    position offset = offset * blockSize := by
  apply Nat.mod_eq_of_lt
  unfold blockSize
  omega

theorem position_le (hn : nblocks ≤ 2 ^ 22) (h : offset < nblocks) :
    position offset + blockSize ≤ nblocks * blockSize := by
  rw [position_eq hn h]
  unfold blockSize
  omega

theorem cells_written (hn : nblocks ≤ 2 ^ 22) (h : offset < nblocks) :
    cells (written rs offset block) = Function.update (cells rs) offset block := by
  funext o
  change blockAt (overlay rs.fp.bytes (position offset) (List.ofFn block)) (o * blockSize) = _
  rw [position_eq hn h]
  by_cases ho : o = offset
  · subst ho
    rw [Function.update_self]
    exact blockAt_overlay _ _ _
  · rw [Function.update_of_ne ho]
    apply blockAt_overlay_of_disjoint
    unfold blockSize
    omega

theorem snd_injOn (nblocks : Nat) :
    Set.InjOn (Prod.snd : Nat × Nat → Nat) (blocksOf (flatSizes nblocks)) := by
  intro p hp q hq h
  obtain ⟨hp0, -⟩ := lt_flatSizes.mp hp
  obtain ⟨hq0, -⟩ := lt_flatSizes.mp hq
  exact Prod.ext (hp0.trans hq0.symm) h

theorem Holds.written (hn : nblocks ≤ 2 ^ 22) (h : Holds nblocks rs arrays) (hlt : offset < nblocks)
    (block : Block) :
    Holds nblocks (written rs offset block) (Function.update arrays (0, offset) block) := by
  have hmem : (0, offset) ∈ blocksOf (flatSizes nblocks) := lt_flatSizes.mpr ⟨rfl, hlt⟩
  refine ⟨h.nblocks_eq, Nat.le_trans h.length_le (Nat.le_max_left _ _), ?_, ?_⟩
  · rw [cells_written hn hlt]
    exact h.laid.update (snd_injOn nblocks) hmem block
  · intro o ho hon
    change (if rs.current ≤ offset then (offset + 1) % 2 ^ 32 else rs.current) ≤ o at ho
    have hcurrent : rs.current ≤ o ∧ offset ≠ o := by
      split at ho
      · omega
      · omega
    rw [Function.update_of_ne fun heq => hcurrent.2 (Prod.mk.inj heq).2.symm]
    exact h.zeros o hcurrent.1 hon

theorem Holds.read (hn : nblocks ≤ 2 ^ 22) (h : Holds nblocks rs arrays) (hlt : offset < nblocks) :
    ∃ rs', read 0 offset rs = .ok (some (arrays (0, offset))) rs' ∧ Holds nblocks rs' arrays := by
  have hlt' : offset < rs.nblocks := h.nblocks_eq ▸ hlt
  by_cases hc : rs.current ≤ offset
  · rw [h.zeros offset hc hlt]
    exact ⟨rs, read_zeros hlt' hc, h⟩
  · have hmem : (0, offset) ∈ blocksOf (flatSizes nblocks) := lt_flatSizes.mpr ⟨rfl, hlt⟩
    have hblock : blockAt rs.fp.bytes (position offset) = arrays (0, offset) := by
      have hcell := h.laid.get hmem
      rw [position_eq hn hlt]
      exact hcell
    have hrun := read_file hlt' (Nat.not_le.mp hc)
      (Nat.le_trans (position_le hn hlt) h.length_le)
    rw [hblock] at hrun
    exact ⟨_, hrun, h.nblocks_eq, h.length_le, h.laid, h.zeros⟩

theorem fails {α : Type} {fail : α} {body : EStateM Stop State α}
    (h : ¬ offset < flatSizes rs.nblocks ino) :
    (do
      if ino ≠ 0 then
        return fail
      if (← get).nblocks ≤ offset then
        return fail
      body : EStateM Stop State α) rs = .ok fail rs := by
  by_cases hino : ino = 0
  · have hle : rs.nblocks ≤ offset :=
      Nat.not_lt.mp fun hlt => h (lt_flatSizes.mpr ⟨hino, hlt⟩)
    rw [if_neg (not_not.mpr hino)]
    change (if rs.nblocks ≤ offset then pure fail else body : EStateM Stop State α) rs = _
    rw [if_pos hle]
    rfl
  · rw [if_pos hino]
    rfl

theorem holds_keeps (hn : nblocks ≤ 2 ^ 22) :
    Keeps filedisk (flatSizes nblocks) (Holds nblocks) := by
  constructor
  · intro rs arrays ino offset h hin
    obtain ⟨rfl, hlt⟩ := lt_flatSizes.mp hin
    exact h.read hn hlt
  · intro rs arrays ino offset h hout
    rw [← h.nblocks_eq] at hout
    exact ⟨rs, fails hout, h⟩
  · intro rs arrays ino offset h hin block
    obtain ⟨rfl, hlt⟩ := lt_flatSizes.mp hin
    exact ⟨_, write_file (h.nblocks_eq ▸ hlt), h.written hn hlt block⟩
  · intro rs arrays ino offset h hout block
    rw [← h.nblocks_eq] at hout
    exact ⟨rs, fails hout, h⟩

theorem init_bytes (nblocks k : Nat) : (init nblocks).fp.bytes k = 0 := by
  have hseek : ∀ offset, (HostFile.empty.fseek offset).bytes = fun _ => 0 := by
    intro offset
    unfold HostFile.fseek
    split <;> rfl
  change overlay (HostFile.empty.fseek _).bytes _ [0] k = 0
  rw [hseek]
  unfold overlay
  split
  · cases k - (HostFile.empty.fseek ((nblocks : Int) * blockSize - 1)).pos with
    | zero => rfl
    | succ k => rfl
  · rfl

theorem holds_init (nblocks : Nat) : Holds nblocks (init nblocks) fun _ _ => 0 := by
  refine ⟨rfl, ?_, ?_, fun _ _ _ => rfl⟩
  · unfold init HostFile.fwrite HostFile.fseek HostFile.empty blockSize
    dsimp only
    split
    · omega
    · dsimp only [List.length_singleton]
      omega
  · intro p _
    funext k
    exact init_bytes nblocks _

end

/-! ## Large disks -/

section

variable {nblocks : Nat}

/-- 4 GiB further on lies the first block again. -/
theorem position_wraps : position (2 ^ 22) = position 0 := by decide

theorem current_pos {rs : State} {offset : Nat} {block : Block} (h : offset < 2 ^ 32 - 1) :
    0 < (written rs offset block).current := by
  unfold written
  dsimp only
  split
  · omega
  · omega

/-- A write changes every block with the same position. -/
theorem read_alias {rs : State} {a b : Nat} {block : Block} (hposition : position a = position b)
    (ha : a < rs.nblocks) (hcurrent : a < (written rs b block).current) :
    ∃ rs', read 0 a (written rs b block) = .ok (some block) rs' := by
  have hlength : position a + blockSize ≤ (written rs b block).fp.length := by
    rw [hposition]
    change _ ≤ max _ (position b + (List.ofFn block).length)
    rw [List.length_ofFn]
    exact Nat.le_max_right _ _
  have hblock : blockAt (written rs b block).fp.bytes (position a) = block := by
    rw [hposition]
    exact blockAt_overlay _ _ _
  have hrun := @read_file (written rs b block) a ha hcurrent hlength
  rw [hblock] at hrun
  exact ⟨_, hrun⟩

theorem not_isArrays (hn : 2 ^ 22 < nblocks) :
    ¬ IsArrays filedisk (flatSizes nblocks) (fun _ _ => 0) (init nblocks) := by
  intro h
  let ones : Block := fun _ => 1
  let zeros : Block := fun _ => 0
  have hfirst : write 0 0 ones (init nblocks) = .ok 0 (written (init nblocks) 0 ones) :=
    write_file (Nat.zero_lt_of_lt hn)
  have hsecond : write 0 (2 ^ 22) zeros (written (init nblocks) 0 ones) =
      .ok 0 (written (written (init nblocks) 0 ones) (2 ^ 22) zeros) := write_file hn
  have hthird : ∃ rs, read 0 0 (written (written (init nblocks) 0 ones) (2 ^ 22) zeros) =
      .ok (some zeros) rs :=
    read_alias position_wraps.symm (Nat.zero_lt_of_lt hn) (current_pos (by decide))
  obtain ⟨rs, hthird⟩ := hthird
  obtain ⟨rs', hread⟩ := ((h.next (.write 0 0 ones) (bind_ok hfirst _)).next
    (.write 0 (2 ^ 22) zeros) (bind_ok hsecond _)).perform (.read 0 0)
  have hinside : 0 < flatSizes nblocks 0 := Nat.zero_lt_of_lt hn
  have hinside' : 2 ^ 22 < flatSizes nblocks 0 := hn
  rw [Transfer.answer_read hinside, Transfer.effect_write hinside, Transfer.effect_write hinside',
    Function.update_of_ne (by decide), Function.update_self] at hread
  have hequal := (bind_ok hthird fun r => pure (Answer.block r)).symm.trans hread
  have hblock : zeros = ones := Option.some.inj (Answer.block.inj (EStateM.Result.ok.inj hequal).1)
  exact absurd (congrFun hblock ⟨0, by decide⟩) (by decide)

/-- A file disk does what it should exactly if it is no larger than 4 GiB. -/
theorem file_faithful_iff (nblocks : Nat) : Faithful nblocks ↔ nblocks ≤ 2 ^ 22 := by
  constructor
  · intro h
    by_contra hn
    exact not_isArrays (Nat.not_le.mp hn) h.1
  · intro hn
    constructor
    · exact (holds_keeps hn).isArrays (holds_init nblocks)
    · intro a b ha hb hne k l
      have hk := k.isLt
      have hl := l.isLt
      rw [position_eq hn ha, position_eq hn hb]
      unfold blockSize at *
      omega

end

/-- One block more. -/
theorem faithful_not_large : ¬ Faithful (2 ^ 22 + 1) := fun h => not_isArrays (Nat.lt_succ_self _) h.1

end Egos.Disk.Filedisk
