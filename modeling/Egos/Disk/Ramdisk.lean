import Egos.Disk.Store

/-!
# The memory disk `ramdisk.c`

A single inode, number 0, over an array of blocks. `setsize` accepts any size and
any inode; reads and writes check both.
-/
namespace Egos.Disk.Ramdisk

set_option autoImplicit false

variable {β : Type}

/-- `struct ramdisk_state`. Only the first `nblocks` blocks are ever accessed. -/
structure State (β : Type) where
  blocks : Nat → β
  nblocks : Nat

def getninodes : EStateM Stop (State β) Int := pure 1

def getsize (ino : Nat) : EStateM Stop (State β) Int := do
  if ino ≠ 0 then pure (-1) else pure (toInt (← get).nblocks)

def setsize (_ino nblocks : Nat) : EStateM Stop (State β) Int := do
  let before := (← get).nblocks
  modify fun rs => { rs with nblocks := nblocks }
  pure (toInt before)

def read (ino offset : Nat) : EStateM Stop (State β) (Option β) := do
  if ino ≠ 0 then pure none
  else if (← get).nblocks ≤ offset then pure none
  else pure (some ((← get).blocks offset))

def write (ino offset : Nat) (block : β) : EStateM Stop (State β) Int := do
  if ino ≠ 0 then pure (-1)
  else if (← get).nblocks ≤ offset then pure (-1)
  else
    modify fun rs => { rs with blocks := Function.update rs.blocks offset block }
    pure 0

def sync (_ino : Nat) : EStateM Stop (State β) Int := pure 0

/-- The interface `ramdisk_init` returns. -/
def ramdisk : BlockStore β (State β) where
  getninodes := getninodes
  getsize := getsize
  setsize := setsize
  read := read
  write := write
  sync := sync

theorem read_of_lt {rs : State β} {offset : Nat} (h : offset < rs.nblocks) :
    read 0 offset rs = .ok (some (rs.blocks offset)) rs := by
  have hn : ¬ rs.nblocks ≤ offset := by omega
  unfold read
  rw [if_neg (not_not.mpr rfl)]
  exact congrFun (if_neg hn) rs

theorem write_of_lt {rs : State β} {offset : Nat} (h : offset < rs.nblocks) (block : β) :
    write 0 offset block rs =
      .ok 0 { rs with blocks := Function.update rs.blocks offset block } := by
  have hn : ¬ rs.nblocks ≤ offset := by omega
  unfold write
  rw [if_neg (not_not.mpr rfl)]
  exact congrFun (if_neg hn) rs

/-- As long as nobody resizes it, a ramdisk of `size` blocks is a fixed store. -/
def fixed (β : Type) [Inhabited β] (size : Nat) (hs : size < 2 ^ 32) :
    FixedStore β (State β) where
  toBlockStore := ramdisk
  sizes := fun ino => if ino = 0 then size else 0
  Good := fun rs => rs.nblocks = size
  view := fun rs ino offset => if ino = 0 then rs.blocks offset else default
  sizes_lt := fun ino => by
    split
    · exact hs
    · decide
  getsize_ok := by
    intro s h ino hi
    have h0 : ino = 0 := by by_contra hne; simp [hne] at hi
    subst h0 h
    exact ⟨s, rfl, rfl, rfl⟩
  read_ok := by
    intro s h ino offset hi
    have h0 : ino = 0 := by by_contra hne; simp [hne] at hi
    subst h0 h
    exact ⟨s, read_of_lt (by simpa using hi), rfl, rfl⟩
  write_ok := by
    intro s h ino offset hi block
    have h0 : ino = 0 := by by_contra hne; simp [hne] at hi
    subst h0 h
    refine ⟨_, write_of_lt (by simpa using hi) block, rfl, ?_⟩
    funext i o
    by_cases hi0 : i = 0 <;> simp [setBlock, hi0, Function.update_apply]
  sync_ok := fun h _ => ⟨0, _, rfl, h, rfl⟩

end Egos.Disk.Ramdisk
