import Mathlib.Data.Fintype.Card
import Mathlib.Data.List.FinRange
import Egos.Disk.Store

/-!
# The write-back cache `clockdisk.c`

One record per cache slot joins `block_infos[i]` with the cached `blocks[i]`. The
hit and miss counters are left out: they only feed the printed statistics. The
loop of `cache_update` has no counter of its own; it is given as many rounds as
it can need and stops with `diverge` past them, which `Transparency` excludes.
-/
namespace Egos.Disk.Clockdisk

open Egos.Lib

set_option autoImplicit false

/-- `enum block_status`. -/
inductive Status where
  | empty
  | old
  | new
  deriving DecidableEq

/-- `block_infos[i]` together with the memory of `blocks[i]`. -/
structure Slot (β : Type) where
  status : Status
  dirty : Bool
  ino : Nat
  offset : Nat
  block : β

/-- `struct clockdisk_state` over a store below in state `below`. -/
structure State (β σ : Type) (n : Nat) where
  below : σ
  slots : Fin n → Slot β
  clockHand : Fin n

variable {β σ : Type} {n : Nat}

/-- The slot is in use and caches this block. -/
def Slot.caches (slot : Slot β) (ino offset : Nat) : Bool :=
  slot.status ≠ .empty && slot.ino == ino && slot.offset == offset

/-- `(i + 1) % cs->nblocks`. -/
def next (i : Fin n) : Fin n := ⟨(i.val + 1) % n, Nat.mod_lt _ (Nat.zero_lt_of_lt i.isLt)⟩

def State.setSlot (cs : State β σ n) (i : Fin n) (slot : Slot β) : State β σ n :=
  { cs with slots := Function.update cs.slots i slot }

/-- Call the store below. -/
def onBelow {α : Type} (m : EStateM Stop σ α) : EStateM Stop (State β σ n) α :=
  onPart State.below (fun cs s => { cs with below := s }) m

/-- The search loop of `read` and `write`: the first slot that caches the block. -/
def lookup (cs : State β σ n) (ino offset : Nat) : Option (Fin n) :=
  (List.finRange n).find? fun i => (cs.slots i).caches ino offset

/-- Write back the slot under the hand if it is live and dirty. -/
def writeBack (bs : BlockStore β σ) (slot : Slot β) : EStateM Stop (State β σ n) Unit :=
  if slot.status ≠ .empty ∧ slot.dirty then do
    let _ ← onBelow (bs.write slot.ino slot.offset slot.block)
    pure ()
  else pure ()

/-- `cache_update`, with the number of rounds left. -/
def cacheUpdate (bs : BlockStore β σ) (ino offset : Nat) (block : β) (dirty : Bool) :
    Nat → EStateM Stop (State β σ n) Unit
  | 0 => throw .diverge
  | rounds + 1 => do
    let cs ← get
    let i := cs.clockHand
    if (cs.slots i).status ≠ .new then do
      writeBack bs (cs.slots i)
      modify fun cs =>
        { cs.setSlot i ⟨.new, dirty, ino, offset, block⟩ with clockHand := next i }
    else do
      modify fun cs =>
        { cs.setSlot i { cs.slots i with status := .old } with clockHand := next i }
      cacheUpdate bs ino offset block dirty rounds

def getninodes (bs : BlockStore β σ) : EStateM Stop (State β σ n) Int := onBelow bs.getninodes

def getsize (bs : BlockStore β σ) (ino : Nat) : EStateM Stop (State β σ n) Int :=
  onBelow (bs.getsize ino)

/-- The slots of the blocks that the truncation cuts off are emptied first. -/
def dropSlots (cs : State β σ n) (ino nblocks : Nat) : State β σ n :=
  { cs with slots := fun i =>
      if (cs.slots i).status ≠ .empty ∧ (cs.slots i).ino = ino ∧ nblocks ≤ (cs.slots i).offset
      then { cs.slots i with status := .empty } else cs.slots i }

def setsize (bs : BlockStore β σ) (ino nblocks : Nat) : EStateM Stop (State β σ n) Int := do
  modify fun cs => dropSlots cs ino nblocks
  onBelow (bs.setsize ino nblocks)

def read (bs : BlockStore β σ) (ino offset : Nat) : EStateM Stop (State β σ n) (Option β) := do
  let cs ← get
  match lookup cs ino offset with
  | some i =>
    modify fun cs => cs.setSlot i { cs.slots i with status := .new }
    pure (some (cs.slots i).block)
  | none =>
    match ← onBelow (bs.read ino offset) with
    | none => pure none
    | some block => do
      cacheUpdate bs ino offset block false (n + 1)
      pure (some block)

def write (bs : BlockStore β σ) (ino offset : Nat) (block : β) :
    EStateM Stop (State β σ n) Int := do
  let cs ← get
  match lookup cs ino offset with
  | some i =>
    modify fun cs => cs.setSlot i { cs.slots i with block := block, status := .new, dirty := true }
    pure 0
  | none => do
    cacheUpdate bs ino offset block true (n + 1)
    pure 0

/-- One round of the loop of `clockdisk_sync`. -/
def syncSlot (bs : BlockStore β σ) (ino : Nat) (i : Fin n) : EStateM Stop (State β σ n) Unit := do
  let cs ← get
  if (cs.slots i).status ≠ .empty ∧ (cs.slots i).dirty ∧
      ((cs.slots i).ino = ino ∨ ino = allInodes) then do
    let _ ← onBelow (bs.write (cs.slots i).ino (cs.slots i).offset (cs.slots i).block)
    modify fun cs => cs.setSlot i { cs.slots i with dirty := false }
  else pure ()

def sync (bs : BlockStore β σ) (ino : Nat) : EStateM Stop (State β σ n) Int := do
  (List.finRange n).forM (syncSlot bs ino)
  onBelow (bs.sync ino)

/-- `clockdisk_init`: every slot is EMPTY and the hand is at slot 0. The memory for
the blocks is the caller's and holds anything. -/
def init (below : σ) (blocks : Fin (n + 1) → β) : State β σ (n + 1) where
  below := below
  slots := fun i => ⟨.empty, false, 0, 0, blocks i⟩
  clockHand := 0

/-- The interface `clockdisk_init` returns. -/
def clockdisk (bs : BlockStore β σ) : BlockStore β (State β σ n) where
  getninodes := getninodes bs
  getsize := getsize bs
  setsize := setsize bs
  read := read bs
  write := write bs
  sync := sync bs

end Egos.Disk.Clockdisk
