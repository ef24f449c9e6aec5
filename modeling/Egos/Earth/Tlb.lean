import Mathlib.Data.Fintype.Basic
import Egos.Lib.Bytes

/-!
# The software TLB

`tlb.c`. All processes share one range of virtual pages. What a process sees of a page lies
in this range while an entry maps it and in the page's frame otherwise, and the functions
here copy it to and fro. A frame is named by its number, and `mprotect` does not fail.
-/
namespace Egos.Earth

open Egos.Lib

set_option autoImplicit false

/-- `PAGESIZE`. -/
def pageSize : Nat := 0x4000

theorem mod_pageSize_lt (virt : Nat) : virt % pageSize < pageSize := Nat.mod_lt _ (by decide)

/-- `VIRT_PAGES`. -/
@[irreducible] def virtPages : Nat := 0x1000

/-- `VIRT_BASE`. -/
def virtBase : Nat := 0x9000000000

/-- `VIRT_TOP`. -/
def virtTop : Nat := virtBase + virtPages * pageSize

/-- `TLB_SIZE`, with which the kernel initializes the TLB. -/
def tlbSize : Nat := 16

abbrev Page := Fin pageSize → Byte

/-- The protection bits `P_READ`, `P_WRITE` and `P_EXEC`. -/
structure Prot where
  read : Bool
  write : Bool
  exec : Bool
  deriving DecidableEq

namespace Prot

def none : Prot := ⟨false, false, false⟩
def r : Prot := ⟨true, false, false⟩
def rx : Prot := ⟨true, false, true⟩
def rw : Prot := ⟨true, true, false⟩

end Prot

/-- `struct tlb_entry`; the entry is unused if it has no frame. -/
structure TlbEntry where
  virt : Nat
  phys : Option Nat
  prot : Prot
  deriving DecidableEq

def TlbEntry.unused : TlbEntry := ⟨0, Option.none, Prot.none⟩

/-- The TLB, the physical memory, and the range of virtual pages with the protection that
`mprotect` gave them. -/
structure Mmu where
  entries : Fin tlbSize → TlbEntry
  frames : Nat → Page
  memory : Nat → Page
  access : Nat → Prot

namespace Mmu

/-- `tlb_get_entry`. -/
def getEntry (mmu : Mmu) (virt : Nat) : Option (Fin tlbSize) :=
  (List.finRange tlbSize).find? fun i =>
    decide ((mmu.entries i).virt = virt) && (mmu.entries i).phys.isSome

/-- `tlb_sync_entry`. -/
def syncEntry (mmu : Mmu) (i : Fin tlbSize) : Mmu :=
  match (mmu.entries i).phys with
  | Option.none => mmu
  | some frame =>
    let te := mmu.entries i
    if te.prot.write then
      { mmu with
        access := if te.prot.read then mmu.access else Function.update mmu.access te.virt Prot.r
        frames := Function.update mmu.frames frame (mmu.memory te.virt) }
    else mmu

/-- `tlb_flush_entry`. -/
def flushEntry (mmu : Mmu) (i : Fin tlbSize) : Mmu :=
  match (mmu.entries i).phys with
  | Option.none => mmu
  | some _ =>
    let synced := mmu.syncEntry i
    { synced with
      access := Function.update synced.access (mmu.entries i).virt Prot.none
      entries := Function.update synced.entries i TlbEntry.unused }

/-- `tlb_unmap`. -/
def unmap (mmu : Mmu) (virt : Nat) : Mmu :=
  (List.finRange tlbSize).foldl
    (fun mmu i => if (mmu.entries i).virt = virt then mmu.flushEntry i else mmu) mmu

/-- `tlb_map`. -/
def map (mmu : Mmu) (i : Fin tlbSize) (virt phys : Nat) (prot : Prot) : Mmu :=
  let mmu := mmu.flushEntry i
  { mmu with
    entries := Function.update mmu.entries i ⟨virt, some phys, prot⟩
    memory := Function.update mmu.memory virt (mmu.frames phys)
    access := Function.update mmu.access virt prot }

/-- `tlb_flush`. -/
def flush (mmu : Mmu) : Mmu := (List.finRange tlbSize).foldl flushEntry mmu

/-- `tlb_sync`. -/
def sync (mmu : Mmu) : Mmu := (List.finRange tlbSize).foldl syncEntry mmu

/-- `tlb_initialize` and the kernel's `m_alloc` of the frames, which hold anything. -/
def initial (frames : Nat → Page) : Mmu where
  entries := fun _ => TlbEntry.unused
  frames := frames
  memory := fun _ _ => 0
  access := fun _ => Prot.none

end Mmu

end Egos.Earth
