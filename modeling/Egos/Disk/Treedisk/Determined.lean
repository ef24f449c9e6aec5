import Egos.Lib.Simulation
import Egos.Disk.Treedisk.Runs

/-!
# The image decides what a call does

`treedisk_write` and `treedisk_setsize` touch the store below through reads and writes
of one inode only. Over stores that answer these alike they end alike; compared with
blocks in memory, two states of a fixed store with the same image are not told apart.
-/
namespace Egos.Disk.Treedisk

open Egos.Lib

set_option autoImplicit false

variable {g : Geometry} {σ τ : Type}

/-- The reads and writes of one inode of `bs'` do what those of `bs` do. -/
structure Follows (R : τ → σ → Prop) (e₀ : Stop) (bs : BlockStore (Block g) τ)
    (bs' : BlockStore (Block g) σ) (belowIno : Nat) : Prop where
  read : ∀ b, Simulates R e₀ (bs.read belowIno b) (bs'.read belowIno b)
  write : ∀ b block, Simulates R e₀ (bs.write belowIno b block) (bs'.write belowIno b block)

namespace Follows

variable {R : τ → σ → Prop} {e₀ : Stop} {bs : BlockStore (Block g) τ}
  {bs' : BlockStore (Block g) σ} {belowIno : Nat} (h : Follows R e₀ bs bs' belowIno)

include h

theorem mustRead (b : Nat) (message : String) :
    Simulates R e₀ (mustRead bs belowIno b message) (mustRead bs' belowIno b message) := by
  refine .bind (h.read b) fun r => ?_
  cases r with
  | none => exact .throw _
  | some block => exact .pure _

theorem mustWrite (b : Nat) (block : Block g) (message : String) :
    Simulates R e₀ (mustWrite bs belowIno b block message)
      (mustWrite bs' belowIno b block message) := by
  refine .bind (h.write b block) fun r => ?_
  split
  · exact .throw _
  · exact .pure _

theorem getSnapshot (ino : Nat) :
    Simulates R e₀ (getSnapshot bs belowIno ino) (getSnapshot bs' belowIno ino) := by
  refine .bind (h.read 0) fun r => ?_
  cases r with
  | none => exact .pure _
  | some superblock =>
    dsimp only
    split
    · exact .pure _
    · refine .bind (h.read _) fun r => ?_
      cases r with
      | none => exact .pure _
      | some inodeblock => exact .pure _

theorem allocBlock (sn : Snapshot g) :
    Simulates R e₀ (allocBlock bs belowIno sn) (allocBlock bs' belowIno sn) := by
  unfold Treedisk.allocBlock
  dsimp only
  split
  · exact .throw _
  · refine .bind (h.mustRead _ _) fun fl => ?_
    split
    · exact .bind (h.mustWrite _ _ _) fun _ => .pure _
    · exact .bind (h.mustWrite _ _ _) fun _ => .pure _

theorem freeBlock (target : Nat) (sn : Snapshot g) :
    Simulates R e₀ (freeBlock bs belowIno target sn) (freeBlock bs' belowIno target sn) := by
  unfold Treedisk.freeBlock
  refine .bind (h.mustWrite _ _ _) fun _ => ?_
  dsimp only
  split
  · exact .bind (h.mustWrite _ _ _) fun _ => .pure _
  · refine .bind (h.mustRead _ _) fun fl => ?_
    split
    · exact .bind (h.mustWrite _ _ _) fun _ => .pure _
    · exact .bind (h.mustWrite _ _ _) fun _ => .bind (h.mustWrite _ _ _) fun _ => .pure _

theorem recursiveFreeFile (left b : Nat) (sn : Snapshot g) :
    Simulates R e₀ (recursiveFreeFile bs belowIno left b sn)
      (recursiveFreeFile bs' belowIno left b sn) := by
  induction left generalizing b sn with
  | zero => exact h.freeBlock b sn
  | succ left ih =>
    refine .bind (h.mustRead _ _) fun indirblock => ?_
    refine .bind (.foldlM (fun sn i => ?_) _ _) fun sn => h.freeBlock b sn
    split
    · exact ih _ _
    · exact .pure _

theorem freeFile (sn : Snapshot g) :
    Simulates R e₀ (freeFile bs belowIno sn) (freeFile bs' belowIno sn) := by
  unfold Treedisk.freeFile
  split
  · exact .pure _
  · split
    · exact h.freeBlock _ _
    · cases levelLoop g sn.nblocks 32 1 g.refsPerBlock with
      | none => exact .throw _
      | some level => exact h.recursiveFreeFile _ _ _

theorem setsize (ino nblocks : Nat) :
    Simulates R e₀ (setsize bs belowIno ino nblocks) (setsize bs' belowIno ino nblocks) := by
  refine .bind (h.getSnapshot ino) fun r => ?_
  cases r with
  | none => exact .throw _
  | some sn =>
    dsimp only
    split
    · exact .pure _
    · split
      · exact .pure _
      · exact .bind (h.freeFile sn) fun _ => .bind (h.mustWrite _ _ _) fun _ => .pure _

theorem growLevels (more : Nat) (sn : Snapshot g) :
    Simulates R e₀ (growLevels bs belowIno more sn) (growLevels bs' belowIno more sn) := by
  induction more generalizing sn with
  | zero => exact .pure _
  | succ more ih =>
    refine .bind (h.allocBlock sn) fun r => ?_
    exact .bind (h.mustWrite _ _ _) fun _ => ih _

theorem getOrAlloc (parent : Block g) (parentOff slot : Nat) (sn : Snapshot g) :
    Simulates R e₀ (getOrAlloc bs belowIno parent parentOff slot sn)
      (getOrAlloc bs' belowIno parent parentOff slot sn) := by
  unfold Treedisk.getOrAlloc
  split
  · exact .bind (h.allocBlock sn) fun r => .bind (h.mustWrite _ _ _) fun _ => .pure _
  · exact .pure _

theorem descend (offset nlevels : Nat) (parent : Block g) (parentOff slot : Nat)
    (sn : Snapshot g) :
    Simulates R e₀ (descend bs belowIno offset nlevels parent parentOff slot sn)
      (descend bs' belowIno offset nlevels parent parentOff slot sn) := by
  induction nlevels generalizing parent parentOff slot sn with
  | zero => exact .bind (h.getOrAlloc _ _ _ _) fun _ => .pure _
  | succ nlevels ih =>
    refine .bind (h.getOrAlloc _ _ _ _) fun r => ?_
    obtain ⟨b, fresh, sn'⟩ := r
    dsimp only
    split
    · exact ih _ _ _ _
    · exact .bind (h.mustRead _ _) fun _ => ih _ _ _ _

theorem treedisk_write (ino offset : Nat) (block : Block g) :
    Simulates R e₀ (Treedisk.write bs belowIno ino offset block)
      (Treedisk.write bs' belowIno ino offset block) := by
  refine .bind (h.getSnapshot ino) fun r => ?_
  cases r with
  | none => exact .pure _
  | some sn =>
    refine .bind (h.growLevels _ _) fun sn' => ?_
    have hdata := fun (nlevels : Nat) => Simulates.bind
      (h.descend offset nlevels sn'.inodeblock sn'.inodeBlockno (2 * sn'.inode) sn')
      fun b => .bind (h.mustWrite b block "treedisk_write: data block") fun _ => .pure (0 : Int)
    exact .ite (.bind (h.mustWrite _ _ _) fun _ => hdata _) (hdata _)

end Follows

/-- The blocks of one inode in memory. A call that leaves them ends the program. -/
def flat (g : Geometry) (belowIno size : Nat) (hsize : size < 2 ^ 32) :
    FixedStore (Block g) (Image g) where
  getninodes := pure 1
  getsize := fun ino => if ino = belowIno then pure (toInt size) else throw .undefined
  setsize := fun _ _ => throw .undefined
  read := fun ino offset =>
    if ino = belowIno ∧ offset < size then do pure (some ((← get) offset)) else throw .undefined
  write := fun ino offset block =>
    if ino = belowIno ∧ offset < size then do
      modify fun D => Function.update D offset block
      pure 0
    else throw .undefined
  sync := fun _ => pure 0
  sizes := fun ino => if ino = belowIno then size else 0
  Good := fun _ => True
  view := fun D ino offset => if ino = belowIno then D offset else Block.zero
  sizes_lt := fun ino => by
    split
    · exact hsize
    · decide
  getsize_ok := by
    intro D _ ino hi
    have hino : ino = belowIno := by
      by_contra hne
      simp [hne] at hi
    rw [if_pos hino, if_pos hino]
    exact ⟨D, rfl, trivial, rfl⟩
  read_ok := by
    intro D _ ino offset hi
    have hino : ino = belowIno := by
      by_contra hne
      simp [hne] at hi
    rw [if_pos hino] at hi
    rw [if_pos ⟨hino, hi⟩, if_pos hino]
    exact ⟨D, rfl, trivial, rfl⟩
  write_ok := by
    intro D _ ino offset hi block
    have hino : ino = belowIno := by
      by_contra hne
      simp [hne] at hi
    rw [if_pos hino] at hi
    rw [if_pos ⟨hino, hi⟩]
    refine ⟨_, rfl, trivial, ?_⟩
    subst hino
    funext i o
    by_cases hi0 : i = ino <;> simp [setBlock, hi0, Function.update_apply]
  sync_ok := fun {D} _ _ => ⟨0, D, rfl, trivial, rfl⟩

theorem at_flat (belowIno size : Nat) (hsize : size < 2 ^ 32) (D : Image g) :
    At (flat g belowIno size hsize) belowIno D D :=
  ⟨trivial, by funext offset; exact if_pos rfl⟩

theorem sizes_flat (belowIno size : Nat) (hsize : size < 2 ^ 32) :
    (flat g belowIno size hsize).sizes belowIno = size := if_pos rfl

/-- Within its size an inode of a fixed store behaves as its blocks in memory. -/
theorem follows_flat (fs : FixedStore (Block g) σ) (belowIno : Nat) :
    Follows (At fs belowIno) .undefined
      (flat g belowIno (fs.sizes belowIno) (fs.sizes_lt belowIno)).toBlockStore fs.toBlockStore
      belowIno where
  read := by
    intro b D s h
    dsimp only [flat]
    split
    · rename_i hb
      obtain ⟨s', he, hg, hv⟩ := fs.read_ok h.good hb.2
      refine ⟨s', ?_, hg, (congrFun hv belowIno).trans h.view⟩
      rw [he, h.view]
    · exact .inl rfl
  write := by
    intro b block D s h
    dsimp only [flat]
    split
    · rename_i hb
      obtain ⟨s', he, hg, hv⟩ := fs.write_ok h.good hb.2 block
      refine ⟨s', he, hg, ?_⟩
      rw [hv, setBlock_inode, h.view]
    · exact .inl rfl

end Egos.Disk.Treedisk
