import Egos.Disk.Treedisk.OutOfSpace
import Egos.Disk.Unixdisk.Create

/-!
# Invalid inodes

`treedisk_get_snapshot` and `unixdisk_get_snapshot` fail when a read fails or the inode
number is too large. `getsize`, `read` and `write` of both file systems then return -1 and
have only read from the store below. `setsize` does not look at the result and goes on with
an inode pointer that was never set.
-/
namespace Egos.Disk.Rejection

open Egos.Lib
open Egos.Disk.Treedisk (Block)

set_option autoImplicit false

variable {β σ γ : Type}

/-- The call is about this inode. -/
def Names (ino : Nat) : Request β → Prop
  | .getsize i => i = ino
  | .setsize i _ => i = ino
  | .read i _ => i = ino
  | .write i _ _ => i = ino
  | .getninodes => False
  | .sync _ => False

def IsSetsize : Request β → Prop
  | .setsize _ _ => True
  | _ => False

/-- The call returns -1 and the store below is as it was. -/
def Rejects (bs : BlockStore β σ) (view : σ → γ) (call : Request β) (s : σ) : Prop :=
  Outcome (call.perform bs)
    (fun answer s' => (answer = .code (-1) ∨ answer = .block none) ∧ view s' = view s)
    (fun _ _ => False) s

/-- A read of the store below that comes back has not changed the store. -/
def QuietReads (bs : BlockStore β σ) (view : σ → γ) : Prop :=
  ∀ ino offset s r s', bs.read ino offset s = .ok r s' → view s' = view s

/-- There is no such inode, or a read on the way to it fails: of the superblock, or of the
inode block. -/
def Unreachable {g : Treedisk.Geometry} (bs : BlockStore (Block g) σ) (belowIno perBlock ino : Nat)
    (s : σ) : Prop :=
  (∃ s', bs.read belowIno 0 s = .ok none s') ∨
    ∃ superblock s', bs.read belowIno 0 s = .ok (some superblock) s' ∧
      (superblock.ref 0 * perBlock ≤ ino ∨
        ino < superblock.ref 0 * perBlock ∧
          ∃ s'', bs.read belowIno (1 + ino / perBlock) s' = .ok none s'')

theorem Rejects.of_eq {bs : BlockStore β σ} {view : σ → γ} {call : Request β} {s s' : σ}
    {answer : Answer β} (hcall : call.perform bs s = .ok answer s')
    (hanswer : answer = .code (-1) ∨ answer = .block none) (hview : view s' = view s) :
    Rejects bs view call s :=
  .of_ok hcall ⟨hanswer, hview⟩

theorem not_rejects_of_error {bs : BlockStore β σ} {view : σ → γ} {call : Request β} {s s' : σ}
    {stop : Stop} (hcall : call.perform bs s = .error stop s') : ¬ Rejects bs view call s :=
  fun h => h.error hcall

section Treedisk

variable {g : Treedisk.Geometry} {bs : BlockStore (Block g) σ} {belowIno ino : Nat} {view : σ → γ}
  {s : σ}

theorem treedisk_getSnapshot (hquiet : QuietReads bs view)
    (h : Unreachable bs belowIno g.inodesPerBlock ino s) :
    ∃ s', Treedisk.getSnapshot bs belowIno ino s = .ok none s' ∧ view s' = view s := by
  unfold Treedisk.getSnapshot
  rcases h with ⟨s', hsuper⟩ | ⟨superblock, s', hsuper, hino⟩
  · rw [bind_ok hsuper]
    exact ⟨s', rfl, hquiet _ _ _ _ _ hsuper⟩
  · rw [bind_ok hsuper]
    dsimp only
    rcases hino with hino | ⟨hino, s'', hinode⟩
    · rw [if_pos hino]
      exact ⟨s', rfl, hquiet _ _ _ _ _ hsuper⟩
    · rw [if_neg (Nat.not_le.mpr hino), bind_ok hinode]
      exact ⟨s'', rfl, (hquiet _ _ _ _ _ hinode).trans (hquiet _ _ _ _ _ hsuper)⟩

theorem treedisk_rejects_iff (hquiet : QuietReads bs view)
    (h : Unreachable bs belowIno g.inodesPerBlock ino s) {call : Request (Block g)}
    (hcall : Names ino call) :
    Rejects (Treedisk.treedisk bs belowIno) view call s ↔ ¬ IsSetsize call := by
  obtain ⟨s', hnone, hview⟩ := treedisk_getSnapshot hquiet h
  cases call with
  | getninodes => cases hcall
  | sync _ => cases hcall
  | getsize i =>
    cases hcall
    have hget : Treedisk.getsize bs belowIno ino s = .ok (-1) s' := bind_ok hnone _
    exact iff_of_true (.of_eq (bind_ok hget _) (.inl rfl) hview) id
  | read i offset =>
    cases hcall
    have hread : Treedisk.read bs belowIno ino offset s = .ok none s' := bind_ok hnone _
    exact iff_of_true (.of_eq (bind_ok hread _) (.inr rfl) hview) id
  | write i offset block =>
    cases hcall
    have hwrite : Treedisk.write bs belowIno ino offset block s = .ok (-1) s' := bind_ok hnone _
    exact iff_of_true (.of_eq (bind_ok hwrite _) (.inl rfl) hview) id
  | setsize i nblocks =>
    cases hcall
    have hset : Treedisk.setsize bs belowIno ino nblocks s = .error .undefined s' := bind_ok hnone _
    exact iff_of_false (not_rejects_of_error (bind_error hset _)) (not_not_intro trivial)

end Treedisk

section Unixdisk

variable {g : Unixdisk.Geometry} {bs : BlockStore (Block g.toGeometry) σ} {ino : Nat} {view : σ → γ}
  {s : σ}

theorem unixdisk_getSnapshot (hquiet : QuietReads bs view)
    (h : Unreachable bs 0 g.inodesPerBlock ino s) :
    ∃ s', Unixdisk.getSnapshot bs ino s = .ok none s' ∧ view s' = view s := by
  unfold Unixdisk.getSnapshot
  rcases h with ⟨s', hsuper⟩ | ⟨superblock, s', hsuper, hino⟩
  · rw [bind_ok hsuper]
    exact ⟨s', rfl, hquiet _ _ _ _ _ hsuper⟩
  · rw [bind_ok hsuper]
    dsimp only
    rcases hino with hino | ⟨hino, s'', hinode⟩
    · rw [if_pos hino]
      exact ⟨s', rfl, hquiet _ _ _ _ _ hsuper⟩
    · rw [if_neg (Nat.not_le.mpr hino), bind_ok hinode]
      exact ⟨s'', rfl, (hquiet _ _ _ _ _ hinode).trans (hquiet _ _ _ _ _ hsuper)⟩

theorem unixdisk_rejects_iff (hquiet : QuietReads bs view)
    (h : Unreachable bs 0 g.inodesPerBlock ino s) {call : Request (Block g.toGeometry)}
    (hcall : Names ino call) :
    Rejects (Unixdisk.unixdisk bs) view call s ↔ ¬ IsSetsize call := by
  obtain ⟨s', hnone, hview⟩ := unixdisk_getSnapshot hquiet h
  cases call with
  | getninodes => cases hcall
  | sync _ => cases hcall
  | getsize i =>
    cases hcall
    have hget : Unixdisk.getsize bs ino s = .ok (-1) s' := bind_ok hnone _
    exact iff_of_true (.of_eq (bind_ok hget _) (.inl rfl) hview) id
  | read i offset =>
    cases hcall
    have hread : Unixdisk.read bs ino offset s = .ok none s' := bind_ok hnone _
    exact iff_of_true (.of_eq (bind_ok hread _) (.inr rfl) hview) id
  | write i offset block =>
    cases hcall
    have hwrite : Unixdisk.write bs ino offset block s = .ok (-1) s' := bind_ok hnone _
    exact iff_of_true (.of_eq (bind_ok hwrite _) (.inl rfl) hview) id
  | setsize i nblocks =>
    cases hcall
    have hset : Unixdisk.setsize bs ino nblocks s = .error .undefined s' := bind_ok hnone _
    exact iff_of_false (not_rejects_of_error (bind_error hset _)) (not_not_intro trivial)

end Unixdisk

/-- Both file systems, over any store below whose reads do not change it and in any state of
it: a call on an inode that cannot be reached is rejected without effect if and only if it is
not `setsize`. -/
theorem unreachable_inode_rejected (view : σ → γ) :
    (∀ (g : Treedisk.Geometry) (bs : BlockStore (Block g) σ) (belowIno ino : Nat) (s : σ),
      QuietReads bs view → Unreachable bs belowIno g.inodesPerBlock ino s →
      ∀ call, Names ino call →
        (Rejects (Treedisk.treedisk bs belowIno) view call s ↔ ¬ IsSetsize call)) ∧
    (∀ (g : Unixdisk.Geometry) (bs : BlockStore (Block g.toGeometry) σ) (ino : Nat) (s : σ),
      QuietReads bs view → Unreachable bs 0 g.inodesPerBlock ino s →
      ∀ call, Names ino call →
        (Rejects (Unixdisk.unixdisk bs) view call s ↔ ¬ IsSetsize call)) := by
  constructor
  · intro g bs belowIno ino s hquiet h call hcall
    exact treedisk_rejects_iff hquiet h hcall
  · intro g bs ino s hquiet h call hcall
    exact unixdisk_rejects_iff hquiet h hcall

/-- A treedisk with four inodes and a unixdisk with sixteen, both just created. -/
def newTree : Ramdisk.State (Block .tiny) :=
  final (Treedisk.create Treedisk.smallDisk.toBlockStore 0 4 Treedisk.smallBlank)

def newUnix : Ramdisk.State (Block Unixdisk.Geometry.small.toGeometry) :=
  final (Unixdisk.create Unixdisk.smallDisk.toBlockStore 0 Treedisk.Block.zero 16
    Unixdisk.smallBlank)

theorem quiet_ramdisk : QuietReads (Ramdisk.ramdisk : BlockStore β (Ramdisk.State β)) id := by
  intro ino offset s r s' hread
  have hsame : Outcome (Ramdisk.read ino offset) (fun _ t => t = s) (fun _ _ => True) s := by
    unfold Ramdisk.read
    split
    · rfl
    · rw [Outcome.bind_iff, Outcome.get_iff]
      split
      · rfl
      · rfl
  exact hsame.ok hread

theorem unreachable_inode_rejected_small :
    (Rejects (Treedisk.treedisk Treedisk.smallDisk.toBlockStore 0) id (.getsize 4) newTree ↔
      ¬ IsSetsize (.getsize 4 : Request (Block .tiny))) ∧
    (Rejects (Unixdisk.unixdisk Unixdisk.smallDisk.toBlockStore) id (.setsize 16 0) newUnix ↔
      ¬ IsSetsize (.setsize 16 0 : Request (Block Unixdisk.Geometry.small.toGeometry))) := by
  constructor
  · apply (unreachable_inode_rejected id).1 .tiny _ 0 4 newTree quiet_ramdisk
    · have hsuper : returned (Treedisk.smallDisk.read 0 0 newTree) =
          some (some (newTree.blocks 0)) := by decide +kernel
      exact .inr ⟨_, _, eq_ok_of_returned hsuper, .inl (by decide +kernel)⟩
    · rfl
  · apply (unreachable_inode_rejected id).2 .small _ 16 newUnix quiet_ramdisk
    · have hsuper : returned (Unixdisk.smallDisk.read 0 0 newUnix) =
          some (some (newUnix.blocks 0)) := by decide +kernel
      exact .inr ⟨_, _, eq_ok_of_returned hsuper, .inl (by decide +kernel)⟩
    · rfl

/-- Both file systems exist and have no such inode, but `setsize` uses it all the same. -/
theorem setsize_unreachable_inode :
    returned (Treedisk.getninodes Treedisk.smallDisk.toBlockStore 0 newTree) = some 4 ∧
    stopped ((Request.setsize 4 0).perform (Treedisk.treedisk Treedisk.smallDisk.toBlockStore 0)
      newTree) = some .undefined ∧
    returned (Unixdisk.getninodes Unixdisk.smallDisk.toBlockStore newUnix) = some 16 ∧
    stopped ((Request.setsize 16 0).perform (Unixdisk.unixdisk Unixdisk.smallDisk.toBlockStore)
      newUnix) = some .undefined := by
  decide +kernel

end Egos.Disk.Rejection
