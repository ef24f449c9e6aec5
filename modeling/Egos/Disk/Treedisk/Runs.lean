import Egos.Disk.Treedisk.Create
import Egos.Disk.Ramdisk

/-!
# Runs of a treedisk

From a created file system, any sequence of writes, truncations and reads on valid
inodes ends in a disk that shares out its blocks and whose files are those of the
reference model, unless an allocation finds the disk full.
-/
namespace Egos.Disk.Treedisk

open Egos.Lib

set_option autoImplicit false

variable {g : Geometry} {σ : Type}

inductive Op (g : Geometry) where
  | write (ino offset : Nat) (block : Block g)
  | truncate (ino : Nat)
  | read (ino offset : Nat)

namespace Op

/-- The call on the store; results are looked at in the states between calls. -/
def perform (bs : BlockStore (Block g) σ) : Op g → EStateM Stop σ PUnit
  | .write ino offset block => do
    let _ ← bs.write ino offset block
  | .truncate ino => do
    let _ ← bs.setsize ino 0
  | .read ino offset => do
    let _ ← bs.read ino offset

/-- The same call on the reference model. -/
def apply (files : Files (Block g)) : Op g → Files (Block g)
  | .write ino offset block => Function.update files ino ((files ino).write offset block)
  | .truncate ino => Function.update files ino (.empty Block.zero)
  | .read _ _ => files

/-- A valid inode, and writes below the offset `2 ^ 24`. -/
def Proper (ninodes : Nat) : Op g → Prop
  | .write ino offset _ => ino < ninodes ∧ offset < 2 ^ 24
  | .truncate ino => ino < ninodes
  | .read ino offset => ino < ninodes ∧ offset < 2 ^ 32

end Op

/-- The files after the given calls on a new file system. -/
def filesAfter (ops : List (Op g)) : Files (Block g) :=
  ops.foldl Op.apply fun _ => .empty Block.zero

/-- Every block behind the inode blocks is in exactly one place, and there once: in the
tree of one inode, on the chain of free-list blocks, or in a slot of one of these. -/
def Partitioned (n : Nat) (D : Image g) : Prop :=
  ∃ chain, FreeChain D D.freeList chain ∧ ∀ b, 1 + D.nInodeblocks ≤ b → b < n →
    ∑ ino ∈ Finset.range D.ninodes, (D.tree ino).count b + chain.count b +
      (chain.map fun f => (slots (D f)).count b).sum = 1

theorem count_freeBlocks (D : Image g) (chain : List Nat) (b : Nat) :
    (freeBlocks D chain).count b =
      chain.count b + (chain.map fun f => (slots (D f)).count b).sum := by
  induction chain with
  | nil => rfl
  | cons f chain ih =>
    rw [freeBlocks, Multiset.count_cons, Multiset.count_add, ih, List.map_cons, List.sum_cons,
      List.count_cons]
    by_cases hf : b = f
    · simp [hf]; omega
    · have hne : ¬ f = b := fun he => hf he.symm
      simp [hf, hne]; omega

theorem Valid.partitioned {n : Nat} {D : Image g} (hv : Valid n D) : Partitioned n D := by
  obtain ⟨F, ⟨chain, hchain, rfl⟩, htotal⟩ := hv.partition
  refine ⟨chain, hchain, fun b h1 hn => ?_⟩
  have hmem : b ∈ Finset.Ico (1 + D.nInodeblocks) n := Finset.mem_Ico.mpr ⟨h1, hn⟩
  have hcount := congrArg (Multiset.count b) htotal
  rw [Multiset.count_add, Multiset.count_sum', count_freeBlocks,
    Multiset.count_eq_one_of_mem (Finset.Ico _ _).nodup hmem] at hcount
  rw [← hcount, Nat.add_assoc]

/-- The state between two calls. -/
structure Mirrors (fs : FixedStore (Block g) σ) (belowIno nInodeblocks : Nat)
    (files : Files (Block g)) (s : σ) : Prop where
  valid : Valid (fs.sizes belowIno) (fs.view s belowIno)
  good : fs.Good s
  inodeblocks : Image.nInodeblocks (fs.view s belowIno) = nInodeblocks
  represents : Represents (fs.view s belowIno) files
  small : ∀ ino, (files ino).size ≤ 2 ^ 24

section

variable {fs : FixedStore (Block g) σ} {belowIno nib : Nat} {files : Files (Block g)} {s : σ}

theorem Mirrors.of_at {D : Image g} (h : At fs belowIno D s) (hv : Valid (fs.sizes belowIno) D)
    (hn : D.nInodeblocks = nib) (hr : Represents D files)
    (hsmall : ∀ ino, (files ino).size ≤ 2 ^ 24) : Mirrors fs belowIno nib files s := by
  obtain ⟨hg, rfl⟩ := h
  exact ⟨hv, hg, hn, hr, hsmall⟩

theorem Mirrors.at_view (h : Mirrors fs belowIno nib files s) :
    At fs belowIno (fs.view s belowIno) s := ⟨h.good, rfl⟩

theorem Mirrors.ninodes (h : Mirrors fs belowIno nib files s) :
    Image.ninodes (fs.view s belowIno) = nib * g.inodesPerBlock := by
  unfold Image.ninodes
  rw [h.inodeblocks]

theorem Op.apply_small {op : Op g} (hp : op.Proper (nib * g.inodesPerBlock))
    (h : ∀ ino, (files ino).size ≤ 2 ^ 24) (ino : Nat) : (op.apply files ino).size ≤ 2 ^ 24 := by
  cases op with
  | write i offset block =>
    by_cases hi : ino = i
    · rw [hi, Op.apply, Function.update_self]
      exact max_le (h i) hp.2
    · rw [Op.apply, Function.update_of_ne hi]
      exact h ino
  | truncate i =>
    by_cases hi : ino = i
    · rw [hi, Op.apply, Function.update_self]
      exact Nat.zero_le _
    · rw [Op.apply, Function.update_of_ne hi]
      exact h ino
  | read i offset => exact h ino

theorem perform_mirrors (h : Mirrors fs belowIno nib files s) {op : Op g}
    (hp : op.Proper (nib * g.inodesPerBlock)) :
    Outcome (op.perform (treedisk fs.toBlockStore belowIno))
      (fun _ s' => Mirrors fs belowIno nib (op.apply files) s') (fun e _ => e = full) s := by
  have hsmall := Op.apply_small hp h.small
  rw [← h.ninodes] at hp
  cases op with
  | write ino offset block =>
    obtain ⟨hino, hoff⟩ := hp
    refine Outcome.seq (outcome_write h.at_view h.valid h.represents hino
      (show offset + 1 < 2 ^ 32 by omega) block) ?_
    rintro _ s' ⟨-, D', h', hv, hn, hr⟩
    exact .of_at h' hv (hn.trans h.inodeblocks) hr hsmall
  | truncate ino =>
    refine Outcome.seq ((outcome_truncate h.at_view h.valid h.represents hp).mono
      (fun _ _ hq => hq) ?_) ?_
    · rintro e s' ⟨-, hbig⟩
      have hlt := hbig.big
      have hle := h.small ino
      omega
    · rintro _ s' ⟨-, -, D', h', hv, hn, -, hr⟩
      exact .of_at h' hv (hn.trans h.inodeblocks) hr hsmall
  | read ino offset =>
    refine Outcome.seq (outcome_read h.at_view h.valid.sound h.represents hp.1 offset) ?_
    rintro _ s' ⟨-, h'⟩
    exact .of_at h' h.valid h.inodeblocks h.represents hsmall

theorem run_mirrors (h : Mirrors fs belowIno nib files s) {ops : List (Op g)}
    (hp : ∀ op ∈ ops, op.Proper (nib * g.inodesPerBlock)) :
    Outcome (ops.forM (Op.perform (treedisk fs.toBlockStore belowIno)))
      (fun _ s' => Mirrors fs belowIno nib (ops.foldl Op.apply files) s')
      (fun e _ => e = full) s := by
  refine Outcome.forM (fun done s' => Mirrors fs belowIno nib (done.foldl Op.apply files) s') h ?_
  intro done op rest hops s' hs
  have hstep := perform_mirrors hs (hp op (by rw [hops]; simp))
  rw [List.foldl_append]
  exact hstep

theorem create_mirrors (fs : FixedStore (Block g) σ) (belowIno : Nat) {s₀ : σ}
    (hg : fs.Good s₀) (hpos : 0 < fs.sizes belowIno)
    (hz : fs.view s₀ belowIno 0 = Block.zero) {ninodes : Nat} (hni : ninodes < 2 ^ 32)
    (hcreate : create fs.toBlockStore belowIno ninodes s₀ = .ok 0 s) :
    Mirrors fs belowIno (inodeBlocks g ninodes) (filesAfter []) s := by
  have hblank : Image.nInodeblocks (fs.view s₀ belowIno) = 0 := by
    unfold Image.nInodeblocks
    rw [hz, Block.ref_zero]
  have hout := (outcome_create (E := fun _ _ => False) ⟨hg, rfl⟩ hpos hblank hni).ok hcreate
  rcases hout with ⟨hr, -⟩ | ⟨-, D', h', hv, hn, hr⟩
  · exact absurd hr (by decide)
  · exact .of_at h' hv hn hr (fun _ => Nat.zero_le _)

theorem create_returns (fs : FixedStore (Block g) σ) (belowIno : Nat) (s₀ : σ)
    (hg : fs.Good s₀) (hpos : 0 < fs.sizes belowIno)
    (hz : fs.view s₀ belowIno 0 = Block.zero) {ninodes : Nat} (hni : ninodes < 2 ^ 32)
    (hroom : inodeBlocks g ninodes + 2 ≤ fs.sizes belowIno) :
    ∃ s, create fs.toBlockStore belowIno ninodes s₀ = .ok 0 s := by
  have hblank : Image.nInodeblocks (fs.view s₀ belowIno) = 0 := by
    unfold Image.nInodeblocks
    rw [hz, Block.ref_zero]
  obtain ⟨r, s, he, hr⟩ := (outcome_create ⟨hg, rfl⟩ hpos hblank hni).exists_ok
  rcases hr with ⟨-, hfew, -⟩ | ⟨rfl, -⟩
  · omega
  · exact ⟨s, he⟩

end

/-- **Space partition.** After any calls on a created file system every block is in one
place, and a truncation gives every block of the tree back to the free list. -/
theorem space_partition (fs : FixedStore (Block g) σ) {belowIno : Nat} {s₀ s₁ : σ}
    (hg : fs.Good s₀) (hpos : 0 < fs.sizes belowIno) (hz : fs.view s₀ belowIno 0 = Block.zero)
    {ninodes : Nat} (hni : ninodes < 2 ^ 32)
    (hcreate : create fs.toBlockStore belowIno ninodes s₀ = .ok 0 s₁) (ops : List (Op g))
    (hops : ∀ op ∈ ops, op.Proper (inodeBlocks g ninodes * g.inodesPerBlock)) :
    (∃ s, ops.forM (Op.perform (treedisk fs.toBlockStore belowIno)) s₁ = .ok ⟨⟩ s ∧
      Partitioned (fs.sizes belowIno) (fs.view s belowIno) ∧
      ∀ ino, ino < inodeBlocks g ninodes * g.inodesPerBlock →
        ∃ r s', setsize fs.toBlockStore belowIno ino 0 s = .ok r s' ∧
          Reclaimed (fs.view s belowIno) (fs.view s' belowIno) ino) ∨
    ∃ s, ops.forM (Op.perform (treedisk fs.toBlockStore belowIno)) s₁ = .error full s := by
  have hrun := run_mirrors (create_mirrors fs belowIno hg hpos hz hni hcreate) hops
  cases hm : ops.forM (Op.perform (treedisk fs.toBlockStore belowIno)) s₁ with
  | error e s =>
    obtain rfl : e = full := hrun.error hm
    exact .inr ⟨s, rfl⟩
  | ok r s =>
    have h := hrun.ok hm
    refine .inl ⟨s, rfl, h.valid.partitioned, fun ino hino => ?_⟩
    rw [← h.ninodes] at hino
    have hends : ∀ e (s' : σ), e = Stop.diverge ∧ Endless g (filesAfter ops ino).size → False := by
      rintro e s' ⟨-, hbig⟩
      have hlt := hbig.big
      have hle : (filesAfter ops ino).size ≤ 2 ^ 24 := h.small ino
      omega
    obtain ⟨r, s', he, -, -, D', h', -, -, hrec, -⟩ :=
      ((outcome_truncate h.at_view h.valid h.represents hino).mono (fun _ _ hq => hq)
        hends).exists_ok
    refine ⟨r, s', he, ?_⟩
    rw [h'.view]
    exact hrec

/-- A ramdisk of 20 blocks of the small geometry. -/
def tinyDisk : FixedStore (Block .tiny) (Ramdisk.State (Block .tiny)) :=
  Ramdisk.fixed (Block .tiny) 20 (by decide)

def tinyBlank : Ramdisk.State (Block .tiny) := ⟨fun _ => Block.zero, 20⟩

/-- Two files, one of them with a hole, the other truncated. -/
def tinyOps : List (Op .tiny) :=
  [.write 0 0 (Block.zero.setRef 0 7), .write 1 9 Block.zero, .truncate 0, .read 1 4]

theorem tinyOps_proper : ∀ op ∈ tinyOps, op.Proper 8 := by
  simp [tinyOps, Op.Proper]

theorem tinyBlank_good : tinyDisk.Good tinyBlank := rfl

theorem space_partition_tiny :
    ∃ s₁, create tinyDisk.toBlockStore 0 6 tinyBlank = .ok 0 s₁ ∧
      ((∃ s, tinyOps.forM (Op.perform (treedisk tinyDisk.toBlockStore 0)) s₁ = .ok ⟨⟩ s ∧
        Partitioned 20 (tinyDisk.view s 0) ∧
        ∀ ino, ino < 8 → ∃ r s', setsize tinyDisk.toBlockStore 0 ino 0 s = .ok r s' ∧
          Reclaimed (tinyDisk.view s 0) (tinyDisk.view s' 0) ino) ∨
      ∃ s, tinyOps.forM (Op.perform (treedisk tinyDisk.toBlockStore 0)) s₁ = .error full s) := by
  obtain ⟨s₁, hs⟩ := create_returns tinyDisk 0 tinyBlank tinyBlank_good (by decide) rfl
    (show 6 < 2 ^ 32 by decide) (by decide)
  exact ⟨s₁, hs, space_partition tinyDisk tinyBlank_good (by decide) rfl (by decide) hs tinyOps
    tinyOps_proper⟩

/-- **Refinement of sparse files.** After any calls on a created file system the size
of every inode and every block read from it are those of the reference model. -/
theorem files_refined (fs : FixedStore (Block g) σ) {belowIno : Nat} {s₀ s₁ : σ}
    (hg : fs.Good s₀) (hpos : 0 < fs.sizes belowIno) (hz : fs.view s₀ belowIno 0 = Block.zero)
    {ninodes : Nat} (hni : ninodes < 2 ^ 32)
    (hcreate : create fs.toBlockStore belowIno ninodes s₀ = .ok 0 s₁) (ops : List (Op g))
    (hops : ∀ op ∈ ops, op.Proper (inodeBlocks g ninodes * g.inodesPerBlock)) :
    (∃ s, ops.forM (Op.perform (treedisk fs.toBlockStore belowIno)) s₁ = .ok ⟨⟩ s ∧
      ∀ ino, ino < inodeBlocks g ninodes * g.inodesPerBlock →
        (∃ s', getsize fs.toBlockStore belowIno ino s = .ok ((filesAfter ops ino).size : Int) s') ∧
        ∀ offset, ∃ s', read fs.toBlockStore belowIno ino offset s =
          .ok ((filesAfter ops ino).read offset) s') ∨
    ∃ s, ops.forM (Op.perform (treedisk fs.toBlockStore belowIno)) s₁ = .error full s := by
  have hrun := run_mirrors (create_mirrors fs belowIno hg hpos hz hni hcreate) hops
  cases hm : ops.forM (Op.perform (treedisk fs.toBlockStore belowIno)) s₁ with
  | error e s =>
    obtain rfl : e = full := hrun.error hm
    exact .inr ⟨s, rfl⟩
  | ok r s =>
    have h := hrun.ok hm
    refine .inl ⟨s, rfl, fun ino hino => ?_⟩
    rw [← h.ninodes] at hino
    constructor
    · obtain ⟨r, s', he, rfl, -⟩ :=
        (outcome_getsize h.at_view h.valid.sound h.represents hino).exists_ok
      have hle := h.small ino
      rw [toInt_eq (by omega)] at he
      exact ⟨s', he⟩
    · intro offset
      obtain ⟨r, s', he, rfl, -⟩ :=
        (outcome_read h.at_view h.valid.sound h.represents hino offset).exists_ok
      exact ⟨s', he⟩

theorem files_refined_tiny :
    ∃ s₁, create tinyDisk.toBlockStore 0 6 tinyBlank = .ok 0 s₁ ∧
      ((∃ s, tinyOps.forM (Op.perform (treedisk tinyDisk.toBlockStore 0)) s₁ = .ok ⟨⟩ s ∧
        ∀ ino, ino < 8 →
          (∃ s', getsize tinyDisk.toBlockStore 0 ino s =
            .ok ((filesAfter tinyOps ino).size : Int) s') ∧
          ∀ offset, ∃ s', read tinyDisk.toBlockStore 0 ino offset s =
            .ok ((filesAfter tinyOps ino).read offset) s') ∨
      ∃ s, tinyOps.forM (Op.perform (treedisk tinyDisk.toBlockStore 0)) s₁ = .error full s) := by
  obtain ⟨s₁, hs⟩ := create_returns tinyDisk 0 tinyBlank tinyBlank_good (by decide) rfl
    (show 6 < 2 ^ 32 by decide) (by decide)
  exact ⟨s₁, hs, files_refined tinyDisk tinyBlank_good (by decide) rfl (by decide) hs tinyOps
    tinyOps_proper⟩

end Egos.Disk.Treedisk
