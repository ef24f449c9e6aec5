import Egos.Disk.Treedisk.Runs

/-!
# Running out of space

A write that finds no free block panics in the middle. What it leaves is a sound disk:
no block is referenced twice and every file reads as before, the file written to perhaps
with its new size. A disk like this goes on working with one exception. A file of one
block may be left without a root, and `treedisk_free_file` takes its root 0 for a block:
truncating such a file wipes the superblock, which is only written back if the free list
is empty.
-/
namespace Egos.Disk.Treedisk

open Egos.Lib

set_option autoImplicit false

variable {g : Geometry} {σ : Type}

/-- The trees and the free list together refer to no block twice. -/
def ReferencedOnce (D : Image g) : Prop :=
  ∃ chain, FreeChain D D.freeList chain ∧ ∀ b,
    ∑ ino ∈ Finset.range D.ninodes, (D.tree ino).count b + chain.count b +
      (chain.map fun f => (slots (D f)).count b).sum ≤ 1

/-- The trees and the free list refer to blocks behind the inode blocks only. -/
def BehindInodes (n : Nat) (D : Image g) : Prop :=
  ∃ F, Free D D.freeList F ∧ ∀ b ∈ ∑ ino ∈ Finset.range D.ninodes, D.tree ino + F,
    D.nInodeblocks < b ∧ b < n

theorem Sound.referencedOnce {n : Nat} {D : Image g} (hv : Sound n D) : ReferencedOnce D := by
  obtain ⟨F, ⟨chain, hchain, rfl⟩, hle⟩ := hv.parts
  refine ⟨chain, hchain, fun b => ?_⟩
  have hnd := Multiset.nodup_of_le hle (Finset.Ico _ _).nodup
  have hcount := Multiset.nodup_iff_count_le_one.mp hnd b
  rw [Multiset.count_add, Multiset.count_sum', count_freeBlocks, ← Nat.add_assoc] at hcount
  exact hcount

theorem Sound.behindInodes {n : Nat} {D : Image g} (hv : Sound n D) : BehindInodes n D := by
  obtain ⟨F, hfree, hle⟩ := hv.parts
  refine ⟨F, hfree, fun b hb => ?_⟩
  have hm := Multiset.mem_of_le hle hb
  rw [Finset.mem_val, Finset.mem_Ico] at hm
  omega

/-- The inode has this size and these blocks for whoever asks in this state. -/
def Answers (bs : BlockStore (Block g) σ) (belowIno ino : Nat) (file : SparseFile (Block g))
    (s : σ) : Prop :=
  (∃ s', getsize bs belowIno ino s = .ok (file.size : Int) s') ∧
    ∀ offset, ∃ s', read bs belowIno ino offset s = .ok (file.read offset) s'

/-- A state between two calls on a disk that may have run out of space before. -/
structure Holds (fs : FixedStore (Block g) σ) (belowIno nInodeblocks : Nat)
    (files : Files (Block g)) (s : σ) : Prop where
  sound : Sound (fs.sizes belowIno) (fs.view s belowIno)
  good : fs.Good s
  inodeblocks : Image.nInodeblocks (fs.view s belowIno) = nInodeblocks
  represents : Represents (fs.view s belowIno) files
  small : ∀ ino, (files ino).size ≤ 2 ^ 24

section

variable {fs : FixedStore (Block g) σ} {belowIno nib : Nat} {files : Files (Block g)} {s : σ}

theorem Mirrors.holds (h : Mirrors fs belowIno nib files s) : Holds fs belowIno nib files s :=
  ⟨h.valid.sound, h.good, h.inodeblocks, h.represents, h.small⟩

theorem Holds.of_at {D : Image g} (h : At fs belowIno D s) (hv : Sound (fs.sizes belowIno) D)
    (hn : D.nInodeblocks = nib) (hr : Represents D files)
    (hsmall : ∀ ino, (files ino).size ≤ 2 ^ 24) : Holds fs belowIno nib files s := by
  obtain ⟨hg, rfl⟩ := h
  exact ⟨hv, hg, hn, hr, hsmall⟩

theorem Holds.at_view (h : Holds fs belowIno nib files s) :
    At fs belowIno (fs.view s belowIno) s := ⟨h.good, rfl⟩

theorem Holds.ninodes (h : Holds fs belowIno nib files s) :
    Image.ninodes (fs.view s belowIno) = nib * g.inodesPerBlock := by
  unfold Image.ninodes
  rw [h.inodeblocks]

theorem Holds.answers (h : Holds fs belowIno nib files s) {ino : Nat}
    (hino : ino < nib * g.inodesPerBlock) :
    Answers fs.toBlockStore belowIno ino (files ino) s := by
  rw [← h.ninodes] at hino
  constructor
  · obtain ⟨r, s', he, rfl, -⟩ :=
      (outcome_getsize h.at_view h.sound h.represents hino).exists_ok
    have hle := h.small ino
    rw [toInt_eq (by omega)] at he
    exact ⟨s', he⟩
  · intro offset
    obtain ⟨r, s', he, rfl, -⟩ :=
      (outcome_read h.at_view h.sound h.represents hino offset).exists_ok
    exact ⟨s', he⟩

/-- The files after a write that ran out of space: the file written to may have its new
size already. -/
def Resized (files : Files (Block g)) (ino offset : Nat) (files' : Files (Block g)) : Prop :=
  ∃ size, (size = (files ino).size ∨ size = max (files ino).size (offset + 1)) ∧
    files' = Function.update files ino ⟨size, (files ino).data⟩

theorem Holds.write (h : Holds fs belowIno nib files s) {ino offset : Nat}
    (hino : ino < nib * g.inodesPerBlock) (hoff : offset < 2 ^ 24) (block : Block g) :
    Outcome (write fs.toBlockStore belowIno ino offset block)
      (fun _ s' => Holds fs belowIno nib
        (Function.update files ino ((files ino).write offset block)) s')
      (fun e s' => e = full ∧ ∃ files', Resized files ino offset files' ∧
        Holds fs belowIno nib files' s') s := by
  have hp : (Op.write ino offset block).Proper (nib * g.inodesPerBlock) := ⟨hino, hoff⟩
  have hsmall := Op.apply_small hp h.small
  rw [← h.ninodes] at hino
  have hlt := h.sound.size_lt ino hino
  refine (outcome_write_sound h.at_view h.sound hino (show offset + 1 < 2 ^ 32 by omega)
    block).mono ?_ ?_
  · rintro r s' ⟨-, D', F, F', h', hs, hc, hroot, hnb, -, hcont⟩
    refine .of_at h' ?_ (hc.frame.inodeblocks.trans h.inodeblocks)
      (hc.written hs hino h.represents hnb hcont) hsmall
    exact hc.sound hs hino h.sound (by omega) (fun hz => by omega) (fun _ => hroot)
  · rintro e s' ⟨D', ⟨rfl, h', -⟩, habort⟩
    have hsize := habort.size
    rw [h.represents.size ino hino] at hsize
    refine ⟨rfl, _, ⟨_, hsize, rfl⟩, .of_at h' habort.sound
      (habort.inodeblocks.trans h.inodeblocks) (habort.represents files h.represents) ?_⟩
    intro i
    by_cases hi : i = ino
    · rw [hi, Function.update_self]
      have hold := h.small ino
      dsimp only
      omega
    · rw [Function.update_of_ne hi]
      exact h.small i

/-- The call does not truncate a file without root while there are free blocks. -/
def Op.Harmless (D : Image g) : Op g → Prop
  | .truncate ino => 0 < D.nblocks ino → D.root ino = 0 → D.freeList = 0
  | _ => True

theorem perform_holds (h : Holds fs belowIno nib files s) {op : Op g}
    (hp : op.Proper (nib * g.inodesPerBlock)) (hharm : op.Harmless (fs.view s belowIno)) :
    Outcome (op.perform (treedisk fs.toBlockStore belowIno))
      (fun _ s' => Holds fs belowIno nib (op.apply files) s')
      (fun e s' => e = full ∧ ∃ files', Holds fs belowIno nib files' s') s := by
  cases op with
  | write ino offset block =>
    refine Outcome.seq ((h.write hp.1 hp.2 block).mono (fun _ _ hq => hq) ?_) (fun _ _ hq => hq)
    rintro e s' ⟨rfl, files', -, h'⟩
    exact ⟨rfl, files', h'⟩
  | truncate ino =>
    have hsmall := Op.apply_small hp h.small
    change ino < _ at hp
    rw [← h.ninodes] at hp
    refine Outcome.seq ((outcome_truncate_sound h.at_view h.sound hp hharm).mono
      (fun _ _ hq => hq) ?_) ?_
    · rintro e s' ⟨-, hbig⟩
      have hlt := hbig.big
      have hle := h.small ino
      rw [h.represents.size ino hp] at hlt
      omega
    · rintro _ s' ⟨-, -, D', F, h', hs, hc, hroot, hnb⟩
      refine .of_at h' ?_ (hc.frame.inodeblocks.trans h.inodeblocks)
        (hc.truncated hs hp h.represents hroot hnb) hsmall
      exact hc.sound hs hp h.sound (by omega) (fun _ => hroot) (fun hb => by omega)
  | read ino offset =>
    obtain ⟨hino, -⟩ := hp
    rw [← h.ninodes] at hino
    refine Outcome.seq (outcome_read h.at_view h.sound h.represents hino offset) ?_
    rintro _ s' ⟨-, h'⟩
    exact .of_at h' h.sound h.inodeblocks h.represents h.small

/-- Every call of the run is harmless in the state it is made in. -/
def AllHarmless (fs : FixedStore (Block g) σ) (belowIno : Nat) : List (Op g) → σ → Prop
  | [], _ => True
  | op :: ops, s => op.Harmless (fs.view s belowIno) ∧
      match op.perform (treedisk fs.toBlockStore belowIno) s with
      | .ok _ s' => AllHarmless fs belowIno ops s'
      | .error _ _ => True

theorem run_holds {ops : List (Op g)} (hp : ∀ op ∈ ops, op.Proper (nib * g.inodesPerBlock)) :
    ∀ {files : Files (Block g)} {s : σ}, Holds fs belowIno nib files s →
      AllHarmless fs belowIno ops s →
      Outcome (ops.forM (Op.perform (treedisk fs.toBlockStore belowIno)))
        (fun _ s' => Holds fs belowIno nib (ops.foldl Op.apply files) s')
        (fun e s' => e = full ∧ ∃ files', Holds fs belowIno nib files' s') s := by
  induction ops with
  | nil =>
    intro files s h _
    exact h
  | cons op ops ih =>
    intro files s h hharm
    have hstep := perform_holds h (hp op (by simp)) hharm.1
    have hrest := hharm.2
    change Outcome (op.perform (treedisk fs.toBlockStore belowIno) >>= fun _ =>
      ops.forM (Op.perform (treedisk fs.toBlockStore belowIno))) _ _ s
    rw [Outcome.bind_iff]
    cases hm : op.perform (treedisk fs.toBlockStore belowIno) s with
    | error e s' =>
      have he := hstep.error hm
      unfold Outcome
      rw [hm]
      exact he
    | ok r s' =>
      rw [hm] at hrest
      exact .of_ok hm (ih (fun o ho => hp o (List.mem_cons_of_mem _ ho)) (hstep.ok hm) hrest)

end

/-- **Atomicity of a write that runs out of space.** After any calls on a created file
system, let a write end in the panic of a full disk. The image it leaves refers to no
block twice, every other inode answers as before, and so does the inode written to, but
for a size that may be the new one already: offsets that are new below it read as zeros. -/
theorem full_write_atomic (fs : FixedStore (Block g) σ) {belowIno : Nat} {s₀ s₁ s s' : σ}
    (hg : fs.Good s₀) (hpos : 0 < fs.sizes belowIno) (hz : fs.view s₀ belowIno 0 = Block.zero)
    {ninodes : Nat} (hni : ninodes < 2 ^ 32)
    (hcreate : create fs.toBlockStore belowIno ninodes s₀ = .ok 0 s₁) (ops : List (Op g))
    (hops : ∀ op ∈ ops, op.Proper (inodeBlocks g ninodes * g.inodesPerBlock))
    (hrun : ops.forM (Op.perform (treedisk fs.toBlockStore belowIno)) s₁ = .ok ⟨⟩ s)
    {ino offset : Nat} (hino : ino < inodeBlocks g ninodes * g.inodesPerBlock)
    (hoff : offset < 2 ^ 24) (block : Block g)
    (hfull : write fs.toBlockStore belowIno ino offset block s = .error full s') :
    ReferencedOnce (fs.view s' belowIno) ∧
      (∀ i, i < inodeBlocks g ninodes * g.inodesPerBlock → i ≠ ino → ∃ file,
        Answers fs.toBlockStore belowIno i file s ∧ Answers fs.toBlockStore belowIno i file s') ∧
      ∃ file size, Answers fs.toBlockStore belowIno ino file s ∧
        (size = file.size ∨ size = max file.size (offset + 1)) ∧
        Answers fs.toBlockStore belowIno ino ⟨size, file.data⟩ s' ∧
        ∀ off, file.size ≤ off → file.data off = Block.zero := by
  have hmir := (run_mirrors (create_mirrors fs belowIno hg hpos hz hni hcreate) hops).ok hrun
  obtain ⟨-, files', ⟨size, hsize, rfl⟩, h'⟩ := (hmir.holds.write hino hoff block).error hfull
  refine ⟨h'.sound.referencedOnce, fun i hi hne => ?_, ?_⟩
  · have hafter := h'.answers hi
    rw [Function.update_of_ne hne] at hafter
    exact ⟨_, hmir.holds.answers hi, hafter⟩
  · have hafter := h'.answers hino
    rw [Function.update_self] at hafter
    refine ⟨_, size, hmir.holds.answers hino, hsize, hafter, ?_⟩
    exact hmir.represents.blank ino (hmir.ninodes ▸ hino)

/-- A disk of three blocks of the small geometry: the superblock, four inodes and one
free block. -/
def smallDisk : FixedStore (Block .tiny) (Ramdisk.State (Block .tiny)) :=
  Ramdisk.fixed (Block .tiny) 3 (by decide)

def smallBlank : Ramdisk.State (Block .tiny) := ⟨fun _ => Block.zero, 3⟩

theorem smallBlank_good : smallDisk.Good smallBlank := rfl

/-- The one free block has gone to inode 0. -/
def smallUsed : Ramdisk.State (Block .tiny) :=
  final ([Op.write 0 0 Block.zero].forM (Op.perform (treedisk smallDisk.toBlockStore 0))
    (final (create smallDisk.toBlockStore 0 4 smallBlank)))

/-- A write to inode 1 has run out of space. -/
def smallFull : Ramdisk.State (Block .tiny) :=
  final (write smallDisk.toBlockStore 0 1 0 Block.zero smallUsed)

theorem full_write_atomic_small :
    ReferencedOnce (smallDisk.view smallFull 0) ∧
      (∀ i, i < 4 → i ≠ 1 → ∃ file, Answers smallDisk.toBlockStore 0 i file smallUsed ∧
        Answers smallDisk.toBlockStore 0 i file smallFull) ∧
      ∃ file size, Answers smallDisk.toBlockStore 0 1 file smallUsed ∧
        (size = file.size ∨ size = max file.size (0 + 1)) ∧
        Answers smallDisk.toBlockStore 0 1 ⟨size, file.data⟩ smallFull ∧
        ∀ off, file.size ≤ off → file.data off = Block.zero :=
  full_write_atomic smallDisk smallBlank_good (by decide) rfl (show 4 < 2 ^ 32 by decide)
    (eq_ok_of_returned (by decide +kernel)) [.write 0 0 Block.zero] (by simp [Op.Proper]; decide)
    (eq_ok_of_returned (by decide +kernel)) (by decide) (by decide) Block.zero
    (eq_error_of_stopped (by decide +kernel))

/-- **Recovery after running out of space.** Let the last write on a created file system end
in the panic of a full disk, and make any further calls on what it leaves. As long as no
call truncates a file without root while there are free blocks, the number of inode
blocks stays, block 0 and the inode blocks are neither free nor in a tree, and every
inode is a sparse file of its own. -/
theorem full_write_recovered (fs : FixedStore (Block g) σ) {belowIno : Nat} {s₀ s₁ s s' : σ}
    (hg : fs.Good s₀) (hpos : 0 < fs.sizes belowIno) (hz : fs.view s₀ belowIno 0 = Block.zero)
    {ninodes : Nat} (hni : ninodes < 2 ^ 32)
    (hcreate : create fs.toBlockStore belowIno ninodes s₀ = .ok 0 s₁) (ops : List (Op g))
    (hops : ∀ op ∈ ops, op.Proper (inodeBlocks g ninodes * g.inodesPerBlock))
    (hrun : ops.forM (Op.perform (treedisk fs.toBlockStore belowIno)) s₁ = .ok ⟨⟩ s)
    {ino offset : Nat} (hino : ino < inodeBlocks g ninodes * g.inodesPerBlock)
    (hoff : offset < 2 ^ 24) (block : Block g)
    (hfull : write fs.toBlockStore belowIno ino offset block s = .error full s')
    (later : List (Op g))
    (hlater : ∀ op ∈ later, op.Proper (inodeBlocks g ninodes * g.inodesPerBlock))
    (hharm : AllHarmless fs belowIno later s') :
    ∃ files, Resized (filesAfter ops) ino offset files ∧
      ((∃ t, later.forM (Op.perform (treedisk fs.toBlockStore belowIno)) s' = .ok ⟨⟩ t ∧
        Image.nInodeblocks (fs.view t belowIno) = inodeBlocks g ninodes ∧
        BehindInodes (fs.sizes belowIno) (fs.view t belowIno) ∧
        ∀ i, i < inodeBlocks g ninodes * g.inodesPerBlock →
          Answers fs.toBlockStore belowIno i (later.foldl Op.apply files i) t) ∨
      ∃ t, later.forM (Op.perform (treedisk fs.toBlockStore belowIno)) s' = .error full t ∧
        Image.nInodeblocks (fs.view t belowIno) = inodeBlocks g ninodes ∧
        BehindInodes (fs.sizes belowIno) (fs.view t belowIno)) := by
  have hmir := (run_mirrors (create_mirrors fs belowIno hg hpos hz hni hcreate) hops).ok hrun
  obtain ⟨-, files, hres, h'⟩ := (hmir.holds.write hino hoff block).error hfull
  refine ⟨files, hres, ?_⟩
  have hout := run_holds hlater h' hharm
  cases hm : later.forM (Op.perform (treedisk fs.toBlockStore belowIno)) s' with
  | ok r t =>
    have ht := hout.ok hm
    exact .inl ⟨t, rfl, ht.inodeblocks, ht.sound.behindInodes, fun i hi => ht.answers hi⟩
  | error e t =>
    obtain ⟨rfl, files', ht⟩ := hout.error hm
    exact .inr ⟨t, rfl, ht.inodeblocks, ht.sound.behindInodes⟩

instance (D : Image g) : (op : Op g) → Decidable (op.Harmless D)
  | .truncate ino =>
    inferInstanceAs (Decidable (0 < D.nblocks ino → D.root ino = 0 → D.freeList = 0))
  | .write _ _ _ => .isTrue trivial
  | .read _ _ => .isTrue trivial

instance decidableAllHarmless (fs : FixedStore (Block g) σ) (belowIno : Nat) :
    (ops : List (Op g)) → (s : σ) → Decidable (AllHarmless fs belowIno ops s)
  | [], _ => .isTrue trivial
  | op :: ops, s =>
    have : Decidable (match op.perform (treedisk fs.toBlockStore belowIno) s with
        | .ok _ s' => AllHarmless fs belowIno ops s'
        | .error _ _ => True) :=
      match op.perform (treedisk fs.toBlockStore belowIno) s with
      | .ok _ s' => decidableAllHarmless fs belowIno ops s'
      | .error _ _ => .isTrue trivial
    inferInstanceAs (Decidable (_ ∧ _))

/-- Inode 1 is truncated first, while the free list is empty, and inode 0 after it. -/
theorem full_write_recovered_small :
    ∃ files, Resized (filesAfter [.write 0 0 Block.zero]) 1 0 files ∧
      ((∃ t, [Op.truncate 1, .truncate 0].forM (Op.perform (treedisk smallDisk.toBlockStore 0))
          smallFull = .ok ⟨⟩ t ∧
        Image.nInodeblocks (smallDisk.view t 0) = 1 ∧ BehindInodes 3 (smallDisk.view t 0) ∧
        ∀ i, i < 4 → Answers smallDisk.toBlockStore 0 i
          ([Op.truncate 1, .truncate 0].foldl Op.apply files i) t) ∨
      ∃ t, [Op.truncate 1, .truncate 0].forM (Op.perform (treedisk smallDisk.toBlockStore 0))
          smallFull = .error full t ∧
        Image.nInodeblocks (smallDisk.view t 0) = 1 ∧ BehindInodes 3 (smallDisk.view t 0)) :=
  full_write_recovered smallDisk smallBlank_good (by decide) rfl (show 4 < 2 ^ 32 by decide)
    (eq_ok_of_returned (by decide +kernel)) [.write 0 0 Block.zero] (by simp [Op.Proper]; decide)
    (eq_ok_of_returned (by decide +kernel)) (by decide) (by decide) Block.zero
    (eq_error_of_stopped (by decide +kernel)) [.truncate 1, .truncate 0]
    (by simp [Op.Proper]; decide) (by decide +kernel)

/-- In the other order the truncation of inode 1 wipes the superblock: the file system
has no inodes any more. -/
theorem superblock_wiped :
    stopped (write smallDisk.toBlockStore 0 1 0 Block.zero smallUsed) = some full ∧
    Image.nInodeblocks (smallDisk.view smallFull 0) = 1 ∧
    returned ([Op.truncate 0, .truncate 1].forM
      (Op.perform (treedisk smallDisk.toBlockStore 0)) smallFull) = some ⟨⟩ ∧
    Image.nInodeblocks (smallDisk.view (final ([Op.truncate 0, .truncate 1].forM
      (Op.perform (treedisk smallDisk.toBlockStore 0)) smallFull)) 0) = 0 ∧
    returned (getsize smallDisk.toBlockStore 0 0 (final ([Op.truncate 0, .truncate 1].forM
      (Op.perform (treedisk smallDisk.toBlockStore 0)) smallFull))) = some (-1) := by
  decide +kernel

end Egos.Disk.Treedisk
