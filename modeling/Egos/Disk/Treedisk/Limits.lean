import Egos.Disk.Treedisk.Runs

/-!
# The limits of 32-bit sizes

Any sequence of calls of the interface, on valid inodes or not, keeps a created disk
valid as long as no write is at the last 32-bit offset. The size of a file then goes up
to `2 ^ 32 - 1` blocks. Two computations of `treedisk.c` do not reach that far: the scan
for the tree depth in `treedisk_free_file` has products that wrap to 0, and a write at
the last offset makes the size of the file 0.
-/
namespace Egos.Disk.Treedisk

open Egos.Lib

set_option autoImplicit false

variable {g : Geometry} {σ : Type} {fs : FixedStore (Block g) σ} {belowIno nib : Nat} {s : σ}

/-- The size that a write at this offset asks for is a 32-bit number. -/
def FitsOffset : Request (Block g) → Prop
  | .write _ offset _ => offset + 1 < 2 ^ 32
  | _ => True

/-- The state between two calls, with files of any size. -/
structure Intact (fs : FixedStore (Block g) σ) (belowIno nInodeblocks : Nat) (s : σ) : Prop where
  valid : Valid (fs.sizes belowIno) (fs.view s belowIno)
  good : fs.Good s
  inodeblocks : Image.nInodeblocks (fs.view s belowIno) = nInodeblocks
  represents : ∃ files, Represents (fs.view s belowIno) files

theorem Mirrors.intact {files : Files (Block g)} (h : Mirrors fs belowIno nib files s) :
    Intact fs belowIno nib s := ⟨h.valid, h.good, h.inodeblocks, files, h.represents⟩

namespace Intact

theorem of_at {D : Image g} {files : Files (Block g)} (h : At fs belowIno D s)
    (hv : Valid (fs.sizes belowIno) D) (hn : D.nInodeblocks = nib) (hr : Represents D files) :
    Intact fs belowIno nib s := by
  obtain ⟨hg, rfl⟩ := h
  exact ⟨hv, hg, hn, files, hr⟩

variable (h : Intact fs belowIno nib s)

include h

theorem at_view : At fs belowIno (fs.view s belowIno) s := ⟨h.good, rfl⟩

theorem ninodes : Image.ninodes (fs.view s belowIno) = nib * g.inodesPerBlock := by
  unfold Image.ninodes
  rw [h.inodeblocks]

theorem again {s' : σ} (h' : At fs belowIno (fs.view s belowIno) s') :
    Intact fs belowIno nib s' := by
  obtain ⟨files, hr⟩ := h.represents
  exact of_at h' h.valid h.inodeblocks hr

theorem outcome_getSnapshot_none {ino : Nat} (hino : ¬ ino < nib * g.inodesPerBlock)
    {E : Stop → σ → Prop} :
    Outcome (getSnapshot fs.toBlockStore belowIno ino)
      (fun r s' => r = none ∧ At fs belowIno (fs.view s belowIno) s') E s := by
  have hpos := h.valid.inodes_lt
  unfold getSnapshot
  rw [Outcome.bind_iff]
  apply h.at_view.outcome_read (show 0 < fs.sizes belowIno by omega)
  intro s₁ h₁
  have hge : (fs.view s belowIno 0).ref 0 * g.inodesPerBlock ≤ ino := by
    have hn := h.inodeblocks
    unfold Image.nInodeblocks at hn
    rw [hn]
    omega
  dsimp only
  rw [if_pos hge]
  exact ⟨rfl, h₁⟩

theorem outcome_getSnapshot (ino : Nat) {E : Stop → σ → Prop} :
    Outcome (getSnapshot fs.toBlockStore belowIno ino)
      (fun r s' => At fs belowIno (fs.view s belowIno) s' ∧
        r = if ino < nib * g.inodesPerBlock then some (snapshotOf (fs.view s belowIno) ino)
          else none) E s := by
  by_cases hino : ino < nib * g.inodesPerBlock
  · apply (Treedisk.outcome_getSnapshot h.at_view h.valid.inodes_lt (h.ninodes ▸ hino)).post
    rintro r s' ⟨hr, h'⟩
    exact ⟨h', by rw [if_pos hino, hr]⟩
  · apply (h.outcome_getSnapshot_none hino).post
    rintro r s' ⟨hr, h'⟩
    exact ⟨h', by rw [if_neg hino, hr]⟩

theorem outcome_getninodes {E : Stop → σ → Prop} :
    Outcome (getninodes fs.toBlockStore belowIno) (fun _ s' => Intact fs belowIno nib s') E s := by
  have hpos := h.valid.inodes_lt
  unfold getninodes
  rw [Outcome.bind_iff]
  apply h.at_view.outcome_read (show 0 < fs.sizes belowIno by omega)
  exact fun s' h' => h.again h'

theorem outcome_getsize (ino : Nat) {E : Stop → σ → Prop} :
    Outcome (getsize fs.toBlockStore belowIno ino) (fun _ s' => Intact fs belowIno nib s') E s := by
  unfold getsize
  rw [Outcome.bind_iff]
  apply (h.outcome_getSnapshot ino).post
  rintro r s' ⟨h', -⟩
  cases r <;> exact h.again h'

theorem outcome_read (ino offset : Nat) {files : Files (Block g)}
    (hr : Represents (fs.view s belowIno) files) {E : Stop → σ → Prop} :
    Outcome (read fs.toBlockStore belowIno ino offset)
      (fun r s' => Intact fs belowIno nib s' ∧
        r = if ino < nib * g.inodesPerBlock then (files ino).read offset else none) E s := by
  by_cases hino : ino < nib * g.inodesPerBlock
  · apply (Treedisk.outcome_read h.at_view h.valid.sound hr (h.ninodes ▸ hino) offset).post
    rintro r s' ⟨hread, h'⟩
    exact ⟨h.again h', by rw [if_pos hino, hread]⟩
  · unfold read
    rw [Outcome.bind_iff]
    apply (h.outcome_getSnapshot_none hino).post
    rintro r s' ⟨rfl, h'⟩
    exact ⟨h.again h', by rw [if_neg hino]⟩

theorem outcome_sync (ino : Nat) {E : Stop → σ → Prop} :
    Outcome (sync fs.toBlockStore belowIno ino) (fun _ s' => Intact fs belowIno nib s') E s := by
  apply (Treedisk.outcome_sync h.at_view ino).post
  exact fun _ s' h' => h.again h'

/-- A truncation may go on for ever, and an invalid inode number leaves the snapshot unset;
a size other than 0 changes nothing. -/
theorem outcome_setsize (ino nblocks : Nat) :
    Outcome (setsize fs.toBlockStore belowIno ino nblocks)
      (fun _ s' => Intact fs belowIno nib s') (fun _ _ => True) s := by
  obtain ⟨files, hr⟩ := h.represents
  by_cases hino : ino < nib * g.inodesPerBlock
  · rcases Nat.eq_zero_or_pos nblocks with rfl | hpos
    · apply (outcome_truncate h.at_view h.valid hr (h.ninodes ▸ hino)).mono
      · rintro r s' ⟨-, -, D', h', hv, hn, -, hr'⟩
        exact of_at h' hv (hn.trans h.inodeblocks) hr'
      · exact fun _ _ _ => trivial
    · unfold setsize
      rw [Outcome.bind_iff]
      apply (h.outcome_getSnapshot ino).post
      rintro r s' ⟨h', rfl⟩
      rw [if_pos hino]
      dsimp only
      rw [if_pos hpos]
      split <;> exact h.again h'
  · unfold setsize
    rw [Outcome.bind_iff]
    apply (h.outcome_getSnapshot_none hino).post
    rintro r s' ⟨rfl, -⟩
    exact trivial

theorem outcome_write (ino : Nat) {offset : Nat} (hoff : offset + 1 < 2 ^ 32) (block : Block g) :
    Outcome (write fs.toBlockStore belowIno ino offset block)
      (fun _ s' => Intact fs belowIno nib s') (fun _ _ => True) s := by
  obtain ⟨files, hr⟩ := h.represents
  by_cases hino : ino < nib * g.inodesPerBlock
  · apply (Treedisk.outcome_write h.at_view h.valid hr (h.ninodes ▸ hino) hoff block).mono
    · rintro r s' ⟨-, D', h', hv, hn, hr'⟩
      exact of_at h' hv (hn.trans h.inodeblocks) hr'
    · exact fun _ _ _ => trivial
  · unfold write
    rw [Outcome.bind_iff]
    apply (h.outcome_getSnapshot_none hino).post
    rintro r s' ⟨rfl, h'⟩
    exact h.again h'

theorem perform {call : Request (Block g)} (hfit : FitsOffset call) :
    Outcome (call.perform (treedisk fs.toBlockStore belowIno))
      (fun _ s' => Intact fs belowIno nib s') (fun _ _ => True) s := by
  obtain ⟨files, hr⟩ := h.represents
  cases call with
  | getninodes => exact Outcome.seq h.outcome_getninodes fun _ _ h' => h'
  | getsize ino => exact Outcome.seq (h.outcome_getsize ino) fun _ _ h' => h'
  | setsize ino nblocks => exact Outcome.seq (h.outcome_setsize ino nblocks) fun _ _ h' => h'
  | read ino offset => exact Outcome.seq (h.outcome_read ino offset hr) fun _ _ h' => h'.1
  | write ino offset block => exact Outcome.seq (h.outcome_write ino hfit block) fun _ _ h' => h'
  | sync ino => exact Outcome.seq (h.outcome_sync ino) fun _ _ h' => h'

end Intact

theorem performAll_intact {calls : List (Request (Block g))}
    (hfit : ∀ call ∈ calls, FitsOffset call) {s : σ} (h : Intact fs belowIno nib s) :
    Outcome (performAll (treedisk fs.toBlockStore belowIno) calls)
      (fun _ s' => Intact fs belowIno nib s') (fun _ _ => True) s := by
  induction calls generalizing s with
  | nil => exact h
  | cons call calls ih =>
    unfold performAll
    apply Outcome.seq (h.perform (hfit call List.mem_cons_self))
    intro answer s' h'
    apply Outcome.seq (ih (fun c hc => hfit c (List.mem_cons_of_mem _ hc)) h')
    exact fun _ _ h'' => h''

theorem create_intact (fs : FixedStore (Block g) σ) (belowIno : Nat) {s₀ s₁ : σ}
    (hg : fs.Good s₀) (hpos : 0 < fs.sizes belowIno)
    (hz : fs.view s₀ belowIno 0 = Block.zero) {ninodes : Nat} (hni : ninodes < 2 ^ 32)
    (hcreate : create fs.toBlockStore belowIno ninodes s₀ = .ok 0 s₁)
    {calls : List (Request (Block g))} (hfit : ∀ call ∈ calls, FitsOffset call)
    {answers : List (Answer (Block g))}
    (hrun : performAll (treedisk fs.toBlockStore belowIno) calls s₁ = .ok answers s) :
    Intact fs belowIno (inodeBlocks g ninodes) s :=
  (performAll_intact hfit (create_mirrors fs belowIno hg hpos hz hni hcreate).intact).ok hrun

/-- The scan of `treedisk_free_file` ends for files up to the largest complete tree, and
then with the depth that the shifts find. -/
theorem levelLoop_iff {nblocks : Nat} (hlt : nblocks < 2 ^ 32) :
    (1 < nblocks → levelLoop g nblocks 32 1 g.refsPerBlock = some (levelsOf g nblocks)) ↔
      nblocks ≤ largestFile g := by
  constructor
  · intro h
    by_contra hbig
    obtain ⟨hone, hnone⟩ := endless_iff.mpr (show largestFile g < nblocks by omega)
    rw [h hone] at hnone
    exact absurd hnone (by simp)
  · intro hle hone
    cases hloop : levelLoop g nblocks 32 1 g.refsPerBlock with
    | none =>
      have hbig := endless_iff.mp ⟨hone, hloop⟩
      omega
    | some level =>
      congr 1
      refine levelLoop_some hlt (by omega) 32 1 _ (.inl (capacity_one g).symm) ?_ hloop
      intro k hk
      obtain rfl : k = 0 := by omega
      rw [capacity_zero]
      exact hone

/-- **Truncation of sparse files.** After any calls on a created file system without a write
at the last offset, truncating an inode ends, with the whole tree on the free list and the
depth of the scan that of the shifts, if and only if the file is no larger than the largest
complete tree that a 32-bit product can express. -/
theorem truncation_ends_iff (fs : FixedStore (Block g) σ) {belowIno : Nat} {s₀ s₁ s : σ}
    (hg : fs.Good s₀) (hpos : 0 < fs.sizes belowIno) (hz : fs.view s₀ belowIno 0 = Block.zero)
    {ninodes : Nat} (hni : ninodes < 2 ^ 32)
    (hcreate : create fs.toBlockStore belowIno ninodes s₀ = .ok 0 s₁)
    (calls : List (Request (Block g))) (hfit : ∀ call ∈ calls, FitsOffset call)
    {answers : List (Answer (Block g))}
    (hrun : performAll (treedisk fs.toBlockStore belowIno) calls s₁ = .ok answers s)
    {ino nblocks : Nat} (hino : ino < inodeBlocks g ninodes * g.inodesPerBlock)
    (hsize : Image.nblocks (fs.view s belowIno) ino = nblocks) :
    ((∃ r s', setsize fs.toBlockStore belowIno ino 0 s = .ok r s' ∧
        Reclaimed (fs.view s belowIno) (fs.view s' belowIno) ino) ∧
      (1 < nblocks → levelLoop g nblocks 32 1 g.refsPerBlock = some (levelsOf g nblocks))) ↔
      nblocks ≤ largestFile g := by
  have h := create_intact fs belowIno hg hpos hz hni hcreate hfit hrun
  obtain ⟨files, hr⟩ := h.represents
  rw [← h.ninodes] at hino
  have hlt : nblocks < 2 ^ 32 := hsize ▸ h.valid.size_lt ino hino
  rw [levelLoop_iff hlt]
  constructor
  · exact fun hboth => hboth.2
  · intro hle
    refine ⟨?_, hle⟩
    have hends : ¬ Endless g (files ino).size := by
      rw [endless_iff, ← hr.size ino hino, hsize]
      omega
    obtain ⟨r, s', he, -, -, D', h', -, -, hrec, -⟩ :=
      ((outcome_truncate h.at_view h.valid hr hino).mono (fun _ _ hq => hq)
        (fun _ _ he => hends he.2)).exists_ok
    refine ⟨r, s', he, ?_⟩
    rw [h'.view]
    exact hrec

example : largestFile .system = 2 ^ 24 := by decide

/-- Calls on valid and invalid inodes that leave a file with a hole. -/
def limitCalls : List (Request (Block .tiny)) :=
  [.write 0 9 (Block.zero.setRef 0 7), .setsize 3 5, .write 1 0 Block.zero, .getsize 99]

theorem limitCalls_fit : ∀ call ∈ limitCalls, FitsOffset call := by
  simp [limitCalls, FitsOffset]

/-- The small file system after these calls. -/
def limitCalled : Ramdisk.State (Block .tiny) :=
  final (performAll (treedisk tinyDisk.toBlockStore 0) limitCalls
    (final (create tinyDisk.toBlockStore 0 6 tinyBlank)))

theorem limitCalled_run :
    performAll (treedisk tinyDisk.toBlockStore 0) limitCalls
      (final (create tinyDisk.toBlockStore 0 6 tinyBlank)) =
      .ok [.code 0, .code (-1), .code 0, .code (-1)] limitCalled :=
  eq_ok_of_returned (by decide +kernel)

theorem truncation_ends_tiny :
    ((∃ r s', setsize tinyDisk.toBlockStore 0 0 0 limitCalled = .ok r s' ∧
        Reclaimed (tinyDisk.view limitCalled 0) (tinyDisk.view s' 0) 0) ∧
      (1 < 10 → levelLoop .tiny 10 32 1 Geometry.tiny.refsPerBlock = some (levelsOf .tiny 10))) ↔
      10 ≤ largestFile .tiny :=
  truncation_ends_iff tinyDisk tinyBlank_good (by decide) rfl (show 6 < 2 ^ 32 by decide)
    (eq_ok_of_returned (by decide +kernel)) limitCalls limitCalls_fit limitCalled_run
    (show 0 < inodeBlocks .tiny 6 * Geometry.tiny.inodesPerBlock by decide) (by decide +kernel)

/-- A ramdisk of 30 blocks of the small geometry, with room for a deep tree. -/
def deepDisk : FixedStore (Block .tiny) (Ramdisk.State (Block .tiny)) :=
  Ramdisk.fixed (Block .tiny) 30 (by decide)

def deepBlank : Ramdisk.State (Block .tiny) := ⟨fun _ => Block.zero, 30⟩

/-- One sparse write makes inode 0 larger than the largest complete tree. -/
theorem deep_file_never_freed :
    returned (create deepDisk.toBlockStore 0 1 deepBlank) = some 0 ∧
    returned (write deepDisk.toBlockStore 0 0 (2 ^ 30) Block.zero
      (final (create deepDisk.toBlockStore 0 1 deepBlank))) = some 0 ∧
    stopped (setsize deepDisk.toBlockStore 0 0 0
      (final (write deepDisk.toBlockStore 0 0 (2 ^ 30) Block.zero
        (final (create deepDisk.toBlockStore 0 1 deepBlank))))) = some .diverge := by
  decide +kernel

/-- What a write that returned 0 promises: the file reaches past the offset, which holds the
block, and whatever else could be read still can. -/
structure Fulfilled (bs : BlockStore (Block g) σ) (ino offset : Nat) (block : Block g)
    (s s' : σ) : Prop where
  size : ∃ r t, bs.getsize ino s' = .ok r t ∧ offset < toUnsigned r
  block : ∃ t, bs.read ino offset s' = .ok (some block) t
  kept : ∀ i off, (i = ino → off ≠ offset) → ∀ b t, bs.read i off s = .ok (some b) t →
    ∃ t', bs.read i off s' = .ok (some b) t'

theorem toUnsigned_lt (r : Int) : toUnsigned r < 2 ^ 32 := by
  unfold toUnsigned
  omega

theorem Intact.fulfilled {s' : σ} (h : Intact fs belowIno nib s) {ino offset : Nat}
    (hino : ino < nib * g.inodesPerBlock) (hoff : offset + 1 < 2 ^ 32) {block : Block g}
    (hwrite : write fs.toBlockStore belowIno ino offset block s = .ok 0 s') :
    Fulfilled (treedisk fs.toBlockStore belowIno) ino offset block s s' := by
  obtain ⟨files, hr⟩ := h.represents
  have hin := hino
  rw [← h.ninodes] at hin
  obtain ⟨-, D', h', hv, hn, hr'⟩ :=
    (Treedisk.outcome_write h.at_view h.valid hr hin hoff block).ok hwrite
  have hafter := Intact.of_at h' hv (hn.trans h.inodeblocks) hr'
  obtain ⟨-, rfl⟩ := h'
  have hin' := hino
  rw [← hafter.ninodes] at hin'
  constructor
  · obtain ⟨r, t, he, rfl, -⟩ :=
      (Treedisk.outcome_getsize hafter.at_view hafter.valid.sound hr' hin').exists_ok
    refine ⟨_, t, he, ?_⟩
    have hlt := hafter.valid.size_lt ino hin'
    rw [hr'.size ino hin'] at hlt
    rw [toUnsigned_toInt hlt, Function.update_self]
    exact Nat.lt_of_lt_of_le (Nat.lt_succ_self offset) (Nat.le_max_right _ _)
  · obtain ⟨r, t, he, -, rfl⟩ := (hafter.outcome_read ino offset hr').exists_ok
    refine ⟨t, he.trans ?_⟩
    rw [if_pos hino, Function.update_self]
    unfold SparseFile.read SparseFile.write
    dsimp only
    rw [if_pos (Nat.lt_of_lt_of_le (Nat.lt_succ_self offset) (Nat.le_max_right _ _)),
      Function.update_self]
  · intro i off hne b t hread
    obtain ⟨-, hb⟩ := (h.outcome_read (E := fun _ _ => True) i off hr).ok hread
    obtain ⟨r, t', he, -, rfl⟩ := (hafter.outcome_read i off hr').exists_ok
    refine ⟨t', he.trans ?_⟩
    by_cases hi : i < nib * g.inodesPerBlock
    · rw [if_pos hi] at hb ⊢
      rw [hb]
      by_cases hsame : i = ino
      · -- the same file reads as before at every other offset
        subst hsame
        rw [Function.update_self]
        unfold SparseFile.read at hb ⊢
        unfold SparseFile.write
        split at hb
        · rename_i hlt
          dsimp only
          rw [if_pos (Nat.lt_of_lt_of_le hlt (Nat.le_max_left _ _)),
            Function.update_of_ne (hne rfl), if_pos hlt]
        · simp at hb
      · rw [Function.update_of_ne hsame]
    · rw [if_neg hi] at hb
      simp at hb

/-- **Writes at every offset.** After any calls on a created file system without a write at
the last offset, a write to a valid inode that returns 0 does what it promises if and only
if it is not at the last offset itself. -/
theorem write_fulfilled_iff (fs : FixedStore (Block g) σ) {belowIno : Nat} {s₀ s₁ s s' : σ}
    (hg : fs.Good s₀) (hpos : 0 < fs.sizes belowIno) (hz : fs.view s₀ belowIno 0 = Block.zero)
    {ninodes : Nat} (hni : ninodes < 2 ^ 32)
    (hcreate : create fs.toBlockStore belowIno ninodes s₀ = .ok 0 s₁)
    (calls : List (Request (Block g))) (hfit : ∀ call ∈ calls, FitsOffset call)
    {answers : List (Answer (Block g))}
    (hrun : performAll (treedisk fs.toBlockStore belowIno) calls s₁ = .ok answers s)
    {ino offset : Nat} (hino : ino < inodeBlocks g ninodes * g.inodesPerBlock)
    (hoff : offset < 2 ^ 32) (block : Block g)
    (hwrite : write fs.toBlockStore belowIno ino offset block s = .ok 0 s') :
    Fulfilled (treedisk fs.toBlockStore belowIno) ino offset block s s' ↔
      offset ≠ 2 ^ 32 - 1 := by
  constructor
  · -- no size that `getsize` can report is past the last offset
    rintro ⟨⟨r, -, -, hsize⟩, -, -⟩ rfl
    have hlt := toUnsigned_lt r
    omega
  · intro hne
    have h := create_intact fs belowIno hg hpos hz hni hcreate hfit hrun
    exact h.fulfilled hino (by omega) hwrite

theorem write_fulfilled_tiny :
    Fulfilled (treedisk tinyDisk.toBlockStore 0) 0 3 (Block.zero.setRef 1 5) limitCalled
        (final (write tinyDisk.toBlockStore 0 0 3 (Block.zero.setRef 1 5) limitCalled)) ↔
      3 ≠ 2 ^ 32 - 1 :=
  write_fulfilled_iff tinyDisk tinyBlank_good (by decide) rfl (show 6 < 2 ^ 32 by decide)
    (eq_ok_of_returned (by decide +kernel)) limitCalls limitCalls_fit limitCalled_run
    (show 0 < inodeBlocks .tiny 6 * Geometry.tiny.inodesPerBlock by decide) (by decide) _
    (eq_ok_of_returned (by decide +kernel))

/-- A file of one block after a write at the last offset. -/
def wrappedFile : Ramdisk.State (Block .tiny) :=
  final (write tinyDisk.toBlockStore 0 0 (2 ^ 32 - 1) Block.zero
    (final (write tinyDisk.toBlockStore 0 0 0 (Block.zero.setRef 0 7)
      (final (create tinyDisk.toBlockStore 0 6 tinyBlank)))))

/-- The write returns 0 and has set the size to 0: neither block can be read. -/
theorem last_offset_lost :
    returned (write tinyDisk.toBlockStore 0 0 0 (Block.zero.setRef 0 7)
      (final (create tinyDisk.toBlockStore 0 6 tinyBlank))) = some 0 ∧
    returned (write tinyDisk.toBlockStore 0 0 (2 ^ 32 - 1) Block.zero
      (final (write tinyDisk.toBlockStore 0 0 0 (Block.zero.setRef 0 7)
        (final (create tinyDisk.toBlockStore 0 6 tinyBlank))))) = some 0 ∧
    returned (getsize tinyDisk.toBlockStore 0 0 wrappedFile) = some 0 ∧
    returned (read tinyDisk.toBlockStore 0 0 0 wrappedFile) = some none ∧
    returned (read tinyDisk.toBlockStore 0 0 (2 ^ 32 - 1) wrappedFile) = some none := by
  decide +kernel

end Egos.Disk.Treedisk
