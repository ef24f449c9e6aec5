import Egos.Disk.Transparency
import Egos.Disk.Treedisk.Runs

/-!
# Durability through the storage stack

`block_init` of `blocksvr.c` puts a treedisk on the write-back cache on the disk. The
cache over a store of fixed sizes is such a store itself: what it holds is what its
slots show over the store below. So the results on a treedisk apply to the stack as
they stand, and a sync of the inode that holds the file system brings the disk up to
the state that the stack shows.
-/
namespace Egos.Disk.Clockdisk

open Egos.Lib

set_option autoImplicit false

variable {β σ : Type} {n : Nat}

/-- The block that the cache shows: the one of the slot for it, or else the one below. -/
def visible (fs : FixedStore β σ) (cs : State β σ n) (ino offset : Nat) : β :=
  match lookup cs ino offset with
  | some i => (cs.slots i).block
  | none => fs.view cs.below ino offset

theorem Reflects.visible_eq {fs : FixedStore β σ} {cs : State β σ n} {ref : Nat → Nat → β}
    (h : Reflects fs cs ref) : visible fs cs = ref := by
  funext ino offset
  unfold visible
  cases hl : lookup cs ino offset with
  | some i =>
    obtain ⟨hlive, rfl, rfl⟩ := lookup_some hl
    exact h.cached i hlive
  | none => exact h.absent ino offset (lookup_none hl)

theorem Reflects.shown {fs : FixedStore β σ} {cs : State β σ n} {ref : Nat → Nat → β}
    (h : Reflects fs cs ref) : Reflects fs cs (visible fs cs) ∧ visible fs cs = ref := by
  have hv := h.visible_eq
  exact ⟨hv.symm ▸ h, hv⟩

/-- A cache over a store of fixed sizes is a store of the same sizes. -/
def cachedStore (fs : FixedStore β σ) (n : Nat) : FixedStore β (State β σ n) where
  toBlockStore := clockdisk fs.toBlockStore
  sizes := fs.sizes
  Good := fun cs => Reflects fs cs (visible fs cs)
  view := visible fs
  sizes_lt := fs.sizes_lt
  getsize_ok := by
    intro cs h ino hs
    obtain ⟨s', he, hg, hv⟩ := fs.getsize_ok h.good hs
    have h' : Reflects fs { cs with below := s' } (visible fs cs) :=
      (h.serves.below hg hv).reflects
    refine ⟨{ cs with below := s' }, ?_, h'.shown⟩
    change Clockdisk.getsize fs.toBlockStore ino cs = _
    unfold Clockdisk.getsize onBelow onPart
    rw [he]
  read_ok := by
    intro cs h ino offset hr
    obtain ⟨_, cs', he, rfl, h'⟩ := (outcome_read h hr).exists_ok
    exact ⟨cs', he, h'.shown⟩
  write_ok := by
    intro cs h ino offset hr block
    obtain ⟨_, cs', he, rfl, h'⟩ := (outcome_write h hr block).exists_ok
    exact ⟨cs', he, h'.shown⟩
  sync_ok := by
    intro cs h ino
    obtain ⟨r, cs', he, h', -⟩ := (outcome_sync h ino).exists_ok
    exact ⟨r, cs', he, h'.shown⟩

theorem cachedStore_init (fs : FixedStore β σ) {below : σ} (hb : fs.Good below)
    (blocks : Fin (n + 1) → β) :
    (cachedStore fs (n + 1)).Good (init below blocks) ∧
      (cachedStore fs (n + 1)).view (init below blocks) = fs.view below :=
  (reflects_init fs hb blocks).shown

/-- A sync of an inode brings what the cache shows of it down to the store below. -/
theorem cachedStore_sync (fs : FixedStore β σ) {cs : State β σ n}
    (h : (cachedStore fs n).Good cs) (ino : Nat) :
    ∃ r cs', sync fs.toBlockStore ino cs = .ok r cs' ∧ fs.Good cs'.below ∧
      fs.view cs'.below ino = (cachedStore fs n).view cs ino := by
  obtain ⟨r, cs', he, h', hsync⟩ := (outcome_sync h ino).exists_ok
  exact ⟨r, cs', he, h'.good, funext (hsync ino (.inl rfl))⟩

end Egos.Disk.Clockdisk

namespace Egos.Disk.Stack

open Egos.Lib Egos.Disk.Clockdisk Egos.Disk.Treedisk

set_option autoImplicit false

variable {g : Geometry} {σ τ : Type} {n : Nat}

/-- Two treedisks answer alike for this inode: the same size and the same blocks. -/
def SameFile (bs : BlockStore (Block g) σ) (s : σ) (bt : BlockStore (Block g) τ) (t : τ)
    (belowIno ino : Nat) : Prop :=
  (∃ size s' t', (treedisk bs belowIno).getsize ino s = .ok size s' ∧
    (treedisk bt belowIno).getsize ino t = .ok size t') ∧
  ∀ offset, ∃ block s' t', (treedisk bs belowIno).read ino offset s = .ok block s' ∧
    (treedisk bt belowIno).read ino offset t = .ok block t'

theorem getSnapshot_past {fs : FixedStore (Block g) σ} {belowIno ino : Nat} {D : Image g} {s : σ}
    (h : At fs belowIno D s) (hv : Valid (fs.sizes belowIno) D) (hino : D.ninodes ≤ ino) :
    ∃ s', getSnapshot fs.toBlockStore belowIno ino s = .ok none s' := by
  have hn := hv.inodes_lt
  have hout : Outcome (getSnapshot fs.toBlockStore belowIno ino) (fun r _ => r = none)
      (fun _ _ => False) s := by
    unfold getSnapshot
    rw [Outcome.bind_iff]
    refine h.outcome_read (by omega) (fun s₁ _ => ?_)
    dsimp only
    have hle : (D 0).ref 0 * g.inodesPerBlock ≤ ino := hino
    rw [if_pos hle]
    exact rfl
  obtain ⟨r, s', he, rfl⟩ := hout.exists_ok
  exact ⟨s', he⟩

/-- Two stores that hold the same valid image answer alike for every inode. -/
theorem sameFile_of_at {fs : FixedStore (Block g) σ} {ft : FixedStore (Block g) τ}
    {belowIno : Nat} {D : Image g} {files : Files (Block g)} {s : σ} {t : τ}
    (hs : At fs belowIno D s) (ht : At ft belowIno D t)
    (hsizes : ft.sizes belowIno = fs.sizes belowIno) (hv : Valid (fs.sizes belowIno) D)
    (hr : Represents D files) (ino : Nat) :
    SameFile fs.toBlockStore s ft.toBlockStore t belowIno ino := by
  have hvt : Valid (ft.sizes belowIno) D := hsizes.symm ▸ hv
  rcases Nat.lt_or_ge ino D.ninodes with hino | hino
  · obtain ⟨size, s', he, rfl, -⟩ :=
      (Treedisk.outcome_getsize (E := fun _ _ => False) hs hv.sound hr hino).exists_ok
    obtain ⟨size, t', he', rfl, -⟩ :=
      (Treedisk.outcome_getsize (E := fun _ _ => False) ht hvt.sound hr hino).exists_ok
    refine ⟨⟨_, s', t', he, he'⟩, fun offset => ?_⟩
    obtain ⟨block, s', he, rfl, -⟩ :=
      (Treedisk.outcome_read (E := fun _ _ => False) hs hv.sound hr hino offset).exists_ok
    obtain ⟨block, t', he', rfl, -⟩ :=
      (Treedisk.outcome_read (E := fun _ _ => False) ht hvt.sound hr hino offset).exists_ok
    exact ⟨_, s', t', he, he'⟩
  · obtain ⟨s', he⟩ := getSnapshot_past hs hv hino
    obtain ⟨t', he'⟩ := getSnapshot_past ht hvt hino
    refine ⟨⟨-1, s', t', ?_, ?_⟩, fun offset => ⟨none, s', t', ?_, ?_⟩⟩
    · simp [treedisk, Treedisk.getsize, bind, EStateM.bind, he, pure, EStateM.pure]
    · simp [treedisk, Treedisk.getsize, bind, EStateM.bind, he', pure, EStateM.pure]
    · simp [treedisk, Treedisk.read, bind, EStateM.bind, he, pure, EStateM.pure]
    · simp [treedisk, Treedisk.read, bind, EStateM.bind, he', pure, EStateM.pure]

/-- **Durability through the storage stack.** A file system is created and used through
a cache of at least one slot. After a sync of any inode, a treedisk opened on the store
below alone gives the sizes and blocks that the stack gave before the sync. -/
theorem sync_durable (fs : FixedStore (Block g) σ) {belowIno : Nat} {s₀ : σ}
    (hg : fs.Good s₀) (hpos : 0 < fs.sizes belowIno) (hz : fs.view s₀ belowIno 0 = Block.zero)
    (blocks : Fin (n + 1) → Block g) {ninodes : Nat} (hni : ninodes < 2 ^ 32)
    {cs₁ cs₂ : State (Block g) σ (n + 1)}
    (hcreate : create (clockdisk fs.toBlockStore) belowIno ninodes (init s₀ blocks) = .ok 0 cs₁)
    (ops : List (Op g))
    (hops : ∀ op ∈ ops, op.Proper (inodeBlocks g ninodes * g.inodesPerBlock))
    (hrun : ops.forM (Op.perform (treedisk (clockdisk fs.toBlockStore) belowIno)) cs₁ =
      .ok ⟨⟩ cs₂) (syncIno : Nat) :
    ∃ r cs₃, (treedisk (clockdisk fs.toBlockStore) belowIno).sync syncIno cs₂ = .ok r cs₃ ∧
      ∀ ino, SameFile (clockdisk fs.toBlockStore) cs₂ fs.toBlockStore cs₃.below belowIno ino := by
  obtain ⟨hgood, hview⟩ := cachedStore_init fs hg blocks
  have hmir := create_mirrors (cachedStore fs (n + 1)) belowIno hgood hpos
    (by rw [hview]; exact hz) hni hcreate
  have hend := (run_mirrors hmir hops).ok hrun
  obtain ⟨r, cs₃, hsync, hgood₃, hview₃⟩ := cachedStore_sync fs hend.good belowIno
  refine ⟨r, cs₃, hsync, fun ino => ?_⟩
  have hflat : At fs belowIno ((cachedStore fs (n + 1)).view cs₂ belowIno) cs₃.below :=
    ⟨hgood₃, hview₃⟩
  exact sameFile_of_at hend.at_view hflat rfl hend.valid hend.represents ino

/-- The stack of `block_init` in the small geometry, with two cache slots. -/
def tinyStack : State (Block .tiny) (Ramdisk.State (Block .tiny)) 2 :=
  final (create (clockdisk tinyDisk.toBlockStore) 0 6 (init tinyBlank fun _ => Block.zero))

theorem sync_durable_tiny :
    ∃ r cs₃, (treedisk (clockdisk tinyDisk.toBlockStore) 0).sync 1
        (final (tinyOps.forM (Op.perform (treedisk (clockdisk tinyDisk.toBlockStore) 0)) tinyStack)) =
        .ok r cs₃ ∧
      ∀ ino, SameFile (clockdisk tinyDisk.toBlockStore)
        (final (tinyOps.forM (Op.perform (treedisk (clockdisk tinyDisk.toBlockStore) 0)) tinyStack))
        tinyDisk.toBlockStore cs₃.below 0 ino :=
  sync_durable tinyDisk tinyBlank_good (by decide) rfl (fun _ => Block.zero)
    (show 6 < 2 ^ 32 by decide) (eq_ok_of_returned (by decide +kernel)) tinyOps tinyOps_proper
    (eq_ok_of_returned (by decide +kernel)) 1

end Egos.Disk.Stack
