import Egos.Disk.Unixdisk.Addressing

/-!
# The two file systems

A treedisk has holes, a unixdisk has a block for every offset below the size. The two show
the same as long as the blocks that a unixdisk takes for the offsets between the old end of a
file and a new block are null blocks; what such a block held before is what the file shows.
-/
namespace Egos.Disk.Unixdisk

open Egos.Lib
open Treedisk (At Frame)

set_option autoImplicit false

variable {g : Geometry} {σ τ : Type} {D D' : Image g} {ino : Nat} {files : Files (Block g)}

/-- A write beyond the end of a file takes null blocks for the offsets in between. -/
def Op.BlankGap (D : Image g) : Op g → Prop
  | .write ino offset _ => ino < D.ninodes →
    ∀ l, FreeStack D D.nInodeblocks D.freeList D.freeOffset l →
      ∀ t, D.nblocks ino ≤ t → t < offset → ∀ b,
        l[blocksFor g.refsPerBlock (t + 1) - 1 - blocksFor g.refsPerBlock (D.nblocks ino)]? =
          some b → D (dataBlock D.nInodeblocks b) = Treedisk.Block.zero
  | .truncate _ => True
  | .read _ _ => True

/-- The files of the disk have the contents of the reference model. -/
structure Agrees (D : Image g) (files : Files (Block g)) : Prop where
  size : ∀ ino, ino < D.ninodes → D.nblocks ino = (files ino).size
  data : ∀ ino, ino < D.ninodes → ∀ t, t < D.nblocks ino →
    D.contents ino t = (files ino).data t
  blank : ∀ ino, (files ino).Blank Treedisk.Block.zero

theorem Agrees.shown (h : Agrees D files) (hino : ino < D.ninodes) (t : Nat) :
    D.shown ino t = (files ino).read t := by
  unfold Image.shown SparseFile.read
  rw [h.size ino hino]
  split
  · rename_i ht
    rw [h.data ino hino t (by rw [h.size ino hino]; exact ht)]
  · rfl

theorem Agrees.written {l : List Nat} {offset : Nat} {block : Block g} (h : Agrees D files)
    (hino : ino < D.ninodes) (hw : Written D D' l ino offset block)
    (hgap : ∀ t, D.nblocks ino ≤ t → t < offset → ∀ b,
      l[blocksFor g.refsPerBlock (t + 1) - 1 - blocksFor g.refsPerBlock (D.nblocks ino)]? =
        some b → D (dataBlock D.nInodeblocks b) = Treedisk.Block.zero) :
    ∀ t, t < D'.nblocks ino → D'.contents ino t = ((files ino).write offset block).data t := by
  intro t ht
  have hsize := hw.nblocks
  change _ = Function.update (files ino).data offset block t
  by_cases hoff : t = offset
  · rw [hoff, hw.block, Function.update_self]
  · rw [Function.update_of_ne hoff]
    by_cases hold : t < D.nblocks ino
    · rw [hw.kept t hold hoff, h.data ino hino t hold]
    · obtain ⟨b, hb, hc⟩ := hw.gap t (by omega) (by omega)
      rw [hc, hgap t (by omega) (by omega) b hb, h.blank ino t]
      rw [← h.size ino hino]
      omega

theorem apply_blank (h : ∀ ino, (files ino).Blank Treedisk.Block.zero) (op : Op g) (ino : Nat) :
    (op.apply files ino).Blank Treedisk.Block.zero := by
  cases op with
  | write i offset block =>
    by_cases hi : ino = i
    · rw [hi, Treedisk.Op.apply, Function.update_self]
      exact (h i).write offset block
    · rw [Treedisk.Op.apply, Function.update_of_ne hi]
      exact h ino
  | truncate i =>
    by_cases hi : ino = i
    · rw [hi, Treedisk.Op.apply, Function.update_self]
      exact SparseFile.blank_empty _
    · rw [Treedisk.Op.apply, Function.update_of_ne hi]
      exact h ino
  | read i offset => exact h ino

theorem Op.Effect.agrees {op : Op g} (he : op.Effect D D') (h : Agrees D files)
    (hgap : op.BlankGap D) : Agrees D' (op.apply files) := by
  have hni : D'.ninodes = D.ninodes := by
    unfold Image.ninodes
    rw [he.nInodeblocks]
  refine ⟨fun ino hino => he.sizes h.size (hni ▸ hino), fun ino hino t ht => ?_,
    apply_blank h.blank op⟩
  rw [hni] at hino
  cases op with
  | write i offset block =>
    rw [Op.Effect] at he
    by_cases hi : i < D.ninodes
    · rw [if_pos hi] at he
      obtain ⟨l, hstack, hw⟩ := he
      by_cases hself : ino = i
      · subst hself
        rw [Treedisk.Op.apply, Function.update_self]
        exact h.written hino hw (hgap hino l hstack) t ht
      · have hsame := hw.others ino hino hself
        rw [hsame.nblocks] at ht
        rw [hsame.contents t ht, Treedisk.Op.apply, Function.update_of_ne hself]
        exact h.data ino hino t ht
    · rw [if_neg hi] at he
      subst he
      have hne : ino ≠ i := by
        rintro rfl
        exact hi hino
      rw [Treedisk.Op.apply, Function.update_of_ne hne]
      exact h.data ino hino t ht
  | truncate i =>
    have htr : Truncated D D' i := he
    by_cases hself : ino = i
    · subst hself
      rw [htr.nblocks] at ht
      exact absurd ht (Nat.not_lt_zero t)
    · have hsame := htr.others ino hino hself
      rw [hsame.nblocks] at ht
      rw [hsame.contents t ht, Treedisk.Op.apply, Function.update_of_ne hself]
      exact h.data ino hino t ht
  | read i offset =>
    obtain rfl : D' = D := he
    exact h.data ino hino t ht

/-- **The two file systems agree.** Calls on valid inodes that stay below the triple indirect
range and that neither file system runs out of space on leave files of the same sizes and with
the same blocks, provided that every write beyond the end of a file takes null blocks for the
offsets in between. -/
theorem file_systems_agree (fs : FixedStore (Block g) σ) {s₀ s₁ : σ} (hg : fs.Good s₀)
    (hz : (fs.view s₀ 0 0).ref 0 = 0) {ninodes nDatablocks : Nat} {freeblock : Block g}
    (hsize : inodeBlocks g ninodes + 1 + nDatablocks = fs.sizes 0)
    (hcreate : create fs.toBlockStore 0 freeblock ninodes s₀ = .ok 0 s₁)
    (ft : FixedStore (Block g) τ) {belowIno : Nat} {t₀ t₁ t : τ} (hg' : ft.Good t₀)
    (hpos' : 0 < ft.sizes belowIno) (hz' : ft.view t₀ belowIno 0 = Treedisk.Block.zero)
    {ninodes' : Nat} (hni' : ninodes' < 2 ^ 32)
    (hcreate' : Treedisk.create ft.toBlockStore belowIno ninodes' t₀ = .ok 0 t₁)
    {ops : List (Op g)} (hops : Suits (inodeBlocks g ninodes) nDatablocks (Treedisk.filesAfter []) ops)
    (hproper : ∀ op ∈ ops, op.Proper
      (Treedisk.inodeBlocks g.toGeometry ninodes' * g.toGeometry.inodesPerBlock))
    (hrun' : ops.forM (Treedisk.Op.perform (Treedisk.treedisk ft.toBlockStore belowIno)) t₁ =
      .ok ⟨⟩ t)
    (hgap : ∀ done (op : Op g) rest s, ops = done ++ op :: rest →
      done.forM (Treedisk.Op.perform (unixdisk fs.toBlockStore)) s₁ = .ok ⟨⟩ s →
      op.BlankGap (fs.view s 0)) :
    ∃ s, ops.forM (Treedisk.Op.perform (unixdisk fs.toBlockStore)) s₁ = .ok ⟨⟩ s ∧
      ∀ ino, ino < inodeBlocks g ninodes * g.inodesPerBlock →
        ino < Treedisk.inodeBlocks g.toGeometry ninodes' * g.toGeometry.inodesPerBlock →
        (∃ r s' t', getsize fs.toBlockStore ino s = .ok r s' ∧
          Treedisk.getsize ft.toBlockStore belowIno ino t = .ok r t') ∧
        ∀ offset, ∃ r s' t', read fs.toBlockStore ino offset s = .ok r s' ∧
          Treedisk.read ft.toBlockStore belowIno ino offset t = .ok r t' := by
  have hs₁ := create_sized fs hg hz (by omega) hcreate
  have hstart : Agrees (fs.view s₁ 0) (Treedisk.filesAfter []) := by
    refine ⟨fun ino hino => hs₁.size ino (hs₁.ninodes ▸ hino), fun ino hino t ht => ?_,
      fun ino => SparseFile.blank_empty _⟩
    rw [hs₁.size ino (hs₁.ninodes ▸ hino)] at ht
    exact absurd ht (Nat.not_lt_zero t)
  obtain ⟨r, s, hrun, hs, hagrees⟩ := (run_sized hs₁ (by omega) hops
    (fun done D => Agrees D (Treedisk.filesAfter done)) hstart
    (fun done op rest s' D' he hdone _ hagrees heff => by
      unfold Treedisk.filesAfter
      rw [List.foldl_append]
      exact heff.agrees hagrees (hgap done op rest s' he hdone))).exists_ok
  have ht := (Treedisk.run_mirrors
    (Treedisk.create_mirrors ft belowIno hg' hpos' hz' hni' hcreate') hproper).ok hrun'
  obtain ⟨l, hv⟩ := hs.valid
  refine ⟨s, hrun, fun ino hino hino' => ⟨?_, fun offset => ?_⟩⟩
  · rw [← hs.ninodes] at hino
    rw [← ht.ninodes] at hino'
    obtain ⟨r, s', he, rfl, -⟩ := (outcome_getsize hs.at_view hv.inodes_lt hino).exists_ok
    obtain ⟨r, t', he', rfl, -⟩ :=
      (Treedisk.outcome_getsize ht.at_view ht.valid.sound ht.represents hino').exists_ok
    rw [hagrees.size ino hino] at he
    exact ⟨_, s', t', he, he'⟩
  · rw [← hs.ninodes] at hino
    rw [← ht.ninodes] at hino'
    obtain ⟨r, s', he, rfl, -⟩ := (outcome_read hs.at_view hv hino offset).exists_ok
    obtain ⟨r, t', he', rfl, -⟩ :=
      (Treedisk.outcome_read ht.at_view ht.valid.sound ht.represents hino' offset).exists_ok
    rw [hagrees.shown hino] at he
    exact ⟨_, s', t', he, he'⟩

theorem FreeStack.entries_prefix {nib h k : Nat} {l : List Nat} (hs : FreeStack D nib h k l)
    (hh : h ≠ noBlock) : entriesDown (D (dataBlock nib h)) k <+: l := by
  cases hs with
  | empty => exact absurd rfl hh
  | head hb _ _ _ =>
    rw [hb]
    exact List.prefix_append _ _

/-- Two files. The first one begins with a gap, which is filled in part, the other is truncated. -/
def gapOps : List (Op .small) :=
  [.write 0 2 marked, .write 3 0 Treedisk.Block.zero, .write 0 0 Treedisk.Block.zero, .truncate 3,
    .write 3 0 marked, .read 0 1]

theorem gapOps_suits : Suits (inodeBlocks .small 16) 23 (Treedisk.filesAfter []) gapOps := by
  decide +kernel

theorem gapOps_proper : ∀ op ∈ gapOps, op.Proper
    (Treedisk.inodeBlocks Geometry.small.toGeometry 16 *
      Geometry.small.toGeometry.inodesPerBlock) := by
  simp [gapOps, Treedisk.Op.Proper]
  decide

/-- The disk with no files yet. -/
def gapStart : Ramdisk.State (Block .small) :=
  final (create smallDisk.toBlockStore 0 Treedisk.Block.zero 16 smallBlank)

/-- The state of the treedisk after these calls. -/
def gapTree : Ramdisk.State (Block .small) :=
  final (gapOps.forM (Treedisk.Op.perform (Treedisk.treedisk smallDisk.toBlockStore 0))
    (final (Treedisk.create smallDisk.toBlockStore 0 16 smallBlank)))

theorem gapTree_run :
    gapOps.forM (Treedisk.Op.perform (Treedisk.treedisk smallDisk.toBlockStore 0))
      (final (Treedisk.create smallDisk.toBlockStore 0 16 smallBlank)) = .ok ⟨⟩ gapTree :=
  eq_ok_of_returned (by decide +kernel)

/-- No block that is listed in the first free-list block has been used. -/
theorem gapStart_blank : Op.BlankGap (smallDisk.view gapStart 0) (.write 0 2 marked) := by
  intro _ l hstack t _ ht b hb
  have hentries : ∀ b ∈ entriesDown (smallDisk.view gapStart 0 (dataBlock
      (Image.nInodeblocks (smallDisk.view gapStart 0)) (Image.freeList (smallDisk.view gapStart 0))))
        (Image.freeOffset (smallDisk.view gapStart 0)),
      smallDisk.view gapStart 0 (dataBlock (Image.nInodeblocks (smallDisk.view gapStart 0)) b) =
        Treedisk.Block.zero := by decide +kernel
  have hlength : 2 ≤ (entriesDown (smallDisk.view gapStart 0 (dataBlock
      (Image.nInodeblocks (smallDisk.view gapStart 0)) (Image.freeList (smallDisk.view gapStart 0))))
        (Image.freeOffset (smallDisk.view gapStart 0))).length := by decide +kernel
  have hsize : Image.nblocks (smallDisk.view gapStart 0) 0 = 0 := by decide +kernel
  have hplace : blocksFor Geometry.small.refsPerBlock (t + 1) - 1 -
      blocksFor Geometry.small.refsPerBlock (Image.nblocks (smallDisk.view gapStart 0) 0) = t := by
    rw [hsize]
    interval_cases t <;> decide
  obtain ⟨rest, rfl⟩ := hstack.entries_prefix (by decide +kernel)
  rw [hplace, List.getElem?_append_left (by omega)] at hb
  exact hentries b (List.mem_of_getElem? hb)

/-- All writes behind the first one are at offset 0. -/
theorem gapOps_blank {op : Op .small} (h : op ∈ gapOps.tail) (D : Image .small) :
    op.BlankGap D := by
  simp only [gapOps, List.tail_cons, List.mem_cons, List.not_mem_nil, or_false] at h
  rcases h with rfl | rfl | rfl | rfl | rfl
  all_goals first | trivial | exact fun _ _ _ t _ ht => absurd ht (Nat.not_lt_zero t)

theorem file_systems_agree_small :
    ∃ s, gapOps.forM (Treedisk.Op.perform (unixdisk smallDisk.toBlockStore)) gapStart = .ok ⟨⟩ s ∧
      ∀ ino, ino < inodeBlocks .small 16 * Geometry.small.inodesPerBlock →
        ino < Treedisk.inodeBlocks Geometry.small.toGeometry 16 *
          Geometry.small.toGeometry.inodesPerBlock →
        (∃ r s' t', getsize smallDisk.toBlockStore ino s = .ok r s' ∧
          Treedisk.getsize smallDisk.toBlockStore 0 ino gapTree = .ok r t') ∧
        ∀ offset, ∃ r s' t', read smallDisk.toBlockStore ino offset s = .ok r s' ∧
          Treedisk.read smallDisk.toBlockStore 0 ino offset gapTree = .ok r t' := by
  have hgood : smallDisk.Good smallBlank := rfl
  have hsize : inodeBlocks .small 16 + 1 + 23 = smallDisk.sizes 0 := by decide
  have hcreate : create smallDisk.toBlockStore 0 Treedisk.Block.zero 16 smallBlank =
      .ok 0 gapStart := eq_ok_of_returned (by decide +kernel)
  have hcreate' : Treedisk.create smallDisk.toBlockStore 0 16 smallBlank =
      .ok 0 (final (Treedisk.create smallDisk.toBlockStore 0 16 smallBlank)) :=
    eq_ok_of_returned (by decide +kernel)
  refine file_systems_agree smallDisk hgood rfl hsize hcreate smallDisk hgood
    (by decide) rfl (show 16 < 2 ^ 32 by decide) hcreate' gapOps_suits gapOps_proper
    gapTree_run fun done op rest s he hdone => ?_
  cases done with
  | nil =>
    obtain ⟨rfl, -⟩ := List.cons_eq_cons.mp he
    cases hdone
    exact gapStart_blank
  | cons first done =>
    refine gapOps_blank ?_ _
    rw [he]
    exact List.mem_append_right _ List.mem_cons_self

/-- A file is written, truncated and then written at offset 1. Offset 0 is below the size and
was not written since: it reads as the null block in a treedisk, and in a unixdisk as the block
of the deleted contents. -/
theorem truncated_block_shows :
    returned ((do
      discard (create smallDisk.toBlockStore 0 Treedisk.Block.zero 16)
      discard (write smallDisk.toBlockStore 0 0 marked)
      discard (setsize smallDisk.toBlockStore 0 0)
      discard (write smallDisk.toBlockStore 0 1 Treedisk.Block.zero)
      let size ← getsize smallDisk.toBlockStore 0
      let block ← read smallDisk.toBlockStore 0 0
      return (size, block == some marked, block == some Treedisk.Block.zero)) smallBlank) =
        some (2, true, false) ∧
    returned ((do
      discard (Treedisk.create smallDisk.toBlockStore 0 16)
      discard (Treedisk.write smallDisk.toBlockStore 0 0 0 marked)
      discard (Treedisk.setsize smallDisk.toBlockStore 0 0 0)
      discard (Treedisk.write smallDisk.toBlockStore 0 0 1 Treedisk.Block.zero)
      let size ← Treedisk.getsize smallDisk.toBlockStore 0 0
      let block ← Treedisk.read smallDisk.toBlockStore 0 0 0
      return (size, block == some marked, block == some Treedisk.Block.zero)) smallBlank) =
        some (2, false, true) := by
  decide +kernel

end Egos.Disk.Unixdisk
