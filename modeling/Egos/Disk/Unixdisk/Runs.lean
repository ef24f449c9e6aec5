import Egos.Disk.Treedisk.Runs
import Egos.Disk.Unixdisk.Calls
import Egos.Disk.Unixdisk.Create

/-!
# Runs of a unixdisk

Any calls on a created file system leave every data block in one place, as long as no write
reaches the triple indirect block and the data blocks suffice for the files. What a call does
to the disk is said once, in `Effect`.
-/
namespace Egos.Disk.Unixdisk

open Egos.Lib
open Treedisk (At Frame)

set_option autoImplicit false

variable {g : Geometry} {σ : Type} {D D' : Image g} {n ino : Nat} {l l' : List Nat}

/-- The calls of a run, the same as for a treedisk. -/
abbrev Op (g : Geometry) := Treedisk.Op g.toGeometry

namespace Op

/-- Writes stay below the triple indirect range; a truncation needs an inode that exists. -/
def Small (ninodes : Nat) : Op g → Prop
  | .write ino offset _ => ino < ninodes → offset < 12 + g.refsPerBlock + g.epb2
  | .truncate ino => ino < ninodes
  | .read _ _ => True

/-- The data blocks suffice for the files after the call. -/
def Fits (ninodes nDatablocks : Nat) (files : Files (Block g)) (op : Op g) : Prop :=
  ∑ ino ∈ Finset.range ninodes, blocksFor g.refsPerBlock (op.apply files ino).size ≤ nDatablocks

instance (ninodes : Nat) : (op : Op g) → Decidable (op.Small ninodes)
  | .write ino offset _ => inferInstanceAs (Decidable (ino < ninodes → offset < _))
  | .truncate ino => inferInstanceAs (Decidable (ino < ninodes))
  | .read _ _ => .isTrue trivial

instance (ninodes nDatablocks : Nat) (files : Files (Block g)) (op : Op g) :
    Decidable (op.Fits ninodes nDatablocks files) :=
  inferInstanceAs (Decidable (_ ≤ _))

/-- What a call does to the disk. -/
def Effect (D D' : Image g) : Op g → Prop
  | .write ino offset block =>
    if ino < D.ninodes then
      ∃ l, FreeStack D D.nInodeblocks D.freeList D.freeOffset l ∧ Written D D' l ino offset block
    else D' = D
  | .truncate ino => Truncated D D' ino
  | .read _ _ => D' = D

end Op

/-- A file system between two calls; the sizes of its files are those of `files`. -/
structure Sized (fs : FixedStore (Block g) σ) (nib : Nat) (files : Files (Block g)) (s : σ) :
    Prop where
  good : fs.Good s
  valid : ∃ l, Valid (fs.sizes 0) (fs.view s 0) l
  nInodeblocks : Image.nInodeblocks (fs.view s 0) = nib
  size : ∀ ino, ino < nib * g.inodesPerBlock →
    Image.nblocks (fs.view s 0) ino = (files ino).size

section

variable {fs : FixedStore (Block g) σ} {nib : Nat} {files : Files (Block g)} {s : σ}
  {E : Stop → σ → Prop}

theorem Sized.at_view (h : Sized fs nib files s) : At fs 0 (fs.view s 0) s := ⟨h.good, rfl⟩

theorem Sized.ninodes (h : Sized fs nib files s) :
    Image.ninodes (fs.view s 0) = nib * g.inodesPerBlock := by
  unfold Image.ninodes
  rw [h.nInodeblocks]

/-- Where the data blocks suffice for the files, a write has room. -/
theorem Valid.hasRoom (hv : Valid n D l) {offset : Nat} {block : Block g}
    (hsize : ∀ ino, ino < D.ninodes → D.nblocks ino = (files ino).size)
    (hino : ino < D.ninodes)
    (hfits : Op.Fits D.ninodes (n - 1 - D.nInodeblocks) files (.write ino offset block)) :
    HasRoom D l ino offset := by
  have hmem := Finset.mem_range.mpr hino
  have hcard := congrArg Multiset.card hv.total
  rw [Multiset.card_add, Multiset.coe_card, Multiset.card_sum, Multiset.card_range,
    ← Finset.add_sum_erase _ _ hmem, Multiset.coe_card, Image.fileBlocks_length] at hcard
  unfold Op.Fits at hfits
  rw [← Finset.add_sum_erase _ _ hmem] at hfits
  have hself : ((Treedisk.Op.write ino offset block).apply files ino).size =
      max (files ino).size (offset + 1) := by
    rw [Treedisk.Op.apply, Function.update_self]
    rfl
  have hrest : ∑ i ∈ (Finset.range D.ninodes).erase ino,
      blocksFor g.refsPerBlock ((Treedisk.Op.write ino offset block).apply files i).size =
      ∑ i ∈ (Finset.range D.ninodes).erase ino,
        Multiset.card (D.fileBlocks i : Multiset Nat) := by
    apply Finset.sum_congr rfl
    intro i hi
    obtain ⟨hne, hlt⟩ := Finset.mem_erase.mp hi
    rw [Treedisk.Op.apply, Function.update_of_ne hne, Multiset.coe_card, Image.fileBlocks_length,
      hsize i (Finset.mem_range.mp hlt)]
  rw [hself, hrest] at hfits
  have hmono := blocksFor_mono g.refsPerBlock
    (show offset + 1 ≤ max (files ino).size (offset + 1) by omega)
  unfold HasRoom
  omega

theorem Op.Effect.nInodeblocks {op : Op g} (he : op.Effect D D') :
    D'.nInodeblocks = D.nInodeblocks := by
  cases op with
  | write i offset block =>
    rw [Op.Effect] at he
    split at he
    · obtain ⟨l, -, hw⟩ := he
      exact hw.nInodeblocks
    · rw [he]
  | truncate i => exact Truncated.nInodeblocks he
  | read i offset =>
    obtain rfl : D' = D := he
    rfl

theorem Op.Effect.sizes {op : Op g} (he : op.Effect D D')
    (hsize : ∀ ino, ino < D.ninodes → D.nblocks ino = (files ino).size) (hino : ino < D.ninodes) :
    D'.nblocks ino = (op.apply files ino).size := by
  cases op with
  | write i offset block =>
    rw [Op.Effect] at he
    split at he
    · obtain ⟨l, -, hw⟩ := he
      by_cases hi : ino = i
      · subst hi
        rw [hw.nblocks, hsize ino hino, Treedisk.Op.apply, Function.update_self]
        rfl
      · rw [(hw.others ino hino hi).nblocks, hsize ino hino, Treedisk.Op.apply,
          Function.update_of_ne hi]
    · rename_i hi
      subst he
      have hne : ino ≠ i := by
        rintro rfl
        exact hi hino
      rw [hsize ino hino, Treedisk.Op.apply, Function.update_of_ne hne]
  | truncate i =>
    by_cases hi : ino = i
    · subst hi
      rw [he.nblocks, Treedisk.Op.apply, Function.update_self]
      rfl
    · rw [(he.others ino hino hi).nblocks, hsize ino hino, Treedisk.Op.apply,
        Function.update_of_ne hi]
  | read i offset =>
    obtain rfl : D' = D := he
    exact hsize ino hino

theorem Sized.of_effect {s' : σ} (h : Sized fs nib files s) (op : Op g) (h' : At fs 0 D' s')
    (hv : ∃ l, Valid (fs.sizes 0) D' l) (he : op.Effect (fs.view s 0) D') :
    Sized fs nib (op.apply files) s' ∧ op.Effect (fs.view s 0) (fs.view s' 0) := by
  obtain ⟨hg, rfl⟩ := h'
  have hsize := h.size
  rw [← h.ninodes] at hsize
  refine ⟨⟨hg, hv, he.nInodeblocks.trans h.nInodeblocks, fun ino hino => ?_⟩, he⟩
  rw [← h.ninodes] at hino
  exact he.sizes hsize hino

theorem Sized.hasRoom {offset : Nat} {block : Block g} (h : Sized fs nib files s)
    (hv : Valid (fs.sizes 0) (fs.view s 0) l) (hino : ino < nib * g.inodesPerBlock)
    (hfits : Op.Fits (nib * g.inodesPerBlock) (fs.sizes 0 - 1 - nib) files
      (.write ino offset block)) : HasRoom (fs.view s 0) l ino offset := by
  have hsize := h.size
  rw [← h.nInodeblocks] at hfits
  rw [← h.ninodes] at hino hsize
  exact hv.hasRoom hsize hino hfits

theorem Sized.outcome_write {offset : Nat} (h : Sized fs nib files s)
    (hino : ino < nib * g.inodesPerBlock) (hoff : offset < 12 + g.refsPerBlock + g.epb2)
    (block : Block g)
    (hfits : Op.Fits (nib * g.inodesPerBlock) (fs.sizes 0 - 1 - nib) files
      (.write ino offset block)) :
    Outcome (write fs.toBlockStore ino offset block)
      (fun r s' => r = 0 ∧ Sized fs nib ((Treedisk.Op.write ino offset block).apply files) s' ∧
        Op.Effect (fs.view s 0) (fs.view s' 0) (.write ino offset block)) E s := by
  obtain ⟨l, hv⟩ := h.valid
  have hroom := h.hasRoom hv hino hfits
  rw [← h.ninodes] at hino
  apply (Unixdisk.outcome_write h.at_view hv hino hoff hroom block).post
  rintro _ s' ⟨rfl, D', l', h', hv', hw⟩
  refine ⟨rfl, h.of_effect (.write ino offset block) h' ⟨l', hv'⟩ ?_⟩
  rw [Op.Effect, if_pos hino]
  exact ⟨l, hv.stack, hw⟩

theorem perform_sized (h : Sized fs nib files s) {op : Op g}
    (hp : op.Small (nib * g.inodesPerBlock))
    (hfits : op.Fits (nib * g.inodesPerBlock) (fs.sizes 0 - 1 - nib) files) :
    Outcome (op.perform (unixdisk fs.toBlockStore))
      (fun _ s' => Sized fs nib (op.apply files) s' ∧
        op.Effect (fs.view s 0) (fs.view s' 0)) E s := by
  obtain ⟨l, hv⟩ := h.valid
  have hat := h.at_view
  cases op with
  | write ino offset block =>
    by_cases hino : ino < nib * g.inodesPerBlock
    · apply Outcome.seq (h.outcome_write hino (hp hino) block hfits)
      rintro r s' ⟨-, hs'⟩
      exact hs'
    · rw [← h.ninodes] at hino
      apply Outcome.seq (outcome_write_none hat hv.inodes_lt hino block)
      rintro r s' ⟨-, h'⟩
      have he : Op.Effect (fs.view s 0) (fs.view s 0) (.write ino offset block) := by
        rw [Op.Effect, if_neg hino]
      exact h.of_effect _ h' ⟨l, hv⟩ he
  | truncate ino =>
    apply Outcome.seq (outcome_truncate hat hv (by rw [h.ninodes]; exact hp))
    rintro r s' ⟨-, D', l', h', hv', ht⟩
    exact h.of_effect (.truncate ino) h' ⟨l', hv'⟩ ht
  | read ino offset =>
    have hread : Outcome (read fs.toBlockStore ino offset)
        (fun _ s' => At fs 0 (fs.view s 0) s') E s := by
      by_cases hino : ino < Image.ninodes (fs.view s 0)
      · exact (outcome_read hat hv hino offset).post fun _ _ hr => hr.2
      · exact (outcome_read_none hat hv.inodes_lt hino).post fun _ _ hr => hr.2
    apply Outcome.seq hread
    intro r s' h'
    exact h.of_effect (.read ino offset) h' ⟨l, hv⟩ rfl

/-- Calls of which each finds room, from files of the given sizes on. -/
def Suits (nib nDatablocks : Nat) : Files (Block g) → List (Op g) → Prop
  | _, [] => True
  | files, op :: rest =>
    (Op.Small (nib * g.inodesPerBlock) op ∧ Op.Fits (nib * g.inodesPerBlock) nDatablocks files op) ∧
      Suits nib nDatablocks (op.apply files) rest

instance decidableSuits (nib nDatablocks : Nat) (files : Files (Block g)) (ops : List (Op g)) :
    Decidable (Suits nib nDatablocks files ops) :=
  match ops with
  | [] => .isTrue trivial
  | op :: rest =>
    have := decidableSuits nib nDatablocks (op.apply files) rest
    inferInstanceAs (Decidable (_ ∧ Suits nib nDatablocks (op.apply files) rest))

theorem Suits.at_call {N : Nat} {done rest : List (Op g)} {op : Op g}
    (h : Suits nib N files (done ++ op :: rest)) :
    Op.Small (nib * g.inodesPerBlock) op ∧
      Op.Fits (nib * g.inodesPerBlock) N (done.foldl Treedisk.Op.apply files) op := by
  induction done generalizing files with
  | nil => exact h.1
  | cons first done ih => exact ih h.2

theorem run_sized {N : Nat} (h : Sized fs nib (Treedisk.filesAfter []) s)
    (hN : fs.sizes 0 - 1 - nib = N) {ops : List (Op g)}
    (hops : Suits nib N (Treedisk.filesAfter []) ops)
    (Inv : List (Op g) → Image g → Prop) (hinv : Inv [] (fs.view s 0))
    (hstep : ∀ done (op : Op g) rest (s' : σ) (D' : Image g), ops = done ++ op :: rest →
      done.forM (Treedisk.Op.perform (unixdisk fs.toBlockStore)) s = .ok ⟨⟩ s' →
      Sized fs nib (Treedisk.filesAfter done) s' → Inv done (fs.view s' 0) →
      op.Effect (fs.view s' 0) D' → Inv (done ++ [op]) D') :
    Outcome (ops.forM (Treedisk.Op.perform (unixdisk fs.toBlockStore)))
      (fun _ s' => Sized fs nib (Treedisk.filesAfter ops) s' ∧ Inv ops (fs.view s' 0)) E s := by
  have hrun : Outcome (ops.forM (Treedisk.Op.perform (unixdisk fs.toBlockStore)))
      (fun _ s' => ops.forM (Treedisk.Op.perform (unixdisk fs.toBlockStore)) s = .ok ⟨⟩ s' ∧
        Sized fs nib (Treedisk.filesAfter ops) s' ∧ Inv ops (fs.view s' 0)) E s := by
    apply Outcome.forM (fun done s' =>
      done.forM (Treedisk.Op.perform (unixdisk fs.toBlockStore)) s = .ok ⟨⟩ s' ∧
        Sized fs nib (Treedisk.filesAfter done) s' ∧ Inv done (fs.view s' 0)) ⟨rfl, h, hinv⟩
    rintro done op rest he s' ⟨hdone, hsized, hi⟩
    rw [he, ← hN] at hops
    obtain ⟨hsmall, hfits⟩ := hops.at_call
    obtain ⟨r, s₁, hok, hs₁, heff⟩ := (perform_sized hsized hsmall hfits).exists_ok
    apply Outcome.of_ok hok
    refine ⟨?_, ?_, hstep done op rest s' _ he hdone hsized hi heff⟩
    · exact forM_concat hdone hok
    · unfold Treedisk.filesAfter
      rw [List.foldl_append]
      exact hs₁
  exact hrun.post fun _ _ hr => hr.2

theorem Created.sized {nib : Nat} (hc : Created (fs.sizes 0) nib (fs.view s 0)) (hg : fs.Good s)
    (hlt : nib < fs.sizes 0) : Sized fs nib (Treedisk.filesAfter []) s := by
  obtain ⟨l, hstack, hperm⟩ := hc.stack
  have hnib := hc.inodeblocks
  have hempty : ∀ ino, ino < Image.ninodes (fs.view s 0) →
      Image.nblocks (fs.view s 0) ino = 0 := by
    intro ino hino
    have hblock := hc.cleared _ (inodeBlockno_pos (fs.view s 0) ino) (by
      rw [← hnib]
      exact inodeBlockno_le hino)
    change (fs.view s 0 (Image.inodeBlockno (fs.view s 0) ino)).ref _ = 0
    rw [hblock, Treedisk.Block.ref_zero]
  refine ⟨hg, ⟨l, ?_, ?_, ?_, ?_⟩, hnib, ?_⟩
  · rw [hnib]
    exact hstack
  · have hfiles : ∑ ino ∈ Finset.range (Image.ninodes (fs.view s 0)),
        (Image.fileBlocks (fs.view s 0) ino : Multiset Nat) = 0 := by
      apply Finset.sum_eq_zero
      intro ino hino
      rw [Image.fileBlocks, hempty ino (Finset.mem_range.mp hino)]
      rfl
    rw [hfiles, add_zero, hnib]
    exact Multiset.coe_eq_coe.mpr hperm
  · rw [hnib]
    exact hlt
  · intro ino hino
    rw [hempty ino hino]
    exact Nat.zero_le _
  · intro ino hino
    rw [hempty ino (by unfold Image.ninodes; rw [hnib]; exact hino)]
    rfl

/-- `unixdisk_create` returns 0 on a blank store just if it made a file system. -/
theorem create_sized (fs : FixedStore (Block g) σ) {s₀ s₁ : σ} (hg : fs.Good s₀)
    (hz : (fs.view s₀ 0 0).ref 0 = 0) {ninodes : Nat} {freeblock : Block g}
    (hroom : inodeBlocks g ninodes < fs.sizes 0)
    (hcreate : create fs.toBlockStore 0 freeblock ninodes s₀ = .ok 0 s₁) :
    Sized fs (inodeBlocks g ninodes) (Treedisk.filesAfter []) s₁ := by
  have h : At fs 0 (fs.view s₀ 0) s₀ := ⟨hg, rfl⟩
  by_cases hrem : (fs.sizes 0 - 1 - inodeBlocks g ninodes) % (g.entriesPerFreeBlock + 1) = 0
  · exact ((create_undefined h hz freeblock hroom hrem).ok hcreate).elim
  · obtain ⟨-, D', ⟨hg', rfl⟩, hc⟩ :=
      (outcome_create (E := fun _ _ => False) h hz freeblock hroom hrem).ok hcreate
    exact hc.sized hg' hroom

end

/-- With a remainder a blank store is accepted. -/
theorem create_returns (fs : FixedStore (Block g) σ) {s₀ : σ} (hg : fs.Good s₀)
    (hz : (fs.view s₀ 0 0).ref 0 = 0) {ninodes nDatablocks : Nat} (freeblock : Block g)
    (hsize : inodeBlocks g ninodes + 1 + nDatablocks = fs.sizes 0)
    (hrem : nDatablocks % (g.entriesPerFreeBlock + 1) ≠ 0) :
    ∃ s₁, create fs.toBlockStore 0 freeblock ninodes s₀ = .ok 0 s₁ := by
  have h : At fs 0 (fs.view s₀ 0) s₀ := ⟨hg, rfl⟩
  have hN : fs.sizes 0 - 1 - inodeBlocks g ninodes = nDatablocks := by omega
  have hpos : nDatablocks ≠ 0 := by
    rintro rfl
    exact hrem (Nat.zero_mod _)
  obtain ⟨r, s₁, he, rfl, -⟩ :=
    (outcome_create h hz freeblock (show inodeBlocks g ninodes < fs.sizes 0 by omega)
      (by rw [hN]; exact hrem)).exists_ok
  exact ⟨s₁, he⟩

/-- **Conservation of the free list.** After any calls that keep to the data blocks and stay
below the triple indirect range, the free stack, of which all blocks after the head are full,
and the data and indirect blocks of all files have every data block once. -/
theorem free_list_conserved (fs : FixedStore (Block g) σ) {s₀ : σ} (hg : fs.Good s₀)
    (hz : (fs.view s₀ 0 0).ref 0 = 0) {ninodes nDatablocks : Nat} (freeblock : Block g)
    (hsize : inodeBlocks g ninodes + 1 + nDatablocks = fs.sizes 0)
    (hrem : nDatablocks % (g.entriesPerFreeBlock + 1) ≠ 0) {ops : List (Op g)}
    (hops : Suits (inodeBlocks g ninodes) nDatablocks (Treedisk.filesAfter []) ops) :
    ∃ s₁ s l, create fs.toBlockStore 0 freeblock ninodes s₀ = .ok 0 s₁ ∧
      ops.forM (Treedisk.Op.perform (unixdisk fs.toBlockStore)) s₁ = .ok ⟨⟩ s ∧
      FreeStack (fs.view s 0) (inodeBlocks g ninodes) (Image.freeList (fs.view s 0))
        (Image.freeOffset (fs.view s 0)) l ∧
      (l : Multiset Nat) + ∑ ino ∈ Finset.range (inodeBlocks g ninodes * g.inodesPerBlock),
        ((Image.dataBlocks (fs.view s 0) ino ++ Image.indirectBlocks (fs.view s 0) ino :
          List Nat) : Multiset Nat) = Multiset.range nDatablocks := by
  have hN : fs.sizes 0 - 1 - inodeBlocks g ninodes = nDatablocks := by omega
  have hpos : nDatablocks ≠ 0 := by
    rintro rfl
    exact hrem (Nat.zero_mod _)
  obtain ⟨s₁, hcreate⟩ := create_returns fs hg hz freeblock hsize hrem
  have hs₁ := create_sized fs hg hz (by omega) hcreate
  obtain ⟨r, s, hrun, hs, -⟩ :=
    (run_sized hs₁ hN hops (fun _ _ => True) trivial fun _ _ _ _ _ _ _ _ _ _ => trivial).exists_ok
  obtain ⟨l, hv⟩ := hs.valid
  refine ⟨s₁, s, l, hcreate, hrun, ?_, ?_⟩
  · rw [← hs.nInodeblocks]
    exact hv.stack
  · rw [← hN, ← hs.ninodes, ← hs.nInodeblocks, ← hv.total]
    congr 1
    apply Finset.sum_congr rfl
    intro ino _
    exact Multiset.coe_eq_coe.mpr (Image.fileBlocks_perm _ ino).symm

/-- Two files, one of them with a single indirect block and truncated in the end. -/
def smallOps : List (Op .small) :=
  [.write 0 2 Treedisk.Block.zero, .write 3 14 (Treedisk.Block.zero.setRef 0 7), .write 0 1
    Treedisk.Block.zero, .truncate 3]

theorem free_list_conserved_small :
    ∃ s₁ s l, create smallDisk.toBlockStore 0 Treedisk.Block.zero 16 smallBlank = .ok 0 s₁ ∧
      smallOps.forM (Treedisk.Op.perform (unixdisk smallDisk.toBlockStore)) s₁ = .ok ⟨⟩ s ∧
      FreeStack (smallDisk.view s 0) 16 (Image.freeList (smallDisk.view s 0))
        (Image.freeOffset (smallDisk.view s 0)) l ∧
      (l : Multiset Nat) + ∑ ino ∈ Finset.range (16 * Geometry.small.inodesPerBlock),
        ((Image.dataBlocks (smallDisk.view s 0) ino ++ Image.indirectBlocks (smallDisk.view s 0) ino :
          List Nat) : Multiset Nat) = Multiset.range 23 :=
  free_list_conserved smallDisk (show smallDisk.Good smallBlank from rfl) rfl Treedisk.Block.zero
    (show inodeBlocks .small 16 + 1 + 23 = smallDisk.sizes 0 by decide) (by decide)
    (show Suits (inodeBlocks .small 16) 23 (Treedisk.filesAfter []) smallOps by decide +kernel)

end Egos.Disk.Unixdisk
