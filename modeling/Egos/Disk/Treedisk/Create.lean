import Mathlib.Algebra.BigOperators.Intervals
import Egos.Disk.Treedisk.Calls

/-!
# Creating a file system

`treedisk_create` on a store without one puts every block behind the inode blocks on
the free list and clears the inodes, so that all files are empty.
-/
namespace Egos.Disk.Treedisk

open Egos.Lib

set_option autoImplicit false

variable {g : Geometry} {σ : Type} {D : Image g} {fs : FixedStore (Block g) σ}
  {belowIno : Nat} {s : σ}

/-- The slots that `setup_freelist` fills refer to the next blocks, as far as there
are any. -/
theorem fillRefs_spec (nblocks left nextFree : Nat) (data : Block g)
    (hleft : left ≤ g.refsPerBlock) (hn : nextFree ≤ nblocks) :
    nextFree ≤ (fillRefs nblocks left nextFree data).2 ∧
      (fillRefs nblocks left nextFree data).2 ≤ nblocks ∧
      (∀ i, i < g.refsPerBlock - left →
        (fillRefs nblocks left nextFree data).1.ref i = data.ref i) ∧
      (0 < nextFree → ∑ i ∈ Finset.Ico (g.refsPerBlock - left) g.refsPerBlock,
          single ((fillRefs nblocks left nextFree data).1.ref i) =
        ∑ b ∈ Finset.Ico nextFree (fillRefs nblocks left nextFree data).2, {b}) := by
  induction left generalizing nextFree data with
  | zero => simp [fillRefs, hn]
  | succ left ih =>
    have hslot : g.refsPerBlock - (left + 1) < g.refsPerBlock := by omega
    have hnext : g.refsPerBlock - (left + 1) + 1 = g.refsPerBlock - left := by omega
    unfold fillRefs
    split
    · rename_i hlt
      obtain ⟨h1, h2, h3, h4⟩ := ih (nextFree + 1)
        (data.setRef (g.refsPerBlock - (left + 1)) nextFree) (by omega) (by omega)
      refine ⟨by omega, h2, fun i hi => ?_, fun hpos => ?_⟩
      · rw [h3 i (by omega), Block.ref_setRef hslot, if_neg (by omega)]
      · rw [Finset.sum_eq_sum_Ico_succ_bot hslot, hnext, h4 (by omega), h3 _ (by omega),
          Block.ref_setRef hslot, if_pos rfl, single_of_ne (by omega),
          Finset.sum_eq_sum_Ico_succ_bot (show nextFree < _ by omega)]
    · rename_i hge
      obtain ⟨h1, h2, h3, h4⟩ := ih nextFree
        (data.setRef (g.refsPerBlock - (left + 1)) 0) (by omega) hn
      refine ⟨h1, h2, fun i hi => ?_, fun hpos => ?_⟩
      · rw [h3 i (by omega), Block.ref_setRef hslot, if_neg (by omega)]
      · rw [Finset.sum_eq_sum_Ico_succ_bot hslot, hnext, h4 hpos, h3 _ (by omega),
          Block.ref_setRef hslot, if_pos rfl, single_zero, zero_add]

theorem outcome_setupFreelistLoop (start : Nat) {nblocks : Nat} (hs : 0 < start)
    (hn : nblocks = fs.sizes belowIno) (rounds : Nat) {nextFree freelistBlock : Nat}
    (h : At fs belowIno D s) (hr : nblocks ≤ nextFree + rounds) (hle : nextFree ≤ nblocks)
    (hstart : start ≤ nextFree)
    (hfree : Free D freelistBlock (∑ b ∈ Finset.Ico start nextFree, {b})) {E : Stop → σ → Prop} :
    Outcome (setupFreelistLoop fs.toBlockStore belowIno nblocks rounds nextFree freelistBlock)
      (fun b s' => ∃ D', At fs belowIno D' s' ∧ Free D' b (∑ b ∈ Finset.Ico start nblocks, {b}) ∧
        ∀ x, x < start → D' x = D x) E s := by
  induction rounds generalizing D s nextFree freelistBlock with
  | zero =>
    obtain rfl : nextFree = nblocks := by omega
    exact ⟨D, h, hfree, fun _ _ => rfl⟩
  | succ rounds ih =>
    unfold setupFreelistLoop
    split
    · rename_i hlt
      have h4 := g.four_le_refs
      have hspec := fillRefs_spec (g := g) nblocks (g.refsPerBlock - 1) (nextFree + 1)
        (Block.zero.setRef 0 freelistBlock) (by omega) (by omega)
      generalize fillRefs nblocks (g.refsPerBlock - 1) (nextFree + 1)
        (Block.zero.setRef 0 freelistBlock : Block g) = filled at hspec ⊢
      obtain ⟨data, next⟩ := filled
      obtain ⟨h1, h2, h3, hsum⟩ := hspec
      dsimp only at h1 h2 h3 hsum ⊢
      have hslots : slots data = ∑ b ∈ Finset.Ico (nextFree + 1) next, {b} := by
        have hone : g.refsPerBlock - (g.refsPerBlock - 1) = 1 := by omega
        rw [hone] at hsum
        exact hsum (by omega)
      have hlink : data.ref 0 = freelistBlock := by
        rw [h3 0 (by omega), Block.ref_setRef (by omega), if_pos rfl]
      rw [Outcome.bind_iff]
      refine h.outcome_mustWrite (by omega) _ _ (fun s₁ h₁ => ?_)
      have hself : Function.update D nextFree data nextFree = data := Function.update_self _ _ _
      have hrest : Free (Function.update D nextFree data) freelistBlock
          (∑ b ∈ Finset.Ico start nextFree, {b}) := by
        refine hfree.congr (fun x hx => Function.update_of_ne (fun he => ?_) _ _)
        rw [Finset.sum_multiset_singleton, Finset.mem_val, Finset.mem_Ico] at hx
        omega
      have hcons := Free.cons (D := Function.update D nextFree data) (b := nextFree) (by omega)
        (by rw [hself, hlink]; exact hrest)
      have hall : nextFree ::ₘ (∑ b ∈ Finset.Ico (nextFree + 1) next, {b} +
          ∑ b ∈ Finset.Ico start nextFree, {b}) = ∑ b ∈ Finset.Ico start next, {b} := by
        rw [← Finset.sum_Ico_consecutive _ hstart (show nextFree ≤ next by omega),
          Finset.sum_eq_sum_Ico_succ_bot (show nextFree < next by omega), ← Multiset.singleton_add,
          ← add_assoc, add_comm]
      rw [hself, hslots, hall] at hcons
      refine (ih h₁ (by omega) h2 (by omega) hcons).post ?_
      rintro b s' ⟨D', h', hfree', hkeep⟩
      refine ⟨D', h', hfree', fun x hx => ?_⟩
      rw [hkeep x hx, Function.update_of_ne (by omega)]
    · obtain rfl : nextFree = nblocks := by omega
      exact ⟨D, h, hfree, fun _ _ => rfl⟩

theorem outcome_clearInodes (left : Nat) {i : Nat} (h : At fs belowIno D s)
    (hn : i + left ≤ fs.sizes belowIno) {E : Stop → σ → Prop} :
    Outcome (clearInodes fs.toBlockStore belowIno left i)
      (fun r s' => r = 0 ∧ ∃ D', At fs belowIno D' s' ∧
        ∀ x, D' x = if i ≤ x ∧ x < i + left then Block.zero else D x) E s := by
  induction left generalizing D s i with
  | zero =>
    refine ⟨rfl, D, h, fun x => ?_⟩
    rw [if_neg (by omega)]
  | succ left ih =>
    unfold clearInodes
    rw [Outcome.bind_iff]
    refine h.outcome_write (by omega) _ (fun s₁ h₁ => ?_)
    rw [if_neg (by decide)]
    refine (ih h₁ (by omega)).post ?_
    rintro r s' ⟨rfl, D', h', hD⟩
    refine ⟨rfl, D', h', fun x => ?_⟩
    rw [hD]
    by_cases hx : x = i
    · rw [hx, if_neg (by omega), if_pos (by omega), Function.update_self]
    · rw [Function.update_of_ne hx]
      by_cases hi : i + 1 ≤ x ∧ x < i + 1 + left
      · rw [if_pos hi, if_pos (by omega)]
      · rw [if_neg hi, if_neg (by omega)]

/-- The inode blocks that `treedisk_create` sets up for so many inodes. -/
def inodeBlocks (g : Geometry) (ninodes : Nat) : Nat :=
  (ninodes + g.inodesPerBlock - 1) / g.inodesPerBlock

theorem inodeBlocks_lt (g : Geometry) {ninodes : Nat} (h : ninodes < 2 ^ 32) :
    inodeBlocks g ninodes + 2 < 2 ^ 32 := by
  have htwo : 2 ≤ g.inodesPerBlock ∧ g.inodesPerBlock ≤ 128 := by
    have hh := g.two_mul_inodesPerBlock
    have h4 := g.four_le_refs
    have hr := g.refs_le
    omega
  have hd : inodeBlocks g ninodes ≤ (ninodes + g.inodesPerBlock - 1) / 2 :=
    Nat.div_le_div_left htwo.1 (by decide)
  omega

/-- `treedisk_create` on a store without a file system. -/
theorem outcome_create (h : At fs belowIno D s) (hpos : 0 < fs.sizes belowIno)
    (hblank : D.nInodeblocks = 0) {ninodes : Nat} (hni : ninodes < 2 ^ 32)
    {E : Stop → σ → Prop} :
    Outcome (create fs.toBlockStore belowIno ninodes)
      (fun r s' =>
        (r = -1 ∧ fs.sizes belowIno < inodeBlocks g ninodes + 2 ∧ At fs belowIno D s') ∨
        (r = 0 ∧ ∃ D', At fs belowIno D' s' ∧ Valid (fs.sizes belowIno) D' ∧
          D'.nInodeblocks = inodeBlocks g ninodes ∧
          Represents D' (fun _ => .empty Block.zero))) E s := by
  have h4 := g.four_le_refs
  unfold create
  rw [Outcome.bind_iff]
  refine FixedStore.outcome_getsize h.good hpos (fun s₁ hg hview => ?_)
  have h₁ : At fs belowIno D s₁ := ⟨hg, by rw [hview, h.view]⟩
  rw [toUnsigned_toInt (fs.sizes_lt belowIno)]
  have hsmall := inodeBlocks_lt g hni
  change Outcome _ (fun r s' => (r = -1 ∧ _) ∨ _) _ _
  unfold inodeBlocks at hsmall ⊢
  generalize (ninodes + g.inodesPerBlock - 1) / g.inodesPerBlock = nib at *
  dsimp only
  rw [Nat.mod_eq_of_lt hsmall]
  split
  · rename_i hroom
    exact .inl ⟨rfl, hroom, h₁⟩
  · rename_i hroom
    rw [Outcome.bind_iff]
    refine h₁.outcome_read hpos (fun s₂ h₂ => ?_)
    dsimp only
    rw [if_pos (show (D 0).ref 0 = 0 from hblank), Outcome.bind_iff]
    refine (outcome_setupFreelistLoop (nib + 1) (by omega) rfl _ h₂ (by omega) (by omega)
      (Nat.le_refl _) (by simpa using Free.nil)).post ?_
    rintro freeList s₃ ⟨D₃, h₃, hfree, hkeep⟩
    rw [Outcome.bind_iff]
    refine h₃.outcome_write hpos _ (fun s₄ h₄ => ?_)
    rw [if_neg (by decide)]
    refine (outcome_clearInodes nib h₄ (by omega)).post ?_
    rintro r s₅ ⟨rfl, D', h', hD⟩
    have hsuper : D' 0 = (Block.zero.setRef 0 nib).setRef 1 freeList := by
      rw [hD, if_neg (by omega), Function.update_self]
    have hnib : D'.nInodeblocks = nib := by
      unfold Image.nInodeblocks
      rw [hsuper, Block.ref_setRef (by omega), if_neg (by omega), Block.ref_setRef (by omega),
        if_pos rfl]
    have hhead : D'.freeList = freeList := by
      unfold Image.freeList
      rw [hsuper, Block.ref_setRef (by omega), if_pos rfl]
    have hinodes : ∀ ino, ino < D'.ninodes → D' (D'.inodeBlockno ino) = Block.zero := by
      intro ino hino
      have hle := inodeBlockno_le hino
      have hne := inodeBlockno_ne_zero D' ino
      rw [hD, if_pos (by omega)]
    have hroot : ∀ ino, ino < D'.ninodes → D'.root ino = 0 := by
      intro ino hino
      unfold Image.root
      rw [hinodes ino hino, Block.ref_zero]
    have hsize : ∀ ino, ino < D'.ninodes → D'.nblocks ino = 0 := by
      intro ino hino
      unfold Image.nblocks
      rw [hinodes ino hino, Block.ref_zero]
    refine .inr ⟨rfl, D', h', ⟨?_, ?_, fun ino hino _ => hroot ino hino, ?_, ?_⟩, ?_, ?_, ?_, ?_⟩
    · omega
    · intro ino hino
      rw [hsize ino hino]
      decide
    · intro ino hino hp
      rw [hsize ino hino] at hp
      omega
    · refine ⟨∑ b ∈ Finset.Ico (nib + 1) (fs.sizes belowIno), {b}, ?_, ?_⟩
      · rw [hhead]
        refine hfree.congr (fun x hx => ?_)
        rw [Finset.sum_multiset_singleton, Finset.mem_val, Finset.mem_Ico] at hx
        rw [hD, if_neg (by omega), Function.update_of_ne (by omega)]
      · have hempty : ∑ ino ∈ Finset.range D'.ninodes, D'.tree ino = 0 := by
          refine Finset.sum_eq_zero (fun ino hino => ?_)
          unfold Image.tree
          rw [hroot ino (Finset.mem_range.mp hino), nodes_hole]
        rw [hempty, zero_add, Finset.sum_multiset_singleton, hnib, Nat.add_comm]
    · exact hnib
    · exact hsize
    · intro ino hino offset _
      unfold Image.contents
      rw [hroot ino hino, lookup_hole, ite_self]
      rfl
    · exact fun ino _ => SparseFile.blank_empty _

end Egos.Disk.Treedisk
