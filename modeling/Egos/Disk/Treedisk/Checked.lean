import Egos.Disk.Treedisk.Reach
import Egos.Disk.Treedisk.Runs

/-!
# What the check finds out

`treedisk_check` accepts an image when the blocks it scans can all be marked. It accepts
what the file system leaves behind; what it accepts uses each block in one way only,
except for slots of the free list that lie outside of the disk; and it stays within its
array on every image but those that announce `2 ^ 32 - 1` inode blocks.
-/
namespace Egos.Disk.Treedisk

open Egos.Lib

set_option autoImplicit false

variable {g : Geometry} {σ : Type} {D : Image g} {fs : FixedStore (Block g) σ} {s : σ}

namespace Image

/-- The references that the check follows from an inode. -/
def scannedTree (D : Image g) (ino : Nat) : Multiset Nat :=
  if D.nblocks ino ≠ 0 then scanned D (D.nblocks ino) (D.levels ino) (D.root ino) 0 else 0

/-- The references that reads of an inode can follow. -/
def reachedTree (D : Image g) (ino : Nat) : Multiset Nat :=
  if D.nblocks ino ≠ 0 then reached D (D.levels ino) (D.nblocks ino) (D.root ino) else 0

end Image

theorem sum_inodes {M : Type} [AddCommMonoid M] (f : Nat → M) (k blocks : Nat) :
    ∑ b ∈ Finset.range blocks, ∑ i ∈ Finset.range k, f (b * k + i) =
      ∑ ino ∈ Finset.range (blocks * k), f ino := by
  induction blocks with
  | zero => simp
  | succ blocks ih => rw [Finset.sum_range_succ, ih, Nat.add_mul, Nat.one_mul, Finset.sum_range_add]

theorem sum_scannedWords (D : Image g) :
    ∑ b ∈ Finset.Ico 1 (1 + D.nInodeblocks), ∑ i ∈ Finset.range g.inodesPerBlock,
        scannedWords D (D b) i = ∑ ino ∈ Finset.range D.ninodes, D.scannedTree ino := by
  have hword : ∀ b i, i < g.inodesPerBlock →
      scannedWords D (D (1 + b)) i = D.scannedTree (b * g.inodesPerBlock + i) := by
    intro b i hi
    have hp := g.inodesPerBlock_pos
    have hdiv : (b * g.inodesPerBlock + i) / g.inodesPerBlock = b := by
      rw [Nat.add_comm, Nat.add_mul_div_right _ _ hp, Nat.div_eq_of_lt hi, Nat.zero_add]
    have hmod : (b * g.inodesPerBlock + i) % g.inodesPerBlock = i := by
      rw [Nat.add_comm, Nat.add_mul_mod_self_right, Nat.mod_eq_of_lt hi]
    unfold scannedWords Image.scannedTree Image.levels Image.nblocks Image.root Image.inodeBlockno
    rw [hdiv, hmod]
    by_cases hz : (D (1 + b)).ref (2 * i + 1) = 0
    · rw [if_neg (not_not_intro hz), if_neg (not_not_intro hz)]
    · rw [if_pos hz, if_pos hz, levelsOf, if_pos (by omega)]
  rw [Finset.sum_Ico_eq_sum_range, Nat.add_sub_cancel_left]
  unfold Image.ninodes
  rw [← sum_inodes]
  refine Finset.sum_congr rfl fun b _ => Finset.sum_congr rfl fun i hi => ?_
  exact hword b i (Finset.mem_range.mp hi)

/-- The image passes: the list has an end, and what the check scans can be marked. -/
structure Passes (n : Nat) (D : Image g) (chain : List Nat) : Prop where
  list : FreeChain D D.freeList chain
  markable : Markable (· < n) (· ≤ D.nInodeblocks)
    (∑ ino ∈ Finset.range D.ninodes, D.scannedTree ino + listed n D chain)

theorem outcome_markInodes (left : Nat) {fsNblocks i : Nat} {binfo : BlockInfo}
    (hn : i + left ≤ fsNblocks) {E : Stop → σ → Prop} :
    Outcome (tryLoop (fun b binfo => do pure (some (← setStatus fsNblocks binfo b .inode)))
        left i binfo)
      (fun r s' => s' = s ∧ ∃ binfo', r = some binfo' ∧
        takenIn binfo' = fun b => takenIn binfo b ∨ i ≤ b ∧ b < i + left) E s := by
  induction left generalizing i binfo with
  | zero =>
    refine ⟨rfl, binfo, rfl, funext fun b => propext ⟨Or.inl, fun h => ?_⟩⟩
    exact h.resolve_right (by omega)
  | succ left ih =>
    unfold tryLoop
    rw [Outcome.bind_iff, Outcome.bind_iff]
    refine outcome_setStatus (by omega) .inode ?_
    rw [Outcome.pure_iff]
    refine (ih (by omega)).post ?_
    rintro r s' ⟨rfl, binfo', rfl, htaken⟩
    refine ⟨rfl, binfo', rfl, ?_⟩
    rw [htaken, takenIn_update binfo i (by decide)]
    funext b
    simp only [take, Multiset.mem_singleton, eq_iff_iff, or_assoc]
    exact or_congr_right (by omega)

theorem unaccounted_none {n : Nat} {binfo : BlockInfo} (h : ∀ b, b < n → takenIn binfo b) :
    unaccounted n binfo = none := by
  unfold unaccounted
  rw [List.find?_eq_none]
  intro b hb
  simpa using show binfo b ≠ .unknown from h b (List.mem_range.mp hb)

/-- The check gets the size of the disk and the superblock. -/
theorem outcome_superblock (h : At fs 0 D s) (hpos : 0 < fs.sizes 0) {E : Stop → σ → Prop}
    {Q : Int × Option Nat → σ → Prop} (hq : ∀ s', At fs 0 D s' →
      Outcome (checkImage fs.toBlockStore (fs.sizes 0) (D 0)) Q E s') :
    Outcome (treediskCheck fs.toBlockStore) Q E s := by
  unfold treediskCheck
  rw [Outcome.bind_iff]
  refine FixedStore.outcome_getsize h.good hpos fun s₁ hg hview => ?_
  have h₁ : At fs 0 D s₁ := ⟨hg, by rw [hview, h.view]⟩
  rw [toUnsigned_toInt (fs.sizes_lt 0)]
  dsimp only
  rw [if_neg (by omega), Outcome.bind_iff]
  exact h₁.outcome_readBlock hpos hq

theorem outcome_treediskCheck (h : At fs 0 D s) (hroom : 1 + D.nInodeblocks ≤ fs.sizes 0)
    (hfl : D.freeList < fs.sizes 0) {E : Stop → σ → Prop} :
    Outcome (treediskCheck fs.toBlockStore)
      (fun r s' => At fs 0 D s' ∧
        (r.1 = 0 ∧ (∀ chain, ¬ Passes (fs.sizes 0) D chain) ∨
          r.1 = 1 ∧ ∃ chain, Passes (fs.sizes 0) D chain ∧
            ((∀ b, b < fs.sizes 0 → take (· ≤ D.nInodeblocks)
              (∑ ino ∈ Finset.range D.ninodes, D.scannedTree ino +
                listed (fs.sizes 0) D chain) b) → r.2 = none))) E s := by
  have hpos : 0 < fs.sizes 0 := by omega
  have hlt := fs.sizes_lt 0
  refine outcome_superblock h hpos fun s₂ h₂ => ?_
  unfold checkImage
  have hroom' : 1 + (D 0).ref 0 ≤ fs.sizes 0 := hroom
  have hfl' : (D 0).ref 1 < fs.sizes 0 := hfl
  rw [Nat.mod_eq_of_lt (by omega), if_neg (by omega), if_neg (by omega), Outcome.bind_iff]
  refine outcome_setStatus hpos .super ?_
  rw [Outcome.bind_iff]
  refine (outcome_markInodes _ hroom').post ?_
  rintro _ s₃ ⟨rfl, binfo, rfl, htaken⟩
  have hheader : takenIn binfo = (· ≤ D.nInodeblocks) := by
    rw [htaken, takenIn_update _ 0 (by decide)]
    funext b
    simp only [take, takenIn, Multiset.mem_singleton, ne_eq, not_true_eq_false, false_or,
      eq_iff_iff]
    change b = 0 ∨ 1 ≤ b ∧ b < 1 + D.nInodeblocks ↔ _
    omega
  dsimp only
  rw [Outcome.bind_iff]
  have hround : ∀ b, 1 ≤ b → b < 1 + (D 0).ref 0 → ∀ binfo s, At fs 0 D s →
      Outcome (checkInodeBlock fs.toBlockStore (fs.sizes 0) b binfo)
        (MarksOn fs D binfo (∑ i ∈ Finset.range g.inodesPerBlock, scannedWords D (D b) i)) E s :=
    fun b _ hb binfo s hs => outcome_checkInodeBlock (lt_of_lt_of_le hb hroom') hs
  refine (outcome_tryLoop _ binfo h₂ hround).post ?_
  rintro r s₄ ⟨htrees, h₄⟩
  rw [show ∑ b ∈ Finset.Ico 1 (1 + (D 0).ref 0), _ = _ from sum_scannedWords D, hheader] at htrees
  cases r with
  | none =>
    refine ⟨h₄, .inl ⟨rfl, fun chain hp => ?_⟩⟩
    exact htrees (markable_add.mp hp.markable).1
  | some binfo₁ =>
    dsimp only
    rw [Outcome.bind_iff]
    have hunknown : (unknowns (fs.sizes 0) binfo₁).card < fs.sizes 0 := by
      have hzero : takenIn binfo₁ 0 := by
        have htaken₁ : takenIn binfo₁ = _ := htrees.2
        rw [htaken₁]
        exact .inl (Nat.zero_le _)
      have hss : unknowns (fs.sizes 0) binfo₁ ⊂ Finset.range (fs.sizes 0) := by
        refine (Finset.filter_ssubset).mpr ⟨0, Finset.mem_range.mpr hpos, hzero⟩
      have hcard := Finset.card_lt_card hss
      rwa [Finset.card_range] at hcard
    refine (outcome_scanFreeList _ h₄ hunknown).post ?_
    rintro r s₅ ⟨h₅, hends, hmarks⟩
    cases r with
    | none =>
      refine ⟨h₅, .inl ⟨rfl, fun chain hp => ?_⟩⟩
      exact htrees.seq (hmarks chain hp.list) hp.markable
    | some binfo₂ =>
      obtain ⟨chain, hchain⟩ := hends rfl
      obtain ⟨hall, htaken₂⟩ := htrees.seq (hmarks chain hchain)
      refine ⟨h₅, .inr ⟨rfl, chain, ⟨hchain, hall⟩, fun haccounted => ?_⟩⟩
      refine unaccounted_none fun b hb => ?_
      rw [htaken₂]
      exact haccounted b hb

/-- An image whose superblock does not pass is rejected. -/
theorem outcome_rejected (h : At fs 0 D s) (hpos : 0 < fs.sizes 0)
    (hbad : fs.sizes 0 < (1 + D.nInodeblocks) % 2 ^ 32 ∨ fs.sizes 0 ≤ D.freeList)
    {E : Stop → σ → Prop} :
    Outcome (treediskCheck fs.toBlockStore) (fun r _ => r = (0, none)) E s := by
  refine outcome_superblock h hpos fun s₂ h₂ => ?_
  unfold checkImage
  split
  · exact rfl
  · rename_i hn
    rw [if_pos (show fs.sizes 0 ≤ (D 0).ref 1 from hbad.resolve_left hn)]
    exact rfl

/-- With `2 ^ 32 - 1` inode blocks announced the first loop leaves the array. -/
theorem outcome_overrun (h : At fs 0 D s) (hpos : 0 < fs.sizes 0)
    (hn : D.nInodeblocks = 2 ^ 32 - 1) (hfl : D.freeList < fs.sizes 0) :
    Outcome (treediskCheck fs.toBlockStore) (fun _ _ => False) (fun e _ => e = .undefined) s := by
  have hlt := fs.sizes_lt 0
  have hloop : ∀ left i (binfo : BlockInfo) (s : σ), i ≤ fs.sizes 0 → fs.sizes 0 < i + left →
      Outcome (tryLoop (fun b binfo => do pure (some (← setStatus (fs.sizes 0) binfo b .inode)))
        left i binfo) (fun _ _ => False) (fun e _ => e = .undefined) s := by
    intro left
    induction left with
    | zero => intro i binfo s hi hl; omega
    | succ left ih =>
      intro i binfo s hi hl
      unfold tryLoop
      rw [Outcome.bind_iff, Outcome.bind_iff]
      by_cases hin : i < fs.sizes 0
      · refine outcome_setStatus hin .inode ?_
        exact ih (i + 1) _ s (by omega) (by omega)
      · unfold setStatus
        rw [if_neg hin]
        exact rfl
  refine outcome_superblock h hpos fun s₂ h₂ => ?_
  unfold checkImage
  have hn' : (D 0).ref 0 = 2 ^ 32 - 1 := hn
  have hfl' : (D 0).ref 1 < fs.sizes 0 := hfl
  rw [hn', if_neg (by omega), if_neg (by omega), Outcome.bind_iff]
  refine outcome_setStatus hpos .super ?_
  rw [Outcome.bind_iff]
  exact (hloop _ 1 _ _ (by omega) (by omega)).post fun _ _ hf => hf.elim

/-- **Where the check is safe.** On a disk of at least one block with any 32-bit contents,
`treedisk_check` ends without leaving its array, except for images that announce
`2 ^ 32 - 1` inode blocks with a free list inside the disk. -/
theorem check_safe_iff (fs : FixedStore (Block g) σ) {s : σ} (hg : fs.Good s)
    (hpos : 0 < fs.sizes 0) (hwords : ∀ b i, (fs.view s 0 b).ref i < 2 ^ 32) :
    (∃ r s', treediskCheck fs.toBlockStore s = .ok r s') ↔
      Image.nInodeblocks (fs.view s 0) ≠ 2 ^ 32 - 1 ∨
        fs.sizes 0 ≤ Image.freeList (fs.view s 0) := by
  have h : At fs 0 (fs.view s 0) s := ⟨hg, rfl⟩
  have hn : Image.nInodeblocks (fs.view s 0) < 2 ^ 32 := hwords 0 0
  constructor
  · rintro ⟨r, s', he⟩
    by_contra hbad
    rw [not_or, not_not, not_le] at hbad
    exact (outcome_overrun h hpos hbad.1 hbad.2).ok he
  · intro hcond
    by_cases hbad : fs.sizes 0 < (1 + Image.nInodeblocks (fs.view s 0)) % 2 ^ 32 ∨
        fs.sizes 0 ≤ Image.freeList (fs.view s 0)
    · obtain ⟨r, s', he, -⟩ := (outcome_rejected h hpos hbad).exists_ok
      exact ⟨r, s', he⟩
    · rw [not_or, not_lt, not_le] at hbad
      have hroom : 1 + Image.nInodeblocks (fs.view s 0) ≤ fs.sizes 0 := by omega
      obtain ⟨r, s', he, -⟩ := (outcome_treediskCheck h hroom hbad.2).exists_ok
      exact ⟨r, s', he⟩

/-- A disk of one block: the first inode block is marked outside of the array. -/
theorem check_overruns :
    stopped (treediskCheck Ramdisk.ramdisk
      ⟨fun _ => (Block.zero.setRef 0 (2 ^ 32 - 1) : Block .tiny), 1⟩) = some .undefined := by
  decide +kernel

/-- The blocks of the first file are outside of the disk, and so is the rest of the free list. -/
def tinyDamaged : Ramdisk.State (Block .tiny) where
  blocks b := if b = 0 then (Block.zero.setRef 0 1).setRef 1 3
    else if b = 1 then (Block.zero.setRef 0 99).setRef 1 5
    else if b = 3 then Block.zero.setRef 0 1000
    else Block.zero
  nblocks := 20

theorem check_safe_iff_damaged : ∃ r s', treediskCheck tinyDisk.toBlockStore tinyDamaged = .ok r s' :=
  (check_safe_iff tinyDisk (show tinyDisk.Good tinyDamaged from rfl) (by decide) fun b i => by
    have hset {c : Block .tiny} {j v : Nat} (hc : ∀ k, c.ref k < 2 ^ 32)
        (hj : j < Geometry.tiny.refsPerBlock) (hv : v < 2 ^ 32) (k : Nat) : (c.setRef j v).ref k < 2 ^ 32 := by
      rw [Block.ref_setRef hj]
      split
      · exact hv
      · exact hc k
    have hzero (k : Nat) : (Block.zero : Block .tiny).ref k < 2 ^ 32 := by
      rw [Block.ref_zero]
      decide
    change (tinyDamaged.blocks b).ref i < 2 ^ 32
    unfold tinyDamaged
    dsimp only
    split
    · exact hset (hset hzero (by decide) (by decide)) (by decide) (by decide) i
    · split
      · exact hset (hset hzero (by decide) (by decide)) (by decide) (by decide) i
      · split
        · exact hset hzero (by decide) (by decide) i
        · exact hzero i).mpr (.inl (by decide))

/-- The blocks in use: those that reads can reach, the free-list blocks and the blocks
that they refer to. -/
def inUse (D : Image g) (chain : List Nat) : Multiset Nat :=
  ∑ ino ∈ Finset.range D.ninodes, D.reachedTree ino + freeBlocks D chain

/-- Each of them lies behind the inode blocks and within the disk, and is used once. -/
structure Accounted (n : Nat) (D : Image g) (chain : List Nat) : Prop where
  inside : ∀ b ∈ inUse D chain, 1 + D.nInodeblocks ≤ b ∧ b < n
  once : (inUse D chain).Nodup

theorem capacity_lt_of_lt_levels {nblocks l : Nat} (h : nblocks < 2 ^ 32)
    (hl : l < levelsOf g nblocks) : capacity g l < nblocks := by
  by_contra hge
  have hle := (levelsOf_le_iff (g := g) h l).mpr (by omega)
  omega

theorem reachedTree_le {ino : Nat} (h : D.nblocks ino < 2 ^ 32) :
    D.reachedTree ino ≤ D.scannedTree ino := by
  unfold Image.reachedTree Image.scannedTree
  split
  · rename_i hne
    refine reached_le_scanned h (fun l hl => ?_) 0 (by omega)
    have hlt := capacity_lt_of_lt_levels h hl
    omega
  · exact le_refl _

/-- When every slot of the list lies within the disk, all of the list is scanned. -/
theorem listed_eq {n : Nat} {chain : List Nat}
    (h : ∀ f ∈ chain, ∀ i, 1 ≤ i → i < g.refsPerBlock → (D f).ref i < n) :
    listed n D chain = freeBlocks D chain := by
  induction chain with
  | nil => rfl
  | cons f chain ih =>
    rw [listed, freeBlocks, ih fun f hf => h f (List.mem_cons_of_mem _ hf), Multiset.singleton_add]
    congr 2
    refine Finset.sum_congr rfl fun i hi => ?_
    obtain ⟨h1, hi⟩ := Finset.mem_Ico.mp hi
    exact if_pos (h f (by simp) i h1 hi)

theorem slot_mem_freeBlocks {chain : List Nat} {f i : Nat} (hf : f ∈ chain) (h1 : 1 ≤ i)
    (hi : i < g.refsPerBlock) (hne : (D f).ref i ≠ 0) : (D f).ref i ∈ freeBlocks D chain := by
  induction chain with
  | nil => cases hf
  | cons b chain ih =>
    rw [freeBlocks, Multiset.mem_cons, Multiset.mem_add]
    rcases List.mem_cons.mp hf with rfl | hf
    · refine .inr (.inl (Multiset.mem_sum.mpr ⟨i, Finset.mem_Ico.mpr ⟨h1, hi⟩, ?_⟩))
      rw [single_of_ne hne, Multiset.mem_singleton]
    · exact .inr (.inr (ih hf))

/-- **What an accepted image guarantees.** If `treedisk_check` returns 1 and the inode
blocks fit, then the blocks in use are all behind the inode blocks, within the disk and
distinct, if and only if no free-list block refers outside of the disk. -/
theorem check_sound_iff (fs : FixedStore (Block g) σ) {s s' : σ} (hg : fs.Good s)
    (hwords : ∀ b i, (fs.view s 0 b).ref i < 2 ^ 32)
    (hroom : 1 + Image.nInodeblocks (fs.view s 0) ≤ fs.sizes 0) {leak : Option Nat}
    (hcheck : treediskCheck fs.toBlockStore s = .ok (1, leak) s') :
    (∃ chain, FreeChain (fs.view s 0) (Image.freeList (fs.view s 0)) chain ∧
      Accounted (fs.sizes 0) (fs.view s 0) chain) ↔
    ∃ chain, FreeChain (fs.view s 0) (Image.freeList (fs.view s 0)) chain ∧
      ∀ f ∈ chain, ∀ i, 1 ≤ i → i < g.refsPerBlock → (fs.view s 0 f).ref i < fs.sizes 0 := by
  have h : At fs 0 (fs.view s 0) s := ⟨hg, rfl⟩
  have hfl : Image.freeList (fs.view s 0) < fs.sizes 0 := by
    by_contra hge
    have hr := (outcome_rejected (E := fun _ _ => False) h (by omega) (.inr (by omega))).ok hcheck
    cases hr
  obtain ⟨-, ⟨hzero, -⟩ | ⟨-, chain, hp, -⟩⟩ :=
    (outcome_treediskCheck (E := fun _ _ => False) h hroom hfl).ok hcheck
  · cases hzero
  constructor
  · rintro ⟨chain', hchain', hacc⟩
    refine ⟨chain', hchain', fun f hf i h1 hi => ?_⟩
    by_cases hz : (fs.view s 0 f).ref i = 0
    · omega
    · have hmem := slot_mem_freeBlocks hf h1 hi hz
      exact (hacc.inside _ (Multiset.mem_add.mpr (.inr hmem))).2
  · rintro ⟨chain', hchain', hslots⟩
    obtain rfl := hp.list.unique hchain'
    have hle : inUse (fs.view s 0) chain ≤
        ∑ ino ∈ Finset.range (Image.ninodes (fs.view s 0)), Image.scannedTree (fs.view s 0) ino +
          listed (fs.sizes 0) (fs.view s 0) chain := by
      rw [listed_eq hslots]
      exact add_le_add_left (Finset.sum_le_sum fun ino _ => reachedTree_le (hwords _ _)) _
    have hmark := hp.markable.mono hle
    refine ⟨chain, hchain', fun b hb => ⟨?_, hmark.inside b hb⟩, hmark.nodup⟩
    have hunused := hmark.unused b hb
    omega

/-- A disk without inodes and a free list of one block with this one slot in use. -/
def slotDisk (n r : Nat) : Ramdisk.State (Block .tiny) :=
  ⟨fun b => if b = 0 then Block.zero.setRef 1 1 else if b = 1 then Block.zero.setRef 1 r
    else Block.zero, n⟩

theorem slotDisk_words (n : Nat) {r : Nat} (hr : r < 2 ^ 32) (b i : Nat) :
    ((slotDisk n r).blocks b).ref i < 2 ^ 32 := by
  have hset : ∀ r', r' < 2 ^ 32 → ((Block.zero : Block .tiny).setRef 1 r').ref i < 2 ^ 32 := by
    intro r' hr'
    rw [Block.ref_setRef (by decide), Block.ref_zero]
    split
    · exact hr'
    · decide
  unfold slotDisk
  dsimp only
  split
  · exact hset 1 (by decide)
  · split
    · exact hset r hr
    · rw [Block.ref_zero]
      decide

theorem check_sound_iff_slot :
    (∃ chain, FreeChain (slotDisk 3 2).blocks (Image.freeList (slotDisk 3 2).blocks) chain ∧
      Accounted 3 (slotDisk 3 2).blocks chain) ↔
    ∃ chain, FreeChain (slotDisk 3 2).blocks (Image.freeList (slotDisk 3 2).blocks) chain ∧
      ∀ f ∈ chain, ∀ i, 1 ≤ i → i < Geometry.tiny.refsPerBlock →
        ((slotDisk 3 2).blocks f).ref i < 3 :=
  check_sound_iff (Ramdisk.fixed (Block .tiny) 3 (by decide)) (s := slotDisk 3 2) rfl
    (fun b i => slotDisk_words 3 (by decide) b i) (by decide)
    (eq_ok_of_returned (a := (1, none)) (by decide +kernel))

/-- A slot outside of the disk is passed over, and the check returns 1. -/
theorem check_accepts_stray :
    1 + Image.nInodeblocks (slotDisk 2 99).blocks ≤ (slotDisk 2 99).nblocks ∧
      returned (treediskCheck Ramdisk.ramdisk (slotDisk 2 99)) = some (1, none) ∧
      FreeChain (slotDisk 2 99).blocks (Image.freeList (slotDisk 2 99).blocks) [1] ∧
      ¬ Accounted 2 (slotDisk 2 99).blocks [1] := by
  refine ⟨by decide, by decide +kernel, .cons (by decide) .nil, fun hacc => ?_⟩
  have hmem := slot_mem_freeBlocks (D := (slotDisk 2 99).blocks) (f := 1) (i := 1)
    (List.mem_singleton.mpr rfl) (by decide) (by decide) (by decide)
  exact absurd (hacc.inside _ (Multiset.mem_add.mpr (.inr hmem))).2 (by decide)

/-- The image is that of a file system with files of at most `2 ^ 24` blocks and no
references past their ends. -/
structure Tidy (n : Nat) (D : Image g) : Prop where
  valid : Valid n D
  trim : ∀ ino, ino < D.ninodes → D.Trim ino
  small : ∀ ino, ino < D.ninodes → D.nblocks ino ≤ 2 ^ 24

/-- The check scans all blocks of a tidy file system, each of them once. -/
theorem Tidy.passes {n : Nat} (h : Tidy n D) :
    ∃ chain, Passes n D chain ∧
      ∑ ino ∈ Finset.range D.ninodes, D.scannedTree ino + listed n D chain =
        (Finset.Ico (1 + D.nInodeblocks) n).val := by
  obtain ⟨F, ⟨chain, hchain, rfl⟩, htotal⟩ := h.valid.partition
  have htrees : ∀ ino ∈ Finset.range D.ninodes, D.scannedTree ino = D.tree ino := by
    intro ino hino
    rw [Finset.mem_range] at hino
    have hsmall := h.small ino hino
    unfold Image.scannedTree Image.tree
    split
    · refine scanned_eq_nodes (fun l hl => ?_) (by omega) (h.trim ino hino)
      have hlt := capacity_lt_of_lt_levels (g := g) (h.valid.size_lt ino hino) hl
      omega
    · rename_i hz
      rw [h.valid.root_zero ino hino (not_not.mp hz), nodes_hole]
  have hlisted : listed n D chain = freeBlocks D chain := by
    refine listed_eq fun f hf i h1 hi => ?_
    by_cases hz : (D f).ref i = 0
    · have hn := h.valid.inodes_lt
      omega
    · have hmem : (D f).ref i ∈ (Finset.Ico (1 + D.nInodeblocks) n).val := by
        rw [← htotal]
        exact Multiset.mem_add.mpr (.inr (slot_mem_freeBlocks hf h1 hi hz))
      exact (Finset.mem_Ico.mp (Finset.mem_val.mp hmem)).2
  have hall : ∑ ino ∈ Finset.range D.ninodes, D.scannedTree ino + listed n D chain =
      (Finset.Ico (1 + D.nInodeblocks) n).val := by
    rw [Finset.sum_congr rfl htrees, hlisted, htotal]
  refine ⟨chain, ⟨hchain, ?_⟩, hall⟩
  rw [hall]
  refine ⟨(Finset.Ico _ _).nodup, fun b hb => ?_, fun b hb => ?_⟩
  · exact (Finset.mem_Ico.mp (Finset.mem_val.mp hb)).2
  · have hge := (Finset.mem_Ico.mp (Finset.mem_val.mp hb)).1
    omega

theorem outcome_check_tidy (h : At fs 0 D s) (ht : Tidy (fs.sizes 0) D) {E : Stop → σ → Prop} :
    Outcome (treediskCheck fs.toBlockStore) (fun r _ => r = (1, none)) E s := by
  obtain ⟨chain, hp, hall⟩ := ht.passes
  have hfl : D.freeList < fs.sizes 0 := by
    by_cases hz : D.freeList = 0
    · have hn := ht.valid.inodes_lt
      omega
    · obtain ⟨F, hfree, htotal⟩ := ht.valid.partition
      obtain ⟨rest, -, rfl⟩ := hfree.uncons hz
      have hmem : D.freeList ∈ (Finset.Ico (1 + D.nInodeblocks) (fs.sizes 0)).val := by
        rw [← htotal]
        exact Multiset.mem_add.mpr (.inr (Multiset.mem_cons_self _ _))
      exact (Finset.mem_Ico.mp (Finset.mem_val.mp hmem)).2
  have hroom : 1 + D.nInodeblocks ≤ fs.sizes 0 := by
    have hn := ht.valid.inodes_lt
    omega
  refine (outcome_treediskCheck h hroom hfl).post ?_
  rintro ⟨code, leak⟩ s' ⟨-, ⟨-, hnone⟩ | ⟨rfl, chain', hp', hleak⟩⟩
  · exact absurd hp (hnone chain)
  · obtain rfl := hp.list.unique hp'.list
    refine congrArg (Prod.mk 1) (hleak fun b hb => ?_)
    rw [hall]
    by_cases hle : b ≤ D.nInodeblocks
    · exact .inl hle
    · exact .inr (Finset.mem_val.mpr (Finset.mem_Ico.mpr ⟨by omega, hb⟩))

/-- A call on the disk that returns. -/
inductive Written (fs : FixedStore (Block g) σ) : σ → σ → Prop
  | create {s s' : σ} {ninodes : Nat} {r : Int} : ninodes < 2 ^ 32 →
      create fs.toBlockStore 0 ninodes s = .ok r s' → Written fs s s'
  | write {s s' : σ} {ino offset : Nat} {block : Block g} {r : Int} :
      ino < Image.ninodes (fs.view s 0) → offset < 2 ^ 24 →
      write fs.toBlockStore 0 ino offset block s = .ok r s' → Written fs s s'
  | truncate {s s' : σ} {ino : Nat} {r : Int} : ino < Image.ninodes (fs.view s 0) →
      setsize fs.toBlockStore 0 ino 0 s = .ok r s' → Written fs s s'

theorem Tidy.blank {n : Nat} (hv : Valid n D)
    (hr : Represents D fun _ => .empty Block.zero) : Tidy n D := by
  have hsize : ∀ ino, ino < D.ninodes → D.nblocks ino = 0 := hr.size
  refine ⟨hv, fun ino hino => ?_, fun ino hino => ?_⟩
  · unfold Image.Trim
    rw [hv.root_zero ino hino (hsize ino hino)]
    exact trimmed_hole _ _ _
  · rw [hsize ino hino]
    exact Nat.zero_le _

/-- On a disk that has inodes `treedisk_create` changes nothing. -/
theorem outcome_create_again (h : At fs 0 D s) (hpos : 0 < fs.sizes 0) (hn : D.nInodeblocks ≠ 0)
    (ninodes : Nat) :
    Outcome (create fs.toBlockStore 0 ninodes) (fun _ s' => At fs 0 D s') (fun _ _ => True) s := by
  unfold create
  rw [Outcome.bind_iff]
  refine FixedStore.outcome_getsize h.good hpos fun s₁ hg hview => ?_
  have h₁ : At fs 0 D s₁ := ⟨hg, by rw [hview, h.view]⟩
  dsimp only
  split
  · exact h₁
  · rw [Outcome.bind_iff]
    refine h₁.outcome_read hpos fun s₂ h₂ => ?_
    dsimp only
    rw [if_neg (show ¬ (D 0).ref 0 = 0 from hn)]
    split
    · exact h₂
    · trivial

theorem Tidy.step (ht : Tidy (fs.sizes 0) (fs.view s 0)) (hg : fs.Good s) {s' : σ}
    (hw : Written fs s s') : Tidy (fs.sizes 0) (fs.view s' 0) ∧ fs.Good s' := by
  have h : At fs 0 (fs.view s 0) s := ⟨hg, rfl⟩
  have hpos : 0 < fs.sizes 0 := by
    have hn := ht.valid.inodes_lt
    omega
  -- one inode changed, and the others are as they were
  have hchanged : ∀ {D' : Image g} {ino : Nat} {F F' : Multiset Nat}, At fs 0 D' s' →
      ino < Image.ninodes (fs.view s 0) → Within (fs.sizes 0) (fs.view s 0) ino F →
      Changed (fs.view s 0) D' ino F F' → Valid (fs.sizes 0) D' → D'.Trim ino →
      D'.nblocks ino ≤ 2 ^ 24 → Tidy (fs.sizes 0) (fs.view s' 0) ∧ fs.Good s' := by
    intro D' ino F F' h' hino hs hc hv htrim hsmall
    rw [h'.view]
    refine ⟨⟨hv, fun i hi => ?_, fun i hi => ?_⟩, h'.good⟩
    · rw [hc.ninodes] at hi
      by_cases hne : i = ino
      · exact hne ▸ htrim
      · exact hc.other_trim hs hino hi hne (ht.trim i hi)
    · rw [hc.ninodes] at hi
      by_cases hne : i = ino
      · exact hne ▸ hsmall
      · rw [(hc.other_inode hs hi hne).2]
        exact ht.small i hi
  cases hw with
  | create hni hcall =>
    by_cases hn : Image.nInodeblocks (fs.view s 0) = 0
    · rcases (outcome_create (E := fun _ _ => False) h hpos hn hni).ok hcall with
        ⟨-, -, h'⟩ | ⟨-, D', h', hv, -, hr⟩
      · rw [h'.view]
        exact ⟨ht, h'.good⟩
      · rw [h'.view]
        exact ⟨.blank hv hr, h'.good⟩
    · have h' := (outcome_create_again h hpos hn _).ok hcall
      rw [h'.view]
      exact ⟨ht, h'.good⟩
  | @write ino offset block r hino hoff hcall =>
    have hlt := ht.valid.size_lt ino hino
    have hsmall := ht.small ino hino
    obtain ⟨-, D', F, F', h', hs, hc, hroot, hnb, htrim, -⟩ :=
      (outcome_write_sound h ht.valid.sound hino (show offset + 1 < 2 ^ 32 by omega) block).ok hcall
    refine hchanged h' hino hs hc ?_ (htrim (ht.trim ino hino)) (by omega)
    exact hc.valid hs hino ht.valid (by omega) (fun hz => by omega) (fun _ => hroot)
  | @truncate ino r hino hcall =>
    obtain ⟨-, -, D', F, h', hs, hc, hroot, hnb⟩ := (outcome_truncate_sound h ht.valid.sound hino
      (fun hp hz => absurd hz (ht.valid.root_ne ino hino hp))).ok hcall
    refine hchanged h' hino hs hc ?_ ?_ (by omega)
    · exact hc.valid hs hino ht.valid (by omega) (fun _ => hroot) (fun hp => by omega)
    · unfold Image.Trim
      rw [hroot]
      exact trimmed_hole _ _ _

/-- **The check accepts what the file system produces.** After a successful create on a
disk without inode blocks and any further calls that return, `treedisk_check` returns 1
and reports no block. -/
theorem check_accepts (fs : FixedStore (Block g) σ) {s₀ s₁ s : σ} (hg : fs.Good s₀)
    (hpos : 0 < fs.sizes 0) (hblank : Image.nInodeblocks (fs.view s₀ 0) = 0) {ninodes : Nat}
    (hni : ninodes < 2 ^ 32) (hcreate : create fs.toBlockStore 0 ninodes s₀ = .ok 0 s₁)
    (hrun : Relation.ReflTransGen (Written fs) s₁ s) :
    ∃ s', treediskCheck fs.toBlockStore s = .ok (1, none) s' := by
  have hstart : Tidy (fs.sizes 0) (fs.view s₁ 0) ∧ fs.Good s₁ := by
    rcases (outcome_create (E := fun _ _ => False) ⟨hg, rfl⟩ hpos hblank hni).ok hcreate with
      ⟨hr, -⟩ | ⟨-, D', h', hv, -, hr⟩
    · exact absurd hr (by decide)
    · rw [h'.view]
      exact ⟨.blank hv hr, h'.good⟩
  have hend : Tidy (fs.sizes 0) (fs.view s 0) ∧ fs.Good s := by
    induction hrun with
    | refl => exact hstart
    | tail _ hstep ih => exact ih.1.step ih.2 hstep
  obtain ⟨r, s', he, rfl⟩ := (outcome_check_tidy (E := fun _ _ => False) ⟨hend.2, rfl⟩
    hend.1).exists_ok
  exact ⟨s', he⟩

theorem check_accepts_tiny :
    ∃ s₁ s s', create tinyDisk.toBlockStore 0 6 tinyBlank = .ok 0 s₁ ∧
      write tinyDisk.toBlockStore 0 0 9 Block.zero s₁ = .ok 0 s ∧
      treediskCheck tinyDisk.toBlockStore s = .ok (1, none) s' := by
  have hc : create tinyDisk.toBlockStore 0 6 tinyBlank = _ :=
    eq_ok_of_returned (a := 0) (by decide +kernel)
  have hw : write tinyDisk.toBlockStore 0 0 9 Block.zero
      (final (create tinyDisk.toBlockStore 0 6 tinyBlank)) = _ :=
    eq_ok_of_returned (a := 0) (by decide +kernel)
  have hino : 0 < Image.ninodes (tinyDisk.view
      (final (create tinyDisk.toBlockStore 0 6 tinyBlank)) 0) := by decide +kernel
  generalize final (create tinyDisk.toBlockStore 0 6 tinyBlank) = s₁ at hc hw hino
  obtain ⟨s', hs'⟩ := check_accepts tinyDisk tinyBlank_good (by decide) (by decide) (by decide) hc
    (.single (.write hino (by decide) hw))
  exact ⟨s₁, _, s', hc, hw, hs'⟩

/-- A disk on which create finds inode blocks is left as it is, with whatever free list
it has. -/
theorem check_rejects_foreign :
    returned (create Ramdisk.ramdisk 0 1
        ⟨fun _ => ((Block.zero : Block .tiny).setRef 0 1).setRef 1 9, 3⟩) = some 0 ∧
      returned (treediskCheck Ramdisk.ramdisk (final (create Ramdisk.ramdisk 0 1
        ⟨fun _ => ((Block.zero : Block .tiny).setRef 0 1).setRef 1 9, 3⟩))) = some (0, none) := by
  decide +kernel

end Egos.Disk.Treedisk
