import Egos.Disk.Unixdisk.Operations

/-!
# The free list as a stack

The free data blocks form a stack: first the entries of the head from the last one down,
then the head itself, then the same for the block it links to, of which all entries count.
`unixdisk_popfree` takes the top and `unixdisk_pushfree` puts a block on top. That every
block after the head is full is what makes the offset `ENTRIES_PER_FREE_BLOCK` right after a
step to the next block.
-/
namespace Egos.Disk.Unixdisk

open Egos.Lib
open Treedisk (At Frame)

set_option autoImplicit false

variable {g : Geometry} {σ : Type} {D D' : Image g} {nib h k : Nat} {l : List Nat}

/-- Where a data block is on the disk. -/
def dataBlock (nib b : Nat) : Nat := b + (1 + nib)

theorem dataBlock_ne_zero (nib b : Nat) : dataBlock nib b ≠ 0 := by unfold dataBlock; omega

theorem dataBlock_inj {b c : Nat} : dataBlock nib b = dataBlock nib c ↔ b = c := by
  unfold dataBlock
  omega

/-- The first `k` entries of a free-list block, the last one first. -/
def entriesDown (b : Block g) : Nat → List Nat
  | 0 => []
  | k + 1 => Freeblock.entry b k :: entriesDown b k

theorem entriesDown_congr {b b' : Block g} {k : Nat}
    (he : ∀ j, j < k → Freeblock.entry b' j = Freeblock.entry b j) :
    entriesDown b' k = entriesDown b k := by
  induction k with
  | zero => rfl
  | succ k ih =>
    rw [entriesDown, entriesDown, he k (by omega), ih fun j hj => he j (by omega)]

/-- The free data blocks in the order they are taken, from the head `h` with `k` entries. -/
inductive FreeStack (D : Image g) (nib : Nat) : Nat → Nat → List Nat → Prop
  | empty : FreeStack D nib noBlock g.entriesPerFreeBlock []
  | head {h k : Nat} {l : List Nat} {b : Block g} (hb : D (dataBlock nib h) = b)
      (hh : h ≠ noBlock) (hk : k ≤ g.entriesPerFreeBlock)
      (tail : FreeStack D nib (Freeblock.next b) g.entriesPerFreeBlock l) :
      FreeStack D nib h k (entriesDown b k ++ h :: l)

namespace FreeStack

theorem offset_le (hs : FreeStack D nib h k l) : k ≤ g.entriesPerFreeBlock := by
  cases hs with
  | empty => exact Nat.le_refl _
  | head _ _ hk _ => exact hk

theorem head_mem (hs : FreeStack D nib h k l) : h = noBlock ∨ h ∈ l := by
  cases hs with
  | empty => exact .inl rfl
  | head _ _ _ _ => exact .inr (by simp)

theorem head_mem_of_lt (hs : FreeStack D nib h k l) (hk : k < g.entriesPerFreeBlock) : h ∈ l := by
  cases hs with
  | empty => omega
  | head _ _ _ _ => simp

theorem congr (hs : FreeStack D nib h k l)
    (he : ∀ b ∈ l, D' (dataBlock nib b) = D (dataBlock nib b)) : FreeStack D' nib h k l := by
  induction hs with
  | empty => exact .empty
  | @head h k l b hb hh hk _ ih =>
    exact .head ((he h (by simp)).trans hb) hh hk (ih fun c hc => he c (by simp [hc]))

theorem pop {b : Nat} (hs : FreeStack D nib h k (b :: l)) :
    h ≠ noBlock ∧ h ∈ b :: l ∧
      if 0 < k then
        b = Freeblock.entry (D (dataBlock nib h)) (k - 1) ∧ FreeStack D nib h (k - 1) l
      else
        b = h ∧ FreeStack D nib (Freeblock.next (D (dataBlock nib h))) g.entriesPerFreeBlock l := by
  generalize hl : b :: l = bs at hs
  cases hs with
  | empty => exact absurd hl (by simp)
  | @head _ _ l' block hb hh hk tail =>
    refine ⟨hh, by simp, ?_⟩
    rw [hb]
    cases k with
    | zero =>
      rw [entriesDown, List.nil_append] at hl
      obtain ⟨rfl, rfl⟩ := List.cons.inj hl
      rw [if_neg (by omega)]
      exact ⟨rfl, tail⟩
    | succ k =>
      rw [entriesDown, List.cons_append] at hl
      obtain ⟨rfl, rfl⟩ := List.cons.inj hl
      rw [if_pos (by omega)]
      exact ⟨rfl, .head hb hh (by omega) tail⟩

/-- A stack with room in its head takes the block as a new entry. -/
theorem push_entry {b : Nat} (hs : FreeStack D nib h k l) (hnd : l.Nodup)
    (hk : k < g.entriesPerFreeBlock) :
    FreeStack (Function.update D (dataBlock nib h)
      (Freeblock.setEntry (D (dataBlock nib h)) k b)) nib h (k + 1) (b :: l) := by
  have hfb := g.entriesPerFreeBlock_add
  cases hs with
  | empty => omega
  | @head _ _ l' block hb hh _ tail =>
    rw [hb]
    have hentry : ∀ j, Freeblock.entry (Freeblock.setEntry block k b) j =
        if j = k then b else Freeblock.entry block j := by
      intro j
      unfold Freeblock.entry Freeblock.setEntry
      rw [Treedisk.Block.ref_setRef (by omega)]
      by_cases hj : j = k
      · rw [if_pos (by omega), if_pos hj]
      · rw [if_neg (by omega), if_neg hj]
    have hnext : Freeblock.next (Freeblock.setEntry block k b) = Freeblock.next block := by
      unfold Freeblock.next Freeblock.setEntry
      rw [Treedisk.Block.ref_setRef (by omega), if_neg (by omega)]
    have htail : FreeStack (Function.update D (dataBlock nib h) (Freeblock.setEntry block k b)) nib
        (Freeblock.next (Freeblock.setEntry block k b)) g.entriesPerFreeBlock l' := by
      rw [hnext]
      apply tail.congr
      intro c hc
      refine Function.update_of_ne (fun he => ?_) _ _
      rw [dataBlock_inj] at he
      have hnot := (List.nodup_cons.mp (List.nodup_append.mp hnd).2.1).1
      exact hnot (he ▸ hc)
    have hfull := FreeStack.head (Function.update_self _ _ _) hh (Nat.succ_le_of_lt hk) htail
    rw [Nat.succ_eq_add_one, entriesDown, hentry k, if_pos rfl,
      entriesDown_congr fun j hj => (hentry j).trans (if_neg (by omega))] at hfull
    exact hfull

/-- A full head becomes the second block of the list. -/
theorem push_head {b : Nat} (hs : FreeStack D nib h g.entriesPerFreeBlock l)
    (hb : b ∉ l) (hne : b ≠ noBlock) (old : Block g) :
    FreeStack (Function.update D (dataBlock nib b) (Freeblock.setNext old h)) nib b 0 (b :: l) := by
  have hfb := g.entriesPerFreeBlock_add
  have hnext : Freeblock.next (Freeblock.setNext old h) = h := by
    unfold Freeblock.next Freeblock.setNext
    rw [Treedisk.Block.ref_setRef (by omega), if_pos rfl]
  have htail : FreeStack (Function.update D (dataBlock nib b) (Freeblock.setNext old h)) nib
      (Freeblock.next (Freeblock.setNext old h)) g.entriesPerFreeBlock l := by
    rw [hnext]
    apply hs.congr
    intro c hc
    refine Function.update_of_ne (fun he => hb ?_) _ _
    rw [dataBlock_inj] at he
    exact he ▸ hc
  exact .head (Function.update_self _ _ _) hne (Nat.zero_le _) htail

end FreeStack

/-- The snapshot has the superblock of the disk, whose free data blocks are `l`. -/
structure Stocked (n : Nat) (D : Image g) (sn : Snapshot g) (l : List Nat) : Prop where
  superblock : sn.superblock = D 0
  stack : FreeStack D D.nInodeblocks D.freeList D.freeOffset l
  nodup : l.Nodup
  range : ∀ b ∈ l, dataBlock D.nInodeblocks b < n
  inodes_lt : D.nInodeblocks < n

namespace Stocked

variable {n : Nat} {sn : Snapshot g}

theorem nInodeblocks (hs : Stocked n D sn l) : sn.nInodeblocks = D.nInodeblocks :=
  congrArg (fun b => Treedisk.Block.ref b 0) hs.superblock

theorem freeList (hs : Stocked n D sn l) : sn.freeList = D.freeList :=
  congrArg (fun b => Treedisk.Block.ref b 1) hs.superblock

theorem freeOffset (hs : Stocked n D sn l) : sn.freeOffset = D.freeOffset :=
  congrArg (fun b => Treedisk.Block.ref b 2) hs.superblock

theorem absolute (hs : Stocked n D sn l) (hn : n < 2 ^ 32) {b : Nat}
    (hb : dataBlock D.nInodeblocks b < n) : sn.absolute b = dataBlock D.nInodeblocks b := by
  unfold Snapshot.absolute
  rw [hs.nInodeblocks]
  exact Nat.mod_eq_of_lt (show dataBlock D.nInodeblocks b < 2 ^ 32 by omega)

theorem snapshot (hs : Stocked n D sn l) {sn' : Snapshot g}
    (h : sn'.superblock = sn.superblock) : Stocked n D sn' l :=
  ⟨h.trans hs.superblock, hs.stack, hs.nodup, hs.range, hs.inodes_lt⟩

theorem update (hs : Stocked n D sn l) {x : Nat} (hx : x ≠ 0)
    (hl : ∀ b ∈ l, dataBlock D.nInodeblocks b ≠ x) (block : Block g) :
    Stocked n (Function.update D x block) sn l := by
  have h0 : Function.update D x block 0 = D 0 := Function.update_of_ne hx.symm _ _
  have hnib : Image.nInodeblocks (Function.update D x block) = D.nInodeblocks :=
    congrArg (fun b => Treedisk.Block.ref b 0) h0
  constructor
  · rw [h0]
    exact hs.superblock
  · unfold Image.freeList Image.freeOffset
    rw [hnib, h0]
    exact hs.stack.congr fun b hb => Function.update_of_ne (hl b hb) _ _
  · exact hs.nodup
  · rw [hnib]
    exact hs.range
  · rw [hnib]
    exact hs.inodes_lt

theorem of_superblock (hinodes : D.nInodeblocks < n) {sb : Block g} {h k : Nat} {l' : List Nat}
    (hsb : sb.ref 0 = (D 0).ref 0) (hh : sb.ref 1 = h) (hk : sb.ref 2 = k)
    (hstack : FreeStack D D.nInodeblocks h k l') (hnd : l'.Nodup)
    (hrange : ∀ b ∈ l', dataBlock D.nInodeblocks b < n) :
    Stocked n (Function.update D 0 sb) { sn with superblock := sb } l' := by
  have h0 : Function.update D 0 sb 0 = sb := Function.update_self _ _ _
  have hnib : Image.nInodeblocks (Function.update D 0 sb) = D.nInodeblocks := by
    unfold Image.nInodeblocks
    rw [h0, hsb]
  constructor
  · exact h0.symm
  · unfold Image.freeList Image.freeOffset
    rw [hnib, h0, hh, hk]
    exact hstack.congr fun b _ => Function.update_of_ne (dataBlock_ne_zero _ b) _ _
  · exact hnd
  · rw [hnib]
    exact hrange
  · rw [hnib]
    exact hinodes

end Stocked

section Access

variable {fs : FixedStore (Block g) σ} {s : σ} {sn : Snapshot g} {E : Stop → σ → Prop}

/-- `unixdisk_popfree` takes the top of the stack. -/
theorem outcome_popfree {b : Nat} (h : At fs 0 D s) (hs : Stocked (fs.sizes 0) D sn (b :: l)) :
    Outcome (popfree fs.toBlockStore sn)
      (fun r s' => r.1 = b ∧ ∃ D' : Image g, At fs 0 D' s' ∧ Stocked (fs.sizes 0) D' r.2 l ∧
        Frame D D' 0 ∧ r.2 = { sn with superblock := D' 0 }) E s := by
  have hn := fs.sizes_lt 0
  have h16 := g.sixteen_le
  obtain ⟨hne, hmem, htop⟩ := hs.stack.pop
  have hhead := hs.range _ hmem
  have hoff := hs.stack.offset_le
  have hnd := (List.nodup_cons.mp hs.nodup).2
  have hrange : ∀ c ∈ l, dataBlock D.nInodeblocks c < fs.sizes 0 :=
    fun c hc => hs.range c (List.mem_cons_of_mem _ hc)
  -- whatever the new superblock, the rest of the call writes it
  have hfinish : ∀ (sb : Block g) (next : Nat) (s₁ : σ), At fs 0 D s₁ →
      next = b → sb.ref 0 = (D 0).ref 0 →
      FreeStack D D.nInodeblocks (sb.ref 1) (sb.ref 2) l →
      Outcome (do
        if (← fs.write 0 0 sb) < 0 then pure (noBlock, { sn with superblock := sb })
        else pure (next, { sn with superblock := sb }))
      (fun r s' => r.1 = b ∧ ∃ D' : Image g, At fs 0 D' s' ∧ Stocked (fs.sizes 0) D' r.2 l ∧
        Frame D D' 0 ∧ r.2 = { sn with superblock := D' 0 }) E s₁ := by
    intro sb next s₁ h₁ hnext hsb hstack
    rw [Outcome.bind_iff]
    apply h₁.outcome_write (show 0 < fs.sizes 0 by omega)
    intro s₂ h₂
    rw [if_neg (by decide), Outcome.pure_iff]
    exact ⟨hnext, _, h₂, .of_superblock hs.inodes_lt hsb rfl rfl hstack hnd hrange,
      Frame.superblock hsb, by rw [Function.update_self]⟩
  rw [popfree, if_neg (by rw [hs.freeList]; exact hne), Outcome.bind_iff, hs.freeList,
    hs.absolute hn hhead]
  apply h.outcome_read hhead
  intro s₁ h₁
  dsimp only
  rw [if_neg (by rw [hs.freeOffset]; omega), hs.freeOffset]
  unfold Snapshot.setFreeOffset Snapshot.setFreeList
  rw [hs.superblock]
  by_cases hk : 0 < D.freeOffset
  · rw [if_pos hk] at htop
    rw [if_pos hk]
    apply hfinish _ _ s₁ h₁ htop.1.symm
    · rw [Treedisk.Block.ref_setRef (by omega), if_neg (by decide)]
    · rw [Treedisk.Block.ref_setRef (by omega), if_neg (by decide),
        Treedisk.Block.ref_setRef (by omega), if_pos rfl]
      exact htop.2
  · rw [if_neg hk] at htop
    rw [if_neg hk]
    apply hfinish (((D 0).setRef 1 (Freeblock.next (D (dataBlock D.nInodeblocks D.freeList)))).setRef
      2 g.entriesPerFreeBlock) _ s₁ h₁ htop.1.symm
    · rw [Treedisk.Block.ref_setRef (by omega), if_neg (by decide),
        Treedisk.Block.ref_setRef (by omega), if_neg (by decide)]
    · rw [Treedisk.Block.ref_setRef (by omega), if_neg (by decide),
        Treedisk.Block.ref_setRef (by omega), if_pos rfl,
        Treedisk.Block.ref_setRef (by omega), if_pos rfl]
      exact htop.2

theorem Stocked.range_cons {n b : Nat} (hs : Stocked n D sn l)
    (hlt : dataBlock D.nInodeblocks b < n) : ∀ c ∈ b :: l, dataBlock D.nInodeblocks c < n := by
  intro c hc
  rcases List.mem_cons.mp hc with rfl | hc
  · exact hlt
  · exact hs.range c hc

/-- The end of `unixdisk_pushfree`: one block of the list is written, then the superblock. -/
theorem outcome_pushed {b x : Nat} {block sb : Block g} (h : At fs 0 D s)
    (hs : Stocked (fs.sizes 0) D sn l) (hb : b ∉ l) (hlt : dataBlock D.nInodeblocks b < fs.sizes 0)
    (hx : x ∈ (b :: l).map (dataBlock D.nInodeblocks)) (hsb : sb.ref 0 = (D 0).ref 0)
    (hstack : FreeStack (Function.update D x block) D.nInodeblocks (sb.ref 1) (sb.ref 2) (b :: l)) :
    Outcome (do
        if (← fs.write 0 x block) < 0 then pure (-1, { sn with superblock := sb })
        else if (← fs.write 0 0 sb) < 0 then pure (-1, { sn with superblock := sb })
        else pure ((0 : Int), { sn with superblock := sb }))
      (fun r s' => ∃ D' : Image g, At fs 0 D' s' ∧ Stocked (fs.sizes 0) D' r.2 (b :: l) ∧
        Frame D D' ((b :: l).map (dataBlock D.nInodeblocks)) ∧
        r.2 = { sn with superblock := D' 0 }) E s := by
  obtain ⟨c, hc, rfl⟩ := List.mem_map.mp hx
  rw [Outcome.bind_iff]
  apply h.outcome_write (hs.range_cons hlt c hc)
  intro s₁ h₁
  rw [if_neg (by decide), Outcome.bind_iff]
  apply h₁.outcome_write (show 0 < fs.sizes 0 by omega)
  intro s₂ h₂
  rw [if_neg (by decide), Outcome.pure_iff]
  have h0 := dataBlock_ne_zero D.nInodeblocks c
  have hupd : Function.update D (dataBlock D.nInodeblocks c) block 0 = D 0 :=
    Function.update_of_ne h0.symm _ _
  have hnib : Image.nInodeblocks (Function.update D (dataBlock D.nInodeblocks c) block) =
      D.nInodeblocks := congrArg (fun b => Treedisk.Block.ref b 0) hupd
  refine ⟨_, h₂, ?_, (Frame.update h0 hx block).trans (Frame.superblock ?_),
    by rw [Function.update_self]⟩
  · apply Stocked.of_superblock (by rw [hnib]; exact hs.inodes_lt) (hsb.trans (by rw [hupd])) rfl
      rfl
    · rw [hnib]
      exact hstack
    · exact List.nodup_cons.mpr ⟨hb, hs.nodup⟩
    · rw [hnib]
      exact hs.range_cons hlt
  · rw [hupd]
    exact hsb

/-- `unixdisk_pushfree` puts the block on top of the stack. -/
theorem outcome_pushfree {b : Nat} (h : At fs 0 D s) (hs : Stocked (fs.sizes 0) D sn l)
    (hb : b ∉ l) (hlt : dataBlock D.nInodeblocks b < fs.sizes 0) :
    Outcome (pushfree fs.toBlockStore sn b)
      (fun r s' => ∃ D' : Image g, At fs 0 D' s' ∧ Stocked (fs.sizes 0) D' r.2 (b :: l) ∧
        Frame D D' ((b :: l).map (dataBlock D.nInodeblocks)) ∧
        r.2 = { sn with superblock := D' 0 }) E s := by
  have hn := fs.sizes_lt 0
  have h16 := g.sixteen_le
  have hfb := g.entriesPerFreeBlock_add
  have hoff := hs.stack.offset_le
  have hinodes := hs.inodes_lt
  have hbn : b ≠ noBlock := by
    unfold dataBlock at hlt
    unfold noBlock
    omega
  have hread : sn.absolute sn.freeList < fs.sizes 0 := by
    rw [hs.freeList]
    rcases hs.stack.head_mem with he | hm
    · rw [he]
      unfold Snapshot.absolute noBlock
      rw [hs.nInodeblocks]
      omega
    · rw [hs.absolute hn (hs.range _ hm)]
      exact hs.range _ hm
  rw [pushfree, Outcome.bind_iff]
  apply h.outcome_read hread
  intro s₁ h₁
  dsimp only
  rw [hs.freeOffset, hs.freeList]
  unfold Snapshot.setFreeOffset Snapshot.setFreeList
  rw [hs.superblock]
  split
  · rename_i hk
    have hm := hs.stack.head_mem_of_lt hk
    rw [hs.absolute hn (hs.range _ hm)]
    apply outcome_pushed h₁ hs hb hlt (List.mem_map_of_mem (List.mem_cons_of_mem _ hm))
    · rw [Treedisk.Block.ref_setRef (by omega), if_neg (by decide)]
    · rw [Treedisk.Block.ref_setRef (by omega), if_neg (by decide),
        Treedisk.Block.ref_setRef (by omega), if_pos rfl]
      exact hs.stack.push_entry hs.nodup hk
  · rename_i hk
    have hfull : D.freeOffset = g.entriesPerFreeBlock := by omega
    rw [if_neg (not_not_intro hfull), hs.absolute hn hlt]
    apply outcome_pushed h₁ hs hb hlt (List.mem_map_of_mem List.mem_cons_self)
    · rw [Treedisk.Block.ref_setRef (by omega), if_neg (by decide),
        Treedisk.Block.ref_setRef (by omega), if_neg (by decide)]
    · rw [Treedisk.Block.ref_setRef (by omega), if_neg (by decide),
        Treedisk.Block.ref_setRef (by omega), if_pos rfl,
        Treedisk.Block.ref_setRef (by omega), if_pos rfl]
      have hstack := hs.stack
      rw [hfull] at hstack
      exact hstack.push_head hb hbn _

end Access

end Egos.Disk.Unixdisk
