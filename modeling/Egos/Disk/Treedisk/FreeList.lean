import Mathlib.Order.Interval.Finset.Nat
import Egos.Disk.Treedisk.Tree

/-!
# The free list

`FreeChain` follows the first references of the free-list blocks from the
superblock, and `freeBlocks` collects the chain and what its other slots refer to.
Allocation takes one block out of this multiset and a free puts one in. Both
leave every block alone that is neither the superblock nor part of it.
-/
namespace Egos.Disk.Treedisk

open Egos.Lib

set_option autoImplicit false

variable {g : Geometry} {σ : Type} {D D' : Image g}

/-- The chain of free-list blocks that starts at block `b`. -/
inductive FreeChain (D : Image g) : Nat → List Nat → Prop
  | nil : FreeChain D 0 []
  | cons {b : Nat} {rest : List Nat} : b ≠ 0 → FreeChain D ((D b).ref 0) rest →
      FreeChain D b (b :: rest)

/-- The free blocks that the slots `1 …` of a free-list block refer to. -/
def slots (fl : Block g) : Multiset Nat :=
  ∑ i ∈ Finset.Ico 1 g.refsPerBlock, single (fl.ref i)

/-- The blocks of a chain and those in their slots. -/
def freeBlocks (D : Image g) : List Nat → Multiset Nat
  | [] => 0
  | b :: rest => b ::ₘ (slots (D b) + freeBlocks D rest)

/-- `F` are the free blocks of the list that starts at block `b`. -/
def Free (D : Image g) (b : Nat) (F : Multiset Nat) : Prop :=
  ∃ chain, FreeChain D b chain ∧ freeBlocks D chain = F

theorem FreeChain.unique {b : Nat} {chain chain' : List Nat} (h : FreeChain D b chain)
    (h' : FreeChain D b chain') : chain = chain' := by
  induction h generalizing chain' with
  | nil =>
    cases h' with
    | nil => rfl
    | cons hb _ => exact absurd rfl hb
  | cons hb _ ih =>
    cases h' with
    | nil => exact absurd rfl hb
    | cons _ hrest => rw [ih hrest]

theorem slots_setRef {fl : Block g} {i : Nat} (h1 : 1 ≤ i) (hi : i < g.refsPerBlock) (r : Nat) :
    single (fl.ref i) + slots (fl.setRef i r) = single r + slots fl := by
  have hm : i ∈ Finset.Ico 1 g.refsPerBlock := Finset.mem_Ico.mpr ⟨h1, hi⟩
  have hrest : ∑ j ∈ (Finset.Ico 1 g.refsPerBlock).erase i, single ((fl.setRef i r).ref j) =
      ∑ j ∈ (Finset.Ico 1 g.refsPerBlock).erase i, single (fl.ref j) := by
    refine Finset.sum_congr rfl (fun j hj => ?_)
    rw [Block.ref_setRef hi, if_neg (Finset.ne_of_mem_erase hj)]
  unfold slots
  rw [← Finset.add_sum_erase _ _ hm, ← Finset.add_sum_erase _ (fun j => single (fl.ref j)) hm,
    hrest, Block.ref_setRef hi, if_pos rfl]
  exact add_left_comm _ _ _

theorem slots_eq_zero {fl : Block g} (h : ∀ i, 1 ≤ i → i < g.refsPerBlock → fl.ref i = 0) :
    slots fl = 0 := by
  refine Finset.sum_eq_zero (fun i hi => ?_)
  obtain ⟨h1, hi⟩ := Finset.mem_Ico.mp hi
  rw [h i h1 hi, single_zero]

theorem zero_not_mem_slots (fl : Block g) : 0 ∉ slots fl := by
  unfold slots
  rw [Multiset.mem_sum]
  rintro ⟨i, _, h⟩
  by_cases hz : fl.ref i = 0
  · simp [hz] at h
  · rw [single_of_ne hz, Multiset.mem_singleton] at h
    exact hz h.symm

namespace Free

variable {b : Nat} {F : Multiset Nat}

theorem nil : Free D 0 0 := ⟨[], .nil, rfl⟩

theorem cons (hb : b ≠ 0) (h : Free D ((D b).ref 0) F) :
    Free D b (b ::ₘ (slots (D b) + F)) := by
  obtain ⟨chain, hc, rfl⟩ := h
  exact ⟨b :: chain, .cons hb hc, rfl⟩

theorem eq_zero (h : Free D 0 F) : F = 0 := by
  obtain ⟨chain, hc, rfl⟩ := h
  cases hc with
  | nil => rfl
  | cons hb _ => exact absurd rfl hb

theorem unique {F' : Multiset Nat} (h : Free D b F) (h' : Free D b F') : F = F' := by
  obtain ⟨chain, hc, rfl⟩ := h
  obtain ⟨chain', hc', rfl⟩ := h'
  rw [hc.unique hc']

theorem uncons (h : Free D b F) (hb : b ≠ 0) :
    ∃ rest, Free D ((D b).ref 0) rest ∧ F = b ::ₘ (slots (D b) + rest) := by
  obtain ⟨chain, hc, rfl⟩ := h
  cases hc with
  | nil => exact absurd rfl hb
  | cons _ hc => exact ⟨_, ⟨_, hc, rfl⟩, rfl⟩

theorem zero_not_mem (h : Free D b F) : 0 ∉ F := by
  obtain ⟨chain, hc, rfl⟩ := h
  induction hc with
  | nil => simp [freeBlocks]
  | @cons b rest hb _ ih =>
    rw [freeBlocks, Multiset.mem_cons, Multiset.mem_add]
    rintro (h | h | h)
    · exact hb h.symm
    · exact zero_not_mem_slots _ h
    · exact ih h

theorem congr (h : Free D b F) (he : ∀ x ∈ F, D' x = D x) : Free D' b F := by
  obtain ⟨chain, hc, rfl⟩ := h
  induction hc with
  | nil => exact nil
  | @cons b rest hb _ ih =>
    have hbb : D' b = D b := he b (by simp [freeBlocks])
    have hrest : Free D' ((D' b).ref 0) (freeBlocks D rest) := by
      rw [hbb]
      exact ih (fun x hx => he x (by simp [freeBlocks, hx]))
    have hcons := cons hb hrest
    rw [hbb] at hcons
    exact hcons

end Free

theorem lastRef_le (fl : Block g) (i : Nat) : lastRef fl i ≤ i := by
  induction i with
  | zero => exact Nat.le_refl 0
  | succ i ih =>
    unfold lastRef
    split <;> omega

theorem lastRef_ref {fl : Block g} {i : Nat} (h : lastRef fl i ≠ 0) :
    fl.ref (lastRef fl i) ≠ 0 := by
  induction i with
  | zero => exact absurd rfl h
  | succ i ih =>
    unfold lastRef at h ⊢
    split
    · assumption
    · rename_i hz
      rw [if_neg hz] at h
      exact ih h

theorem lastRef_zero {fl : Block g} {i : Nat} (h : lastRef fl i = 0) :
    ∀ j, 1 ≤ j → j ≤ i → fl.ref j = 0 := by
  induction i with
  | zero => intro j h1 hj; omega
  | succ i ih =>
    unfold lastRef at h
    split at h
    · omega
    · rename_i hz
      intro j h1 hj
      rcases Nat.lt_or_ge i j with hlt | hge
      · obtain rfl : j = i + 1 := by omega
        omega
      · exact ih h j h1 hge

theorem firstEmpty_spec (fl : Block g) {left : Nat} (h : left < g.refsPerBlock) :
    firstEmpty fl left = g.refsPerBlock ∨
      (1 ≤ firstEmpty fl left ∧ firstEmpty fl left < g.refsPerBlock ∧
        fl.ref (firstEmpty fl left) = 0) := by
  induction left with
  | zero => exact .inl rfl
  | succ left ih =>
    unfold firstEmpty
    split
    · rename_i hz
      exact .inr ⟨by omega, by omega, hz⟩
    · exact ih (by omega)

/-- The state `s` holds the file system image `D`. -/
structure At (fs : FixedStore (Block g) σ) (belowIno : Nat) (D : Image g) (s : σ) : Prop where
  good : fs.Good s
  view : fs.view s belowIno = D

section Access

variable {fs : FixedStore (Block g) σ} {belowIno : Nat} {s : σ} {E : Stop → σ → Prop}

theorem At.outcome_read (h : At fs belowIno D s) {b : Nat} (hb : b < fs.sizes belowIno)
    {Q : Option (Block g) → σ → Prop} (hq : ∀ s', At fs belowIno D s' → Q (some (D b)) s') :
    Outcome (fs.read belowIno b) Q E s := by
  refine FixedStore.outcome_read h.good hb (fun s' hg hv => ?_)
  rw [h.view]
  exact hq s' ⟨hg, by rw [hv, h.view]⟩

theorem At.outcome_write (h : At fs belowIno D s) {b : Nat} (hb : b < fs.sizes belowIno)
    (block : Block g) {Q : Int → σ → Prop}
    (hq : ∀ s', At fs belowIno (Function.update D b block) s' → Q 0 s') :
    Outcome (fs.write belowIno b block) Q E s := by
  refine FixedStore.outcome_write h.good hb block (fun s' hg hv => hq s' ⟨hg, ?_⟩)
  rw [hv, setBlock_inode, h.view]

theorem At.outcome_mustRead (h : At fs belowIno D s) {b : Nat} (hb : b < fs.sizes belowIno)
    (message : String) {Q : Block g → σ → Prop} (hq : ∀ s', At fs belowIno D s' → Q (D b) s') :
    Outcome (mustRead fs.toBlockStore belowIno b message) Q E s := by
  unfold mustRead
  rw [Outcome.bind_iff]
  exact h.outcome_read hb hq

theorem At.outcome_mustWrite (h : At fs belowIno D s) {b : Nat} (hb : b < fs.sizes belowIno)
    (block : Block g) (message : String) {Q : Unit → σ → Prop}
    (hq : ∀ s', At fs belowIno (Function.update D b block) s' → Q () s') :
    Outcome (mustWrite fs.toBlockStore belowIno b block message) Q E s := by
  unfold mustWrite
  rw [Outcome.bind_iff]
  exact h.outcome_write hb block hq

end Access

/-- Nothing changed outside the superblock and `S`, and the superblock announces the
same inodes. -/
structure Frame (D D' : Image g) (S : Multiset Nat) : Prop where
  inodeblocks : D'.nInodeblocks = D.nInodeblocks
  outside : ∀ x, x ≠ 0 → x ∉ S → D' x = D x

namespace Frame

variable {D'' : Image g} {S T : Multiset Nat}

theorem refl (D : Image g) (S : Multiset Nat) : Frame D D S := ⟨rfl, fun _ _ _ => rfl⟩

theorem mono (h : Frame D D' S) (hs : ∀ x ∈ S, x ∈ T) : Frame D D' T :=
  ⟨h.inodeblocks, fun x h0 hx => h.outside x h0 (fun hm => hx (hs x hm))⟩

theorem trans (h : Frame D D' S) (h' : Frame D' D'' S) : Frame D D'' S :=
  ⟨h'.inodeblocks.trans h.inodeblocks,
    fun x h0 hx => (h'.outside x h0 hx).trans (h.outside x h0 hx)⟩

theorem update {b : Nat} (hb : b ≠ 0) (hs : b ∈ S) (block : Block g) :
    Frame D (Function.update D b block) S where
  inodeblocks := by
    unfold Image.nInodeblocks
    rw [Function.update_of_ne hb.symm]
  outside := by
    intro x _ hx
    refine Function.update_of_ne (fun he => hx ?_) _ _
    rw [he]
    exact hs

theorem superblock {block : Block g} (h : block.ref 0 = (D 0).ref 0) :
    Frame D (Function.update D 0 block) S where
  inodeblocks := by
    unfold Image.nInodeblocks
    rw [Function.update_self, h]
  outside := fun _ hx _ => Function.update_of_ne hx _ _

end Frame

/-- A snapshot that agrees with the superblock, with the free blocks `F`, all of them
within the `n` blocks of the store. -/
structure Space (n : Nat) (D : Image g) (sn : Snapshot g) (F : Multiset Nat) : Prop where
  superblock : sn.superblock = D 0
  free : Free D D.freeList F
  range : ∀ x ∈ F, x < n
  nodup : F.Nodup

namespace Space

variable {n : Nat} {sn : Snapshot g} {F : Multiset Nat}

theorem head_eq (h : Space n D sn F) : sn.freeList = D.freeList := by
  unfold Snapshot.freeList Image.freeList
  rw [h.superblock]

theorem head_lt (h : Space n D sn F) (hb : D.freeList ≠ 0) : D.freeList < n := by
  obtain ⟨rest, _, rfl⟩ := h.free.uncons hb
  exact h.range _ (by simp)

theorem snapshot (h : Space n D sn F) {sn' : Snapshot g}
    (he : sn'.superblock = sn.superblock) : Space n D sn' F :=
  ⟨he.trans h.superblock, h.free, h.range, h.nodup⟩

theorem update (h : Space n D sn F) {b : Nat} (hb : b ≠ 0) (hf : b ∉ F) (block : Block g) :
    Space n (Function.update D b block) sn F where
  superblock := by
    rw [Function.update_of_ne (Ne.symm hb)]
    exact h.superblock
  free := by
    have hfl : Image.freeList (Function.update D b block) = D.freeList := by
      unfold Image.freeList
      rw [Function.update_of_ne (Ne.symm hb)]
    rw [hfl]
    refine h.free.congr (fun x hx => Function.update_of_ne (fun he => ?_) _ _)
    rw [he] at hx
    exact hf hx
  range := h.range
  nodup := h.nodup

/-- Writing the superblock with a new head of the free list. -/
theorem setHead (h : Space n D sn F) {b : Nat} {F' : Multiset Nat} (hfree : Free D b F')
    (hrange : ∀ x ∈ F', x < n) (hnodup : F'.Nodup) :
    Space n (Function.update D 0 (sn.setFreeList b).superblock) (sn.setFreeList b) F' ∧
      Frame D (Function.update D 0 (sn.setFreeList b).superblock) F := by
  have h4 := g.four_le_refs
  have hsup : (sn.setFreeList b).superblock = (D 0).setRef 1 b := by
    rw [Snapshot.setFreeList, h.superblock]
  refine ⟨⟨?_, ?_, hrange, hnodup⟩, Frame.superblock ?_⟩
  · rw [Function.update_self]
  · have hfl : Image.freeList (Function.update D 0 (sn.setFreeList b).superblock) = b := by
      unfold Image.freeList
      rw [Function.update_self, hsup, Block.ref_setRef (by omega), if_pos rfl]
    rw [hfl]
    refine hfree.congr (fun x hx => Function.update_of_ne (fun he => ?_) _ _)
    rw [he] at hx
    exact hfree.zero_not_mem hx
  · rw [hsup, Block.ref_setRef (by omega), if_neg (by omega)]

theorem setSlot (h : Space n D sn F) (hb : D.freeList ≠ 0) {i : Nat} (h1 : 1 ≤ i)
    (hi : i < g.refsPerBlock) (new : Nat) (F' : Multiset Nat)
    (hmove : single ((D D.freeList).ref i) + F' = single new + F)
    (hrange : ∀ x ∈ F', x < n) (hnodup : F'.Nodup) :
    Space n (Function.update D D.freeList ((D D.freeList).setRef i new)) sn F' ∧
      Frame D (Function.update D D.freeList ((D D.freeList).setRef i new)) F := by
  obtain ⟨rest, hrest, rfl⟩ := h.free.uncons hb
  generalize hhead : D.freeList = b at *
  have hnd := h.nodup
  rw [Multiset.nodup_cons, Multiset.mem_add, not_or] at hnd
  have hslots : single ((D b).ref i) + slots ((D b).setRef i new) = single new + slots (D b) :=
    slots_setRef h1 hi new
  have hF' : F' = b ::ₘ (slots ((D b).setRef i new) + rest) := by
    refine add_left_cancel (a := single ((D b).ref i)) ?_
    rw [hmove, Multiset.add_cons, Multiset.add_cons, ← add_assoc, ← add_assoc, hslots]
  refine ⟨⟨?_, ?_, hrange, hnodup⟩, Frame.update hb (by simp) _⟩
  · rw [Function.update_of_ne (Ne.symm hb)]
    exact h.superblock
  · have hfl : Image.freeList (Function.update D b ((D b).setRef i new)) = b := by
      unfold Image.freeList at hhead ⊢
      rw [Function.update_of_ne (Ne.symm hb)]
      exact hhead
    rw [hfl, hF']
    have hself : Function.update D b ((D b).setRef i new) b = (D b).setRef i new :=
      Function.update_self _ _ _
    have hlink : ((D b).setRef i new).ref 0 = (D b).ref 0 := by
      rw [Block.ref_setRef hi, if_neg (by omega)]
    have hcons := Free.cons (D := Function.update D b ((D b).setRef i new)) (F := rest) hb ?_
    · rw [hself] at hcons
      exact hcons
    · rw [hself, hlink]
      refine hrest.congr (fun x hx => Function.update_of_ne (fun he => ?_) _ _)
      rw [he] at hx
      exact hnd.1.2 hx

end Space

section Lists

variable {fs : FixedStore (Block g) σ} {belowIno : Nat} {s : σ} {sn : Snapshot g}
  {F : Multiset Nat}

/-- The stop of an allocation that finds no free block in the image `D`. -/
def OutOfBlocks (fs : FixedStore (Block g) σ) (belowIno : Nat) (D : Image g) (e : Stop) (s : σ) :
    Prop := e = full ∧ At fs belowIno D s ∧ D.freeList = 0

/-- `treedisk_alloc_block` takes one block off the free list. The last one to be taken
is a free-list block without references, which is all zeros. -/
theorem outcome_allocBlock (h : At fs belowIno D s) (hf : Space (fs.sizes belowIno) D sn F) :
    Outcome (allocBlock fs.toBlockStore belowIno sn)
      (fun r s' => ∃ D' F', At fs belowIno D' s' ∧ Space (fs.sizes belowIno) D' r.2 F' ∧
        F = r.1 ::ₘ F' ∧ Frame D D' F ∧ r.2 = { sn with superblock := D' 0 } ∧
        (D'.freeList = 0 → D' r.1 = Block.zero))
      (OutOfBlocks fs belowIno D) s := by
  have h4 := g.four_le_refs
  unfold allocBlock
  rw [hf.head_eq]
  dsimp only
  split
  · rename_i hb
    exact ⟨rfl, h, hb⟩
  · rename_i hb
    have hbn := hf.head_lt hb
    obtain ⟨rest, hrest, hF⟩ := hf.free.uncons hb
    rw [Outcome.bind_iff]
    refine h.outcome_mustRead hbn _ (fun s₁ h₁ => ?_)
    split
    · -- no slot is in use: the head block itself is taken
      rename_i hi
      have hz : slots (D D.freeList) = 0 :=
        slots_eq_zero (fun j h1 hj => lastRef_zero hi j h1 (by omega))
      rw [hz, zero_add] at hF
      have hsub : ∀ x ∈ rest, x ∈ F := fun x hx => by simp [hF, hx]
      have hnd : rest.Nodup := Multiset.nodup_of_le (hF ▸ Multiset.le_cons_self _ _) hf.nodup
      obtain ⟨hspace, hframe⟩ := hf.setHead hrest (fun x hx => hf.range x (hsub x hx)) hnd
      rw [Outcome.bind_iff]
      refine h₁.outcome_mustWrite (by omega) _ _ (fun s₂ h₂ => ?_)
      rw [Outcome.pure_iff]
      refine ⟨_, rest, h₂, hspace, hF, hframe, ?_, fun hempty => ?_⟩
      · rw [Function.update_self]
        rfl
      · rw [Function.update_of_ne hb]
        have hlink : (D D.freeList).ref 0 = 0 := by
          unfold Image.freeList at hempty
          rw [Function.update_self] at hempty
          simp only [Snapshot.setFreeList] at hempty
          rwa [Block.ref_setRef (by omega), if_pos rfl] at hempty
        refine Block.ext_ref (fun j hj => ?_)
        rw [Block.ref_zero]
        rcases Nat.eq_zero_or_pos j with rfl | hpos
        · exact hlink
        · exact lastRef_zero hi j hpos (by omega)
    · -- the last slot in use is taken
      rename_i hi
      have hle := lastRef_le (D D.freeList) (g.refsPerBlock - 1)
      have href := lastRef_ref hi
      generalize lastRef (D D.freeList) (g.refsPerBlock - 1) = i at hi hle href ⊢
      have h1 : 1 ≤ i := by omega
      have hlt : i < g.refsPerBlock := by omega
      have hmem : (D D.freeList).ref i ∈ F := by
        rw [hF, Multiset.mem_cons, Multiset.mem_add]
        refine .inr (.inl (Multiset.mem_sum.mpr ⟨i, Finset.mem_Ico.mpr ⟨h1, hlt⟩, ?_⟩))
        simp [single_of_ne href]
      obtain ⟨F', hF'⟩ := Multiset.exists_cons_of_mem hmem
      have hsub : ∀ x ∈ F', x ∈ F := fun x hx => by simp [hF', hx]
      have hnd : F'.Nodup := Multiset.nodup_of_le (hF' ▸ Multiset.le_cons_self _ _) hf.nodup
      obtain ⟨hspace, hframe⟩ := hf.setSlot hb h1 hlt 0 F'
        (by rw [single_of_ne href, single_zero, zero_add, Multiset.singleton_add, hF'])
        (fun x hx => hf.range x (hsub x hx)) hnd
      rw [Outcome.bind_iff]
      refine h₁.outcome_mustWrite hbn _ _ (fun s₂ h₂ => ?_)
      rw [Outcome.pure_iff]
      refine ⟨_, F', h₂, hspace, hF', hframe, ?_, fun hempty => ?_⟩
      · rw [← hspace.superblock]
      · unfold Image.freeList at hempty hb
        rw [Function.update_of_ne (Ne.symm hb)] at hempty
        exact absurd hempty hb

/-- `treedisk_free_block` puts one block on the free list. -/
theorem outcome_freeBlock (h : At fs belowIno D s) (hf : Space (fs.sizes belowIno) D sn F)
    {target : Nat} (ht0 : target ≠ 0) (htn : target < fs.sizes belowIno) (htf : target ∉ F)
    {E : Stop → σ → Prop} :
    Outcome (freeBlock fs.toBlockStore belowIno target sn)
      (fun sn' s' => ∃ D', At fs belowIno D' s' ∧
        Space (fs.sizes belowIno) D' sn' (target ::ₘ F) ∧
        Frame D D' (target ::ₘ F) ∧ sn' = { sn with superblock := D' 0 })
      E s := by
  have h4 := g.four_le_refs
  have hnd : (target ::ₘ F).Nodup := Multiset.nodup_cons.mpr ⟨htf, hf.nodup⟩
  have hrange : ∀ x ∈ target ::ₘ F, x < fs.sizes belowIno := by
    intro x hx
    rcases Multiset.mem_cons.mp hx with rfl | hx
    · exact htn
    · exact hf.range x hx
  have hwiped := hf.update ht0 htf Block.zero
  have hframe₁ : Frame D (Function.update D target Block.zero) (target ::ₘ F) :=
    Frame.update ht0 (by simp) _
  unfold freeBlock
  rw [Outcome.bind_iff]
  refine h.outcome_mustWrite htn _ _ (fun s₁ h₁ => ?_)
  rw [hwiped.head_eq]
  dsimp only
  split
  · -- the list was empty: the wiped block is all of it
    rename_i hb
    have hF : F = 0 := (hb ▸ hwiped.free).eq_zero
    have hself : Function.update D target Block.zero target = Block.zero :=
      Function.update_self _ _ _
    have hfree := Free.cons (D := Function.update D target Block.zero) (F := 0) ht0
      (by rw [hself, Block.ref_zero]; exact Free.nil)
    rw [hself, slots_eq_zero (by simp), add_zero] at hfree
    subst hF
    obtain ⟨hspace, hframe⟩ := hwiped.setHead hfree hrange hnd
    rw [Outcome.bind_iff]
    refine h₁.outcome_mustWrite (by omega) _ _ (fun s₂ h₂ => ?_)
    rw [Outcome.pure_iff]
    refine ⟨_, h₂, hspace, hframe₁.trans (hframe.mono (by simp)), ?_⟩
    rw [Function.update_self]
    rfl
  · rename_i hb
    have hbn := hwiped.head_lt hb
    rw [Outcome.bind_iff]
    refine h₁.outcome_mustRead hbn _ (fun s₂ h₂ => ?_)
    rcases firstEmpty_spec (Function.update D target Block.zero
      (Image.freeList (Function.update D target Block.zero)))
      (show g.refsPerBlock - 1 < g.refsPerBlock by omega) with hi | ⟨h1, hi, hz⟩
    · -- the head is full: the wiped block becomes the new head
      rw [if_neg (by simp [hi])]
      rw [Outcome.bind_iff]
      refine h₂.outcome_mustWrite (by omega) _ _ (fun s₃ h₃ => ?_)
      rw [Outcome.bind_iff]
      refine h₃.outcome_mustWrite htn _ _ (fun s₄ h₄ => ?_)
      rw [Outcome.pure_iff]
      generalize hhead : Image.freeList (Function.update D target Block.zero) = b at *
      have hlinked := hf.update ht0 htf (Block.zero.setRef 0 b)
      have hfl : Image.freeList (Function.update D target (Block.zero.setRef 0 b)) = b := by
        rw [← hhead]
        unfold Image.freeList
        rw [Function.update_of_ne (Ne.symm ht0), Function.update_of_ne (Ne.symm ht0)]
      have hself : Function.update D target (Block.zero.setRef 0 b) target =
          Block.zero.setRef 0 b := Function.update_self _ _ _
      have hfree := Free.cons (D := Function.update D target (Block.zero.setRef 0 b)) (F := F) ht0
        (by
          have hrest := hlinked.free
          rw [hfl] at hrest
          rw [hself, Block.ref_setRef (by omega), if_pos rfl]
          exact hrest)
      have hslots : slots (Block.zero.setRef 0 b : Block g) = 0 := by
        refine slots_eq_zero (fun i h1 _ => ?_)
        rw [Block.ref_setRef (by omega), if_neg (by omega), Block.ref_zero]
      rw [hself, hslots, zero_add] at hfree
      obtain ⟨hspace, hframe⟩ := hlinked.setHead hfree hrange hnd
      -- the superblock is written before the link, which makes no difference in the end
      rw [Function.update_comm ht0, Function.update_idem, Function.update_comm (Ne.symm ht0)] at h₄
      have hsub : ∀ x ∈ F, x ∈ target ::ₘ F := fun x hx => Multiset.mem_cons_of_mem hx
      refine ⟨_, h₄, hspace, (Frame.update ht0 (by simp) _).trans (hframe.mono hsub), ?_⟩
      rw [Function.update_self]
      rfl
    · -- the head has room for a reference
      rw [if_pos (by omega)]
      obtain ⟨hspace, hframe⟩ := hwiped.setSlot hb h1 hi target (target ::ₘ F)
        (by rw [hz, single_zero, zero_add, single_of_ne ht0, Multiset.singleton_add]) hrange hnd
      rw [Outcome.bind_iff]
      refine h₂.outcome_mustWrite hbn _ _ (fun s₃ h₃ => ?_)
      rw [Outcome.pure_iff]
      refine ⟨_, h₃, hspace, hframe₁.trans (hframe.mono (by simp +contextual)), ?_⟩
      rw [← hspace.superblock]

/-- Freeing block 0 while the free list is empty: the superblock is wiped and then
written back as it was. -/
theorem outcome_freeBlock_zero (h : At fs belowIno D s) (hf : Space (fs.sizes belowIno) D sn F)
    (hn : 0 < fs.sizes belowIno) (hempty : D.freeList = 0) {E : Stop → σ → Prop} :
    Outcome (freeBlock fs.toBlockStore belowIno 0 sn)
      (fun sn' s' => At fs belowIno D s' ∧ sn' = sn) E s := by
  have hsn : sn.setFreeList 0 = sn := by
    have hself := Block.setRef_self (b := sn.superblock) (i := 1)
    rw [show sn.superblock.ref 1 = 0 from hf.head_eq.trans hempty] at hself
    unfold Snapshot.setFreeList
    rw [hself]
  unfold freeBlock
  rw [Outcome.bind_iff]
  refine h.outcome_mustWrite hn _ _ (fun s₁ h₁ => ?_)
  rw [hf.head_eq, hempty]
  dsimp only
  rw [if_pos rfl, hsn, Outcome.bind_iff]
  refine h₁.outcome_mustWrite hn _ _ (fun s₂ h₂ => ?_)
  rw [Function.update_idem, hf.superblock, Function.update_eq_self] at h₂
  exact ⟨h₂, rfl⟩

end Lists

end Egos.Disk.Treedisk
