import Egos.Disk.Unixdisk.Files

/-!
# The calls of a unixdisk

A write first lets the file grow to its offset, out of the free blocks, and then writes the
data block that the walk from the inode finds. What a growing file shows at the offsets in
between is what its new blocks held before.
-/
namespace Egos.Disk.Unixdisk

open Egos.Lib
open Treedisk (At Frame)

set_option autoImplicit false

variable {g : Geometry} {σ : Type} {D D' : Image g} {n ino offset : Nat} {l l' : List Nat}
  {sn : Snapshot g}

/-- A file after it has grown to an offset. -/
structure Grown (D D' : Image g) (l l' : List Nat) (ino offset : Nat) : Prop where
  scope : Local D D' ino (D'.indirectBlocks ino)
  nblocks : D'.nblocks ino = offset + 1
  blocks : D'.fileBlocks ino ++ l' = D.fileBlocks ino ++ l

theorem Valid.blockAt_not_indirect (hv : Valid n D l) (hino : ino < D.ninodes) {t : Nat}
    (ht : t < D.nblocks ino) : D.blockAt ino t ∉ D.indirectBlocks ino := by
  have hnd := (List.nodup_append.mp (hv.nodup hino)).2.1
  rw [(D.fileBlocks_perm ino).nodup_iff] at hnd
  intro hmem
  refine (List.nodup_append.mp hnd).2.2 _ ?_ _ hmem rfl
  exact List.mem_map_of_mem (List.mem_range.mpr ht)

theorem Valid.blockAt_inj (hv : Valid n D l) (hino : ino < D.ninodes) {t u : Nat}
    (ht : t < D.nblocks ino) (hu : u < D.nblocks ino)
    (he : D.blockAt ino t = D.blockAt ino u) : t = u := by
  have hnd := (List.nodup_append.mp (hv.nodup hino)).2.1
  rw [(D.fileBlocks_perm ino).nodup_iff] at hnd
  exact List.inj_on_of_nodup_map (List.nodup_append.mp hnd).1 (List.mem_range.mpr ht)
    (List.mem_range.mpr hu) he

namespace Grown

theorem perm (hg : Grown D D' l l' ino offset) :
    (l' ++ D'.fileBlocks ino).Perm (l ++ D.fileBlocks ino) := by
  have he := hg.blocks
  exact (List.perm_append_comm.trans (.of_eq he)).trans List.perm_append_comm

theorem sameFile (hg : Grown D D' l l' ino offset) (hv : Valid n D l) (hino : ino < D.ninodes)
    {ino' : Nat} (hino' : ino' < D.ninodes) (hne : ino' ≠ ino) : SameFile D D' ino' := by
  apply hg.scope.sameFile hino hino' hne
  intro b hb hmem
  have hmem' : b ∈ l' ++ D'.fileBlocks ino := List.mem_append_right _ (mem_of_indirects hmem)
  exact hv.disjoint hino hino' hne (hg.perm.mem_iff.mp hmem') hb

theorem valid (hg : Grown D D' l l' ino offset) (hv : Valid n D l) (hino : ino < D.ninodes)
    (hstack : FreeStack D' D'.nInodeblocks D'.freeList D'.freeOffset l')
    (hoff : offset < 12 + g.refsPerBlock + g.epb2) : Valid n D' l' := by
  apply hv.of_perm hino hg.scope.nInodeblocks hstack hg.perm
    (fun ino' hino' hne => hg.sameFile hv hino hino' hne)
  rw [hg.nblocks]
  omega

theorem contents (hg : Grown D D' l l' ino offset) (hino : ino < D.ninodes) (hv' : Valid n D' l')
    {t : Nat} (ht : t ≤ offset) :
    D'.contents ino t = D (dataBlock D.nInodeblocks (D'.blockAt ino t)) := by
  apply hg.scope.data_eq hino
  apply hv'.blockAt_not_indirect
  · unfold Image.ninodes
    rw [hg.scope.nInodeblocks]
    exact hino
  · rw [hg.nblocks]
    omega

theorem old_blocks (hg : Grown D D' l l' ino offset) (hsize : D.nblocks ino ≤ offset) {t : Nat}
    (ht : t < D.nblocks ino) : D'.blockAt ino t = D.blockAt ino t := by
  have hblocks := hg.blocks
  unfold Image.fileBlocks at hblocks
  rw [hg.nblocks] at hblocks
  obtain ⟨rest, hrest⟩ := fileBlocks_prefix (E := g.refsPerBlock) (w := D'.inodeWord ino)
    (M := pointers D') (show D.nblocks ino ≤ offset + 1 by omega)
  rw [hrest, List.append_assoc] at hblocks
  have hsame := (List.append_inj hblocks (by
    rw [Unixdisk.fileBlocks_length, Unixdisk.fileBlocks_length])).1
  exact (fileBlocks_inj hsame t ht).1

theorem new_blocks (hg : Grown D D' l l' ino offset) {t : Nat} (hlo : D.nblocks ino ≤ t)
    (ht : t ≤ offset) :
    l[blocksFor g.refsPerBlock (t + 1) - 1 - blocksFor g.refsPerBlock (D.nblocks ino)]? =
      some (D'.blockAt ino t) := by
  have hpos : (D'.fileBlocks ino ++ l')[blocksFor g.refsPerBlock (t + 1) - 1]? =
      some (D'.blockAt ino t) := by
    have hget := fileBlocks_getElem? (E := g.refsPerBlock) (w := D'.inodeWord ino)
      (M := pointers D') (show t < offset + 1 by omega)
    rw [List.getElem?_append_left]
    · unfold Image.fileBlocks
      rw [hg.nblocks]
      exact hget
    · unfold Image.fileBlocks
      rw [hg.nblocks]
      exact (List.getElem?_eq_some_iff.mp hget).1
  have hmono := blocksFor_mono g.refsPerBlock hlo
  have hnext := blocksFor_lt g.refsPerBlock t
  rw [hg.blocks, List.getElem?_append_right, Image.fileBlocks_length] at hpos
  · exact hpos
  · rw [Image.fileBlocks_length]
    omega

end Grown

/-- A file after a block was written to it. -/
structure Written (D D' : Image g) (l : List Nat) (ino offset : Nat) (block : Block g) : Prop where
  nInodeblocks : D'.nInodeblocks = D.nInodeblocks
  nblocks : D'.nblocks ino = max (D.nblocks ino) (offset + 1)
  block : D'.contents ino offset = block
  kept : ∀ t, t < D.nblocks ino → t ≠ offset → D'.contents ino t = D.contents ino t
  gap : ∀ t, D.nblocks ino ≤ t → t < offset →
    ∃ b, l[blocksFor g.refsPerBlock (t + 1) - 1 - blocksFor g.refsPerBlock (D.nblocks ino)]? =
      some b ∧ D'.contents ino t = D (dataBlock D.nInodeblocks b)
  others : ∀ ino', ino' < D.ninodes → ino' ≠ ino → SameFile D D' ino'

theorem Valid.store (hv : Valid n D l) (hino : ino < D.ninodes) (ht : offset < D.nblocks ino)
    (block : Block g)
    (hD : D' = Function.update D (dataBlock D.nInodeblocks (D.blockAt ino offset)) block) :
    Valid n D' l ∧ Written D D' l ino offset block := by
  have h16 := g.sixteen_le
  have hne := dataBlock_ne_zero D.nInodeblocks (D.blockAt ino offset)
  have hinode : D' (D.inodeBlockno ino) = D (D.inodeBlockno ino) := by
    rw [hD]
    exact Function.update_of_ne
      (dataBlock_ne_inodeblock (inodeBlockno_le hino) (D.blockAt ino offset)).symm _ _
  have hscope : Local D D' ino [D.blockAt ino offset] := by
    refine ⟨?_, fun p _ => by rw [hinode]⟩
    rw [hD]
    apply Frame.update hne
    exact Multiset.mem_cons_of_mem (List.mem_map_of_mem (List.mem_singleton_self _))
  have hword : D'.inodeWord ino = D.inodeWord ino :=
    funext fun k => congrArg (fun b => Treedisk.Block.ref b _) hinode
  have hsize : D'.nblocks ino = D.nblocks ino := congrFun hword 0
  have hmem : D.blockAt ino offset ∈ D.fileBlocks ino := blockAt_mem ht
  have hsame : SamePointers g.refsPerBlock (D.inodeWord ino) (D'.inodeWord ino) (pointers D)
      (pointers D') (D.nblocks ino) := by
    apply SamePointers.of_indirects (by omega) fun k _ => congrFun hword k
    intro b hb
    apply congrArg Treedisk.Block.ref (hscope.data_eq hino fun hmem => ?_)
    rw [List.mem_singleton] at hmem
    exact hv.blockAt_not_indirect hino ht (hmem ▸ hb)
  have hblock : ∀ t, t < D.nblocks ino → D'.blockAt ino t = D.blockAt ino t :=
    fun t ht => hsame.blockAt_eq (by omega) ht
  have hothers : ∀ ino', ino' < D.ninodes → ino' ≠ ino → SameFile D D' ino' := by
    intro ino' hino' hne
    apply hscope.sameFile hino hino' hne
    intro b hb hmem'
    rw [List.mem_singleton] at hmem'
    exact hv.disjoint hino hino' hne (List.mem_append_right _ hmem) (hmem' ▸ hb)
  have hfree : D.blockAt ino offset ∉ l :=
    fun hl => (List.nodup_append.mp (hv.nodup hino)).2.2 _ hl _ hmem rfl
  have hstocked := (hv.stocked ino).frame hfree block
  rw [← hD] at hstocked
  refine ⟨hv.of_perm hino hscope.nInodeblocks hstocked.stack (.of_eq ?_) hothers ?_, ?_⟩
  · unfold Image.fileBlocks
    rw [hsize, hsame.fileBlocks_eq (by omega)]
  · rw [hsize]
    exact hv.small ino hino
  constructor
  · exact hscope.nInodeblocks
  · rw [hsize]
    omega
  · unfold Image.contents
    rw [hblock offset ht, hscope.nInodeblocks, hD, Function.update_self]
  · intro t htlt hne
    unfold Image.contents
    rw [hblock t htlt]
    apply hscope.data_eq hino
    rw [List.mem_singleton]
    exact fun he => hne (hv.blockAt_inj hino htlt ht he)
  · intro t hlo hlt
    omega
  · exact hothers

theorem Grown.written {D₁ : Image g} {block : Block g} (hg : Grown D D₁ l l' ino offset)
    (hv : Valid n D l) (hv₁ : Valid n D₁ l') (hino : ino < D.ninodes) (hsize : D.nblocks ino ≤ offset)
    (hw : Written D₁ D' l' ino offset block) : Written D D' l ino offset block := by
  have hni : D₁.ninodes = D.ninodes := by
    unfold Image.ninodes
    rw [hg.scope.nInodeblocks]
  have hnblocks := hg.nblocks
  constructor
  · exact hw.nInodeblocks.trans hg.scope.nInodeblocks
  · rw [hw.nblocks]
    omega
  · exact hw.block
  · intro t ht hne
    rw [hw.kept t (by omega) hne, hg.contents hino hv₁ (by omega), hg.old_blocks hsize ht]
    rfl
  · intro t hlo hlt
    refine ⟨_, hg.new_blocks hlo (by omega), ?_⟩
    rw [hw.kept t (by omega) (by omega), hg.contents hino hv₁ (by omega)]
  · intro ino' hino' hne
    have h₁ := hg.sameFile hv hino hino' hne
    have h₂ := hw.others ino' (by rw [hni]; exact hino') hne
    exact ⟨h₂.nblocks.trans h₁.nblocks, h₂.blocks.trans h₁.blocks, fun t ht =>
      (h₂.contents t (by rw [h₁.nblocks]; exact ht)).trans (h₁.contents t ht)⟩

section

variable {fs : FixedStore (Block g) σ} {s : σ} {E : Stop → σ → Prop}

theorem outcome_getSnapshot (h : At fs 0 D s) (hn : D.nInodeblocks < fs.sizes 0)
    (hino : ino < D.ninodes) :
    Outcome (getSnapshot fs.toBlockStore ino)
      (fun r s' => r = some (snapshotOf D ino) ∧ At fs 0 D s') E s := by
  rw [getSnapshot, Outcome.bind_iff]
  apply h.outcome_read (by omega)
  intro s₁ h₁
  dsimp only
  have hlt : ¬ (D 0).ref 0 * g.inodesPerBlock ≤ ino := Nat.not_le.mpr hino
  rw [if_neg hlt, Outcome.bind_iff]
  have hle := inodeBlockno_le hino
  apply h₁.outcome_read (show D.inodeBlockno ino < _ by omega)
  intro s₂ h₂
  exact ⟨rfl, h₂⟩

theorem outcome_getSnapshot_none (h : At fs 0 D s) (hn : D.nInodeblocks < fs.sizes 0)
    (hino : ¬ ino < D.ninodes) :
    Outcome (getSnapshot fs.toBlockStore ino) (fun r s' => r = none ∧ At fs 0 D s') E s := by
  rw [getSnapshot, Outcome.bind_iff]
  apply h.outcome_read (by omega)
  intro s₁ h₁
  dsimp only
  have hle : (D 0).ref 0 * g.inodesPerBlock ≤ ino := Nat.not_lt.mp hino
  rw [if_pos hle, Outcome.pure_iff]
  exact ⟨rfl, h₁⟩

theorem outcome_traverse {t i : Nat} (h : At fs 0 D s) (hs : Stocked (fs.sizes 0) D sn l)
    (hrange : ∀ b ∈ fileBlocks g.refsPerBlock sn.word (pointers D) i,
      dataBlock D.nInodeblocks b < fs.sizes 0)
    (ht : t < i) (hi : i ≤ 12 + g.refsPerBlock + g.epb2) :
    Outcome (traverse fs.toBlockStore sn t)
      (fun r s' => r = dataBlock D.nInodeblocks
        (Unixdisk.blockAt g.refsPerBlock sn.word (pointers D) t) ∧ At fs 0 D s') E s := by
  have h16 := g.sixteen_le
  have hn := fs.sizes_lt 0
  have habs : ∀ b ∈ fileBlocks g.refsPerBlock sn.word (pointers D) i,
      sn.absolute b = dataBlock D.nInodeblocks b := fun b hb => hs.absolute hn (hrange b hb)
  have hmem := blockAt_mem (E := g.refsPerBlock) (w := sn.word) (M := pointers D) ht
  rw [traverse, g.entriesPerBlock_eq]
  by_cases h12 : t < 12
  · rw [if_pos h12, Outcome.pure_iff, ← habs _ hmem, blockAt_direct _ _ _ h12]
    exact ⟨rfl, h⟩
  · rw [if_neg h12]
    by_cases h1 : t < 12 + g.refsPerBlock
    · have hsingle := mem_of_indirects
        (single_mem (E := g.refsPerBlock) (w := sn.word) (M := pointers D) (show 12 < i by omega))
      rw [if_pos h1, Outcome.bind_iff,
        show sn.absolute sn.singleIndirect = _ from habs _ hsingle]
      apply h.outcome_read (hrange _ hsingle)
      intro s₁ h₁
      dsimp only
      rw [Outcome.pure_iff, ← habs _ hmem, blockAt_single _ _ (by omega) h1]
      exact ⟨rfl, h₁⟩
    · obtain ⟨hsplit, hmod⟩ := offset_split (show 0 < g.refsPerBlock by omega)
        (show 12 + g.refsPerBlock ≤ t by omega)
      have hdouble := mem_of_indirects (double_mem (E := g.refsPerBlock) (w := sn.word)
        (M := pointers D) (show 0 < g.refsPerBlock by omega)
        (show 12 + g.refsPerBlock < i by omega))
      have hlevel := mem_of_indirects (secondLevel_mem (E := g.refsPerBlock) (w := sn.word)
        (M := pointers D) (i := i) (j := (t - (12 + g.refsPerBlock)) / g.refsPerBlock)
        (by omega) (by omega))
      rw [if_neg h1, if_pos (by omega), Nat.sub_sub]
      dsimp only
      rw [Outcome.bind_iff, show sn.absolute sn.doubleIndirect = _ from habs _ hdouble]
      apply h.outcome_read (hrange _ hdouble)
      intro s₁ h₁
      dsimp only
      rw [Outcome.bind_iff]
      change Outcome (fs.read 0 (sn.absolute (secondLevel sn.word (pointers D)
        ((t - (12 + g.refsPerBlock)) / g.refsPerBlock)))) _ _ _
      rw [habs _ hlevel]
      apply h₁.outcome_read (hrange _ hlevel)
      intro s₂ h₂
      dsimp only
      rw [Outcome.pure_iff, ← habs _ hmem, blockAt_level
        (j := (t - (12 + g.refsPerBlock)) / g.refsPerBlock) _ _ (by omega) (by omega)]
      refine ⟨?_, h₂⟩
      congr 2
      omega

theorem Allocated.grown {sn' : Snapshot g}
    (ha : Allocated fs (D.fileBlocks ino ++ l) D (snapshotOf D ino) sn' offset D' l') :
    Grown D D' l l' ino offset ∧ sn'.word = D'.inodeWord ino := by
  have hword : sn'.word = D'.inodeWord ino := by
    funext k
    change sn'.inodeblock.ref (16 * (sn'.inodeNo % g.inodesPerBlock) + k) =
      (D' (D.inodeBlockno ino)).ref (16 * (ino % g.inodesPerBlock) + k)
    rw [ha.inodeNo, show D' (D.inodeBlockno ino) = sn'.inodeblock from ha.inodeblock]
    rfl
  have hsize : D'.nblocks ino = offset + 1 := by
    rw [← ha.nblocks]
    exact (congrFun hword 0).symm
  refine ⟨⟨⟨?_, fun p hp => ?_⟩, hsize, ?_⟩, hword⟩
  · have hframe := ha.frame
    rw [hword, ← hsize] at hframe
    exact hframe
  · have hblock : D' (D.inodeBlockno ino) = sn'.inodeblock := ha.inodeblock
    rw [hblock]
    exact ha.others p hp
  · have hblocks := ha.blocks
    rw [hword, ← hsize] at hblocks
    exact hblocks

/-- Room for a file that reaches the offset. -/
def HasRoom (D : Image g) (l : List Nat) (ino offset : Nat) : Prop :=
  blocksFor g.refsPerBlock (offset + 1) ≤ l.length + blocksFor g.refsPerBlock (D.nblocks ino)

theorem epb_lt (g : Geometry) : 12 + g.refsPerBlock + g.epb2 < 2 ^ 32 - 1 := by
  have hrefs := g.refs_le
  have hmul := Nat.mul_le_mul hrefs hrefs
  change 12 + g.refsPerBlock + g.refsPerBlock * g.refsPerBlock < _
  omega

theorem outcome_store (h : At fs 0 D s) (hv : Valid (fs.sizes 0) D l) (hino : ino < D.ninodes)
    (hs : Stocked (fs.sizes 0) D sn l) (hword : sn.word = D.inodeWord ino)
    (ht : offset < D.nblocks ino) (block : Block g) :
    Outcome (do
        let toWrite ← traverse fs.toBlockStore sn offset
        if (← fs.write 0 toWrite block) < 0 then pure (-1) else pure (0 : Int))
      (fun r s' => r = 0 ∧ ∃ D' : Image g, At fs 0 D' s' ∧ Valid (fs.sizes 0) D' l ∧
        Written D D' l ino offset block) E s := by
  have hrange : ∀ b ∈ D.fileBlocks ino, dataBlock D.nInodeblocks b < fs.sizes 0 :=
    fun b hb => hv.range hino b (List.mem_append_right _ hb)
  have hwalk := outcome_traverse (E := E) h hs (by rw [hword]; exact hrange) ht
    (hv.small ino hino)
  rw [hword] at hwalk
  rw [Outcome.bind_iff]
  apply hwalk.post
  rintro _ s₁ ⟨rfl, h₁⟩
  rw [Outcome.bind_iff]
  apply h₁.outcome_write (hrange _ (blockAt_mem ht))
  intro s₂ h₂
  rw [if_neg (by decide), Outcome.pure_iff]
  obtain ⟨hv', hw⟩ := hv.store hino ht block rfl
  exact ⟨rfl, _, h₂, hv', hw⟩

theorem outcome_write (h : At fs 0 D s) (hv : Valid (fs.sizes 0) D l) (hino : ino < D.ninodes)
    (hoff : offset < 12 + g.refsPerBlock + g.epb2) (hroom : HasRoom D l ino offset)
    (block : Block g) :
    Outcome (write fs.toBlockStore ino offset block)
      (fun r s' => r = 0 ∧ ∃ (D' : Image g) (l' : List Nat), At fs 0 D' s' ∧
        Valid (fs.sizes 0) D' l' ∧ Written D D' l ino offset block) E s := by
  have hlt := epb_lt g
  rw [write, Outcome.bind_iff]
  apply (outcome_getSnapshot h hv.inodes_lt hino).post
  rintro _ s₁ ⟨rfl, h₁⟩
  dsimp only
  rw [snapshotOf_nblocks]
  by_cases hgrow : D.nblocks ino ≤ offset
  · rw [if_pos hgrow, Outcome.bind_iff]
    have hen : Enough g (fs.sizes 0) D.nInodeblocks offset (D.fileBlocks ino ++ l) := by
      refine ⟨List.perm_append_comm.nodup_iff.mp (hv.nodup hino), fun b hb => ?_, ?_⟩
      · exact hv.range hino b (List.perm_append_comm.mem_iff.mp hb)
      · rw [List.length_append, Image.fileBlocks_length,
          Nat.add_comm (blocksFor g.refsPerBlock (D.nblocks ino))]
        exact hroom
    apply (outcome_alloc h₁ (hv.stocked ino) rfl hen hoff (by omega) hgrow
      (inodeBlockno_pos D ino) (inodeBlockno_le hino)).post
    rintro _ s₂ ⟨sn', rfl, D₁, l₁, h₂, ha⟩
    obtain ⟨hg, hword⟩ := ha.grown
    have hv₁ := hg.valid hv hino ha.stocked.stack hoff
    have hino₁ : ino < D₁.ninodes := by
      unfold Image.ninodes
      rw [hg.scope.nInodeblocks]
      exact hino
    have hsize := hg.nblocks
    apply (outcome_store h₂ hv₁ hino₁ ha.stocked hword (by omega) block).post
    rintro _ s₃ ⟨rfl, D₂, h₃, hv₂, hw⟩
    exact ⟨rfl, D₂, l₁, h₃, hv₂, hg.written hv hv₁ hino hgrow hw⟩
  · rw [if_neg hgrow, pure_bind]
    apply (outcome_store h₁ hv hino (hv.stocked ino) rfl (by omega) block).post
    rintro _ s₃ ⟨rfl, D₂, h₃, hv₂, hw⟩
    exact ⟨rfl, D₂, l, h₃, hv₂, hw⟩

theorem outcome_write_none (h : At fs 0 D s) (hn : D.nInodeblocks < fs.sizes 0)
    (hino : ¬ ino < D.ninodes) (block : Block g) :
    Outcome (write fs.toBlockStore ino offset block) (fun r s' => r = -1 ∧ At fs 0 D s') E s := by
  rw [write, Outcome.bind_iff]
  apply (outcome_getSnapshot_none h hn hino).post
  rintro _ s₁ ⟨rfl, h₁⟩
  exact ⟨rfl, h₁⟩

/-- What a file shows at an offset. -/
def Image.shown (D : Image g) (ino offset : Nat) : Option (Block g) :=
  if offset < D.nblocks ino then some (D.contents ino offset) else none

theorem outcome_read (h : At fs 0 D s) (hv : Valid (fs.sizes 0) D l) (hino : ino < D.ninodes)
    (offset : Nat) :
    Outcome (read fs.toBlockStore ino offset)
      (fun r s' => r = D.shown ino offset ∧ At fs 0 D s') E s := by
  rw [read, Outcome.bind_iff]
  apply (outcome_getSnapshot h hv.inodes_lt hino).post
  rintro _ s₁ ⟨rfl, h₁⟩
  dsimp only
  rw [snapshotOf_nblocks, Image.shown]
  by_cases ht : offset < D.nblocks ino
  · have hrange : ∀ b ∈ D.fileBlocks ino, dataBlock D.nInodeblocks b < fs.sizes 0 :=
      fun b hb => hv.range hino b (List.mem_append_right _ hb)
    rw [if_neg (by omega), if_pos ht, Outcome.bind_iff]
    apply (outcome_traverse h₁ (hv.stocked ino) hrange ht (hv.small ino hino)).post
    rintro _ s₂ ⟨rfl, h₂⟩
    apply h₂.outcome_read (hrange _ (blockAt_mem ht))
    intro s₃ h₃
    exact ⟨rfl, h₃⟩
  · rw [if_pos (by omega), if_neg ht, Outcome.pure_iff]
    exact ⟨rfl, h₁⟩

theorem outcome_read_none (h : At fs 0 D s) (hn : D.nInodeblocks < fs.sizes 0)
    (hino : ¬ ino < D.ninodes) :
    Outcome (read fs.toBlockStore ino offset) (fun r s' => r = none ∧ At fs 0 D s') E s := by
  rw [read, Outcome.bind_iff]
  apply (outcome_getSnapshot_none h hn hino).post
  rintro _ s₁ ⟨rfl, h₁⟩
  exact ⟨rfl, h₁⟩

theorem outcome_getsize (h : At fs 0 D s) (hn : D.nInodeblocks < fs.sizes 0)
    (hino : ino < D.ninodes) :
    Outcome (getsize fs.toBlockStore ino)
      (fun r s' => r = toInt (D.nblocks ino) ∧ At fs 0 D s') E s := by
  rw [getsize, Outcome.bind_iff]
  apply (outcome_getSnapshot h hn hino).post
  rintro _ s₁ ⟨rfl, h₁⟩
  exact ⟨rfl, h₁⟩

/-- A file after its truncation. -/
structure Truncated (D D' : Image g) (ino : Nat) : Prop where
  nInodeblocks : D'.nInodeblocks = D.nInodeblocks
  nblocks : D'.nblocks ino = 0
  others : ∀ ino', ino' < D.ninodes → ino' ≠ ino → SameFile D D' ino'

theorem outcome_truncate (h : At fs 0 D s) (hv : Valid (fs.sizes 0) D l) (hino : ino < D.ninodes) :
    Outcome (setsize fs.toBlockStore ino 0)
      (fun r s' => r = 0 ∧ ∃ (D' : Image g) (l' : List Nat), At fs 0 D' s' ∧
        Valid (fs.sizes 0) D' l' ∧ Truncated D D' ino) E s := by
  rw [setsize, Outcome.bind_iff]
  apply (outcome_getSnapshot h hv.inodes_lt hino).post
  rintro _ s₁ ⟨rfl, h₁⟩
  dsimp only
  rw [snapshotOf_nblocks]
  by_cases hz : 0 = D.nblocks ino
  · rw [if_pos hz, Outcome.pure_iff]
    refine ⟨rfl, D, l, h₁, hv, rfl, hz.symm, fun ino' _ _ => ⟨rfl, rfl, fun _ _ => rfl⟩⟩
  · rw [if_neg hz, if_neg (by omega), Outcome.bind_iff]
    have hwhole : Whole (fs.sizes 0) D (snapshotOf D ino) l :=
      ⟨hv.nodup hino, hv.range hino⟩
    apply (outcome_freeFile h₁ (hv.stocked ino) hwhole (hv.small ino hino)
      (inodeBlockno_pos D ino) (inodeBlockno_le hino)).post
    rintro _ s₂ ⟨D', l', h₂, hf⟩
    rw [Outcome.pure_iff]
    have hblock : D' (D.inodeBlockno ino) = ((snapshotOf D ino).setWord 0 0).inodeblock :=
      hf.inodeblock
    have hperm : l'.Perm (l ++ D.fileBlocks ino) := hf.perm
    have hscope : Local D D' ino l' := by
      refine ⟨hf.frame, fun p hp => ?_⟩
      rw [hblock]
      change ((D (D.inodeBlockno ino)).setRef ((snapshotOf D ino).place 0) 0).ref p = _
      rw [Treedisk.Block.ref_setRef (place_lt _ (by omega))]
      exact if_neg (hp 0 (by omega))
    have hothers : ∀ ino', ino' < D.ninodes → ino' ≠ ino → SameFile D D' ino' := by
      intro ino' hino' hne
      apply hscope.sameFile hino hino' hne
      intro b hb hmem
      exact hv.disjoint hino hino' hne (hperm.mem_iff.mp hmem) hb
    have hsize : D'.nblocks ino = 0 := by
      have hword := congrFun (word_setWord (snapshotOf D ino) (show 0 < 16 by omega) 0) 0
      rw [Function.update_self] at hword
      rw [← hword]
      exact congrArg (fun b => Treedisk.Block.ref b _) hblock
    obtain ⟨sn', hs'⟩ := hf.stocked
    refine ⟨rfl, D', l', h₂, hv.of_perm hino hscope.nInodeblocks hs'.stack ?_ hothers ?_,
      hscope.nInodeblocks, hsize, hothers⟩
    · unfold Image.fileBlocks
      rw [hsize, fileBlocks, List.append_nil]
      exact hperm
    · rw [hsize]
      omega

end

end Egos.Disk.Unixdisk
