import Egos.Disk.Treedisk.FreeList

/-!
# Walking, freeing and growing one tree

Each walk moves blocks between one tree and the free list and keeps their union.
The snapshot in memory may be ahead of the disk: a new indirect block is only
written together with its first reference.
-/
namespace Egos.Disk.Treedisk

open Egos.Lib

set_option autoImplicit false

variable {g : Geometry} {σ : Type} {D D' : Image g} {fs : FixedStore (Block g) σ}
  {belowIno : Nat} {s : σ} {sn : Snapshot g} {F : Multiset Nat}

theorem Frame.nodes_eq {S : Multiset Nat} (h : Frame D D' S) {levels b : Nat}
    (hd : ∀ x ∈ nodes D levels b, x ∉ S) : nodes D' levels b = nodes D levels b := by
  refine nodes_congr (fun x hx => h.outside x (fun he => ?_) (hd x hx))
  rw [he] at hx
  exact zero_not_mem_nodes _ _ hx

theorem Frame.lookup_eq {S : Multiset Nat} (h : Frame D D' S) {offset levels b : Nat}
    (hd : ∀ x ∈ nodes D levels b, x ∉ S) :
    lookup D' offset levels b = lookup D offset levels b := by
  refine lookup_congr (fun x hx => h.outside x (fun he => ?_) (hd x hx))
  rw [he] at hx
  exact zero_not_mem_nodes _ _ hx

theorem not_mem_of_nodup_add {S T : Multiset Nat} (h : (S + T).Nodup) {x : Nat} (hx : x ∈ S) :
    x ∉ T := Multiset.disjoint_left.mp (Multiset.nodup_add.mp h).2.2 hx

section Reading

theorem outcome_walkRead (h : At fs belowIno D s) (offset : Nat) {levels b : Nat}
    (hr : ∀ x ∈ nodes D levels b, x < fs.sizes belowIno) {E : Stop → σ → Prop} :
    Outcome (walkRead fs.toBlockStore belowIno offset levels b)
      (fun r s' => r = some (lookup D offset levels b) ∧ At fs belowIno D s') E s := by
  induction levels generalizing b s with
  | zero =>
    unfold walkRead
    split
    · rename_i hb
      rw [hb]
      exact ⟨rfl, h⟩
    · rename_i hb
      rw [Outcome.bind_iff]
      refine h.outcome_read (hr b (root_mem_nodes hb _)) (fun s' h' => ⟨?_, h'⟩)
      simp [lookup, hb]
  | succ levels ih =>
    unfold walkRead
    split
    · rename_i hb
      rw [hb]
      exact ⟨rfl, h⟩
    · rename_i hb
      rw [Outcome.bind_iff]
      refine h.outcome_read (hr b (root_mem_nodes hb _)) (fun s' h' => ?_)
      rw [lookup_succ hb]
      exact ih h' (fun x hx => hr x (child_mem_nodes hb (indexAt_lt _ _) hx))

end Reading

section Freeing

theorem outcome_recursiveFreeFile (left : Nat) {b : Nat} (h : At fs belowIno D s)
    (hf : Space (fs.sizes belowIno) D sn F) (hb : b ≠ 0) (hnd : (nodes D left b + F).Nodup)
    (hr : ∀ x ∈ nodes D left b, x < fs.sizes belowIno) {E : Stop → σ → Prop} :
    Outcome (recursiveFreeFile fs.toBlockStore belowIno left b sn)
      (fun sn' s' => ∃ D', At fs belowIno D' s' ∧
        Space (fs.sizes belowIno) D' sn' (nodes D left b + F) ∧
        Frame D D' (nodes D left b + F) ∧ sn' = { sn with superblock := D' 0 }) E s := by
  induction left generalizing D s sn F b with
  | zero =>
    have hn : nodes D 0 b = {b} := single_of_ne hb
    rw [hn, Multiset.singleton_add] at hnd ⊢
    unfold recursiveFreeFile
    exact outcome_freeBlock h hf hb (hr b (root_mem_nodes hb _)) (Multiset.nodup_cons.mp hnd).1
  | succ left ih =>
    rw [nodes_succ hb, Multiset.cons_add] at hnd ⊢
    obtain ⟨hbf, hnd⟩ := Multiset.nodup_cons.mp hnd
    unfold recursiveFreeFile
    rw [Outcome.bind_iff]
    refine h.outcome_mustRead (hr b (root_mem_nodes hb _)) _ (fun s₁ h₁ => ?_)
    rw [Outcome.bind_iff]
    -- after `i` references their trees are free and the other trees are as they were
    have hloop := Outcome.foldlM_range (E := E) (s := s₁) (c := sn) (n := g.refsPerBlock)
      (f := fun sn i => if (D b).ref i ≠ 0 then
        recursiveFreeFile fs.toBlockStore belowIno left ((D b).ref i) sn else pure sn)
      (fun i sn' s' => ∃ D', At fs belowIno D' s' ∧
        Space (fs.sizes belowIno) D' sn' (∑ j ∈ Finset.range i, nodes D left ((D b).ref j) + F) ∧
        Frame D D' (∑ j ∈ Finset.range i, nodes D left ((D b).ref j) + F) ∧
        sn' = { sn with superblock := D' 0 })
      ⟨D, h₁, by simpa using hf, Frame.refl _ _, by rw [← hf.superblock]⟩ ?_
    · refine hloop.post ?_
      rintro sn' s' ⟨D', h', hf', hframe, rfl⟩
      refine (outcome_freeBlock h' hf' hb (hr b (root_mem_nodes hb _)) hbf).post ?_
      rintro sn'' s'' ⟨D'', h'', hf'', hframe', rfl⟩
      exact ⟨D'', h'', hf'',
        (hframe.mono (fun x hx => Multiset.mem_cons_of_mem hx)).trans hframe', rfl⟩
    · rintro i hi sn' s' ⟨D', h', hf', hframe, rfl⟩
      have hsum : ∑ j ∈ Finset.range (i + 1), nodes D left ((D b).ref j) + F =
          nodes D left ((D b).ref i) + (∑ j ∈ Finset.range i, nodes D left ((D b).ref j) + F) := by
        rw [Finset.sum_range_succ, add_comm (∑ j ∈ Finset.range i, _), add_assoc]
      have hle : ∑ j ∈ Finset.range (i + 1), nodes D left ((D b).ref j) ≤
          ∑ j ∈ Finset.range g.refsPerBlock, nodes D left ((D b).ref j) :=
        Finset.sum_le_sum_of_subset (Finset.range_mono (by omega))
      have hnd' := Multiset.nodup_of_le (add_le_add_left hle F) hnd
      rw [hsum] at hnd' ⊢
      split
      · rename_i href
        have hsame : nodes D' left ((D b).ref i) = nodes D left ((D b).ref i) :=
          hframe.nodes_eq (fun x hx => not_mem_of_nodup_add hnd' hx)
        have hstep := ih h' hf' href (by rw [hsame]; exact hnd')
          (by rw [hsame]; exact fun x hx => hr x (child_mem_nodes hb hi hx))
        rw [hsame] at hstep
        refine hstep.post ?_
        rintro sn'' s'' ⟨D'', h'', hf'', hframe', rfl⟩
        exact ⟨D'', h'', hf'',
          (hframe.mono (fun x hx => Multiset.mem_add.mpr (.inr hx))).trans hframe', rfl⟩
      · rename_i href
        have hz : (D b).ref i = 0 := by omega
        rw [Outcome.pure_iff, hz, nodes_hole, zero_add]
        exact ⟨D', h', hf', hframe, rfl⟩

theorem levelsOf_one (g : Geometry) : levelsOf g 1 = 0 := by
  have h : levelsOf g 1 ≤ 0 := (levelsOf_le_iff (by decide) 0).mpr (by simp [capacity_zero])
  omega

/-- The sizes for which the scan of `treedisk_free_file` goes on for ever. -/
def Endless (g : Geometry) (nblocks : Nat) : Prop :=
  1 < nblocks ∧ levelLoop g nblocks 32 1 g.refsPerBlock = none

theorem capacity_one (g : Geometry) : capacity g 1 = g.refsPerBlock := Nat.pow_one _

theorem endless_iff {nblocks : Nat} : Endless g nblocks ↔ largestFile g < nblocks := by
  have hb := g.two_le
  have htop : 1 ≤ 31 / g.bits := by
    rw [Nat.le_div_iff_mul_le (by omega)]
    have h8 := g.le_eight
    omega
  have hle : 31 / g.bits ≤ 31 := Nat.div_le_self _ _
  rw [Endless, ← capacity_one]
  constructor
  · rintro ⟨-, hnone⟩
    by_contra hn
    exact levelLoop_ends (show nblocks ≤ largestFile g by omega) 32 1 htop (by omega) hnone
  · intro h
    have hpos := capacity_pos g (31 / g.bits)
    unfold largestFile at h
    exact ⟨by omega, levelLoop_endless h 32 1 _ (.inl ⟨rfl, htop⟩)⟩

theorem Endless.big {nblocks : Nat} (h : Endless g nblocks) : 2 ^ 24 < nblocks :=
  Nat.lt_of_le_of_lt (le_largestFile g) (endless_iff.mp h)

/-- `treedisk_free_file` puts every block of the inode's tree on the free list, if it
ends at all. It takes a missing root for block 0, which does no harm only while the free
list is empty. -/
theorem outcome_freeFile (h : At fs belowIno D s) (hf : Space (fs.sizes belowIno) D sn F)
    (hn : 0 < fs.sizes belowIno)
    (hsize : sn.nblocks < 2 ^ 32) (hempty : sn.nblocks = 0 → sn.root = 0)
    (hroot : 1 < sn.nblocks → sn.root ≠ 0)
    (hhollow : 0 < sn.nblocks → sn.root = 0 → D.freeList = 0)
    (hnd : (nodes D (levelsOf g sn.nblocks) sn.root + F).Nodup)
    (hr : ∀ x ∈ nodes D (levelsOf g sn.nblocks) sn.root, x < fs.sizes belowIno) :
    Outcome (freeFile fs.toBlockStore belowIno sn)
      (fun sn' s' => ∃ D', At fs belowIno D' s' ∧
        Space (fs.sizes belowIno) D' sn' (nodes D (levelsOf g sn.nblocks) sn.root + F) ∧
        Frame D D' (nodes D (levelsOf g sn.nblocks) sn.root + F) ∧
        sn' = { sn with superblock := D' 0 } ∧ ¬ Endless g sn.nblocks)
      (fun e _ => e = .diverge ∧ Endless g sn.nblocks) s := by
  unfold freeFile
  split
  · rename_i hz
    rw [hempty hz, nodes_hole, zero_add]
    exact ⟨D, h, hf, Frame.refl _ _, by rw [← hf.superblock], fun he => by have h1 := he.1; omega⟩
  · split
    · rename_i hz hone
      have hends : ¬ Endless g sn.nblocks := fun he => by have h1 := he.1; omega
      have hl : levelsOf g sn.nblocks = 0 := by rw [hone, levelsOf_one]
      rw [hl] at hnd hr ⊢
      by_cases hzero : sn.root = 0
      · rw [hzero, nodes_hole, zero_add]
        refine (outcome_freeBlock_zero h hf hn (hhollow (by omega) hzero)).post ?_
        rintro sn' s' ⟨h', rfl⟩
        exact ⟨D, h', hf, Frame.refl _ _, by rw [← hf.superblock], hends⟩
      · refine (outcome_recursiveFreeFile 0 h hf hzero hnd hr).post ?_
        rintro sn' s' ⟨D', h', hf', hframe, hsn⟩
        exact ⟨D', h', hf', hframe, hsn, hends⟩
    · rename_i hz hone
      split
      · rename_i hnone
        exact ⟨rfl, by omega, hnone⟩
      · rename_i level hsome
        have hl := levelLoop_some hsize (by omega) 32 1 g.refsPerBlock (.inl (capacity_one g).symm)
          (by
            intro k hk
            obtain rfl : k = 0 := by omega
            rw [capacity_zero]
            omega) hsome
        rw [hl]
        refine (outcome_recursiveFreeFile _ h hf (hroot (by omega)) hnd hr).post ?_
        rintro sn' s' ⟨D', h', hf', hframe, hsn⟩
        refine ⟨D', h', hf', hframe, hsn, fun he => ?_⟩
        rw [he.2] at hsome
        exact absurd hsome (by simp)

end Freeing

section Growing

theorem Snapshot.root_setRoot (sn : Snapshot g) (hi : 2 * sn.inode < g.refsPerBlock) (a : Nat) :
    (sn.setRoot a).root = a := by
  unfold Snapshot.setRoot Snapshot.root
  rw [Block.ref_setRef hi, if_pos rfl]

theorem Snapshot.nblocks_setNblocks (sn : Snapshot g) (hi : 2 * sn.inode + 1 < g.refsPerBlock)
    (a : Nat) : (sn.setNblocks a).nblocks = a := by
  simp only [Snapshot.setNblocks, Snapshot.nblocks, Block.ref_setRef hi, if_true]

theorem Snapshot.root_setNblocks (sn : Snapshot g) (hi : 2 * sn.inode + 1 < g.refsPerBlock)
    (a : Nat) : (sn.setNblocks a).root = sn.root := by
  simp only [Snapshot.setNblocks, Snapshot.root, Block.ref_setRef hi]
  rw [if_neg (by omega)]

/-- Below a fresh indirect block there is only the old tree, at index 0. -/
theorem nodes_spine {b r : Nat} (hb : b ≠ 0) (hD : D b = Block.zero.setRef 0 r) (levels : Nat) :
    nodes D (levels + 1) b = b ::ₘ nodes D levels r := by
  have h4 := g.four_le_refs
  rw [nodes_succ hb, hD, sum_setRef (by omega) r (nodes D levels)]
  simp

theorem lookup_spine {b r offset levels : Nat} (hb : b ≠ 0) (hD : D b = Block.zero.setRef 0 r)
    (hoff : offset < 2 ^ 32) (hcap : offset < capacity g (levels + 1)) :
    lookup D offset (levels + 1) b =
      if offset < capacity g levels then lookup D offset levels r else Block.zero := by
  have h4 := g.four_le_refs
  have hp := capacity_pos g levels
  have hidx : indexAt g offset levels = offset / capacity g levels := by
    rw [indexAt_eq hoff]
    rw [capacity_succ] at hcap
    exact Nat.mod_eq_of_lt (Nat.div_lt_of_lt_mul hcap)
  rw [lookup_succ hb, hD, Block.ref_setRef (by omega), hidx]
  by_cases hlt : offset < capacity g levels
  · rw [if_pos (Nat.div_eq_of_lt hlt), if_pos hlt]
  · have hne : offset / capacity g levels ≠ 0 := by
      have hd := Nat.div_pos (show capacity g levels ≤ offset by omega) hp
      omega
    rw [if_neg hne, if_neg hlt, Block.ref_zero, lookup_hole]

/-- Growing puts indirect blocks above the root; what was there stays reachable and
the new offsets are holes. -/
theorem outcome_growLevels (more : Nat) {levels : Nat} (h : At fs belowIno D s)
    (hf : Space (fs.sizes belowIno) D sn F) (hi : 2 * sn.inode < g.refsPerBlock)
    (hnd : (nodes D levels sn.root + F).Nodup) :
    Outcome (growLevels fs.toBlockStore belowIno more sn)
      (fun sn' s' => ∃ D' F' r, At fs belowIno D' s' ∧ Space (fs.sizes belowIno) D' sn' F' ∧
        sn' = ⟨D' 0, sn.inodeblock.setRef (2 * sn.inode) r, sn.inodeBlockno, sn.inode⟩ ∧
        nodes D' (levels + more) r + F' = nodes D levels sn.root + F ∧ Frame D D' F ∧
        (more = 0 → r = sn.root) ∧ (0 < more → r ≠ 0) ∧
        (∀ offset, offset < 2 ^ 32 → offset < capacity g (levels + more) →
          lookup D' offset (levels + more) r =
            if offset < capacity g levels then lookup D offset levels sn.root else Block.zero) ∧
        ∀ limit, 0 < limit → Trimmed D levels limit sn.root → Trimmed D' (levels + more) limit r)
      (fun e s' => ∃ D', OutOfBlocks fs belowIno D' e s' ∧ Frame D D' F) s := by
  induction more generalizing D s sn F levels with
  | zero =>
    refine ⟨D, F, sn.root, h, hf, ?_, rfl, Frame.refl _ _, fun _ => rfl, by omega, ?_,
      fun _ _ htrim => htrim⟩
    · unfold Snapshot.root
      rw [Block.setRef_self, ← hf.superblock]
    · intro offset _ hcap
      exact (if_pos hcap).symm
  | succ more ih =>
    unfold growLevels
    rw [Outcome.bind_iff]
    refine (outcome_allocBlock h hf).mono ?_ (fun _ _ he => ⟨D, he, Frame.refl _ _⟩)
    rintro ⟨indir, sn₁⟩ s₁ ⟨D₁, F₁, h₁, hf₁, hF, hframe₁, rfl, -⟩
    have hsub : ∀ x ∈ F₁, x ∈ F := fun x hx => by rw [hF]; exact Multiset.mem_cons_of_mem hx
    have hmem : indir ∈ F := by simp [hF]
    have hz : indir ≠ 0 := fun he => hf.free.zero_not_mem (he ▸ hmem)
    have hnew : indir ∉ F₁ := by
      have hn := hf.nodup
      rw [hF, Multiset.nodup_cons] at hn
      exact hn.1
    rw [Outcome.bind_iff]
    refine h₁.outcome_mustWrite (hf.range indir hmem) (Block.zero.setRef 0 sn.root) _
      (fun s₂ h₂ => ?_)
    have hframe₂ := hframe₁.trans (Frame.update hz hmem (Block.zero.setRef 0 sn.root))
    have hf₂ := (hf₁.update hz hnew (Block.zero.setRef 0 sn.root)).snapshot
      (show (Snapshot.setRoot { sn with superblock := D₁ 0 } indir).superblock = D₁ 0 from rfl)
    have hself : Function.update D₁ indir (Block.zero.setRef 0 sn.root) indir =
        Block.zero.setRef 0 sn.root := Function.update_self _ _ _
    generalize Function.update D₁ indir (Block.zero.setRef 0 sn.root) = D₂ at *
    have hT : nodes D₂ levels sn.root = nodes D levels sn.root :=
      hframe₂.nodes_eq (fun x hx => not_mem_of_nodup_add hnd hx)
    have hlook : ∀ offset, lookup D₂ offset levels sn.root = lookup D offset levels sn.root :=
      fun offset => hframe₂.lookup_eq (fun x hx => not_mem_of_nodup_add hnd hx)
    have hspine := nodes_spine hz hself levels
    have hroot := Snapshot.root_setRoot { sn with superblock := D₁ 0 } hi indir
    have hsum : indir ::ₘ nodes D levels sn.root + F₁ = nodes D levels sn.root + F := by
      rw [hF, Multiset.cons_add, Multiset.add_cons]
    have hgrow := @ih _ _ _ _ (levels + 1) h₂ hf₂ hi
      (by rw [hroot, hspine, hT, hsum]; exact hnd)
    refine hgrow.mono ?_ (fun e s' hfail => ?_)
    rotate_left
    · obtain ⟨D', he, hframe⟩ := hfail
      exact ⟨D', he, hframe₂.trans (hframe.mono hsub)⟩
    rintro sn' s' ⟨D', F', r, h', hf', rfl, hnodes, hframe, hsame, hne, hl, htrim⟩
    rw [hroot, hspine, hT, hsum] at hnodes
    rw [hroot] at hl hsame htrim
    have hadd : levels + (more + 1) = levels + 1 + more := by omega
    rw [hadd]
    refine ⟨D', F', r, h', hf', ?_, hnodes, hframe₂.trans (hframe.mono hsub),
      fun hm => by omega, fun _ => ?_, ?_, fun limit hpos hold => ?_⟩
    · have hss : (sn.inodeblock.setRef (2 * sn.inode) indir).setRef (2 * sn.inode) r =
          sn.inodeblock.setRef (2 * sn.inode) r := Block.setRef_setRef _ _ _ _
      unfold Snapshot.setRoot
      rw [hss]
    · rcases Nat.eq_zero_or_pos more with hm | hm
      · rw [hsame hm]
        exact hz
      · exact hne hm
    · intro offset hoff hcap
      rw [hl offset hoff hcap]
      have hm := capacity_mono (g := g) (show levels ≤ levels + 1 by omega)
      by_cases hlt : offset < capacity g (levels + 1)
      · rw [if_pos hlt, lookup_spine hz hself hoff hlt, hlook]
      · rw [if_neg hlt, if_neg (by omega)]
    · refine htrim limit hpos (.spine (hold.congr fun x hx => ?_) hpos hself)
      refine hframe₂.outside x (fun he => ?_) (not_mem_of_nodup_add hnd hx)
      rw [he] at hx
      exact zero_not_mem_nodes _ _ hx

end Growing

section Writing

variable {parent : Block g} {parentOff slot : Nat}

/-- The parent's reference is there afterwards, on disk as well. -/
theorem outcome_getOrAlloc (h : At fs belowIno D s) (hf : Space (fs.sizes belowIno) D sn F)
    (hpar : parent.ref slot = 0 ∨ D parentOff = parent) (h0 : parentOff ≠ 0)
    (hn : parentOff < fs.sizes belowIno) (hout : parentOff ∉ F) :
    Outcome (getOrAlloc fs.toBlockStore belowIno parent parentOff slot sn)
      (fun r s' => ∃ D' F', At fs belowIno D' s' ∧ Space (fs.sizes belowIno) D' r.2.2 F' ∧
        single (parent.ref slot) + F = r.1 ::ₘ F' ∧ D' parentOff = parent.setRef slot r.1 ∧
        Frame D D' (parentOff ::ₘ F) ∧ r.2.2 = { sn with superblock := D' 0 } ∧
        (parent.ref slot = 0 ∧ r.2.1 = true ∧ (D'.freeList = 0 → D' r.1 = Block.zero) ∨
          parent.ref slot = r.1 ∧ r.1 ≠ 0 ∧ r.2.1 = false ∧ D' = D ∧ F' = F))
      (fun e s' => parent.ref slot = 0 ∧ OutOfBlocks fs belowIno D e s') s := by
  unfold getOrAlloc
  split
  · rename_i hz
    rw [Outcome.bind_iff]
    refine (outcome_allocBlock h hf).mono ?_ (fun _ _ he => ⟨hz, he⟩)
    rintro ⟨b, sn₁⟩ s₁ ⟨D₁, F₁, h₁, hf₁, hF, hframe₁, rfl, hlast⟩
    have hbp : b ≠ parentOff := fun he => hout (by rw [hF, ← he]; exact Multiset.mem_cons_self _ _)
    have hout₁ : parentOff ∉ F₁ := fun hx => hout (by rw [hF]; exact Multiset.mem_cons_of_mem hx)
    rw [Outcome.bind_iff]
    refine h₁.outcome_mustWrite hn _ _ (fun s₂ h₂ => ?_)
    rw [Outcome.pure_iff]
    have hf₂ := hf₁.update h0 hout₁ (parent.setRef slot b)
    refine ⟨_, F₁, h₂, hf₂, ?_, Function.update_self _ _ _, ?_, ?_, .inl ⟨hz, rfl, fun he => ?_⟩⟩
    · rw [hz, single_zero, zero_add]
      exact hF
    · exact (hframe₁.mono (fun x hx => Multiset.mem_cons_of_mem hx)).trans
        (Frame.update h0 (by simp) _)
    · rw [Function.update_of_ne (Ne.symm h0)]
    · unfold Image.freeList at he hlast
      rw [Function.update_of_ne (Ne.symm h0)] at he
      rw [Function.update_of_ne hbp]
      exact hlast he
  · rename_i hz
    rw [Outcome.pure_iff]
    refine ⟨D, F, h, hf, ?_, ?_, Frame.refl _ _, by rw [← hf.superblock],
      .inr ⟨rfl, hz, rfl, rfl, rfl⟩⟩
    · rw [single_of_ne hz, Multiset.singleton_add]
    · rw [Block.setRef_self]
      exact hpar.resolve_left hz

/-- The effect of writing `block` at the end of the path of `offset` from the parent's
slot: the path ends in `block` and the other paths end where they did. -/
structure PathWritten (levels offset : Nat) (block parent : Block g) (parentOff slot : Nat)
    (D : Image g) (F : Multiset Nat) (D' : Image g) (F' : Multiset Nat) (r : Nat) : Prop where
  free : Free D' D'.freeList F'
  root_ne : r ≠ 0
  linked : D' parentOff = parent.setRef slot r
  total : nodes D' levels r + F' = nodes D levels (parent.ref slot) + F
  frame : Frame D D' (parentOff ::ₘ (nodes D levels (parent.ref slot) + F))
  contents : ∀ off, off < 2 ^ 32 → lookup D' off levels r =
    if off % capacity g levels = offset % capacity g levels then block
    else lookup D off levels (parent.ref slot)

/-- A walk from the parent's slot put `r` there, and offset `off` now leads to `new off`. -/
structure PathChanged (levels : Nat) (new : Nat → Block g) (parent : Block g)
    (parentOff slot : Nat) (D : Image g) (F : Multiset Nat) (D' : Image g) (F' : Multiset Nat)
    (r : Nat) : Prop where
  linked : D' parentOff = parent.setRef slot r
  total : nodes D' levels r + F' = nodes D levels (parent.ref slot) + F
  frame : Frame D D' (parentOff ::ₘ (nodes D levels (parent.ref slot) + F))
  contents : ∀ off, off < 2 ^ 32 → lookup D' off levels r = new off

/-- The trees below the other references of a child are apart from the path through it. -/
theorem apart_of_path {levels idx b : Nat} {tib : Block g} {D₁ : Image g} {F₁ T : Multiset Nat}
    (hlt : idx < g.refsPerBlock)
    (hnodes : T = b ::ₘ (∑ i ∈ Finset.range g.refsPerBlock, nodes D₁ levels (tib.ref i) + F₁))
    (hnd : T.Nodup) {i : Nat} (hi : i < g.refsPerBlock) (hne : i ≠ idx) {x : Nat}
    (hx : x ∈ nodes D₁ levels (tib.ref i)) : x ∉ b ::ₘ (nodes D₁ levels (tib.ref idx) + F₁) := by
  have hrest : x ∈ ∑ j ∈ (Finset.range g.refsPerBlock).erase idx, nodes D₁ levels (tib.ref j) :=
    Multiset.mem_sum.mpr ⟨i, Finset.mem_erase.mpr ⟨hne, Finset.mem_range.mpr hi⟩, hx⟩
  rw [hnodes, sum_erase_ref tib hlt (nodes D₁ levels), Multiset.nodup_cons,
    add_comm (nodes D₁ levels (tib.ref idx)), add_assoc] at hnd
  rw [Multiset.mem_cons, not_or]
  refine ⟨fun he => hnd.1 (Multiset.mem_add.mpr (.inl (he ▸ hrest))), ?_⟩
  exact not_mem_of_nodup_add hnd.2 hrest

/-- Below the parent's slot stands the block `b`, which is `tib` in memory. What hangs from it in `D₁`
is what hung from the slot in `D`, but for blocks that were free. -/
structure Child (levels : Nat) (parent : Block g) (parentOff slot : Nat) (D : Image g)
    (F : Multiset Nat) (tib : Block g) (b : Nat) (D₁ : Image g) (F₁ : Multiset Nat) : Prop where
  ne_zero : b ≠ 0
  parent_ne : parentOff ≠ 0
  parent_out : parentOff ∉ nodes D (levels + 1) (parent.ref slot) + F
  linked : D₁ parentOff = parent.setRef slot b
  frame : Frame D D₁ (parentOff ::ₘ F)
  nodes : nodes D (levels + 1) (parent.ref slot) + F =
    b ::ₘ (∑ i ∈ Finset.range g.refsPerBlock, nodes D₁ levels (tib.ref i) + F₁)
  lookup : ∀ off, lookup D off (levels + 1) (parent.ref slot) =
    lookup D₁ off levels (tib.ref (indexAt g off levels))
  nodup : (Treedisk.nodes D (levels + 1) (parent.ref slot) + F).Nodup

/-- What the walk below one of the references may use, of all that hangs from the child. -/
theorem below_le {levels idx : Nat} (tib : Block g) (D₁ : Image g) (F₁ : Multiset Nat)
    (hlt : idx < g.refsPerBlock) : nodes D₁ levels (tib.ref idx) + F₁ ≤
      ∑ i ∈ Finset.range g.refsPerBlock, nodes D₁ levels (tib.ref i) + F₁ :=
  add_le_add_left (child_nodes_le (D := D₁) tib hlt levels) F₁

namespace Child

variable {levels idx b : Nat} {tib : Block g} {D₁ : Image g} {F₁ : Multiset Nat}
  (hc : Child levels parent parentOff slot D F tib b D₁ F₁) (hlt : idx < g.refsPerBlock)

include hc

theorem nodup_cons :
    b ∉ ∑ i ∈ Finset.range g.refsPerBlock, Treedisk.nodes D₁ levels (tib.ref i) + F₁ ∧
      (∑ i ∈ Finset.range g.refsPerBlock, Treedisk.nodes D₁ levels (tib.ref i) + F₁).Nodup := by
  have hnd := hc.nodup
  rw [hc.nodes, Multiset.nodup_cons] at hnd
  exact hnd

include hlt

theorem below_sub {x : Nat} (hx : x ∈ Treedisk.nodes D₁ levels (tib.ref idx) + F₁) :
    x ∈ Treedisk.nodes D (levels + 1) (parent.ref slot) + F := by
  rw [hc.nodes]
  exact Multiset.mem_cons_of_mem (Multiset.mem_of_le (below_le tib D₁ F₁ hlt) hx)

theorem not_mem_below : b ∉ Treedisk.nodes D₁ levels (tib.ref idx) + F₁ :=
  fun hx => hc.nodup_cons.1 (Multiset.mem_of_le (below_le tib D₁ F₁ hlt) hx)

theorem below_nodup : (Treedisk.nodes D₁ levels (tib.ref idx) + F₁).Nodup :=
  Multiset.nodup_of_le (below_le tib D₁ F₁ hlt) hc.nodup_cons.2

end Child

theorem PathChanged.up {levels idx : Nat} {new : Nat → Block g} {tib : Block g} {D₁ : Image g}
    {F₁ F' : Multiset Nat} {b r : Nat} (h : PathChanged levels new tib b idx D₁ F₁ D' F' r)
    (hc : Child levels parent parentOff slot D F tib b D₁ F₁) (hlt : idx < g.refsPerBlock) :
    PathChanged (levels + 1) (fun off => if indexAt g off levels = idx then new off
      else lookup D off (levels + 1) (parent.ref slot)) parent parentOff slot D F D' F' b := by
  have hsum := sum_erase_ref tib hlt (nodes D₁ levels)
  have hsub : ∀ x ∈ b ::ₘ (nodes D₁ levels (tib.ref idx) + F₁),
      x ∈ nodes D (levels + 1) (parent.ref slot) + F := by
    intro x hx
    rw [hc.nodes, hsum]
    simp only [Multiset.mem_cons, Multiset.mem_add] at hx ⊢
    tauto
  -- the trees below the other references are not touched
  have hkeep : ∀ i, i < g.refsPerBlock → i ≠ idx → ∀ x ∈ nodes D₁ levels (tib.ref i),
      x ∉ b ::ₘ (nodes D₁ levels (tib.ref idx) + F₁) :=
    fun i hi hne x hx => apart_of_path hlt hc.nodes hc.nodup hi hne hx
  have hothers : ∑ i ∈ (Finset.range g.refsPerBlock).erase idx, nodes D' levels (tib.ref i) =
      ∑ i ∈ (Finset.range g.refsPerBlock).erase idx, nodes D₁ levels (tib.ref i) := by
    refine Finset.sum_congr rfl (fun i hi => ?_)
    obtain ⟨hne, hi⟩ := Finset.mem_erase.mp hi
    exact h.frame.nodes_eq (hkeep i (Finset.mem_range.mp hi) hne)
  refine ⟨?_, ?_, ?_, ?_⟩
  · rw [h.frame.outside parentOff hc.parent_ne (fun hx => hc.parent_out (hsub parentOff hx))]
    exact hc.linked
  · rw [hc.nodes, nodes_succ hc.ne_zero, h.linked, sum_setRef hlt r (nodes D' levels), hothers, hsum,
      Multiset.cons_add, add_right_comm, h.total, add_right_comm]
  · refine (hc.frame.mono ?_).trans (h.frame.mono (fun x hx => Multiset.mem_cons_of_mem (hsub x hx)))
    intro x hx
    rcases Multiset.mem_cons.mp hx with rfl | hx
    · exact Multiset.mem_cons_self _ _
    · exact Multiset.mem_cons_of_mem (Multiset.mem_add.mpr (.inr hx))
  · intro off ho
    rw [lookup_succ hc.ne_zero, h.linked, Block.ref_setRef hlt, hc.lookup off]
    by_cases hi : indexAt g off levels = idx
    · rw [if_pos hi, if_pos hi, h.contents off ho]
    · rw [if_neg hi, if_neg hi]
      exact h.frame.lookup_eq (hkeep _ (indexAt_lt _ _) hi)

theorem PathChanged.trimmed_up {levels offset : Nat} {new : Nat → Block g} {tib : Block g}
    {D₁ : Image g} {F₁ F' : Multiset Nat} {b r limit : Nat}
    (h : PathChanged levels new tib b (indexAt g offset levels) D₁ F₁ D' F' r)
    (hc : Child levels parent parentOff slot D F tib b D₁ F₁) (hoff : offset < 2 ^ 32)
    (hlimit : offset % capacity g (levels + 1) < limit)
    (htib : ∀ i, i < g.refsPerBlock →
      Trimmed D₁ levels (limit - i * capacity g levels) (tib.ref i))
    (hpath : ∀ limit, offset % capacity g levels < limit →
      Trimmed D₁ levels limit (tib.ref (indexAt g offset levels)) → Trimmed D' levels limit r) :
    Trimmed D' (levels + 1) limit b := by
  have hlt := indexAt_lt (g := g) offset levels
  refine ⟨fun hz => absurd hz (by omega), fun _ i hi => ?_⟩
  rw [h.linked, Block.ref_setRef hlt]
  split
  · rename_i hidx
    rw [capacity_succ, Nat.mod_mul, ← indexAt_eq hoff, Nat.mul_comm] at hlimit
    rw [hidx]
    exact hpath _ (by omega) (htib _ hlt)
  · rename_i hidx
    refine (htib i hi).congr fun x hx => h.frame.outside x (fun he => ?_) ?_
    · rw [he] at hx
      exact zero_not_mem_nodes _ _ hx
    · exact apart_of_path hlt hc.nodes hc.nodup hi hidx hx

theorem PathWritten.changed {levels offset : Nat} {block : Block g} {F' : Multiset Nat} {r : Nat}
    (h : PathWritten levels offset block parent parentOff slot D F D' F' r) :
    PathChanged levels (fun off => if off % capacity g levels = offset % capacity g levels
      then block else lookup D off levels (parent.ref slot)) parent parentOff slot D F D' F' r :=
  ⟨h.linked, h.total, h.frame, h.contents⟩

theorem PathWritten.up {levels offset : Nat} {block tib : Block g} {D₁ : Image g}
    {F₁ F' : Multiset Nat} {b r : Nat}
    (h : PathWritten levels offset block tib b (indexAt g offset levels) D₁ F₁ D' F' r)
    (hc : Child levels parent parentOff slot D F tib b D₁ F₁) (hoff : offset < 2 ^ 32) :
    PathWritten (levels + 1) offset block parent parentOff slot D F D' F' b := by
  have hup := h.changed.up hc (indexAt_lt offset levels)
  refine ⟨h.free, hc.ne_zero, hup.linked, hup.total, hup.frame, fun off ho => ?_⟩
  rw [hup.contents off ho]
  simp only [mod_capacity_succ ho hoff]
  by_cases hi : indexAt g off levels = indexAt g offset levels
  · simp only [hi, if_true, true_and, hc.lookup off]
  · simp only [hi, if_false, false_and]

/-- What a walk leaves that ran out of blocks: every block it took is in the tree, and
every offset leads where it led before. -/
structure PathLeft (levels : Nat) (parent : Block g) (parentOff slot : Nat) (D : Image g)
    (F : Multiset Nat) (D' : Image g) (r : Nat) : Prop where
  root_ne : parent.ref slot ≠ 0 → r ≠ 0
  changed : PathChanged levels (fun off => lookup D off levels (parent.ref slot)) parent
    parentOff slot D F D' 0 r

/-- A walk that finds no block for the parent's slot has changed nothing. -/
theorem PathLeft.here {levels : Nat} (hz : parent.ref slot = 0) (hfree : Free D D.freeList F)
    (hempty : D.freeList = 0) (hD : D parentOff = parent) :
    PathLeft levels parent parentOff slot D F D 0 := by
  have hF : F = 0 := (hempty ▸ hfree).eq_zero
  refine ⟨fun hne => absurd hz hne, ⟨?_, ?_, Frame.refl _ _, ?_⟩⟩
  · have hself := Block.setRef_self (b := parent) (i := slot)
    rw [hz] at hself
    rw [hD, hself]
  · rw [hz, hF]
  · intro off _
    rw [hz]

theorem PathLeft.up {levels idx : Nat} {tib : Block g} {D₁ : Image g} {F₁ : Multiset Nat}
    {b r : Nat} (h : PathLeft levels tib b idx D₁ F₁ D' r)
    (hc : Child levels parent parentOff slot D F tib b D₁ F₁) (hidx : idx < g.refsPerBlock) :
    PathLeft (levels + 1) parent parentOff slot D F D' b := by
  have hup := h.changed.up hc hidx
  refine ⟨fun _ => hc.ne_zero, hup.linked, hup.total, hup.frame, fun off ho => ?_⟩
  rw [hup.contents off ho]
  by_cases hi : indexAt g off levels = idx
  · rw [if_pos hi, hc.lookup off, hi]
  · rw [if_neg hi]

/-- The walk of `treedisk_write` and its last write. A parent that is not on disk as it
is in memory is a fresh indirect block; should no block be left, it is on disk as well,
because the last free block is all zeros. -/
theorem outcome_descend {offset : Nat} (hoff : offset < 2 ^ 32) (block : Block g)
    (message : String) (levels : Nat) (h : At fs belowIno D s)
    (hf : Space (fs.sizes belowIno) D sn F)
    (hpar : D parentOff = parent ∨
      (parent.ref slot = 0 ∧ (D.freeList = 0 → D parentOff = parent)))
    (h0 : parentOff ≠ 0) (hn : parentOff < fs.sizes belowIno)
    (hout : parentOff ∉ nodes D levels (parent.ref slot) + F)
    (hnd : (nodes D levels (parent.ref slot) + F).Nodup)
    (hr : ∀ x ∈ nodes D levels (parent.ref slot), x < fs.sizes belowIno) :
    Outcome (descend fs.toBlockStore belowIno offset levels parent parentOff slot sn)
      (fun b s' => Outcome (mustWrite fs.toBlockStore belowIno b block message)
        (fun _ s'' => ∃ D' F' r, At fs belowIno D' s'' ∧
          PathWritten levels offset block parent parentOff slot D F D' F' r ∧
          ∀ limit, offset % capacity g levels < limit →
            Trimmed D levels limit (parent.ref slot) → Trimmed D' levels limit r)
        (fun _ _ => False) s')
      (fun e s' => ∃ D' r, OutOfBlocks fs belowIno D' e s' ∧
        PathLeft levels parent parentOff slot D F D' r) s := by
  have hout' : parentOff ∉ F := fun hx => hout (Multiset.mem_add.mpr (.inr hx))
  have hused : ∀ x ∈ nodes D levels (parent.ref slot) + F, x ≠ 0 ∧ x < fs.sizes belowIno := by
    intro x hx
    rcases Multiset.mem_add.mp hx with hx | hx
    · exact ⟨fun he => zero_not_mem_nodes _ _ (he ▸ hx), hr x hx⟩
    · exact ⟨fun he => hf.free.zero_not_mem (he ▸ hx), hf.range x hx⟩
  induction levels generalizing D s sn F parent parentOff slot with
  | zero =>
    unfold descend
    rw [Outcome.bind_iff]
    have hget := outcome_getOrAlloc h hf (hpar.symm.imp_left And.left) h0 hn hout'
    refine hget.mono ?_ (fun e s' hfull => ⟨D, 0, hfull.2,
      .here hfull.1 hf.free hfull.2.2.2 (hpar.elim id fun hp => hp.2 hfull.2.2.2)⟩)
    rintro ⟨b, fresh, sn₁⟩ s₁ ⟨D₁, F₁, h₁, hf₁, hF, hslot, hframe₁, rfl, -⟩
    rw [Outcome.pure_iff]
    have htotal : nodes D 0 (parent.ref slot) + F = b ::ₘ F₁ := hF
    have hmem : b ∈ nodes D 0 (parent.ref slot) + F := by simp [htotal]
    rw [htotal, Multiset.nodup_cons] at hnd
    obtain ⟨hb0, hbn⟩ := hused b hmem
    have hbp : parentOff ≠ b := fun he => hout (he ▸ hmem)
    refine h₁.outcome_mustWrite hbn _ _ (fun s₂ h₂ => ?_)
    refine ⟨_, F₁, b, h₂, ⟨(hf₁.update hb0 hnd.1 block).free, hb0, ?_, ?_, ?_, ?_⟩,
      fun limit hlimit _ hz => absurd hz (by omega)⟩
    · rw [Function.update_of_ne hbp]
      exact hslot
    · rw [htotal]
      simp [nodes, single_of_ne hb0]
    · refine (hframe₁.mono ?_).trans (Frame.update hb0 (Multiset.mem_cons_of_mem hmem) _)
      intro x hx
      rcases Multiset.mem_cons.mp hx with rfl | hx
      · simp
      · simp [hx]
    · intro off _
      simp [lookup, hb0, capacity_zero, Nat.mod_one]
  | succ levels ih =>
    unfold descend
    rw [Outcome.bind_iff]
    have hget := outcome_getOrAlloc h hf (hpar.symm.imp_left And.left) h0 hn hout'
    refine hget.mono ?_ (fun e s' hfull => ⟨D, 0, hfull.2,
      .here hfull.1 hf.free hfull.2.2.2 (hpar.elim id fun hp => hp.2 hfull.2.2.2)⟩)
    rintro ⟨b, fresh, sn₁⟩ s₁ ⟨D₁, F₁, h₁, hf₁, hF, hslot, hframe₁, rfl, hcase⟩
    -- the rest of the walk, from the child `tib` as it is in memory
    have hrest : ∀ (tib : Block g) (s₂ : σ), At fs belowIno D₁ s₂ →
        (D₁ b = tib ∨ (tib = Block.zero ∧ (D₁.freeList = 0 → D₁ b = tib))) →
        nodes D (levels + 1) (parent.ref slot) + F =
          b ::ₘ (∑ i ∈ Finset.range g.refsPerBlock, nodes D₁ levels (tib.ref i) + F₁) →
        (∀ off, lookup D off (levels + 1) (parent.ref slot) =
          lookup D₁ off levels (tib.ref (indexAt g off levels))) →
        (∀ limit, Trimmed D (levels + 1) limit (parent.ref slot) → ∀ i, i < g.refsPerBlock →
          Trimmed D₁ levels (limit - i * capacity g levels) (tib.ref i)) →
        Outcome (descend fs.toBlockStore belowIno offset levels tib b (indexAt g offset levels)
            { sn with superblock := D₁ 0 })
          (fun b s' => Outcome (mustWrite fs.toBlockStore belowIno b block message)
            (fun _ s'' => ∃ D' F' r, At fs belowIno D' s'' ∧
              PathWritten (levels + 1) offset block parent parentOff slot D F D' F' r ∧
              ∀ limit, offset % capacity g (levels + 1) < limit →
                Trimmed D (levels + 1) limit (parent.ref slot) → Trimmed D' (levels + 1) limit r)
            (fun _ _ => False) s')
          (fun e s' => ∃ D' r, OutOfBlocks fs belowIno D' e s' ∧
            PathLeft (levels + 1) parent parentOff slot D F D' r) s₂ := by
      intro tib s₂ h₂ htib hnodes hlookup htrim
      have hlt := indexAt_lt (g := g) offset levels
      have hmem : b ∈ nodes D (levels + 1) (parent.ref slot) + F := by simp [hnodes]
      obtain ⟨hb0, hbn⟩ := hused b hmem
      have hc : Child levels parent parentOff slot D F tib b D₁ F₁ :=
        ⟨hb0, h0, hout, hslot, hframe₁, hnodes, hlookup, hnd⟩
      have hpar' : D₁ b = tib ∨ (tib.ref (indexAt g offset levels) = 0 ∧
          (D₁.freeList = 0 → D₁ b = tib)) :=
        htib.imp_right fun h => ⟨by rw [h.1, Block.ref_zero], h.2⟩
      have hbout := hc.not_mem_below hlt
      refine (ih h₂ hf₁ hpar' hb0 hbn hbout (hc.below_nodup hlt)
        (fun x hx => (hused x (hc.below_sub hlt (Multiset.mem_add.mpr (.inl hx)))).2)
        (fun hx => hbout (Multiset.mem_add.mpr (.inr hx)))
        (fun x hx => hused x (hc.below_sub hlt hx))).mono ?_ ?_
      · intro b' s' hwrite
        refine hwrite.post ?_
        rintro _ s'' ⟨D', F', r, h', hpath, hkept⟩
        exact ⟨D', F', b, h', hpath.up hc hoff, fun limit hlimit hold =>
          hpath.changed.trimmed_up hc hoff hlimit (htrim limit hold) hkept⟩
      · rintro e s' ⟨D', r, he, hleft⟩
        exact ⟨D', b, he, hleft.up hc hlt⟩
    dsimp only
    rcases hcase with ⟨hz, rfl, hlast⟩ | ⟨hb, hb0, rfl, rfl, rfl⟩
    · rw [if_pos rfl, Outcome.bind_iff, Outcome.pure_iff]
      refine hrest Block.zero s₁ h₁ (.inr ⟨rfl, hlast⟩) ?_ ?_ fun limit _ i _ => ?_
      · rw [hz, single_zero, zero_add] at hF
        rw [hz]
        simp [hF]
      · intro off
        simp [hz]
      · rw [Block.ref_zero]
        exact trimmed_hole _ _ _
    · rw [if_neg (by decide), Outcome.bind_iff]
      have hbn := (hused b (by
        rw [hb]
        exact Multiset.mem_add.mpr (.inl (root_mem_nodes hb0 _)))).2
      refine h₁.outcome_mustRead hbn _ (fun s₂ h₂ => ?_)
      refine hrest (D₁ b) s₂ h₂ (.inl rfl) ?_ ?_ fun limit hold i hi => ?_
      · rw [hb, nodes_succ hb0, Multiset.cons_add]
      · intro off
        rw [hb, lookup_succ hb0]
      · rw [hb] at hold
        exact hold.2 hb0 i hi

end Writing

end Egos.Disk.Treedisk
