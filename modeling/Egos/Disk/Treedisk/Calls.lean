import Egos.Disk.Treedisk.Files

/-!
# The calls of a treedisk as operations on sparse files

Each call on a valid inode keeps the disk valid and does to the represented files
what it says. A write can stop with the panic of a full disk, and `setsize` does not
return for some files of more than `2 ^ 24` blocks; nothing else goes wrong. The calls
are followed over sound disks, which is where a full disk leaves them.
-/
namespace Egos.Disk.Treedisk

open Egos.Lib

set_option autoImplicit false

variable {g : Geometry} {σ : Type} {D : Image g} {fs : FixedStore (Block g) σ}
  {belowIno : Nat} {s : σ} {files : Files (Block g)} {ino : Nat}

/-- The snapshot of an inode as the disk has it. -/
def snapshotOf (D : Image g) (ino : Nat) : Snapshot g :=
  ⟨D 0, D (D.inodeBlockno ino), D.inodeBlockno ino, ino % g.inodesPerBlock⟩

@[simp] theorem snapshotOf_nblocks (D : Image g) (ino : Nat) :
    (snapshotOf D ino).nblocks = D.nblocks ino := rfl

@[simp] theorem snapshotOf_root (D : Image g) (ino : Nat) :
    (snapshotOf D ino).root = D.root ino := rfl

theorem Within.space {n : Nat} {F : Multiset Nat} (hs : Within n D ino F) :
    Space n D (snapshotOf D ino) F :=
  ⟨rfl, hs.free, fun _ hx => (hs.range (Multiset.mem_add.mpr (.inr hx))).2,
    (Multiset.nodup_add.mp hs.nodup).2.1⟩

/-- The block of an inode with new words for it. -/
def inodeWith (D : Image g) (ino nblocks root : Nat) : Block g :=
  ((D (D.inodeBlockno ino)).setRef (2 * (ino % g.inodesPerBlock) + 1) nblocks).setRef
    (2 * (ino % g.inodesPerBlock)) root

theorem ref_inodeWith_root (D : Image g) (ino nblocks root : Nat) :
    (inodeWith D ino nblocks root).ref (2 * (ino % g.inodesPerBlock)) = root := by
  have hw := inode_words_lt g ino
  unfold inodeWith
  rw [Block.ref_setRef (by omega), if_pos rfl]

theorem ref_inodeWith_nblocks (D : Image g) (ino nblocks root : Nat) :
    (inodeWith D ino nblocks root).ref (2 * (ino % g.inodesPerBlock) + 1) = nblocks := by
  have hw := inode_words_lt g ino
  unfold inodeWith
  rw [Block.ref_setRef (by omega), if_neg (by omega), Block.ref_setRef hw, if_pos rfl]

theorem inodeWith_words {D' : Image g} {nblocks root : Nat}
    (h : D' (D.inodeBlockno ino) = inodeWith D ino nblocks root) :
    D'.root ino = root ∧ D'.nblocks ino = nblocks ∧
      ∀ i, i ≠ 2 * (ino % g.inodesPerBlock) → i ≠ 2 * (ino % g.inodesPerBlock) + 1 →
        (D' (D.inodeBlockno ino)).ref i = (D (D.inodeBlockno ino)).ref i := by
  have hw := inode_words_lt g ino
  refine ⟨?_, ?_, fun i h0 h1 => ?_⟩
  · change (D' (D.inodeBlockno ino)).ref _ = _
    rw [h, ref_inodeWith_root]
  · change (D' (D.inodeBlockno ino)).ref _ = _
    rw [h, ref_inodeWith_nblocks]
  · unfold inodeWith at h
    rw [h, Block.ref_setRef (by omega), if_neg h0, Block.ref_setRef hw, if_neg h1]

theorem outcome_getSnapshot (h : At fs belowIno D s) (hn : D.nInodeblocks < fs.sizes belowIno)
    (hino : ino < D.ninodes) {E : Stop → σ → Prop} :
    Outcome (getSnapshot fs.toBlockStore belowIno ino)
      (fun r s' => r = some (snapshotOf D ino) ∧ At fs belowIno D s') E s := by
  unfold getSnapshot
  rw [Outcome.bind_iff]
  refine h.outcome_read (by omega) (fun s₁ h₁ => ?_)
  have hlt : ¬ (D 0).ref 0 * g.inodesPerBlock ≤ ino := by
    unfold Image.ninodes Image.nInodeblocks at hino
    omega
  dsimp only
  rw [if_neg hlt, Outcome.bind_iff]
  have hle := inodeBlockno_le hino
  refine h₁.outcome_read (show D.inodeBlockno ino < _ by omega) (fun s₂ h₂ => ?_)
  exact ⟨rfl, h₂⟩

theorem outcome_getsize (h : At fs belowIno D s) (hv : Sound (fs.sizes belowIno) D)
    (hr : Represents D files) (hino : ino < D.ninodes) {E : Stop → σ → Prop} :
    Outcome (getsize fs.toBlockStore belowIno ino)
      (fun r s' => r = toInt (files ino).size ∧ At fs belowIno D s') E s := by
  unfold getsize
  rw [Outcome.bind_iff]
  refine (outcome_getSnapshot h hv.inodes_lt hino).post ?_
  rintro _ s' ⟨rfl, h'⟩
  rw [← hr.size ino hino]
  exact ⟨rfl, h'⟩

theorem outcome_read (h : At fs belowIno D s) (hv : Sound (fs.sizes belowIno) D)
    (hr : Represents D files) (hino : ino < D.ninodes) (offset : Nat) {E : Stop → σ → Prop} :
    Outcome (read fs.toBlockStore belowIno ino offset)
      (fun r s' => r = (files ino).read offset ∧ At fs belowIno D s') E s := by
  unfold read
  rw [Outcome.bind_iff]
  refine (outcome_getSnapshot h hv.inodes_lt hino).post ?_
  rintro _ s' ⟨rfl, h'⟩
  have hsize := hr.size ino hino
  have hlt := hv.size_lt ino hino
  unfold SparseFile.read
  dsimp only
  rw [snapshotOf_nblocks, snapshotOf_root, hsize]
  split
  · rename_i hge
    rw [if_neg (by omega)]
    exact ⟨rfl, h'⟩
  · rename_i hge
    obtain ⟨F, hs⟩ := hv.within hino
    rw [if_pos (by omega), ← hr.data ino hino offset (by omega)]
    have hcap := le_capacity_levelsOf (g := g) hlt
    have hc : D.contents ino offset = lookup D offset (D.levels ino) (D.root ino) :=
      if_pos (show offset < capacity g (levelsOf g (D.nblocks ino)) by omega)
    rw [hc, ← hsize]
    refine outcome_walkRead h' offset (fun x hx => ?_)
    exact (hs.range (Multiset.mem_add.mpr (.inl hx))).2

theorem outcome_sync (h : At fs belowIno D s) (ino : Nat) {E : Stop → σ → Prop} :
    Outcome (sync fs.toBlockStore belowIno ino) (fun _ s' => At fs belowIno D s') E s :=
  FixedStore.outcome_sync h.good _ (fun _ _ hg hview => ⟨hg, by rw [hview, h.view]⟩)

/-- Every block of the inode's tree went to the free list. -/
def Reclaimed (D D' : Image g) (ino : Nat) : Prop :=
  D'.tree ino = 0 ∧ ∀ F, Free D D.freeList F → Free D' D'.freeList (D.tree ino + F)

/-- What `treedisk_setsize(ino, 0)` leaves of a sound disk. A root is missing only while the
free list is empty. -/
theorem outcome_truncate_sound (h : At fs belowIno D s) (hv : Sound (fs.sizes belowIno) D)
    (hino : ino < D.ninodes)
    (hhollow : 0 < D.nblocks ino → D.root ino = 0 → D.freeList = 0) :
    Outcome (setsize fs.toBlockStore belowIno ino 0)
      (fun r s' => r = toInt (D.nblocks ino) ∧ ¬ Endless g (D.nblocks ino) ∧
        ∃ D' F, At fs belowIno D' s' ∧ Within (fs.sizes belowIno) D ino F ∧
          Changed D D' ino F (D.tree ino + F) ∧ D'.root ino = 0 ∧ D'.nblocks ino = 0)
      (fun e _ => e = .diverge ∧ Endless g (D.nblocks ino)) s := by
  unfold setsize
  rw [Outcome.bind_iff]
  refine (outcome_getSnapshot h hv.inodes_lt hino).post ?_
  rintro _ s' ⟨rfl, h'⟩
  obtain ⟨F, hs⟩ := hv.within hino
  have hn := hv.inodes_lt
  have hle := inodeBlockno_le hino
  dsimp only
  rw [snapshotOf_nblocks]
  split
  · rename_i hz
    have hroot := hv.root_zero ino hino hz.symm
    have htree : D.tree ino = 0 := by
      unfold Image.tree
      rw [hroot, nodes_hole]
    refine ⟨by rw [← hz], fun he => by have h1 := he.1; omega, D, F, h', hs, ?_, hroot, hz.symm⟩
    rw [htree, zero_add]
    exact ⟨hs.free, rfl, Frame.refl _ _, fun _ _ _ => rfl⟩
  · rename_i hz
    rw [if_neg (by omega), Outcome.bind_iff]
    have hfree := outcome_freeFile h' hs.space (by omega) (hv.size_lt ino hino)
      (hv.root_zero ino hino) (hv.root_ne ino hino) hhollow hs.nodup
      (fun x hx => (hs.range (Multiset.mem_add.mpr (.inl hx))).2)
    refine hfree.post ?_
    rintro _ s₁ ⟨D₁, h₁, hspace, hframe, rfl, hends⟩
    rw [Outcome.bind_iff]
    have hib := inodeBlockno_ne_zero D ino
    have hout := hs.inodeBlockno_not_mem hino
    refine h₁.outcome_mustWrite (show D.inodeBlockno ino < _ by omega) (inodeWith D ino 0 0) _
      (fun s₂ h₂ => ?_)
    have hspace₂ := hspace.update hib hout (inodeWith D ino 0 0)
    have hframe₂ := (hframe.mono (fun x hx => Multiset.mem_cons_of_mem hx)).trans
      (Frame.update hib (Multiset.mem_cons_self _ _) (inodeWith D ino 0 0))
    have hself : Function.update D₁ (D.inodeBlockno ino) (inodeWith D ino 0 0)
        (D.inodeBlockno ino) = inodeWith D ino 0 0 := Function.update_self _ _ _
    generalize Function.update D₁ (D.inodeBlockno ino) (inodeWith D ino 0 0) = D₂ at *
    obtain ⟨hroot, hnb, hwords⟩ := inodeWith_words hself
    have htree : Image.tree D₂ ino = 0 := by
      unfold Image.tree
      rw [hroot, nodes_hole]
    exact ⟨rfl, hends, D₂, F, h₂, hs, ⟨hspace₂.free, by rw [htree, zero_add], hframe₂, hwords⟩,
      hroot, hnb⟩

theorem Changed.truncated {n : Nat} {D' : Image g} {F F' : Multiset Nat}
    (hc : Changed D D' ino F F') (hs : Within n D ino F) (hino : ino < D.ninodes)
    (hr : Represents D files) (hroot : D'.root ino = 0) (hnb : D'.nblocks ino = 0) :
    Represents D' (Function.update files ino (.empty Block.zero)) := by
  refine hc.represents hs hino hr _ hnb (fun offset _ => ?_) (SparseFile.blank_empty _)
  unfold Image.contents
  rw [hroot, lookup_hole, ite_self]
  rfl

theorem outcome_truncate (h : At fs belowIno D s) (hv : Valid (fs.sizes belowIno) D)
    (hr : Represents D files) (hino : ino < D.ninodes) :
    Outcome (setsize fs.toBlockStore belowIno ino 0)
      (fun r s' => r = toInt (files ino).size ∧ ¬ Endless g (files ino).size ∧
        ∃ D', At fs belowIno D' s' ∧ Valid (fs.sizes belowIno) D' ∧
        D'.nInodeblocks = D.nInodeblocks ∧ Reclaimed D D' ino ∧
        Represents D' (Function.update files ino (.empty Block.zero)))
      (fun e _ => e = .diverge ∧ Endless g (files ino).size) s := by
  rw [← hr.size ino hino]
  refine (outcome_truncate_sound h hv.sound hino
    (fun hpos hz => absurd hz (hv.root_ne ino hino hpos))).post ?_
  rintro r s' ⟨rfl, hends, D', F, h', hs, hc, hroot, hnb⟩
  refine ⟨rfl, hends, D', h', ?_, hc.frame.inodeblocks, ⟨?_, fun F' hF' => ?_⟩,
    hc.truncated hs hino hr hroot hnb⟩
  · exact hc.valid hs hino hv (by omega) (fun _ => hroot) (fun hp => by omega)
  · unfold Image.tree
    rw [hroot, nodes_hole]
  · rw [hF'.unique hs.free]
    exact hc.free

/-- The snapshot that `treedisk_write` works on after it has set the size. -/
theorem setNblocks_growing (D : Image g) (ino : Nat) {offset : Nat} (hoff : offset + 1 < 2 ^ 32) :
    (if (decide (D.nblocks ino ≤ offset)) = true
      then (snapshotOf D ino).setNblocks ((offset + 1) % 2 ^ 32) else snapshotOf D ino) =
      (snapshotOf D ino).setNblocks (max (D.nblocks ino) (offset + 1)) := by
  split
  · rename_i h
    rw [decide_eq_true_eq] at h
    rw [Nat.mod_eq_of_lt hoff, Nat.max_eq_right (by omega)]
  · rename_i h
    rw [decide_eq_true_eq] at h
    rw [Nat.max_eq_left (by omega)]
    unfold Snapshot.setNblocks
    have hself := Block.setRef_self (b := (snapshotOf D ino).inodeblock)
      (i := 2 * (snapshotOf D ino).inode + 1)
    change (snapshotOf D ino).inodeblock.setRef _ (D.nblocks ino) = _ at hself
    rw [hself]

theorem levels_growing {nblocks offset : Nat} (hoff : offset + 1 < 2 ^ 32) :
    levelsOf g nblocks + ((if (decide (nblocks ≤ offset)) = true then countLevels g offset
      else levelsOf g nblocks) - levelsOf g nblocks) =
      levelsOf g (max nblocks (offset + 1)) := by
  split
  · rename_i h
    rw [decide_eq_true_eq] at h
    rw [Nat.max_eq_right (by omega), levelsOf_succ]
    have hm := levelsOf_mono (g := g) hoff (show nblocks ≤ offset + 1 by omega)
    rw [levelsOf_succ] at hm
    omega
  · rename_i h
    rw [decide_eq_true_eq] at h
    rw [Nat.max_eq_left (by omega)]
    omega

/-- What a walk of `treedisk_write` leaves, from the tree it has grown (`D₁`) and the path
it has changed from the updated inode block. -/
theorem walk_changed {n : Nat} {F F₁ F' : Multiset Nat} {D₁ D' : Image g} {r₁ r size : Nat}
    {new : Nat → Block g} (hs : Within n D ino F) (hino : ino < D.ninodes)
    (htotal : nodes D₁ (levelsOf g size) r₁ + F₁ = D.tree ino + F)
    (hframe : Frame D D₁ F) (hfree : Free D' D'.freeList F')
    (hpath : PathChanged (levelsOf g size) new (inodeWith D ino size r₁) (D.inodeBlockno ino)
      (2 * (ino % g.inodesPerBlock))
      (Function.update D₁ (D.inodeBlockno ino) (inodeWith D ino size r₁)) F₁ D' F' r) :
    Changed D D' ino F F' ∧ D'.root ino = r ∧ D'.nblocks ino = size ∧
      ∀ off, off < 2 ^ 32 → D'.contents ino off =
        if off < capacity g (levelsOf g size) then new off else Block.zero := by
  have hw := inode_words_lt g ino
  have hib := inodeBlockno_ne_zero D ino
  have hslot := ref_inodeWith_root D ino size r₁
  -- the inode block is none of the blocks of the tree
  have hapart : ∀ x ∈ nodes D₁ (levelsOf g size) r₁, x ∉ ({D.inodeBlockno ino} : Multiset Nat) := by
    intro x hx hm
    rw [Multiset.mem_singleton] at hm
    refine hs.inodeBlockno_not_mem hino (hm ▸ ?_)
    rw [← htotal]
    exact Multiset.mem_add.mpr (.inl hx)
  have hupd : Frame D₁ (Function.update D₁ (D.inodeBlockno ino) (inodeWith D ino size r₁))
      {D.inodeBlockno ino} := Frame.update hib (by simp) _
  have htot := hpath.total
  have hfr := hpath.frame
  rw [hslot, hupd.nodes_eq hapart, htotal] at htot hfr
  have hwritten : D' (D.inodeBlockno ino) = inodeWith D ino size r := by
    rw [hpath.linked]
    unfold inodeWith
    rw [Block.setRef_setRef]
  obtain ⟨hroot, hnb, hwords⟩ := inodeWith_words hwritten
  have hl : D'.levels ino = levelsOf g size := by
    unfold Image.levels
    rw [hnb]
  have htree : D'.tree ino = nodes D' (levelsOf g size) r := by
    unfold Image.tree
    rw [hl, hroot]
  refine ⟨⟨hfree, by rw [htree, htot], ?_, hwords⟩, hroot, hnb, fun off ho => ?_⟩
  · refine ((hframe.mono ?_).trans (hupd.mono ?_)).trans hfr
    · intro x hx
      exact Multiset.mem_cons_of_mem (Multiset.mem_add.mpr (.inr hx))
    · intro x hx
      rw [Multiset.mem_singleton.mp hx]
      exact Multiset.mem_cons_self _ _
  · unfold Image.contents
    rw [hl, hroot, hpath.contents off ho]

theorem walk_base {n : Nat} {F F₁ : Multiset Nat} {D₁ : Image g} {r₁ size off : Nat}
    (hs : Within n D ino F) (hino : ino < D.ninodes)
    (htotal : nodes D₁ (levelsOf g size) r₁ + F₁ = D.tree ino + F)
    (hlookup : lookup D₁ off (levelsOf g size) r₁ = D.contents ino off) :
    lookup (Function.update D₁ (D.inodeBlockno ino) (inodeWith D ino size r₁)) off (levelsOf g size)
      ((inodeWith D ino size r₁).ref (2 * (ino % g.inodesPerBlock))) = D.contents ino off := by
  have hw := inode_words_lt g ino
  have hslot := ref_inodeWith_root D ino size r₁
  rw [hslot, ← hlookup]
  refine lookup_congr (fun x hx => Function.update_of_ne (fun he => ?_) _ _)
  refine hs.inodeBlockno_not_mem hino (he ▸ ?_)
  rw [← htotal]
  exact Multiset.mem_add.mpr (.inl hx)

theorem contents_past {size off : Nat} (hold : D.nblocks ino ≤ size) (hsize : size < 2 ^ 32)
    (hoff : ¬ off < capacity g (levelsOf g size)) : D.contents ino off = Block.zero := by
  have hmono := capacity_mono (g := g) (levelsOf_mono (g := g) hsize hold)
  exact if_neg (show ¬ off < capacity g (levelsOf g (D.nblocks ino)) by omega)

theorem Frame.files_same {n : Nat} {F : Multiset Nat} {D' : Image g} (hframe : Frame D D' F)
    (hs : Within n D ino F) (hino : ino < D.ninodes) :
    D'.ninodes = D.ninodes ∧ ∀ i, i < D.ninodes → D'.root i = D.root i ∧
      D'.nblocks i = D.nblocks i ∧ D'.tree i = D.tree i ∧
      ∀ off, D'.contents i off = D.contents i off := by
  refine ⟨by unfold Image.ninodes; rw [hframe.inodeblocks], fun i hi => ?_⟩
  have hblock : D' (D.inodeBlockno i) = D (D.inodeBlockno i) :=
    hframe.outside _ (inodeBlockno_ne_zero D i)
      (fun hx => hs.inodeBlockno_not_mem hi (Multiset.mem_add.mpr (.inr hx)))
  have hroot : D'.root i = D.root i := congrArg (fun b => Block.ref b _) hblock
  have hnb : D'.nblocks i = D.nblocks i := congrArg (fun b => Block.ref b _) hblock
  have hapart : ∀ x ∈ D.tree i, x ∉ F := by
    intro x hx hF
    by_cases hne : i = ino
    · rw [hne] at hx
      exact not_mem_of_nodup_add hs.nodup hx hF
    · exact hs.apart hino hi hne hx
        (Multiset.mem_cons_of_mem (Multiset.mem_add.mpr (.inr hF)))
  refine ⟨hroot, hnb, ?_, fun off => ?_⟩
  · unfold Image.tree Image.levels
    rw [hroot, hnb]
    exact hframe.nodes_eq hapart
  · have hl : D'.levels i = D.levels i := congrArg (levelsOf g) hnb
    unfold Image.contents
    rw [hl, hroot, hframe.lookup_eq hapart]

theorem Frame.sound {n : Nat} {F : Multiset Nat} {D' : Image g} (hframe : Frame D D' F)
    (hv : Sound n D) (hs : Within n D ino F) (hino : ino < D.ninodes) (hempty : D'.freeList = 0) :
    Sound n D' := by
  obtain ⟨hn, hsame⟩ := hframe.files_same hs hino
  obtain ⟨F₀, -, hF⟩ := hv.parts
  constructor
  · rw [hframe.inodeblocks]
    exact hv.inodes_lt
  · intro i hi
    rw [(hsame i (hn ▸ hi)).2.1]
    exact hv.size_lt i (hn ▸ hi)
  · intro i hi
    rw [(hsame i (hn ▸ hi)).1, (hsame i (hn ▸ hi)).2.1]
    exact hv.root_zero i (hn ▸ hi)
  · intro i hi
    rw [(hsame i (hn ▸ hi)).1, (hsame i (hn ▸ hi)).2.1]
    exact hv.root_ne i (hn ▸ hi)
  · refine ⟨0, hempty ▸ Free.nil, ?_⟩
    have hsum : ∑ i ∈ Finset.range D.ninodes, D'.tree i = ∑ i ∈ Finset.range D.ninodes, D.tree i :=
      Finset.sum_congr rfl fun i hi => (hsame i (Finset.mem_range.mp hi)).2.2.1
    rw [hn, hsum, hframe.inodeblocks, add_zero]
    exact (Multiset.le_add_right _ _).trans hF

theorem Frame.represents {n : Nat} {F : Multiset Nat} {D' : Image g} (hframe : Frame D D' F)
    (hs : Within n D ino F) (hino : ino < D.ninodes) (hr : Represents D files) :
    Represents D' files := by
  obtain ⟨hn, hsame⟩ := hframe.files_same hs hino
  constructor
  · intro i hi
    rw [(hsame i (hn ▸ hi)).2.1]
    exact hr.size i (hn ▸ hi)
  · intro i hi offset hoff
    rw [(hsame i (hn ▸ hi)).2.2.2]
    exact hr.data i (hn ▸ hi) offset hoff
  · intro i hi
    exact hr.blank i (hn ▸ hi)

/-- What a write that runs out of blocks leaves: a sound disk with the same files, except
that the file written to may have got its new size already. -/
structure Aborted (n : Nat) (D : Image g) (ino offset : Nat) (D' : Image g) : Prop where
  sound : Sound n D'
  inodeblocks : D'.nInodeblocks = D.nInodeblocks
  size : D'.nblocks ino = D.nblocks ino ∨ D'.nblocks ino = max (D.nblocks ino) (offset + 1)
  represents : ∀ files, Represents D files →
    Represents D' (Function.update files ino ⟨D'.nblocks ino, (files ino).data⟩)

theorem blank_resized {file : SparseFile (Block g)} (hb : file.Blank Block.zero) {size : Nat}
    (h : file.size ≤ size) : (⟨size, file.data⟩ : SparseFile (Block g)).Blank Block.zero :=
  fun off hoff => hb off (h.trans hoff)

theorem Frame.aborted {n : Nat} {F : Multiset Nat} {D' : Image g} (hframe : Frame D D' F)
    (hv : Sound n D) (hs : Within n D ino F) (hino : ino < D.ninodes) (hempty : D'.freeList = 0)
    (offset : Nat) : Aborted n D ino offset D' := by
  have hnb := ((hframe.files_same hs hino).2 ino hino).2.1
  refine ⟨hframe.sound hv hs hino hempty, hframe.inodeblocks, .inl hnb, fun files hr => ?_⟩
  rw [hnb, hr.size ino hino, Function.update_eq_self]
  exact hframe.represents hs hino hr

/-- What growing leaves of a file that gets `size` blocks: the tree of the new depth below `r₁`,
with every offset leading where it led before. -/
structure Grown (n : Nat) (D : Image g) (ino size : Nat) (F : Multiset Nat) (D₁ : Image g)
    (sn : Snapshot g) (F₁ : Multiset Nat) (r₁ : Nat) : Prop where
  space : Space n D₁ sn F₁
  total : nodes D₁ (levelsOf g size) r₁ + F₁ = D.tree ino + F
  frame : Frame D D₁ F
  root_ne : 1 < size → r₁ ≠ 0
  contents : ∀ off, off < 2 ^ 32 → off < capacity g (levelsOf g size) →
    lookup D₁ off (levelsOf g size) r₁ = D.contents ino off
  trimmed : ∀ limit, 0 < limit → Trimmed D (D.levels ino) limit (D.root ino) →
    Trimmed D₁ (levelsOf g size) limit r₁

/-- The rest of a write, once the inode block on disk is the one in memory. -/
theorem Grown.outcome_walk {size offset : Nat} {F F₁ : Multiset Nat} {D₁ : Image g}
    {sn₁ : Snapshot g} {r₁ : Nat} (hg : Grown (fs.sizes belowIno) D ino size F D₁ sn₁ F₁ r₁)
    (hv : Sound (fs.sizes belowIno) D) (hs : Within (fs.sizes belowIno) D ino F)
    (hino : ino < D.ninodes) (hoff : offset + 1 < 2 ^ 32)
    (hsz : max (D.nblocks ino) (offset + 1) = size) (block : Block g)
    (h₂ : At fs belowIno (Function.update D₁ (D.inodeBlockno ino) (inodeWith D ino size r₁)) s) :
    Outcome (do
        let b ← descend fs.toBlockStore belowIno offset (levelsOf g size)
          (inodeWith D ino size r₁) (D.inodeBlockno ino) (2 * (ino % g.inodesPerBlock)) sn₁
        mustWrite fs.toBlockStore belowIno b block "treedisk_write: data block"
        pure (0 : Int))
      (fun r s' => r = 0 ∧ ∃ D' F F', At fs belowIno D' s' ∧
        Within (fs.sizes belowIno) D ino F ∧ Changed D D' ino F F' ∧ D'.root ino ≠ 0 ∧
        D'.nblocks ino = size ∧ (D.Trim ino → D'.Trim ino) ∧
        ∀ off, off < 2 ^ 32 →
          D'.contents ino off = if off = offset then block else D.contents ino off)
      (fun e s' => ∃ D', OutOfBlocks fs belowIno D' e s' ∧
        Aborted (fs.sizes belowIno) D ino offset D') s := by
  have hlt := hv.size_lt ino hino
  have hw := inode_words_lt g ino
  have hib := inodeBlockno_ne_zero D ino
  have hout := hs.inodeBlockno_not_mem hino
  have hibn := hv.inodeBlockno_lt hino
  have hslot := ref_inodeWith_root D ino size r₁
  have hsub : ∀ x ∈ nodes D₁ (levelsOf g size) r₁ + F₁, x ∈ D.tree ino + F := by
    intro x hx
    rw [hg.total] at hx
    exact hx
  have hupd : nodes (Function.update D₁ (D.inodeBlockno ino) (inodeWith D ino size r₁))
      (levelsOf g size) r₁ = nodes D₁ (levelsOf g size) r₁ := by
    refine nodes_congr (fun x hx => Function.update_of_ne (fun he => ?_) _ _)
    exact hout (he ▸ hsub x (Multiset.mem_add.mpr (.inl hx)))
  have hspace₂ := hg.space.update hib
    (fun hx => hout (hsub _ (Multiset.mem_add.mpr (.inr hx)))) (inodeWith D ino size r₁)
  have hcap := le_capacity_levelsOf (g := g) (show size < 2 ^ 32 by omega)
  have hbase : ∀ off, off < 2 ^ 32 → off < capacity g (levelsOf g size) → _ :=
    fun off ho hoc => walk_base hs hino hg.total (hg.contents off ho hoc)
  rw [Outcome.bind_iff]
  refine (outcome_descend (show offset < 2 ^ 32 by omega) block
    "treedisk_write: data block" (levelsOf g size) h₂ hspace₂ (.inl (Function.update_self _ _ _))
    hib hibn ?_ ?_ ?_).mono ?_ ?_
  · rw [hslot, hupd]
    exact fun hx => hout (hsub _ hx)
  · rw [hslot, hupd, hg.total]
    exact hs.nodup
  · rw [hslot, hupd]
    exact fun x hx => (hs.range (hsub x (Multiset.mem_add.mpr (.inl hx)))).2
  · intro b s₃ hwrite
    rw [Outcome.bind_iff]
    refine hwrite.mono ?_ (fun _ _ he => he.elim)
    rintro _ s₄ ⟨D', F', r, h', hpath, hkept⟩
    obtain ⟨hc, hroot', hnb', hcont⟩ :=
      walk_changed hs hino hg.total hg.frame hpath.free hpath.changed
    refine ⟨rfl, D', F, F', h', hs, hc, hroot' ▸ hpath.root_ne, hnb', fun hold => ?_,
      fun off ho => ?_⟩
    · unfold Image.Trim Image.levels
      rw [hroot', hnb']
      refine hkept size (by rw [Nat.mod_eq_of_lt (by omega)]; omega) ?_
      rw [hslot]
      refine (hg.trimmed size (by omega) (hold.mono (by omega))).congr fun x hx =>
        Function.update_of_ne (fun he => ?_) _ _
      exact hout (he ▸ hsub x (Multiset.mem_add.mpr (.inl hx)))
    rw [hcont off ho]
    by_cases hoc : off < capacity g (levelsOf g size)
    · rw [if_pos hoc, Nat.mod_eq_of_lt hoc, Nat.mod_eq_of_lt (show offset < _ by omega),
        hbase off ho hoc]
    · rw [if_neg hoc, if_neg (by omega), contents_past (by omega) (by omega) hoc]
  · rintro e s₃ ⟨D', r, he, hleft⟩
    obtain ⟨hc, hroot', hnb', hcont⟩ :=
      walk_changed hs hino hg.total hg.frame (he.2.2 ▸ Free.nil) hleft.changed
    refine ⟨D', he, ?_, hc.frame.inodeblocks, .inr (hnb'.trans hsz.symm), fun files hr => ?_⟩
    · refine hc.sound hs hino hv (by omega) (fun hz => by omega) (fun hbig => ?_)
      rw [hroot']
      refine hleft.root_ne ?_
      rw [hslot]
      exact hg.root_ne (by omega)
    · refine hc.represents hs hino hr _ rfl (fun off ho => ?_)
        (blank_resized (hr.blank ino hino) ?_)
      · rw [hcont off ho, ← hr.data ino hino off ho]
        by_cases hoc : off < capacity g (levelsOf g size)
        · rw [if_pos hoc, hbase off ho hoc]
        · rw [if_neg hoc, contents_past (by omega) (by omega) hoc]
      · rw [hnb', ← hr.size ino hino]
        omega

/-- What `treedisk_write` leaves of a sound disk, whether it returns or runs out of
blocks. -/
theorem outcome_write_sound (h : At fs belowIno D s) (hv : Sound (fs.sizes belowIno) D)
    (hino : ino < D.ninodes) {offset : Nat} (hoff : offset + 1 < 2 ^ 32) (block : Block g) :
    Outcome (write fs.toBlockStore belowIno ino offset block)
      (fun r s' => r = 0 ∧ ∃ D' F F', At fs belowIno D' s' ∧ Within (fs.sizes belowIno) D ino F ∧
        Changed D D' ino F F' ∧ D'.root ino ≠ 0 ∧
        D'.nblocks ino = max (D.nblocks ino) (offset + 1) ∧ (D.Trim ino → D'.Trim ino) ∧
        ∀ off, off < 2 ^ 32 →
          D'.contents ino off = if off = offset then block else D.contents ino off)
      (fun e s' => ∃ D', OutOfBlocks fs belowIno D' e s' ∧
        Aborted (fs.sizes belowIno) D ino offset D') s := by
  have hlt := hv.size_lt ino hino
  obtain ⟨F, hs⟩ := hv.within hino
  have hw := inode_words_lt g ino
  unfold write
  rw [Outcome.bind_iff]
  refine (outcome_getSnapshot h hv.inodes_lt hino).post ?_
  rintro _ s₀ ⟨rfl, h₀⟩
  dsimp only
  rw [snapshotOf_nblocks, setNblocks_growing D ino hoff]
  have hnb := Snapshot.nblocks_setNblocks (snapshotOf D ino) hw (max (D.nblocks ino) (offset + 1))
  have hroot := Snapshot.root_setNblocks (snapshotOf D ino) hw (max (D.nblocks ino) (offset + 1))
  rw [snapshotOf_root] at hroot
  have hib := inodeBlockno_ne_zero D ino
  have hout := hs.inodeBlockno_not_mem hino
  have hibn := hv.inodeBlockno_lt hino
  rw [hnb, if_neg (by omega)]
  have hlevels : _ = levelsOf g (max (D.nblocks ino) (offset + 1)) := levels_growing hoff
  generalize (if (decide (D.nblocks ino ≤ offset)) = true then countLevels g offset
      else levelsOf g (D.nblocks ino)) - levelsOf g (D.nblocks ino) = more at *
  rw [Outcome.bind_iff]
  obtain ⟨size, hsz⟩ : ∃ size, max (D.nblocks ino) (offset + 1) = size := ⟨_, rfl⟩
  rw [hsz] at hnb hroot hlevels ⊢
  have hspace := hs.space.snapshot (show ((snapshotOf D ino).setNblocks size).superblock =
    (snapshotOf D ino).superblock from rfl)
  refine (outcome_growLevels more h₀ hspace (show 2 * (ino % g.inodesPerBlock) < _ by omega)
    (by rw [hroot]; exact hs.nodup)).mono ?_ (fun e s' hfull => ?_)
  rotate_left
  · obtain ⟨D', he, hframe⟩ := hfull
    exact ⟨D', he, hframe.aborted hv hs hino he.2.2 offset⟩
  rintro sn₁ s₁ ⟨D₁, F₁, r₁, h₁, hspace₁, hsn, htotal, hframe, hsame, hgrown, hlookup, htrim⟩
  have hblk : sn₁.inodeblock = inodeWith D ino size r₁ := by rw [hsn]; rfl
  have hno : sn₁.inodeBlockno = D.inodeBlockno ino := by rw [hsn]; rfl
  have hinode : sn₁.inode = ino % g.inodesPerBlock := by rw [hsn]; rfl
  have hnb₁ : sn₁.nblocks = size := by
    unfold Snapshot.nblocks
    rw [hblk, hinode]
    exact ref_inodeWith_nblocks D ino size r₁
  rw [hroot] at htotal hsame hlookup htrim
  rw [hnb₁, if_neg (show ¬ size = 0 by omega), hblk, hno, hinode]
  have hlv : D.levels ino + more = levelsOf g size := hlevels
  rw [hlv] at htotal hlookup htrim
  rw [hlevels]
  -- a file of more than one block has a root by now
  have hrooted : 1 < size → r₁ ≠ 0 := by
    intro hbig hz
    rcases Nat.eq_zero_or_pos more with hm | hm
    · have hsmall : D.nblocks ino ≤ 1 := by
        by_contra hbig
        exact hv.root_ne ino hino (by omega) ((hsame hm).symm.trans hz)
      have hl : levelsOf g size ≤ 0 := by
        rw [← hlv, hm]
        have hmono := levelsOf_mono (g := g) (show 1 < 2 ^ 32 by decide) hsmall
        rw [levelsOf_one] at hmono
        exact hmono
      have hcap := (levelsOf_le_iff (g := g) (show size < 2 ^ 32 by omega) 0).mp hl
      rw [capacity_zero] at hcap
      omega
    · exact hgrown hm hz
  have hg : Grown (fs.sizes belowIno) D ino size F D₁ sn₁ F₁ r₁ :=
    ⟨hspace₁, htotal, hframe, hrooted, hlookup, htrim⟩
  split
  · rw [Outcome.bind_iff]
    exact h₁.outcome_mustWrite hibn _ _ fun _ h₂ => hg.outcome_walk hv hs hino hoff hsz block h₂
  · -- neither the size nor the root changed, so the inode block is up to date
    rename_i hsmall
    rw [decide_eq_true_eq, not_or] at hsmall
    refine hg.outcome_walk hv hs hino hoff hsz block ?_
    have hsame' : inodeWith D ino size r₁ = D₁ (D.inodeBlockno ino) := by
      rw [hframe.outside _ hib (fun hx => hout (Multiset.mem_add.mpr (.inr hx)))]
      obtain rfl : size = D.nblocks ino := by omega
      rw [hsame (by omega)]
      unfold inodeWith Image.nblocks Image.root
      rw [Block.setRef_self, Block.setRef_self]
    rw [hsame', Function.update_eq_self]
    exact h₁

theorem Changed.written {n : Nat} {D' : Image g} {F F' : Multiset Nat} {offset : Nat}
    {block : Block g} (hc : Changed D D' ino F F') (hs : Within n D ino F) (hino : ino < D.ninodes)
    (hr : Represents D files) (hnb : D'.nblocks ino = max (D.nblocks ino) (offset + 1))
    (hcont : ∀ off, off < 2 ^ 32 →
      D'.contents ino off = if off = offset then block else D.contents ino off) :
    Represents D' (Function.update files ino ((files ino).write offset block)) := by
  refine hc.represents hs hino hr _ ?_ ?_ ((hr.blank ino hino).write offset block)
  · rw [hnb, hr.size ino hino]
    rfl
  · intro off ho
    rw [hcont off ho, hr.data ino hino off ho]
    exact (Function.update_apply _ _ _ _).symm

theorem outcome_write (h : At fs belowIno D s) (hv : Valid (fs.sizes belowIno) D)
    (hr : Represents D files) (hino : ino < D.ninodes) {offset : Nat} (hoff : offset + 1 < 2 ^ 32)
    (block : Block g) :
    Outcome (write fs.toBlockStore belowIno ino offset block)
      (fun r s' => r = 0 ∧ ∃ D', At fs belowIno D' s' ∧
        Valid (fs.sizes belowIno) D' ∧ D'.nInodeblocks = D.nInodeblocks ∧
        Represents D' (Function.update files ino ((files ino).write offset block)))
      (fun e _ => e = full) s := by
  have hlt := hv.size_lt ino hino
  refine (outcome_write_sound h hv.sound hino hoff block).mono ?_ (fun _ _ hfull => ?_)
  rotate_left
  · obtain ⟨_, he, _⟩ := hfull
    exact he.1
  rintro r s' ⟨rfl, D', F, F', h', hs, hc, hroot, hnb, -, hcont⟩
  refine ⟨rfl, D', h', ?_, hc.frame.inodeblocks, hc.written hs hino hr hnb hcont⟩
  exact hc.valid hs hino hv (by omega) (fun hz => by omega) (fun _ => hroot)

end Egos.Disk.Treedisk
