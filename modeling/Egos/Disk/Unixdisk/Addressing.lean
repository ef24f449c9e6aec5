import Egos.Disk.Unixdisk.Runs

/-!
# Addressing

Below the triple indirect range the offsets of all files have data blocks of their own, so a
read returns what was written last and a write changes nothing else. From the triple indirect
range on, the entries of the triple indirect block go to the double indirect block, in the
place of those of the offsets from `12 + ENTRIES_PER_BLOCK` on.
-/
namespace Egos.Disk.Unixdisk

open Egos.Lib
open Treedisk (At Frame)

set_option autoImplicit false

variable {g : Geometry} {σ : Type} {D D' : Image g} {n ino offset : Nat} {l : List Nat}

/-- The block of the store with the contents of a file at an offset. -/
def Image.address (D : Image g) (ino t : Nat) : Nat := dataBlock D.nInodeblocks (D.blockAt ino t)

/-- The offsets of all files have blocks of their own, which are neither the superblock nor
inode blocks, and neither indirect blocks nor free. -/
structure Addressed (D : Image g) (l : List Nat) : Prop where
  injective : ∀ ino ino' t t', ino < D.ninodes → ino' < D.ninodes → t < D.nblocks ino →
    t' < D.nblocks ino' → D.address ino t = D.address ino' t' → ino = ino' ∧ t = t'
  data : ∀ ino t, D.nInodeblocks < D.address ino t
  indirect : ∀ ino ino' t b, ino < D.ninodes → ino' < D.ninodes → t < D.nblocks ino →
    b ∈ D.indirectBlocks ino' → D.address ino t ≠ dataBlock D.nInodeblocks b
  free : ∀ ino t b, ino < D.ninodes → t < D.nblocks ino → b ∈ l →
    D.address ino t ≠ dataBlock D.nInodeblocks b

theorem Valid.addressed (hv : Valid n D l) : Addressed D l := by
  have hmem : ∀ {ino t}, t < D.nblocks ino → D.blockAt ino t ∈ D.fileBlocks ino :=
    fun ht => blockAt_mem ht
  constructor
  · intro ino ino' t t' hino hino' ht ht' he
    have hblock := dataBlock_inj.mp he
    by_cases hne : ino' = ino
    · subst hne
      exact ⟨rfl, hv.blockAt_inj hino ht ht' hblock⟩
    · refine absurd (hmem ht') ?_
      rw [← hblock]
      exact hv.disjoint hino hino' hne (List.mem_append_right _ (hmem ht))
  · intro ino t
    unfold Image.address dataBlock
    omega
  · intro ino ino' t b hino hino' ht hb he
    obtain rfl := dataBlock_inj.mp he
    by_cases hne : ino' = ino
    · subst hne
      exact hv.blockAt_not_indirect hino ht hb
    · exact hv.disjoint hino hino' hne (List.mem_append_right _ (hmem ht)) (mem_of_indirects hb)
  · intro ino t b hino ht hb he
    obtain rfl := dataBlock_inj.mp he
    exact (List.nodup_append.mp (hv.nodup hino)).2.2 _ hb _ (hmem ht) rfl

/-- What was written last, at every offset. -/
def record (written : Nat → Nat → Option (Block g)) : Op g → Nat → Nat → Option (Block g)
  | .write ino offset block =>
    Function.update written ino (Function.update (written ino) offset (some block))
  | .truncate ino => Function.update written ino fun _ => none
  | .read _ _ => written

def lastWritten (ops : List (Op g)) : Nat → Nat → Option (Block g) :=
  ops.foldl record fun _ _ => none

/-- What was written is shown. -/
def Shows (D : Image g) (written : Nat → Nat → Option (Block g)) : Prop :=
  ∀ ino, ino < D.ninodes → ∀ t b, written ino t = some b → D.shown ino t = some b

theorem SameFile.shown_eq (h : SameFile D D' ino) (t : Nat) : D'.shown ino t = D.shown ino t := by
  unfold Image.shown
  rw [h.nblocks]
  split
  · rename_i ht
    rw [h.contents t ht]
  · rfl

theorem shown_some {b : Block g} {t : Nat} (h : D.shown ino t = some b) :
    t < D.nblocks ino ∧ D.contents ino t = b := by
  unfold Image.shown at h
  split at h
  · exact ⟨‹_›, Option.some.inj h⟩
  · exact absurd h (by simp)

/-- A write changes what is shown at its offset only, as far as something was shown. -/
theorem Written.shown {block : Block g} (hw : Written D D' l ino offset block) {ino' t : Nat}
    {b : Block g} (hino' : ino' < D.ninodes) (hne : ino' ≠ ino ∨ t ≠ offset)
    (hb : D.shown ino' t = some b) : D'.shown ino' t = some b := by
  obtain ⟨ht, hc⟩ := shown_some hb
  by_cases hi : ino' = ino
  · subst hi
    have hsize := hw.nblocks
    rw [Image.shown, if_pos (by omega), hw.kept t ht (hne.resolve_left (not_not_intro rfl)), hc]
  · rw [(hw.others ino' hino' hi).shown_eq]
    exact hb

theorem Written.shown_self {block : Block g} (hw : Written D D' l ino offset block) :
    D'.shown ino offset = some block := by
  have hsize := hw.nblocks
  rw [Image.shown, if_pos (by omega), hw.block]

theorem Op.Effect.shows {op : Op g} (he : op.Effect D D')
    {written : Nat → Nat → Option (Block g)} (h : Shows D written) :
    Shows D' (record written op) := by
  intro ino hino t b hb
  have hnib : D'.nInodeblocks = D.nInodeblocks := he.nInodeblocks
  unfold Image.ninodes at hino
  rw [hnib] at hino
  cases op with
  | write i offset block =>
    rw [Op.Effect] at he
    by_cases hi : i < D.ninodes
    · rw [if_pos hi] at he
      obtain ⟨l, -, hw⟩ := he
      by_cases hself : ino = i ∧ t = offset
      · obtain ⟨rfl, rfl⟩ := hself
        rw [record, Function.update_self, Function.update_self] at hb
        rw [hw.shown_self, ← hb]
      · have hold : written ino t = some b := by
          rw [← hb, record]
          by_cases hi' : ino = i
          · rw [hi', Function.update_self, Function.update_of_ne fun ht => hself ⟨hi', ht⟩]
          · rw [Function.update_of_ne hi']
        exact hw.shown hino (by omega) (h ino hino t b hold)
    · rw [if_neg hi] at he
      subst he
      have hne : ino ≠ i := by
        rintro rfl
        exact hi hino
      rw [record, Function.update_of_ne hne] at hb
      exact h ino hino t b hb
  | truncate i =>
    by_cases hi : ino = i
    · rw [record, hi, Function.update_self] at hb
      exact absurd hb (by simp)
    · rw [record, Function.update_of_ne hi] at hb
      rw [(he.others ino hino hi).shown_eq]
      exact h ino hino t b hb
  | read i offset =>
    obtain rfl : D' = D := he
    exact h ino hino t b hb

section

variable {fs : FixedStore (Block g) σ} {nib nDatablocks : Nat} {s : σ} {E : Stop → σ → Prop}

/-- What the calls so far promise of the addresses and of the reads and writes to come. -/
structure Sound (fs : FixedStore (Block g) σ) (nib nDatablocks : Nat) (ops : List (Op g)) (s : σ) :
    Prop where
  addressed : ∃ l, FreeStack (fs.view s 0) nib (Image.freeList (fs.view s 0))
    (Image.freeOffset (fs.view s 0)) l ∧ Addressed (fs.view s 0) l
  walk : ∀ ino t, ino < nib * g.inodesPerBlock → t < Image.nblocks (fs.view s 0) ino →
    ∃ s', traverse fs.toBlockStore (snapshotOf (fs.view s 0) ino) t s =
      .ok (Image.address (fs.view s 0) ino t) s'
  last : ∀ ino t b, ino < nib * g.inodesPerBlock → lastWritten ops ino t = some b →
    ∃ s', read fs.toBlockStore ino t s = .ok (some b) s'
  alone : ∀ ino offset block, ino < nib * g.inodesPerBlock →
    Suits nib nDatablocks (Treedisk.filesAfter ops) [.write ino offset block] →
    ∃ s', write fs.toBlockStore ino offset block s = .ok 0 s' ∧
      ∀ ino' t b, ino' < nib * g.inodesPerBlock → ino' ≠ ino ∨ t ≠ offset →
        (∃ s'', read fs.toBlockStore ino' t s = .ok (some b) s'') →
        ∃ s'', read fs.toBlockStore ino' t s' = .ok (some b) s''

theorem read_shown (h : At fs 0 D s) (hv : Valid (fs.sizes 0) D l) (hino : ino < D.ninodes)
    (t : Nat) : ∃ s', read fs.toBlockStore ino t s = .ok (D.shown ino t) s' := by
  obtain ⟨r, s', he, rfl, -⟩ := (outcome_read h hv hino t).exists_ok
  exact ⟨s', he⟩

theorem Sized.sound {ops : List (Op g)} (h : Sized fs nib (Treedisk.filesAfter ops) s)
    (hN : fs.sizes 0 - 1 - nib = nDatablocks) (hshows : Shows (fs.view s 0) (lastWritten ops)) :
    Sound fs nib nDatablocks ops s := by
  obtain ⟨l, hv⟩ := h.valid
  constructor
  · refine ⟨l, ?_, hv.addressed⟩
    rw [← h.nInodeblocks]
    exact hv.stack
  · intro ino t hino ht
    rw [← h.ninodes] at hino
    have hrange : ∀ b ∈ Image.fileBlocks (fs.view s 0) ino,
        dataBlock (Image.nInodeblocks (fs.view s 0)) b < fs.sizes 0 :=
      fun b hb => hv.range hino b (List.mem_append_right _ hb)
    obtain ⟨r, s', he, rfl, -⟩ :=
      (outcome_traverse h.at_view (hv.stocked ino) hrange ht (hv.small ino hino)).exists_ok
    exact ⟨s', he⟩
  · intro ino t b hino hb
    rw [← h.ninodes] at hino
    rw [← hshows ino hino t b hb]
    exact read_shown h.at_view hv hino t
  · intro ino offset block hino hsuits
    obtain ⟨hsmall, hfits⟩ := hsuits.1
    have hoff := hsmall hino
    rw [← hN] at hfits
    have hroom := h.hasRoom hv hino hfits
    rw [← h.ninodes] at hino
    obtain ⟨r, s', he, rfl, D', l', h', hv', hw⟩ := (Unixdisk.outcome_write h.at_view hv hino hoff
      hroom block).exists_ok
    refine ⟨s', he, fun ino' t b hino' hne hread => ?_⟩
    rw [← h.ninodes] at hino'
    obtain ⟨s'', hread⟩ := hread
    obtain ⟨s₁, hread₁⟩ := read_shown h.at_view hv hino' t
    rw [hread₁] at hread
    injection hread with hb
    have hino'' : ino' < D'.ninodes := by
      unfold Image.ninodes
      rw [hw.nInodeblocks]
      exact hino'
    rw [← hw.shown hino' hne hb]
    exact read_shown h' hv' hino'' t

end

/-- **Addressing.** After any calls on a created file system with room for them and with all
offsets below the triple indirect range, the walk from the inodes takes different offsets to
different data blocks, a read returns the block that was written last, and a write changes no
other offset. -/
theorem addressing_sound (fs : FixedStore (Block g) σ) {s₀ s₁ : σ} (hg : fs.Good s₀)
    (hz : (fs.view s₀ 0 0).ref 0 = 0) {ninodes nDatablocks : Nat} {freeblock : Block g}
    (hsize : inodeBlocks g ninodes + 1 + nDatablocks = fs.sizes 0)
    (hcreate : create fs.toBlockStore 0 freeblock ninodes s₀ = .ok 0 s₁) {ops : List (Op g)}
    (hops : Suits (inodeBlocks g ninodes) nDatablocks (Treedisk.filesAfter []) ops) :
    ∃ s, ops.forM (Treedisk.Op.perform (unixdisk fs.toBlockStore)) s₁ = .ok ⟨⟩ s ∧
      Sound fs (inodeBlocks g ninodes) nDatablocks ops s := by
  have hN : fs.sizes 0 - 1 - inodeBlocks g ninodes = nDatablocks := by omega
  have hs₁ := create_sized fs hg hz (by omega) hcreate
  obtain ⟨r, s, hrun, hs, hshows⟩ := (run_sized hs₁ hN hops
    (fun done D => Shows D (lastWritten done)) (fun _ _ _ _ hb => absurd hb (by simp [lastWritten]))
    (fun done op rest s' D' _ _ _ hshows he => by
      unfold lastWritten
      rw [List.foldl_append]
      exact he.shows hshows)).exists_ok
  exact ⟨s, hrun, hs.sound hN hshows⟩

theorem addressing_sound_small :
    ∃ s₁, create smallDisk.toBlockStore 0 Treedisk.Block.zero 16 smallBlank = .ok 0 s₁ ∧
      ∃ s, smallOps.forM (Treedisk.Op.perform (unixdisk smallDisk.toBlockStore)) s₁ = .ok ⟨⟩ s ∧
        Sound smallDisk 16 23 smallOps s := by
  obtain ⟨s₁, hs⟩ := create_returns smallDisk (show smallDisk.Good smallBlank from rfl) rfl
    Treedisk.Block.zero (show inodeBlocks .small 16 + 1 + 23 = smallDisk.sizes 0 by decide)
    (by decide)
  refine ⟨s₁, hs, addressing_sound smallDisk (show smallDisk.Good smallBlank from rfl) rfl
    (show inodeBlocks .small 16 + 1 + 23 = smallDisk.sizes 0 by decide) hs ?_⟩
  exact (by decide +kernel :
    Suits (inodeBlocks .small 16) 23 (Treedisk.filesAfter []) smallOps)

/-! ### The first write to the triple indirect range -/

section

variable {fs : FixedStore (Block g) σ} {s : σ} {sn : Snapshot g} {E : Stop → σ → Prop}
  {x₁ x₂ x₃ x₄ : Nat}

theorem fillEntries_done {limit i : Nat} {slot : Nat → Nat} {e : Block g} (rounds : Nat)
    (h : ¬ (i < limit ∧ i ≤ offset)) :
    fillEntries fs.toBlockStore limit offset slot rounds i e sn = pure (i, e, sn) := by
  cases rounds with
  | zero => rfl
  | succ rounds => rw [fillEntries, if_neg h]

theorem allocIndirect_done {base i : Nat} {e : Block g} (rounds : Nat) (h : offset < i) :
    allocIndirect fs.toBlockStore base offset rounds i e sn = pure (some (i, e, sn)) := by
  cases rounds with
  | zero => rfl
  | succ rounds => rw [allocIndirect, if_neg (by omega)]

theorem allocTripleLoop_done {base i : Nat} {e : Block g} (rounds : Nat) (h : offset < i) :
    allocTripleLoop fs.toBlockStore base offset rounds i e sn = pure (some (i, e, sn)) := by
  cases rounds with
  | zero => rfl
  | succ rounds => rw [allocTripleLoop, if_neg (by omega)]

theorem outcome_fillEntries_one {limit base x : Nat} {slot : Nat → Nat} {e : Block g} (rounds : Nat)
    (h : At fs 0 D s) (hs : Stocked (fs.sizes 0) D sn (x :: l)) (hlt : base < limit) :
    Outcome (fillEntries fs.toBlockStore limit base slot (rounds + 1) base e sn)
      (fun r s' => ∃ D' : Image g, At fs 0 D' s' ∧
        Stocked (fs.sizes 0) D' { sn with superblock := D' 0 } l ∧ Frame D D' 0 ∧
        r = (base + 1, e.setRef (slot base) x, { sn with superblock := D' 0 })) E s := by
  rw [fillEntries, if_pos ⟨hlt, Nat.le_refl _⟩, Outcome.bind_iff]
  apply (outcome_popfree h hs).post
  rintro ⟨next, sn₁⟩ s₁ ⟨rfl, D₁, h₁, hs₁, hf₁, rfl⟩
  dsimp only
  rw [fillEntries_done _ (by omega), Outcome.pure_iff]
  exact ⟨D₁, h₁, hs₁, hf₁, rfl⟩

theorem outcome_popEntry_fresh {fresh : Prop} [Decidable fresh] (hfresh : fresh) {x : Nat}
    (j : Nat) (e : Block g) (h : At fs 0 D s) (hs : Stocked (fs.sizes 0) D sn (x :: l)) :
    Outcome (popEntry fs.toBlockStore fresh j e sn)
      (fun r s' => ∃ D' : Image g, At fs 0 D' s' ∧
        Stocked (fs.sizes 0) D' { sn with superblock := D' 0 } l ∧ Frame D D' 0 ∧
        r = (e.setRef j x, { sn with superblock := D' 0 })) E s := by
  rw [popEntry, if_pos hfresh, Outcome.bind_iff]
  apply (outcome_popfree h hs).post
  rintro ⟨next, sn₁⟩ s₁ ⟨rfl, D₁, h₁, hs₁, hf₁, rfl⟩
  exact ⟨D₁, h₁, hs₁, hf₁, rfl⟩

/-- The second-level part: `x₃` gets the entry `x₄`. -/
theorem outcome_allocIndirect_first {base : Nat} (h : At fs 0 D s)
    (hs : Stocked (fs.sizes 0) D sn (x₃ :: x₄ :: l)) (hsize : sn.nblocks = base) (e : Block g) :
    Outcome (allocIndirect fs.toBlockStore base base g.refsPerBlock base e sn)
      (fun r s' => ∃ D' : Image g, At fs 0 D' s' ∧
        Stocked (fs.sizes 0) D' { sn with superblock := D' 0 } l ∧
        Frame D D' {dataBlock D.nInodeblocks x₃} ∧ pointers D' x₃ 0 = x₄ ∧
        r = some (base + 1, e.setRef 0 x₃, { sn with superblock := D' 0 })) E s := by
  have h16 := g.sixteen_le
  have hn := fs.sizes_lt 0
  have hpos : 0 < g.epb2 := Nat.mul_pos g.entriesPerBlock_pos g.entriesPerBlock_pos
  obtain ⟨rounds, hr⟩ : ∃ rounds, g.refsPerBlock = rounds + 1 := ⟨g.refsPerBlock - 1, by omega⟩
  obtain ⟨hnd₃, hnd⟩ := List.nodup_cons.mp hs.nodup
  have hlt := hs.range x₃ List.mem_cons_self
  rw [hr, allocIndirect, if_pos ⟨by omega, Nat.le_refl _⟩, g.entriesPerBlock_eq, Nat.sub_self,
    Nat.zero_div]
  dsimp only
  rw [Outcome.bind_iff]
  apply (outcome_popEntry_fresh (by omega) 0 e h hs).post
  rintro r s₁ ⟨D₁, h₁, hs₁, hf₁, rfl⟩
  dsimp only
  rw [Treedisk.Block.ref_setRef (by omega), if_pos rfl]
  rw [← nInodeblocks_eq hf₁] at hlt ⊢
  rw [hs₁.absolute hn hlt, Outcome.bind_iff]
  apply h₁.outcome_read hlt
  intro s₂ h₂
  dsimp only
  rw [Outcome.bind_iff, hr]
  apply (outcome_fillEntries_one rounds h₂ hs₁ (by omega)).post
  rintro r s₃ ⟨D₂, h₃, hs₂, hf₂, rfl⟩
  dsimp only
  rw [Outcome.bind_iff, ← nInodeblocks_eq hf₂]
  apply outcome_writeIndirect h₃ hs₂ (fun hl => hnd₃ (List.mem_cons_of_mem _ hl))
    (by rw [nInodeblocks_eq hf₂]; exact hlt)
  intro D₃ s₄ h₄ hs₃ hp hf₃
  rw [if_neg (by decide), allocIndirect_done _ (by omega), Outcome.pure_iff]
  have hsb : D₂ 0 = D₃ 0 := hs₃.superblock
  rw [hsb] at hs₃ ⊢
  refine ⟨D₃, h₄, hs₃, ?_, ?_, rfl⟩
  · exact (frame_of_superblock (hf₁.trans hf₂) _).trans hf₃
  · rw [hp, Function.update_self, Nat.sub_self, Nat.zero_mul, Nat.sub_zero,
      Treedisk.Block.ref_setRef (by omega), if_pos rfl]

/-- The part below the triple indirect block: `x₂` gets the entry `x₃`. -/
theorem outcome_allocTripleLoop_first {base : Nat} (h : At fs 0 D s)
    (hs : Stocked (fs.sizes 0) D sn (x₂ :: x₃ :: x₄ :: l)) (hsize : sn.nblocks = base)
    (e : Block g) :
    Outcome (allocTripleLoop fs.toBlockStore base base g.refsPerBlock base e sn)
      (fun r s' => ∃ D' : Image g, At fs 0 D' s' ∧
        Stocked (fs.sizes 0) D' { sn with superblock := D' 0 } l ∧
        Frame D D' ({dataBlock D.nInodeblocks x₂, dataBlock D.nInodeblocks x₃} : Multiset Nat) ∧
        pointers D' x₂ 0 = x₃ ∧ pointers D' x₃ 0 = x₄ ∧
        r = some (base + 1, e.setRef 0 x₂, { sn with superblock := D' 0 })) E s := by
  have h16 := g.sixteen_le
  have hn := fs.sizes_lt 0
  have hpos : 0 < g.epb3 := Nat.mul_pos (Nat.mul_pos g.entriesPerBlock_pos g.entriesPerBlock_pos)
    g.entriesPerBlock_pos
  obtain ⟨rounds, hr⟩ : ∃ rounds, g.refsPerBlock = rounds + 1 := ⟨g.refsPerBlock - 1, by omega⟩
  obtain ⟨hnd₂, hnd⟩ := List.nodup_cons.mp hs.nodup
  have hlt := hs.range x₂ List.mem_cons_self
  rw [hr, allocTripleLoop, if_pos ⟨by omega, Nat.le_refl _⟩, g.entriesPerBlock_eq, Nat.sub_self,
    Nat.zero_div]
  dsimp only
  rw [Outcome.bind_iff]
  apply (outcome_popEntry_fresh (by omega) 0 e h hs).post
  rintro r s₁ ⟨D₁, h₁, hs₁, hf₁, rfl⟩
  dsimp only
  rw [Treedisk.Block.ref_setRef (by omega), if_pos rfl]
  rw [← nInodeblocks_eq hf₁] at hlt ⊢
  rw [hs₁.absolute hn hlt, Outcome.bind_iff]
  apply h₁.outcome_read hlt
  intro s₂ h₂
  dsimp only
  rw [Outcome.bind_iff, Nat.zero_mul, Nat.add_zero]
  apply (outcome_allocIndirect_first h₂ hs₁ hsize _).post
  rintro r s₃ ⟨D₂, h₃, hs₂, hf₂, hx₃, rfl⟩
  dsimp only
  rw [Outcome.bind_iff, ← nInodeblocks_eq hf₂]
  apply outcome_writeIndirect h₃ hs₂
    (fun hl => hnd₂ (List.mem_cons_of_mem _ (List.mem_cons_of_mem _ hl)))
    (by rw [nInodeblocks_eq hf₂]; exact hlt)
  intro D₃ s₄ h₄ hs₃ hp hf₃
  rw [if_neg (by decide), allocTripleLoop_done _ (by omega), Outcome.pure_iff]
  have hsb : D₂ 0 = D₃ 0 := hs₃.superblock
  rw [hsb] at hs₃ ⊢
  have hne : x₃ ≠ x₂ := fun he => hnd₂ (he ▸ List.mem_cons_self)
  refine ⟨D₃, h₄, hs₃, ?_, ?_, ?_, rfl⟩
  · refine (frame_of_superblock hf₁ _).trans ((hf₂.mono fun x hx => ?_).trans
      (hf₃.mono fun x hx => ?_))
    · rw [Multiset.mem_singleton.mp hx, ← nInodeblocks_eq hf₂]
      exact Multiset.mem_cons_of_mem (Multiset.mem_singleton_self _)
    · rw [Multiset.mem_singleton.mp hx]
      exact Multiset.mem_cons_self _ _
  · rw [hp, Function.update_self, Treedisk.Block.ref_setRef (by omega), if_pos rfl]
  · rw [hp, Function.update_of_ne hne]
    exact hx₃

/-- The entry for the triple indirect range goes to the double indirect block. -/
theorem outcome_allocTriple_first (h : At fs 0 D s)
    (hs : Stocked (fs.sizes 0) D sn (x₁ :: x₂ :: x₃ :: x₄ :: l))
    (hsize : sn.nblocks = 12 + g.refsPerBlock + g.epb2)
    (hdouble : sn.word 14 ∉ x₁ :: x₂ :: x₃ :: x₄ :: l)
    (hlt : dataBlock D.nInodeblocks (sn.word 14) < fs.sizes 0) :
    Outcome (allocTriple fs.toBlockStore (12 + g.refsPerBlock + g.epb2)
        (12 + g.refsPerBlock + g.epb2) sn)
      (fun r s' => ∃ (D' : Image g) (sn' : Snapshot g),
        r = some (12 + g.refsPerBlock + g.epb2 + 1, sn') ∧ At fs 0 D' s' ∧
        Stocked (fs.sizes 0) D' sn' l ∧ SameInode sn sn' ∧ sn'.word 14 = sn.word 14 ∧
        D'.nInodeblocks = D.nInodeblocks ∧ pointers D' (sn.word 14) 0 = x₂ ∧
        pointers D' x₂ 0 = x₃ ∧ pointers D' x₃ 0 = x₄) E s := by
  have h16 := g.sixteen_le
  have hn := fs.sizes_lt 0
  have hpos : 0 < g.epb3 := Nat.mul_pos (Nat.mul_pos g.entriesPerBlock_pos g.entriesPerBlock_pos)
    g.entriesPerBlock_pos
  rw [allocTriple, g.entriesPerBlock_eq, if_pos ⟨by omega, Nat.le_refl _⟩, if_neg (by omega),
    Outcome.bind_iff]
  apply (outcome_popWord (by omega) (show 0 < 15 by decide) (by decide) h hs).post
  rintro sn₁ s₁ ⟨D₁, h₁, hs₁, hf₁, hw₁, hsame₁⟩
  have hw : sn₁.word 14 = sn.word 14 := by
    rw [hw₁, Function.update_of_ne (by decide)]
  have hrest : sn.word 14 ∉ x₂ :: x₃ :: x₄ :: l := fun hm => hdouble (List.mem_cons_of_mem _ hm)
  rw [← nInodeblocks_eq hf₁] at hlt ⊢
  have habs : sn₁.absolute sn₁.doubleIndirect = dataBlock D₁.nInodeblocks (sn.word 14) := by
    rw [show sn₁.doubleIndirect = sn.word 14 from hw]
    exact hs₁.absolute hn hlt
  dsimp only
  rw [habs, Outcome.bind_iff]
  apply h₁.outcome_read hlt
  intro s₂ h₂
  dsimp only
  rw [Outcome.bind_iff]
  apply (outcome_allocTripleLoop_first h₂ hs₁ (hsame₁.nblocks.trans hsize) _).post
  rintro r s₃ ⟨D₂, h₃, hs₂, hf₂, hx₂, hx₃, rfl⟩
  dsimp only
  rw [Outcome.bind_iff, ← nInodeblocks_eq hf₂]
  have hfree : sn.word 14 ∉ l := fun hm => hrest (List.mem_cons_of_mem _
    (List.mem_cons_of_mem _ (List.mem_cons_of_mem _ hm)))
  apply outcome_writeIndirect h₃ hs₂ hfree (by rw [nInodeblocks_eq hf₂]; exact hlt)
  intro D₃ s₄ h₄ hs₃ hp hf₃
  rw [if_neg (by decide), Outcome.pure_iff]
  have hne₂ : x₂ ≠ sn.word 14 := fun he => hrest (he ▸ List.mem_cons_self)
  have hne₃ : x₃ ≠ sn.word 14 :=
    fun he => hrest (he ▸ List.mem_cons_of_mem _ List.mem_cons_self)
  refine ⟨D₃, _, rfl, h₄, hs₃, hsame₁.trans (.superblock sn₁ _), hw, nInodeblocks_eq hf₃,
    ?_, ?_, ?_⟩
  · rw [hp, Function.update_self, Treedisk.Block.ref_setRef (by omega), if_pos rfl]
  · rw [hp, Function.update_of_ne hne₂]
    exact hx₂
  · rw [hp, Function.update_of_ne hne₃]
    exact hx₃

theorem absolute_eq {nib b : Nat} (h : sn.nInodeblocks = nib) (hlt : dataBlock nib b < 2 ^ 32) :
    sn.absolute b = dataBlock nib b := by
  unfold Snapshot.absolute
  rw [h]
  exact Nat.mod_eq_of_lt hlt

/-- The entries that the first write to the triple indirect range leaves. -/
structure Misplaced (fs : FixedStore (Block g) σ) (D : Image g) (sn : Snapshot g)
    (x₂ x₃ x₄ : Nat) : Prop where
  nInodeblocks : sn.nInodeblocks = D.nInodeblocks
  range : ∀ b ∈ [sn.doubleIndirect, x₂, x₃, x₄], dataBlock D.nInodeblocks b < fs.sizes 0
  double : pointers D sn.doubleIndirect 0 = x₂
  second : pointers D x₂ 0 = x₃
  third : pointers D x₃ 0 = x₄

theorem Misplaced.outcome_read {Q : Option (Block g) → σ → Prop} {b : Nat}
    (hm : Misplaced fs D sn x₂ x₃ x₄) (h : At fs 0 D s) (hb : b ∈ [sn.doubleIndirect, x₂, x₃, x₄])
    (hq : ∀ (e : Block g) s', At fs 0 D s' → e.ref = pointers D b → Q (some e) s') :
    Outcome (fs.read 0 (sn.absolute b)) Q E s := by
  have hlt := hm.range b hb
  have hn := fs.sizes_lt 0
  rw [absolute_eq hm.nInodeblocks (by omega)]
  apply h.outcome_read hlt
  intro s' h'
  exact hq _ s' h' rfl

theorem Misplaced.outcome_traverse (hm : Misplaced fs D sn x₂ x₃ x₄) (h : At fs 0 D s) :
    Outcome (traverse fs.toBlockStore sn (12 + g.refsPerBlock + g.epb2))
      (fun r s' => r = dataBlock D.nInodeblocks x₄ ∧ At fs 0 D s') E s := by
  have hn := fs.sizes_lt 0
  have hpos : 0 < g.epb3 := Nat.mul_pos (Nat.mul_pos g.entriesPerBlock_pos g.entriesPerBlock_pos)
    g.entriesPerBlock_pos
  have hlt := hm.range x₄ (by simp)
  rw [traverse, g.entriesPerBlock_eq, if_neg (by omega), if_neg (by omega), if_neg (by omega),
    if_pos (by omega),
    show 12 + g.refsPerBlock + g.epb2 - 12 - g.refsPerBlock - g.epb2 = 0 by omega]
  dsimp only
  rw [Nat.zero_div, Nat.zero_mul, Nat.sub_zero, Nat.zero_div, Nat.zero_mul, Nat.sub_zero,
    Outcome.bind_iff]
  apply hm.outcome_read h List.mem_cons_self
  intro e s₁ h₁ he
  dsimp only
  rw [he, hm.double, Outcome.bind_iff]
  apply hm.outcome_read h₁ (by simp)
  intro e s₂ h₂ he
  dsimp only
  rw [he, hm.second, Outcome.bind_iff]
  apply hm.outcome_read h₂ (by simp)
  intro e s₃ h₃ he
  dsimp only
  rw [he, hm.third, Outcome.pure_iff, absolute_eq hm.nInodeblocks (by omega)]
  exact ⟨rfl, h₃⟩

/-- The first offset of the double indirect range now leads to `x₃`. -/
theorem Misplaced.outcome_traverse_double (hm : Misplaced fs D sn x₂ x₃ x₄) (h : At fs 0 D s) :
    Outcome (traverse fs.toBlockStore sn (12 + g.refsPerBlock))
      (fun r s' => r = dataBlock D.nInodeblocks x₃ ∧ At fs 0 D s') E s := by
  have hn := fs.sizes_lt 0
  have hpos : 0 < g.epb2 := Nat.mul_pos g.entriesPerBlock_pos g.entriesPerBlock_pos
  have hlt := hm.range x₃ (by simp)
  rw [traverse, g.entriesPerBlock_eq, if_neg (by omega), if_neg (by omega), if_pos (by omega),
    show 12 + g.refsPerBlock - 12 - g.refsPerBlock = 0 by omega]
  dsimp only
  rw [Nat.zero_div, Nat.zero_mul, Nat.sub_zero, Outcome.bind_iff]
  apply hm.outcome_read h List.mem_cons_self
  intro e s₁ h₁ he
  dsimp only
  rw [he, hm.double, Outcome.bind_iff]
  apply hm.outcome_read h₁ (by simp)
  intro e s₂ h₂ he
  dsimp only
  rw [he, hm.second, Outcome.pure_iff, absolute_eq hm.nInodeblocks (by omega)]
  exact ⟨rfl, h₂⟩

/-- The data block is written, and the next read goes astray. -/
theorem Misplaced.outcome_write (hm : Misplaced fs D sn x₂ x₃ x₄) (h : At fs 0 D s)
    (hino : ino < D.ninodes) (hinodes : D.nInodeblocks < fs.sizes 0)
    (hblock : D (D.inodeBlockno ino) = sn.inodeblock) (hno : sn.inodeNo = ino)
    (hsize : 12 + g.refsPerBlock < sn.nblocks) (hx₄ : x₄ ∉ [sn.doubleIndirect, x₂, x₃])
    (block : Block g) :
    Outcome (do
        let toWrite ← traverse fs.toBlockStore sn (12 + g.refsPerBlock + g.epb2)
        if (← fs.write 0 toWrite block) < 0 then pure (-1) else pure (0 : Int))
      (fun r s' => r = 0 ∧ Outcome (read fs.toBlockStore ino (12 + g.refsPerBlock))
        (fun r _ => ∃ b, r = some b ∧ b.ref 0 = x₄) (fun _ _ => False) s') E s := by
  rw [Outcome.bind_iff]
  apply (hm.outcome_traverse h).post
  rintro _ s₁ ⟨rfl, h₁⟩
  rw [Outcome.bind_iff]
  apply h₁.outcome_write (hm.range x₄ (by simp))
  intro s₂ h₂
  rw [if_neg (by decide), Outcome.pure_iff]
  refine ⟨rfl, ?_⟩
  have hle := inodeBlockno_le hino
  have hnib := nInodeblocks_update D (dataBlock_ne_zero D.nInodeblocks x₄) block
  have hptr := pointers_update D x₄ block
  have hinode : Function.update D (dataBlock D.nInodeblocks x₄) block (D.inodeBlockno ino) =
      sn.inodeblock := by
    rw [Function.update_of_ne (dataBlock_ne_inodeblock hle x₄).symm, hblock]
  generalize Function.update D (dataBlock D.nInodeblocks x₄) block = D' at *
  have hword : (snapshotOf D' ino).word = sn.word := by
    funext k
    change (D' (D.inodeBlockno ino)).ref (16 * (ino % g.inodesPerBlock) + k) =
      sn.inodeblock.ref (16 * (sn.inodeNo % g.inodesPerBlock) + k)
    rw [hinode, hno]
  have hdouble : (snapshotOf D' ino).doubleIndirect = sn.doubleIndirect := congrFun hword 14
  have hm' : Misplaced fs D' (snapshotOf D' ino) x₂ x₃ x₄ := by
    constructor
    · rfl
    · rw [hnib, hdouble]
      exact hm.range
    · rw [hptr, hdouble, Function.update_of_ne fun he => hx₄ (by simp [he])]
      exact hm.double
    · rw [hptr, Function.update_of_ne fun he => hx₄ (by simp [he])]
      exact hm.second
    · rw [hptr, Function.update_of_ne fun he => hx₄ (by simp [he])]
      exact hm.third
  have hino' : ino < Image.ninodes D' := by
    unfold Image.ninodes
    rw [hnib]
    exact hino
  have hsize' : ¬ (snapshotOf D' ino).nblocks ≤ 12 + g.refsPerBlock := by
    have hn : (snapshotOf D' ino).nblocks = sn.nblocks := congrFun hword 0
    omega
  rw [read, Outcome.bind_iff]
  apply (outcome_getSnapshot h₂ (by rw [hnib]; exact hinodes) hino').post
  rintro _ s₃ ⟨rfl, h₃⟩
  dsimp only
  rw [if_neg hsize', Outcome.bind_iff]
  apply (hm'.outcome_traverse_double h₃).post
  rintro _ s₄ ⟨rfl, h₄⟩
  apply h₄.outcome_read (hm'.range x₃ (by simp))
  intro s₅ _
  exact ⟨_, rfl, hm'.third⟩

theorem allocDirect_skip {i : Nat} (hi : 12 ≤ i) :
    allocDirect fs.toBlockStore offset i sn = pure (i, sn) := by
  rw [allocDirect, fillEntries_done _ (by omega), pure_bind]

/-- A write at the first offset of the triple indirect range succeeds, and after it a read at
the first offset of the double indirect range returns the block of pointers `x₃`. -/
theorem outcome_write_triple (h : At fs 0 D s)
    (hv : Valid (fs.sizes 0) D (x₁ :: x₂ :: x₃ :: x₄ :: l)) (hino : ino < D.ninodes)
    (hfull : D.nblocks ino = 12 + g.refsPerBlock + g.epb2) (block : Block g) :
    Outcome (write fs.toBlockStore ino (12 + g.refsPerBlock + g.epb2) block)
      (fun r s' => r = 0 ∧ Outcome (read fs.toBlockStore ino (12 + g.refsPerBlock))
        (fun r _ => ∃ b, r = some b ∧ b.ref 0 = x₄) (fun _ _ => False) s') E s := by
  have h16 := g.sixteen_le
  have hn := fs.sizes_lt 0
  have hbig := epb_lt g
  have hpos : 0 < g.epb2 := Nat.mul_pos g.entriesPerBlock_pos g.entriesPerBlock_pos
  have hmem : D.inodeWord ino 14 ∈ D.fileBlocks ino :=
    mem_of_indirects (double_mem (by omega) (by rw [hfull]; omega))
  have hdouble : (snapshotOf D ino).word 14 ∉ x₁ :: x₂ :: x₃ :: x₄ :: l :=
    fun hm => (List.nodup_append.mp (hv.nodup hino)).2.2 _ hm _ hmem rfl
  have hlt := hv.range hino _ (List.mem_append_right _ hmem)
  have hle := inodeBlockno_le hino
  have hinodes := hv.inodes_lt
  rw [write, Outcome.bind_iff]
  apply (outcome_getSnapshot h hv.inodes_lt hino).post
  rintro _ s₁ ⟨rfl, h₁⟩
  dsimp only
  rw [snapshotOf_nblocks, if_pos (by omega), Outcome.bind_iff, alloc, snapshotOf_nblocks,
    if_neg (by omega), hfull, allocDirect_skip (by omega), pure_bind]
  dsimp only
  rw [allocSingle, if_neg (by rw [g.entriesPerBlock_eq]; omega), pure_bind]
  dsimp only
  rw [allocDouble, if_neg (by rw [g.entriesPerBlock_eq]; omega), pure_bind]
  dsimp only
  rw [Outcome.bind_iff]
  apply (outcome_allocTriple_first h₁ (hv.stocked ino) hfull hdouble hlt).post
  rintro r s₂ ⟨D₁, sn, rfl, h₂, hs₁, hsame, hw, hnib, hx₂, hx₃, hx₄⟩
  dsimp only
  rw [Outcome.bind_iff]
  change Outcome (fs.write 0 sn.inodeBlockno _) _ _ _
  rw [Nat.mod_eq_of_lt (by omega), hsame.inodeBlockno]
  change Outcome (fs.write 0 (D.inodeBlockno ino) _) _ _ _
  apply h₂.outcome_write (by omega)
  intro s₃ h₃
  rw [if_neg (by decide), Outcome.pure_iff]
  dsimp only
  have hle₁ : D.inodeBlockno ino ≤ D₁.nInodeblocks := by
    rw [hnib]
    exact hle
  have hpos₁ := inodeBlockno_pos D ino
  have hword := word_setWord sn (show 0 < 16 by omega) (12 + g.refsPerBlock + g.epb2 + 1)
  have hnib₂ := nInodeblocks_update D₁ (show D.inodeBlockno ino ≠ 0 by omega)
    (sn.setWord 0 (12 + g.refsPerBlock + g.epb2 + 1)).inodeblock
  have hptr := pointers_inodeblock hpos₁ hle₁
    (sn.setWord 0 (12 + g.refsPerBlock + g.epb2 + 1)).inodeblock
  have hinode := Function.update_self (D.inodeBlockno ino)
    (sn.setWord 0 (12 + g.refsPerBlock + g.epb2 + 1)).inodeblock D₁
  generalize Function.update D₁ (D.inodeBlockno ino)
    (sn.setWord 0 (12 + g.refsPerBlock + g.epb2 + 1)).inodeblock = D₂ at *
  have hdouble₂ : (sn.setWord 0 (12 + g.refsPerBlock + g.epb2 + 1)).doubleIndirect =
      D.inodeWord ino 14 := by
    change (sn.setWord 0 _).word 14 = _
    rw [hword, Function.update_of_ne (by decide), hw, snapshotOf_word]
  have hsize₂ : (sn.setWord 0 (12 + g.refsPerBlock + g.epb2 + 1)).nblocks =
      12 + g.refsPerBlock + g.epb2 + 1 := by
    change (sn.setWord 0 _).word 0 = _
    rw [hword, Function.update_self]
  have hino₂ : ino < Image.ninodes D₂ := by
    unfold Image.ninodes
    rw [hnib₂, hnib]
    exact hino
  have hm : Misplaced fs D₂ (sn.setWord 0 (12 + g.refsPerBlock + g.epb2 + 1)) x₂ x₃ x₄ := by
    constructor
    · rw [hnib₂]
      exact hs₁.nInodeblocks
    · rw [hnib₂, hnib, hdouble₂]
      intro b hb
      apply hv.range hino b
      rcases List.mem_cons.mp hb with rfl | hb
      · exact List.mem_append_right _ hmem
      · exact List.mem_append_left _ (List.mem_cons_of_mem _ (by simp at hb ⊢; tauto))
    · rw [hptr, hdouble₂]
      exact hx₂
    · rw [hptr]
      exact hx₃
    · rw [hptr]
      exact hx₄
  apply hm.outcome_write h₃ hino₂ (by rw [hnib₂, hnib]; exact hinodes) hinode hsame.inodeNo
    (by rw [hsize₂]; omega)
  have hnd := hv.free_nodup
  rw [hdouble₂]
  rw [snapshotOf_word] at hdouble
  simp only [List.nodup_cons, List.mem_cons, not_or] at hnd hdouble
  simp only [List.mem_cons, List.not_mem_nil, or_false, not_or]
  exact ⟨fun he => hdouble.2.2.2.1 he.symm, fun he => hnd.2.1.2.1 he.symm,
    fun he => hnd.2.2.1.1 he.symm⟩

end

/-- A ramdisk of 400 blocks of 64 bytes; with 16 inodes, 383 data blocks. -/
def bigDisk : FixedStore (Block .small) (Ramdisk.State (Block .small)) :=
  Ramdisk.fixed (Block .small) 400 (by decide)

def bigBlank : Ramdisk.State (Block .small) := ⟨fun _ => Treedisk.Block.zero, 400⟩

/-- A block that does not start with a block number. -/
def marked : Block .small := Treedisk.Block.zero.setRef 0 noBlock

/-- The block written at offset 28, the first of the double indirect range, is not found any
more after a write at offset 284, the first of the triple indirect range. -/
theorem triple_write_loses :
    Geometry.small.entriesPerBlock = 16 ∧ ∃ s₁ s₂ s₃ s₄ s₅ b,
      create bigDisk.toBlockStore 0 Treedisk.Block.zero 16 bigBlank = .ok 0 s₁ ∧
      write bigDisk.toBlockStore 0 28 marked s₁ = .ok 0 s₂ ∧
      write bigDisk.toBlockStore 0 283 Treedisk.Block.zero s₂ = .ok 0 s₃ ∧
      write bigDisk.toBlockStore 0 (12 + 16 + 16 ^ 2) Treedisk.Block.zero s₃ = .ok 0 s₄ ∧
      read bigDisk.toBlockStore 0 28 s₄ = .ok (some b) s₅ ∧ b ≠ marked := by
  have hgood : bigDisk.Good bigBlank := rfl
  have hsize : inodeBlocks .small 16 + 1 + 383 = bigDisk.sizes 0 := by decide
  obtain ⟨s₁, hcreate⟩ := create_returns bigDisk hgood rfl Treedisk.Block.zero hsize (by decide)
  have h₁ := create_sized bigDisk hgood rfl (by decide) hcreate
  obtain ⟨r, s₂, hw₁, rfl, h₂, -⟩ := (h₁.outcome_write (show 0 < _ by decide)
    (show 28 < _ by decide) marked (by decide +kernel)).exists_ok
  obtain ⟨r, s₃, hw₂, rfl, h₃, -⟩ := (h₂.outcome_write (show 0 < _ by decide)
    (show 283 < _ by decide) Treedisk.Block.zero (by decide +kernel)).exists_ok
  obtain ⟨l, hv⟩ := h₃.valid
  have hino : 0 < Image.ninodes (bigDisk.view s₃ 0) := by
    rw [h₃.ninodes]
    decide
  have hfull : Image.nblocks (bigDisk.view s₃ 0) 0 = 12 + 16 + 16 ^ 2 :=
    h₃.size 0 (by decide)
  -- a write that needs four more blocks would have room
  have hroom : HasRoom (bigDisk.view s₃ 0) l 0 287 :=
    h₃.hasRoom hv (by decide) (show Op.Fits _ _ _ (.write 0 287 marked) by decide +kernel)
  have hfour : 4 ≤ l.length := by
    rw [HasRoom, hfull] at hroom
    have hnew : blocksFor Geometry.small.refsPerBlock (287 + 1) = 307 := by decide +kernel
    have hold : blocksFor Geometry.small.refsPerBlock (12 + 16 + 16 ^ 2) = 302 := by decide +kernel
    omega
  obtain ⟨x₁, l, rfl⟩ := List.exists_cons_of_length_pos (show 0 < l.length by omega)
  obtain ⟨x₂, l, rfl⟩ := List.exists_cons_of_length_pos (show 0 < l.length by simp at hfour; omega)
  obtain ⟨x₃, l, rfl⟩ := List.exists_cons_of_length_pos (show 0 < l.length by simp at hfour; omega)
  obtain ⟨x₄, l, rfl⟩ := List.exists_cons_of_length_pos (show 0 < l.length by simp at hfour; omega)
  obtain ⟨r, s₄, hw₃, rfl, hread⟩ :=
    (outcome_write_triple h₃.at_view hv hino hfull Treedisk.Block.zero).exists_ok
  obtain ⟨r, s₅, hr, b, rfl, hb⟩ := hread.exists_ok
  refine ⟨by decide, s₁, s₂, s₃, s₄, s₅, b, hcreate, hw₁, hw₂, hw₃, hr, ?_⟩
  rintro rfl
  have hlt := hv.free_range x₄ (by simp)
  have hn := bigDisk.sizes_lt 0
  rw [← hb, show marked.ref 0 = noBlock from by decide] at hlt
  unfold dataBlock noBlock at hlt
  omega

end Egos.Disk.Unixdisk
