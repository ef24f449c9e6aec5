import Egos.Disk.Unixdisk.FreeStack
import Egos.Disk.Unixdisk.Pointers

/-!
# Growing a file

`unixdisk_alloc` fills the pointers of the new offsets one after the other. All the while the
blocks of the file followed by the free ones are the same list `L`: a block that is taken
moves from the front of the second part to the end of the first. An indirect block that is
being filled is in memory and counts as if it were on the disk already.
-/
namespace Egos.Disk.Unixdisk

open Egos.Lib
open Treedisk (At Frame)

set_option autoImplicit false

variable {g : Geometry} {σ : Type} {D D' : Image g} {sn sn' : Snapshot g} {l L : List Nat}
  {i offset : Nat}

/-- The entries of the data blocks, seen as indirect blocks. -/
def pointers (D : Image g) (b : Nat) : Nat → Nat := (D (dataBlock D.nInodeblocks b)).ref

theorem nInodeblocks_eq {S : Multiset Nat} (hf : Frame D D' S) :
    D'.nInodeblocks = D.nInodeblocks := hf.inodeblocks

theorem pointers_eq {S : Multiset Nat} (hf : Frame D D' S) {b : Nat}
    (hb : dataBlock D.nInodeblocks b ∉ S) : pointers D' b = pointers D b := by
  unfold pointers
  rw [nInodeblocks_eq hf, hf.outside _ (dataBlock_ne_zero _ b) hb]

theorem pointers_superblock (hf : Frame D D' 0) : pointers D' = pointers D :=
  funext fun _ => pointers_eq hf (Multiset.notMem_zero _)

theorem frame_of_superblock (hf : Frame D D' 0) (S : Multiset Nat) : Frame D D' S :=
  hf.mono fun x hx => absurd hx (Multiset.notMem_zero x)

theorem nInodeblocks_update (D : Image g) {x : Nat} (hx : x ≠ 0) (block : Block g) :
    Image.nInodeblocks (Function.update D x block) = D.nInodeblocks :=
  congrArg (fun b => Treedisk.Block.ref b 0) (Function.update_of_ne hx.symm _ _)

theorem pointers_update (D : Image g) (b : Nat) (block : Block g) :
    pointers (Function.update D (dataBlock D.nInodeblocks b) block) =
      Function.update (pointers D) b block.ref := by
  funext c
  unfold pointers
  rw [nInodeblocks_update D (dataBlock_ne_zero _ b)]
  by_cases hc : c = b
  · rw [hc, Function.update_self, Function.update_self]
  · rw [Function.update_of_ne hc, Function.update_of_ne fun he => hc (dataBlock_inj.mp he)]

theorem dataBlock_ne_inodeblock {x nib : Nat} (hx : x ≤ nib) (b : Nat) : dataBlock nib b ≠ x := by
  unfold dataBlock
  omega

theorem pointers_inodeblock {x : Nat} (hpos : 1 ≤ x) (hx : x ≤ D.nInodeblocks) (block : Block g) :
    pointers (Function.update D x block) = pointers D := by
  funext b
  unfold pointers
  rw [nInodeblocks_update D (by omega), Function.update_of_ne (dataBlock_ne_inodeblock hx b)]

theorem setRef_eq_update {b : Block g} {t : Nat} (ht : t < g.refsPerBlock) (x : Nat) :
    (b.setRef t x).ref = Function.update b.ref t x := by
  funext u
  rw [Treedisk.Block.ref_setRef ht]
  by_cases hu : u = t
  · rw [if_pos hu, hu, Function.update_self]
  · rw [if_neg hu, Function.update_of_ne hu]

theorem update_setRef (M : Nat → Nat → Nat) (a : Nat) {b : Block g} {t : Nat}
    (ht : t < g.refsPerBlock) (x : Nat) :
    Function.update M a (b.setRef t x).ref = setPointer (Function.update M a b.ref) a t x := by
  unfold setPointer
  rw [setRef_eq_update ht, Function.update_self, Function.update_idem]

theorem place_lt (sn : Snapshot g) {k : Nat} (hk : k < 16) : sn.place k < g.refsPerBlock :=
  inode_words_lt g sn.inodeNo hk

theorem word_setWord (sn : Snapshot g) {k : Nat} (hk : k < 16) (a : Nat) :
    (sn.setWord k a).word = Function.update sn.word k a := by
  funext j
  unfold Snapshot.word Snapshot.setWord
  change (sn.inodeblock.setRef (sn.place k) a).ref (sn.place j) = _
  rw [Treedisk.Block.ref_setRef (place_lt sn hk)]
  unfold Snapshot.place
  by_cases hj : j = k
  · rw [if_pos (by omega), hj, Function.update_self]
  · rw [if_neg (by omega), Function.update_of_ne hj]

/-- The same inode with other pointers, and perhaps another superblock. -/
structure SameInode (sn sn' : Snapshot g) : Prop where
  inodeNo : sn'.inodeNo = sn.inodeNo
  inodeBlockno : sn'.inodeBlockno = sn.inodeBlockno
  nblocks : sn'.nblocks = sn.nblocks
  others : ∀ p, (∀ k, k < 16 → p ≠ sn.place k) → sn'.inodeblock.ref p = sn.inodeblock.ref p

namespace SameInode

theorem superblock (sn : Snapshot g) (sb : Block g) : SameInode sn { sn with superblock := sb } :=
  ⟨rfl, rfl, rfl, fun _ _ => rfl⟩

theorem setWord (sn : Snapshot g) {k : Nat} (h0 : 0 < k) (hk : k < 16) (a : Nat) :
    SameInode sn (sn.setWord k a) where
  inodeNo := rfl
  inodeBlockno := rfl
  nblocks := by
    change (sn.setWord k a).word 0 = sn.word 0
    rw [word_setWord sn hk, Function.update_of_ne (by omega)]
  others := by
    intro p hp
    change (sn.inodeblock.setRef (sn.place k) a).ref p = _
    rw [Treedisk.Block.ref_setRef (place_lt sn hk), if_neg (hp k hk)]

theorem trans {sn'' : Snapshot g} (h : SameInode sn sn') (h' : SameInode sn' sn'') :
    SameInode sn sn'' where
  inodeNo := h'.inodeNo.trans h.inodeNo
  inodeBlockno := h'.inodeBlockno.trans h.inodeBlockno
  nblocks := h'.nblocks.trans h.nblocks
  others := by
    intro p hp
    have hplace : ∀ k, sn'.place k = sn.place k := by
      intro k
      unfold Snapshot.place
      rw [h.inodeNo]
    exact (h'.others p fun k hk => by rw [hplace]; exact hp k hk).trans (h.others p hp)

end SameInode

/-- `L` is enough for a file that reaches the offset. -/
structure Enough (g : Geometry) (n nib offset : Nat) (L : List Nat) : Prop where
  nodup : L.Nodup
  range : ∀ b ∈ L, dataBlock nib b < n
  room : blocksFor g.refsPerBlock (offset + 1) ≤ L.length

/-- A block is left for every offset up to the new one. -/
theorem Enough.exists_cons {n nib : Nat} {w : Nat → Nat} {M : Nat → Nat → Nat}
    (hen : Enough g n nib offset L) (pend : List Nat)
    (hL : fileBlocks g.refsPerBlock w M i ++ pend ++ l = L) (hi : i ≤ offset)
    (hpend : pend.length ≤ (indirectAt g.refsPerBlock w M i).length) :
    ∃ x l', l = x :: l' :=
  List.exists_cons_of_ne_nil (rest_ne_nil hL hen.room (by omega) hpend)

theorem Enough.next {n nib : Nat} {w : Nat → Nat} {M : Nat → Nat → Nat}
    (hen : Enough g n nib offset L) (hL : fileBlocks g.refsPerBlock w M i ++ l = L)
    (hi : i ≤ offset) : ∃ x l', l = x :: l' := by
  have hnil : fileBlocks g.refsPerBlock w M i ++ [] ++ l = L := by
    rw [List.append_nil]
    exact hL
  exact hen.exists_cons [] hnil hi (Nat.zero_le _)

theorem Stocked.frame {n : Nat} (hs : Stocked n D sn l) {x : Nat} (hx : x ∉ l) (block : Block g) :
    Stocked n (Function.update D (dataBlock D.nInodeblocks x) block) sn l :=
  hs.update (dataBlock_ne_zero _ x) (fun _ hb he => hx (dataBlock_inj.mp he ▸ hb)) block

section

variable {fs : FixedStore (Block g) σ} {s : σ} {E : Stop → σ → Prop}

/-- The file of the snapshot has grown to `i` blocks. -/
def Extended (fs : FixedStore (Block g) σ) (L : List Nat) (D : Image g) (sn sn' : Snapshot g)
    (i : Nat) (s' : σ) : Prop :=
  ∃ (D' : Image g) (l : List Nat), At fs 0 D' s' ∧ Stocked (fs.sizes 0) D' sn' l ∧
    fileBlocks g.refsPerBlock sn'.word (pointers D') i ++ l = L ∧
    Frame D D' ((indirects g.refsPerBlock sn'.word (pointers D') i).map
      (dataBlock D.nInodeblocks)) ∧
    SameInode sn sn'

theorem Extended.refl (h : At fs 0 D s) (hs : Stocked (fs.sizes 0) D sn l)
    (hL : fileBlocks g.refsPerBlock sn.word (pointers D) i ++ l = L) :
    Extended fs L D sn sn i s :=
  ⟨D, l, h, hs, hL, .refl _ _, .superblock sn sn.superblock⟩

theorem Extended.trans {sn₁ sn₂ : Snapshot g} {D₁ : Image g} {i₁ i₂ : Nat} {l₁ : List Nat}
    (hL : fileBlocks g.refsPerBlock sn₁.word (pointers D₁) i₁ ++ l₁ = L)
    (hf : Frame D D₁ ((indirects g.refsPerBlock sn₁.word (pointers D₁) i₁).map
      (dataBlock D.nInodeblocks))) (hsame : SameInode sn sn₁)
    (h : Extended fs L D₁ sn₁ sn₂ i₂ s) (hi : i₁ ≤ i₂) : Extended fs L D sn sn₂ i₂ s := by
  obtain ⟨D₂, l₂, h₂, hs₂, hL₂, hf₂, hsame₂⟩ := h
  refine ⟨D₂, l₂, h₂, hs₂, hL₂, (hf.mono fun x hx => ?_).trans ?_, hsame.trans hsame₂⟩
  · obtain ⟨b, hb, rfl⟩ := List.mem_map.mp hx
    exact List.mem_map_of_mem (indirects_mono hL hL₂ hi hb)
  · rw [← nInodeblocks_eq hf]
    exact hf₂

theorem outcome_fillEntries {limit : Nat} {slot : Nat → Nat}
    (Inv : Nat → Block g → List Nat → Prop)
    (hpop : ∀ i e l, i < limit → i ≤ offset → Inv i e l →
      ∃ x l', l = x :: l' ∧ Inv (i + 1) (e.setRef (slot i) x) l')
    (rounds : Nat) {e : Block g} (h : At fs 0 D s) (hs : Stocked (fs.sizes 0) D sn l)
    (hrounds : limit ≤ i + rounds) (hinv : Inv i e l) :
    Outcome (fillEntries fs.toBlockStore limit offset slot rounds i e sn)
      (fun r s' => r.1 = max i (min limit (offset + 1)) ∧
        ∃ (D' : Image g) (l' : List Nat), At fs 0 D' s' ∧ Stocked (fs.sizes 0) D' r.2.2 l' ∧
          Inv r.1 r.2.1 l' ∧ Frame D D' 0 ∧ r.2.2 = { sn with superblock := D' 0 }) E s := by
  induction rounds generalizing D sn s i e l with
  | zero =>
    rw [fillEntries, Outcome.pure_iff]
    exact ⟨by omega, D, l, h, hs, hinv, .refl _ _, by rw [← hs.superblock]⟩
  | succ rounds ih =>
    rw [fillEntries]
    split
    · rename_i hin
      obtain ⟨x, l', rfl, hnext⟩ := hpop i e l hin.1 hin.2 hinv
      rw [Outcome.bind_iff]
      apply (outcome_popfree h hs).post
      rintro ⟨next, sn₁⟩ s₁ ⟨rfl, D₁, h₁, hs₁, hf₁, rfl⟩
      apply (ih h₁ hs₁ (by omega) hnext).post
      rintro r s₂ ⟨hr, D₂, l₂, h₂, hs₂, hinv₂, hf₂, he₂⟩
      exact ⟨by omega, D₂, l₂, h₂, hs₂, hinv₂, hf₁.trans hf₂, he₂⟩
    · rename_i hin
      rw [Outcome.pure_iff]
      exact ⟨by omega, D, l, h, hs, hinv, .refl _ _, by rw [← hs.superblock]⟩

theorem outcome_allocDirect (h : At fs 0 D s) (hs : Stocked (fs.sizes 0) D sn l)
    (hL : fileBlocks g.refsPerBlock sn.word (pointers D) i ++ l = L)
    (hen : Enough g (fs.sizes 0) D.nInodeblocks offset L) :
    Outcome (allocDirect fs.toBlockStore offset i sn)
      (fun r s' => r.1 = max i (min 12 (offset + 1)) ∧ Extended fs L D sn r.2 r.1 s') E s := by
  have h16 := g.sixteen_le
  let Inv : Nat → Block g → List Nat → Prop := fun i e l =>
    fileBlocks g.refsPerBlock { sn with inodeblock := e }.word (pointers D) i ++ l = L ∧
      SameInode sn { sn with inodeblock := e }
  have hpop : ∀ i e l, i < 12 → i ≤ offset → Inv i e l →
      ∃ x l', l = x :: l' ∧ Inv (i + 1) (e.setRef (sn.place (1 + i)) x) l' := by
    rintro i e l hi hoff ⟨hblocks, hsame⟩
    obtain ⟨x, l', rfl⟩ := hen.next hblocks hoff
    refine ⟨x, l', rfl, ?_, hsame.trans (SameInode.setWord _ (by omega) (by omega) x)⟩
    have hword := word_setWord { sn with inodeblock := e } (show 1 + i < 16 by omega) x
    change (Snapshot.word { sn with inodeblock := e.setRef (sn.place (1 + i)) x }) = _ at hword
    rw [hword, fileBlocks_direct (by omega) hi, List.append_assoc]
    exact hblocks
  rw [allocDirect, Outcome.bind_iff]
  apply (outcome_fillEntries Inv hpop 12 h hs (by omega)
    ⟨hL, .superblock sn sn.superblock⟩).post
  rintro ⟨i', e, sn₁⟩ s₁ ⟨hi', D₁, l₁, h₁, hs₁, ⟨hblocks, hsame⟩, hf, rfl⟩
  refine ⟨hi', D₁, l₁, h₁, hs₁.snapshot rfl, ?_, frame_of_superblock hf _, ?_⟩
  · rw [pointers_superblock hf]
    exact hblocks
  · exact hsame.trans (SameInode.superblock _ _)

theorem outcome_popWord {fresh : Prop} [Decidable fresh] (hfresh : fresh) {k x : Nat} (h0 : 0 < k)
    (hk : k < 16) (h : At fs 0 D s) (hs : Stocked (fs.sizes 0) D sn (x :: l)) :
    Outcome (popWord fs.toBlockStore fresh k sn)
      (fun sn' s' => ∃ D' : Image g, At fs 0 D' s' ∧ Stocked (fs.sizes 0) D' sn' l ∧ Frame D D' 0 ∧
        sn'.word = Function.update sn.word k x ∧ SameInode sn sn') E s := by
  rw [popWord, if_pos hfresh, Outcome.bind_iff]
  apply (outcome_popfree h hs).post
  rintro ⟨next, sn₁⟩ s₁ ⟨rfl, D₁, h₁, hs₁, hf₁, rfl⟩
  rw [Outcome.pure_iff]
  refine ⟨D₁, h₁, hs₁.snapshot rfl, hf₁, word_setWord _ hk _, ?_⟩
  exact (SameInode.superblock sn (D₁ 0)).trans (.setWord _ h0 hk _)

/-- The single indirect block, an old one or a new one. -/
theorem outcome_popSingle (h : At fs 0 D s) (hs : Stocked (fs.sizes 0) D sn l)
    (hL : fileBlocks g.refsPerBlock sn.word (pointers D) i ++ l = L)
    (hen : Enough g (fs.sizes 0) D.nInodeblocks offset L) (h12 : 12 ≤ i)
    (hin : i < 12 + g.refsPerBlock) (hoff : i ≤ offset) (hfresh : sn.nblocks ≤ 12 ↔ i = 12) :
    Outcome (popWord fs.toBlockStore (sn.nblocks ≤ 12) 13 sn)
      (fun sn' s' => ∃ (D' : Image g) (l' : List Nat), At fs 0 D' s' ∧ Stocked (fs.sizes 0) D' sn' l' ∧
        taken g.refsPerBlock sn'.word (pointers D') i ++ l' = L ∧ Frame D D' 0 ∧
        SameInode sn sn') E s := by
  have h16 := g.sixteen_le
  by_cases he : i = 12
  · subst he
    obtain ⟨x, l', rfl⟩ := hen.next hL hoff
    apply (outcome_popWord (hfresh.mpr rfl) (by omega) (by omega) h hs).post
    rintro sn₁ s₁ ⟨D₁, h₁, hs₁, hf₁, hw, hsame⟩
    refine ⟨D₁, l', h₁, hs₁, ?_, hf₁, hsame⟩
    rw [taken, indirectAt_single, hw, Function.update_self, fileBlocks_single (by omega) (by omega),
      pointers_superblock hf₁, List.append_assoc]
    exact hL
  · rw [popWord, if_neg fun hf => he (hfresh.mp hf), Outcome.pure_iff]
    refine ⟨D, l, h, hs, ?_, .refl _ _, .superblock sn sn.superblock⟩
    rw [taken, indirectAt_of_lt he hin, List.append_nil]
    exact hL

/-- The loop over the entries of an indirect block of data, from the first free one on. -/
theorem outcome_fillChunk {w : Nat → Nat} {M : Nat → Nat → Nat} {a base limit : Nat}
    {slot : Nat → Nat} (hlimit : limit = base + g.refsPerBlock) (hslot : ∀ i, slot i = i - base)
    (hentry : ∀ i (e : Block g) x, base ≤ i → i < limit →
      (taken g.refsPerBlock w (Function.update M a e.ref) i).Nodup →
      fileBlocks g.refsPerBlock w (Function.update M a (e.setRef (i - base) x).ref) (i + 1) =
        taken g.refsPerBlock w (Function.update M a e.ref) i ++ [x])
    (hnone : ∀ i (e : Block g), base < i → i < limit →
      indirectAt g.refsPerBlock w (Function.update M a e.ref) i = [])
    (h : At fs 0 D s) (hs : Stocked (fs.sizes 0) D sn l)
    (hen : Enough g (fs.sizes 0) D.nInodeblocks offset L) (hlo : base ≤ i) (hin : i < limit)
    {e : Block g} (hL : taken g.refsPerBlock w (Function.update M a e.ref) i ++ l = L) :
    Outcome (fillEntries fs.toBlockStore limit offset slot g.refsPerBlock i e sn)
      (fun r s' => r.1 = max i (min limit (offset + 1)) ∧ ∃ (D' : Image g) (l' : List Nat),
        At fs 0 D' s' ∧ Stocked (fs.sizes 0) D' r.2.2 l' ∧
        (i ≤ offset →
          fileBlocks g.refsPerBlock w (Function.update M a r.2.1.ref) r.1 ++ l' = L) ∧
        Frame D D' 0 ∧ r.2.2 = { sn with superblock := D' 0 }) E s := by
  -- between two rounds the indirect blocks for the next offset are there
  let Inv : Nat → Block g → List Nat → Prop := fun i e l =>
    base ≤ i ∧ (i < limit → taken g.refsPerBlock w (Function.update M a e.ref) i ++ l = L) ∧
      (base < i → fileBlocks g.refsPerBlock w (Function.update M a e.ref) i ++ l = L)
  have hpop : ∀ i e l, i < limit → i ≤ offset → Inv i e l →
      ∃ x l', l = x :: l' ∧ Inv (i + 1) (e.setRef (slot i) x) l' := by
    rintro i e l hi hoff ⟨hlo, htaken, -⟩
    have hL := htaken hi
    obtain ⟨x, l', rfl⟩ := hen.exists_cons _ hL hoff (Nat.le_refl _)
    have hnd : (taken g.refsPerBlock w (Function.update M a e.ref) i).Nodup := by
      have hnd := hen.nodup
      rw [← hL] at hnd
      exact (List.nodup_append.mp hnd).1
    have hnext : fileBlocks g.refsPerBlock w
        (Function.update M a (e.setRef (slot i) x).ref) (i + 1) ++ l' = L := by
      rw [hslot, hentry i e x hlo hi hnd, List.append_assoc]
      exact hL
    refine ⟨x, l', rfl, by omega, fun hlt => ?_, fun _ => hnext⟩
    rw [taken, hnone _ _ (by omega) hlt, List.append_nil]
    exact hnext
  have hinv : Inv i e l := by
    refine ⟨hlo, fun _ => hL, fun hgt => ?_⟩
    rw [taken, hnone _ _ hgt hin, List.append_nil] at hL
    exact hL
  apply (outcome_fillEntries Inv hpop g.refsPerBlock h hs (by omega) hinv).post
  rintro ⟨i', e', sn₁⟩ s₁ ⟨hi', D₁, l₁, h₁, hs₁, ⟨-, -, hblocks⟩, hf, he⟩
  exact ⟨hi', D₁, l₁, h₁, hs₁, fun hoff => hblocks (by dsimp only at hi' ⊢; omega), hf, he⟩

theorem outcome_writeIndirect (h : At fs 0 D s) (hs : Stocked (fs.sizes 0) D sn l) {a : Nat}
    (ha : a ∉ l) (hlt : dataBlock D.nInodeblocks a < fs.sizes 0) (e : Block g)
    {Q : Int → σ → Prop}
    (hq : ∀ (D' : Image g) s', At fs 0 D' s' → Stocked (fs.sizes 0) D' sn l →
      pointers D' = Function.update (pointers D) a e.ref →
      Frame D D' {dataBlock D.nInodeblocks a} → Q 0 s') :
    Outcome (fs.write 0 (dataBlock D.nInodeblocks a) e) Q E s := by
  apply h.outcome_write hlt
  intro s' h'
  apply hq _ s' h' (hs.frame ha e) (pointers_update D a e)
  exact .update (dataBlock_ne_zero _ a) (Multiset.mem_singleton_self _) e

theorem not_mem_free (hnd : L.Nodup) {B : List Nat} (hL : B ++ l = L) {a : Nat} (ha : a ∈ B) :
    a ∉ l := by
  rw [← hL] at hnd
  exact fun hl => (List.nodup_append.mp hnd).2.2 _ ha _ hl rfl

theorem outcome_allocSingle (h : At fs 0 D s) (hs : Stocked (fs.sizes 0) D sn l)
    (hL : fileBlocks g.refsPerBlock sn.word (pointers D) i ++ l = L)
    (hen : Enough g (fs.sizes 0) D.nInodeblocks offset L) (hi : i ≤ offset → 12 ≤ i)
    (hfresh : i = sn.nblocks ∨ i ≤ 12) (hsize : sn.nblocks ≤ i) :
    Outcome (allocSingle fs.toBlockStore offset i sn)
      (fun r s' => ∃ sn', r = some (max i (min (12 + g.refsPerBlock) (offset + 1)), sn') ∧
        Extended fs L D sn sn' (max i (min (12 + g.refsPerBlock) (offset + 1))) s') E s := by
  have h16 := g.sixteen_le
  have hn := fs.sizes_lt 0
  rw [allocSingle]
  by_cases hin : i < 12 + g.entriesPerBlock ∧ i ≤ offset
  · rw [if_pos hin, if_neg (by omega)]
    rw [g.entriesPerBlock_eq] at hin ⊢
    rw [Outcome.bind_iff]
    apply (outcome_popSingle h hs hL hen (hi hin.2) hin.1 hin.2 (by omega)).post
    rintro sn₁ s₁ ⟨D₁, l₁, h₁, hs₁, hL₁, hf₁, hsame₁⟩
    rw [← nInodeblocks_eq hf₁] at hen
    have hmem : sn₁.word 13 ∈ L := by
      rw [← hL₁]
      exact List.mem_append_left _ (single_mem_taken (hi hin.2) _ _)
    have hlt := hen.range _ hmem
    have habs : sn₁.absolute sn₁.singleIndirect = dataBlock D₁.nInodeblocks (sn₁.word 13) :=
      hs₁.absolute hn hlt
    dsimp only
    rw [habs, Outcome.bind_iff]
    apply h₁.outcome_read hlt
    intro s₂ h₂
    dsimp only
    rw [Outcome.bind_iff]
    have hL₂ : taken g.refsPerBlock sn₁.word (Function.update (pointers D₁) (sn₁.word 13)
        (D₁ (dataBlock D₁.nInodeblocks (sn₁.word 13))).ref) i ++ l₁ = L := by
      rw [show (D₁ (dataBlock D₁.nInodeblocks (sn₁.word 13))).ref =
        pointers D₁ (sn₁.word 13) from rfl, Function.update_eq_self]
      exact hL₁
    apply (outcome_fillChunk (show 12 + g.refsPerBlock = 12 + g.refsPerBlock from rfl)
      (fun _ => rfl) (fun j e x h12 hlt _ => ?_) (fun j e hgt hlt => ?_) h₂ hs₁ hen (hi hin.2)
      hin.1 hL₂).post
    · rintro ⟨i', e, sn₂⟩ s₃ ⟨hi', D₂, l₂, h₃, hs₂, hblocks, hf₂, rfl⟩
      dsimp only at hi' hblocks hs₂ ⊢
      have hgrown := hblocks hin.2
      have hsingle : sn₁.word 13 ∈ indirects g.refsPerBlock sn₁.word
          (Function.update (pointers D₁) (sn₁.word 13) e.ref) i' := single_mem (by omega)
      rw [Outcome.bind_iff, ← nInodeblocks_eq hf₂]
      apply outcome_writeIndirect h₃ hs₂
        (not_mem_free hen.nodup hgrown (mem_of_indirects hsingle))
        (by rw [nInodeblocks_eq hf₂]; exact hlt)
      intro D₃ s₄ h₄ hs₃ hp hf₃
      rw [pointers_superblock hf₂] at hp
      rw [if_neg (by decide), Outcome.pure_iff, ← hi']
      refine ⟨_, rfl, D₃, l₂, h₄, hs₃, ?_, ?_, hsame₁.trans (.superblock sn₁ _)⟩
      · rw [hp]
        exact hgrown
      · rw [hp, ← nInodeblocks_eq (hf₁.trans hf₂)]
        exact (frame_of_superblock (hf₁.trans hf₂) _).trans
          (hf₃.mono fun x hx => by
            rw [Multiset.mem_singleton.mp hx]
            exact List.mem_map_of_mem hsingle)
    · rw [update_setRef _ _ (by omega)]
      exact fileBlocks_singleEntry (by omega) h12 hlt x
    · exact indirectAt_of_lt (by omega) hlt _ _
  · rw [if_neg hin, Outcome.pure_iff]
    rw [g.entriesPerBlock_eq] at hin
    have he : max i (min (12 + g.refsPerBlock) (offset + 1)) = i := by omega
    rw [he]
    exact ⟨sn, rfl, .refl h hs hL⟩

theorem outcome_popEntry {M : Nat → Nat → Nat} {j : Nat} (hM : M = pointers D) (h : At fs 0 D s)
    (hs : Stocked (fs.sizes 0) D sn l) {e : Block g}
    (hL : fileBlocks g.refsPerBlock sn.word (Function.update M (sn.word 14) e.ref) i ++
      doubleAt g.refsPerBlock sn.word i ++ l = L)
    (hen : Enough g (fs.sizes 0) D.nInodeblocks offset L) (hoff : i ≤ offset)
    (hlo : 12 + g.refsPerBlock + j * g.refsPerBlock ≤ i)
    (hin : i < 12 + g.refsPerBlock + j * g.refsPerBlock + g.refsPerBlock)
    (hj : j < g.refsPerBlock) {fresh : Prop} [Decidable fresh]
    (hfresh : fresh ↔ i = 12 + g.refsPerBlock + j * g.refsPerBlock) :
    Outcome (popEntry fs.toBlockStore fresh j e sn)
      (fun r s' => ∃ (D' : Image g) (l' : List Nat), At fs 0 D' s' ∧
        Stocked (fs.sizes 0) D' r.2 l' ∧
        taken g.refsPerBlock sn.word (Function.update (pointers D') (sn.word 14) r.1.ref) i ++ l' =
          L ∧ Frame D D' 0 ∧ r.2 = { sn with superblock := D' 0 }) E s := by
  have h16 := g.sixteen_le
  subst hM
  by_cases he : i = 12 + g.refsPerBlock + j * g.refsPerBlock
  · rw [popEntry, if_pos (hfresh.mpr he), Outcome.bind_iff]
    obtain ⟨x, l', rfl⟩ := hen.exists_cons _ hL hoff (doubleAt_length_le (by omega) _ _)
    apply (outcome_popfree h hs).post
    rintro ⟨next, sn₁⟩ s₁ ⟨rfl, D₁, h₁, hs₁, hf₁, rfl⟩
    rw [Outcome.pure_iff]
    refine ⟨D₁, l', h₁, hs₁, ?_, hf₁, rfl⟩
    have hnd := hen.nodup
    rw [← hL] at hnd
    rw [pointers_superblock hf₁, update_setRef _ _ hj,
      taken_level (by omega) he (List.nodup_append.mp hnd).1, List.append_assoc]
    exact hL
  · rw [popEntry, if_neg fun hf => he (hfresh.mp hf), Outcome.pure_iff]
    refine ⟨D, l, h, hs, ?_, .refl _ _, by rw [← hs.superblock]⟩
    have hnone := indirectAt_within (j := j)
      (show i - (12 + g.refsPerBlock + j * g.refsPerBlock) < g.refsPerBlock by omega) (by omega)
      sn.word (Function.update (pointers D) (sn.word 14) e.ref)
    rw [show 12 + g.refsPerBlock + j * g.refsPerBlock +
      (i - (12 + g.refsPerBlock + j * g.refsPerBlock)) = i by omega] at hnone
    rw [doubleAt_of_gt _ (by omega), List.append_nil] at hL
    rw [taken, hnone, List.append_nil]
    exact hL

theorem outcome_fillLevel {M : Nat → Nat → Nat} {j : Nat} (h : At fs 0 D s)
    (hs : Stocked (fs.sizes 0) D sn l) (hen : Enough g (fs.sizes 0) D.nInodeblocks offset L)
    (hlo : 12 + g.refsPerBlock + j * g.refsPerBlock ≤ i)
    (hin : i < 12 + g.refsPerBlock + (j + 1) * g.refsPerBlock) {w : Nat → Nat}
    (hL : taken g.refsPerBlock w M i ++ l = L) {e : Block g}
    (he : e.ref = M (secondLevel w M j)) :
    Outcome (fillEntries fs.toBlockStore (12 + g.refsPerBlock + (j + 1) * g.refsPerBlock) offset
        (fun i => i - (12 + g.refsPerBlock) - j * g.refsPerBlock) g.refsPerBlock i e sn)
      (fun r s' => r.1 =
          max i (min (12 + g.refsPerBlock + (j + 1) * g.refsPerBlock) (offset + 1)) ∧
        ∃ (D' : Image g) (l' : List Nat), At fs 0 D' s' ∧ Stocked (fs.sizes 0) D' r.2.2 l' ∧
        (i ≤ offset → fileBlocks g.refsPerBlock w
          (Function.update M (secondLevel w M j) r.2.1.ref) r.1 ++ l' = L) ∧
        Frame D D' 0 ∧ r.2.2 = { sn with superblock := D' 0 }) E s := by
  have h16 := g.sixteen_le
  have hlimit : 12 + g.refsPerBlock + (j + 1) * g.refsPerBlock =
      12 + g.refsPerBlock + j * g.refsPerBlock + g.refsPerBlock := by
    rw [Nat.add_mul, Nat.one_mul]
    omega
  have hnd : (taken g.refsPerBlock w M i).Nodup := by
    have hnd := hen.nodup
    rw [← hL] at hnd
    exact (List.nodup_append.mp hnd).1
  have h14 := (secondLevel_ne (by omega) (taken_nodup_of_le hnd hlo)).2.1
  have hL' : taken g.refsPerBlock w (Function.update M (secondLevel w M j) e.ref) i ++ l = L := by
    rw [he, Function.update_eq_self]
    exact hL
  apply outcome_fillChunk hlimit (fun i => by omega) (fun i e x hlo hlt hnd => ?_)
    (fun i e hgt hlt => ?_) h hs hen hlo hin hL'
  · rw [update_setRef _ _ (by omega)]
    have hentry := fileBlocks_levelEntry (by omega)
      (show i - (12 + g.refsPerBlock + j * g.refsPerBlock) < g.refsPerBlock by omega)
      (show i = _ by omega) (taken_nodup_of_le hnd hlo) x
    rw [secondLevel_update_of_ne w M h14.symm] at hentry
    exact hentry
  · have hnone := indirectAt_within (j := j)
      (show i - (12 + g.refsPerBlock + j * g.refsPerBlock) < g.refsPerBlock by omega) (by omega)
      w (Function.update M (secondLevel w M j) e.ref)
    rw [show 12 + g.refsPerBlock + j * g.refsPerBlock +
      (i - (12 + g.refsPerBlock + j * g.refsPerBlock)) = i by omega] at hnone
    exact hnone

theorem outcome_allocIndirect (rounds : Nat) {e : Block g} (h : At fs 0 D s)
    (hs : Stocked (fs.sizes 0) D sn l)
    (hL : fileBlocks g.refsPerBlock sn.word (Function.update (pointers D) (sn.word 14) e.ref) i ++
      doubleAt g.refsPerBlock sn.word i ++ l = L)
    (hen : Enough g (fs.sizes 0) D.nInodeblocks offset L) (hlo : 12 + g.refsPerBlock ≤ i)
    (hsize : sn.nblocks ≤ i)
    (hfresh : i ≤ offset →
      i = sn.nblocks ∨ (i - (12 + g.refsPerBlock)) % g.refsPerBlock = 0)
    (hrounds : i ≤ offset →
      g.refsPerBlock ≤ (i - (12 + g.refsPerBlock)) / g.refsPerBlock + rounds) :
    Outcome (allocIndirect fs.toBlockStore (12 + g.refsPerBlock) offset rounds i e sn)
      (fun r s' => ∃ i' e' sn', r = some (i', e', sn') ∧
        i' = max i (min (12 + g.refsPerBlock + g.epb2) (offset + 1)) ∧
        ∃ (D' : Image g) (l' : List Nat), At fs 0 D' s' ∧ Stocked (fs.sizes 0) D' sn' l' ∧
          fileBlocks g.refsPerBlock sn.word
            (Function.update (pointers D') (sn.word 14) e'.ref) i' ++
            doubleAt g.refsPerBlock sn.word i' ++ l' = L ∧
          Frame D D' ((indirects g.refsPerBlock sn.word
            (Function.update (pointers D') (sn.word 14) e'.ref) i').map
              (dataBlock D.nInodeblocks)) ∧
          sn' = { sn with superblock := D' 0 }) E s := by
  have h16 := g.sixteen_le
  have hn := fs.sizes_lt 0
  have hepb : g.epb2 = g.refsPerBlock * g.refsPerBlock := rfl
  induction rounds generalizing D sn s i e l with
  | zero =>
    rw [allocIndirect, Outcome.pure_iff]
    have hend (hoff : i ≤ offset) : 12 + g.refsPerBlock + g.epb2 ≤ i :=
      le_offset (by omega) hlo (hrounds hoff)
    exact ⟨i, e, sn, rfl, by omega, D, l, h, hs, hL, .refl _ _, by rw [← hs.superblock]⟩
  | succ rounds ih =>
    rw [allocIndirect]
    by_cases hin : i < 12 + g.refsPerBlock + g.epb2 ∧ i ≤ offset
    · rw [if_pos hin, g.entriesPerBlock_eq]
      obtain ⟨hsplit, hmod⟩ := offset_split (show 0 < g.refsPerBlock by omega) hlo
      generalize hj : (i - (12 + g.refsPerBlock)) / g.refsPerBlock = j at *
      have hjE : j < g.refsPerBlock := by
        rw [← hj]
        exact Nat.div_lt_of_lt_mul (by omega)
      have hlimit : 12 + g.refsPerBlock + (j + 1) * g.refsPerBlock =
          12 + g.refsPerBlock + j * g.refsPerBlock + g.refsPerBlock := by
        rw [Nat.add_mul, Nat.one_mul]
        omega
      dsimp only
      rw [Outcome.bind_iff]
      have hnew : sn.nblocks ≤ 12 + g.refsPerBlock + j * g.refsPerBlock ↔
          i = 12 + g.refsPerBlock + j * g.refsPerBlock := by
        have hf := hfresh hin.2
        omega
      apply (outcome_popEntry rfl h hs hL hen hin.2 (by omega) (by omega) hjE hnew).post
      rintro ⟨e₁, sn₁⟩ s₁ ⟨D₁, l₁, h₁, hs₁, hL₁, hf₁, rfl⟩
      dsimp only at hL₁ hs₁ ⊢
      rw [← nInodeblocks_eq hf₁] at hen
      generalize hM : Function.update (pointers D₁) (sn.word 14) e₁.ref = M at hL₁
      have hlevel : secondLevel sn.word M j = e₁.ref j := by
        rw [← hM, secondLevel_update]
      have hnd : (taken g.refsPerBlock sn.word M i).Nodup := by
        have hnd := hen.nodup
        rw [← hL₁] at hnd
        exact (List.nodup_append.mp hnd).1
      have hne : e₁.ref j ≠ sn.word 14 := by
        rw [← hlevel]
        exact (secondLevel_ne (by omega) (taken_nodup_of_le hnd (by omega))).2.1
      have hmem : e₁.ref j ∈ L := by
        rw [← hL₁, ← hlevel]
        exact List.mem_append_left _ (secondLevel_mem_taken (by omega) (by omega) _ _)
      have hlt := hen.range _ hmem
      rw [hs₁.absolute hn hlt, Outcome.bind_iff]
      apply h₁.outcome_read hlt
      intro s₂ h₂
      dsimp only
      rw [Outcome.bind_iff]
      have hread : (D₁ (dataBlock D₁.nInodeblocks (e₁.ref j))).ref =
          M (secondLevel sn.word M j) := by
        rw [hlevel, ← hM, Function.update_of_ne hne]
        rfl
      apply (outcome_fillLevel h₂ hs₁ hen (by omega) (by omega) hL₁ hread).post
      rintro ⟨i', e₂, sn₂⟩ s₃ ⟨hi', D₂, l₂, h₃, hs₂, hblocks, hf₂, rfl⟩
      dsimp only at hi' hblocks hs₂ ⊢
      have hgrown := hblocks hin.2
      rw [hlevel] at hgrown
      have hkeep : secondLevel sn.word (Function.update M (e₁.ref j) e₂.ref) j = e₁.ref j := by
        rw [secondLevel_update_of_ne _ _ hne.symm, hlevel]
      have hmem₂ : e₁.ref j ∈ indirects g.refsPerBlock sn.word
          (Function.update M (e₁.ref j) e₂.ref) i' := by
        have hmem₂ := secondLevel_mem (E := g.refsPerBlock) (w := sn.word)
          (M := Function.update M (e₁.ref j) e₂.ref) (i := i') (j := j) (by omega) (by omega)
        rw [hkeep] at hmem₂
        exact hmem₂
      rw [Outcome.bind_iff, ← nInodeblocks_eq hf₂]
      apply outcome_writeIndirect h₃ hs₂
        (not_mem_free hen.nodup hgrown (mem_of_indirects hmem₂))
        (by rw [nInodeblocks_eq hf₂]; exact hlt)
      intro D₃ s₄ h₄ hs₃ hp hf₃
      rw [pointers_superblock hf₂] at hp
      have hM₃ : Function.update (pointers D₃) (sn.word 14) e₁.ref =
          Function.update M (e₁.ref j) e₂.ref := by
        rw [hp, Function.update_comm hne, hM]
      rw [if_neg (by decide)]
      have hf := (frame_of_superblock (hf₁.trans hf₂) _).trans hf₃
      rw [← nInodeblocks_eq hf₂, ← nInodeblocks_eq hf₃] at hen
      have hdouble := doubleAt_of_gt (E := g.refsPerBlock) (i := i') sn.word (by omega)
      have hL₃ : fileBlocks g.refsPerBlock sn.word
          (Function.update (pointers D₃) (sn.word 14) e₁.ref) i' ++
          doubleAt g.refsPerBlock sn.word i' ++ l₂ = L := by
        rw [hM₃, hdouble, List.append_nil]
        exact hgrown
      have hnext : i' ≤ offset → i' - (12 + g.refsPerBlock) = (j + 1) * g.refsPerBlock :=
        fun hoff => by omega
      have hmul : (j + 1) * g.refsPerBlock ≤ g.refsPerBlock * g.refsPerBlock :=
        Nat.mul_le_mul_right _ hjE
      apply (ih h₄ hs₃ hL₃ hen (by omega) (show sn.nblocks ≤ i' by omega) (fun hoff => .inr ?_)
        (fun hoff => ?_)).post
      · rintro r s₅ ⟨i'', e₃, sn₃, rfl, hi'', D₄, l₄, h₅, hs₄, hL₄, hf₄, he₄⟩
        refine ⟨i'', e₃, sn₃, rfl, by omega, D₄, l₄, h₅, hs₄, hL₄, ?_, he₄⟩
        rw [nInodeblocks_eq hf] at hf₄
        refine (hf.mono fun x hx => ?_).trans hf₄
        rw [Multiset.mem_singleton.mp hx, nInodeblocks_eq (hf₁.trans hf₂)]
        apply List.mem_map_of_mem
        rw [List.append_assoc] at hL₄
        exact indirects_mono hgrown hL₄ (by omega) hmem₂
      · rw [hnext hoff, Nat.mul_mod_left]
      · have hr := hrounds hin.2
        rw [hnext hoff, Nat.mul_div_cancel _ (by omega)]
        omega
    · rw [if_neg hin, Outcome.pure_iff]
      exact ⟨i, e, sn, rfl, by omega, D, l, h, hs, hL, .refl _ _, by rw [← hs.superblock]⟩

/-- The double indirect block, an old one or a new one. -/
theorem outcome_popDouble (h : At fs 0 D s) (hs : Stocked (fs.sizes 0) D sn l)
    (hL : fileBlocks g.refsPerBlock sn.word (pointers D) i ++ l = L)
    (hen : Enough g (fs.sizes 0) D.nInodeblocks offset L) (hlo : 12 + g.refsPerBlock ≤ i)
    (hoff : i ≤ offset)
    (hfresh : sn.nblocks ≤ 12 + g.refsPerBlock ↔ i = 12 + g.refsPerBlock) :
    Outcome (popWord fs.toBlockStore (sn.nblocks ≤ 12 + g.refsPerBlock) 14 sn)
      (fun sn' s' => ∃ (D' : Image g) (l' : List Nat), At fs 0 D' s' ∧
        Stocked (fs.sizes 0) D' sn' l' ∧
        fileBlocks g.refsPerBlock sn'.word (pointers D') i ++
          doubleAt g.refsPerBlock sn'.word i ++ l' = L ∧ Frame D D' 0 ∧ SameInode sn sn') E s := by
  have h16 := g.sixteen_le
  by_cases he : i = 12 + g.refsPerBlock
  · obtain ⟨x, l', rfl⟩ := hen.next hL hoff
    apply (outcome_popWord (hfresh.mpr he) (by omega) (by omega) h hs).post
    rintro sn₁ s₁ ⟨D₁, h₁, hs₁, hf₁, hw, hsame⟩
    refine ⟨D₁, l', h₁, hs₁, ?_, hf₁, hsame⟩
    rw [doubleAt, if_pos he, hw, Function.update_self, fileBlocks_double (by omega) (by omega),
      pointers_superblock hf₁, List.append_assoc]
    exact hL
  · rw [popWord, if_neg fun hf => he (hfresh.mp hf), Outcome.pure_iff]
    refine ⟨D, l, h, hs, ?_, .refl _ _, .superblock sn sn.superblock⟩
    rw [doubleAt_of_gt _ (by omega), List.append_nil]
    exact hL

theorem outcome_allocDouble (h : At fs 0 D s) (hs : Stocked (fs.sizes 0) D sn l)
    (hL : fileBlocks g.refsPerBlock sn.word (pointers D) i ++ l = L)
    (hen : Enough g (fs.sizes 0) D.nInodeblocks offset L)
    (hi : i ≤ offset → 12 + g.refsPerBlock ≤ i)
    (hfresh : i = sn.nblocks ∨ i ≤ 12 + g.refsPerBlock) (hsize : sn.nblocks ≤ i) :
    Outcome (allocDouble fs.toBlockStore offset i sn)
      (fun r s' => ∃ sn',
        r = some (max i (min (12 + g.refsPerBlock + g.epb2) (offset + 1)), sn') ∧
        Extended fs L D sn sn' (max i (min (12 + g.refsPerBlock + g.epb2) (offset + 1))) s')
      E s := by
  have h16 := g.sixteen_le
  have hn := fs.sizes_lt 0
  have hepb : g.epb2 = g.refsPerBlock * g.refsPerBlock := rfl
  rw [allocDouble, g.entriesPerBlock_eq]
  by_cases hin : i < 12 + g.refsPerBlock + g.epb2 ∧ i ≤ offset
  · have hlo := hi hin.2
    rw [if_pos hin, if_neg (by omega), Outcome.bind_iff]
    apply (outcome_popDouble h hs hL hen hlo hin.2 (by omega)).post
    rintro sn₁ s₁ ⟨D₁, l₁, h₁, hs₁, hL₁, hf₁, hsame₁⟩
    rw [← nInodeblocks_eq hf₁] at hen
    have hmem : sn₁.word 14 ∈ L := by
      rw [← hL₁]
      apply List.mem_append_left
      rcases Nat.eq_or_lt_of_le hlo with he | hgt
      · rw [doubleAt, if_pos he.symm]
        exact List.mem_append_right _ (List.mem_singleton_self _)
      · exact List.mem_append_left _ (mem_of_indirects (double_mem (by omega) hgt))
    have hlt := hen.range _ hmem
    have habs : sn₁.absolute sn₁.doubleIndirect = dataBlock D₁.nInodeblocks (sn₁.word 14) :=
      hs₁.absolute hn hlt
    dsimp only
    rw [habs, Outcome.bind_iff]
    apply h₁.outcome_read hlt
    intro s₂ h₂
    dsimp only
    rw [Outcome.bind_iff]
    have hL₂ : fileBlocks g.refsPerBlock sn₁.word (Function.update (pointers D₁) (sn₁.word 14)
        (D₁ (dataBlock D₁.nInodeblocks (sn₁.word 14))).ref) i ++
        doubleAt g.refsPerBlock sn₁.word i ++ l₁ = L := by
      rw [show (D₁ (dataBlock D₁.nInodeblocks (sn₁.word 14))).ref =
        pointers D₁ (sn₁.word 14) from rfl, Function.update_eq_self]
      exact hL₁
    have hsize₁ := hsame₁.nblocks
    apply (outcome_allocIndirect g.refsPerBlock h₂ hs₁ hL₂ hen hlo (by omega) (fun _ => ?_)
      (fun _ => Nat.le_add_left _ _)).post
    · rintro r s₃ ⟨i', e, sn₂, rfl, hi', D₂, l₂, h₃, hs₂, hL₃, hf₂, rfl⟩
      dsimp only at hs₂ ⊢
      rw [doubleAt_of_gt _ (by omega), List.append_nil] at hL₃
      have hdouble : sn₁.word 14 ∈ indirects g.refsPerBlock sn₁.word
          (Function.update (pointers D₂) (sn₁.word 14) e.ref) i' :=
        double_mem (by omega) (by omega)
      rw [Outcome.bind_iff, ← nInodeblocks_eq hf₂]
      apply outcome_writeIndirect h₃ hs₂
        (not_mem_free hen.nodup hL₃ (mem_of_indirects hdouble))
        (by rw [nInodeblocks_eq hf₂]; exact hlt)
      intro D₃ s₄ h₄ hs₃ hp hf₃
      rw [if_neg (by decide), Outcome.pure_iff, ← hi']
      refine ⟨_, rfl, D₃, l₂, h₄, hs₃, ?_, ?_, hsame₁.trans (.superblock sn₁ _)⟩
      · rw [hp]
        exact hL₃
      · rw [hp, ← nInodeblocks_eq hf₁]
        refine (frame_of_superblock hf₁ _).trans (hf₂.trans (hf₃.mono fun x hx => ?_))
        rw [Multiset.mem_singleton.mp hx, nInodeblocks_eq hf₂]
        exact List.mem_map_of_mem hdouble
    · rcases hfresh with hf | hf
      · exact .inl (by omega)
      · obtain rfl : i = 12 + g.refsPerBlock := by omega
        rw [Nat.sub_self]
        exact .inr (Nat.zero_mod _)
  · rw [if_neg hin, Outcome.pure_iff]
    have he : max i (min (12 + g.refsPerBlock + g.epb2) (offset + 1)) = i := by omega
    rw [he]
    exact ⟨sn, rfl, .refl h hs hL⟩

/-- Below the triple indirect range nothing is left to do for the triple indirect block. -/
theorem allocTriple_skip (hi : offset < i) :
    allocTriple fs.toBlockStore offset i sn = pure (some (i, sn)) := by
  rw [allocTriple]
  exact if_neg (by omega)

theorem fileBlocks_nblocks (hE : 0 < g.refsPerBlock) (w : Nat → Nat) (M : Nat → Nat → Nat)
    (i x : Nat) :
    fileBlocks g.refsPerBlock (Function.update w 0 x) M i = fileBlocks g.refsPerBlock w M i ∧
      indirects g.refsPerBlock (Function.update w 0 x) M i = indirects g.refsPerBlock w M i := by
  have hsame : SamePointers g.refsPerBlock w (Function.update w 0 x) M M i := by
    constructor
    · exact fun _ _ _ => Function.update_of_ne (by omega) _ _
    · exact fun _ => Function.update_of_ne (by omega) _ _
    · exact fun _ _ _ => rfl
    · exact fun _ => Function.update_of_ne (by omega) _ _
    · exact fun _ _ => rfl
    · exact fun _ _ _ _ => rfl
  exact ⟨hsame.fileBlocks_eq hE, hsame.indirects_eq hE⟩

/-- What `unixdisk_alloc` leaves: the file has the blocks of `L` up to the offset. -/
structure Allocated (fs : FixedStore (Block g) σ) (L : List Nat) (D : Image g) (sn sn' : Snapshot g)
    (offset : Nat) (D' : Image g) (l : List Nat) : Prop where
  stocked : Stocked (fs.sizes 0) D' sn' l
  nblocks : sn'.nblocks = offset + 1
  blocks : fileBlocks g.refsPerBlock sn'.word (pointers D') (offset + 1) ++ l = L
  frame : Frame D D' (sn.inodeBlockno ::ₘ ((indirects g.refsPerBlock sn'.word (pointers D')
    (offset + 1)).map (dataBlock D.nInodeblocks) : List Nat))
  inodeNo : sn'.inodeNo = sn.inodeNo
  inodeblock : D' sn.inodeBlockno = sn'.inodeblock
  others : ∀ p, (∀ k, k < 16 → p ≠ sn.place k) → sn'.inodeblock.ref p = sn.inodeblock.ref p

theorem outcome_alloc (h : At fs 0 D s) (hs : Stocked (fs.sizes 0) D sn l)
    (hL : fileBlocks g.refsPerBlock sn.word (pointers D) sn.nblocks ++ l = L)
    (hen : Enough g (fs.sizes 0) D.nInodeblocks offset L)
    (hoff : offset < 12 + g.refsPerBlock + g.epb2) (hlt : offset + 1 < 2 ^ 32)
    (hsize : sn.nblocks ≤ offset) (hpos : 1 ≤ sn.inodeBlockno)
    (hle : sn.inodeBlockno ≤ D.nInodeblocks) :
    Outcome (alloc fs.toBlockStore sn offset)
      (fun r s' => ∃ sn', r = some sn' ∧ ∃ (D' : Image g) (l' : List Nat), At fs 0 D' s' ∧
        Allocated fs L D sn sn' offset D' l') E s := by
  have h16 := g.sixteen_le
  rw [alloc, if_neg (by omega), Outcome.bind_iff]
  apply (outcome_allocDirect h hs hL hen).post
  rintro ⟨i₁, sn₁⟩ s₁ ⟨hi₁, D₁, l₁, h₁, hs₁, hL₁, hf₁, hsame₁⟩
  dsimp only at hi₁ hs₁ hL₁ hf₁ hsame₁ ⊢
  rw [← nInodeblocks_eq hf₁] at hen
  have hsize₁ := hsame₁.nblocks
  rw [Outcome.bind_iff]
  apply (outcome_allocSingle h₁ hs₁ hL₁ hen (by omega) (by omega) (by omega)).post
  rintro r s₂ ⟨sn₂, rfl, hext⟩
  generalize hi₂ : max i₁ (min (12 + g.refsPerBlock) (offset + 1)) = i₂ at hext ⊢
  obtain ⟨D₂, l₂, h₂, hs₂, hL₂, hf₂, hsame₂⟩ := hext.trans hL₁ hf₁ hsame₁ (by omega)
  rw [nInodeblocks_eq hf₁, ← nInodeblocks_eq hf₂] at hen
  have hsize₂ := hsame₂.nblocks
  dsimp only
  rw [Outcome.bind_iff]
  apply (outcome_allocDouble h₂ hs₂ hL₂ hen (by omega) (by omega) (by omega)).post
  rintro r s₃ ⟨sn₃, rfl, hext⟩
  rw [show max i₂ (min (12 + g.refsPerBlock + g.epb2) (offset + 1)) = offset + 1 by omega]
    at hext ⊢
  obtain ⟨D₃, l₃, h₃, hs₃, hL₃, hf₃, hsame₃⟩ := hext.trans hL₂ hf₂ hsame₂ (by omega)
  dsimp only
  rw [allocTriple_skip (by omega), pure_bind]
  dsimp only
  rw [Nat.mod_eq_of_lt hlt, Outcome.bind_iff]
  have hle₃ : sn.inodeBlockno ≤ D₃.nInodeblocks := by
    rw [nInodeblocks_eq hf₃]
    exact hle
  have hinodes := hs₃.inodes_lt
  change Outcome (fs.write 0 sn₃.inodeBlockno _) _ _ _
  rw [hsame₃.inodeBlockno]
  apply h₃.outcome_write (by omega)
  intro s₄ h₄
  rw [if_neg (by decide), Outcome.pure_iff]
  have hword := word_setWord sn₃ (show 0 < 16 by omega) (offset + 1)
  have hptr := pointers_inodeblock hpos hle₃ (sn₃.setWord 0 (offset + 1)).inodeblock
  obtain ⟨hblocks, hind⟩ := fileBlocks_nblocks (g := g) (by omega) sn₃.word (pointers D₃)
    (offset + 1) (offset + 1)
  refine ⟨_, rfl, _, l₃, h₄, ?_⟩
  constructor
  · exact (hs₃.update (by omega) (fun b _ => dataBlock_ne_inodeblock hle₃ b) _).snapshot rfl
  · change (sn₃.setWord 0 (offset + 1)).word 0 = _
    rw [hword, Function.update_self]
  · rw [hword, hptr, hblocks]
    exact hL₃
  · rw [hword, hptr, hind]
    refine (hf₃.mono fun x hx => Multiset.mem_cons_of_mem hx).trans ?_
    exact .update (by omega) (Multiset.mem_cons_self _ _) _
  · exact hsame₃.inodeNo
  · exact Function.update_self _ _ _
  · intro p hp
    rw [← hsame₃.others p hp]
    change (sn₃.inodeblock.setRef (sn₃.place 0) _).ref p = _
    have hplace : sn₃.place 0 = sn.place 0 := by
      unfold Snapshot.place
      rw [hsame₃.inodeNo]
    rw [Treedisk.Block.ref_setRef (place_lt sn₃ (by omega)), hplace, if_neg (hp 0 (by omega))]

end

end Egos.Disk.Unixdisk
