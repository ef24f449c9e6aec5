import Egos.Disk.Unixdisk.Alloc

/-!
# Freeing a file

`unixdisk_free_file` puts the blocks of a file on the free list, the data blocks in the order
of their offsets and each indirect block after what it points to. A push writes to blocks that
are free by then, so the indirect blocks that are still to be read are as they were.
-/
namespace Egos.Disk.Unixdisk

open Egos.Lib
open Treedisk (At Frame)

set_option autoImplicit false

variable {g : Geometry} {σ : Type} {D₀ D : Image g} {sn₀ sn : Snapshot g} {l₀ l : List Nat}
  {i : Nat}

/-- The free blocks and the blocks of the file, before any of them is freed. -/
structure Whole (n : Nat) (D₀ : Image g) (sn₀ : Snapshot g) (l₀ : List Nat) : Prop where
  nodup : (l₀ ++ fileBlocks g.refsPerBlock sn₀.word (pointers D₀) sn₀.nblocks).Nodup
  range : ∀ b ∈ l₀ ++ fileBlocks g.refsPerBlock sn₀.word (pointers D₀) sn₀.nblocks,
    dataBlock D₀.nInodeblocks b < n

/-- The blocks of the first `i` offsets are free, but for the indirect blocks `pend`. -/
structure Freeing (n : Nat) (D₀ : Image g) (sn₀ : Snapshot g) (l₀ : List Nat) (i : Nat)
    (pend : List Nat) (D : Image g) (sn : Snapshot g) (l : List Nat) : Prop where
  stocked : Stocked n D sn l
  perm : (l ++ pend).Perm (l₀ ++ fileBlocks g.refsPerBlock sn₀.word (pointers D₀) i)
  frame : Frame D₀ D (l.map (dataBlock D₀.nInodeblocks))
  snapshot : sn = { sn₀ with superblock := D 0 }

section

variable {n : Nat} {pend : List Nat}

/-- The blocks up to an offset, followed by those of the offset. -/
theorem Whole.taken_nodup (hw : Whole n D₀ sn₀ l₀) (hi : i < sn₀.nblocks) :
    (l₀ ++ (taken g.refsPerBlock sn₀.word (pointers D₀) i ++
      [blockAt g.refsPerBlock sn₀.word (pointers D₀) i])).Nodup := by
  obtain ⟨rest, he⟩ := fileBlocks_prefix (E := g.refsPerBlock) (w := sn₀.word) (M := pointers D₀)
    (show i + 1 ≤ sn₀.nblocks by omega)
  have hnd := hw.nodup
  rw [he, fileBlocks, ← List.append_assoc, ← List.append_assoc] at hnd
  rw [taken, List.append_assoc, ← List.append_assoc]
  exact (List.nodup_append.mp hnd).1

theorem Whole.prefix_range (hw : Whole n D₀ sn₀ l₀) (hi : i ≤ sn₀.nblocks) :
    ∀ b ∈ l₀ ++ fileBlocks g.refsPerBlock sn₀.word (pointers D₀) i,
      dataBlock D₀.nInodeblocks b < n := by
  obtain ⟨rest, he⟩ := fileBlocks_prefix (E := g.refsPerBlock) (w := sn₀.word) (M := pointers D₀)
    hi
  intro b hb
  apply hw.range b
  rw [he, ← List.append_assoc]
  exact List.mem_append_left _ hb

theorem Whole.prefix_nodup (hw : Whole n D₀ sn₀ l₀) (hi : i ≤ sn₀.nblocks) :
    (l₀ ++ fileBlocks g.refsPerBlock sn₀.word (pointers D₀) i).Nodup := by
  obtain ⟨rest, he⟩ := fileBlocks_prefix (E := g.refsPerBlock) (w := sn₀.word) (M := pointers D₀)
    hi
  have hnd := hw.nodup
  rw [he, ← List.append_assoc] at hnd
  exact (List.nodup_append.mp hnd).1

theorem Freeing.pointers_eq (hf : Freeing n D₀ sn₀ l₀ i pend D sn l) (hw : Whole n D₀ sn₀ l₀)
    {t b : Nat} (hit : i ≤ t) (ht : t < sn₀.nblocks)
    (hb : b ∈ indirectAt g.refsPerBlock sn₀.word (pointers D₀) t) :
    pointers D b = pointers D₀ b := by
  apply Unixdisk.pointers_eq hf.frame
  intro hmem
  obtain ⟨c, hc, he⟩ := List.mem_map.mp hmem
  obtain rfl := dataBlock_inj.mp he
  have hnd := hw.taken_nodup ht
  have hfreed : c ∈ l₀ ++ fileBlocks g.refsPerBlock sn₀.word (pointers D₀) i :=
    hf.perm.mem_iff.mp (List.mem_append_left _ hc)
  obtain ⟨rest, hrest⟩ := fileBlocks_prefix (E := g.refsPerBlock) (w := sn₀.word)
    (M := pointers D₀) hit
  rw [taken, hrest, List.append_assoc, List.append_assoc, ← List.append_assoc] at hnd
  refine (List.nodup_append.mp hnd).2.2 c hfreed c ?_ rfl
  exact List.mem_append_right _ (List.mem_append_left _ hb)

theorem Freeing.nInodeblocks (hf : Freeing n D₀ sn₀ l₀ i pend D sn l) :
    D.nInodeblocks = D₀.nInodeblocks := nInodeblocks_eq hf.frame

theorem Freeing.nblocks (hf : Freeing n D₀ sn₀ l₀ i pend D sn l) : sn.nblocks = sn₀.nblocks := by
  rw [hf.snapshot]
  rfl

end

section

variable {fs : FixedStore (Block g) σ} {s : σ} {E : Stop → σ → Prop} {pend : List Nat}

theorem Freeing.outcome_push (h : At fs 0 D s)
    (hf : Freeing (fs.sizes 0) D₀ sn₀ l₀ i pend D sn l) (hw : Whole (fs.sizes 0) D₀ sn₀ l₀)
    {b k : Nat} {pend' : List Nat} (hk : k ≤ sn₀.nblocks)
    (hperm : (b :: l ++ pend').Perm
      (l₀ ++ fileBlocks g.refsPerBlock sn₀.word (pointers D₀) k)) :
    Outcome (pushfree fs.toBlockStore sn b)
      (fun r s' => ∃ D' : Image g, At fs 0 D' s' ∧
        Freeing (fs.sizes 0) D₀ sn₀ l₀ k pend' D' r.2 (b :: l)) E s := by
  have hnd := hperm.nodup_iff.mpr (hw.prefix_nodup hk)
  have hb : b ∉ l := (List.nodup_cons.mp (List.nodup_append.mp hnd).1).1
  have hlt := hw.prefix_range hk b (hperm.mem_iff.mp List.mem_cons_self)
  rw [← hf.nInodeblocks] at hlt
  apply (outcome_pushfree h hf.stocked hb hlt).post
  rintro r s' ⟨D', h', hs', hf', he⟩
  refine ⟨D', h', hs', hperm, ?_, ?_⟩
  · rw [hf.nInodeblocks] at hf'
    refine (hf.frame.mono fun x hx => ?_).trans hf'
    exact List.map_subset _ (List.subset_cons_self _ _) hx
  · rw [he, hf.snapshot]

theorem outcome_freeChunk {base limit : Nat} {slot : Nat → Nat} {e : Block g} {p : List Nat}
    (hentry : ∀ i, base ≤ i → i < limit → i < sn₀.nblocks →
      e.ref (slot i) = blockAt g.refsPerBlock sn₀.word (pointers D₀) i)
    (hnone : ∀ i, base < i → i < limit →
      indirectAt g.refsPerBlock sn₀.word (pointers D₀) i = [])
    (hw : Whole (fs.sizes 0) D₀ sn₀ l₀) (rounds : Nat) (h : At fs 0 D s) (hlo : base ≤ i)
    (hrounds : limit ≤ i + rounds)
    (hf : Freeing (fs.sizes 0) D₀ sn₀ l₀ i
      (p ++ if base < i then indirectAt g.refsPerBlock sn₀.word (pointers D₀) base else [])
      D sn l) :
    Outcome (freeEntries fs.toBlockStore limit slot e rounds i sn)
      (fun r s' => r.1 = max i (min limit sn₀.nblocks) ∧ ∃ (D' : Image g) (l' : List Nat),
        At fs 0 D' s' ∧ Freeing (fs.sizes 0) D₀ sn₀ l₀ r.1
          (p ++ if base < r.1 then indirectAt g.refsPerBlock sn₀.word (pointers D₀) base else [])
          D' r.2 l') E s := by
  induction rounds generalizing D sn s i l with
  | zero =>
    rw [freeEntries, Outcome.pure_iff]
    exact ⟨by omega, D, l, h, hf⟩
  | succ rounds ih =>
    rw [freeEntries, hf.nblocks]
    by_cases hin : i < limit ∧ i < sn₀.nblocks
    · rw [if_pos hin, Outcome.bind_iff, hentry i hlo hin.1 hin.2]
      have hperm : (blockAt g.refsPerBlock sn₀.word (pointers D₀) i :: l ++
          (p ++ if base < i + 1 then indirectAt g.refsPerBlock sn₀.word (pointers D₀) base
            else [])).Perm
          (l₀ ++ fileBlocks g.refsPerBlock sn₀.word (pointers D₀) (i + 1)) := by
        rw [if_pos (show base < i + 1 by omega), List.perm_iff_count]
        intro c
        have hcount := hf.perm.count_eq c
        rcases Nat.eq_or_lt_of_le hlo with rfl | hgt
        · simp only [if_neg (Nat.lt_irrefl _), fileBlocks, List.count_append, List.count_cons,
            List.count_nil] at hcount ⊢
          omega
        · simp only [if_pos hgt, fileBlocks, hnone i hgt hin.1, List.count_append,
            List.count_cons, List.count_nil] at hcount ⊢
          omega
      apply (hf.outcome_push h hw (show i + 1 ≤ sn₀.nblocks by omega) hperm).post
      rintro r s₁ ⟨D₁, h₁, hf₁⟩
      dsimp only
      apply (ih h₁ (by omega) (by omega) hf₁).post
      rintro r s₂ ⟨hr, hrest⟩
      exact ⟨by omega, hrest⟩
    · rw [if_neg hin, Outcome.pure_iff]
      exact ⟨by omega, D, l, h, hf⟩

theorem Freeing.outcome_read (h : At fs 0 D s)
    (hf : Freeing (fs.sizes 0) D₀ sn₀ l₀ i pend D sn l) (hw : Whole (fs.sizes 0) D₀ sn₀ l₀)
    {t b : Nat} (hit : i ≤ t) (ht : t < sn₀.nblocks)
    (hb : b ∈ indirectAt g.refsPerBlock sn₀.word (pointers D₀) t)
    {Q : Option (Block g) → σ → Prop}
    (hq : ∀ (e : Block g) s', At fs 0 D s' → e.ref = pointers D₀ b → Q (some e) s') :
    Outcome (fs.read 0 (sn.absolute b)) Q E s := by
  have hmem := mem_fileBlocks_of_indirectAt ht hb
  have hlt := hw.range b (List.mem_append_right _ hmem)
  rw [← hf.nInodeblocks] at hlt
  rw [hf.stocked.absolute (fs.sizes_lt 0) hlt]
  apply h.outcome_read hlt
  intro s' h'
  exact hq _ s' h' (hf.pointers_eq hw hit ht hb)

theorem outcome_freeSingle (h : At fs 0 D s) (hi : i = min 12 sn₀.nblocks)
    (hf : Freeing (fs.sizes 0) D₀ sn₀ l₀ i [] D sn l) (hw : Whole (fs.sizes 0) D₀ sn₀ l₀) :
    Outcome (freeSingle fs.toBlockStore i sn)
      (fun r s' => ∃ sn', r = some (min (12 + g.refsPerBlock) sn₀.nblocks, sn') ∧
        ∃ (D' : Image g) (l' : List Nat), At fs 0 D' s' ∧
          Freeing (fs.sizes 0) D₀ sn₀ l₀ (min (12 + g.refsPerBlock) sn₀.nblocks) [] D' sn' l')
      E s := by
  have h16 := g.sixteen_le
  rw [freeSingle, hf.nblocks, g.entriesPerBlock_eq]
  by_cases hin : i < g.refsPerBlock + 12 ∧ i < sn₀.nblocks
  · rw [if_pos hin, Outcome.bind_iff]
    obtain rfl : i = 12 := by omega
    have hat := indirectAt_single g.refsPerBlock sn₀.word (pointers D₀)
    have hsingle : sn.singleIndirect = sn₀.word 13 := by
      rw [hf.snapshot]
      rfl
    rw [hsingle]
    apply hf.outcome_read h hw (Nat.le_refl _) hin.2 (by rw [hat]; exact List.mem_singleton_self _)
    intro e s₁ h₁ he
    dsimp only
    rw [Outcome.bind_iff]
    have hentry : ∀ i, 12 ≤ i → i < 12 + g.refsPerBlock → i < sn₀.nblocks →
        e.ref (i - 12) = blockAt g.refsPerBlock sn₀.word (pointers D₀) i := by
      intro i h12 hlt _
      rw [he, blockAt_single _ _ h12 hlt]
    apply (outcome_freeChunk (p := []) hentry
      (fun i hgt hlt => indirectAt_of_lt (by omega) hlt _ _) hw g.refsPerBlock h₁
      (Nat.le_refl _) (Nat.le_refl _) (by rw [if_neg (Nat.lt_irrefl _)]; exact hf)).post
    rintro ⟨i', sn₁⟩ s₂ ⟨hi', D₁, l₁, h₂, hf₁⟩
    dsimp only at hi' hf₁ ⊢
    rw [if_pos (by omega), hat, List.nil_append] at hf₁
    have hsingle₁ : sn₁.singleIndirect = sn₀.word 13 := by
      rw [hf₁.snapshot]
      rfl
    rw [Outcome.bind_iff, hsingle₁]
    have hperm : (sn₀.word 13 :: l₁ ++ []).Perm
        (l₀ ++ fileBlocks g.refsPerBlock sn₀.word (pointers D₀) i') := by
      rw [List.append_nil]
      exact (List.perm_append_singleton _ _).symm.trans hf₁.perm
    apply (hf₁.outcome_push h₂ hw (by omega) hperm).post
    rintro r s₃ ⟨D₂, h₃, hf₂⟩
    rw [Outcome.pure_iff, show min (12 + g.refsPerBlock) sn₀.nblocks = i' by omega]
    exact ⟨_, rfl, D₂, _, h₃, hf₂⟩
  · rw [if_neg hin, Outcome.pure_iff, show min (12 + g.refsPerBlock) sn₀.nblocks = i by omega]
    exact ⟨sn, rfl, D, l, h, hf⟩

/-- The double indirect block waits until everything below it is free. -/
def doublePending (E : Nat) (w : Nat → Nat) (i : Nat) : List Nat :=
  if 12 + E < i then [w 14] else []

/-- When a second-level block has been read, both indirect blocks above its entries wait, however many
there were before. -/
theorem doublePending_append {E j : Nat} (hE : 0 < E) (w : Nat → Nat) (M : Nat → Nat → Nat) :
    doublePending E w (12 + E + j * E) ++ indirectAt E w M (12 + E + j * E) =
      [w 14, secondLevel w M j] := by
  rcases Nat.eq_zero_or_pos j with rfl | hpos
  · rw [Nat.zero_mul, Nat.add_zero, doublePending, if_neg (Nat.lt_irrefl _), indirectAt_double hE]
    rfl
  · have hmul : 0 < j * E := Nat.mul_pos hpos hE
    rw [doublePending, if_pos (by omega), indirectAt_chunk hE _ _ hpos]
    rfl

theorem outcome_freeIndirect (rounds : Nat) {e : Block g} (he : e.ref = pointers D₀ (sn₀.word 14))
    (hw : Whole (fs.sizes 0) D₀ sn₀ l₀) (h : At fs 0 D s) (hlo : 12 + g.refsPerBlock ≤ i)
    (hbound : i < sn₀.nblocks → (i - (12 + g.refsPerBlock)) % g.refsPerBlock = 0)
    (hrounds : i < sn₀.nblocks →
      g.refsPerBlock ≤ (i - (12 + g.refsPerBlock)) / g.refsPerBlock + rounds)
    (hf : Freeing (fs.sizes 0) D₀ sn₀ l₀ i (doublePending g.refsPerBlock sn₀.word i) D sn l) :
    Outcome (freeIndirect fs.toBlockStore (12 + g.refsPerBlock) e rounds i sn)
      (fun r s' => ∃ i' sn', r = some (i', sn') ∧
        i' = max i (min (12 + g.refsPerBlock + g.epb2) sn₀.nblocks) ∧
        ∃ (D' : Image g) (l' : List Nat), At fs 0 D' s' ∧
          Freeing (fs.sizes 0) D₀ sn₀ l₀ i' (doublePending g.refsPerBlock sn₀.word i') D' sn' l')
      E s := by
  have h16 := g.sixteen_le
  have hepb : g.epb2 = g.refsPerBlock * g.refsPerBlock := rfl
  induction rounds generalizing D sn s i l with
  | zero =>
    rw [freeIndirect, Outcome.pure_iff]
    have hend (hlt : i < sn₀.nblocks) : 12 + g.refsPerBlock + g.epb2 ≤ i :=
      le_offset (by omega) hlo (hrounds hlt)
    exact ⟨i, sn, rfl, by omega, D, l, h, hf⟩
  | succ rounds ih =>
    rw [freeIndirect, hf.nblocks]
    by_cases hin : i < 12 + g.refsPerBlock + g.epb2 ∧ i < sn₀.nblocks
    · rw [if_pos hin, g.entriesPerBlock_eq]
      obtain ⟨hsplit, hmod⟩ := offset_split (show 0 < g.refsPerBlock by omega) hlo
      rw [hbound hin.2, Nat.add_zero] at hsplit
      generalize hj : (i - (12 + g.refsPerBlock)) / g.refsPerBlock = j at *
      have hjE : j < g.refsPerBlock := by
        rw [← hj]
        exact Nat.div_lt_of_lt_mul (by omega)
      have hlimit : 12 + g.refsPerBlock + (j + 1) * g.refsPerBlock = i + g.refsPerBlock := by
        rw [Nat.add_mul, Nat.one_mul]
        omega
      have hlevel : e.ref j = secondLevel sn₀.word (pointers D₀) j := congrFun he j
      have hat := secondLevel_mem_indirectAt (show 0 < g.refsPerBlock by omega) sn₀.word
        (pointers D₀) j
      rw [hsplit] at hat
      dsimp only
      rw [Outcome.bind_iff, hlevel]
      apply hf.outcome_read h hw (Nat.le_refl _) hin.2 hat
      intro e₂ s₁ h₁ he₂
      dsimp only
      rw [Outcome.bind_iff]
      have hentry : ∀ k, i ≤ k → k < 12 + g.refsPerBlock + (j + 1) * g.refsPerBlock →
          k < sn₀.nblocks → e₂.ref (k - (12 + g.refsPerBlock) - j * g.refsPerBlock) =
            blockAt g.refsPerBlock sn₀.word (pointers D₀) k := by
        intro k hik hlt _
        rw [he₂, blockAt_level (j := j) _ _ (by omega) (by omega)]
        congr 1
        omega
      have hnone : ∀ k, i < k → k < 12 + g.refsPerBlock + (j + 1) * g.refsPerBlock →
          indirectAt g.refsPerBlock sn₀.word (pointers D₀) k = [] := by
        intro k hik hlt
        have hwithin := indirectAt_within (j := j) (show k - i < g.refsPerBlock by omega)
          (by omega) sn₀.word (pointers D₀)
        rw [hsplit, Nat.add_sub_cancel' (by omega)] at hwithin
        exact hwithin
      apply (outcome_freeChunk hentry hnone hw g.refsPerBlock h₁ (Nat.le_refl _) (by omega)
        (by rw [if_neg (Nat.lt_irrefl _), List.append_nil]; exact hf)).post
      rintro ⟨i', sn₁⟩ s₂ ⟨hi', D₁, l₁, h₂, hf₁⟩
      dsimp only at hi' hf₁ ⊢
      have hpend := doublePending_append (show 0 < g.refsPerBlock by omega) sn₀.word (pointers D₀)
        (j := j)
      rw [hsplit] at hpend
      rw [if_pos (by omega), hpend] at hf₁
      have hdouble : doublePending g.refsPerBlock sn₀.word i' = [sn₀.word 14] :=
        if_pos (by omega)
      have hperm : (secondLevel sn₀.word (pointers D₀) j :: l₁ ++
          doublePending g.refsPerBlock sn₀.word i').Perm
          (l₀ ++ fileBlocks g.refsPerBlock sn₀.word (pointers D₀) i') := by
        rw [hdouble, List.perm_iff_count]
        intro c
        have hcount := hf₁.perm.count_eq c
        simp only [List.count_append, List.count_cons, List.count_nil] at hcount ⊢
        omega
      rw [Outcome.bind_iff]
      apply (hf₁.outcome_push h₂ hw (by omega) hperm).post
      rintro r s₃ ⟨D₂, h₃, hf₂⟩
      have hnext : i' < sn₀.nblocks → i' - (12 + g.refsPerBlock) = (j + 1) * g.refsPerBlock :=
        fun hlt => by omega
      have hmul : (j + 1) * g.refsPerBlock ≤ g.refsPerBlock * g.refsPerBlock :=
        Nat.mul_le_mul_right _ hjE
      apply (ih h₃ (by omega) (fun hlt => ?_) (fun hlt => ?_) hf₂).post
      · rintro r s₄ ⟨i'', sn₃, rfl, hi'', hrest⟩
        exact ⟨i'', sn₃, rfl, by omega, hrest⟩
      · rw [hnext hlt, Nat.mul_mod_left]
      · have hr := hrounds hin.2
        rw [hnext hlt, Nat.mul_div_cancel _ (by omega)]
        omega
    · rw [if_neg hin, Outcome.pure_iff]
      exact ⟨i, sn, rfl, by omega, D, l, h, hf⟩

theorem outcome_freeDouble (h : At fs 0 D s) (hi : i = min (12 + g.refsPerBlock) sn₀.nblocks)
    (hf : Freeing (fs.sizes 0) D₀ sn₀ l₀ i [] D sn l) (hw : Whole (fs.sizes 0) D₀ sn₀ l₀) :
    Outcome (freeDouble fs.toBlockStore i sn)
      (fun r s' => ∃ sn', r = some (min (12 + g.refsPerBlock + g.epb2) sn₀.nblocks, sn') ∧
        ∃ (D' : Image g) (l' : List Nat), At fs 0 D' s' ∧
          Freeing (fs.sizes 0) D₀ sn₀ l₀ (min (12 + g.refsPerBlock + g.epb2) sn₀.nblocks) []
            D' sn' l') E s := by
  have h16 := g.sixteen_le
  rw [freeDouble, hf.nblocks, g.entriesPerBlock_eq]
  by_cases hin : i < g.epb2 + g.refsPerBlock + 12 ∧ i < sn₀.nblocks
  · rw [if_pos hin, Outcome.bind_iff]
    obtain rfl : i = 12 + g.refsPerBlock := by omega
    have hat := indirectAt_double (show 0 < g.refsPerBlock by omega) sn₀.word (pointers D₀)
    have hdouble : sn.doubleIndirect = sn₀.word 14 := by
      rw [hf.snapshot]
      rfl
    rw [hdouble]
    apply hf.outcome_read h hw (Nat.le_refl _) hin.2 (by rw [hat]; exact List.mem_cons_self)
    intro e s₁ h₁ he
    dsimp only
    rw [Outcome.bind_iff]
    apply (outcome_freeIndirect g.refsPerBlock he hw h₁ (Nat.le_refl _)
      (fun _ => by rw [Nat.sub_self, Nat.zero_mod]) (fun _ => Nat.le_add_left _ _)
      (by rw [doublePending, if_neg (Nat.lt_irrefl _)]; exact hf)).post
    rintro r s₂ ⟨i', sn₁, rfl, hi', D₁, l₁, h₂, hf₁⟩
    dsimp only
    have hdouble₁ : sn₁.doubleIndirect = sn₀.word 14 := by
      rw [hf₁.snapshot]
      rfl
    rw [doublePending, if_pos (by omega)] at hf₁
    have hperm : (sn₀.word 14 :: l₁ ++ []).Perm
        (l₀ ++ fileBlocks g.refsPerBlock sn₀.word (pointers D₀) i') := by
      rw [List.append_nil]
      exact (List.perm_append_singleton _ _).symm.trans hf₁.perm
    rw [Outcome.bind_iff, hdouble₁]
    apply (hf₁.outcome_push h₂ hw (by omega) hperm).post
    rintro r s₃ ⟨D₂, h₃, hf₂⟩
    rw [Outcome.pure_iff,
      show min (12 + g.refsPerBlock + g.epb2) sn₀.nblocks = i' by omega]
    exact ⟨_, rfl, D₂, _, h₃, hf₂⟩
  · rw [if_neg hin, Outcome.pure_iff,
      show min (12 + g.refsPerBlock + g.epb2) sn₀.nblocks = i by omega]
    exact ⟨sn, rfl, D, l, h, hf⟩

/-- What `unixdisk_free_file` leaves: an empty file, and its blocks on the free list. -/
structure Freed (n : Nat) (D₀ : Image g) (sn₀ : Snapshot g) (l₀ : List Nat) (D : Image g)
    (l : List Nat) : Prop where
  stocked : ∃ sn, Stocked n D sn l
  perm : l.Perm (l₀ ++ fileBlocks g.refsPerBlock sn₀.word (pointers D₀) sn₀.nblocks)
  frame : Frame D₀ D (sn₀.inodeBlockno ::ₘ (l.map (dataBlock D₀.nInodeblocks) : List Nat))
  inodeblock : D sn₀.inodeBlockno = (sn₀.setWord 0 0).inodeblock

theorem outcome_freeFile (h : At fs 0 D s) (hs : Stocked (fs.sizes 0) D sn l)
    (hw : Whole (fs.sizes 0) D sn l) (hsize : sn.nblocks ≤ 12 + g.refsPerBlock + g.epb2)
    (hpos : 1 ≤ sn.inodeBlockno) (hle : sn.inodeBlockno ≤ D.nInodeblocks) :
    Outcome (freeFile fs.toBlockStore sn)
      (fun _ s' => ∃ (D' : Image g) (l' : List Nat), At fs 0 D' s' ∧
        Freed (fs.sizes 0) D sn l D' l') E s := by
  have h16 := g.sixteen_le
  have hstart : Freeing (fs.sizes 0) D sn l 0 [] D sn l := by
    refine ⟨hs, ?_, .refl _ _, by rw [← hs.superblock]⟩
    rw [fileBlocks, List.append_nil]
  have hnone : indirectAt g.refsPerBlock sn.word (pointers D) 0 = [] :=
    indirectAt_of_lt (by omega) (by omega) _ _
  have hentry : ∀ i, 0 ≤ i → i < 12 → i < sn.nblocks →
      sn.inodeblock.ref (sn.place (1 + i)) = blockAt g.refsPerBlock sn.word (pointers D) i := by
    intro i _ hlt _
    exact (blockAt_direct g.refsPerBlock sn.word (pointers D) hlt).symm
  rw [freeFile, Outcome.bind_iff]
  apply (outcome_freeChunk (p := []) hentry
    (fun i _ hlt => indirectAt_of_lt (by omega) (by omega) _ _) hw 12 h (Nat.le_refl _)
    (Nat.le_refl _) hstart).post
  rintro ⟨i₁, sn₁⟩ s₁ ⟨hi₁, D₁, l₁, h₁, hf₁⟩
  rw [hnone, ite_self, List.nil_append] at hf₁
  dsimp only at hi₁ hf₁ ⊢
  rw [Outcome.bind_iff]
  apply (outcome_freeSingle h₁ (by omega) hf₁ hw).post
  rintro r s₂ ⟨sn₂, rfl, D₂, l₂, h₂, hf₂⟩
  dsimp only
  rw [Outcome.bind_iff]
  apply (outcome_freeDouble h₂ rfl hf₂ hw).post
  rintro r s₃ ⟨sn₃, rfl, D₃, l₃, h₃, hf₃⟩
  rw [Nat.min_eq_right hsize] at hf₃ ⊢
  dsimp only
  have hskip : freeTriple fs.toBlockStore sn.nblocks sn₃ = pure (some (sn.nblocks, sn₃)) := by
    rw [freeTriple, hf₃.nblocks]
    exact if_neg fun hlt => Nat.lt_irrefl _ hlt.2
  rw [hskip, pure_bind]
  dsimp only
  rw [hf₃.nblocks, if_neg fun hne => hne rfl]
  have hle₃ : sn.inodeBlockno ≤ D₃.nInodeblocks := by
    rw [hf₃.nInodeblocks]
    exact hle
  have hinodes := hf₃.stocked.inodes_lt
  have hsn₃ : (sn₃.setWord 0 0).inodeblock = (sn.setWord 0 0).inodeblock := by
    rw [hf₃.snapshot]
    rfl
  have hno : (sn₃.setWord 0 0).inodeBlockno = sn.inodeBlockno := by
    rw [hf₃.snapshot]
    rfl
  rw [hno, hsn₃, Outcome.bind_iff]
  apply h₃.outcome_write (by omega)
  intro s₄ h₄
  rw [Outcome.pure_iff]
  refine ⟨_, l₃, h₄, ⟨sn₃, ?_⟩, ?_, ?_, Function.update_self _ _ _⟩
  · exact hf₃.stocked.update (by omega) (fun b _ => dataBlock_ne_inodeblock hle₃ b) _
  · rw [← List.append_nil l₃]
    exact hf₃.perm
  · refine (hf₃.frame.mono fun x hx => Multiset.mem_cons_of_mem hx).trans ?_
    exact .update (by omega) (Multiset.mem_cons_self _ _) _

end

end Egos.Disk.Unixdisk
