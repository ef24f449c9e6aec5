import Egos.Disk.Unixdisk.FreeStack
import Egos.Disk.Ramdisk

/-!
# Creating a file system

`unixdisk_create` lays out the free list over all data blocks: the first list block takes
the remainder of a division by `ENTRIES_PER_FREE_BLOCK + 1` and the other ones are full.
When nothing remains, the number of entries of the first block is an unsigned -1, and the
loop over them runs past the end of the array.
-/
namespace Egos.Disk.Unixdisk

open Egos.Lib
open Treedisk (At Frame)

set_option autoImplicit false

variable {g : Geometry} {σ : Type} {D : Image g} {fs : FixedStore (Block g) σ} {belowIno : Nat}
  {s : σ} {E : Stop → σ → Prop}

/-- The inode blocks for so many inodes. -/
def inodeBlocks (g : Geometry) (ninodes : Nat) : Nat :=
  (ninodes + g.inodesPerBlock - 1) / g.inodesPerBlock

theorem entry_setEntry (b : Block g) {j : Nat} (hj : j < g.entriesPerFreeBlock) (a t : Nat) :
    Freeblock.entry (Freeblock.setEntry b j a) t = if t = j then a else Freeblock.entry b t := by
  have hfb := g.entriesPerFreeBlock_add
  unfold Freeblock.entry Freeblock.setEntry
  rw [Treedisk.Block.ref_setRef (by omega)]
  by_cases ht : t = j
  · rw [if_pos (by omega), if_pos ht]
  · rw [if_neg (by omega), if_neg ht]

@[simp] theorem entry_setNext (b : Block g) (a t : Nat) :
    Freeblock.entry (Freeblock.setNext b a) t = Freeblock.entry b t := by
  have h16 := g.sixteen_le
  unfold Freeblock.entry Freeblock.setNext
  rw [Treedisk.Block.ref_setRef (by omega), if_neg (by omega)]

@[simp] theorem entry_setNblocks (b : Block g) (a t : Nat) :
    Freeblock.entry (Freeblock.setNblocks b a) t = Freeblock.entry b t := by
  have h16 := g.sixteen_le
  unfold Freeblock.entry Freeblock.setNblocks
  rw [Treedisk.Block.ref_setRef (by omega), if_neg (by omega)]

@[simp] theorem next_setNext (b : Block g) (a : Nat) :
    Freeblock.next (Freeblock.setNext b a) = a := by
  have h16 := g.sixteen_le
  unfold Freeblock.next Freeblock.setNext
  rw [Treedisk.Block.ref_setRef (by omega), if_pos rfl]

@[simp] theorem next_setNblocks (b : Block g) (a : Nat) :
    Freeblock.next (Freeblock.setNblocks b a) = Freeblock.next b := by
  have h16 := g.sixteen_le
  unfold Freeblock.next Freeblock.setNblocks
  rw [Treedisk.Block.ref_setRef (by omega), if_neg (by omega)]

theorem headEntries_spec {bound : Nat} (hb : bound ≤ g.entriesPerFreeBlock) (left j : Nat)
    (hj : j + left = g.entriesPerFreeBlock) (b : Block g) :
    ∃ b', headEntries bound left j b = some b' ∧
      ∀ t, Freeblock.entry b' t = if j ≤ t ∧ t < bound then t + 1 else Freeblock.entry b t := by
  induction left generalizing j b with
  | zero =>
    refine ⟨b, if_neg (by omega), fun t => ?_⟩
    rw [if_neg (by omega)]
  | succ left ih =>
    rw [headEntries]
    split
    · rename_i hlt
      obtain ⟨b', he, hb'⟩ := ih (j + 1) (by omega) (Freeblock.setEntry b j (j + 1))
      refine ⟨b', he, fun t => ?_⟩
      rw [hb' t, entry_setEntry b (by omega)]
      by_cases ht : t = j
      · rw [if_neg (by omega), if_pos ht, if_pos (by omega), ht]
      · rw [if_neg ht]
        by_cases hin : j + 1 ≤ t ∧ t < bound
        · rw [if_pos hin, if_pos (by omega)]
        · rw [if_neg hin, if_neg (by omega)]
    · refine ⟨b, rfl, fun t => ?_⟩
      rw [if_neg (by omega)]

/-- With too many entries the loop leaves the array. -/
theorem headEntries_none {bound : Nat} (hb : g.entriesPerFreeBlock < bound) (left j : Nat)
    (hj : j + left = g.entriesPerFreeBlock) (b : Block g) : headEntries bound left j b = none := by
  induction left generalizing j b with
  | zero => exact if_pos (by omega)
  | succ left ih =>
    rw [headEntries, if_pos (by omega)]
    exact ih (j + 1) (by omega) _

theorem entry_fullEntries (first left j : Nat) (hj : j + left ≤ g.entriesPerFreeBlock)
    (b : Block g) (t : Nat) :
    Freeblock.entry (fullEntries first left j b) t =
      if j ≤ t ∧ t < j + left then first + t else Freeblock.entry b t := by
  induction left generalizing j b with
  | zero =>
    rw [if_neg (by omega)]
    rfl
  | succ left ih =>
    rw [fullEntries, ih (j + 1) (by omega), entry_setEntry b (by omega)]
    by_cases ht : t = j
    · rw [if_neg (by omega), if_pos ht, if_pos (by omega), ht]
    · rw [if_neg ht]
      by_cases hin : j + 1 ≤ t ∧ t < j + 1 + left
      · rw [if_pos hin, if_pos (by omega)]
      · rw [if_neg hin, if_neg (by omega)]

/-- Entries that count up from `first`. -/
theorem entriesDown_perm {b : Block g} {first k : Nat}
    (he : ∀ t, t < k → Freeblock.entry b t = first + t) :
    (entriesDown b k).Perm (List.range' first k) := by
  induction k with
  | zero => exact .refl _
  | succ k ih =>
    rw [entriesDown, he k (by omega), List.range'_concat, Nat.one_mul]
    have hrest := ih fun t ht => he t (by omega)
    exact (hrest.cons _).trans (List.perm_append_singleton _ _).symm

theorem outcome_clearInodes (left : Nat) {i : Nat} (h : At fs belowIno D s)
    (hi : i + left ≤ fs.sizes belowIno) :
    Outcome (clearInodes fs.toBlockStore belowIno left i)
      (fun r s' => r = 0 ∧ At fs belowIno
        (fun x => if i ≤ x ∧ x < i + left then Treedisk.Block.zero else D x) s') E s := by
  induction left generalizing D s i with
  | zero =>
    refine ⟨rfl, ?_⟩
    have he : (fun x => if i ≤ x ∧ x < i + 0 then Treedisk.Block.zero else D x) = D := by
      funext x
      rw [if_neg (by omega)]
    rw [he]
    exact h
  | succ left ih =>
    rw [clearInodes, Outcome.bind_iff]
    apply h.outcome_write (by omega)
    intro s₁ h₁
    rw [if_neg (by decide)]
    apply (ih h₁ (by omega)).post
    rintro r s' ⟨rfl, h'⟩
    refine ⟨rfl, ?_⟩
    have he : (fun x => if i ≤ x ∧ x < i + (left + 1) then Treedisk.Block.zero else D x) =
        fun x => if i + 1 ≤ x ∧ x < i + 1 + left then Treedisk.Block.zero
          else Function.update D i Treedisk.Block.zero x := by
      funext x
      by_cases hx : x = i
      · rw [if_pos (by omega), if_neg (by omega), hx, Function.update_self]
      · rw [Function.update_of_ne hx]
        by_cases hin : i + 1 ≤ x ∧ x < i + 1 + left
        · rw [if_pos hin, if_pos (by omega)]
        · rw [if_neg hin, if_neg (by omega)]
    rw [he]
    exact h'

/-- The head of the `i`-th full list block. -/
def fullHead (g : Geometry) (remainder i : Nat) : Nat :=
  i * (g.entriesPerFreeBlock + 1) + remainder

/-- A list block that is full of the blocks after it. -/
structure FullBlock (D : Image g) (nib remainder count i : Nat) : Prop where
  entries : ∀ t, t < g.entriesPerFreeBlock →
    Freeblock.entry (D (dataBlock nib (fullHead g remainder i))) t = fullHead g remainder i + 1 + t
  next : Freeblock.next (D (dataBlock nib (fullHead g remainder i))) =
    if i = count - 1 then noBlock else fullHead g remainder (i + 1)

theorem FullBlock.perm {nib remainder count i : Nat} (h : FullBlock D nib remainder count i) :
    (entriesDown (D (dataBlock nib (fullHead g remainder i))) g.entriesPerFreeBlock ++
      [fullHead g remainder i]).Perm
      (List.range' (fullHead g remainder i) (g.entriesPerFreeBlock + 1)) := by
  rw [List.range'_succ]
  exact (List.perm_append_singleton _ _).trans ((entriesDown_perm h.entries).cons _)

theorem fullHead_lt (g : Geometry) (remainder : Nat) {i j : Nat} (h : i < j) :
    fullHead g remainder i + g.entriesPerFreeBlock < fullHead g remainder j := by
  have hmul : (i + 1) * (g.entriesPerFreeBlock + 1) ≤ j * (g.entriesPerFreeBlock + 1) :=
    Nat.mul_le_mul_right _ h
  rw [Nat.add_mul, Nat.one_mul] at hmul
  unfold fullHead
  omega

theorem outcome_fullBlocks {nib remainder count : Nat} (left : Nat) {i : Nat} (b : Block g)
    (hi : i + left = count) (h : At fs belowIno D s)
    (hn : dataBlock nib (fullHead g remainder count) ≤ fs.sizes belowIno) :
    Outcome (fullBlocks fs.toBlockStore belowIno nib remainder count left i b)
      (fun r s' => r = true ∧ ∃ D', At fs belowIno D' s' ∧
        (∀ j, i ≤ j → j < count → FullBlock D' nib remainder count j) ∧
        ∀ x, (∀ j, i ≤ j → j < count → x ≠ dataBlock nib (fullHead g remainder j)) →
          D' x = D x) E s := by
  induction left generalizing D s i b with
  | zero => exact ⟨rfl, D, h, fun j _ _ => by omega, fun _ _ => rfl⟩
  | succ left ih =>
    rw [fullBlocks, Outcome.bind_iff]
    have hlt := fullHead_lt g remainder (show i < count by omega)
    have hwhere : i * (g.entriesPerFreeBlock + 1) + remainder + 1 + nib =
        dataBlock nib (fullHead g remainder i) := by
      unfold dataBlock fullHead
      omega
    rw [hwhere]
    apply h.outcome_write (by unfold dataBlock at hn ⊢; omega)
    intro s₁ h₁
    rw [if_neg (by decide)]
    apply (ih _ (by omega) h₁).post
    rintro r s' ⟨rfl, D', h', hfull, hrest⟩
    refine ⟨rfl, D', h', fun j hj hc => ?_, fun x hx => ?_⟩
    · by_cases hji : j = i
      · subst hji
        have hself := hrest (dataBlock nib (fullHead g remainder j)) (by
          intro j' hj' _ he
          rw [dataBlock_inj] at he
          have hlt' := fullHead_lt g remainder (show j < j' by omega)
          omega)
        rw [Function.update_self] at hself
        constructor
        · intro t ht
          rw [hself, entry_setNblocks, entry_setNext,
            entry_fullEntries _ _ _ (by omega), if_pos (by omega)]
          rfl
        · rw [hself, next_setNblocks, next_setNext]
          rfl
      · exact hfull j (by omega) hc
    · rw [hrest x fun j hj hc => hx j (by omega) hc]
      exact Function.update_of_ne (hx i (Nat.le_refl i) (by omega)) _ _

/-- The full blocks from the `i`-th one on are a stack of everything from there on. -/
theorem fullBlocks_stack {nib remainder count : Nat}
    (hfull : ∀ j, j < count → FullBlock D nib remainder count j)
    (hlt : fullHead g remainder count < noBlock) (left : Nat) {i : Nat}
    (hi : i + (left + 1) = count) :
    ∃ l, FreeStack D nib (fullHead g remainder i) g.entriesPerFreeBlock l ∧
      l.Perm (List.range' (fullHead g remainder i) ((left + 1) * (g.entriesPerFreeBlock + 1))) := by
  induction left generalizing i with
  | zero =>
    have hblock := hfull i (by omega)
    have hhead := fullHead_lt g remainder (show i < count by omega)
    have htail : FreeStack D nib (Freeblock.next (D (dataBlock nib (fullHead g remainder i))))
        g.entriesPerFreeBlock [] := by
      rw [hblock.next, if_pos (by omega)]
      exact .empty
    refine ⟨_, .head rfl (by omega) (Nat.le_refl _) htail, ?_⟩
    rw [Nat.zero_add, Nat.one_mul]
    exact hblock.perm
  | succ left ih =>
    have hblock := hfull i (by omega)
    have hhead := fullHead_lt g remainder (show i < count by omega)
    obtain ⟨l, hl, hlperm⟩ := ih (i := i + 1) (by omega)
    have htail : FreeStack D nib (Freeblock.next (D (dataBlock nib (fullHead g remainder i))))
        g.entriesPerFreeBlock l := by
      rw [hblock.next, if_neg (by omega)]
      exact hl
    refine ⟨_, .head rfl (by omega) (Nat.le_refl _) htail, ?_⟩
    have hnext : fullHead g remainder (i + 1) =
        fullHead g remainder i + (g.entriesPerFreeBlock + 1) := by
      unfold fullHead
      rw [Nat.add_mul, Nat.one_mul]
      omega
    rw [hnext] at hlperm
    have hcount : (left + 1 + 1) * (g.entriesPerFreeBlock + 1) =
        (g.entriesPerFreeBlock + 1) + (left + 1) * (g.entriesPerFreeBlock + 1) := by
      rw [Nat.add_mul (left + 1), Nat.one_mul, Nat.add_comm]
    rw [hcount, ← List.range'_append_1, List.append_cons]
    exact hblock.perm.append hlperm

/-- A created file system: the free list has every data block. -/
structure Created (n nib : Nat) (D : Image g) : Prop where
  inodeblocks : D.nInodeblocks = nib
  cleared : ∀ x, 1 ≤ x → x ≤ nib → D x = Treedisk.Block.zero
  stack : ∃ l, FreeStack D nib D.freeList D.freeOffset l ∧ l.Perm (List.range (n - 1 - nib))

theorem superblockOf_refs (b : Block g) (nib h k : Nat) :
    (superblockOf b nib h k).ref 0 = nib ∧ (superblockOf b nib h k).ref 1 = h ∧
      (superblockOf b nib h k).ref 2 = k := by
  have h16 := g.sixteen_le
  have hset : ∀ j, (superblockOf b nib h k).ref j =
      if j = 2 then k else if j = 1 then h else if j = 0 then nib else b.ref j := by
    intro j
    unfold superblockOf
    rw [Treedisk.Block.ref_setRef (by omega), Treedisk.Block.ref_setRef (by omega),
      Treedisk.Block.ref_setRef (by omega)]
  exact ⟨hset 0, hset 1, hset 2⟩

/-- The head, its entries and the full blocks are a stack of all data blocks. -/
theorem head_stack {nib remainder count N : Nat} (hrem : remainder ≠ 0)
    (hle : remainder ≤ g.entriesPerFreeBlock)
    (hdiv : count * (g.entriesPerFreeBlock + 1) + remainder = N) (hN : N < noBlock)
    (hentries : ∀ t, t < remainder - 1 → Freeblock.entry (D (dataBlock nib 0)) t = 1 + t)
    (hnext : Freeblock.next (D (dataBlock nib 0)) = if remainder < N then remainder else noBlock)
    (hfull : ∀ j, j < count → FullBlock D nib remainder count j) :
    ∃ l, FreeStack D nib 0 (remainder - 1) l ∧ l.Perm (List.range N) := by
  have htail : ∃ l, FreeStack D nib (Freeblock.next (D (dataBlock nib 0)))
      g.entriesPerFreeBlock l ∧ l.Perm (List.range' remainder (N - remainder)) := by
    rw [hnext]
    by_cases hlt : remainder < N
    · have hpos : 0 < count := by
        rcases Nat.eq_zero_or_pos count with rfl | hc
        · omega
        · exact hc
      have hend : fullHead g remainder count = N := hdiv
      obtain ⟨l, hl, hperm⟩ := fullBlocks_stack hfull (hend ▸ hN) (count - 1) (i := 0) (by omega)
      have hzero : fullHead g remainder 0 = remainder := by
        unfold fullHead
        omega
      rw [hzero, Nat.sub_add_cancel hpos] at hperm
      rw [hzero] at hl
      rw [if_pos hlt, show N - remainder = count * (g.entriesPerFreeBlock + 1) by omega]
      exact ⟨l, hl, hperm⟩
    · rw [if_neg hlt, show N - remainder = 0 by omega]
      exact ⟨[], .empty, .refl _⟩
  obtain ⟨l, hl, hperm⟩ := htail
  refine ⟨_, .head rfl (by unfold noBlock; omega) (by omega) hl, ?_⟩
  have hhead : (entriesDown (D (dataBlock nib 0)) (remainder - 1) ++ [0]).Perm
      (List.range' 0 remainder) := by
    obtain ⟨last, rfl⟩ := Nat.exists_eq_succ_of_ne_zero hrem
    rw [List.range'_succ]
    exact (List.perm_append_singleton _ _).trans ((entriesDown_perm hentries).cons _)
  rw [List.append_cons, show N = remainder + (N - remainder) by omega, List.range_eq_range',
    ← List.range'_append_1, Nat.zero_add]
  exact hhead.append hperm

/-- With a remainder all data blocks get on the list. -/
theorem outcome_createFreeList (h : At fs belowIno D s) {nib N : Nat} (freeblock : Block g)
    (hN : 1 + nib + N = fs.sizes belowIno) (hrem : N % (g.entriesPerFreeBlock + 1) ≠ 0)
    (hclear : ∀ x, 1 ≤ x → x ≤ nib → D x = Treedisk.Block.zero) :
    Outcome (createFreeList fs.toBlockStore belowIno nib N freeblock (D 0))
      (fun r s' => r = 0 ∧ ∃ D', At fs belowIno D' s' ∧ Created (fs.sizes belowIno) nib D') E s := by
  have hn := fs.sizes_lt belowIno
  have hfb := g.entriesPerFreeBlock_add
  have hrefs := g.refs_le
  have hmod := Nat.mod_lt N (show 0 < g.entriesPerFreeBlock + 1 by omega)
  have hdiv := Nat.div_add_mod N (g.entriesPerFreeBlock + 1)
  rw [Nat.mul_comm] at hdiv
  unfold createFreeList
  generalize N % (g.entriesPerFreeBlock + 1) = remainder at *
  generalize N / (g.entriesPerFreeBlock + 1) = count at *
  have hlast : (remainder + (2 ^ 32 - 1)) % 2 ^ 32 = remainder - 1 := by omega
  dsimp only
  rw [hlast]
  obtain ⟨b, hb, hentries⟩ := headEntries_spec (g := g) (show remainder - 1 ≤ _ by omega)
    g.entriesPerFreeBlock 0 (by omega) freeblock
  rw [hb]
  dsimp only
  rw [Outcome.bind_iff, show nib + 1 = dataBlock nib 0 by unfold dataBlock; omega]
  apply h.outcome_write (by unfold dataBlock; omega)
  intro s₁ h₁
  rw [if_neg (by decide), Outcome.bind_iff]
  have hend : fullHead g remainder count = N := hdiv
  apply (outcome_fullBlocks count _ (by omega) h₁ (by rw [hend]; unfold dataBlock; omega)).post
  rintro r s₂ ⟨rfl, D₂, h₂, hfull, hrest⟩
  rw [if_neg (by decide), Outcome.bind_iff]
  apply h₂.outcome_write (by omega)
  intro s₃ h₃
  rw [if_neg (by decide), Outcome.pure_iff]
  refine ⟨rfl, _, h₃, ?_⟩
  obtain ⟨hsb0, hsb1, hsb2⟩ := superblockOf_refs (D 0) nib 0 (remainder - 1)
  have h0 : Function.update D₂ 0 (superblockOf (D 0) nib 0 (remainder - 1)) 0 = _ :=
    Function.update_self _ _ _
  have hsame : ∀ x, x ≠ 0 →
      Function.update D₂ 0 (superblockOf (D 0) nib 0 (remainder - 1)) x = D₂ x :=
    fun x hx => Function.update_of_ne hx _ _
  have hblock : D₂ (dataBlock nib 0) = _ := (hrest _ fun j _ _ he => by
    rw [dataBlock_inj] at he
    unfold fullHead at he
    omega).trans (Function.update_self _ _ _)
  constructor
  · unfold Image.nInodeblocks
    rw [h0, hsb0]
  · intro x h1 hx
    rw [hsame x (by omega), hrest x fun j _ _ he => by unfold dataBlock at he; omega,
      Function.update_of_ne (by unfold dataBlock; omega)]
    exact hclear x h1 hx
  · unfold Image.freeList Image.freeOffset
    rw [h0, hsb1, hsb2, show fs.sizes belowIno - 1 - nib = N by omega]
    obtain ⟨l, hl, hperm⟩ := head_stack hrem (by omega) hdiv
      (by unfold noBlock; omega) (fun t ht => by
        rw [hblock, entry_setNblocks, entry_setNext, hentries t, if_pos (by omega)]
        omega) (by rw [hblock, next_setNblocks, next_setNext])
      (fun j hj => hfull j (by omega) hj)
    exact ⟨l, hl.congr fun b _ => hsame _ (dataBlock_ne_zero nib b), hperm⟩

theorem outcome_create_blank (h : At fs belowIno D s) (hz : (D 0).ref 0 = 0) {ninodes : Nat}
    (freeblock : Block g) (hroom : inodeBlocks g ninodes < fs.sizes belowIno) {Q : Int → σ → Prop}
    (hq : ∀ D' s', At fs belowIno D' s' → D' 0 = D 0 →
      (∀ x, 1 ≤ x → x ≤ inodeBlocks g ninodes → D' x = Treedisk.Block.zero) →
      Outcome (createFreeList fs.toBlockStore belowIno (inodeBlocks g ninodes)
        (fs.sizes belowIno - 1 - inodeBlocks g ninodes) freeblock (D' 0)) Q E s') :
    Outcome (create fs.toBlockStore belowIno freeblock ninodes) Q E s := by
  have hn := fs.sizes_lt belowIno
  rw [create, Outcome.bind_iff]
  apply h.outcome_read (by omega)
  intro s₁ h₁
  dsimp only
  change Outcome (if (D 0).ref 0 ≠ 0 then if inodeBlocks g ninodes ≤ (D 0).ref 0 then _ else _
    else do
      let r ← clearInodes fs.toBlockStore belowIno (inodeBlocks g ninodes) 1
      if r < 0 then pure (-1)
      else do
        let r ← fs.getsize belowIno
        createFreeList fs.toBlockStore belowIno (inodeBlocks g ninodes)
          ((toUnsigned r + 2 ^ 33 - inodeBlocks g ninodes - 1) % 2 ^ 32) freeblock (D 0)) _ _ _
  rw [if_neg (by omega), Outcome.bind_iff]
  generalize inodeBlocks g ninodes = nib at *
  apply (outcome_clearInodes nib h₁ (by omega)).post
  rintro r s₂ ⟨rfl, h₂⟩
  rw [if_neg (by decide), Outcome.bind_iff]
  apply FixedStore.outcome_getsize h₂.good (by omega)
  intro s₃ hgood hview
  rw [toUnsigned_toInt hn, show (fs.sizes belowIno + 2 ^ 33 - nib - 1) % 2 ^ 32 =
    fs.sizes belowIno - 1 - nib by omega]
  have hq₃ := hq _ s₃ ⟨hgood, by rw [hview, h₂.view]⟩ (if_neg (by omega)) fun x h1 hx =>
    if_pos (by omega)
  rw [if_neg (show ¬ (1 ≤ 0 ∧ 0 < 1 + nib) by omega)] at hq₃
  exact hq₃

theorem outcome_create (h : At fs belowIno D s) (hz : (D 0).ref 0 = 0) {ninodes : Nat}
    (freeblock : Block g) (hroom : inodeBlocks g ninodes < fs.sizes belowIno)
    (hrem : (fs.sizes belowIno - 1 - inodeBlocks g ninodes) % (g.entriesPerFreeBlock + 1) ≠ 0) :
    Outcome (create fs.toBlockStore belowIno freeblock ninodes)
      (fun r s' => r = 0 ∧ ∃ D', At fs belowIno D' s' ∧
        Created (fs.sizes belowIno) (inodeBlocks g ninodes) D') E s := by
  apply outcome_create_blank h hz freeblock hroom
  intro D₁ s₁ h₁ _ hclear
  exact outcome_createFreeList h₁ freeblock (by omega) hrem hclear

/-- Without a remainder the loop over the entries of the first block leaves the array. -/
theorem create_undefined (h : At fs belowIno D s) (hz : (D 0).ref 0 = 0) {ninodes : Nat}
    (freeblock : Block g) (hroom : inodeBlocks g ninodes < fs.sizes belowIno)
    (hrem : (fs.sizes belowIno - 1 - inodeBlocks g ninodes) % (g.entriesPerFreeBlock + 1) = 0) :
    Outcome (create fs.toBlockStore belowIno freeblock ninodes) (fun _ _ => False)
      (fun e _ => e = .undefined) s := by
  apply outcome_create_blank h hz freeblock hroom
  intro D₁ s₁ _ _ _
  have hfb := g.entriesPerFreeBlock_add
  have hrefs := g.refs_le
  unfold createFreeList
  rw [hrem]
  dsimp only
  rw [headEntries_none (by omega) _ _ (by omega)]
  exact rfl

/-- **Creation of a file system.** On a store without one and with room for a data block,
`unixdisk_create` returns with a free list that has every data block once if and only if
the number of data blocks is not a multiple of `ENTRIES_PER_FREE_BLOCK + 1`; otherwise it
writes entries past the end of their array. -/
theorem create_lists_all_iff (fs : FixedStore (Block g) σ) {belowIno : Nat} {s₀ : σ}
    (hg : fs.Good s₀) (hz : (fs.view s₀ belowIno 0).ref 0 = 0) {ninodes nDatablocks : Nat}
    (freeblock : Block g)
    (hsize : inodeBlocks g ninodes + 1 + nDatablocks = fs.sizes belowIno)
    (hroom : 0 < nDatablocks) :
    (∃ s, create fs.toBlockStore belowIno freeblock ninodes s₀ = .ok 0 s ∧
      Image.nInodeblocks (fs.view s belowIno) = inodeBlocks g ninodes ∧
      ∃ l, FreeStack (fs.view s belowIno) (inodeBlocks g ninodes)
          (Image.freeList (fs.view s belowIno)) (Image.freeOffset (fs.view s belowIno)) l ∧
        l.Perm (List.range nDatablocks)) ↔
      nDatablocks % (g.entriesPerFreeBlock + 1) ≠ 0 := by
  have h : At fs belowIno (fs.view s₀ belowIno) s₀ := ⟨hg, rfl⟩
  have hN : fs.sizes belowIno - 1 - inodeBlocks g ninodes = nDatablocks := by omega
  rw [← hN]
  constructor
  · rintro ⟨s, he, -⟩ hrem
    exact (create_undefined h hz freeblock (by omega) hrem).ok he
  · intro hrem
    obtain ⟨r, s, he, rfl, D', h', hcreated⟩ :=
      (outcome_create h hz freeblock (by omega) hrem).exists_ok
    refine ⟨s, he, ?_⟩
    rw [h'.view]
    exact ⟨hcreated.inodeblocks, hcreated.stack⟩

/-- A ramdisk of 40 blocks of 64 bytes; with 16 inodes, 23 data blocks. -/
def smallDisk : FixedStore (Block .small) (Ramdisk.State (Block .small)) :=
  Ramdisk.fixed (Block .small) 40 (by decide)

def smallBlank : Ramdisk.State (Block .small) := ⟨fun _ => Treedisk.Block.zero, 40⟩

theorem create_lists_all_small :
    (∃ s, create smallDisk.toBlockStore 0 Treedisk.Block.zero 16 smallBlank = .ok 0 s ∧
      Image.nInodeblocks (smallDisk.view s 0) = 16 ∧
      ∃ l, FreeStack (smallDisk.view s 0) 16
          (Image.freeList (smallDisk.view s 0)) (Image.freeOffset (smallDisk.view s 0)) l ∧
        l.Perm (List.range 23)) ↔
      23 % (Geometry.small.entriesPerFreeBlock + 1) ≠ 0 :=
  create_lists_all_iff smallDisk (show smallDisk.Good smallBlank from rfl) rfl
    Treedisk.Block.zero (show inodeBlocks .small 16 + 1 + 23 = smallDisk.sizes 0 by decide)
    (by decide)

/-- With 9 inodes there are 30 data blocks, twice `ENTRIES_PER_FREE_BLOCK + 1`. -/
theorem create_leaves_array :
    Geometry.small.entriesPerFreeBlock + 1 = 15 ∧ inodeBlocks .small 9 = 9 ∧
    stopped (create smallDisk.toBlockStore 0 Treedisk.Block.zero 9 smallBlank) =
      some .undefined := by
  decide +kernel

end Egos.Disk.Unixdisk
