import Egos.Disk.Treedisk.Check
import Egos.Disk.Treedisk.FreeList
import Egos.Lib.Marking

/-!
# What the check scans

`scanned` collects the references that `check_inode` follows, with its 32-bit offsets,
`listed` those of the free list that lie within the disk. Each traversal of the check
marks what it scans, or gives up because that cannot be marked.
-/
namespace Egos.Disk.Treedisk

open Egos.Lib

set_option autoImplicit false

variable {g : Geometry} {σ : Type} {D : Image g}

/-- The blocks that have a status. -/
def takenIn (binfo : BlockInfo) (b : Nat) : Prop := binfo b ≠ .unknown

theorem takenIn_update (binfo : BlockInfo) (b : Nat) {status : BlockStatus}
    (hs : status ≠ .unknown) :
    takenIn (Function.update binfo b status) = take (takenIn binfo) {b} := by
  funext x
  by_cases hx : x = b
  · simp [takenIn, take, hx, hs]
  · simp [takenIn, take, hx]

/-- The references that the loop of `check_inode` follows. -/
def scannedRefs (scan : Nat → Nat → Multiset Nat) (nblocks size : Nat) (ib : Block g) :
    Nat → Nat → Multiset Nat
  | 0, _ => 0
  | left + 1, offset => scan (ib.ref (g.refsPerBlock - (left + 1))) offset +
      if nblocks ≤ (offset + size) % 2 ^ 32 then 0
      else scannedRefs scan nblocks size ib left ((offset + size) % 2 ^ 32)

/-- The references that `check_inode` follows from a node. -/
def scanned (D : Image g) (nblocks : Nat) : Nat → Nat → Nat → Multiset Nat
  | 0, node, _ => single node
  | levels + 1, node, offset =>
    if node = 0 then 0
    else {node} + scannedRefs (scanned D nblocks levels) nblocks
      (1 <<< (levels * logRpb g) % 2 ^ 32) (D node) g.refsPerBlock offset

/-- The reference in a slot of a free-list block, if it lies within the disk. -/
def inDisk (n r : Nat) : Multiset Nat := if r < n then single r else 0

/-- The blocks of a chain and those within the disk in their slots. -/
def listed (n : Nat) (D : Image g) : List Nat → Multiset Nat
  | [] => 0
  | b :: rest => {b} + (∑ i ∈ Finset.Ico 1 g.refsPerBlock, inDisk n ((D b).ref i) + listed n D rest)

section

variable {fs : FixedStore (Block g) σ} {s : σ} {E : Stop → σ → Prop} {binfo : BlockInfo}

theorem outcome_getStatus {fsNblocks b : Nat} (hb : b < fsNblocks)
    {Q : BlockStatus → σ → Prop} (hq : Q (binfo b) s) :
    Outcome (getStatus fsNblocks binfo b) Q E s := by
  unfold getStatus
  rw [if_pos hb]
  exact hq

theorem outcome_setStatus {fsNblocks b : Nat} (hb : b < fsNblocks) (status : BlockStatus)
    {Q : BlockInfo → σ → Prop} (hq : Q (Function.update binfo b status) s) :
    Outcome (setStatus fsNblocks binfo b status) Q E s := by
  unfold setStatus
  rw [if_pos hb]
  exact hq

theorem At.outcome_readBlock (h : At fs 0 D s) {b : Nat} (hb : b < fs.sizes 0)
    {Q : Block g → σ → Prop} (hq : ∀ s', At fs 0 D s' → Q (D b) s') :
    Outcome (readBlock fs.toBlockStore b) Q E s := by
  unfold readBlock
  rw [Outcome.bind_iff]
  exact h.outcome_read hb hq

/-- The traversal marks `M` and leaves the disk as it is. -/
def MarksOn (fs : FixedStore (Block g) σ) (D : Image g) (binfo : BlockInfo) (M : Multiset Nat)
    (r : Option BlockInfo) (s : σ) : Prop :=
  Marks (· < fs.sizes 0) (takenIn binfo) M (r.map takenIn) ∧ At fs 0 D s

/-- The two tests that every traversal makes on a block before it takes it. -/
theorem outcome_test {b : Nat} {m : EStateM Stop σ (Option BlockInfo)}
    {Q : Option BlockInfo → σ → Prop}
    (hstop : ¬ Markable (· < fs.sizes 0) (takenIn binfo) {b} → Q none s)
    (hm : b < fs.sizes 0 → binfo b = .unknown → Outcome m Q E s) :
    Outcome (if fs.sizes 0 ≤ b then pure none else do
        if (← getStatus (fs.sizes 0) binfo b) ≠ .unknown then pure none else m) Q E s := by
  split
  · rename_i hb
    exact hstop fun hmk => absurd (markable_singleton.mp hmk).1 (by omega)
  · rename_i hb
    rw [Outcome.bind_iff]
    refine outcome_getStatus (by omega) ?_
    by_cases hs : binfo b = .unknown
    · rw [if_neg (not_not_intro hs)]
      exact hm (by omega) hs
    · rw [if_pos hs]
      exact hstop fun hmk => (markable_singleton.mp hmk).2 hs

theorem MarksOn.test {b : Nat} {M : Multiset Nat} {m : EStateM Stop σ (Option BlockInfo)}
    (h : At fs 0 D s)
    (hm : b < fs.sizes 0 → binfo b = .unknown → Outcome m (MarksOn fs D binfo ({b} + M)) E s) :
    Outcome (if fs.sizes 0 ≤ b then pure none else do
        if (← getStatus (fs.sizes 0) binfo b) ≠ .unknown then pure none else m)
      (MarksOn fs D binfo ({b} + M)) E s :=
  outcome_test (fun hn => ⟨Marks.stop hn, h⟩) hm

theorem marks_update {b : Nat} (hb : b < fs.sizes 0) (hs : binfo b = .unknown)
    (status : BlockStatus) (hne : status ≠ .unknown) :
    Marks (· < fs.sizes 0) (takenIn binfo) {b} (some (takenIn (Function.update binfo b status))) :=
  .single hb (fun h => h hs) (takenIn_update binfo b hne)

/-- A loop whose rounds mark `M i` marks their sum. -/
theorem outcome_tryLoop {f : Nat → BlockInfo → EStateM Stop σ (Option BlockInfo)}
    {M : Nat → Multiset Nat} (left : Nat) {i : Nat} (binfo : BlockInfo) (h : At fs 0 D s)
    (hf : ∀ j, i ≤ j → j < i + left → ∀ binfo s, At fs 0 D s →
      Outcome (f j binfo) (MarksOn fs D binfo (M j)) E s) :
    Outcome (tryLoop f left i binfo)
      (MarksOn fs D binfo (∑ j ∈ Finset.Ico i (i + left), M j)) E s := by
  induction left generalizing i binfo s with
  | zero =>
    rw [Nat.add_zero, Finset.Ico_self, Finset.sum_empty]
    exact ⟨.nothing, h⟩
  | succ left ih =>
    unfold tryLoop
    rw [Outcome.bind_iff]
    refine (hf i (Nat.le_refl i) (by omega) _ _ h).post ?_
    rintro r s' ⟨hr, h'⟩
    rw [Finset.sum_eq_sum_Ico_succ_bot (show i < i + (left + 1) by omega)]
    cases r with
    | none => exact ⟨hr.stop, h'⟩
    | some binfo' =>
      have hadd : i + (left + 1) = i + 1 + left := by omega
      rw [hadd]
      refine (ih binfo' h' fun j hij hj => hf j (by omega) (by omega)).post ?_
      rintro r s'' ⟨hr', h''⟩
      exact ⟨hr.seq hr', h''⟩

/-- The loop over the references marks what it follows. -/
theorem outcome_scanRefs {check : Nat → Nat → BlockInfo → EStateM Stop σ (Option BlockInfo)}
    {scan : Nat → Nat → Multiset Nat}
    (hcheck : ∀ ref offset binfo s, At fs 0 D s →
      Outcome (check ref offset binfo) (MarksOn fs D binfo (scan ref offset)) E s)
    (nblocks size : Nat) (ib : Block g) (left : Nat) {offset : Nat} (h : At fs 0 D s) :
    Outcome (scanRefs check nblocks size ib left offset binfo)
      (MarksOn fs D binfo (scannedRefs scan nblocks size ib left offset)) E s := by
  induction left generalizing offset binfo s with
  | zero => exact ⟨.nothing, h⟩
  | succ left ih =>
    unfold scanRefs scannedRefs
    rw [Outcome.bind_iff]
    refine (hcheck _ offset _ _ h).post ?_
    rintro r s' ⟨hr, h'⟩
    cases r with
    | none => exact ⟨hr.stop, h'⟩
    | some binfo' =>
      dsimp only
      split
      · rw [add_zero]
        exact ⟨hr, h'⟩
      · refine (ih h').post ?_
        rintro r s'' ⟨hr', h''⟩
        exact ⟨hr.seq hr', h''⟩

theorem outcome_checkInode (nblocks levels : Nat) {node offset : Nat} (h : At fs 0 D s) :
    Outcome (checkInode fs.toBlockStore (fs.sizes 0) nblocks levels node offset binfo)
      (MarksOn fs D binfo (scanned D nblocks levels node offset)) E s := by
  induction levels generalizing node offset binfo s with
  | zero =>
    unfold checkInode scanned single
    split
    · exact ⟨.nothing, h⟩
    · rw [← add_zero ({node} : Multiset Nat)]
      refine MarksOn.test h fun hb hs => ?_
      rw [Outcome.bind_iff]
      refine outcome_setStatus hb .data ?_
      rw [add_zero]
      exact ⟨marks_update hb hs .data (by decide), h⟩
  | succ levels ih =>
    unfold checkInode scanned
    split
    · exact ⟨.nothing, h⟩
    · refine MarksOn.test h fun hb hs => ?_
      rw [Outcome.bind_iff]
      refine outcome_setStatus hb .indir ?_
      rw [Outcome.bind_iff]
      refine h.outcome_readBlock hb fun s' h' => ?_
      have hcheck : ∀ ref offset binfo s, At fs 0 D s →
          Outcome (checkInode fs.toBlockStore (fs.sizes 0) nblocks levels ref offset binfo)
            (MarksOn fs D binfo (scanned D nblocks levels ref offset)) E s :=
        fun ref offset binfo s hs => ih hs
      refine (outcome_scanRefs hcheck nblocks _ (D node) g.refsPerBlock h').post ?_
      rintro r s'' ⟨hr, h''⟩
      exact ⟨(marks_update hb hs .indir (by decide)).seq hr, h''⟩

/-- The references followed from the inode in the words `2 * i` and `2 * i + 1`. -/
def scannedWords (D : Image g) (tib : Block g) (i : Nat) : Multiset Nat :=
  if tib.ref (2 * i + 1) ≠ 0 then
    scanned D (tib.ref (2 * i + 1)) (countLevels g (tib.ref (2 * i + 1) - 1)) (tib.ref (2 * i)) 0
  else 0

theorem outcome_checkInodeWords (tib : Block g) (i : Nat) (h : At fs 0 D s) :
    Outcome (checkInodeWords fs.toBlockStore (fs.sizes 0) tib i binfo)
      (MarksOn fs D binfo (scannedWords D tib i)) E s := by
  unfold checkInodeWords scannedWords
  split
  · exact outcome_checkInode _ _ h
  · exact ⟨.nothing, h⟩

theorem outcome_checkInodeBlock {b : Nat} (hb : b < fs.sizes 0) (h : At fs 0 D s) :
    Outcome (checkInodeBlock fs.toBlockStore (fs.sizes 0) b binfo)
      (MarksOn fs D binfo (∑ i ∈ Finset.range g.inodesPerBlock, scannedWords D (D b) i)) E s := by
  unfold checkInodeBlock
  rw [Outcome.bind_iff]
  refine h.outcome_readBlock hb fun s' h' => ?_
  have hround : ∀ i, 0 ≤ i → i < 0 + g.inodesPerBlock → ∀ binfo s, At fs 0 D s →
      Outcome (checkInodeWords fs.toBlockStore (fs.sizes 0) (D b) i binfo)
        (MarksOn fs D binfo (scannedWords D (D b) i)) E s :=
    fun i _ _ binfo s hs => outcome_checkInodeWords (D b) i hs
  have hloop := outcome_tryLoop g.inodesPerBlock (i := 0) binfo h' hround
  rw [Nat.zero_add] at hloop
  rw [Finset.range_eq_Ico]
  exact hloop

theorem outcome_checkSlot (tfb : Block g) (i : Nat) (h : At fs 0 D s) :
    Outcome (checkSlot (fs.sizes 0) tfb i binfo)
      (MarksOn fs D binfo (inDisk (fs.sizes 0) (tfb.ref i))) E s := by
  unfold checkSlot inDisk
  split
  · rename_i hr
    by_cases hlt : tfb.ref i < fs.sizes 0
    · rw [if_pos hlt, single_of_ne hr, if_neg (by omega), Outcome.bind_iff]
      refine outcome_getStatus hlt ?_
      split
      · rename_i hs
        exact ⟨fun hmk => (markable_singleton.mp hmk).2 hs, h⟩
      · rename_i hs
        rw [Outcome.bind_iff]
        refine outcome_setStatus hlt .free ?_
        exact ⟨marks_update hlt (not_not.mp hs) .free (by decide), h⟩
    · rw [if_neg hlt, if_pos (by omega)]
      exact ⟨.nothing, h⟩
  · rename_i hr
    rw [not_not.mp hr, single_zero, ite_self]
    exact ⟨.nothing, h⟩

/-- The blocks that have no status yet. -/
def unknowns (n : Nat) (binfo : BlockInfo) : Finset Nat :=
  (Finset.range n).filter fun b => binfo b = .unknown

theorem unknowns_lt {n b : Nat} {binfo' : BlockInfo} (hb : b < n) (hs : binfo b = .unknown)
    (hb' : takenIn binfo' b) (hle : ∀ x, takenIn binfo x → takenIn binfo' x) :
    (unknowns n binfo').card < (unknowns n binfo).card := by
  apply Finset.card_lt_card
  rw [Finset.ssubset_iff_of_subset]
  · exact ⟨b, Finset.mem_filter.mpr ⟨Finset.mem_range.mpr hb, hs⟩,
      fun hm => hb' (Finset.mem_filter.mp hm).2⟩
  · intro x hx
    obtain ⟨hn, hx⟩ := Finset.mem_filter.mp hx
    refine Finset.mem_filter.mpr ⟨hn, ?_⟩
    by_contra hne
    exact hle x hne hx

/-- The walk over the free list marks it, if there is an end to it. -/
structure MarksList (fs : FixedStore (Block g) σ) (D : Image g) (binfo : BlockInfo) (fl : Nat)
    (r : Option BlockInfo) (s : σ) : Prop where
  disk : At fs 0 D s
  ends : r.isSome → ∃ chain, FreeChain D fl chain
  marks : ∀ chain, FreeChain D fl chain →
    Marks (· < fs.sizes 0) (takenIn binfo) (listed (fs.sizes 0) D chain) (r.map takenIn)

/-- A block of the list that cannot be taken, or whose slots cannot, ends the walk. -/
theorem MarksList.stop {fl : Nat} (hfl : fl ≠ 0) (h : At fs 0 D s)
    (hn : ¬ Markable (· < fs.sizes 0) (takenIn binfo)
      ({fl} + ∑ i ∈ Finset.Ico 1 g.refsPerBlock, inDisk (fs.sizes 0) ((D fl).ref i))) :
    MarksList fs D binfo fl none s := by
  refine ⟨h, fun hs => by simp at hs, fun chain hchain hmk => ?_⟩
  cases hchain with
  | nil => exact hfl rfl
  | cons _ hrest =>
    rw [listed, ← add_assoc] at hmk
    exact hn (markable_add.mp hmk).1

theorem outcome_scanFreeList (rounds : Nat) {fl : Nat} (h : At fs 0 D s)
    (hlt : (unknowns (fs.sizes 0) binfo).card < rounds) :
    Outcome (scanFreeList fs.toBlockStore (fs.sizes 0) rounds fl binfo)
      (MarksList fs D binfo fl) E s := by
  induction rounds generalizing fl binfo s with
  | zero => omega
  | succ rounds ih =>
    unfold scanFreeList
    split
    · rename_i hfl
      rw [hfl]
      refine ⟨h, fun _ => ⟨[], .nil⟩, fun chain hchain => ?_⟩
      cases hchain with
      | nil => exact .nothing
      | cons hne _ => exact absurd rfl hne
    · rename_i hfl
      refine outcome_test (fun hn => .stop hfl h fun hmk => hn (markable_add.mp hmk).1)
        fun hb hs => ?_
      have hmark := marks_update hb hs .freelist (by decide)
      rw [Outcome.bind_iff]
      refine outcome_setStatus hb .freelist ?_
      rw [Outcome.bind_iff]
      refine h.outcome_readBlock hb fun s' h' => ?_
      rw [Outcome.bind_iff]
      have hround : ∀ i, 1 ≤ i → i < 1 + (g.refsPerBlock - 1) → ∀ binfo s, At fs 0 D s →
          Outcome (checkSlot (fs.sizes 0) (D fl) i binfo)
            (MarksOn fs D binfo (inDisk (fs.sizes 0) ((D fl).ref i))) E s :=
        fun i _ _ binfo s hs => outcome_checkSlot (D fl) i hs
      have hloop := outcome_tryLoop (g.refsPerBlock - 1) (Function.update binfo fl .freelist) h'
        hround
      have hrefs : 1 + (g.refsPerBlock - 1) = g.refsPerBlock := by
        have h4 := g.four_le_refs
        omega
      rw [hrefs] at hloop
      refine hloop.post ?_
      rintro r s'' ⟨hr, h''⟩
      cases r with
      | none => exact .stop hfl h'' (hmark.seq hr)
      | some binfo₁ =>
        have hall := hmark.seq hr
        have htaken : takenIn binfo₁ = _ := hall.2
        have hlt₁ : (unknowns (fs.sizes 0) binfo₁).card < rounds := by
          refine (unknowns_lt hb hs ?_ ?_).trans_le (Nat.le_of_lt_succ hlt)
          · rw [htaken]
            exact .inr (by simp)
          · rw [htaken]
            exact fun x hx => .inl hx
        refine (ih h'' hlt₁).post ?_
        intro r s₃ hrest
        refine ⟨hrest.disk, fun hsome => ?_, fun chain hchain => ?_⟩
        · obtain ⟨chain, hchain⟩ := hrest.ends hsome
          exact ⟨fl :: chain, .cons hfl hchain⟩
        · cases hchain with
          | nil => exact absurd rfl hfl
          | cons _ hchain =>
            rw [listed, ← add_assoc]
            exact hall.seq (hrest.marks _ hchain)

end

end Egos.Disk.Treedisk
