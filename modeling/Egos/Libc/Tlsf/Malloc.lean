import Egos.Libc.Tlsf.Grow

/-!
# `malloc_ex`

A block is taken from the lowest class that has one and is high enough. If there is none, the pool
grows, and then there is one.
-/
namespace Egos.Libc.Tlsf

open Egos.Disk (Stop)
open Egos.Lib

set_option autoImplicit false

/-- The size that a request is rounded up to. -/
def asked (size : Nat) : Nat := if size < minBlockSize then minBlockSize else roundUpSize size

/-- The size that is searched for. -/
def wanted (size : Nat) : Nat := classSize (asked size)

/-- `area_size` for a block of `n` bytes -/
def areaFor (n : Nat) : Nat :=
  if n + bhdrOverhead * 8 > defaultAreaSize then n + bhdrOverhead * 8 else defaultAreaSize

/-- The pool may have to grow, and is below one gigabyte still. -/
structure Modest (heap : Heap) (size : Nat) : Prop where
  lt : size < maxSize
  room : heap.brk.getD 0 + areaFor (wanted size) ≤ heap.mp + maxSize

section

variable {heap heap' : Heap} {s n m size' a k x fuel : Nat} {front back blocks blocks' : List Block}
  {b : Block}

/-! ## Sizes -/

theorem asked_ok (h : size' < maxSize) :
    size' ≤ asked size' ∧ minBlockSize ≤ asked size' ∧ blockAlign ∣ asked size' := by
  unfold maxSize at h
  unfold asked minBlockSize
  split
  · exact ⟨by omega, Nat.le_refl _, by decide⟩
  · have hround : roundUpSize size' = (size' + 15) / 16 * 16 := by
      unfold roundUpSize blockAlign
      rw [Nat.mod_eq_of_lt (by omega)]
    rw [hround]
    exact ⟨by omega, by omega, Nat.dvd_mul_left _ _⟩

theorem dvd_classSize (h : blockAlign ∣ n) : blockAlign ∣ classSize n := by
  unfold classSize
  split
  · exact h
  · next hlarge =>
    have hstep : step n = 2 ^ (n.log2 - maxLog2Sli) := if_neg hlarge
    by_cases hk : n.log2 - maxLog2Sli ≤ 4
    · -- the step divides the alignment, and so the size
      obtain ⟨c, hc⟩ : step n ∣ n :=
        Nat.dvd_trans (hstep ▸ (Nat.pow_dvd_pow 2 hk : _ ∣ 2 ^ 4)) h
      have hpos := step_pos n
      have hdiv : (n + (step n - 1)) / step n * step n = n := by
        have hsame := classSize_of_isClassSize (n := n) ⟨c, hc⟩
        unfold classSize at hsame
        rwa [if_neg hlarge] at hsame
      rw [hdiv]
      exact h
    · rw [hstep]
      exact Nat.dvd_trans (Nat.pow_dvd_pow 2 (Nat.le_of_lt (Nat.not_le.mp hk)) : 2 ^ 4 ∣ _)
        (Nat.dvd_mul_left _ _)

theorem wanted_ok (h : size' < maxSize) : size' ≤ wanted size' ∧ minBlockSize ≤ wanted size' ∧
    blockAlign ∣ wanted size' ∧ IsClassSize (wanted size') ∧ classSize (wanted size') = wanted size' := by
  obtain ⟨hle, hmin, hdvd⟩ := asked_ok h
  have hclass := le_classSize (asked size')
  have hcs : IsClassSize (wanted size') := by
    apply classSize_isClassSize
    intro _
    exact Nat.dvd_trans (by decide) hdvd
  exact ⟨Nat.le_trans hle hclass, Nat.le_trans hmin hclass, dvd_classSize hdvd, hcs,
    classSize_of_isClassSize hcs⟩

theorem areaFor_ok (h : blockAlign ∣ n) : blockAlign ∣ areaFor n ∧ n + 128 ≤ areaFor n ∧
    defaultAreaSize ≤ areaFor n := by
  unfold areaFor bhdrOverhead sizeofBhdr minBlockSize
  split
  · exact ⟨Nat.dvd_add h (by decide), Nat.le_refl _, by omega⟩
  · exact ⟨by decide, by omega, Nat.le_refl _⟩

theorem Modest.wanted_lt (h : Modest heap size') (hs : Room heap s blocks) :
    wanted size' < maxSize := by
  obtain ⟨hlt, hroom⟩ := h
  have hstart := hs.start
  rw [poolStart_eq] at hstart
  have hle : s ≤ endOf s blocks := le_stopOf
  rw [hs.brk, Option.getD_some] at hroom
  have harea := (areaFor_ok (wanted_ok hlt).2.2.1).2.1
  omega

/-! ## The search -/

/-- What a call leaves as it is: the bytes of the users, but for the first block. -/
structure Untouched (s : Nat) (blocks : List Block) (heap heap' : Heap) : Prop where
  mp : heap'.mp = heap.mp
  dataEnd : heap'.dataEnd = heap.dataEnd
  memory : ∀ k, s + 32 ≤ k → UserByte s blocks k → heap'.memory k = heap.memory k

theorem Untouched.refl : Untouched s blocks heap heap := ⟨rfl, rfl, fun _ _ _ => rfl⟩

theorem Untouched.of_same {K : Nat → Prop} (h : Same K heap heap')
    (hK : ∀ k, UserByte s blocks k → K k) : Untouched s blocks heap heap' :=
  ⟨h.mp, h.dataEnd, fun k _ hk => h.memory k (hK k hk)⟩

theorem Untouched.trans {heap'' : Heap} (h : Untouched s blocks heap heap')
    (h' : Untouched s blocks' heap' heap'')
    (hb : ∀ k, s + 32 ≤ k → UserByte s blocks k → UserByte s blocks' k) :
    Untouched s blocks heap heap'' :=
  ⟨h'.mp.trans h.mp, h'.dataEnd.trans h.dataEnd,
    fun k hlow hk => (h'.memory k hlow (hb k hlow hk)).trans (h.memory k hlow hk)⟩

/-- No free block is high enough. -/
def Exhausted (s : Nat) (blocks : List Block) (n : Nat) : Prop :=
  ∀ x m, freeOf s blocks x = some m → rank m < rank n

/-- The blocks when the pool has grown. -/
def grown (front : List Block) (A : Nat) : List Block :=
  coalesce (front ++ [⟨A - 16, true⟩, ⟨0, false⟩])

theorem used_free_block {back : List Block} :
    Used s (front ++ ⟨m, true⟩ :: back) x k ↔
      Used s front x k ∨ Used (endOf s front + (bhdrOverhead + m)) back x k := by
  rw [used_append]
  refine or_congr_right ?_
  rw [used_cons]
  refine or_iff_right fun h => ?_
  cases h.2.2

theorem used_last : Used s (front ++ [⟨0, false⟩]) x k ↔ Used s front x k := by
  rw [used_append]
  refine or_iff_left ?_
  rw [used_cons]
  rintro (⟨hk, -, h⟩ | ⟨-, h⟩)
  · cases h
    exact hk rfl
  · cases h

theorem used_grown : Used s (grown front n) x k ↔ Used s (front ++ [⟨0, false⟩]) x k := by
  unfold grown
  rw [used_coalesce, used_free_block, used_last]
  refine or_iff_left ?_
  rw [used_cons]
  rintro (⟨hk, -, h⟩ | ⟨-, h⟩)
  · cases h
    exact hk rfl
  · cases h

/-- The free block at the end of the pool, when it has grown. -/
theorem exists_free_grown : ∃ x m, n - 16 ≤ m ∧ freeOf s (grown front n) x = some m := by
  unfold grown
  induction front generalizing s with
  | nil => exact ⟨s, n - 16, Nat.le_refl _, freeOf_eq_some_iff.mpr List.mem_cons_self⟩
  | cons b front ih =>
    obtain ⟨m, f⟩ := b
    obtain ⟨x, k, hle, hx⟩ := ih (s := s + (bhdrOverhead + m))
    have hmem := freeOf_eq_some_iff.mp hx
    rw [List.cons_append]
    cases f with
    | false =>
      rw [coalesce_used]
      exact ⟨x, k, hle, freeOf_eq_some_iff.mpr (List.mem_cons_of_mem _ hmem)⟩
    | true =>
      cases hl : coalesce (front ++ [⟨n - 16, true⟩, ⟨0, false⟩]) with
      | nil =>
        rw [hl] at hmem
        cases hmem
      | cons c l =>
        rw [hl] at hmem
        obtain ⟨j, f⟩ := c
        cases f with
        | false =>
          rw [coalesce_free_used hl]
          exact ⟨x, k, hle, freeOf_eq_some_iff.mpr (List.mem_cons_of_mem _ hmem)⟩
        | true =>
          rw [coalesce_free_free hl]
          cases hmem with
          | head => exact ⟨s, _, by omega, freeOf_eq_some_iff.mpr List.mem_cons_self⟩
          | tail _ hmem =>
            refine ⟨x, k, hle, freeOf_eq_some_iff.mpr (List.mem_cons_of_mem _ ?_)⟩
            have hplace : s + (bhdrOverhead + (m + (bhdrOverhead + j))) =
                s + (bhdrOverhead + m) + (bhdrOverhead + j) := by omega
            change (x, _) ∈ placedAt (s + (bhdrOverhead + (m + (bhdrOverhead + j)))) l
            rw [hplace]
            exact hmem

theorem Fitting.ne_zero {F : Nat → Option Nat} {b : Nat} {i : Fin realFli} {j : Fin maxSli}
    (h : Fitting heap F n b m i j) (hbin : Binned heap F) : b ≠ 0 := by
  obtain ⟨bins, hbins⟩ := hbin
  exact (hbins.listable b m h.isFree).ne_zero

/-- What `malloc_ex` finds, in a pool that may have grown. -/
structure Found (heap heap' : Heap) (s : Nat) (blocks blocks' : List Block) (n b m : Nat)
    (i : Fin realFli) (j : Fin maxSli) : Prop where
  sound : Sound heap' s blocks'
  fitting : Fitting heap' (freeOf s blocks') n b m i j
  used : ∀ x k, Used s blocks' x k ↔ Used s blocks x k
  untouched : Untouched s blocks heap heap'
  growth : heap' = heap ∧ blocks' = blocks ∨
    Exhausted s blocks n ∧ heap'.brk = some (endOf s blocks + areaFor n)

theorem outcome_searchBlock (h : Sound heap s blocks) (hm : Modest heap size') (hfuel : 2 ≤ fuel) :
    Outcome (searchBlock fuel (asked size')) (fun r heap' =>
      ∃ blocks' b m, ∃ (i : Fin realFli) (j : Fin maxSli),
      r = (wanted size', b, ((i : Nat) : Int), ((j : Nat) : Int)) ∧
      Found heap heap' s blocks blocks' (wanted size') b m i j) (fun _ _ => False) heap := by
  obtain ⟨-, hmin, hdvd, hcs, hagain⟩ := wanted_ok hm.lt
  obtain ⟨-, hmin', hdvd'⟩ := asked_ok hm.lt
  have hroom := h.tidy.room
  have hlt := hm.wanted_lt hroom
  have hfour : ∀ {n : Nat}, blockAlign ∣ n → n < smallBlock → smallBlock / maxSli ∣ n :=
    fun hn _ => Nat.dvd_trans (by decide) hn
  unfold searchBlock
  refine outcome_step (mappingSearch_ok (hfour hdvd') hlt) ?_
  rw [show classSize (asked size') = wanted size' from rfl]
  dsimp only
  refine (outcome_findSuitableBlock h.tidy.binned hlt).seq ?_
  rintro ⟨b, fl, sl⟩ heap₁ ⟨rfl, hfound⟩
  rcases hfound with ⟨hb, hexhausted⟩ | ⟨m, i, j, hfit, hclass⟩
  · -- the pool grows
    dsimp only at hb ⊢
    rw [if_pos hb]
    have harea : (if (wanted size' + bhdrOverhead * 8) % 2 ^ 64 > defaultAreaSize then
        (wanted size' + bhdrOverhead * 8) % 2 ^ 64 else defaultAreaSize) = areaFor (wanted size') := by
      have hsmall : wanted size' + bhdrOverhead * 8 < 2 ^ 64 := by
        unfold bhdrOverhead sizeofBhdr minBlockSize
        unfold maxSize at hlt
        omega
      rw [Nat.mod_eq_of_lt hsmall]
      rfl
    rw [harea]
    obtain ⟨front, rfl, hfront, hfirst⟩ := hroom.exists_front
    obtain ⟨hAdvd, hAle, hAmin⟩ := areaFor_ok hdvd
    have hbound := hm.room
    rw [hroom.brk, Option.getD_some] at hbound
    have hAmax : areaFor (wanted size') ≤ maxSize := by
      have hstart := hroom.start
      rw [poolStart_eq] at hstart
      have hle : s ≤ endOf s (front ++ [⟨0, false⟩]) := le_stopOf
      omega
    generalize hA : areaFor (wanted size') = A at *
    unfold defaultAreaSize at hAmin
    have hnew : getNewArea A heap₁ = .ok (endOf s (front ++ [⟨0, false⟩]))
        { heap₁ with brk := some (endOf s (front ++ [⟨0, false⟩]) + A) } := by
      have hget : (get : Program Heap) heap₁ = .ok heap₁ heap₁ := rfl
      have hround : roundUpSize A = A := by
        obtain ⟨c, hc⟩ := hAdvd
        unfold maxSize at hAmax
        unfold roundUpSize blockAlign at *
        rw [Nat.mod_eq_of_lt (by omega)]
        omega
      unfold getNewArea
      rw [bind_ok hget, hroom.brk, hround]
      rfl
    refine outcome_step hnew ?_
    refine (outcome_addNewArea h hfirst hAdvd (by omega) endOf_concat hbound hfuel).seq ?_
    rintro - heap₂ ⟨hsound, hmp, hdata, hmemory⟩
    refine outcome_step (mappingSearch_ok (hfour hdvd) (by rw [hagain]; exact hlt)) ?_
    rw [hagain]
    refine (outcome_findSuitableBlock hsound.tidy.binned hlt).seq ?_
    rintro ⟨b, fl, sl⟩ heap₃ ⟨rfl, hfound⟩
    have hbrk : heap₃.brk = some (endOf s (front ++ [⟨0, false⟩]) + A) := by
      rw [hsound.tidy.room.brk, endOf_coalesce]
      unfold endOf
      rw [stopOf_append, stopOf_append]
      congr 1
      change stopOf _ _ _ + (bhdrOverhead + (A - 16)) + 16 = stopOf _ _ _ + 16 + A
      have hhdr : bhdrOverhead = 16 := rfl
      omega
    have huntouched : Untouched s (front ++ [⟨0, false⟩]) heap₁ heap₃ := by
      refine ⟨hmp, hdata, fun k hlow hk => hmemory k hlow ?_⟩
      obtain ⟨a, n, ha, hbyte⟩ := hk
      exact ⟨a, n, used_last.mp ha, hbyte⟩
    rcases hfound with ⟨-, hexhausted'⟩ | ⟨m, i, j, hfit, hclass⟩
    · -- the free block at the end would do
      obtain ⟨x, m, hle, hx⟩ : ∃ x m, A - 16 ≤ m ∧ freeOf s (grown front A) x = some m :=
        exists_free_grown
      have hsmall := (hsound.tidy.room.small (freeOf_eq_some_iff.mp hx)).1
      have hrank := rank_mono (n := wanted size') (m := m) (by omega) hsmall
      exact absurd (hexhausted' x m hx) (Nat.not_lt.mpr hrank)
    · dsimp only at hclass ⊢
      cases hclass
      exact ⟨_, b, m, i, j, rfl, hsound, hfit, fun _ _ => used_grown, huntouched,
        .inr ⟨hexhausted, hA.symm ▸ hbrk⟩⟩
  · have hne := hfit.ne_zero h.tidy.binned
    dsimp only at hne hclass ⊢
    rw [if_neg hne]
    cases hclass
    exact ⟨blocks, b, m, i, j, rfl, h, hfit, fun _ _ => Iff.rfl, .refl, .inl ⟨rfl, rfl⟩⟩

/-! ## The function -/

/-- The pool has a block more, at `a` and with `n` bytes. -/
structure Allocated (heap heap' : Heap) (s : Nat) (blocks blocks' : List Block) (size' a n : Nat) :
    Prop where
  sound : Sound heap' s blocks'
  large : wanted size' ≤ n
  tight : n < wanted size' + sizeofBhdr
  ne_start : a ≠ s
  unused : ∀ k, ¬ Used s blocks a k
  used : ∀ x k, Used s blocks' x k ↔ Used s blocks x k ∨ (x = a ∧ k = n)
  untouched : Untouched s blocks heap heap'
  growth : (heap'.brk = heap.brk ∧ ∃ m, freeOf s blocks a = some m ∧ wanted size' ≤ m ∧
      ∀ x k, freeOf s blocks x = some k → rank (wanted size') ≤ rank k → rank m ≤ rank k) ∨
    Exhausted s blocks (wanted size') ∧
      heap'.brk = some (endOf s blocks + areaFor (wanted size'))

theorem not_used_middle {f : Bool} (hf : f = true) :
    ¬ Used s (front ++ ⟨m, f⟩ :: back) (endOf s front) k := by
  subst hf
  rintro ⟨-, hk⟩
  have hlen : Block.length ⟨k, false⟩ = bhdrOverhead + k := rfl
  have hlen' : Block.length ⟨m, true⟩ = bhdrOverhead + m := rfl
  have hhdr : bhdrOverhead = 16 := rfl
  rcases placed_disjoint hk placed_middle with heq | hle | hle
  · cases heq
  · omega
  · omega

theorem outcome_mallocEx (h : Sound heap s blocks) (hm : Modest heap size') (hfuel : 2 ≤ fuel) :
    Outcome (mallocEx fuel size') (fun r heap' => ∃ a n blocks', r = buffer a ∧
      Allocated heap heap' s blocks blocks' size' a n) (fun _ _ => False) heap := by
  obtain ⟨hle, hmin, hdvd, hcs, -⟩ := wanted_ok hm.lt
  have hlt := hm.wanted_lt h.tidy.room
  unfold mallocEx
  refine (outcome_searchBlock h hm hfuel).seq ?_
  rintro r heap₁ ⟨blocks₁, b, m, i, j, rfl, hfound⟩
  have htidy := hfound.sound.tidy
  dsimp only
  rw [if_neg (hfound.fitting.ne_zero htidy.binned)]
  have hmem := freeOf_eq_some_iff.mp hfound.fitting.isFree
  obtain ⟨front, back, rfl, rfl⟩ := placed_split hmem
  have hm0 : m ≠ 0 := htidy.room.free (placed_mem hmem) rfl
  have hfront : front ≠ [] := htidy.room.front_ne_nil rfl
  obtain ⟨c, back, rfl⟩ := List.exists_cons_of_ne_nil (htidy.room.back_ne_nil hm0)
  have hsmall : m < maxSize := (htidy.room.small hmem).1
  have hfits : wanted size' ≤ m := le_of_rank_le hcs hlt hfound.fitting.rank_le
  obtain ⟨hfs, hbs⟩ := List.isChain_split.mp htidy.spaced
  obtain ⟨hmc, hbs⟩ := List.isChain_cons_cons.mp hbs
  have hc : c.free = false := by
    cases hcf : c.free with
    | false => rfl
    | true => exact absurd ⟨rfl, hcf⟩ hmc
  refine (outcome_extractBlockHdr htidy.binned hfound.fitting.isFree hfound.fitting.fl
    hfound.fitting.sl hfound.fitting.head).seq ?_
  rintro ⟨⟩ heap₂ ⟨hbin₂, hr⟩
  rw [show stopOf Block.length s front = endOf s front from rfl, freeOf_taken] at hbin₂
  have hloose := (htidy.loose hfront hm0 (Nat.zero_le m)).relink hr fun x hx => by
    by_cases hxa : x = endOf s front
    · exact .inl ⟨hxa, hm0, rfl⟩
    · rw [← freeOf_same, Function.update_of_ne hxa] at hx
      exact .inr hx
  rw [if_pos rfl] at hloose
  refine (outcome_takeBlock hloose hbin₂ hfront hfits hdvd
    (by unfold minBlockSize at hmin; omega) hfs.left_of_append hbs hc).seq ?_
  rintro ⟨⟩ heap₃ ⟨htidy₃, hsame⟩
  have hne : takenSize m (wanted size') ≠ 0 := by
    have := le_takenSize hfits
    unfold minBlockSize at hmin
    omega
  have hfirst : front.head? = some ⟨sizeofAreaInfo, false⟩ := by
    have hfirst := htidy.room.first
    rwa [List.head?_append_of_ne_nil _ hfront] at hfirst
  have hsound : Sound heap₃ s (front ++ (taken m (wanted size') ++ c :: back)) :=
    hfound.sound.of_same htidy₃ hsame (fun k hlow hhigh => .inl (info_byte hfirst hlow hhigh))
      (endOf_taken_append hfits)
  have hsplit : ∀ x k, Used s (front ++ ⟨m, true⟩ :: c :: back) x k ↔ Used s front x k ∨
      Used (endOf s front + (bhdrOverhead + m)) (c :: back) x k := fun x k => used_free_block
  refine ⟨endOf s front, takenSize m (wanted size'), _, rfl, hsound, le_takenSize hfits,
    takenSize_lt, ?_, ?_, ?_, ?_, ?_⟩
  · -- the first block is in front
    obtain ⟨d, front, rfl⟩ := List.exists_cons_of_ne_nil hfront
    have hpos := length_pos d
    have hle : s + d.length ≤ endOf s (d :: front) := le_stopOf
    omega
  · intro k hk
    exact not_used_middle rfl ((hfound.used _ _).mpr hk)
  · intro x k
    rw [used_taken hfits hne, ← hfound.used, hsplit, or_assoc, or_comm (b := x = endOf s front ∧ _)]
  · have hsame' : Untouched s (front ++ ⟨m, true⟩ :: c :: back) heap₁ heap₃ :=
      .of_same hsame fun k hk => (userByte_around.mp hk).imp_right .inl
    refine hfound.untouched.trans hsame' fun k _ hk => ?_
    obtain ⟨a, n, ha, hbyte⟩ := hk
    exact ⟨a, n, (hfound.used a n).mpr ha, hbyte⟩
  · rcases hfound.growth with ⟨rfl, rfl⟩ | ⟨hexhausted, hbrk⟩
    · exact .inl ⟨hsame.brk, m, hfound.fitting.isFree, hfits, hfound.fitting.least⟩
    · exact .inr ⟨hexhausted, hsame.brk.trans hbrk⟩

end

end Egos.Libc.Tlsf
