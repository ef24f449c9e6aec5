import Egos.Libc.Tlsf.Take

/-!
# Areas

A new area is right behind the last one. `add_new_area` finds that and makes one area of both, in which
the last block of the old area and all of the new one are free.
-/
namespace Egos.Libc.Tlsf

open Egos.Disk (Stop)
open Egos.Lib

set_option autoImplicit false

/-- `process_area` writes three headers and the links between areas. -/
structure Processed (heap heap' : Heap) (area n : Nat) : Prop where
  rest : heap' = { heap with memory := heap'.memory }
  first : heap'.at (size area) = headerWord sizeofAreaInfo false false
  block : heap'.at (size (area + 32)) = headerWord (n - 64) false false
  last : heap'.at (size (area + (n - 16))) = headerWord 0 false true
  lastPrev : heap'.at (prevHdr (area + (n - 16))) = area + 32
  areaEnd : heap'.at (areaEnd (buffer area)) = area + (n - 16)
  areaNext : heap'.at (areaNext (buffer area)) = 0
  outside : ∀ k, k < area ∨ area + n ≤ k → heap'.memory k = heap.memory k

section

variable {heap : Heap} {area n : Nat}

theorem roundDownSize_eq (h : blockAlign ∣ n) : roundDownSize n = n := Nat.div_mul_cancel h

theorem and_mask_of_dvd (h : blockAlign ∣ n) (hn : n < maxSize) : n &&& tlsfBlockSize = n :=
  and_tlsfBlockSize (f := false) (p := false) h hn

theorem outcome_processArea (hacc : heap.Accessible area n) (hdvd : blockAlign ∣ n)
    (hlarge : 96 ≤ n) (hn : n < maxSize) (hword : area + n ≤ 2 ^ 64) :
    Outcome (processArea area n) (fun r heap' => r = area ∧ Processed heap heap' area n)
      (fun _ _ => False) heap := by
  have hrest : blockAlign ∣ n - 64 := Nat.dvd_sub hdvd (by decide)
  have hsmall : n - 64 < maxSize := by omega
  have hpart : ∀ {heap' : Heap}, heap'.mp = heap.mp → heap'.brk = heap.brk →
      ∀ y, area ≤ y → y + 8 ≤ area + n → heap'.Accessible y 8 := by
    intro heap' hmp hbrk y hlow hhigh
    have hy := hacc.part hlow hhigh
    unfold Heap.Accessible at hy ⊢
    rw [hmp, hbrk]
    exact hy
  have hinfo : (if sizeofAreaInfo < minBlockSize then minBlockSize else roundUpSize sizeofAreaInfo) =
      16 := rfl
  have hsub : minus (minus n (3 * bhdrOverhead)) 16 = n - 64 := by
    have h48 : minus n (3 * bhdrOverhead) = n - 48 :=
      minus_of_le (by unfold bhdrOverhead sizeofBhdr minBlockSize; omega)
        (by unfold maxSize at hn; omega)
    rw [h48, minus_of_le (by omega) (by unfold maxSize at hn; omega)]
    omega
  have h16 : (16 : Nat) &&& tlsfBlockSize = 16 := rfl
  have hrestmask := and_mask_of_dvd hrest hsmall
  have hfirst : getNextBlock (buffer area) 16 = area + 32 := rfl
  have hlast : getNextBlock (buffer (area + 32)) (n - 64) = area + (n - 16) := by
    change area + 32 + 16 + (n - 64) = area + (n - 16)
    omega
  have hrest64 : n - 64 < 2 ^ 64 := by omega
  -- where the words are
  have hsize : ∀ a, size a = a + 8 := fun _ => rfl
  have hprevHdr : ∀ a, prevHdr a = a := fun _ => rfl
  have hprev : ∀ a, prev a = a + 16 := fun _ => rfl
  have hnext : ∀ a, next a = a + 24 := fun _ => rfl
  have hend : areaEnd (buffer area) = area + 16 := rfl
  have hareaNext : areaNext (buffer area) = area + 24 := rfl
  unfold processArea
  rw [hinfo]
  dsimp only
  refine outcome_setWord (hpart rfl rfl _ (by rw [hsize]; omega) (by rw [hsize]; omega)) ?_
  refine outcome_word (hpart rfl rfl _ (by rw [hsize]; omega) (by rw [hsize]; omega)) ?_
  rw [at_put (by decide), h16, hfirst]
  refine outcome_word (hpart rfl rfl _ (by rw [hsize]; omega) (by rw [hsize]; omega)) ?_
  rw [at_put (by decide), h16, hsub, roundDownSize_eq hrest]
  refine outcome_setWord (hpart rfl rfl _ (by rw [hsize]; omega) (by rw [hsize]; omega)) ?_
  refine outcome_setWord (hpart rfl rfl _ (by rw [hnext]; omega) (by rw [hnext]; omega)) ?_
  refine outcome_setWord (hpart rfl rfl _ (by rw [hprev]; omega) (by rw [hprev]; omega)) ?_
  refine outcome_word (hpart rfl rfl _ (by rw [hsize]; omega) (by rw [hsize]; omega)) ?_
  rw [at_put_of_disjoint (by rw [hsize, hprev]; omega),
    at_put_of_disjoint (by rw [hsize, hnext]; omega), at_put hrest64, hrestmask, hlast]
  refine outcome_setWord (hpart rfl rfl _ (by rw [hprevHdr]; omega) (by rw [hprevHdr]; omega)) ?_
  refine outcome_setWord (hpart rfl rfl _ (by rw [hsize]; omega) (by rw [hsize]; omega)) ?_
  refine outcome_setWord (hpart rfl rfl _ (by rw [hareaNext]; omega) (by rw [hareaNext]; omega)) ?_
  refine outcome_setWord (hpart rfl rfl _ (by rw [hend]; omega) (by rw [hend]; omega)) ?_
  refine ⟨rfl, rfl, ?_, ?_, ?_, ?_, ?_, ?_, fun k hk => ?_⟩
  all_goals simp only [hsize, hprevHdr, hprev, hnext, hend, hareaNext]
  · simp (disch := omega) only [at_put_of_disjoint, at_put]
    rfl
  · simp (disch := omega) only [at_put_of_disjoint, at_put]
    rfl
  · rw [show prevFree = 2 from rfl]
    simp (disch := omega) only [at_put_of_disjoint, at_put]
    rfl
  · simp (disch := omega) only [at_put_of_disjoint, at_put]
  · simp (disch := omega) only [at_put]
  · simp (disch := omega) only [at_put_of_disjoint, at_put]
  · simp (disch := omega) only [put_outside]

end

/-- A tidy pool with one area, which the pool header knows. -/
structure Sound (heap : Heap) (s : Nat) (blocks : List Block) : Prop where
  tidy : Tidy heap s blocks
  areaHead : heap.tlsf.areaHead = buffer s
  areaEnd : buffer (heap.at (areaEnd (buffer s))) = endOf s blocks
  areaNext : heap.at (areaNext (buffer s)) = 0

section

variable {heap heap' : Heap} {s A k fuel : Nat} {front blocks blocks' : List Block}
  {K : Nat → Prop}

/-- What the first block says of the area. -/
theorem info_byte (h : blocks.head? = some ⟨sizeofAreaInfo, false⟩) (hlow : buffer s ≤ k)
    (hhigh : k < buffer s + sizeofAreaInfo) : UserByte s blocks k := by
  cases blocks with
  | nil => cases h
  | cons b l =>
    cases h
    exact ⟨s, sizeofAreaInfo, ⟨by decide, List.mem_cons_self⟩, hlow, hhigh⟩

theorem Sound.of_same (h : Sound heap s blocks) (htidy : Tidy heap' s blocks')
    (hsame : Same K heap heap') (hK : ∀ k, buffer s ≤ k → k < buffer s + sizeofAreaInfo → K k)
    (hend : endOf s blocks' = endOf s blocks) : Sound heap' s blocks' := by
  refine ⟨htidy, hsame.areaHead.trans h.areaHead, ?_, ?_⟩
  · rw [hend, ← h.areaEnd]
    congr 1
    exact hsame.at_eq fun k hlow hhigh => hK k hlow (Nat.lt_of_lt_of_le hhigh (Nat.le_add_right _ 8))
  · rw [← h.areaNext]
    apply hsame.at_eq
    intro k hlow hhigh
    unfold Tlsf.areaNext sizeofAreaInfo at *
    exact hK k (by omega) (by omega)

theorem Room.exists_front (h : Room heap s blocks) : ∃ front, blocks = front ++ [⟨0, false⟩] ∧
    front ≠ [] ∧ front.head? = some ⟨sizeofAreaInfo, false⟩ := by
  rcases List.eq_nil_or_concat' blocks with rfl | ⟨front, b, rfl⟩
  · cases h.first
  · have hlast := h.last
    rw [List.getLast?_append_cons, List.getLast?_singleton] at hlast
    cases hlast
    have hfirst := h.first
    have hfront : front ≠ [] := by
      rintro rfl
      cases hfirst
    rw [List.head?_append_of_ne_nil _ hfront] at hfirst
    exact ⟨front, rfl, hfront, hfirst⟩

theorem memset_aligned {mem : Buffer} {b n : Nat} (hb : Memset.align ∣ b) (hn : n < 2 ^ 64) :
    (Memset.memset mem b 0 n).2 = filled mem b n 0 := by
  have hskip : Memset.skipped b = 0 := by
    unfold Memset.skipped Memset.misaligned
    rw [Nat.mod_eq_zero_of_dvd hb, Nat.zero_min]
  rw [Memset.memset_zero _ _ hn, hskip, Nat.sub_zero, Nat.add_mod_right, Nat.mod_eq_of_lt hn,
    Nat.zero_add]

theorem endOf_concat : endOf s (front ++ [⟨0, false⟩]) = endOf s front + 16 := by
  unfold endOf
  rw [stopOf_append]
  rfl

/-- What the loop over the areas does when the new area is right behind the only other one. -/
theorem outcome_mergeAreas (h : Sound heap s (front ++ [⟨0, false⟩])) (hfirst : front.head? =
      some ⟨sizeofAreaInfo, false⟩) (hA : blockAlign ∣ A) (hlarge : 96 ≤ A) (hmax : A < maxSize)
    {heap₁ : Heap} {e : Nat} (he : e = endOf s front + 16)
    (hr : Processed { heap with brk := some (e + A) } heap₁ e A) (hfuel : 2 ≤ fuel)
    {Q : AreaVars → Heap → Prop}
    (hQ : Q { ib0 := s, b0 := endOf s front, lb0 := e + (A - 16) }
      (({ heap₁ with tlsf := { heap₁.tlsf with areaHead := 0 } }.put (size (endOf s front))
        (headerWord (A - 16) false (lastFree none s front).isSome)).put
          (prevHdr (e + (A - 16))) (endOf s front))) :
    Outcome (mergeAreas fuel (buffer s) 0 { ib0 := e, b0 := e + 32, lb0 := e + (A - 16) }) Q
      (fun _ _ => False) heap₁ := by
  obtain ⟨fuel, rfl⟩ : ∃ f, fuel = f + 2 := ⟨fuel - 2, by omega⟩
  have hhdr : bhdrOverhead = 16 := rfl
  have hsize : ∀ a, size a = a + 8 := fun _ => rfl
  have hbuffer : ∀ a, buffer a = a + 16 := fun _ => rfl
  have hroom := h.tidy.room
  have hstart := hroom.start
  rw [poolStart_eq] at hstart
  have hareaEnd : areaEnd (buffer s) = s + 16 := rfl
  have hareaNext : areaNext (buffer s) = s + 24 := rfl
  have hA16 : blockAlign ∣ A - 16 := Nat.dvd_sub hA (by decide)
  have hA64 : blockAlign ∣ A - 64 := Nat.dvd_sub hA (by decide)
  -- the header of the first block, and of the last one
  obtain ⟨front', rfl⟩ : ∃ l, front = ⟨sizeofAreaInfo, false⟩ :: l := by
    cases front with
    | nil => cases hfirst
    | cons b l =>
      cases hfirst
      exact ⟨l, rfl⟩
  have hle : s + 32 ≤ endOf s (⟨sizeofAreaInfo, false⟩ :: front') := le_stopOf
  have hs : heap.at (size s) = headerWord sizeofAreaInfo false false := h.tidy.headers.1.sizeWord
  generalize hfr : (⟨sizeofAreaInfo, false⟩ :: front' : List Block) = front at *
  have hl : heap.at (size (endOf s front)) = headerWord 0 false (lastFree none s front).isSome :=
    (headers_append.mp h.tidy.headers).2.1.sizeWord
  -- the memory behind the old end is another one, but nothing else
  have hmp : heap₁.mp = heap.mp := by rw [hr.rest]
  have hbrk : heap₁.brk = some (e + A) := by rw [hr.rest]
  have htlsf : heap₁.tlsf = heap.tlsf := by rw [hr.rest]
  have hold : ∀ y, y + 8 ≤ e → heap₁.at y = heap.at y := fun y hy =>
    load_congr fun k hk => hr.outside _ (.inl (by omega))
  have hacc : ∀ {heap' : Heap}, heap'.mp = heap.mp → heap'.brk = some (e + A) → ∀ y, s ≤ y →
      y + 8 ≤ e + A → heap'.Accessible y 8 := by
    intro heap' hmp' hbrk' y hlow hhigh
    unfold Heap.Accessible sizeofTlsf
    rw [hmp', hbrk', Option.getD_some]
    omega
  have hlb : heap.at (areaEnd (buffer s)) = endOf s front := by
    have hend := h.areaEnd
    rw [endOf_concat, hbuffer] at hend
    exact Nat.add_right_cancel hend
  rw [mergeAreas, if_neg (by rw [hbuffer]; omega)]
  dsimp only
  rw [show buffer s - bhdrOverhead = s from Nat.add_sub_cancel _ _]
  refine outcome_word (hacc hmp hbrk _ (by rw [hsize]; omega) (by rw [hsize]; omega)) ?_
  refine outcome_word (hacc hmp hbrk _ (by omega) (by omega)) ?_
  rw [hold (areaEnd (buffer s)) (by omega), hlb, if_neg (by omega), hbuffer (endOf s front),
    if_pos he.symm]
  -- the area of the old blocks leaves the list, which is empty then
  obtain ⟨heap₂, hheap₂⟩ : ∃ h : Heap,
      h = { heap₁ with tlsf := { heap₁.tlsf with areaHead := 0 } } := ⟨_, rfl⟩
  have hunlink : unlinkArea (buffer s) 0 heap₁ = .ok 0 heap₂ := by
    unfold unlinkArea
    rw [bind_ok (word_ok (hacc hmp hbrk _ (by omega) (by omega))), hold _ (by omega), h.areaNext]
    have hget : getTlsf heap₁ = .ok heap₁.tlsf heap₁ := rfl
    rw [bind_ok hget, if_pos (by rw [htlsf]; exact h.areaHead), hheap₂]
    rfl
  refine outcome_step hunlink ?_
  rw [← hheap₂] at hQ
  have hat₂ : ∀ y, heap₂.at y = heap₁.at y := fun y => by rw [hheap₂]; rfl
  have hmp₂ : heap₂.mp = heap.mp := by rw [hheap₂]; exact hmp
  have hbrk₂ : heap₂.brk = some (e + A) := by rw [hheap₂]; exact hbrk
  refine outcome_word (hacc hmp₂ hbrk₂ _ (by rw [hsize]; omega) (by rw [hsize]; omega)) ?_
  refine outcome_word (hacc hmp₂ hbrk₂ _ (by rw [hsize]; omega) (by rw [hsize]; omega)) ?_
  refine outcome_word (hacc hmp₂ hbrk₂ _ (by rw [hsize]; omega) (by rw [hsize]; omega)) ?_
  rw [hat₂, hat₂, hat₂, hr.block, hr.first, hold (size (endOf s front)) (by rw [hsize]; omega), hl,
    and_tlsfBlockSize hA64 (by omega), and_tlsfBlockSize (by decide) (by decide),
    and_prevFree (by decide)]
  have hsum : A - 64 + sizeofAreaInfo + 2 * bhdrOverhead = A - 16 := by
    unfold sizeofAreaInfo
    omega
  rw [hsum, roundDownSize_eq hA16, or_flag hA16]
  refine outcome_setWord (hacc hmp₂ hbrk₂ _ (by rw [hsize]; omega) (by rw [hsize]; omega)) ?_
  refine outcome_word (hacc hmp₂ hbrk₂ _ (by rw [hsize]; omega) (by rw [hsize]; omega)) ?_
  rw [at_put (headerWord_lt (by omega)), and_tlsfBlockSize hA16 (by omega),
    show getNextBlock (endOf s front + 16) (A - 16) = e + (A - 16) by rw [he]; rfl]
  refine outcome_setWord (hacc hmp₂ hbrk₂ _ (by unfold prevHdr; omega) (by unfold prevHdr; omega)) ?_
  rw [mergeAreas, if_pos rfl]
  exact hQ

theorem freeOf_append_congr {l l' : List Block} (h : freeOf (endOf s front) l = freeOf (endOf s front) l') :
    freeOf s (front ++ l) = freeOf s (front ++ l') := by
  induction front generalizing s with
  | nil => exact h
  | cons b front ih =>
    rw [List.cons_append, List.cons_append, freeOf, freeOf, ih h]

/-- The new area is joined to the old blocks. The last of them has all of it, and is in use. -/
structure Joined (heap heap' : Heap) (s : Nat) (front : List Block) (A : Nat) : Prop where
  mp : heap'.mp = heap.mp
  brk : heap'.brk = some (endOf s front + 16 + A)
  tlsf : heap'.tlsf = heap.tlsf
  dataEnd : heap'.dataEnd = heap.dataEnd
  memory : ∀ k, k < endOf s front + 8 → k < s + 16 ∨ s + 32 ≤ k → heap'.memory k = heap.memory k
  block : heap'.at (size (endOf s front)) = headerWord (A - 16) false (lastFree none s front).isSome
  last : heap'.at (size (endOf s front + A)) = headerWord 0 false true
  lastPrev : heap'.at (prevHdr (endOf s front + A)) = endOf s front
  areaEnd : heap'.at (areaEnd (buffer s)) = endOf s front + A
  areaNext : heap'.at (areaNext (buffer s)) = 0

/-- What `add_new_area` does before it frees the block. -/
theorem outcome_join (h : Sound heap s (front ++ [⟨0, false⟩]))
    (hfront : front.head? = some ⟨sizeofAreaInfo, false⟩) (hA : blockAlign ∣ A) (hlarge : 96 ≤ A)
    (hbound : endOf s front + 16 + A ≤ heap.mp + maxSize) (hfuel : 2 ≤ fuel)
    {Q : Nat → Heap → Prop} (hQ : ∀ heap', Joined heap heap' s front A → Outcome (do
      freeEx (buffer (endOf s front))
      return (← word (size (endOf s front))) &&& tlsfBlockSize) Q (fun _ _ => False) heap') :
    Outcome (addNewArea fuel (endOf s front + 16) A) Q (fun _ _ => False)
      { heap with brk := some (endOf s front + 16 + A) } := by
  have hhdr : bhdrOverhead = 16 := rfl
  have hsize : ∀ a, size a = a + 8 := fun _ => rfl
  have hprevHdr : ∀ a, prevHdr a = a := fun _ => rfl
  have hareaEnd : areaEnd (buffer s) = s + 16 := rfl
  have hareaNext : areaNext (buffer s) = s + 24 := rfl
  have hroom := h.tidy.room
  have hstart := hroom.start
  rw [poolStart_eq] at hstart
  have hword := hroom.word
  have hle : s + 32 ≤ endOf s front := by
    cases front with
    | nil => cases hfront
    | cons b l =>
      cases hfront
      exact (le_stopOf : s + 32 ≤ endOf (s + 32) l)
  have hl : blockAlign ∣ endOf s front := hroom.dvd placed_middle
  have hedvd : blockAlign ∣ endOf s front + 16 := Nat.dvd_add hl (by decide)
  generalize he : endOf s front + 16 = e at *
  have hmax : A < maxSize := by omega
  unfold addNewArea
  -- the new area is cleared
  have hclear : onBytes e A (fun memory => Memset.memset memory e 0 A)
      { heap with brk := some (e + A) } = .ok ⟨⟩
        { heap with brk := some (e + A), memory := filled heap.memory e A 0 } := by
    rw [onBytes_ok ⟨by unfold sizeofTlsf; dsimp only; omega, by rw [Option.getD_some]⟩,
      memset_aligned (Nat.dvd_trans (by decide) hedvd) (by unfold maxSize at hmax; omega)]
  refine outcome_step hclear (outcome_step (r := heap.tlsf) rfl ?_)
  refine (outcome_processArea ⟨by unfold sizeofTlsf; dsimp only; omega, by
    rw [Option.getD_some]⟩ hA hlarge hmax (by omega)).seq ?_
  rintro ib heap₁ ⟨rfl, hr⟩
  have hr' : Processed { heap with brk := some (ib + A) } heap₁ ib A :=
    ⟨hr.rest, hr.first, hr.block, hr.last, hr.lastPrev, hr.areaEnd, hr.areaNext,
      fun k hk => (hr.outside k hk).trans (filled_outside hk)⟩
  have hmp : heap₁.mp = heap.mp := by rw [hr.rest]
  have hbrk : heap₁.brk = some (ib + A) := by rw [hr.rest]
  have htlsf : heap₁.tlsf = heap.tlsf := by rw [hr.rest]
  have hacc : ∀ {heap' : Heap}, heap'.mp = heap.mp → heap'.brk = some (ib + A) → ∀ y, s ≤ y →
      y + 8 ≤ ib + A → heap'.Accessible y 8 := by
    intro heap' hmp' hbrk' y hlow hhigh
    unfold Heap.Accessible sizeofTlsf
    rw [hmp', hbrk', Option.getD_some]
    omega
  refine outcome_word (hacc hmp hbrk _ (by rw [hsize]; omega) (by rw [hsize]; omega)) ?_
  rw [hr.first, and_tlsfBlockSize (by decide) (by decide),
    show getNextBlock (buffer ib) sizeofAreaInfo = ib + 32 from rfl]
  refine outcome_word (hacc hmp hbrk _ (by rw [hsize]; omega) (by rw [hsize]; omega)) ?_
  rw [hr.block, and_tlsfBlockSize (Nat.dvd_sub hA (by decide)) (by omega), getNextBlock_eq,
    show ib + 32 + (bhdrOverhead + (A - 64)) = ib + (A - 16) by omega, h.areaHead]
  rw [Outcome.bind_iff]
  refine outcome_mergeAreas h hfront hA hlarge hmax he.symm hr' hfuel ?_
  dsimp only
  have hend : ib + (A - 16) = endOf s front + A := by omega
  rw [hend]
  obtain ⟨heap₃, hheap₃⟩ : ∃ h : Heap,
      h = ({ heap₁ with tlsf := { heap₁.tlsf with areaHead := 0 } }.put (size (endOf s front))
        (headerWord (A - 16) false (lastFree none s front).isSome)).put
          (prevHdr (endOf s front + A)) (endOf s front) := ⟨_, rfl⟩
  rw [← hheap₃]
  have hmp₃ : heap₃.mp = heap.mp := by rw [hheap₃]; exact hmp
  have hbrk₃ : heap₃.brk = some (ib + A) := by rw [hheap₃]; exact hbrk
  refine outcome_step (r := heap₃.tlsf) (t := heap₃) rfl ?_
  rw [show heap₃.tlsf.areaHead = 0 by rw [hheap₃]; rfl]
  refine outcome_setWord (hacc hmp₃ hbrk₃ _ (by omega) (by omega)) ?_
  refine outcome_setWord (hacc hmp₃ hbrk₃ _ (by omega) (by omega)) ?_
  refine outcome_step rfl (hQ _ ?_)
  -- the links between the areas are in other words than the headers
  have hat : ∀ y, (y + 8 ≤ s + 16 ∨ s + 32 ≤ y) → Heap.at ({ (heap₃.put (areaNext (buffer s)) 0).put
      (areaEnd (buffer s)) (endOf s front + A) with tlsf := { heap₃.tlsf with areaHead := buffer s } } :
        Heap) y = heap₃.at y := by
    intro y hy
    change ((Heap.put _ _ _).put _ _).at y = _
    rw [at_put_of_disjoint (by omega), at_put_of_disjoint (by omega)]
  constructor
  · exact hmp₃
  · exact he ▸ hbrk₃
  · rw [hheap₃]
    change { heap₁.tlsf with areaHead := buffer s } = heap.tlsf
    rw [htlsf, ← h.areaHead]
  · rw [hheap₃]
    change heap₁.dataEnd = _
    rw [hr.rest]
  · intro k hk hinfo
    rw [hheap₃]
    change (((Heap.put _ _ _).put _ _).put _ _).memory k = _
    rw [put_outside (by omega), put_outside (by omega), put_outside (by rw [hprevHdr]; omega),
      put_outside (by rw [hsize]; omega)]
    exact hr'.outside k (.inl (by omega))
  · refine (hat _ (by rw [hsize]; omega)).trans ?_
    rw [hheap₃, at_put_of_disjoint (by rw [hsize, hprevHdr]; omega),
      at_put (headerWord_lt (by omega))]
  · refine (hat _ (by rw [hsize]; omega)).trans ?_
    rw [hheap₃, at_put_of_disjoint (by rw [hsize, hprevHdr]; omega),
      at_put_of_disjoint (by rw [hsize, hsize]; omega), ← hend]
    exact hr.last
  · refine (hat _ (by rw [hprevHdr]; omega)).trans ?_
    rw [hheap₃, at_put (by omega)]
  · exact at_put (by omega)
  · change ((Heap.put _ _ _).put _ _).at _ = _
    rw [at_put_of_disjoint (by omega), at_put (by decide)]

theorem endOf_joined (f : Bool) (hlarge : 96 ≤ A) :
    endOf s (front ++ [⟨A - 16, f⟩, ⟨0, false⟩]) = endOf s front + 16 + A := by
  unfold endOf
  rw [stopOf_append]
  change stopOf Block.length s front + (16 + (A - 16)) + 16 = _
  omega

section

variable (hj : Joined heap heap' s front A) (h : Sound heap s (front ++ [⟨0, false⟩]))
  (hfront : front.head? = some ⟨sizeofAreaInfo, false⟩) (hA : blockAlign ∣ A) (hlarge : 96 ≤ A)

include hj h hfront hA hlarge

theorem Joined.room (hbound : endOf s front + 16 + A ≤ heap.mp + maxSize) :
    Room heap' s (front ++ ⟨A - 16, false⟩ :: [⟨0, false⟩]) := by
  have hroom := h.tidy.room
  have hfront0 : front ≠ [] := by
    rintro rfl
    cases hfront
  have hend : endOf s (front ++ [⟨A - 16, false⟩, ⟨0, false⟩]) = endOf s front + 16 + A :=
    endOf_joined false hlarge
  refine ⟨by rw [hj.mp]; exact hroom.start, by rw [hj.mp]; exact hroom.mp_ne,
    by rw [hj.mp]; exact hroom.mp_dvd, by rw [hend]; exact hj.brk, by rw [hend, hj.mp]; exact hbound,
    by rw [hj.mp]; exact hroom.word, fun b hb => ?_, fun b hb => ?_, ?_, ?_⟩
  · rcases List.mem_append.mp hb with hb | hb
    · exact hroom.aligned b (List.mem_append_left _ hb)
    · rcases List.mem_cons.mp hb with rfl | hb
      · exact Nat.dvd_sub hA (by decide)
      · cases List.mem_singleton.mp hb
        exact Nat.dvd_zero _
  · have hfull := hroom.full
    rw [List.dropLast_concat] at hfull
    rw [List.dropLast_append_of_ne_nil (List.cons_ne_nil _ _)] at hb
    rcases List.mem_append.mp hb with hb | hb
    · exact hfull b hb
    · cases List.mem_singleton.mp hb
      change A - 16 ≠ 0
      omega
  · rw [List.head?_append_of_ne_nil _ hfront0]
    exact hfront
  · rw [List.getLast?_append_cons]
    rfl

omit hA hlarge in
/-- The header of an old block is none of the bytes that change. -/
theorem Joined.header {x : Nat} {b : Block} (hx : (x, b) ∈ placedAt s front) {k : Nat} (hlow : x ≤ k)
    (hhigh : k < x + bhdrOverhead) : heap'.memory k = heap.memory k := by
  have hhdr : bhdrOverhead = 16 := rfl
  have hbounds : s ≤ x ∧ x + (bhdrOverhead + b.size) ≤ endOf s front := placed_bounds hx
  have hinfo : (s, (⟨sizeofAreaInfo, false⟩ : Block)) ∈ placedAt s front := by
    cases front with
    | nil => cases hfront
    | cons c l =>
      cases hfront
      exact List.mem_cons_self
  have hlen : Block.length ⟨sizeofAreaInfo, false⟩ = 32 := rfl
  refine hj.memory k (by omega) ?_
  rcases placed_disjoint hinfo hx with heq | hle | hle
  · cases heq
    omega
  · omega
  · have hlen' : b.length = bhdrOverhead + b.size := rfl
    omega

theorem Joined.loose (hbound : endOf s front + 16 + A ≤ heap.mp + maxSize) :
    Loose heap' heap' s front ⟨A - 16, false⟩ (A - 16) 0 (some (endOf s front)) [⟨0, false⟩] := by
  have hhdr : bhdrOverhead = 16 := rfl
  have hprevHdr : ∀ a, prevHdr a = a := fun _ => rfl
  have hend : endOf s front + (bhdrOverhead + (A - 16)) = endOf s front + A := by omega
  obtain ⟨hheaders, hlast, -⟩ := headers_append.mp h.tidy.headers
  refine ⟨hj.room h hfront hA hlarge hbound,
    hheaders.congr fun x b hx k hlow hhigh => hj.header h hfront hx hlow hhigh,
    ⟨hj.block, fun q hq => ?_⟩, ⟨⟨?_, fun q hq => ?_⟩, trivial⟩, Nat.zero_le _, .refl⟩
  · rw [← hlast.prevWord q hq]
    have hle : s + 32 ≤ endOf s front := by
      cases front with
      | nil => cases hfront
      | cons b l =>
        cases hfront
        exact (le_stopOf : s + 32 ≤ endOf (s + 32) l)
    exact load_congr fun k hk => hj.memory _ (by rw [hprevHdr]; omega) (by rw [hprevHdr]; omega)
  · rw [hend]
    exact hj.last
  · rw [hend]
    exact hj.lastPrev.trans (Option.some.inj hq)

omit hA in
/-- The links are in free blocks, behind the first block and in front of the last one. -/
theorem Joined.binned : Binned heap' (freeOf s (front ++ ⟨A - 16, false⟩ :: [⟨0, false⟩])) := by
  have hhdr : bhdrOverhead = 16 := rfl
  have hroom := h.tidy.room
  have hsame : freeOf s (front ++ ⟨A - 16, false⟩ :: [⟨0, false⟩]) =
      freeOf s (front ++ [⟨0, false⟩]) := freeOf_append_congr rfl
  rw [hsame]
  refine h.tidy.binned.congr hj.tlsf (fun a ha => ?_) fun k hk => ?_
  · obtain ⟨hlow, hhigh⟩ := ha
    rw [hroom.brk, Option.getD_some, endOf_concat] at hhigh
    refine ⟨by rw [hj.mp]; exact hlow, ?_⟩
    rw [hj.brk, Option.getD_some]
    omega
  · have hfree := hk
    obtain ⟨a, ha, hlow, hhigh⟩ := hk
    obtain ⟨m, hm⟩ := Option.isSome_iff_exists.mp ha
    have hmem := freeOf_eq_some_iff.mp hm
    have hbounds : s ≤ a ∧ a + (bhdrOverhead + m) ≤ endOf s (front ++ [⟨0, false⟩]) :=
      placed_bounds hmem
    have hlastp : (endOf s front, (⟨0, false⟩ : Block)) ∈ placedAt s (front ++ [⟨0, false⟩]) :=
      placed_middle
    have hinfo : (s, (⟨sizeofAreaInfo, false⟩ : Block)) ∈ placedAt s (front ++ [⟨0, false⟩]) := by
      cases front with
      | nil => cases hfront
      | cons c l =>
        cases hfront
        exact List.mem_cons_self
    refine hj.memory k ?_ ?_
    · by_contra hge
      rw [endOf_concat] at hbounds
      have hlen : Block.length ⟨m, true⟩ = bhdrOverhead + m := rfl
      change a + 16 ≤ k at hlow
      change k < a + 16 + 16 at hhigh
      rcases placed_disjoint hlastp hmem with heq | hle | hle
      · cases heq
      · have hfull := hroom.free (placed_mem hmem) rfl
        dsimp only at hfull
        have hlen' : Block.length ⟨0, false⟩ = 16 := rfl
        omega
      · exact hroom.not_linkByte hlastp (by omega) (.inl (by omega)) hfree
    · by_contra hin
      exact hroom.not_linkByte hinfo (by omega)
        (.inr ⟨rfl, by change k < s + 32; omega⟩) hfree

end

theorem outcome_addNewArea (h : Sound heap s (front ++ [⟨0, false⟩]))
    (hfront : front.head? = some ⟨sizeofAreaInfo, false⟩) (hA : blockAlign ∣ A) (hlarge : 96 ≤ A)
    {e : Nat} (he : e = endOf s front + 16) (hbound : e + A ≤ heap.mp + maxSize)
    (hfuel : 2 ≤ fuel) :
    Outcome (addNewArea fuel e A) (fun _ heap' =>
      Sound heap' s (coalesce (front ++ [⟨A - 16, true⟩, ⟨0, false⟩])) ∧
      heap'.mp = heap.mp ∧ heap'.dataEnd = heap.dataEnd ∧
      ∀ k, s + 32 ≤ k → UserByte s front k → heap'.memory k = heap.memory k)
      (fun _ _ => False) { heap with brk := some (e + A) } := by
  subst he
  have hfront0 : front ≠ [] := by
    rintro rfl
    cases hfront
  refine outcome_join h hfront hA hlarge hbound hfuel fun heap₁ hj => ?_
  have hloose := hj.loose h hfront hA hlarge hbound
  refine (outcome_freeEx_of_loose hloose (hj.binned h hfront hlarge) hfront0
    (by omega) h.tidy.spaced.left_of_append (List.isChain_singleton _)).seq ?_
  rintro ⟨⟩ heap₂ ⟨htidy, hsame⟩
  refine outcome_word (hsame.accessible_iff.mpr (hloose.header_accessible (.inl rfl))) ?_
  change _ ∧ _
  have huser : ∀ k, UserByte s front k → UserByte s (front ++ ⟨A - 16, true⟩ :: [⟨0, false⟩]) k :=
    fun k hk => userByte_append.mpr (.inl hk)
  have hinfo : ∀ k, s + 16 ≤ k → k < s + 32 →
      UserByte s (front ++ ⟨A - 16, true⟩ :: [⟨0, false⟩]) k := fun k hlow hhigh =>
    huser k (info_byte hfront hlow hhigh)
  have hareaEnd : areaEnd (buffer s) = s + 16 := rfl
  have hareaNext : areaNext (buffer s) = s + 24 := rfl
  refine ⟨⟨htidy, hsame.areaHead.trans (by rw [hj.tlsf]; exact h.areaHead), ?_, ?_⟩,
    hsame.mp.trans hj.mp, hsame.dataEnd.trans hj.dataEnd, fun k hlow hk => ?_⟩
  · rw [endOf_coalesce, hsame.at_eq fun k hlow hhigh => hinfo k (by omega) (by omega), hj.areaEnd]
    refine Eq.trans ?_ (endOf_joined true hlarge).symm
    change endOf s front + A + 16 = _
    omega
  · rw [← hj.areaNext]
    exact hsame.at_eq fun k hlow hhigh => hinfo k (by omega) (by omega)
  · rw [hsame.memory k (huser k hk)]
    exact hj.memory k (by have := hk.bounds; omega) (.inr hlow)

/-! ## The first area -/

/-- There is no pool yet. The header of the pool to come is not one already. -/
structure Fresh (heap : Heap) : Prop where
  mp : heap.mp = 0
  brk : heap.brk = none
  dataEnd : 0 < heap.dataEnd
  word : heap.dataEnd + 15 + maxSize ≤ 2 ^ 64
  signature : heap.tlsf.tlsfSignature ≠ tlsfSignature

/-- The lists do not tell which areas there are. -/
theorem Tidy.areaHead (h : Tidy heap s blocks) (a : Nat) :
    Tidy { heap with tlsf := { heap.tlsf with areaHead := a } } s blocks := by
  obtain ⟨hroom, hheaders, ⟨bins, hbins⟩, hspaced⟩ := h
  refine ⟨⟨hroom.start, hroom.mp_ne, hroom.mp_dvd, hroom.brk, hroom.bound, hroom.word,
    hroom.aligned, hroom.full, hroom.first, hroom.last⟩, hheaders.congr fun _ _ _ _ _ _ => rfl,
    ⟨bins, hbins.linked, hbins.nodup, hbins.mem_iff,
      ⟨hbins.mapped.slBitmap, hbins.mapped.flBitmap, hbins.mapped.flBitmap_lt⟩, fun a n ha => ?_⟩,
    hspaced⟩
  obtain ⟨h1, h2, h3, h4⟩ := hbins.listable a n ha
  exact ⟨h1, h2, h3, h4⟩

/-- The bytes of the first free block. -/
def firstSize : Nat := defaultAreaSize - 6272 - 64

theorem binned_zero (hmatrix : heap.tlsf.matrix = Header.zero.matrix)
    (hsl : heap.tlsf.slBitmap = Header.zero.slBitmap)
    (hfl : heap.tlsf.flBitmap = Header.zero.flBitmap) : Binned heap fun _ => none := by
  refine ⟨fun _ _ => [], fun i j => ?_, fun i j => List.nodup_nil, fun i j a => ?_,
    ⟨fun i j => ?_, fun i => ?_, fun k hk => ?_⟩, fun a n ha => by cases ha⟩
  · rw [hmatrix]
    rfl
  · exact iff_of_false List.not_mem_nil fun ⟨n, hn, _⟩ => by cases hn
  · rw [hsl]
    refine iff_of_false (fun h => ?_) (not_not.mpr rfl)
    change (0#32).getLsbD j = true at h
    rw [BitVec.getLsbD_zero] at h
    cases h
  · rw [hsl, hfl]
    refine iff_of_false (fun h => ?_) (not_not.mpr rfl)
    change (0#32).getLsbD i = true at h
    rw [BitVec.getLsbD_zero] at h
    cases h
  · rw [hfl] at hk
    change (0#32).getLsbD k = true at hk
    rw [BitVec.getLsbD_zero] at hk
    cases hk

theorem outcome_initMemoryPool {area : Nat} (hbrk : heap.brk = some (area + 10240))
    (hsig : heap.tlsf.tlsfSignature ≠ tlsfSignature) (hdvd : blockAlign ∣ area) (hpos : 16 ≤ area)
    (hword : area + maxSize ≤ 2 ^ 64) :
    Outcome (initMemoryPool 10240 area) (fun _ heap' => ∃ s,
      Sound heap' s [⟨sizeofAreaInfo, false⟩, ⟨firstSize, true⟩, ⟨0, false⟩])
      (fun _ _ => False) heap := by
  unfold initMemoryPool
  rw [if_neg (by unfold sizeofTlsf bhdrOverhead sizeofBhdr minBlockSize; omega),
    if_neg (by unfold blockAlign at hdvd; omega)]
  have hstart : getNextBlock area (roundUpSize sizeofTlsf) = area + 6272 := poolStart_eq area
  rw [hstart, show roundDownSize (minus 10240 sizeofTlsf) = 3968 by decide]
  generalize hs : area + 6272 = s
  refine outcome_step (t := { heap with mp := area }) rfl ?_
  refine outcome_step (r := heap.tlsf) rfl ?_
  rw [if_neg hsig]
  refine outcome_step (t := { heap with
    mp := area, tlsf := { Header.zero with tlsfSignature := Tlsf.tlsfSignature } }) rfl ?_
  have hsdvd : blockAlign ∣ s := hs ▸ Nat.dvd_add hdvd (by decide)
  have hacc : ∀ {heap' : Heap}, heap'.mp = area → heap'.brk = some (area + 10240) → ∀ y n, s ≤ y →
      y + n ≤ s + 3968 → heap'.Accessible y n := by
    intro heap' hmp hbrk' y n hlow hhigh
    unfold Heap.Accessible sizeofTlsf
    rw [hmp, hbrk', Option.getD_some]
    omega
  have hpool : Heap.Accessible { heap with
      mp := area, tlsf := { Header.zero with tlsfSignature := Tlsf.tlsfSignature } } s 3968 := by
    refine hacc ?_ ?_ _ _ (Nat.le_refl _) (Nat.le_refl _)
    · rfl
    · exact hbrk
  refine (outcome_processArea hpool (by decide) (by decide) (by decide)
    (by unfold maxSize at hword; omega)).seq ?_
  rintro ib heap₁ ⟨rfl, hr⟩
  have hmp : heap₁.mp = area := by rw [hr.rest]
  have hbrk₁ : heap₁.brk = some (area + 10240) := by
    rw [hr.rest]
    exact hbrk
  have htlsf : heap₁.tlsf = { Header.zero with tlsfSignature := Tlsf.tlsfSignature } := by
    rw [hr.rest]
  refine outcome_word (hacc hmp hbrk₁ _ _ (by unfold size; omega) (by unfold size; omega)) ?_
  rw [hr.first, and_tlsfBlockSize (by decide) (by decide),
    show getNextBlock (buffer ib) sizeofAreaInfo = ib + 32 from rfl]
  have hroom : Room heap₁ ib ([⟨sizeofAreaInfo, false⟩] ++ ⟨firstSize, false⟩ :: [⟨0, false⟩]) := by
    refine ⟨by rw [hmp, poolStart_eq]; exact hs.symm, by rw [hmp]; omega, by rw [hmp]; exact hdvd, ?_, ?_,
      by rw [hmp]; omega, by decide, by decide, rfl, rfl⟩
    · rw [hbrk₁, ← hs]
      rfl
    · rw [hmp, ← hs]
      change area + 6272 + 32 + 3920 + 16 ≤ _
      unfold maxSize
      omega
  have hloose : Loose heap₁ heap₁ ib [⟨sizeofAreaInfo, false⟩] ⟨firstSize, false⟩ firstSize
      0 (some (ib + 32)) [⟨0, false⟩] := by
    refine ⟨hroom, ⟨⟨hr.first, fun q hq => by cases hq⟩, trivial⟩, ⟨hr.block, fun q hq => by cases hq⟩,
      ⟨⟨hr.last, fun q hq => ?_⟩, trivial⟩, Nat.zero_le _, .refl⟩
    exact hr.lastPrev.trans (Option.some.inj hq)
  have hbinned : Binned heap₁
      (freeOf ib ([⟨sizeofAreaInfo, false⟩] ++ ⟨firstSize, false⟩ :: [⟨0, false⟩])) :=
    binned_zero (by rw [htlsf]) (by rw [htlsf]) (by rw [htlsf])
  refine (outcome_freeEx_of_loose hloose hbinned (List.cons_ne_nil _ _) (by decide)
    (List.isChain_singleton _) (List.isChain_singleton _)).seq ?_
  rintro ⟨⟩ heap₂ ⟨htidy, hsame⟩
  refine outcome_step (t := { heap₂ with tlsf := { heap₂.tlsf with areaHead := buffer ib } })
    rfl ?_
  refine outcome_word (hacc (hsame.mp.trans hmp) (hsame.brk.trans hbrk₁) _ _
    (by unfold size; omega) (by unfold size; omega)) ?_
  have hinfo : ∀ y, y = areaEnd (buffer ib) ∨ y = areaNext (buffer ib) → heap₂.at y = heap₁.at y := by
    intro y hy
    refine hsame.at_eq fun k hlow hhigh => ?_
    have hbuf : buffer ib = ib + 16 := rfl
    refine info_byte (s := ib) rfl ?_ ?_
    · unfold areaEnd areaNext at hy
      omega
    · unfold areaEnd areaNext at hy
      unfold sizeofAreaInfo
      omega
  have hblocks : coalesce ([⟨sizeofAreaInfo, false⟩] ++ ⟨firstSize, true⟩ :: [⟨0, false⟩]) =
      [⟨sizeofAreaInfo, false⟩, ⟨firstSize, true⟩, ⟨0, false⟩] := rfl
  rw [hblocks] at htidy
  refine ⟨ib, htidy.areaHead (buffer ib), rfl, ?_, ?_⟩
  · change buffer (heap₂.at (areaEnd (buffer ib))) = _
    rw [hinfo _ (.inl rfl), hr.areaEnd]
    rfl
  · change heap₂.at (areaNext (buffer ib)) = 0
    rw [hinfo _ (.inr rfl), hr.areaNext]

/-- The first call of `malloc` or `calloc` makes the pool. -/
theorem outcome_firstArea (h : Fresh heap) :
    Outcome firstArea (fun _ heap' => ∃ s,
      Sound heap' s [⟨sizeofAreaInfo, false⟩, ⟨firstSize, true⟩, ⟨0, false⟩])
      (fun _ _ => False) heap := by
  obtain ⟨area, harea⟩ : ∃ a, a = (heap.dataEnd + (blockAlign - 1)) / blockAlign * blockAlign :=
    ⟨_, rfl⟩
  have hpos := h.dataEnd
  have hword := h.word
  have hbounds : 16 ≤ area ∧ area ≤ heap.dataEnd + 15 := by
    unfold blockAlign at harea
    omega
  have hget : (get : Program Heap) heap = .ok heap heap := rfl
  unfold firstArea
  refine outcome_step hget ?_
  rw [if_pos h.mp]
  dsimp only
  rw [show (if sizeofTlsf + bhdrOverhead * 8 > defaultAreaSize then sizeofTlsf + bhdrOverhead * 8
    else defaultAreaSize) = 10240 from rfl]
  have hnew : getNewArea 10240 heap = .ok area { heap with brk := some (area + 10240) } := by
    unfold getNewArea
    rw [bind_ok hget, h.brk, ← harea]
    rfl
  refine outcome_step hnew ?_
  refine (outcome_initMemoryPool ?_ ?_ (harea ▸ Nat.dvd_mul_left _ _) hbounds.1 (by omega)).seq
    fun _ _ hsound => hsound
  · rfl
  · exact h.signature

end

end Egos.Libc.Tlsf
