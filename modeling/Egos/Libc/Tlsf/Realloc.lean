import Egos.Libc.Tlsf.Malloc

/-!
# `free_ex`, `realloc_ex` and `calloc_ex` on a sound pool

A block that is used gets smaller, or larger if there is room behind it, or it moves.
-/
namespace Egos.Libc.Tlsf

open Egos.Disk (Stop)
open Egos.Lib

set_option autoImplicit false

section

variable {heap₀ heap heap' : Heap} {s n m a k x fuel size' held : Nat} {p : Option Nat}
  {front back blocks blocks' : List Block} {b c shown : Block}

/-! ## The rest of a block -/

/-- If the rest is too small for a block, all must be in order already. -/
theorem outcome_trim (h : Loose heap₀ heap s front shown n held p (c :: back))
    (hbin : Binned heap (freeOf s (front ++ ⟨n, false⟩ :: c :: back))) (hfront : front ≠ [])
    (hle : size' ≤ n) (hheld : held ≤ size') (hdvd : blockAlign ∣ size')
    (hne : size' ≠ 0) (hshown : blockAlign ∣ shown.size)
    (hwhole : ¬ sizeofBhdr ≤ n - size' → shown = ⟨n, false⟩ ∧ p = none)
    (hfs : Spaced front) (hbs : Spaced (c :: back)) (hc : c.free = false) :
    Outcome (trim (endOf s front) size' (n - size') (endOf s front + (bhdrOverhead + n)))
      (fun _ heap' => Tidy heap' s (front ++ (taken n size' ++ c :: back)) ∧
        Same (Kept s front n held (c :: back)) heap₀ heap') (fun _ _ => False) heap := by
  have hhdr : bhdrOverhead = 16 := rfl
  have hn := h.small
  have hspaced : Spaced (front ++ (taken n size' ++ c :: back)) := taken_spaced hfs hbs hc
  unfold trim
  unfold taken at hspaced ⊢
  by_cases hsplit : sizeofBhdr ≤ n - size'
  · rw [if_pos hsplit] at hspaced ⊢
    rw [if_pos hsplit, minus_of_le (by unfold sizeofBhdr at hsplit; omega)
      (by unfold maxSize at hn; omega)]
    simp only [getNextBlock_eq]
    obtain ⟨t, ht⟩ : ∃ t, t = n - size' - bhdrOverhead := ⟨_, rfl⟩
    rw [← ht] at hspaced ⊢
    unfold sizeofBhdr at hsplit
    obtain rfl : n = size' + (bhdrOverhead + t) := by omega
    refine outcome_rest h hbin hdvd (by omega) hheld fun heap₂ h₂ hbin₂ hrest hprev => ?_
    refine outcome_word (h₂.behind_accessible (.inl rfl)) ?_
    rw [h₂.backHeaders.1.sizeWord, or_prevFree h.behind_aligned]
    refine outcome_setWord (h₂.behind_accessible (.inl rfl)) ?_
    have h₃ := h₂.put_behind (v := headerWord c.size c.free true)
      (q := some (endOf s front + (bhdrOverhead + size'))) (.inl rfl)
      ⟨at_put (headerWord_lt h.behind_small), fun q hq =>
        ((at_put_of_disjoint (by unfold prevHdr size; omega)).trans hprev).trans (Option.some.inj hq)⟩
    have hbin₃ := h₂.room.put_binned (v := headerWord c.size c.free true) hbin₂ placed_behind
      (Nat.le_add_right _ 8) (.inl (Nat.le_refl _))
    have h₄ := h₃.split hfront (List.cons_ne_nil _ _) hdvd hne (by omega)
      ⟨(at_put_of_disjoint (by unfold size; omega)).trans hrest, fun q hq => by cases hq⟩ rfl hheld
    refine (outcome_place h₄ hbin₃ hshown hspaced).post ?_
    rintro ⟨⟩ heap₅ ⟨htidy, hsame⟩
    exact ⟨htidy, hsame.mono fun k hk => kept_split.mpr hk⟩
  · rw [if_neg hsplit] at hspaced ⊢
    rw [if_neg hsplit]
    obtain ⟨rfl, rfl⟩ := hwhole hsplit
    exact ⟨⟨h.room, h.headers, hbin, hspaced⟩, h.same⟩

/-! ## Other blocks -/

theorem used_others : Used s front x k ∨ Used (endOf s front + (bhdrOverhead + n)) back x k ↔
    Used s (front ++ ⟨n, false⟩ :: back) x k ∧ x ≠ endOf s front := by
  have hhdr : bhdrOverhead = 16 := rfl
  rw [used_append, used_cons]
  constructor
  · rintro (h | h)
    · have hbounds : s ≤ x ∧ x + (bhdrOverhead + k) ≤ endOf s front := placed_bounds h.2
      exact ⟨.inl h, by omega⟩
    · have hbounds := (placed_bounds h.2).1
      exact ⟨.inr (.inr h), by omega⟩
  · rintro ⟨h | ⟨-, hx, -⟩ | h, hne⟩
    · exact .inl h
    · exact absurd hx hne
    · exact .inr h

/-- A byte of a used block that does not start at `a`. -/
def OtherByte (s : Nat) (blocks : List Block) (a k : Nat) : Prop :=
  ∃ x n, Used s blocks x n ∧ x ≠ a ∧ buffer x ≤ k ∧ k < buffer x + n

theorem kept_of_other (h : OtherByte s (front ++ ⟨n, false⟩ :: back) (endOf s front) k) :
    Kept s front n held back k := by
  obtain ⟨x, m, hx, hne, hbyte⟩ := h
  rcases used_others.mpr ⟨hx, hne⟩ with h | h
  · exact .inl ⟨x, m, h, hbyte⟩
  · exact .inr (.inl ⟨x, m, h, hbyte⟩)

theorem exists_middle (h : Sound heap s blocks) (hu : Used s blocks a n) (ha : a ≠ s) :
    ∃ front c back, blocks = front ++ ⟨n, false⟩ :: c :: back ∧ a = endOf s front ∧ front ≠ [] ∧
      front.head? = some ⟨sizeofAreaInfo, false⟩ ∧ Spaced front ∧ Spaced (c :: back) := by
  obtain ⟨hn, hmem⟩ := hu
  obtain ⟨front, back, rfl, rfl⟩ := placed_split hmem
  have hfront : front ≠ [] := by
    rintro rfl
    exact ha rfl
  obtain ⟨c, back, rfl⟩ := List.exists_cons_of_ne_nil (h.tidy.room.back_ne_nil hn)
  have hfirst := h.tidy.room.first
  rw [List.head?_append_of_ne_nil _ hfront] at hfirst
  obtain ⟨hfs, hbs⟩ := List.isChain_split.mp h.tidy.spaced
  exact ⟨front, c, back, rfl, rfl, hfront, hfirst, hfs.left_of_append,
    (List.isChain_cons_cons.mp hbs).2⟩

/-! ## `free_ex` -/

/-- The pool has a block less. -/
structure Freed (heap heap' : Heap) (s : Nat) (blocks blocks' : List Block) (a : Nat) : Prop where
  sound : Sound heap' s blocks'
  used : ∀ x k, Used s blocks' x k ↔ Used s blocks x k ∧ x ≠ a
  same : Same (OtherByte s blocks a) heap heap'

theorem outcome_freeEx (h : Sound heap s blocks) (hu : Used s blocks a n) (ha : a ≠ s) :
    Outcome (freeEx (buffer a)) (fun _ heap' => ∃ blocks', Freed heap heap' s blocks blocks' a)
      (fun _ _ => False) heap := by
  obtain ⟨front, c, back, rfl, rfl, hfront, hfirst, hfs, hbs⟩ := exists_middle h hu ha
  have hn := hu.1
  refine (outcome_freeEx_of_loose (h.tidy.loose hfront hn (Nat.zero_le n)) h.tidy.binned hfront hn
    hfs hbs).post ?_
  rintro ⟨⟩ heap' ⟨htidy, hsame⟩
  have haround : ∀ k, UserByte s front k → UserByte s (front ++ ⟨n, true⟩ :: c :: back) k :=
    fun k hk => userByte_append.mpr (.inl hk)
  have hend : endOf s (coalesce (front ++ ⟨n, true⟩ :: c :: back)) =
      endOf s (front ++ ⟨n, false⟩ :: c :: back) := by
    rw [endOf_coalesce]
    unfold endOf
    rw [stopOf_append, stopOf_append]
    rfl
  refine ⟨_, h.of_same htidy hsame (fun k hlow hhigh => haround k (info_byte hfirst hlow hhigh)) hend,
    fun x k => ?_, hsame.mono fun k hk => ?_⟩
  · rw [used_coalesce, used_free_block, used_others]
  · refine userByte_around.mpr ?_
    rcases (kept_of_other hk : Kept s front n 0 (c :: back) k) with hk | hk | hk
    · exact .inl hk
    · exact .inr hk
    · omega

/-! ## `realloc_ex` -/

/-- The block at `a` has `m` bytes now, and the first `held` ones are as they were. -/
structure Resized (heap heap' : Heap) (s : Nat) (blocks blocks' : List Block) (a m held : Nat) :
    Prop where
  sound : Sound heap' s blocks'
  used : ∀ x k, Used s blocks' x k ↔ (Used s blocks x k ∧ x ≠ a) ∨ (x = a ∧ k = m)
  same : Same (fun k => OtherByte s blocks a k ∨ buffer a ≤ k ∧ k < buffer a + held) heap heap'

theorem resized_of_taken {t : Nat} {rest : List Block}
    (h : Sound heap s (front ++ ⟨n, false⟩ :: rest)) (hfront : front.head? =
      some ⟨sizeofAreaInfo, false⟩) (hrest : endOf (endOf s front + (bhdrOverhead + n)) rest =
        endOf (endOf s front + (bhdrOverhead + t)) back)
    (hused : ∀ x k, Used (endOf s front + (bhdrOverhead + n)) rest x k ↔
      Used (endOf s front + (bhdrOverhead + t)) back x k)
    (htidy : Tidy heap' s (front ++ (taken t size' ++ back))) (hle : size' ≤ t) (hne : size' ≠ 0)
    (hsame : Same (Kept s front t held back) heap heap') :
    Resized heap heap' s (front ++ ⟨n, false⟩ :: rest) (front ++ (taken t size' ++ back))
      (endOf s front) (takenSize t size') held := by
  have htaken : takenSize t size' ≠ 0 := by
    have := le_takenSize hle
    omega
  refine ⟨h.of_same htidy hsame (fun k hlow hhigh => .inl (info_byte hfront hlow hhigh)) ?_,
    fun x k => ?_, hsame.mono fun k hk => ?_⟩
  · rw [endOf_taken_append (f := false) hle]
    unfold endOf at hrest ⊢
    rw [stopOf_append, stopOf_append]
    exact hrest.symm
  · rw [used_taken hle htaken, ← used_others, ← hused]
    exact ⟨fun h => h.elim (fun h => .inl (.inl h)) fun h => h.elim .inr fun h => .inl (.inr h),
      fun h => h.elim (fun h => h.elim .inl fun h => .inr (.inr h)) fun h => .inr (.inl h)⟩
  · rcases hk with hk | hk
    · rcases (kept_of_other hk : Kept s front n 0 rest _) with hk | ⟨x, m, hx, hbyte⟩ | hk
      · exact .inl hk
      · exact .inr (.inl ⟨x, m, (hused x m).mp hx, hbyte⟩)
      · omega
    · exact .inr (.inr hk)

theorem used_of_spaced {f : Bool} (h : Spaced (⟨m, true⟩ :: ⟨k, f⟩ :: back)) : f = false := by
  cases f with
  | false => rfl
  | true => exact absurd ⟨rfl, rfl⟩ (List.isChain_cons_cons.mp h).1

theorem behind_absorbed : endOf s front + (bhdrOverhead + (n + (bhdrOverhead + m))) =
    endOf s front + (bhdrOverhead + n) + (bhdrOverhead + m) := by omega

theorem used_behind : Used (endOf s front + (bhdrOverhead + n)) (⟨m, true⟩ :: back) x k ↔
    Used (endOf s front + (bhdrOverhead + (n + (bhdrOverhead + m)))) back x k := by
  rw [behind_absorbed, used_cons]
  refine or_iff_right fun h => ?_
  cases h.2.2

theorem endOf_behind : endOf (endOf s front + (bhdrOverhead + n)) (⟨m, true⟩ :: back) =
    endOf (endOf s front + (bhdrOverhead + (n + (bhdrOverhead + m)))) back := by
  rw [behind_absorbed]
  rfl

/-- A block gets smaller, and the rest goes into a free block behind it. -/
theorem outcome_shrinkBlock (h : Sound heap s (front ++ ⟨n, false⟩ :: c :: back))
    (hfront : front.head? = some ⟨sizeofAreaInfo, false⟩) (hn : n ≠ 0) (hle : size' ≤ n)
    (hdvd : blockAlign ∣ size') (hne : size' ≠ 0) (hfs : Spaced front) (hbs : Spaced (c :: back)) :
    Outcome (shrinkBlock (endOf s front) size' n) (fun _ heap' => ∃ blocks' m, size' ≤ m ∧
      m < size' + sizeofBhdr ∧ Resized heap heap' s (front ++ ⟨n, false⟩ :: c :: back) blocks' (endOf s front) m size')
      (fun _ _ => False) heap := by
  have hfront0 : front ≠ [] := by
    rintro rfl
    cases hfront
  have hloose := h.tidy.loose hfront0 hn hle
  rw [if_neg (by decide)] at hloose
  have hsmall := hloose.small
  obtain ⟨k, f⟩ := c
  have hbehind := hloose.backHeaders.1.sizeWord
  dsimp only at hbehind
  unfold shrinkBlock
  rw [getNextBlock_eq]
  refine outcome_word (hloose.behind_accessible (.inl rfl)) ?_
  rw [hbehind, and_freeBlock hloose.behind_aligned]
  cases f with
  | false =>
    rw [if_neg (by decide), minus_of_le hle (by unfold maxSize at hsmall; omega)]
    refine (outcome_trim hloose h.tidy.binned hfront0 hle (Nat.le_refl _) hdvd hne hloose.aligned
      (fun _ => ⟨rfl, rfl⟩) hfs hbs rfl).post ?_
    rintro ⟨⟩ heap' ⟨htidy, hsame⟩
    exact ⟨_, _, le_takenSize hle, takenSize_lt,
      resized_of_taken h hfront rfl (fun _ _ => Iff.rfl) htidy hle hne hsame⟩
  | true =>
    rw [if_pos (by decide)]
    refine outcome_word (hloose.behind_accessible (.inl rfl)) ?_
    rw [hbehind, and_tlsfBlockSize hloose.behind_aligned hloose.behind_small]
    refine outcome_step (mappingInsert_ok hloose.behind_small) ?_
    refine (outcome_extractBehind hloose h.tidy.binned hfront0).seq ?_
    rintro ⟨⟩ heap₁ ⟨h₁, hbin₁, hback, hacc, hmask⟩
    obtain ⟨⟨k', f'⟩, back, rfl⟩ := List.exists_cons_of_ne_nil hback
    have hc := used_of_spaced hbs
    have htotal := h₁.small
    have hhdr : bhdrOverhead = 16 := rfl
    refine outcome_word hacc ?_
    rw [hmask]
    dsimp only
    rw [getNextBlock_eq, ← behind_absorbed, Nat.add_comm k,
      minus_of_le (by omega) (by unfold maxSize at htotal; omega)]
    refine (outcome_trim h₁ hbin₁ hfront0 (by omega) (Nat.le_refl _) hdvd hne hloose.aligned
      (fun hno => ?_) hfs hbs.of_cons hc).post ?_
    · -- the free block behind is large enough
      unfold sizeofBhdr at hno
      have hk : k ≠ 0 := h.tidy.room.free (b := ⟨k, true⟩)
        (List.mem_append_right _ (List.mem_cons_of_mem _ List.mem_cons_self)) rfl
      obtain ⟨j, hj⟩ := hloose.behind_aligned
      unfold blockAlign at hj
      dsimp only at hj
      omega
    · rintro ⟨⟩ heap' ⟨htidy, hsame⟩
      exact ⟨_, _, le_takenSize (by omega), takenSize_lt, resized_of_taken h hfront endOf_behind
        (fun _ _ => used_behind) htidy (by omega) hne hsame⟩

/-- A block gets larger if the free block behind it is large enough, else nothing happens. -/
theorem outcome_growBlock (h : Sound heap s (front ++ ⟨n, false⟩ :: c :: back))
    (hfront : front.head? = some ⟨sizeofAreaInfo, false⟩) (hn : n ≠ 0) (hlt : n < size')
    (hdvd : blockAlign ∣ size') (hfs : Spaced front) (hbs : Spaced (c :: back)) :
    Outcome (growBlock (endOf s front) size' n) (fun r heap' => (r = false ∧ heap' = heap) ∨
      (r = true ∧ ∃ blocks' m, size' ≤ m ∧
        m < size' + sizeofBhdr ∧ Resized heap heap' s (front ++ ⟨n, false⟩ :: c :: back) blocks' (endOf s front) m n))
      (fun _ _ => False) heap := by
  have hfront0 : front ≠ [] := by
    rintro rfl
    cases hfront
  have hloose := h.tidy.loose hfront0 hn (Nat.le_refl n)
  rw [if_neg (by decide)] at hloose
  have hsmall := hloose.small
  obtain ⟨k, f⟩ := c
  have hbehind := hloose.backHeaders.1.sizeWord
  dsimp only at hbehind
  unfold growBlock
  dsimp only
  rw [getNextBlock_eq]
  refine outcome_word (hloose.behind_accessible (.inl rfl)) ?_
  rw [hbehind, and_freeBlock hloose.behind_aligned]
  cases f with
  | false =>
    rw [if_neg (by decide)]
    exact .inl ⟨rfl, rfl⟩
  | true =>
    rw [if_pos (by decide)]
    refine outcome_word (hloose.behind_accessible (.inl rfl)) ?_
    rw [hbehind, and_tlsfBlockSize hloose.behind_aligned hloose.behind_small]
    dsimp only
    by_cases hfits : size' ≤ n + k
    · rw [if_pos hfits]
      refine outcome_word (hloose.behind_accessible (.inl rfl)) ?_
      rw [hbehind, and_tlsfBlockSize hloose.behind_aligned hloose.behind_small]
      refine outcome_step (mappingInsert_ok hloose.behind_small) ?_
      refine (outcome_extractBehind hloose h.tidy.binned hfront0).seq ?_
      rintro ⟨⟩ heap₁ ⟨h₁, hbin₁, hback, hacc, hmask⟩
      obtain ⟨⟨k', f'⟩, back, rfl⟩ := List.exists_cons_of_ne_nil hback
      have hc := used_of_spaced hbs
      subst hc
      have htotal := h₁.small
      have hhdr : bhdrOverhead = 16 := rfl
      have hread := h₁.header.sizeWord
      dsimp only at hread
      refine outcome_word (h₁.header_accessible (.inl rfl)) ?_
      refine outcome_word hacc ?_
      rw [hmask, hread, headerWord_add, Nat.add_comm k]
      refine outcome_setWord (h₁.header_accessible (.inl rfl)) ?_
      have h₂ := h₁.put_header (b := ⟨n + (bhdrOverhead + k), false⟩) (.inl rfl)
        ⟨at_put (headerWord_lt htotal), fun q hq =>
          (at_put_of_disjoint (by unfold prevHdr size; omega)).trans (h₁.header.prevWord q hq)⟩
      have hbin₂ := h₁.room.put_binned (y := size (endOf s front))
        (v := headerWord (n + (bhdrOverhead + k)) false (lastFree none s front).isSome) hbin₁
        placed_middle (Nat.le_add_right _ _) (.inl (Nat.le_refl _))
      have hread₂ := h₂.header.sizeWord
      dsimp only at hread₂
      refine outcome_word (h₂.header_accessible (.inl rfl)) ?_
      rw [hread₂, and_tlsfBlockSize h₁.aligned htotal, getNextBlock_eq]
      -- the block behind is told
      refine outcome_setWord (h₂.behind_accessible (.inr rfl)) ?_
      have h₃ := h₂.put_behind (v := endOf s front) (q := some (endOf s front)) (.inr rfl)
        ⟨(at_put_of_disjoint (by unfold prevHdr size; omega)).trans h₂.backHeaders.1.sizeWord,
          fun q hq => (at_put (h₁.room.small (b := ⟨_, false⟩) placed_middle).2).trans
            (Option.some.inj hq)⟩
      have hbin₃ := h₂.room.put_binned (v := endOf s front) hbin₂ placed_behind
        (Nat.le_refl _) (.inl (by omega))
      refine outcome_word (h₃.behind_accessible (.inl rfl)) ?_
      rw [h₃.backHeaders.1.sizeWord]
      rw [and_not_prevFree h₁.behind_aligned h₁.behind_small]
      refine outcome_setWord (h₃.behind_accessible (.inl rfl)) ?_
      have h₄ := h₃.put_behind (v := headerWord k' false false) (q := none) (.inl rfl)
        ⟨at_put (headerWord_lt h₁.behind_small), fun q hq => by cases hq⟩
      have hbin₄ := h₃.room.put_binned (v := headerWord k' false false) hbin₃ placed_behind
        (Nat.le_add_right _ 8) (.inl (Nat.le_refl _))
      have hread₄ := h₄.header.sizeWord
      dsimp only at hread₄
      refine outcome_word (h₄.header_accessible (.inl rfl)) ?_
      rw [hread₄, and_tlsfBlockSize h₁.aligned htotal, minus_of_le (by omega)
        (by unfold maxSize at htotal; omega)]
      refine (outcome_trim h₄ hbin₄ hfront0 (by omega) (Nat.le_of_lt hlt) hdvd (by omega)
        h₁.aligned
        (fun _ => ⟨rfl, rfl⟩) hfs hbs.of_cons rfl).seq ?_
      rintro ⟨⟩ heap' ⟨htidy, hsame⟩
      exact .inr ⟨rfl, _, _, le_takenSize (by omega), takenSize_lt, resized_of_taken h hfront endOf_behind
        (fun _ _ => used_behind) htidy (by omega) (by omega) hsame⟩
    · rw [if_neg hfits]
      exact .inl ⟨rfl, rfl⟩

end

end Egos.Libc.Tlsf
