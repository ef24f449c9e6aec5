import Egos.Libc.Tlsf.Pool

/-!
# `free_ex`

A block is free now, and one with the free blocks beside it: the blocks are the coalesced ones.
-/
namespace Egos.Libc.Tlsf

open Egos.Disk (Stop)
open Egos.Lib

set_option autoImplicit false

theorem getNextBlock_eq (a n : Nat) : getNextBlock (buffer a) n = a + (bhdrOverhead + n) :=
  Nat.add_assoc a bhdrOverhead n

section

variable {heap₀ heap heap' : Heap} {s n m x y a v held : Nat} {p p' : Option Nat} {b c shown : Block}
  {front back : List Block} {f : Bool}

/-! ## What a loose pool can be asked -/

theorem placed_behind : (endOf s front + (bhdrOverhead + n), c) ∈
    placedAt s (front ++ ⟨n, f⟩ :: c :: back) :=
  placed_back (b := ⟨n, f⟩) List.mem_cons_self

namespace Loose

theorem header_accessible (h : Loose heap₀ heap s front shown n held p back)
    (hy : y = size (endOf s front) ∨ y = prevHdr (endOf s front)) : heap.Accessible y 8 := by
  have hlen : Block.length ⟨n, false⟩ = bhdrOverhead + n := rfl
  unfold size prevHdr at hy
  unfold bhdrOverhead sizeofBhdr minBlockSize at hlen
  exact h.room.accessible placed_middle (by omega) (by omega)

theorem behind_accessible (h : Loose heap₀ heap s front shown n held p (c :: back))
    (hy : y = size (endOf s front + (bhdrOverhead + n)) ∨
      y = prevHdr (endOf s front + (bhdrOverhead + n))) : heap.Accessible y 8 := by
  have hlen : c.length = bhdrOverhead + c.size := rfl
  have hhdr : bhdrOverhead = 16 := rfl
  unfold size prevHdr at hy
  exact h.room.accessible placed_behind (by omega) (by omega)

theorem small (h : Loose heap₀ heap s front shown n held p back) : n < maxSize :=
  (h.room.small (b := ⟨n, false⟩) placed_middle).1

theorem aligned (h : Loose heap₀ heap s front shown n held p back) : blockAlign ∣ n :=
  h.room.aligned ⟨n, false⟩ (List.mem_append_right _ List.mem_cons_self)

theorem behind_small (h : Loose heap₀ heap s front shown n held p (c :: back)) : c.size < maxSize :=
  (h.room.small placed_behind).1

theorem behind_aligned (h : Loose heap₀ heap s front shown n held p (c :: back)) :
    blockAlign ∣ c.size :=
  h.room.aligned c (List.mem_append_right _ (List.mem_cons_of_mem _ List.mem_cons_self))

end Loose

/-- The free blocks when the one behind is taken off. -/
theorem freeOf_behind : Function.update (freeOf s (front ++ ⟨n, false⟩ :: ⟨m, true⟩ :: back))
    (endOf s front + (bhdrOverhead + n)) none =
      freeOf s (front ++ ⟨n + (bhdrOverhead + m), false⟩ :: back) := by
  apply update_freeOf_append (Nat.le_add_right _ _)
  change Function.update (Function.update (freeOf (endOf s front + (bhdrOverhead + n) +
    (bhdrOverhead + m)) back) (endOf s front + (bhdrOverhead + n)) (some m)) _ none =
      freeOf (endOf s front + (bhdrOverhead + (n + (bhdrOverhead + m)))) back
  have hplace : endOf s front + (bhdrOverhead + n) + (bhdrOverhead + m) =
      endOf s front + (bhdrOverhead + (n + (bhdrOverhead + m))) := by omega
  rw [Function.update_idem, update_freeOf_none, hplace]
  unfold bhdrOverhead sizeofBhdr minBlockSize
  omega

/-- The free blocks when the last one in front is taken off. -/
theorem freeOf_front : Function.update (freeOf s (front ++ ⟨m, true⟩ :: ⟨n, false⟩ :: back))
    (endOf s front) none = freeOf s (front ++ ⟨m + (bhdrOverhead + n), false⟩ :: back) := by
  apply update_freeOf_append (Nat.le_refl _)
  change Function.update (Function.update (freeOf (endOf s front + (bhdrOverhead + m) +
    (bhdrOverhead + n)) back) _ _) _ none = freeOf (endOf s front + (bhdrOverhead +
      (m + (bhdrOverhead + n)))) back
  have hplace : endOf s front + (bhdrOverhead + m) + (bhdrOverhead + n) =
      endOf s front + (bhdrOverhead + (m + (bhdrOverhead + n))) := by omega
  rw [Function.update_idem, hplace, update_freeOf_none]
  unfold bhdrOverhead sizeofBhdr minBlockSize
  omega

theorem freeOf_same : Function.update (freeOf s (front ++ ⟨n, false⟩ :: back)) (endOf s front)
    (some n) = freeOf s (front ++ ⟨n, true⟩ :: back) :=
  update_freeOf_append (Nat.le_refl _) rfl

theorem freeOf_taken : Function.update (freeOf s (front ++ ⟨n, true⟩ :: back)) (endOf s front)
    none = freeOf s (front ++ ⟨n, false⟩ :: back) := by
  apply update_freeOf_append (Nat.le_refl _)
  change Function.update (Function.update (freeOf _ back) _ _) _ none = freeOf _ back
  rw [Function.update_idem, update_freeOf_none]
  · rfl
  · exact Nat.lt_add_of_pos_right (length_pos ⟨n, true⟩)

theorem freeOf_none : freeOf s (front ++ ⟨n, false⟩ :: back) (endOf s front) = none := by
  rw [← freeOf_taken, Function.update_self]

/-! ## The parts of the function -/

/-- A free block behind leaves its list, and belongs to the block then. -/
theorem outcome_extractBehind (h : Loose heap₀ heap s front shown n held p (⟨m, true⟩ :: back))
    (hbin : Binned heap (freeOf s (front ++ ⟨n, false⟩ :: ⟨m, true⟩ :: back))) (hfront : front ≠ []) :
    Outcome (extractBlock (endOf s front + (bhdrOverhead + n)) (classFl m) (classSl m))
      (fun _ heap' => Loose heap₀ heap' s front shown (n + (bhdrOverhead + m)) held
          (some (endOf s front + (bhdrOverhead + n))) back ∧
        Binned heap' (freeOf s (front ++ ⟨n + (bhdrOverhead + m), false⟩ :: back)) ∧ back ≠ [] ∧
        heap'.Accessible (size (endOf s front + (bhdrOverhead + n))) 8 ∧
        heap'.at (size (endOf s front + (bhdrOverhead + n))) &&& tlsfBlockSize = m)
      (fun _ _ => False) heap := by
  have hsome : freeOf s (front ++ ⟨n, false⟩ :: ⟨m, true⟩ :: back)
      (endOf s front + (bhdrOverhead + n)) = some m :=
    freeOf_eq_some_iff.mpr placed_behind
  have hback : back ≠ [] := by
    have hroom := h.room
    rw [show front ++ ⟨n, false⟩ :: ⟨m, true⟩ :: back =
      (front ++ [⟨n, false⟩]) ++ ⟨m, true⟩ :: back by simp] at hroom
    exact hroom.back_ne_nil
      (h.room.free (b := ⟨m, true⟩) (List.mem_append_right _ (List.mem_cons_of_mem _ List.mem_cons_self)) rfl)
  refine (outcome_extractBlock hbin hsome).post ?_
  rintro ⟨⟩ heap₁ ⟨hbin₁, hr⟩
  rw [freeOf_behind] at hbin₁
  have h₁ := h.relink hr fun x hx => .inr hx
  refine ⟨h₁.absorb hfront hback, hbin₁, hback, h₁.behind_accessible (.inl rfl), ?_⟩
  rw [h₁.backHeaders.1.sizeWord]
  exact and_tlsfBlockSize h.behind_aligned h.behind_small

theorem outcome_mergeNext (h : Loose heap₀ heap s front ⟨n, true⟩ n 0 p (c :: back))
    (hbin : Binned heap (freeOf s (front ++ ⟨n, false⟩ :: c :: back))) (hfront : front ≠ [])
    (hspaced : Spaced (c :: back)) :
    Outcome (mergeNext (endOf s front)) (fun _ heap' => ∃ n' p' c' back',
      Loose heap₀ heap' s front ⟨n', true⟩ n' 0 p' (c' :: back') ∧
      Binned heap' (freeOf s (front ++ ⟨n', false⟩ :: c' :: back')) ∧ n ≤ n' ∧
      coalesce (⟨n, true⟩ :: c :: back) = ⟨n', true⟩ :: c' :: back') (fun _ _ => False) heap := by
  obtain ⟨k, f⟩ := c
  have hread := h.header.sizeWord
  have hbehind := h.backHeaders.1.sizeWord
  dsimp only at hread hbehind
  unfold mergeNext
  refine outcome_word (h.header_accessible (.inl rfl)) ?_
  rw [hread, and_tlsfBlockSize h.aligned h.small, getNextBlock_eq]
  refine outcome_word (h.behind_accessible (.inl rfl)) ?_
  rw [hbehind, and_freeBlock h.behind_aligned]
  cases f with
  | false =>
    rw [if_neg (by decide)]
    refine ⟨n, p, ⟨k, false⟩, back, h, hbin, Nat.le_refl n, ?_⟩
    exact coalesce_of_spaced (List.isChain_cons_cons.mpr ⟨(fun hf => by cases hf.2), hspaced⟩)
  | true =>
    rw [if_pos (by decide)]
    refine outcome_word (h.behind_accessible (.inl rfl)) ?_
    rw [hbehind, and_tlsfBlockSize h.behind_aligned h.behind_small]
    refine outcome_step (mappingInsert_ok h.behind_small) ?_
    refine (outcome_extractBehind h hbin hfront).seq ?_
    rintro ⟨⟩ heap₁ ⟨h₂, hbin₁, hback, hacc, hmask⟩
    refine outcome_word (h₂.header_accessible (.inl rfl)) ?_
    refine outcome_word hacc ?_
    rw [h₂.header.sizeWord, hmask]
    rw [headerWord_add, Nat.add_comm k]
    refine Outcome.of_ok (setWord_ok (h₂.header_accessible (.inl rfl))) ?_
    have hput : HeaderAt (heap₁.put (size (endOf s front)) (headerWord (n + (bhdrOverhead + k)) true
        (lastFree none s front).isSome)) (endOf s front) ⟨n + (bhdrOverhead + k), true⟩
        (lastFree none s front) := by
      refine ⟨at_put (headerWord_lt h₂.small), fun q hq => ?_⟩
      refine (at_put_of_disjoint (by unfold prevHdr size; omega)).trans (h₂.header.prevWord q hq)
    obtain ⟨c', back', hcons⟩ := List.exists_cons_of_ne_nil hback
    subst hcons
    refine ⟨_, _, c', back', h₂.put_header (.inl rfl) hput, ?_, Nat.le_add_right _ _, ?_⟩
    · refine h₂.room.put_binned hbin₁ placed_middle (Nat.le_add_right _ _) (.inl ?_)
      exact Nat.le_refl _
    · exact coalesce_free_free (coalesce_of_spaced hspaced)

theorem outcome_mergePrev (h : Loose heap₀ heap s front ⟨n, true⟩ n 0 p back)
    (hbin : Binned heap (freeOf s (front ++ ⟨n, false⟩ :: back))) (hfront : front ≠ [])
    (hback : back ≠ []) (hspaced : Spaced front) :
    Outcome (mergePrev (endOf s front)) (fun r heap' => ∃ front' n', r = endOf s front' ∧
      front' ≠ [] ∧
      Loose heap₀ heap' s front' ⟨n', true⟩ n' 0 p back ∧
      Binned heap' (freeOf s (front' ++ ⟨n', false⟩ :: back)) ∧ n ≤ n' ∧
      Spaced (front' ++ [⟨n', true⟩]) ∧
      ∀ l, coalesce (⟨n, true⟩ :: l) = ⟨n, true⟩ :: l → Spaced (⟨n, true⟩ :: l) →
        coalesce (front ++ ⟨n, true⟩ :: l) = front' ++ ⟨n', true⟩ :: l)
      (fun _ _ => False) heap := by
  unfold mergePrev
  refine outcome_word (h.header_accessible (.inl rfl)) ?_
  have hread := h.header.sizeWord
  dsimp only at hread
  rw [hread, and_prevFree h.aligned]
  cases hlast : lastFree none s front with
  | none =>
    rw [if_neg (by decide)]
    have hjoin := hspaced.concat (b := ⟨n, true⟩) hlast
    refine ⟨front, n, rfl, hfront, h, hbin, Nat.le_refl n, hjoin, fun l hl hsp => ?_⟩
    rw [coalesce_append, hl]
    rw [hl]
    exact List.isChain_split.mpr ⟨hjoin, hsp⟩
  | some x =>
    rw [Option.isSome_some, if_pos (by decide)]
    obtain ⟨front', m, rfl, rfl⟩ := lastFree_eq_some hlast
    have hroom := h.room
    rw [List.append_assoc] at hroom
    have hfront' := hroom.front_ne_nil rfl
    have hprev := h.header.prevWord _ hlast
    have h₀ := h.retreat hfront' hback
    have hm : (endOf s front', (⟨m, true⟩ : Block)) ∈
        placedAt s (front' ++ ⟨m, true⟩ :: ⟨n, false⟩ :: back) := placed_middle
    have hmdvd : blockAlign ∣ m := hroom.aligned _ (placed_mem hm)
    have hmsmall : m < maxSize := (hroom.small hm).1
    refine outcome_word (h.header_accessible (.inr rfl)) ?_
    rw [hprev]
    refine outcome_word (h₀.header_accessible (.inl rfl)) ?_
    rw [h₀.header.sizeWord, and_tlsfBlockSize hmdvd hmsmall]
    refine outcome_step (mappingInsert_ok hmsmall) ?_
    have hlist : (front' ++ [⟨m, true⟩]) ++ ⟨n, false⟩ :: back =
        front' ++ ⟨m, true⟩ :: ⟨n, false⟩ :: back := List.append_assoc _ _ _
    rw [hlist] at hbin
    refine (outcome_extractBlock hbin (freeOf_eq_some_iff.mpr hm)).seq ?_
    rintro ⟨⟩ heap₁ ⟨hbin₁, hr⟩
    rw [freeOf_front] at hbin₁
    have h₁ := h.relink hr fun x hx => .inr (by rw [hlist]; exact hx)
    have h₂ := h₁.retreat hfront' hback
    refine outcome_word (h₂.header_accessible (.inl rfl)) ?_
    refine outcome_word (h₁.header_accessible (.inl rfl)) ?_
    rw [h₂.header.sizeWord, h₁.header.sizeWord, and_tlsfBlockSize h.aligned h.small,
      headerWord_add, Nat.add_comm n]
    refine outcome_setWord (h₂.header_accessible (.inl rfl)) ?_
    have hput : HeaderAt (heap₁.put (size (endOf s front')) (headerWord (m + (bhdrOverhead + n)) true
        (lastFree none s front').isSome)) (endOf s front') ⟨m + (bhdrOverhead + n), true⟩
        (lastFree none s front') := by
      refine ⟨at_put (headerWord_lt h₂.small), fun q hq => ?_⟩
      refine (at_put_of_disjoint (by unfold prevHdr size; omega)).trans (h₂.header.prevWord q hq)
    refine ⟨front', _, rfl, hfront', h₂.put_header (.inl rfl) hput, ?_, ?_, ?_, fun l hl hsp => ?_⟩
    · exact h₂.room.put_binned hbin₁ placed_middle (Nat.le_add_right _ _) (.inl (Nat.le_refl _))
    · omega
    · exact hspaced.resize rfl
    · have hjoin : Spaced (front' ++ ⟨m + (bhdrOverhead + n), true⟩ :: l) :=
        List.isChain_split.mpr ⟨hspaced.resize rfl, Spaced.resize (l := []) hsp rfl⟩
      have hcons : coalesce (⟨m, true⟩ :: ⟨n, true⟩ :: l) = ⟨m + (bhdrOverhead + n), true⟩ :: l :=
        coalesce_free_free hl
      rw [List.append_assoc, List.singleton_append, coalesce_append, hcons]
      rw [hcons]
      exact hjoin

/-- The block goes on its list, and the one behind is told. -/
theorem outcome_enlist (h : Loose heap₀ heap s front ⟨n, true⟩ n 0 p (c :: back))
    (hbin : Binned heap (freeOf s (front ++ ⟨n, false⟩ :: c :: back))) (hfront : front ≠ [])
    (hn : n ≠ 0) (hspaced : Spaced (front ++ ⟨n, true⟩ :: c :: back)) :
    Outcome (enlist (endOf s front)) (fun _ heap' => Tidy heap' s (front ++ ⟨n, true⟩ :: c :: back) ∧
      Same (Kept s front n 0 (c :: back)) heap₀ heap')
      (fun _ _ => False) heap := by
  have hread := h.header.sizeWord
  dsimp only at hread
  unfold enlist
  refine outcome_word (h.header_accessible (.inl rfl)) ?_
  rw [hread, and_tlsfBlockSize h.aligned h.small]
  refine outcome_step (mappingInsert_ok h.small) ?_
  refine (outcome_insertBlock hbin (h.room.listable placed_middle hn) freeOf_none).seq ?_
  rintro ⟨⟩ heap₁ ⟨hbin₁, hr⟩
  have h₁ := h.relink hr fun x hx => by
    by_cases hxa : x = endOf s front
    · exact .inl ⟨hxa, hn, rfl⟩
    · rw [Function.update_of_ne hxa] at hx
      exact .inr hx
  rw [freeOf_same] at hbin₁
  have hread₁ := h₁.header.sizeWord
  dsimp only at hread₁
  refine outcome_word (h₁.header_accessible (.inl rfl)) ?_
  rw [hread₁, and_tlsfBlockSize h.aligned h.small, getNextBlock_eq]
  refine outcome_word (h₁.behind_accessible (.inl rfl)) ?_
  rw [h₁.backHeaders.1.sizeWord, or_prevFree h.behind_aligned]
  refine outcome_setWord (h₁.behind_accessible (.inl rfl)) ?_
  have h₂ := h₁.put_behind (c := c) (v := headerWord c.size c.free true)
    (q := some (heap₁.at (prevHdr (endOf s front + (bhdrOverhead + n))))) (.inl rfl)
    ⟨at_put (headerWord_lt h.behind_small), fun q hq =>
      (at_put_of_disjoint (by unfold prevHdr size; omega)).trans (Option.some.inj hq)⟩
  refine Outcome.of_ok (setWord_ok (h₂.behind_accessible (.inr rfl))) ?_
  have hlt : endOf s front < 2 ^ 64 := (h.room.small (b := ⟨n, false⟩) placed_middle).2
  have h₃ := h₂.put_behind (q := some (endOf s front)) (.inr rfl)
    ⟨(at_put_of_disjoint (by unfold prevHdr size; omega)).trans (at_put (headerWord_lt h.behind_small)),
      fun q hq => (at_put hlt).trans (Option.some.inj hq)⟩
  have hroom : Room heap₁ s (front ++ ⟨n, true⟩ :: c :: back) := by
    refine h₁.room.splice (l := [⟨n, false⟩]) (r := [⟨n, true⟩]) hfront (List.cons_ne_nil _ _)
      (fun _ => rfl) (fun b hb => ?_) (fun b hb => ?_)
    · cases List.mem_singleton.mp hb
      exact h.aligned
    · cases List.mem_singleton.mp hb
      exact hn
  have hstep : ∀ {heap : Heap} {v y : Nat}, Room heap s (front ++ ⟨n, true⟩ :: c :: back) →
      Binned heap (freeOf s (front ++ ⟨n, true⟩ :: c :: back)) →
      (y = size (endOf s front + (bhdrOverhead + n)) ∨
        y = prevHdr (endOf s front + (bhdrOverhead + n))) →
      Binned (heap.put y v) (freeOf s (front ++ ⟨n, true⟩ :: c :: back)) := by
    intro heap v y hroom hbin hy
    have hhdr : bhdrOverhead = 16 := rfl
    unfold size prevHdr at hy
    exact hroom.put_binned hbin placed_behind (by omega) (.inl (by omega))
  have hput : ∀ {heap : Heap} {v y : Nat}, Same (fun _ => False) heap (heap.put y v) :=
    Same.put fun _ _ _ h => h
  refine ⟨⟨(hroom.same hput).same hput, h₃.headers, ?_, hspaced⟩, h₃.same⟩
  exact hstep (hroom.same hput) (hstep hroom hbin₁ (.inl rfl)) (.inr rfl)

/-! ## The function -/

theorem userByte_around {k : Nat} : UserByte s (front ++ ⟨n, true⟩ :: back) k ↔
    UserByte s front k ∨ UserByte (endOf s front + (bhdrOverhead + n)) back k := by
  rw [userByte_append]
  refine or_congr_right ?_
  change UserByte (endOf s front) ([⟨n, true⟩] ++ back) k ↔ _
  rw [userByte_append]
  refine or_iff_right ?_
  rintro ⟨a, m, ha, -⟩
  rcases used_cons.mp ha with ⟨-, -, h⟩ | ⟨-, h⟩
  · cases h
  · cases h

/-- From a loose pool, in which the block behind can have been told anything. -/
theorem outcome_freeEx_of_loose (h : Loose heap₀ heap s front ⟨n, false⟩ n 0 p back)
    (hbin : Binned heap (freeOf s (front ++ ⟨n, false⟩ :: back))) (hfront : front ≠ [])
    (hn : n ≠ 0) (hfs : Spaced front) (hbs : Spaced back) :
    Outcome (freeEx (buffer (endOf s front))) (fun _ heap' =>
      Tidy heap' s (coalesce (front ++ ⟨n, true⟩ :: back)) ∧
      Same (UserByte s (front ++ ⟨n, true⟩ :: back)) heap₀ heap')
      (fun _ _ => False) heap := by
  have hhdr : bhdrOverhead = 16 := rfl
  have hn16 : 16 ≤ n := by
    obtain ⟨c, hc⟩ := h.aligned
    unfold blockAlign at hc
    omega
  have hlen : Block.length ⟨n, false⟩ = bhdrOverhead + n := rfl
  obtain ⟨c, back', rfl⟩ := List.exists_cons_of_ne_nil (h.room.back_ne_nil hn)
  unfold freeEx
  rw [if_neg (by unfold buffer; omega)]
  dsimp only
  rw [show buffer (endOf s front) - bhdrOverhead = endOf s front from Nat.add_sub_cancel _ _]
  have hread := h.header.sizeWord
  dsimp only at hread
  refine outcome_word (h.header_accessible (.inl rfl)) ?_
  rw [hread, or_freeBlock h.aligned]
  refine outcome_setWord (h.header_accessible (.inl rfl)) ?_
  have h₁ := h.put_header (b := ⟨n, true⟩) (.inl rfl) ⟨at_put (headerWord_lt h.small), fun q hq =>
    (at_put_of_disjoint (by unfold prevHdr size; omega)).trans (h.header.prevWord q hq)⟩
  have hbin₁ := h.room.put_binned (y := size (endOf s front))
    (v := headerWord n true (lastFree none s front).isSome) hbin placed_middle
    (Nat.le_add_right _ _) (.inl (Nat.le_refl _))
  -- the links
  have hprev : endOf s front + bhdrOverhead ≤ prev (endOf s front) ∧
      prev (endOf s front) + 8 ≤ endOf s front + (bhdrOverhead + n) := by
    unfold prev buffer
    omega
  have hnext : endOf s front + bhdrOverhead ≤ next (endOf s front) ∧
      next (endOf s front) + 8 ≤ endOf s front + (bhdrOverhead + n) := by
    unfold next buffer
    omega
  refine outcome_setWord (h₁.room.accessible placed_middle (by omega) (by omega)) ?_
  have h₂ := h₁.put_inside (v := 0) hprev.1 hprev.2
  have hbin₂ := h₁.room.put_binned (y := prev (endOf s front)) (v := 0) hbin₁ placed_middle
    (by omega) (.inr ⟨rfl, by omega⟩)
  refine outcome_setWord (h₂.room.accessible placed_middle (by omega) (by omega)) ?_
  have h₃ := h₂.put_inside (v := 0) hnext.1 hnext.2
  have hbin₃ := h₂.room.put_binned (y := next (endOf s front)) (v := 0) hbin₂ placed_middle
    (by omega) (.inr ⟨rfl, by omega⟩)
  refine (outcome_mergeNext h₃ hbin₃ hfront hbs).seq ?_
  rintro ⟨⟩ heap₄ ⟨n', p', c', back'', h₄, hbin₄, hle, hnextc⟩
  have hbs' : Spaced (⟨n', true⟩ :: c' :: back'') := hnextc ▸ coalesce_spaced _
  refine (outcome_mergePrev h₄ hbin₄ hfront (List.cons_ne_nil _ _) hfs).seq ?_
  rintro b heap₅ ⟨front', n'', rfl, hfront', h₅, hbin₅, hle', hjoin, hprevc⟩
  have hcoalesce : coalesce (front ++ ⟨n, true⟩ :: c :: back') = front' ++ ⟨n'', true⟩ :: c' :: back'' := by
    rw [← hprevc (c' :: back'') (coalesce_of_spaced hbs') hbs', ← hnextc,
      coalesce_append_coalesce]
  have hfinal : Spaced (front' ++ ⟨n'', true⟩ :: c' :: back'') := hcoalesce ▸ coalesce_spaced _
  refine (outcome_enlist h₅ hbin₅ hfront' (by omega) hfinal).post ?_
  rintro ⟨⟩ heap₆ ⟨htidy, hsame⟩
  rw [hcoalesce]
  refine ⟨htidy, hsame.mono fun k hk => ?_⟩
  rw [← userByte_coalesce, hcoalesce, userByte_around] at hk
  exact hk.imp_right .inl

end

end Egos.Libc.Tlsf
