import Egos.Libc.Tlsf.Free

/-!
# A block is taken

`malloc_ex` and `realloc_ex` both take the front of a block and make a free block of the rest, if that
is large enough for one.
-/
namespace Egos.Libc.Tlsf

open Egos.Disk (Stop)
open Egos.Lib

set_option autoImplicit false

/-- What `n` bytes become of which `size` are asked for. -/
def taken (n size : Nat) : List Block :=
  if sizeofBhdr ≤ n - size then [⟨size, false⟩, ⟨n - size - bhdrOverhead, true⟩] else [⟨n, false⟩]

/-- The bytes that the caller gets. -/
def takenSize (n size : Nat) : Nat := if sizeofBhdr ≤ n - size then size else n

section

variable {heap₀ heap heap' : Heap} {s n m t x y a k v size' held : Nat} {p p' : Option Nat}
  {b c shown : Block} {front back : List Block} {f : Bool}

/-! ## The blocks -/

theorem endOf_taken (h : size' ≤ n) : endOf x (taken n size') = x + (bhdrOverhead + n) := by
  have hhdr : bhdrOverhead = 16 := rfl
  unfold taken sizeofBhdr
  split
  · change x + (bhdrOverhead + size') + (bhdrOverhead + (n - size' - bhdrOverhead)) = _
    omega
  · rfl

theorem endOf_taken_append (h : size' ≤ n) :
    endOf s (front ++ (taken n size' ++ back)) = endOf s (front ++ ⟨n, f⟩ :: back) := by
  have htaken : stopOf Block.length (endOf s front) (taken n size') =
      endOf s front + (bhdrOverhead + n) := endOf_taken h
  unfold endOf at *
  rw [stopOf_append, stopOf_append, stopOf_append, htaken]
  rfl

theorem le_takenSize (h : size' ≤ n) : size' ≤ takenSize n size' := by
  unfold takenSize
  split
  · exact Nat.le_refl _
  · exact h

theorem takenSize_lt : takenSize n size' < size' + sizeofBhdr := by
  unfold takenSize sizeofBhdr
  split <;> omega

theorem used_taken (h : size' ≤ n) (hne : takenSize n size' ≠ 0) :
    Used s (front ++ (taken n size' ++ back)) a k ↔ Used s front a k ∨
      (a = endOf s front ∧ k = takenSize n size') ∨
        Used (endOf s front + (bhdrOverhead + n)) back a k := by
  rw [used_append, used_append, endOf_taken h]
  refine or_congr_right (or_congr_left ?_)
  unfold taken takenSize at *
  split at hne
  · next hsplit =>
    rw [if_pos hsplit, if_pos hsplit, used_cons, used_cons]
    constructor
    · rintro (⟨-, rfl, h⟩ | ⟨-, -, h⟩ | ⟨-, h⟩)
      · cases h
        exact ⟨rfl, rfl⟩
      · cases h
      · cases h
    · rintro ⟨rfl, rfl⟩
      exact .inl ⟨hne, rfl, rfl⟩
  · next hsplit =>
    rw [if_neg hsplit, if_neg hsplit, used_cons]
    constructor
    · rintro (⟨-, rfl, h⟩ | ⟨-, h⟩)
      · cases h
        exact ⟨rfl, rfl⟩
      · cases h
    · rintro ⟨rfl, rfl⟩
      exact .inl ⟨hne, rfl, rfl⟩

theorem Spaced.cons_used {l : List Block} (h : Spaced l) : Spaced (⟨m, false⟩ :: l) :=
  List.isChain_cons.mpr ⟨fun _ _ hf => (by cases hf.1), h⟩

theorem Spaced.append_used {l : List Block} (h : Spaced front) (hl : Spaced l) :
    Spaced (front ++ ⟨m, false⟩ :: l) := by
  refine List.isChain_append.mpr ⟨h, hl.cons_used, fun x _ y hy => ?_⟩
  cases hy
  exact fun hf => by cases hf.2

theorem taken_spaced (hfront : Spaced front) (hback : Spaced (c :: back)) (hc : c.free = false) :
    Spaced (front ++ (taken n size' ++ c :: back)) := by
  unfold taken
  split
  · refine hfront.append_used (List.isChain_cons_cons.mpr ⟨fun hf => ?_, hback⟩)
    rw [hc] at hf
    cases hf.2
  · exact hfront.append_used hback

/-! ## The rest of a block -/

/-- The bytes of a free block are not kept for anyone. -/
theorem kept_split : Kept s front m held (⟨t, true⟩ :: back) k ↔
    Kept s front (m + (bhdrOverhead + t)) held back k := by
  have hplace : endOf s front + (bhdrOverhead + (m + (bhdrOverhead + t))) =
      endOf s front + (bhdrOverhead + m) + (bhdrOverhead + t) := by omega
  have haround : UserByte (endOf s front + (bhdrOverhead + m)) ([] ++ ⟨t, true⟩ :: back) k ↔ _ :=
    userByte_around
  unfold Kept
  rw [hplace]
  refine or_congr_right (or_congr_left (haround.trans (or_iff_right ?_)))
  rintro ⟨a, j, ⟨-, ha⟩, -⟩
  cases ha

/-- Behind the front of the block there is a header now. -/
theorem Loose.split (h : Loose heap₀ heap s front shown (m + (bhdrOverhead + t)) held p back)
    (hfront : front ≠ []) (hback : back ≠ []) (hm : blockAlign ∣ m) (hne : m ≠ 0) (ht : t ≠ 0)
    (hb : HeaderAt heap (endOf s front + (bhdrOverhead + m)) ⟨t, true⟩ none)
    (hp : p = some (endOf s front + (bhdrOverhead + m))) (hheld : held ≤ m) :
    Loose heap₀ heap s front shown m held none (⟨t, true⟩ :: back) := by
  have hplace : endOf s front + (bhdrOverhead + m) + (bhdrOverhead + t) =
      endOf s front + (bhdrOverhead + (m + (bhdrOverhead + t))) := by omega
  have htdvd : blockAlign ∣ t := by
    have hall := h.aligned
    rw [Nat.dvd_add_right hm, Nat.dvd_add_right (by decide)] at hall
    exact hall
  subst hp
  refine ⟨?_, h.frontHeaders, h.header, ⟨hb, ?_⟩, hheld,
    h.same.mono fun k hk => kept_split.mp hk⟩
  · refine h.room.splice (l := [⟨m + (bhdrOverhead + t), false⟩]) (r := [⟨m, false⟩, ⟨t, true⟩])
      hfront hback (fun x => ?_) (fun b hb => ?_) (fun b hb => ?_)
    · change x + (bhdrOverhead + m) + (bhdrOverhead + t) = x + (bhdrOverhead + (m + (bhdrOverhead + t)))
      omega
    · cases hb with
      | head => exact hm
      | tail _ hb =>
        cases List.mem_singleton.mp hb
        exact htdvd
    · cases hb with
      | head => exact hne
      | tail _ hb =>
        cases List.mem_singleton.mp hb
        exact ht
  · change Headers heap _ (endOf s front + (bhdrOverhead + m) + (bhdrOverhead + t)) back
    rw [hplace]
    exact h.backHeaders

theorem freeOf_split :
    Function.update (freeOf s (front ++ ⟨m + (bhdrOverhead + t), false⟩ :: back))
      (endOf s front + (bhdrOverhead + m)) (some t) =
        freeOf s (front ++ ⟨m, false⟩ :: ⟨t, true⟩ :: back) := by
  apply update_freeOf_append (Nat.le_add_right _ _)
  have hplace : endOf s front + (bhdrOverhead + m) + (bhdrOverhead + t) =
      endOf s front + (bhdrOverhead + (m + (bhdrOverhead + t))) := by omega
  change Function.update (freeOf (endOf s front + (bhdrOverhead + (m + (bhdrOverhead + t)))) back) _ _ =
    Function.update (freeOf (endOf s front + (bhdrOverhead + m) + (bhdrOverhead + t)) back) _ _
  rw [hplace]
  rfl

theorem freeOf_split_none :
    freeOf s (front ++ ⟨m + (bhdrOverhead + t), false⟩ :: back)
      (endOf s front + (bhdrOverhead + m)) = none := by
  rw [Option.eq_none_iff_forall_ne_some]
  intro j hj
  have hmem := freeOf_eq_some_iff.mp hj
  have hhdr : bhdrOverhead = 16 := rfl
  have hlen : Block.length ⟨m + (bhdrOverhead + t), false⟩ =
    bhdrOverhead + (m + (bhdrOverhead + t)) := rfl
  have hlen' : Block.length ⟨j, true⟩ = bhdrOverhead + j := rfl
  rcases placed_disjoint placed_middle hmem with heq | hle | hle
  · have hplace := congrArg Prod.fst heq
    dsimp only at hplace
    omega
  · omega
  · omega

/-- The end of both functions: the rest goes on its list, and the header of the front is written. -/
theorem outcome_place (h : Loose heap₀ heap s front shown m held none (⟨t, true⟩ :: c :: back))
    (hbin : Binned heap (freeOf s (front ++ ⟨m + (bhdrOverhead + t), false⟩ :: c :: back)))
    (hshown : blockAlign ∣ shown.size)
    (hspaced : Spaced (front ++ ⟨m, false⟩ :: ⟨t, true⟩ :: c :: back)) :
    Outcome (do
        let (fl, sl) ← mappingInsert t
        insertBlock (endOf s front + (bhdrOverhead + m)) fl sl
        setWord (size (endOf s front)) (m ||| ((← word (size (endOf s front))) &&& prevFree)))
      (fun _ heap' => Tidy heap' s (front ++ ⟨m, false⟩ :: ⟨t, true⟩ :: c :: back) ∧
        Same (Kept s front m held (⟨t, true⟩ :: c :: back)) heap₀ heap')
      (fun _ _ => False) heap := by
  have hrest : (endOf s front + (bhdrOverhead + m), (⟨t, true⟩ : Block)) ∈
      placedAt s (front ++ ⟨m, false⟩ :: ⟨t, true⟩ :: c :: back) := placed_behind
  have ht : t ≠ 0 := h.room.free (placed_mem hrest) rfl
  refine outcome_step (mappingInsert_ok h.behind_small) ?_
  refine (outcome_insertBlock hbin (h.room.listable hrest ht) freeOf_split_none).seq ?_
  rintro ⟨⟩ heap₁ ⟨hbin₁, hr⟩
  rw [freeOf_split] at hbin₁ hr
  have h₁ := h.relink hr fun x hx => .inr hx
  refine outcome_word (h₁.header_accessible (.inl rfl)) ?_
  rw [h₁.header.sizeWord, and_prevFree hshown, or_flag h.aligned]
  refine Outcome.of_ok (setWord_ok (h₁.header_accessible (.inl rfl))) ?_
  have h₂ := h₁.put_header (b := ⟨m, false⟩) (.inl rfl)
    ⟨at_put (headerWord_lt h.small), fun q hq =>
      (at_put_of_disjoint (by unfold prevHdr size; omega)).trans (h₁.header.prevWord q hq)⟩
  refine ⟨⟨h₂.room, h₂.headers, ?_, hspaced⟩, h₂.same⟩
  exact h₁.room.put_binned hbin₁ placed_middle (Nat.le_add_right _ _) (.inl (Nat.le_refl _))

/-- The beginning of both functions: the rest gets a header, and the block behind is told where. -/
theorem outcome_rest {α : Type} {Q : α → Heap → Prop} {f : Unit → Program α}
    (h : Loose heap₀ heap s front shown (m + (bhdrOverhead + t)) held p (c :: back))
    (hbin : Binned heap (freeOf s (front ++ ⟨m + (bhdrOverhead + t), false⟩ :: c :: back)))
    (hm : blockAlign ∣ m) (ht : 16 ≤ t) (hheld : held ≤ m)
    (hf : ∀ heap', Loose heap₀ heap' s front shown (m + (bhdrOverhead + t)) held
        (p.map fun _ => endOf s front + (bhdrOverhead + m)) (c :: back) →
      Binned heap' (freeOf s (front ++ ⟨m + (bhdrOverhead + t), false⟩ :: c :: back)) →
      heap'.at (size (endOf s front + (bhdrOverhead + m))) = headerWord t true false →
      heap'.at (prevHdr (endOf s front + (bhdrOverhead + (m + (bhdrOverhead + t))))) =
        endOf s front + (bhdrOverhead + m) → Outcome (f ⟨⟩) Q (fun _ _ => False) heap') :
    Outcome (setWord (size (endOf s front + (bhdrOverhead + m))) (t ||| freeBlock) >>= fun _ =>
        setWord (prevHdr (endOf s front + (bhdrOverhead + (m + (bhdrOverhead + t)))))
          (endOf s front + (bhdrOverhead + m)) >>= f) Q (fun _ _ => False) heap := by
  have hhdr : bhdrOverhead = 16 := rfl
  have hn := h.small
  have htdvd : blockAlign ∣ t := by
    have hall := h.aligned
    rw [Nat.dvd_add_right hm, Nat.dvd_add_right (by decide)] at hall
    exact hall
  have hlen : Block.length ⟨m + (bhdrOverhead + t), false⟩ =
    bhdrOverhead + (m + (bhdrOverhead + t)) := rfl
  rw [show t ||| freeBlock = headerWord t true false from or_freeBlock (f := false) (p := false) htdvd]
  refine outcome_setWord (h.room.accessible placed_middle (by unfold size; omega)
    (by unfold size; omega)) ?_
  have h₁ := h.put_inside (y := size (endOf s front + (bhdrOverhead + m)))
    (v := headerWord t true false) (by unfold size; omega) (by unfold size; omega)
  have hbin₁ := h.room.put_binned (y := size (endOf s front + (bhdrOverhead + m)))
    (v := headerWord t true false) hbin placed_middle (by unfold size; omega)
    (.inr ⟨rfl, by unfold size; omega⟩)
  have hrest : (heap.put (size (endOf s front + (bhdrOverhead + m)))
      (headerWord t true false)).at (size (endOf s front + (bhdrOverhead + m))) =
        headerWord t true false := at_put (headerWord_lt (by omega))
  refine outcome_setWord (h₁.behind_accessible (.inr rfl)) ?_
  have hb64 : endOf s front + (bhdrOverhead + m) < 2 ^ 64 := by
    have hend := (h.room.small placed_behind).2
    omega
  have hflag : (p.map fun _ => endOf s front + (bhdrOverhead + m)).isSome = p.isSome := by
    cases p <;> rfl
  refine hf _ (h₁.put_behind (.inr rfl) ⟨?_, fun q hq => ?_⟩) ?_ ?_ (at_put hb64)
  · rw [hflag]
    exact (at_put_of_disjoint (by unfold prevHdr size; omega)).trans h₁.backHeaders.1.sizeWord
  · cases p with
    | none => cases hq
    | some _ => exact (at_put hb64).trans (Option.some.inj hq)
  · exact h₁.room.put_binned hbin₁ placed_behind (Nat.le_refl _) (.inl (by unfold prevHdr; omega))
  · exact (at_put_of_disjoint (by unfold prevHdr size; omega)).trans hrest

theorem outcome_takeBlock
    (h : Loose heap₀ heap s front ⟨n, true⟩ n 0 (some (endOf s front)) (c :: back))
    (hbin : Binned heap (freeOf s (front ++ ⟨n, false⟩ :: c :: back))) (hfront : front ≠ [])
    (hle : size' ≤ n) (hdvd : blockAlign ∣ size') (hne : size' ≠ 0) (hfs : Spaced front)
    (hbs : Spaced (c :: back)) (hc : c.free = false) :
    Outcome (takeBlock (endOf s front) size') (fun _ heap' =>
      Tidy heap' s (front ++ (taken n size' ++ c :: back)) ∧
      Same (Kept s front n 0 (c :: back)) heap₀ heap')
      (fun _ _ => False) heap := by
  have hhdr : bhdrOverhead = 16 := rfl
  have hn := h.small
  have hread := h.header.sizeWord
  dsimp only at hread
  have hmask := and_tlsfBlockSize (f := true) (p := (lastFree none s front).isSome) h.aligned hn
  have hspaced : Spaced (front ++ (taken n size' ++ c :: back)) := taken_spaced hfs hbs hc
  unfold takeBlock
  refine outcome_word (h.header_accessible (.inl rfl)) ?_
  refine outcome_word (h.header_accessible (.inl rfl)) ?_
  rw [hread, hmask, minus_of_le hle (by unfold maxSize at hn; omega)]
  simp only [getNextBlock_eq]
  unfold taken at hspaced ⊢
  by_cases hsplit : sizeofBhdr ≤ n - size'
  · rw [if_pos hsplit] at hspaced ⊢
    rw [if_pos hsplit, minus_of_le (by unfold sizeofBhdr at hsplit; omega)
      (by unfold maxSize at hn; omega)]
    obtain ⟨t, ht⟩ : ∃ t, t = n - size' - bhdrOverhead := ⟨_, rfl⟩
    rw [← ht] at hspaced ⊢
    unfold sizeofBhdr at hsplit
    obtain rfl : n = size' + (bhdrOverhead + t) := by omega
    refine outcome_rest h hbin hdvd (by omega) (Nat.zero_le _) fun heap₂ h₂ hbin₂ hrest _ => ?_
    have h₃ := h₂.split hfront (List.cons_ne_nil _ _) hdvd hne (by omega)
      ⟨hrest, fun q hq => by cases hq⟩ rfl (Nat.zero_le _)
    refine (outcome_place h₃ hbin₂ h.aligned hspaced).post ?_
    rintro ⟨⟩ heap₄ ⟨htidy, hsame⟩
    exact ⟨htidy, hsame.mono fun k hk => kept_split.mpr hk⟩
  · rw [if_neg hsplit] at hspaced ⊢
    rw [if_neg hsplit]
    refine outcome_word (h.behind_accessible (.inl rfl)) ?_
    rw [h.backHeaders.1.sizeWord, and_not_prevFree h.behind_aligned h.behind_small]
    refine outcome_setWord (h.behind_accessible (.inl rfl)) ?_
    have h₁ := h.put_behind (v := headerWord c.size c.free false) (q := none) (.inl rfl)
      ⟨at_put (headerWord_lt h.behind_small), fun q hq => by cases hq⟩
    have hbin₁ := h.room.put_binned (y := size (endOf s front + (bhdrOverhead + n)))
      (v := headerWord c.size c.free false) hbin placed_behind (Nat.le_add_right _ _)
      (.inl (Nat.le_refl _))
    refine outcome_word (h₁.header_accessible (.inl rfl)) ?_
    have hread₁ := h₁.header.sizeWord
    dsimp only at hread₁
    rw [hread₁, and_not_freeBlock h.aligned hn]
    refine Outcome.of_ok (setWord_ok (h₁.header_accessible (.inl rfl))) ?_
    have h₂ := h₁.put_header (b := ⟨n, false⟩) (.inl rfl)
      ⟨at_put (headerWord_lt hn), fun q hq =>
        (at_put_of_disjoint (by unfold prevHdr size; omega)).trans (h₁.header.prevWord q hq)⟩
    refine ⟨⟨h₂.room, h₂.headers, ?_, hspaced⟩, h₂.same⟩
    exact h₁.room.put_binned hbin₁ placed_middle (Nat.le_add_right _ _) (.inl (Nat.le_refl _))

end

end Egos.Libc.Tlsf
