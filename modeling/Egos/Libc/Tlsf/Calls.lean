import Egos.Libc.Tlsf.Realloc

/-!
# The calls of a process

What `tlsf_malloc`, `tlsf_free`, `tlsf_realloc` and `tlsf_calloc` do to a sound pool, and to the bytes that
the process has in it.
-/
namespace Egos.Libc.Tlsf

open Egos.Disk (Stop)
open Egos.Lib

set_option autoImplicit false

section

variable {heap heap' : Heap} {s n m a k x fuel size' held : Nat} {blocks blocks' : List Block}

/-! ## Bytes of a used block -/

theorem Sound.used_ok (h : Sound heap s blocks) (hu : Used s blocks a n) (ha : a ≠ s) :
    heap.Accessible (size a) 8 ∧ heap.at (size a) &&& tlsfBlockSize = n ∧
      heap.Accessible (buffer a) n ∧ n < maxSize ∧ blockAlign ∣ a ∧ a < 2 ^ 64 := by
  obtain ⟨front, c, back, rfl, rfl, hfront, -⟩ := exists_middle h hu ha
  have hloose := h.tidy.loose hfront hu.1 (Nat.zero_le n)
  have hlen : Block.length ⟨n, false⟩ = bhdrOverhead + n := rfl
  refine ⟨hloose.header_accessible (.inl rfl), ?_, ?_, hloose.small, h.tidy.room.dvd placed_middle,
    (h.tidy.room.small placed_middle).2⟩
  · have hread := hloose.header.sizeWord
    dsimp only at hread
    rw [hread]
    exact and_tlsfBlockSize hloose.aligned hloose.small
  · exact h.tidy.room.accessible placed_middle (Nat.le_add_right _ _)
      (by rw [hlen]; unfold buffer; omega)

theorem Sound.write (h : Sound heap s blocks) (hu : Used s blocks a n) (ha : a ≠ s)
    {memory : Buffer} (hsame : ∀ k, k < buffer a ∨ buffer a + n ≤ k → memory k = heap.memory k) :
    Sound { heap with memory := memory } s blocks := by
  have hhdr : bhdrOverhead = 16 := rfl
  have hlen : Block.length ⟨n, false⟩ = bhdrOverhead + n := rfl
  have hall : Same (fun k => k < buffer a ∨ buffer a + n ≤ k) heap { heap with memory := memory } :=
    ⟨rfl, rfl, rfl, rfl, rfl, hsame⟩
  refine h.of_same ⟨h.tidy.room.same hall, ?_, ?_, h.tidy.spaced⟩ hall (fun k hlow hhigh => ?_) rfl
  · refine h.tidy.headers.congr fun x b hx k hlow hhigh => hsame k ?_
    have hb : bhdrOverhead ≤ b.length := Nat.le_add_right _ _
    unfold buffer
    rcases placed_disjoint hx hu.2 with heq | hle | hle
    · cases heq
      omega
    · omega
    · omega
  · refine h.tidy.binned.congr rfl (fun _ h => h) fun k hk => hsame k ?_
    by_contra hin
    unfold buffer at hin
    exact h.tidy.room.not_linkByte hu.2 (by omega) (.inr ⟨rfl, by omega⟩) hk
  · -- the first block says which area this is
    obtain ⟨l, hl⟩ := List.head?_eq_some_iff.mp h.tidy.room.first
    have hfirst : (s, (⟨sizeofAreaInfo, false⟩ : Block)) ∈ placedAt s blocks := by
      rw [hl]
      exact List.mem_cons_self
    have hlen' : Block.length ⟨sizeofAreaInfo, false⟩ = bhdrOverhead + sizeofAreaInfo := rfl
    unfold buffer at *
    rcases placed_disjoint hfirst hu.2 with heq | hle | hle
    · cases heq
      exact absurd rfl ha
    · omega
    · omega

theorem used_disjoint (hx : Used s blocks x k) (ha : Used s blocks a n) :
    (x = a ∧ k = n) ∨ x + (bhdrOverhead + k) ≤ a ∨ a + (bhdrOverhead + n) ≤ x := by
  rcases placed_disjoint hx.2 ha.2 with heq | hle | hle
  · cases heq
    exact .inl ⟨rfl, rfl⟩
  · exact .inr (.inl hle)
  · exact .inr (.inr hle)

theorem Used.unique (hk : Used s blocks a k) (hn : Used s blocks a n) : k = n := by
  have hhdr : bhdrOverhead = 16 := rfl
  obtain ⟨-, heq⟩ | hle | hle := used_disjoint hk hn
  · exact heq
  · omega
  · omega

/-! ## `realloc_ex` -/

theorem asked_of_dvd (hdvd : blockAlign ∣ n) (hmin : minBlockSize ≤ n) (hn : n + 15 < 2 ^ 64) :
    asked n = n := by
  obtain ⟨c, rfl⟩ := hdvd
  unfold asked roundUpSize
  rw [if_neg (by omega), Nat.mod_eq_of_lt (by unfold blockAlign at *; omega)]
  unfold blockAlign
  omega

theorem asked_asked (h : size' < maxSize) : asked (asked size') = asked size' := by
  obtain ⟨-, hmin, hdvd⟩ := asked_ok h
  refine asked_of_dvd hdvd hmin ?_
  unfold maxSize at h
  unfold asked minBlockSize roundUpSize blockAlign
  split <;> omega

theorem Modest.asked (h : Modest heap size') (hs : Room heap s blocks) : Modest heap (asked size') := by
  have hw : wanted (Tlsf.asked size') = wanted size' := by
    unfold wanted
    rw [asked_asked h.lt]
  exact ⟨Nat.lt_of_le_of_lt (le_classSize _) (h.wanted_lt hs), hw ▸ h.room⟩

/-- The block at `a` is at `a'` now and has `m` bytes, the first `held` of which have come with it. -/
structure Reallocated (heap heap' : Heap) (s : Nat) (blocks blocks' : List Block)
    (a a' m held : Nat) : Prop where
  sound : Sound heap' s blocks'
  ne_start : a' ≠ s
  used : ∀ x k, Used s blocks' x k ↔ (Used s blocks x k ∧ x ≠ a) ∨ (x = a' ∧ k = m)
  mp : heap'.mp = heap.mp
  dataEnd : heap'.dataEnd = heap.dataEnd
  held : ∀ i < held, heap'.memory (buffer a' + i) = heap.memory (buffer a + i)
  memory : ∀ k, s + 32 ≤ k → OtherByte s blocks a k → heap'.memory k = heap.memory k

theorem Resized.reallocated (h : Resized heap heap' s blocks blocks' a m held) (ha : a ≠ s) :
    Reallocated heap heap' s blocks blocks' a a m held := by
  refine ⟨h.sound, ha, h.used, h.same.mp, h.same.dataEnd, fun i hi => ?_,
    fun k _ hk => h.same.memory k (.inl hk)⟩
  exact h.same.memory _ (.inr ⟨Nat.le_add_right _ _, Nat.add_lt_add_left hi _⟩)

theorem Resized.weaken {held' : Nat} (h : Resized heap heap' s blocks blocks' a m held)
    (hle : held' ≤ held) : Resized heap heap' s blocks blocks' a m held' :=
  ⟨h.sound, h.used, h.same.mono fun _ hk => hk.imp_right fun hk => ⟨hk.1, by omega⟩⟩

theorem Reallocated.weaken {a' held' : Nat} (h : Reallocated heap heap' s blocks blocks' a a' m held)
    (hle : held' ≤ held) : Reallocated heap heap' s blocks blocks' a a' m held' :=
  ⟨h.sound, h.ne_start, h.used, h.mp, h.dataEnd, fun i hi => h.held i (by omega), h.memory⟩

theorem outcome_moveBlock (h : Sound heap s blocks) (hu : Used s blocks a n) (ha : a ≠ s)
    (hm : Modest heap size') (hfuel : 2 ≤ fuel) (hlt : n < asked size') :
    Outcome (moveBlock fuel (buffer a) (asked size')) (fun r heap' => ∃ a' m blocks',
      r = buffer a' ∧ wanted size' ≤ m ∧ m < wanted size' + sizeofBhdr ∧
      Reallocated heap heap' s blocks blocks' a a' m n ∧
      (heap'.brk = heap.brk ∨ Exhausted s blocks (wanted size') ∧
        heap'.brk = some (endOf s blocks + areaFor (wanted size')))) (fun _ _ => False) heap := by
  have hhdr : bhdrOverhead = 16 := rfl
  have hwanted : wanted (asked size') = wanted size' := by
    unfold wanted
    rw [asked_asked hm.lt]
  unfold moveBlock
  dsimp only
  refine (outcome_mallocEx h (hm.asked h.tidy.room) hfuel).seq ?_
  rintro r heap₁ ⟨a', m, blocks₁, rfl, hall⟩
  have hlarge := hall.large
  have htight := hall.tight
  have hgrowth := hall.growth
  rw [hwanted] at hlarge htight hgrowth
  rw [if_neg (by unfold buffer; omega), show buffer a - bhdrOverhead = a from Nat.add_sub_cancel _ _]
  have hu₁ : Used s blocks₁ a n := (hall.used a n).mpr (.inl hu)
  have hu' : Used s blocks₁ a' m := (hall.used a' m).mpr (.inr ⟨rfl, rfl⟩)
  obtain ⟨hacc, hsize, hbytes, hsmall, -⟩ := hall.sound.used_ok hu₁ ha
  obtain ⟨-, -, hbytes', -⟩ := hall.sound.used_ok hu' hall.ne_start
  refine outcome_word hacc ?_
  rw [hsize, if_neg (by omega), Nat.mod_eq_of_lt (by unfold maxSize at hsmall; omega)]
  have hle : n ≤ m := by
    have := le_classSize (asked size')
    unfold wanted at hlarge
    omega
  -- the bytes go over
  refine outcome_step (copyBytes_ok (hbytes'.part (Nat.le_refl _) (by omega)) hbytes) ?_
  have h₂ : Sound { heap₁ with memory := moved heap₁.memory (buffer a') (buffer a) n } s blocks₁ :=
    hall.sound.write hu' hall.ne_start fun k hk => moved_outside (by omega)
  refine (outcome_freeEx h₂ hu₁ ha).seq ?_
  rintro ⟨⟩ heap₃ ⟨blocks₃, hfreed⟩
  have hne : a' ≠ a := by
    rintro rfl
    exact hall.unused n hu
  refine ⟨a', m, blocks₃, rfl, hlarge, htight, ⟨hfreed.sound, hall.ne_start, fun x k => ?_,
    hfreed.same.mp.trans hall.untouched.mp, hfreed.same.dataEnd.trans hall.untouched.dataEnd,
    fun i hi => ?_, fun k hlow hk => ?_⟩, ?_⟩
  · rw [hfreed.used, hall.used]
    constructor
    · rintro ⟨hx | hx, hxa⟩
      · exact .inl ⟨hx, hxa⟩
      · exact .inr hx
    · rintro (⟨hx, hxa⟩ | ⟨rfl, rfl⟩)
      · exact ⟨.inl hx, hxa⟩
      · exact ⟨.inr ⟨rfl, rfl⟩, hne⟩
  · have hstart : s + 32 ≤ buffer a := by
      obtain ⟨l, hl⟩ := List.head?_eq_some_iff.mp h.tidy.room.first
      have hfirst : Used s blocks s sizeofAreaInfo := by
        rw [hl]
        exact ⟨by decide, List.mem_cons_self⟩
      have hinfo : sizeofAreaInfo = 16 := rfl
      have hbounds : s ≤ a := (placed_bounds hu.2).1
      unfold buffer
      rcases used_disjoint hu hfirst with ⟨heq, -⟩ | hle | hle
      · exact absurd heq ha
      · omega
      · omega
    rw [hfreed.same.memory _ ⟨a', m, hu', hne, Nat.le_add_right _ _, by omega⟩]
    change moved heap₁.memory (buffer a') (buffer a) n (buffer a' + i) = _
    rw [moved_inside hi]
    exact hall.untouched.memory _ (by omega) ⟨a, n, hu, Nat.le_add_right _ _, by omega⟩
  · obtain ⟨x, j, hx, hxa, hklow, hkhigh⟩ := hk
    have hx₁ : Used s blocks₁ x j := (hall.used x j).mpr (.inl hx)
    rw [hfreed.same.memory k ⟨x, j, hx₁, hxa, hklow, hkhigh⟩]
    change moved heap₁.memory (buffer a') (buffer a) n k = _
    rw [moved_outside]
    · exact hall.untouched.memory k hlow ⟨x, j, hx, hklow, hkhigh⟩
    · unfold buffer at *
      rcases used_disjoint hx₁ hu' with ⟨rfl, -⟩ | hle | hle
      · exact absurd hx (hall.unused j)
      · omega
      · omega
  · rw [show heap₃.brk = heap₁.brk from hfreed.same.brk]
    exact hgrowth.imp_left fun h => h.1

/-- What is true of the end of the pool after a request: it has moved only if no free block is high
enough. -/
def Grown (s : Nat) (blocks : List Block) (size : Nat) (heap heap' : Heap) : Prop :=
  heap'.brk = heap.brk ∨ Exhausted s blocks (wanted size) ∧
    heap'.brk = some (endOf s blocks + areaFor (wanted size))

theorem Grown.le (h : Grown s blocks size' heap heap') (hs : Room heap s blocks) :
    heap.brk.getD 0 ≤ heap'.brk.getD 0 := by
  rcases h with h | ⟨-, h⟩
  · rw [h]
  · rw [h, hs.brk, Option.getD_some, Option.getD_some]
    exact Nat.le_add_right _ _

theorem asked_le_wanted : asked size' ≤ wanted size' := le_classSize _

theorem reallocEx_used (h : Sound heap s blocks) (hu : Used s blocks a n) (ha : a ≠ s)
    (hsize : size' ≠ 0) :
    reallocEx fuel (buffer a) size' heap = (if asked size' ≤ n then do
      shrinkBlock a (asked size') n
      pure (buffer a)
    else do
      if ← growBlock a (asked size') n then pure (buffer a)
      else moveBlock fuel (buffer a) (asked size') : Program Nat) heap := by
  have hhdr : bhdrOverhead = 16 := rfl
  obtain ⟨hacc, hread, -⟩ := h.used_ok hu ha
  unfold reallocEx
  rw [if_neg (by unfold buffer; omega), if_neg hsize]
  dsimp only
  rw [show buffer a - bhdrOverhead = a from Nat.add_sub_cancel _ _,
    show (if size' < minBlockSize then minBlockSize else roundUpSize size') = asked size' from rfl,
    bind_ok (word_ok hacc), hread]

theorem outcome_reallocEx_inPlace (h : Sound heap s blocks) (hu : Used s blocks a n) (ha : a ≠ s)
    (hlt : size' < maxSize) (hsize : size' ≠ 0) (hfits : asked size' ≤ n) :
    Outcome (reallocEx fuel (buffer a) size') (fun r heap' => r = buffer a ∧ ∃ m blocks',
      size' ≤ m ∧ m < asked size' + sizeofBhdr ∧ Resized heap heap' s blocks blocks' a m size')
      (fun _ _ => False) heap := by
  obtain ⟨hle, hmin, hdvd⟩ := asked_ok hlt
  unfold Outcome
  rw [reallocEx_used h hu ha hsize, if_pos hfits]
  obtain ⟨front, c, back, rfl, rfl, -, hfirst, hfs, hbs⟩ := exists_middle h hu ha
  refine (outcome_shrinkBlock h hfirst hu.1 hfits hdvd (by unfold minBlockSize at hmin; omega)
    hfs hbs).seq ?_
  rintro ⟨⟩ heap' ⟨blocks', m, hlow, hhigh, hresized⟩
  exact ⟨rfl, m, blocks', by omega, hhigh, hresized.weaken hle⟩

/-- A used block gets another size, where it is or elsewhere. -/
theorem outcome_reallocEx (h : Sound heap s blocks) (hu : Used s blocks a n) (ha : a ≠ s)
    (hm : Modest heap size') (hfuel : 2 ≤ fuel) (hsize : size' ≠ 0) :
    Outcome (reallocEx fuel (buffer a) size') (fun r heap' => ∃ a' m blocks',
      r = buffer a' ∧ size' ≤ m ∧ m < wanted size' + sizeofBhdr ∧
      Reallocated heap heap' s blocks blocks' a a' m (min n size') ∧
      Grown s blocks size' heap heap') (fun _ _ => False) heap := by
  have hwanted : asked size' ≤ wanted size' := asked_le_wanted
  by_cases hfits : asked size' ≤ n
  · refine (outcome_reallocEx_inPlace h hu ha hm.lt hsize hfits).post ?_
    rintro r heap' ⟨rfl, m, blocks', hlow, hhigh, hresized⟩
    exact ⟨a, m, blocks', rfl, hlow, by omega,
      (hresized.reallocated ha).weaken (Nat.min_le_right _ _), .inl hresized.same.brk⟩
  · obtain ⟨hle, -, hdvd⟩ := asked_ok hm.lt
    unfold Outcome
    rw [reallocEx_used h hu ha hsize, if_neg hfits]
    have hused := hu
    obtain ⟨front, c, back, rfl, rfl, -, hfirst, hfs, hbs⟩ := exists_middle h hu ha
    refine (outcome_growBlock h hfirst hu.1 (by omega) hdvd hfs hbs).seq ?_
    rintro r heap' (⟨rfl, rfl⟩ | ⟨rfl, blocks', m, hlow, hhigh, hresized⟩)
    · rw [if_neg (by decide)]
      refine (outcome_moveBlock h hu ha hm hfuel (by omega)).post ?_
      rintro r heap' ⟨a', m, blocks', rfl, hlow, hhigh, hmoved, hgrown⟩
      exact ⟨a', m, blocks', rfl, by omega, hhigh, hmoved.weaken (Nat.min_le_left _ _), hgrown⟩
    · rw [if_pos rfl]
      exact ⟨_, m, blocks', rfl, by omega, by omega,
        (hresized.reallocated ha).weaken (Nat.min_le_left _ _), .inl hresized.same.brk⟩

/-! ## `calloc_ex` -/

theorem Allocated.write (h : Allocated heap heap' s blocks blocks' size' a n) {memory : Buffer}
    (hsame : ∀ k, k < buffer a ∨ buffer a + n ≤ k → memory k = heap'.memory k) :
    Allocated heap { heap' with memory := memory } s blocks blocks' size' a n := by
  have hhdr : bhdrOverhead = 16 := rfl
  have hu : Used s blocks' a n := (h.used a n).mpr (.inr ⟨rfl, rfl⟩)
  refine ⟨h.sound.write hu h.ne_start hsame, h.large, h.tight, h.ne_start, h.unused, h.used,
    ⟨h.untouched.mp, h.untouched.dataEnd, fun k hlow hk => ?_⟩, h.growth⟩
  rw [← h.untouched.memory k hlow hk]
  apply hsame
  obtain ⟨x, j, hx, hbyte⟩ := hk
  unfold buffer at *
  rcases used_disjoint ((h.used x j).mpr (.inl hx)) hu with ⟨rfl, -⟩ | hle | hle
  · exact absurd hx (h.unused j)
  · omega
  · omega

/-- The product is taken as it is in a word. -/
theorem outcome_callocEx {nelem elemSize : Nat} (h : Sound heap s blocks)
    (hsize : nelem * elemSize % 2 ^ 64 = size') (hm : Modest heap size') (hfuel : 2 ≤ fuel)
    (hne : nelem ≠ 0 ∧ elemSize ≠ 0) :
    Outcome (callocEx fuel nelem elemSize) (fun r heap' => ∃ a n blocks', r = buffer a ∧
      Allocated heap heap' s blocks blocks' size' a n ∧
      ∀ i < size', heap'.memory (buffer a + i) = 0) (fun _ _ => False) heap := by
  have hlt := hm.lt
  have hword : size' < 2 ^ 64 := by
    unfold maxSize at hlt
    omega
  have hle := (wanted_ok hlt).1
  unfold callocEx
  rw [if_neg (by omega)]
  dsimp only
  rw [hsize]
  refine (outcome_mallocEx h hm hfuel).seq ?_
  rintro r heap₁ ⟨a, n, blocks', rfl, hall⟩
  have hlarge := hall.large
  have hu : Used s blocks' a n := (hall.used a n).mpr (.inr ⟨rfl, rfl⟩)
  obtain ⟨-, -, hacc, -, hdvd, -⟩ := hall.sound.used_ok hu hall.ne_start
  rw [if_neg (by unfold buffer bhdrOverhead sizeofBhdr minBlockSize; omega)]
  refine outcome_step (onBytes_ok (hacc.part (Nat.le_refl _) (by omega))) ?_
  have hbuffer : Memset.align ∣ buffer a :=
    Nat.dvd_add (Nat.dvd_trans (by decide) hdvd) (by decide)
  rw [memset_aligned hbuffer hword]
  exact ⟨a, n, blocks', rfl, hall.write fun k hk => filled_outside (by omega),
    fun i hi => filled_inside hi⟩

/-! ## The first call -/

theorem firstArea_of_sound (h : Sound heap s blocks) : firstArea heap = .ok ⟨⟩ heap := by
  have hget : (get : Program Heap) heap = .ok heap heap := rfl
  unfold firstArea
  rw [bind_ok hget, if_neg h.tidy.room.mp_ne]
  rfl

end

end Egos.Libc.Tlsf
