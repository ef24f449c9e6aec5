import Egos.Libc.Tlsf.Blocks

/-!
# The pool

`Tidy heap s blocks` says that the blocks lie in the pool from `s` on, as headers and lists tell. In the
middle of a call that is not so: `Loose` leaves out one block, what its header shows, and what the block
behind is told.
-/
namespace Egos.Libc.Tlsf

open Egos.Disk (Stop)
open Egos.Lib

set_option autoImplicit false

/-- The first block is behind the pool header. -/
def poolStart (mp : Nat) : Nat := getNextBlock mp (roundUpSize sizeofTlsf)

theorem poolStart_eq (mp : Nat) : poolStart mp = mp + 6272 := rfl

/-- There is room for the blocks, up to the end of the areas. -/
structure Room (heap : Heap) (s : Nat) (blocks : List Block) : Prop where
  start : s = poolStart heap.mp
  mp_ne : heap.mp ≠ 0
  mp_dvd : blockAlign ∣ heap.mp
  brk : heap.brk = some (endOf s blocks)
  bound : endOf s blocks ≤ heap.mp + maxSize
  word : heap.mp + maxSize ≤ 2 ^ 64
  aligned : ∀ b ∈ blocks, blockAlign ∣ b.size
  full : ∀ b ∈ blocks.dropLast, b.size ≠ 0
  first : blocks.head? = some ⟨sizeofAreaInfo, false⟩
  last : blocks.getLast? = some ⟨0, false⟩

/-- Everything in the pool is as it should be. -/
structure Tidy (heap : Heap) (s : Nat) (blocks : List Block) : Prop where
  room : Room heap s blocks
  headers : Headers heap none s blocks
  binned : Binned heap (freeOf s blocks)
  spaced : Spaced blocks

/-- The bytes of the blocks in front and behind, and the first `held` bytes of the one between. -/
def Kept (s : Nat) (front : List Block) (n held : Nat) (back : List Block) (k : Nat) : Prop :=
  UserByte s front k ∨ UserByte (endOf s front + (bhdrOverhead + n)) back k ∨
    buffer (endOf s front) ≤ k ∧ k < buffer (endOf s front) + held

/-- The block between `front` and `back` has `n` bytes, but its header shows something else, and the
block behind thinks that `p` is in front of it. The bytes of the users are as in `heap₀`. -/
structure Loose (heap₀ heap : Heap) (s : Nat) (front : List Block) (shown : Block) (n held : Nat)
    (p : Option Nat) (back : List Block) : Prop where
  room : Room heap s (front ++ ⟨n, false⟩ :: back)
  frontHeaders : Headers heap none s front
  header : HeaderAt heap (endOf s front) shown (lastFree none s front)
  backHeaders : Headers heap p (endOf s front + (bhdrOverhead + n)) back
  held_le : held ≤ n
  same : Same (Kept s front n held back) heap₀ heap

section

variable {heap₀ heap heap' : Heap} {s n m x y a v held : Nat} {p p' : Option Nat} {b c shown : Block}
  {front back blocks blocks' : List Block} {F : Nat → Option Nat} {K : Nat → Prop} {f : Bool}

/-! ## Places -/

namespace Room

theorem free (h : Room heap s blocks) (hb : b ∈ blocks) (hf : b.free = true) : b.size ≠ 0 := by
  have hlast := h.last
  have hfull := h.full
  rcases List.eq_nil_or_concat' blocks with rfl | ⟨front, c, rfl⟩
  · cases hb
  · rw [List.getLast?_append_cons, List.getLast?_singleton] at hlast
    cases hlast
    rw [List.dropLast_concat] at hfull
    rcases List.mem_append.mp hb with hb | hb
    · exact hfull b hb
    · cases List.mem_singleton.mp hb
      cases hf

theorem start_dvd (h : Room heap s blocks) : blockAlign ∣ s := by
  rw [h.start, poolStart_eq]
  exact Nat.dvd_add h.mp_dvd (by decide)

theorem length_dvd (h : Room heap s blocks) (hb : b ∈ blocks) : blockAlign ∣ b.length :=
  Nat.dvd_add (by decide) (h.aligned b hb)

theorem dvd (h : Room heap s blocks) (hx : (x, b) ∈ placedAt s blocks) : blockAlign ∣ x :=
  placed_dvd h.start_dvd (fun _ hb => h.length_dvd hb) hx

theorem accessible (h : Room heap s blocks) (hx : (x, b) ∈ placedAt s blocks) (hy : x ≤ y)
    (hend : y + n ≤ x + b.length) : heap.Accessible y n := by
  have hbounds : s ≤ x ∧ x + b.length ≤ endOf s blocks := placed_bounds hx
  have hstart := h.start
  rw [poolStart_eq] at hstart
  unfold Heap.Accessible sizeofTlsf
  rw [h.brk, Option.getD_some]
  omega

theorem small (h : Room heap s blocks) (hx : (x, b) ∈ placedAt s blocks) :
    b.size < maxSize ∧ x < 2 ^ 64 := by
  have hbounds : s ≤ x ∧ x + (bhdrOverhead + b.size) ≤ endOf s blocks := placed_bounds hx
  have hstart := h.start
  have hbound := h.bound
  have hword := h.word
  rw [poolStart_eq] at hstart
  unfold bhdrOverhead sizeofBhdr minBlockSize at hbounds
  omega

theorem listable (h : Room heap s blocks) (hx : (x, b) ∈ placedAt s blocks) (hb : b.size ≠ 0) :
    Listable heap x b.size := by
  obtain ⟨hsmall, hlt⟩ := h.small hx
  refine ⟨h.dvd hx, hsmall, hlt, h.accessible hx (Nat.le_add_right _ _) ?_⟩
  obtain ⟨c, hc⟩ := h.aligned b (placed_mem hx)
  unfold buffer Block.length blockAlign at *
  omega

theorem same (h : Room heap s blocks) (hs : Same K heap heap') : Room heap' s blocks :=
  ⟨by rw [hs.mp]; exact h.start, by rw [hs.mp]; exact h.mp_ne, by rw [hs.mp]; exact h.mp_dvd, hs.brk.trans h.brk,
    by rw [hs.mp]; exact h.bound, by rw [hs.mp]; exact h.word, h.aligned, h.full, h.first, h.last⟩

theorem back_ne_nil (h : Room heap s (front ++ b :: back)) (hb : b.size ≠ 0) : back ≠ [] := by
  rintro rfl
  have hlast := h.last
  rw [List.getLast?_append_cons, List.getLast?_singleton] at hlast
  cases hlast
  exact hb rfl

theorem front_ne_nil (h : Room heap s (front ++ b :: back)) (hb : b.free = true) : front ≠ [] := by
  rintro rfl
  have hfirst := h.first
  cases hfirst
  cases hb

theorem splice {l r : List Block} (h : Room heap s (front ++ (l ++ back)))
    (hfront : front ≠ []) (hback : back ≠ []) (hend : ∀ x, endOf x r = endOf x l)
    (haligned : ∀ b ∈ r, blockAlign ∣ b.size) (hfull : ∀ b ∈ r, b.size ≠ 0) :
    Room heap s (front ++ (r ++ back)) := by
  have hsame : endOf s (front ++ (r ++ back)) = endOf s (front ++ (l ++ back)) := by
    unfold endOf at hend ⊢
    rw [stopOf_append, stopOf_append, stopOf_append, stopOf_append, hend]
  refine ⟨h.start, h.mp_ne, h.mp_dvd, by rw [hsame]; exact h.brk, by rw [hsame]; exact h.bound, h.word,
    fun b hb => ?_, fun b hb => ?_, ?_, ?_⟩
  · rcases List.mem_append.mp hb with hb | hb
    · exact h.aligned b (List.mem_append_left _ hb)
    · rcases List.mem_append.mp hb with hb | hb
      · exact haligned b hb
      · exact h.aligned b (List.mem_append_right _ (List.mem_append_right _ hb))
  · have hfulls := h.full
    have hne : ∀ d : List Block, d ++ back ≠ [] := fun d hnil => hback (List.append_eq_nil_iff.mp hnil).2
    rw [List.dropLast_append_of_ne_nil (hne _), List.dropLast_append_of_ne_nil hback] at hb hfulls
    rcases List.mem_append.mp hb with hb | hb
    · exact hfulls b (List.mem_append_left _ hb)
    · rcases List.mem_append.mp hb with hb | hb
      · exact hfull b hb
      · exact hfulls b (List.mem_append_right _ (List.mem_append_right _ hb))
  · have hfirst := h.first
    rw [List.head?_append_of_ne_nil _ hfront] at hfirst ⊢
    exact hfirst
  · have hlast := h.last
    have hne : ∀ d : List Block, d ++ back ≠ [] := fun d hnil => hback (List.append_eq_nil_iff.mp hnil).2
    rw [List.getLast?_append_of_ne_nil _ (hne _), List.getLast?_append_of_ne_nil _ hback] at hlast ⊢
    exact hlast

/-- Headers and used blocks have no links in them. -/
theorem not_linkByte (h : Room heap s blocks) {k : Nat} (hx : (x, b) ∈ placedAt s blocks)
    (hlow : x ≤ k) (hhigh : k < x + bhdrOverhead ∨ b.free = false ∧ k < x + b.length) :
    ¬ LinkByte (freeOf s blocks) k := by
  rintro ⟨a, ha, halow, hahigh⟩
  obtain ⟨m, hm⟩ := Option.isSome_iff_exists.mp ha
  have hmem := freeOf_eq_some_iff.mp hm
  obtain ⟨c, hc⟩ := h.aligned _ (placed_mem hmem)
  have hne := h.free (placed_mem hmem) rfl
  have hlen : Block.length ⟨m, true⟩ = bhdrOverhead + m := rfl
  have hlen' : b.length = bhdrOverhead + b.size := rfl
  unfold blockAlign at hc
  dsimp only at hc hne
  unfold buffer at halow hahigh
  rcases placed_disjoint hx hmem with heq | hle | hle
  · cases heq
    rcases hhigh with hhigh | ⟨hfree, -⟩
    · omega
    · cases hfree
  · omega
  · omega

/-- A word that has no byte of a link is written. -/
theorem put_binned (h : Room heap s blocks) (hbin : Binned heap (freeOf s blocks))
    (hx : (x, b) ∈ placedAt s blocks) (hlow : x ≤ y)
    (hhigh : y + 8 ≤ x + bhdrOverhead ∨ b.free = false ∧ y + 8 ≤ x + b.length) :
    Binned (heap.put y v) (freeOf s blocks) := by
  refine hbin.congr rfl (fun _ h => h) fun k hk => put_outside ?_
  by_contra hin
  exact h.not_linkByte hx (by omega) (hhigh.imp (by omega) fun ⟨hf, hl⟩ => ⟨hf, by omega⟩) hk

end Room

theorem placed_middle : (endOf s front, b) ∈ placedAt s (front ++ b :: back) := by
  unfold placedAt
  rw [placed_append]
  exact List.mem_append_right _ List.mem_cons_self

theorem placed_front (h : (x, c) ∈ placedAt s front) : (x, c) ∈ placedAt s (front ++ b :: back) := by
  unfold placedAt
  rw [placed_append]
  exact List.mem_append_left _ h

theorem placed_back (h : (x, c) ∈ placedAt (endOf s front + b.length) back) :
    (x, c) ∈ placedAt s (front ++ b :: back) := by
  unfold placedAt
  rw [placed_append]
  exact List.mem_append_right _ (List.mem_cons_of_mem _ h)

/-! ## Changes in a loose pool -/

/-- Only lists have changed, and they go through free blocks, and perhaps through the loose one. -/
theorem Loose.relink (h : Loose heap₀ heap s front shown n held p back) (hr : Relinked F heap heap')
    (hF : ∀ x, (F x).isSome →
      (x = endOf s front ∧ n ≠ 0 ∧ held = 0) ∨ (freeOf s (front ++ ⟨n, false⟩ :: back) x).isSome) :
    Loose heap₀ heap' s front shown n held p back := by
  -- a block with links, which is at least as long as they are
  have hblock : ∀ x, (F x).isSome → ∃ c : Block,
      (x, c) ∈ placedAt s (front ++ ⟨n, false⟩ :: back) ∧ 16 ≤ c.size ∧
        (c.free = true ∨ held = 0 ∧ x = endOf s front) := by
    intro x hx
    rcases hF x hx with ⟨rfl, hn, hheld⟩ | hfree
    · refine ⟨_, placed_middle, ?_, .inr ⟨hheld, rfl⟩⟩
      obtain ⟨c, hc⟩ := h.room.aligned _ (placed_mem (placed_middle (s := s)))
      unfold blockAlign at hc
      dsimp only at hc ⊢
      omega
    · obtain ⟨m, hm⟩ := Option.isSome_iff_exists.mp hfree
      have hmem := freeOf_eq_some_iff.mp hm
      refine ⟨_, hmem, ?_, .inl rfl⟩
      obtain ⟨c, hc⟩ := h.room.aligned _ (placed_mem hmem)
      have hne := h.room.free (placed_mem hmem) rfl
      unfold blockAlign at hc
      dsimp only at hc hne ⊢
      omega
  have hheader : ∀ y b, (y, b) ∈ placedAt s (front ++ ⟨n, false⟩ :: back) → ∀ k, y ≤ k →
      k < y + bhdrOverhead → heap'.memory k = heap.memory k := by
    intro y b hy k hlow hhigh
    apply hr.memory
    rintro ⟨x, hx, hxlow, hxhigh⟩
    obtain ⟨c, hc, hsize, -⟩ := hblock x hx
    unfold buffer at hxlow hxhigh
    rcases placed_disjoint hy hc with heq | hle | hle
    · cases heq
      omega
    · have hlen : b.length = bhdrOverhead + b.size := rfl
      omega
    · have hlen : c.length = bhdrOverhead + c.size := rfl
      omega
  have hat : ∀ y b z, (y, b) ∈ placedAt s (front ++ ⟨n, false⟩ :: back) →
      z = size y ∨ z = prevHdr y → heap'.at z = heap.at z := by
    intro y b z hy hz
    refine load_congr fun i hi => hheader y b hy _ ?_ ?_
    · unfold size prevHdr at hz
      omega
    · unfold size prevHdr at hz
      unfold bhdrOverhead sizeofBhdr minBlockSize
      omega
  refine ⟨h.room.same hr, ?_, ?_, ?_, h.held_le, h.same.trans (hr.mono fun k hk hlink => ?_)⟩
  · exact h.frontHeaders.congr fun y b hy => hheader y b (placed_front hy)
  · exact h.header.congr (hat _ _ _ placed_middle (.inl rfl)) (hat _ _ _ placed_middle (.inr rfl))
  · exact h.backHeaders.congr fun y b hy => hheader y b (placed_back hy)
  · -- a byte of a user is in none of those blocks
    obtain ⟨x, hx, hxlow, hxhigh⟩ := hlink
    obtain ⟨c, hc, hsize, hcfree⟩ := hblock x hx
    have hlen : c.length = bhdrOverhead + c.size := rfl
    have hother : ∀ y m, (y, ⟨m, false⟩) ∈ placedAt s (front ++ ⟨n, false⟩ :: back) →
        (y = endOf s front → held ≠ 0) → buffer y ≤ k → k < buffer y + m → False := by
      intro y m hy hne hlow hhigh
      have hlen' : Block.length ⟨m, false⟩ = bhdrOverhead + m := rfl
      unfold buffer at *
      rcases placed_disjoint hy hc with heq | hle | hle
      · cases heq
        rcases hcfree with hcfree | ⟨hheld, hcfree⟩
        · cases hcfree
        · exact hne hcfree hheld
      · omega
      · omega
    rcases hk with ⟨y, m, hy, hlow, hhigh⟩ | ⟨y, m, hy, hlow, hhigh⟩ | ⟨hlow, hhigh⟩
    · refine hother y m (placed_front hy.2) (fun heq => ?_) hlow hhigh
      have hbounds : s ≤ y ∧ y + (bhdrOverhead + m) ≤ endOf s front := placed_bounds hy.2
      unfold bhdrOverhead sizeofBhdr minBlockSize at hbounds
      omega
    · refine hother y m (placed_back hy.2) (fun heq => ?_) hlow hhigh
      have hbounds := (placed_bounds hy.2).1
      unfold bhdrOverhead sizeofBhdr minBlockSize at hbounds
      omega
    · have hheld := h.held_le
      exact hother (endOf s front) n placed_middle (fun _ => by omega) hlow (by omega)

theorem Loose.put_header (h : Loose heap₀ heap s front shown n held p back)
    (hy : y = size (endOf s front) ∨ y = prevHdr (endOf s front))
    (hb : HeaderAt (heap.put y v) (endOf s front) b (lastFree none s front)) :
    Loose heap₀ (heap.put y v) s front b n held p back := by
  unfold size prevHdr at hy
  have hhdr : bhdrOverhead = 16 := rfl
  have hput : Same (Kept s front n held back) heap (heap.put y v) := by
    apply Same.put
    rintro k hlow hhigh (hk | hk | hk)
    · have := hk.bounds
      omega
    · have := hk.bounds
      omega
    · unfold buffer at hk
      omega
  exact ⟨h.room.same hput, h.frontHeaders.put (.inr (by omega)), hb,
    h.backHeaders.put (.inl (by omega)), h.held_le, h.same.trans hput⟩

theorem Loose.put_behind {q : Option Nat} (h : Loose heap₀ heap s front shown n held p (c :: back))
    (hy : y = size (endOf s front + (bhdrOverhead + n)) ∨
      y = prevHdr (endOf s front + (bhdrOverhead + n)))
    (hc : HeaderAt (heap.put y v) (endOf s front + (bhdrOverhead + n)) c q) :
    Loose heap₀ (heap.put y v) s front shown n held q (c :: back) := by
  unfold size prevHdr at hy
  have hhdr : bhdrOverhead = 16 := rfl
  have hheld := h.held_le
  have hput : Same (Kept s front n held (c :: back)) heap (heap.put y v) := by
    apply Same.put
    rintro k hlow hhigh (hk | hk | hk)
    · have := hk.bounds
      omega
    · have := hk.bounds
      omega
    · unfold buffer at hk
      omega
  have hlen : bhdrOverhead ≤ c.length := Nat.le_add_right _ _
  refine ⟨h.room.same hput, h.frontHeaders.put (.inr (by omega)), ?_,
    ⟨hc, h.backHeaders.2.put (.inl (by omega))⟩, h.held_le, h.same.trans hput⟩
  refine h.header.congr (at_put_of_disjoint ?_) (at_put_of_disjoint ?_)
  · unfold size
    omega
  · unfold prevHdr
    omega

theorem Loose.put_inside (h : Loose heap₀ heap s front shown n held p back)
    (hlow : endOf s front + (bhdrOverhead + held) ≤ y)
    (hhigh : y + 8 ≤ endOf s front + (bhdrOverhead + n)) :
    Loose heap₀ (heap.put y v) s front shown n held p back := by
  have hhdr : bhdrOverhead = 16 := rfl
  have hput : Same (Kept s front n held back) heap (heap.put y v) := by
    apply Same.put
    rintro k hklow hkhigh (hk | hk | hk)
    · have := hk.bounds
      omega
    · have := hk.bounds
      omega
    · unfold buffer at hk
      omega
  refine ⟨h.room.same hput, h.frontHeaders.put (.inr (by omega)), ?_,
    h.backHeaders.put (.inl (by omega)), h.held_le, h.same.trans hput⟩
  refine h.header.congr (at_put_of_disjoint ?_) (at_put_of_disjoint ?_)
  · unfold size
    omega
  · unfold prevHdr
    omega

theorem Loose.absorb (h : Loose heap₀ heap s front shown n held p (⟨m, f⟩ :: back))
    (hfront : front ≠ []) (hback : back ≠ []) :
    Loose heap₀ heap s front shown (n + (bhdrOverhead + m)) held
      (if f then some (endOf s front + (bhdrOverhead + n)) else none) back := by
  have hplace : endOf s front + (bhdrOverhead + (n + (bhdrOverhead + m))) =
      endOf s front + (bhdrOverhead + n) + (bhdrOverhead + m) := by omega
  refine ⟨?_, h.frontHeaders, h.header, ?_, Nat.le_add_right_of_le h.held_le,
    h.same.mono fun k hk => hk.imp_right fun hk => hk.imp_left fun hk => ?_⟩
  · refine h.room.splice (l := [⟨n, false⟩, ⟨m, f⟩]) (r := [⟨n + (bhdrOverhead + m), false⟩])
      hfront hback (fun x => ?_) (fun b hb => ?_) (fun b hb => ?_)
    · change x + (bhdrOverhead + (n + (bhdrOverhead + m))) = x + (bhdrOverhead + n) + (bhdrOverhead + m)
      omega
    · cases List.mem_singleton.mp hb
      have hn := h.room.aligned ⟨n, false⟩ (List.mem_append_right _ List.mem_cons_self)
      have hm := h.room.aligned ⟨m, f⟩
        (List.mem_append_right _ (List.mem_cons_of_mem _ List.mem_cons_self))
      exact Nat.dvd_add hn (Nat.dvd_add (by decide) hm)
    · cases List.mem_singleton.mp hb
      unfold bhdrOverhead sizeofBhdr minBlockSize
      dsimp only
      omega
  · rw [hplace]
    exact h.backHeaders.2
  · rw [hplace] at hk
    exact userByte_append (l := [⟨m, f⟩]).mpr (.inr hk)

theorem Loose.retreat (h : Loose heap₀ heap s (front ++ [⟨m, f⟩]) shown n held p back)
    (hfront : front ≠ []) (hback : back ≠ []) :
    Loose heap₀ heap s front ⟨m, f⟩ (m + (bhdrOverhead + n)) 0 p back := by
  have hend : endOf s (front ++ [⟨m, f⟩]) = endOf s front + (bhdrOverhead + m) := by
    unfold endOf
    rw [stopOf_append]
    rfl
  have hplace : endOf s front + (bhdrOverhead + (m + (bhdrOverhead + n))) =
      endOf s (front ++ [⟨m, f⟩]) + (bhdrOverhead + n) := by omega
  obtain ⟨hfh, hheader, -⟩ := headers_append.mp h.frontHeaders
  refine ⟨?_, hfh, hheader, ?_, Nat.zero_le _, h.same.mono fun k hk => ?_⟩
  · have hroom := h.room
    rw [List.append_assoc] at hroom
    refine hroom.splice (l := [⟨m, f⟩, ⟨n, false⟩]) (r := [⟨m + (bhdrOverhead + n), false⟩])
      hfront hback (fun x => ?_) (fun b hb => ?_) (fun b hb => ?_)
    · change x + (bhdrOverhead + (m + (bhdrOverhead + n))) = x + (bhdrOverhead + m) + (bhdrOverhead + n)
      omega
    · cases List.mem_singleton.mp hb
      have hm := hroom.aligned ⟨m, f⟩ (List.mem_append_right _ List.mem_cons_self)
      have hn := hroom.aligned ⟨n, false⟩
        (List.mem_append_right _ (List.mem_cons_of_mem _ List.mem_cons_self))
      exact Nat.dvd_add hm (Nat.dvd_add (by decide) hn)
    · cases List.mem_singleton.mp hb
      unfold bhdrOverhead sizeofBhdr minBlockSize
      dsimp only
      omega
  · rw [hplace]
    exact h.backHeaders
  · rcases hk with hk | hk | hk
    · exact .inl (userByte_append.mpr (.inl hk))
    · rw [hplace] at hk
      exact .inr (.inl hk)
    · omega

theorem Loose.headers (h : Loose heap₀ heap s front ⟨n, f⟩ n held
    (if f then some (endOf s front) else none) back) : Headers heap none s (front ++ ⟨n, f⟩ :: back) :=
  headers_append.mpr ⟨h.frontHeaders, h.header, h.backHeaders⟩

/-- Any block of a tidy pool can be taken as a loose one, but for the first and the last. -/
theorem Tidy.loose (h : Tidy heap s (front ++ ⟨n, f⟩ :: back)) (hfront : front ≠ [])
    (hn : n ≠ 0) (hheld : held ≤ n) :
    Loose heap heap s front ⟨n, f⟩ n held (if f then some (endOf s front) else none) back := by
  obtain ⟨hfh, hheader, hbh⟩ := headers_append.mp h.headers
  refine ⟨h.room.splice (l := [⟨n, f⟩]) (r := [⟨n, false⟩]) hfront (h.room.back_ne_nil hn)
    (fun _ => rfl) (fun b hb => ?_) (fun b hb => ?_), hfh, hheader, hbh, hheld, .refl⟩
  · cases List.mem_singleton.mp hb
    exact h.room.aligned ⟨n, f⟩ (List.mem_append_right _ List.mem_cons_self)
  · cases List.mem_singleton.mp hb
    exact hn

end

end Egos.Libc.Tlsf
