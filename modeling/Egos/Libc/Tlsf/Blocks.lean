import Mathlib.Data.List.Chain
import Egos.Lib.Tiles
import Egos.Libc.Tlsf.Lists

/-!
# Blocks

The pool is laid out with blocks. The header of a block has its size and two flags, and, if the block
in front is free, where that one starts.
-/
namespace Egos.Libc.Tlsf

open Egos.Disk (Stop)
open Egos.Lib

set_option autoImplicit false

structure Block where
  size : Nat
  free : Bool
deriving DecidableEq

/-- With the header. -/
def Block.length (b : Block) : Nat := bhdrOverhead + b.size

/-! ## The word for size and flags -/

/-- A size with `FREE_BLOCK` and `PREV_FREE`. -/
def headerWord (n : Nat) (free prevFree : Bool) : Nat := n + (free.toNat + 2 * prevFree.toNat)

section

variable {n m : Nat} {f p : Bool}

theorem flags_lt (f p : Bool) : f.toNat + 2 * p.toNat < 2 ^ 2 := by
  cases f <;> cases p <;> decide

/-- A size leaves the two lowest bits for the flags. -/
theorem headerWord_eq (hn : blockAlign ∣ n) :
    headerWord n f p = 2 ^ 2 * (n / 4) + (f.toNat + 2 * p.toNat) := by
  obtain ⟨c, rfl⟩ := hn
  unfold headerWord blockAlign
  omega

theorem and_tlsfBlockSize (hn : blockAlign ∣ n) (hmax : n < maxSize) :
    headerWord n f p &&& tlsfBlockSize = n := by
  obtain ⟨c, rfl⟩ := hn
  unfold maxSize blockAlign at hmax
  have hword : headerWord (blockAlign * c) f p = 2 ^ 3 * (2 * c) + (f.toNat + 2 * p.toNat) := by
    unfold headerWord blockAlign
    omega
  have hflags : f.toNat + 2 * p.toNat < 2 ^ 3 := Nat.lt_trans (flags_lt f p) (by decide)
  have hmask : tlsfBlockSize = 2 ^ 3 * (2 ^ 29 - 1) + 0 := rfl
  rw [hword, hmask, and_mask (by omega) hflags (by decide), Nat.and_zero]
  unfold blockAlign
  omega

theorem and_freeBlock (hn : blockAlign ∣ n) : headerWord n f p &&& freeBlock = f.toNat := by
  rw [headerWord_eq hn, and_below (flags_lt f p) (by decide)]
  cases f <;> cases p <;> rfl

theorem and_prevFree (hn : blockAlign ∣ n) : headerWord n f p &&& prevFree = 2 * p.toNat := by
  rw [headerWord_eq hn, and_below (flags_lt f p) (by decide)]
  cases f <;> cases p <;> rfl

theorem or_freeBlock (hn : blockAlign ∣ n) : headerWord n f p ||| freeBlock = headerWord n true p := by
  rw [headerWord_eq hn, headerWord_eq hn, or_below (flags_lt f p) (by decide)]
  cases f <;> cases p <;> rfl

theorem or_prevFree (hn : blockAlign ∣ n) : headerWord n f p ||| prevFree = headerWord n f true := by
  rw [headerWord_eq hn, headerWord_eq hn, or_below (flags_lt f p) (by decide)]
  cases f <;> cases p <;> rfl

theorem lt_of_maxSize (hmax : n < maxSize) : n / 4 < 2 ^ 62 := by
  unfold maxSize at hmax
  omega

theorem and_not_prevFree (hn : blockAlign ∣ n) (hmax : n < maxSize) :
    headerWord n f p &&& complement prevFree = headerWord n f false := by
  have hmask : complement prevFree = 2 ^ 2 * (2 ^ 62 - 1) + 1 := by decide
  rw [headerWord_eq hn, headerWord_eq hn, hmask,
    and_mask (lt_of_maxSize hmax) (flags_lt f p) (by decide)]
  cases f <;> cases p <;> rfl

theorem and_not_freeBlock (hn : blockAlign ∣ n) (hmax : n < maxSize) :
    headerWord n f p &&& complement freeBlock = headerWord n false p := by
  have hmask : complement freeBlock = 2 ^ 2 * (2 ^ 62 - 1) + 2 := by decide
  rw [headerWord_eq hn, headerWord_eq hn, hmask,
    and_mask (lt_of_maxSize hmax) (flags_lt f p) (by decide)]
  cases f <;> cases p <;> rfl

theorem headerWord_add : headerWord n f p + m = headerWord (n + m) f p := by
  unfold headerWord
  omega

theorem or_flag (hn : blockAlign ∣ n) : n ||| 2 * p.toNat = headerWord n false p := by
  cases p with
  | false => rw [Bool.toNat_false, Nat.mul_zero, Nat.or_zero]; rfl
  | true => exact or_prevFree (f := false) (p := false) hn

theorem headerWord_lt (hmax : n < maxSize) : headerWord n f p < 2 ^ 64 := by
  have := flags_lt f p
  unfold headerWord maxSize at *
  omega

end

/-! ## Headers -/

/-- The header at `a`, where `p` is the free block in front. -/
structure HeaderAt (heap : Heap) (a : Nat) (b : Block) (p : Option Nat) : Prop where
  sizeWord : heap.at (size a) = headerWord b.size b.free p.isSome
  prevWord : ∀ q, p = some q → heap.at (prevHdr a) = q

/-- The headers from `a` on, where `p` is the free block in front. -/
def Headers (heap : Heap) : (p : Option Nat) → (a : Nat) → List Block → Prop
  | _, _, [] => True
  | p, a, b :: l => HeaderAt heap a b p ∧ Headers heap (if b.free then some a else none) (a + b.length) l

/-- The free block at the end, if there is one. -/
def lastFree : (p : Option Nat) → (a : Nat) → List Block → Option Nat
  | p, _, [] => p
  | _, a, b :: l => lastFree (if b.free then some a else none) (a + b.length) l

/-- The blocks with their addresses. -/
abbrev placedAt (a : Nat) (l : List Block) : List (Nat × Block) := placed Block.length a l

abbrev endOf (a : Nat) (l : List Block) : Nat := stopOf Block.length a l

section

variable {heap heap' : Heap} {p : Option Nat} {a x y v : Nat} {b : Block} {l l' : List Block}

theorem length_pos (b : Block) : 0 < b.length := Nat.lt_of_lt_of_le (by decide) (Nat.le_add_right _ _)

theorem lastFree_append : lastFree p a (l ++ l') = lastFree (lastFree p a l) (endOf a l) l' := by
  induction l generalizing p a with
  | nil => rfl
  | cons b l ih => exact ih

theorem lastFree_concat : lastFree p a (l ++ [b]) = if b.free then some (endOf a l) else none :=
  lastFree_append

theorem headers_append : Headers heap p a (l ++ l') ↔
    Headers heap p a l ∧ Headers heap (lastFree p a l) (endOf a l) l' := by
  induction l generalizing p a with
  | nil => exact (and_iff_right trivial).symm
  | cons b l ih =>
    change HeaderAt heap a b p ∧ Headers heap _ _ (l ++ l') ↔ _
    rw [ih]
    exact and_assoc.symm

theorem HeaderAt.congr (h : HeaderAt heap a b p) (hsize : heap'.at (size a) = heap.at (size a))
    (hprev : heap'.at (prevHdr a) = heap.at (prevHdr a)) : HeaderAt heap' a b p :=
  ⟨hsize.trans h.sizeWord, fun q hq => hprev.trans (h.prevWord q hq)⟩

theorem Headers.congr (h : Headers heap p a l)
    (hsame : ∀ x b, (x, b) ∈ placedAt a l → ∀ k, x ≤ k → k < x + bhdrOverhead →
      heap'.memory k = heap.memory k) : Headers heap' p a l := by
  induction l generalizing p a with
  | nil => exact trivial
  | cons b l ih =>
    obtain ⟨hb, hl⟩ := h
    have hbytes := hsame a b List.mem_cons_self
    unfold bhdrOverhead sizeofBhdr minBlockSize at hbytes
    refine ⟨hb.congr (load_congr fun i hi => ?_) (load_congr fun i hi => ?_),
      ih hl fun x c hx => hsame x c (List.mem_cons_of_mem _ hx)⟩
    · exact hbytes _ (by unfold size; omega) (by unfold size; omega)
    · exact hbytes _ (by unfold prevHdr; omega) (by unfold prevHdr; omega)

theorem Headers.put (h : Headers heap p a l) (hy : y + 8 ≤ a ∨ endOf a l ≤ y) :
    Headers (heap.put y v) p a l := by
  refine h.congr fun x b hx k hlow hhigh => put_outside ?_
  have hbounds : a ≤ x ∧ x + b.length ≤ endOf a l := placed_bounds hx
  have hlen : bhdrOverhead ≤ b.length := Nat.le_add_right _ _
  omega

end

/-! ## The free blocks -/

def freeOf : (a : Nat) → List Block → Nat → Option Nat
  | _, [] => fun _ => none
  | a, b :: l =>
    if b.free then Function.update (freeOf (a + b.length) l) a (some b.size)
    else freeOf (a + b.length) l

section

variable {a n x y : Nat} {v : Option Nat} {l l' l'' : List Block}

theorem freeOf_eq_none (h : x < a) : freeOf a l x = none := by
  induction l generalizing a with
  | nil => rfl
  | cons b l ih =>
    have hrest := ih (a := a + b.length) (by omega)
    unfold freeOf
    split
    · rw [Function.update_of_ne (by omega)]
      exact hrest
    · exact hrest

theorem freeOf_eq_some_iff : freeOf a l x = some n ↔ (x, ⟨n, true⟩) ∈ placedAt a l := by
  induction l generalizing a with
  | nil => exact iff_of_false (fun h => by cases h) (fun h => by cases h)
  | cons b l ih =>
    have hpos := length_pos b
    obtain ⟨m, f⟩ := b
    change _ ↔ (x, _) ∈ (a, _) :: placedAt (a + Block.length ⟨m, f⟩) l
    rw [List.mem_cons, ← ih]
    cases f with
    | false =>
      change freeOf (a + _) l x = _ ↔ _
      refine (or_iff_right fun h => ?_).symm
      cases h
    | true =>
      change Function.update (freeOf (a + _) l) a (some m) x = _ ↔ _
      by_cases hx : x = a
      · subst hx
        rw [Function.update_self, freeOf_eq_none (by omega)]
        constructor
        · intro h
          cases h
          exact .inl rfl
        · rintro (h | h)
          · cases h
            rfl
          · cases h
      · rw [Function.update_of_ne hx]
        refine (or_iff_right fun h => ?_).symm
        exact hx (congrArg Prod.fst h)

theorem update_freeOf_append (hy : endOf a l ≤ y)
    (h : Function.update (freeOf (endOf a l) l') y v = freeOf (endOf a l) l'') :
    Function.update (freeOf a (l ++ l')) y v = freeOf a (l ++ l'') := by
  induction l generalizing a with
  | nil => exact h
  | cons b l ih =>
    have hrest := ih (a := a + b.length) hy h
    have hle : a + b.length ≤ endOf (a + b.length) l := le_stopOf
    have hpos := length_pos b
    have hya : y ≠ a := by
      change endOf (a + b.length) l ≤ y at hy
      omega
    rw [List.cons_append, List.cons_append, freeOf, freeOf]
    split
    · rw [Function.update_comm hya.symm, hrest]
    · exact hrest

theorem update_freeOf_none (h : y < a) : Function.update (freeOf a l) y none = freeOf a l := by
  rw [← freeOf_eq_none (l := l) h, Function.update_eq_self]

end

/-! ## The used blocks -/

/-- A used block with its size. The last block of the pool, which has no bytes, is not one. -/
def Used (s : Nat) (blocks : List Block) (a n : Nat) : Prop :=
  n ≠ 0 ∧ (a, ⟨n, false⟩) ∈ placedAt s blocks

section

variable {s a n k : Nat} {b : Block} {l l' : List Block}

theorem used_append : Used s (l ++ l') a n ↔ Used s l a n ∨ Used (endOf s l) l' a n := by
  unfold Used placedAt
  rw [placed_append, List.mem_append, and_or_left]

theorem used_cons :
    Used s (b :: l) a n ↔ (n ≠ 0 ∧ a = s ∧ b = ⟨n, false⟩) ∨ Used (s + b.length) l a n := by
  change n ≠ 0 ∧ (a, _) ∈ (s, b) :: placedAt (s + b.length) l ↔ _
  rw [List.mem_cons, Prod.mk.injEq, eq_comm (a := b), and_or_left]
  exact Iff.rfl

end

/-- A byte of a used block. -/
def UserByte (s : Nat) (blocks : List Block) (k : Nat) : Prop :=
  ∃ a n, Used s blocks a n ∧ buffer a ≤ k ∧ k < buffer a + n

section

variable {s k : Nat} {l l' : List Block}

theorem userByte_append : UserByte s (l ++ l') k ↔ UserByte s l k ∨ UserByte (endOf s l) l' k := by
  constructor
  · rintro ⟨a, n, ha, hbyte⟩
    exact (used_append.mp ha).imp (fun h => ⟨a, n, h, hbyte⟩) fun h => ⟨a, n, h, hbyte⟩
  · rintro (⟨a, n, ha, hbyte⟩ | ⟨a, n, ha, hbyte⟩)
    · exact ⟨a, n, used_append.mpr (.inl ha), hbyte⟩
    · exact ⟨a, n, used_append.mpr (.inr ha), hbyte⟩

theorem UserByte.bounds (h : UserByte s l k) : s + bhdrOverhead ≤ k ∧ k < endOf s l := by
  obtain ⟨a, n, ha, hlow, hhigh⟩ := h
  have hbounds : s ≤ a ∧ a + (bhdrOverhead + n) ≤ endOf s l := placed_bounds ha.2
  unfold buffer at hlow hhigh
  omega

end

/-! ## Coalescing -/

/-- No two free blocks are next to each other. -/
def Spaced (blocks : List Block) : Prop := blocks.IsChain fun b c => ¬ (b.free = true ∧ c.free = true)

/-- Free blocks that are next to each other become one. -/
def coalesce : List Block → List Block
  | [] => []
  | b :: l =>
    match b.free, coalesce l with
    | true, ⟨m, true⟩ :: l' => ⟨b.size + (bhdrOverhead + m), true⟩ :: l'
    | _, l' => b :: l'

section

variable {s a n m x : Nat} {b c : Block} {l l' : List Block}

theorem coalesce_used : coalesce (⟨n, false⟩ :: l) = ⟨n, false⟩ :: coalesce l := by
  rw [coalesce]

theorem coalesce_free_free (h : coalesce l = ⟨m, true⟩ :: l') :
    coalesce (⟨n, true⟩ :: l) = ⟨n + (bhdrOverhead + m), true⟩ :: l' := by
  rw [coalesce, h]

theorem coalesce_free_used (h : coalesce l = ⟨m, false⟩ :: l') :
    coalesce (⟨n, true⟩ :: l) = ⟨n, true⟩ :: ⟨m, false⟩ :: l' := by
  rw [coalesce, h]

theorem coalesce_spaced (l : List Block) : Spaced (coalesce l) := by
  induction l with
  | nil => exact List.IsChain.nil
  | cons b l ih =>
    obtain ⟨n, f⟩ := b
    cases f with
    | false =>
      rw [coalesce_used]
      refine List.IsChain.cons ih fun c _ h => ?_
      cases h.1
    | true =>
      cases hl : coalesce l with
      | nil =>
        rw [coalesce, hl]
        exact List.IsChain.singleton _
      | cons c l' =>
        rw [hl] at ih
        obtain ⟨m, f⟩ := c
        cases f with
        | false =>
          rw [coalesce_free_used hl]
          refine List.IsChain.cons_cons (fun h => ?_) ih
          cases h.2
        | true =>
          rw [coalesce_free_free hl]
          cases l' with
          | nil => exact List.IsChain.singleton _
          | cons d l' =>
            obtain ⟨hcd, hrest⟩ := List.isChain_cons_cons.mp ih
            exact List.IsChain.cons_cons (fun h => hcd ⟨rfl, h.2⟩) hrest

theorem coalesce_of_spaced (h : Spaced l) : coalesce l = l := by
  induction l with
  | nil => rfl
  | cons b l ih =>
    have hl := ih h.of_cons
    obtain ⟨n, f⟩ := b
    cases f with
    | false => rw [coalesce_used, hl]
    | true =>
      cases l with
      | nil => rfl
      | cons c l =>
        obtain ⟨m, f⟩ := c
        cases f with
        | false => exact coalesce_free_used hl
        | true => exact absurd ⟨rfl, rfl⟩ (List.isChain_cons_cons.mp h).1

theorem coalesce_append (h : Spaced (l ++ coalesce l')) : coalesce (l ++ l') = l ++ coalesce l' := by
  induction l with
  | nil => rfl
  | cons b l ih =>
    have hl := ih h.of_cons
    rw [List.cons_append, List.cons_append]
    obtain ⟨n, f⟩ := b
    cases f with
    | false => rw [coalesce_used, hl]
    | true =>
      cases hrest : l ++ coalesce l' with
      | nil => rw [coalesce, hl, hrest]
      | cons c r =>
        rw [List.cons_append, hrest] at h
        obtain ⟨m, f⟩ := c
        cases f with
        | false => exact coalesce_free_used (hl.trans hrest)
        | true => exact absurd ⟨rfl, rfl⟩ (List.isChain_cons_cons.mp h).1

theorem coalesce_append_coalesce : coalesce (l ++ coalesce l') = coalesce (l ++ l') := by
  induction l with
  | nil => exact coalesce_of_spaced (coalesce_spaced l')
  | cons b l ih => rw [List.cons_append, List.cons_append, coalesce, coalesce, ih]

theorem endOf_coalesce : endOf s (coalesce l) = endOf s l := by
  induction l generalizing s with
  | nil => rfl
  | cons b l ih =>
    obtain ⟨n, f⟩ := b
    cases f with
    | false =>
      rw [coalesce_used]
      exact ih
    | true =>
      change _ = endOf (s + (bhdrOverhead + n)) l
      cases hl : coalesce l with
      | nil =>
        rw [hl] at ih
        rw [coalesce, hl, ← ih]
        rfl
      | cons c l' =>
        rw [hl] at ih
        obtain ⟨m, f⟩ := c
        cases f with
        | false =>
          rw [coalesce_free_used hl, ← ih]
          rfl
        | true =>
          rw [coalesce_free_free hl, ← ih]
          change endOf (s + (bhdrOverhead + (n + (bhdrOverhead + m)))) l' =
            endOf (s + (bhdrOverhead + n) + (bhdrOverhead + m)) l'
          congr 1
          omega

/-- Coalescing is about free blocks only. -/
theorem used_coalesce : Used s (coalesce l) a n ↔ Used s l a n := by
  induction l generalizing s with
  | nil => exact Iff.rfl
  | cons b l ih =>
    obtain ⟨k, f⟩ := b
    cases f with
    | false => rw [coalesce_used, used_cons, used_cons, ih]
    | true =>
      have hskip : ∀ {k : Nat} {l : List Block}, Used s (⟨k, true⟩ :: l) a n ↔
          Used (s + (bhdrOverhead + k)) l a n := by
        intro k l
        rw [used_cons]
        refine or_iff_right fun h => ?_
        cases h.2.2
      rw [hskip, ← ih]
      cases hl : coalesce l with
      | nil =>
        rw [coalesce, hl]
        exact hskip
      | cons c l' =>
        obtain ⟨m, f⟩ := c
        cases f with
        | false => rw [coalesce_free_used hl, hskip]
        | true =>
          rw [coalesce_free_free hl, hskip, used_cons, Nat.add_assoc s]
          have hlen : bhdrOverhead + (k + (bhdrOverhead + m)) =
              bhdrOverhead + k + Block.length ⟨m, true⟩ := by
            change _ = bhdrOverhead + k + (bhdrOverhead + m)
            omega
          rw [hlen]
          refine (or_iff_right fun h => ?_).symm
          cases h.2.2

theorem userByte_coalesce {k : Nat} : UserByte s (coalesce l) k ↔ UserByte s l k := by
  unfold UserByte
  simp only [used_coalesce]

/-- Sizes do not matter. -/
theorem Spaced.resize (h : Spaced (l ++ b :: l')) (hc : c.free = b.free) : Spaced (l ++ c :: l') := by
  obtain ⟨hfront, hback⟩ := List.isChain_split.mp h
  refine List.isChain_split.mpr ⟨?_, ?_⟩
  · rw [List.isChain_append] at hfront ⊢
    refine ⟨hfront.1, List.isChain_singleton c, fun x hx y hy => ?_⟩
    cases hy
    rw [hc]
    exact hfront.2.2 x hx b rfl
  · rw [List.isChain_cons] at hback ⊢
    refine ⟨fun y hy => ?_, hback.2⟩
    rw [hc]
    exact hback.1 y hy

theorem lastFree_eq_some (h : lastFree none s l = some x) :
    ∃ l' m, l = l' ++ [⟨m, true⟩] ∧ x = endOf s l' := by
  rcases List.eq_nil_or_concat' l with rfl | ⟨l', b, rfl⟩
  · cases h
  · rw [lastFree_concat] at h
    obtain ⟨m, f⟩ := b
    cases f with
    | false => cases h
    | true =>
      cases h
      exact ⟨l', m, rfl, rfl⟩

theorem Spaced.concat (h : Spaced l) (hlast : lastFree none s l = none) : Spaced (l ++ [b]) := by
  rcases List.eq_nil_or_concat' l with rfl | ⟨l', c, rfl⟩
  · exact List.isChain_singleton b
  · rw [lastFree_concat] at hlast
    have hused : c.free = false := by
      cases hc : c.free with
      | false => rfl
      | true =>
        rw [hc] at hlast
        cases hlast
    rw [List.append_assoc, List.singleton_append]
    refine List.isChain_append_cons_cons.mpr ⟨h, fun hcb => ?_, List.isChain_singleton b⟩
    rw [hused] at hcb
    cases hcb.1

end

end Egos.Libc.Tlsf
