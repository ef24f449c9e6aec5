import Egos.Lib.Bytes
import Egos.Lib.Quicksort

/-!
# `qsort`

The elements are exchanged in place, by exclusive or.
-/
namespace Egos.Libc.Qsort

open Egos.Lib

set_option autoImplicit false

/-- The bytes of an element. -/
abbrev Element (width : Nat) := Fin width → Byte

/-- What a comparison sees at `p`. -/
def element (mem : Buffer) (width p : Nat) : Element width := fun k => mem (p + k)

/-- `for (i = 0; i < width; i++) p[i] ^= q[i]` -/
def xorInto (p q width : Nat) (mem : Buffer) : Buffer :=
  (List.range width).foldl (fun mem i =>
    Function.update mem (p + i) (mem (p + i) ^^^ mem (q + i))) mem

def exch (mem : Buffer) (p q width : Nat) : Buffer :=
  if p = q then mem else xorInto p q width (xorInto q p width (xorInto p q width mem))

section

variable {width : Nat} (compar : Element width → Element width → Int)

/-- The loop body for element `p`: the memory, and the pointer `pivot`. -/
def place (r : Buffer × Nat) (p : Nat) : Buffer × Nat :=
  if compar (element r.1 width r.2) (element r.1 width p) ≥ 0 then
    let mem := exch r.1 r.2 (r.2 + width) width
    (if p ≠ r.2 + width then exch mem r.2 p width else mem, r.2 + width)
  else r

/-- The elements are split based on the first of them. -/
def split (mem : Buffer) (base nel : Nat) : Buffer × Nat :=
  (List.range (nel - 1)).foldl (fun r i => place compar r (base + (i + 1) * width)) (mem, base)

theorem place_le (r : Buffer × Nat) (p : Nat) : (place compar r p).2 ≤ r.2 + width := by
  unfold place
  split
  · exact Nat.le_refl _
  · exact Nat.le_add_right _ _

theorem split_le (mem : Buffer) (base n : Nat) :
    ((List.range n).foldl (fun r i => place compar r (base + (i + 1) * width)) (mem, base)).2 ≤
      base + n * width := by
  induction n with
  | zero => exact Nat.le_add_right _ _
  | succ n ih =>
    rw [List.range_succ, List.foldl_append, List.foldl_cons, List.foldl_nil, Nat.succ_mul]
    have hplace := place_le compar ((List.range n).foldl
      (fun r i => place compar r (base + (i + 1) * width)) (mem, base)) (base + (n + 1) * width)
    rw [Nat.succ_mul] at hplace
    omega

/-- Where the `int n` cannot hold the number of the elements in front of the pivot, or where the
width is 0, the call is undefined. -/
def qsort (mem : Buffer) (base nel : Nat) : Option Buffer :=
  if h : nel ≤ 1 then some mem
  else
    let r := split compar mem base nel
    let n := (r.2 - base) / width
    if width = 0 ∨ n ≥ 2 ^ 31 then none
    else do
      let mem ← qsort r.1 base n
      if nel - n > 1 then qsort mem (r.2 + width) (nel - n - 1) else some mem
termination_by nel
decreasing_by
  · have hle : (split compar mem base nel).2 ≤ base + (nel - 1) * width := split_le compar mem base _
    have hdiv : ((split compar mem base nel).2 - base) / width ≤ nel - 1 := by
      apply Nat.div_le_of_le_mul
      rw [Nat.mul_comm]
      omega
    omega
  · exact Nat.lt_of_le_of_lt (Nat.sub_le_sub_right (Nat.sub_le _ _) 1) (by omega)

end

/-! ## Exchanges -/

section

variable {mem : Buffer} {p q width a : Nat}

/-- What the loop leaves, if the two elements do not overlap. -/
theorem xorInto_apply (mem : Buffer) (h : p + width ≤ q ∨ q + width ≤ p) (a : Nat) :
    xorInto p q width mem a =
      if p ≤ a ∧ a < p + width then mem a ^^^ mem (q + (a - p)) else mem a := by
  induction width generalizing a with
  | zero =>
    rw [if_neg (by omega)]
    rfl
  | succ n ih =>
    have hrest := ih (by omega)
    have hlast : xorInto p q (n + 1) mem = Function.update (xorInto p q n mem) (p + n)
        (xorInto p q n mem (p + n) ^^^ xorInto p q n mem (q + n)) := by
      unfold xorInto
      rw [List.range_succ, List.foldl_append, List.foldl_cons, List.foldl_nil]
    have hp : xorInto p q n mem (p + n) = mem (p + n) := by
      rw [hrest, if_neg (by omega)]
    have hq : xorInto p q n mem (q + n) = mem (q + n) := by
      rw [hrest, if_neg (by omega)]
    rw [hlast, hp, hq]
    by_cases ha : a = p + n
    · subst ha
      rw [Function.update_self, if_pos (by omega), Nat.add_sub_cancel_left]
    · rw [Function.update_of_ne ha, hrest]
      by_cases hin : p ≤ a ∧ a < p + n
      · rw [if_pos hin, if_pos (by omega)]
      · rw [if_neg hin, if_neg (by omega)]

theorem xor_xor_self (x y : Byte) : x ^^^ (y ^^^ x) = y := by
  rw [BitVec.xor_comm y, ← BitVec.xor_assoc, BitVec.xor_self, BitVec.zero_xor]

theorem exch_apply (mem : Buffer) (h : p + width ≤ q ∨ q + width ≤ p) (a : Nat) :
    exch mem p q width a =
      if p ≤ a ∧ a < p + width then mem (q + (a - p))
      else if q ≤ a ∧ a < q + width then mem (p + (a - q))
      else mem a := by
  by_cases hpq : p = q
  · have hwidth : width = 0 := by omega
    subst hwidth
    unfold exch
    rw [if_pos hpq, if_neg (by omega), if_neg (by omega)]
  · unfold exch
    rw [if_neg hpq, xorInto_apply _ h]
    by_cases hp : p ≤ a ∧ a < p + width
    · rw [if_pos hp, if_pos hp]
      rw [xorInto_apply _ h.symm, if_neg (by omega), xorInto_apply _ h.symm, if_pos (by omega),
        xorInto_apply _ h, if_pos hp, xorInto_apply _ h, if_neg (by omega)]
      rw [show q + (a - p) - q = a - p by omega, xorInto_apply _ h, if_pos (by omega),
        show p + (a - p) = a by omega]
      exact xor_xor_self _ _
    · rw [if_neg hp, if_neg hp, xorInto_apply _ h.symm]
      by_cases hq : q ≤ a ∧ a < q + width
      · rw [if_pos hq, if_pos hq, xorInto_apply _ h, if_neg hp, xorInto_apply _ h,
          if_pos (by omega), show p + (a - q) - p = a - q by omega, show q + (a - q) = a by omega]
        exact xor_xor_self _ _
      · rw [if_neg hq, if_neg hq, xorInto_apply _ h, if_neg hp]

end

/-! ## The elements -/

/-- The elements from `base` on. -/
def elements (mem : Buffer) (width base : Nat) : Nat → Element width :=
  fun i => element mem width (base + i * width)

section

variable {width base i j : Nat}

theorem element_apart (base : Nat) (h : i < j) : base + i * width + width ≤ base + j * width := by
  have hle : (i + 1) * width ≤ j * width := Nat.mul_le_mul_right width h
  rw [Nat.succ_mul] at hle
  omega

theorem element_apart_of_ne (width base : Nat) (h : i ≠ j) :
    base + i * width + width ≤ base + j * width ∨
      base + j * width + width ≤ base + i * width := by
  rcases Nat.lt_or_gt_of_ne h with hlt | hgt
  · exact .inl (element_apart base hlt)
  · exact .inr (element_apart base hgt)

theorem byte_inside_iff {t : Nat} (base : Nat) (k : Fin width) :
    (base + i * width ≤ base + t * width + k ∧
      base + t * width + k < base + i * width + width) ↔ t = i := by
  have hk := k.isLt
  constructor
  · intro h
    by_contra hne
    have hapart := element_apart_of_ne width base hne
    omega
  · intro h
    subst h
    omega

theorem elements_exch (mem : Buffer) (base i j : Nat) :
    elements (exch mem (base + i * width) (base + j * width) width) width base =
      Quicksort.exchange (elements mem width base) i j := by
  by_cases hij : i = j
  · subst hij
    unfold exch Quicksort.exchange
    rw [if_pos rfl, Equiv.swap_self]
    rfl
  · funext t k
    change exch mem _ _ width (base + t * width + k) = _
    rw [exch_apply mem (element_apart_of_ne width base hij)]
    by_cases hi : t = i
    · subst hi
      rw [if_pos ((byte_inside_iff base k).mpr rfl), Quicksort.exchange_left]
      change _ = mem (base + j * width + k)
      congr 1
      omega
    · rw [if_neg fun h => hi ((byte_inside_iff base k).mp h)]
      by_cases hj : t = j
      · subst hj
        rw [if_pos ((byte_inside_iff base k).mpr rfl), Quicksort.exchange_right]
        change _ = mem (base + i * width + k)
        congr 1
        omega
      · rw [if_neg fun h => hj ((byte_inside_iff base k).mp h), Quicksort.exchange_of_ne hi hj]
        rfl

theorem exch_below (mem : Buffer) (base i j : Nat) {a : Nat} (ha : a < base) :
    exch mem (base + i * width) (base + j * width) width a = mem a := by
  by_cases hij : i = j
  · unfold exch
    rw [if_pos (by rw [hij])]
  · rw [exch_apply mem (element_apart_of_ne width base hij), if_neg (by omega), if_neg (by omega)]

end

/-! ## Sorting -/

/-- `compar` says that the first element is not smaller. -/
def NotLess {width : Nat} (compar : Element width → Element width → Int) (x y : Element width) :
    Prop := compar x y ≥ 0

instance {width : Nat} (compar : Element width → Element width → Int) :
    DecidableRel (NotLess compar) := fun _ _ => inferInstanceAs (Decidable (_ ≥ _))

/-- The memory holds an array from `base` on, and below it what it held before. -/
structure Holds {width : Nat} (base : Nat) (below mem : Buffer) (A : Nat → Element width) :
    Prop where
  elements_eq : elements mem width base = A
  below_eq : ∀ a, a < base → mem a = below a

section

variable {width : Nat} {compar : Element width → Element width → Int} {base : Nat}
  {below mem : Buffer} {A : Nat → Element width}

theorem Holds.exch (h : Holds base below mem A) (i j : Nat) :
    Holds base below (exch mem (base + i * width) (base + j * width) width)
      (Quicksort.exchange A i j) := by
  constructor
  · rw [elements_exch, h.elements_eq]
  · intro a ha
    rw [exch_below mem base i j ha]
    exact h.below_eq a ha

theorem Holds.place (hwidth : 1 ≤ width) {k : Nat} (h : Holds base below mem A) (i : Nat) :
    ∃ mem', place compar (mem, base + k * width) (base + i * width) =
        (mem', base + (Quicksort.round (NotLess compar) (A, k) i).2 * width) ∧
      Holds base below mem' (Quicksort.round (NotLess compar) (A, k) i).1 := by
  have hA : ∀ t, element mem width (base + t * width) = A t := fun t => congrFun h.elements_eq t
  have hnext : base + k * width + width = base + (k + 1) * width := by
    rw [Nat.succ_mul]
    omega
  unfold Qsort.place Quicksort.round
  dsimp only
  rw [hA, hA, hnext]
  by_cases hge : NotLess compar (A k) (A i)
  · have hge' : compar (A k) (A i) ≥ 0 := hge
    rw [if_pos hge, if_pos hge']
    have hsame : base + i * width ≠ base + (k + 1) * width ↔ i ≠ k + 1 := by
      constructor
      · intro hne heq
        exact hne (by rw [heq])
      · intro hne heq
        exact hne (Nat.eq_of_mul_eq_mul_right hwidth (Nat.add_left_cancel heq))
    by_cases hi : i ≠ k + 1
    · rw [if_pos (hsame.mpr hi), if_pos hi]
      exact ⟨_, rfl, (h.exch k (k + 1)).exch k i⟩
    · rw [if_neg fun hne => hi (hsame.mp hne), if_neg hi]
      exact ⟨_, rfl, h.exch k (k + 1)⟩
  · have hge' : ¬ compar (A k) (A i) ≥ 0 := hge
    rw [if_neg hge, if_neg hge']
    exact ⟨mem, rfl, h⟩

theorem Holds.split (compar : Element width → Element width → Int) (hwidth : 1 ≤ width)
    (h : Holds base below mem A) (lo nel : Nat) :
    ∃ mem', split compar mem (base + lo * width) nel =
        (mem', base + (Quicksort.split (NotLess compar) A lo nel).2 * width) ∧
      Holds base below mem' (Quicksort.split (NotLess compar) A lo nel).1 := by
  unfold Qsort.split Quicksort.split
  induction nel - 1 with
  | zero => exact ⟨mem, rfl, h⟩
  | succ n ih =>
    obtain ⟨mem', hrun, hholds⟩ := ih
    have hp : base + lo * width + (n + 1) * width = base + (lo + 1 + n) * width := by
      rw [Nat.add_assoc, ← Nat.add_mul, Nat.add_comm n, Nat.add_assoc]
    rw [List.range_succ, List.foldl_append, List.foldl_append, hrun, List.foldl_cons, List.foldl_nil,
      List.foldl_cons, List.foldl_nil, hp]
    exact hholds.place hwidth (lo + 1 + n)

theorem Holds.qsort (compar : Element width → Element width → Int) (hwidth : 1 ≤ width)
    (h : Holds base below mem A) (lo : Nat) {nel : Nat} (hnel : nel < 2 ^ 31) :
    ∃ mem', qsort compar mem (base + lo * width) nel = some mem' ∧
      Holds base below mem' (Quicksort.sort (NotLess compar) A lo nel) := by
  induction nel using Nat.strongRecOn generalizing lo mem A with
  | ind nel ih =>
    rw [Qsort.qsort, Quicksort.sort]
    by_cases hone : nel ≤ 1
    · rw [dif_pos hone, dif_pos hone]
      exact ⟨mem, rfl, h⟩
    · rw [dif_neg hone, dif_neg hone]
      obtain ⟨mem₁, hsplit, h₁⟩ := h.split compar hwidth lo nel
      have hspec : Quicksort.Split (NotLess compar) A lo (lo + nel)
          (Quicksort.split (NotLess compar) A lo nel) := Quicksort.split_spec A lo (by omega)
      have hlow := hspec.low
      have hhigh := hspec.high
      dsimp only
      rw [hsplit]
      generalize Quicksort.split (NotLess compar) A lo nel = r at h₁ hlow hhigh
      obtain ⟨B, k⟩ := r
      dsimp only at h₁ hlow hhigh ⊢
      have hn : (base + k * width - (base + lo * width)) / width = k - lo := by
        rw [Nat.add_sub_add_left, ← Nat.sub_mul, Nat.mul_div_cancel _ hwidth]
      have hnext : base + k * width + width = base + (k + 1) * width := by
        rw [Nat.succ_mul]
        omega
      rw [hn, hnext, if_neg (by omega)]
      obtain ⟨mem₂, hleft, h₂⟩ := ih (k - lo) (by omega) h₁ lo (by omega)
      rw [hleft]
      change ∃ mem', (if nel - (k - lo) > 1 then _ else some mem₂) = some mem' ∧ _
      by_cases hmore : nel - (k - lo) > 1
      · rw [if_pos hmore, if_pos hmore]
        exact ih (nel - (k - lo) - 1) (by omega) h₂ (k + 1) (by omega)
      · rw [if_neg hmore, if_neg hmore]
        exact ⟨mem₂, rfl, h₂⟩

end

/-- A comparison whose sign is that of a total preorder. -/
structure TotalPreorder {width : Nat} (compar : Element width → Element width → Int) : Prop where
  swap : ∀ x y, compar x y ≥ 0 ↔ compar y x ≤ 0
  trans : ∀ x y z, compar x y ≤ 0 → compar y z ≤ 0 → compar x z ≤ 0

/-- The call ends with the elements in order, and the rest of the memory as it was. -/
theorem qsort_sorts {width nel : Nat} {compar : Element width → Element width → Int}
    (hwidth : 1 ≤ width) (hnel : nel < 2 ^ 31) (hcompar : TotalPreorder compar) (mem : Buffer)
    (base : Nat) :
    ∃ mem', qsort compar mem base nel = some mem' ∧
      ((List.range nel).map (elements mem' width base)).Perm
        ((List.range nel).map (elements mem width base)) ∧
      (∀ i j, i ≤ j → j < nel →
        compar (elements mem' width base i) (elements mem' width base j) ≤ 0) ∧
      ∀ a, a < base ∨ base + nel * width ≤ a → mem' a = mem a := by
  have hstart : Holds base mem mem (elements mem width base) := ⟨rfl, fun _ _ => rfl⟩
  have htotal : ∀ x y, NotLess compar x y ∨ NotLess compar y x := by
    intro x y
    by_cases h : compar x y ≥ 0
    · exact .inl h
    · exact .inr ((hcompar.swap y x).mpr (by omega))
  have htrans : ∀ x y z, NotLess compar x y → NotLess compar y z → NotLess compar x z := by
    intro x y z hxy hyz
    exact (hcompar.swap x z).mpr
      (hcompar.trans z y x ((hcompar.swap y z).mp hyz) ((hcompar.swap x y).mp hxy))
  obtain ⟨hpermuted, hsorted⟩ :=
    Quicksort.sort_spec htotal htrans (elements mem width base) 0 nel
  obtain ⟨mem', hrun, hholds⟩ := hstart.qsort compar hwidth 0 hnel
  rw [Nat.zero_mul, Nat.add_zero] at hrun
  rw [← hholds.elements_eq] at hpermuted hsorted
  refine ⟨mem', hrun, hpermuted.perm, ?_, ?_⟩
  · intro i j hij hj
    exact (hcompar.swap _ _).mp (hsorted i j (Nat.zero_le i) hij (by omega))
  · intro a ha
    by_cases hbelow : a < base
    · exact hholds.below_eq a hbelow
    · have hin := ha.resolve_left hbelow
      obtain ⟨b, rfl⟩ := Nat.exists_eq_add_of_le (Nat.not_lt.mp hbelow)
      have hk : b % width < width := Nat.mod_lt _ hwidth
      have hi : nel ≤ b / width := (Nat.le_div_iff_mul_le hwidth).mpr (by omega)
      have heq := congrFun (hpermuted.outside (i := b / width) (by omega)) ⟨b % width, hk⟩
      change mem' (base + b / width * width + b % width) =
        mem (base + b / width * width + b % width) at heq
      rwa [Nat.add_assoc, Nat.div_add_mod'] at heq

/-- The bytes 160, 4 and 104, compared as numbers. -/
theorem qsort_sorts_bytes :
    ∃ mem', qsort (fun x y : Element 1 => ((x 0).toNat : Int) - (y 0).toNat)
        (fun a => BitVec.ofNat 8 (100 * a)) 1000 3 = some mem' ∧
      ((List.range 3).map (elements mem' 1 1000)).Perm
        ((List.range 3).map (elements (fun a => BitVec.ofNat 8 (100 * a)) 1 1000)) ∧
      (∀ i j, i ≤ j → j < 3 → ((elements mem' 1 1000 i 0).toNat : Int) -
        (elements mem' 1 1000 j 0).toNat ≤ 0) ∧
      ∀ a, a < 1000 ∨ 1000 + 3 * 1 ≤ a → mem' a = BitVec.ofNat 8 (100 * a) :=
  qsort_sorts (by decide) (by decide) ⟨fun _ _ => by omega, fun _ _ _ _ _ => by omega⟩ _ _

end Egos.Libc.Qsort
