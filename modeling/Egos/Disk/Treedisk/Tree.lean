import Mathlib.Algebra.BigOperators.Group.Finset.Basic
import Mathlib.Algebra.Order.BigOperators.Group.Finset
import Mathlib.Algebra.Order.Group.Multiset
import Mathlib.Data.Multiset.AddSub
import Egos.Disk.Treedisk.Levels

/-!
# The tree of an inode

`nodes` collects the blocks of a tree with their multiplicity, so that a block used
twice counts twice. `lookup` is the data block an offset leads to. Both only read
blocks of the tree: an image that agrees there has the same tree.
-/
namespace Egos.Disk.Treedisk

set_option autoImplicit false

variable {g : Geometry} {D D' : Image g}

/-- The block a reference stands for; 0 is a hole. -/
def single (r : Nat) : Multiset Nat := if r = 0 then 0 else {r}

@[simp] theorem single_zero : single 0 = 0 := rfl

theorem single_of_ne {r : Nat} (h : r ≠ 0) : single r = {r} := if_neg h

/-- The blocks of the tree with `levels` levels below block `b`. -/
def nodes (D : Image g) : Nat → Nat → Multiset Nat
  | 0, b => single b
  | levels + 1, b =>
    if b = 0 then 0
    else b ::ₘ ∑ i ∈ Finset.range g.refsPerBlock, nodes D levels ((D b).ref i)

/-- The data block at the end of the path of `offset` from block `b`. -/
def lookup (D : Image g) (offset : Nat) : Nat → Nat → Block g
  | 0, b => if b = 0 then Block.zero else D b
  | levels + 1, b =>
    if b = 0 then Block.zero
    else lookup D offset levels ((D b).ref (indexAt g offset levels))

@[simp] theorem nodes_hole (D : Image g) (levels : Nat) : nodes D levels 0 = 0 := by
  cases levels <;> rfl

@[simp] theorem lookup_hole (D : Image g) (offset levels : Nat) :
    lookup D offset levels 0 = Block.zero := by
  cases levels <;> rfl

theorem nodes_succ {b : Nat} (hb : b ≠ 0) (levels : Nat) :
    nodes D (levels + 1) b =
      b ::ₘ ∑ i ∈ Finset.range g.refsPerBlock, nodes D levels ((D b).ref i) := if_neg hb

theorem lookup_succ {b : Nat} (hb : b ≠ 0) (offset levels : Nat) :
    lookup D offset (levels + 1) b =
      lookup D offset levels ((D b).ref (indexAt g offset levels)) := if_neg hb

theorem root_mem_nodes {b : Nat} (hb : b ≠ 0) (levels : Nat) : b ∈ nodes D levels b := by
  cases levels with
  | zero => simp [nodes, single_of_ne hb]
  | succ levels => simp [nodes_succ hb]

theorem zero_not_mem_nodes (levels b : Nat) : 0 ∉ nodes D levels b := by
  induction levels generalizing b with
  | zero =>
    by_cases hb : b = 0
    · simp [hb]
    · simp only [nodes, single_of_ne hb, Multiset.mem_singleton]
      omega
  | succ levels ih =>
    by_cases hb : b = 0
    · simp [hb]
    · rw [nodes_succ hb, Multiset.mem_cons, Multiset.mem_sum]
      rintro (h | ⟨i, _, h⟩)
      · exact hb h.symm
      · exact ih _ h

theorem child_nodes_le (tib : Block g) {i : Nat} (hi : i < g.refsPerBlock) (levels : Nat) :
    nodes D levels (tib.ref i) ≤
      ∑ j ∈ Finset.range g.refsPerBlock, nodes D levels (tib.ref j) :=
  Finset.single_le_sum (f := fun j => nodes D levels (tib.ref j))
    (fun _ _ => Multiset.zero_le _) (Finset.mem_range.mpr hi)

theorem child_mem_nodes {b i x levels : Nat} (hb : b ≠ 0) (hi : i < g.refsPerBlock)
    (hx : x ∈ nodes D levels ((D b).ref i)) : x ∈ nodes D (levels + 1) b := by
  rw [nodes_succ hb]
  exact Multiset.mem_cons_of_mem (Multiset.mem_of_le (child_nodes_le _ hi levels) hx)

theorem nodes_congr {levels b : Nat} (h : ∀ x ∈ nodes D levels b, D' x = D x) :
    nodes D' levels b = nodes D levels b := by
  induction levels generalizing b with
  | zero => rfl
  | succ levels ih =>
    by_cases hb : b = 0
    · simp [hb]
    · rw [nodes_succ hb, nodes_succ hb, h b (root_mem_nodes hb _)]
      congr 1
      refine Finset.sum_congr rfl (fun i hi => ?_)
      exact ih (fun x hx => h x (child_mem_nodes hb (Finset.mem_range.mp hi) hx))

theorem lookup_congr {offset levels b : Nat} (h : ∀ x ∈ nodes D levels b, D' x = D x) :
    lookup D' offset levels b = lookup D offset levels b := by
  induction levels generalizing b with
  | zero =>
    by_cases hb : b = 0
    · simp [hb]
    · simp [lookup, hb, h b (root_mem_nodes hb _)]
  | succ levels ih =>
    by_cases hb : b = 0
    · simp [hb]
    · rw [lookup_succ hb, lookup_succ hb, h b (root_mem_nodes hb _)]
      exact ih (fun x hx => h x (child_mem_nodes hb (indexAt_lt _ _) hx))

theorem sum_setRef {M : Type} [AddCommMonoid M] {parent : Block g} {slot : Nat}
    (hs : slot < g.refsPerBlock) (r : Nat) (f : Nat → M) :
    ∑ i ∈ Finset.range g.refsPerBlock, f ((parent.setRef slot r).ref i) =
      f r + ∑ i ∈ (Finset.range g.refsPerBlock).erase slot, f (parent.ref i) := by
  rw [← Finset.add_sum_erase _ _ (Finset.mem_range.mpr hs)]
  congr 1
  · simp [Block.ref_setRef hs]
  · refine Finset.sum_congr rfl (fun i hi => ?_)
    rw [Block.ref_setRef hs, if_neg (Finset.ne_of_mem_erase hi)]

theorem sum_erase_ref {M : Type} [AddCommMonoid M] (parent : Block g) {slot : Nat}
    (hs : slot < g.refsPerBlock) (f : Nat → M) :
    ∑ i ∈ Finset.range g.refsPerBlock, f (parent.ref i) =
      f (parent.ref slot) + ∑ i ∈ (Finset.range g.refsPerBlock).erase slot, f (parent.ref i) :=
  (Finset.add_sum_erase _ (fun i => f (parent.ref i)) (Finset.mem_range.mpr hs)).symm

/-- No reference below block `b` leads to offsets from `limit` on only, counted from the
first offset of its tree. -/
def Trimmed (D : Image g) : Nat → Nat → Nat → Prop
  | 0, limit, b => limit = 0 → b = 0
  | levels + 1, limit, b => (limit = 0 → b = 0) ∧ (b ≠ 0 → ∀ i, i < g.refsPerBlock →
      Trimmed D levels (limit - i * capacity g levels) ((D b).ref i))

theorem trimmed_hole (D : Image g) (levels limit : Nat) : Trimmed D levels limit 0 := by
  cases levels with
  | zero => exact fun _ => rfl
  | succ levels => exact ⟨fun _ => rfl, fun h => absurd rfl h⟩

theorem Trimmed.eq_zero {levels b : Nat} (h : Trimmed D levels 0 b) : b = 0 := by
  cases levels with
  | zero => exact h rfl
  | succ levels => exact h.1 rfl

theorem Trimmed.mono {levels limit limit' b : Nat} (h : Trimmed D levels limit b)
    (hle : limit ≤ limit') : Trimmed D levels limit' b := by
  induction levels generalizing limit limit' b with
  | zero => exact fun hz => h (by omega)
  | succ levels ih =>
    obtain ⟨hz, hrefs⟩ := h
    exact ⟨fun he => hz (by omega), fun hb i hi => ih (hrefs hb i hi) (by omega)⟩

theorem Trimmed.congr {levels limit b : Nat} (h : Trimmed D levels limit b)
    (he : ∀ x ∈ nodes D levels b, D' x = D x) : Trimmed D' levels limit b := by
  induction levels generalizing limit b with
  | zero => exact h
  | succ levels ih =>
    obtain ⟨hz, hrefs⟩ := h
    refine ⟨hz, fun hb i hi => ?_⟩
    rw [he b (root_mem_nodes hb _)]
    exact ih (hrefs hb i hi) fun x hx => he x (child_mem_nodes hb hi hx)

theorem Trimmed.spine {levels limit b r : Nat} (h : Trimmed D levels limit r) (hpos : 0 < limit)
    (hD : D b = Block.zero.setRef 0 r) : Trimmed D (levels + 1) limit b := by
  have h4 := g.four_le_refs
  refine ⟨fun hz => absurd hz (by omega), fun _ i _ => ?_⟩
  rw [hD, Block.ref_setRef (by omega)]
  split
  · rename_i hi
    rw [hi, Nat.zero_mul]
    exact h
  · rw [Block.ref_zero]
    exact trimmed_hole _ _ _

end Egos.Disk.Treedisk
